import WikiExpansion.Proofs.Settled

/-!
# What stripping takes out of a side

Stripping a side drops its wrappers and nothing else (`strip_projection`).  What is
left does not depend on whether the type of the wrappers is asked for, has no wrapper
any more, and reads as plain text like the side itself.  It is a text where nothing
but texts was left, and otherwise the tokens that were left, in their order.

The type that is reported is read off the earliest wrapper that has one: it is the
first word of its `typeof` that starts an object.
-/

namespace WikiExpansion

open Vocabulary

/-! ### The first of its kind -/

def FirstOf {α : Type} (P : α → Prop) (xs : List α) (x : α) : Prop :=
  ∃ before after, xs = before ++ x :: after ∧ P x ∧ ∀ y ∈ before, ¬ P y

theorem find?_eq_some_iff_firstOf {α : Type} {p : α → Bool} {P : α → Prop}
    (h : ∀ a, p a = true ↔ P a) {xs : List α} {x : α} :
    xs.find? p = some x ↔ FirstOf P xs x := by
  rw [List.find?_eq_some_iff_append]
  constructor
  · rintro ⟨hx, before, after, hxs, hb⟩
    refine ⟨before, after, hxs, (h x).1 hx, fun y hy hp => ?_⟩
    have hn := hb y hy
    rw [(h y).2 hp] at hn
    cases hn
  · rintro ⟨before, after, hxs, hx, hb⟩
    refine ⟨(h x).2 hx, before, after, hxs, fun y hy => ?_⟩
    rw [Bool.not_eq_true', Bool.eq_false_iff]
    exact fun hp => hb y hy ((h y).1 hp)

theorem findSome?_eq_some_iff_firstOf {α β : Type} {f : α → Option β} {R : α → β → Prop}
    (h : ∀ a b, f a = some b ↔ R a b) {xs : List α} {b : β} :
    xs.findSome? f = some b ↔ ∃ x, FirstOf (fun a => ∃ c, R a c) xs x ∧ R x b := by
  rw [List.findSome?_eq_some_iff]
  constructor
  · rintro ⟨before, x, after, hxs, hx, hb⟩
    have hr := (h x b).1 hx
    refine ⟨x, ⟨before, after, hxs, ⟨b, hr⟩, ?_⟩, hr⟩
    rintro y hy ⟨c, hc⟩
    have hn := hb y hy
    rw [(h y c).2 hc] at hn
    cases hn
  · rintro ⟨x, ⟨before, after, hxs, -, hb⟩, hr⟩
    refine ⟨before, x, after, hxs, (h x b).2 hr, fun y hy => ?_⟩
    cases hf : f y with
    | none => rfl
    | some c => exact absurd ⟨c, (h y c).1 hf⟩ (hb y hy)

/-! ### Wrappers -/

/-- A marker, or a tag named `meta`, be it open, closed in itself or closing. -/
inductive Token.IsWrapper : Token → Prop
  | marker (m : Marker Token) : IsWrapper (.marker m)
  | opening {g : Tag Token} : g.name = "meta" → IsWrapper (.opening g)
  | selfClosing {g : Tag Token} : g.name = "meta" → IsWrapper (.selfClosing g)
  | closing {g : Tag Token} : g.name = "meta" → IsWrapper (.closing g)

theorem Token.isMeta_iff {t : Token} : t.isMeta = true ↔ t.IsWrapper := by
  constructor
  · intro h
    cases t with
    | opening g => exact .opening (beq_iff_eq.1 h)
    | selfClosing g => exact .selfClosing (beq_iff_eq.1 h)
    | closing g => exact .closing (beq_iff_eq.1 h)
    | marker m => exact .marker m
    | text | newline | comment => cases h
  · intro h
    cases h with
    | marker m => rfl
    | opening hg | selfClosing hg | closing hg => exact beq_iff_eq.2 hg

instance (t : Token) : Decidable t.IsWrapper := decidable_of_iff _ Token.isMeta_iff

def unwrapped (ts : List Token) : List Token := ts.filter fun t => ¬ t.IsWrapper

theorem filter_isMeta (ts : List Token) : ts.filter (!·.isMeta) = unwrapped ts := by
  refine List.filter_congr fun t _ => ?_
  rw [Bool.eq_iff_iff, Bool.not_eq_true', decide_eq_true_iff, Bool.eq_false_iff,
    ne_eq, Token.isMeta_iff]

/-- The word names an object where what it produced starts, not where it ends. -/
def StartsObject (word : String) : Prop :=
  object.toList <+: word.toList ∧ ¬ closingWrapper.toList <:+ word.toList

/-- The first `typeof` of the tag is plain text, and this is the first of its words that
starts an object. -/
def Tag.NamesObject (g : Tag Token) (type : String) : Prop :=
  ∃ a s, FirstOf (·.key = .text "typeof") g.attributes a ∧ a.value = .text s ∧
    FirstOf StartsObject (Text.words s) type

def Token.WrapsObject (t : Token) (type : String) : Prop :=
  ∃ g, t.tag? = some g ∧ g.name = "meta" ∧ g.NamesObject type

theorem objectType?_eq_some_iff {s type : String} :
    objectType? s = some type ↔ FirstOf StartsObject (Text.words s) type := by
  refine find?_eq_some_iff_firstOf fun w => ?_
  rw [Bool.and_eq_true, Text.startsWith_iff, Bool.not_eq_true', Bool.eq_false_iff, ne_eq,
    Text.endsWith_iff]
  rfl

theorem Tag.textAttribute?_eq_some_iff {g : Tag Token} {k s : String} :
    g.textAttribute? k = some s ↔
      ∃ a, FirstOf (·.key = .text k) g.attributes a ∧ a.value = .text s := by
  have hfind {a : Attribute Token} :
      g.attributes.find? (·.isNamed k) = some a ↔ FirstOf (·.key = .text k) g.attributes a :=
    find?_eq_some_iff_firstOf fun a => Attribute.isNamed_iff
  rw [textAttribute?, Attribute.lookupText, Attribute.lookup, Option.bind_eq_some_iff]
  constructor
  · rintro ⟨c, hc, hs⟩
    obtain ⟨a, ha, rfl⟩ := Option.map_eq_some_iff.1 hc
    exact ⟨a, hfind.1 ha, Content.text?_eq_some_iff.1 hs⟩
  · rintro ⟨a, ha, hs⟩
    exact ⟨a.value, Option.map_eq_some_iff.2 ⟨a, hfind.2 ha, rfl⟩, Content.text?_eq_some_iff.2 hs⟩

theorem Token.wrapperType?_eq_some_iff {t : Token} {type : String} :
    t.wrapperType? = some type ↔ t.WrapsObject type := by
  unfold wrapperType? WrapsObject
  cases t.tag? with
  | none =>
    constructor
    · intro h
      cases h
    · rintro ⟨g, hg, -⟩
      cases hg
  | some g =>
    simp only [Option.some.injEq, exists_eq_left']
    by_cases hname : g.name = "meta"
    · rw [if_pos hname, Option.bind_eq_some_iff, and_iff_right hname]
      constructor
      · rintro ⟨s, hs, htype⟩
        obtain ⟨a, ha, hv⟩ := Tag.textAttribute?_eq_some_iff.1 hs
        exact ⟨a, s, ha, hv, objectType?_eq_some_iff.1 htype⟩
      · rintro ⟨a, s, ha, hv, htype⟩
        exact ⟨s, Tag.textAttribute?_eq_some_iff.2 ⟨a, ha, hv⟩, objectType?_eq_some_iff.2 htype⟩
    · rw [if_neg hname]
      constructor
      · intro h
        cases h
      · rintro ⟨h, -⟩
        exact absurd h hname

/-! ### Stripping -/

theorem Token.isText_iff {t : Token} : t.isText = true ↔ ∃ s, t = .text s := by
  constructor
  · intro h
    cases t with
    | text s => exact ⟨s, rfl⟩
    | _ => cases h
  · rintro ⟨s, rfl⟩
    rfl

theorem value_strip_tokens (w : Bool) (ts : List Token) :
    (strip w (.tokens ts)).value = collapse (unwrapped ts) := by
  rw [← filter_isMeta]
  rfl

/-- Which wrapper is reported makes no difference to what is left. -/
theorem value_strip (w w' : Bool) (c : Content Token) : (strip w c).value = (strip w' c).value := by
  cases c with
  | text s => rfl
  | tokens ts => rw [value_strip_tokens, value_strip_tokens]

def AllTexts (ts : List Token) : Prop := ∀ t ∈ ts, ∃ s, t = .text s

theorem all_isText_iff {ts : List Token} : ts.all Token.isText = true ↔ AllTexts ts := by
  rw [List.all_eq_true]
  exact forall₂_congr fun t _ => Token.isText_iff

/-- Tokens collapse to a text exactly where they are nothing but texts. -/
theorem exists_collapse_eq_text_iff {ts : List Token} :
    (∃ s, collapse ts = .text s) ↔ AllTexts ts := by
  rw [← all_isText_iff, collapse]
  by_cases h : ts.all Token.isText = true
  · rw [if_pos h]
    exact ⟨fun _ => h, fun _ => ⟨_, rfl⟩⟩
  · rw [if_neg h]
    constructor
    · rintro ⟨s, hs⟩
      cases hs
    · exact fun ha => absurd ha h

theorem collapse_eq_tokens_iff {ts us : List Token} :
    collapse ts = .tokens us ↔ us = ts ∧ ¬ AllTexts ts := by
  rw [← all_isText_iff, collapse]
  by_cases h : ts.all Token.isText = true
  · rw [if_pos h]
    constructor
    · intro hs
      cases hs
    · exact fun hu => absurd h hu.2
  · rw [if_neg h, Content.tokens.injEq]
    exact ⟨fun hu => ⟨hu.symm, h⟩, fun hu => hu.1.symm⟩

theorem exists_strip_eq_text_iff {w : Bool} {c : Content Token} :
    (∃ s, (strip w c).value = .text s) ↔
      (∃ s, c = .text s) ∨ ∃ ts, c = .tokens ts ∧ AllTexts (unwrapped ts) := by
  cases c with
  | text s => exact ⟨fun _ => .inl ⟨s, rfl⟩, fun _ => ⟨s, rfl⟩⟩
  | tokens ts =>
    rw [value_strip_tokens, exists_collapse_eq_text_iff]
    constructor
    · exact fun h => .inr ⟨ts, rfl, h⟩
    · rintro (⟨s, hs⟩ | ⟨us, hus, h⟩)
      · cases hs
      · obtain rfl := Content.tokens.inj hus
        exact h

theorem strip_eq_tokens_iff {w : Bool} {c : Content Token} {us : List Token} :
    (strip w c).value = .tokens us ↔
      ∃ ts, c = .tokens ts ∧ us = unwrapped ts ∧ ¬ AllTexts us := by
  cases c with
  | text s =>
    constructor
    · intro h
      cases h
    · rintro ⟨ts, hts, -⟩
      cases hts
  | tokens ts =>
    rw [value_strip_tokens, collapse_eq_tokens_iff]
    constructor
    · rintro ⟨rfl, h⟩
      exact ⟨ts, rfl, rfl, h⟩
    · rintro ⟨xs, hxs, rfl, h⟩
      obtain rfl := Content.tokens.inj hxs
      exact ⟨rfl, h⟩

/-- The type that is reported, where it is asked for, is that of the earliest wrapper that
names one. -/
theorem objectType_strip_eq_some_iff {w : Bool} {c : Content Token} {type : String} :
    (strip w c).objectType = some type ↔ w = true ∧ ∃ ts t, c = .tokens ts ∧
      FirstOf (fun u => ∃ x, u.WrapsObject x) ts t ∧ t.WrapsObject type := by
  cases c with
  | text s =>
    constructor
    · intro h
      cases h
    · rintro ⟨-, ts, t, h, -⟩
      cases h
  | tokens ts =>
    cases w with
    | false =>
      constructor
      · intro h
        cases h
      · rintro ⟨h, -⟩
        cases h
    | true =>
      show ts.findSome? Token.wrapperType? = some type ↔ _
      rw [findSome?_eq_some_iff_firstOf fun _ _ => Token.wrapperType?_eq_some_iff]
      constructor
      · rintro ⟨t, ht⟩
        exact ⟨rfl, ts, t, rfl, ht⟩
      · rintro ⟨-, us, t, hus, ht⟩
        obtain rfl := Content.tokens.inj hus
        exact ⟨t, ht⟩

/-- **Stripping is a projection**: it drops the wrappers of a side and keeps the rest as
it is, and reports the type of the earliest wrapper that names one. -/
theorem strip_projection (w : Bool) (c : Content Token) :
    (∀ w', (strip w' c).value = (strip w c).value) ∧
      (∀ w', strip w' (strip w c).value = ⟨(strip w c).value, none⟩) ∧
      (strip w c).value.plainText = c.plainText ∧
      ((∃ s, (strip w c).value = .text s) ↔
        (∃ s, c = .text s) ∨ ∃ ts, c = .tokens ts ∧ AllTexts (unwrapped ts)) ∧
      (∀ us, (strip w c).value = .tokens us ↔
        ∃ ts, c = .tokens ts ∧ us = unwrapped ts ∧ ¬ AllTexts us) ∧
      ∀ type, (strip w c).objectType = some type ↔ w = true ∧ ∃ ts t, c = .tokens ts ∧
        FirstOf (fun u => ∃ x, u.WrapsObject x) ts t ∧ t.WrapsObject type :=
  ⟨fun w' => value_strip w' w c, (clean_strip w c).strip_eq, plainText_strip w c,
    exists_strip_eq_text_iff, fun _ => strip_eq_tokens_iff,
    fun _ => objectType_strip_eq_some_iff⟩

example : strip true (.tokens [.closing ⟨"meta", [], {}⟩, .text "a", .comment "b",
    .opening ⟨"meta", [newAttribute (.text "typeof") (.text "mw:Object/X/End mw:Object/Y")], {}⟩,
    .newline]) = ⟨.tokens [.text "a", .comment "b", .newline], some "mw:Object/Y"⟩ := rfl

end WikiExpansion
