import WikiExpansion.Proofs.Frame

/-!
# How deep tokens nest

A tag that is expanded nests the token sequences among the sides of its
attributes.  `Shallow n` bounds how often that goes on: what is nested in a token
at depth `n + 1` has depth `n`.  Every token has some depth (`exists_shallow`).

What is put back into a tag stems from the expanded pairs, but for texts and
markers: a property that these have, and all tokens in the expanded sides, is one
of all tokens that the new tag nests (`all_rebuild`).  So a tag comes out no deeper
than its expanded sides are.
-/

namespace WikiExpansion

open Vocabulary

/-! ### Depth -/

namespace Token

/-- The sequence is a side of an attribute of the token, which is to be expanded. -/
def Nests (t : Token) (ts : List Token) : Prop :=
  ∃ g a, t.expandableTag? = some g ∧ a ∈ g.attributes ∧ (a.key = .tokens ts ∨ a.value = .tokens ts)

def Shallow : Nat → Token → Prop
  | 0, t => ∀ ts, ¬ t.Nests ts
  | n + 1, t => ∀ ts, t.Nests ts → ∀ u ∈ ts, Shallow n u

theorem Shallow.succ {n : Nat} {t : Token} (h : t.Shallow n) : t.Shallow (n + 1) := by
  induction n generalizing t with
  | zero => exact fun ts hts => absurd hts (h ts)
  | succ n ih => exact fun ts hts u hu => ih (h ts hts u hu)

theorem Shallow.mono {m n : Nat} (hmn : m ≤ n) {t : Token} (h : t.Shallow m) : t.Shallow n := by
  induction hmn with
  | refl => exact h
  | step _ ih => exact ih.succ

theorem sizeOf_lt_of_nests {t u : Token} {ts : List Token} (h : t.Nests ts) (hu : u ∈ ts) :
    sizeOf u < sizeOf t := by
  obtain ⟨g, a, hg, ha, hside⟩ := h
  have hmem := List.sizeOf_lt_of_mem hu
  have hattr := List.sizeOf_lt_of_mem ha
  have hsides : sizeOf ts < sizeOf a := by
    cases a with
    | mk key value keySource valueSource offsets =>
      rcases hside with hside | hside
      · obtain rfl : key = .tokens ts := hside
        simp only [Attribute.mk.sizeOf_spec, Content.tokens.sizeOf_spec]
        omega
      · obtain rfl : value = .tokens ts := hside
        simp only [Attribute.mk.sizeOf_spec, Content.tokens.sizeOf_spec]
        omega
  have htag : sizeOf g.attributes < sizeOf g := by
    cases g
    simp only [Tag.mk.sizeOf_spec]
    omega
  cases t with
  | opening t =>
    obtain rfl := Option.some.inj hg
    simp only [opening.sizeOf_spec]
    omega
  | selfClosing t =>
    obtain rfl := Option.some.inj hg
    simp only [selfClosing.sizeOf_spec]
    omega
  | _ => cases hg

theorem shallow_of_sizeOf_le {n : Nat} {t : Token} (h : sizeOf t ≤ n) : t.Shallow n := by
  induction n generalizing t with
  | zero =>
    intro ts hts
    cases t <;> simp at h
  | succ n ih =>
    intro ts hts u hu
    have := sizeOf_lt_of_nests hts hu
    exact ih (by omega)

theorem exists_shallow (ts : List Token) : ∃ n, ∀ t ∈ ts, t.Shallow n := by
  refine ⟨sizeOf ts, fun t ht => shallow_of_sizeOf_le ?_⟩
  have := List.sizeOf_lt_of_mem ht
  omega

/-- Only tags nest anything. -/
theorem not_nests {t : Token} (h : t.expandableTag? = none) (ts : List Token) : ¬ t.Nests ts := by
  rintro ⟨g, a, hg, -⟩
  rw [h] at hg
  cases hg

theorem shallow_of_not_nests {t : Token} (h : ∀ ts, ¬ t.Nests ts) (n : Nat) : t.Shallow n :=
  Shallow.mono (Nat.zero_le n) h

end Token

/-! ### What all tokens of the sides have -/

def Content.All (Q : Token → Prop) (c : Content Token) : Prop :=
  ∀ ts, c = .tokens ts → ∀ u ∈ ts, Q u

def Attribute.All (Q : Token → Prop) (a : Attribute Token) : Prop := a.key.All Q ∧ a.value.All Q

section All

variable {Q : Token → Prop}

theorem Content.all_text (s : String) : (Content.text s).All Q := by
  intro ts hts
  cases hts

theorem Attribute.all_of_texts {a : Attribute Token} (h : a.needsExpansion = false) : a.All Q := by
  obtain ⟨⟨k, hk⟩, v, hv⟩ := Attribute.exists_texts h
  refine ⟨?_, ?_⟩
  · rw [hk]
    exact Content.all_text k
  · rw [hv]
    exact Content.all_text v

theorem Content.all_tokens {ts : List Token} : (Content.tokens ts).All Q ↔ ∀ u ∈ ts, Q u := by
  constructor
  · exact fun h => h ts rfl
  · intro h us hus
    obtain rfl := Content.tokens.inj hus
    exact h

theorem all_strip {w : Bool} {c : Content Token} (h : c.All Q) : (strip w c).value.All Q := by
  rcases value_strip_cases w c with ⟨s, hs⟩ | ⟨ts, rfl, hts, -⟩
  · rw [hs]
    exact Content.all_text s
  · rw [hts]
    exact Content.all_tokens.2 fun u hu => h ts rfl u (List.mem_filter.1 hu).1

/-- What an expanded key leaves for the value is text, or text with the tokens from
the first tag or marker of the key on behind it. -/
theorem infer?_cases {c v : Content Token} {k : String} (h : KeyValue.infer? c = some (k, v)) :
    (∃ s, v = .text s) ∨ ∃ ts s u us, c = .tokens ts ∧ (leadingText ts).2 = u :: us ∧
      v = .tokens (.text s :: u :: us) := by
  cases c with
  | text s =>
    obtain ⟨kv, -, he⟩ := Option.map_eq_some_iff.1 h
    obtain ⟨-, rfl⟩ := Prod.mk.inj he
    exact .inl ⟨_, rfl⟩
  | tokens ts =>
    rw [KeyValue.infer?] at h
    rcases hr : leadingText ts with ⟨s, rest⟩
    rw [hr] at h
    cases rest with
    | nil =>
      obtain ⟨kv, -, he⟩ := Option.map_eq_some_iff.1 h
      obtain ⟨-, rfl⟩ := Prod.mk.inj he
      exact .inl ⟨_, rfl⟩
    | cons u us =>
      obtain ⟨kv, -, he⟩ := Option.map_eq_some_iff.1 h
      obtain ⟨-, rfl⟩ := Prod.mk.inj he
      exact .inr ⟨ts, _, u, us, rfl, by rw [hr], rfl⟩

/-- What is left behind leading text stood at the end. -/
theorem leadingText_suffix (ts : List Token) : (leadingText ts).2 <:+ ts := by
  induction ts with
  | nil => exact List.suffix_refl _
  | cons t ts ih =>
    rw [leadingText]
    split
    · exact List.suffix_refl _
    · exact ih.trans (List.suffix_cons t ts)

theorem all_infer? (hq : ∀ s, Q (.text s)) {c v : Content Token} {k : String} (h : c.All Q)
    (hi : KeyValue.infer? c = some (k, v)) : v.All Q := by
  rcases infer?_cases hi with ⟨s, rfl⟩ | ⟨ts, s, u, us, rfl, hrest, rfl⟩
  · exact Content.all_text s
  · refine Content.all_tokens.2 fun x hx => ?_
    rcases List.mem_cons.1 hx with rfl | hx
    · exact hq s
    · exact h ts rfl x ((leadingText_suffix ts).subset (hrest ▸ hx))

/-! ### Pairs -/

theorem all_reconcileKey (hq : ∀ s, Q (.text s)) {w : Bool} {p : Held (Attribute Token)}
    (h : p.get.All Q) : (reconcileKey w p).pair.get.All Q ∧
      ∀ b ∈ (reconcileKey w p).findings.added, b.All Q := by
  have hstrip := all_strip (w := w) h.1
  have hr := reconcilesKey w p
  generalize reconcileKey w p = step at hr ⊢
  cases hr with
  | undecided =>
    refine ⟨⟨Content.all_text _, h.2⟩, fun b hb => ?_⟩
    obtain rfl := List.mem_singleton.1 hb
    exact ⟨Content.all_text _, h.2⟩
  | plain | alone => exact ⟨⟨hstrip, h.2⟩, nofun⟩
  | whole _ _ _ hi => exact ⟨⟨Content.all_text _, all_infer? hq hstrip hi⟩, nofun⟩

theorem all_settleValue (hq : ∀ s, Q (.text s)) (hm : ∀ m, Q (.marker m)) {w : Bool}
    {a : Attribute Token} {step : KeyStep} (h : step.pair.get.All Q) :
    (settleValue w a step).1.get.All Q ∧ ∀ b ∈ (settleValue w a step).2.added, b.All Q := by
  have hr := settlesValue w a step
  generalize settleValue w a step = r at hr ⊢
  cases hr with
  | kept | reserved => exact ⟨h, nofun⟩
  | stripped => exact ⟨⟨h.1, all_strip h.2⟩, nofun⟩
  | deferred =>
    refine ⟨h, fun b hb => ?_⟩
    obtain ⟨type, -, rfl⟩ := Option.map_eq_some_iff.1 (Option.mem_toList.1 hb)
    refine ⟨Content.all_text _, Content.all_tokens.2 fun u hu => ?_⟩
    rcases List.mem_cons.1 hu with rfl | hu
    · exact hq _
    · obtain rfl := List.mem_singleton.1 hu
      exact hm _

theorem all_reconcilePair (hq : ∀ s, Q (.text s)) (hm : ∀ m, Q (.marker m)) {w : Bool}
    (a : Attribute Token) {p : Held (Attribute Token)} (h : p.get.All Q) :
    (reconcilePair w a p).1.get.All Q ∧ ∀ b ∈ (reconcilePair w a p).2.added, b.All Q := by
  have hc : (p.carrySources a).get.All Q := by
    obtain ⟨hk, hv⟩ := get_carrySources a p
    rw [Attribute.All, hk, hv]
    exact h
  have hr := reconcilesPair w a p
  generalize reconcilePair w a p = r at hr ⊢
  cases hr with
  | empty => exact ⟨hc, nofun⟩
  | text => exact all_settleValue hq hm hc
  | tokens =>
    obtain ⟨hkey, hkeyAdded⟩ := all_reconcileKey hq (w := w) hc
    obtain ⟨hpair, hadded⟩ := all_settleValue hq hm (w := w) (a := a) hkey
    refine ⟨hpair, fun b hb => ?_⟩
    rcases List.mem_append.1 hb with hb | hb
    · exact hkeyAdded b hb
    · exact hadded b hb

theorem all_reconcile (hq : ∀ s, Q (.text s)) (hm : ∀ m, Q (.marker m)) {w : Bool}
    (as : List (Attribute Token)) {hs : List (Held (Attribute Token))}
    (h : ∀ p ∈ hs, p.get.All Q) :
    (∀ p ∈ (reconcile w as hs).1, p.get.All Q) ∧
      ∀ b ∈ (reconcile w as hs).2.added, b.All Q := by
  refine ⟨fun p hp => ?_, fun b hb => ?_⟩
  · rcases mem_reconcile hp with hp | ⟨a, -, q, hq', rfl⟩
    · exact h p hp
    · exact (all_reconcilePair hq hm a (h q hq')).1
  · obtain ⟨a, -, p, hp, hb⟩ := mem_added_reconcile hb
    exact (all_reconcilePair hq hm a (h p hp)).2 b hb

end All

/-! ### The new tag -/

/-- A property that pairs of texts have, and that a pair keeps when its value
becomes a text: an edit keeps it. -/
structure Editable (P : Attribute Token → Prop) : Prop where
  texts : ∀ k v, P (newAttribute (.text k) (.text v))
  withText : ∀ a v, P a → P { a with value := .text v }

namespace Editable

variable {P : Attribute Token → Prop} {hs : List (Held (Attribute Token))}

theorem append (he : Editable P) (k v : String) (h : ∀ q ∈ hs, P q.get) :
    ∀ q ∈ hs ++ [.own (newAttribute (.text k) (.text v))], P q.get := by
  intro q hq
  rcases List.mem_append.1 hq with hq | hq
  · exact h q hq
  · obtain rfl := List.mem_singleton.1 hq
    exact he.texts k v

theorem write (he : Editable P) {i : Nat} {g : Held (Attribute Token)} (hi : hs[i]? = some g)
    (v : String) (h : ∀ q ∈ hs, P q.get) :
    ∀ q ∈ hs.set i (.own { g.get with value := .text v }), P q.get := by
  intro q hq
  rcases List.mem_or_eq_of_mem_set hq with hq | rfl
  · exact h q hq
  · exact he.withText _ v (h g (List.mem_of_getElem? hi))

theorem set (he : Editable P) (k v : String) (h : ∀ q ∈ hs, P q.get) :
    ∀ q ∈ AttributeEdit.apply hs (.set k (.text v)), P q.get := by
  have hks := AttributeEdit.edits hs (.set k (.text v))
  generalize AttributeEdit.apply hs (.set k (.text v)) = ks at hks ⊢
  cases hks with
  | set _ hi => exact he.write hi v h
  | setNew => exact he.append k v h

theorem addWord (he : Editable P) (k w : String) (h : ∀ q ∈ hs, P q.get) :
    ∀ q ∈ AttributeEdit.apply hs (.addWord k w), P q.get := by
  have hks := AttributeEdit.edits hs (.addWord k w)
  generalize AttributeEdit.apply hs (.addWord k w) = ks at hks ⊢
  cases hks with
  | listed => exact h
  | word _ hi => exact he.write hi _ h
  | wordNew => exact he.append k w h

theorem group (he : Editable P) (ids : IdSource) (last : Marker Token) (ms : List (Marker Token))
    (h : ∀ q ∈ hs, P q.get) : ∀ q ∈ (group ids last ms hs).1.attributes, P q.get := by
  cases hid : Attribute.lookupText "about" (hs.map Held.get) with
  | some id =>
    rw [group_of_about hid]
    exact he.addWord _ _ h
  | none =>
    rw [group_of_no_about hid]
    exact he.addWord _ _ (he.set _ _ h)

theorem rebuild (he : Editable P) {o : Options} {ids : IdSource} {as : List (Attribute Token)}
    {hs : List (Held (Attribute Token))} {r : Rebuilt}
    (hpairs : ∀ p ∈ (reconcile o.wrapTemplates as hs).1, P p.get)
    (hadded : ∀ b ∈ (reconcile o.wrapTemplates as hs).2.added, P b)
    (hr : (rebuild o ids as hs).1 = some r) : ∀ p ∈ r.attributes, P p.get := by
  have hall : ∀ p ∈ settledPairs o.wrapTemplates as hs, P p.get := by
    intro p hp
    rcases List.mem_append.1 hp with hp | hp
    · exact hpairs p hp
    · obtain ⟨b, hb, rfl⟩ := List.mem_map.1 hp
      exact hadded b hb
  have hb := rebuilds o ids as hs
  generalize WikiExpansion.rebuild o ids as hs = out at hb hr
  cases hb with
  | unmodified => cases hr
  | unmarked =>
    obtain rfl := Option.some.inj hr
    exact hall
  | marked =>
    obtain rfl := Option.some.inj hr
    exact he.group ids _ _ hall

end Editable

theorem editable_all (Q : Token → Prop) : Editable (Attribute.All Q) where
  texts k v := ⟨Content.all_text k, Content.all_text v⟩
  withText _ v h := ⟨h.1, Content.all_text v⟩

/-- **What is put back into a tag stems from the expanded pairs**, but for texts and
markers. -/
theorem all_rebuild {Q : Token → Prop} (hq : ∀ s, Q (.text s)) (hm : ∀ m, Q (.marker m))
    {o : Options} {ids : IdSource} {as : List (Attribute Token)}
    {hs : List (Held (Attribute Token))} {r : Rebuilt} (h : ∀ p ∈ hs, p.get.All Q)
    (hr : (rebuild o ids as hs).1 = some r) : ∀ p ∈ r.attributes, p.get.All Q := by
  obtain ⟨hpairs, hadded⟩ := all_reconcile hq hm (w := o.wrapTemplates) as h
  exact (editable_all Q).rebuild hpairs hadded hr

/-! ### How deep a tag comes out -/

section Depth

variable {n : Nat}

theorem Token.expandableTag?_withTag {t : Token} {g : Tag Token} (hg : t.expandableTag? = some g)
    (g' : Tag Token) : (t.withTag g').expandableTag? = some g' := by
  cases t with
  | opening _ | selfClosing _ => rfl
  | _ => cases hg

theorem shallow_withTag {t : Token} {g g' : Tag Token} (hg : t.expandableTag? = some g)
    (h : ∀ a ∈ g'.attributes, a.All (Token.Shallow n)) : (t.withTag g').Shallow (n + 1) := by
  rintro ts ⟨k, a, hk, ha, hside⟩ u hu
  obtain rfl := Option.some.inj ((Token.expandableTag?_withTag hg g').symm.trans hk)
  rcases hside with hside | hside
  · exact (h a ha).1 ts hside u hu
  · exact (h a ha).2 ts hside u hu

/-- A tag of which no pair changes is left by every expander. -/
theorem changes_eq_false_of_shallow {t : Token} {g : Tag Token} (hg : t.expandableTag? = some g)
    (h : t.Shallow 0) : changes g.attributes = false := by
  refine List.any_eq_false.2 fun a ha hc => ?_
  rcases Bool.or_eq_true_iff.1 (Bool.and_eq_true_iff.1 hc).1 with hk | hv
  · cases hkey : a.key with
    | text s =>
      rw [hkey] at hk
      cases hk
    | tokens ts => exact h ts ⟨g, a, hg, ha, .inl hkey⟩
  · cases hvalue : a.value with
    | text s =>
      rw [hvalue] at hv
      cases hv
    | tokens ts => exact h ts ⟨g, a, hg, ha, .inr hvalue⟩

/-- A tag is put back no deeper than it was, where its sides were expanded to nothing
deeper than they were. -/
theorem shallow_returnAttributes {o : Options} {ids : IdSource} {t : Token} {g : Tag Token}
    {hs : List (Held (Attribute Token))} {us : List Token} (hg : t.expandableTag? = some g)
    (ht : t.Shallow n) (hx : List.Forall₂ Attribute.ExpandsTo g.attributes hs)
    (hn : ∀ m, m + 1 = n → ∀ p ∈ hs, p.get.All (Token.Shallow m))
    (h : (returnAttributes o ids t hs).1 = .ok us) : ∀ u ∈ us, u.Shallow n := by
  have self (h : [t] = us) : ∀ u ∈ us, u.Shallow n := h ▸ List.forall_mem_singleton.2 ht
  cases n with
  | zero =>
    rw [returnAttributes_of_changes_eq_false ids hg hx (changes_eq_false_of_shallow hg ht)] at h
    exact self (Except.ok.inj h)
  | succ n =>
    have hr := returns o ids t hs
    generalize returnAttributes o ids t hs = r at h hr
    cases hr with
    | ineligible | unmodified => exact self (Except.ok.inj h)
    | malformed => cases h
    | @rebuilt k r _ hk _ hb =>
      obtain rfl := Option.some.inj (hg.symm.trans hk)
      obtain rfl := Except.ok.inj h
      have hnew := all_rebuild
        (fun s => Token.shallow_of_not_nests (Token.not_nests (t := .text s) rfl) n)
        (fun m => Token.shallow_of_not_nests (Token.not_nests (t := .marker m) rfl) n)
        (hn n rfl) (congrArg Prod.fst hb)
      intro u hu
      rcases List.mem_append.1 hu with hu | hu
      · obtain ⟨m, -, rfl⟩ := List.mem_map.1 hu
        exact Token.shallow_of_not_nests (Token.not_nests rfl) _
      · obtain rfl := List.mem_singleton.1 hu
        refine shallow_withTag hg fun a ha => ?_
        obtain ⟨p, hp, rfl⟩ := List.mem_map.1 ha
        exact hnew p hp

end Depth

end WikiExpansion
