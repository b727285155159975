import WikiExpansion.Proofs.Frame
import WikiExpansion.Proofs.Stripping

/-!
# The label of a tag with markers

A tag that markers stand before is labelled in its `typeof` with the producer of the last
of them.  The label is written as one more word of the first `typeof` in plain text, of
which no word is lost, or in a new one at the end (`returnAttributes_label`).

A `typeof` is read by another rule than it is written by: the first one counts, whatever
its value.  So the label can be read off the tag unless the first `typeof` still has
tokens; where it has, nothing is read, and the label stands in another attribute behind it.
-/

namespace WikiExpansion

open Vocabulary

/-! ### Words -/

namespace Text

def IsWord (w : List Char) : Prop := w ≠ [] ∧ ∀ c ∈ w, isBlank c = false

theorem consWord_append (w : List Char) (ws vs : List (List Char)) :
    consWord w (ws ++ vs) = consWord w ws ++ vs := by
  unfold consWord
  by_cases h : w = []
  · rw [if_pos h, if_pos h]
  · rw [if_neg h, if_neg h]
    rfl

theorem splitWords_append {b : Char} (hb : isBlank b = true) (cs ds : List Char) :
    splitWords (cs ++ b :: ds) = ((splitWords cs).1, (splitWords cs).2 ++ wordsOf ds) := by
  induction cs with
  | nil => exact splitWords_blank hb ds
  | cons c cs ih =>
    rw [List.cons_append]
    by_cases hc : isBlank c = true
    · rw [splitWords_blank hc, splitWords_blank hc, wordsOf, ih, consWord_append]
      rfl
    · have hc := Bool.eq_false_iff.2 hc
      rw [splitWords_nonblank hc, splitWords_nonblank hc, ih]

theorem wordsOf_append {b : Char} (hb : isBlank b = true) (cs ds : List Char) :
    wordsOf (cs ++ b :: ds) = wordsOf cs ++ wordsOf ds := by
  rw [wordsOf, splitWords_append hb, consWord_append]
  rfl

theorem splitWords_of_free {w : List Char} (hw : ∀ c ∈ w, isBlank c = false) :
    splitWords w = (w, []) := by
  induction w with
  | nil => rfl
  | cons c w ih =>
    rw [splitWords_nonblank (hw c List.mem_cons_self),
      ih fun d hd => hw d (List.mem_cons_of_mem _ hd)]

theorem IsWord.wordsOf_eq {w : List Char} (h : IsWord w) : wordsOf w = [w] := by
  rw [wordsOf, splitWords_of_free h.2]
  exact if_neg h.1

theorem isWord_of_mem_words {w s : String} (h : w ∈ words s) : IsWord w.toList := by
  obtain ⟨cs, hcs, rfl⟩ := List.mem_map.1 h
  rw [String.toList_ofList]
  exact isWord_of_mem_wordsOf hcs

/-- A word that is listed stands behind all others. -/
theorem words_appendWord {w : String} (h : IsWord w.toList) (current : String) :
    words (Attribute.appendWord w current) = words current ++ [w] := by
  have hw : (wordsOf w.toList).map String.ofList = [w] := by
    rw [h.wordsOf_eq, List.map_singleton, String.ofList_toList]
  unfold Attribute.appendWord words
  by_cases he : current = ""
  · rw [if_pos he, he]
    exact hw
  · have hsplit : (current ++ " " ++ w).toList = current.toList ++ ' ' :: w.toList := by
      rw [String.toList_append, String.toList_append, List.append_assoc]
      rfl
    rw [if_neg he, hsplit, wordsOf_append (by decide), List.map_append, hw]

end Text

/-! ### The first plain text under a key -/

namespace Attribute

variable {τ : Type}

/-- The text of the first attribute with the key whose value is plain text. -/
def firstText? (k : String) (as : List (Attribute τ)) : Option String :=
  (as.find? (·.isTextNamed k)).bind (·.value.text?)

/-- The first attribute with the key still has tokens. -/
def holdsTokens (k : String) (as : List (Attribute τ)) : Bool := (lookup k as).any Content.isTokens

theorem isNamed_of_isTextNamed {k : String} {a : Attribute τ} (h : a.isTextNamed k = true) :
    a.isNamed k = true := (Bool.and_eq_true_iff.1 h).1

theorem firstText?_cons (k : String) (a : Attribute τ) (as : List (Attribute τ)) :
    firstText? k (a :: as) =
      if a.isTextNamed k then a.value.text? else firstText? k as := by
  rw [firstText?, List.find?_cons]
  by_cases h : a.isTextNamed k = true
  · rw [h, if_pos rfl, Option.bind_some]
  · rw [Bool.eq_false_iff.2 h, if_neg Bool.false_ne_true]
    rfl

theorem holdsTokens_cons (k : String) (a : Attribute τ) (as : List (Attribute τ)) :
    holdsTokens k (a :: as) = if a.isNamed k then a.value.isTokens else holdsTokens k as := by
  unfold holdsTokens
  by_cases h : a.isNamed k = true
  · rw [lookup_cons_of_named h, if_pos h, Option.any_some]
  · rw [lookup_cons_of_not_named (Bool.eq_false_iff.2 h), if_neg h]

/-- What is read under a key is the first plain text there, unless tokens come first. -/
theorem lookupText_eq (k : String) (as : List (Attribute τ)) :
    lookupText k as = if holdsTokens k as then none else firstText? k as := by
  induction as with
  | nil => rfl
  | cons a as ih =>
    rw [holdsTokens_cons, firstText?_cons, lookupText]
    by_cases hn : a.isNamed k = true
    · rw [lookup_cons_of_named hn, if_pos hn, isTextNamed, hn, Bool.true_and, Option.bind_some]
      cases a.value with
      | text s => rfl
      | tokens ts => rfl
    · rw [lookup_cons_of_not_named (Bool.eq_false_iff.2 hn), if_neg hn, isTextNamed,
        Bool.eq_false_iff.2 hn, Bool.false_and, if_neg Bool.false_ne_true, ← ih]
      rfl

end Attribute

/-! ### Listing a word -/

namespace Held

variable {τ : Type} {k : String}

theorem firstText?_map_get (k : String) (hs : List (Held (Attribute τ))) :
    Attribute.firstText? k (hs.map get) =
      (hs.find? (·.get.isTextNamed k)).bind (·.get.value.text?) := by
  rw [Attribute.firstText?, List.find?_map, Option.bind_map]
  rfl

theorem firstText?_writeFirst (s t : String) (hs : List (Held (Attribute τ))) :
    Attribute.firstText? k ((writeFirst (Attribute.isTextNamed k)
        (fun a => { a with value := .text s }) ⟨.text k, .text t, none, none, none⟩ hs).map get) =
      if hs.any (·.get.isTextNamed k) then some s else some t := by
  have named (a : Attribute τ) (ha : a.isNamed k = true) (u : String) (as : List (Attribute τ)) :
      Attribute.firstText? k ({ a with value := .text u } :: as) = some u := by
    have htext : ({ a with value := .text u } : Attribute τ).isTextNamed k = true :=
      Bool.and_eq_true_iff.2 ⟨ha, rfl⟩
    rw [Attribute.firstText?_cons, if_pos htext]
    rfl
  induction hs with
  | nil => exact named ⟨.text k, .text t, none, none, none⟩ (Attribute.isNamed_text ..) t []
  | cons h hs ih =>
    rw [writeFirst, List.any_cons]
    by_cases hp : h.get.isTextNamed k = true
    · rw [if_pos hp, hp, Bool.true_or, if_pos rfl, List.map_cons, get_write]
      exact named h.get (Attribute.isNamed_of_isTextNamed hp) s _
    · rw [if_neg hp, List.map_cons, Attribute.firstText?_cons, if_neg hp, ih,
        Bool.eq_false_iff.2 hp, Bool.false_or]

theorem holdsTokens_writeFirst (s t : String) (hs : List (Held (Attribute τ))) :
    Attribute.holdsTokens k ((writeFirst (Attribute.isTextNamed k)
        (fun a => { a with value := .text s }) ⟨.text k, .text t, none, none, none⟩ hs).map get) =
      Attribute.holdsTokens k (hs.map get) := by
  induction hs with
  | nil =>
    rw [writeFirst, List.map_singleton, Attribute.holdsTokens_cons]
    exact if_pos (Attribute.isNamed_text ..)
  | cons h hs ih =>
    rw [writeFirst]
    by_cases hp : h.get.isTextNamed k = true
    · have hn := Attribute.isNamed_of_isTextNamed hp
      obtain ⟨u, -, hu⟩ := Attribute.isTextNamed_iff.1 hp
      rw [if_pos hp, List.map_cons, List.map_cons, get_write, Attribute.holdsTokens_cons,
        Attribute.holdsTokens_cons, if_pos hn, hu]
      exact if_pos hn
    · rw [if_neg hp, List.map_cons, List.map_cons, Attribute.holdsTokens_cons, ih,
        Attribute.holdsTokens_cons]

theorem find?_writeFirst {p q : Attribute τ → Bool} {f : Attribute τ → Attribute τ}
    {new : Attribute τ} (hp : ∀ a, p a = true → q a = false ∧ q (f a) = false)
    (hn : q new = false) (hs : List (Held (Attribute τ))) :
    ((writeFirst p f new hs).map get).find? q = (hs.map get).find? q := by
  induction hs with
  | nil =>
    rw [writeFirst, List.map_singleton]
    exact List.find?_cons_of_neg (by rw [get_own, hn]; exact Bool.false_ne_true)
  | cons h hs ih =>
    rw [writeFirst]
    by_cases hph : p h.get = true
    · obtain ⟨hq, hqf⟩ := hp _ hph
      rw [if_pos hph, List.map_cons, List.map_cons, get_write,
        List.find?_cons_of_neg (by rw [hqf]; exact Bool.false_ne_true),
        List.find?_cons_of_neg (by rw [hq]; exact Bool.false_ne_true)]
    · rw [if_neg hph, List.map_cons, List.map_cons, List.find?_cons, List.find?_cons, ih]

end Held

def Attribute.listed (w : String) : Option String → String
  | none => w
  | some current =>
    if (Text.words current).contains w then current else Attribute.appendWord w current

theorem Attribute.mem_words_listed {w : String} (h : Text.IsWord w.toList) (old : Option String) :
    w ∈ Text.words (listed w old) := by
  cases old with
  | none =>
    rw [listed, Text.words, h.wordsOf_eq, List.map_singleton, String.ofList_toList]
    exact List.mem_singleton_self w
  | some current =>
    rw [listed]
    by_cases hc : (Text.words current).contains w = true
    · rw [if_pos hc]
      exact List.contains_iff_mem.1 hc
    · rw [if_neg hc, Text.words_appendWord h]
      exact List.mem_append_right _ (List.mem_singleton_self w)

theorem Attribute.words_prefix_listed {w : String} (h : Text.IsWord w.toList) (current : String) :
    Text.words current <+: Text.words (listed w (some current)) := by
  rw [listed]
  split
  · exact List.prefix_refl _
  · rw [Text.words_appendWord h]
    exact List.prefix_append ..

namespace AttributeEdit

variable {τ : Type}

/-- A word is listed in the first plain text under the key, and which attribute with the
key comes first is left alone. -/
theorem addWord_listed (hs : List (Held (Attribute τ))) (k w : String) :
    Attribute.firstText? k ((AttributeEdit.apply hs (.addWord k w)).map Held.get) =
        some (Attribute.listed w (Attribute.firstText? k (hs.map Held.get))) ∧
      Attribute.holdsTokens k ((AttributeEdit.apply hs (.addWord k w)).map Held.get) =
        Attribute.holdsTokens k (hs.map Held.get) := by
  have hfirst := Held.firstText?_map_get k hs
  rw [apply, hfirst]
  cases hc : (hs.find? (·.get.isTextNamed k)).bind (·.get.value.text?) with
  | none =>
    have hnone := Attribute.not_isTextNamed_of_find? hc
    have hany : hs.any (·.get.isTextNamed k) = false :=
      List.any_eq_false.2 fun g hg => Bool.eq_false_iff.1 (hnone g hg)
    -- a word that is appended is written to the first text as well, for there is none
    have hwrite : Held.writeFirst (Attribute.isTextNamed k) (fun a => { a with value := .text w })
        ⟨.text k, .text w, none, none, none⟩ hs =
          hs ++ [.own ⟨.text k, .text w, none, none, none⟩] :=
      Held.writeFirst_append _ [] hnone
    refine ⟨?_, ?_⟩
    · rw [← hwrite, Held.firstText?_writeFirst, hany]
      rfl
    · rw [← hwrite, Held.holdsTokens_writeFirst]
  | some current =>
    have hany : hs.any (·.get.isTextNamed k) = true := by
      obtain ⟨g, hg, -⟩ := Option.bind_eq_some_iff.1 hc
      exact List.any_eq_true.2 ⟨g, List.mem_of_find?_eq_some hg, Attribute.isTextNamed_of_find? hg⟩
    simp only [Attribute.listed]
    by_cases hw : (Text.words current).contains w = true
    · rw [if_pos hw, if_pos hw, hfirst, hc]
      exact ⟨rfl, rfl⟩
    · rw [if_neg hw, if_neg hw, Held.firstText?_writeFirst, Held.holdsTokens_writeFirst, hany]
      exact ⟨rfl, rfl⟩

end AttributeEdit

/-! ### The label -/

section Label

variable {w : Bool} {m : Marker Token}

theorem FirstOf.mem {α : Type} {P : α → Prop} {xs : List α} {x : α} (h : FirstOf P xs x) :
    x ∈ xs := by
  obtain ⟨before, after, rfl, -⟩ := h
  exact List.mem_append_right _ List.mem_cons_self

theorem Marker.Reported.isWord (h : m.Reported w) :
    Text.IsWord (expandedLabel m.objectType).toList := by
  obtain ⟨c, hc⟩ := h
  obtain ⟨-, ts, t, -, -, g, -, -, a, s, -, -, hs⟩ := objectType_strip_eq_some_iff.1 hc
  have htype := Text.isWord_of_mem_words hs.mem
  have hname : ∀ d ∈ (producerName m.objectType).toList, Text.isBlank d = false := by
    intro d hd
    unfold producerName Text.dropLeading at hd
    split at hd
    · rw [String.toList_ofList] at hd
      exact htype.2 d (List.mem_of_mem_drop hd)
    · exact htype.2 d hd
  have hlabel : (expandedAttributes.toList.all fun d => !Text.isBlank d) = true := rfl
  rw [expandedLabel, String.toList_append]
  refine ⟨fun he => ?_, fun d hd => ?_⟩
  · cases (List.append_eq_nil_iff.1 he).1
  · rcases List.mem_append.1 hd with hd | hd
    · have hfree := List.all_eq_true.1 hlabel d hd
      rw [Bool.not_eq_true'] at hfree
      exact hfree
    · exact hname d hd

/-- An `about` that is written is nowhere in the way of a `typeof`. -/
theorem typeof_set_about (id : String) (hs : List (Held (Attribute Token))) :
    Attribute.firstText? "typeof"
          ((AttributeEdit.apply hs (.set "about" (.text id))).map Held.get) =
        Attribute.firstText? "typeof" (hs.map Held.get) ∧
      Attribute.holdsTokens "typeof"
          ((AttributeEdit.apply hs (.set "about" (.text id))).map Held.get) =
        Attribute.holdsTokens "typeof" (hs.map Held.get) := by
  have other (a : Attribute Token) (ha : a.isNamed "about" = true) : a.isNamed "typeof" = false :=
    Attribute.not_isNamed_of_ne (by decide) ha
  have otherText (a : Attribute Token) (ha : a.isNamed "about" = true) :
      a.isTextNamed "typeof" = false := by
    rw [Attribute.isTextNamed, other a ha, Bool.false_and]
  -- which `typeof` is found, by either rule, is not changed by what is written
  have found (q : Attribute Token → Bool)
      (hq : ∀ a, a.isNamed "about" = true → q a = false) :
      ((AttributeEdit.apply hs (.set "about" (.text id))).map Held.get).find? q =
        (hs.map Held.get).find? q :=
    Held.find?_writeFirst (p := (·.isNamed "about")) (f := fun a => { a with value := .text id })
      (fun a ha => ⟨hq a ha, hq _ ha⟩) (hq _ (Attribute.isNamed_text ..)) hs
  refine ⟨?_, ?_⟩
  · rw [Attribute.firstText?, found _ otherText]
    rfl
  · rw [Attribute.holdsTokens, Attribute.lookup, found _ other]
    rfl

/-- Grouping lists the label of the last marker. -/
theorem typeof_group (ids : IdSource) (last : Marker Token) (ms : List (Marker Token))
    (hs : List (Held (Attribute Token))) :
    Attribute.firstText? "typeof" ((group ids last ms hs).1.attributes.map Held.get) =
        some (Attribute.listed (expandedLabel last.objectType)
          (Attribute.firstText? "typeof" (hs.map Held.get))) ∧
      Attribute.holdsTokens "typeof" ((group ids last ms hs).1.attributes.map Held.get) =
        Attribute.holdsTokens "typeof" (hs.map Held.get) := by
  cases h : Attribute.lookupText "about" (hs.map Held.get) with
  | some id =>
    rw [group_of_about h]
    exact AttributeEdit.addWord_listed hs _ _
  | none =>
    rw [group_of_no_about h]
    obtain ⟨htext, hfirst⟩ := typeof_set_about ids.newAboutId.1 hs
    rw [← htext, ← hfirst]
    exact AttributeEdit.addWord_listed _ _ _

/-- How a tag with the attributes `bs` carries a label, which was put together from `as`. -/
structure Labelled (label : String) (as bs : List (Attribute Token)) (typeof : String) : Prop where
  /-- It stands in the first plain text `typeof`. -/
  text : Attribute.firstText? "typeof" bs = some typeof
  lists : label ∈ Text.words typeof
  keeps : ∀ current, Attribute.firstText? "typeof" as = some current →
    Text.words current <+: Text.words typeof
  /-- This is what is read as the `typeof` of the tag, unless tokens come first. -/
  read : Attribute.lookupText "typeof" bs =
    if Attribute.holdsTokens "typeof" as then none else some typeof

theorem labelled_group (ids : IdSource) {last : Marker Token} (hlast : last.Reported w)
    (ms : List (Marker Token)) (hs : List (Held (Attribute Token))) :
    ∃ typeof, Labelled (expandedLabel last.objectType) (hs.map Held.get)
      ((group ids last ms hs).1.attributes.map Held.get) typeof := by
  obtain ⟨htext, hfirst⟩ := typeof_group ids last ms hs
  refine ⟨_, htext, Attribute.mem_words_listed hlast.isWord _, fun current hc => ?_, ?_⟩
  · rw [hc]
    exact Attribute.words_prefix_listed hlast.isWord current
  · rw [Attribute.lookupText_eq, hfirst, htext]

end Label

theorem labelled_emitted {o : Options} {ids : IdSource} {tag : Tag Token}
    {expanded : List (Held (Attribute Token))} (hne : emittedMarkers o ids tag expanded ≠ []) :
    ∃ last typeof, (emittedMarkers o ids tag expanded).getLast? = some last ∧
      Labelled (expandedLabel last.objectType) (reconciled o.wrapTemplates tag expanded)
        ((emittedAttributes o ids tag expanded).map Held.get) typeof := by
  have he := emits o ids tag expanded
  generalize emittedMarkers o ids tag expanded = ms at he hne ⊢
  generalize emittedAttributes o ids tag expanded = out at he ⊢
  cases he with
  | unmodified | unmarked => exact absurd rfl hne
  | @marked last _ hlast =>
    have hreported : last.Reported o.wrapTemplates :=
      reported_reconcile (List.mem_of_getLast? hlast)
    obtain ⟨id, hid⟩ := markers_group ids last
      (reconcile o.wrapTemplates tag.attributes expanded).2.markers
      (settledPairs o.wrapTemplates tag.attributes expanded)
    obtain ⟨typeof, hlabel⟩ := labelled_group ids hreported
      (reconcile o.wrapTemplates tag.attributes expanded).2.markers
      (settledPairs o.wrapTemplates tag.attributes expanded)
    refine ⟨{ last with about := some id }, typeof, ?_, hlabel⟩
    rw [hid, List.getLast?_map, hlast]
    rfl

/-- **A tag with markers before it is labelled** with the producer of the last of them, in
the first `typeof` of the reconciled list that is plain text; and the label is what is
read, unless the first `typeof` of that list still has tokens. -/
theorem returnAttributes_label (o : Options) (ids : IdSource) {token t : Token}
    {expanded : List (Held (Attribute Token))} {ms : List (Marker Token)}
    (hout : (returnAttributes o ids token expanded).1 = .ok (ms.map .marker ++ [t]))
    (hne : ms ≠ []) :
    ∃ tag tag' last typeof, token.expandableTag? = some tag ∧ t = token.withTag tag' ∧
      ms.getLast? = some last ∧
      Labelled (expandedAttributes ++ last.producer) (reconciled o.wrapTemplates tag expanded)
        tag'.attributes typeof := by
  have single {u : Token} : (.ok [u] : Outcome (List Token)) ≠ .ok (ms.map .marker ++ [t]) := by
    intro he
    have hl := congrArg List.length (Except.ok.inj he)
    rw [List.length_append, List.length_map, List.length_singleton, List.length_singleton] at hl
    have := List.length_pos_iff.2 hne
    omega
  cases ht : token.expandableTag? with
  | none =>
    rw [(Returns.ineligible ht).eq] at hout
    exact absurd hout single
  | some tag =>
    by_cases hl : tag.attributes.length ≤ expanded.length
    · rw [returnAttributes_emitted o ids ht hl] at hout
      obtain ⟨rfl, rfl⟩ := markers_append_inj (Except.ok.inj hout)
      obtain ⟨last, typeof, hlast, hlabel⟩ := labelled_emitted hne
      exact ⟨tag, _, last, typeof, rfl, rfl, hlast, hlabel⟩
    · rw [(Returns.malformed ht (Nat.lt_of_not_le hl)).eq] at hout
      cases hout

def typedLink : Token :=
  .selfClosing ⟨"a", [newAttribute (.text "typeof") (.tokens [.opening ⟨"b", [], {}⟩]),
    newAttribute (.text "href") (.tokens [.text "x"])], {}⟩

def typedPairs : List (Held (Attribute Token)) :=
  [.own (newAttribute (.text "typeof") (.tokens [.opening ⟨"b", [], {}⟩])),
    .own (newAttribute (.text "href") templatedTarget)]

/-- This link gets two types: the label stands in the second, and nothing is read in the
first. -/
theorem label_typedLink :
    ∃ (m : Marker Token) (tag' : Tag Token) (typeof : String),
      (returnAttributes {} {} typedLink typedPairs).1 =
        .ok ([m].map .marker ++ [.selfClosing tag']) ∧
      "mw:ExpandedAttrs/Template" ∈ Text.words typeof ∧
      Attribute.firstText? "typeof" tag'.attributes = some typeof ∧
      tag'.textAttribute? "typeof" = none := by
  have hout : (returnAttributes {} {} typedLink typedPairs).1 =
      .ok ([⟨.value, "mw:Object/Template", .text "href", .text "page", templatedTarget,
          some "#mwt1"⟩].map .marker ++
        [.selfClosing ⟨"a", [newAttribute (.text "typeof") (.tokens [.opening ⟨"b", [], {}⟩]),
          newAttribute (.text "href") (.text "page"),
          newAttribute (.text "about") (.text "#mwt1"),
          newAttribute (.text "typeof") (.text "mw:ExpandedAttrs/Template")], {}⟩]) := rfl
  obtain ⟨tag, tag', last, typeof, ht, hw, hlast, hlabel⟩ :=
    returnAttributes_label {} {} hout (List.cons_ne_nil _ _)
  obtain rfl := Option.some.inj ht
  obtain rfl := Option.some.inj hlast
  obtain rfl := Token.selfClosing.inj hw
  exact ⟨_, _, typeof, hout, hlabel.lists, hlabel.text, hlabel.read⟩

end WikiExpansion
