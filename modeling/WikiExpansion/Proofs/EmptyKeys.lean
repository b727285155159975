import WikiExpansion.Proofs.Sign
import WikiExpansion.Proofs.Stripping
import WikiExpansion.Proofs.Undecided

/-!
# Empty keys

An attribute with an empty key is left alone: it marks nothing and adds nothing.  Whether
the key is empty is looked at before its wrappers are stripped, though, so the rule holds
for a key that was written empty and for no other.  A key that was to be expanded, and of
which stripping leaves the empty text, is settled like any key: if some object produced
it, it is marked as produced under the empty key, and the value under it is marked too
(`emptyKeyMarks`).

`returnAttributes_emptyKeys` says exactly which attributes of the emitted tag have the
empty key, what each of them gives to the markers and to the pairs that are added, and
when the empty key is named in a marker.
-/

namespace WikiExpansion

open Vocabulary

theorem KeyValue.infer?_key_ne_empty {c v : Content Token} {k : String}
    (h : KeyValue.infer? c = some (k, v)) : k ≠ "" := by
  rw [infer?_eq_map, Option.map_eq_some_iff] at h
  obtain ⟨kv, hkv, he⟩ := h
  obtain ⟨xs, hxs, rfl⟩ := Option.map_eq_some_iff.1 hkv
  obtain ⟨lead, hsplit⟩ := splitFrom_eq_some_iff.1 hxs
  obtain ⟨⟨-, frag, -, hfrag⟩, -⟩ := hsplit
  obtain ⟨rfl, -⟩ := Prod.mk.inj he
  intro hk
  exact hfrag.key_ne_nil (String.ofList_eq_empty_iff.1 hk)

/-! ### Keys that come out empty -/

namespace Attribute

/-- The key was to be expanded, and nothing but wrappers came of it. -/
structure EmptiesKey (written expanded : Attribute Token) : Prop where
  key : written.key.isTokens = true
  stripped : (strip true expanded.key).value = .text ""

/-- What is marked of a pair whose key comes out empty: the key, and the value if it was to
be expanded too, each if some object produced it. -/
def emptyKeyMarks (w : Bool) (written expanded : Attribute Token) : List (Marker Token) :=
  ((strip w expanded.key).objectType.map fun type =>
      newMarker .key type (.text "") (.text "") expanded.key).toList ++
    (if written.value.isTokens then
      (strip w expanded.value).objectType.map fun type =>
        newMarker .value type (.text "") (strip w expanded.value).value expanded.value
    else none).toList

section Keys

variable {w : Bool} {a b : Attribute Token} {h : Held (Attribute Token)}

theorem EmptiesKey.plainText_eq (he : a.EmptiesKey b) : b.key.plainText = "" := by
  rw [← plainText_strip true b.key, he.stripped]
  rfl

theorem EmptiesKey.not_marked (he : a.EmptiesKey b) :
    Text.contains maybeContent b.key.plainText = false := by
  rw [he.plainText_eq]
  decide

theorem EmptiesKey.heldPair?_eq (he : a.EmptiesKey b) : heldPair? b = none := by
  rw [heldPair?, he.stripped]
  exact ite_self _

theorem EmptiesKey.finalKey_eq (he : a.EmptiesKey b) : finalKey a b = .text "" := by
  rw [finalKey, if_pos he.key, he.not_marked, if_neg Bool.false_ne_true, he.heldPair?_eq]
  exact he.stripped

theorem key_settleValue (w : Bool) (a : Attribute Token) (step : KeyStep) :
    (settleValue w a step).1.get.key = step.pair.get.key := by
  have hr := settlesValue w a step
  generalize settleValue w a step = r at hr ⊢
  cases hr <;> rfl

theorem key_reconcileKey_eq_empty_iff {p : Held (Attribute Token)} :
    (reconcileKey w p).pair.get.key = .text "" ↔ (strip true p.get.key).value = .text "" := by
  rw [value_strip true w]
  have hr := reconcilesKey w p
  generalize reconcileKey w p = step at hr ⊢
  cases hr with
  | undecided hmark =>
    -- an undecided key has plain text, and stripping keeps that
    have hne : p.get.key.plainText ≠ "" := by
      intro he
      rw [he] at hmark
      cases hmark
    constructor
    · exact fun he => absurd (Content.text.inj he) hne
    · intro he
      refine absurd ?_ hne
      rw [← plainText_strip w p.get.key, he]
      rfl
  | plain | alone => exact Iff.rfl
  | whole _ _ _ hinfer =>
    constructor
    · exact fun he => absurd (Content.text.inj he) (KeyValue.infer?_key_ne_empty hinfer)
    · intro he
      rw [he] at hinfer
      cases hinfer

/-- A settled pair has the empty key where it was written or came out empty. -/
theorem key_reconcilePair_eq_empty_iff (hf : a.Fits h.get) :
    (reconcilePair w a h).1.get.key = .text "" ↔ a.key = .text "" ∨ a.EmptiesKey h.get := by
  obtain ⟨hkey, -⟩ := get_carrySources a h
  have hwritten (ha : a.key.isTokens = false) : ¬ a.EmptiesKey h.get := fun he =>
    Bool.false_ne_true (ha.symm.trans he.key)
  have hr := reconcilesPair w a h
  generalize reconcilePair w a h = r at hr ⊢
  cases hr with
  | empty he =>
    rw [hf.1.isEmptyText] at he
    have ha := Content.isTokens_of_isEmptyText he
    rw [or_iff_left (hwritten ha), hkey, hf.1.eq_of_text ha]
  | text _ ha =>
    rw [or_iff_left (hwritten ha), key_settleValue, keptKey, hkey, hf.1.eq_of_text ha]
  | tokens _ ha =>
    have hno : a.key ≠ .text "" := by
      intro he
      rw [he] at ha
      cases ha
    rw [key_settleValue, key_reconcileKey_eq_empty_iff, hkey, or_iff_right hno]
    exact ⟨fun he => ⟨ha, he⟩, fun he => he.stripped⟩

theorem key_of_unchanged (hf : a.Fits h.get) (hu : a.Unchanged h.get) :
    (reconcilePair w a h).1.get.key = a.key := by
  obtain ⟨hkey, -⟩ := get_carrySources a h
  rcases hu with hk | ⟨hn, hk, -⟩
  · have hwritten : a.key = .text "" := by
      rw [← Content.isEmptyText_iff, ← hf.1.isEmptyText, Content.isEmptyText_iff]
      exact hk
    rw [hwritten]
    exact (key_reconcilePair_eq_empty_iff hf).2 (.inl hwritten)
  · rw [reconcilePair_of_texts hn, hkey, hk]

/-! ### What a pair with an empty key gives -/

theorem marksOf_of_key_empty (hk : a.key = .text "") : marksOf w a b = [] := by
  have hkey : dueKeyMarker? a b = none := by
    rw [dueKeyMarker?, hk]
    rfl
  have hvalue : dueValueMarker? a b = none := by
    rw [dueValueMarker?, hk]
    cases a.value.isTokens <;> rfl
  rw [marksOf, pairMarkers, hkey, hvalue]
  exact ite_self _

theorem EmptiesKey.marksOf_eq (he : a.EmptiesKey b) : marksOf w a b = emptyKeyMarks w a b := by
  cases w with
  | false =>
    rw [marksOf, if_neg Bool.false_ne_true, emptyKeyMarks]
    rw [objectType_strip_false, objectType_strip_false]
    cases a.value.isTokens <;> rfl
  | true =>
    have hordinary : (Content.text "" : Content Token).isOrdinaryKey = true := by decide
    have hne := Content.isEmptyText_of_isTokens he.key
    have hkey : dueKeyMarker? a b = (strip true b.key).objectType.map fun type =>
        newMarker .key type (.text "") (.text "") b.key := by
      rw [dueKeyMarker?, he.key, he.not_marked, he.heldPair?_eq, he.finalKey_eq, he.stripped]
      rfl
    have hvalue : dueValueMarker? a b = if a.value.isTokens then
        (strip true b.value).objectType.map fun type =>
          newMarker .value type (.text "") (strip true b.value).value b.value else none := by
      rw [dueValueMarker?, he.finalKey_eq, hordinary, hne, Bool.not_false, Bool.and_true,
        Bool.and_true]
    rw [marksOf, if_pos rfl, pairMarkers, hkey, hvalue, emptyKeyMarks]

/-- No pair is added for an empty key. -/
theorem not_companion {c : Attribute Token} (hk : a.key = .text "" ∨ a.EmptiesKey b) :
    ¬ a.Companion w b c := by
  intro hc
  rcases hk with hk | he
  · cases hc with
    | value hd =>
      have hmark := hd.marked
      obtain rfl := Content.text.inj (hd.key.symm.trans hk)
      cases hmark
    | key hd =>
      have htokens := hd.key
      rw [hk] at htokens
      cases htokens
  · cases hc with
    | value hd =>
      have htokens := he.key
      rw [hd.key] at htokens
      cases htokens
    | key hd =>
      have hmark := hd.marked
      rw [he.not_marked] at hmark
      cases hmark

theorem key_of_mem_marksOf {m : Marker Token} (hf : a.Fits h.get) (hm : m ∈ marksOf w a h.get) :
    m.key = (reconcilePair w a h).1.get.key := by
  cases w with
  | false => cases hm
  | true =>
    rw [(reconcilePair_markers hf).2]
    rcases List.mem_append.1 (show m ∈ _ ++ _ from hm) with hm | hm
    · have hm := Option.mem_toList.1 hm
      unfold dueKeyMarker? at hm
      split at hm
      · obtain ⟨type, -, rfl⟩ := Option.map_eq_some_iff.1 hm
        rfl
      · cases hm
    · have hm := Option.mem_toList.1 hm
      unfold dueValueMarker? at hm
      split at hm
      · obtain ⟨type, -, rfl⟩ := Option.map_eq_some_iff.1 hm
        rfl
      · cases hm

theorem key_of_mem_emptyKeyMarks {m : Marker Token} (hm : m ∈ emptyKeyMarks w a b) :
    m.key = .text "" := by
  rcases List.mem_append.1 hm with hm | hm
  · obtain ⟨type, -, rfl⟩ := Option.map_eq_some_iff.1 (Option.mem_toList.1 hm)
    rfl
  · have hm := Option.mem_toList.1 hm
    split at hm
    · obtain ⟨type, -, rfl⟩ := Option.map_eq_some_iff.1 hm
      rfl
    · cases hm

theorem emptyKeyMarks_ne_nil_iff :
    emptyKeyMarks w a b ≠ [] ↔ (strip w b.key).objectType.isSome = true ∨
      a.value.isTokens = true ∧ (strip w b.value).objectType.isSome = true := by
  unfold emptyKeyMarks
  cases (strip w b.key).objectType with
  | some type => exact ⟨fun _ => .inl rfl, fun _ => List.cons_ne_nil _ _⟩
  | none =>
    cases a.value.isTokens with
    | false => exact ⟨fun h => absurd rfl h, nofun⟩
    | true =>
      cases (strip w b.value).objectType with
      | none => exact ⟨fun h => absurd rfl h, nofun⟩
      | some type => exact ⟨fun _ => .inr ⟨rfl, rfl⟩, fun _ => List.cons_ne_nil _ _⟩

end Keys

end Attribute

/-! ### The tag -/

section Tag

variable {o : Options} {ids : IdSource} {tag : Tag Token} {hs : List (Held (Attribute Token))}
  {i : Nat} {a : Attribute Token} {h : Held (Attribute Token)}

theorem exists_of_heldKeys_prefix {ks : List (Held (Attribute Token))}
    (hp : heldKeys hs <+: heldKeys ks) (hi : hs[i]? = some h) :
    ∃ x, ks[i]? = some x ∧ x.get.key = h.get.key := by
  obtain ⟨rest, hrest⟩ := hp
  have hkey : (heldKeys hs)[i]? = some h.get.key := by
    rw [heldKeys, List.getElem?_map, hi]
    rfl
  have hout : (heldKeys ks)[i]? = some h.get.key := by
    rw [← hrest, List.getElem?_append_left (List.getElem?_eq_some_iff.1 hkey).1]
    exact hkey
  rw [heldKeys, List.getElem?_map] at hout
  exact Option.map_eq_some_iff.1 hout

/-- Every written pair has the key in the emitted tag that it was settled with. -/
theorem key_emitted (o : Options) (ids : IdSource) (hf : FitAll tag.attributes hs)
    (ha : tag.attributes[i]? = some a) (hh : hs[i]? = some h) :
    ∃ x, (emittedAttributes o ids tag hs)[i]? = some x ∧
      x.get.key = (reconcilePair o.wrapTemplates a h).1.get.key := by
  have hsettled := getElem?_reconcile (w := o.wrapTemplates) ha hh
  have hpairs : heldKeys (reconcile o.wrapTemplates tag.attributes hs).1 <+:
      heldKeys (settledPairs o.wrapTemplates tag.attributes hs) := heldKeys_append _ _
  have he := emits o ids tag hs
  generalize emittedMarkers o ids tag hs = ms at he
  generalize emittedAttributes o ids tag hs = out at he ⊢
  cases he with
  | unmodified hm =>
    have hu := modified_reconcile_eq_false_iff.1 hm i a h ha hh
    refine ⟨.shared a, ?_, (Attribute.key_of_unchanged (hf.fits ha hh) hu).symm⟩
    rw [Tag.share, List.getElem?_map, ha]
    rfl
  | unmarked => exact exists_of_heldKeys_prefix hpairs hsettled
  | marked => exact exists_of_heldKeys_prefix (hpairs.trans (heldKeys_group ..)) hsettled

/-- How a pair of the emitted tag, the markers `ms` that were made for it and the pair that was
added for it came of the written and the expanded one, as far as the key is empty. -/
structure EmptyKeyed (w : Bool) (written expanded emitted : Attribute Token)
    (ms : List (Marker Token)) (added : Option (Attribute Token)) : Prop where
  named : ∀ m ∈ ms, m.key = emitted.key
  /-- The key is empty where it was written so, and where nothing came of it. -/
  empty : emitted.key = .text "" ↔ written.key = .text "" ∨ written.EmptiesKey expanded
  unadded : emitted.key = .text "" → added = none
  unmarked : written.key = .text "" → ms = []
  marked : written.EmptiesKey expanded → ms = written.emptyKeyMarks w expanded

theorem emptyKeyed_emitted (o : Options) (ids : IdSource) (hf : FitAll tag.attributes hs)
    (ha : tag.attributes[i]? = some a) (hh : hs[i]? = some h) :
    ∃ x, (emittedAttributes o ids tag hs)[i]? = some x ∧
      EmptyKeyed o.wrapTemplates a h.get x.get (marksOf o.wrapTemplates a h.get)
        (syntheticPair? o.wrapTemplates a h.get) := by
  obtain ⟨x, hx, hkey⟩ := key_emitted o ids hf ha hh
  have hfit := hf.fits ha hh
  have hempty : x.get.key = .text "" ↔ a.key = .text "" ∨ a.EmptiesKey h.get := by
    rw [hkey]
    exact Attribute.key_reconcilePair_eq_empty_iff hfit
  refine ⟨x, hx, fun m hm => ?_, hempty, fun he => ?_, Attribute.marksOf_of_key_empty,
    Attribute.EmptiesKey.marksOf_eq⟩
  · rw [hkey]
    exact Attribute.key_of_mem_marksOf hfit hm
  · rw [Option.eq_none_iff_forall_ne_some]
    exact fun c hc => Attribute.not_companion (hempty.1 he)
      ((Attribute.syntheticPair?_eq_some_iff hfit).1 hc)

/-- A marker names the empty key exactly where some object produced a side of a pair of which
the key came out empty. -/
theorem exists_mark_emptyKey_iff (w : Bool) (hf : FitAll tag.attributes hs) :
    (∃ m ∈ (List.zipWith (marksOf w) tag.attributes (hs.map Held.get)).flatten,
        m.key = .text "") ↔
      ∃ (i : Nat) (a : Attribute Token) (h : Held (Attribute Token)),
        tag.attributes[i]? = some a ∧ hs[i]? = some h ∧ a.EmptiesKey h.get ∧
        ((strip w h.get.key).objectType.isSome = true ∨
          a.value.isTokens = true ∧ (strip w h.get.value).objectType.isSome = true) := by
  constructor
  · rintro ⟨m, hm, hk⟩
    obtain ⟨ms, hms, hm⟩ := List.mem_flatten.1 hm
    obtain ⟨i, hi⟩ := List.mem_iff_getElem?.1 hms
    obtain ⟨a, e, ha, he, rfl⟩ := List.getElem?_zipWith_eq_some.1 hi
    rw [List.getElem?_map, Option.map_eq_some_iff] at he
    obtain ⟨h, hh, rfl⟩ := he
    have hfit := hf.fits ha hh
    rw [Attribute.key_of_mem_marksOf hfit hm,
      Attribute.key_reconcilePair_eq_empty_iff hfit] at hk
    rcases hk with hk | hk
    · rw [Attribute.marksOf_of_key_empty hk] at hm
      cases hm
    · rw [hk.marksOf_eq] at hm
      exact ⟨i, a, h, ha, hh, hk, Attribute.emptyKeyMarks_ne_nil_iff.1 (List.ne_nil_of_mem hm)⟩
  · rintro ⟨i, a, h, ha, hh, hk, hsides⟩
    obtain ⟨m, hm⟩ := List.exists_mem_of_ne_nil _ (Attribute.emptyKeyMarks_ne_nil_iff.2 hsides)
    refine ⟨m, List.mem_flatten.2 ⟨_, List.mem_iff_getElem?.2
      ⟨i, getElem?_zipWith_get (marksOf w) ha hh⟩, ?_⟩, Attribute.key_of_mem_emptyKeyMarks hm⟩
    rw [hk.marksOf_eq]
    exact hm

end Tag

/-- **Which attributes have the empty key, and what they give.**  One that was written with
it gives nothing.  One whose key came out empty adds no pair, but it is marked under the empty
key as far as some object produced it, and in no other way is the empty key ever marked. -/
theorem returnAttributes_emptyKeys (o : Options) (ids : IdSource) {token : Token}
    {tag : Tag Token} {hs : List (Held (Attribute Token))}
    (ht : token.expandableTag? = some tag) (hf : FitAll tag.attributes hs) :
    ∃ (mss : List (List (Marker Token))) (cs : List (Option (Attribute Token)))
        (rest : List (Attribute Token)) (id : String) (tag' : Tag Token),
      (returnAttributes o ids token hs).1 =
        .ok ((mss.flatten.map fun m => { m with about := some id }).map .marker ++
          [token.withTag tag']) ∧
      tag'.attributes.drop tag.attributes.length = cs.reduceOption ++ rest ∧
      (∀ b ∈ rest, b.key = .text "about" ∨ b.key = .text "typeof") ∧
      mss.length = tag.attributes.length ∧ cs.length = tag.attributes.length ∧
      (∀ (i : Nat) (a : Attribute Token) (h : Held (Attribute Token)),
        tag.attributes[i]? = some a → hs[i]? = some h →
        ∃ b ms c, tag'.attributes[i]? = some b ∧ mss[i]? = some ms ∧ cs[i]? = some c ∧
          EmptyKeyed o.wrapTemplates a h.get b ms c) ∧
      ((∃ m ∈ mss.flatten, m.key = .text "") ↔
        ∃ (i : Nat) (a : Attribute Token) (h : Held (Attribute Token)),
          tag.attributes[i]? = some a ∧ hs[i]? = some h ∧ a.EmptiesKey h.get ∧
          ((strip o.wrapTemplates h.get.key).objectType.isSome = true ∨
            a.value.isTokens = true ∧
              (strip o.wrapTemplates h.get.value).objectType.isSome = true)) := by
  obtain ⟨id, hid⟩ := emittedMarkers_eq o ids hf
  obtain ⟨rest, hdrop, hrest⟩ := drop_emittedAttributes o ids hf
  rw [syntheticPairs_eq_reduceOption] at hdrop
  refine ⟨List.zipWith (marksOf o.wrapTemplates) tag.attributes (hs.map Held.get),
    List.zipWith (syntheticPair? o.wrapTemplates) tag.attributes (hs.map Held.get), rest, id,
    tag.withHeld (emittedAttributes o ids tag hs), ?_, hdrop, hrest, hf.length_zipWith_get _,
    hf.length_zipWith_get _, fun i a h ha hh => ?_, exists_mark_emptyKey_iff o.wrapTemplates hf⟩
  · rw [← hid]
    exact returnAttributes_emitted o ids ht (Nat.le_of_eq hf.length_eq)
  · obtain ⟨x, hx, hkeyed⟩ := emptyKeyed_emitted o ids hf ha hh
    have hout : ((emittedAttributes o ids tag hs).map Held.get)[i]? = some x.get := by
      rw [List.getElem?_map, hx]
      rfl
    exact ⟨x.get, _, _, hout, getElem?_zipWith_get _ ha hh, getElem?_zipWith_get _ ha hh, hkeyed⟩

def keyedDiv : Tag Token := ⟨"div", [newAttribute (.tokens [.text "x"]) (.text "")], {}⟩

def keyedPairs : List (Held (Attribute Token)) :=
  [.own (newAttribute (.tokens (TemplateTable.wrap "#mwt1" "")) (.text ""))]

/-- The attribute of this tag gets the empty key, and is marked all the same. -/
theorem emptyKeys_keyedDiv :
    ∃ (mss : List (List (Marker Token))) (id : String) (tag' : Tag Token),
      (returnAttributes {} {} (.opening keyedDiv) keyedPairs).1 =
        .ok ((mss.flatten.map fun m => { m with about := some id }).map .marker ++
          [.opening tag']) ∧
      (∃ b, tag'.attributes[0]? = some b ∧ b.key = .text "") ∧
      ∃ m ∈ mss.flatten, m.key = .text "" := by
  have ht : (Token.opening keyedDiv).expandableTag? = some keyedDiv := rfl
  have hf : FitAll keyedDiv.attributes keyedPairs := .cons ⟨rfl, rfl⟩ .nil
  have hempties : (newAttribute (.tokens [.text "x"]) (.text "")).EmptiesKey
      (newAttribute (.tokens (TemplateTable.wrap "#mwt1" "")) (.text "")) := ⟨rfl, rfl⟩
  obtain ⟨mss, cs, rest, id, tag', hout, -, -, -, -, hplaces, hmarked⟩ :=
    returnAttributes_emptyKeys {} {} ht hf
  obtain ⟨b, ms, c, hb, -, -, hkeyed⟩ := hplaces 0 _ _ rfl rfl
  exact ⟨mss, id, tag', hout, ⟨b, hb, hkeyed.empty.2 (.inr hempties)⟩,
    hmarked.2 ⟨0, _, _, rfl, rfl, hempties, .inl rfl⟩⟩

end WikiExpansion
