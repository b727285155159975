import WikiExpansion.Proofs.Grouping
import WikiExpansion.Proofs.Ids

/-!
# The markers before a tag

Which markers stand before a tag is a matter of its pairs alone, one after
another: `dueMarkers` reads them off the pairs as they were written and as they
came back expanded.  A pair has at most two, one for its key and one for its
value, and the second looks at the key that the first has settled.

`returnAttributes_markers` says that these markers are emitted, in this order and
with nothing else before the tag, and that the keys they name are those that the
tag has in the end.
-/

namespace WikiExpansion

open Vocabulary

/-! ### What is due -/

/-- The key and the value that a produced key holds, where the pair has no value. -/
def heldPair? (expanded : Attribute Token) : Option (String × Content Token) :=
  if (strip true expanded.key).objectType.isSome && expanded.value.isEmptyText then
    KeyValue.infer? (strip true expanded.key).value
  else none

/-- The key that a pair has once it is settled. -/
def finalKey (written expanded : Attribute Token) : Content Token :=
  if written.key.isTokens then
    if Text.contains maybeContent expanded.key.plainText then .text expanded.key.plainText
    else
      match heldPair? expanded with
      | some (k, _) => .text k
      | none => (strip true expanded.key).value
  else expanded.key

/-- The marker for a key that some object produced, unless the key is undecided. -/
def dueKeyMarker? (written expanded : Attribute Token) : Option (Marker Token) :=
  if written.key.isTokens && !Text.contains maybeContent expanded.key.plainText then
    (strip true expanded.key).objectType.map fun type =>
      newMarker (if (heldPair? expanded).isSome then .whole else .key) type
        (finalKey written expanded) (strip true expanded.key).value expanded.key
  else none

/-- The key under which the value of a pair is settled is an ordinary one. -/
def Content.isOrdinaryKey (key : Content Token) : Bool :=
  key.text?.any fun k => !Text.contains maybeContent k && !Text.startsWith reserved k

/-- The marker for a value that some object produced under an ordinary key. -/
def dueValueMarker? (written expanded : Attribute Token) : Option (Marker Token) :=
  if written.value.isTokens && !written.key.isEmptyText &&
      (finalKey written expanded).isOrdinaryKey then
    (strip true expanded.value).objectType.map fun type =>
      newMarker .value type (finalKey written expanded) (strip true expanded.value).value
        expanded.value
  else none

def pairMarkers (written expanded : Attribute Token) : List (Marker Token) :=
  (dueKeyMarker? written expanded).toList ++ (dueValueMarker? written expanded).toList

def dueMarkers (written expanded : List (Attribute Token)) : List (Marker Token) :=
  (List.zipWith pairMarkers written expanded).flatten

/-! ### One pair -/

theorem Content.isOrdinaryKey_of_isTokens {c : Content Token} (h : c.isTokens = true) :
    c.isOrdinaryKey = false := by
  cases c with
  | text s => cases h
  | tokens ts => rfl

theorem Content.isOrdinaryKey_text (k : String) : (Content.text k : Content Token).isOrdinaryKey =
    (!Text.contains maybeContent k && !Text.startsWith reserved k) := rfl

section HeldPair

variable {a : Attribute Token} {type k : String} {v : Content Token}

theorem heldPair?_of_plain (ht : (strip true a.key).objectType = none) : heldPair? a = none := by
  rw [heldPair?, ht]
  rfl

theorem heldPair?_of_whole (ht : (strip true a.key).objectType = some type)
    (he : a.value.isEmptyText = true)
    (hi : KeyValue.infer? (strip true a.key).value = some (k, v)) :
    heldPair? a = some (k, v) := by
  rw [heldPair?, ht, he, hi]
  rfl

theorem heldPair?_of_alone
    (hi : a.value.isEmptyText = true → KeyValue.infer? (strip true a.key).value = none) :
    heldPair? a = none := by
  rw [heldPair?]
  split
  · rename_i h
    exact hi (Bool.and_eq_true_iff.1 h).2
  · rfl

end HeldPair

/-- Where no tokens were written for the value, or the key is not ordinary,
settling the value marks nothing, and it never changes the key. -/
theorem settleValue_markers (written : Attribute Token) (step : KeyStep) :
    (settleValue true written step).2.markers =
        (if written.value.isTokens && step.key.isOrdinaryKey then
          ((strip true step.pair.get.value).objectType.map fun type =>
            newMarker .value type step.key (strip true step.pair.get.value).value
              step.pair.get.value)
        else none).toList ∧
      (settleValue true written step).1.get.key = step.pair.get.key := by
  have hr := settlesValue true written step
  generalize settleValue true written step = r at hr ⊢
  cases hr with
  | kept hkeeps =>
    have hno : (written.value.isTokens && step.key.isOrdinaryKey) = false := by
      rcases hkeeps with hk | hv
      · rw [Content.isOrdinaryKey_of_isTokens hk, Bool.and_false]
      · rw [hv, Bool.false_and]
    rw [hno]
    exact ⟨rfl, rfl⟩
  | deferred hk hv hc =>
    rw [hk, Content.isOrdinaryKey_text, hc, Bool.not_true, Bool.false_and, Bool.and_false]
    exact ⟨rfl, rfl⟩
  | reserved hk hv hc hr =>
    rw [hk, Content.isOrdinaryKey_text, hr, Bool.not_true, Bool.and_false, Bool.and_false]
    exact ⟨rfl, rfl⟩
  | @stripped k hk hv hc hr =>
    have hord : step.key.isOrdinaryKey = true := by
      rw [hk, Content.isOrdinaryKey_text, hc, hr]
      rfl
    rw [hv, hord]
    exact ⟨rfl, rfl⟩

/-- What a produced key is settled to, in the four ways it can go. -/
theorem reconcileKey_markers {written : Attribute Token} (pair : Held (Attribute Token))
    (hw : written.key.isTokens = true) :
    (reconcileKey true pair).findings.markers = (dueKeyMarker? written pair.get).toList ∧
      (reconcileKey true pair).pair.get.key = finalKey written pair.get := by
  have hr := reconcilesKey true pair
  generalize reconcileKey true pair = step at hr ⊢
  unfold dueKeyMarker? finalKey
  simp only [hw, if_true, Bool.true_and]
  cases hr with
  | undecided hc =>
    rw [hc]
    exact ⟨rfl, rfl⟩
  | plain hc ht =>
    rw [hc, ht, heldPair?_of_plain ht]
    exact ⟨rfl, rfl⟩
  | whole hc ht he hi =>
    rw [hc, ht, heldPair?_of_whole ht he hi]
    exact ⟨rfl, rfl⟩
  | alone hc ht hi =>
    rw [hc, ht, heldPair?_of_alone hi]
    exact ⟨rfl, rfl⟩

theorem finalKey_of_text {written a : Attribute Token} (hf : written.Fits a)
    (hw : written.key.isTokens = false) : finalKey written a = written.key := by
  rw [finalKey, hw, if_neg Bool.false_ne_true]
  exact hf.1.eq_of_text hw

/-- An undecided key keeps its value out of the ordinary ones, under the key that
it leaves behind as under the one that stands for it meanwhile. -/
theorem isOrdinaryKey_reconcileKey {written : Attribute Token} (pair : Held (Attribute Token))
    (hw : written.key.isTokens = true) :
    (reconcileKey true pair).key.isOrdinaryKey = (finalKey written pair.get).isOrdinaryKey ∧
      ((finalKey written pair.get).isOrdinaryKey = true →
        (reconcileKey true pair).key = finalKey written pair.get) := by
  have hr := reconcilesKey true pair
  generalize reconcileKey true pair = step at hr ⊢
  unfold finalKey
  simp only [hw, if_true]
  cases hr with
  | undecided hc =>
    have hundecided : (Content.text pair.get.key.plainText : Content Token).isOrdinaryKey =
        false := by
      rw [Content.isOrdinaryKey_text, hc, Bool.not_true, Bool.false_and]
    rw [hc, if_pos rfl, hundecided]
    exact ⟨rfl, fun h => by cases h⟩
  | plain hc ht =>
    rw [hc, heldPair?_of_plain ht]
    exact ⟨rfl, fun _ => rfl⟩
  | whole hc ht he hi =>
    rw [hc, heldPair?_of_whole ht he hi]
    exact ⟨rfl, fun _ => rfl⟩
  | alone hc ht hi =>
    rw [hc, heldPair?_of_alone hi]
    exact ⟨rfl, fun _ => rfl⟩

/-- A value that stands for tokens is not touched while the key is settled. -/
theorem value_reconcileKey {pair : Held (Attribute Token)}
    (hv : pair.get.value.isTokens = true) :
    (reconcileKey true pair).pair.get.value = pair.get.value := by
  have hr := reconcilesKey true pair
  generalize reconcileKey true pair = step at hr ⊢
  cases hr with
  | undecided | plain | alone => rfl
  | whole _ _ he =>
    rw [Content.isEmptyText_of_isTokens hv] at he
    cases he

/-- Source pointers play no part in what is due. -/
theorem due_congr (written : Attribute Token) {a b : Attribute Token} (hk : a.key = b.key)
    (hv : a.value = b.value) :
    pairMarkers written a = pairMarkers written b ∧ finalKey written a = finalKey written b := by
  unfold pairMarkers dueKeyMarker? dueValueMarker? finalKey heldPair?
  rw [hk, hv]
  exact ⟨rfl, rfl⟩

/-- **A pair has exactly the markers that are due**, and ends with the key that
they name. -/
theorem reconcilePair_markers {written : Attribute Token} {h : Held (Attribute Token)}
    (hf : written.Fits h.get) :
    (reconcilePair true written h).2.markers = pairMarkers written h.get ∧
      (reconcilePair true written h).1.get.key = finalKey written h.get := by
  obtain ⟨hkey, hvalue⟩ := get_carrySources written h
  obtain ⟨hdue, hfinal⟩ := due_congr written hkey hvalue
  rw [← hdue, ← hfinal]
  have hempty := hf.1.isEmptyText
  have hf := hf.carrySources
  have hr := reconcilesPair true written h
  generalize reconcilePair true written h = r at hr ⊢
  cases hr with
  | empty he =>
    rw [hempty] at he
    have hw : written.key.isTokens = false := Content.isTokens_of_isEmptyText he
    rw [pairMarkers, dueKeyMarker?, dueValueMarker?, hw, he, finalKey_of_text hf hw]
    simp only [Bool.false_and, Bool.not_true, Bool.and_false, Bool.false_eq_true, if_false]
    exact ⟨rfl, hf.1.eq_of_text hw⟩
  | text he hw =>
    rw [hempty] at he
    have hpk := hf.1.eq_of_text hw
    obtain ⟨hm, hk⟩ := settleValue_markers written (keptKey written (h.carrySources written))
    rw [pairMarkers, dueKeyMarker?, dueValueMarker?, hw, he, finalKey_of_text hf hw]
    refine ⟨?_, hk.trans hpk⟩
    rw [keptKey] at hm ⊢
    rw [hpk] at hm ⊢
    simp only [Bool.false_and, Bool.not_false, Bool.and_true, Bool.false_eq_true, if_false]
    exact hm
  | tokens he hw =>
    rw [hempty] at he
    obtain ⟨hkm, hkk⟩ := reconcileKey_markers (h.carrySources written) hw
    obtain ⟨hm, hk⟩ := settleValue_markers written (reconcileKey true (h.carrySources written))
    obtain ⟨hord, hsame⟩ := isOrdinaryKey_reconcileKey (h.carrySources written) hw
    refine ⟨?_, hk.trans hkk⟩
    simp only [Findings.append_def, hm, hkm]
    rw [pairMarkers, dueValueMarker?, he, hord, Bool.not_false, Bool.and_true]
    cases hv : written.value.isTokens with
    | false => rfl
    | true =>
      cases ho : (finalKey written (h.carrySources written).get).isOrdinaryKey with
      | false => rfl
      | true => rw [hsame ho, value_reconcileKey (hf.2.isTokens.trans hv)]

theorem reconcilePair_unmodified {written : Attribute Token} {h : Held (Attribute Token)}
    (hf : written.Fits h.get) (hm : (reconcilePair true written h).2.modified = false) :
    pairMarkers written h.get = [] ∧ finalKey written h.get = written.key := by
  have hempty := hf.1.isEmptyText
  have hr := reconcilesPair true written h
  generalize reconcilePair true written h = r at hr hm
  cases hr with
  | empty he =>
    have he := hempty.symm.trans he
    have hw := Content.isTokens_of_isEmptyText he
    refine ⟨?_, finalKey_of_text hf hw⟩
    rw [pairMarkers, dueKeyMarker?, dueValueMarker?, hw, he]
    simp only [Bool.false_and, Bool.not_true, Bool.and_false, Bool.false_eq_true, if_false]
    rfl
  | text he hw =>
    refine ⟨?_, finalKey_of_text hf hw⟩
    have hv : written.value.isTokens = false := by
      have hpk := hf.carrySources.1.eq_of_text hw
      refine Bool.of_not_eq_true fun hv => ?_
      rw [Findings.append_def, modified_settleValue hv (by rw [keptKey, hpk, hw]),
        Bool.or_true] at hm
      cases hm
    rw [pairMarkers, dueKeyMarker?, dueValueMarker?, hw, hv]
    rfl
  | tokens =>
    -- settling a produced key is a change
    rw [Findings.append_def, modified_reconcileKey, Bool.true_or] at hm
    cases hm

/-! ### All pairs -/

def heldKeys (hs : List (Held (Attribute Token))) : List (Content Token) := hs.map (·.get.key)

theorem dueMarkers_cons (a : Attribute Token) (as : List (Attribute Token)) (b : Attribute Token)
    (bs : List (Attribute Token)) :
    dueMarkers (a :: as) (b :: bs) = pairMarkers a b ++ dueMarkers as bs := rfl

theorem reconcile_markers {as : List (Attribute Token)} {hs : List (Held (Attribute Token))}
    (hf : FitAll as hs) :
    (reconcile true as hs).2.markers = dueMarkers as (hs.map Held.get) ∧
      heldKeys (reconcile true as hs).1 = List.zipWith finalKey as (hs.map Held.get) := by
  induction hf with
  | nil => exact ⟨rfl, rfl⟩
  | @cons a h as hs hah _ ih =>
    obtain ⟨hm, hk⟩ := reconcilePair_markers hah
    simp only [reconcile_cons, heldKeys, List.map_cons, List.zipWith_cons_cons, Findings.append_def,
      dueMarkers_cons, hm, hk, ih.1]
    exact ⟨trivial, congrArg _ ih.2⟩

theorem reconcile_unmodified {as : List (Attribute Token)} {hs : List (Held (Attribute Token))}
    (hf : FitAll as hs) (hm : (reconcile true as hs).2.modified = false) :
    dueMarkers as (hs.map Held.get) = [] ∧
      as.map (·.key) = List.zipWith finalKey as (hs.map Held.get) := by
  induction hf with
  | nil => exact ⟨rfl, rfl⟩
  | @cons a h as hs hah _ ih =>
    simp only [reconcile_cons, Findings.append_def, Bool.or_eq_false_iff] at hm
    obtain ⟨hnone, hkey⟩ := reconcilePair_unmodified hah hm.1
    obtain ⟨hrest, hkeys⟩ := ih hm.2
    rw [List.map_cons, List.map_cons, List.zipWith_cons_cons, dueMarkers_cons, hnone, hkey, hrest,
      hkeys]
    exact ⟨rfl, rfl⟩

/-! ### The tag -/

theorem heldKeys_append (hs ks : List (Held (Attribute Token))) :
    heldKeys hs <+: heldKeys (hs ++ ks) := by
  rw [heldKeys, heldKeys, List.map_append]
  exact List.prefix_append _ _

theorem heldKeys_of_inPlace {hs ks : List (Held (Attribute Token))}
    (h : Attribute.InPlace hs ks) : heldKeys hs <+: heldKeys ks := by
  rw [List.prefix_iff_getElem?]
  intro i hi
  rw [heldKeys, List.length_map] at hi
  obtain ⟨k, v, hk, hget⟩ := h i _ (List.getElem?_eq_getElem hi)
  simp only [heldKeys, List.getElem?_map, hk, List.getElem_map, Option.map_some, hget]

theorem heldKeys_apply (hs : List (Held (Attribute Token))) (e : AttributeEdit Token) :
    heldKeys hs <+: heldKeys (e.apply hs) :=
  heldKeys_of_inPlace (AttributeEdit.inPlace_apply hs e)

theorem heldKeys_group (ids : IdSource) (last : Marker Token) (ms : List (Marker Token))
    (hs : List (Held (Attribute Token))) :
    heldKeys hs <+: heldKeys (group ids last ms hs).1.attributes := by
  cases h : Attribute.lookupText "about" (hs.map Held.get) with
  | some id =>
    rw [group_of_about h]
    exact heldKeys_apply hs (.addWord _ _)
  | none =>
    rw [group_of_no_about h]
    exact (heldKeys_apply hs (.set _ _)).trans (heldKeys_apply _ (.addWord _ _))

/-- **Before a tag stand exactly the markers that are due**, pair by pair, and they
name the keys that its pairs have in the end. -/
theorem returnAttributes_markers {o : Options} (ids : IdSource) {token : Token} {tag : Tag Token}
    {hs : List (Held (Attribute Token))} (ho : o.wrapTemplates = true)
    (ht : token.expandableTag? = some tag) (hf : FitAll tag.attributes hs) :
    ∃ (tag' : Tag Token) (id : String),
      (returnAttributes o ids token hs).1 =
        .ok ((dueMarkers tag.attributes (hs.map Held.get)).map
          (fun m => .marker { m with about := some id }) ++ [token.withTag tag']) ∧
      List.zipWith finalKey tag.attributes (hs.map Held.get) <+: tag'.attributes.map (·.key) := by
  obtain ⟨hmarkers, hkeys⟩ := reconcile_markers hf
  have hsettled : heldKeys (reconcile true tag.attributes hs).1 <+:
      heldKeys (settledPairs true tag.attributes hs) := heldKeys_append _ _
  rw [returnAttributes_emitted o ids ht (Nat.le_of_eq hf.length_eq)]
  suffices h : ∃ id, emittedMarkers o ids tag hs =
      (dueMarkers tag.attributes (hs.map Held.get)).map (fun m => { m with about := some id }) ∧
      List.zipWith finalKey tag.attributes (hs.map Held.get) <+:
        heldKeys (emittedAttributes o ids tag hs) by
    obtain ⟨id, hms, hks⟩ := h
    refine ⟨tag.withHeld (emittedAttributes o ids tag hs), id, ?_, ?_⟩
    · rw [hms, List.map_map]
      rfl
    · rw [Tag.withHeld, List.map_map]
      exact hks
  have he := emits o ids tag hs
  generalize emittedMarkers o ids tag hs = ms at he ⊢
  generalize emittedAttributes o ids tag hs = out at he ⊢
  rw [← hmarkers, ← hkeys]
  cases he with
  | unmodified hm =>
    rw [ho] at hm
    obtain ⟨hnone, hwritten⟩ := reconcile_unmodified hf hm
    refine ⟨"", ?_, ?_⟩
    · rw [hmarkers, hnone]
      rfl
    · rw [hkeys, ← hwritten, heldKeys, Tag.share, List.map_map]
      exact List.prefix_refl _
  | unmarked _ hn =>
    rw [ho] at hn ⊢
    rw [hn]
    exact ⟨"", rfl, hsettled⟩
  | @marked last _ _ =>
    rw [ho]
    obtain ⟨id, hid⟩ := markers_group ids last (reconcile true tag.attributes hs).2.markers
      (settledPairs true tag.attributes hs)
    exact ⟨id, hid, hsettled.trans (heldKeys_group ..)⟩

def producedLink : Token :=
  .selfClosing ⟨"a", [newAttribute (.tokens [.text "x"]) (.text ""),
    newAttribute (.text "href") (.tokens [.text "y"])], {}⟩

def producedPairs : List (Held (Attribute Token)) :=
  [.own (newAttribute (.tokens (TemplateTable.wrap "#mwt1" "rel=next")) (.text "")),
    .own (newAttribute (.text "href") templatedTarget)]

theorem markers_producedLink :
    ∃ (tag' : Tag Token) (id : String),
      (returnAttributes {} {} producedLink producedPairs).1 =
        .ok ([newMarker .whole "mw:Object/Template" (.text "rel") (.text "rel=next")
              (.tokens (TemplateTable.wrap "#mwt1" "rel=next")),
            newMarker .value "mw:Object/Template" (.text "href") (.text "page")
              templatedTarget].map (fun m => .marker { m with about := some id }) ++
          [producedLink.withTag tag']) ∧
      [.text "rel", .text "href"] <+: tag'.attributes.map (·.key) :=
  have ht : producedLink.expandableTag? = some ⟨"a", [newAttribute (.tokens [.text "x"]) (.text ""),
      newAttribute (.text "href") (.tokens [.text "y"])], {}⟩ := rfl
  returnAttributes_markers {} rfl ht (.cons ⟨rfl, rfl⟩ (.cons ⟨rfl, rfl⟩ .nil))

end WikiExpansion
