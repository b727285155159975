import WikiExpansion.Reconcile

/-!
# What settling a pair can do

Each function that puts an expanded tag together goes one of a few ways, and each way
is written down here once, with all that it asks for and all that it gives.  A key goes
one of four ways (`ReconcilesKey`) and a value one of four (`SettlesValue`); a pair is left
alone, or settled under the key that was written or under the one that came of it
(`ReconcilesPair`).  Around the pairs, a tag has an `about` or gets a new one
(`group_of_about`, `group_of_no_about`), its attributes are put together in one of three
ways (`Rebuilds`), and the token comes out in one of four (`Returns`).  `Emits` says what
these come to for a tag that has all its pairs.

Each relation says neither more nor less than its function: the function goes one of these
ways (`reconcilesKey` and its likes), and which way it goes fixes what it gives
(`ReconcilesKey.eq` and its likes).  No later proof has to open the functions.
-/

namespace WikiExpansion

open Vocabulary

/-! ### A side -/

theorem value_strip_cases (w : Bool) (c : Content Token) :
    (∃ s, (strip w c).value = .text s) ∨
      ∃ ts, c = .tokens ts ∧ (strip w c).value = .tokens (ts.filter (!·.isMeta)) ∧
        (ts.filter (!·.isMeta)).all Token.isText = false := by
  cases c with
  | text s => exact .inl ⟨s, rfl⟩
  | tokens ts =>
    rw [strip, collapse]
    cases h : (ts.filter (!·.isMeta)).all Token.isText with
    | true => exact .inl ⟨_, rfl⟩
    | false => exact .inr ⟨ts, rfl, rfl, h⟩

/-! ### A key -/

/-- The four ways in which an expanded key is settled. -/
inductive ReconcilesKey (w : Bool) (pair : Held (Attribute Token)) : KeyStep → Prop
  | undecided : Text.contains maybeContent pair.get.key.plainText = true →
      ReconcilesKey w pair
        ⟨pair.write fun a => { a with key := .text pair.get.key.plainText }, .text keyAffected,
          ⟨true, [], [newAttribute (.text keyAffected) pair.get.value]⟩⟩
  | plain : Text.contains maybeContent pair.get.key.plainText = false →
      (strip w pair.get.key).objectType = none →
      ReconcilesKey w pair
        ⟨pair.write fun a => { a with key := (strip w pair.get.key).value },
          (strip w pair.get.key).value, ⟨true, [], []⟩⟩
  /-- An object produced the key and, with it, the value. -/
  | whole {type k : String} {v : Content Token} :
      Text.contains maybeContent pair.get.key.plainText = false →
      (strip w pair.get.key).objectType = some type → pair.get.value.isEmptyText = true →
      KeyValue.infer? (strip w pair.get.key).value = some (k, v) →
      ReconcilesKey w pair
        ⟨pair.write fun a => { a with key := .text k, value := v }, .text k,
          ⟨true, [newMarker .whole type (.text k) (strip w pair.get.key).value pair.get.key], []⟩⟩
  | alone {type : String} : Text.contains maybeContent pair.get.key.plainText = false →
      (strip w pair.get.key).objectType = some type →
      (pair.get.value.isEmptyText = true → KeyValue.infer? (strip w pair.get.key).value = none) →
      ReconcilesKey w pair
        ⟨pair.write fun a => { a with key := (strip w pair.get.key).value },
          (strip w pair.get.key).value,
          ⟨true, [newMarker .key type (strip w pair.get.key).value (strip w pair.get.key).value
            pair.get.key], []⟩⟩

section Key

variable {w : Bool} {pair : Held (Attribute Token)} {step : KeyStep}

theorem reconcilesKey (w : Bool) (pair : Held (Attribute Token)) :
    ReconcilesKey w pair (reconcileKey w pair) := by
  unfold reconcileKey
  simp only
  cases hc : Text.contains maybeContent pair.get.key.plainText with
  | true => exact .undecided hc
  | false =>
    cases ht : (strip w pair.get.key).objectType with
    | none => exact .plain hc ht
    | some type =>
      cases he : pair.get.value.isEmptyText with
      | false => exact .alone hc ht fun h => absurd (he.symm.trans h) Bool.false_ne_true
      | true =>
        simp only [if_true]
        cases hi : KeyValue.infer? (strip w pair.get.key).value with
        | none => exact .alone hc ht fun _ => hi
        | some kv => exact .whole hc ht he hi

theorem ReconcilesKey.eq (h : ReconcilesKey w pair step) : reconcileKey w pair = step := by
  unfold reconcileKey
  cases h with
  | undecided hc => simp only [hc, if_true]
  | plain hc ht => simp only [hc, ht, Bool.false_eq_true, if_false]
  | whole hc ht he hi => simp only [hc, ht, he, hi, Bool.false_eq_true, if_false, if_true]
  | alone hc ht hi =>
    have hi : (if pair.get.value.isEmptyText then KeyValue.infer? (strip w pair.get.key).value
        else none) = none := by
      split
      · exact hi ‹_›
      · rfl
    simp only [hc, ht, hi, Bool.false_eq_true, if_false]

theorem modified_reconcileKey (w : Bool) (pair : Held (Attribute Token)) :
    (reconcileKey w pair).findings.modified = true := by
  have h := reconcilesKey w pair
  generalize reconcileKey w pair = step at h ⊢
  cases h <;> rfl

end Key

/-! ### A value -/

inductive SettlesValue (w : Bool) (written : Attribute Token) (step : KeyStep) :
    Held (Attribute Token) × Findings → Prop
  | kept : step.key.isTokens = true ∨ written.value.isTokens = false →
      SettlesValue w written step
        (step.pair, ⟨decide (step.pair.get.value ≠ written.value), [], []⟩)
  /-- Under an undecided key a value stays as it came, and both of its forms are kept apart. -/
  | deferred {k : String} : step.key = .text k → written.value.isTokens = true →
      Text.contains maybeContent k = true →
      SettlesValue w written step
        (step.pair, ⟨true, [], ((strip w step.pair.get.value).objectType.map fun type =>
          newAttribute (.text valueAffected) (.tokens [.text type, .marker (newMarker .value type
            step.key (strip w step.pair.get.value).value step.pair.get.value)])).toList⟩)
  | reserved {k : String} : step.key = .text k → written.value.isTokens = true →
      Text.contains maybeContent k = false → Text.startsWith reserved k = true →
      SettlesValue w written step (step.pair, ⟨true, [], []⟩)
  | stripped {k : String} : step.key = .text k → written.value.isTokens = true →
      Text.contains maybeContent k = false → Text.startsWith reserved k = false →
      SettlesValue w written step
        (step.pair.write fun a => { a with value := (strip w step.pair.get.value).value },
          ⟨true, ((strip w step.pair.get.value).objectType.map fun type =>
            newMarker .value type step.key (strip w step.pair.get.value).value
              step.pair.get.value).toList, []⟩)

section Value

variable {w : Bool} {written : Attribute Token} {step : KeyStep}
  {r : Held (Attribute Token) × Findings}

theorem deferValue_eq (w : Bool) (key : Content Token) (pair : Held (Attribute Token)) :
    deferValue w key pair = (pair, ⟨true, [], ((strip w pair.get.value).objectType.map fun type =>
      newAttribute (.text valueAffected) (.tokens [.text type, .marker (newMarker .value type key
        (strip w pair.get.value).value pair.get.value)])).toList⟩) := by
  unfold deferValue
  simp only
  cases (strip w pair.get.value).objectType <;> rfl

theorem reconcileValue_eq (w : Bool) (key : Content Token) (pair : Held (Attribute Token)) :
    reconcileValue w key pair =
      (pair.write fun a => { a with value := (strip w pair.get.value).value },
        ⟨true, ((strip w pair.get.value).objectType.map fun type =>
          newMarker .value type key (strip w pair.get.value).value pair.get.value).toList, []⟩) := by
  unfold reconcileValue
  simp only
  cases (strip w pair.get.value).objectType <;> rfl

theorem settlesValue (w : Bool) (written : Attribute Token) (step : KeyStep) :
    SettlesValue w written step (settleValue w written step) := by
  unfold settleValue
  split
  · rename_i k hk hv
    have hk : step.key = .text k := by
      cases he : step.key with
      | text s =>
        rw [he] at hk
        rw [Option.some.inj hk]
      | tokens ts =>
        rw [he] at hk
        cases hk
    rw [deferValue_eq, reconcileValue_eq]
    split
    · exact .deferred hk hv ‹_›
    · rename_i hc
      have hc := Bool.of_not_eq_true hc
      split
      · exact .reserved hk hv hc ‹_›
      · exact .stripped hk hv hc (Bool.of_not_eq_true ‹_›)
  · rename_i hno
    refine .kept ?_
    cases hk : step.key with
    | tokens ts => exact .inl rfl
    | text k => exact .inr (Bool.of_not_eq_true fun hv => hno k (by rw [hk]; rfl) hv)

theorem SettlesValue.eq (h : SettlesValue w written step r) : settleValue w written step = r := by
  unfold settleValue
  cases h with
  | kept hkeeps =>
    cases hk : step.key with
    | tokens ts => rfl
    | text k =>
      rw [hk] at hkeeps
      rw [hkeeps.resolve_left Bool.false_ne_true]
      rfl
  | deferred hk hv hc =>
    simp only [hk, hv, Content.text?, hc, if_true, deferValue_eq]
  | reserved hk hv hc hr =>
    simp only [hk, hv, Content.text?, hc, hr, Bool.false_eq_true, if_false, if_true]
  | stripped hk hv hc hr =>
    simp only [hk, hv, Content.text?, hc, hr, Bool.false_eq_true, if_false, reconcileValue_eq]

/-- A value that was plain, or whose key still holds tokens, is left as it is. -/
theorem settleValue_keeps (h : step.key.isTokens = true ∨ written.value.isTokens = false) :
    settleValue w written step =
      (step.pair, ⟨decide (step.pair.get.value ≠ written.value), [], []⟩) :=
  (SettlesValue.kept h).eq

/-- A value that was written as tokens under a text changes its pair. -/
theorem modified_settleValue (hv : written.value.isTokens = true)
    (hk : step.key.isTokens = false) : (settleValue w written step).2.modified = true := by
  have h := settlesValue w written step
  generalize settleValue w written step = r at h ⊢
  cases h with
  | kept hkeeps =>
    rcases hkeeps with hkeeps | hkeeps
    · exact absurd (hk.symm.trans hkeeps) Bool.false_ne_true
    · exact absurd (hkeeps.symm.trans hv) Bool.false_ne_true
  | deferred | reserved | stripped => rfl

end Value

/-! ### A pair -/

def keptKey (written : Attribute Token) (pair : Held (Attribute Token)) : KeyStep :=
  ⟨pair, pair.get.key, ⟨decide (pair.get.key ≠ written.key), [], []⟩⟩

inductive ReconcilesPair (w : Bool) (written : Attribute Token)
    (expanded : Held (Attribute Token)) : Held (Attribute Token) × Findings → Prop
  | empty : expanded.get.key.isEmptyText = true →
      ReconcilesPair w written expanded (expanded.carrySources written, {})
  | text : expanded.get.key.isEmptyText = false → written.key.isTokens = false →
      ReconcilesPair w written expanded
        ((settleValue w written (keptKey written (expanded.carrySources written))).1,
          (keptKey written (expanded.carrySources written)).findings ++
            (settleValue w written (keptKey written (expanded.carrySources written))).2)
  | tokens : expanded.get.key.isEmptyText = false → written.key.isTokens = true →
      ReconcilesPair w written expanded
        ((settleValue w written (reconcileKey w (expanded.carrySources written))).1,
          (reconcileKey w (expanded.carrySources written)).findings ++
            (settleValue w written (reconcileKey w (expanded.carrySources written))).2)

section Pair

variable {w : Bool} {written : Attribute Token} {expanded : Held (Attribute Token)}
  {r : Held (Attribute Token) × Findings}

theorem get_carrySources (a : Attribute Token) (h : Held (Attribute Token)) :
    (h.carrySources a).get.key = h.get.key ∧ (h.carrySources a).get.value = h.get.value := by
  cases h <;> exact ⟨rfl, rfl⟩

theorem reconcilesPair (w : Bool) (written : Attribute Token)
    (expanded : Held (Attribute Token)) :
    ReconcilesPair w written expanded (reconcilePair w written expanded) := by
  unfold reconcilePair
  simp only [(get_carrySources written expanded).1]
  cases he : expanded.get.key.isEmptyText with
  | true => exact .empty he
  | false =>
    cases hk : written.key.isTokens with
    | true => exact .tokens he hk
    | false =>
      have hr := ReconcilesPair.text (w := w) he hk
      rw [keptKey, (get_carrySources written expanded).1] at hr
      exact hr

theorem ReconcilesPair.eq (h : ReconcilesPair w written expanded r) :
    reconcilePair w written expanded = r := by
  unfold reconcilePair
  simp only [(get_carrySources written expanded).1]
  cases h with
  | empty he => rw [if_pos he]
  | text he hk =>
    rw [if_neg (Bool.eq_false_iff.1 he), if_neg (Bool.eq_false_iff.1 hk), keptKey,
      (get_carrySources written expanded).1]
  | tokens he hk => rw [if_neg (Bool.eq_false_iff.1 he), if_pos hk]

end Pair

/-! ### All pairs -/

section Pairs

variable {w : Bool} {as : List (Attribute Token)} {hs : List (Held (Attribute Token))}

theorem reconcile_cons (w : Bool) (a : Attribute Token) (as : List (Attribute Token))
    (h : Held (Attribute Token)) (hs : List (Held (Attribute Token))) :
    reconcile w (a :: as) (h :: hs) = ((reconcilePair w a h).1 :: (reconcile w as hs).1,
      (reconcilePair w a h).2 ++ (reconcile w as hs).2) := rfl

/-- What is put together from some pairs was one of them, or was settled from one. -/
theorem mem_reconcile {p : Held (Attribute Token)} (hp : p ∈ (reconcile w as hs).1) :
    p ∈ hs ∨ ∃ a ∈ as, ∃ h ∈ hs, p = (reconcilePair w a h).1 := by
  induction as generalizing hs with
  | nil => exact .inl hp
  | cons a as ih =>
    cases hs with
    | nil => exact .inl hp
    | cons h hs =>
      rw [reconcile_cons] at hp
      rcases List.mem_cons.1 hp with rfl | hp
      · exact .inr ⟨a, List.mem_cons_self, h, List.mem_cons_self, rfl⟩
      · rcases ih hp with hp | ⟨b, hb, g, hg, he⟩
        · exact .inl (List.mem_cons_of_mem h hp)
        · exact .inr ⟨b, List.mem_cons_of_mem a hb, g, List.mem_cons_of_mem h hg, he⟩

/-- What was found out about some pairs was found out about one of them. -/
theorem mem_findings_reconcile {β : Type} {f : Findings → List β} (hempty : f {} = [])
    (happend : ∀ x y, f (x ++ y) = f x ++ f y) {b : β} (hb : b ∈ f (reconcile w as hs).2) :
    ∃ a ∈ as, ∃ h ∈ hs, b ∈ f (reconcilePair w a h).2 := by
  induction as generalizing hs with
  | nil => exact absurd (hempty ▸ hb) List.not_mem_nil
  | cons a as ih =>
    cases hs with
    | nil => exact absurd (hempty ▸ hb) List.not_mem_nil
    | cons h hs =>
      rw [reconcile_cons] at hb
      simp only at hb
      rw [happend] at hb
      rcases List.mem_append.1 hb with hb | hb
      · exact ⟨a, List.mem_cons_self, h, List.mem_cons_self, hb⟩
      · obtain ⟨c, hc, g, hg, hb⟩ := ih hb
        exact ⟨c, List.mem_cons_of_mem a hc, g, List.mem_cons_of_mem h hg, hb⟩

theorem mem_markers_reconcile {m : Marker Token} (hm : m ∈ (reconcile w as hs).2.markers) :
    ∃ a ∈ as, ∃ h ∈ hs, m ∈ (reconcilePair w a h).2.markers :=
  mem_findings_reconcile (f := Findings.markers) rfl (fun _ _ => rfl) hm

theorem mem_added_reconcile {b : Attribute Token} (hb : b ∈ (reconcile w as hs).2.added) :
    ∃ a ∈ as, ∃ h ∈ hs, b ∈ (reconcilePair w a h).2.added :=
  mem_findings_reconcile (f := Findings.added) rfl (fun _ _ => rfl) hb

end Pairs

/-! ### The tag -/

/-- The list that a tag is rebuilt from: its settled pairs, and those that were added. -/
def settledPairs (w : Bool) (as : List (Attribute Token)) (hs : List (Held (Attribute Token))) :
    List (Held (Attribute Token)) :=
  (reconcile w as hs).1 ++ (reconcile w as hs).2.added.map .own

section Group

variable {hs : List (Held (Attribute Token))}

theorem group_of_about {id : String} (h : Attribute.lookupText "about" (hs.map Held.get) = some id)
    (ids : IdSource) (last : Marker Token) (ms : List (Marker Token)) :
    group ids last ms hs = (⟨ms.map fun m => { m with about := some id },
      AttributeEdit.apply hs (.addWord "typeof" (expandedLabel last.objectType))⟩, ids) := by
  rw [group, h]

theorem group_of_no_about (h : Attribute.lookupText "about" (hs.map Held.get) = none)
    (ids : IdSource) (last : Marker Token) (ms : List (Marker Token)) :
    group ids last ms hs = (⟨ms.map fun m => { m with about := some ids.newAboutId.1 },
      AttributeEdit.apply (AttributeEdit.apply hs (.set "about" (.text ids.newAboutId.1)))
        (.addWord "typeof" (expandedLabel last.objectType))⟩, ids.newAboutId.2) := by
  rw [group, h]

theorem markers_group (ids : IdSource) (last : Marker Token) (ms : List (Marker Token))
    (hs : List (Held (Attribute Token))) :
    ∃ id, (group ids last ms hs).1.markers = ms.map fun m => { m with about := some id } := by
  cases h : Attribute.lookupText "about" (hs.map Held.get) with
  | some id => exact ⟨id, by rw [group_of_about h]⟩
  | none => exact ⟨ids.newAboutId.1, by rw [group_of_no_about h]⟩

end Group

inductive Rebuilds (o : Options) (ids : IdSource) (as : List (Attribute Token))
    (hs : List (Held (Attribute Token))) : Option Rebuilt × IdSource → Prop
  | unmodified : (reconcile o.wrapTemplates as hs).2.modified = false →
      Rebuilds o ids as hs (none, ids)
  | unmarked : (reconcile o.wrapTemplates as hs).2.modified = true →
      (reconcile o.wrapTemplates as hs).2.markers = [] →
      Rebuilds o ids as hs (some ⟨[], settledPairs o.wrapTemplates as hs⟩, ids)
  | marked {last : Marker Token} :
      (reconcile o.wrapTemplates as hs).2.modified = true →
      (reconcile o.wrapTemplates as hs).2.markers.getLast? = some last →
      Rebuilds o ids as hs
        (some (group ids last (reconcile o.wrapTemplates as hs).2.markers
            (settledPairs o.wrapTemplates as hs)).1,
          (group ids last (reconcile o.wrapTemplates as hs).2.markers
            (settledPairs o.wrapTemplates as hs)).2)

inductive Returns (o : Options) (ids : IdSource) (token : Token)
    (hs : List (Held (Attribute Token))) : Outcome (List Token) × IdSource → Prop
  | ineligible : token.expandableTag? = none → Returns o ids token hs (.ok [token], ids)
  | malformed {tag : Tag Token} : token.expandableTag? = some tag →
      hs.length < tag.attributes.length →
      Returns o ids token hs (.error (.malformedToken tag.name tag.attributes.length hs.length
        tag.source.range), ids)
  | unmodified {tag : Tag Token} {ids' : IdSource} : token.expandableTag? = some tag →
      tag.attributes.length ≤ hs.length → rebuild o ids tag.attributes hs = (none, ids') →
      Returns o ids token hs (.ok [token], ids')
  | rebuilt {tag : Tag Token} {r : Rebuilt} {ids' : IdSource} :
      token.expandableTag? = some tag → tag.attributes.length ≤ hs.length →
      rebuild o ids tag.attributes hs = (some r, ids') →
      Returns o ids token hs
        (.ok (r.markers.map .marker ++ [token.withTag (tag.withHeld r.attributes)]), ids')

section Tag

variable {o : Options} {ids : IdSource} {as : List (Attribute Token)}
  {hs : List (Held (Attribute Token))}

theorem rebuilds (o : Options) (ids : IdSource) (as : List (Attribute Token))
    (hs : List (Held (Attribute Token))) : Rebuilds o ids as hs (rebuild o ids as hs) := by
  unfold rebuild
  simp only
  cases hm : (reconcile o.wrapTemplates as hs).2.modified with
  | false => exact .unmodified hm
  | true =>
    cases hlast : (reconcile o.wrapTemplates as hs).2.markers.getLast? with
    | none => exact .unmarked hm (List.getLast?_eq_none_iff.1 hlast)
    | some last => exact .marked hm hlast

theorem Rebuilds.eq {r : Option Rebuilt × IdSource} (h : Rebuilds o ids as hs r) :
    rebuild o ids as hs = r := by
  unfold rebuild
  cases h with
  | unmodified hm => simp only [hm, Bool.false_eq_true, if_false]
  | unmarked hm hn =>
    simp only [hm, hn, List.getLast?_nil, if_true]
    rfl
  | marked hm hlast =>
    simp only [hm, hlast, if_true]
    rfl

variable {token : Token}

theorem returns (o : Options) (ids : IdSource) (token : Token)
    (hs : List (Held (Attribute Token))) :
    Returns o ids token hs (returnAttributes o ids token hs) := by
  unfold returnAttributes
  cases ht : token.expandableTag? with
  | none => exact .ineligible ht
  | some tag =>
    by_cases hl : hs.length < tag.attributes.length
    · simp only [if_pos hl]
      exact .malformed ht hl
    · simp only [if_neg hl]
      have hl := Nat.le_of_not_lt hl
      cases hr : rebuild o ids tag.attributes hs with
      | mk r ids' =>
        cases r with
        | none => exact .unmodified ht hl hr
        | some r => exact .rebuilt ht hl hr

theorem Returns.eq {r : Outcome (List Token) × IdSource} (h : Returns o ids token hs r) :
    returnAttributes o ids token hs = r := by
  unfold returnAttributes
  cases h with
  | ineligible ht => simp only [ht]
  | malformed ht hl => simp only [ht, if_pos hl]
  | unmodified ht hl hr => simp only [ht, if_neg (Nat.not_lt.2 hl), hr]
  | rebuilt ht hl hr => simp only [ht, if_neg (Nat.not_lt.2 hl), hr]

end Tag

/-! ### What is emitted -/

theorem withTag_self {token : Token} {tag : Tag Token} (h : token.expandableTag? = some tag) :
    token.withTag tag = token := by
  cases token with
  | opening t | selfClosing t =>
    obtain rfl := Option.some.inj h
    rfl
  | _ => cases h

/-- The attributes of the emitted tag, which are those of the written one where
no pair changed. -/
def emittedAttributes (o : Options) (ids : IdSource) (tag : Tag Token)
    (expanded : List (Held (Attribute Token))) : List (Held (Attribute Token)) :=
  ((rebuild o ids tag.attributes expanded).1.map Rebuilt.attributes).getD tag.share

def emittedMarkers (o : Options) (ids : IdSource) (tag : Tag Token)
    (expanded : List (Held (Attribute Token))) : List (Marker Token) :=
  ((rebuild o ids tag.attributes expanded).1.map Rebuilt.markers).getD []

theorem returnAttributes_emitted (o : Options) (ids : IdSource) {token : Token} {tag : Tag Token}
    {expanded : List (Held (Attribute Token))} (ht : token.expandableTag? = some tag)
    (hl : tag.attributes.length ≤ expanded.length) :
    (returnAttributes o ids token expanded).1 =
      .ok ((emittedMarkers o ids tag expanded).map .marker ++
        [token.withTag (tag.withHeld (emittedAttributes o ids tag expanded))]) := by
  unfold emittedMarkers emittedAttributes
  cases hr : rebuild o ids tag.attributes expanded with
  | mk r ids' =>
    cases r with
    | none =>
      rw [(Returns.unmodified ht hl hr).eq]
      change Except.ok [token] = Except.ok [token.withTag (tag.withHeld tag.share)]
      rw [Tag.withHeld_share, withTag_self ht]
    | some r =>
      rw [(Returns.rebuilt ht hl hr).eq]
      rfl

/-- What is emitted for a tag, in the three ways in which it is put together. -/
inductive Emits (o : Options) (ids : IdSource) (tag : Tag Token)
    (hs : List (Held (Attribute Token))) :
    List (Marker Token) → List (Held (Attribute Token)) → Prop
  | unmodified : (reconcile o.wrapTemplates tag.attributes hs).2.modified = false →
      Emits o ids tag hs [] tag.share
  | unmarked : (reconcile o.wrapTemplates tag.attributes hs).2.modified = true →
      (reconcile o.wrapTemplates tag.attributes hs).2.markers = [] →
      Emits o ids tag hs [] (settledPairs o.wrapTemplates tag.attributes hs)
  | marked {last : Marker Token} :
      (reconcile o.wrapTemplates tag.attributes hs).2.modified = true →
      (reconcile o.wrapTemplates tag.attributes hs).2.markers.getLast? = some last →
      Emits o ids tag hs
        (group ids last (reconcile o.wrapTemplates tag.attributes hs).2.markers
          (settledPairs o.wrapTemplates tag.attributes hs)).1.markers
        (group ids last (reconcile o.wrapTemplates tag.attributes hs).2.markers
          (settledPairs o.wrapTemplates tag.attributes hs)).1.attributes

theorem emits (o : Options) (ids : IdSource) (tag : Tag Token)
    (hs : List (Held (Attribute Token))) :
    Emits o ids tag hs (emittedMarkers o ids tag hs) (emittedAttributes o ids tag hs) := by
  have hb := rebuilds o ids tag.attributes hs
  unfold emittedMarkers emittedAttributes
  generalize rebuild o ids tag.attributes hs = r at hb ⊢
  cases hb with
  | unmodified hm => exact .unmodified hm
  | unmarked hm hn => exact .unmarked hm hn
  | marked hm hlast => exact .marked hm hlast

end WikiExpansion
