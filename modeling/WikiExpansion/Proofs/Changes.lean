import WikiExpansion.Proofs.Frame

/-!
# What counts as a change

Whether the expanded pairs of a tag changed anything is found out pair by pair.  A
pair is unchanged where its expanded key is the empty text, or where both sides were
written as texts and came back as the same (`Attribute.Unchanged`); any other one is a
change, whatever the expanded pair looks like (`modified_reconcile_eq_false_iff`).

So a tag is returned itself exactly where no pair changed, and otherwise it is built
from the expanded list, of which no place is lost (`returnAttributes_exact`).
-/

namespace WikiExpansion

/-- Nothing is to be settled about the expanded pair. -/
def Attribute.Unchanged (written expanded : Attribute Token) : Prop :=
  expanded.key = .text "" ∨
    written.needsExpansion = false ∧ expanded.key = written.key ∧ expanded.value = written.value

/-- Nothing is to be settled about any expanded pair that lines up with a written one. -/
def Unchanged (as : List (Attribute Token)) (hs : List (Held (Attribute Token))) : Prop :=
  ∀ (i : Nat) (a : Attribute Token) (h : Held (Attribute Token)), as[i]? = some a →
    hs[i]? = some h → a.Unchanged h.get

theorem Unchanged.cons_iff {a : Attribute Token} {as : List (Attribute Token)}
    {h : Held (Attribute Token)} {hs : List (Held (Attribute Token))} :
    Unchanged (a :: as) (h :: hs) ↔ a.Unchanged h.get ∧ Unchanged as hs := by
  refine ⟨fun hu => ⟨hu 0 a h rfl rfl, fun i => hu (i + 1)⟩, fun ⟨hu, hr⟩ i b g hb hg => ?_⟩
  cases i with
  | zero =>
    obtain rfl := Option.some.inj hb
    obtain rfl := Option.some.inj hg
    exact hu
  | succ i => exact hr i b g hb hg

/-! ### One pair -/

section Pair

variable {w : Bool} {a : Attribute Token} {h : Held (Attribute Token)}

theorem modified_settleValue_eq_false_iff {step : KeyStep} :
    (settleValue w a step).2.modified = false ↔
      (step.key.isTokens = true ∨ a.value.isTokens = false) ∧ step.pair.get.value = a.value := by
  by_cases hkeeps : step.key.isTokens = true ∨ a.value.isTokens = false
  · rw [settleValue_keeps hkeeps, decide_eq_false_iff_not, Decidable.not_not]
    exact (and_iff_right hkeeps).symm
  · obtain ⟨hk, hv⟩ := not_or.1 hkeeps
    rw [modified_settleValue (Bool.of_not_eq_false hv) (Bool.of_not_eq_true hk)]
    exact ⟨nofun, fun h => absurd h.1 hkeeps⟩

/-- **A pair is noticed exactly where it changed.** -/
theorem modified_reconcilePair_eq_false_iff :
    (reconcilePair w a h).2.modified = false ↔ a.Unchanged h.get := by
  obtain ⟨hkey, hvalue⟩ := get_carrySources a h
  unfold Attribute.Unchanged
  have hr := reconcilesPair w a h
  generalize reconcilePair w a h = r at hr ⊢
  cases hr with
  | empty he => exact ⟨fun _ => .inl (Content.isEmptyText_iff.1 he), fun _ => rfl⟩
  | text he hk =>
    rw [or_iff_right (Content.ne_of_isEmptyText_eq_false he), Findings.append_def,
      Bool.or_eq_false_iff, modified_settleValue_eq_false_iff]
    simp only [keptKey]
    rw [decide_eq_false_iff_not, Decidable.not_not, Attribute.needsExpansion, hk, Bool.false_or,
      hkey, hvalue]
    constructor
    · rintro ⟨hsame, hset, hv⟩
      refine ⟨hset.resolve_left ?_, hsame, hv⟩
      rw [hsame, hk]
      exact Bool.false_ne_true
    · rintro ⟨hn, hsame, hv⟩
      exact ⟨hsame, .inr hn, hv⟩
  | tokens he hk =>
    -- a key that was expanded is a change by itself
    rw [or_iff_right (Content.ne_of_isEmptyText_eq_false he), Findings.append_def,
      Bool.or_eq_false_iff, modified_reconcileKey, Attribute.needsExpansion, hk, Bool.true_or]
    exact ⟨fun hm => Bool.noConfusion hm.1, fun hm => Bool.noConfusion hm.1⟩

theorem reconcilePair_of_texts (hn : a.needsExpansion = false) :
    (reconcilePair w a h).1 = h.carrySources a := by
  obtain ⟨hk, hv⟩ := Bool.or_eq_false_iff.1 hn
  have hr := reconcilesPair w a h
  generalize reconcilePair w a h = r at hr ⊢
  cases hr with
  | empty => rfl
  | text =>
    rw [settleValue_keeps (.inr hv)]
    rfl
  | tokens _ hk' => exact absurd (hk.symm.trans hk') Bool.false_ne_true

end Pair

/-! ### All pairs -/

theorem modified_reconcile_eq_false_iff {w : Bool} {as : List (Attribute Token)}
    {hs : List (Held (Attribute Token))} :
    (reconcile w as hs).2.modified = false ↔ Unchanged as hs := by
  induction as generalizing hs with
  | nil =>
    refine ⟨fun _ i a h ha => ?_, fun _ => rfl⟩
    cases ha
  | cons a as ih =>
    cases hs with
    | nil =>
      refine ⟨fun _ i b h _ hh => ?_, fun _ => rfl⟩
      cases hh
    | cons h hs =>
      change ((reconcilePair w a h).2.modified || (reconcile w as hs).2.modified) = false ↔ _
      rw [Bool.or_eq_false_iff, modified_reconcilePair_eq_false_iff, ih, Unchanged.cons_iff]

theorem getElem?_reconcile {w : Bool} {as : List (Attribute Token)}
    {hs : List (Held (Attribute Token))} {i : Nat} {a : Attribute Token}
    {h : Held (Attribute Token)} (ha : as[i]? = some a) (hh : hs[i]? = some h) :
    (reconcile w as hs).1[i]? = some (reconcilePair w a h).1 := by
  induction as generalizing hs i with
  | nil => cases ha
  | cons b as ih =>
    cases hs with
    | nil => cases hh
    | cons g hs =>
      cases i with
      | zero =>
        obtain rfl := Option.some.inj ha
        obtain rfl := Option.some.inj hh
        rfl
      | succ i => exact ih ha hh

/-! ### The tag -/

theorem Attribute.Puts.keepsBut {k v : String} {as bs : List (Attribute Token)}
    (h : Attribute.Puts k v as bs) : Attribute.KeepsBut k as bs := by
  intro i a hi ha
  rcases h with ⟨j, b, hj, hb, -, rfl⟩ | ⟨-, rfl⟩
  · have hne : j ≠ i := by
      rintro rfl
      obtain rfl := Option.some.inj (hi.symm.trans hj)
      rw [ha] at hb
      cases hb
    rw [List.getElem?_set_ne hne]
    exact hi
  · rw [List.getElem?_append_left (List.getElem?_eq_some_iff.1 hi).1]
    exact hi

/-- Putting a tag together with its markers writes to an `about` and a `typeof` only. -/
theorem getElem?_group (ids : IdSource) (last : Marker Token) (ms : List (Marker Token))
    {hs : List (Held (Attribute Token))} (tag : Tag Token) {i : Nat} {a : Attribute Token}
    (hi : (hs.map Held.get)[i]? = some a) (habout : a.isNamed "about" = false)
    (htypeof : a.isNamed "typeof" = false) :
    ((group ids last ms hs).1.attributes.map Held.get)[i]? = some a := by
  obtain ⟨id, hg⟩ := grouped_group ids last ms hs tag
  rcases hg.source with ⟨-, -, hk⟩ | ⟨-, -, -, -, bs, hp, hk⟩
  · exact hk i a hi htypeof
  · exact hk i a (hp.keepsBut i a hi habout) htypeof

theorem length_le_group (ids : IdSource) (last : Marker Token) (ms : List (Marker Token))
    (hs : List (Held (Attribute Token))) :
    hs.length ≤ (group ids last ms hs).1.attributes.length := by
  cases h : Attribute.lookupText "about" (hs.map Held.get) with
  | some id =>
    rw [group_of_about h]
    exact AttributeEdit.length_le_apply hs (.addWord _ _)
  | none =>
    rw [group_of_no_about h]
    exact Nat.le_trans (AttributeEdit.length_le_apply hs (.set _ _))
      (AttributeEdit.length_le_apply _ (.addWord _ _))

theorem rebuild_of_changed (o : Options) (ids : IdSource) (tag : Tag Token)
    {expanded : List (Held (Attribute Token))} (hu : ¬ Unchanged tag.attributes expanded) :
    ∃ r ids', rebuild o ids tag.attributes expanded = (some r, ids') ∧
      expanded.length ≤ r.attributes.length ∧
      ∀ (i : Nat) (h : Held (Attribute Token)),
        (reconcile o.wrapTemplates tag.attributes expanded).1[i]? = some h →
        h.get.isNamed "about" = false → h.get.isNamed "typeof" = false →
        ∃ x, r.attributes[i]? = some x ∧ x.get = h.get := by
  have hm : (reconcile o.wrapTemplates tag.attributes expanded).2.modified = true :=
    Bool.of_not_eq_false (mt modified_reconcile_eq_false_iff.1 hu)
  have hlen := length_reconcile o.wrapTemplates tag.attributes expanded
  have hle : expanded.length ≤
      (settledPairs o.wrapTemplates tag.attributes expanded).length := by
    rw [settledPairs, List.length_append, hlen]
    exact Nat.le_add_right ..
  have hget {i : Nat} {h : Held (Attribute Token)}
      (hi : (reconcile o.wrapTemplates tag.attributes expanded).1[i]? = some h) :
      (settledPairs o.wrapTemplates tag.attributes expanded)[i]? = some h := by
    rw [settledPairs, List.getElem?_append_left (List.getElem?_eq_some_iff.1 hi).1]
    exact hi
  have hr := rebuilds o ids tag.attributes expanded
  generalize rebuild o ids tag.attributes expanded = r at hr ⊢
  cases hr with
  | unmodified hn => exact absurd (hm.symm.trans hn) Bool.noConfusion
  | unmarked => exact ⟨_, _, rfl, hle, fun i h hi _ _ => ⟨h, hget hi, rfl⟩⟩
  | @marked last =>
    refine ⟨_, _, rfl, Nat.le_trans hle (length_le_group ids last _ _), fun i h hi ha ht => ?_⟩
    have hi : ((settledPairs o.wrapTemplates tag.attributes expanded).map Held.get)[i]? =
        some h.get := by
      rw [List.getElem?_map, hget hi]
      rfl
    have hout := getElem?_group ids last
      (reconcile o.wrapTemplates tag.attributes expanded).2.markers tag hi ha ht
    rw [List.getElem?_map] at hout
    exact Option.map_eq_some_iff.1 hout

/-- **Change detection is exact.**  A tag of which no pair changed is returned itself
and takes no id.  Any other one has a place for every expanded pair, and what was
written as two texts holds there what it was expanded to, unless it is an `about` or
a `typeof`. -/
theorem returnAttributes_exact (o : Options) (ids : IdSource) {token : Token} {tag : Tag Token}
    {expanded : List (Held (Attribute Token))} (ht : token.expandableTag? = some tag)
    (hl : tag.attributes.length ≤ expanded.length) :
    (Unchanged tag.attributes expanded →
      returnAttributes o ids token expanded = (.ok [token], ids)) ∧
    (¬ Unchanged tag.attributes expanded → ∃ (ms : List (Marker Token))
        (out : List (Held (Attribute Token))),
      (returnAttributes o ids token expanded).1 =
        .ok (ms.map .marker ++ [token.withTag (tag.withHeld out)]) ∧
      expanded.length ≤ out.length ∧
      ∀ (i : Nat) (a : Attribute Token) (h : Held (Attribute Token)),
        tag.attributes[i]? = some a → expanded[i]? = some h → a.needsExpansion = false →
        h.get.key ≠ .text "about" → h.get.key ≠ .text "typeof" →
        ∃ x, out[i]? = some x ∧ x.get.key = h.get.key ∧ x.get.value = h.get.value) := by
  refine ⟨fun hu => ?_, fun hu => ?_⟩
  · have hm := (modified_reconcile_eq_false_iff (w := o.wrapTemplates)).2 hu
    exact (Returns.unmodified ht hl (Rebuilds.unmodified hm).eq).eq
  · obtain ⟨r, ids', hr, hle, hget⟩ := rebuild_of_changed o ids tag hu
    refine ⟨r.markers, r.attributes, ?_, hle, fun i a h ha hh hn habout htypeof => ?_⟩
    · rw [(Returns.rebuilt ht hl hr).eq]
    · have hi := getElem?_reconcile (w := o.wrapTemplates) ha hh
      rw [reconcilePair_of_texts hn] at hi
      obtain ⟨hkey, hvalue⟩ := get_carrySources a h
      have unnamed {k : String} (hk : h.get.key ≠ .text k) :
          (h.carrySources a).get.isNamed k = false := by
        rw [Bool.eq_false_iff, ne_eq, Attribute.isNamed_iff, hkey]
        exact hk
      obtain ⟨x, hx, he⟩ := hget i _ hi (unnamed habout) (unnamed htypeof)
      exact ⟨x, hx, by rw [he, hkey], by rw [he, hvalue]⟩

def plainTag : Tag Token :=
  ⟨"a", [newAttribute (.text "href") (.text "Main"), newAttribute (.text "rel") (.text "next")], {}⟩

def plainPairs : List (Held (Attribute Token)) :=
  plainTag.share ++ [.own (newAttribute (.text "id") (.text "1"))]

def otherPairs : List (Held (Attribute Token)) :=
  [.own (newAttribute (.text "href") (.tokens [.text "Main"])),
    .own (newAttribute (.text "rel") (.text "next"))]

theorem exact_plainTag :
    returnAttributes {} {} (.opening plainTag) plainPairs = (.ok [.opening plainTag], {}) ∧
      ∃ (ms : List (Marker Token)) (out : List (Held (Attribute Token))),
        (returnAttributes {} {} (.opening plainTag) otherPairs).1 =
          .ok (ms.map .marker ++ [.opening (plainTag.withHeld out)]) ∧ 2 ≤ out.length ∧
        ∃ x, out[0]? = some x ∧ x.get.key = .text "href" ∧ x.get.value = .tokens [.text "Main"] := by
  have ht : (Token.opening plainTag).expandableTag? = some plainTag := rfl
  have hsame : Unchanged plainTag.attributes plainPairs := by
    intro i a h ha hh
    match i with
    | 0 | 1 =>
      obtain rfl := Option.some.inj ha
      obtain rfl := Option.some.inj hh
      exact .inr ⟨rfl, rfl, rfl⟩
    | i + 2 => cases ha
  have hother : ¬ Unchanged plainTag.attributes otherPairs := by
    intro hu
    rcases hu 0 _ _ rfl rfl with hk | ⟨-, -, hv⟩
    · exact absurd (Content.text.inj hk) (by decide)
    · cases hv
  refine ⟨(returnAttributes_exact {} {} ht (by decide)).1 hsame, ?_⟩
  obtain ⟨ms, out, hout, hle, hget⟩ := (returnAttributes_exact {} {} ht (by decide)).2 hother
  refine ⟨ms, out, hout, hle, hget 0 _ _ rfl rfl rfl (fun hk => ?_) fun hk => ?_⟩
  · exact absurd (Content.text.inj hk) (by decide)
  · exact absurd (Content.text.inj hk) (by decide)

end WikiExpansion
