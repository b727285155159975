import Mathlib.Data.List.Induction
import WikiExpansion.Proofs.Join

/-!
# What a join delivers, and when

Results come to the slots of a join in some order.  They decide it once one of them is a
failure or each slot has got a value, and with the result by which they do so the
continuation is called: with the failure, or with the first value of every slot
(`calls_of_results`).  A join without slots is decided before anything comes.

The proof follows the results one after another.  Before they decide, the slots hold the
first values that came, and the join is open (`Tracks`); one more result either leaves it
so or makes it deliver (`Tracks.result`).  Once the gate of the continuation is passed,
whoever passed it, nothing leads to a call any more (`silent`).
-/

namespace WikiExpansion.GatedJoin

variable {α : Type}

/-! ### The reference -/

def firstValue (rs : List (Nat × Outcome α)) (i : Nat) : Option α :=
  rs.findSome? fun r => if r.1 = i then r.2.toOption else none

def Decided (n : Nat) (rs : List (Nat × Outcome α)) : Prop :=
  (∃ i e, (i, .error e) ∈ rs) ∨ ∀ i, i < n → ∃ v, (i, .ok v) ∈ rs

/-- The first `m` results decide, and no fewer do. -/
structure DecidedAt (n : Nat) (rs : List (Nat × Outcome α)) (m : Nat) : Prop where
  le : m ≤ rs.length
  decided : Decided n (rs.take m)
  first : ∀ k, k < m → ¬ Decided n (rs.take k)

/-- What results that decide come to: the failure, if that was the last of them, and the
first value of each slot otherwise. -/
inductive Verdict (n : Nat) (rs : List (Nat × Outcome α)) : Outcome (List α) → Prop
  | failure {i : Nat} {e : ExpansionError} (last : rs.getLast? = some (i, .error e)) :
      Verdict n rs (.error e)
  | values {vs : List α} (sound : ∀ i e, (i, .error e) ∉ rs) (length : vs.length = n)
      (first : ∀ i, i < n → vs[i]? = firstValue rs i) : Verdict n rs (.ok vs)

/-! ### Runs -/

def applyAllInside (inside : Outcome (List α) → List (Event α)) (g : GatedJoin α) :
    List (Event α) → GatedJoin α × List (Outcome (List α))
  | [] => (g, [])
  | e :: es =>
    let (g, calls) := g.applyInside inside e
    let (g, later) := applyAllInside inside g es
    (g, calls ++ later)

def history (inside : Outcome (List α) → List (Event α)) (n : Nat)
    (rs : List (Nat × Outcome α)) : GatedJoin α × List (Outcome (List α)) :=
  let (g, calls) := new n
  let (g, later) := applyAllInside inside g (rs.map fun r => .fill r.1 r.2)
  (g, calls ++ later)

/-- A join of `n` slots that is made before a gate, which may have been passed already. -/
def before (gate : Gate) (n : Nat) : GatedJoin α × List (Outcome (List α)) :=
  match Join.atOnce n with
  | some r => call ⟨.new n, gate⟩ r
  | none => (⟨.new n, gate⟩, [])

/-! ### Values and decisions -/

theorem firstValue_append (rs : List (Nat × Outcome α)) (i j : Nat) (r : Outcome α) :
    firstValue (rs ++ [(i, r)]) j =
      (firstValue rs j).or (if i = j then r.toOption else none) := by
  rw [firstValue, List.findSome?_append, List.findSome?_singleton]
  rfl

theorem firstValue_eq_none_iff {rs : List (Nat × Outcome α)} {i : Nat} :
    firstValue rs i = none ↔ ∀ v, (i, .ok v) ∉ rs := by
  rw [firstValue, List.findSome?_eq_none_iff]
  constructor
  · intro h v hv
    have := h _ hv
    rw [if_pos rfl] at this
    cases this
  · rintro h ⟨j, r⟩ hr
    by_cases hj : j = i
    · subst hj
      rw [if_pos rfl]
      cases r with
      | error e => rfl
      | ok v => exact absurd hr (h v)
    · exact if_neg hj

theorem exists_value_iff {rs : List (Nat × Outcome α)} {i : Nat} :
    (∃ v, (i, .ok v) ∈ rs) ↔ firstValue rs i ≠ none := by
  rw [Ne, firstValue_eq_none_iff, not_forall_not]

theorem Decided.mono {n : Nat} {rs qs : List (Nat × Outcome α)} (h : Decided n rs)
    (hsub : ∀ r ∈ rs, r ∈ qs) : Decided n qs := by
  rcases h with ⟨i, e, h⟩ | h
  · exact .inl ⟨i, e, hsub _ h⟩
  · refine .inr ?_
    intro i hi
    obtain ⟨v, hv⟩ := h i hi
    exact ⟨v, hsub _ hv⟩

theorem Decided.take_le {n k m : Nat} {rs : List (Nat × Outcome α)} (h : Decided n (rs.take k))
    (hkm : k ≤ m) : Decided n (rs.take m) :=
  h.mono fun _ hr => (List.take_subset_take_left rs hkm) hr

theorem DecidedAt.unique {n k m : Nat} {rs : List (Nat × Outcome α)} (h : DecidedAt n rs k)
    (h' : DecidedAt n rs m) : k = m := by
  rcases Nat.lt_trichotomy k m with hlt | heq | hlt
  · exact absurd h.decided (h'.first k hlt)
  · exact heq
  · exact absurd h'.decided (h.first m hlt)

theorem DecidedAt.of_take {n k m : Nat} {rs : List (Nat × Outcome α)}
    (h : DecidedAt n (rs.take k) m) : m ≤ k ∧ DecidedAt n rs m := by
  have hlen := h.le
  rw [List.length_take] at hlen
  have htake (l : Nat) (hl : l ≤ m) : (rs.take k).take l = rs.take l := by
    rw [List.take_take, Nat.min_eq_left (by omega)]
  refine ⟨by omega, by omega, htake m (Nat.le_refl m) ▸ h.decided, ?_⟩
  intro l hl
  exact htake l (Nat.le_of_lt hl) ▸ h.first l hl

theorem DecidedAt.append {n m : Nat} {rs : List (Nat × Outcome α)} (h : DecidedAt n rs m)
    (qs : List (Nat × Outcome α)) : DecidedAt n (rs ++ qs) m := by
  have htake (k : Nat) (hk : k ≤ m) : (rs ++ qs).take k = rs.take k :=
    List.take_append_of_le_length (Nat.le_trans hk h.le)
  refine ⟨?_, ?_, ?_⟩
  · have := h.le
    rw [List.length_append]
    omega
  · rw [htake m (Nat.le_refl m)]
    exact h.decided
  · intro k hk
    rw [htake k (Nat.le_of_lt hk)]
    exact h.first k hk

theorem decidedAt_length {n : Nat} {rs : List (Nat × Outcome α)} {r : Nat × Outcome α}
    (h : ¬ Decided n rs) (hd : Decided n (rs ++ [r])) :
    DecidedAt n (rs ++ [r]) (rs ++ [r]).length := by
  refine ⟨Nat.le_refl _, ?_, ?_⟩
  · rw [List.take_length]
    exact hd
  · intro k hk hk'
    rw [List.length_append, List.length_singleton] at hk
    rw [List.take_append_of_le_length (by omega)] at hk'
    exact h (hk'.mono fun _ hr => List.mem_of_mem_take hr)

theorem Verdict.unique {n : Nat} {rs : List (Nat × Outcome α)} {d d' : Outcome (List α)}
    (h : Verdict n rs d) (h' : Verdict n rs d') : d = d' := by
  cases h with
  | failure last =>
    cases h' with
    | failure last' =>
      rw [last] at last'
      cases last'
      rfl
    | values sound _ _ => exact absurd (List.mem_of_getLast? last) (sound _ _)
  | values sound length first =>
    cases h' with
    | failure last => exact absurd (List.mem_of_getLast? last) (sound _ _)
    | values _ length' first' =>
      refine congrArg Except.ok (List.ext_getElem? ?_)
      intro i
      by_cases hi : i < n
      · rw [first i hi, first' i hi]
      · rw [List.getElem?_eq_none (by omega), List.getElem?_eq_none (by omega)]

/-! ### A gate that was passed -/

section Silent

variable {g : GatedJoin α}

theorem call_of_passed (h : g.gate.passed = true) (r : Outcome (List α)) :
    (g.call r).2 = [] ∧ (g.call r).1.gate.passed = true := by
  simp [call, Gate.pass, h]

theorem apply_of_passed (h : g.gate.passed = true) (e : Event α) :
    (g.apply e).2 = [] ∧ (g.apply e).1.gate.passed = true := by
  cases e with
  | cancel e => exact call_of_passed h _
  | fill i r =>
    rw [apply]
    rcases g.join.fill i r with ⟨join, delivered⟩
    cases delivered with
    | none => exact ⟨rfl, h⟩
    | some d => exact call_of_passed (g := { g with join := join }) h d

theorem applyAll_of_passed (h : g.gate.passed = true) (es : List (Event α)) :
    (g.applyAll es).2 = [] ∧ (g.applyAll es).1.gate.passed = true := by
  induction es generalizing g with
  | nil => exact ⟨rfl, h⟩
  | cons e es ih =>
    obtain ⟨hcalls, hgate⟩ := apply_of_passed h e
    obtain ⟨hlater, hend⟩ := ih hgate
    refine ⟨?_, hend⟩
    show (g.apply e).2 ++ ((g.apply e).1.applyAll es).2 = []
    rw [hcalls, hlater]
    rfl

/-- An event that leads to no call, or only to one that passes the gate, is followed by
no other call from inside. -/
theorem applyInside_of_passed (inside : Outcome (List α) → List (Event α)) {e : Event α}
    (h : (g.apply e).1.gate.passed = true) :
    (g.applyInside inside e).2 = (g.apply e).2 ∧
      (g.applyInside inside e).1.gate.passed = true := by
  obtain ⟨hlater, hend⟩ := applyAll_of_passed h ((g.apply e).2.flatMap inside)
  refine ⟨?_, hend⟩
  show (g.apply e).2 ++ ((g.apply e).1.applyAll ((g.apply e).2.flatMap inside)).2 = (g.apply e).2
  rw [hlater, List.append_nil]

theorem applyInside_of_silent (inside : Outcome (List α) → List (Event α)) {e : Event α}
    (h : (g.apply e).2 = []) : g.applyInside inside e = ((g.apply e).1, []) := by
  unfold applyInside
  rcases hr : g.apply e with ⟨g', calls⟩
  rw [hr] at h
  obtain rfl : calls = [] := h
  rfl

/-- Behind a gate that was passed nothing leads to a call. -/
theorem silent (inside : Outcome (List α) → List (Event α)) (h : g.gate.passed = true)
    (es : List (Event α)) :
    (applyAllInside inside g es).2 = [] ∧
      (applyAllInside inside g es).1.gate.passed = true := by
  induction es generalizing g with
  | nil => exact ⟨rfl, h⟩
  | cons e es ih =>
    obtain ⟨hcalls, hgate⟩ := apply_of_passed h e
    obtain ⟨hsame, hinside⟩ := applyInside_of_passed inside hgate
    obtain ⟨hlater, hend⟩ := ih hinside
    refine ⟨?_, hend⟩
    show (g.applyInside inside e).2 ++ (applyAllInside inside (g.applyInside inside e).1 es).2 = []
    rw [hsame, hcalls, hlater]
    rfl

theorem passed_call (g : GatedJoin α) (r : Outcome (List α)) :
    (g.call r).1.gate.passed = true := rfl

end Silent

/-! ### Counting -/

section Counts

variable {g : GatedJoin α}

theorem join_apply_fill (g : GatedJoin α) (i : Nat) (r : Outcome α) :
    (g.apply (.fill i r)).1.join = (g.join.fill i r).1 := by
  rw [apply]
  rcases g.join.fill i r with ⟨join, delivered⟩
  cases delivered <;> rfl

theorem counts_apply (h : g.join.Counts) (e : Event α) : (g.apply e).1.join.Counts := by
  cases e with
  | cancel e => exact h
  | fill i r =>
    rw [join_apply_fill]
    exact Join.counts_fill h i r

theorem counts_applyAll (h : g.join.Counts) (es : List (Event α)) :
    (g.applyAll es).1.join.Counts := by
  induction es generalizing g with
  | nil => exact h
  | cons e es ih => exact ih (counts_apply h e)

theorem counts_applyAllInside (inside : Outcome (List α) → List (Event α)) (h : g.join.Counts)
    (es : List (Event α)) : (applyAllInside inside g es).1.join.Counts := by
  induction es generalizing g with
  | nil => exact h
  | cons e es ih => exact ih (counts_applyAll (counts_apply h e) _)

theorem counts_newGated (n : Nat) : (new n : GatedJoin α × _).1.join.Counts := by
  unfold new
  split
  · exact Join.counts_new n
  · exact Join.counts_new n

end Counts

/-! ### Results that have not decided -/

/-- The results have not decided: the join is open and has the first value of each slot. -/
structure Tracks (n : Nat) (rs : List (Nat × Outcome α)) (g : GatedJoin α) : Prop where
  passed : g.gate.passed = false
  delivered : g.join.delivered = false
  counts : g.join.Counts
  length : g.join.slots.length = n
  slots : ∀ i, i < n → g.join.slots[i]? = some (firstValue rs i)
  sound : ∀ i e, (i, .error e) ∉ rs

variable {n : Nat} {rs : List (Nat × Outcome α)} {g : GatedJoin α}

theorem Tracks.lt_of_empty (h : Tracks n rs g) {i : Nat} (hi : g.join.slots[i]? = some none) :
    i < n := by
  rw [← h.length]
  exact (List.getElem?_eq_some_iff.1 hi).1

theorem Tracks.not_decided (h : Tracks n rs g) : ¬ Decided n rs := by
  rintro (⟨i, e, he⟩ | hall)
  · exact h.sound i e he
  · obtain ⟨i, hi⟩ := Join.exists_empty h.counts h.delivered
    have hlt := h.lt_of_empty hi
    rw [h.slots i hlt] at hi
    exact exists_value_iff.1 (hall i hlt) (Option.some.inj hi)

theorem Tracks.firstValue_of_ne (h : Tracks n rs g) {i j : Nat} (v : α) (hj : j < n)
    (hne : j ≠ i ∨ g.join.slots[i]? ≠ some none) :
    firstValue (rs ++ [(i, .ok v)]) j = firstValue rs j := by
  rw [firstValue_append]
  by_cases hij : i = j
  · subst hij
    have hempty := hne.resolve_left fun h => h rfl
    cases hv : firstValue rs i with
    | some w => rfl
    | none => exact absurd (hv ▸ h.slots i hj) hempty
  · rw [if_neg hij, Option.or_none]

theorem sound_append {i : Nat} {v : α} (h : ∀ j e, (j, Except.error e) ∉ rs) :
    ∀ j e, (j, Except.error e) ∉ rs ++ [(i, .ok v)] := by
  intro j e hmem
  rcases List.mem_append.1 hmem with hmem | hmem
  · exact h j e hmem
  · cases List.mem_singleton.1 hmem

theorem Tracks.slots_set (h : Tracks n rs g) {i : Nat} (hi : g.join.slots[i]? = some none) (v : α)
    {j : Nat} (hj : j < n) :
    (g.join.slots.set i (some v))[j]? = some (firstValue (rs ++ [(i, .ok v)]) j) := by
  have hlt := h.lt_of_empty hi
  by_cases hij : j = i
  · subst hij
    have hnone : firstValue rs j = none := by
      rw [h.slots j hlt] at hi
      exact Option.some.inj hi
    rw [List.getElem?_set_self (by rw [h.length]; exact hlt), firstValue_append, hnone, if_pos rfl]
    rfl
  · rw [List.getElem?_set_ne (Ne.symm hij), h.firstValue_of_ne v hj (.inl hij), h.slots j hj]

/-- A value that is the last one decides, and the join delivers the first values. -/
theorem Tracks.verdict_of_last (h : Tracks n rs g) {i : Nat} {v : α}
    (hi : g.join.slots[i]? = some none) {vs : List α}
    (hslots : g.join.slots.set i (some v) = vs.map some) :
    Decided n (rs ++ [(i, .ok v)]) ∧ Verdict n (rs ++ [(i, .ok v)]) (.ok vs) := by
  have hlen : vs.length = n := by
    have := congrArg List.length hslots
    rw [List.length_set, List.length_map, h.length] at this
    exact this.symm
  have hfirst : ∀ j, j < n → vs[j]? = firstValue (rs ++ [(i, .ok v)]) j := by
    intro j hj
    have hset := h.slots_set hi v hj
    rw [hslots, List.getElem?_map, List.getElem?_eq_getElem (by omega)] at hset
    rw [List.getElem?_eq_getElem (by omega)]
    exact Option.some.inj hset
  refine ⟨.inr ?_, .values (sound_append h.sound) hlen hfirst⟩
  intro j hj
  rw [exists_value_iff, ← hfirst j hj, List.getElem?_eq_getElem (by omega)]
  exact Option.some_ne_none _

theorem Tracks.calls (h : Tracks n rs g) {i : Nat} {r : Outcome α} {j : Join α}
    {d : Outcome (List α)} (hf : g.join.fill i r = (j, some d)) :
    (g.apply (.fill i r)).2 = [d] ∧ (g.apply (.fill i r)).1.gate.passed = true := by
  rw [apply, hf]
  simp [call, Gate.pass, h.passed]

/-- **One more result** leaves the join as it is, fills a slot, or is delivered. -/
theorem Tracks.result (h : Tracks n rs g) (i : Nat) (r : Outcome α) :
    (Tracks n (rs ++ [(i, r)]) (g.apply (.fill i r)).1 ∧ (g.apply (.fill i r)).2 = []) ∨
      ∃ d, Decided n (rs ++ [(i, r)]) ∧ Verdict n (rs ++ [(i, r)]) d ∧
        (g.apply (.fill i r)).2 = [d] ∧ (g.apply (.fill i r)).1.gate.passed = true := by
  rcases Join.fill_cases g.join i r with ⟨hf, he⟩ | ⟨e, rfl, -, hf⟩ | ⟨v, rfl, -, hi, -, hf⟩ |
    ⟨v, rfl, -, hi, hne, hf⟩
  · -- the slot is filled or is not there
    have hempty : g.join.slots[i]? ≠ some none := by
      refine he.resolve_left ?_
      rw [h.delivered]
      exact Bool.false_ne_true
    cases r with
    | error e =>
      rw [Join.fill_error h.delivered] at hf
      cases congrArg Prod.snd hf
    | ok v =>
      have hsame : g.apply (.fill i (.ok v)) = (g, []) := by
        rw [apply, hf]
      refine .inl ⟨?_, by rw [hsame]⟩
      rw [hsame]
      refine ⟨h.passed, h.delivered, h.counts, h.length, ?_, sound_append h.sound⟩
      intro j hj
      rw [h.firstValue_of_ne v hj (.inr hempty), h.slots j hj]
  · have hmem : (i, Except.error e) ∈ rs ++ [(i, Except.error e)] :=
      List.mem_append_right rs List.mem_cons_self
    exact .inr ⟨.error e, .inl ⟨i, e, hmem⟩, .failure List.getLast?_concat, h.calls hf⟩
  · -- the last slot is filled
    have hdeliver : (g.join.fill i (.ok v)).2 =
        some (.ok ((g.join.slots.set i (some v)).filterMap id)) := by rw [hf]
    obtain ⟨-, -, ⟨e, he, -⟩ | ⟨w, vs, -, hvs, -, hslots⟩⟩ := Join.fill_delivers h.counts hdeliver
    · cases he
    · rw [hf] at hslots
      obtain ⟨hdecided, hverdict⟩ := h.verdict_of_last hi hslots
      exact .inr ⟨.ok vs, hdecided, hverdict, h.calls (hf.trans (by rw [Except.ok.inj hvs]))⟩
  · -- a slot is filled that is not the last one
    have hopen : g.apply (.fill i (.ok v)) =
        ({ g with join := ⟨g.join.slots.set i (some v), g.join.remaining - 1, false⟩ }, []) := by
      rw [apply, hf]
    refine .inl ⟨?_, by rw [hopen]⟩
    have hcounts := counts_apply h.counts (.fill i (.ok v))
    rw [hopen] at hcounts ⊢
    refine ⟨h.passed, rfl, hcounts, ?_, fun j hj => h.slots_set hi v hj, sound_append h.sound⟩
    rw [List.length_set]
    exact h.length

/-! ### All results -/

variable {inside : Outcome (List α) → List (Event α)}

theorem applyAllInside_append (g : GatedJoin α) (es fs : List (Event α)) :
    applyAllInside inside g (es ++ fs) =
      ((applyAllInside inside (applyAllInside inside g es).1 fs).1,
        (applyAllInside inside g es).2 ++
          (applyAllInside inside (applyAllInside inside g es).1 fs).2) := by
  induction es generalizing g with
  | nil => rfl
  | cons e es ih =>
    simp only [List.cons_append, applyAllInside, ih, List.append_assoc]

theorem history_append (rs : List (Nat × Outcome α)) (i : Nat) (r : Outcome α) :
    history inside n (rs ++ [(i, r)]) =
      (((history inside n rs).1.applyInside inside (.fill i r)).1,
        (history inside n rs).2 ++ ((history inside n rs).1.applyInside inside (.fill i r)).2) := by
  simp only [history, List.map_append, List.map_singleton, applyAllInside_append, applyAllInside,
    List.append_nil, List.append_assoc]

theorem tracks_new (inside : Outcome (List α) → List (Event α)) (hn : 0 < n) :
    Tracks n [] (history inside n []).1 ∧ (history inside n []).2 = [] := by
  have hne : n ≠ 0 := Nat.ne_of_gt hn
  have hnew : history inside n [] = (⟨.new n, ⟨false⟩⟩, []) := by
    simp [history, new, Join.atOnce, hne, applyAllInside]
  have hnone (i : Nat) (e : ExpansionError) : ((i, .error e) : Nat × Outcome α) ∉ [] := nofun
  rw [hnew]
  refine ⟨⟨rfl, ?_, Join.counts_new n, Join.length_slots_new n, ?_, hnone⟩, rfl⟩
  · simp [Join.new, hne]
  · intro i hi
    exact List.getElem?_replicate_of_lt hi

/-- A join is open, or has been decided by some of the results and delivered what these
come to. -/
theorem history_cases (inside : Outcome (List α) → List (Event α)) (n : Nat)
    (rs : List (Nat × Outcome α)) :
    (Tracks n rs (history inside n rs).1 ∧ (history inside n rs).2 = []) ∨
      ∃ m d, DecidedAt n rs m ∧ Verdict n (rs.take m) d ∧ (history inside n rs).2 = [d] ∧
        (history inside n rs).1.gate.passed = true := by
  induction rs using List.reverseRecOn with
  | nil =>
    rcases Nat.eq_zero_or_pos n with rfl | hn
    · refine .inr ⟨0, .ok [], ⟨Nat.le_refl 0, .inr ?_, ?_⟩, .values ?_ rfl ?_, rfl, rfl⟩
      · exact fun i hi => absurd hi (Nat.not_lt_zero i)
      · exact fun k hk => absurd hk (Nat.not_lt_zero k)
      · exact fun i e h => nomatch h
      · exact fun i hi => absurd hi (Nat.not_lt_zero i)
    · exact .inl (tracks_new inside hn)
  | append_singleton rs r ih =>
    obtain ⟨i, r⟩ := r
    rw [history_append]
    rcases ih with ⟨htracks, hcalls⟩ | ⟨m, d, hat, hverdict, hcalls, hpassed⟩
    · rw [hcalls, List.nil_append]
      rcases htracks.result i r with ⟨hnext, hsilent⟩ | ⟨d, hdecided, hverdict, hcall, hpassed⟩
      · rw [applyInside_of_silent inside hsilent]
        exact .inl ⟨hnext, rfl⟩
      · obtain ⟨hsame, hend⟩ := applyInside_of_passed inside hpassed
        have hat := decidedAt_length htracks.not_decided hdecided
        refine .inr ⟨_, d, hat, ?_, hsame.trans hcall, hend⟩
        rw [List.take_length]
        exact hverdict
    · obtain ⟨hnone, hgate⟩ := apply_of_passed hpassed (.fill i r)
      obtain ⟨hsame, hend⟩ := applyInside_of_passed inside hgate
      refine .inr ⟨m, d, hat.append [(i, r)], ?_, ?_, hend⟩
      · rw [List.take_append_of_le_length hat.le]
        exact hverdict
      · rw [hcalls, hsame, hnone, List.append_nil]

theorem DecidedAt.exists_verdict {m : Nat} (h : DecidedAt n rs m) :
    ∃ d, Verdict n (rs.take m) d := by
  rcases history_cases (fun _ => []) n (rs.take m) with ⟨htracks, -⟩ | ⟨m', d, hat, hverdict, -⟩
  · exact absurd h.decided htracks.not_decided
  · obtain ⟨hle, hat⟩ := hat.of_take
    rw [List.take_take, Nat.min_eq_left hle, hat.unique h] at hverdict
    exact ⟨d, hverdict⟩

/-- The call is made with the result that decides, and not before. -/
theorem DecidedAt.calls_take {m : Nat} (h : DecidedAt n rs m) {d : Outcome (List α)}
    (hd : Verdict n (rs.take m) d) (inside : Outcome (List α) → List (Event α)) (k : Nat) :
    (history inside n (rs.take k)).2 = if m ≤ k then [d] else [] := by
  rcases history_cases inside n (rs.take k) with ⟨htracks, hcalls⟩ |
    ⟨m', d', hat, hverdict, hcalls, -⟩
  · have hlt : ¬ m ≤ k := fun hle => htracks.not_decided (h.decided.take_le hle)
    rw [hcalls, if_neg hlt]
  · obtain ⟨hle, hat⟩ := hat.of_take
    rw [List.take_take, Nat.min_eq_left hle] at hverdict
    obtain rfl := hat.unique h
    rw [hcalls, if_pos hle, hd.unique hverdict]

theorem before_of_passed (n : Nat) : (before ⟨true⟩ n : GatedJoin α × _).2 = [] ∧
    (before ⟨true⟩ n : GatedJoin α × _).1.gate.passed = true := by
  unfold before
  split
  · exact call_of_passed rfl _
  · exact ⟨rfl, rfl⟩

/-- **A join calls its continuation once, with the result that decides**, for any number of
slots and whatever comes to them: in any order, several times, to slots that are not
there, and from inside the continuation.  It does so at creation if it has no slots, and
never if the results do not decide.  As long as it has not delivered, it counts its empty
slots, of which there are some, also when others have called the continuation; and when
they have, at whatever time and even before the join was made, the join does not. -/
theorem calls_of_results (inside : Outcome (List α) → List (Event α)) (n : Nat)
    (rs : List (Nat × Outcome α)) :
    (∀ m, DecidedAt n rs m → ∃ d, Verdict n (rs.take m) d ∧
      ∀ k, (history inside n (rs.take k)).2 = if m ≤ k then [d] else []) ∧
    ((∀ m, ¬ DecidedAt n rs m) → ∀ k, (history inside n (rs.take k)).2 = []) ∧
    (∀ es : List (Event α), (applyAllInside inside (new n).1 es).1.join.delivered = false →
      0 < (applyAllInside inside (new n).1 es).1.join.remaining ∧
        (applyAllInside inside (new n).1 es).1.join.remaining =
          (applyAllInside inside (new n).1 es).1.join.slots.countP Option.isNone) ∧
    (∀ (g : GatedJoin α) (r : Outcome (List α)) (es : List (Event α)),
      (applyAllInside inside (g.call r).1 es).2 = []) ∧
    ∀ es : List (Event α), (before ⟨true⟩ n : GatedJoin α × _).2 = [] ∧
      (applyAllInside inside (before ⟨true⟩ n).1 es).2 = [] := by
  refine ⟨?_, ?_, ?_, ?_, ?_⟩
  · intro m hm
    obtain ⟨d, hd⟩ := hm.exists_verdict
    exact ⟨d, hd, hm.calls_take hd inside⟩
  · intro hnever k
    rcases history_cases inside n (rs.take k) with ⟨-, hcalls⟩ | ⟨m, d, hat, -⟩
    · exact hcalls
    · exact absurd hat.of_take.2 (hnever m)
  · intro es
    exact counts_applyAllInside inside (counts_newGated n) es
  · intro g r es
    exact (silent inside (passed_call g r) es).1
  · intro es
    exact ⟨(before_of_passed n).1, (silent inside (before_of_passed n).2 es).1⟩

/-- The continuation gives slot 0 a second value, which is ignored, as was that of slot 1. -/
example : (history (fun _ => [.fill 0 (.ok "x")]) 2
    [(1, .ok "b"), (5, .ok "y"), (1, .ok "z"), (0, .ok "a"), (0, .error .incomplete)]).2 =
      [.ok ["a", "b"]] := rfl

end WikiExpansion.GatedJoin
