import Mathlib.Data.List.Basic
import WikiExpansion.Join

/-!
# What filling a slot does to a join

`Counts` is the invariant of a join: as long as it has not delivered, the number
it keeps is that of its empty slots, and it is not zero.  A join that counts
delivers once (`fill_delivers`): the failure that came, or the values of all
slots in order.  Other slots are left alone (`slots_fill_of_ne`), what was in a
slot stays in it (`filled_fill`), and the slot that was filled is not empty any
more unless the join is closed (`not_empty_of_open`).
-/

namespace WikiExpansion.Join

variable {α : Type}

/-- While a join has not delivered, it counts its empty slots, and there are some. -/
def Counts (j : Join α) : Prop :=
  j.delivered = false → 0 < j.remaining ∧ j.remaining = j.slots.countP Option.isNone

theorem counts_new (n : Nat) : (new n : Join α).Counts := by
  intro h
  have hn : n ≠ 0 := by simpa [new] using h
  refine ⟨Nat.pos_of_ne_zero hn, ?_⟩
  simp [new, List.countP_replicate]

theorem isEmptyAt_iff {j : Join α} {i : Nat} : j.isEmptyAt i = true ↔ j.slots[i]? = some none := by
  unfold isEmptyAt
  cases j.slots[i]? with
  | none => simp
  | some o => cases o <;> simp

theorem fill_error {j : Join α} (h : j.delivered = false) (i : Nat) (e : ExpansionError) :
    j.fill i (.error e) = ({ j with delivered := true }, some (.error e)) := by
  simp [fill, h]

theorem fill_ok_of_not_empty {j : Join α} {i : Nat} (h : j.slots[i]? ≠ some none) (v : α) :
    j.fill i (.ok v) = (j, none) := by
  have he : j.isEmptyAt i = false := by
    rw [Bool.eq_false_iff]
    exact fun ht => h (isEmptyAt_iff.1 ht)
  cases hd : j.delivered <;> simp [fill, hd, he]

theorem fill_ok {j : Join α} {i : Nat} (hd : j.delivered = false) (h : j.slots[i]? = some none)
    (v : α) :
    j.fill i (.ok v) =
      if j.remaining = 1 then
        (⟨j.slots.set i (some v), 0, true⟩, some (.ok ((j.slots.set i (some v)).filterMap id)))
      else (⟨j.slots.set i (some v), j.remaining - 1, false⟩, none) := by
  simp [fill, hd, isEmptyAt_iff.2 h]

/-- The four things that a result can do to a join. -/
theorem fill_cases (j : Join α) (i : Nat) (r : Outcome α) :
    (j.fill i r = (j, none) ∧ (j.delivered = true ∨ j.slots[i]? ≠ some none)) ∨
    (∃ e, r = .error e ∧ j.delivered = false ∧
      j.fill i r = ({ j with delivered := true }, some (.error e))) ∨
    (∃ v, r = .ok v ∧ j.delivered = false ∧ j.slots[i]? = some none ∧ j.remaining = 1 ∧
      j.fill i r = (⟨j.slots.set i (some v), 0, true⟩,
        some (.ok ((j.slots.set i (some v)).filterMap id)))) ∨
    (∃ v, r = .ok v ∧ j.delivered = false ∧ j.slots[i]? = some none ∧ j.remaining ≠ 1 ∧
      j.fill i r = (⟨j.slots.set i (some v), j.remaining - 1, false⟩, none)) := by
  cases hd : j.delivered with
  | true => exact Or.inl ⟨fill_of_delivered hd i r, Or.inl rfl⟩
  | false =>
    cases r with
    | error e => exact Or.inr (Or.inl ⟨e, rfl, rfl, fill_error hd i e⟩)
    | ok v =>
      by_cases he : j.slots[i]? = some none
      · have hf := fill_ok hd he v
        by_cases h1 : j.remaining = 1
        · rw [if_pos h1] at hf
          exact Or.inr (Or.inr (Or.inl ⟨v, rfl, rfl, he, h1, hf⟩))
        · rw [if_neg h1] at hf
          exact Or.inr (Or.inr (Or.inr ⟨v, rfl, rfl, he, h1, hf⟩))
      · exact Or.inl ⟨fill_ok_of_not_empty he v, Or.inr he⟩

/-! ### Slots -/

theorem slots_fill_of_ne (j : Join α) {i k : Nat} (h : k ≠ i) (r : Outcome α) :
    (j.fill i r).1.slots[k]? = j.slots[k]? := by
  rcases fill_cases j i r with ⟨hf, -⟩ | ⟨e, -, -, hf⟩ | ⟨v, -, -, -, -, hf⟩ | ⟨v, -, -, -, -, hf⟩
  · rw [hf]
  · rw [hf]
  · rw [hf]
    exact List.getElem?_set_ne h.symm
  · rw [hf]
    exact List.getElem?_set_ne h.symm

theorem open_of_fill {j : Join α} {i : Nat} {r : Outcome α}
    (h : (j.fill i r).1.delivered = false) : j.delivered = false := by
  cases hd : j.delivered with
  | false => rfl
  | true => rw [fill_of_delivered hd, hd] at h; exact h

theorem not_empty_of_open {j : Join α} {i : Nat} {r : Outcome α}
    (h : (j.fill i r).1.delivered = false) : (j.fill i r).1.slots[i]? ≠ some none := by
  have hd := open_of_fill h
  rcases fill_cases j i r with ⟨hf, he⟩ | ⟨e, -, -, hf⟩ | ⟨v, -, -, he, -, hf⟩ |
    ⟨v, -, -, he, -, hf⟩
  · rw [hf]
    rcases he with he | he
    · rw [hd] at he; cases he
    · exact he
  · rw [hf] at h; cases h
  · rw [hf] at h; cases h
  · rw [hf]
    obtain ⟨hi, -⟩ := List.getElem?_eq_some_iff.1 he
    simp [List.getElem?_set_self hi]

theorem delivered_fill_error (j : Join α) (i : Nat) (e : ExpansionError) :
    (j.fill i (.error e)).1.delivered = true := by
  cases hd : j.delivered with
  | true => rw [fill_of_delivered hd, hd]
  | false => rw [fill_error hd]

theorem filled_of_fill {j : Join α} {i k : Nat} {r : Outcome α} {c : α}
    (h : (j.fill i r).1.slots[k]? = some (some c)) :
    j.slots[k]? = some (some c) ∨ k = i ∧ r = .ok c := by
  by_cases hk : k = i
  · subst hk
    rcases fill_cases j k r with ⟨hf, -⟩ | ⟨e, -, -, hf⟩ | ⟨v, hr, -, he, -, hf⟩ |
      ⟨v, hr, -, he, -, hf⟩
    · rw [hf] at h; exact Or.inl h
    · rw [hf] at h; exact Or.inl h
    all_goals
      rw [hf] at h
      obtain ⟨hi, -⟩ := List.getElem?_eq_some_iff.1 he
      simp only [List.getElem?_set_self hi, Option.some.injEq] at h
      exact Or.inr ⟨rfl, hr.trans (h ▸ rfl)⟩
  · rw [slots_fill_of_ne j hk] at h
    exact Or.inl h

theorem filled_fill {j : Join α} {k : Nat} {c : α} (h : j.slots[k]? = some (some c)) (i : Nat)
    (r : Outcome α) : (j.fill i r).1.slots[k]? = some (some c) := by
  by_cases hk : k = i
  · subst hk
    rcases fill_cases j k r with ⟨hf, -⟩ | ⟨e, -, -, hf⟩ | ⟨v, -, -, he, -, -⟩ | ⟨v, -, -, he, -, -⟩
    · rw [hf]; exact h
    · rw [hf]; exact h
    all_goals
      rw [h] at he
      cases he
  · rw [slots_fill_of_ne j hk]
    exact h

theorem empty_of_fill {j : Join α} {i k : Nat} {r : Outcome α}
    (h : (j.fill i r).1.slots[k]? = some none) : j.slots[k]? = some none := by
  cases hk : j.slots[k]? with
  | none =>
    have hl : (j.fill i r).1.slots.length ≤ k := by
      rw [length_slots_fill]
      exact List.getElem?_eq_none_iff.1 hk
    rw [List.getElem?_eq_none hl] at h
    cases h
  | some o =>
    cases o with
    | none => rfl
    | some c => rw [filled_fill hk] at h; cases h

/-! ### Counting and delivering -/

theorem countP_set_of_empty {l : List (Option α)} {i : Nat} (h : l[i]? = some none) (v : α) :
    l.countP Option.isNone = (l.set i (some v)).countP Option.isNone + 1 := by
  obtain ⟨hi, hv⟩ := List.getElem?_eq_some_iff.1 h
  have hpos : 0 < l.countP Option.isNone :=
    List.countP_pos_iff.2 ⟨l[i], List.getElem_mem hi, by rw [hv]; rfl⟩
  rw [List.countP_set hi, hv]
  simp only [Option.isNone_none, Option.isNone_some, if_true, Bool.false_eq_true, if_false]
  omega

theorem counts_fill {j : Join α} (h : j.Counts) (i : Nat) (r : Outcome α) :
    (j.fill i r).1.Counts := by
  rcases fill_cases j i r with ⟨hf, -⟩ | ⟨e, -, -, hf⟩ | ⟨v, -, -, -, -, hf⟩ |
    ⟨v, -, hd, he, h1, hf⟩
  · rw [hf]; exact h
  · rw [hf]; exact nofun
  · rw [hf]; exact nofun
  · rw [hf]
    intro _
    obtain ⟨hpos, hcount⟩ := h hd
    have := countP_set_of_empty he v
    exact ⟨by simp only; omega, by simp only; omega⟩

theorem exists_empty {j : Join α} (h : j.Counts) (hd : j.delivered = false) :
    ∃ i : Nat, j.slots[i]? = some none := by
  obtain ⟨hpos, hcount⟩ := h hd
  obtain ⟨o, ho, hn⟩ := List.countP_pos_iff.1 (hcount ▸ hpos)
  obtain ⟨i, hi, hv⟩ := List.getElem_of_mem ho
  refine ⟨i, List.getElem?_eq_some_iff.2 ⟨hi, ?_⟩⟩
  rw [hv]
  exact Option.isNone_iff_eq_none.1 hn

theorem map_some_filterMap {l : List (Option α)} (h : l.countP Option.isNone = 0) :
    l = (l.filterMap id).map some := by
  induction l with
  | nil => rfl
  | cons o l ih =>
    cases o with
    | none => simp at h
    | some v =>
      rw [List.countP_cons_of_neg (by simp)] at h
      rw [List.filterMap_cons_some (by rfl), List.map_cons, ← ih h]

/-- A join delivers when it closes: the failure that came, or the values of all
its slots in order. -/
theorem fill_delivers {j : Join α} (h : j.Counts) {i : Nat} {r : Outcome α}
    {d : Outcome (List α)} (hf : (j.fill i r).2 = some d) :
    j.delivered = false ∧ (j.fill i r).1.delivered = true ∧
      ((∃ e, r = .error e ∧ d = .error e ∧ (j.fill i r).1.slots = j.slots) ∨
        ∃ v vs, r = .ok v ∧ d = .ok vs ∧ j.slots[i]? = some none ∧
          (j.fill i r).1.slots = vs.map some) := by
  rcases fill_cases j i r with ⟨hr, -⟩ | ⟨e, he, hd, hr⟩ | ⟨v, hv, hd, he, h1, hr⟩ |
    ⟨v, -, -, -, -, hr⟩
  · rw [hr] at hf; cases hf
  · rw [hr] at hf ⊢
    obtain rfl := Option.some.inj hf
    exact ⟨hd, rfl, Or.inl ⟨e, he, rfl, rfl⟩⟩
  · rw [hr] at hf ⊢
    obtain rfl := Option.some.inj hf
    refine ⟨hd, rfl, Or.inr ⟨v, _, hv, rfl, he, map_some_filterMap ?_⟩⟩
    have hcount := (h hd).2
    have := countP_set_of_empty he v
    simp only
    omega
  · rw [hr] at hf; cases hf

/-- What is true of all values in the slots and of the one that comes is true of all
that are delivered. -/
theorem delivers_all {Q : Nat → α → Prop} {j : Join α} (h : j.Counts) {i : Nat} {r : Outcome α}
    {d : Outcome (List α)} (hf : (j.fill i r).2 = some d)
    (hs : ∀ (k : Nat) (c : α), j.slots[k]? = some (some c) → Q k c)
    (hr : ∀ v, r = .ok v → Q i v) :
    (∃ e, r = .error e ∧ d = .error e) ∨
      ∃ vs : List α, d = .ok vs ∧ vs.length = j.slots.length ∧
        ∀ (k : Nat) (c : α), vs[k]? = some c → Q k c := by
  obtain ⟨-, -, ⟨e, hre, hde, -⟩ | ⟨v, vs, -, hde, -, hvs⟩⟩ := fill_delivers h hf
  · exact Or.inl ⟨e, hre, hde⟩
  · have hlen : vs.length = j.slots.length := by
      rw [← length_slots_fill j i r, hvs, List.length_map]
    refine Or.inr ⟨vs, hde, hlen, fun k c hk => ?_⟩
    have hc : (j.fill i r).1.slots[k]? = some (some c) := by
      rw [hvs, List.getElem?_map, hk]
      rfl
    rcases filled_of_fill hc with hold | ⟨rfl, hnew⟩
    · exact hs k c hold
    · exact hr c hnew

theorem closes_of_delivers {j : Join α} {i : Nat} {r : Outcome α} {d : Outcome (List α)}
    (hf : (j.fill i r).2 = some d) : j.delivered = false ∧ (j.fill i r).1.delivered = true := by
  rcases fill_cases j i r with ⟨hr, -⟩ | ⟨e, -, hd, hr⟩ | ⟨v, -, hd, -, -, hr⟩ | ⟨v, -, -, -, -, hr⟩
  · rw [hr] at hf; cases hf
  · rw [hr]; exact ⟨hd, rfl⟩
  · rw [hr]; exact ⟨hd, rfl⟩
  · rw [hr] at hf; cases hf

/-- A join that delivers nothing is open or closed as before. -/
theorem delivered_of_silent {j : Join α} {i : Nat} {r : Outcome α} (hf : (j.fill i r).2 = none) :
    (j.fill i r).1.delivered = j.delivered := by
  rcases fill_cases j i r with ⟨hr, -⟩ | ⟨e, -, -, hr⟩ | ⟨v, -, -, -, -, hr⟩ | ⟨v, -, hd, -, -, hr⟩
  · rw [hr]
  · rw [hr] at hf; cases hf
  · rw [hr] at hf; cases hf
  · rw [hr]; exact hd.symm

/-! ### Joins that are filled in order -/

def partly (n : Nat) (vs : List α) : Join α :=
  ⟨vs.map some ++ List.replicate (n - vs.length) none, n - vs.length, decide (n ≤ vs.length)⟩

theorem new_eq_partly (n : Nat) : (new n : Join α) = partly n [] := by
  simp only [new, partly, List.map_nil, List.length_nil, Nat.sub_zero, List.nil_append,
    Nat.le_zero_eq]
  rfl

/-- The last value closes the join, and any other one leaves it open. -/
theorem fill_partly {n : Nat} {vs : List α} (h : vs.length < n) (v : α) :
    (partly n vs).fill vs.length (.ok v) =
      (partly n (vs ++ [v]), if vs.length + 1 = n then some (.ok (vs ++ [v])) else none) := by
  have hd : (partly n vs).delivered = false := decide_eq_false (by omega)
  have hlen : (vs.map some).length = vs.length := List.length_map ..
  have he : (partly n vs).slots[vs.length]? = some none := by
    rw [partly, List.getElem?_append_right (by omega), hlen, Nat.sub_self]
    exact List.getElem?_replicate_of_lt (by omega)
  have hs : (partly n vs).slots.set vs.length (some v) = (partly n (vs ++ [v])).slots := by
    rw [partly, partly, List.set_append_right _ _ (by omega), hlen, Nat.sub_self,
      List.map_append, List.length_append, List.length_singleton,
      show n - vs.length = (n - (vs.length + 1)) + 1 by omega, List.replicate_succ,
      List.set_cons_zero, List.append_assoc]
    rfl
  rw [fill_ok hd he, hs]
  by_cases hn : vs.length + 1 = n
  · have hr : (partly n vs).remaining = 1 := by
      show n - vs.length = 1
      omega
    have hf : (partly n (vs ++ [v])).slots.filterMap id = vs ++ [v] := by
      rw [partly, List.length_append, List.length_singleton, hn, Nat.sub_self,
        List.replicate_zero, List.append_nil, List.filterMap_map]
      exact List.filterMap_some
    rw [if_pos hr, if_pos hn, hf]
    refine Prod.ext ?_ rfl
    simp only [partly, List.length_append, List.length_singleton, hn, Nat.sub_self, Nat.le_refl,
      decide_true]
  · have hr : (partly n vs).remaining ≠ 1 := by
      show n - vs.length ≠ 1
      omega
    rw [if_neg hr, if_neg hn]
    refine Prod.ext ?_ rfl
    have hle : ¬ n ≤ vs.length + 1 := by omega
    simp only [partly, List.length_append, List.length_singleton, hle, decide_false]
    rw [Nat.sub_sub]

end WikiExpansion.Join
