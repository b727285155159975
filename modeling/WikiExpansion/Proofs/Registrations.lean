import Mathlib.Data.List.Basic
import Mathlib.Data.List.Induction
import WikiExpansion.Handler.Stock
import WikiExpansion.Proofs.Move
import WikiExpansion.Proofs.Order
import WikiExpansion.Proofs.TotalOrder

/-!
# Any handlers registered in any order

Whatever handlers are registered one after the other, the registry has each of them
once, in the order that a stable sort by the total order of the ranks puts them in
(`Registry.InOrder`).  So their positions increase, what comes after a position is the
end of the list, and handlers of different ranks could have been registered in any order.

A session changes its registry by further registrations only, so all this holds at any
time, also while handlers register others (`Session.registry_inOrder`).
-/

namespace WikiExpansion

/-! ### Sorted lists -/

section Sorted

variable {α : Type}

/-- What is picked of an ordered list, with all that stands behind it, is the end of it. -/
theorem filter_suffix_of_pairwise {R : α → α → Prop} {q : α → Bool} {as : List α}
    (h : as.Pairwise R) (hq : ∀ a b, R a b → q a = true → q b = true) : as.filter q <:+ as := by
  induction as with
  | nil => exact List.suffix_refl _
  | cons a as ih =>
    obtain ⟨ha, has⟩ := List.pairwise_cons.1 h
    by_cases hqa : q a = true
    · have hall : (a :: as).filter q = a :: as := List.filter_eq_self.2 fun b hb => by
        rcases List.mem_cons.1 hb with rfl | hb
        · exact hqa
        · exact hq a b (ha b hb) hqa
      exact ⟨[], hall⟩
    · rw [List.filter_cons_of_neg hqa]
      exact (ih has).trans (List.suffix_cons a as)

/-- What the comparison takes as equal is left in its order by sorting. -/
theorem filter_mergeSort {le : α → α → Bool} {q : α → Bool}
    (trans : ∀ a b c, le a b = true → le b c = true → le a c = true)
    (total : ∀ a b, (le a b || le b a) = true)
    (hq : ∀ a b, q a = true → q b = true → le a b = true) (as : List α) :
    (as.mergeSort le).filter q = as.filter q := by
  have hsub : (as.filter q).Sublist (as.mergeSort le) := by
    refine List.sublist_mergeSort trans total ?_ List.filter_sublist
    refine List.pairwise_of_forall_mem_list fun a ha b hb => ?_
    exact hq a b (List.mem_filter.1 ha).2 (List.mem_filter.1 hb).2
  have hsub := hsub.filter q
  rw [List.filter_filter] at hsub
  simp only [Bool.and_self] at hsub
  have hlen := ((List.mergeSort_perm as le).filter q).length_eq
  exact (hsub.eq_of_length hlen.symm).symm

end Sorted

namespace Registry

variable {η : Type}

/-- A handler with what it is registered by. -/
structure Call (η : Type) where
  name : String
  rank : Rank
  filter : Filter
  handler : η

def Call.registration (c : Call η) (n : Nat) : Registration η :=
  ⟨c.name, ⟨c.rank, n⟩, c.filter, c.handler⟩

def registerAll (calls : List (Call η)) : Registry η :=
  calls.foldl (fun g c => g.register c.name c.rank c.filter c.handler) {}

/-- The registrations in the order in which they were made. -/
def registrations (calls : List (Call η)) : List (Registration η) :=
  calls.zipIdx.map fun c => c.1.registration c.2

def notAfter (a b : Registration η) : Bool := !decide (b.position.rank.TotalLess a.position.rank)

/-- The registry has the handlers in the order of their ranks. -/
structure InOrder (g : Registry η) (calls : List (Call η)) : Prop where
  sorted : g.entries = (registrations calls).mergeSort notAfter
  perm : g.entries.Perm (registrations calls)
  once : (g.entries.map (·.position.number)).Perm (List.range calls.length)
  increasing : g.entries.Pairwise fun a b => a.position.rank.TotalLess b.position.rank ∨
    a.position.rank = b.position.rank ∧ a.position.number < b.position.number
  /-- What comes after a position is the end of the list. -/
  suffix : ∀ p, g.entries.filter (comesAfter · p) <:+ g.entries
  /-- Where no two ranks are equal, the order of registration does not count. -/
  names : ∀ others, others.Perm calls → (calls.map (·.rank)).Nodup →
    (registerAll others).names = g.names

variable {calls : List (Call η)}

/-! ### One registration after another -/

theorem registerAll_concat (calls : List (Call η)) (c : Call η) :
    registerAll (calls ++ [c]) = (registerAll calls).register c.name c.rank c.filter c.handler :=
  List.foldl_concat ..

theorem registrations_concat (calls : List (Call η)) (c : Call η) :
    registrations (calls ++ [c]) = registrations calls ++ [c.registration calls.length] := by
  rw [registrations, List.zipIdx_append, List.map_append, Nat.zero_add]
  rfl

theorem ordered_registerAll (calls : List (Call η)) : (registerAll calls).Ordered := by
  unfold registerAll
  refine List.foldlRecOn calls _ ordered_empty fun g hg c _ => ?_
  exact hg.register _ _ _ _

theorem next_registerAll (calls : List (Call η)) : (registerAll calls).next = calls.length := by
  induction calls using List.reverseRecOn with
  | nil => rfl
  | append_singleton calls c ih =>
    rw [registerAll_concat, List.length_append, ← ih]
    rfl

theorem perm_registerAll (calls : List (Call η)) :
    (registerAll calls).entries.Perm (registrations calls) := by
  induction calls using List.reverseRecOn with
  | nil => exact List.Perm.refl _
  | append_singleton calls c ih =>
    rw [registerAll_concat, registrations_concat, ← next_registerAll calls]
    refine (perm_insert _ _).trans ?_
    exact (ih.cons _).trans (List.perm_append_singleton _ _).symm

theorem numbers_registrations (calls : List (Call η)) :
    (registrations calls).map (·.position.number) = List.range calls.length := by
  rw [registrations, List.map_map, List.range_eq_range', ← List.zipIdx_map_snd]
  rfl

theorem registrations_increasing (calls : List (Call η)) :
    (registrations calls).Pairwise fun a b => a.position.number < b.position.number := by
  have h : ((registrations calls).map (·.position.number)).Pairwise (· < ·) := by
    rw [numbers_registrations]
    exact List.pairwise_lt_range
  exact List.pairwise_map.1 h

/-! ### Sorting by rank -/

theorem notAfter_iff {a b : Registration η} :
    notAfter a b = true ↔ a.position.rank.key ≤ b.position.rank.key := by
  rw [notAfter, Bool.not_eq_true', decide_eq_false_iff_not, Binary64.totalLess_iff, Int.not_lt]

theorem notAfter_trans (a b c : Registration η) (h : notAfter a b = true)
    (h' : notAfter b c = true) : notAfter a c = true :=
  notAfter_iff.2 (Int.le_trans (notAfter_iff.1 h) (notAfter_iff.1 h'))

theorem notAfter_total (a b : Registration η) : (notAfter a b || notAfter b a) = true := by
  rw [Bool.or_eq_true, notAfter_iff, notAfter_iff]
  exact Int.le_total _ _

theorem before_iff {p q : Position} :
    p.Before q ↔ p.rank.TotalLess q.rank ∨ p.rank = q.rank ∧ p.number < q.number := by
  rw [Position.Before, Binary64.totalLess_iff]

/-- A stable sort by rank puts the registrations in the order of their positions. -/
theorem pairwise_mergeSort_registrations (calls : List (Call η)) :
    ((registrations calls).mergeSort notAfter).Pairwise
      fun a b => a.position.Before b.position := by
  have hsorted := List.pairwise_mergeSort notAfter_trans notAfter_total (registrations calls)
  rw [List.pairwise_iff_forall_sublist] at hsorted ⊢
  intro a b hab
  rcases Int.lt_or_eq_of_le (notAfter_iff.1 (hsorted hab)) with hlt | heq
  · exact .inl hlt
  · -- two of one rank have kept their order, and that is the one of their numbers
    let same (r : Registration η) : Bool := decide (r.position.rank.key = a.position.rank.key)
    have hsame : ((registrations calls).mergeSort notAfter).filter same =
        (registrations calls).filter same :=
      filter_mergeSort notAfter_trans notAfter_total (fun c d hc hd => notAfter_iff.2
        (Int.le_of_eq ((of_decide_eq_true hc).trans (of_decide_eq_true hd).symm))) _
    have hkept : [a, b].Sublist (registrations calls) := by
      have hfilter := hab.filter same
      have hpair : [a, b].filter same = [a, b] := by simp [same, heq]
      rw [hpair, hsame] at hfilter
      exact hfilter.trans List.filter_sublist
    have hnumber := List.pairwise_iff_forall_sublist.1 (registrations_increasing calls) hkept
    exact .inr ⟨Binary64.key_injective heq, hnumber⟩

/-- **The entries are what a stable sort makes of the registrations.** -/
theorem entries_registerAll (calls : List (Call η)) :
    (registerAll calls).entries = (registrations calls).mergeSort notAfter := by
  refine List.Perm.eq_of_pairwise (fun a b _ _ hab hba => absurd hba hab.asymm)
    (ordered_registerAll calls).sorted (pairwise_mergeSort_registrations calls) ?_
  exact (perm_registerAll calls).trans (List.mergeSort_perm _ _).symm

/-! ### Other orders of registration -/

def callOf (r : Registration η) : Call η := ⟨r.name, r.position.rank, r.filter, r.handler⟩

theorem map_callOf_registrations (calls : List (Call η)) :
    (registrations calls).map callOf = calls := by
  rw [registrations, List.map_map]
  exact List.zipIdx_map_fst 0 calls

theorem perm_callOf (calls : List (Call η)) :
    ((registerAll calls).entries.map callOf).Perm calls := by
  have h := (perm_registerAll calls).map callOf
  rwa [map_callOf_registrations] at h

theorem pairwise_callOf (h : (calls.map (·.rank)).Nodup) :
    ((registerAll calls).entries.map callOf).Pairwise fun a b => a.rank.key < b.rank.key := by
  have hranks : ((registerAll calls).entries.map (·.position.rank)).Nodup := by
    have := ((perm_callOf calls).map (·.rank)).nodup_iff.2 h
    rwa [List.map_map] at this
  have hne : (registerAll calls).entries.Pairwise fun a b => a.position.rank ≠ b.position.rank :=
    List.pairwise_map.1 hranks
  refine List.pairwise_map.2 (((ordered_registerAll calls).sorted.and hne).imp fun hab => ?_)
  exact hab.1.resolve_right fun he => hab.2 he.1

/-- Different ranks leave one order only. -/
theorem entries_eq_of_perm {others : List (Call η)} (hp : others.Perm calls)
    (h : (calls.map (·.rank)).Nodup) :
    (registerAll others).entries.map callOf = (registerAll calls).entries.map callOf := by
  refine List.Perm.eq_of_pairwise (fun a b _ _ hab hba => absurd hab (Int.lt_asymm hba))
    (pairwise_callOf ((hp.map _).nodup_iff.2 h)) (pairwise_callOf h) ?_
  exact (perm_callOf others).trans (hp.trans (perm_callOf calls).symm)

theorem inOrder_registerAll (calls : List (Call η)) : (registerAll calls).InOrder calls where
  sorted := entries_registerAll calls
  perm := perm_registerAll calls
  once := numbers_registrations calls ▸ (perm_registerAll calls).map _
  increasing := (ordered_registerAll calls).sorted.imp before_iff.1
  suffix p := by
    refine filter_suffix_of_pairwise (ordered_registerAll calls).sorted fun a b hab ha => ?_
    cases p with
    | none => rfl
    | some p => exact comesAfter_some.2 ((comesAfter_some.1 ha).trans hab)
  names others hp h := by
    have := congrArg (List.map Call.name) (entries_eq_of_perm hp h)
    rw [List.map_map, List.map_map] at this
    exact this

end Registry

/-! ### The registry of a session -/

namespace Session

variable {σ : Type} {s t : Session σ}

theorem Move.registry_cases {task : Task σ} (h : Move s task t) :
    t.registry = s.registry ∨
      ∃ n k f a, t.registry = s.registry.register n k f a := by
  cases h with
  | register => exact .inr ⟨_, _, _, _, rfl⟩
  | _ => exact .inl rfl

theorem Act.registry_cases (h : Act s t) :
    t.registry = s.registry ∨
      ∃ n k f a, t.registry = s.registry.register n k f a := by
  cases h with
  | register => exact .inr ⟨_, _, _, _, rfl⟩
  | _ => exact .inl rfl

/-- A registry only changes by further registrations. -/
theorem Reaches.exists_later {calls : List (Registry.Call (Handler σ))} (h : Reaches s t)
    (hs : s.registry = .registerAll calls) :
    ∃ later, t.registry = .registerAll (calls ++ later) := by
  have more {g g' : Registry (Handler σ)} (hg : ∃ later, g = .registerAll (calls ++ later))
      (h : g' = g ∨ ∃ n k f a, g' = g.register n k f a) :
      ∃ later, g' = .registerAll (calls ++ later) := by
    obtain ⟨later, rfl⟩ := hg
    rcases h with rfl | ⟨n, k, f, a, rfl⟩
    · exact ⟨later, rfl⟩
    · refine ⟨later ++ [⟨n, k, f, a⟩], ?_⟩
      rw [← List.append_assoc, Registry.registerAll_concat]
  exact h.keeps (P := fun s => ∃ later, s.registry = .registerAll (calls ++ later))
    (fun _ _ _ hm hp => more hp hm.registry_cases) (fun _ _ _ ha hp => more hp ha.registry_cases)
    ⟨[], by rw [List.append_nil, hs]⟩

/-- **A registry is in order at all times**: after any registrations one after the other,
and whatever else a session has done or does from then on. -/
theorem registry_inOrder (calls : List (Registry.Call (Handler σ))) :
    (Registry.registerAll calls).InOrder calls ∧
      ∀ s t : Session σ, s.registry = .registerAll calls → Reaches s t →
        ∃ later, t.registry = .registerAll (calls ++ later) ∧
          t.registry.InOrder (calls ++ later) := by
  refine ⟨Registry.inOrder_registerAll calls, fun s t hs h => ?_⟩
  obtain ⟨later, ht⟩ := h.exists_later hs
  exact ⟨later, ht, ht ▸ Registry.inOrder_registerAll _⟩

/-- Handlers at ranks of which most are not numbers or both zero. -/
def oddCalls : List (Registry.Call (Handler Unit)) :=
  [⟨"a", .notANumber false, .any, .duplicate⟩, ⟨"b", .zero, .any, .duplicate⟩,
    ⟨"c", .notANumber true, .any, .duplicate⟩, ⟨"d", ⟨0x8000000000000000⟩, .any, .duplicate⟩,
    ⟨"e", .infinity true, .any, .duplicate⟩]

def oddSession : Session Unit :=
  oddCalls.foldl (fun s c => s.register c.name c.rank c.filter c.handler) (.new {} {} ())

theorem inOrder_oddCalls :
    oddCalls.reverse.Perm oddCalls ∧ (oddCalls.map (·.rank)).Nodup ∧
      (Registry.registerAll oddCalls).names = ["c", "e", "d", "b", "a"] ∧
      (Registry.registerAll oddCalls.reverse).names = ["c", "e", "d", "b", "a"] ∧
      oddSession.registry = .registerAll oddCalls ∧
      Reaches oddSession (oddSession.register "f" .zero .any .duplicate) ∧
      ∃ later, (oddSession.register "f" .zero .any .duplicate).registry =
          .registerAll (oddCalls ++ later) ∧
        (oddSession.register "f" .zero .any .duplicate).registry.InOrder (oddCalls ++ later) := by
  have hp : oddCalls.reverse.Perm oddCalls := List.reverse_perm _
  have hn : (oddCalls.map (·.rank)).Nodup := by decide
  have hnames : (Registry.registerAll oddCalls).names = ["c", "e", "d", "b", "a"] := by decide
  have hr : Reaches oddSession (oddSession.register "f" .zero .any .duplicate) :=
    .act .refl rfl (.register _ _ _ _)
  obtain ⟨h, hlater⟩ := registry_inOrder oddCalls
  exact ⟨hp, hn, hnames, (h.names _ hp hn).trans hnames, rfl, hr, hlater _ _ rfl hr⟩

end Session

end WikiExpansion
