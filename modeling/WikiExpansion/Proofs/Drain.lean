import WikiExpansion.Proofs.Depth
import WikiExpansion.Proofs.Schedule
import Mathlib.Data.Multiset.DershowitzManna
import Mathlib.Data.Prod.Lex
import Mathlib.Order.Lattice.Nat
import Mathlib.Tactic.Abel

/-!
# Going on until nothing is left

A pipeline whose tables hold their answers back comes to rest if it gets no more jobs:
however it goes on, by steps and by answers that are given out, it does so finitely often,
and it can go on as long as something is left to do or is held back (`ComesToRest`,
`Schedule.comesToRest`).  So from any point of any schedule some steps and answers lead to
a session in which each job is over (`Schedule.exists_rest`).

All that is still to be done has a cost: the tasks of the agenda, the invocations without
an answer, the streams that are open and the answers that are held back.  A cost is a
depth and, within it, what is left to do there.  A task is replaced by any number of
tasks and records, all of which cost less: a token that a stage has taken has fewer stages
before it, and the runs that an expander starts are less deep than its tag
(`Move.lightens`).  So the costs decrease in the order of Dershowitz and Manna.
-/

namespace WikiExpansion

/-! ### Costs -/

namespace Token

noncomputable def depth (t : Token) : Nat := sInf {n | t.Shallow n}

theorem shallow_depth (t : Token) : t.Shallow t.depth := by
  obtain ⟨n, hn⟩ := exists_shallow [t]
  exact Nat.sInf_mem (s := {n | t.Shallow n}) ⟨n, hn t (List.mem_singleton_self t)⟩

theorem depth_le {t : Token} {n : Nat} (h : t.Shallow n) : t.depth ≤ n := Nat.sInf_le h

end Token

abbrev Cost : Type := Nat ×ₗ Nat

def cost (depth left : Nat) : Cost := toLex (depth, left)

theorem cost_lt_of_depth {a b c d : Nat} (h : a < c) : cost a b < cost c d :=
  Prod.Lex.toLex_lt_toLex.2 (.inl h)

theorem cost_lt_of_left {a b c d : Nat} (h : a ≤ c) (h' : b < d) : cost a b < cost c d :=
  Prod.Lex.toLex_lt_toLex.2 (h.lt_or_eq.imp id fun h => ⟨h, h'⟩)

/-- An answer costs less than any other result, as it is paid for by its invocation. -/
def Target.cost : Target → Cost
  | handle _ => WikiExpansion.cost 0 1
  | _ => WikiExpansion.cost 0 5

theorem Target.cost_lt (g : Target) {d n : Nat} (h : 0 < d ∨ 5 < n) :
    g.cost < WikiExpansion.cost d n := by
  have lt (m : Nat) (hm : m ≤ 5) : WikiExpansion.cost 0 m < WikiExpansion.cost d n := by
    rcases h with h | h
    · exact cost_lt_of_depth h
    · exact cost_lt_of_left (Nat.zero_le d) (by omega)
  cases g with
  | handle _ => exact lt 1 (by omega)
  | _ => exact lt 5 (Nat.le_refl 5)

noncomputable def Purpose.depth : Purpose → Nat
  | job _ => 0
  | answer t _ => t.depth

def Plan.left (P : Plan) (p : Option Position) : Nat := (P.stages.after p).length

noncomputable def Invocation.cost? (P : Plan) (v : Invocation) : Option Cost :=
  if v.answer.isSome then none
  else some (cost (v.token.depth + 1) (3 * P.left (some v.position) + 2))

def Stream.cost? (x : Stream) : Option Cost := if x.join.delivered then none else some (cost 0 6)

/-- The script is one of those of stages, and is over after `n` steps at most. -/
inductive Script.Within : Nat → Script Desk → Prop
  | answer {n r} : Within (n + 1) (.answer r)
  | suspend {n} : Within (n + 1) .suspend
  | expandAttributes {n t o k} : Within n k → Within (n + 1) (.expandAttributes t o k)
  | newObjectId {n k} : (∀ id, Within n (k id)) → Within (n + 1) (.newObjectId k)
  | remember {n u k} : (∀ m, Within n (k m)) → Within (n + 1) (.remember u k)

theorem TemplateTable.within_expand (b : TemplateTable) (o : Options) (name : String) {n : Nat}
    {next : Outcome (List Token) → Script Desk} (h : ∀ r, (next r).Within n)
    (h' : ∀ r, (next r).Within (n + 1)) : (b.expand o name next).Within (n + 1) := by
  unfold expand
  split
  · exact h' _
  · split
    · exact .newObjectId fun id => h _
    · exact h' _

theorem Stage.within_handler (a : Stage) (o : Options) (defer : Option String) (f : Frame)
    (t : Token) : (a.handler o defer f t).Within 3 := by
  cases a with
  | expander =>
    simp only [handler, WikiExpansion.expander]
    split
    · split
      · exact .answer
      · exact .expandAttributes .suspend
    · exact .answer
  | table b =>
    cases defer with
    | none =>
      simp only [handler, TemplateTable.immediate]
      split
      · exact .answer
      · exact b.within_expand _ _ (fun _ => .answer) fun _ => .answer
    | some name =>
      simp only [handler, TemplateTable.deferred]
      split
      · exact .answer
      · exact b.within_expand _ _ (fun _ => .remember fun _ => .suspend)
          fun _ => .remember fun _ => .suspend

namespace Session

section Definitions

variable (s : Session Desk) (P : Plan)

/-- What a task costs.  The tokens of a stream may be less deep than it is paid for. -/
def Costs : Task Desk → Cost → Prop
  | .offer t _ p _, c => c = cost (t.depth + 1) (3 * P.left p)
  | .stream ts _ p _ _, c => ∃ d, (∀ t ∈ ts, t.Shallow d) ∧ c = cost (d + 1) (3 * P.left p + 1)
  | .follow f q, c => ∃ v n, s.invocations[f.handle.index]? = some v ∧ q.Within n ∧
      c = cost v.token.depth (3 * P.left none + 8 + n)
  | .deliver g _, c => c = g.cost
  | .expand _ _ u, c => c = cost u.depth (3 * P.left none + 8)
  | .expandPair e _, c => ∃ x, s.expansions[e]? = some x ∧
      c = cost x.purpose.depth (3 * P.left none + 7)
  | .expandSide e _ _, c => ∃ x, s.expansions[e]? = some x ∧
      c = cost x.purpose.depth (3 * P.left none + 6)
  | .settleSide .., c => c = cost 0 4
  | .settlePair .., c => c = cost 0 3
  | .finish .., c => c = cost 0 2

noncomputable def load : Multiset Cost :=
  (s.invocations.toList.filterMap (Invocation.cost? P) : Multiset Cost) +
    s.streams.toList.filterMap Stream.cost? + List.replicate s.memory.held.length (cost 0 2)

def Weighs (M : Multiset Cost) : Prop :=
  ∃ cs : List Cost, List.Forall₂ (s.Costs P) s.agenda cs ∧ M = cs + s.load P

end Definitions

variable {s t : Session Desk} {P : Plan} {defer : Option String} {jobs : List (List Token)}

theorem Costs.mono (he : Extends s t) {task : Task Desk} {c : Cost} (h : s.Costs P task c) :
    t.Costs P task c := by
  cases task with
  | follow f q =>
    obtain ⟨v, n, hv, hq, hc⟩ := h
    obtain ⟨a, ha, -⟩ := he.invocations _ v hv
    exact ⟨_, n, ha, hq, hc⟩
  | expandPair e i =>
    obtain ⟨x, hx, hc⟩ := h
    obtain ⟨u, w, hu⟩ := he.expansions e x hx
    exact ⟨_, hu, hc⟩
  | expandSide e i d =>
    obtain ⟨x, hx, hc⟩ := h
    obtain ⟨u, w, hu⟩ := he.expansions e x hx
    exact ⟨_, hu, hc⟩
  | _ => exact h

/-! ### What a changed record costs -/

section Load

variable (P)

theorem exists_filterMap_set {α β : Type} {xs : Array α} {n : Nat} {a : α} (h : xs[n]? = some a)
    (f : α → Option β) : ∃ rest : Multiset β,
      (xs.toList.filterMap f : Multiset β) = rest + (f a).toList ∧
      ∀ b, ((xs.setIfInBounds n b).toList.filterMap f : Multiset β) = rest + (f b).toList := by
  obtain ⟨hn, rfl⟩ := Array.getElem?_eq_some_iff.1 h
  have hl : n < xs.toList.length := hn
  let others := xs.toList.take n ++ xs.toList.drop (n + 1)
  have split (c : α) : ((xs.toList.take n ++ c :: xs.toList.drop (n + 1)).filterMap f :
      Multiset β) = (others.filterMap f : Multiset β) + (f c).toList := by
    rw [Multiset.coe_eq_coe.2 (List.perm_middle.filterMap f), List.filterMap_cons]
    cases f c with
    | none => simp only [Option.toList_none, Multiset.coe_nil, add_zero, others]
    | some d =>
      rw [← Multiset.cons_coe, Option.toList_some, Multiset.coe_singleton,
        ← Multiset.singleton_add, add_comm]
  refine ⟨others.filterMap f, ?_, fun b => ?_⟩
  · rw [← split, ← Array.getElem_toList, ← List.drop_eq_getElem_cons hl, List.take_append_drop]
  · rw [Array.toList_setIfInBounds, List.set_eq_take_append_cons_drop, if_pos hl, split]

theorem filterMap_push {α β : Type} (xs : Array α) (a : α) (f : α → Option β) :
    ((xs.push a).toList.filterMap f : Multiset β) =
      (xs.toList.filterMap f : Multiset β) + (f a).toList := by
  rw [Array.toList_push, List.filterMap_append, ← Multiset.coe_add]
  cases h : f a <;> simp [h]

theorem load_addInvocation (s : Session Desk) (v : Invocation) :
    (s.addInvocation v).load P = s.load P + (v.cost? P).toList := by
  simp only [load, addInvocation, filterMap_push]
  abel

theorem load_addStream (s : Session Desk) (x : Stream) :
    (s.addStream x).load P = s.load P + x.cost?.toList := by
  simp only [load, addStream, filterMap_push]
  abel

theorem load_setAnswer {h : Handle} {v : Invocation} (hv : s.invocations[h.index]? = some v)
    (hn : v.answer = none) (r : Outcome (List Token)) :
    s.load P = (s.setAnswer h v r).load P +
      {cost (v.token.depth + 1) (3 * P.left (some v.position) + 2)} := by
  obtain ⟨rest, hs, ht⟩ := exists_filterMap_set hv (Invocation.cost? P)
  simp only [load, hs, setAnswer, ht, Invocation.cost?, hn, Option.isSome_none,
    Bool.false_eq_true, if_false, Option.isSome_some, if_true, Option.toList_none,
    Option.toList_some, Multiset.coe_nil, Multiset.coe_singleton, add_zero]
  abel

theorem exists_load_setStream {n : Nat} {x : Stream} (hx : s.streams[n]? = some x) (y : Stream) :
    ∃ X, s.load P = X + x.cost?.toList ∧ (s.setStream n y).load P = X + y.cost?.toList := by
  obtain ⟨rest, hs, ht⟩ := exists_filterMap_set hx Stream.cost?
  refine ⟨(s.invocations.toList.filterMap (Invocation.cost? P) : Multiset Cost) + rest +
    List.replicate s.memory.held.length (cost 0 2), ?_, ?_⟩
  · simp only [load, hs]
    abel
  · simp only [load, setStream, ht]
    abel

theorem load_hold (s : Session Desk) (name : String) (p : Parked) :
    (s.setMemory (s.memory.hold name p)).load P = s.load P + {cost 0 2} := by
  simp only [load, setMemory, Desk.hold, List.length_append, List.length_singleton,
    List.replicate_add, ← Multiset.coe_add, List.replicate_one, Multiset.coe_singleton]
  abel

end Load

/-! ### Whatever happens, the costs decrease -/

theorem exists_costs {ks : List (Task Desk)} {Z : Multiset Cost}
    (h : ∀ k ∈ ks, ∃ c, t.Costs P k c ∧ ∃ z ∈ Z, c < z) :
    ∃ cs, List.Forall₂ (t.Costs P) ks cs ∧ ∀ c ∈ cs, ∃ z ∈ Z, c < z := by
  induction ks with
  | nil => exact ⟨[], .nil, nofun⟩
  | cons k ks ih =>
    obtain ⟨hk, hks⟩ := List.forall_mem_cons.1 h
    obtain ⟨c, hc, hz⟩ := hk
    obtain ⟨cs, hcs, hzs⟩ := ih hks
    exact ⟨c :: cs, .cons hc hcs, List.forall_mem_cons.2 ⟨hz, hzs⟩⟩

/-- Where the tasks and records in the place of what cost `Z` cost less, the session
weighs less. -/
theorem lightens {ks rest : List (Task Desk)} {cs : List Cost} {X Y Z : Multiset Cost}
    (he : Extends s t) (ha : t.agenda = ks ++ rest) (hcs : List.Forall₂ (s.Costs P) rest cs)
    (ht : t.load P = X + Y) (hz : Z ≠ 0) (hy : ∀ y ∈ Y, ∃ z ∈ Z, y < z)
    (hks : ∀ k ∈ ks, ∃ c, t.Costs P k c ∧ ∃ z ∈ Z, c < z) :
    ∃ N, t.Weighs P N ∧ N.IsDershowitzMannaLT (cs + X + Z) := by
  obtain ⟨ys, hys, hlt⟩ := exists_costs hks
  refine ⟨↑(ys ++ cs) + (X + Y), ⟨ys ++ cs, ?_, by rw [ht]⟩, cs + X, ys + Y, Z, hz, ?_, rfl, ?_⟩
  · rw [ha]
    exact List.rel_append hys (hcs.imp fun _ _ hc => hc.mono he)
  · rw [← Multiset.coe_add]
    abel
  · intro y hm
    exact (Multiset.mem_add.1 hm).elim (hlt y) (hy y)

/-- The tokens of a side that is expanded are less deep than the tag. -/
theorem SoundExpansion.shallow_side {x : Expansion} (h : s.SoundExpansion P x) {i : Nat}
    {a : Attribute Token} (ha : x.attributes[i]? = some a) {d : Side} {ts : List Token}
    (hd : d.of a = .tokens ts) :
    ∃ n, x.purpose.depth = n + 1 ∧ ∀ t ∈ ts, t.Shallow n := by
  obtain ⟨a₀, k, g, v, r, hu, hg, has, -⟩ := h.serving
  have hnests : a₀.Nests ts := by
    refine ⟨g, a, hg, has ▸ List.mem_of_getElem? ha, ?_⟩
    cases d with
    | key => exact .inl hd
    | value => exact .inr hd
  have hdeep := a₀.shallow_depth
  rw [hu, Purpose.depth]
  cases hn : a₀.depth with
  | zero =>
    rw [hn] at hdeep
    exact absurd hnests (hdeep ts)
  | succ n =>
    rw [hn] at hdeep
    exact ⟨n, rfl, hdeep ts hnests⟩

/-- In the place of a task that cost `c` there are tasks and records that cost less,
and the other records are as they were. -/
def Spends (s t : Session Desk) (P : Plan) (c : Cost) : Prop :=
  ∃ (ks : List (Task Desk)) (X Y Z : Multiset Cost), t.agenda = ks ++ s.agenda ∧
    s.load P = X + Z ∧ t.load P = X + Y ∧ (∀ y ∈ Y, ∃ z ∈ c ::ₘ Z, y < z) ∧
    ∀ k ∈ ks, ∃ d, t.Costs P k d ∧ ∃ z ∈ c ::ₘ Z, d < z

section Spends

variable {c d : Cost}

theorem Spends.of_tasks (ks : List (Task Desk)) (ha : t.agenda = ks ++ s.agenda)
    (ht : t.load P = s.load P) (hks : ∀ k ∈ ks, ∃ d, t.Costs P k d ∧ d < c) : Spends s t P c := by
  refine ⟨ks, s.load P, 0, 0, ha, (add_zero _).symm, by rw [ht, add_zero], nofun, fun k hk => ?_⟩
  obtain ⟨d, hd, hlt⟩ := hks k hk
  exact ⟨d, hd, c, Multiset.mem_cons_self c 0, hlt⟩

theorem Spends.of_none (ha : t.agenda = s.agenda) (ht : t.load P = s.load P) : Spends s t P c :=
  .of_tasks [] ha ht nofun

theorem Spends.of_task {k : Task Desk} (ha : t.agenda = k :: s.agenda)
    (ht : t.load P = s.load P) (hk : t.Costs P k d) (hlt : d < c) : Spends s t P c :=
  .of_tasks [k] ha ht (List.forall_mem_singleton.2 ⟨d, hk, hlt⟩)

theorem Spends.of_added (ks : List (Task Desk)) (ha : t.agenda = ks ++ s.agenda)
    (ht : t.load P = s.load P + {d}) (hd : d < c)
    (hks : ∀ k ∈ ks, ∃ d, t.Costs P k d ∧ d < c) : Spends s t P c := by
  refine ⟨ks, s.load P, {d}, 0, ha, (add_zero _).symm, ht, fun y hy => ?_, fun k hk => ?_⟩
  · obtain rfl := Multiset.mem_singleton.1 hy
    exact ⟨c, Multiset.mem_cons_self c 0, hd⟩
  · obtain ⟨d, hd, hlt⟩ := hks k hk
    exact ⟨d, hd, c, Multiset.mem_cons_self c 0, hlt⟩

/-- A record costs nothing any more, and pays for the new tasks. -/
theorem Spends.of_paid (ks : List (Task Desk)) (ha : t.agenda = ks ++ s.agenda)
    (hs : s.load P = t.load P + {d}) (hks : ∀ k ∈ ks, ∃ e, t.Costs P k e ∧ e < d) :
    Spends s t P c := by
  refine ⟨ks, t.load P, 0, {d}, ha, hs, (add_zero _).symm, nofun, fun k hk => ?_⟩
  obtain ⟨e, he, hlt⟩ := hks k hk
  exact ⟨e, he, d, Multiset.mem_cons_of_mem (Multiset.mem_singleton_self d), hlt⟩

theorem Spends.lightens (h : Spends s t P c) (he : Extends s t) {cs : List Cost}
    (hcs : List.Forall₂ (s.Costs P) s.agenda cs) :
    ∃ N, t.Weighs P N ∧ N.IsDershowitzMannaLT ((c :: cs : List Cost) + s.load P) := by
  obtain ⟨ks, X, Y, Z, ha, hs, ht, hy, hks⟩ := h
  obtain ⟨N, hN, hlt⟩ := Session.lightens he ha hcs ht Multiset.cons_ne_zero hy hks
  refine ⟨N, hN, ?_⟩
  rw [hs, ← Multiset.cons_coe, ← Multiset.singleton_add]
  rw [← Multiset.singleton_add] at hlt
  convert hlt using 1
  abel

end Spends

section Moves

variable {task : Task Desk} {c : Cost}

theorem spends_offer {a : Token} {o : Options} {p : Option Position} {g : Target}
    (h : Move s (.offer a o p g) t) (hf : Flow (s.push [.offer a o p g]) P defer jobs)
    (hc : s.Costs P (.offer a o p g) c) : Spends s t P c := by
  obtain rfl : c = cost (a.depth + 1) (3 * P.left p) := hc
  cases h with
  | pass _ =>
    refine .of_task rfl rfl rfl ?_
    exact g.cost_lt (.inl (Nat.succ_pos _))
  | invoke hr =>
    obtain ⟨r, hnext, rfl⟩ := Option.map_eq_some_iff.1 ((hf.next? p a.kind).symm.trans hr)
    have hlt := Registry.length_after_lt hnext
    refine .of_added [_] rfl (load_addInvocation P s _) ?_
      (List.forall_mem_singleton.2 ⟨_, ⟨_, 3, Array.getElem?_push_size, ?_, rfl⟩, ?_⟩)
    · refine cost_lt_of_left (Nat.le_refl _) ?_
      simp only [Plan.left, Registration.map]
      omega
    · exact r.handler.within_handler _ _ _ _
    · exact cost_lt_of_depth (Nat.lt_succ_self _)

theorem spends_stream {ts : List Token} {o : Options} {p : Option Position} {k : Option Handle}
    {g : Target} (h : Move s (.stream ts o p k g) t) (hc : s.Costs P (.stream ts o p k g) c) :
    Spends s t P c := by
  obtain ⟨d, hd, rfl⟩ := hc
  cases h with
  | noTokens =>
    refine .of_task rfl ?_ rfl ?_
    · exact (load_addStream P s _).trans (add_zero _)
    · exact g.cost_lt (.inl (Nat.succ_pos d))
  | stream hne =>
    refine .of_added (offers s.streams.size ts o p) (d := cost 0 6) rfl ?_ ?_ fun k hk => ?_
    · refine (load_addStream P s _).trans ?_
      simp [Stream.cost?, newStream, Join.new, hne]
    · exact cost_lt_of_depth (Nat.succ_pos d)
    · obtain ⟨i, hi, rfl⟩ := List.mem_mapIdx.1 hk
      have hdepth := Token.depth_le (hd _ (List.getElem_mem hi))
      exact ⟨_, rfl, cost_lt_of_left (Nat.succ_le_succ hdepth) (Nat.lt_succ_self _)⟩

theorem spends_deliver {g : Target} {r : Outcome (List Token)} (h : Move s (.deliver g r) t)
    (hf : Flow (s.push [.deliver g r]) P defer jobs) (hc : s.Costs P (.deliver g r) c) :
    Spends s t P c := by
  obtain rfl : c = g.cost := hc
  have ht : (s.push [.deliver g r]).Due P jobs g r := hf.tasks _ mem_push_self
  cases h with
  | resume _ => exact ht.elim fun _ h => h.1.elim
  | finished | noCallback _ | ignored _ | noStream _ => exact .of_none rfl rfl
  | answered hv hn =>
    refine .of_paid [_] rfl (load_setAnswer P hv hn _)
      (List.forall_mem_singleton.2 ⟨_, ⟨_, ht.shallow hv (Token.shallow_depth _), rfl⟩, ?_⟩)
    exact cost_lt_of_left (Nat.le_refl _) (Nat.lt_succ_self _)
  | @failed _ _ v hv hn =>
    refine .of_paid [_] rfl (load_setAnswer P hv hn _)
      (List.forall_mem_singleton.2 ⟨_, rfl, ?_⟩)
    exact v.target.cost_lt (.inl (Nat.succ_pos _))
  | @chunk n i _ x hx =>
    obtain ⟨X, hs, ht⟩ := exists_load_setStream P hx { x with join := (x.join.fill i r).1 }
    rcases Option.eq_none_or_eq_some (x.join.fill i r).2 with hd | ⟨q, hd⟩
    · -- the stream is open or closed as before
      refine .of_none (by rw [hd]; rfl) (ht.trans (Eq.trans ?_ hs.symm))
      simp only [Stream.cost?, Join.delivered_of_silent hd]
    · obtain ⟨hopen, hclosed⟩ := Join.closes_of_delivers hd
      have hx : x.cost?.toList = [cost 0 6] := by simp [Stream.cost?, hopen]
      have ht : (s.setStream n { x with join := (x.join.fill i r).1 }).load P = X := by
        rw [ht]
        simp [Stream.cost?, hclosed]
      refine .of_paid [.deliver x.target (q.map List.flatten)] (d := cost 0 6)
        (by rw [hd]; rfl) ?_
        (List.forall_mem_singleton.2 ⟨_, rfl, x.target.cost_lt (.inr (Nat.lt_succ_self 5))⟩)
      rw [hs, hx]
      exact congrArg (· + {cost 0 6}) ht.symm
  | side =>
    refine .of_task rfl rfl rfl ?_
    exact cost_lt_of_left (Nat.le_refl 0) (Nat.lt_succ_self 4)

theorem spends_expand {as : List (Attribute Token)} {o : Options} {u : Purpose}
    (h : Move s (.expand as o u) t) (hc : s.Costs P (.expand as o u) c) : Spends s t P c := by
  obtain rfl : c = cost u.depth (3 * P.left none + 8) := hc
  cases h with
  | noPairs =>
    refine .of_task rfl rfl rfl ?_
    exact cost_lt_of_left (Nat.zero_le _) (by omega)
  | expand _ =>
    refine .of_tasks (expandPairs _ _) rfl rfl fun k hk => ?_
    obtain ⟨i, -, rfl⟩ := List.mem_map.1 hk
    exact ⟨_, ⟨_, Array.getElem?_push_size, rfl⟩, cost_lt_of_left (Nat.le_refl _)
      (Nat.lt_succ_self _)⟩

theorem spends_expandPair {e i : Nat} (h : Move s (.expandPair e i) t)
    (hc : s.Costs P (.expandPair e i) c) : Spends s t P c := by
  obtain ⟨y, hy, rfl⟩ := hc
  cases h with
  | expandPair _ _ _ =>
    refine .of_tasks [_, _] rfl rfl fun k hk => ?_
    have lt : cost y.purpose.depth (3 * P.left none + 6) <
        cost y.purpose.depth (3 * P.left none + 7) :=
      cost_lt_of_left (Nat.le_refl _) (Nat.lt_succ_self _)
    rcases List.mem_pair.1 hk with rfl | rfl
    · exact ⟨_, ⟨y, hy, rfl⟩, lt⟩
    · exact ⟨_, ⟨y, hy, rfl⟩, lt⟩
  | keepPair _ _ _ =>
    refine .of_task rfl rfl rfl ?_
    exact cost_lt_of_left (Nat.zero_le _) (by omega)
  | noPair _ => exact .of_none rfl rfl

theorem spends_expandSide {e i : Nat} {d : Side} (h : Move s (.expandSide e i d) t)
    (hf : Flow (s.push [.expandSide e i d]) P defer jobs)
    (hc : s.Costs P (.expandSide e i d) c) : Spends s t P c := by
  obtain ⟨y, hy, rfl⟩ := hc
  cases h with
  | textSide _ _ _ =>
    refine .of_task rfl rfl rfl ?_
    exact cost_lt_of_left (Nat.zero_le _) (by omega)
  | tokenSide hx ha hd =>
    obtain rfl := Option.some.inj (hx.symm.trans hy)
    obtain ⟨n, hn, hts⟩ := (hf.expansions e _ hx).shallow_side ha hd
    refine .of_task rfl rfl ⟨n, hts, rfl⟩ ?_
    rw [hn]
    exact cost_lt_of_left (Nat.le_refl _) (by omega)
  | noSide _ => exact .of_none rfl rfl

theorem spends_settleSide {e i : Nat} {d : Side} {r : Outcome (Content Token)}
    (h : Move s (.settleSide e i d r) t) (hc : s.Costs P (.settleSide e i d r) c) :
    Spends s t P c := by
  obtain rfl : c = cost 0 4 := hc
  cases h with
  | settleSide _ _ _ =>
    refine .of_tasks _ rfl rfl fun k hk => ?_
    obtain ⟨q, -, rfl⟩ := List.mem_map.1 hk
    exact ⟨_, rfl, cost_lt_of_left (Nat.le_refl 0) (Nat.lt_succ_self 3)⟩
  | noSlot _ => exact .of_none rfl rfl

theorem spends_settlePair {e i : Nat} {r : Outcome (Held (Attribute Token))}
    (h : Move s (.settlePair e i r) t) (hc : s.Costs P (.settlePair e i r) c) :
    Spends s t P c := by
  obtain rfl : c = cost 0 3 := hc
  cases h with
  | settlePair _ =>
    refine .of_tasks _ rfl rfl fun k hk => ?_
    obtain ⟨q, -, rfl⟩ := List.mem_map.1 hk
    exact ⟨_, rfl, cost_lt_of_left (Nat.le_refl 0) (Nat.lt_succ_self 2)⟩
  | noExpansion _ => exact .of_none rfl rfl

theorem spends_finish {o : Options} {u : Purpose} {r : Outcome (List (Held (Attribute Token)))}
    (h : Move s (.finish o u r) t) (hc : s.Costs P (.finish o u r) c) : Spends s t P c := by
  obtain rfl : c = cost 0 2 := hc
  have answer : cost 0 1 < cost 0 2 := cost_lt_of_left (Nat.le_refl 0) (Nat.lt_succ_self 1)
  cases h with
  | expanded => exact .of_none rfl rfl
  | reconciled | notExpanded =>
    exact .of_task rfl rfl rfl answer

theorem spends_follow {f : Frame} {q : Script Desk} (h : Move s (.follow f q) t)
    (hf : Flow (s.push [.follow f q]) P defer jobs) (hc : s.Costs P (.follow f q) c) :
    Spends s t P c := by
  obtain ⟨v, n, hv, hq, rfl⟩ := hc
  obtain ⟨b, hb⟩ := hf.tasks _ mem_push_self
  have less (n : Nat) : cost v.token.depth (3 * P.left none + 8 + n) <
      cost v.token.depth (3 * P.left none + 8 + (n + 1)) :=
    cost_lt_of_left (Nat.le_refl _) (Nat.lt_succ_self _)
  cases hq with
  | answer =>
    cases h with
    | answer =>
      refine .of_task rfl rfl rfl ?_
      exact cost_lt_of_left (Nat.zero_le _) (by omega)
  | suspend =>
    cases h with
    | suspend => exact .of_none rfl rfl
  | expandAttributes hk =>
    cases h with
    | expandAttributes =>
      cases hb with
      | expandAttributes _ hs _ =>
        obtain ⟨a, k, g, w, r, hu, -, -, -, hw, rfl, -⟩ := hs
        obtain ⟨rfl, rfl⟩ := Purpose.answer.inj hu
        obtain rfl := Option.some.inj (hv.symm.trans hw)
        refine .of_tasks [_, _] rfl rfl (List.forall_mem_cons.2 ⟨⟨_, rfl, ?_⟩,
          List.forall_mem_singleton.2 ⟨_, ⟨v, _, hv, hk, rfl⟩, less _⟩⟩)
        exact cost_lt_of_left (Nat.le_refl _) (by omega)
  | newObjectId hk =>
    cases h with
    | newObjectId =>
      exact .of_task rfl rfl ⟨v, _, hv, hk _, rfl⟩ (less _)
  | remember hk =>
    cases h with
    | remember =>
      cases hb with
      | hold _ _ _ =>
        refine .of_added [_] rfl (load_hold P s _ _) ?_
          (List.forall_mem_singleton.2 ⟨_, ⟨v, _, hv, hk _, rfl⟩, less _⟩)
        exact cost_lt_of_left (Nat.zero_le _) (by omega)

theorem Move.spends (h : Move s task t) (hf : Flow (s.push [task]) P defer jobs)
    (hc : s.Costs P task c) : Spends s t P c := by
  cases task with
  | offer => exact spends_offer h hf hc
  | stream => exact spends_stream h hc
  | follow => exact spends_follow h hf hc
  | deliver => exact spends_deliver h hf hc
  | expand => exact spends_expand h hc
  | expandPair => exact spends_expandPair h hc
  | expandSide => exact spends_expandSide h hf hc
  | settleSide => exact spends_settleSide h hc
  | settlePair => exact spends_settlePair h hc
  | finish => exact spends_finish h hc

/-- **Every move makes a session lighter.** -/
theorem Move.lightens (h : Move s task t) (hf : Flow (s.push [task]) P defer jobs)
    {M : Multiset Cost} (hw : (s.push [task]).Weighs P M) :
    ∃ N, t.Weighs P N ∧ N.IsDershowitzMannaLT M := by
  obtain ⟨cs, hcs, rfl⟩ := hw
  have back : Extends (s.push [task]) s :=
    .of_eq rfl rfl rfl rfl (List.prefix_refl _) (Nat.le_refl _)
  cases hcs with
  | cons hc hcs =>
    exact (h.spends hf (hc.mono back)).lightens h.extends (hcs.imp fun _ _ hc => hc.mono back)

end Moves

/-- To give out answers makes a session lighter: each was paid for when it was held back. -/
theorem giveOut_lightens {taken rest : List (String × Parked)} {M : Multiset Cost}
    (hp : s.memory.held.Perm (taken ++ rest)) (hne : taken ≠ []) (hw : s.Weighs P M) :
    ∃ N, (s.giveOut taken rest).Weighs P N ∧ N.IsDershowitzMannaLT M := by
  obtain ⟨cs, hcs, rfl⟩ := hw
  have hs : s.load P =
      (s.giveOut taken rest).load P + (List.replicate taken.length (cost 0 2) : List Cost) := by
    simp only [load, giveOut, push, setMemory, hp.length_eq, List.length_append,
      List.replicate_add, ← Multiset.coe_add]
    abel
  have hmem : cost 0 2 ∈ (List.replicate taken.length (cost 0 2) : Multiset Cost) :=
    Multiset.mem_coe.2 (List.mem_replicate.2 ⟨mt List.length_eq_zero_iff.1 hne, rfl⟩)
  obtain ⟨N, hN, hlt⟩ := lightens (extends_giveOut s taken rest) rfl hcs (add_zero _).symm
    (fun h0 => Multiset.eq_zero_iff_forall_notMem.1 h0 _ hmem)
    (fun c hc => absurd hc (Multiset.notMem_zero c)) fun k hk => by
      obtain ⟨p, -, rfl⟩ := List.mem_map.1 hk
      exact ⟨_, rfl, _, hmem, cost_lt_of_left (Nat.le_refl 0) (Nat.lt_succ_self 1)⟩
  refine ⟨N, hN, ?_⟩
  rwa [hs, ← add_assoc]

/-! ### Coming to rest -/

def AtRest (s : Session Desk) : Prop := s.agenda = [] ∧ s.memory.held = []

/-- A way to go on without a new job: a step, or some answers that are given out. -/
inductive Advances (s : Session Desk) : Session Desk → Prop
  | step : s.agenda ≠ [] → Advances s s.step
  | answer {taken rest} : s.isOpen = true → s.memory.held.Perm (taken ++ rest) → taken ≠ [] →
      Advances s (s.giveOut taken rest)

/-- The session is at rest, or it can go on, and comes to rest however it does. -/
inductive ComesToRest : Session Desk → Prop
  | rest {s : Session Desk} : s.AtRest → ComesToRest s
  | later {s : Session Desk} : (∃ t, Advances s t) → (∀ t, Advances s t → ComesToRest t) →
      ComesToRest s

theorem exists_advances (h : ¬ s.AtRest) : ∃ t, Advances s t := by
  by_cases ha : s.agenda = []
  · have hh : s.memory.held ≠ [] := fun hh => h ⟨ha, hh⟩
    have ho : s.isOpen = true := by
      rw [isOpen, ha]
      rfl
    have hp : s.memory.held.Perm (s.memory.held ++ []) := by
      rw [List.append_nil]
    exact ⟨_, .answer ho hp hh⟩
  · exact ⟨_, .step ha⟩

theorem Advances.works (h : Advances s t) (hw : Works s P defer jobs) : Works t P defer jobs := by
  cases h with
  | step _ => exact hw.step
  | answer ho hp _ => exact hw.giveOut ho hp

theorem Advances.lightens (h : Advances s t) (hw : Works s P defer jobs) {M : Multiset Cost}
    (hM : s.Weighs P M) : ∃ N, t.Weighs P N ∧ N.IsDershowitzMannaLT M := by
  cases h with
  | step hne =>
    rcases step_eq s with ⟨hnil, -⟩ | ⟨s₀, task, rfl, hm⟩
    · exact absurd hnil hne
    · exact hm.lightens hw.flow hM
  | answer _ hp hne => exact giveOut_lightens hp hne hM

theorem Works.comesToRest (h : Works s P defer jobs) {M : Multiset Cost} (hM : s.Weighs P M) :
    ComesToRest s := by
  have hwf : WellFounded (@Multiset.IsDershowitzMannaLT Cost _) :=
    Multiset.wellFounded_isDershowitzMannaLT
  induction M using hwf.induction generalizing s with
  | _ M ih =>
    by_cases hrest : s.AtRest
    · exact .rest hrest
    · refine .later (exists_advances hrest) fun t ht => ?_
      obtain ⟨N, hN, hlt⟩ := ht.lightens h hM
      exact ih N hlt (ht.works h) hN

/-- Whatever the schedule, all that is to be done costs something. -/
theorem Schedule.exists_weighs {s₀ : Session Desk} (h₀ : Works s₀ P defer [])
    (ha : s₀.agenda = []) (h : Schedule s₀ jobs s) : ∃ M, s.Weighs P M := by
  induction h with
  | start => exact ⟨_, [], ha ▸ .nil, rfl⟩
  | @step jobs s hs ih =>
    by_cases hnil : s.agenda = []
    · rw [step_of_agenda_nil hnil]
      exact ih
    · obtain ⟨M, hM⟩ := ih
      obtain ⟨N, hN, -⟩ := (Advances.step hnil).lightens (hs.works h₀) hM
      exact ⟨N, hN⟩
  | @process jobs s ts _ _ ih =>
    obtain ⟨M, cs, hcs, -⟩ := ih
    obtain ⟨d, hd⟩ := Token.exists_shallow ts
    refine ⟨_, _ :: cs, .cons ⟨d, hd, rfl⟩ (hcs.imp fun _ _ hc => ?_), rfl⟩
    exact hc.mono (Act.process ts none).extends
  | @answer jobs s taken rest _ _ hp ih =>
    obtain ⟨M, hM⟩ := ih
    by_cases hne : taken = []
    · subst hne
      obtain ⟨cs, hcs, -⟩ := hM
      exact ⟨_, cs, hcs.imp fun _ _ hc => hc.mono (extends_giveOut s [] rest), rfl⟩
    · obtain ⟨N, hN, -⟩ := giveOut_lightens hp hne hM
      exact ⟨N, hN⟩

theorem Advances.schedule (h : Advances s t) : Schedule s [] t := by
  cases h with
  | step _ => exact .step .start
  | answer ho hp _ => exact .answer .start ho hp

theorem ComesToRest.exists_schedule (h : ComesToRest s) : ∃ t, Schedule s [] t ∧ t.AtRest := by
  induction h with
  | rest h => exact ⟨_, .start, h⟩
  | later h _ ih =>
    obtain ⟨t, ht⟩ := h
    obtain ⟨u, hu, hrest⟩ := ih t ht
    exact ⟨u, ht.schedule.trans hu, hrest⟩

section Pipeline

variable {ids : IdSource} {o : Options} {stages : List (Rank × Stage)}

theorem agenda_pipeline (defer : Option String) (ids : IdSource) (o : Options)
    (stages : List (Rank × Stage)) : (pipeline defer ids o stages).agenda = [] := by
  rw [(blank_pipeline defer ids o stages).1]
  rfl

/-- **A pipeline of stages comes to rest**, whatever has been done and however it goes on,
if it gets no more jobs. -/
theorem Schedule.comesToRest (h : Schedule (pipeline defer ids o stages) jobs s) :
    ComesToRest s := by
  have hw := works_pipeline defer ids o stages
  obtain ⟨M, hM⟩ := h.exists_weighs hw (agenda_pipeline defer ids o stages)
  exact (h.works hw).comesToRest hM

/-- **Any schedule of a pipeline can be gone on with until nothing is left to do** and
nothing is held back, and then each job has been reported once. -/
theorem Schedule.exists_rest (h : Schedule (pipeline defer ids o stages) jobs s) :
    ∃ t, Schedule s [] t ∧ t.agenda = [] ∧ t.memory.held = [] ∧
      ∀ j < jobs.length, t.reports j = 1 := by
  obtain ⟨t, ht, ha, hh⟩ := h.comesToRest.exists_schedule
  refine ⟨t, ht, ha, hh, fun j hj => ?_⟩
  have hw := (List.append_nil jobs ▸ h.trans ht).works (works_pipeline defer ids o stages)
  exact (hw.result ha hh (List.getElem?_eq_getElem hj)).1

end Pipeline

end Session

end WikiExpansion
