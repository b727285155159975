import WikiExpansion.Proofs.Lineage

/-!
# The nested runs of an attribute list

An attribute list that is expanded starts a run for each side that holds tokens.
What was started stands in the records as a stream that goes to that side
(`started`), and what is still to be started can be read off the agenda
(`waiting`).  The two together are at all times the token sides of the list, in
its order and the key of a pair before its value (`Reachable.launch`): so the runs
are started in that order, each of them once, and a failure stops none.
-/

namespace WikiExpansion

abbrev Launched : Type := Nat × Side × List Token

def tokenSide (i : Nat) (d : Side) : Content Token → List Launched
  | .text _ => []
  | .tokens ts => [(i, d, ts)]

def pairSides (i : Nat) (a : Attribute Token) : List Launched :=
  tokenSide i .key a.key ++ tokenSide i .value a.value

/-- The sides of an attribute list that hold tokens, in its order. -/
def tokenSides (as : List (Attribute Token)) : List Launched := (as.mapIdx pairSides).flatten

theorem mem_tokenSide {i j : Nat} {d d' : Side} {ts : List Token} {c : Content Token} :
    (i, d, ts) ∈ tokenSide j d' c ↔ i = j ∧ d = d' ∧ c = .tokens ts := by
  cases c with
  | text s => simp [tokenSide]
  | tokens us =>
    simp only [tokenSide, List.mem_singleton, Prod.mk.injEq, Content.tokens.injEq]
    exact and_congr_right fun _ => and_congr_right fun _ => eq_comm

theorem mem_pairSides {i j : Nat} {d : Side} {ts : List Token} {a : Attribute Token} :
    (i, d, ts) ∈ pairSides j a ↔ i = j ∧ d.of a = .tokens ts := by
  rw [pairSides, List.mem_append, mem_tokenSide, mem_tokenSide]
  cases d <;> simp [Side.of]

theorem mem_tokenSides {i : Nat} {d : Side} {ts : List Token} {as : List (Attribute Token)} :
    (i, d, ts) ∈ tokenSides as ↔ ∃ a, as[i]? = some a ∧ d.of a = .tokens ts := by
  rw [tokenSides, List.mem_flatten]
  constructor
  · rintro ⟨l, hl, hm⟩
    obtain ⟨j, hj, rfl⟩ := List.mem_mapIdx.1 hl
    obtain ⟨rfl, hd⟩ := mem_pairSides.1 hm
    exact ⟨_, List.getElem?_eq_getElem hj, hd⟩
  · rintro ⟨a, ha, hd⟩
    obtain ⟨hi, rfl⟩ := List.getElem?_eq_some_iff.1 ha
    exact ⟨_, List.mem_mapIdx.2 ⟨i, hi, rfl⟩, mem_pairSides.2 ⟨rfl, hd⟩⟩

theorem pairSides_of_needsExpansion_eq_false {a : Attribute Token}
    (h : a.needsExpansion = false) (i : Nat) : pairSides i a = [] := by
  obtain ⟨⟨s, hs⟩, t, ht⟩ := Attribute.exists_texts h
  rw [pairSides, hs, ht]
  rfl

def Stream.launched? (e : Nat) (x : Stream) : Option Launched :=
  match x.target with
  | .side e' i d => if e' = e then some (i, d, x.tokens) else none
  | _ => none

namespace Session

variable {σ : Type} {s t : Session σ}

/-- The nested runs of an expansion that were started, in the order in which they were. -/
def started (s : Session σ) (e : Nat) : List Launched :=
  s.streams.toList.filterMap (Stream.launched? e)

/-- The nested runs of an expansion that a task is yet to start. -/
def launches (s : Session σ) (e : Nat) : Task σ → List Launched
  | .expandPair e' i => if e' = e then ((s.pair? e i).map (pairSides i)).getD [] else []
  | .expandSide e' i d =>
    if e' = e then ((s.pair? e i).map fun a => tokenSide i d (d.of a)).getD [] else []
  | .stream ts _ _ _ (.side e' i d) => if e' = e then [(i, d, ts)] else []
  | _ => []

/-- The nested runs of an expansion that are still to be started, the next one first. -/
def waiting (s : Session σ) (e : Nat) : List Launched := s.agenda.flatMap (s.launches e)

/-! ### Records and tasks -/

theorem launches_expandPair {e e' i : Nat} {p : Option (Attribute Token)}
    (h : s.pair? e' i = p) : s.launches e (.expandPair e' i) =
      if e' = e then (p.map (pairSides i)).getD [] else [] := by
  by_cases he : e' = e
  · rw [launches, if_pos he, if_pos he, ← he, h]
  · rw [launches, if_neg he, if_neg he]

theorem launches_expandSide {e e' i : Nat} {d : Side} {p : Option (Attribute Token)}
    (h : s.pair? e' i = p) : s.launches e (.expandSide e' i d) =
      if e' = e then (p.map fun a => tokenSide i d (d.of a)).getD [] else [] := by
  by_cases he : e' = e
  · rw [launches, if_pos he, if_pos he, ← he, h]
  · rw [launches, if_neg he, if_neg he]

theorem launches_congr {e : Nat} (h : ∀ i, t.pair? e i = s.pair? e i) (task : Task σ) :
    t.launches e task = s.launches e task := by
  cases task with
  | expandPair e' i => simp only [launches, h]
  | expandSide e' i d => simp only [launches, h]
  | stream ts o p k g => cases g <;> rfl
  | _ => rfl

theorem Extends.pair?_eq (he : Extends s t) {e : Nat} {x : Expansion}
    (hx : s.expansions[e]? = some x) (i : Nat) : t.pair? e i = s.pair? e i := by
  obtain ⟨sides, pairs, hy⟩ := he.expansions e x hx
  rw [pair?, pair?, hx, hy]
  rfl

theorem owes_of_mem_launches {e : Nat} {task : Task σ} {i : Nat} {d : Side} {ts : List Token}
    (h : (i, d, ts) ∈ s.launches e task) : task.owes (.side e i d) = true := by
  have of_ite {c : Prop} [Decidable c] {l : List Launched}
      (h : (i, d, ts) ∈ if c then l else []) : c ∧ (i, d, ts) ∈ l := by
    split at h
    · exact ⟨‹c›, h⟩
    · cases h
  cases task with
  | expandPair e' j =>
    obtain ⟨rfl, hm⟩ := of_ite (launches_expandPair rfl ▸ h)
    cases hp : s.pair? e' j with
    | none =>
      rw [hp] at hm
      cases hm
    | some a =>
      rw [hp] at hm
      obtain ⟨rfl, -⟩ := mem_pairSides.1 hm
      cases d <;> simp [Task.owes]
  | expandSide e' j d' =>
    obtain ⟨rfl, hm⟩ := of_ite (launches_expandSide rfl ▸ h)
    cases hp : s.pair? e' j with
    | none =>
      rw [hp] at hm
      cases hm
    | some a =>
      rw [hp] at hm
      obtain ⟨rfl, rfl, -⟩ := mem_tokenSide.1 hm
      simp [Task.owes]
  | stream us o p k g =>
    cases g with
    | side e' j d' =>
      obtain ⟨rfl, hm⟩ := of_ite h
      cases List.mem_singleton.1 hm
      simp [Task.owes]
    | _ => cases h
  | _ => cases h

theorem Ledger.launches_eq_nil (hg : Ledger s) {e : Nat} (he : s.expansions[e]? = none)
    {task : Task σ} (hm : task ∈ s.agenda) : t.launches e task = [] := by
  refine List.eq_nil_iff_forall_not_mem.2 ?_
  rintro ⟨i, d, ts⟩ h
  obtain ⟨x, j, hx, -⟩ := hg.free _ rfl (debt_pos_of_mem hm (owes_of_mem_launches h))
  rw [he] at hx
  cases hx

theorem started_addStream (s : Session σ) (x : Stream) (e : Nat) :
    (s.addStream x).started e = s.started e ++ (x.launched? e).toList := by
  rw [started, addStream, Array.toList_push, List.filterMap_append, started]
  cases h : x.launched? e <;> simp [h]

/-- A stream that begins is the nested run that its task was to start. -/
theorem launched?_newStream (ts : List Token) (o : Options) (p : Option Position)
    (k : Option Handle) (g : Target) (e : Nat) :
    ((newStream ts k g).launched? e).toList = s.launches e (.stream ts o p k g) := by
  cases g with
  | side e' i d =>
    by_cases he : e' = e
    · simp [Stream.launched?, newStream, launches, he]
    · simp [Stream.launched?, newStream, launches, he]
  | _ => rfl

theorem filterMap_set_of_eq {α β : Type} {f : α → Option β} {l : List α} {n : Nat} {a b : α}
    (h : l[n]? = some a) (hf : f b = f a) : (l.set n b).filterMap f = l.filterMap f := by
  induction l generalizing n with
  | nil => rfl
  | cons c l ih =>
    cases n with
    | zero =>
      obtain rfl := Option.some.inj h
      rw [List.set_cons_zero, List.filterMap_cons, List.filterMap_cons, hf]
    | succ n => rw [List.set_cons_succ, List.filterMap_cons, List.filterMap_cons, ih h]

theorem started_setStream {n : Nat} {x : Stream} (hx : s.streams[n]? = some x)
    (j : Join (List Token)) (e : Nat) :
    (s.setStream n { x with join := j }).started e = s.started e := by
  rw [started, setStream, Array.toList_setIfInBounds]
  exact filterMap_set_of_eq (a := x) (by rw [Array.getElem?_toList]; exact hx) rfl

/-! ### Moves -/

theorem Lineage.started_eq_nil (hl : Lineage s) : s.started s.expansions.size = [] := by
  refine List.filterMap_eq_nil_iff.2 fun x hx => ?_
  obtain ⟨n, hn⟩ := List.getElem?_of_mem hx
  rw [Array.getElem?_toList] at hn
  unfold Stream.launched?
  cases hg : x.target with
  | side e i d =>
    have hne : e ≠ s.expansions.size := by
      rintro rfl
      exact hl.target_ne_side hn hg
    simp only [if_neg hne]
  | _ => rfl

theorem Lineage.launches_answer (hl : Lineage s) {h : Nat} {v : Invocation}
    (hv : s.invocations[h]? = some v) (e : Nat) (ts : List Token) (o : Options)
    (p : Option Position) (k : Option Handle) : t.launches e (.stream ts o p k v.target) = [] := by
  obtain ⟨q, hq⟩ := hl.invocations h v hv
  cases hg : v.target with
  | side e' i d =>
    rw [hg] at hq
    exact hq.elim
  | _ => rfl

theorem flatMap_launches_map {α : Type} {l : List α} {f : α → Task σ} {e : Nat}
    (h : ∀ a, s.launches e (f a) = []) : (l.map f).flatMap (s.launches e) = [] := by
  rw [List.flatMap_map]
  exact List.flatMap_eq_nil_iff.2 fun a _ => h a

/-- **A move hands on what is to be started**: what its task was to start is started
or still to be started, in front of the rest. -/
theorem Move.launch {task : Task σ} (h : Move s task t) (hl : Lineage (s.push [task])) {e : Nat}
    {x : Expansion} (hx : s.expansions[e]? = some x) :
    t.started e ++ t.waiting e = s.started e ++ (s.launches e task ++ s.waiting e) := by
  have same : ∀ k, t.launches e k = s.launches e k :=
    launches_congr (h.extends.pair?_eq hx)
  have hwait {new : List (Task σ)} (ha : t.agenda = new ++ s.agenda) :
      t.waiting e = new.flatMap (s.launches e) ++ s.waiting e := by
    rw [Session.waiting, funext same, ha, List.flatMap_append, Session.waiting]
  -- what a move does that neither starts nor expands anything
  have quiet {new : List (Task σ)} (ha : t.agenda = new ++ s.agenda)
      (hs : t.started e = s.started e) (hn : new.flatMap (s.launches e) = s.launches e task) :
      t.started e ++ t.waiting e = s.started e ++ (s.launches e task ++ s.waiting e) := by
    rw [hwait ha, hs, hn]
  have begun {new : List (Task σ)} {ts : List Token} {o : Options} {p : Option Position}
      {k : Option Handle} {g : Target} (ha : t.agenda = new ++ s.agenda)
      (hs : t.streams = s.streams.push (newStream ts k g))
      (hn : new.flatMap (s.launches e) = []) :
      t.started e ++ t.waiting e =
        s.started e ++ (s.launches e (.stream ts o p k g) ++ s.waiting e) := by
    have hst : t.started e = s.started e ++ s.launches e (.stream ts o p k g) := by
      rw [Session.started, hs]
      exact (started_addStream s _ e).trans (congrArg _ (launched?_newStream ..))
    rw [hwait ha, hst, hn, List.nil_append, List.append_assoc]
  cases h with
  | noTokens => exact begun rfl rfl rfl
  | stream _ =>
    refine begun rfl rfl ?_
    refine List.flatMap_eq_nil_iff.2 fun k hk => ?_
    obtain ⟨i, hi, rfl⟩ := List.mem_mapIdx.1 hk
    rfl
  | answered hv _ =>
    refine quiet rfl rfl ?_
    rw [List.flatMap_singleton, hl.launches_answer hv]
    rfl
  | chunk hy =>
    refine quiet rfl (started_setStream hy _ e) ?_
    exact flatMap_launches_map fun _ => rfl
  | expand _ =>
    refine quiet rfl rfl ?_
    refine List.flatMap_eq_nil_iff.2 fun k hk => ?_
    obtain ⟨i, -, rfl⟩ := List.mem_map.1 hk
    exact if_neg (Nat.ne_of_gt (lt_size_of_some hx))
  | expandPair hy ha hn =>
    refine quiet rfl rfl ?_
    rw [launches_expandPair (pair?_of_some hy ha), List.flatMap_cons, List.flatMap_singleton,
      launches_expandSide (pair?_of_some hy ha), launches_expandSide (pair?_of_some hy ha)]
    split <;> rfl
  | keepPair hy ha hn =>
    refine quiet rfl rfl ?_
    rw [launches_expandPair (pair?_of_some hy ha), Option.map_some,
      pairSides_of_needsExpansion_eq_false hn]
    exact (ite_self _).symm
  | noPair hy =>
    refine quiet (List.nil_append _).symm rfl ?_
    rw [launches_expandPair (pair?_eq_none hy)]
    exact (ite_self _).symm
  | textSide hy ha hd =>
    refine quiet rfl rfl ?_
    rw [launches_expandSide (pair?_of_some hy ha), Option.map_some, hd]
    exact (ite_self _).symm
  | tokenSide hy ha hd =>
    refine quiet rfl rfl ?_
    rw [launches_expandSide (pair?_of_some hy ha), Option.map_some, hd, List.flatMap_singleton]
    rfl
  | noSide hy =>
    refine quiet (List.nil_append _).symm rfl ?_
    rw [launches_expandSide (pair?_eq_none hy)]
    exact (ite_self _).symm
  | settleSide _ _ _ | settlePair _ =>
    exact quiet rfl rfl (flatMap_launches_map fun _ => rfl)
  | finished | noCallback _ | ignored _ | noStream _ | noSlot _ | noExpansion _ | expanded
  | suspend => exact quiet (List.nil_append _).symm rfl rfl
  | _ => exact quiet rfl rfl rfl

theorem flatMap_launches_expandPairs {as : List (Attribute Token)} {e : Nat}
    (h : ∀ i, t.pair? e i = as[i]?) :
    (expandPairs e as.length).flatMap (t.launches e) = tokenSides as := by
  rw [expandPairs, List.flatMap_map, tokenSides, List.flatMap_def]
  refine congrArg List.flatten (List.ext_getElem (by simp) fun i h₁ h₂ => ?_)
  have hi : i < as.length := by simpa using h₂
  simp only [List.getElem_map, List.getElem_range, List.getElem_mapIdx, launches, if_true, h,
    List.getElem?_eq_getElem hi, Option.map_some, Option.getD_some]

def AllLaunched (s : Session σ) : Prop :=
  ∀ (e : Nat) (x : Expansion), s.expansions[e]? = some x →
    s.started e ++ s.waiting e = tokenSides x.attributes

theorem Move.allLaunched {task : Task σ} (h : Move s task t) (hg : Ledger (s.push [task]))
    (hl : Lineage (s.push [task])) (ha : AllLaunched (s.push [task])) : AllLaunched t := by
  intro e x hx
  rcases h.expansion_cases hx with ⟨sides, pairs, hy⟩ | ⟨as, o, p, rfl, rfl, rfl⟩
  · have hy' := ha e _ hy
    rw [h.launch hl hy]
    exact hy'
  · -- nothing was started or was to be started for it before
    have hstart : t.started s.expansions.size = [] := by
      have he : t.streams = s.streams := by
        cases h with
        | noPairs | expand _ => rfl
      rw [Session.started, he]
      exact hl.started_eq_nil
    have hrest : s.agenda.flatMap (t.launches s.expansions.size) = [] := by
      refine List.flatMap_eq_nil_iff.2 fun k hk => ?_
      exact hg.launches_eq_nil (Array.getElem?_eq_none (Nat.le_refl _)) (mem_push.2 (Or.inr hk))
    rw [hstart, List.nil_append]
    cases h with
    | noPairs => exact hrest
    | expand _ =>
      refine List.flatMap_append.trans ((congrArg _ hrest).trans ?_)
      rw [List.append_nil]
      refine flatMap_launches_expandPairs fun i => ?_
      show ((s.expansions.push _)[s.expansions.size]?).bind _ = _
      rw [Array.getElem?_push_size]
      rfl

theorem Act.allLaunched (h : Act s t) (ha : AllLaunched s) : AllLaunched t := by
  have put {new : List (Task σ)} (hn : t.agenda = new ++ s.agenda)
      (hx : t.expansions = s.expansions) (hs : t.streams = s.streams)
      (hw : ∀ e, new.flatMap (s.launches e) = []) : AllLaunched t := by
    intro e x hy
    have same : t.launches e = s.launches e :=
      funext (launches_congr fun i => by rw [pair?, hx, pair?])
    rw [Session.started, Session.waiting, hs, hn, same, List.flatMap_append, hw, List.nil_append]
    exact ha e x (hx ▸ hy)
  cases h with
  | process | dispatch | expandAttributes | complete => exact put rfl rfl rfl fun _ => rfl
  | _ => exact put (List.nil_append _).symm rfl rfl fun _ => rfl

/-- **The nested runs of an attribute list are started in its order, each of them
once**: those that were started and those that are still to be are its token sides. -/
theorem Reachable.launch (h : Reachable s) {e : Nat} {x : Expansion}
    (hx : s.expansions[e]? = some x) : s.started e ++ s.waiting e = tokenSides x.attributes := by
  have all : Ledger s ∧ Lineage s ∧ AllLaunched s :=
    h.keeps (P := fun s => Ledger s ∧ Lineage s ∧ AllLaunched s)
      (fun ids o m => ⟨ledger_new ids o m, lineage_new ids o m,
        fun _ _ h => absurd h getElem?_empty_ne_some⟩)
      (fun _ _ _ hm hs => ⟨hm.ledger hs.1, hm.lineage hs.1 hs.2.1,
        hm.allLaunched hs.1 hs.2.1 hs.2.2⟩)
      fun _ _ ho ha hs => ⟨ha.ledger ho hs.1, ha.lineage hs.2.1, ha.allLaunched hs.2.2⟩
  exact all.2.2 e x hx

end Session

end WikiExpansion
