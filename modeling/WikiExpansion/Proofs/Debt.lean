import Mathlib.Data.List.Count
import Mathlib.Data.List.Nodup
import WikiExpansion.Proofs.Records

/-!
# What a session owes

Every place that waits for a result is owed that result by somebody: by a task
on the agenda, by an invocation without an answer, by a stream or an expansion
that is not over.  `debt s g` counts how often a session owes the place `g`.
A move hands debts on; the lemmas here say by how much each change of a record
changes the debt.
-/

namespace WikiExpansion

/-- The target is waited for by exactly one piece of work.  The answer of an
invocation may come from anywhere. -/
def Target.isPlace : Target → Bool
  | .handle _ => false
  | _ => true

def Target.isSlot : Target → Bool
  | .chunk .. | .side .. | .callback _ => true
  | .job _ | .handle _ => false

theorem Target.isPlace_of_isSlot {g : Target} (h : g.isSlot = true) : g.isPlace = true := by
  cases g with
  | handle _ | job _ => cases h
  | _ => rfl

def Purpose.target : Purpose → Target
  | .job n => .job n
  | .answer _ h => .handle h

def Task.owes {σ : Type} (g : Target) : Task σ → Bool
  | .offer _ _ _ g' | .stream _ _ _ _ g' | .deliver g' _ => g' == g
  | .expandPair e i => .side e i .key == g || .side e i .value == g
  | .expandSide e i d | .settleSide e i d _ => .side e i d == g
  | .expand _ _ p | .finish _ p _ => p.target == g
  | .follow .. | .settlePair .. => false

def Invocation.owes (g : Target) (v : Invocation) : Bool := v.answer.isNone && v.target == g

def Stream.owes (g : Target) (x : Stream) : Bool := !x.join.delivered && x.target == g

def Expansion.owes (g : Target) (x : Expansion) : Bool :=
  !x.pairs.delivered && x.purpose.target == g

theorem countP_set_of_some {α : Type} {xs : Array α} {n : Nat} {a : α} (h : xs[n]? = some a)
    (b : α) (p : α → Bool) :
    (xs.setIfInBounds n b).countP p + (p a).toNat = xs.countP p + (p b).toNat := by
  obtain ⟨hn, ha⟩ := Array.getElem?_eq_some_iff.1 h
  have hl : n < xs.toList.length := hn
  have hv : xs.toList[n] = a := by rw [Array.getElem_toList]; exact ha
  rw [← Array.countP_toList, ← Array.countP_toList, Array.toList_setIfInBounds, List.countP_set hl,
    hv]
  have hpos : p a = true → 0 < xs.toList.countP p := fun hp =>
    List.countP_pos_iff.2 ⟨a, hv ▸ List.getElem_mem hl, hp⟩
  cases hp : p a with
  | false => cases p b <;> simp
  | true =>
    have := hpos hp
    cases p b
    · simp only [if_true, Bool.false_eq_true, if_false, Bool.toNat_true, Bool.toNat_false]
      omega
    · simp only [if_true, Bool.toNat_true]
      omega

theorem countP_push_toNat {α : Type} (xs : Array α) (a : α) (p : α → Bool) :
    (xs.push a).countP p = xs.countP p + (p a).toNat := by
  rw [Array.countP_push]
  cases p a <;> rfl

def Event.ends (j : Nat) : Event → Bool
  | .finished n _ | .expanded n _ => .job n == Target.job j
  | _ => false

namespace Session

variable {σ : Type}

/-- How often a session owes a place its result. -/
def debt (s : Session σ) (g : Target) : Nat :=
  s.agenda.countP (Task.owes g) + s.invocations.countP (Invocation.owes g) +
    s.streams.countP (Stream.owes g) + s.expansions.countP (Expansion.owes g)

theorem debt_pos_of_mem {s : Session σ} {task : Task σ} {g : Target} (hm : task ∈ s.agenda)
    (ho : task.owes g = true) : 0 < s.debt g := by
  have := List.countP_pos_iff.2 ⟨task, hm, ho⟩
  rw [debt]
  omega

theorem debt_push (s : Session σ) (ts : List (Task σ)) (g : Target) :
    (s.push ts).debt g = ts.countP (Task.owes g) + s.debt g := by
  simp only [debt, agenda_push, List.countP_append, invocations_push, streams_push, expansions_push]
  omega

theorem debt_push_one (s : Session σ) (task : Task σ) (g : Target) :
    (s.push [task]).debt g = (task.owes g).toNat + s.debt g := by
  rw [debt_push]
  cases h : task.owes g <;> simp [h]

theorem debt_push_two (s : Session σ) (a b : Task σ) (g : Target) :
    (s.push [a, b]).debt g = (a.owes g).toNat + (b.owes g).toNat + s.debt g := by
  rw [debt_push]
  cases h : a.owes g <;> cases k : b.owes g <;> simp [h, k]

theorem debt_report (s : Session σ) (e : Event) (g : Target) : (s.report e).debt g = s.debt g := rfl

theorem debt_addInvocation (s : Session σ) (v : Invocation) (g : Target) :
    (s.addInvocation v).debt g = s.debt g + (v.owes g).toNat := by
  have : (s.invocations.push v).countP (Invocation.owes g) = _ := countP_push_toNat ..
  simp only [debt, addInvocation, this]
  omega

theorem debt_setAnswer {s : Session σ} {h : Handle} {v : Invocation}
    (hv : s.invocations[h.index]? = some v) (hn : v.answer = none) (r : Outcome (List Token))
    (g : Target) : (s.setAnswer h v r).debt g + (v.target == g).toNat = s.debt g := by
  have hc := countP_set_of_some hv { v with answer := some r } (Invocation.owes g)
  have ha : Invocation.owes g v = (v.target == g) := by simp [Invocation.owes, hn]
  have hb : Invocation.owes g { v with answer := some r } = false := by simp [Invocation.owes]
  rw [ha, hb] at hc
  simp only [debt, setAnswer]
  simp only [Bool.toNat_false] at hc
  omega

theorem debt_addStream (s : Session σ) (x : Stream) (g : Target) :
    (s.addStream x).debt g = s.debt g + (x.owes g).toNat := by
  have : (s.streams.push x).countP (Stream.owes g) = _ := countP_push_toNat ..
  simp only [debt, addStream, this]
  omega

theorem debt_setStream {s : Session σ} {n : Nat} {x : Stream} (hx : s.streams[n]? = some x)
    (y : Stream) (g : Target) :
    (s.setStream n y).debt g + (x.owes g).toNat = s.debt g + (y.owes g).toNat := by
  have hc := countP_set_of_some hx y (Stream.owes g)
  simp only [debt, setStream]
  omega

theorem debt_addExpansion (s : Session σ) (x : Expansion) (g : Target) :
    (s.addExpansion x).debt g = s.debt g + (x.owes g).toNat := by
  have : (s.expansions.push x).countP (Expansion.owes g) = _ := countP_push_toNat ..
  simp only [debt, addExpansion, this]
  omega

theorem debt_setExpansion {s : Session σ} {n : Nat} {x : Expansion}
    (hx : s.expansions[n]? = some x) (y : Expansion) (g : Target) :
    (s.setExpansion n y).debt g + (x.owes g).toNat = s.debt g + (y.owes g).toNat := by
  have hc := countP_set_of_some hx y (Expansion.owes g)
  simp only [debt, setExpansion]
  omega

theorem debt_addCallback (s : Session σ) (c : Callback σ) (g : Target) :
    (s.addCallback c).debt g = s.debt g := rfl

theorem debt_setIds (s : Session σ) (ids : IdSource) (g : Target) :
    (s.setIds ids).debt g = s.debt g := rfl

theorem debt_setMemory (s : Session σ) (m : σ) (g : Target) :
    (s.setMemory m).debt g = s.debt g := rfl

theorem debt_register (s : Session σ) (n : String) (r : Rank) (q : Filter) (a : Handler σ)
    (g : Target) : (s.register n r q a).debt g = s.debt g := rfl

/-- Filling a slot of a stream hands the debt of the stream on, if anything. -/
theorem debt_fillStream {s : Session σ} {n : Nat} {x : Stream} (hx : s.streams[n]? = some x)
    (i : Nat) (r : Outcome (List Token)) (g : Target) :
    ((s.setStream n { x with join := (x.join.fill i r).1 }).push
      ((x.join.fill i r).2.toList.map fun d => .deliver x.target (d.map List.flatten))).debt g =
      s.debt g := by
  have hd := debt_setStream hx { x with join := (x.join.fill i r).1 } g
  cases hf : (x.join.fill i r).2 with
  | none =>
    rw [Option.toList_none, List.map_nil, push_nil]
    simp only [Stream.owes, Join.delivered_of_silent hf] at hd
    omega
  | some d =>
    obtain ⟨ho, hc⟩ := Join.closes_of_delivers hf
    rw [Option.toList_some, List.map_cons, List.map_nil, debt_push_one]
    simp only [Stream.owes, ho, hc, Bool.not_true, Bool.not_false, Bool.false_and, Bool.true_and,
      Bool.toNat_false] at hd
    simp only [Task.owes]
    omega

theorem debt_fillPairs {s : Session σ} {e : Nat} {x : Expansion} (hx : s.expansions[e]? = some x)
    (i : Nat) (r : Outcome (Held (Attribute Token))) (g : Target) :
    ((s.setExpansion e { x with pairs := (x.pairs.fill i r).1 }).push
      ((x.pairs.fill i r).2.toList.map fun c => .finish x.options x.purpose c)).debt g =
      s.debt g := by
  have hd := debt_setExpansion hx { x with pairs := (x.pairs.fill i r).1 } g
  cases hf : (x.pairs.fill i r).2 with
  | none =>
    rw [Option.toList_none, List.map_nil, push_nil]
    simp only [Expansion.owes, Join.delivered_of_silent hf] at hd
    omega
  | some d =>
    obtain ⟨ho, hc⟩ := Join.closes_of_delivers hf
    rw [Option.toList_some, List.map_cons, List.map_nil, debt_push_one]
    simp only [Expansion.owes, ho, hc, Bool.not_true, Bool.not_false, Bool.false_and,
      Bool.true_and, Bool.toNat_false] at hd
    simp only [Task.owes]
    omega

/-- Filling a slot of two sides leaves the debt of the expansion as it is. -/
theorem debt_fillSides {s : Session σ} {e : Nat} {x : Expansion} (hx : s.expansions[e]? = some x)
    (sides : List (Join (Content Token))) (i : Nat) (a : Attribute Token)
    (c : Option (Outcome (List (Content Token)))) (g : Target) :
    ((s.setExpansion e { x with sides := sides }).push
      (c.toList.map fun c => .settlePair e i (pairOfSides a c))).debt g = s.debt g := by
  have hd := debt_setExpansion hx { x with sides := sides } g
  simp only [Expansion.owes] at hd
  cases c with
  | none =>
    rw [Option.toList_none, List.map_nil, push_nil]
    omega
  | some c =>
    rw [Option.toList_some, List.map_cons, List.map_nil, debt_push_one]
    simp only [Task.owes, Bool.toNat_false]
    omega

/-! ### The tasks that open a stream or an expansion -/

theorem map_offers (n : Nat) (ts : List Token) (o : Options) (p : Option Position) (g : Target) :
    (offers (σ := σ) n ts o p).map (Task.owes g) =
      ((List.range ts.length).map fun i => Target.chunk n i == g) := by
  apply List.ext_getElem
  · simp [offers]
  · intro i h₁ h₂
    simp [offers, Task.owes]

theorem map_expandPairs (e n : Nat) (g : Target) :
    (expandPairs (σ := σ) e n).map (Task.owes g) =
      (List.range n).map fun i => Target.side e i .key == g || Target.side e i .value == g := by
  simp [expandPairs, Task.owes]

theorem countP_eq_of_map {α β : Type} {l : List α} {m : List β} {p : α → Bool} {q : β → Bool}
    (h : l.map p = m.map q) : l.countP p = m.countP q := by
  have : (l.map p).countP id = (m.map q).countP id := by rw [h]
  simpa only [List.countP_map, Function.id_comp] using this

theorem countP_range_eq_one {n k : Nat} {p : Nat → Bool} (hk : k < n)
    (h : ∀ i, p i = true ↔ i = k) : (List.range n).countP p = 1 := by
  have hp : p = fun i => i == k := by
    funext i
    rw [Bool.eq_iff_iff, h, beq_iff_eq]
  rw [hp]
  exact List.count_eq_one_of_mem List.nodup_range (List.mem_range.2 hk)

theorem countP_offers_chunk {n i : Nat} {ts : List Token} (h : i < ts.length) (o : Options)
    (p : Option Position) : (offers (σ := σ) n ts o p).countP (Task.owes (.chunk n i)) = 1 := by
  rw [countP_eq_of_map (map_offers n ts o p _)]
  exact countP_range_eq_one h fun k => by simp

theorem countP_offers_eq_zero {n : Nat} {ts : List Token} {g : Target}
    (h : ∀ i < ts.length, g ≠ .chunk n i) (o : Options) (p : Option Position) :
    (offers (σ := σ) n ts o p).countP (Task.owes g) = 0 := by
  rw [countP_eq_of_map (map_offers n ts o p _), List.countP_eq_zero]
  intro i hi
  rw [beq_iff_eq]
  exact (h i (List.mem_range.1 hi)).symm

/-- Each pair is expanded once, and so is each of its sides. -/
theorem countP_expandPairs_side {e n i : Nat} (h : i < n) (d : Side) :
    (expandPairs (σ := σ) e n).countP (Task.owes (.side e i d)) = 1 := by
  rw [countP_eq_of_map (map_expandPairs e n _)]
  exact countP_range_eq_one h fun k => by cases d <;> simp

theorem countP_expandPairs_eq_zero {e n : Nat} {g : Target} (h : ∀ i < n, ∀ d, g ≠ .side e i d) :
    (expandPairs (σ := σ) e n).countP (Task.owes g) = 0 := by
  rw [countP_eq_of_map (map_expandPairs e n _), List.countP_eq_zero]
  intro i hi
  have := h i (List.mem_range.1 hi)
  rw [Bool.or_eq_true, beq_iff_eq, beq_iff_eq]
  rintro (he | he)
  · exact this .key he.symm
  · exact this .value he.symm

/-! ### How a move changes the debts -/

theorem owes_newStream (ts : List Token) (h : Option Handle) (g g' : Target) :
    (newStream ts h g').owes g = (decide (ts ≠ []) && g' == g) := by
  cases ts <;> simp [newStream, Stream.owes, Join.new]

theorem owes_newExpansion (as : List (Attribute Token)) (o : Options) (p : Purpose) (g : Target) :
    (newExpansion as o p).owes g = (decide (as ≠ []) && p.target == g) := by
  cases as <;> simp [newExpansion, Expansion.owes, Join.new]

def reports (s : Session σ) (j : Nat) : Nat := s.events.countP (Event.ends j)

@[simp] theorem reports_push (s : Session σ) (ts : List (Task σ)) (j : Nat) :
    (s.push ts).reports j = s.reports j := rfl

theorem reports_report (s : Session σ) (e : Event) (j : Nat) :
    (s.report e).reports j = s.reports j + (e.ends j).toNat := by
  simp only [reports, events_report]
  exact countP_push_toNat ..

@[simp] theorem reports_note (s : Session σ) (n : Note) (j : Nat) :
    (s.report n.event).reports j = s.reports j := by
  rw [reports_report]
  cases n <;> rfl

def pair? (s : Session σ) (e i : Nat) : Option (Attribute Token) :=
  (s.expansions[e]?).bind (·.attributes[i]?)

theorem pair?_of_some {s : Session σ} {e i : Nat} {x : Expansion} {a : Attribute Token}
    (hx : s.expansions[e]? = some x) (ha : x.attributes[i]? = some a) : s.pair? e i = some a := by
  rw [pair?, hx]
  exact ha

theorem pair?_eq_none {s : Session σ} {e i : Nat}
    (h : ∀ x, s.expansions[e]? = some x → x.attributes[i]? = none) : s.pair? e i = none := by
  unfold pair?
  cases hx : s.expansions[e]? with
  | none => rfl
  | some x => exact h x hx

/-- What a task owes and nobody owes any more once it was performed. -/
def settles (s : Session σ) (g : Target) : Task σ → Bool
  | .deliver (.job n) _ => .job n == g
  | .deliver (.chunk n i) _ => .chunk n i == g
  | .deliver (.callback n) _ => .callback n == g
  | .settleSide e i d _ => .side e i d == g
  | .expandPair e i => Task.owes (σ := σ) g (.expandPair e i) &&
      !(s.pair? e i).any Attribute.needsExpansion
  | .expandSide e i d => .side e i d == g && (s.pair? e i).isNone
  | .finish _ p _ => p.target == g
  | _ => false

/-- What nobody owed before a task was performed. -/
def opens (s : Session σ) (g : Target) : Task σ → Bool
  | .stream ts _ _ _ _ => decide (∃ i < ts.length, g = .chunk s.streams.size i)
  | .expand as _ _ => decide (∃ i < as.length,
      g = .side s.expansions.size i .key ∨ g = .side s.expansions.size i .value)
  | .follow _ (.process ..) => .callback s.callbacks.size == g
  | _ => false

theorem opens_stream {s : Session σ} {g g' : Target} {ts : List Token} {o : Options}
    {p : Option Position} {h : Option Handle} :
    s.opens g (.stream ts o p h g') = true ↔ ∃ i < ts.length, g = .chunk s.streams.size i :=
  decide_eq_true_iff

theorem opens_expand {s : Session σ} {g : Target} {as : List (Attribute Token)} {o : Options}
    {p : Purpose} : s.opens g (.expand as o p) = true ↔ ∃ i < as.length,
      g = .side s.expansions.size i .key ∨ g = .side s.expansions.size i .value :=
  decide_eq_true_iff

theorem countP_offers (s : Session σ) (ts : List Token) (o : Options) (p : Option Position)
    (h : Option Handle) (g g' : Target) :
    (offers (σ := σ) s.streams.size ts o p).countP (Task.owes g) =
      (s.opens g (.stream ts o p h g')).toNat := by
  by_cases hg : ∃ i < ts.length, g = .chunk s.streams.size i
  · simp only [opens, hg, decide_true, Bool.toNat_true]
    obtain ⟨i, hi, rfl⟩ := hg
    exact countP_offers_chunk hi o p
  · simp only [opens, hg, decide_false, Bool.toNat_false]
    exact countP_offers_eq_zero (fun i hi he => hg ⟨i, hi, he⟩) o p

theorem countP_expandPairs (s : Session σ) (as : List (Attribute Token)) (o : Options)
    (p : Purpose) (g : Target) :
    (expandPairs (σ := σ) s.expansions.size as.length).countP (Task.owes g) =
      (s.opens g (.expand as o p)).toNat := by
  by_cases hg : ∃ i < as.length,
      g = .side s.expansions.size i .key ∨ g = .side s.expansions.size i .value
  · simp only [opens, hg, decide_true, Bool.toNat_true]
    obtain ⟨i, hi, rfl | rfl⟩ := hg
    · exact countP_expandPairs_side hi .key
    · exact countP_expandPairs_side hi .value
  · simp only [opens, hg, decide_false, Bool.toNat_false]
    refine countP_expandPairs_eq_zero fun i hi d he => hg ⟨i, hi, ?_⟩
    cases d
    · exact Or.inl he
    · exact Or.inr he

theorem beq_handle {g : Target} (hg : g.isPlace = true) (h : Handle) :
    (Target.handle h == g) = false := by
  cases g with
  | handle _ => cases hg
  | _ => rfl

theorem toNat_sides (e i : Nat) (g : Target) :
    (Target.side e i .key == g || Target.side e i .value == g).toNat =
      (Target.side e i .key == g).toNat + (Target.side e i .value == g).toNat := by
  by_cases h : Target.side e i .key = g
  · subst h
    simp
  · have : (Target.side e i .key == g) = false := beq_eq_false_iff_ne.2 h
    simp [this]

/-- **A move keeps what is owed to a place**, but for what its task settles and
for the places that it opens. -/
theorem Move.debt {s t : Session σ} {task : Task σ} (h : Move s task t) {g : Target}
    (hg : g.isPlace = true) :
    t.debt g + (s.settles g task).toNat = (s.push [task]).debt g + (s.opens g task).toNat := by
  have hh := beq_handle hg
  rw [debt_push_one]
  cases h with
  | @stream ts o p h g' hts =>
    rw [debt_push, debt_addStream, owes_newStream, countP_offers s ts o p h g g']
    simp only [Task.owes, settles, hts, decide_true, Bool.true_and, Bool.toNat_false, ne_eq,
      not_false_eq_true]
    omega
  | @expand as o p has =>
    rw [debt_push, debt_addExpansion, owes_newExpansion, countP_expandPairs s as o p]
    simp only [Task.owes, settles, has, decide_true, Bool.true_and, Bool.toNat_false, ne_eq,
      not_false_eq_true]
    omega
  | @answered h ts v hv hn =>
    have := debt_setAnswer hv hn (.ok ts) g
    simp only [debt_push_one, Task.owes, settles, opens, hh, Bool.toNat_false]
    omega
  | @failed h e v hv hn =>
    have := debt_setAnswer hv hn (.error e) g
    simp only [debt_push_one, Task.owes, settles, opens, hh, Bool.toNat_false]
    omega
  | chunk hx =>
    rw [debt_fillStream hx]
    simp only [Task.owes, settles, opens, Bool.toNat_false]
    omega
  | settleSide hx hj ha =>
    rw [debt_fillSides hx]
    simp only [Task.owes, settles, opens, Bool.toNat_false]
    omega
  | settlePair hx =>
    rw [debt_fillPairs hx]
    simp only [Task.owes, settles, opens, Bool.toNat_false]
    omega
  | expandPair hx ha hn =>
    simp only [debt_push_two, Task.owes, settles, opens, pair?_of_some hx ha, Option.any_some, hn,
      toNat_sides, Bool.not_true, Bool.and_false, Bool.toNat_false]
  | keepPair hx ha hn =>
    simp only [debt_push_one, Task.owes, settles, opens, pair?_of_some hx ha, Option.any_some, hn,
      Bool.not_false, Bool.and_true, Bool.toNat_false]
    omega
  | noPair hx =>
    simp only [Task.owes, settles, opens, pair?_eq_none hx, Option.any_none, Bool.not_false,
      Bool.and_true, Bool.toNat_false]
    omega
  | textSide hx ha _ | tokenSide hx ha _ =>
    simp only [debt_push_one, Task.owes, settles, opens, pair?_of_some hx ha, Option.isNone_some,
      Bool.and_false, Bool.toNat_false]
  | noSide hx =>
    simp only [Task.owes, settles, opens, pair?_eq_none hx, Option.isNone_none, Bool.and_true,
      Bool.toNat_false]
    omega
  | _ =>
    simp [debt_push_one, debt_push_two, Task.owes, settles, opens, hh, debt_addInvocation,
      Invocation.owes, debt_addStream, owes_newStream, debt_report, debt_addExpansion,
      owes_newExpansion, debt_addCallback, Purpose.target, debt_setIds, debt_setMemory,
      debt_register] <;> omega

end Session

end WikiExpansion
