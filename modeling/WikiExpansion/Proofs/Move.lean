import WikiExpansion.Session.Run

/-!
# Moves of a session

`Move s task t` says all that performing a task can do: `s` is the session from
whose agenda the task was taken, `t` the session after it.  Performing the task
is a move (`move_perform`), and a move leads to nothing else (`Move.perform_eq`).
Only there the step is unfolded: whatever is kept by every move is kept by a step
(`step_eq`), and what a task does in a given session is said by its move.

Beside its own steps a session meets what is done to it from outside (`Act`).
That can happen between any two steps, but not while a result is being handed
from one join to the next (`isOpen`): nothing runs in between there.  `Reaches`
is what steps and acts lead to from a session, and a session is `Reachable` when
they lead there from a new one.
-/

namespace WikiExpansion

namespace Task

variable {σ : Type}

/-- A result on its way from one place to the next. -/
def isCarried : Task σ → Bool
  | .deliver (.handle _) _ => false
  | .deliver _ _ | .settleSide .. | .settlePair .. | .finish .. => true
  | _ => false

end Task

namespace Session

variable {σ : Type}

@[simp] theorem push_push (s : Session σ) (a b : List (Task σ)) :
    (s.push a).push b = s.push (b ++ a) := by
  simp [push, List.append_assoc]

@[simp] theorem push_nil (s : Session σ) : s.push [] = s := rfl

@[simp] theorem streams_push (s : Session σ) (ts : List (Task σ)) :
    (s.push ts).streams = s.streams := rfl

@[simp] theorem expansions_push (s : Session σ) (ts : List (Task σ)) :
    (s.push ts).expansions = s.expansions := rfl

@[simp] theorem jobs_push (s : Session σ) (ts : List (Task σ)) : (s.push ts).jobs = s.jobs := rfl

/-! ### The records with one entry changed or added -/

def addInvocation (s : Session σ) (v : Invocation) : Session σ :=
  { s with invocations := s.invocations.push v }

def setAnswer (s : Session σ) (h : Handle) (v : Invocation) (r : Outcome (List Token)) :
    Session σ :=
  { s with invocations := s.invocations.setIfInBounds h.index { v with answer := some r } }

def addStream (s : Session σ) (t : Stream) : Session σ := { s with streams := s.streams.push t }

def setStream (s : Session σ) (n : Nat) (t : Stream) : Session σ :=
  { s with streams := s.streams.setIfInBounds n t }

def addExpansion (s : Session σ) (e : Expansion) : Session σ :=
  { s with expansions := s.expansions.push e }

def setExpansion (s : Session σ) (n : Nat) (e : Expansion) : Session σ :=
  { s with expansions := s.expansions.setIfInBounds n e }

def setIds (s : Session σ) (ids : IdSource) : Session σ := { s with ids := ids }

def setMemory (s : Session σ) (m : σ) : Session σ := { s with memory := m }

def addCallback (s : Session σ) (c : Callback σ) : Session σ :=
  { s with callbacks := s.callbacks.push c }

def offers (stream : Nat) (tokens : List Token) (options : Options) (after : Option Position) :
    List (Task σ) :=
  tokens.mapIdx fun i token => .offer token options after (.chunk stream i)

def expandPairs (expansion n : Nat) : List (Task σ) :=
  (List.range n).map fun i => .expandPair expansion i

def newStream (tokens : List Token) (origin : Option Handle) (target : Target) : Stream :=
  ⟨tokens, origin, .new tokens.length, target⟩

def newExpansion (attributes : List (Attribute Token)) (options : Options) (purpose : Purpose) :
    Expansion :=
  ⟨attributes, options, purpose, List.replicate attributes.length (.new 2),
    .new attributes.length⟩

def nextFrame (s : Session σ) (r : Registration (Handler σ)) (options : Options) : Frame :=
  ⟨⟨s.invocations.size⟩, r.name, r.position, options⟩

/-- What performing a task can do. -/
inductive Move (s : Session σ) : Task σ → Session σ → Prop
  | pass {t o p g} : s.registry.next? p t.kind = none →
      Move s (.offer t o p g) (s.push [.deliver g (.ok [t])])
  | invoke {t o p g r} : s.registry.next? p t.kind = some r →
      Move s (.offer t o p g) ((s.addInvocation ⟨t, o, r.position, g, none⟩).push
        [.follow (s.nextFrame r o) (r.handler (s.nextFrame r o) t)])
  | noTokens {o p h g} :
      Move s (.stream [] o p h g) ((s.addStream (newStream [] h g)).push [.deliver g (.ok [])])
  | stream {ts o p h g} : ts ≠ [] →
      Move s (.stream ts o p h g)
        ((s.addStream (newStream ts h g)).push (offers s.streams.size ts o p))
  | finished {n r} : Move s (.deliver (.job n) r) (s.report (.finished n r))
  | resume {n r c} : s.callbacks[n]? = some c →
      Move s (.deliver (.callback n) r) (s.push [.follow c.frame (c.script r)])
  | noCallback {n r} : s.callbacks[n]? = none → Move s (.deliver (.callback n) r) s
  /-- The answer comes too late. -/
  | ignored {h r} : s.isAnswered h = true → Move s (.deliver (.handle h) r) s
  | answered {h ts v} : s.invocations[h.index]? = some v → v.answer = none →
      Move s (.deliver (.handle h) (.ok ts)) ((s.setAnswer h v (.ok ts)).push
        [.stream ts v.options (some v.position) (some h) v.target])
  | failed {h e v} : s.invocations[h.index]? = some v → v.answer = none →
      Move s (.deliver (.handle h) (.error e)) ((s.setAnswer h v (.error e)).push
        [.deliver v.target (.error e)])
  | chunk {n i r t} : s.streams[n]? = some t →
      Move s (.deliver (.chunk n i) r) ((s.setStream n { t with join := (t.join.fill i r).1 }).push
        ((t.join.fill i r).2.toList.map fun d => .deliver t.target (d.map List.flatten)))
  | noStream {n i r} : s.streams[n]? = none → Move s (.deliver (.chunk n i) r) s
  | side {e i d r} :
      Move s (.deliver (.side e i d) r) (s.push [.settleSide e i d (r.map .tokens)])
  | noPairs {o p} : Move s (.expand [] o p)
      ((s.addExpansion (newExpansion [] o p)).push [.finish o p (.ok [])])
  | expand {as o p} : as ≠ [] → Move s (.expand as o p)
      ((s.addExpansion (newExpansion as o p)).push (expandPairs s.expansions.size as.length))
  | expandPair {e i x a} : s.expansions[e]? = some x → x.attributes[i]? = some a →
      a.needsExpansion = true →
      Move s (.expandPair e i) (s.push [.expandSide e i .key, .expandSide e i .value])
  | keepPair {e i x a} : s.expansions[e]? = some x → x.attributes[i]? = some a →
      a.needsExpansion = false →
      Move s (.expandPair e i) (s.push [.settlePair e i (.ok (.shared a))])
  | noPair {e i} : (∀ x, s.expansions[e]? = some x → x.attributes[i]? = none) →
      Move s (.expandPair e i) s
  | textSide {e i d x a t} : s.expansions[e]? = some x → x.attributes[i]? = some a →
      d.of a = .text t →
      Move s (.expandSide e i d) (s.push [.settleSide e i d (.ok (.text t))])
  | tokenSide {e i d x a ts} : s.expansions[e]? = some x → x.attributes[i]? = some a →
      d.of a = .tokens ts →
      Move s (.expandSide e i d) (s.push [.stream ts x.options none none (.side e i d)])
  | noSide {e i d} : (∀ x, s.expansions[e]? = some x → x.attributes[i]? = none) →
      Move s (.expandSide e i d) s
  | settleSide {e i d r x j a} : s.expansions[e]? = some x → x.sides[i]? = some j →
      x.attributes[i]? = some a →
      Move s (.settleSide e i d r)
        ((s.setExpansion e { x with sides := x.sides.set i (j.fill d.slot r).1 }).push
          ((j.fill d.slot r).2.toList.map fun c => .settlePair e i (pairOfSides a c)))
  | noSlot {e i d r} :
      (∀ x, s.expansions[e]? = some x → x.sides[i]? = none ∨ x.attributes[i]? = none) →
      Move s (.settleSide e i d r) s
  | settlePair {e i r x} : s.expansions[e]? = some x →
      Move s (.settlePair e i r)
        ((s.setExpansion e { x with pairs := (x.pairs.fill i r).1 }).push
          ((x.pairs.fill i r).2.toList.map fun c => .finish x.options x.purpose c))
  | noExpansion {e i r} : s.expansions[e]? = none → Move s (.settlePair e i r) s
  | expanded {o n r} : Move s (.finish o (.job n) r) (s.report (.expanded n r))
  | reconciled {o t h hs} : Move s (.finish o (.answer t h) (.ok hs))
      ((s.setIds (returnAttributes o s.ids t hs).2).push
        [.deliver (.handle h) (returnAttributes o s.ids t hs).1])
  | notExpanded {o t h e} : Move s (.finish o (.answer t h) (.error e))
      (s.push [.deliver (.handle h) (.error (tokenFailure t e))])
  | answer {f r} : Move s (.follow f (.answer r)) (s.push [.deliver (.handle f.handle) r])
  | suspend {f} : Move s (.follow f .suspend) s
  | complete {f h r k} : Move s (.follow f (.complete h r k))
      (s.push [.deliver (.handle h) r, .follow f (k !(s.isAnswered h))])
  | isAnswered {f h k} : Move s (.follow f (.isAnswered h k))
      (s.push [.follow f (k (s.isAnswered h))])
  | process {f ts o d k} : Move s (.follow f (.process ts o d k))
      ((s.addCallback ⟨f, d⟩).push
        [.stream ts (o.getD s.options) none none (.callback s.callbacks.size), .follow f k])
  | expandAttributes {f t o k} : Move s (.follow f (.expandAttributes t o k))
      (s.push [.expand ((t.tag?.map Tag.attributes).getD []) o (.answer t f.handle), .follow f k])
  | newObjectId {f k} : Move s (.follow f (.newObjectId k))
      ((s.setIds s.ids.newObjectId.2).push [.follow f (k s.ids.newObjectId.1)])
  | register {f n r q a k} : Move s (.follow f (.register n r q a k))
      ((s.register n r q a).push [.follow f k])
  | report {f n k} : Move s (.follow f (.report n k))
      ((s.report n.event).push [.follow f k])
  | remember {f u k} : Move s (.follow f (.remember u k))
      ((s.setMemory (u s.memory)).push [.follow f (k s.memory)])

/-- A move only puts tasks in front of the others. -/
theorem Move.agenda {s t : Session σ} {task : Task σ} (h : Move s task t) :
    ∃ ts, t.agenda = ts ++ s.agenda := by
  cases h with
  | finished | noCallback _ | ignored _ | noStream _ | noPair _ | noSide _ | noSlot _
  | noExpansion _ | expanded | suspend => exact ⟨[], rfl⟩
  | _ => exact ⟨_, rfl⟩

theorem isAnswered_eq_false_iff {s : Session σ} {h : Handle} :
    s.isAnswered h = false ↔ ∃ v, s.invocations[h.index]? = some v ∧ v.answer = none := by
  unfold isAnswered
  cases s.invocations[h.index]? with
  | none => simp
  | some v => simp

theorem deliver_of_isAnswered {s : Session σ} {h : Handle} (ha : s.isAnswered h = true)
    (r : Outcome (List Token)) : s.deliver r (.handle h) = s := by
  unfold isAnswered at ha
  cases hv : s.invocations[h.index]? with
  | none => simp only [deliver, Session.answer, hv]
  | some v =>
    rw [hv] at ha
    simp only [deliver, Session.answer, hv, if_pos ha]

theorem move_deliver (s : Session σ) (g : Target) (r : Outcome (List Token)) :
    Move s (.deliver g r) (s.deliver r g) := by
  cases g with
  | job n => exact .finished
  | callback n =>
    cases hc : s.callbacks[n]? with
    | none => simpa only [deliver, hc] using Move.noCallback hc
    | some c => simpa only [deliver, hc] using Move.resume hc
  | side e i d => exact .side
  | handle h =>
    cases ha : s.isAnswered h with
    | true =>
      rw [deliver_of_isAnswered ha]
      exact .ignored ha
    | false =>
      obtain ⟨v, hv, hn⟩ := isAnswered_eq_false_iff.1 ha
      have hs : v.answer.isSome = false := by rw [hn]; rfl
      simp only [deliver, Session.answer, hv, hs, Bool.false_eq_true, if_false]
      cases r with
      | ok ts => exact .answered hv hn
      | error e => exact .failed hv hn
  | chunk n i =>
    cases ht : s.streams[n]? with
    | none => simpa only [deliver, ht] using Move.noStream ht
    | some t =>
      have := Move.chunk (i := i) (r := r) ht
      simp only [deliver, ht]
      cases hd : (t.join.fill i r).2 with
      | none => rw [hd] at this; exact this
      | some d => rw [hd] at this; exact this

theorem move_expandPair (s : Session σ) (e i : Nat) :
    Move s (.expandPair e i) (s.expandPair e i) := by
  unfold expandPair
  cases hx : s.expansions[e]? with
  | none => exact .noPair fun x h => by rw [hx] at h; cases h
  | some x =>
    simp only [Option.bind_some]
    cases ha : x.attributes[i]? with
    | none =>
      refine .noPair fun y h => ?_
      rw [hx] at h
      exact Option.some.inj h ▸ ha
    | some a =>
      cases hn : a.needsExpansion with
      | true => simpa only [hn, if_true] using Move.expandPair hx ha hn
      | false => simpa only [hn, Bool.false_eq_true, if_false] using Move.keepPair hx ha hn

theorem move_expandSide (s : Session σ) (e i : Nat) (d : Side) :
    Move s (.expandSide e i d) (s.expandSide e i d) := by
  unfold expandSide
  cases hx : s.expansions[e]? with
  | none => exact .noSide fun x h => by rw [hx] at h; cases h
  | some x =>
    cases ha : x.attributes[i]? with
    | none =>
      simp only [ha, Option.map_none]
      refine .noSide fun y h => ?_
      rw [hx] at h
      exact Option.some.inj h ▸ ha
    | some a =>
      cases hd : d.of a with
      | text t => simpa only [ha, Option.map_some, hd] using Move.textSide hx ha hd
      | tokens ts => simpa only [ha, Option.map_some, hd] using Move.tokenSide hx ha hd

theorem move_settleSide (s : Session σ) (e i : Nat) (d : Side) (r : Outcome (Content Token)) :
    Move s (.settleSide e i d r) (s.settleSide e i d r) := by
  unfold settleSide
  cases hx : s.expansions[e]? with
  | none => exact .noSlot fun x h => by rw [hx] at h; cases h
  | some x =>
    cases hj : x.sides[i]? with
    | none =>
      simp only [hj]
      refine .noSlot fun y h => ?_
      rw [hx] at h
      exact Or.inl (Option.some.inj h ▸ hj)
    | some j =>
      cases ha : x.attributes[i]? with
      | none =>
        simp only [hj, ha]
        refine .noSlot fun y h => ?_
        rw [hx] at h
        exact Or.inr (Option.some.inj h ▸ ha)
      | some a =>
        have := Move.settleSide (d := d) (r := r) hx hj ha
        simp only [hj, ha]
        cases hd : (j.fill d.slot r).2 with
        | none => rw [hd] at this; exact this
        | some c => rw [hd] at this; exact this

theorem move_settlePair (s : Session σ) (e i : Nat) (r : Outcome (Held (Attribute Token))) :
    Move s (.settlePair e i r) (s.settlePair e i r) := by
  unfold settlePair
  cases hx : s.expansions[e]? with
  | none => exact .noExpansion hx
  | some x =>
    have := Move.settlePair (i := i) (r := r) hx
    simp only
    cases hd : (x.pairs.fill i r).2 with
    | none => rw [hd] at this; exact this
    | some c => rw [hd] at this; exact this

theorem move_follow (s : Session σ) (f : Frame) (k : Script σ) :
    Move s (.follow f k) (s.follow f k) := by
  cases k with
  | answer r => exact .answer
  | suspend => exact .suspend
  | complete h r k => exact .complete
  | isAnswered h k => exact .isAnswered
  | process ts o d k => exact .process
  | expandAttributes t o k => exact .expandAttributes
  | newObjectId k => exact .newObjectId
  | register n r q a k => exact .register
  | report n k => exact .report
  | remember u k => exact .remember

/-- **Performing a task is a move.** -/
theorem move_perform (s : Session σ) (task : Task σ) : Move s task (s.perform task) := by
  cases task with
  | offer t o p g =>
    simp only [perform, offer]
    cases h : s.registry.next? p t.kind with
    | none => exact .pass h
    | some r => exact .invoke h
  | stream ts o p h g =>
    cases ts with
    | nil => exact .noTokens
    | cons t ts => exact .stream (List.cons_ne_nil t ts)
  | follow f k => exact move_follow s f k
  | deliver g r => exact move_deliver s g r
  | expand as o p =>
    cases as with
    | nil => exact .noPairs
    | cons a as => exact .expand (List.cons_ne_nil a as)
  | expandPair e i => exact move_expandPair s e i
  | expandSide e i d => exact move_expandSide s e i d
  | settleSide e i d r => exact move_settleSide s e i d r
  | settlePair e i r => exact move_settlePair s e i r
  | finish o p r =>
    cases p with
    | job n => exact .expanded
    | answer t h =>
      cases r with
      | ok hs => exact .reconciled
      | error e => exact .notExpanded

/-- **A move leads to nothing else** than what performing its task does. -/
theorem Move.perform_eq {s t : Session σ} {task : Task σ} (h : Move s task t) :
    s.perform task = t := by
  cases h with
  | pass hn => simp only [perform, offer, hn]
  | invoke hr =>
    simp only [perform, offer, hr]
    rfl
  | stream hts =>
    obtain ⟨a, as, rfl⟩ := List.exists_cons_of_ne_nil hts
    rfl
  | resume hc | noCallback hc | noStream hc => simp only [perform, deliver, hc]
  | ignored ha => exact deliver_of_isAnswered ha _
  | answered hv hn | failed hv hn =>
    simp only [perform, deliver, Session.answer, hv, hn, Option.isSome_none, Bool.false_eq_true,
      if_false]
    rfl
  | @chunk n i r x hx =>
    simp only [perform, deliver, hx]
    cases (x.join.fill i r).2 <;> rfl
  | expand has =>
    obtain ⟨a, as, rfl⟩ := List.exists_cons_of_ne_nil has
    rfl
  | expandPair hx ha hn | keepPair hx ha hn =>
    simp only [perform, Session.expandPair, hx, Option.bind_some, ha, hn, if_true,
      Bool.false_eq_true, if_false]
  | @noPair e i hn =>
    cases hx : s.expansions[e]? with
    | none => simp only [perform, Session.expandPair, hx, Option.bind_none]
    | some x => simp only [perform, Session.expandPair, hx, Option.bind_some, hn x hx]
  | textSide hx ha hd | tokenSide hx ha hd =>
    simp only [perform, expandSide, hx, ha, Option.map_some, hd]
  | @noSide e i d hn =>
    cases hx : s.expansions[e]? with
    | none => simp only [perform, expandSide, hx]
    | some x => simp only [perform, expandSide, hx, hn x hx, Option.map_none]
  | @settleSide e i d r x j a hx hj ha =>
    simp only [perform, Session.settleSide, hx, hj, ha]
    cases (j.fill d.slot r).2 <;> rfl
  | @noSlot e i d r hn =>
    cases hx : s.expansions[e]? with
    | none => simp only [perform, Session.settleSide, hx]
    | some x =>
      rcases hn x hx with hj | ha
      · simp only [perform, Session.settleSide, hx, hj]
      · simp only [perform, Session.settleSide, hx, ha]
        cases x.sides[i]? <;> rfl
  | @settlePair e i r x hx =>
    simp only [perform, Session.settlePair, hx]
    cases (x.pairs.fill i r).2 <;> rfl
  | noExpansion hn => simp only [perform, Session.settlePair, hn]
  | _ => rfl

/-! ### Steps, acts and what they lead to -/

theorem step_of_agenda {s : Session σ} {task : Task σ} {rest : List (Task σ)}
    (h : s.agenda = task :: rest) : s.step = { s with agenda := rest }.perform task := by
  rw [step, h]

/-- The step of a session is the move of its first task. -/
theorem step_of_move {s t : Session σ} {task : Task σ} {rest : List (Task σ)}
    (ha : s.agenda = task :: rest) (h : Move { s with agenda := rest } task t) : s.step = t :=
  (step_of_agenda ha).trans h.perform_eq

theorem eq_push_of_agenda {s : Session σ} {task : Task σ} {rest : List (Task σ)}
    (h : s.agenda = task :: rest) : s = ({ s with agenda := rest } : Session σ).push [task] := by
  simp only [push, List.singleton_append, ← h]

theorem move_of_agenda {s : Session σ} {task : Task σ} {rest : List (Task σ)}
    (h : s.agenda = task :: rest) : Move { s with agenda := rest } task s.step := by
  have := move_perform { s with agenda := rest } task
  rwa [step, h]

theorem step_eq (s : Session σ) :
    (s.agenda = [] ∧ s.step = s) ∨
      ∃ s₀ task, s = s₀.push [task] ∧ Move s₀ task s.step := by
  cases h : s.agenda with
  | nil => exact Or.inl ⟨rfl, step_of_agenda_nil h⟩
  | cons task rest =>
    exact Or.inr ⟨{ s with agenda := rest }, task, eq_push_of_agenda h, move_of_agenda h⟩

inductive Act (s : Session σ) : Session σ → Prop
  | process (ts : List Token) (o : Option Options) : Act s (s.process ts o).2
  | dispatch (t : Token) : Act s (s.dispatch t).2
  | expandAttributes (as : List (Attribute Token)) (o : Options) :
      Act s (s.expandAttributes as o).2
  | complete (h : Handle) (r : Outcome (List Token)) : Act s (s.complete h r).2
  | register (n : String) (r : Rank) (f : Filter) (a : Handler σ) : Act s (s.register n r f a)
  | newObjectId : Act s s.newObjectId.2
  | newAboutId : Act s s.newAboutId.2
  | remember (m : σ) : Act s (s.setMemory m)

theorem Act.agenda {s t : Session σ} (h : Act s t) : ∃ ts, t.agenda = ts ++ s.agenda := by
  cases h with
  | process | dispatch | expandAttributes | complete => exact ⟨_, rfl⟩
  | _ => exact ⟨[], rfl⟩

/-- No result is on its way, so others may act. -/
def isOpen (s : Session σ) : Bool := s.agenda.head?.all fun task => !task.isCarried

/-- What steps and acts lead to from a session. -/
inductive Reaches (s : Session σ) : Session σ → Prop
  | refl : Reaches s s
  | step {t : Session σ} : Reaches s t → Reaches s t.step
  | act {t u : Session σ} : Reaches s t → t.isOpen = true → Act t u → Reaches s u

namespace Reaches

theorem trans {s t u : Session σ} (h : Reaches s t) (g : Reaches t u) : Reaches s u := by
  induction g with
  | refl => exact h
  | step _ ih => exact .step ih
  | act _ ho ha ih => exact .act ih ho ha

theorem settle {s t : Session σ} (h : Reaches s t) (n : Nat) : Reaches s (t.settle n) := by
  induction n generalizing t with
  | zero => exact h
  | succ n ih => rw [settle_succ]; exact ih (.step h)

theorem of_step {s t : Session σ} (h : Reaches s.step t) : Reaches s t := (step refl).trans h

/-- Where a result is on its way, the next thing that happens is a step. -/
theorem eq_or_step {s t : Session σ} (h : Reaches s t) (ho : s.isOpen = false) :
    t = s ∨ Reaches s.step t := by
  induction h with
  | refl => exact Or.inl rfl
  | step _ ih =>
    rcases ih with rfl | ih
    · exact Or.inr .refl
    · exact Or.inr (.step ih)
  | act _ ht ha ih =>
    rcases ih with rfl | ih
    · rw [ho] at ht
      cases ht
    · exact Or.inr (.act ih ht ha)

/-- What every move and every act keeps is kept all along. -/
theorem keeps {P : Session σ → Prop}
    (move : ∀ s task t, Move s task t → P (s.push [task]) → P t)
    (act : ∀ s t, s.isOpen = true → Act s t → P s → P t) {s t : Session σ} (h : Reaches s t)
    (hs : P s) : P t := by
  induction h with
  | refl => exact hs
  | @step t _ ih =>
    rcases step_eq t with ⟨-, he⟩ | ⟨s₀, task, he, hm⟩
    · rw [he]; exact ih
    · exact move s₀ task _ hm (he ▸ ih)
  | act _ ho ha ih => exact act _ _ ho ha ih

end Reaches

/-- Results on their way lead from one session to another, so nothing else happens
in between. -/
inductive Carries : Session σ → Session σ → Prop
  | refl {s : Session σ} : Carries s s
  | step {s t : Session σ} : s.isOpen = false → Carries s.step t → Carries s t

namespace Carries

theorem exists_settle {s t : Session σ} (h : Carries s t) : ∃ n, s.settle n = t := by
  induction h with
  | refl => exact ⟨0, rfl⟩
  | step _ _ ih =>
    obtain ⟨n, hn⟩ := ih
    exact ⟨n + 1, by rw [settle_succ, hn]⟩

theorem reaches {s t : Session σ} (h : Carries s t) : Reaches s t := by
  induction h with
  | refl => exact .refl
  | step _ _ ih => exact ih.of_step

/-- Of two sessions that are reached, one by results on their way, one comes
after the other. -/
theorem comparable {s t u : Session σ} (h : Carries s u) (g : Reaches s t) :
    Reaches u t ∨ Carries t u := by
  induction h with
  | refl => exact Or.inl g
  | step ho hc ih =>
    rcases g.eq_or_step ho with rfl | g
    · exact Or.inr (.step ho hc)
    · exact ih g

end Carries

/-- Steps and acts lead there from a session in which nothing has happened. -/
def Reachable (s : Session σ) : Prop := ∃ ids o m, Reaches (Session.new ids o m) s

theorem Reachable.keeps {P : Session σ → Prop} (new : ∀ ids o m, P (Session.new ids o m))
    (move : ∀ s task t, Move s task t → P (s.push [task]) → P t)
    (act : ∀ s t, s.isOpen = true → Act s t → P s → P t) {s : Session σ} (h : Reachable s) :
    P s := by
  obtain ⟨ids, o, m, h⟩ := h
  exact h.keeps move act (new ids o m)

theorem Reachable.reaches {s t : Session σ} (h : Reachable s) (g : Reaches s t) : Reachable t := by
  obtain ⟨ids, o, m, h⟩ := h
  exact ⟨ids, o, m, h.trans g⟩

end Session

end WikiExpansion
