import WikiExpansion.Session.Step

/-!
# Running a session

`settle` steps until the agenda is empty.  Handlers may keep each other busy for
ever, so it takes a bound on the number of steps; a bound that suffices once
makes every larger one give the same session.

Jobs are what comes from outside: a stream to process, a token to dispatch, an
attribute list to expand.  Each has a number of its own and one event when it is
over.
-/

namespace WikiExpansion

namespace Session

variable {σ : Type}

def new (ids : IdSource) (options : Options) (memory : σ) : Session σ :=
  { ids := ids, options := options, memory := memory }

/-- Steps until nothing is left to do, `fuel` times at most. -/
def settle : Nat → Session σ → Session σ
  | 0, s => s
  | fuel + 1, s => if s.agenda.isEmpty then s else settle fuel s.step

theorem step_of_agenda_nil {s : Session σ} (h : s.agenda = []) : s.step = s := by
  simp [step, h]

theorem settle_of_agenda_nil {s : Session σ} (h : s.agenda = []) (fuel : Nat) :
    settle fuel s = s := by
  cases fuel <;> simp [settle, h]

theorem settle_succ (fuel : Nat) (s : Session σ) : settle (fuel + 1) s = settle fuel s.step := by
  rw [settle]
  split
  · rename_i h
    have h := List.isEmpty_iff.1 h
    rw [step_of_agenda_nil h, settle_of_agenda_nil h]
  · rfl

theorem settle_add (m n : Nat) (s : Session σ) : settle (m + n) s = settle n (settle m s) := by
  induction m generalizing s with
  | zero => simp [settle]
  | succ m ih => rw [Nat.add_right_comm, settle_succ, settle_succ, ih]

theorem settle_of_le {m n : Nat} {s : Session σ} (h : (settle m s).agenda = []) (hmn : m ≤ n) :
    settle n s = settle m s := by
  obtain ⟨k, rfl⟩ := Nat.exists_eq_add_of_le hmn
  rw [settle_add, settle_of_agenda_nil h]

def newJob (s : Session σ) : Nat × Session σ := (s.jobs, { s with jobs := s.jobs + 1 })

/-- Runs tokens through all handlers, with the options of the session where none
are given. -/
def process (s : Session σ) (tokens : List Token) (options : Option Options) :
    Nat × Session σ :=
  let (job, s) := s.newJob
  (job, s.push [.stream tokens (options.getD s.options) none none (.job job)])

def dispatch (s : Session σ) (token : Token) : Nat × Session σ :=
  let (job, s) := s.newJob
  (job, s.push [.offer token s.options none (.job job)])

def expandAttributes (s : Session σ) (attributes : List (Attribute Token)) (options : Options) :
    Nat × Session σ :=
  let (job, s) := s.newJob
  (job, s.push [.expand attributes options (.job job)])

/-- Answers an invocation from outside: whether the answer counted, and the
session with what it sets off. -/
def complete (s : Session σ) (h : Handle) (r : Outcome (List Token)) : Bool × Session σ :=
  (!(s.isAnswered h), s.push [.deliver (.handle h) r])

def result? (s : Session σ) (job : Nat) : Option (Outcome (List Token)) :=
  s.events.toList.findSome? fun
    | .finished n r => if n = job then some r else none
    | _ => none

def isFinished (s : Session σ) (job : Nat) : Bool :=
  s.events.any fun
    | .finished n _ | .expanded n _ => n == job
    | _ => false

/-- Runs tokens through all handlers, who are expected to answer before the run
is left. -/
def run (fuel : Nat) (s : Session σ) (tokens : List Token) : Outcome (List Token) × Session σ :=
  let (job, s) := s.process tokens none
  let s := s.settle fuel
  ((s.result? job).getD (.error .incomplete), s)

end Session

end WikiExpansion
