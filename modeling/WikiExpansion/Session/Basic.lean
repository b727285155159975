import WikiExpansion.Join
import WikiExpansion.Session.Script

/-!
# Sessions

A session runs token streams through its handlers.  It keeps a record of every
invocation of a handler, of every stream in progress, and of every attribute
list being expanded; each record says where its result is to go.  The work that
is left stands on the agenda, the next task first, and a task puts the tasks it
leads to in front.  So what an answer sets off is over before the handler that
gave it goes on.

Nothing is ever taken out of the records: a handle stays good for telling that
its invocation was answered.
-/

namespace WikiExpansion

inductive Side where
  | key
  | value
deriving DecidableEq, Inhabited

namespace Side

def slot : Side → Nat
  | key => 0
  | value => 1

def of {τ : Type} (a : Attribute τ) : Side → Content τ
  | key => a.key
  | value => a.value

end Side

/-- Where the tokens that come out of some work are to go. -/
inductive Target where
  | job (n : Nat)
  | chunk (stream index : Nat)
  /-- In the place of one side of an attribute that is being expanded. -/
  | side (expansion index : Nat) (side : Side)
  | handle (h : Handle)
  /-- To the script that started the work. -/
  | callback (n : Nat)
deriving DecidableEq, Inhabited

/-- A call of a handler: the token and options it was called with, its position,
where the tokens go after all later handlers, and the first answer. -/
structure Invocation where
  token : Token
  options : Options
  position : Position
  target : Target
  answer : Option (Outcome (List Token))
deriving Inhabited

/-- A stream in progress: its tokens, the invocation whose answer they are unless
they come from elsewhere, what has come of each, and where it all goes. -/
structure Stream where
  tokens : List Token
  origin : Option Handle
  join : Join (List Token)
  target : Target
deriving DecidableEq, Inhabited

/-- What expanded attributes are for: a job, or the answer to an invocation that
was about their tag. -/
inductive Purpose where
  | job (n : Nat)
  | answer (token : Token) (h : Handle)
deriving DecidableEq, Inhabited

/-- An attribute list being expanded: the pairs it has, the two sides of each
pair, and the finished pairs. -/
structure Expansion where
  attributes : List (Attribute Token)
  options : Options
  purpose : Purpose
  sides : List (Join (Content Token))
  pairs : Join (Held (Attribute Token))
deriving DecidableEq, Inhabited

structure Callback (σ : Type) where
  frame : Frame
  script : Outcome (List Token) → Script σ
deriving Inhabited

inductive Task (σ : Type) where
  | offer (token : Token) (options : Options) (after : Option Position) (target : Target)
  /-- Offer each token of a stream, after the same position. -/
  | stream (tokens : List Token) (options : Options) (after : Option Position)
      (origin : Option Handle) (target : Target)
  | follow (frame : Frame) (script : Script σ)
  | deliver (target : Target) (result : Outcome (List Token))
  | expand (attributes : List (Attribute Token)) (options : Options) (purpose : Purpose)
  | expandPair (expansion index : Nat)
  | expandSide (expansion index : Nat) (side : Side)
  | settleSide (expansion index : Nat) (side : Side) (result : Outcome (Content Token))
  | settlePair (expansion index : Nat) (result : Outcome (Held (Attribute Token)))
  | finish (options : Options) (purpose : Purpose)
      (result : Outcome (List (Held (Attribute Token))))
deriving Inhabited

structure Session (σ : Type) where
  ids : IdSource
  options : Options
  memory : σ
  registry : Registry (Handler σ) := {}
  invocations : Array Invocation := #[]
  streams : Array Stream := #[]
  expansions : Array Expansion := #[]
  callbacks : Array (Callback σ) := #[]
  jobs : Nat := 0
  agenda : List (Task σ) := []
  events : Array Event := #[]
deriving Inhabited

namespace Session

variable {σ : Type}

def push (s : Session σ) (tasks : List (Task σ)) : Session σ :=
  { s with agenda := tasks ++ s.agenda }

def report (s : Session σ) (e : Event) : Session σ := { s with events := s.events.push e }

def register (s : Session σ) (name : String) (rank : Rank) (filter : Filter)
    (handler : Handler σ) : Session σ :=
  { s with registry := s.registry.register name rank filter handler }

def newObjectId (s : Session σ) : String × Session σ :=
  let (id, ids) := s.ids.newObjectId
  (id, { s with ids := ids })

def newAboutId (s : Session σ) : String × Session σ :=
  let (id, ids) := s.ids.newAboutId
  (id, { s with ids := ids })

@[simp] theorem agenda_push (s : Session σ) (tasks : List (Task σ)) :
    (s.push tasks).agenda = tasks ++ s.agenda := rfl

@[simp] theorem invocations_push (s : Session σ) (tasks : List (Task σ)) :
    (s.push tasks).invocations = s.invocations := rfl

@[simp] theorem events_report (s : Session σ) (e : Event) :
    (s.report e).events = s.events.push e := rfl

/-- The invocation has its answer.  A handle of another session counts as answered. -/
def isAnswered (s : Session σ) (h : Handle) : Bool :=
  match s.invocations[h.index]? with
  | some v => v.answer.isSome
  | none => true

end Session

end WikiExpansion
