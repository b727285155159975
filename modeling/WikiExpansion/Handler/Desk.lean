import WikiExpansion.Session.Run

/-!
# The desk

What handlers put aside between tokens: tokens parked until somebody answers for
them, answers that are ready but held back, and which registrations have seen a
token before.
-/

namespace WikiExpansion

/-- A token put aside, the handle to answer it by, and the answer meant for it. -/
structure Parked where
  handle : Handle
  token : Token
  answer : Outcome (List Token)
deriving Inhabited

structure Desk where
  parked : List (String × Parked) := []
  held : List (String × Parked) := []
  /-- The registrations that have seen a token. -/
  started : List Nat := []
deriving Inhabited

namespace Desk

def park (d : Desk) (name : String) (p : Parked) : Desk :=
  { d with parked := d.parked ++ [(name, p)] }

/-- Holds an answer back under a name. -/
def hold (d : Desk) (name : String) (p : Parked) : Desk := { d with held := d.held ++ [(name, p)] }

def start (d : Desk) (number : Nat) : Desk :=
  if d.started.contains number then d else { d with started := number :: d.started }

def parkedBy (d : Desk) (name : String) : List Parked :=
  (d.parked.filter (·.1 == name)).map (·.2)

def heldBy (d : Desk) (name : String) : List Parked :=
  (d.held.filter (·.1 == name)).map (·.2)

def release (d : Desk) (name : String) : Desk :=
  { d with held := d.held.filter (·.1 != name) }

end Desk

namespace Session

/-- Gives the answers held back under a name, in order of arrival or the other
way round.  Answers held back from then on stay. -/
def flush (s : Session Desk) (name : String) (reversed : Bool) : Session Desk :=
  let held := s.memory.heldBy name
  let held := if reversed then held.reverse else held
  { s with memory := s.memory.release name }.push
    (held.map fun (p : Parked) => .deliver (.handle p.handle) p.answer)

/-- Answers for a token that was parked under a name: whether the answer counted,
if there is such a token.  It stays parked. -/
def unpark (s : Session Desk) (name : String) (index : Nat)
    (r : Option (Outcome (List Token))) : Option Bool × Session Desk :=
  match (s.memory.parkedBy name)[index]? with
  | none => (none, s)
  | some p =>
    let (first, s) := s.complete p.handle (r.getD p.answer)
    (some first, s)

end Session

end WikiExpansion
