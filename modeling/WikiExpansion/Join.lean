import WikiExpansion.Error
import WikiExpansion.Gate

/-!
# Joins

A join waits for one value in each of its slots and delivers them in slot order,
whatever the order in which they came.  A failure is delivered at once.  A join
delivers one thing only: what comes after that, a second value for a slot, and a
value for a slot that is not there are ignored.
-/

namespace WikiExpansion

/-- The values that have come so far, how many are still to come, and whether the
join has delivered. -/
structure Join (α : Type) where
  slots : List (Option α)
  remaining : Nat
  delivered : Bool
deriving DecidableEq, Inhabited

namespace Join

variable {α : Type}

def new (n : Nat) : Join α := ⟨List.replicate n none, n, n == 0⟩

/-- What a new join of `n` slots delivers at once. -/
def atOnce (n : Nat) : Option (Outcome (List α)) := if n = 0 then some (.ok []) else none

def isEmptyAt (j : Join α) (i : Nat) : Bool := (j.slots[i]?).any Option.isNone

/-- Gives a result to slot `i`: the join after it, and what it delivers. -/
def fill (j : Join α) (i : Nat) (r : Outcome α) : Join α × Option (Outcome (List α)) :=
  if j.delivered then (j, none)
  else
    match r with
    | .error e => ({ j with delivered := true }, some (.error e))
    | .ok v =>
      if j.isEmptyAt i then
        let slots := j.slots.set i (some v)
        if j.remaining = 1 then (⟨slots, 0, true⟩, some (.ok (slots.filterMap id)))
        else (⟨slots, j.remaining - 1, false⟩, none)
      else (j, none)

@[simp] theorem length_slots_new (n : Nat) : (new n : Join α).slots.length = n := by
  simp [new]

theorem fill_of_delivered {j : Join α} (h : j.delivered = true) (i : Nat) (r : Outcome α) :
    j.fill i r = (j, none) := by
  simp [fill, h]

@[simp] theorem length_slots_fill (j : Join α) (i : Nat) (r : Outcome α) :
    (j.fill i r).1.slots.length = j.slots.length := by
  unfold fill
  split
  · rfl
  · split
    · rfl
    · split
      · split <;> simp
      · rfl

end Join

/-- A join and the gate of the continuation it delivers to, through which others
may go as well. -/
structure GatedJoin (α : Type) where
  join : Join α
  gate : Gate
deriving DecidableEq, Inhabited

namespace GatedJoin

variable {α : Type}

/-- What can happen to a gated join: a slot gets a result, or the continuation is
called with a failure from elsewhere. -/
inductive Event (α : Type) where
  | fill (slot : Nat) (r : Outcome α)
  | cancel (e : ExpansionError)

def new (n : Nat) : GatedJoin α × List (Outcome (List α)) :=
  match Join.atOnce n with
  | some r => (⟨.new n, ⟨true⟩⟩, [r])
  | none => (⟨.new n, ⟨false⟩⟩, [])

def call (g : GatedJoin α) (r : Outcome (List α)) : GatedJoin α × List (Outcome (List α)) :=
  let (first, gate) := g.gate.pass
  ({ g with gate := gate }, if first then [r] else [])

def apply (g : GatedJoin α) : Event α → GatedJoin α × List (Outcome (List α))
  | .fill i r =>
    match g.join.fill i r with
    | (join, some delivered) => call { g with join := join } delivered
    | (join, none) => ({ g with join := join }, [])
  | .cancel e => g.call (.error e)

def applyAll (g : GatedJoin α) : List (Event α) → GatedJoin α × List (Outcome (List α))
  | [] => (g, [])
  | e :: es =>
    let (g, calls) := g.apply e
    let (g, later) := applyAll g es
    (g, calls ++ later)

/-- An event and its calls where the continuation causes events itself, before it returns. -/
def applyInside (inside : Outcome (List α) → List (Event α)) (g : GatedJoin α) (e : Event α) :
    GatedJoin α × List (Outcome (List α)) :=
  let (g, calls) := g.apply e
  let (g, later) := g.applyAll (calls.flatMap inside)
  (g, calls ++ later)

end GatedJoin

end WikiExpansion
