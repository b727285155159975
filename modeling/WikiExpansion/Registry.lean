import WikiExpansion.Rank
import WikiExpansion.Token.Basic

/-!
# The registry of handlers

Handlers are kept in the order in which they see a token: by rank, and in the
order of registration where ranks are equal.  A token that a handler has seen
goes on to the handlers after that one's position, and a position stays valid
however many handlers are registered later.
-/

namespace WikiExpansion

inductive Filter where
  | any
  | only (k : Kind)
deriving DecidableEq, Inhabited

def Filter.accepts : Filter → Kind → Bool
  | any, _ => true
  | only k, k' => k == k'

structure Registration (η : Type) where
  name : String
  position : Position
  filter : Filter
  handler : η
deriving Inhabited

/-- The registered handlers in order, and the number of the next registration. -/
structure Registry (η : Type) where
  entries : List (Registration η) := []
  next : Nat := 0
deriving Inhabited

namespace Registry

variable {η : Type}

/-- Puts a registration before the first one of a greater rank. -/
def insert (r : Registration η) : List (Registration η) → List (Registration η)
  | [] => [r]
  | e :: es =>
    if r.position.rank.key < e.position.rank.key then r :: e :: es else e :: insert r es

theorem perm_insert (r : Registration η) (es : List (Registration η)) :
    (insert r es).Perm (r :: es) := by
  induction es with
  | nil => exact List.Perm.refl _
  | cons e es ih =>
    rw [insert]
    split
    · exact List.Perm.refl _
    · exact (ih.cons e).trans (List.Perm.swap r e es)

theorem mem_insert {r e : Registration η} {es : List (Registration η)} :
    e ∈ insert r es ↔ e = r ∨ e ∈ es := by
  rw [(perm_insert r es).mem_iff, List.mem_cons]

def register (g : Registry η) (name : String) (rank : Rank) (filter : Filter) (handler : η) :
    Registry η :=
  ⟨insert ⟨name, ⟨rank, g.next⟩, filter, handler⟩ g.entries, g.next + 1⟩

def names (g : Registry η) : List String := g.entries.map (·.name)

/-- The registration comes after a position; every one does if there is none. -/
def comesAfter (r : Registration η) : Option Position → Bool
  | none => true
  | some p => decide (p.Before r.position)

/-- The first handler after a position that wants to see a token of the kind. -/
def next? (g : Registry η) (after : Option Position) (k : Kind) : Option (Registration η) :=
  g.entries.find? fun r => comesAfter r after && r.filter.accepts k

end Registry

end WikiExpansion
