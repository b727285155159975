import WikiExpansion.Toml.Reader

/-!
# The content of a TOML document

A table whose first key is `datetimeKey` stands for a date or a time, which is the
text under that key, in the notation of a date or time that is written as such.
What else the table holds is not looked at, and a document in which such a table
does not stand for one has a fault.
-/

namespace WikiExpansion.Toml

open Text

def datetimeKey : String := "$__toml_private_datetime"

def Value.datetime? : Value → Option Value
  | .string s => (Toml.datetime.parse? s.toList).map .datetime
  | _ => none

mutual

/-- A value with dates and times in place of the tables that stand for them. -/
def Value.resolve? : Value → Option Value
  | .string s => some (.string s)
  | .integer i => some (.integer i)
  | .float x => some (.float x)
  | .boolean b => some (.boolean b)
  | .datetime d => some (.datetime d)
  | .array vs => (Value.resolveList? vs).map .array
  | .table es => Value.resolveTable? es
termination_by structural v => v

def Value.resolveList? : List Value → Option (List Value)
  | [] => some []
  | v :: vs => do return (← v.resolve?) :: (← Value.resolveList? vs)
termination_by structural vs => vs

def Value.resolveTable? : List (String × Value) → Option Value
  | [] => some (.table [])
  | e :: es =>
    if e.1 = datetimeKey then e.2.datetime?
    else do return .table ((← Value.resolveEntry? e) :: (← Value.resolveEntries? es))
termination_by structural es => es

def Value.resolveEntries? : List (String × Value) → Option (List (String × Value))
  | [] => some []
  | e :: es => do return (← Value.resolveEntry? e) :: (← Value.resolveEntries? es)
termination_by structural es => es

def Value.resolveEntry? : String × Value → Option (String × Value)
  | (k, v) => do return (k, ← v.resolve?)
termination_by structural e => e

end

/-- The entries of a document, which stands for no date or time itself. -/
def parse? (s : String) : Option (List (String × Value)) := do
  match ← Value.resolve? (.table (← entries? s)) with
  | .table es => return es
  | _ => failure

end WikiExpansion.Toml
