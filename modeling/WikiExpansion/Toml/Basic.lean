import WikiExpansion.Binary64.Basic

/-!
# TOML documents

The values of a document, and the tables that are built up while its lines are
read.  A table remembers how it came about, because that decides what may still
be added to it: one that only appeared on the way to another may be given a
header later, one that dotted keys made may only be extended by dotted keys, and
one that was written as a value is closed.
-/

namespace WikiExpansion.Toml

structure Date where
  year : Nat
  month : Nat
  day : Nat
deriving DecidableEq, Inhabited

structure Time where
  hour : Nat
  minute : Nat
  second : Nat
  nanosecond : Nat
deriving DecidableEq, Inhabited

/-- A distance from universal time: none at all, or minutes to the east. -/
inductive Zone where
  | utc
  | minutes (n : Int)
deriving DecidableEq, Inhabited

structure Datetime where
  date : Option Date
  time : Option Time
  zone : Option Zone
deriving DecidableEq, Inhabited

inductive Value where
  | string (s : String)
  | integer (i : Int)
  | float (x : Binary64)
  | boolean (b : Bool)
  | datetime (d : Datetime)
  | array (items : List Value)
  | table (entries : List (String × Value))
deriving Inhabited

structure Node (ι : Type) where
  /-- The table appeared only as a part of the name of another one. -/
  implicit : Bool := false
  /-- The table appeared as a part of a dotted key. -/
  dotted : Bool := false
  entries : List (String × ι) := []
deriving Inhabited

/-- What an entry holds: a value, a table, or the tables of an array of tables,
the latest one last. -/
inductive Item where
  | value (v : Value)
  | table (t : Node Item)
  | tables (ts : List (Node Item))
deriving Inhabited

def put {α : Type} (k : String) (v : α) : List (String × α) → List (String × α)
  | [] => [(k, v)]
  | (k', w) :: es => if k' = k then (k, v) :: es else (k', w) :: put k v es

namespace Node

/-- Changes the table at the end of a path, with new tables where there are none.
The way leads through the latest table of an array of tables.  Dotted keys do not
lead into tables with a header, and nothing leads into a value. -/
def descend (dotted : Bool) (f : Node Item → Option (Node Item)) :
    List String → Node Item → Option (Node Item)
  | [], t => f t
  | k :: ks, t =>
    match t.entries.lookup k with
    | none => do
      let child ← descend dotted f ks { implicit := true, dotted := dotted }
      return { t with entries := put k (.table child) t.entries }
    | some (.value _) => none
    | some (.table child) =>
      if dotted && !child.implicit then none
      else do
        let child ← descend dotted f ks child
        return { t with entries := put k (.table child) t.entries }
    | some (.tables ts) => do
      let child ← descend dotted f ks (← ts.getLast?)
      return { t with entries := put k (.tables (ts.dropLast ++ [child])) t.entries }

/-- Adds a value under a dotted key.  No key is given twice, and a table that was
not made by dotted keys is not extended by them. -/
def insert (path : List String) (k : String) (v : Value) : Node Item → Option (Node Item) :=
  descend true (fun t =>
    if t.dotted == path.isEmpty || (t.entries.lookup k).isSome then none
    else some { t with entries := t.entries ++ [(k, .value v)] }) path

/-- Opens the table of a header, which may have appeared before but not as one.
It counts as an entry from here on, behind the others. -/
def openTable (path : List String) (k : String) : Node Item → Option (Node Item) :=
  descend false (fun t =>
    match t.entries.lookup k with
    | none => some { t with entries := t.entries ++ [(k, .table {})] }
    | some (.table child) =>
      if child.implicit && !child.dotted then
        some { t with
          entries := t.entries.filter (·.1 ≠ k) ++ [(k, .table { child with implicit := false })] }
      else none
    | some _ => none) path

def openElement (path : List String) (k : String) : Node Item → Option (Node Item) :=
  descend false (fun t =>
    match t.entries.lookup k with
    | none => some { t with entries := t.entries ++ [(k, .tables [{}])] }
    | some (.tables ts) => some { t with entries := put k (.tables (ts ++ [{}])) t.entries }
    | some _ => none) path

end Node

mutual

def Item.toValue : Item → Value
  | .value v => v
  | .table t => .table t.toEntries
  | .tables ts => .array (Node.toValues ts)
termination_by structural i => i

def Node.toEntries : Node Item → List (String × Value)
  | ⟨_, _, entries⟩ => Item.toEntryList entries
termination_by structural t => t

def Item.toEntryList : List (String × Item) → List (String × Value)
  | [] => []
  | e :: es => Item.toEntry e :: Item.toEntryList es
termination_by structural es => es

def Item.toEntry : String × Item → String × Value
  | (k, i) => (k, i.toValue)
termination_by structural e => e

def Node.toValues : List (Node Item) → List Value
  | [] => []
  | t :: ts => .table t.toEntries :: Node.toValues ts
termination_by structural ts => ts

end

/-! ### Dates and times as text -/

def padded (width n : Nat) : String :=
  let ds := Nat.toDigits 10 n
  String.ofList (List.replicate (width - ds.length) '0' ++ ds)

def Date.toText (d : Date) : String :=
  padded 4 d.year ++ "-" ++ padded 2 d.month ++ "-" ++ padded 2 d.day

/-- A fraction of a second is written without the zeros at its end. -/
def Time.toText (t : Time) : String :=
  padded 2 t.hour ++ ":" ++ padded 2 t.minute ++ ":" ++ padded 2 t.second ++
    if t.nanosecond = 0 then ""
    else
      let ds := (padded 9 t.nanosecond).toList
      "." ++ String.ofList (ds.reverse.dropWhile (· = '0')).reverse

def Zone.toText : Zone → String
  | .utc => "Z"
  | .minutes n =>
    (if n < 0 then "-" else "+") ++ padded 2 (n.natAbs / 60) ++ ":" ++ padded 2 (n.natAbs % 60)

def Datetime.toText (d : Datetime) : String :=
  let date := (d.date.map Date.toText).getD ""
  let time := (d.time.map Time.toText).getD ""
  let zone := (d.zone.map Zone.toText).getD ""
  date ++ (if d.date.isSome && d.time.isSome then "T" else "") ++ time ++ zone

end WikiExpansion.Toml
