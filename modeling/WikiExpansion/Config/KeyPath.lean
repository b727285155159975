import WikiExpansion.Config.Value
import WikiExpansion.Text.Reader

/-!
# Key paths

A path leads through a tree of values: a key, then keys after points and indices
in brackets.  A negative index counts from the end.  Whatever stands in the way
of the path is replaced by a table or an array, and arrays are filled up with
null on the side on which the index lies outside.
-/

namespace WikiExpansion.Config

inductive Step where
  | key (k : String)
  | index (i : Int)
deriving DecidableEq, Inhabited

structure KeyPath where
  first : String
  steps : List Step
deriving DecidableEq, Inhabited

namespace Step

/-- The place that an index means in an array of `n` items, once it is filled up. -/
def place (i : Int) (n : Nat) : Nat := if i < 0 then n - i.natAbs else i.natAbs

/-- The items, with as many nulls in front of them or behind them as the index needs. -/
def fillUp (vs : List Value) (i : Int) : List Value :=
  if i < 0 then List.replicate (i.natAbs - vs.length) .null ++ vs
  else vs ++ List.replicate (i.natAbs + 1 - vs.length) .null

def update (f : Value → Value) (root : Value) : Step → Value
  | key k =>
    let k := Text.lower k
    .table (Toml.put k (f ((root.entries.lookup k).getD .null)) root.entries)
  | index i =>
    .array ((fillUp root.items i).modify (place i root.items.length) f)

/-- Puts a value where a step leads: into what a key holds, or over what is at an
index. -/
def set (v root : Value) : Step → Value
  | key k => Value.setKey k v root
  | index i => update (fun _ => v) root (index i)

end Step

def setSteps (v : Value) : Step → List Step → Value → Value
  | s, [], root => s.set v root
  | s, t :: ts, root => s.update (setSteps v t ts) root

namespace KeyPath

def set (p : KeyPath) (v root : Value) : Value := setSteps v (.key p.first) p.steps root

open Text Text.Reader

/-- May stand in a key of a path: also a space. -/
def isKeyChar (c : Char) : Bool := c.isAlphanum || c = '_' || c = '-' || c = ' '

def keyText : Reader String := do
  let cs ← Reader.takeWhile isKeyChar
  if cs.isEmpty then failure else return String.ofList cs

def skipBlank : Reader Unit := do
  let _ ← Reader.takeWhile fun c => c = ' ' || c = '\t'

/-- An index of 64 bits, with a minus or without. -/
def indexText : Reader Int := do
  skipBlank
  let negative ← skip? '-'
  let ds ← Reader.takeWhile isDigit
  if ds.isEmpty then failure
  skipBlank
  let n : Int := digitsValue 10 ds
  let i := if negative then -n else n
  if fitsWord i then return i else failure

def stepsFrom : Nat → Reader (List Step)
  | 0 => failure
  | fuel + 1 => do
    if ← atEnd then return []
    else if ← skip? '.' then
      let k ← keyText
      return .key k :: (← stepsFrom fuel)
    else
      char '['
      let i ← indexText
      char ']'
      return .index i :: (← stepsFrom fuel)

def parse? (s : String) : Option KeyPath :=
  let cs := s.toList
  let path : Reader KeyPath := do
    let first ← keyText
    return ⟨first, ← stepsFrom (cs.length + 1)⟩
  path.parse? cs

end KeyPath

end WikiExpansion.Config
