/-!
# Reading text

A reader takes characters from the front of a text.  It succeeds with a value and
leaves the rest, or fails.
-/

namespace WikiExpansion.Text

abbrev Reader (α : Type) : Type := StateT (List Char) Option α

namespace Reader

def rest : Reader (List Char) := get

def peek? : Reader (Option Char) := return (← get).head?

def next : Reader Char := do
  match ← get with
  | c :: cs => set cs; return c
  | [] => failure

/-- Takes the next character if it is `c`, and says whether it was. -/
def skip? (c : Char) : Reader Bool := do
  match ← get with
  | d :: cs => if d = c then set cs; return true else return false
  | [] => return false

def char (c : Char) : Reader Unit := do
  if ← skip? c then return () else failure

/-- Takes the characters of `w` if they come next, and says whether they did. -/
def word? (w : String) : Reader Bool := do
  let cs ← get
  if w.toList.isPrefixOf cs then
    set (cs.drop w.toList.length)
    return true
  else return false

def word (w : String) : Reader Unit := do
  if ← word? w then return () else failure

def takeWhile (p : Char → Bool) : Reader (List Char) := do
  let cs ← get
  set (cs.dropWhile p)
  return cs.takeWhile p

def atEnd : Reader Bool := return (← get).isEmpty

def parse? {α : Type} (r : Reader α) (s : List Char) : Option α :=
  match r.run s with
  | some (a, []) => some a
  | _ => none

end Reader

def hexValue? (c : Char) : Option Nat :=
  if '0' ≤ c ∧ c ≤ '9' then some (c.toNat - 48)
  else if 'a' ≤ c ∧ c ≤ 'f' then some (c.toNat - 87)
  else if 'A' ≤ c ∧ c ≤ 'F' then some (c.toNat - 55)
  else none

/-- The number that digits stand for in a base, with the digits read before. -/
def digitsValue (base : Nat) (ds : List Char) : Nat :=
  ds.foldl (fun n d => base * n + (hexValue? d).getD 0) 0

def fitsWord (i : Int) : Bool := decide (-0x8000000000000000 ≤ i ∧ i < 0x8000000000000000)

def isDigit (c : Char) : Bool := decide ('0' ≤ c ∧ c ≤ '9')

/-- The character with a code point, unless it is a surrogate or too large. -/
def charOf? (n : Nat) : Option Char :=
  if h : n.isValidChar then some (Char.ofNatAux n h) else none

end WikiExpansion.Text
