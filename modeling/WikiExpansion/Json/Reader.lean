import WikiExpansion.Json.Basic
import WikiExpansion.Text.Reader

/-!
# Reading JSON

The grammar of RFC 8259.  Every value takes at least one character, so the length
of the text, here `size`, bounds its strings, its depth, and the number of values
in it.
-/

namespace WikiExpansion.Json

open Text Text.Reader

def skipSpace : Reader Unit := do
  let _ ← Reader.takeWhile fun c => c = ' ' || c = '\t' || c = '\n' || c = '\r'

def unit16 : Reader Nat := do
  let ds := [← next, ← next, ← next, ← next]
  if ds.all fun d => (hexValue? d).isSome then return digitsValue 16 ds else failure

/-- The character after a backslash and a `u`, which may take two such groups. -/
def unicodeEscape : Reader Char := do
  let n ← unit16
  if 0xD800 ≤ n ∧ n < 0xDC00 then
    word "\\u"
    let m ← unit16
    if 0xDC00 ≤ m ∧ m < 0xE000 then charOf? (0x10000 + (n - 0xD800) * 0x400 + (m - 0xDC00))
    else failure
  else charOf? n

def escape : Reader Char := do
  match ← next with
  | '\x22' => return '\x22'
  | '\\' => return '\\'
  | '/' => return '/'
  | 'b' => return '\x08'
  | 'f' => return '\x0c'
  | 'n' => return '\n'
  | 'r' => return '\r'
  | 't' => return '\t'
  | 'u' => unicodeEscape
  | _ => failure

/-- The rest of a string after `read`, last character first. -/
def stringFrom : Nat → List Char → Reader String
  | 0, _ => failure
  | fuel + 1, read => do
    match ← next with
    | '\x22' => return String.ofList read.reverse
    | '\\' => stringFrom fuel ((← escape) :: read)
    | c => if c.toNat < 32 then failure else stringFrom fuel (c :: read)

def digits : Reader (List Char) := do
  let ds ← Reader.takeWhile isDigit
  if ds.isEmpty then failure else return ds

def number : Reader Numeral := do
  let negative ← skip? '-'
  let whole ← digits
  if whole.head? = some '0' ∧ whole ≠ ['0'] then failure
  let fraction ← if ← skip? '.' then digits else pure []
  let hasPower ← do
    if ← skip? 'e' then pure true else skip? 'E'
  let power ← do
    if hasPower then
      let down ← skip? '-'
      if !down then let _ ← skip? '+'
      let n : Int := digitsValue 10 (← digits)
      pure (if down then -n else n)
    else pure 0
  let mantissa := digitsValue 10 (whole ++ fraction)
  if fraction.isEmpty && !hasPower && !(negative && mantissa == 0) then
    return .integer (if negative then -mantissa else mantissa)
  else return .decimal negative mantissa (power - fraction.length)

mutual

def value (size : Nat) : Nat → Reader Json
  | 0 => failure
  | fuel + 1 => do
    skipSpace
    match ← peek? with
    | some '\x22' =>
      let _ ← next
      return .str (← stringFrom size [])
    | some '[' =>
      let _ ← next
      skipSpace
      if ← skip? ']' then return .arr []
      return .arr (← items size fuel)
    | some '\x7b' =>
      let _ ← next
      skipSpace
      if ← skip? '\x7d' then return .obj []
      return .obj (← fields size fuel)
    | some 't' => word "true"; return .bool true
    | some 'f' => word "false"; return .bool false
    | some 'n' => word "null"; return .null
    | _ => return .num (← number)

def items (size : Nat) : Nat → Reader (List Json)
  | 0 => failure
  | fuel + 1 => do
    let v ← value size fuel
    skipSpace
    if ← skip? ']' then return [v]
    char ','
    return v :: (← items size fuel)

def fields (size : Nat) : Nat → Reader (List (String × Json))
  | 0 => failure
  | fuel + 1 => do
    skipSpace
    char '\x22'
    let k ← stringFrom size []
    skipSpace
    char ':'
    let v ← value size fuel
    skipSpace
    if ← skip? '\x7d' then return [(k, v)]
    char ','
    return (k, v) :: (← fields size fuel)

end

def parse? (s : String) : Option Json :=
  let cs := s.toList
  let size := cs.length
  Reader.parse? (do let v ← value size (2 * size + 2); skipSpace; return v) cs

end WikiExpansion.Json
