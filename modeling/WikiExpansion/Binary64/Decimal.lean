import WikiExpansion.Binary64.Basic
import WikiExpansion.Text.Reader

/-!
# From decimal to binary

`ofDecimal` rounds `mantissa * 10 ^ exponent` to the nearest number, and to the
even one of two that are equally near.  All arithmetic is exact.

`parse?` reads the usual notation: a sign, digits with a point anywhere among
them, a power of ten, or a name for infinity and for what is not a number.
-/

namespace WikiExpansion.Binary64

/-- Rounds a quotient to the nearest integer, and a half to the even one. -/
def roundDiv (num den : Nat) : Nat :=
  let n := num / den
  let r := num % den
  if 2 * r < den then n else if den < 2 * r then n + 1 else n + n % 2

/-- The quotient of two numbers in units of `2 ^ q`, as a numerator and a
denominator. -/
def scaled (num den : Nat) (q : Int) : Nat × Nat :=
  if q < 0 then (num * Nat.pow 2 q.natAbs, den) else (num, den * Nat.pow 2 q.natAbs)

/-- The exponent that leaves 53 bits of a quotient, or fewer below the least. -/
def exponentFor (num den : Nat) : Int :=
  let q := max ((Nat.log2 num : Int) - Nat.log2 den - 53) (-1074)
  let (n, d) := scaled num den q
  if n / d < 2 * leadingWeight then q else q + 1

/-- The magnitude nearest to the quotient of two positive numbers.  A mantissa
that was rounded up to the next power of two carries into the exponent. -/
def nearestMagnitude (num den : Nat) : Nat :=
  let q := exponentFor num den
  let (n, d) := scaled num den q
  let m := roundDiv n d
  if m < leadingWeight then m
  else min ((q + 1074).toNat * leadingWeight + m) infinityMagnitude

def digitCount (n : Nat) : Nat := if n = 0 then 0 else (Nat.toDigits 10 n).length

/-- The number nearest to `mantissa * 10 ^ exponent`.  What has its first digit
far beyond either end is an infinity or a zero. -/
def ofDecimal (negative : Bool) (mantissa : Nat) (exponent : Int) : Binary64 :=
  let top := (digitCount mantissa : Int) + exponent
  if mantissa = 0 ∨ top < -330 then ofMagnitude negative 0
  else if 330 < top then infinity negative
  else
    ofMagnitude negative <|
      if exponent < 0 then nearestMagnitude mantissa (Nat.pow 10 exponent.natAbs)
      else nearestMagnitude (mantissa * Nat.pow 10 exponent.natAbs) 1

def ofInt (i : Int) : Binary64 := ofDecimal (i < 0) i.natAbs 0

open Text Text.Reader

def power : Reader Int := do
  let some c ← peek? | return 0
  if c = 'e' || c = 'E' then
    let _ ← next
    let down ← skip? '-'
    if !down then let _ ← skip? '+'
    let ds ← Reader.takeWhile isDigit
    if ds.isEmpty then failure
    let n : Int := digitsValue 10 ds
    return if down then -n else n
  else return 0

def magnitudeText (negative : Bool) : Reader Binary64 := do
  let whole ← Reader.takeWhile isDigit
  let fraction ← if ← skip? '.' then Reader.takeWhile isDigit else pure []
  if whole.isEmpty && fraction.isEmpty then failure
  let p ← power
  return ofDecimal negative (digitsValue 10 (whole ++ fraction)) (p - fraction.length)

def named (negative : Bool) (name : String) : Option Binary64 :=
  if name = "inf" ∨ name = "infinity" then some (infinity negative)
  else if name = "nan" then some (notANumber negative)
  else none

def numberText : Reader Binary64 := do
  let negative ← skip? '-'
  if !negative then let _ ← skip? '+'
  match named negative (String.ofList ((← rest).map Char.toLower)) with
  | some x => set ([] : List Char); return x
  | none => magnitudeText negative

def parse? (s : String) : Option Binary64 := Reader.parse? numberText s.toList

example : ofDecimal false 11 (-1) = ⟨0x3ff199999999999a⟩ := by decide +kernel
example : ofDecimal false 5 (-324) = ⟨1⟩ := by decide +kernel
example : ofDecimal false 17976931348623157 292 = ⟨0x7fefffffffffffff⟩ := by decide +kernel
example : ofDecimal true 1 400 = infinity true := by decide +kernel

end WikiExpansion.Binary64
