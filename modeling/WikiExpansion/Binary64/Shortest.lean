import WikiExpansion.Binary64.Decimal

/-!
# The shortest decimal of a number

Of the decimals that read back as a number, `shortest` takes one with the fewest
digits, of those the nearest, and of two that are equally near the larger.  Writing
keeps to positional notation, however many zeros it takes, and writes no point where
there is no fraction.
-/

namespace WikiExpansion.Binary64

structure Decimal where
  digits : Nat
  exponent : Int
deriving DecidableEq, Inhabited

/-- A positive quotient in units of `10 ^ k`, as a numerator and a denominator. -/
def inUnits (num den : Nat) (k : Int) : Nat × Nat :=
  if k < 0 then (num * Nat.pow 10 k.natAbs, den) else (num, den * Nat.pow 10 k.natAbs)

def leadingPower (num den : Nat) : Int :=
  if den ≤ num then (digitCount (num / den) : Int) - 1 else -(digitCount ((den - 1) / num))

/-- The reals that round to a positive finite number, as two quotients over one
denominator.  The gap below a power of two is half as wide. -/
structure Interval where
  low : Nat
  value : Nat
  high : Nat
  den : Nat
  closed : Bool

def interval (x : Binary64) : Interval :=
  let m := x.mantissa
  let below := if m = leadingWeight ∧ -1074 < x.exponent then 1 else 2
  let (num, den) := scaled 1 1 (2 - x.exponent)
  ⟨(4 * m - below) * num, 4 * m * num, (4 * m + 2) * num, den, m % 2 == 0⟩

def Interval.holds (i : Interval) (c : Nat) (k : Int) : Bool :=
  let (cn, cd) := if k < 0 then (c, Nat.pow 10 k.natAbs) else (c * Nat.pow 10 k.natAbs, 1)
  let n := cn * i.den
  let low := i.low * cd
  let high := i.high * cd
  if i.closed then decide (low ≤ n ∧ n ≤ high) else decide (low < n ∧ n < high)

/-- The nearest decimal in units of `10 ^ k` that lies in the interval, if one of
the two neighbours of the number does.  A tie goes to the larger one. -/
def Interval.nearest? (i : Interval) (k : Int) : Option Nat :=
  let (n, d) := inUnits i.value i.den k
  let c := n / d
  match i.holds c k, i.holds (c + 1) k with
  | true, true => some (if 2 * (n % d) < d then c else c + 1)
  | true, false => some c
  | false, true => some (c + 1)
  | false, false => none

/-- The shortest decimal of a positive finite number.  A power of ten above its
first digit is tried before any digits, and seventeen digits suffice for every
number. -/
def shortest (x : Binary64) : Decimal :=
  let i := x.interval
  let p := leadingPower i.value i.den
  let candidate (n : Nat) : Option Decimal :=
    (i.nearest? (p + 1 - n)).map fun c => ⟨c, p + 1 - n⟩
  ((List.range 18).findSome? candidate).getD ⟨0, 0⟩

def Decimal.toText (d : Decimal) : String :=
  let ds := Nat.toDigits 10 d.digits
  if 0 ≤ d.exponent then String.ofList (ds ++ List.replicate d.exponent.natAbs '0')
  else
    let places := d.exponent.natAbs
    let ds := List.replicate (places + 1 - ds.length) '0' ++ ds
    let whole := ds.length - places
    String.ofList (ds.take whole) ++ "." ++ String.ofList (ds.drop whole)

def toText (x : Binary64) : String :=
  if x.isNotANumber then "NaN"
  else
    (if x.isNegative then "-" else "") ++
      if x.isInfinite then "inf" else if x.isZero then "0" else x.shortest.toText

/-- The text of a number, with a point in it also where there is no fraction. -/
def toPointedText (x : Binary64) : String :=
  let s := x.toText
  if x.isNotANumber || x.isInfinite || s.toList.contains '.' then s else s ++ ".0"

example : toText ⟨0x3fb999999999999a⟩ = "0.1" := by decide +kernel
example : toText ⟨0x3e7ad7f29abcaf48⟩ = "0.0000001" := by decide +kernel
example : toText ⟨0x3e60000000000000⟩ = "0.000000029802322387695313" := by decide +kernel
example : toText ⟨0x44b52d02c7e14af6⟩ = "100000000000000000000000" := by decide +kernel
example : toPointedText ⟨0xc000000000000000⟩ = "-2.0" := by decide +kernel

end WikiExpansion.Binary64
