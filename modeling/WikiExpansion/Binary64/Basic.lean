/-!
# Binary floating point numbers of 64 bits

A number is kept as its bits: a sign, eleven bits of exponent and 52 of fraction.
A finite number is `m * 2 ^ q` for the mantissa `m` and the exponent `q` that
`mantissa` and `exponent` read off.

`key` is the total order of IEEE 754: negative values that are not numbers, then
the numbers with -0 before +0, then the positive ones.  It tells all bit patterns
apart.
-/

namespace WikiExpansion

structure Binary64 where
  bits : UInt64
deriving DecidableEq, Inhabited

namespace Binary64

def signWeight : Nat := 0x8000000000000000

/-- The weight of the bit above the fraction: what a mantissa has at least, unless
the number is too small. -/
def leadingWeight : Nat := 0x10000000000000

/-- The number in the total order: bits with the sign clear count up from zero,
and those with the sign set count down from minus one. -/
def key (x : Binary64) : Int :=
  let n := x.bits.toNat
  if n < signWeight then n else signWeight - 1 - n

theorem key_injective {x y : Binary64} (h : x.key = y.key) : x = y := by
  have hx := x.bits.toNat_lt
  have hy := y.bits.toNat_lt
  have hbits : x.bits.toNat = y.bits.toNat := by
    unfold key signWeight at h
    by_cases hx' : x.bits.toNat < 0x8000000000000000 <;>
      by_cases hy' : y.bits.toNat < 0x8000000000000000 <;>
      simp only [hx', hy', if_true, if_false] at h <;> omega
  cases x
  cases y
  exact congrArg Binary64.mk (UInt64.toNat_inj.1 hbits)

def isNegative (x : Binary64) : Bool := decide (signWeight ≤ x.bits.toNat)

def magnitude (x : Binary64) : Nat := x.bits.toNat % signWeight

/-- The magnitude of the infinities; what is above it is not a number. -/
def infinityMagnitude : Nat := 0x7ff0000000000000

def ofMagnitude (negative : Bool) (n : Nat) : Binary64 :=
  ⟨UInt64.ofNat (if negative then signWeight + n else n)⟩

def infinity (negative : Bool) : Binary64 := ofMagnitude negative infinityMagnitude

def notANumber (negative : Bool) : Binary64 := ofMagnitude negative 0x7ff8000000000000

def zero : Binary64 := ⟨0⟩

def one : Binary64 := ⟨0x3ff0000000000000⟩

def isZero (x : Binary64) : Bool := x.magnitude == 0

def isInfinite (x : Binary64) : Bool := x.magnitude == infinityMagnitude

def isNotANumber (x : Binary64) : Bool := decide (infinityMagnitude < x.magnitude)

def mantissa (x : Binary64) : Nat :=
  let f := x.magnitude % leadingWeight
  if x.magnitude < leadingWeight then f else leadingWeight + f

def exponent (x : Binary64) : Int :=
  if x.magnitude < leadingWeight then -1074 else (x.magnitude / leadingWeight : Nat) - 1075

end Binary64

end WikiExpansion
