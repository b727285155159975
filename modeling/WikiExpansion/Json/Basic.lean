/-!
# JSON values

The fields of an object keep their order, and a number keeps the form it was
written in.  A field whose value is `null` counts as absent.
-/

namespace WikiExpansion

/-- A number as written: an integer, or a decimal fraction or power of ten, which
may be a negative zero. -/
inductive Numeral where
  | integer (i : Int)
  | decimal (negative : Bool) (mantissa : Nat) (exponent : Int)
deriving DecidableEq, Inhabited

inductive Json where
  | null
  | bool (b : Bool)
  | num (n : Numeral)
  | str (s : String)
  | arr (items : List Json)
  | obj (fields : List (String × Json))
deriving Inhabited

namespace Json

def lookup (k : String) : List (String × Json) → Option Json
  | [] => none
  | (k', v) :: fs => if k' = k then some v else lookup k fs

def isNull : Json → Bool
  | null => true
  | _ => false

/-- The field `k` of an object, where it is there and is not `null`. -/
def field? (k : String) : Json → Option Json
  | obj fs => (lookup k fs).filter (!·.isNull)
  | _ => none

def text? : Json → Option String
  | str s => some s
  | _ => none

def nat? : Json → Option Nat
  | num (.integer (.ofNat n)) => some n
  | _ => none

def bool? : Json → Option Bool
  | bool b => some b
  | _ => none

def items? : Json → Option (List Json)
  | arr js => some js
  | _ => none

def ofNat (n : Nat) : Json := num (.integer n)

theorem sizeOf_lookup {k : String} {v : Json} {fs : List (String × Json)}
    (h : lookup k fs = some v) : sizeOf v < sizeOf fs := by
  induction fs with
  | nil => simp [lookup] at h
  | cons f fs ih =>
    obtain ⟨k', w⟩ := f
    rw [lookup] at h
    split at h
    · cases h
      simp only [List.cons.sizeOf_spec, Prod.mk.sizeOf_spec]
      omega
    · have := ih h
      simp only [List.cons.sizeOf_spec]
      omega

theorem sizeOf_field? {k : String} {j v : Json} (h : j.field? k = some v) :
    sizeOf v < sizeOf j := by
  cases j with
  | obj fs =>
    have := sizeOf_lookup (Option.filter_eq_some_iff.1 h).1
    simp only [obj.sizeOf_spec]
    omega
  | _ => exact absurd h nofun

end Json

end WikiExpansion
