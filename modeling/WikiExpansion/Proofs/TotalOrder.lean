import Mathlib.Algebra.Order.Field.Rat
import Mathlib.Algebra.Order.Field.Power
import Mathlib.Tactic.Linarith
import Mathlib.Tactic.Ring
import WikiExpansion.Binary64.Basic

/-!
# The total order of binary floating point numbers

`TotalLess` is the order of IEEE 754 that leaves no two bit patterns apart: the numbers
and the infinities stand by what they are, the negative zero before the positive one,
and what is not a number stands before or after all of them by its sign.  Two of those
with one sign stand by their bits, which put the signalling ones closer to the numbers
than the quiet ones and tell payloads apart.

`totalLess_iff` says that the keys stand in this order.  It rests on that a greater
magnitude means a greater number (`unsigned_lt_iff`).
-/

namespace WikiExpansion.Binary64

def unsigned (x : Binary64) : ℚ := x.mantissa * 2 ^ x.exponent

def value (x : Binary64) : ℚ := if x.isNegative then -x.unsigned else x.unsigned

def IsFinite (x : Binary64) : Prop := x.magnitude < infinityMagnitude

/-- The order of the numbers and the two infinities. -/
inductive NumberLess (x y : Binary64) : Prop
  | finite : x.IsFinite → y.IsFinite → x.value < y.value → NumberLess x y
  | infinityFirst : x.isInfinite = true → x.isNegative = true → y.isNotANumber = false →
      ¬ (y.isInfinite = true ∧ y.isNegative = true) → NumberLess x y
  | infinityLast : y.isInfinite = true → y.isNegative = false → x.isNotANumber = false →
      ¬ (x.isInfinite = true ∧ x.isNegative = false) → NumberLess x y

/-- `x` stands before `y` in the total order of IEEE 754. -/
inductive TotalLess (x y : Binary64) : Prop
  | number : x.NumberLess y → TotalLess x y
  | zero : x.isZero = true → y.isZero = true → x.isNegative = true → y.isNegative = false →
      TotalLess x y
  /-- What is not a number stands before all numbers if it has the sign. -/
  | before : x.isNotANumber = true → x.isNegative = true → y.isNotANumber = false → TotalLess x y
  | after : x.isNotANumber = false → y.isNotANumber = true → y.isNegative = false → TotalLess x y
  | signs : x.isNotANumber = true → y.isNotANumber = true → x.isNegative = true →
      y.isNegative = false → TotalLess x y
  | negative : x.isNotANumber = true → y.isNotANumber = true → x.isNegative = true →
      y.isNegative = true → y.magnitude < x.magnitude → TotalLess x y
  | positive : x.isNotANumber = true → y.isNotANumber = true → x.isNegative = false →
      y.isNegative = false → x.magnitude < y.magnitude → TotalLess x y

variable {x y : Binary64}

/-! ### Magnitudes and numbers -/

def unsignedOf (n : Nat) : ℚ :=
  if n < leadingWeight then n * 2 ^ (-1074 : Int)
  else (leadingWeight + n % leadingWeight : Nat) * 2 ^ ((n / leadingWeight : Nat) - 1075 : Int)

theorem unsigned_eq (x : Binary64) : x.unsigned = unsignedOf x.magnitude := by
  unfold unsigned mantissa exponent unsignedOf
  split
  · rename_i h
    rw [Nat.mod_eq_of_lt h]
  · rfl

/-- The next magnitude is that of a greater number: it has a greater mantissa, or twice
the power of two. -/
theorem unsignedOf_lt_succ (n : Nat) : unsignedOf n < unsignedOf (n + 1) := by
  have scaled {a b : Nat} (h : a < b) (q : Int) : (a : ℚ) * 2 ^ q < b * 2 ^ q :=
    mul_lt_mul_of_pos_right (by exact_mod_cast h) (zpow_pos (by norm_num) q)
  unfold unsignedOf
  by_cases hsmall : n < leadingWeight
  · rw [if_pos hsmall]
    by_cases hnext : n + 1 < leadingWeight
    · rw [if_pos hnext]
      exact scaled (Nat.lt_succ_self n) _
    · have hweight : n + 1 = leadingWeight := by omega
      rw [if_neg hnext, hweight, Nat.mod_self, Nat.div_self (by decide), Nat.add_zero]
      exact scaled (by omega) (-1074)
  · rw [if_neg hsmall, if_neg (by omega)]
    by_cases hlast : n % leadingWeight + 1 = leadingWeight
    · have hdiv : (n + 1) / leadingWeight = n / leadingWeight + 1 := by
        unfold leadingWeight at *
        omega
      have hmod : (n + 1) % leadingWeight = 0 := by
        unfold leadingWeight at *
        omega
      have hpower : ((n / leadingWeight + 1 : Nat) - 1075 : Int) =
          (n / leadingWeight : Nat) - 1075 + 1 := by
        push_cast
        ring
      rw [hdiv, hmod, hpower, zpow_add_one₀ (by norm_num), Nat.add_zero]
      generalize ((n / leadingWeight : Nat) - 1075 : Int) = q
      calc ((leadingWeight + n % leadingWeight : Nat) : ℚ) * 2 ^ q
          < (2 * leadingWeight : Nat) * 2 ^ q := scaled (by omega) q
        _ = leadingWeight * (2 ^ q * 2) := by
            push_cast
            ring
    · have hdiv : (n + 1) / leadingWeight = n / leadingWeight := by
        unfold leadingWeight at *
        omega
      have hmod : (n + 1) % leadingWeight = n % leadingWeight + 1 := by
        unfold leadingWeight at *
        omega
      rw [hdiv, hmod]
      exact scaled (by omega) _

theorem unsignedOf_strictMono : StrictMono unsignedOf :=
  strictMono_nat_of_lt_succ unsignedOf_lt_succ

/-- **A greater magnitude means a greater number.** -/
theorem unsigned_lt_iff : x.unsigned < y.unsigned ↔ x.magnitude < y.magnitude := by
  rw [unsigned_eq, unsigned_eq, unsignedOf_strictMono.lt_iff_lt]

theorem unsigned_nonneg (x : Binary64) : 0 ≤ x.unsigned :=
  mul_nonneg (Nat.cast_nonneg _) (zpow_nonneg (by norm_num) _)

theorem unsigned_eq_zero_iff : x.unsigned = 0 ↔ x.magnitude = 0 := by
  have hzero : unsignedOf 0 = 0 := by
    rw [unsignedOf, if_pos (by decide), Nat.cast_zero, zero_mul]
  rw [unsigned_eq, ← hzero, unsignedOf_strictMono.injective.eq_iff]

/-- Numbers of different signs are apart unless both are zero. -/
theorem value_lt_of_signs (hx : x.isNegative = true) (hy : y.isNegative = false)
    (h : ¬ (x.magnitude = 0 ∧ y.magnitude = 0)) : x.value < y.value := by
  rw [value, value, if_pos hx, if_neg (Bool.eq_false_iff.1 hy)]
  have hx := unsigned_nonneg x
  have hy := unsigned_nonneg y
  refine lt_of_le_of_ne (by linarith) fun he => h ?_
  exact ⟨unsigned_eq_zero_iff.1 (by linarith), unsigned_eq_zero_iff.1 (by linarith)⟩

theorem value_lt_iff_of_negative (hx : x.isNegative = true) (hy : y.isNegative = true) :
    x.value < y.value ↔ y.magnitude < x.magnitude := by
  rw [value, value, if_pos hx, if_pos hy, neg_lt_neg_iff, unsigned_lt_iff]

theorem value_lt_iff_of_positive (hx : x.isNegative = false) (hy : y.isNegative = false) :
    x.value < y.value ↔ x.magnitude < y.magnitude := by
  rw [value, value, if_neg (Bool.eq_false_iff.1 hx), if_neg (Bool.eq_false_iff.1 hy),
    unsigned_lt_iff]

theorem not_value_lt_of_signs (hx : x.isNegative = false) (hy : y.isNegative = true) :
    ¬ x.value < y.value := by
  rw [value, value, if_neg (Bool.eq_false_iff.1 hx), if_pos hy]
  have hx := unsigned_nonneg x
  have hy := unsigned_nonneg y
  linarith

/-! ### The key of a value -/

theorem isNotANumber_iff : x.isNotANumber = true ↔ infinityMagnitude < x.magnitude :=
  decide_eq_true_iff

theorem isNotANumber_eq_false_iff : x.isNotANumber = false ↔ x.magnitude ≤ infinityMagnitude := by
  rw [isNotANumber, decide_eq_false_iff_not, Nat.not_lt]

theorem isInfinite_iff : x.isInfinite = true ↔ x.magnitude = infinityMagnitude := beq_iff_eq

theorem isZero_iff : x.isZero = true ↔ x.magnitude = 0 := beq_iff_eq

theorem key_of_negative (h : x.isNegative = true) : x.key = -1 - (x.magnitude : Int) := by
  have hlt := x.bits.toNat_lt
  have hn := of_decide_eq_true h
  unfold key magnitude
  unfold signWeight at *
  rw [if_neg (by omega)]
  omega

theorem key_of_positive (h : x.isNegative = false) : x.key = x.magnitude := by
  have hn := of_decide_eq_false h
  unfold key magnitude
  unfold signWeight at *
  rw [if_pos (by omega)]
  omega

theorem key_lt_iff_of_negative (hx : x.isNegative = true) (hy : y.isNegative = true) :
    x.key < y.key ↔ y.magnitude < x.magnitude := by
  rw [key_of_negative hx, key_of_negative hy]
  omega

theorem key_lt_iff_of_positive (hx : x.isNegative = false) (hy : y.isNegative = false) :
    x.key < y.key ↔ x.magnitude < y.magnitude := by
  rw [key_of_positive hx, key_of_positive hy]
  omega

theorem key_lt_of_signs (hx : x.isNegative = true) (hy : y.isNegative = false) :
    x.key < y.key := by
  rw [key_of_negative hx, key_of_positive hy]
  omega

theorem not_key_lt_of_signs (hx : x.isNegative = false) (hy : y.isNegative = true) :
    ¬ x.key < y.key := by
  rw [key_of_positive hx, key_of_negative hy]
  omega

theorem NumberLess.key_lt (h : x.NumberLess y) : x.key < y.key := by
  cases hx : x.isNegative with
  | true =>
    cases hy : y.isNegative with
    | false => exact key_lt_of_signs hx hy
    | true =>
      rw [key_lt_iff_of_negative hx hy]
      cases h with
      | finite _ _ hv => exact (value_lt_iff_of_negative hx hy).1 hv
      | infinityFirst hi _ hn hne =>
        have hle := isNotANumber_eq_false_iff.1 hn
        rw [isInfinite_iff.1 hi]
        exact lt_of_le_of_ne hle fun he => hne ⟨isInfinite_iff.2 he, hy⟩
      | infinityLast _ hs => exact absurd (hy.symm.trans hs) (by decide)
  | false =>
    cases hy : y.isNegative with
    | true =>
      cases h with
      | finite _ _ hv => exact absurd hv (not_value_lt_of_signs hx hy)
      | infinityFirst _ hs => exact absurd (hx.symm.trans hs) (by decide)
      | infinityLast _ hs => exact absurd (hy.symm.trans hs) (by decide)
    | false =>
      rw [key_lt_iff_of_positive hx hy]
      cases h with
      | finite _ _ hv => exact (value_lt_iff_of_positive hx hy).1 hv
      | infinityFirst _ hs => exact absurd (hx.symm.trans hs) (by decide)
      | infinityLast hi _ hn hne =>
        have hle := isNotANumber_eq_false_iff.1 hn
        rw [isInfinite_iff.1 hi]
        exact lt_of_le_of_ne hle fun he => hne ⟨isInfinite_iff.2 he, hx⟩

theorem TotalLess.key_lt (h : x.TotalLess y) : x.key < y.key := by
  cases h with
  | number h => exact h.key_lt
  | zero _ _ hx hy => exact key_lt_of_signs hx hy
  | before hn hx hm =>
    have hn := isNotANumber_iff.1 hn
    have hm := isNotANumber_eq_false_iff.1 hm
    cases hy : y.isNegative with
    | true => exact (key_lt_iff_of_negative hx hy).2 (by omega)
    | false => exact key_lt_of_signs hx hy
  | after hn hm hy =>
    have hn := isNotANumber_eq_false_iff.1 hn
    have hm := isNotANumber_iff.1 hm
    cases hx : x.isNegative with
    | true => exact key_lt_of_signs hx hy
    | false => exact (key_lt_iff_of_positive hx hy).2 (by omega)
  | signs _ _ hx hy => exact key_lt_of_signs hx hy
  | negative _ _ hx hy hlt => exact (key_lt_iff_of_negative hx hy).2 hlt
  | positive _ _ hx hy hlt => exact (key_lt_iff_of_positive hx hy).2 hlt

/-- Of two numbers, infinities included, that with the smaller key is the smaller one,
unless both are zero. -/
theorem totalLess_of_numbers (hn : x.isNotANumber = false) (hm : y.isNotANumber = false)
    (h : x.key < y.key) : x.TotalLess y := by
  have hxle := isNotANumber_eq_false_iff.1 hn
  have hyle := isNotANumber_eq_false_iff.1 hm
  cases hx : x.isNegative with
  | true =>
    by_cases hxi : x.magnitude = infinityMagnitude
    · refine .number (.infinityFirst (isInfinite_iff.2 hxi) hx hm fun hyi => ?_)
      have hlt := (key_lt_iff_of_negative hx hyi.2).1 h
      rw [hxi, isInfinite_iff.1 hyi.1] at hlt
      exact Nat.lt_irrefl _ hlt
    have hxf : x.IsFinite := lt_of_le_of_ne hxle hxi
    cases hy : y.isNegative with
    | true =>
      have hlt := (key_lt_iff_of_negative hx hy).1 h
      exact .number (.finite hxf (hlt.trans hxf) ((value_lt_iff_of_negative hx hy).2 hlt))
    | false =>
      by_cases hyi : y.magnitude = infinityMagnitude
      · refine .number (.infinityLast (isInfinite_iff.2 hyi) hy hn fun hxp => ?_)
        exact absurd (hx.symm.trans hxp.2) (by decide)
      have hyf : y.IsFinite := lt_of_le_of_ne hyle hyi
      by_cases hzero : x.magnitude = 0 ∧ y.magnitude = 0
      · exact .zero (isZero_iff.2 hzero.1) (isZero_iff.2 hzero.2) hx hy
      · exact .number (.finite hxf hyf (value_lt_of_signs hx hy hzero))
  | false =>
    cases hy : y.isNegative with
    | true => exact absurd h (not_key_lt_of_signs hx hy)
    | false =>
      have hlt := (key_lt_iff_of_positive hx hy).1 h
      by_cases hyi : y.magnitude = infinityMagnitude
      · refine .number (.infinityLast (isInfinite_iff.2 hyi) hy hn fun hxi => ?_)
        rw [hyi, isInfinite_iff.1 hxi.1] at hlt
        exact Nat.lt_irrefl _ hlt
      have hyf : y.IsFinite := lt_of_le_of_ne hyle hyi
      exact .number (.finite (hlt.trans hyf) hyf ((value_lt_iff_of_positive hx hy).2 hlt))

theorem totalLess_of_key_lt (h : x.key < y.key) : x.TotalLess y := by
  cases hn : x.isNotANumber with
  | false =>
    have hxle := isNotANumber_eq_false_iff.1 hn
    cases hm : y.isNotANumber with
    | false => exact totalLess_of_numbers hn hm h
    | true =>
      have hygt := isNotANumber_iff.1 hm
      cases hy : y.isNegative with
      | false => exact .after hn hm hy
      | true =>
        cases hx : x.isNegative with
        | false => exact absurd h (not_key_lt_of_signs hx hy)
        | true =>
          have hlt := (key_lt_iff_of_negative hx hy).1 h
          omega
  | true =>
    have hxgt := isNotANumber_iff.1 hn
    cases hm : y.isNotANumber with
    | false =>
      have hyle := isNotANumber_eq_false_iff.1 hm
      cases hx : x.isNegative with
      | true => exact .before hn hx hm
      | false =>
        cases hy : y.isNegative with
        | true => exact absurd h (not_key_lt_of_signs hx hy)
        | false =>
          have hlt := (key_lt_iff_of_positive hx hy).1 h
          omega
    | true =>
      cases hx : x.isNegative with
      | true =>
        cases hy : y.isNegative with
        | true => exact .negative hn hm hx hy ((key_lt_iff_of_negative hx hy).1 h)
        | false => exact .signs hn hm hx hy
      | false =>
        cases hy : y.isNegative with
        | true => exact absurd h (not_key_lt_of_signs hx hy)
        | false => exact .positive hn hm hx hy ((key_lt_iff_of_positive hx hy).1 h)

/-- **The keys stand in the total order.** -/
theorem totalLess_iff : x.TotalLess y ↔ x.key < y.key :=
  ⟨TotalLess.key_lt, totalLess_of_key_lt⟩

instance : Decidable (x.TotalLess y) := decidable_of_iff _ totalLess_iff.symm

example : (notANumber true).TotalLess (infinity true) ∧
    (infinity true).TotalLess ⟨0x8000000000000000⟩ ∧
    TotalLess ⟨0x8000000000000000⟩ zero ∧ zero.TotalLess one ∧ one.TotalLess (infinity false) ∧
    (infinity false).TotalLess (notANumber false) := by decide

end WikiExpansion.Binary64
