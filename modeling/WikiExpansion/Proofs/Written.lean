import Mathlib.Data.Nat.Digits.Defs
import WikiExpansion.Json.Printer
import WikiExpansion.Json.Reader

/-!
# JSON text is read back

A JSON value that is written on lines of its own is read back as it was
(`parse?_toText`).  The text of a value is followed by other text while the values
around it are read, so each part of the reader is run on what was written and a
rest: a string ends at its quote, a number where a character follows that no
number has.
-/

namespace WikiExpansion

namespace Text.Reader

variable {α β : Type}

/-- The reader makes the value `a` of the front of `cs` and leaves `ds`. -/
def Reads (r : Reader α) (cs : List Char) (a : α) (ds : List Char) : Prop :=
  r.run cs = some (a, ds)

theorem Reads.bind {r : Reader α} {f : α → Reader β} {a : α} {b : β} {cs ds es : List Char}
    (h : Reads r cs a ds) (g : Reads (f a) ds b es) : Reads (r >>= f) cs b es := by
  unfold Reads at h g ⊢
  rw [StateT.run_bind, h]
  exact g

theorem reads_pure (a : α) (cs : List Char) : Reads (pure a) cs a cs := rfl

theorem reads_next (c : Char) (cs : List Char) : Reads next (c :: cs) c cs := rfl

theorem reads_peek? (c : Char) (cs : List Char) : Reads peek? (c :: cs) (some c) (c :: cs) := rfl

theorem reads_skip? (c : Char) (cs : List Char) : Reads (skip? c) (c :: cs) true cs := by
  simp [Reads, skip?]

theorem reads_skip?_of_ne {c : Char} {cs : List Char} (h : ∀ ds, cs ≠ c :: ds) :
    Reads (skip? c) cs false cs := by
  cases cs with
  | nil => rfl
  | cons d ds =>
    have hd : d ≠ c := by
      intro hd
      exact h ds (by rw [hd])
    simp [Reads, skip?, hd]

theorem reads_char (c : Char) (cs : List Char) : Reads (char c) (c :: cs) () cs :=
  (reads_skip? c cs).bind (reads_pure () cs)

theorem reads_word (w : String) (cs : List Char) : Reads (word w) (w.toList ++ cs) () cs := by
  simp [Reads, word, word?, StateT.run_bind]

/-- A run of characters is taken up to the first that does not belong to it. -/
theorem reads_takeWhile {p : Char → Bool} {cs ds : List Char} (hc : ∀ c ∈ cs, p c = true)
    (hd : ∀ d ∈ ds.head?, p d = false) : Reads (takeWhile p) (cs ++ ds) cs ds := by
  have htake : ds.takeWhile p = [] ∧ ds.dropWhile p = ds := by
    cases ds with
    | nil => exact ⟨rfl, rfl⟩
    | cons d ds =>
      have := hd d rfl
      simp [this]
  have h : (cs ++ ds).takeWhile p = cs ∧ (cs ++ ds).dropWhile p = ds := by
    rw [List.takeWhile_append_of_pos hc, List.dropWhile_append_of_pos hc, htake.1, htake.2,
      List.append_nil]
    exact ⟨rfl, rfl⟩
  show some ((cs ++ ds).takeWhile p, (cs ++ ds).dropWhile p) = some (cs, ds)
  rw [h.1, h.2]

end Text.Reader

namespace Json

open Text Text.Reader

/-! ### Blanks -/

def isSpace (c : Char) : Bool := c = ' ' || c = '\t' || c = '\n' || c = '\r'

theorem reads_skipSpace {ws cs : List Char} (hw : ∀ c ∈ ws, isSpace c = true)
    (hc : ∀ c ∈ cs.head?, isSpace c = false) : Reads skipSpace (ws ++ cs) () cs :=
  (reads_takeWhile hw hc).bind (reads_pure () cs)

theorem reads_noSpace {cs : List Char} (hc : ∀ c ∈ cs.head?, isSpace c = false) :
    Reads skipSpace cs () cs :=
  reads_skipSpace (fun _ h => absurd h List.not_mem_nil) hc

theorem isSpace_of_mem_lineBreak {level : Nat} {c : Char} (h : c ∈ (lineBreak level).toList) :
    isSpace c = true := by
  simp only [lineBreak, String.toList_append, List.mem_append, String.toList_ofList] at h
  rcases h with h | h
  · obtain rfl : c = '\n' := by simpa using h
    decide
  · obtain ⟨-, rfl⟩ := List.mem_replicate.1 h
    decide

theorem length_lineBreak (level : Nat) : 0 < (lineBreak level).toList.length := by
  simp [lineBreak]

/-! ### Strings -/

theorem hexValue?_hexDigit {n : Nat} (h : n < 16) : hexValue? (hexDigit n) = some n := by
  revert n
  decide

/-- A control character is read back from its number. -/
theorem reads_unicodeEscape {c : Char} (h : c.toNat < 32) (rest : List Char) :
    Reads unicodeEscape
      ('0' :: '0' :: hexDigit (c.toNat / 16) :: hexDigit (c.toNat % 16) :: rest) c rest := by
  have hhigh : hexValue? (hexDigit (c.toNat / 16)) = some (c.toNat / 16) :=
    hexValue?_hexDigit (by omega)
  have hlow : hexValue? (hexDigit (c.toNat % 16)) = some (c.toNat % 16) :=
    hexValue?_hexDigit (by omega)
  have hzero : hexValue? '0' = some 0 := by decide
  have hunit : Reads unit16
      ('0' :: '0' :: hexDigit (c.toNat / 16) :: hexDigit (c.toNat % 16) :: rest) c.toNat rest := by
    have hvalue : digitsValue 16 ['0', '0', hexDigit (c.toNat / 16), hexDigit (c.toNat % 16)] =
        c.toNat := by
      simp only [digitsValue, List.foldl_cons, List.foldl_nil, hhigh, hlow, hzero,
        Option.getD_some]
      omega
    refine (reads_next _ _).bind ((reads_next _ _).bind ((reads_next _ _).bind
      ((reads_next _ _).bind ?_)))
    simp only [List.all_cons, List.all_nil, hhigh, hlow, hzero, hvalue, Option.isSome_some,
      Bool.and_self, if_true]
    exact reads_pure _ _
  refine hunit.bind ?_
  have hvalid : c.toNat.isValidChar := Or.inl (by omega)
  have hchar : charOf? c.toNat = some c := by
    rw [charOf?, dif_pos hvalid]
    rfl
  rw [if_neg (by omega), hchar]
  rfl

theorem reads_stringFrom_cons (fuel : Nat) (read : List Char) (c : Char) (rest ds : List Char)
    (s : String) (h : Reads (stringFrom fuel (c :: read)) rest s ds) :
    Reads (stringFrom (fuel + 1) read) (escapeChar c ++ rest) s ds := by
  have escaped (e : Char) (more : List Char) (he : Reads escape (e :: (more ++ rest)) c rest) :
      Reads (stringFrom (fuel + 1) read) ('\\' :: e :: (more ++ rest)) s ds :=
    (reads_next '\\' _).bind (he.bind h)
  unfold escapeChar
  by_cases hquote : c = '\x22'
  · subst hquote
    exact escaped _ [] (reads_next _ _)
  by_cases hslash : c = '\\'
  · subst hslash
    exact escaped _ [] (reads_next _ _)
  by_cases hback : c = '\x08'
  · subst hback
    exact escaped _ [] (reads_next _ _)
  by_cases hfeed : c = '\x0c'
  · subst hfeed
    exact escaped _ [] (reads_next _ _)
  by_cases hline : c = '\n'
  · subst hline
    exact escaped _ [] (reads_next _ _)
  by_cases hreturn : c = '\r'
  · subst hreturn
    exact escaped _ [] (reads_next _ _)
  by_cases htab : c = '\t'
  · subst htab
    exact escaped _ [] (reads_next _ _)
  rw [if_neg hquote, if_neg hslash, if_neg hback, if_neg hfeed, if_neg hline, if_neg hreturn,
    if_neg htab]
  by_cases hcontrol : c.toNat < 32
  · rw [if_pos hcontrol]
    exact escaped 'u' ['0', '0', hexDigit (c.toNat / 16), hexDigit (c.toNat % 16)]
      ((reads_next _ _).bind (reads_unicodeEscape hcontrol rest))
  · rw [if_neg hcontrol]
    refine (reads_next c rest).bind ?_
    split
    · exact absurd rfl hquote
    · exact absurd rfl hslash
    · rw [if_neg hcontrol]
      exact h

/-- The rest of a string that was written is read up to its quote. -/
theorem reads_stringFrom (cs : List Char) : ∀ (fuel : Nat) (read rest : List Char),
    cs.length < fuel → Reads (stringFrom fuel read) (cs.flatMap escapeChar ++ '\x22' :: rest)
      (String.ofList (read.reverse ++ cs)) rest := by
  induction cs with
  | nil =>
    intro fuel read rest hfuel
    obtain ⟨fuel, rfl⟩ := Nat.exists_eq_add_of_lt hfuel
    rw [List.append_nil, List.flatMap_nil]
    exact (reads_next _ _).bind (reads_pure _ _)
  | cons c cs ih =>
    intro fuel read rest hfuel
    cases fuel with
    | zero => omega
    | succ fuel =>
      rw [List.length_cons] at hfuel
      have := ih fuel (c :: read) rest (by omega)
      rw [List.reverse_cons, List.append_assoc, List.singleton_append] at this
      rw [List.flatMap_cons, List.append_assoc]
      exact reads_stringFrom_cons fuel read c _ _ _ this

theorem toList_quote (s : String) :
    (quote s).toList = '\x22' :: (s.toList.flatMap escapeChar ++ ['\x22']) := by
  simp [quote]

theorem length_le_flatMap_escapeChar (cs : List Char) :
    cs.length ≤ (cs.flatMap escapeChar).length := by
  induction cs with
  | nil => exact Nat.le_refl _
  | cons c cs ih =>
    have hc : 0 < (escapeChar c).length := by
      unfold escapeChar
      split_ifs <;> simp
    rw [List.flatMap_cons, List.length_append, List.length_cons]
    omega

theorem reads_string {size : Nat} {s : String} (h : (quote s).toList.length ≤ size)
    (rest : List Char) :
    Reads (stringFrom size []) (s.toList.flatMap escapeChar ++ '\x22' :: rest) s rest := by
  rw [toList_quote, List.length_cons, List.length_append] at h
  have hlen := length_le_flatMap_escapeChar s.toList
  have := reads_stringFrom s.toList size [] rest (by omega)
  rwa [List.reverse_nil, List.nil_append, String.ofList_toList] at this

/-! ### Numbers -/

def digitsOf (n : Nat) : List Char := Nat.toDigits 10 n

theorem digitsOf_eq (n : Nat) :
    digitsOf n = if n < 10 then [n.digitChar] else digitsOf (n / 10) ++ [(n % 10).digitChar] :=
  Nat.toDigits_eq_if (by decide)

theorem isDigit_digitChar {n : Nat} (h : n < 10) :
    isDigit n.digitChar = true ∧ hexValue? n.digitChar = some n := by
  revert n
  decide

theorem isDigit_of_mem_digitsOf {n : Nat} : ∀ {c : Char}, c ∈ digitsOf n → isDigit c = true := by
  induction n using Nat.strongRecOn with
  | ind n ih =>
    intro c hc
    rw [digitsOf_eq] at hc
    split at hc
    · obtain rfl := List.mem_singleton.1 hc
      exact (isDigit_digitChar ‹n < 10›).1
    · rcases List.mem_append.1 hc with hc | hc
      · exact ih (n / 10) (by omega) hc
      · obtain rfl := List.mem_singleton.1 hc
        exact (isDigit_digitChar (Nat.mod_lt n (by decide))).1

theorem digitsValue_digitsOf (n : Nat) : digitsValue 10 (digitsOf n) = n := by
  induction n using Nat.strongRecOn with
  | ind n ih =>
    rw [digitsOf_eq]
    split
    · rename_i h
      simp [digitsValue, (isDigit_digitChar h).2]
    · have hlast := (isDigit_digitChar (Nat.mod_lt n (by decide : 0 < 10))).2
      have hrest := ih (n / 10) (by omega)
      simp only [digitsValue, List.foldl_append, List.foldl_cons, List.foldl_nil, hlast,
        Option.getD_some] at hrest ⊢
      rw [hrest]
      omega

theorem digitsOf_ne_nil (n : Nat) : digitsOf n ≠ [] := Nat.toDigits_ne_nil

/-- No number is written with a zero in front. -/
theorem head?_digitsOf {n : Nat} (h : 0 < n) : (digitsOf n).head? ≠ some '0' := by
  induction n using Nat.strongRecOn with
  | ind n ih =>
    rw [digitsOf_eq]
    split
    · rename_i hn
      have hdigit : ∀ m < 10, 0 < m → m.digitChar ≠ '0' := by decide
      intro he
      exact hdigit n hn h (Option.some.inj he)
    · have hhead := ih (n / 10) (by omega) (by omega)
      cases hd : digitsOf (n / 10) with
      | nil => exact absurd hd (digitsOf_ne_nil _)
      | cons d ds =>
        rw [hd] at hhead
        exact hhead

def NumberEnds (rest : List Char) : Prop :=
  ∀ c ∈ rest.head?, isDigit c = false ∧ c ≠ '.' ∧ c ≠ 'e' ∧ c ≠ 'E'

theorem reads_digits (n : Nat) {rest : List Char} (h : ∀ c ∈ rest.head?, isDigit c = false) :
    Reads digits (digitsOf n ++ rest) (digitsOf n) rest := by
  refine (reads_takeWhile (fun c hc => isDigit_of_mem_digitsOf hc) h).bind ?_
  rw [if_neg (by simpa using digitsOf_ne_nil n)]
  exact reads_pure _ _

theorem digitsOf_append_ne (n : Nat) (rest : List Char) {c : Char} (hc : isDigit c = false)
    (ds : List Char) : digitsOf n ++ rest ≠ c :: ds := by
  intro he
  cases hd : digitsOf n with
  | nil => exact digitsOf_ne_nil n hd
  | cons d es =>
    rw [hd, List.cons_append] at he
    obtain rfl := (List.cons.inj he).1
    have := isDigit_of_mem_digitsOf (n := n) (hd ▸ List.mem_cons_self)
    rw [hc] at this
    cases this

def signOf (negative : Bool) : List Char := if negative then ['-'] else []

theorem reads_sign (negative : Bool) (n : Nat) (rest : List Char) :
    Reads (skip? '-') (signOf negative ++ (digitsOf n ++ rest)) negative (digitsOf n ++ rest) := by
  cases negative with
  | true => exact reads_skip? '-' _
  | false => exact reads_skip?_of_ne (digitsOf_append_ne n rest (by decide))

theorem toList_toString_int (i : Int) :
    (toString i).toList = signOf (decide (i < 0)) ++ digitsOf i.natAbs := by
  cases i with
  | ofNat n =>
    have hn : decide (Int.ofNat n < 0) = false := by simp
    rw [hn]
    show (String.ofList (Nat.toDigits 10 n)).toList = _
    rw [String.toList_ofList]
    rfl
  | negSucc n =>
    have hn : decide (Int.negSucc n < 0) = true := by simp
    rw [hn]
    show ("-" ++ String.ofList (Nat.toDigits 10 (n + 1))).toList = _
    simp only [String.toList_append, String.toList_ofList]
    rfl

theorem toList_numeral (n : Numeral) :
    (numeral n).toList = match n with
      | .integer i => signOf (decide (i < 0)) ++ digitsOf i.natAbs
      | .decimal negative mantissa exponent => signOf negative ++ (digitsOf mantissa ++
          ('e' :: (signOf (decide (exponent < 0)) ++ digitsOf exponent.natAbs))) := by
  cases n with
  | integer i => exact toList_toString_int i
  | decimal negative mantissa exponent =>
    have hm : (toString mantissa).toList = digitsOf mantissa := by
      show (String.ofList (Nat.toDigits 10 mantissa)).toList = _
      rw [String.toList_ofList]
      rfl
    have hs : (if negative = true then "-" else "").toList = signOf negative := by
      cases negative <;> rfl
    simp only [numeral, String.toList_append, hm, hs, toList_toString_int, List.append_assoc]
    rfl

/-- No number is written with a zero before other digits. -/
theorem not_leadingZero (m : Nat) : ¬ ((digitsOf m).head? = some '0' ∧ digitsOf m ≠ ['0']) := by
  rintro ⟨hhead, hne⟩
  rcases Nat.eq_zero_or_pos m with rfl | hm
  · exact hne rfl
  · exact head?_digitsOf hm hhead

section Number

variable {rest : List Char}

theorem NumberEnds.not_isDigit (h : NumberEnds rest) : ∀ c ∈ rest.head?, isDigit c = false :=
  fun c hc => (h c hc).1

/-- Neither a fraction nor a power follows. -/
theorem NumberEnds.ne_cons (h : NumberEnds rest) {c : Char} (hc : c = '.' ∨ c = 'e' ∨ c = 'E')
    (ds : List Char) : rest ≠ c :: ds := by
  rintro rfl
  obtain ⟨-, hdot, he, hE⟩ := h c rfl
  rcases hc with rfl | rfl | rfl
  · exact hdot rfl
  · exact he rfl
  · exact hE rfl

theorem reads_integer (i : Int) (h : NumberEnds rest) :
    Reads number (signOf (decide (i < 0)) ++ (digitsOf i.natAbs ++ rest)) (.integer i) rest := by
  refine (reads_sign _ _ _).bind ((reads_digits _ h.not_isDigit).bind ?_)
  rw [if_neg (not_leadingZero _)]
  refine (reads_skip?_of_ne (h.ne_cons (.inl rfl))).bind ?_
  simp only [Bool.false_eq_true, if_false]
  refine (reads_pure _ _).bind ((reads_skip?_of_ne (h.ne_cons (.inr (.inl rfl)))).bind ?_)
  simp only [Bool.false_eq_true, if_false]
  refine (reads_skip?_of_ne (h.ne_cons (.inr (.inr rfl)))).bind ?_
  simp only [Bool.false_eq_true, if_false]
  refine (reads_pure _ _).bind ?_
  rw [List.append_nil, digitsValue_digitsOf]
  -- a negative zero would be read as a decimal, and is not written as an integer
  have hminus : (decide (i < 0) && i.natAbs == 0) = false := by
    rw [Bool.and_eq_false_iff]
    by_cases hi : i < 0
    · right
      simp only [beq_eq_false_iff_ne]
      omega
    · left
      exact decide_eq_false hi
  have hvalue : (if decide (i < 0) = true then -(i.natAbs : Int) else i.natAbs) = i := by
    by_cases hi : i < 0
    · rw [if_pos (decide_eq_true hi)]
      omega
    · rw [if_neg (by simpa using hi)]
      omega
  simp only [hminus, hvalue, List.isEmpty_nil, Bool.not_false, Bool.and_self, if_true]
  exact reads_pure _ _

theorem reads_decimal (negative : Bool) (mantissa : Nat) (exponent : Int) (h : NumberEnds rest) :
    Reads number (signOf negative ++ (digitsOf mantissa ++
      ('e' :: (signOf (decide (exponent < 0)) ++ (digitsOf exponent.natAbs ++ rest)))))
      (.decimal negative mantissa exponent) rest := by
  have hpow : ∀ c ∈ ('e' :: (signOf (decide (exponent < 0)) ++
      (digitsOf exponent.natAbs ++ rest))).head?, isDigit c = false := by
    intro c hc
    obtain rfl := Option.some.inj hc
    decide
  refine (reads_sign _ _ _).bind ((reads_digits _ hpow).bind ?_)
  rw [if_neg (not_leadingZero _)]
  refine (reads_skip?_of_ne (by simp)).bind ?_
  simp only [Bool.false_eq_true, if_false]
  refine (reads_pure _ _).bind ((reads_skip? 'e' _).bind ?_)
  simp only [if_true]
  refine (reads_pure _ _).bind ?_
  simp only [if_true]
  refine (reads_sign _ _ _).bind ?_
  -- no plus stands before the digits of the power
  have hplus := reads_skip?_of_ne (digitsOf_append_ne exponent.natAbs rest (c := '+') (by decide))
  have hdigits := reads_digits exponent.natAbs h.not_isDigit
  by_cases he : exponent < 0
  · have hvalue : -(exponent.natAbs : Int) = exponent := by omega
    simp only [decide_eq_true he, Bool.not_true, Bool.false_eq_true, if_false, if_true]
    refine hdigits.bind ((reads_pure _ _).bind ?_)
    rw [List.append_nil, digitsValue_digitsOf, digitsValue_digitsOf, hvalue]
    simp [Reads]
  · have hvalue : (exponent.natAbs : Int) = exponent := by omega
    simp only [decide_eq_false he, Bool.not_false, Bool.false_eq_true, if_false, if_true]
    refine hplus.bind (hdigits.bind ((reads_pure _ _).bind ?_))
    rw [List.append_nil, digitsValue_digitsOf, digitsValue_digitsOf, hvalue]
    simp [Reads]

/-- **A number that was written is read back** where no further digit follows. -/
theorem reads_number (n : Numeral) (h : NumberEnds rest) :
    Reads number ((numeral n).toList ++ rest) n rest := by
  rw [toList_numeral]
  cases n with
  | integer i =>
    simp only [List.append_assoc]
    exact reads_integer i h
  | decimal negative mantissa exponent =>
    simp only [List.append_assoc, List.cons_append]
    exact reads_decimal negative mantissa exponent h

end Number

/-! ### Values -/

theorem numeral_head (n : Numeral) :
    ∃ c cs, (numeral n).toList = c :: cs ∧ (c = '-' ∨ isDigit c = true) := by
  have head (negative : Bool) (m : Nat) (rest : List Char) :
      ∃ c cs, signOf negative ++ (digitsOf m ++ rest) = c :: cs ∧ (c = '-' ∨ isDigit c = true) := by
    cases negative with
    | true => exact ⟨'-', _, rfl, Or.inl rfl⟩
    | false =>
      cases hd : digitsOf m with
      | nil => exact absurd hd (digitsOf_ne_nil m)
      | cons d ds => exact ⟨d, _, rfl, Or.inr (isDigit_of_mem_digitsOf (hd ▸ List.mem_cons_self))⟩
  rw [toList_numeral]
  cases n with
  | integer i =>
    have := head (decide (i < 0)) i.natAbs []
    rwa [List.append_nil] at this
  | decimal negative mantissa exponent => exact head _ _ _

/-- A value starts neither with a blank nor with a closing bracket. -/
theorem pretty_head (level : Nat) (j : Json) :
    ∃ c cs, (pretty level j).toList = c :: cs ∧ isSpace c = false ∧ c ≠ ']' := by
  cases j with
  | null => exact ⟨'n', ['u', 'l', 'l'], by simp [pretty], by decide, by decide⟩
  | bool b =>
    cases b with
    | true => exact ⟨'t', ['r', 'u', 'e'], by simp [pretty], by decide, by decide⟩
    | false => exact ⟨'f', ['a', 'l', 's', 'e'], by simp [pretty], by decide, by decide⟩
  | num n =>
    obtain ⟨c, cs, he, hc⟩ := numeral_head n
    refine ⟨c, cs, he, ?_⟩
    rcases hc with rfl | hc
    · decide
    · constructor
      · by_contra hs
        simp only [isSpace, Bool.not_eq_false, Bool.or_eq_true, decide_eq_true_eq] at hs
        rcases hs with ((rfl | rfl) | rfl) | rfl <;> cases hc
      · rintro rfl
        cases hc
  | str s => exact ⟨'\x22', _, toList_quote s, by decide, by decide⟩
  | arr js =>
    cases js with
    | nil => exact ⟨'[', [']'], by simp [pretty], by decide, by decide⟩
    | cons j js =>
      refine ⟨'[', _, by simp [pretty]; rfl, by decide, by decide⟩
  | obj fs =>
    cases fs with
    | nil => exact ⟨'\x7b', ['\x7d'], by simp [pretty], by decide, by decide⟩
    | cons f fs =>
      refine ⟨'\x7b', _, by simp [pretty]; rfl, by decide, by decide⟩

theorem pretty_append_head (level : Nat) (j : Json) (rest : List Char) :
    (∀ c ∈ ((pretty level j).toList ++ rest).head?, isSpace c = false) ∧
      ∀ ds, (pretty level j).toList ++ rest ≠ ']' :: ds := by
  obtain ⟨c, cs, he, hspace, hclose⟩ := pretty_head level j
  rw [he, List.cons_append]
  constructor
  · intro d hd
    obtain rfl := Option.some.inj hd
    exact hspace
  · intro ds hd
    exact hclose (List.cons.inj hd).1

/-- A literal starts with none of the characters that could open another value. -/
theorem numberEnds_of_not_digit {c : Char} (h : isDigit c = false ∧ c ≠ '.' ∧ c ≠ 'e' ∧ c ≠ 'E')
    (rest : List Char) : NumberEnds (c :: rest) := by
  intro d hd
  obtain rfl := Option.some.inj hd
  exact h

theorem numberEnds_lineBreak (level : Nat) (rest : List Char) :
    NumberEnds ((lineBreak level).toList ++ rest) := by
  simp only [lineBreak, String.toList_append, List.append_assoc]
  exact numberEnds_of_not_digit (by decide) _

theorem numberEnds_prettyItems (level inner : Nat) (js : List Json) (rest : List Char) :
    NumberEnds ((prettyItems level js).toList ++ ((lineBreak inner).toList ++ rest)) := by
  cases js with
  | nil =>
    simp only [prettyItems, String.toList_empty, List.nil_append]
    exact numberEnds_lineBreak inner rest
  | cons j js =>
    simp only [prettyItems, String.toList_append, List.append_assoc]
    exact numberEnds_of_not_digit (by decide) _

theorem numberEnds_prettyFields (level inner : Nat) (fs : List (String × Json))
    (rest : List Char) :
    NumberEnds ((prettyFields level fs).toList ++ ((lineBreak inner).toList ++ rest)) := by
  cases fs with
  | nil =>
    simp only [prettyFields, String.toList_empty, List.nil_append]
    exact numberEnds_lineBreak inner rest
  | cons f fs =>
    simp only [prettyFields, String.toList_append, List.append_assoc]
    exact numberEnds_of_not_digit (by decide) _

/-- With the fuel, values are read back behind blanks and before other text. -/
def ValueReads (size fuel : Nat) : Prop :=
  ∀ (j : Json) (level : Nat) (ws rest : List Char), (∀ c ∈ ws, isSpace c = true) →
    (pretty level j).toList.length ≤ size → (pretty level j).toList.length < fuel →
    NumberEnds rest → Reads (value size fuel) (ws ++ ((pretty level j).toList ++ rest)) j rest

def ItemsRead (size fuel : Nat) : Prop :=
  ∀ (j : Json) (js : List Json) (level inner : Nat) (ws rest : List Char),
    (∀ c ∈ ws, isSpace c = true) →
    (pretty level j).toList.length + (prettyItems level js).toList.length ≤ size →
    (pretty level j).toList.length + (prettyItems level js).toList.length + 1 < fuel →
    Reads (items size fuel) (ws ++ ((pretty level j).toList ++ ((prettyItems level js).toList ++
      ((lineBreak inner).toList ++ ']' :: rest)))) (j :: js) rest

def FieldsRead (size fuel : Nat) : Prop :=
  ∀ (f : String × Json) (fs : List (String × Json)) (level inner : Nat) (ws rest : List Char),
    (∀ c ∈ ws, isSpace c = true) →
    (prettyField level f).toList.length + (prettyFields level fs).toList.length ≤ size →
    (prettyField level f).toList.length + (prettyFields level fs).toList.length + 1 < fuel →
    Reads (fields size fuel) (ws ++ ((prettyField level f).toList ++
      ((prettyFields level fs).toList ++ ((lineBreak inner).toList ++ '\x7d' :: rest))))
      (f :: fs) rest

theorem reads_value_num (size fuel : Nat) (n : Numeral) {ws rest : List Char}
    (hws : ∀ c ∈ ws, isSpace c = true) (hr : NumberEnds rest) :
    Reads (value size (fuel + 1)) (ws ++ ((numeral n).toList ++ rest)) (.num n) rest := by
  have hhead := (pretty_append_head 0 (.num n) rest).1
  rw [pretty] at hhead
  refine (reads_skipSpace hws hhead).bind ?_
  have hn := reads_number n hr
  obtain ⟨c, cs, he, hc⟩ := numeral_head n
  rw [he, List.cons_append] at hn ⊢
  refine (reads_peek? c _).bind ?_
  have hne (d : Char) (hd : d ≠ '-' ∧ isDigit d = false) : some c ≠ some d := by
    intro h
    obtain rfl := Option.some.inj h
    rcases hc with h | h
    · exact hd.1 h
    · rw [hd.2] at h
      cases h
  split
  · exact absurd ‹some c = _› (hne _ (by decide))
  · exact absurd ‹some c = _› (hne _ (by decide))
  · exact absurd ‹some c = _› (hne _ (by decide))
  · exact absurd ‹some c = _› (hne _ (by decide))
  · exact absurd ‹some c = _› (hne _ (by decide))
  · exact absurd ‹some c = _› (hne _ (by decide))
  · exact hn.bind (reads_pure _ _)

theorem reads_value_arr {size fuel : Nat} (hitems : ItemsRead size fuel) (js : List Json)
    (level : Nat) {ws : List Char} (rest : List Char) (hws : ∀ c ∈ ws, isSpace c = true)
    (hs : (pretty level (.arr js)).toList.length ≤ size)
    (hf : (pretty level (.arr js)).toList.length < fuel + 1) :
    Reads (value size (fuel + 1)) (ws ++ ((pretty level (.arr js)).toList ++ rest)) (.arr js)
      rest := by
  refine (reads_skipSpace hws (pretty_append_head level (.arr js) rest).1).bind ?_
  cases js with
  | nil =>
    have he : (pretty level (.arr [])).toList = ['[', ']'] := by simp [pretty]
    rw [he]
    refine (reads_peek? '[' _).bind ((reads_next _ _).bind ?_)
    refine (reads_noSpace (by simp [isSpace])).bind ?_
    exact (reads_skip? ']' rest).bind (reads_pure _ _)
  | cons j js =>
    have he : (pretty level (.arr (j :: js))).toList = '[' :: ((lineBreak (level + 1)).toList ++
        ((pretty (level + 1) j).toList ++ ((prettyItems (level + 1) js).toList ++
          ((lineBreak level).toList ++ [']'])))) := by simp [pretty]
    rw [he] at hs hf ⊢
    have hbreak := length_lineBreak level
    simp only [List.length_cons, List.length_append] at hs hf
    simp only [List.cons_append, List.append_assoc, List.nil_append]
    have hhead := pretty_append_head (level + 1) j ((prettyItems (level + 1) js).toList ++
      ((lineBreak level).toList ++ (']' :: rest)))
    refine (reads_peek? '[' _).bind ((reads_next _ _).bind ?_)
    refine (reads_skipSpace (fun c hc => isSpace_of_mem_lineBreak hc) hhead.1).bind ?_
    refine (reads_skip?_of_ne hhead.2).bind ?_
    have hread := hitems j js (level + 1) level [] rest (by simp) (by omega) (by omega)
    exact hread.bind (reads_pure _ _)

theorem toList_prettyField (level : Nat) (f : String × Json) :
    (prettyField level f).toList = '\x22' :: (f.1.toList.flatMap escapeChar ++
      ('\x22' :: ':' :: ' ' :: (pretty level f.2).toList)) := by
  obtain ⟨k, j⟩ := f
  simp [prettyField, toList_quote]

theorem reads_value_obj {size fuel : Nat} (hfields : FieldsRead size fuel)
    (fs : List (String × Json)) (level : Nat) {ws : List Char} (rest : List Char)
    (hws : ∀ c ∈ ws, isSpace c = true) (hs : (pretty level (.obj fs)).toList.length ≤ size)
    (hf : (pretty level (.obj fs)).toList.length < fuel + 1) :
    Reads (value size (fuel + 1)) (ws ++ ((pretty level (.obj fs)).toList ++ rest)) (.obj fs)
      rest := by
  refine (reads_skipSpace hws (pretty_append_head level (.obj fs) rest).1).bind ?_
  cases fs with
  | nil =>
    have he : (pretty level (.obj [])).toList = ['\x7b', '\x7d'] := by simp [pretty]
    rw [he]
    refine (reads_peek? '\x7b' _).bind ((reads_next _ _).bind ?_)
    refine (reads_noSpace (by simp [isSpace])).bind ?_
    exact (reads_skip? '\x7d' rest).bind (reads_pure _ _)
  | cons f fs =>
    have he : (pretty level (.obj (f :: fs))).toList = '\x7b' :: ((lineBreak (level + 1)).toList ++
        ((prettyField (level + 1) f).toList ++ ((prettyFields (level + 1) fs).toList ++
          ((lineBreak level).toList ++ ['\x7d'])))) := by simp [pretty]
    rw [he] at hs hf ⊢
    have hbreak := length_lineBreak level
    simp only [List.length_cons, List.length_append] at hs hf
    simp only [List.cons_append, List.append_assoc, List.nil_append]
    have hfield := toList_prettyField (level + 1) f
    refine (reads_peek? '\x7b' _).bind ((reads_next _ _).bind ?_)
    refine (reads_skipSpace (fun c hc => isSpace_of_mem_lineBreak hc) ?_).bind ?_
    · simp [hfield, isSpace]
    refine (reads_skip?_of_ne (by simp [hfield])).bind ?_
    have hread := hfields f fs (level + 1) level [] rest (by simp) (by omega) (by omega)
    exact hread.bind (reads_pure _ _)

theorem valueReads_succ {size fuel : Nat} (hitems : ItemsRead size fuel)
    (hfields : FieldsRead size fuel) : ValueReads size (fuel + 1) := by
  intro j level ws rest hws hs hf hr
  have hhead := (pretty_append_head level j rest).1
  cases j with
  | null =>
    refine (reads_skipSpace hws hhead).bind ?_
    have he : (pretty level null).toList = ['n', 'u', 'l', 'l'] := by simp [pretty]
    rw [he]
    exact (reads_peek? 'n' _).bind ((reads_word "null" rest).bind (reads_pure _ _))
  | bool b =>
    refine (reads_skipSpace hws hhead).bind ?_
    cases b with
    | true =>
      have he : (pretty level (bool true)).toList = ['t', 'r', 'u', 'e'] := by simp [pretty]
      rw [he]
      exact (reads_peek? 't' _).bind ((reads_word "true" rest).bind (reads_pure _ _))
    | false =>
      have he : (pretty level (bool false)).toList = ['f', 'a', 'l', 's', 'e'] := by
        simp [pretty]
      rw [he]
      exact (reads_peek? 'f' _).bind ((reads_word "false" rest).bind (reads_pure _ _))
  | num n =>
    rw [pretty]
    exact reads_value_num size fuel n hws hr
  | str s =>
    refine (reads_skipSpace hws hhead).bind ?_
    rw [pretty] at hs ⊢
    rw [toList_quote, List.cons_append, List.append_assoc]
    refine (reads_peek? '\x22' _).bind ((reads_next _ _).bind ?_)
    exact (reads_string hs rest).bind (reads_pure _ _)
  | arr js => exact reads_value_arr hitems js level rest hws hs hf
  | obj fs => exact reads_value_obj hfields fs level rest hws hs hf

/-- An item is followed by the closing bracket, or by a comma and further items. -/
theorem itemsRead_succ {size fuel : Nat} (hvalue : ValueReads size fuel)
    (hitems : ItemsRead size fuel) : ItemsRead size (fuel + 1) := by
  intro j js level inner ws rest hws hs hf
  refine (hvalue j level ws _ hws (by omega) (by omega)
    (numberEnds_prettyItems level inner js _)).bind ?_
  cases js with
  | nil =>
    rw [prettyItems, String.toList_empty, List.nil_append]
    refine (reads_skipSpace (fun c hc => isSpace_of_mem_lineBreak hc) (by simp [isSpace])).bind ?_
    exact (reads_skip? ']' rest).bind (reads_pure _ _)
  | cons k ks =>
    have he : (prettyItems level (k :: ks)).toList = ',' :: ((lineBreak level).toList ++
        ((pretty level k).toList ++ (prettyItems level ks).toList)) := by simp [prettyItems]
    have hbreak := length_lineBreak level
    rw [he, List.length_cons, List.length_append, List.length_append] at hs hf
    simp only [he, List.cons_append, List.append_assoc]
    refine (reads_noSpace (by simp [isSpace])).bind ?_
    refine (reads_skip?_of_ne (by simp)).bind ?_
    refine (reads_char ',' _).bind ?_
    have hread := hitems k ks level inner (lineBreak level).toList rest
      (fun c hc => isSpace_of_mem_lineBreak hc) (by omega) (by omega)
    exact hread.bind (reads_pure _ _)

/-- A field is followed by the closing brace, or by a comma and further fields. -/
theorem fieldsRead_succ {size fuel : Nat} (hvalue : ValueReads size fuel)
    (hfields : FieldsRead size fuel) : FieldsRead size (fuel + 1) := by
  intro f fs level inner ws rest hws hs hf
  obtain ⟨k, j⟩ := f
  have hfield := toList_prettyField level (k, j)
  have hkey : (quote k).toList.length + (pretty level j).toList.length <
      (prettyField level (k, j)).toList.length := by
    rw [hfield, toList_quote]
    simp only [List.length_cons, List.length_append, List.length_nil]
    omega
  rw [hfield]
  simp only [List.cons_append, List.append_assoc]
  refine (reads_skipSpace hws (by simp [isSpace])).bind ?_
  refine (reads_char '\x22' _).bind ((reads_string (by omega) _).bind ?_)
  refine (reads_noSpace (by simp [isSpace])).bind ?_
  refine (reads_char ':' _).bind ?_
  refine (hvalue j level [' '] _ (by simp [isSpace]) (by omega) (by omega)
    (numberEnds_prettyFields level inner fs _)).bind ?_
  cases fs with
  | nil =>
    rw [prettyFields, String.toList_empty, List.nil_append]
    refine (reads_skipSpace (fun c hc => isSpace_of_mem_lineBreak hc) (by simp [isSpace])).bind ?_
    exact (reads_skip? '\x7d' rest).bind (reads_pure _ _)
  | cons g gs =>
    have he : (prettyFields level (g :: gs)).toList = ',' :: ((lineBreak level).toList ++
        ((prettyField level g).toList ++ (prettyFields level gs).toList)) := by
      simp [prettyFields]
    have hbreak := length_lineBreak level
    rw [he, List.length_cons, List.length_append, List.length_append] at hs hf
    simp only [he, List.cons_append, List.append_assoc]
    refine (reads_noSpace (by simp [isSpace])).bind ?_
    refine (reads_skip?_of_ne (by simp)).bind ?_
    refine (reads_char ',' _).bind ?_
    have hread := hfields g gs level inner (lineBreak level).toList rest
      (fun c hc => isSpace_of_mem_lineBreak hc) (by omega) (by omega)
    exact hread.bind (reads_pure _ _)

/-- Everything that was written is read back, if the fuel lasts: by the fuel. -/
theorem reads_written (size fuel : Nat) :
    ValueReads size fuel ∧ ItemsRead size fuel ∧ FieldsRead size fuel := by
  induction fuel with
  | zero =>
    refine ⟨?_, ?_, ?_⟩
    · intro j level ws rest _ _ hf
      omega
    · intro j js level inner ws rest _ _ hf
      omega
    · intro f fs level inner ws rest _ _ hf
      omega
  | succ fuel ih =>
    obtain ⟨hvalue, hitems, hfields⟩ := ih
    exact ⟨valueReads_succ hitems hfields, itemsRead_succ hvalue hitems,
      fieldsRead_succ hvalue hfields⟩

/-- **The text of a value is read back as that value.** -/
theorem parse?_toText (j : Json) : parse? j.toText = some j := by
  let size := j.toText.toList.length
  have hvalue := (reads_written size (2 * size + 2)).1 j 0 [] [] (by simp) (Nat.le_refl _)
    (show size < 2 * size + 2 by omega) (by intro c hc; cases hc)
  rw [List.append_nil, List.nil_append] at hvalue
  have hread : Reads (do let v ← value size (2 * size + 2); skipSpace; return v)
      (pretty 0 j).toList j [] :=
    hvalue.bind ((reads_noSpace (by simp)).bind
      (reads_pure j []))
  unfold Reads at hread
  show Reader.parse? _ (pretty 0 j).toList = some j
  rw [Reader.parse?, hread]

end Json

end WikiExpansion
