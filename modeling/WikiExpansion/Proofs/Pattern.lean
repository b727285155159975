import Mathlib.Data.List.Infix
import WikiExpansion.Proofs.Fragment

/-!
# Splitting as a search for a pattern

The form of a key that holds a whole attribute is `([^=]+)=['"]?([^'"]*)['"]?$`.  A
pattern is read with preferences: of two repetitions the longer one comes first, an
option is taken before it is left out, and a match further left comes before all others.
The ways in which a pattern matches are listed in this order (`Pattern.ways`), and a
search answers with the first (`Pattern.search`).

`KeyValue.split?` looks for a value once behind each `=`, and never tries another length
or another start.  It is that search (`split?_eq_search`), for two reasons.  What follows
a repetition here fails on the characters that are repeated, so only the longest one
counts (`tries_star`).  And all starts within one run of characters other than `=` have
the same value behind the run, so they match together or not at all (`search_skip`).
-/

namespace WikiExpansion

/-- A pattern over the characters of a text. -/
inductive Pattern where
  | one (p : Char → Bool)
  /-- Any number of characters of the class, preferably many. -/
  | star (p : Char → Bool)
  | seq (a b : Pattern)
  | opt (a : Pattern)
  | group (n : Nat) (a : Pattern)
  | atEnd

structure Way where
  taken : List Char
  groups : List (Nat × List Char)
  rest : List Char

namespace Way

def stay (cs : List Char) : Way := ⟨[], [], cs⟩

def append (w u : Way) : Way := ⟨w.taken ++ u.taken, w.groups ++ u.groups, u.rest⟩

def keep (n : Nat) (w : Way) : Way := ⟨w.taken, (n, w.taken) :: w.groups, w.rest⟩

end Way

namespace Pattern

def runs (p : Char → Bool) : List Char → List Way
  | [] => [.stay []]
  | c :: cs =>
    if p c then (runs p cs).map (Way.append ⟨[c], [], cs⟩) ++ [.stay (c :: cs)]
    else [.stay (c :: cs)]

/-- The ways in which a pattern matches at the start of a text, in order of preference. -/
def ways : Pattern → List Char → List Way
  | one p, cs =>
    match cs with
    | [] => []
    | c :: cs => if p c then [⟨[c], [], cs⟩] else []
  | star p, cs => runs p cs
  | seq a b, cs => (a.ways cs).flatMap fun w => (b.ways w.rest).map w.append
  | opt a, cs => a.ways cs ++ [.stay cs]
  | group n a, cs => (a.ways cs).map (Way.keep n)
  | atEnd, cs => if cs.isEmpty then [.stay []] else []

def first (a : Pattern) (cs : List Char) : Option (List (Nat × List Char)) :=
  (a.ways cs).head?.map Way.groups

/-- The groups of the match that starts furthest left. -/
def search (a : Pattern) (cs : List Char) : Option (List (Nat × List Char)) :=
  cs.tails.findSome? a.first

theorem search_nil (a : Pattern) : a.search [] = a.first [] := by
  rw [search, List.tails, List.findSome?_singleton]

theorem search_cons (a : Pattern) (c : Char) (cs : List Char) :
    a.search (c :: cs) = (a.first (c :: cs)).or (a.search cs) := by
  rw [search, List.tails_cons, List.findSome?_cons, ← search]
  cases a.first (c :: cs) <;> rfl

def plus (p : Char → Bool) : Pattern := seq (one p) (star p)

/-! ### The first way that leads on -/

section

variable {β : Type} {k : Way → Option β}

/-- What comes of the first way that leads on. -/
def tries (a : Pattern) (cs : List Char) (k : Way → Option β) : Option β :=
  (a.ways cs).findSome? k

theorem first_eq_tries (a : Pattern) (cs : List Char) :
    a.first cs = a.tries cs fun w => some w.groups := by
  unfold first tries
  cases a.ways cs <;> rfl

theorem tries_one_cons (p : Char → Bool) (c : Char) (cs : List Char) :
    (one p).tries (c :: cs) k = if p c then k ⟨[c], [], cs⟩ else none := by
  rw [tries, ways]
  split <;> simp

theorem tries_seq (a b : Pattern) (cs : List Char) :
    (seq a b).tries cs k = a.tries cs fun w => b.tries w.rest (k ∘ w.append) := by
  rw [tries, ways]
  unfold tries
  induction a.ways cs with
  | nil => rfl
  | cons w ws ih =>
    rw [List.flatMap_cons, List.findSome?_append, List.findSome?_map, ih, List.findSome?_cons]
    cases List.findSome? (k ∘ w.append) (b.ways w.rest) <;> rfl

theorem tries_opt (a : Pattern) (cs : List Char) :
    (opt a).tries cs k = (a.tries cs k).or (k (.stay cs)) := by
  rw [tries, ways, List.findSome?_append, List.findSome?_singleton]
  rfl

theorem tries_group (n : Nat) (a : Pattern) (cs : List Char) :
    (group n a).tries cs k = a.tries cs (k ∘ Way.keep n) := by
  rw [tries, ways, List.findSome?_map]
  rfl

theorem tries_atEnd (cs : List Char) :
    atEnd.tries cs k = if cs.isEmpty then k (.stay []) else none := by
  rw [tries, ways]
  split <;> simp

/-- Of a repetition only the longest one counts, where all that follows it fails on
the characters of the class. -/
theorem tries_star {p : Char → Bool} (cs : List Char)
    (h : ∀ t c ds, p c = true → k ⟨t, [], c :: ds⟩ = none) :
    (star p).tries cs k = k ⟨cs.takeWhile p, [], cs.dropWhile p⟩ := by
  change (runs p cs).findSome? k = _
  induction cs generalizing k with
  | nil => exact List.findSome?_singleton
  | cons c cs ih =>
    by_cases hc : p c = true
    · have hstay : k (.stay (c :: cs)) = none := h [] c cs hc
      rw [runs, if_pos hc, List.findSome?_append, List.findSome?_map,
        ih fun t d ds hd => h (c :: t) d ds hd, List.takeWhile_cons_of_pos hc,
        List.dropWhile_cons_of_pos hc, List.findSome?_singleton, hstay, Option.or_none]
      rfl
    · rw [runs, if_neg hc, List.takeWhile_cons_of_neg hc, List.dropWhile_cons_of_neg hc,
        List.findSome?_singleton]
      rfl

theorem tries_plus {p : Char → Bool} (cs : List Char)
    (h : ∀ t c ds, p c = true → k ⟨t, [], c :: ds⟩ = none) :
    (plus p).tries cs k =
      if cs.takeWhile p = [] then none else k ⟨cs.takeWhile p, [], cs.dropWhile p⟩ := by
  rw [plus, tries_seq]
  cases cs with
  | nil => rfl
  | cons c cs =>
    rw [tries_one_cons]
    by_cases hc : p c = true
    · rw [if_pos hc, tries_star cs fun t d ds hd => h (c :: t) d ds hd,
        List.takeWhile_cons_of_pos hc, List.dropWhile_cons_of_pos hc, if_neg (List.cons_ne_nil _ _)]
      rfl
    · rw [if_neg hc, List.takeWhile_cons_of_neg hc, if_pos rfl]

end

end Pattern

namespace KeyValue

open Pattern

def endPattern : Pattern := .seq (.opt (.one isQuote)) .atEnd

/-- A value without quotes, in optional quotes, up to the end of the text. -/
def valuePattern : Pattern :=
  .seq (.opt (.one isQuote)) (.seq (.group 2 (.star (!isQuote ·))) endPattern)

/-- A key, the sign and a value. -/
def pattern : Pattern := .seq (.group 1 (.plus (· != '='))) (.seq (.one (· == '=')) valuePattern)

def unclosed? (cs : List Char) : Option (List Char) :=
  match cs.dropWhile (!isQuote ·) with
  | [] | [_] => some (cs.takeWhile (!isQuote ·))
  | _ => none

theorem value?_eq_unclosed? (cs : List Char) : value? cs = unclosed? (dropQuote cs) := rfl

theorem unclosed?_quote {c d : Char} (hc : isQuote c = true) (cs : List Char) :
    unclosed? (c :: d :: cs) = none := by
  rw [unclosed?, List.dropWhile_cons_of_neg (by rw [hc]; decide)]

section

variable {β : Type} (f : List (Nat × List Char) → Option β)

/-! ### The value -/

theorem tries_endPattern (cs : List Char) :
    endPattern.tries cs (fun w => f w.groups) =
      match cs with
      | [] => f []
      | [c] => if isQuote c then f [] else none
      | _ => none := by
  rw [endPattern, tries_seq, tries_opt, tries_atEnd]
  match cs with
  | [] => rfl
  | [c] =>
    rw [tries_one_cons, tries_atEnd]
    exact Option.or_none
  | c :: d :: cs =>
    rw [tries_one_cons, tries_atEnd]
    split <;> rfl

/-- Behind the first quote, the value is what stands before the next one. -/
theorem tries_unclosed (cs : List Char) :
    (seq (group 2 (star (!isQuote ·))) endPattern).tries cs (fun w => f w.groups) =
      (unclosed? cs).bind fun v => f [(2, v)] := by
  have hend (t ds : List Char) := tries_endPattern (fun gs => f ((2, t) :: gs)) ds
  rw [tries_seq, tries_group, tries_star]
  · refine (hend (cs.takeWhile (!isQuote ·)) (cs.dropWhile (!isQuote ·))).trans ?_
    have hquote := List.head?_dropWhile_not (!isQuote ·) cs
    rw [unclosed?]
    match cs.dropWhile (!isQuote ·), hquote with
    | [], _ => rfl
    | [c], hc => exact if_pos (by simpa using hc)
    | _ :: _ :: _, _ => rfl
  · intro t c ds hc
    refine (hend t (c :: ds)).trans ?_
    cases ds with
    | nil => exact if_neg (by simpa using hc)
    | cons d ds => rfl

/-- It makes no difference that the first quote may be left to the value: no other one
can follow it then. -/
theorem tries_value (cs : List Char) :
    valuePattern.tries cs (fun w => f w.groups) = (value? cs).bind fun v => f [(2, v)] := by
  rw [value?_eq_unclosed?, ← tries_unclosed, valuePattern, tries_seq, tries_opt]
  cases cs with
  | nil => rfl
  | cons c cs =>
    rw [tries_one_cons, dropQuote]
    by_cases hc : isQuote c = true
    · rw [if_pos hc, if_pos hc]
      change (tries _ cs fun w => f w.groups).or (tries _ (c :: cs) fun w => f w.groups) = _
      rw [tries_unclosed, tries_unclosed]
      cases cs with
      | nil =>
        have hone : unclosed? [c] = unclosed? [] := by simp [unclosed?, hc]
        rw [hone, Option.or_self]
      | cons d cs => rw [unclosed?_quote hc, Option.bind_none, Option.or_none]
    · rw [if_neg hc, if_neg hc]
      rfl

/-! ### The key -/

theorem tries_sign_cons (g : Way → Option β) (c : Char) (cs : List Char) :
    (seq (one (· == '=')) valuePattern).tries (c :: cs) g =
      if c = '=' then valuePattern.tries cs (g ∘ Way.append ⟨[c], [], cs⟩) else none := by
  simp only [tries_seq, tries_one_cons, beq_iff_eq]

theorem tries_pattern (cs : List Char) :
    pattern.tries cs (fun w => f w.groups) =
      if cs.takeWhile (· != '=') = [] then none else
        match cs.dropWhile (· != '=') with
        | [] => none
        | _ :: ds => (value? ds).bind fun v => f [(1, cs.takeWhile (· != '=')), (2, v)] := by
  rw [pattern, tries_seq, tries_group, tries_plus]
  · congr 1
    have hsign := List.head?_dropWhile_not (· != '=') cs
    rw [Function.comp_apply]
    match hd : cs.dropWhile (· != '='), hsign with
    | [], _ => rfl
    | c :: ds, hc =>
      obtain rfl : c = '=' := by simpa using hc
      simp only [Way.keep]
      rw [tries_sign_cons, if_pos rfl]
      exact tries_value (fun gs => f ((1, cs.takeWhile (· != '=')) :: gs)) ds
  · intro t c ds hc
    refine (tries_sign_cons _ c ds).trans (if_neg ?_)
    simpa using hc

end

/-! ### The search -/

theorem bne_sign {r : List Char} (hr : '=' ∉ r) : ∀ c ∈ r, (c != '=') = true :=
  fun _ hc => bne_iff_ne.2 fun he => hr (he ▸ hc)

theorem first_append {r : List Char} (hr : '=' ∉ r) (cs : List Char) :
    pattern.first (r ++ '=' :: cs) =
      if r = [] then none else (value? cs).map fun v => [(1, r), (2, v)] := by
  rw [first_eq_tries, tries_pattern, List.takeWhile_append_of_pos (bne_sign hr),
    List.dropWhile_append_of_pos (bne_sign hr), List.takeWhile_cons_of_neg (by decide),
    List.dropWhile_cons_of_neg (by decide), List.append_nil, Option.map_eq_bind]
  rfl

theorem first_of_not_mem {cs : List Char} (hcs : '=' ∉ cs) : pattern.first cs = none := by
  rw [first_eq_tries, tries_pattern, List.dropWhile_eq_nil_iff.2 (bne_sign hcs), ite_self]

theorem search_of_not_mem {cs : List Char} (hcs : '=' ∉ cs) : pattern.search cs = none := by
  induction cs with
  | nil => rw [search_nil, first_of_not_mem hcs]
  | cons c cs ih =>
    rw [search_cons, first_of_not_mem hcs, ih fun h => hcs (List.mem_cons_of_mem _ h),
      Option.or_none]

theorem search_of_value {r cs v : List Char} (hr : '=' ∉ r) (hne : r ≠ [])
    (hv : value? cs = some v) : pattern.search (r ++ '=' :: cs) = some [(1, r), (2, v)] := by
  cases r with
  | nil => exact absurd rfl hne
  | cons c r =>
    rw [List.cons_append, search_cons, ← List.cons_append, first_append hr, if_neg hne, hv]
    rfl

/-- Where a run of other characters has no value behind it, no start within it has one. -/
theorem search_skip {r cs : List Char} (hr : '=' ∉ r) (h : ∀ v, r ≠ [] → value? cs ≠ some v) :
    pattern.search (r ++ '=' :: cs) = pattern.search cs := by
  induction r with
  | nil =>
    have hfirst : pattern.first ('=' :: cs) = none := first_append hr cs
    rw [List.nil_append, search_cons, hfirst, Option.none_or]
  | cons c r ih =>
    have hv : value? cs = none :=
      Option.eq_none_iff_forall_not_mem.2 fun v => h v (List.cons_ne_nil c r)
    rw [List.cons_append, search_cons, ← List.cons_append, first_append hr, hv,
      Option.map_none, ite_self, Option.none_or,
      ih (fun hm => hr (List.mem_cons_of_mem c hm)) fun v _ => h v (List.cons_ne_nil c r)]

theorem search_eq_splitFrom (cs : List Char) :
    pattern.search cs = (splitFrom [] cs).map fun kv => [(1, kv.1), (2, kv.2)] := by
  induction cs using sign_induction with
  | unsigned cs hcs => rw [search_of_not_mem hcs, splitFrom_of_not_mem hcs]; rfl
  | value r cs v hr hne hv => rw [search_of_value hr hne hv, splitFrom_of_value hr hne hv]; rfl
  | skip r cs hr h ih => rw [search_skip hr h, splitFrom_skip hr h, ih]

/-- **A text is split into the groups of the first match.** -/
theorem split?_eq_search (s : String) :
    split? s = (pattern.search s.toList).bind fun groups =>
      (groups.lookup 1).bind fun k =>
        (groups.lookup 2).map fun v => (String.ofList k, String.ofList v) := by
  rw [search_eq_splitFrom, split?]
  cases splitFrom [] s.toList <;> rfl

/-- The start of the text has no value up to its end, and so the match begins behind the
first sign. -/
example : pattern.search "x='a'b=\"c\"".toList = some [(1, "'a'b".toList), (2, ['c'])] := by
  rfl

end KeyValue

end WikiExpansion
