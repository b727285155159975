import Mathlib.Data.List.DropRight
import Mathlib.Tactic.IntervalCases
import WikiExpansion.Proofs.Fragment

/-!
# The sign at which a text is split

A text is split at one of its signs.  An `=` is admissible where some other character
stands right before it and where a value in optional quotes stands behind it and reaches
to the end of the text.  The first admissible sign is the one (`infer?_at_first_sign`):
the key is the run of other characters before it, and the value is what stands behind
it without a quote at either end.

A fragment that a text splits into (`SplitsAt`) begins where the key of an admissible
sign does, and no sign stands within a key, so fragments and admissible signs come in
the same order.
-/

namespace WikiExpansion.KeyValue

/-- At `p` stands an `=` with another character right before it, and behind it, up to
the end, a value in optional quotes. -/
structure Admissible (cs : List Char) (p : Nat) : Prop where
  sign : cs[p]? = some '='
  before : 0 < p ∧ ∃ c, cs[p - 1]? = some c ∧ c ≠ '='
  behind : ∃ q₁ v q₂, AtMostQuote q₁ ∧ AtMostQuote q₂ ∧ (∀ c ∈ v, isQuote c = false) ∧
    cs.drop (p + 1) = q₁ ++ v ++ q₂

def FirstAdmissible (cs : List Char) (p : Nat) : Prop :=
  Admissible cs p ∧ ∀ q, q < p → ¬ Admissible cs q

/-- The longest run of characters other than `=` that ends right before `p`. -/
def keyBefore (cs : List Char) (p : Nat) : List Char := (cs.take p).rtakeWhile (· ≠ '=')

def unquoted (cs : List Char) : List Char := (dropQuote (dropQuote cs).reverse).reverse

/-! ### The value -/

theorem dropQuote_of_free {v : List Char} (hv : ∀ c ∈ v, isQuote c = false) : dropQuote v = v := by
  cases v with
  | nil => rfl
  | cons c v =>
    have hc := hv c List.mem_cons_self
    rw [dropQuote, hc, if_neg Bool.false_ne_true]

theorem unquoted_append {q₁ q₂ v : List Char} (hq₁ : AtMostQuote q₁) (hq₂ : AtMostQuote q₂)
    (hv : ∀ c ∈ v, isQuote c = false) : unquoted (q₁ ++ v ++ q₂) = v := by
  have hback : ∀ c ∈ v.reverse, isQuote c = false := by
    intro c hc
    exact hv c (List.mem_reverse.1 hc)
  rw [unquoted]
  rcases dropQuote_append hq₁ hq₂ hv with hd | ⟨rfl, hd⟩
  · rw [hd, List.reverse_append]
    rcases hq₂ with rfl | ⟨c, hc, rfl⟩
    · rw [List.reverse_nil, List.nil_append, dropQuote_of_free hback, List.reverse_reverse]
    · rw [List.reverse_singleton, List.singleton_append, dropQuote, hc, if_pos rfl,
        List.reverse_reverse]
  · rw [hd]
    rfl

/-! ### The key -/

theorem rtakeWhile_append_key {lead k : List Char} (hlead : lead = [] ∨ ∃ l, lead = l ++ ['='])
    (hk : '=' ∉ k) : (lead ++ k).rtakeWhile (· ≠ '=') = k := by
  have hall : ∀ c ∈ k.reverse, (decide (c ≠ '=')) = true := by
    intro c hc
    refine decide_eq_true ?_
    rintro rfl
    exact hk (List.mem_reverse.1 hc)
  rw [List.rtakeWhile, List.reverse_append, List.takeWhile_append_of_pos hall]
  rcases hlead with rfl | ⟨l, rfl⟩
  · simp
  · simp

theorem rdropWhile_eq_nil_or (l : List Char) :
    l.rdropWhile (· ≠ '=') = [] ∨ ∃ m, l.rdropWhile (· ≠ '=') = m ++ ['='] := by
  by_cases h : l.rdropWhile (· ≠ '=') = []
  · exact .inl h
  · have hlast := List.rdropWhile_last_not _ l h
    have heq : (l.rdropWhile (· ≠ '=')).getLast h = '=' := by simpa using hlast
    have hsplit := List.dropLast_append_getLast h
    rw [heq] at hsplit
    exact .inr ⟨_, hsplit.symm⟩

/-! ### Signs and fragments -/

/-- A text that splits has an admissible sign, with that key and that value. -/
theorem SplitsAt.admissible {cs lead k v : List Char} (h : SplitsAt cs lead k v) :
    Admissible cs (lead.length + k.length) ∧ keyBefore cs (lead.length + k.length) = k ∧
      unquoted (cs.drop (lead.length + k.length + 1)) = v := by
  obtain ⟨hlead, frag, rfl, hf⟩ := h
  obtain ⟨q₁, q₂, hq₁, hq₂, rfl⟩ := hf.whole
  rw [← List.append_assoc, ← List.length_append]
  have hdrop : (lead ++ k ++ '=' :: (q₁ ++ v ++ q₂)).drop ((lead ++ k).length + 1) =
      q₁ ++ v ++ q₂ := by
    rw [List.drop_append, List.drop_eq_nil_of_le (by omega), Nat.add_sub_cancel_left,
      List.nil_append, List.drop_one, List.tail_cons]
  refine ⟨⟨?_, ?_, q₁, v, q₂, hq₁, hq₂, hf.value, hdrop⟩, ?_, ?_⟩
  · rw [List.getElem?_append_right (Nat.le_refl _), Nat.sub_self, List.getElem?_cons_zero]
  · -- the character before the sign is the last one of the key
    obtain ⟨k', c, rfl⟩ := (List.eq_nil_or_concat' k).resolve_left hf.key_ne_nil
    have hlast : (lead ++ (k' ++ [c])).length = (lead ++ k').length + 1 := by
      rw [← List.append_assoc, List.length_append, List.length_singleton]
    refine ⟨by omega, c, ?_, ?_⟩
    · rw [hlast, Nat.add_sub_cancel, ← List.append_assoc, List.append_assoc,
        List.getElem?_append_right (Nat.le_refl _), Nat.sub_self]
      rfl
    · rintro rfl
      exact hf.key (List.mem_append_right k' List.mem_cons_self)
  · rw [keyBefore, List.take_left]
    exact rtakeWhile_append_key hlead hf.key
  · rw [hdrop, unquoted_append hq₁ hq₂ hf.value]

theorem Admissible.splitsAt {cs : List Char} {p : Nat} (h : Admissible cs p) :
    ∃ lead, lead.length + (keyBefore cs p).length = p ∧
      SplitsAt cs lead (keyBefore cs p) (unquoted (cs.drop (p + 1))) := by
  obtain ⟨hp, hsign⟩ := List.getElem?_eq_some_iff.1 h.sign
  obtain ⟨hpos, c, hc, hne⟩ := h.before
  obtain ⟨q₁, v, q₂, hq₁, hq₂, hv, hbehind⟩ := h.behind
  have hrun : (cs.take p).rdropWhile (· ≠ '=') ++ keyBefore cs p = cs.take p :=
    List.rdropWhile_append_rtakeWhile
  refine ⟨(cs.take p).rdropWhile (· ≠ '='), ?_, rdropWhile_eq_nil_or _, ?_⟩
  · have hlen := congrArg List.length hrun
    rw [List.length_append, List.length_take] at hlen
    omega
  · refine ⟨keyBefore cs p ++ '=' :: cs.drop (p + 1), ?_, ?_, ?_, ?_, q₁, q₂, hq₁, hq₂, ?_⟩
    · rw [← List.append_assoc, hrun, ← hsign, ← List.drop_eq_getElem_cons hp,
        List.take_append_drop]
    · intro hnil
      have hlast : cs.take p ≠ [] := by
        intro hempty
        have hlen := congrArg List.length hempty
        rw [List.length_take, List.length_nil] at hlen
        omega
      refine List.rtakeWhile_eq_nil_iff.1 hnil hlast ?_
      have hend : (cs.take p).getLast hlast = c := by
        have hget : (cs.take p).getLast? = some c := by
          rw [List.getLast?_eq_getElem?, List.length_take, Nat.min_eq_left (Nat.le_of_lt hp),
            List.getElem?_take_of_lt (by omega), hc]
        exact Option.some.inj ((List.getLast?_eq_some_getLast hlast).symm.trans hget)
      rw [hend]
      exact decide_eq_true hne
    · intro hmem
      have := List.mem_rtakeWhile_imp hmem
      simp at this
    · rw [hbehind, unquoted_append hq₁ hq₂ hv]
      exact hv
    · rw [hbehind, unquoted_append hq₁ hq₂ hv]

/-- No sign stands within a key, so the fragment of an earlier sign begins earlier. -/
theorem FirstAdmissible.splitsFirst {cs : List Char} {p : Nat} (h : FirstAdmissible cs p) :
    ∃ lead, SplitsFirst cs lead (keyBefore cs p) (unquoted (cs.drop (p + 1))) := by
  obtain ⟨lead, hlen, hs⟩ := h.1.splitsAt
  refine ⟨lead, hs, ?_⟩
  intro lead' k' v' hs'
  obtain ⟨hadm, hkey, -⟩ := hs'.admissible
  have hle : p ≤ lead'.length + k'.length := by
    by_contra hlt
    exact h.2 _ (by omega) hadm
  by_cases heq : p = lead'.length + k'.length
  · rw [← heq] at hkey
    rw [hkey] at hlen
    omega
  · -- the sign at `p` would stand in the key of the other fragment
    by_contra hlt
    obtain ⟨-, frag, rfl, hf⟩ := hs'
    obtain ⟨q₁, q₂, -, -, rfl⟩ := hf.whole
    have hsign := h.1.sign
    rw [List.getElem?_append_right (by omega), List.getElem?_append_left (by omega)] at hsign
    exact hf.key (List.mem_of_getElem? hsign)

/-! ### Keys -/

def leading : Content Token → String × List Token
  | .text s => (s, [])
  | .tokens ts => leadingText ts

/-- A value that was split off, before the tokens that stay behind it. -/
def heldBefore (v : String) : List Token → Content Token
  | [] => .text v
  | t :: ts => .tokens (.text v :: t :: ts)

theorem infer?_eq_map (key : Content Token) :
    infer? key =
      (split? (leading key).1).map fun kv => (kv.1, heldBefore kv.2 (leading key).2) := by
  cases key with
  | text s => rfl
  | tokens ts =>
    rw [infer?, leading]
    rcases leadingText ts with ⟨s, rest⟩
    cases rest with
    | nil => rfl
    | cons t rest => rfl

/-- **A key is split at its first admissible sign**, and not at all where it has none.
Of a token key the text before the first tag or marker is split; what is left of it
stands behind the value. -/
theorem infer?_at_first_sign (key : Content Token) :
    (infer? key = none ↔ ∀ p, ¬ Admissible (leading key).1.toList p) ∧
    ∀ p, FirstAdmissible (leading key).1.toList p →
      infer? key = some (String.ofList (keyBefore (leading key).1.toList p),
        heldBefore (String.ofList (unquoted ((leading key).1.toList.drop (p + 1))))
          (leading key).2) := by
  rw [infer?_eq_map, split?]
  refine ⟨?_, ?_⟩
  · rw [Option.map_map, Option.map_eq_none_iff, splitFrom_eq_none_iff]
    constructor
    · intro h p hp
      obtain ⟨lead, -, hs⟩ := hp.splitsAt
      exact h _ _ _ hs
    · intro h lead k v hs
      exact h _ hs.admissible.1
  · intro p hp
    rw [splitFrom_eq_some_iff.2 hp.splitsFirst]
    rfl

def quotedKey : Content Token :=
  .tokens [.text "x='a'b", .text "=c\"", .closing ⟨"i", [], {}⟩]

theorem infer?_at_first_sign_quoted :
    FirstAdmissible (leading quotedKey).1.toList 6 ∧
      infer? quotedKey = some ("'a'b", .tokens [.text "c", .closing ⟨"i", [], {}⟩]) := by
  have hfree : ∀ c ∈ ['c'], isQuote c = false := by
    intro c hc
    obtain rfl := List.mem_singleton.1 hc
    rfl
  have hfirst : FirstAdmissible (leading quotedKey).1.toList 6 := by
    refine ⟨⟨rfl, ⟨by decide, 'b', rfl, by decide⟩, [], ['c'], ['"'], .inl rfl,
      .inr ⟨'"', rfl, rfl⟩, hfree, rfl⟩, ?_⟩
    intro q hq hadm
    have hone : q = 1 := by
      have hsign := hadm.sign
      interval_cases q <;> first | rfl | cases hsign
    subst hone
    obtain ⟨q₁, v, q₂, hq₁, hq₂, hv, hbehind⟩ := hadm.behind
    cases value?_eq_some_iff.2 ⟨hv, q₁, q₂, hq₁, hq₂, hbehind⟩
  exact ⟨hfirst, (infer?_at_first_sign quotedKey).2 6 hfirst⟩

end WikiExpansion.KeyValue
