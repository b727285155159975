/-!
# Blank characters and words

A word is a run of characters without blanks that no further character extends.
A blank is any of the twenty-five characters with the Unicode property
`White_Space`, which is more than the ASCII ones.
-/

namespace WikiExpansion.Text

/-- The ranges of the property `White_Space`, in code point order. -/
def blankRanges : List (Nat × Nat) :=
  [(0x9, 0xD), (0x20, 0x20), (0x85, 0x85), (0xA0, 0xA0), (0x1680, 0x1680), (0x2000, 0x200A),
    (0x2028, 0x2029), (0x202F, 0x202F), (0x205F, 0x205F), (0x3000, 0x3000)]

def isBlank (c : Char) : Bool :=
  blankRanges.any fun r => decide (r.1 ≤ c.toNat ∧ c.toNat ≤ r.2)

example : (blankRanges.map fun r => r.2 + 1 - r.1).sum = 25 := by decide

/-- A word in front of other words; no characters are no word. -/
def consWord (w : List Char) (ws : List (List Char)) : List (List Char) :=
  if w = [] then ws else w :: ws

/-- The characters up to the first blank, and the words after it. -/
def splitWords : List Char → List Char × List (List Char)
  | [] => ([], [])
  | c :: cs =>
    let (w, ws) := splitWords cs
    if isBlank c then ([], consWord w ws) else (c :: w, ws)

def wordsOf (cs : List Char) : List (List Char) :=
  consWord (splitWords cs).1 (splitWords cs).2

def words (s : String) : List String := (wordsOf s.toList).map String.ofList

theorem splitWords_blank {c : Char} (h : isBlank c = true) (cs : List Char) :
    splitWords (c :: cs) = ([], wordsOf cs) := by
  simp [splitWords, h, wordsOf]

theorem splitWords_nonblank {c : Char} (h : isBlank c = false) (cs : List Char) :
    splitWords (c :: cs) = (c :: (splitWords cs).1, (splitWords cs).2) := by
  simp [splitWords, h]

theorem not_isBlank_of_mem_splitWords (cs : List Char) :
    (∀ c ∈ (splitWords cs).1, isBlank c = false) ∧
      ∀ w ∈ (splitWords cs).2, w ≠ [] ∧ ∀ c ∈ w, isBlank c = false := by
  induction cs with
  | nil => exact ⟨nofun, nofun⟩
  | cons c cs ih =>
    cases h : isBlank c with
    | false =>
      rw [splitWords_nonblank h]
      refine ⟨fun d hd => ?_, ih.2⟩
      rcases List.mem_cons.1 hd with rfl | hd
      · exact h
      · exact ih.1 d hd
    | true =>
      rw [splitWords_blank h, wordsOf, consWord]
      refine ⟨nofun, fun w hw => ?_⟩
      split at hw
      · exact ih.2 w hw
      · rename_i hne
        rcases List.mem_cons.1 hw with rfl | hw
        · exact ⟨hne, ih.1⟩
        · exact ih.2 w hw

theorem isWord_of_mem_wordsOf {w cs : List Char} (h : w ∈ wordsOf cs) :
    w ≠ [] ∧ ∀ c ∈ w, isBlank c = false := by
  have hs := not_isBlank_of_mem_splitWords cs
  rw [wordsOf, consWord] at h
  split at h
  · exact hs.2 w h
  · rename_i hne
    rcases List.mem_cons.1 h with rfl | h
    · exact ⟨hne, hs.1⟩
    · exact hs.2 w h

end WikiExpansion.Text
