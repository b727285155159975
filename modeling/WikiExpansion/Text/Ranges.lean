/-!
# Ranges of characters

A class of characters as the closed ranges of their code points.
-/

namespace WikiExpansion.Text

def inRanges (ranges : List (Nat × Nat)) (c : Char) : Bool :=
  ranges.any fun r => decide (r.1 ≤ c.toNat ∧ c.toNat ≤ r.2)

end WikiExpansion.Text
