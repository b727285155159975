import WikiExpansion.Binary64.Basic

/-!
# Ranks

A handler has a rank, which is any floating point number, and among handlers of
equal rank the number of its registration.  The two together are its position,
and positions are ordered by the total order of the ranks first.
-/

namespace WikiExpansion

abbrev Rank : Type := Binary64

namespace Rank

/-- 1.1, where templates are expanded. -/
def templates : Rank := ⟨0x3ff199999999999a⟩

/-- 1.12, where attributes are expanded. -/
def attributes : Rank := ⟨0x3ff1eb851eb851ec⟩

end Rank

example : Binary64.key Rank.templates < Binary64.key Rank.attributes := by decide

structure Position where
  rank : Rank
  number : Nat
deriving DecidableEq, Inhabited

namespace Position

def Before (p q : Position) : Prop :=
  p.rank.key < q.rank.key ∨ p.rank = q.rank ∧ p.number < q.number

instance (p q : Position) : Decidable (p.Before q) := by
  unfold Before
  infer_instance

theorem not_before_self (p : Position) : ¬ p.Before p := by
  rintro (h | ⟨-, h⟩)
  · omega
  · omega

theorem Before.trans {p q r : Position} (h : p.Before q) (h' : q.Before r) : p.Before r := by
  rcases h with h | ⟨hr, h⟩
  · rcases h' with h' | ⟨hr', -⟩
    · exact Or.inl (by omega)
    · exact Or.inl (hr' ▸ h)
  · rcases h' with h' | ⟨hr', h'⟩
    · exact Or.inl (hr ▸ h')
    · exact Or.inr ⟨hr.trans hr', by omega⟩

end Position

end WikiExpansion
