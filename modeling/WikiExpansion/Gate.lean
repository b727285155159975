/-!
# Gates

A gate lets one result through.  It stands before every continuation that could
be called from more than one place; whoever comes first gets through, whichever
copy of the gate they hold.
-/

namespace WikiExpansion

structure Gate where
  passed : Bool := false
deriving DecidableEq, Inhabited

/-- Whether a result gets through now, and the gate after it. -/
def Gate.pass (g : Gate) : Bool × Gate := (!g.passed, ⟨true⟩)

end WikiExpansion
