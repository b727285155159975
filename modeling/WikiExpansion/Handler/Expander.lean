import WikiExpansion.Session.Run

/-!
# The attribute expander

The handler that expands the attributes of opening and self-closing tags.  It has
options of its own, by which it runs and reconciles whatever the options of the
run it is called in.
-/

namespace WikiExpansion

/-- Expands the attributes of a tag that has some; every other token passes. -/
def expander {σ : Type} (options : Options) : Handler σ := fun _ token =>
  match token.expandableTag? with
  | some tag =>
    if tag.attributes.isEmpty then .answer (.ok [token])
    else .expandAttributes token options .suspend
  | none => .answer (.ok [token])

def expanderName : String := "AttributeExpander:onToken"

namespace Session

variable {σ : Type}

def registerExpander (s : Session σ) (options : Options) (rank : Rank) : Session σ :=
  s.register expanderName rank .any (expander options)

def withExpander (ids : IdSource) (options : Options) (rank : Rank) (memory : σ) : Session σ :=
  (Session.new ids options memory).registerExpander options rank

/-- A session with the usual ids and an expander at its usual rank. -/
def standard (options : Options) (memory : σ) : Session σ :=
  withExpander {} options .attributes memory

end Session

end WikiExpansion
