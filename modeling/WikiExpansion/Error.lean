import WikiExpansion.Token.Basic

/-!
# Failures of an expansion

What can go wrong, with the failure behind it where there is one.  `message`
words the outermost failure only; `cause?` leads to the next.
-/

namespace WikiExpansion

inductive ExpansionError where
  /-- Fewer expanded attributes than the tag has. -/
  | malformedToken (tag : String) (expected actual : Nat) (offsets : Option SourceRange)
  | nestedExpansion (key : String) (cause : ExpansionError)
  | tokenFailed (tag : String) (offsets : Option SourceRange) (cause : ExpansionError)
  | handler (name message : String)
  | stageFailed (stage message : String)
  | incomplete
deriving DecidableEq, Inhabited

/-- A value, or the failure in its place. -/
abbrev Outcome (α : Type) : Type := Except ExpansionError α

/-- A stretch as its two offsets, or that there is none. -/
def SourceRange.describe : Option SourceRange → String
  | some r => "Some(" ++ toString r.start ++ ".." ++ toString r.stop ++ ")"
  | none => "None"

namespace ExpansionError

def message : ExpansionError → String
  | malformedToken tag expected actual offsets =>
    "malformed <" ++ tag ++ "> token: expected " ++ toString expected ++
      " expanded attributes, got " ++ toString actual ++
      " (source " ++ SourceRange.describe offsets ++ ")"
  | nestedExpansion key _ => "expansion of attribute '" ++ key ++ "' failed"
  | tokenFailed tag offsets _ =>
    "attribute expansion of <" ++ tag ++ "> failed (source " ++ SourceRange.describe offsets ++ ")"
  | handler name message => "handler '" ++ name ++ "' failed: " ++ message
  | stageFailed stage message => "Stage '" ++ stage ++ "' failed: " ++ message
  | incomplete => "pipeline did not complete synchronously"

def cause? : ExpansionError → Option ExpansionError
  | nestedExpansion _ cause | tokenFailed _ _ cause => some cause
  | _ => none

def label : ExpansionError → String
  | malformedToken .. => "MalformedToken"
  | nestedExpansion .. => "NestedExpansion"
  | tokenFailed .. => "TokenFailed"
  | handler .. => "Handler"
  | stageFailed .. => "StageFailed"
  | incomplete => "Incomplete"

end ExpansionError

end WikiExpansion
