import WikiExpansion.Token.Basic

/-!
# The plain text of a token stream

`plainText` keeps texts and line breaks and drops the rest.  `leadingText` reads
text up to the first tag or marker, passing over comments, and returns what is
left from there on.
-/

namespace WikiExpansion

/-- The text that a token contributes to the plain text of its stream. -/
def Token.plainText : Token → String
  | .text s => s
  | .newline => "\n"
  | _ => ""

def plainText : List Token → String
  | [] => ""
  | t :: ts => t.plainText ++ plainText ts

/-- A tag or a marker, where leading text ends. -/
def Token.endsText : Token → Bool
  | .text _ | .newline | .comment _ => false
  | _ => true

/-- The plain text before the first tag or marker, and the stream from there. -/
def leadingText : List Token → String × List Token
  | [] => ("", [])
  | t :: ts =>
    if t.endsText then ("", t :: ts) else (t.plainText ++ (leadingText ts).1, (leadingText ts).2)

def Content.plainText : Content Token → String
  | .text s => s
  | .tokens ts => WikiExpansion.plainText ts

theorem plainText_append (a b : List Token) :
    plainText (a ++ b) = plainText a ++ plainText b := by
  induction a with
  | nil => simp [plainText]
  | cons t ts ih => simp [plainText, ih, String.append_assoc]

end WikiExpansion
