import WikiExpansion.Text.Unprintable

/-!
# Literals

A text in quotes, as it is shown in messages about values: quotes, backslashes
and the common controls have short escapes, every other character without a
glyph of its own is written as its number.
-/

namespace WikiExpansion.Text

def literalChar (c : Char) : String :=
  if c = '\x22' then "\\\""
  else if c = '\\' then "\\\\"
  else if c = '\x00' then "\\0"
  else if c = '\t' then "\\t"
  else if c = '\n' then "\\n"
  else if c = '\r' then "\\r"
  else if isUnprintable c then
    "\\u\x7b" ++ String.ofList (Nat.toDigits 16 c.toNat) ++ "\x7d"
  else String.singleton c

def literal (s : String) : String :=
  "\"" ++ s.toList.foldl (fun out c => out ++ literalChar c) "" ++ "\""

/-- Literals of texts that may be absent, in brackets. -/
def literalList (xs : List (Option String)) : String :=
  let item : Option String → String
    | some s => "Some(" ++ literal s ++ ")"
    | none => "None"
  "[" ++ ", ".intercalate (xs.map item) ++ "]"

end WikiExpansion.Text
