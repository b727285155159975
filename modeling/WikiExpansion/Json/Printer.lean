import WikiExpansion.Json.Basic

/-!
# Writing JSON

`pretty` writes one item or field a line, two spaces a level, and `[]` for the
empty list; `compact` writes everything on one line.  In a string, a quote, a
backslash and the control characters below the space are escaped, the latter by
their short form where there is one; every other character is written as it is.
-/

namespace WikiExpansion.Json

def hexDigit (n : Nat) : Char :=
  if n < 10 then Char.ofNat (48 + n) else Char.ofNat (87 + n)

def escapeChar (c : Char) : List Char :=
  if c = '\x22' then ['\\', '\x22']
  else if c = '\\' then ['\\', '\\']
  else if c = '\x08' then ['\\', 'b']
  else if c = '\x0c' then ['\\', 'f']
  else if c = '\n' then ['\\', 'n']
  else if c = '\r' then ['\\', 'r']
  else if c = '\t' then ['\\', 't']
  else if c.toNat < 32 then
    ['\\', 'u', '0', '0', hexDigit (c.toNat / 16), hexDigit (c.toNat % 16)]
  else [c]

def quote (s : String) : String :=
  "\"" ++ String.ofList (s.toList.flatMap escapeChar) ++ "\""

/-- The digits of a number; a power of ten is written with its exponent. -/
def numeral : Numeral → String
  | .integer i => toString i
  | .decimal negative mantissa exponent =>
    (if negative then "-" else "") ++ toString mantissa ++ "e" ++ toString exponent

/-- The end of a line and the indentation of the next, at a level. -/
def lineBreak (level : Nat) : String :=
  "\n" ++ String.ofList (List.replicate (2 * level) ' ')

mutual

/-- A value whose first line is already indented and whose inner lines stand one
level below `level`. -/
def pretty (level : Nat) : Json → String
  | null => "null"
  | bool b => if b then "true" else "false"
  | num n => numeral n
  | str s => quote s
  | arr [] => "[]"
  | arr (j :: js) =>
    "[" ++ lineBreak (level + 1) ++ pretty (level + 1) j ++ prettyItems (level + 1) js ++
      lineBreak level ++ "]"
  | obj [] => "\x7b\x7d"
  | obj (f :: fs) =>
    "\x7b" ++ lineBreak (level + 1) ++ prettyField (level + 1) f ++ prettyFields (level + 1) fs ++
      lineBreak level ++ "\x7d"
termination_by structural j => j

def prettyItems (level : Nat) : List Json → String
  | [] => ""
  | j :: js => "," ++ lineBreak level ++ pretty level j ++ prettyItems level js
termination_by structural js => js

def prettyFields (level : Nat) : List (String × Json) → String
  | [] => ""
  | f :: fs => "," ++ lineBreak level ++ prettyField level f ++ prettyFields level fs
termination_by structural fs => fs

def prettyField (level : Nat) : String × Json → String
  | (k, j) => quote k ++ ": " ++ pretty level j
termination_by structural f => f

end

def toText (j : Json) : String := j.pretty 0

mutual

def compact : Json → String
  | null => "null"
  | bool b => if b then "true" else "false"
  | num n => numeral n
  | str s => quote s
  | arr [] => "[]"
  | arr (j :: js) => "[" ++ compact j ++ compactItems js ++ "]"
  | obj [] => "\x7b\x7d"
  | obj (f :: fs) => "\x7b" ++ compactField f ++ compactFields fs ++ "\x7d"
termination_by structural j => j

def compactItems : List Json → String
  | [] => ""
  | j :: js => "," ++ compact j ++ compactItems js
termination_by structural js => js

def compactFields : List (String × Json) → String
  | [] => ""
  | f :: fs => "," ++ compactField f ++ compactFields fs
termination_by structural fs => fs

def compactField : String × Json → String
  | (k, j) => quote k ++ ":" ++ compact j
termination_by structural f => f

end

end WikiExpansion.Json
