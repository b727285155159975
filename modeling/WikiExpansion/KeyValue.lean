import WikiExpansion.Token.Text

/-!
# Keys that hold a whole attribute

A template in the place of a key may produce `k="v"`.  The text is split at the
first `=` that has a key before it and, after it, a value in optional quotes
that reaches to the end of the text and holds no quote itself.  The key is the
run of characters before that `=` back to the one before.
-/

namespace WikiExpansion.KeyValue

def isQuote (c : Char) : Bool := c = '\x27' || c = '\x22'

def dropQuote : List Char → List Char
  | [] => []
  | c :: cs => if isQuote c then cs else c :: cs

/-- Reads a value, with an optional quote on either side of it, up to the end. -/
def value? (cs : List Char) : Option (List Char) :=
  let inner := dropQuote cs
  match inner.dropWhile (!isQuote ·) with
  | [] | [_] => some (inner.takeWhile (!isQuote ·))
  | _ => none

/-- Splits a text of which the characters `run`, last first, stand since the
last `=` that did not split it. -/
def splitFrom (run : List Char) : List Char → Option (List Char × List Char)
  | [] => none
  | c :: cs =>
    if c = '=' then
      match run, value? cs with
      | [], _ | _, none => splitFrom [] cs
      | k, some v => some (k.reverse, v)
    else splitFrom (c :: run) cs

/-- The key and the value in a text of the form `k=v`. -/
def split? (s : String) : Option (String × String) :=
  (splitFrom [] s.toList).map fun kv => (String.ofList kv.1, String.ofList kv.2)

/-- The key and the value in an expanded key.  Of a token key the leading text
is split, and the tokens after it stay behind the value. -/
def infer? : Content Token → Option (String × Content Token)
  | .text s => (split? s).map fun kv => (kv.1, .text kv.2)
  | .tokens ts =>
    match leadingText ts with
    | (s, []) => (split? s).map fun kv => (kv.1, .text kv.2)
    | (s, rest) => (split? s).map fun kv => (kv.1, .tokens (.text kv.2 :: rest))

end WikiExpansion.KeyValue
