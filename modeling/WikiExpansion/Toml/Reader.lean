import WikiExpansion.Binary64.Decimal
import WikiExpansion.Toml.Basic

/-!
# Reading TOML

The grammar of TOML 1.0.  `entries?` gives the entries of a document as they are
written, or nothing if it has a fault; which fault is not reported.  A mark of the
byte order may stand at the start.  Arrays and inline tables nest below
`nestingLimit`, and integers have 64 bits.

Every turn of a loop takes at least one character, so the length of the document
bounds them all.
-/

namespace WikiExpansion.Toml

open Text Text.Reader

/-- How deep values nest, and how many parts a key has, at least one too many. -/
def nestingLimit : Nat := 80

/-! ### Characters, blanks and line ends -/

def isWide (c : Char) : Bool := decide (0x80 ≤ c.toNat)

def isCommentChar (c : Char) : Bool :=
  c = '\t' || decide (0x20 ≤ c.toNat ∧ c.toNat ≤ 0x7E) || isWide c

def isLiteralChar (c : Char) : Bool := isCommentChar c && c ≠ '\x27'

def isBasicChar (c : Char) : Bool := isCommentChar c && c ≠ '\x22' && c ≠ '\\'

def isBareChar (c : Char) : Bool := c.isAlphanum || c = '_' || c = '-'

def skipBlank : Reader Unit := do
  let _ ← Reader.takeWhile fun c => c = ' ' || c = '\t'

def newline? : Reader Bool := do
  if ← skip? '\n' then return true else word? "\r\n"

def skipComment : Reader Unit := do
  if ← skip? '#' then
    let _ ← Reader.takeWhile isCommentChar

/-- What may stand after the content of a line, and its end. -/
def lineEnd : Reader Unit := do
  skipBlank
  skipComment
  if ← newline? then return ()
  if ← atEnd then return () else failure

def skipLines : Nat → Reader Unit
  | 0 => return ()
  | fuel + 1 => do
    skipBlank
    skipComment
    if ← newline? then skipLines fuel

/-! ### Strings -/

def numberedChar (n : Nat) : Reader Char := do
  let cs ← rest
  let ds := cs.take n
  if ds.length = n ∧ ds.all fun d => (hexValue? d).isSome then
    set (cs.drop n)
    charOf? (digitsValue 16 ds)
  else failure

def escaped : Reader Char := do
  match ← next with
  | 'b' => return '\x08'
  | 't' => return '\t'
  | 'n' => return '\n'
  | 'f' => return '\x0c'
  | 'r' => return '\r'
  | '\x22' => return '\x22'
  | '\\' => return '\\'
  | 'u' => numberedChar 4
  | 'U' => numberedChar 8
  | _ => failure

/-- The rest of a basic string after `read`, last character first. -/
def basicFrom : Nat → List Char → Reader String
  | 0, _ => failure
  | fuel + 1, read => do
    match ← next with
    | '\x22' => return String.ofList read.reverse
    | '\\' => basicFrom fuel ((← escaped) :: read)
    | c => if isBasicChar c then basicFrom fuel (c :: read) else failure

def literalString : Reader String := do
  let cs ← Reader.takeWhile isLiteralChar
  char '\x27'
  return String.ofList cs

/-- Takes the quotes that come next, five at most, and gives those of them that
belong to the content of a string on several lines: all of one or two, and what
three closing ones leave.  The flag says whether the string is over. -/
def quotes (q : Char) : Reader (List Char × Bool) := do
  let cs ← rest
  let n := (cs.takeWhile (· = q)).length.min 5
  set (cs.drop n)
  return if n < 3 then (List.replicate n q, false) else (List.replicate (n - 3) q, true)

/-- Blanks up to the end of the line, if nothing else comes before it. -/
def foldedLine? : Reader Bool := do
  let cs ← rest
  skipBlank
  if ← newline? then return true
  set cs
  return false

def skipFolded : Nat → Reader Unit
  | 0 => return ()
  | fuel + 1 => do
    skipBlank
    if ← newline? then skipFolded fuel

def basicLinesFrom : Nat → List Char → Reader String
  | 0, _ => failure
  | fuel + 1, read => do
    if (← peek?) = some '\x22' then
      let (qs, closed) ← quotes '\x22'
      if closed then return String.ofList (qs ++ read).reverse
      basicLinesFrom fuel (qs ++ read)
    else if ← newline? then basicLinesFrom fuel ('\n' :: read)
    else if ← skip? '\\' then
      if ← foldedLine? then
        skipFolded (← rest).length
        basicLinesFrom fuel read
      else basicLinesFrom fuel ((← escaped) :: read)
    else
      let c ← next
      if isBasicChar c then basicLinesFrom fuel (c :: read) else failure

def literalLinesFrom : Nat → List Char → Reader String
  | 0, _ => failure
  | fuel + 1, read => do
    if (← peek?) = some '\x27' then
      let (qs, closed) ← quotes '\x27'
      if closed then return String.ofList (qs ++ read).reverse
      literalLinesFrom fuel (qs ++ read)
    else if ← newline? then literalLinesFrom fuel ('\n' :: read)
    else
      let c ← next
      if isLiteralChar c then literalLinesFrom fuel (c :: read) else failure

def string : Reader String := do
  let fuel := (← rest).length + 1
  if ← word? "\"\"\"" then
    let _ ← newline?
    basicLinesFrom fuel []
  else if ← word? "'''" then
    let _ ← newline?
    literalLinesFrom fuel []
  else if ← skip? '\x22' then basicFrom fuel []
  else if ← skip? '\x27' then literalString
  else failure

/-! ### Keys -/

def simpleKey : Reader String := do
  match ← peek? with
  | some '\x22' =>
    let _ ← next
    basicFrom ((← rest).length + 1) []
  | some '\x27' =>
    let _ ← next
    literalString
  | _ =>
    let cs ← Reader.takeWhile isBareChar
    if cs.isEmpty then failure else return String.ofList cs

def keyParts : Nat → Reader (List String)
  | 0 => failure
  | fuel + 1 => do
    skipBlank
    let k ← simpleKey
    skipBlank
    if ← skip? '.' then return k :: (← keyParts fuel) else return [k]

/-- A key: the parts before the last, and the last. -/
def key : Reader (List String × String) := do
  let ks ← keyParts nestingLimit
  if h : ks ≠ [] ∧ ks.length < nestingLimit then return (ks.dropLast, ks.getLast h.1)
  else failure

/-! ### Numbers, dates and times -/

/-- Digits with single underscores between them. -/
def digitRun (p : Char → Bool) : Reader (List Char) := do
  let cs ← Reader.takeWhile fun c => p c || c = '_'
  let groups := cs.splitOn '_'
  if groups.any List.isEmpty then failure else return groups.flatten

def fixedDigits (n low high : Nat) : Reader Nat := do
  let cs ← rest
  let ds := cs.take n
  let v := digitsValue 10 ds
  if ds.length = n ∧ ds.all isDigit ∧ low ≤ v ∧ v ≤ high then
    set (cs.drop n)
    return v
  else failure

def isLeapYear (y : Nat) : Bool := y % 4 == 0 && (y % 100 != 0 || y % 400 == 0)

def daysInMonth (year month : Nat) : Nat :=
  if month = 2 then if isLeapYear year then 29 else 28
  else if month ∈ [4, 6, 9, 11] then 30
  else 31

def date : Reader Date := do
  let year ← fixedDigits 4 0 9999
  char '-'
  let month ← fixedDigits 2 1 12
  char '-'
  let day ← fixedDigits 2 1 (daysInMonth year month)
  return ⟨year, month, day⟩

/-- A fraction of a second, of which nine digits count. -/
def nanosecond : Reader Nat := do
  if ← skip? '.' then
    let ds ← Reader.takeWhile isDigit
    if ds.isEmpty then failure
    return digitsValue 10 ((ds ++ List.replicate 9 '0').take 9)
  else return 0

def time : Reader Time := do
  let hour ← fixedDigits 2 0 23
  char ':'
  let minute ← fixedDigits 2 0 59
  char ':'
  let second ← fixedDigits 2 0 60
  return ⟨hour, minute, second, ← nanosecond⟩

def zone : Reader Zone := do
  match ← next with
  | 'Z' | 'z' => return .utc
  | '+' => return .minutes (← offset)
  | '-' => return .minutes (-(← offset))
  | _ => failure
where
  offset : Reader Int := do
    let hour ← fixedDigits 2 0 23
    char ':'
    return hour * 60 + (← fixedDigits 2 0 59)

/-- A time after a date and a delimiter, with a zone or without. -/
def timeAfterDate : Reader (Time × Option Zone) := do
  let c ← next
  if c = 'T' || c = 't' || c = ' ' then
    let t ← time
    let z ← (some <$> zone) <|> pure none
    return (t, z)
  else failure

def datetime : Reader Datetime :=
  (do
    let d ← date
    match ← (some <$> timeAfterDate) <|> pure none with
    | some (t, z) => return ⟨some d, some t, z⟩
    | none => return ⟨some d, none, none⟩) <|>
  (do return ⟨none, some (← time), none⟩)

def sign : Reader Bool := do
  if ← skip? '-' then return true
  let _ ← skip? '+'
  return false

/-- The digits of a decimal integer, which has no zeros in front. -/
def wholeDigits : Reader (List Char) := do
  if ← skip? '0' then return ['0']
  digitRun isDigit

def power : Reader Int := do
  let _ ← (char 'e' <|> char 'E')
  let down ← sign
  let n : Int := digitsValue 10 (← digitRun isDigit)
  return if down then -n else n

/-- A number with a fraction or a power of ten, which must not be too large. -/
def decimalFloat : Reader Binary64 := do
  let negative ← sign
  let whole ← wholeDigits
  let fraction ← if ← skip? '.' then some <$> digitRun isDigit else pure none
  let p ← match fraction with
    | some _ => power <|> pure 0
    | none => power
  let fraction := fraction.getD []
  let x := Binary64.ofDecimal negative (digitsValue 10 (whole ++ fraction)) (p - fraction.length)
  if x = Binary64.infinity false then failure else return x

def specialFloat : Reader Binary64 := do
  let negative ← sign
  if ← word? "inf" then return .infinity negative
  if ← word? "nan" then return .notANumber negative
  failure

def basedInteger (mark : String) (base : Nat) : Reader Int := do
  word mark
  let ds ← digitRun fun c => (hexValue? c).any (· < base)
  return digitsValue base ds

def decimalInteger : Reader Int := do
  let negative ← sign
  let n : Int := digitsValue 10 (← wholeDigits)
  return if negative then -n else n

def integer : Reader Int := do
  let i ← basedInteger "0x" 16 <|> basedInteger "0o" 8 <|> basedInteger "0b" 2 <|> decimalInteger
  if fitsWord i then return i else failure

/-- What starts with a sign, a digit or the first letter of a special number. -/
def scalar : Reader Value :=
  (.datetime <$> datetime) <|> (.float <$> decimalFloat) <|> (.float <$> specialFloat) <|>
    (.integer <$> integer)

/-! ### Values -/

mutual

/-- A value with `nest` levels left below it. -/
def value (nest : Nat) : Nat → Reader Value
  | 0 => failure
  | fuel + 1 => do
    match ← peek? with
    | some '\x22' | some '\x27' => return .string (← string)
    | some 't' => word "true"; return .boolean true
    | some 'f' => word "false"; return .boolean false
    | some '[' =>
      let _ ← next
      if nest = 0 then failure
      return .array (← arrayItems (nest - 1) fuel)
    | some '\x7b' =>
      let _ ← next
      if nest = 0 then failure
      skipBlank
      if ← skip? '\x7d' then return .table []
      return .table (← inlineEntries (nest - 1) fuel {}).toEntries
    | _ => scalar

def arrayItems (nest : Nat) : Nat → Reader (List Value)
  | 0 => failure
  | fuel + 1 => do
    skipLines (← rest).length
    if ← skip? ']' then return []
    let v ← value nest fuel
    skipLines (← rest).length
    if ← skip? ',' then return v :: (← arrayItems nest fuel)
    char ']'
    return [v]

/-- Entries up to the closing brace, on one line. -/
def inlineEntries (nest : Nat) : Nat → Node Item → Reader (Node Item)
  | 0, _ => failure
  | fuel + 1, t => do
    let (path, k) ← key
    char '='
    skipBlank
    let v ← value nest fuel
    let t ← t.insert path k v
    skipBlank
    if ← skip? ',' then inlineEntries nest fuel t
    else
      char '\x7d'
      return t

end

/-! ### Documents -/

/-- The root table and the name of the table that lines add to. -/
structure Document where
  root : Node Item := {}
  current : List String := []
deriving Inhabited

def header (d : Document) : Reader Document := do
  let array ← word? "[["
  if !array then char '['
  let (path, k) ← key
  if array then word "]]" else char ']'
  lineEnd
  let root ← if array then d.root.openElement path k else d.root.openTable path k
  return ⟨root, path ++ [k]⟩

def entry (d : Document) : Reader Document := do
  let (path, k) ← key
  char '='
  skipBlank
  let v ← value (nestingLimit - 1) (2 * (← rest).length + 2)
  lineEnd
  let root ← d.root.descend false (fun t => t.insert path k v) d.current
  return { d with root := root }

def lines : Nat → Document → Reader Document
  | 0, _ => failure
  | fuel + 1, d => do
    skipBlank
    match ← peek? with
    | none => return d
    | some '[' => lines fuel (← header d)
    | some '#' | some '\n' | some '\r' =>
      lineEnd
      lines fuel d
    | some _ => lines fuel (← entry d)

def entries? (s : String) : Option (List (String × Value)) :=
  let cs := s.toList
  let document : Reader Document := do
    let _ ← skip? '\uFEFF'
    lines (cs.length + 1) {}
  (document.parse? cs).map fun d => d.root.toEntries

end WikiExpansion.Toml
