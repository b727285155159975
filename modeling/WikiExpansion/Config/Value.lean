import WikiExpansion.Binary64.Shortest
import WikiExpansion.Text.Literal
import WikiExpansion.Text.LowerCase
import WikiExpansion.Toml.Basic

/-!
# Configuration values

The tree that the layers of a configuration are merged into.  Keys of its tables
are in small letters.  Merging a table into a place goes entry by entry and keeps
what is there under other keys; any other value replaces what is there.

A scalar is read as the type that is asked for where it makes sense: words for
yes and no as a truth value, a truth value or a text of digits as a number, any
scalar as a text.
-/

namespace WikiExpansion.Config

inductive Value where
  | null
  | boolean (b : Bool)
  | integer (i : Int)
  | float (x : Binary64)
  | text (s : String)
  | array (items : List Value)
  | table (entries : List (String × Value))
deriving Inhabited

namespace Value

def entries : Value → List (String × Value)
  | table es => es
  | _ => []

def items : Value → List Value
  | array vs => vs
  | _ => []

mutual

/-- Puts a value under a key of `root`.  What is no table becomes one. -/
def setKey (k : String) : (v root : Value) → Value
  | table incoming, root =>
    let target := (root.entries.lookup (Text.lower k)).getD (table [])
    table (Toml.put (Text.lower k) (merge incoming target) root.entries)
  | null, root => table (Toml.put (Text.lower k) null root.entries)
  | boolean b, root => table (Toml.put (Text.lower k) (boolean b) root.entries)
  | integer i, root => table (Toml.put (Text.lower k) (integer i) root.entries)
  | float x, root => table (Toml.put (Text.lower k) (float x) root.entries)
  | text s, root => table (Toml.put (Text.lower k) (text s) root.entries)
  | array vs, root => table (Toml.put (Text.lower k) (array vs) root.entries)
termination_by structural v => v

/-- Puts every entry of a table into a value.  No entries leave it as it is. -/
def merge : List (String × Value) → Value → Value
  | [], target => target
  | e :: es, target => merge es (setEntry e target)
termination_by structural es => es

def setEntry : String × Value → Value → Value
  | (k, v), target => setKey k v target
termination_by structural e => e

end

mutual

/-- The configuration value of a value in a document; dates and times are texts. -/
def ofToml : Toml.Value → Value
  | .string s => text s
  | .integer i => integer i
  | .float x => float x
  | .boolean b => boolean b
  | .datetime d => text d.toText
  | .array vs => array (ofTomlList vs)
  | .table es => table (ofTomlEntries es)
termination_by structural v => v

def ofTomlList : List Toml.Value → List Value
  | [] => []
  | v :: vs => ofToml v :: ofTomlList vs
termination_by structural vs => vs

def ofTomlEntries : List (String × Toml.Value) → List (String × Value)
  | [] => []
  | e :: es => ofTomlEntry e :: ofTomlEntries es
termination_by structural es => es

def ofTomlEntry : String × Toml.Value → String × Value
  | (k, v) => (k, ofToml v)
termination_by structural e => e

end

/-- What a value is, in messages about what was expected in its place. -/
def describe : Value → String
  | null => "unit value"
  | boolean b => "boolean `" ++ toString b ++ "`"
  | integer i => "integer `" ++ toString i ++ "`"
  | float x => "floating point `" ++ x.toPointedText ++ "`"
  | text s => "string " ++ Text.literal s
  | array _ => "sequence"
  | table _ => "map"

def wordBool? (s : String) : Option Bool :=
  if s ∈ ["true", "on", "yes"] then some true
  else if s ∈ ["false", "off", "no"] then some false
  else none

/-- A value read as a truth value; if it is none, what it is instead. -/
def toBool : Value → Except String Bool
  | boolean b => .ok b
  | integer i => .ok (i != 0)
  | float x => .ok !x.isZero
  | text s =>
    let s := Text.lower s
    if s = "1" then .ok true
    else if s = "0" then .ok false
    else
      match wordBool? s with
      | some b => .ok b
      | none => .error (text s).describe
  | v => .error v.describe

def ofBool (b : Bool) : Binary64 := if b then .one else .zero

def toFloat : Value → Except String Binary64
  | boolean b => .ok (ofBool b)
  | integer i => .ok (.ofInt i)
  | float x => .ok x
  | text s =>
    match wordBool? (Text.lower s), Binary64.parse? s with
    | some b, _ => .ok (ofBool b)
    | none, some x => .ok x
    | none, none => .error (text s).describe
  | v => .error v.describe

def toText : Value → Except String String
  | boolean b => .ok (toString b)
  | integer i => .ok (toString i)
  | float x => .ok x.toText
  | text s => .ok s
  | v => .error v.describe

end Value

end WikiExpansion.Config
