import WikiExpansion.Text.Blank
import WikiExpansion.Text.Literal
import WikiExpansion.Token.Equality
import WikiExpansion.Token.Render

/-!
# Expectations of a token stream

What one can expect of a stream, of one of its tokens, and of the marker or tag
that this token is.  `check` tells in words what the stream has instead of what
is expected.  Details of a token are looked at in their order, up to the first
that fails.
-/

namespace WikiExpansion

inductive MarkerExpectation where
  | part (p : Part)
  | objectType (s : String)
  | key (s : String)
  | value (v : Content Token)
  /-- The unstripped content renders as `s`. -/
  | expansion (s : String)
  | about (s : String)
deriving Inhabited

inductive TagExpectation where
  | textAttribute (k v : String)
  | hasAttribute (k : String)
  | lacksAttribute (k : String)
  | keys (ks : List String)
  | hasType (label : String)
deriving Inhabited

inductive Expectation where
  | count (n : Nat)
  | renders (s : String)
  /-- All markers, and all tags with an `about`, have one and the same id. -/
  | oneGroup
  | noMarkers
  | text (index : Nat) (s : String)
  | marker (index : Nat) (details : List MarkerExpectation)
  | tag (index : Nat) (name : String) (details : List TagExpectation)
deriving Inhabited

/-- Nothing where `met` holds, and the message where not. -/
def expect (met : Bool) (message : String) : Except String Unit :=
  if met then .ok () else .error message

def placeOf (index : Nat) : String := "tokens[" ++ toString index ++ "]"

def MarkerExpectation.check (place : String) (m : Marker Token) :
    MarkerExpectation → Except String Unit
  | part p => expect (m.part == p) (place ++ ": content type mismatch")
  | objectType s => expect (m.objectType == s) (place ++ ": object type mismatch")
  | key s => expect (m.key.text? == some s) (place ++ ": marker key mismatch")
  | value v => expect (m.value == v) (place ++ ": marker value mismatch")
  | expansion s => expect (m.expansion.render == s) (place ++ ": marker expansion mismatch")
  | about s => expect (m.about == some s) (place ++ ": marker about mismatch")

def TagExpectation.check (place : String) (t : Tag Token) : TagExpectation → Except String Unit
  | textAttribute k v =>
    expect (t.textAttribute? k == some v)
      (place ++ ": attribute '" ++ k ++ "' mismatch on " ++ (Token.opening t).render)
  | hasAttribute k =>
    expect (t.attribute? k).isSome
      (place ++ ": missing attribute '" ++ k ++ "' on " ++ (Token.opening t).render)
  | lacksAttribute k =>
    expect (t.attribute? k).isNone
      (place ++ ": unexpected attribute '" ++ k ++ "' on " ++ (Token.opening t).render)
  | keys ks =>
    expect (t.attributes.map (·.key.render) == ks) (place ++ ": attribute keys mismatch")
  | hasType label =>
    let typeof := (t.textAttribute? "typeof").getD ""
    expect ((Text.words typeof).contains label)
      (place ++ ": typeof '" ++ typeof ++ "' does not list '" ++ label ++ "'")

/-- The grouping ids of a stream: that of every marker, and that of every opening
or self-closing tag that has one. -/
def groupIds (ts : List Token) : List (Option String) :=
  ts.filterMap fun
    | .marker m => some m.about
    | .opening t | .selfClosing t => (t.textAttribute? "about").map some
    | _ => none

def isOneGroup : List (Option String) → Bool
  | [] => true
  | id :: ids => id.isSome && ids.all (· == id)

/-- Goes on with the token at an index. -/
def withTokenAt (ts : List Token) (index : Nat) (k : Token → Except String Unit) :
    Except String Unit :=
  match ts[index]? with
  | some t => k t
  | none =>
    .error ("Token index " ++ toString index ++ " out of bounds (stream has " ++
      toString ts.length ++ " tokens)")

namespace Expectation

/-- Whether the stream is as expected; if not, what it has instead. -/
def check (ts : List Token) : Expectation → Except String Unit
  | count n =>
    expect (ts.length == n)
      ("Expected " ++ toString n ++ " tokens, found " ++ toString ts.length ++ ": " ++
        Token.renderList ts)
  | renders s => expect (Token.renderList ts == s) ""
  | oneGroup => do
    let ids := groupIds ts
    expect (!ids.isEmpty) ("No grouping ids in " ++ Token.renderList ts)
    expect (isOneGroup ids) ("Grouping ids differ: " ++ Text.literalList ids)
  | noMarkers =>
    expect (ts.all (·.kind != .marker)) ("Expected no markers in " ++ Token.renderList ts)
  | text index s =>
    withTokenAt ts index fun
      | .text t => expect (t == s) (placeOf index ++ ": text mismatch")
      | t => .error (placeOf index ++ ": Expected text, found " ++ t.render)
  | marker index details =>
    withTokenAt ts index fun
      | .marker m => details.forM (·.check (placeOf index) m)
      | t => .error (placeOf index ++ ": Expected marker, found " ++ t.render)
  | tag index name details =>
    withTokenAt ts index fun t =>
      match t.expandableTag? with
      | some found =>
        if found.name = name then details.forM (·.check (placeOf index) found)
        else .error (placeOf index ++ ": Expected <" ++ name ++ ">, found " ++ t.render)
      | none => .error (placeOf index ++ ": Expected <" ++ name ++ ">, found " ++ t.render)

end Expectation

end WikiExpansion
