import WikiExpansion.Text.Blank
import WikiExpansion.Token.Text
import WikiExpansion.Vocabulary

/-!
# Template wrappers

An expanded template leaves its content between two `meta` tags whose `typeof`
names the object that produced it.  `strip` takes the content out of such
wrappers and reports the object type of the first.
-/

namespace WikiExpansion

/-- The first opening wrapper type among the words of a `typeof` value. -/
def objectType? (typeof : String) : Option String :=
  (Text.words typeof).find? fun w =>
    Text.startsWith Vocabulary.object w && !Text.endsWith Vocabulary.closingWrapper w

/-- A marker, or a tag named `meta` of any kind: what `strip` drops. -/
def Token.isMeta : Token → Bool
  | .marker _ => true
  | t => t.isTagNamed "meta"

def Token.wrapperType? (t : Token) : Option String :=
  match t.tag? with
  | some tag => if tag.name = "meta" then (tag.textAttribute? "typeof").bind objectType? else none
  | none => none

def Token.isText : Token → Bool
  | .text _ => true
  | _ => false

/-- Tokens that are all texts are one text; nothing is the empty text. -/
def collapse (ts : List Token) : Content Token :=
  if ts.all Token.isText then .text (plainText ts) else .tokens ts

/-- A side of an attribute without wrapper tags, and the object that produced it. -/
structure Stripped where
  value : Content Token
  objectType : Option String
deriving Inhabited

/-- Drops the markers and `meta` tags of an expanded side.  The object type is
reported only where templates are wrapped. -/
def strip (wrapped : Bool) : Content Token → Stripped
  | .text s => ⟨.text s, none⟩
  | .tokens ts =>
    ⟨collapse (ts.filter (!·.isMeta)), if wrapped then ts.findSome? Token.wrapperType? else none⟩

theorem objectType_strip_false (c : Content Token) : (strip false c).objectType = none := by
  cases c <;> rfl

theorem plainText_collapse (ts : List Token) : (collapse ts).plainText = plainText ts := by
  unfold collapse
  split <;> rfl

end WikiExpansion
