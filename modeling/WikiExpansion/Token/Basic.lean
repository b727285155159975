/-!
# Tokens of a wikitext stream

A parsed page is a list of tokens: tags with their attributes, provenance
markers, text, newlines and comments.  A side of an attribute is plain text, or
a token sequence of its own that is still to be expanded, so tokens nest to any
depth through the attributes of tags and through markers.

`Content`, `Attribute`, `Tag` and `Marker` are written over the type `τ` of the
tokens inside them, and `Token` closes the loop.  What only looks at the plain
text of an attribute is then stated once, for every `τ`.
-/

namespace WikiExpansion

/-- A stretch of source text, as two offsets.  Nothing orders them. -/
structure SourceRange where
  start : Nat
  stop : Nat
deriving DecidableEq, Inhabited

/-- What a tag remembers of the source: its stretch, its text where that differs
from the rendering, and the kind of notation it was written in. -/
structure TagSource where
  range : Option SourceRange := none
  text : Option String := none
  style : Option String := none
deriving DecidableEq, Inhabited

/-- One side of an attribute: plain text, or a token sequence still to be
expanded.  The empty sequence is not the empty text. -/
inductive Content (τ : Type) where
  | text (s : String)
  | tokens (ts : List τ)
deriving DecidableEq, Inhabited

/-- A key with its value, and pointers to where each was written. -/
structure Attribute (τ : Type) where
  key : Content τ
  value : Content τ
  keySource : Option String := none
  valueSource : Option String := none
  offsets : Option SourceRange := none
deriving DecidableEq, Inhabited

structure Tag (τ : Type) where
  name : String
  attributes : List (Attribute τ) := []
  source : TagSource := {}
deriving DecidableEq, Inhabited

/-- Which part of an attribute an expansion produced.  `whole` is a key and a
value that came out of one expansion. -/
inductive Part where
  | key
  | value
  | whole
deriving DecidableEq, Inhabited

/-- The record of one attribute that an expansion produced: which part of it,
the object that produced it, the final key, the content without and with the
wrapper tags around it, and the id shared with the tag it stands before. -/
structure Marker (τ : Type) where
  part : Part
  objectType : String
  key : Content τ
  value : Content τ
  expansion : Content τ
  about : Option String := none
deriving DecidableEq, Inhabited

inductive Token where
  | opening (tag : Tag Token)
  | selfClosing (tag : Tag Token)
  | closing (tag : Tag Token)
  | marker (m : Marker Token)
  | text (s : String)
  | newline
  | comment (s : String)
deriving Inhabited

inductive Kind where
  | opening
  | selfClosing
  | closing
  | marker
  | text
  | newline
  | comment
deriving DecidableEq, Inhabited

namespace Content

variable {τ : Type}

def text? : Content τ → Option String
  | text s => some s
  | tokens _ => none

def isTokens : Content τ → Bool
  | text _ => false
  | tokens _ => true

/-- True of the empty text only, not of the empty sequence. -/
def isEmptyText : Content τ → Bool
  | text s => s == ""
  | tokens _ => false

@[simp] theorem text?_text (s : String) : (text s : Content τ).text? = some s := rfl

@[simp] theorem text?_tokens (ts : List τ) : (tokens ts).text? = none := rfl

theorem text?_eq_some_iff {c : Content τ} {s : String} : c.text? = some s ↔ c = text s := by
  cases c <;> simp [text?]

theorem isTokens_eq_false_iff {c : Content τ} : c.isTokens = false ↔ ∃ s, c = text s := by
  cases c <;> simp [isTokens]

end Content

namespace Attribute

variable {τ : Type}

def needsExpansion (a : Attribute τ) : Bool := a.key.isTokens || a.value.isTokens

/-- Take over each source pointer that `written` has. -/
def carrySources (a written : Attribute τ) : Attribute τ :=
  { a with
    keySource := written.keySource <|> a.keySource
    valueSource := written.valueSource <|> a.valueSource
    offsets := written.offsets <|> a.offsets }

def withSources (a : Attribute τ) (key value : String) : Attribute τ :=
  { a with keySource := some key, valueSource := some value }

def isNamed (a : Attribute τ) (k : String) : Bool := a.key.text? == some k

def lookup (k : String) (as : List (Attribute τ)) : Option (Content τ) :=
  (as.find? (·.isNamed k)).map (·.value)

def lookupText (k : String) (as : List (Attribute τ)) : Option String :=
  (lookup k as).bind Content.text?

theorem exists_texts {a : Attribute τ} (h : a.needsExpansion = false) :
    (∃ k, a.key = .text k) ∧ ∃ v, a.value = .text v := by
  obtain ⟨hk, hv⟩ := Bool.or_eq_false_iff.1 h
  exact ⟨Content.isTokens_eq_false_iff.1 hk, Content.isTokens_eq_false_iff.1 hv⟩

end Attribute

namespace Tag

variable {τ : Type}

/-- The value of the first attribute whose key is the plain text `k`. -/
def attribute? (t : Tag τ) (k : String) : Option (Content τ) := Attribute.lookup k t.attributes

def textAttribute? (t : Tag τ) (k : String) : Option String :=
  Attribute.lookupText k t.attributes

end Tag

namespace Token

def kind : Token → Kind
  | opening _ => .opening
  | selfClosing _ => .selfClosing
  | closing _ => .closing
  | marker _ => .marker
  | text _ => .text
  | newline => .newline
  | comment _ => .comment

def tag? : Token → Option (Tag Token)
  | opening t | selfClosing t | closing t => some t
  | _ => none

/-- The tag of an opening or self-closing token, whose attributes are expanded. -/
def expandableTag? : Token → Option (Tag Token)
  | opening t | selfClosing t => some t
  | _ => none

def withTag (t : Tag Token) : Token → Token
  | opening _ => opening t
  | selfClosing _ => selfClosing t
  | closing _ => closing t
  | other => other

def isTagNamed (name : String) (t : Token) : Bool := t.tag?.any (·.name == name)

end Token

end WikiExpansion
