import WikiExpansion.Text.Search
import WikiExpansion.Token.Basic

/-!
# The `mw:` vocabulary

The names that the expansion reads and writes in keys and in `typeof` values.
Objects that produce content are named `mw:Object/` and the name of the
producer; a tag whose attributes they produced is labelled `mw:ExpandedAttrs/`
and the same name.
-/

namespace WikiExpansion.Vocabulary

/-- Stands in a key whose attribute may yet turn out to be content. -/
def maybeContent : String := "mw:maybeContent"

/-- The key of an added attribute that keeps the value of a key so marked. -/
def keyAffected : String := "mw:keyAffected"

/-- The key of an added attribute that keeps both forms of a value so marked. -/
def valueAffected : String := "mw:valAffected"

def reserved : String := "mw:"

def object : String := "mw:Object/"

def closingWrapper : String := "/End"

def expandedAttributes : String := "mw:ExpandedAttrs/"

/-- The name of the producer in an object type, which is all of it where the
type does not start as object types do. -/
def producerName (objectType : String) : String := Text.dropLeading object objectType

/-- The label of a tag whose attributes an object of this type produced. -/
def expandedLabel (objectType : String) : String :=
  expandedAttributes ++ producerName objectType

end WikiExpansion.Vocabulary

namespace WikiExpansion

def Part.label : Part → String
  | .key => "mw:objectAttrKey"
  | .value => "mw:objectAttrVal"
  | .whole => "mw:objectAttr"

def Part.ofLabel? (s : String) : Option Part :=
  [Part.key, .value, .whole].find? (·.label == s)

theorem Part.ofLabel?_label (p : Part) : Part.ofLabel? p.label = some p := by
  cases p <;> decide

def Marker.producer {τ : Type} (m : Marker τ) : String := Vocabulary.producerName m.objectType

end WikiExpansion
