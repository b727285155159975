/-!
# Searching text

Prefixes, suffixes and substrings of a text, read as a list of characters.
-/

namespace WikiExpansion.Text

def startsWith (w s : String) : Bool := w.toList.isPrefixOf s.toList

def endsWith (w s : String) : Bool := w.toList.isSuffixOf s.toList

/-- The characters `w` stand somewhere in the list, one after another. -/
def occursIn (w : List Char) : List Char → Bool
  | [] => w.isPrefixOf []
  | c :: cs => w.isPrefixOf (c :: cs) || occursIn w cs

def contains (w s : String) : Bool := occursIn w.toList s.toList

/-- What follows `w` in `s`, and all of `s` where it does not start with `w`. -/
def dropLeading (w s : String) : String :=
  if startsWith w s then String.ofList (s.toList.drop w.toList.length) else s

theorem startsWith_iff {w s : String} : startsWith w s = true ↔ w.toList <+: s.toList := by
  simp [startsWith]

theorem endsWith_iff {w s : String} : endsWith w s = true ↔ w.toList <:+ s.toList := by
  simp [endsWith]

end WikiExpansion.Text
