import WikiExpansion.Json.Printer
import WikiExpansion.Vocabulary

/-!
# Tokens as JSON

A token is an object with its type and its data.  A side of an attribute is a
string or a list of tokens, which tells the two apart.  Optional fields that are
absent are left out, as is the whole source of a tag that has none.

`Token.ofJson?` reads the form back from fields in any order.
-/

namespace WikiExpansion

/-- A field for a value that may be absent. -/
def optionalField {α : Type} (k : String) (f : α → Json) : Option α → List (String × Json)
  | some a => [(k, f a)]
  | none => []

def SourceRange.toJson (r : SourceRange) : Json :=
  .obj [("start", .ofNat r.start), ("end", .ofNat r.stop)]

def TagSource.toJson (s : TagSource) : Json :=
  .obj (optionalField "tsr" SourceRange.toJson s.range ++ optionalField "src" .str s.text ++
    optionalField "stx" .str s.style)

mutual

def Token.toJson : Token → Json
  | .opening t => .obj [("type", .str "tag_open"), ("data", t.toJson)]
  | .selfClosing t => .obj [("type", .str "self_closing"), ("data", t.toJson)]
  | .closing t => .obj [("type", .str "tag_close"), ("data", t.toJson)]
  | .marker m => .obj [("type", .str "meta"), ("data", m.toJson)]
  | .text s => .obj [("type", .str "text"), ("data", .str s)]
  | .newline => .obj [("type", .str "newline")]
  | .comment s => .obj [("type", .str "comment"), ("data", .str s)]
termination_by structural t => t

def Tag.toJson : Tag Token → Json
  | ⟨name, attributes, source⟩ =>
    .obj ([("name", .str name), ("attribs", .arr (Attribute.toJsonList attributes))] ++
      if source = {} then [] else [("data", source.toJson)])
termination_by structural t => t

def Attribute.toJsonList : List (Attribute Token) → List Json
  | [] => []
  | a :: as => a.toJson :: Attribute.toJsonList as
termination_by structural as => as

def Attribute.toJson : Attribute Token → Json
  | ⟨key, value, keySource, valueSource, offsets⟩ =>
    .obj ([("k", key.toJson), ("v", value.toJson)] ++
      optionalField "key_src" .str keySource ++ optionalField "value_src" .str valueSource ++
      optionalField "src_offsets" SourceRange.toJson offsets)
termination_by structural a => a

def Marker.toJson : Marker Token → Json
  | ⟨part, objectType, key, value, expansion, about⟩ =>
    .obj ([("content_type", .str part.label), ("object_type", .str objectType),
      ("key", key.toJson), ("value", value.toJson), ("expansion", expansion.toJson)] ++
      optionalField "about" .str about)
termination_by structural m => m

def Content.toJson : Content Token → Json
  | .text s => .str s
  | .tokens ts => .arr (Token.toJsonList ts)
termination_by structural c => c

def Token.toJsonList : List Token → List Json
  | [] => []
  | t :: ts => t.toJson :: Token.toJsonList ts
termination_by structural ts => ts

end

def streamToJson (ts : List Token) : Json := .arr (Token.toJsonList ts)

def streamToText (ts : List Token) : String := (streamToJson ts).toText

/-! ### Reading -/

/-- Reads a field that may be absent, refusing one of the wrong form. -/
def Json.optional? {α : Type} (j : Json) (k : String) (f : Json → Option α) :
    Option (Option α) :=
  match j.field? k with
  | none => some none
  | some v => (f v).map some

def SourceRange.ofJson? (j : Json) : Option SourceRange := do
  let start ← (← j.field? "start").nat?
  let stop ← (← j.field? "end").nat?
  return ⟨start, stop⟩

def TagSource.ofJson? (j : Json) : Option TagSource := do
  let range ← j.optional? "tsr" SourceRange.ofJson?
  let text ← j.optional? "src" Json.text?
  let style ← j.optional? "stx" Json.text?
  return ⟨range, text, style⟩

mutual

def Token.ofJson? (j : Json) : Option Token :=
  match (j.field? "type").bind Json.text? with
  | none => none
  | some type =>
    if type = "newline" then some .newline
    else
      match h : j.field? "data" with
      | none => none
      | some d =>
        have := Json.sizeOf_field? h
        if type = "tag_open" then (Tag.ofJson? d).map .opening
        else if type = "self_closing" then (Tag.ofJson? d).map .selfClosing
        else if type = "tag_close" then (Tag.ofJson? d).map .closing
        else if type = "meta" then (Marker.ofJson? d).map .marker
        else if type = "text" then d.text?.map .text
        else if type = "comment" then d.text?.map .comment
        else none
termination_by sizeOf j

def Tag.ofJson? (j : Json) : Option (Tag Token) :=
  match (j.field? "name").bind Json.text?, j.optional? "data" TagSource.ofJson? with
  | some name, some source =>
    match h : j.field? "attribs" with
    | none => some ⟨name, [], source.getD {}⟩
    | some (.arr items) =>
      have : sizeOf items < sizeOf j :=
        Nat.lt_trans (by simp +arith) (Json.sizeOf_field? h)
      (Attribute.ofJsonList? items).map fun as => ⟨name, as, source.getD {}⟩
    | some _ => none
  | _, _ => none
termination_by sizeOf j

def Attribute.ofJsonList? : List Json → Option (List (Attribute Token))
  | [] => some []
  | j :: js => do
    let a ← Attribute.ofJson? j
    let as ← Attribute.ofJsonList? js
    return a :: as
termination_by js => sizeOf js

def Attribute.ofJson? (j : Json) : Option (Attribute Token) :=
  match hk : j.field? "k", hv : j.field? "v" with
  | some k, some v =>
    have := Json.sizeOf_field? hk
    have := Json.sizeOf_field? hv
    match Content.ofJson? k, Content.ofJson? v, j.optional? "key_src" Json.text?,
      j.optional? "value_src" Json.text?, j.optional? "src_offsets" SourceRange.ofJson? with
    | some key, some value, some ks, some vs, some offsets => some ⟨key, value, ks, vs, offsets⟩
    | _, _, _, _, _ => none
  | _, _ => none
termination_by sizeOf j

def Marker.ofJson? (j : Json) : Option (Marker Token) :=
  match hk : j.field? "key", hv : j.field? "value", hx : j.field? "expansion" with
  | some k, some v, some x =>
    have := Json.sizeOf_field? hk
    have := Json.sizeOf_field? hv
    have := Json.sizeOf_field? hx
    match ((j.field? "content_type").bind Json.text?).bind Part.ofLabel?,
      (j.field? "object_type").bind Json.text?, j.optional? "about" Json.text? with
    | some part, some type, some about =>
      match Content.ofJson? k, Content.ofJson? v, Content.ofJson? x with
      | some key, some value, some expansion => some ⟨part, type, key, value, expansion, about⟩
      | _, _, _ => none
    | _, _, _ => none
  | _, _, _ => none
termination_by sizeOf j

def Content.ofJson? : Json → Option (Content Token)
  | .str s => some (.text s)
  | .arr items => (Token.ofJsonList? items).map .tokens
  | _ => none
termination_by j => sizeOf j

def Token.ofJsonList? : List Json → Option (List Token)
  | [] => some []
  | j :: js => do
    let t ← Token.ofJson? j
    let ts ← Token.ofJsonList? js
    return t :: ts
termination_by js => sizeOf js

end

def streamOfJson? : Json → Option (List Token)
  | .arr items => Token.ofJsonList? items
  | _ => none

end WikiExpansion
