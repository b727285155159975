import WikiExpansion.Vocabulary

/-!
# Tokens as wikitext

A compact reading of a stream, close to the markup it came from.  An attribute
is written `key="value"` with token sides written out in place, and nothing is
escaped, so this is for people and not to be parsed again.
-/

namespace WikiExpansion

mutual

def Token.render : Token → String
  | .opening t => "<" ++ t.renderInner ++ ">"
  | .selfClosing t => "<" ++ t.renderInner ++ "/>"
  | .closing t => "</" ++ t.name ++ ">"
  | .marker m => m.render
  | .text s => s
  | .newline => "\n"
  | .comment s => "<!--" ++ s ++ "-->"
termination_by structural t => t

def Tag.renderInner : Tag Token → String
  | ⟨name, attributes, _⟩ => name ++ Attribute.renderList attributes
termination_by structural t => t

def Attribute.renderList : List (Attribute Token) → String
  | [] => ""
  | a :: as => " " ++ a.render ++ Attribute.renderList as
termination_by structural as => as

def Attribute.render : Attribute Token → String
  | ⟨key, value, _, _, _⟩ => key.render ++ "=\"" ++ value.render ++ "\""
termination_by structural a => a

def Marker.render : Marker Token → String
  | ⟨part, _, key, _, _, about⟩ =>
    "<meta typeof=\"" ++ part.label ++ "\" property=\"" ++ key.render ++ "\"" ++
      (match about with
        | some id => " about=\"" ++ id ++ "\""
        | none => "") ++ "/>"
termination_by structural m => m

def Content.render : Content Token → String
  | .text s => s
  | .tokens ts => Token.renderList ts
termination_by structural c => c

def Token.renderList : List Token → String
  | [] => ""
  | t :: ts => t.render ++ Token.renderList ts
termination_by structural ts => ts

end

end WikiExpansion
