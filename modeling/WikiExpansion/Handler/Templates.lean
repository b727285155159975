import WikiExpansion.Handler.Desk

/-!
# Template tables

A table gives the body of each template by name, and its handler puts the body in
the place of a `template` tag.  Where templates are wrapped, the body stands
between two `meta` tags with an id of their own.  A table may hold its answers
back until it is flushed; the id is taken when the token arrives all the same.
-/

namespace WikiExpansion

/-- Names of templates with their bodies, a later one before an earlier. -/
structure TemplateTable where
  bodies : List (String × String) := []
deriving DecidableEq, Inhabited

namespace TemplateTable

def add (t : TemplateTable) (target body : String) : TemplateTable := ⟨(target, body) :: t.bodies⟩

def body? (t : TemplateTable) (target : String) : Option String :=
  (t.bodies.find? (·.1 == target)).map (·.2)

/-- The template that a token asks for, if its name is plain text. -/
def target? (token : Token) : Option String :=
  match token.tag? with
  | some tag => if tag.name = "template" then tag.textAttribute? "target" else none
  | none => none

def wrapperTag (typeof about : String) : Token :=
  .selfClosing ⟨"meta", [newAttribute (.text "typeof") (.text typeof),
    newAttribute (.text "about") (.text about)], {}⟩

def wrap (about body : String) : List Token :=
  [wrapperTag "mw:Object/Template" about, .text body,
    wrapperTag "mw:Object/Template/End" about]

def unknown (target : String) : ExpansionError :=
  .handler "TemplateStub" ("unknown template '" ++ target ++ "'")

def expand {σ : Type} (t : TemplateTable) (options : Options) (target : String)
    (next : Outcome (List Token) → Script σ) : Script σ :=
  match t.body? target with
  | none => next (.error (unknown target))
  | some body =>
    if options.wrapTemplates then
      .newObjectId fun id => next (.ok (wrap ("#" ++ id) body))
    else next (.ok [.text body])

def immediate {σ : Type} (t : TemplateTable) : Handler σ := fun frame token =>
  match target? token with
  | none => .answer (.ok [token])
  | some target => t.expand frame.options target .answer

/-- Holds the answer for each template back under `name`. -/
def deferred (t : TemplateTable) (name : String) : Handler Desk := fun frame token =>
  match target? token with
  | none => .answer (.ok [token])
  | some target =>
    t.expand frame.options target fun r =>
      .remember (·.hold name ⟨frame.handle, token, r⟩) fun _ => .suspend

def handlerName : String := "TemplateStub:onTemplate"

/-- Registers the handler of a table, which sees self-closing tags only. -/
def register {σ : Type} (s : Session σ) (rank : Rank) (handler : Handler σ) : Session σ :=
  s.register handlerName rank (.only .selfClosing) handler

end TemplateTable

end WikiExpansion
