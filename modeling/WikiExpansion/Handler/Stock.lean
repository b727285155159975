import WikiExpansion.Handler.Desk
import WikiExpansion.Token.Render

/-!
# A stock of handlers

Small handlers to build sessions from.  The first ones are functions of the
token.  The others report what they see, take ids, register a further handler,
put tokens aside, answer more than once, or start runs of their own.
-/

namespace WikiExpansion.Handler

variable {σ : Type}

def pass : Handler σ := ofFunction fun _ t => .ok [t]

def drop : Handler σ := ofFunction fun _ _ => .ok []

def duplicate : Handler σ := ofFunction fun _ t => .ok [t, t]

/-- Turns the ASCII letters of texts into capitals. -/
def capitals : Handler σ := ofFunction fun _ t =>
  match t with
  | .text s => .ok [.text (s.map Char.toUpper)]
  | t => .ok [t]

def characters : Handler σ := ofFunction fun _ t =>
  match t with
  | .text s => .ok (s.toList.map fun c => .text (String.singleton c))
  | t => .ok [t]

def surround (before after : List Token) : Handler σ :=
  ofFunction fun _ t => .ok (before ++ [t] ++ after)

def replace (tags : List (String × List Token)) : Handler σ := ofFunction fun _ t =>
  match tags.find? fun p => t.isTagNamed p.1 with
  | some p => .ok p.2
  | none => .ok [t]

/-- Fails on the tokens that render as `only`, or on all where there is none. -/
def refuse (e : ExpansionError) (only : Option String) : Handler σ := ofFunction fun _ t =>
  if only.all (· == t.render) then .error e else .ok [t]

def watch : Handler σ := fun frame t =>
  .report (.seen frame.name t frame.options) (.answer (.ok [t]))

/-- Puts a new object id behind every token. -/
def number : Handler σ := fun _ t =>
  .newObjectId fun id => .answer (.ok [t, .text id])

/-- Registers another handler when the first token comes, and lets all pass. -/
def recruit (name : String) (rank : Rank) (filter : Filter) (other : Handler Desk) :
    Handler Desk := fun frame t =>
  .remember (·.start frame.position.number) fun desk =>
    if desk.started.contains frame.position.number then .answer (.ok [t])
    else .register name rank filter other (.answer (.ok [t]))

/-- Parks every token; it is meant to pass. -/
def park : Handler Desk := fun frame t =>
  .remember (·.park frame.name ⟨frame.handle, t, .ok [t]⟩) fun _ => .suspend

def answerNow (frame : Frame) (r : Outcome (List Token)) (next : Script σ) : Script σ :=
  .complete frame.handle r fun first => .report (.answered frame.name first) next

def answerTwice (first second : Outcome (List Token)) : Handler σ := fun frame _ =>
  answerNow frame first (.answer second)

/-- Answers by the handle `n` times that the token passes, and not after that. -/
def answerRepeatedly (n : Nat) : Handler σ := fun frame t =>
  n.repeat (answerNow frame (.ok [t])) .suspend

/-- Runs other tokens in the place of the tags named `tag`. -/
def rerun (tag : String) (tokens : List Token) (options : Option Options) : Handler σ :=
  fun _ t =>
    if t.isTagNamed tag then .process tokens options .answer .suspend
    else .answer (.ok [t])

def ignore : Handler σ := fun _ _ => .suspend

end WikiExpansion.Handler
