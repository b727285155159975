import WikiExpansion.Config.KeyPath
import WikiExpansion.Handler.Expander
import WikiExpansion.Toml.Document

/-!
# Settings

What can be configured: whether templates are wrapped, the ranks of the template
handler and of the attribute expander, and the stem of object ids.  Documents are
layered over the defaults in their order, and overrides over all documents.
Unknown keys are ignored.
-/

namespace WikiExpansion.Config

structure Settings where
  wrapTemplates : Bool := true
  templateRank : Rank := .templates
  expanderRank : Rank := .attributes
  stem : String := "mwt"
deriving DecidableEq, Inhabited

namespace Settings

def options (s : Settings) : Options := ⟨s.wrapTemplates⟩

def ids (s : Settings) : IdSource := { stem := s.stem }

def session {σ : Type} (s : Settings) (memory : σ) : Session σ :=
  Session.withExpander s.ids s.options s.expanderRank memory

def registerTemplates {σ : Type} (s : Settings) (session : Session σ) (name : String)
    (handler : Handler σ) : Session σ :=
  session.register name s.templateRank (.only .selfClosing) handler

def toValue (s : Settings) : Value :=
  .table [("expansion", .table [("wrap_templates", .boolean s.wrapTemplates)]),
    ("pipeline", .table [("template_rank", .float s.templateRank),
      ("attribute_expander_rank", .float s.expanderRank)]),
    ("ids", .table [("prefix", .text s.stem)])]

end Settings

inductive ConfigError where
  /-- The key of an override is no path. -/
  | badPath (key : String)
  | missingFile
  | badDocument
  | wrongType (found expected key : String)
  | notAGroup (found group : String)
  | shortGroup (length : Nat) (group : String) (fields : Nat)
  | missingField (name : String)
deriving DecidableEq, Inhabited

namespace ConfigError

def message : ConfigError → String
  | badPath key => "invalid path: " ++ key
  | missingFile => "missing file"
  | badDocument => "malformed document"
  | wrongType found expected key =>
    "invalid type: " ++ found ++ ", expected " ++ expected ++ " for key `" ++ key ++ "`"
  | notAGroup found name => "invalid type: " ++ found ++ ", expected struct " ++ name
  | shortGroup length name fields =>
    "invalid length " ++ toString length ++ ", expected struct " ++ name ++ " with " ++
      toString fields ++ if fields = 1 then " element" else " elements"
  | missingField name => "missing field `" ++ name ++ "`"

end ConfigError

/-- A group of settings: its key, the name it has in messages, and the keys
of its fields. -/
structure Group where
  key : String
  label : String
  fields : List String

namespace Group

def expansion : Group := ⟨"expansion", "ExpansionConfig", ["wrap_templates"]⟩

def pipeline : Group :=
  ⟨"pipeline", "PipelineConfig", ["template_rank", "attribute_expander_rank"]⟩

def ids : Group := ⟨"ids", "IdsConfig", ["prefix"]⟩

/-- The field at an index of a group: its full key and its value.  A group that is
an array gives its fields in order and may have more items. -/
def field (g : Group) (root : Value) (i : Nat) : Except ConfigError (String × Value) :=
  match root.entries.lookup g.key, g.fields[i]? with
  | some (.table es), some f =>
    match es.lookup f with
    | some v => .ok (g.key ++ "." ++ f, v)
    | none => .error (.missingField f)
  | some (.array vs), _ =>
    match vs[i]? with
    | some v => .ok (g.key ++ "[" ++ toString i ++ "]", v)
    | none => .error (.shortGroup i g.label g.fields.length)
  | some v, _ => .error (.notAGroup v.describe g.label)
  | none, _ => .error (.missingField g.key)

def read {α : Type} (g : Group) (root : Value) (i : Nat) (expected : String)
    (as : Value → Except String α) : Except ConfigError α := do
  let (key, v) ← g.field root i
  match as v with
  | .ok a => return a
  | .error found => .error (.wrongType found expected key)

/-- Two fields of one group.  That one is missing counts only where the other has no
wrong type; otherwise the first fault counts. -/
def both {α β : Type} :
    Except ConfigError α → Except ConfigError β → Except ConfigError (α × β)
  | .ok a, .ok b => .ok (a, b)
  | .error (.missingField _), .error (.wrongType found expected key) =>
    .error (.wrongType found expected key)
  | .error e, _ => .error e
  | .ok _, .error e => .error e

end Group

def Settings.ofValue (root : Value) : Except ConfigError Settings := do
  let wrap ← Group.expansion.read root 0 "a boolean" Value.toBool
  let rank (i : Nat) := Group.pipeline.read root i "a floating point" Value.toFloat
  let (templateRank, expanderRank) ← Group.both (rank 0) (rank 1)
  let stem ← Group.ids.read root 0 "a string" Value.toText
  return ⟨wrap, templateRank, expanderRank, stem⟩

/-! ### Layers -/

/-- What is laid over the defaults. -/
inductive Layer where
  /-- A document, or that there is none where there should be. -/
  | document (text : Option String)
  | optionalDocument (text : Option String)
  | override (key : String) (v : Value)
deriving Inhabited

/-- Puts the entries of a document into the tree.  A key that reads as a path is
one. -/
def layDocument (entries : List (String × Toml.Value)) (root : Value) : Value :=
  entries.foldl (fun root e =>
    let v := Value.ofToml e.2
    match KeyPath.parse? e.1 with
    | some p => p.set v root
    | none => Value.setKey e.1 v root) root

namespace Layer

def entries : Layer → Except ConfigError (List (String × Toml.Value))
  | document none => .error .missingFile
  | document (some text) | optionalDocument (some text) =>
    match Toml.parse? text with
    | some es => .ok es
    | none => .error .badDocument
  | optionalDocument none | override .. => .ok []

def override? : Layer → Except ConfigError (Option (KeyPath × Value))
  | override key v =>
    match KeyPath.parse? key with
    | some p => .ok (some (p, v))
    | none => .error (.badPath key)
  | _ => .ok none

end Layer

/-- Puts an override behind the others, and drops an earlier one at its path. -/
def putOverride (os : List (KeyPath × Value)) (o : KeyPath × Value) : List (KeyPath × Value) :=
  os.filter (fun o' => decide (o'.1 ≠ o.1)) ++ [o]

/-- The settings that layers make of the defaults.  A bad path stops everything
before a document is opened.  Of the overrides at one path only the last one
counts, even where they are tables. -/
def load (layers : List Layer) : Except ConfigError Settings := do
  let overrides ← layers.filterMapM Layer.override?
  let documents ← layers.mapM Layer.entries
  let root := documents.foldl (fun root es => layDocument es root) ({} : Settings).toValue
  let overrides := overrides.foldl putOverride []
  Settings.ofValue (overrides.foldl (fun root o => o.1.set o.2 root) root)

end WikiExpansion.Config
