import WikiExpansion.Error
import WikiExpansion.KeyValue
import WikiExpansion.ObjectId
import WikiExpansion.Token.Edit
import WikiExpansion.Token.Equality
import WikiExpansion.Wrapper

/-!
# Reconciling expanded attributes

Once the keys and values of a tag have been expanded, each pair is compared with
the one it came from.  It takes over the source pointers, loses the wrappers that
templates left, and yields a marker for each side that a template produced.  A
key of the form `k="v"` without a value becomes a key and a value.  A key that
holds `mw:maybeContent` stays undecided: both forms are kept in added pairs.

A pair is settled on its own: `reconcilePair` looks at no other.  What the pairs
found is put together in their order by `reconcile`, and `returnAttributes`
emits the tag, with one `about` id on it and on all its markers.
-/

namespace WikiExpansion

/-- How a run treats templates: `wrapTemplates` asks for wrapper tags around
their content, without which nothing tells what a template produced. -/
structure Options where
  wrapTemplates : Bool := true
deriving DecidableEq, Inhabited

/-- What reconciling some pairs found: whether they changed, the markers for the
sides that were produced, and the pairs to add behind the others. -/
structure Findings where
  modified : Bool := false
  markers : List (Marker Token) := []
  added : List (Attribute Token) := []
deriving DecidableEq, Inhabited

namespace Findings

instance : Append Findings where
  append f g := ⟨f.modified || g.modified, f.markers ++ g.markers, f.added ++ g.added⟩

theorem append_def (f g : Findings) :
    f ++ g = ⟨f.modified || g.modified, f.markers ++ g.markers, f.added ++ g.added⟩ := rfl

end Findings

def newMarker (part : Part) (objectType : String) (key value expansion : Content Token) :
    Marker Token :=
  ⟨part, objectType, key, value, expansion, none⟩

def newAttribute (key value : Content Token) : Attribute Token := ⟨key, value, none, none, none⟩

/-- A pair after its key was settled, and the key by which its value is treated. -/
structure KeyStep where
  pair : Held (Attribute Token)
  key : Content Token
  findings : Findings
deriving Inhabited

/-- Settles a key that was expanded. -/
def reconcileKey (wrapped : Bool) (pair : Held (Attribute Token)) : KeyStep :=
  let key := pair.get.key
  let value := pair.get.value
  if Text.contains Vocabulary.maybeContent key.plainText then
    { pair := pair.write fun a => { a with key := .text key.plainText }
      key := .text Vocabulary.keyAffected
      findings := ⟨true, [], [newAttribute (.text Vocabulary.keyAffected) value]⟩ }
  else
    let stripped := strip wrapped key
    match stripped.objectType with
    | none =>
      { pair := pair.write fun a => { a with key := stripped.value }
        key := stripped.value
        findings := ⟨true, [], []⟩ }
    | some type =>
      match if value.isEmptyText then KeyValue.infer? stripped.value else none with
      | some (k, v) =>
        { pair := pair.write fun a => { a with key := .text k, value := v }
          key := .text k
          findings := ⟨true, [newMarker .whole type (.text k) stripped.value key], []⟩ }
      | none =>
        { pair := pair.write fun a => { a with key := stripped.value }
          key := stripped.value
          findings := ⟨true, [newMarker .key type stripped.value stripped.value key], []⟩ }

def reconcileValue (wrapped : Bool) (key : Content Token) (pair : Held (Attribute Token)) :
    Held (Attribute Token) × Findings :=
  let expansion := pair.get.value
  let stripped := strip wrapped expansion
  (pair.write fun a => { a with value := stripped.value },
    match stripped.objectType with
    | some type => ⟨true, [newMarker .value type key stripped.value expansion], []⟩
    | none => ⟨true, [], []⟩)

/-- Leaves a value under an undecided key as it is, and adds a pair with both of
its forms where a template produced it. -/
def deferValue (wrapped : Bool) (key : Content Token) (pair : Held (Attribute Token)) :
    Held (Attribute Token) × Findings :=
  let expansion := pair.get.value
  let stripped := strip wrapped expansion
  (pair,
    match stripped.objectType with
    | some type =>
      ⟨true, [], [newAttribute (.text Vocabulary.valueAffected)
        (.tokens [.text type, .marker (newMarker .value type key stripped.value expansion)])]⟩
    | none => ⟨true, [], []⟩)

def settleValue (wrapped : Bool) (written : Attribute Token) (step : KeyStep) :
    Held (Attribute Token) × Findings :=
  match step.key.text?, written.value.isTokens with
  | some key, true =>
    if Text.contains Vocabulary.maybeContent key then deferValue wrapped step.key step.pair
    else if Text.startsWith Vocabulary.reserved key then (step.pair, ⟨true, [], []⟩)
    else reconcileValue wrapped step.key step.pair
  | _, _ => (step.pair, ⟨decide (step.pair.get.value ≠ written.value), [], []⟩)

/-- Takes over the source pointers of the pair as it was written.  A pair that is
still that one has them. -/
def Held.carrySources (written : Attribute Token) :
    Held (Attribute Token) → Held (Attribute Token)
  | .shared a => .shared a
  | .own a => .own (a.carrySources written)

/-- Settles one pair.  One whose expanded key is the empty text is left alone. -/
def reconcilePair (wrapped : Bool) (written : Attribute Token)
    (expanded : Held (Attribute Token)) : Held (Attribute Token) × Findings :=
  let pair := expanded.carrySources written
  if pair.get.key.isEmptyText then (pair, {})
  else
    let step :=
      if written.key.isTokens then reconcileKey wrapped pair
      else ⟨pair, pair.get.key, ⟨decide (pair.get.key ≠ written.key), [], []⟩⟩
    let (pair, found) := settleValue wrapped written step
    (pair, step.findings ++ found)

/-- Settles the pairs of a tag in order.  Expanded pairs beyond the last written
one stay as they are. -/
def reconcile (wrapped : Bool) :
    List (Attribute Token) → List (Held (Attribute Token)) →
      List (Held (Attribute Token)) × Findings
  | a :: as, h :: hs =>
    let (pair, found) := reconcilePair wrapped a h
    let (pairs, later) := reconcile wrapped as hs
    (pair :: pairs, found ++ later)
  | _, hs => (hs, {})

theorem length_reconcile (wrapped : Bool) (written : List (Attribute Token)) :
    ∀ hs : List (Held (Attribute Token)), (reconcile wrapped written hs).1.length = hs.length := by
  induction written with
  | nil => exact fun _ => rfl
  | cons a as ih =>
    intro hs
    cases hs with
    | nil => rfl
    | cons h hs => simp [reconcile, ih]

structure Rebuilt where
  markers : List (Marker Token)
  attributes : List (Held (Attribute Token))
deriving Inhabited

/-- Gives the tag and its markers one `about` id, that of the tag where it has one
in plain text and a new one otherwise, and labels the tag with the producer of
its last marker. -/
def group (ids : IdSource) (last : Marker Token) (markers : List (Marker Token))
    (attributes : List (Held (Attribute Token))) : Rebuilt × IdSource :=
  let label : AttributeEdit Token :=
    .addWord "typeof" (Vocabulary.expandedLabel last.objectType)
  match Attribute.lookupText "about" (attributes.map Held.get) with
  | some id =>
    (⟨markers.map fun m => { m with about := some id }, label.apply attributes⟩, ids)
  | none =>
    let (id, ids) := ids.newAboutId
    (⟨markers.map fun m => { m with about := some id },
      label.apply (AttributeEdit.apply attributes (.set "about" (.text id)))⟩, ids)

/-- The new attributes of a tag and its markers, or nothing where no pair changed. -/
def rebuild (options : Options) (ids : IdSource) (written : List (Attribute Token))
    (expanded : List (Held (Attribute Token))) : Option Rebuilt × IdSource :=
  let (pairs, found) := reconcile options.wrapTemplates written expanded
  if found.modified then
    let attributes := pairs ++ found.added.map .own
    match found.markers.getLast? with
    | some last =>
      let (r, ids) := group ids last found.markers attributes
      (some r, ids)
    | none => (some ⟨[], attributes⟩, ids)
  else (none, ids)

/-- What a token becomes once its attributes are expanded.  The expanded list
lines up with the attributes of the token and may have more at its end. -/
def returnAttributes (options : Options) (ids : IdSource) (token : Token)
    (expanded : List (Held (Attribute Token))) : Outcome (List Token) × IdSource :=
  match token.expandableTag? with
  | none => (.ok [token], ids)
  | some tag =>
    if expanded.length < tag.attributes.length then
      (.error (.malformedToken tag.name tag.attributes.length expanded.length tag.source.range),
        ids)
    else
      match rebuild options ids tag.attributes expanded with
      | (none, ids) => (.ok [token], ids)
      | (some r, ids) =>
        (.ok (r.markers.map .marker ++ [token.withTag (tag.withHeld r.attributes)]), ids)

end WikiExpansion
