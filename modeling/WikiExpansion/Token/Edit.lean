import WikiExpansion.Text.Blank
import WikiExpansion.Token.Basic

/-!
# Editing attribute lists

A copy of a tag shares its attributes with the tag it was copied from until
something is written to them.  `Held` says of each item of the copy which of the
two it is, so an edit never changes the list that the copy was taken from, and
what it left alone can be read off the result.

`set` and `addWord` find their attribute by two rules.  `set` takes the first
one with the key; `addWord` takes the first one with the key whose value is
plain text.  Both append where there is none.
-/

namespace WikiExpansion

/-- An item of a list that was copied from another: still shared with that list,
or the copy's own, because it was written to or added. -/
inductive Held (α : Type) where
  | shared (a : α)
  | own (a : α)
deriving DecidableEq, Inhabited

namespace Held

variable {α : Type}

def get : Held α → α
  | shared a | own a => a

def isShared : Held α → Bool
  | shared _ => true
  | own _ => false

def write (f : α → α) (h : Held α) : Held α := own (f h.get)

@[simp] theorem get_shared (a : α) : (shared a).get = a := rfl

@[simp] theorem get_own (a : α) : (own a).get = a := rfl

@[simp] theorem get_write (f : α → α) (h : Held α) : (h.write f).get = f h.get := rfl

/-- Writes to the first item that `p` picks, and appends `new` if it picks none. -/
def writeFirst (p : α → Bool) (f : α → α) (new : α) : List (Held α) → List (Held α)
  | [] => [own new]
  | h :: hs => if p h.get then h.write f :: hs else h :: writeFirst p f new hs

theorem length_le_writeFirst (p : α → Bool) (f : α → α) (new : α) (hs : List (Held α)) :
    hs.length ≤ (writeFirst p f new hs).length := by
  induction hs with
  | nil => simp [writeFirst]
  | cons h hs ih =>
    rw [writeFirst]
    split
    · simp
    · simpa using ih

end Held

namespace Attribute

variable {τ : Type}

def isTextNamed (k : String) (a : Attribute τ) : Bool := a.isNamed k && a.value.text?.isSome

def appendWord (word current : String) : String :=
  if current = "" then word else current ++ " " ++ word

end Attribute

inductive AttributeEdit (τ : Type) where
  | add (key value : Content τ)
  | set (key : String) (value : Content τ)
  /-- List `word` in the first pair keyed `key` with a plain text value. -/
  | addWord (key word : String)
deriving Inhabited

namespace AttributeEdit

variable {τ : Type}

def apply (hs : List (Held (Attribute τ))) : AttributeEdit τ → List (Held (Attribute τ))
  | add k v => hs ++ [.own ⟨k, v, none, none, none⟩]
  | set k v =>
    Held.writeFirst (·.isNamed k) (fun a => { a with value := v })
      ⟨.text k, v, none, none, none⟩ hs
  | addWord k w =>
    match (hs.find? (·.get.isTextNamed k)).bind (·.get.value.text?) with
    | some current =>
      if (Text.words current).contains w then hs
      else
        Held.writeFirst (Attribute.isTextNamed k)
          (fun a => { a with value := .text (Attribute.appendWord w current) })
          ⟨.text k, .text w, none, none, none⟩ hs
    | none => hs ++ [.own ⟨.text k, .text w, none, none, none⟩]

def applyAll (hs : List (Held (Attribute τ))) (es : List (AttributeEdit τ)) :
    List (Held (Attribute τ)) :=
  es.foldl apply hs

theorem length_le_apply (hs : List (Held (Attribute τ))) (e : AttributeEdit τ) :
    hs.length ≤ (e.apply hs).length := by
  cases e with
  | add => simp [apply]
  | set k v => exact Held.length_le_writeFirst ..
  | addWord k w =>
    rw [apply]
    split
    · split
      · exact Nat.le_refl _
      · exact Held.length_le_writeFirst ..
    · simp

end AttributeEdit

namespace Tag

variable {τ : Type}

/-- The attributes of a copy of the tag that nothing was written to yet. -/
def share (t : Tag τ) : List (Held (Attribute τ)) := t.attributes.map .shared

/-- The tag with its attributes taken from such a copy. -/
def withHeld (t : Tag τ) (hs : List (Held (Attribute τ))) : Tag τ :=
  { t with attributes := hs.map Held.get }

@[simp] theorem withHeld_share (t : Tag τ) : t.withHeld t.share = t := by
  simp [withHeld, share, Function.comp_def]

end Tag

end WikiExpansion
