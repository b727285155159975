import Mathlib.Data.List.Basic
import WikiExpansion.Token.Edit

/-!
# What a change to attributes does

A change writes to the first pair that it picks, or it appends a pair where there is none
to pick; `Edits` has one case for each of these, and the change to list a word has one more,
for a word that is listed already.  All pairs stay in their places (`inPlace_apply`).
-/

namespace WikiExpansion

/-! ### The first place -/

/-- The item at place `i` has the property, and no item before it has it. -/
structure FirstAt {α : Type} (P : α → Prop) (as : List α) (i : Nat) : Prop where
  here : ∃ a, as[i]? = some a ∧ P a
  before : ∀ (j : Nat) (a : α), j < i → as[j]? = some a → ¬ P a

theorem FirstAt.unique {α : Type} {P : α → Prop} {as : List α} {i j : Nat} (hi : FirstAt P as i)
    (hj : FirstAt P as j) : i = j := by
  obtain ⟨a, ha, hpa⟩ := hi.here
  obtain ⟨b, hb, hpb⟩ := hj.here
  rcases Nat.lt_trichotomy i j with h | h | h
  · exact absurd hpa (hj.before i a h ha)
  · exact h
  · exact absurd hpb (hi.before j b h hb)

namespace Held

variable {α : Type} {p : α → Bool} {P : α → Prop}

/-- A write changes the first item that is picked, or appends one. -/
theorem writeFirst_cases (p : α → Bool) (f : α → α) (new : α) (hs : List (Held α)) :
    (∃ (i : Nat) (h : Held α), hs[i]? = some h ∧ p h.get = true ∧
        (∀ (j : Nat) (g : Held α), j < i → hs[j]? = some g → p g.get = false) ∧
        writeFirst p f new hs = hs.set i (h.write f)) ∨
      (∀ h ∈ hs, p h.get = false) ∧ writeFirst p f new hs = hs ++ [own new] := by
  induction hs with
  | nil => exact Or.inr ⟨nofun, rfl⟩
  | cons h hs ih =>
    rw [writeFirst]
    by_cases hp : p h.get = true
    · rw [if_pos hp]
      exact Or.inl ⟨0, h, rfl, hp, fun j g hj => absurd hj (Nat.not_lt_zero j), rfl⟩
    · have hp := Bool.eq_false_iff.2 hp
      rw [if_neg (by rw [hp]; exact Bool.false_ne_true)]
      rcases ih with ⟨i, g, hi, hg, hj, he⟩ | ⟨hn, he⟩
      · refine Or.inl ⟨i + 1, g, hi, hg, fun j k hlt hk => ?_, by rw [he]; rfl⟩
        cases j with
        | zero =>
          obtain rfl := Option.some.inj hk
          exact hp
        | succ j => exact hj j k (Nat.lt_of_succ_lt_succ hlt) hk
      · refine Or.inr ⟨fun g hg => ?_, by rw [he]; rfl⟩
        rcases List.mem_cons.1 hg with rfl | hg
        · exact hp
        · exact hn g hg

/-- A write happens in the first place that is picked, or appends where there is none. -/
theorem writeFirst_places (hp : ∀ a, p a = true ↔ P a) (f : α → α) (new : α)
    (hs : List (Held α)) :
    (∃ i h, FirstAt P (hs.map get) i ∧ hs[i]? = some h ∧
        writeFirst p f new hs = hs.set i (h.write f)) ∨
      (∀ i, ¬ FirstAt P (hs.map get) i) ∧ writeFirst p f new hs = hs ++ [own new] := by
  have hnot (a : α) (ha : p a = false) : ¬ P a := fun h => by
    rw [(hp a).2 h] at ha
    cases ha
  rcases writeFirst_cases p f new hs with ⟨i, h, hi, hh, hfirst, he⟩ | ⟨hnone, he⟩
  · refine .inl ⟨i, h, ⟨⟨h.get, ?_, (hp _).1 hh⟩, fun j a hj ha => ?_⟩, hi, he⟩
    · rw [List.getElem?_map, hi, Option.map_some]
    · rw [List.getElem?_map] at ha
      obtain ⟨g, hg, rfl⟩ := Option.map_eq_some_iff.1 ha
      exact hnot _ (hfirst j g hj hg)
  · refine .inr ⟨fun i hi => ?_, he⟩
    obtain ⟨a, ha, hpa⟩ := hi.here
    obtain ⟨g, hg, rfl⟩ := List.mem_map.1 (List.mem_of_getElem? ha)
    exact hnot _ (hnone g hg) hpa

theorem find?_eq_some_iff (hp : ∀ a, p a = true ↔ P a) {hs : List (Held α)} {h : Held α} :
    hs.find? (p ·.get) = some h ↔ ∃ i, FirstAt P (hs.map get) i ∧ hs[i]? = some h := by
  rw [List.find?_eq_some_iff_getElem]
  constructor
  · rintro ⟨hh, i, hlt, rfl, hfirst⟩
    have hi := List.getElem?_eq_getElem hlt
    refine ⟨i, ⟨⟨hs[i].get, ?_, (hp _).1 hh⟩, fun j a hj ha hpa => ?_⟩, hi⟩
    · rw [List.getElem?_map, hi, Option.map_some]
    · rw [List.getElem?_map, List.getElem?_eq_getElem (Nat.lt_trans hj hlt)] at ha
      obtain rfl := Option.some.inj ha
      have hno := hfirst j hj
      rw [(hp _).2 hpa] at hno
      cases hno
  · rintro ⟨i, hf, hi⟩
    obtain ⟨hlt, hget⟩ := List.getElem?_eq_some_iff.1 hi
    obtain ⟨a, ha, hpa⟩ := hf.here
    rw [List.getElem?_map, hi] at ha
    obtain rfl := Option.some.inj ha
    refine ⟨(hp _).2 hpa, i, hlt, hget, fun j hj => ?_⟩
    have hj' : (hs.map get)[j]? = some hs[j].get := by
      rw [List.getElem?_map, List.getElem?_eq_getElem (Nat.lt_trans hj hlt), Option.map_some]
    rw [Bool.not_eq_true', Bool.eq_false_iff]
    exact fun ht => hf.before j _ hj hj' ((hp _).1 ht)

end Held

namespace Attribute

variable {τ : Type}

theorem isNamed_iff {k : String} {a : Attribute τ} : a.isNamed k = true ↔ a.key = .text k := by
  rw [isNamed, beq_iff_eq, Content.text?_eq_some_iff]

theorem isNamed_text (k : String) (v : Content τ) (x y : Option String)
    (z : Option SourceRange) : (⟨.text k, v, x, y, z⟩ : Attribute τ).isNamed k = true :=
  isNamed_iff.2 rfl

theorem not_isNamed_of_ne {j k : String} (h : j ≠ k) {a : Attribute τ} (ha : a.isNamed j = true) :
    a.isNamed k = false := by
  rw [Bool.eq_false_iff]
  intro hk
  rw [isNamed_iff] at ha hk
  exact h (Content.text.inj (ha.symm.trans hk))

theorem isTextNamed_iff {k : String} {a : Attribute τ} :
    a.isTextNamed k = true ↔ ∃ s, a.key = .text k ∧ a.value = .text s := by
  rw [isTextNamed, Bool.and_eq_true, isNamed_iff, Option.isSome_iff_exists]
  simp only [Content.text?_eq_some_iff, exists_and_left]

def HasText (k : String) (a : Attribute τ) : Prop := ∃ s, a.key = .text k ∧ a.value = .text s

/-- Each pair of `hs` has its place in `ks`, with its key and its source pointers. -/
def InPlace (hs ks : List (Held (Attribute τ))) : Prop :=
  ∀ (i : Nat) (h : Held (Attribute τ)), hs[i]? = some h →
    ∃ k v, ks[i]? = some k ∧ k.get = { h.get with value := v }

namespace InPlace

variable {hs ks ls : List (Held (Attribute τ))}

theorem refl (hs : List (Held (Attribute τ))) : InPlace hs hs :=
  fun _ h hi => ⟨h, h.get.value, hi, rfl⟩

theorem trans (h : InPlace hs ks) (h' : InPlace ks ls) : InPlace hs ls := by
  intro i g hi
  obtain ⟨k, v, hk, hkg⟩ := h i g hi
  obtain ⟨l, w, hl, hlk⟩ := h' i k hk
  exact ⟨l, w, hl, by rw [hlk, hkg]⟩

theorem append (hs ks : List (Held (Attribute τ))) : InPlace hs (hs ++ ks) := by
  intro i h hi
  rw [List.getElem?_append_left (List.getElem?_eq_some_iff.1 hi).1]
  exact refl hs i h hi

theorem set {i : Nat} {h : Held (Attribute τ)} (hi : hs[i]? = some h) (v : Content τ) :
    InPlace hs (hs.set i (.own { h.get with value := v })) := by
  intro j g hj
  by_cases hij : i = j
  · subst hij
    obtain rfl := Option.some.inj (hi.symm.trans hj)
    exact ⟨_, v, List.getElem?_set_self (List.getElem?_eq_some_iff.1 hi).1, rfl⟩
  · rw [List.getElem?_set_ne hij]
    exact refl hs j g hj

theorem length_le (h : InPlace hs ks) : hs.length ≤ ks.length := by
  refine Nat.le_of_not_lt fun hlt => ?_
  obtain ⟨k, v, hk, -⟩ := h _ _ (List.getElem?_eq_getElem hlt)
  exact Nat.lt_irrefl _ (List.getElem?_eq_some_iff.1 hk).1

end InPlace

end Attribute

/-! ### One change -/

namespace AttributeEdit

variable {τ : Type} {hs : List (Held (Attribute τ))}

inductive Edits (hs : List (Held (Attribute τ))) :
    AttributeEdit τ → List (Held (Attribute τ)) → Prop
  | added {k v : Content τ} : Edits hs (.add k v) (hs ++ [.own ⟨k, v, none, none, none⟩])
  | set {k : String} {v : Content τ} {i : Nat} {h : Held (Attribute τ)} :
      FirstAt (·.key = .text k) (hs.map Held.get) i → hs[i]? = some h →
      Edits hs (.set k v) (hs.set i (.own { h.get with value := v }))
  | setNew {k : String} {v : Content τ} : (∀ i, ¬ FirstAt (·.key = .text k) (hs.map Held.get) i) →
      Edits hs (.set k v) (hs ++ [.own ⟨.text k, v, none, none, none⟩])
  | listed {k w s : String} {i : Nat} {h : Held (Attribute τ)} :
      FirstAt (Attribute.HasText k) (hs.map Held.get) i → hs[i]? = some h →
      h.get.value = .text s → w ∈ Text.words s → Edits hs (.addWord k w) hs
  | word {k w s : String} {i : Nat} {h : Held (Attribute τ)} :
      FirstAt (Attribute.HasText k) (hs.map Held.get) i → hs[i]? = some h →
      h.get.value = .text s → w ∉ Text.words s → Edits hs (.addWord k w)
        (hs.set i (.own { h.get with value := .text (Attribute.appendWord w s) }))
  | wordNew {k w : String} : (∀ i, ¬ FirstAt (Attribute.HasText k) (hs.map Held.get) i) →
      Edits hs (.addWord k w) (hs ++ [.own ⟨.text k, .text w, none, none, none⟩])

theorem edits_set (hs : List (Held (Attribute τ))) (k : String) (v : Content τ) :
    Edits hs (.set k v) (AttributeEdit.apply hs (.set k v)) := by
  rcases Held.writeFirst_places (fun _ => Attribute.isNamed_iff) (fun a => { a with value := v })
      ⟨.text k, v, none, none, none⟩ hs with ⟨i, h, hf, hi, he⟩ | ⟨hnone, he⟩
  · rw [apply, he]
    exact .set hf hi
  · rw [apply, he]
    exact .setNew hnone

theorem edits_addWord (hs : List (Held (Attribute τ))) (k w : String) :
    Edits hs (.addWord k w) (AttributeEdit.apply hs (.addWord k w)) := by
  cases hfind : hs.find? (·.get.isTextNamed k) with
  | none =>
    rw [apply, hfind, Option.bind_none]
    refine .wordNew fun i hi => ?_
    obtain ⟨a, ha, ht⟩ := hi.here
    obtain ⟨h, hh, rfl⟩ := List.mem_map.1 (List.mem_of_getElem? ha)
    exact List.find?_eq_none.1 hfind h hh (Attribute.isTextNamed_iff.2 ht)
  | some h =>
    obtain ⟨i, hf, hi⟩ := (Held.find?_eq_some_iff (p := Attribute.isTextNamed k)
      fun _ => Attribute.isTextNamed_iff).1 hfind
    obtain ⟨s, -, hv⟩ := Attribute.isTextNamed_iff.1
      (List.find?_some (p := fun g : Held (Attribute τ) => g.get.isTextNamed k) hfind)
    rw [apply, hfind, Option.bind_some, hv]
    dsimp only [Content.text?_text]
    by_cases hw : w ∈ Text.words s
    · rw [if_pos (List.contains_iff_mem.2 hw)]
      exact .listed hf hi hv hw
    · rw [if_neg (mt List.contains_iff_mem.1 hw)]
      rcases Held.writeFirst_places (fun _ => Attribute.isTextNamed_iff)
          (fun a => { a with value := .text (Attribute.appendWord w s) })
          ⟨.text k, .text w, none, none, none⟩ hs with ⟨j, g, hj, hg, he⟩ | ⟨hnone, -⟩
      · obtain rfl := hf.unique hj
        obtain rfl := Option.some.inj (hi.symm.trans hg)
        rw [he]
        exact .word hf hi hv hw
      · exact absurd hf (hnone i)

theorem edits (hs : List (Held (Attribute τ))) (e : AttributeEdit τ) :
    Edits hs e (e.apply hs) := by
  cases e with
  | add k v => exact .added
  | set k v => exact edits_set hs k v
  | addWord k w => exact edits_addWord hs k w

/-- Each pair stays in its place through a change. -/
theorem inPlace_apply (hs : List (Held (Attribute τ))) (e : AttributeEdit τ) :
    Attribute.InPlace hs (e.apply hs) := by
  have he := edits hs e
  generalize e.apply hs = ks at he ⊢
  cases he with
  | added | setNew | wordNew => exact .append hs _
  | set _ hi | word _ hi => exact .set hi _
  | listed => exact .refl hs

theorem inPlace_applyAll (hs : List (Held (Attribute τ))) (es : List (AttributeEdit τ)) :
    Attribute.InPlace hs (applyAll hs es) := by
  induction es generalizing hs with
  | nil => exact .refl hs
  | cons e es ih => exact (inPlace_apply hs e).trans (ih (e.apply hs))

end AttributeEdit

end WikiExpansion
