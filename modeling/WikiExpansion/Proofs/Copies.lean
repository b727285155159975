import Mathlib.Data.List.Induction
import WikiExpansion.Proofs.Cells

/-!
# Changes to a copy of a tag

A change to the attributes of a tag writes to one place at most, the first one that it
picks (`AttributeEdit.WritesTo`), or it appends.  So whatever is done to a copy of a tag,
its pairs stay in their places with their keys and source pointers, and a pair is still
the one of the tag where and only where no change wrote to it.  The tag never changes.

`Edited` says all that of any changes one after the other, and what one more of them
comes to.  The main statement is `Tag.edited_copy`.
-/

namespace WikiExpansion

/-! ### One change -/

namespace AttributeEdit

variable {τ : Type} {e : AttributeEdit τ} {as : List (Attribute τ)}
  {hs : List (Held (Attribute τ))} {i j : Nat} {k w : String}

/-- The change writes to place `i` of the list: to the first pair with its key, or to the
first one with its key and a text, unless that lists its word already. -/
inductive WritesTo (as : List (Attribute τ)) : AttributeEdit τ → Nat → Prop
  | set {k v i} : FirstAt (·.key = .text k) as i → WritesTo as (.set k v) i
  | addWord {k w i a s} : FirstAt (·.HasText k) as i → as[i]? = some a → a.value = .text s →
      w ∉ Text.words s → WritesTo as (.addWord k w) i

theorem WritesTo.unique (hi : WritesTo as e i) (hj : WritesTo as e j) : i = j := by
  cases hi with
  | set hi =>
    cases hj with
    | set hj => exact hi.unique hj
  | addWord hi _ _ _ =>
    cases hj with
    | addWord hj _ _ _ => exact hi.unique hj

theorem lookup_set_of_ne {j k : String} (h : j ≠ k) (v : Content τ)
    (hs : List (Held (Attribute τ))) :
    Attribute.lookup j ((AttributeEdit.apply hs (.set k v)).map Held.get) =
      Attribute.lookup j (hs.map Held.get) :=
  Held.lookup_writeFirst_of_ne (p := (·.isNamed k)) (f := fun a => { a with value := v })
    (fun _ ha => Attribute.not_isNamed_of_ne h.symm ha) (fun _ => rfl)
    (Attribute.not_isNamed_of_ne h.symm (Attribute.isNamed_text ..)) hs

theorem apply_addWord_at {h : Held (Attribute τ)} {s : String}
    (hf : FirstAt (Attribute.HasText k) (hs.map Held.get) i) (hi : hs[i]? = some h)
    (hv : h.get.value = .text s) (w : String) :
    AttributeEdit.apply hs (.addWord k w) =
      if w ∈ Text.words s then hs
      else hs.set i (.own { h.get with value := .text (Attribute.appendWord w s) }) := by
  have he := edits hs (.addWord k w)
  generalize AttributeEdit.apply hs (.addWord k w) = ks at he ⊢
  cases he with
  | listed hf' hi' hv' hw =>
    obtain rfl := hf.unique hf'
    obtain rfl := Option.some.inj (hi.symm.trans hi')
    obtain rfl := Content.text.inj (hv.symm.trans hv')
    rw [if_pos hw]
  | word hf' hi' hv' hw =>
    obtain rfl := hf.unique hf'
    obtain rfl := Option.some.inj (hi.symm.trans hi')
    obtain rfl := Content.text.inj (hv.symm.trans hv')
    rw [if_neg hw]
  | wordNew hnone => exact absurd hf (hnone i)

theorem apply_addWord_of_none (hn : ∀ i, ¬ FirstAt (Attribute.HasText k) (hs.map Held.get) i)
    (w : String) :
    AttributeEdit.apply hs (.addWord k w) = hs ++ [.own ⟨.text k, .text w, none, none, none⟩] := by
  have he := edits hs (.addWord k w)
  generalize AttributeEdit.apply hs (.addWord k w) = ks at he ⊢
  cases he with
  | listed hf | word hf => exact absurd hf (hn _)
  | wordNew => rfl

/-- A change writes to one place, or leaves all places as they are and may append. -/
theorem apply_cases (hs : List (Held (Attribute τ))) (e : AttributeEdit τ) :
    (∃ i h v, e.WritesTo (hs.map Held.get) i ∧ hs[i]? = some h ∧
        e.apply hs = hs.set i (.own { h.get with value := v })) ∨
      (∀ i, ¬ e.WritesTo (hs.map Held.get) i) ∧ ∃ new, e.apply hs = hs ++ new := by
  have he := edits hs e
  generalize e.apply hs = ks at he ⊢
  cases he with
  | added => exact .inr ⟨nofun, _, rfl⟩
  | set hf hi => exact .inl ⟨_, _, _, .set hf, hi, rfl⟩
  | setNew hnone =>
    refine .inr ⟨fun i hw => ?_, _, rfl⟩
    cases hw with
    | set hf => exact hnone i hf
  | listed hf hi hv hw =>
    refine .inr ⟨fun j hj => ?_, [], (List.append_nil hs).symm⟩
    cases hj with
    | addWord hj hb hs hnot =>
      obtain rfl := hf.unique hj
      rw [List.getElem?_map, hi] at hb
      obtain rfl := Option.some.inj hb
      obtain rfl := Content.text.inj (hv.symm.trans hs)
      exact hnot hw
  | @word _ _ s i h hf hi hv hw =>
    have hget : (hs.map Held.get)[i]? = some h.get := by
      rw [List.getElem?_map, hi]
      rfl
    exact .inl ⟨i, h, _, .addWord hf hget hv hw, hi, rfl⟩
  | wordNew hnone =>
    refine .inr ⟨fun i hw => ?_, _, rfl⟩
    cases hw with
    | addWord hf _ _ _ => exact hnone i hf

/-- What becomes of a list in which a word is listed under a key. -/
structure Lists (k w : String) (hs ks : List (Held (Attribute τ))) : Prop where
  again : AttributeEdit.apply ks (.addWord k w) = ks
  words : ∀ (i : Nat) (h : Held (Attribute τ)) (s : String),
    FirstAt (Attribute.HasText k) (hs.map Held.get) i → hs[i]? = some h → h.get.value = .text s →
    ∃ g s', ks[i]? = some g ∧ g.get = { h.get with value := .text s' } ∧
      Text.words s <+: Text.words s' ∧ w ∈ Text.words s'
  others : ∀ i, FirstAt (Attribute.HasText k) (hs.map Held.get) i → ∀ j, j ≠ i → ks[j]? = hs[j]?
  missing : (∀ i, ¬ FirstAt (Attribute.HasText k) (hs.map Held.get) i) →
    ks = hs ++ [.own ⟨.text k, .text w, none, none, none⟩]

theorem apply_addWord_of_mem {s : String} (hf : Attribute.firstText? k (hs.map Held.get) = some s)
    (hw : w ∈ Text.words s) : AttributeEdit.apply hs (.addWord k w) = hs := by
  rw [Held.firstText?_map_get] at hf
  rw [apply, hf]
  exact if_pos (List.contains_iff_mem.2 hw)

theorem lists_apply (hs : List (Held (Attribute τ))) (k : String) {w : String}
    (hw : Text.IsWord w.toList) : Lists k w hs (AttributeEdit.apply hs (.addWord k w)) where
  again := apply_addWord_of_mem (addWord_listed hs k w).1 (Attribute.mem_words_listed hw _)
  words i h s hf hi hv := by
    rw [apply_addWord_at hf hi hv]
    by_cases hin : w ∈ Text.words s
    · rw [if_pos hin]
      exact ⟨h, s, hi, by rw [← hv], List.prefix_refl _, hin⟩
    · rw [if_neg hin]
      refine ⟨_, _, List.getElem?_set_self (List.getElem?_eq_some_iff.1 hi).1, rfl, ?_, ?_⟩
      · rw [Text.words_appendWord hw]
        exact List.prefix_append ..
      · rw [Text.words_appendWord hw]
        exact List.mem_append_right _ (List.mem_singleton_self w)
  others i hf j hj := by
    obtain ⟨a, ha, s, -, hv⟩ := hf.here
    rw [List.getElem?_map] at ha
    obtain ⟨h, hi, rfl⟩ := Option.map_eq_some_iff.1 ha
    rw [apply_addWord_at hf hi hv]
    split
    · rfl
    · exact List.getElem?_set_ne hj.symm
  missing hn := apply_addWord_of_none hn w

end AttributeEdit

/-! ### One change after another -/

namespace Tag

variable {τ : Type} {t : Tag τ} {es : List (AttributeEdit τ)} {i : Nat}

def edited (t : Tag τ) (es : List (AttributeEdit τ)) : List (Held (Attribute τ)) :=
  AttributeEdit.applyAll t.share es

def WrittenTo (t : Tag τ) (es : List (AttributeEdit τ)) (i : Nat) : Prop :=
  ∃ (n : Nat) (e : AttributeEdit τ), es[n]? = some e ∧
    e.WritesTo ((t.edited (es.take n)).map Held.get) i

theorem edited_append (t : Tag τ) (es fs : List (AttributeEdit τ)) :
    t.edited (es ++ fs) = AttributeEdit.applyAll (t.edited es) fs := List.foldl_append ..

theorem writtenTo_concat {e : AttributeEdit τ} :
    t.WrittenTo (es ++ [e]) i ↔ t.WrittenTo es i ∨ e.WritesTo ((t.edited es).map Held.get) i := by
  constructor
  · rintro ⟨n, f, hn, hf⟩
    rcases Cells.getElem?_concat_cases hn with hn | ⟨rfl, rfl⟩
    · rw [List.take_append_of_le_length (Nat.le_of_lt (List.getElem?_eq_some_iff.1 hn).1)] at hf
      exact .inl ⟨n, f, hn, hf⟩
    · rw [List.take_left] at hf
      exact .inr hf
  · rintro (⟨n, f, hn, hf⟩ | he)
    · have hlt := (List.getElem?_eq_some_iff.1 hn).1
      refine ⟨n, f, (List.getElem?_append_left hlt).trans hn, ?_⟩
      rw [List.take_append_of_le_length (Nat.le_of_lt hlt)]
      exact hf
    · refine ⟨es.length, e, List.getElem?_concat_length, ?_⟩
      rw [List.take_left]
      exact he

/-- **A pair is still that of the tag where and only where no change wrote to it.** -/
theorem shared_iff {a : Attribute τ} (ha : t.attributes[i]? = some a) :
    (t.edited es)[i]? = some (.shared a) ↔ ¬ t.WrittenTo es i := by
  have hi : t.share[i]? = some (.shared a) := by rw [share, List.getElem?_map, ha, Option.map_some]
  induction es using List.reverseRecOn with
  | nil =>
    refine ⟨fun _ => ?_, fun _ => hi⟩
    rintro ⟨n, e, hn, -⟩
    cases hn
  | append_singleton es e ih =>
    have ih : (t.edited es)[i]? = some (.shared a) ↔ ¬ t.WrittenTo es i := ih
    rw [writtenTo_concat, not_or, ← ih, edited_append]
    obtain ⟨g, -, hg, -⟩ := AttributeEdit.inPlace_applyAll t.share es i _ hi
    have hlt : i < (t.edited es).length := (List.getElem?_eq_some_iff.1 hg).1
    show (e.apply (t.edited es))[i]? = _ ↔ _
    rcases AttributeEdit.apply_cases (t.edited es) e with ⟨j, h, v, hw, -, he⟩ | ⟨hnone, new, he⟩
    · rw [he]
      by_cases hji : j = i
      · subst hji
        rw [List.getElem?_set_self hlt]
        refine ⟨fun hs => ?_, fun hn => absurd hw hn.2⟩
        cases hs
      · rw [List.getElem?_set_ne hji]
        exact ⟨fun hs => ⟨hs, fun hwi => hji (hw.unique hwi)⟩, And.left⟩
    · rw [he, List.getElem?_append_left hlt]
      exact ⟨fun hs => ⟨hs, hnone i⟩, And.left⟩

end Tag

/-- What the changes to a copy of the tag come to, and what one more of them does. -/
structure Edited {τ : Type} (t : Tag τ) (es : List (AttributeEdit τ)) : Prop where
  original : ∀ s : Cells (Attribute τ), s.Clones t →
    (s.editAll es).read s.copy = t.attributes ∧
      ∀ c ∈ s.outside, (s.editAll es).contents c = s.contents c
  copy : ∀ s : Cells (Attribute τ), s.Clones t → (s.editAll es).list = (t.edited es).map Held.get
  /-- The copy has the very pair of the tag where and only where no change wrote to it. -/
  identical : ∀ s : Cells (Attribute τ), s.Clones t → ∀ i c, s.copy[i]? = some c →
    ((s.editAll es).copy[i]? = some c ↔ ¬ t.WrittenTo es i)
  shared : ∀ i a, t.attributes[i]? = some a →
    ((t.edited es)[i]? = some (.shared a) ↔ ¬ t.WrittenTo es i)
  /-- No pair has left its place, and each has the key and the source pointers it had. -/
  inPlace : ∀ prior, prior <+: es → (t.edited prior).length ≤ (t.edited es).length ∧
    Attribute.InPlace (t.edited prior) (t.edited es)
  set : ∀ k v, (t.withHeld (t.edited (es ++ [.set k v]))).attribute? k = some v ∧
    ∀ j, j ≠ k → (t.withHeld (t.edited (es ++ [.set k v]))).attribute? j =
      (t.withHeld (t.edited es)).attribute? j
  /-- A word is listed once, in the first text under the key. -/
  addWord : ∀ k w, Text.IsWord w.toList →
    t.edited (es ++ [.addWord k w, .addWord k w]) = t.edited (es ++ [.addWord k w]) ∧
      AttributeEdit.Lists k w (t.edited es) (t.edited (es ++ [.addWord k w]))

/-- **Changes to a copy of a tag go to the first pair they pick, and copy it first.** -/
theorem Tag.edited_copy {τ : Type} (t : Tag τ) (es : List (AttributeEdit τ)) : Edited t es where
  original s hs := ⟨hs.read_editAll es, (hs.holds_editAll es).kept⟩
  copy s hs := (hs.holds_editAll es).list_eq
  identical s hs i c hc := by
    have ha : t.attributes[i]? = some (s.contents c) := by
      rw [← hs.list, Cells.getElem?_list, hc, Option.map_some]
    rw [(hs.holds_editAll es).getElem?_copy_iff hc (hs.held c (List.mem_of_getElem? hc))]
    exact Tag.shared_iff ha
  shared i a ha := Tag.shared_iff ha
  inPlace := by
    rintro prior ⟨later, rfl⟩
    have h := AttributeEdit.inPlace_applyAll (t.edited prior) later
    rw [Tag.edited_append]
    exact ⟨h.length_le, h⟩
  set k v := by
    rw [Tag.edited_append]
    exact ⟨AttributeEdit.lookup_set (t.edited es) k v,
      fun j hj => AttributeEdit.lookup_set_of_ne hj v (t.edited es)⟩
  addWord k w hw := by
    have h := AttributeEdit.lists_apply (t.edited es) k hw
    rw [Tag.edited_append, Tag.edited_append]
    exact ⟨h.again, h⟩

def classedSpan : Tag Token :=
  ⟨"span", [newAttribute (.text "class") (.tokens [.text "a"]),
    newAttribute (.text "class") (.text "b"), newAttribute (.text "id") (.text "1")], {}⟩

def classedCells : Cells (Attribute Token) :=
  ⟨fun c => classedSpan.attributes.getD c default, 3, [0, 1, 2], [0, 1, 2]⟩

def classedEdits : List (AttributeEdit Token) := [.addWord "class" "c", .set "class" (.text "d")]

theorem edited_classedSpan :
    classedCells.Clones classedSpan ∧ [classedEdits[0]] <+: classedEdits ∧
      Text.IsWord "e".toList ∧
      (classedCells.editAll classedEdits).read classedCells.copy = classedSpan.attributes ∧
      (classedCells.editAll classedEdits).list =
        [newAttribute (.text "class") (.text "d"), newAttribute (.text "class") (.text "b c"),
          newAttribute (.text "id") (.text "1")] ∧
      classedSpan.WrittenTo classedEdits 0 ∧ (classedCells.editAll classedEdits).copy[0]? ≠ some 0 ∧
      ¬ classedSpan.WrittenTo classedEdits 2 ∧
      (classedCells.editAll classedEdits).copy[2]? = some 2 ∧
      Attribute.InPlace (classedSpan.edited [classedEdits[0]]) (classedSpan.edited classedEdits) ∧
      classedSpan.edited (classedEdits ++ [.addWord "class" "e", .addWord "class" "e"]) =
        classedSpan.edited (classedEdits ++ [.addWord "class" "e"]) := by
  have h := Tag.edited_copy classedSpan classedEdits
  have hc : classedCells.Clones classedSpan := ⟨rfl, by decide, by decide⟩
  have hprior : [classedEdits[0]] <+: classedEdits := ⟨[classedEdits[1]], rfl⟩
  have hword : Text.IsWord "e".toList := ⟨by decide, List.forall_mem_singleton.2 rfl⟩
  have hfirst : classedSpan.WrittenTo classedEdits 0 :=
    not_not.1 (mt (h.shared 0 _ rfl).2 nofun)
  have hthird : ¬ classedSpan.WrittenTo classedEdits 2 := (h.shared 2 _ rfl).1 rfl
  exact ⟨hc, hprior, hword, (h.original _ hc).1, (h.copy _ hc).trans rfl, hfirst,
    fun he => (h.identical _ hc 0 0 rfl).1 he hfirst, hthird, (h.identical _ hc 2 2 rfl).2 hthird,
    (h.inPlace _ hprior).2, (h.addWord "class" "e" hword).1⟩

end WikiExpansion
