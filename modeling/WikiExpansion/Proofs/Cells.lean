import Mathlib.Data.List.Duplicate
import Mathlib.Data.List.NodupEquivFin
import WikiExpansion.Proofs.Typeof

/-!
# Attributes in counted cells

The attributes of a tag stand in cells, and a copy of the tag starts with the same
cells.  It is counted how often a cell is held.  Before the copy writes to a cell that
is held elsewhere too, it takes a new one (`Cells.writeAt`).

`Cells.Holds` is what that comes to: the cells that were held elsewhere keep their
contents, the copy still has the cell of each attribute that is `shared`, and nobody
else has the cells of those that are its `own`.  Every edit keeps it
(`Cells.Holds.edit`), so to tell shared from own attributes is to tell the cells.
-/

namespace WikiExpansion

/-- Counted cells: what is in each of them, the number of the next new one, and the
cells that a copy holds and those that are held elsewhere, as often as they are held. -/
structure Cells (α : Type) where
  contents : Nat → α
  next : Nat
  outside : List Nat
  copy : List Nat

namespace Cells

variable {α : Type}

def holders (s : Cells α) (c : Nat) : Nat := (s.outside ++ s.copy).count c

def read (s : Cells α) (cs : List Nat) : List α := cs.map s.contents

def list (s : Cells α) : List α := s.read s.copy

theorem getElem?_list (s : Cells α) (i : Nat) : s.list[i]? = s.copy[i]?.map s.contents :=
  List.getElem?_map ..

theorem length_list (s : Cells α) : s.list.length = s.copy.length := List.length_map ..

def append (s : Cells α) (a : α) : Cells α :=
  { s with
    contents := Function.update s.contents s.next a
    next := s.next + 1
    copy := s.copy ++ [s.next] }

def store (s : Cells α) (c : Nat) (a : α) : Cells α :=
  { s with contents := Function.update s.contents c a }

def renew (s : Cells α) (i : Nat) (a : α) : Cells α :=
  { s with
    contents := Function.update s.contents s.next a
    next := s.next + 1
    copy := s.copy.set i s.next }

/-- Writes to the `i`th cell of the copy, or to a new one in its place where it is held
more than once. -/
def writeAt (s : Cells α) (i : Nat) (f : α → α) : Cells α :=
  match s.copy[i]? with
  | none => s
  | some c =>
    if s.holders c = 1 then s.store c (f (s.contents c)) else s.renew i (f (s.contents c))

def writeFirst (p : α → Bool) (f : α → α) (new : α) (s : Cells α) : Cells α :=
  match s.list.findIdx? p with
  | some i => s.writeAt i f
  | none => s.append new

variable {τ : Type}

def edit (s : Cells (Attribute τ)) : AttributeEdit τ → Cells (Attribute τ)
  | .add k v => s.append ⟨k, v, none, none, none⟩
  | .set k v =>
    s.writeFirst (·.isNamed k) (fun a => { a with value := v }) ⟨.text k, v, none, none, none⟩
  | .addWord k w =>
    match Attribute.firstText? k s.list with
    | some current =>
      if (Text.words current).contains w then s
      else
        s.writeFirst (Attribute.isTextNamed k)
          (fun a => { a with value := .text (Attribute.appendWord w current) })
          ⟨.text k, .text w, none, none, none⟩
    | none => s.append ⟨.text k, .text w, none, none, none⟩

def editAll (s : Cells (Attribute τ)) (es : List (AttributeEdit τ)) : Cells (Attribute τ) :=
  es.foldl edit s

/-- The cells of a copy of the tag that nothing was written to yet: the tag and the copy
hold the same ones. -/
structure Clones (s : Cells (Attribute τ)) (t : Tag τ) : Prop where
  list : s.list = t.attributes
  held : ∀ c ∈ s.copy, c ∈ s.outside
  old : ∀ c ∈ s.outside, c < s.next

/-- The cell `c` of the attribute at place `i` of a copy that was `s₀` at first. -/
inductive HeldAs (s₀ s : Cells α) (i c : Nat) : Held α → Prop
  | shared {a : α} : s₀.copy[i]? = some c → c ∈ s₀.outside → HeldAs s₀ s i c (.shared a)
  | own {a : α} : c ∉ s₀.outside → s.copy.count c = 1 → HeldAs s₀ s i c (.own a)

/-- The cells `s₀` have become `s` through changes to the copy, which has the attributes
`hs` now. -/
structure Holds (s₀ s : Cells α) (hs : List (Held α)) : Prop where
  outside : s.outside = s₀.outside
  kept : ∀ c ∈ s₀.outside, s.contents c = s₀.contents c
  old : ∀ c ∈ s.outside ++ s.copy, c < s.next
  length : s.copy.length = hs.length
  places : ∀ (i : Nat) (h : Held α), hs[i]? = some h →
    ∃ c, s.copy[i]? = some c ∧ s.contents c = h.get ∧ HeldAs s₀ s i c h

variable {s₀ s : Cells α} {hs : List (Held α)}

/-! ### Places in lists -/

theorem eq_of_count_eq_one {cs : List Nat} {c i j : Nat} (h : cs.count c = 1)
    (hi : cs[i]? = some c) (hj : cs[j]? = some c) : i = j := by
  have apart {i j : Nat} (hi : cs[i]? = some c) (hj : cs[j]? = some c) : ¬ i < j := by
    intro hlt
    obtain ⟨hil, hi⟩ := List.getElem?_eq_some_iff.1 hi
    obtain ⟨hjl, hj⟩ := List.getElem?_eq_some_iff.1 hj
    have htwice : List.Duplicate c cs := List.duplicate_iff_exists_distinct_get.2
      ⟨⟨i, hil⟩, ⟨j, hjl⟩, hlt, hi.symm, hj.symm⟩
    have := List.duplicate_iff_two_le_count.1 htwice
    omega
  exact Nat.le_antisymm (Nat.le_of_not_lt (apart hj hi)) (Nat.le_of_not_lt (apart hi hj))

theorem getElem?_concat_cases {β : Type} {bs : List β} {i : Nat} {a b : β}
    (h : (bs ++ [a])[i]? = some b) : bs[i]? = some b ∨ i = bs.length ∧ b = a := by
  rw [List.getElem?_append] at h
  split at h
  · exact .inl h
  · rename_i hge
    obtain ⟨hlt, hb⟩ := List.getElem?_eq_some_iff.1 h
    rw [List.length_singleton] at hlt
    refine .inr ⟨by omega, ?_⟩
    rw [List.getElem_singleton] at hb
    exact hb.symm

/-! ### Writing to the copy -/

theorem HeldAs.of_count {s' : Cells α} {i c : Nat} {h : Held α} (hp : HeldAs s₀ s i c h)
    (hc : c ∉ s₀.outside → s'.copy.count c = s.copy.count c) : HeldAs s₀ s' i c h := by
  cases hp with
  | shared hi ho => exact .shared hi ho
  | own ho hone => exact .own ho ((hc ho).trans hone)

namespace Holds

theorem lt_next (h : Holds s₀ s hs) {c : Nat} (hc : c ∈ s₀.outside) : c < s.next :=
  h.old c (List.mem_append_left _ (h.outside ▸ hc))

theorem lt_next_of_copy (h : Holds s₀ s hs) {c : Nat} (hc : c ∈ s.copy) : c < s.next :=
  h.old c (List.mem_append_right _ hc)

theorem list_eq (h : Holds s₀ s hs) : s.list = hs.map Held.get := by
  refine List.ext_getElem? fun i => ?_
  rw [getElem?_list, List.getElem?_map]
  cases hi : hs[i]? with
  | none =>
    rw [List.getElem?_eq_none_iff.2 (h.length ▸ List.getElem?_eq_none_iff.1 hi)]
    rfl
  | some g =>
    obtain ⟨c, hc, hca, -⟩ := h.places i g hi
    rw [hc, Option.map_some, hca]
    rfl

/-- An attribute is shared where and only where the copy has the cell it had at first. -/
theorem getElem?_copy_iff (h : Holds s₀ s hs) {i c : Nat} (hc : s₀.copy[i]? = some c)
    (ho : c ∈ s₀.outside) :
    s.copy[i]? = some c ↔ hs[i]? = some (.shared (s₀.contents c)) := by
  constructor
  · intro hsc
    have hlt : i < hs.length := h.length ▸ (List.getElem?_eq_some_iff.1 hsc).1
    have hi := List.getElem?_eq_getElem hlt
    obtain ⟨d, hd, hda, hp⟩ := h.places i _ hi
    obtain rfl := Option.some.inj (hsc.symm.trans hd)
    rw [hi]
    generalize hs[i] = g at hda hp
    cases hp with
    | shared => rw [← h.kept c ho, hda, Held.get_shared]
    | own hno => exact absurd ho hno
  · intro hi
    obtain ⟨d, hd, -, hp⟩ := h.places i _ hi
    cases hp with
    | shared hi₀ =>
      obtain rfl := Option.some.inj (hc.symm.trans hi₀)
      exact hd

theorem update_next {c : Nat} (h : c < s.next) (a : α) :
    Function.update s.contents s.next a c = s.contents c :=
  Function.update_of_ne (Nat.ne_of_lt h) a s.contents

theorem append (h : Holds s₀ s hs) (a : α) : Holds s₀ (s.append a) (hs ++ [.own a]) := by
  have hcount (c : Nat) : (s.append a).copy.count c = s.copy.count c + [s.next].count c :=
    List.count_append
  refine ⟨h.outside, fun c hc => (update_next (h.lt_next hc) a).trans (h.kept c hc),
    fun c hc => ?_, ?_, fun i g hi => ?_⟩
  · rw [Cells.append, ← List.append_assoc] at hc
    rcases List.mem_append.1 hc with hc | hc
    · exact Nat.lt_succ_of_lt (h.old c hc)
    · obtain rfl := List.mem_singleton.1 hc
      exact Nat.lt_succ_self _
  · rw [Cells.append, List.length_append, List.length_append, h.length]
    rfl
  · rcases getElem?_concat_cases hi with hi | ⟨rfl, rfl⟩
    · obtain ⟨c, hc, hca, hp⟩ := h.places i g hi
      have hlt := h.lt_next_of_copy (List.mem_of_getElem? hc)
      refine ⟨c, ?_, (update_next hlt a).trans hca, hp.of_count fun _ => ?_⟩
      · exact (List.getElem?_append_left (List.getElem?_eq_some_iff.1 hc).1).trans hc
      · rw [hcount, List.count_eq_zero.2 (mt List.mem_singleton.1 (Nat.ne_of_lt hlt)), Nat.add_zero]
    · refine ⟨s.next, ?_, Function.update_self .., .own (fun ho => ?_) ?_⟩
      · rw [← h.length]
        exact List.getElem?_concat_length
      · exact Nat.lt_irrefl _ (h.lt_next ho)
      · rw [hcount, List.count_singleton_self,
          List.count_eq_zero.2 fun hc => Nat.lt_irrefl _ (h.lt_next_of_copy hc)]

theorem store (h : Holds s₀ s hs) {i c : Nat} (hc : s.copy[i]? = some c) (hno : c ∉ s₀.outside)
    (hone : s.copy.count c = 1) (a : α) : Holds s₀ (s.store c a) (hs.set i (.own a)) := by
  have hilt : i < hs.length := h.length ▸ (List.getElem?_eq_some_iff.1 hc).1
  refine ⟨h.outside, fun d hd => ?_, h.old, h.length.trans (List.length_set ..).symm,
    fun j k hj => ?_⟩
  · exact (Function.update_of_ne (fun he : d = c => hno (he ▸ hd)) ..).trans (h.kept d hd)
  · by_cases hij : i = j
    · subst hij
      rw [List.getElem?_set_self hilt] at hj
      obtain rfl := Option.some.inj hj
      exact ⟨c, hc, Function.update_self .., .own hno hone⟩
    · rw [List.getElem?_set_ne hij] at hj
      obtain ⟨d, hd, hda, hq⟩ := h.places j k hj
      have hdc : d ≠ c := fun he => hij (eq_of_count_eq_one hone hc (he ▸ hd))
      exact ⟨d, hd, (Function.update_of_ne hdc ..).trans hda, hq.of_count fun _ => rfl⟩

theorem renew (h : Holds s₀ s hs) {i c : Nat} (hc : s.copy[i]? = some c) (ho : c ∈ s₀.outside)
    (a : α) : Holds s₀ (s.renew i a) (hs.set i (.own a)) := by
  obtain ⟨hilt, hic⟩ := List.getElem?_eq_some_iff.1 hc
  have hcount (d : Nat) (hd : c ≠ d) :
      (s.renew i a).copy.count d = s.copy.count d + if s.next = d then 1 else 0 := by
    rw [Cells.renew, List.count_set hilt, hic, if_neg (by simpa using hd)]
    simp
  refine ⟨h.outside, fun d hd => (update_next (h.lt_next hd) a).trans (h.kept d hd),
    fun d hd => ?_, ?_, fun j k hj => ?_⟩
  · rcases List.mem_append.1 hd with hd | hd
    · exact Nat.lt_succ_of_lt (h.old d (List.mem_append_left _ hd))
    · rcases List.mem_or_eq_of_mem_set hd with hd | rfl
      · exact Nat.lt_succ_of_lt (h.lt_next_of_copy hd)
      · exact Nat.lt_succ_self _
  · rw [Cells.renew, List.length_set, List.length_set, h.length]
  · by_cases hij : i = j
    · subst hij
      rw [List.getElem?_set_self (h.length ▸ hilt)] at hj
      obtain rfl := Option.some.inj hj
      refine ⟨s.next, List.getElem?_set_self hilt, Function.update_self .., .own (fun hn => ?_) ?_⟩
      · exact Nat.lt_irrefl _ (h.lt_next hn)
      · rw [hcount _ (Nat.ne_of_lt (h.lt_next ho)), if_pos rfl,
          List.count_eq_zero.2 fun hn => Nat.lt_irrefl _ (h.lt_next_of_copy hn)]
    · rw [List.getElem?_set_ne hij] at hj
      obtain ⟨d, hd, hda, hq⟩ := h.places j k hj
      have hlt := h.lt_next_of_copy (List.mem_of_getElem? hd)
      refine ⟨d, (List.getElem?_set_ne hij).trans hd, (update_next hlt a).trans hda,
        hq.of_count fun hdo => ?_⟩
      rw [hcount d fun he => hdo (he ▸ ho), if_neg (Nat.ne_of_gt hlt), Nat.add_zero]

/-- A write to a shared attribute takes a new cell, and one to an own attribute happens
in place. -/
theorem writeAt (h : Holds s₀ s hs) {i : Nat} {g : Held α} (hi : hs[i]? = some g) (f : α → α) :
    Holds s₀ (s.writeAt i f) (hs.set i (g.write f)) := by
  obtain ⟨c, hc, hca, hp⟩ := h.places i g hi
  have hholders : s.holders c = s₀.outside.count c + s.copy.count c := by
    rw [holders, List.count_append, h.outside]
  unfold Cells.writeAt
  rw [hc, Held.write, ← hca]
  cases hp with
  | shared hi₀ ho =>
    have htwice : s.holders c ≠ 1 := by
      have := List.count_pos_iff.2 ho
      have := List.count_pos_iff.2 (List.mem_of_getElem? hc)
      omega
    dsimp only
    rw [if_neg htwice]
    exact h.renew hc ho _
  | own hno hone =>
    have honce : s.holders c = 1 := by
      rw [hholders, hone, List.count_eq_zero.2 hno]
    dsimp only
    rw [if_pos honce]
    exact h.store hc hno hone _

theorem writeFirst (h : Holds s₀ s hs) (p : α → Bool) (f : α → α) (new : α) :
    Holds s₀ (s.writeFirst p f new) (Held.writeFirst p f new hs) := by
  unfold Cells.writeFirst
  rw [h.list_eq]
  rcases Held.writeFirst_cases p f new hs with ⟨i, g, hi, hg, hfirst, he⟩ | ⟨hnone, he⟩
  · have hfind : (hs.map Held.get).findIdx? p = some i := by
      obtain ⟨hlt, hget⟩ := List.getElem?_eq_some_iff.1 hi
      refine List.findIdx?_eq_some_iff_getElem.2
        ⟨(List.length_map ..).symm ▸ hlt, by rw [List.getElem_map, hget]; exact hg,
          fun j hj => ?_⟩
      rw [List.getElem_map, hfirst j _ hj (List.getElem?_eq_getElem (Nat.lt_trans hj hlt))]
      exact Bool.false_ne_true
    rw [hfind, he]
    exact h.writeAt hi f
  · have hfind : (hs.map Held.get).findIdx? p = none := by
      refine List.findIdx?_eq_none_iff.2 fun a ha => ?_
      obtain ⟨g, hg, rfl⟩ := List.mem_map.1 ha
      exact hnone g hg
    rw [hfind, he]
    exact h.append new

theorem edit {hs : List (Held (Attribute τ))} {s₀ s : Cells (Attribute τ)} (h : Holds s₀ s hs)
    (e : AttributeEdit τ) : Holds s₀ (s.edit e) (e.apply hs) := by
  cases e with
  | add k v => exact h.append _
  | set k v => exact h.writeFirst ..
  | addWord k w =>
    rw [Cells.edit, AttributeEdit.apply, h.list_eq, Held.firstText?_map_get]
    cases (hs.find? (·.get.isTextNamed k)).bind (·.get.value.text?) with
    | none => exact h.append _
    | some current =>
      dsimp only
      by_cases hw : (Text.words current).contains w = true
      · rw [if_pos hw, if_pos hw]
        exact h
      · rw [if_neg hw, if_neg hw]
        exact h.writeFirst ..

end Holds

/-! ### A copy of a tag -/

namespace Clones

variable {t : Tag τ} {s : Cells (Attribute τ)}

theorem holds (h : s.Clones t) : Holds s s t.share := by
  have hlen : s.copy.length = t.attributes.length := by
    rw [← h.list, length_list]
  refine ⟨rfl, fun _ _ => rfl, fun c hc => ?_, by rw [hlen, Tag.share, List.length_map],
    fun i g hi => ?_⟩
  · rcases List.mem_append.1 hc with hc | hc
    · exact h.old c hc
    · exact h.old c (h.held c hc)
  · rw [Tag.share, List.getElem?_map] at hi
    obtain ⟨a, ha, rfl⟩ := Option.map_eq_some_iff.1 hi
    rw [← h.list, getElem?_list] at ha
    obtain ⟨c, hc, rfl⟩ := Option.map_eq_some_iff.1 ha
    exact ⟨c, hc, rfl, .shared hc (h.held c (List.mem_of_getElem? hc))⟩

/-- The cells and the attributes of a copy agree after any changes to it. -/
theorem holds_editAll (h : s.Clones t) (es : List (AttributeEdit τ)) :
    Holds s (s.editAll es) (AttributeEdit.applyAll t.share es) := by
  have run {u : Cells (Attribute τ)} {hs : List (Held (Attribute τ))} (hu : Holds s u hs) :
      Holds s (u.editAll es) (AttributeEdit.applyAll hs es) := by
    induction es generalizing u hs with
    | nil => exact hu
    | cons e es ih => exact ih (hu.edit e)
  exact run h.holds

/-- The tag reads as before whatever is written to the copy. -/
theorem read_editAll (h : s.Clones t) (es : List (AttributeEdit τ)) :
    (s.editAll es).read s.copy = t.attributes := by
  rw [← h.list]
  exact List.map_congr_left fun c hc => (h.holds_editAll es).kept c (h.held c hc)

end Clones

end Cells

end WikiExpansion
