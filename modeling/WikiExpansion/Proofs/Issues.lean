import Mathlib.Data.List.Nodup
import WikiExpansion.Proofs.Grouping
import WikiExpansion.Proofs.Records

/-!
# Ids are handed out once

All ids of a session come from one source, whoever takes them: a script that asks for
one, a tag that is put together with its markers, or somebody outside.  A `History`
of a session lists what was taken on the way.  The ids on the list are numbered one
after the other (`History.numbered`), so no two of them are the same text
(`History.nodup`): texts with different numbers differ, whatever the stem, also where
only one of them has the `#` of an `about` id (`IdSource.label_inj`).
-/

namespace WikiExpansion

/-! ### The texts of ids -/

theorem mem_of_append_eq_cons_append {α : Type} {x : α} {ps as bs : List α}
    (h : ps ++ as = x :: (ps ++ bs)) : x ∈ as := by
  induction ps generalizing x with
  | nil =>
    have h : as = x :: bs := h
    rw [h]
    exact List.mem_cons_self
  | cons p ps ih =>
    rw [List.cons_append, List.cons_append, List.cons.injEq] at h
    obtain ⟨rfl, h⟩ := h
    exact ih h

namespace IdSource

/-- The id with the number `n`, as an `about` id or as an object id. -/
def label (s : IdSource) (about : Bool) (n : Nat) : String :=
  if about then "#" ++ s.objectId n else s.objectId n

def after (s : IdSource) (n : Nat) : IdSource := { s with next := s.next + n }

variable {s : IdSource}

theorem objectId_inj {m n : Nat} : s.objectId m = s.objectId n ↔ m = n := by
  refine ⟨fun h => ?_, fun h => h ▸ rfl⟩
  have hl := congrArg String.toList (String.append_right_inj _ |>.1 h)
  rw [show toString m = m.repr from rfl, show toString n = n.repr from rfl, Nat.toList_repr,
    Nat.toList_repr] at hl
  -- the digits tell the number
  have hn := congrArg (Nat.ofDigitChars 10 · 0) hl
  simpa only [Nat.ofDigitChars_ten_toDigits] using hn

/-- What follows the stem are digits, so no object id is another one after a `#`. -/
theorem objectId_ne_hash (m n : Nat) : s.objectId m ≠ "#" ++ s.objectId n := by
  intro h
  have hl := congrArg String.toList h
  rw [objectId, objectId, String.toList_append, String.toList_append, String.toList_append] at hl
  have hdigit : '#' ∈ (toString m).toList := mem_of_append_eq_cons_append hl
  rw [show toString m = m.repr from rfl, Nat.toList_repr] at hdigit
  have := Nat.isDigit_of_mem_toDigits (by decide) (by decide) hdigit
  cases this

theorem label_inj {a b : Bool} {m n : Nat} : s.label a m = s.label b n ↔ a = b ∧ m = n := by
  cases a with
  | false =>
    cases b with
    | false => simp only [label, Bool.false_eq_true, if_false, objectId_inj, true_and]
    | true => simp [label, objectId_ne_hash]
  | true =>
    cases b with
    | false => simp [label, (objectId_ne_hash _ _).symm]
    | true => simp only [label, if_true, String.append_right_inj, objectId_inj, true_and]

end IdSource

/-! ### Issues -/

/-- Who takes an id. -/
inductive Receiver (σ : Type) where
  | outside (about : Bool)
  | script (frame : Frame) (next : String → Script σ)
  | tag (options : Options) (token : Token) (expanded : List (Held (Attribute Token)))

def Receiver.wantsAbout {σ : Type} : Receiver σ → Bool
  | .outside about => about
  | .script .. => false
  | .tag .. => true

structure Issue (σ : Type) where
  ids : IdSource
  receiver : Receiver σ

namespace Issue

variable {σ : Type}

def id (i : Issue σ) : String :=
  if i.receiver.wantsAbout then i.ids.newAboutId.1 else i.ids.newObjectId.1

theorem id_eq (i : Issue σ) : i.id = i.ids.label i.receiver.wantsAbout i.ids.next := rfl

/-- The id that a tag takes when it is put together, if it takes one. -/
def ofTag (ids : IdSource) (o : Options) (token : Token)
    (expanded : List (Held (Attribute Token))) : List (Issue σ) :=
  if (returnAttributes o ids token expanded).2 = ids then [] else [⟨ids, .tag o token expanded⟩]

end Issue

theorem ids_returnAttributes (o : Options) (ids : IdSource) (token : Token)
    (expanded : List (Held (Attribute Token))) :
    (returnAttributes o ids token expanded).2 = ids ∨
      (returnAttributes o ids token expanded).2 = ids.newObjectId.2 := by
  have hr := returned_returnAttributes o ids token expanded
  generalize (returnAttributes o ids token expanded).1 = out at hr
  generalize (returnAttributes o ids token expanded).2 = ids' at hr ⊢
  cases hr with
  | ineligible | unmodified | modified | malformed => exact .inl rfl
  | grouped _ _ hg =>
    rcases hg.source with ⟨-, rfl, -⟩ | ⟨-, -, rfl, -⟩
    · exact .inl rfl
    · exact .inr rfl

namespace Session

variable {σ : Type}

/-- The ids that the next step takes. -/
def issues (s : Session σ) : List (Issue σ) :=
  match s.agenda with
  | .follow f (.newObjectId next) :: _ => [⟨s.ids, .script f next⟩]
  | .finish o (.answer token _) (.ok expanded) :: _ => Issue.ofTag s.ids o token expanded
  | _ => []

def trail : Nat → Session σ → List (Issue σ)
  | 0, _ => []
  | n + 1, s => s.issues ++ trail n s.step

/-- The ids are taken from the one source, one after the other. -/
inductive Takes : IdSource → List (Issue σ) → IdSource → Prop
  | none {ids : IdSource} : Takes ids [] ids
  | one {ids : IdSource} (r : Receiver σ) : Takes ids [⟨ids, r⟩] ids.newObjectId.2

theorem takes_ofTag (ids : IdSource) (o : Options) (token : Token)
    (expanded : List (Held (Attribute Token))) :
    Takes ids (Issue.ofTag ids o token expanded : List (Issue σ))
      (returnAttributes o ids token expanded).2 := by
  unfold Issue.ofTag
  split
  next h => rw [h]; exact .none
  next h =>
    rw [(ids_returnAttributes o ids token expanded).resolve_left h]
    exact .one _

/-- **A step takes the ids that are listed for it**, and no other. -/
theorem takes_step (s : Session σ) : Takes s.ids s.issues s.step.ids := by
  rcases step_eq s with ⟨ha, he⟩ | ⟨s₀, task, rfl, hm⟩
  · rw [he, issues, ha]
    exact .none
  · generalize (s₀.push [task]).step = t at hm
    cases hm with
    | newObjectId => exact .one _
    | reconciled => exact takes_ofTag _ _ _ _
    | _ => exact .none

/-- What was taken until a session was reached from a new one with the source, in
order.  Steps and what is done from outside may follow each other in any way; ids are
also taken by calls from outside. -/
inductive History (ids : IdSource) : List (Issue σ) → Session σ → Prop
  | new (o : Options) (m : σ) : History ids [] (Session.new ids o m)
  | step {is s} : History ids is s → History ids (is ++ s.issues) s.step
  | act {is s t} : History ids is s → Act s t → t.ids = s.ids → History ids is t
  | object {is s} : History ids is s →
      History ids (is ++ [⟨s.ids, .outside false⟩]) s.newObjectId.2
  | about {is s} : History ids is s →
      History ids (is ++ [⟨s.ids, .outside true⟩]) s.newAboutId.2
  | reconcile {is s} (o : Options) (token : Token) (expanded : List (Held (Attribute Token))) :
      History ids is s → History ids (is ++ Issue.ofTag s.ids o token expanded)
        (s.setIds (returnAttributes o s.ids token expanded).2)

namespace History

variable {ids : IdSource} {is : List (Issue σ)} {s t : Session σ}

theorem settle (h : History ids is s) (n : Nat) : History ids (is ++ s.trail n) (s.settle n) := by
  induction n generalizing is s with
  | zero => exact (List.append_nil is).symm ▸ h
  | succ n ih =>
    rw [settle_succ, trail, ← List.append_assoc]
    exact ih h.step

/-- **Whatever is reached has a history**, which goes on from the one before. -/
theorem reaches (h : History ids is s) (hr : Reaches s t) : ∃ js, History ids (is ++ js) t := by
  induction hr with
  | refl => exact ⟨[], (List.append_nil is).symm ▸ h⟩
  | step _ ih =>
    obtain ⟨js, hj⟩ := ih
    exact ⟨_, List.append_assoc is js _ ▸ hj.step⟩
  | act _ _ ha ih =>
    obtain ⟨js, hj⟩ := ih
    cases ha with
    | newObjectId => exact ⟨_, List.append_assoc is js _ ▸ hj.object⟩
    | newAboutId => exact ⟨_, List.append_assoc is js _ ▸ hj.about⟩
    | process ts o => exact ⟨js, hj.act (.process ts o) rfl⟩
    | dispatch a => exact ⟨js, hj.act (.dispatch a) rfl⟩
    | expandAttributes as o => exact ⟨js, hj.act (.expandAttributes as o) rfl⟩
    | complete b r => exact ⟨js, hj.act (.complete b r) rfl⟩
    | register n r f a => exact ⟨js, hj.act (.register n r f a) rfl⟩
    | remember m => exact ⟨js, hj.act (.remember m) rfl⟩

/-- What every move and every act keeps is kept all along, if it does not depend on
the ids that are left. -/
theorem keeps {P : Session σ → Prop} (new : ∀ o m, P (Session.new ids o m))
    (move : ∀ s task t, Move s task t → P (s.push [task]) → P t)
    (act : ∀ s t, Act s t → P s → P t) (free : ∀ s i, P s → P (s.setIds i))
    (h : History ids is s) : P s := by
  induction h with
  | new o m => exact new o m
  | @step is s _ ih =>
    rcases step_eq s with ⟨-, he⟩ | ⟨s₀, task, rfl, hm⟩
    · rw [he]; exact ih
    · exact move s₀ task _ hm ih
  | act _ ha _ ih => exact act _ _ ha ih
  | object _ ih => exact act _ _ .newObjectId ih
  | about _ ih => exact act _ _ .newAboutId ih
  | reconcile _ _ _ _ ih => exact free _ _ ih

/-- The ids before the list and after it, and where each was taken. -/
structure Numbered (ids ids' : IdSource) (is : List (Issue σ)) : Prop where
  left : ids' = ids.after is.length
  source : ∀ (n : Nat) (i : Issue σ), is[n]? = some i → i.ids = ids.after n

theorem Numbered.append {ids' ids'' : IdSource} {js : List (Issue σ)}
    (h : Numbered ids ids' is) (ht : Takes ids' js ids'') : Numbered ids ids'' (is ++ js) := by
  cases ht with
  | none => exact (List.append_nil is).symm ▸ h
  | one r =>
    refine ⟨?_, fun n i hi => ?_⟩
    · rw [h.left, List.length_append, List.length_singleton]
      rfl
    · rw [List.getElem?_append] at hi
      split at hi
      · exact h.source n i hi
      · have hlt := (List.getElem?_eq_some_iff.1 hi).1
        rw [List.length_singleton] at hlt
        have hn : n = is.length := by omega
        subst hn
        rw [Nat.sub_self] at hi
        obtain rfl := Option.some.inj hi
        exact h.left

/-- **The ids are taken in the order of their numbers**, and none is left out. -/
theorem numbered (h : History ids is s) : Numbered ids s.ids is := by
  induction h with
  | new o m => exact ⟨rfl, nofun⟩
  | step _ ih => exact ih.append (takes_step _)
  | act _ _ he ih => exact he ▸ ih
  | object _ ih | about _ ih => exact ih.append (.one _)
  | reconcile o token expanded _ ih => exact ih.append (takes_ofTag _ o token expanded)

theorem id_eq (h : History ids is s) {n : Nat} {i : Issue σ} (hi : is[n]? = some i) :
    i.id = ids.label i.receiver.wantsAbout (ids.next + n) := by
  rw [Issue.id_eq, h.numbered.source n i hi]
  rfl

/-- **No id is handed out twice.** -/
theorem nodup (h : History ids is s) : (is.map Issue.id).Nodup := by
  refine List.nodup_iff_injective_get.2 fun m n hmn => Fin.ext ?_
  have get (k : Fin (is.map Issue.id).length) : ∃ i, is[k.1]? = some i ∧
      (is.map Issue.id).get k = ids.label i.receiver.wantsAbout (ids.next + k) := by
    have hk : k.1 < is.length := by simpa only [List.length_map] using k.2
    have hi := List.getElem?_eq_getElem hk
    exact ⟨_, hi, (List.getElem_map _).trans (h.id_eq hi)⟩
  obtain ⟨i, -, hi⟩ := get m
  obtain ⟨j, -, hj⟩ := get n
  have := (IdSource.label_inj.1 (hi.symm.trans (hmn.trans hj))).2
  omega

end History

end Session

end WikiExpansion
