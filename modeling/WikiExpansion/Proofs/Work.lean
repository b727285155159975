import WikiExpansion.Handler.Expander
import WikiExpansion.Handler.Templates
import WikiExpansion.Proofs.Nesting
import WikiExpansion.Proofs.Order

/-!
# What a pipeline comes to

A worker is an expander, with options of its own, or a template table that answers
at once.  `Registry.work` is what a pipeline of workers comes to on a stream, ids
and failures included, as a function: the result, and the ids that are left.  It
goes through the tokens in order and, where a tag is expanded, through the sides
of its pairs in order.  A failure is what comes of all that it is in, but what
stands behind it is worked on nevertheless and may take ids.

Runs nest no deeper than the tokens do, as no worker gives anything that is deeper
than what it got (`shallow_work`).
-/

namespace WikiExpansion

/-- What some work comes to, and the ids it leaves, by the ids it finds. -/
abbrev Work (α : Type) : Type := IdSource → Outcome α × IdSource

section Sweep

variable {α β : Type} {f : α → Work β}

/-- The work on each item in order.  All of it is done, with the ids that are left
by then, and the first failure is what comes of it. -/
def sweep (f : α → Work β) : List α → Work (List β)
  | [], i => (.ok [], i)
  | a :: as, i =>
    let (r, i) := f a i
    let (rs, i) := sweep f as i
    (r.bind fun b => rs.map (b :: ·), i)

theorem sweep_cons (a : α) (as : List α) (i : IdSource) :
    sweep f (a :: as) i =
      ((f a i).1.bind fun b => (sweep f as (f a i).2).1.map (b :: ·), (sweep f as (f a i).2).2) :=
  rfl

theorem sweep_cons_ok {a : α} {b : β} {i : IdSource} (h : (f a i).1 = .ok b) (as : List α) :
    sweep f (a :: as) i =
      ((sweep f as (f a i).2).1.map (b :: ·), (sweep f as (f a i).2).2) := by
  rw [sweep_cons, h]
  rfl

theorem sweep_cons_error {a : α} {e : ExpansionError} {i : IdSource} (h : (f a i).1 = .error e)
    (as : List α) : sweep f (a :: as) i = (.error e, (sweep f as (f a i).2).2) := by
  rw [sweep_cons, h]
  rfl

/-- All items came to something where all of them together did. -/
theorem forall₂_of_sweep {as : List α} {bs : List β} {i : IdSource}
    (h : (sweep f as i).1 = .ok bs) : List.Forall₂ (fun a b => ∃ j, (f a j).1 = .ok b) as bs := by
  induction as generalizing i bs with
  | nil =>
    obtain rfl := Except.ok.inj h
    exact .nil
  | cons a as ih =>
    cases hr : (f a i).1 with
    | error e =>
      rw [sweep_cons_error hr] at h
      cases h
    | ok b =>
      rw [sweep_cons_ok hr] at h
      cases hrs : (sweep f as (f a i).2).1 with
      | error e =>
        rw [hrs] at h
        cases h
      | ok cs =>
        rw [hrs] at h
        obtain rfl := Except.ok.inj h
        exact .cons ⟨i, hr⟩ (ih hrs)

end Sweep

/-! ### Work on a token -/

def streamWork (f : Token → Work (List Token)) (ts : List Token) : Work (List Token) := fun i =>
  ((sweep f ts i).1.map List.flatten, (sweep f ts i).2)

def sideWork (nested : List Token → Work (List Token)) : Content Token → Work (Content Token)
  | .text s, i => (.ok (.text s), i)
  | .tokens ts, i => ((nested ts i).1.map .tokens, (nested ts i).2)

def pairWork (nested : List Token → Work (List Token)) (a : Attribute Token) :
    Work (Held (Attribute Token)) := fun i =>
  if a.needsExpansion then
    (Session.pairOfSides a (sweep (sideWork nested) [a.key, a.value] i).1,
      (sweep (sideWork nested) [a.key, a.value] i).2)
  else (.ok (.shared a), i)

/-- The work on the attributes of a tag, and what it becomes with them. -/
def tagWork (o : Options) (nested : List Token → Work (List Token)) (t : Token)
    (as : List (Attribute Token)) : Work (List Token) := fun i =>
  match sweep (pairWork nested) as i with
  | (.ok hs, i) => returnAttributes o i t hs
  | (.error e, i) => (.error (Session.tokenFailure t e), i)

inductive Worker where
  | expander (options : Options)
  | table (t : TemplateTable)
deriving Inhabited

namespace Worker

def handler {σ : Type} : Worker → Handler σ
  | expander o => WikiExpansion.expander o
  | table t => t.immediate

def work (run : Options) (nested : Options → List Token → Work (List Token)) :
    Worker → Token → Work (List Token)
  | expander o, t, i =>
    match t.expandableTag? with
    | some g => if g.attributes.isEmpty then (.ok [t], i) else tagWork o (nested o) t g.attributes i
    | none => (.ok [t], i)
  | table b, t, i =>
    match TemplateTable.target? t with
    | some n =>
      match b.body? n with
      | some body =>
        if run.wrapTemplates then
          (.ok (TemplateTable.wrap ("#" ++ i.newObjectId.1) body), i.newObjectId.2)
        else (.ok [.text body], i)
      | none => (.error (TemplateTable.unknown n), i)
    | none => (.ok [t], i)

end Worker

/-- The work of some workers on a token, one after the other: each one that wants
it, and then those after it on what that one gave. -/
def tokenWork (run : Options) (nested : Options → List Token → Work (List Token)) :
    List (Registration Worker) → Token → Work (List Token)
  | [], t, i => (.ok [t], i)
  | r :: rs, t, i =>
    if r.filter.accepts t.kind then
      match r.handler.work run nested t i with
      | (.ok us, i) => streamWork (tokenWork run nested rs) us i
      | (.error e, i) => (.error e, i)
    else tokenWork run nested rs t i

/-- The work of all workers on a stream, with runs nested less than `n` deep.  A
run that would nest deeper is not complete. -/
def Registry.work (g : Registry Worker) : Nat → Options → List Token → Work (List Token)
  | 0, _, _, i => (.error .incomplete, i)
  | n + 1, run, ts, i => streamWork (tokenWork run (g.work n) g.entries) ts i

/-! ### The next worker -/

section Next

variable {run : Options} {nested : Options → List Token → Work (List Token)}

theorem tokenWork_append {skipped : List (Registration Worker)} {t : Token}
    (h : ∀ r ∈ skipped, r.filter.accepts t.kind = false) (rs : List (Registration Worker)) :
    tokenWork run nested (skipped ++ rs) t = tokenWork run nested rs t := by
  induction skipped with
  | nil => rfl
  | cons r skipped ih =>
    funext i
    rw [List.cons_append, tokenWork, h r List.mem_cons_self, if_neg Bool.false_ne_true,
      ih fun r hr => h r (List.mem_cons_of_mem _ hr)]

theorem tokenWork_of_next?_eq_none {g : Registry Worker} {p : Option Position} {t : Token}
    (h : g.next? p t.kind = none) (i : IdSource) :
    tokenWork run nested (g.after p) t i = (.ok [t], i) := by
  have happend : tokenWork run nested (g.after p ++ []) t = tokenWork run nested [] t :=
    tokenWork_append (Registry.next?_eq_none h) []
  rw [List.append_nil] at happend
  rw [happend]
  rfl

theorem tokenWork_of_next? {g : Registry Worker} (hg : g.Ordered) {p : Option Position}
    {t : Token} {r : Registration Worker} (h : g.next? p t.kind = some r) (i : IdSource) :
    tokenWork run nested (g.after p) t i =
      match r.handler.work run nested t i with
      | (.ok us, i) => streamWork (tokenWork run nested (g.after (some r.position))) us i
      | (.error e, i) => (.error e, i) := by
  obtain ⟨skipped, hskip, hr, he⟩ := hg.after_eq h
  rw [he, tokenWork_append hskip, tokenWork, if_pos hr]

end Next

/-! ### What comes out -/

section Out

variable {Q : Token → Prop} {o : Options} {nested : List Token → Work (List Token)}

def Gives (Q : Token → Prop) (w : Work (List Token)) : Prop :=
  ∀ i us, (w i).1 = .ok us → ∀ u ∈ us, Q u

theorem gives_streamWork {f : Token → Work (List Token)} {ts : List Token}
    (h : ∀ t ∈ ts, Gives Q (f t)) : Gives Q (streamWork f ts) := by
  intro i us hus u hu
  cases hr : (sweep f ts i).1 with
  | error e =>
    rw [streamWork, hr] at hus
    cases hus
  | ok vs =>
    rw [streamWork, hr] at hus
    obtain rfl := Except.ok.inj hus
    obtain ⟨v, hv, hu⟩ := List.mem_flatten.1 hu
    obtain ⟨n, hn⟩ := List.getElem?_of_mem hv
    obtain ⟨hlt, hget⟩ := List.getElem?_eq_some_iff.1 hn
    have hall := List.forall₂_iff_get.1 (forall₂_of_sweep hr)
    obtain ⟨j, hj⟩ := hall.2 n (hall.1 ▸ hlt) hlt
    exact h _ (List.get_mem ..) j _ (hj.trans (congrArg Except.ok hget)) u hu

theorem sideWork_cases {c d : Content Token} {i : IdSource} (h : (sideWork nested c i).1 = .ok d) :
    (∃ s, c = .text s ∧ d = .text s) ∨
      ∃ ts us, c = .tokens ts ∧ d = .tokens us ∧ (nested ts i).1 = .ok us := by
  cases c with
  | text s =>
    obtain rfl := Except.ok.inj h
    exact .inl ⟨s, rfl, rfl⟩
  | tokens ts =>
    rw [sideWork] at h
    cases hr : (nested ts i).1 with
    | error e =>
      rw [hr] at h
      cases h
    | ok us =>
      rw [hr] at h
      obtain rfl := Except.ok.inj h
      exact .inr ⟨ts, us, rfl, rfl, hr⟩

theorem fits_of_sideWork {c d : Content Token} {i : IdSource}
    (h : (sideWork nested c i).1 = .ok d) : c.Fits d := by
  rcases sideWork_cases h with ⟨s, rfl, rfl⟩ | ⟨ts, us, rfl, rfl, -⟩
  · rfl
  · rfl

theorem all_of_sideWork {c d : Content Token} {i : IdSource}
    (hn : ∀ ts, c = .tokens ts → Gives Q (nested ts)) (h : (sideWork nested c i).1 = .ok d) :
    d.All Q := by
  rcases sideWork_cases h with ⟨s, rfl, rfl⟩ | ⟨ts, us, rfl, rfl, hus⟩
  · exact Content.all_text s
  · exact Content.all_tokens.2 (hn ts rfl i us hus)

/-- What comes of a pair: the pair itself, or a new one of what came of the sides. -/
theorem pairWork_cases {a : Attribute Token} {h : Held (Attribute Token)} {i : IdSource}
    (hw : (pairWork nested a i).1 = .ok h) :
    (a.needsExpansion = false ∧ h = .shared a) ∨
      a.needsExpansion = true ∧ ∃ k v, h = .own (newAttribute k v) ∧
        (∃ j, (sideWork nested a.key j).1 = .ok k) ∧
        ∃ j, (sideWork nested a.value j).1 = .ok v := by
  unfold pairWork at hw
  cases hn : a.needsExpansion with
  | false =>
    rw [hn, if_neg Bool.false_ne_true] at hw
    exact .inl ⟨rfl, (Except.ok.inj hw).symm⟩
  | true =>
    rw [hn, if_pos rfl] at hw
    refine .inr ⟨rfl, ?_⟩
    cases hr : (sweep (sideWork nested) [a.key, a.value] i).1 with
    | error e =>
      rw [hr] at hw
      cases hw
    | ok sides =>
      rw [hr] at hw
      cases forall₂_of_sweep hr with
      | @cons _ k _ _ hk hrest =>
        cases hrest with
        | @cons _ v _ _ hv hnil =>
          cases hnil
          obtain rfl := Except.ok.inj hw
          exact ⟨k, v, rfl, hk, hv⟩

theorem expandsTo_of_pairWork {a : Attribute Token} {h : Held (Attribute Token)} {i : IdSource}
    (hw : (pairWork nested a i).1 = .ok h) : a.ExpandsTo h := by
  unfold Attribute.ExpandsTo
  rcases pairWork_cases hw with ⟨hn, rfl⟩ | ⟨hn, k, v, rfl, ⟨j, hk⟩, ⟨l, hv⟩⟩
  · rw [hn, if_neg Bool.false_ne_true]
  · rw [hn, if_pos rfl]
    exact ⟨k, v, rfl, fits_of_sideWork hk, fits_of_sideWork hv⟩

theorem all_of_pairWork {a : Attribute Token} {h : Held (Attribute Token)} {i : IdSource}
    (hn : ∀ ts, (a.key = .tokens ts ∨ a.value = .tokens ts) → Gives Q (nested ts))
    (hw : (pairWork nested a i).1 = .ok h) : h.get.All Q := by
  rcases pairWork_cases hw with ⟨hplain, rfl⟩ | ⟨-, k, v, rfl, ⟨j, hk⟩, ⟨l, hv⟩⟩
  · exact Attribute.all_of_texts hplain
  · exact ⟨all_of_sideWork (fun ts hts => hn ts (.inl hts)) hk,
      all_of_sideWork (fun ts hts => hn ts (.inr hts)) hv⟩

theorem expandsTo_of_sweep {as : List (Attribute Token)} {hs : List (Held (Attribute Token))}
    {i : IdSource} (h : (sweep (pairWork nested) as i).1 = .ok hs) :
    List.Forall₂ Attribute.ExpandsTo as hs :=
  (forall₂_of_sweep h).imp fun _ _ hw => expandsTo_of_pairWork hw.choose_spec

theorem all_of_sweep {t : Token} {g : Tag Token} (hg : t.expandableTag? = some g)
    (hn : ∀ ts, t.Nests ts → Gives Q (nested ts)) {hs : List (Held (Attribute Token))}
    {i : IdSource} (h : (sweep (pairWork nested) g.attributes i).1 = .ok hs) :
    ∀ p ∈ hs, p.get.All Q := by
  intro p hp
  obtain ⟨n, hlt, rfl⟩ := List.getElem_of_mem hp
  have hall := List.forall₂_iff_get.1 (forall₂_of_sweep h)
  obtain ⟨j, hj⟩ := hall.2 n (hall.1 ▸ hlt) hlt
  exact all_of_pairWork (fun ts hts => hn ts ⟨g, _, hg, List.get_mem .., hts⟩) hj

/-- What comes of a tag: markers, and the tag with attributes that stem from the
expanded ones; or the tag itself, where none of its pairs changes. -/
theorem tagWork_cases {t : Token} {g : Tag Token} (hg : t.expandableTag? = some g) {i : IdSource}
    {us : List Token} (h : (tagWork o nested t g.attributes i).1 = .ok us) :
    (changes g.attributes = false ∧ us = [t]) ∨
      changes g.attributes = true ∧ ∃ hs j r,
        (sweep (pairWork nested) g.attributes i) = (.ok hs, j) ∧
        (rebuild o j g.attributes hs).1 = some r ∧
        us = r.markers.map .marker ++ [t.withTag (g.withHeld r.attributes)] := by
  unfold tagWork at h
  cases hr : sweep (pairWork nested) g.attributes i with
  | mk r j =>
    rw [hr] at h
    cases r with
    | error e => cases h
    | ok hs =>
      have hx := expandsTo_of_sweep (congrArg Prod.fst hr)
      change (returnAttributes o j t hs).1 = .ok us at h
      cases hc : changes g.attributes with
      | false =>
        rw [returnAttributes_of_changes_eq_false j hg hx hc] at h
        exact .inl ⟨rfl, (Except.ok.inj h).symm⟩
      | true =>
        rw [returnAttributes_emitted o j hg (Nat.le_of_eq hx.length_eq)] at h
        have hsome : ∃ r, (rebuild o j g.attributes hs).1 = some r := by
          have hb := rebuilds o j g.attributes hs
          generalize rebuild o j g.attributes hs = r at hb ⊢
          cases hb with
          | unmodified hm =>
            exact absurd (hm.symm.trans ((modified_reconcile hx).trans hc)) Bool.false_ne_true
          | unmarked | marked => exact ⟨_, rfl⟩
        obtain ⟨r, hr⟩ := hsome
        refine .inr ⟨rfl, hs, j, r, rfl, hr, ?_⟩
        rw [← Except.ok.inj h, emittedMarkers, emittedAttributes, hr]
        rfl

end Out

/-! ### Depth -/

section Depth

variable {run : Options} {nested : Options → List Token → Work (List Token)} {n : Nat}

/-- An expander gives nothing deeper than it got, if the runs it starts do not. -/
theorem shallow_tagWork {o : Options} {t : Token} {g : Tag Token}
    (hg : t.expandableTag? = some g) (ht : t.Shallow n)
    (hn : ∀ m, m + 1 = n → ∀ ts, (∀ u ∈ ts, u.Shallow m) → Gives (Token.Shallow m) (nested o ts)) :
    Gives (Token.Shallow n) (tagWork o (nested o) t g.attributes) := by
  intro i us hus
  unfold tagWork at hus
  cases hr : sweep (pairWork (nested o)) g.attributes i with
  | mk r j =>
    rw [hr] at hus
    cases r with
    | error e => cases hus
    | ok hs =>
      have hsweep : (sweep (pairWork (nested o)) g.attributes i).1 = .ok hs := congrArg Prod.fst hr
      refine shallow_returnAttributes hg ht (expandsTo_of_sweep hsweep) (fun m hm => ?_) hus
      subst hm
      exact all_of_sweep hg (fun ts hts => hn m rfl ts (ht ts hts)) hsweep

theorem TemplateTable.forall_mem_wrap {P : Token → Prop} {about body : String}
    (htag : ∀ type, P (wrapperTag type about)) (htext : P (.text body)) :
    ∀ u ∈ wrap about body, P u := by
  intro u hu
  rcases List.mem_cons.1 hu with rfl | hu
  · exact htag _
  · rcases List.mem_cons.1 hu with rfl | hu
    · exact htext
    · obtain rfl := List.mem_singleton.1 hu
      exact htag _

theorem TemplateTable.forall_mem_wrapperTag {P : Attribute Token → Prop} {type about : String}
    (htypeof : P (newAttribute (.text "typeof") (.text type)))
    (habout : P (newAttribute (.text "about") (.text about))) {g : Tag Token}
    (hg : (wrapperTag type about).expandableTag? = some g) : ∀ a ∈ g.attributes, P a := by
  intro a ha
  obtain rfl := Option.some.inj hg
  rcases List.mem_cons.1 ha with rfl | ha
  · exact htypeof
  · obtain rfl := List.mem_singleton.1 ha
    exact habout

/-- What a table puts in the place of a template nests nothing. -/
theorem not_nests_wrap {id body : String} {u : Token} (hu : u ∈ TemplateTable.wrap id body)
    (ts : List Token) : ¬ u.Nests ts := by
  have hwrapper (type : String) : ¬ (TemplateTable.wrapperTag type id).Nests ts := by
    rintro ⟨g, a, hg, ha, hside⟩
    have htexts : ∀ a ∈ g.attributes, ¬ (a.key = .tokens ts ∨ a.value = .tokens ts) := by
      refine TemplateTable.forall_mem_wrapperTag ?_ ?_ hg
      · rintro (h | h) <;> cases h
      · rintro (h | h) <;> cases h
    exact htexts a ha hside
  have hbody : ¬ (Token.text body).Nests ts := Token.not_nests rfl ts
  exact TemplateTable.forall_mem_wrap (P := fun v => ¬ v.Nests ts) hwrapper hbody u hu

theorem Worker.shallow_work {w : Worker} {t : Token} (ht : t.Shallow n)
    (hn : ∀ m, m + 1 = n → ∀ o ts, (∀ u ∈ ts, u.Shallow m) →
      Gives (Token.Shallow m) (nested o ts)) :
    Gives (Token.Shallow n) (w.work run nested t) := by
  have same {u : Token} {us : List Token} (h : (.ok [t] : Outcome (List Token)) = .ok us)
      (hu : u ∈ us) : u.Shallow n := by
    obtain rfl := Except.ok.inj h
    obtain rfl := List.mem_singleton.1 hu
    exact ht
  intro i us hus u hu
  cases w with
  | expander o =>
    rw [work] at hus
    cases hg : t.expandableTag? with
    | none =>
      rw [hg] at hus
      exact same hus hu
    | some g =>
      simp only [hg] at hus
      split at hus
      · exact same hus hu
      · exact shallow_tagWork hg ht (fun m hm ts hts => hn m hm o ts hts) i us hus u hu
  | table b =>
    rw [work] at hus
    split at hus
    · split at hus
      · split at hus
        · obtain rfl := Except.ok.inj hus
          exact Token.shallow_of_not_nests (not_nests_wrap hu) n
        · obtain rfl := Except.ok.inj hus
          obtain rfl := List.mem_singleton.1 hu
          exact Token.shallow_of_not_nests (Token.not_nests rfl) n
      · cases hus
    · exact same hus hu

theorem shallow_tokenWork {rs : List (Registration Worker)} {t : Token} (ht : t.Shallow n)
    (hn : ∀ m, m + 1 = n → ∀ o ts, (∀ u ∈ ts, u.Shallow m) →
      Gives (Token.Shallow m) (nested o ts)) :
    Gives (Token.Shallow n) (tokenWork run nested rs t) := by
  induction rs generalizing t with
  | nil =>
    intro i us hus u hu
    obtain rfl := Except.ok.inj hus
    obtain rfl := List.mem_singleton.1 hu
    exact ht
  | cons r rs ih =>
    intro i us hus u hu
    rw [tokenWork] at hus
    split at hus
    · have hgives : Gives (Token.Shallow n) (r.handler.work run nested t) :=
        Worker.shallow_work ht hn
      have hworker := hgives i
      generalize r.handler.work run nested t i = res at hus hworker
      obtain ⟨res, j⟩ := res
      cases res with
      | error e => cases hus
      | ok vs => exact gives_streamWork (fun v hv => ih (hworker vs rfl v hv)) j us hus u hu
    · exact ih ht i us hus u hu

/-- **Work gives nothing deeper than it got.** -/
theorem shallow_work (g : Registry Worker) (n : Nat) (run : Options) {ts : List Token}
    (ht : ∀ t ∈ ts, t.Shallow n) : Gives (Token.Shallow n) (g.work (n + 1) run ts) := by
  induction n generalizing run ts with
  | zero =>
    refine gives_streamWork fun t hts => shallow_tokenWork (ht t hts) fun m hm => ?_
    omega
  | succ n ih =>
    refine gives_streamWork fun t hts => shallow_tokenWork (ht t hts) fun m hm o us hus => ?_
    obtain rfl := Nat.succ.inj hm
    exact ih o hus

end Depth

end WikiExpansion
