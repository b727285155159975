import WikiExpansion.Proofs.Idempotent
import WikiExpansion.Proofs.Sequence

/-!
# The standard pipeline with a table

A table of templates that answers at once is added to the standard pipeline, which has
an expander.  The rank of the table is the lesser one, so it comes first, and it sees
self-closing tags only.

So the work on a token is the table's where the token asks for a template
(`Registry.Tabled.tokenWork_template`) and the expander's otherwise
(`Registry.Tabled.tokenWork_other`).  What the table gives is no more than texts and
tags of texts, and passes the expander as it is and without an id (`Token.Passes`).
-/

namespace WikiExpansion

/-- The template that a token asks a table for.  Tables see self-closing tags only. -/
def Token.template? : Token → Option String
  | .selfClosing g => TemplateTable.target? (.selfClosing g)
  | _ => none

theorem TemplateTable.target?_of_template? {t : Token} {n : String} (h : t.template? = some n) :
    target? t = some n := by
  cases t with
  | selfClosing g => exact h
  | _ => cases h

/-! ### Tokens that pass -/

section Expander

variable {run q : Options} {nested : Options → List Token → Work (List Token)}

theorem pairWork_of_texts {nested : List Token → Work (List Token)} {a : Attribute Token}
    (h : a.needsExpansion = false) (i : IdSource) : pairWork nested a i = (.ok (.shared a), i) := by
  rw [pairWork, h, if_neg Bool.false_ne_true]

theorem tagWork_of_texts {nested : List Token → Work (List Token)} {t : Token} {g : Tag Token}
    (hg : t.expandableTag? = some g) (h : ∀ a ∈ g.attributes, a.needsExpansion = false)
    (i : IdSource) : tagWork q nested t g.attributes i = (.ok [t], i) := by
  have hsweep : sweep (pairWork nested) g.attributes i = (.ok (g.attributes.map .shared), i) :=
    sweep_of_ready (fun a ha => pairWork_of_texts (h a ha)) i
  have hchanges : changes g.attributes = false := by
    refine List.any_eq_false.2 ?_
    intro a ha hc
    rw [h a ha] at hc
    cases hc
  have hx := expandsTo_of_sweep (congrArg Prod.fst hsweep)
  rw [tagWork, hsweep]
  exact returnAttributes_of_changes_eq_false i hg hx hchanges

theorem Token.passes_of_not_tag {t : Token} (h : t.expandableTag? = none) :
    t.Passes ((Worker.expander q).work run nested) := by
  intro i
  rw [Worker.work, h]

theorem Token.passes_of_texts {t : Token} {g : Tag Token} (hg : t.expandableTag? = some g)
    (h : ∀ a ∈ g.attributes, a.needsExpansion = false) :
    t.Passes ((Worker.expander q).work run nested) := by
  intro i
  rw [Worker.expander_work hg]
  split
  · rfl
  · exact tagWork_of_texts hg h i

/-- What stands in the place of a template passes the expander. -/
theorem Token.passes_of_wrap {about body : String} :
    ∀ u ∈ TemplateTable.wrap about body, u.Passes ((Worker.expander q).work run nested) := by
  refine TemplateTable.forall_mem_wrap ?_ (Token.passes_of_not_tag rfl)
  intro type
  refine Token.passes_of_texts rfl (TemplateTable.forall_mem_wrapperTag ?_ ?_ rfl)
  · rfl
  · rfl

end Expander

/-! ### The registry -/

def tabledWorkers (q : Options) (b : TemplateTable) : List (Rank × Worker) :=
  [(.attributes, .expander q), (.templates, .table b)]

/-- The registry of a table, which sees self-closing tags, before an expander, which sees
every token. -/
def Registry.Tabled (g : Registry Worker) (q : Options) (b : TemplateTable) : Prop :=
  ∃ r s, g.entries = [r, s] ∧ r.filter = .only .selfClosing ∧ r.handler = .table b ∧
    s.filter = .any ∧ s.handler = .expander q

theorem tabled_crewOf (q : Options) (b : TemplateTable) :
    (crewOf (tabledWorkers q b)).Tabled q b := by
  have hrank : Binary64.key Rank.templates < Binary64.key Rank.attributes := by decide
  refine ⟨⟨TemplateTable.handlerName, ⟨.templates, 1⟩, .only .selfClosing, .table b⟩,
    ⟨expanderName, ⟨.attributes, 0⟩, .any, .expander q⟩, ?_, rfl, rfl, rfl, rfl⟩
  simp only [crewOf, tabledWorkers, List.foldl_cons, List.foldl_nil, Registry.register,
    Registry.insert, if_pos hrank]
  rfl

namespace Registry

variable {g : Registry Worker} {run q : Options} {b : TemplateTable}
variable {nested : Options → List Token → Work (List Token)}

theorem Tabled.tokenWork_other (hg : g.Tabled q b) {t : Token} (ht : t.template? = none)
    (i : IdSource) :
    tokenWork run nested g.entries t i = (Worker.expander q).work run nested t i := by
  obtain ⟨r, s, he, hrf, hr, hsf, hs⟩ := hg
  rw [he, tokenWork, hrf, hr, tokenWork_expander hsf hs]
  cases t with
  | selfClosing tag =>
    have htarget : TemplateTable.target? (.selfClosing tag) = none := ht
    have htable : (Worker.table b).work run nested (.selfClosing tag) i =
        (.ok [.selfClosing tag], i) := by
      rw [Worker.work, htarget]
    rw [htable]
    exact streamWork_singleton _ i
  | _ => rfl

/-- A template is the table's, whose answer passes the expander. -/
theorem Tabled.tokenWork_template (hg : g.Tabled q b) {t : Token} {n : String}
    (ht : t.template? = some n) (i : IdSource) :
    tokenWork run nested g.entries t i = (Worker.table b).work run nested t i := by
  have htarget := TemplateTable.target?_of_template? ht
  obtain ⟨r, s, he, hrf, hr, hsf, hs⟩ := hg
  cases t with
  | selfClosing tag =>
    rw [he, tokenWork, hrf, hr, tokenWork_expander hsf hs,
      if_pos (show (Filter.only .selfClosing).accepts (Token.selfClosing tag).kind = true from rfl),
      Worker.work, htarget]
    dsimp only
    cases b.body? n with
    | none => rfl
    | some body =>
      cases run.wrapTemplates with
      | true => exact streamWork_of_passes Token.passes_of_wrap _
      | false => exact (streamWork_singleton _ i).trans (Token.passes_of_not_tag rfl i)
  | _ => cases ht

end Registry

/-! ### The pipeline -/

namespace Session

variable {σ : Type}

def tabled (q : Options) (memory : σ) (b : TemplateTable) : Session σ :=
  TemplateTable.register (standard q memory) .templates b.immediate

theorem tabled_eq_ofWorkers (q : Options) (memory : σ) (b : TemplateTable) :
    tabled q memory b = ofWorkers {} q memory (tabledWorkers q b) := rfl

/-- A run of the pipeline is over with what the work on its stream comes to. -/
theorem run_tabled (q : Options) (memory : σ) (b : TemplateTable) {n : Nat} {ts : List Token}
    (hts : ∀ t ∈ ts, t.Shallow n) :
    ∃ m, ∀ k, m ≤ k → ((tabled q memory b).run k ts).1 =
      ((crewOf (tabledWorkers q b)).work (n + 1) q ts {}).1 := by
  rw [tabled_eq_ofWorkers]
  have hrested := rested_ofWorkers {} q memory (tabledWorkers q b)
  have hoptions : (ofWorkers {} q memory (tabledWorkers q b)).options = q := rfl
  have hids : (ofWorkers {} q memory (tabledWorkers q b)).ids = {} := rfl
  obtain ⟨m, hm⟩ := hrested.run (ordered_crewOf _) hts
  rw [hoptions, hids] at hm
  exact ⟨m, fun k hk => (hm k hk).1⟩

end Session

end WikiExpansion
