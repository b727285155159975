import WikiExpansion.Proofs.Completion
import WikiExpansion.Proofs.Settled

/-!
# Expanding what was expanded

A pipeline of one expander gives a stream for every stream, and gives that stream
again when it is run on it, as long as no key of the written tokens is undecided,
at any depth (`run_idempotent`).

The induction is on the depth.  What the expander gives for a token is fixed: it
comes to itself, whatever the ids.  For a tag this is so because the tokens of its
sides are fixed, which are those of runs that nest less deep, and because its
pairs are settled.  The plain text of a key, by which it is undecided or not, is
the same before and after, so `Expands` carries it along.
-/

namespace WikiExpansion

open Vocabulary

/-! ### Keys at any depth -/

/-- The content is the key of an attribute of the token, or of one of a token that is
nested in it. -/
inductive Token.HasKey (c : Content Token) : Token → Prop
  | own {t : Token} {g : Tag Token} {a : Attribute Token} (hg : t.expandableTag? = some g)
      (ha : a ∈ g.attributes) (hc : a.key = c) : HasKey c t
  | nested {t u : Token} {ts : List Token} (ht : t.Nests ts) (hu : u ∈ ts) (h : HasKey c u) :
      HasKey c t

def Token.Decided (t : Token) : Prop :=
  ∀ c, t.HasKey c → Text.contains maybeContent c.plainText = false

theorem Token.Decided.nested {t u : Token} {ts : List Token} (h : t.Decided) (ht : t.Nests ts)
    (hu : u ∈ ts) : u.Decided := fun c hc => h c (.nested ht hu hc)

theorem Token.decided_of_text (s : String) : (Token.text s).Decided := by
  intro c hc
  cases hc with
  | own hg _ _ => cases hg
  | nested ht _ _ => exact absurd ht (Token.not_nests rfl _)

theorem Token.decided_of_tag {t : Token} {g : Tag Token} (hg : t.expandableTag? = some g)
    (h : ∀ a ∈ g.attributes, Text.contains maybeContent a.key.plainText = false ∧
      a.All Token.Decided) : t.Decided := by
  intro c hc
  cases hc with
  | own hg' ha hc =>
    obtain rfl := Option.some.inj (hg.symm.trans hg')
    rw [← hc]
    exact (h _ ha).1
  | nested ht hu hc =>
    obtain ⟨g', a, hg', ha, hside⟩ := ht
    obtain rfl := Option.some.inj (hg.symm.trans hg')
    rcases hside with hside | hside
    · exact (h a ha).2.1 _ hside _ hu c hc
    · exact (h a ha).2.2 _ hside _ hu c hc

theorem decided_wrap (id body : String) : ∀ u ∈ TemplateTable.wrap id body, u.Decided := by
  have htypeof : Text.contains maybeContent "typeof" = false := by decide
  have habout : Text.contains maybeContent "about" = false := by decide
  refine TemplateTable.forall_mem_wrap ?_ (Token.decided_of_text body)
  intro type
  exact Token.decided_of_tag rfl (TemplateTable.forall_mem_wrapperTag
    ⟨htypeof, Attribute.all_of_texts rfl⟩ ⟨habout, Attribute.all_of_texts rfl⟩ rfl)

/-! ### Work that comes to something -/

section Sweep

variable {α β : Type} {f : α → Work β}

/-- Where every item comes to something that fits it, so do all of them together. -/
theorem exists_sweep {R : α → β → Prop} {as : List α}
    (h : ∀ a ∈ as, ∀ i, ∃ b, (f a i).1 = .ok b ∧ R a b) (i : IdSource) :
    ∃ bs, (sweep f as i).1 = .ok bs ∧ List.Forall₂ R as bs := by
  induction as generalizing i with
  | nil => exact ⟨[], rfl, .nil⟩
  | cons a as ih =>
    obtain ⟨b, hb, hab⟩ := h a List.mem_cons_self i
    obtain ⟨bs, hbs, hall⟩ := ih (fun c hc => h c (List.mem_cons_of_mem _ hc)) (f a i).2
    refine ⟨b :: bs, ?_, .cons hab hall⟩
    rw [sweep_cons_ok hb, hbs]
    rfl

theorem sweep_eq_map {g : α → β} {as : List α} (h : ∀ a ∈ as, ∀ i, (f a i).1 = .ok (g a))
    (i : IdSource) : (sweep f as i).1 = .ok (as.map g) := by
  obtain ⟨bs, hbs, hall⟩ := exists_sweep (R := fun a b => g a = b)
    (fun a ha i => ⟨g a, h a ha i, rfl⟩) i
  have hmap : List.Forall₂ (· = ·) (as.map g) bs := List.forall₂_map_left_iff.2 hall
  rw [List.forall₂_eq_eq_eq] at hmap
  rw [hbs, hmap]

theorem sweep_of_ready {g : α → β} {as : List α} (h : ∀ a ∈ as, ∀ i, f a i = (.ok (g a), i))
    (i : IdSource) : sweep f as i = (.ok (as.map g), i) := by
  induction as with
  | nil => rfl
  | cons a as ih =>
    have ha := h a List.mem_cons_self i
    rw [sweep_cons_ok (congrArg Prod.fst ha), show (f a i).2 = i from congrArg Prod.snd ha,
      ih fun c hc => h c (List.mem_cons_of_mem _ hc)]
    rfl

end Sweep

/-- The work gives some tokens for the stream, of the same plain text and all of them
with the property. -/
def Expands (Q : Token → Prop) (w : Work (List Token)) (text : String) : Prop :=
  ∀ i, ∃ us, (w i).1 = .ok us ∧ plainText us = text ∧ ∀ u ∈ us, Q u

def Token.Fixed (f : Token → Work (List Token)) (t : Token) : Prop := ∀ i, (f t i).1 = .ok [t]

def Token.Passes (f : Token → Work (List Token)) (t : Token) : Prop := ∀ i, f t i = (.ok [t], i)

theorem flatten_map_singleton {α : Type} (as : List α) : (as.map fun a => [a]).flatten = as := by
  rw [← List.flatMap_def, List.flatMap_singleton']

section Stream

variable {f : Token → Work (List Token)} {Q : Token → Prop}

theorem expands_of_fixed {t : Token} (h : t.Fixed f) (hq : Q t) : Expands Q (f t) t.plainText := by
  intro i
  refine ⟨[t], h i, ?_, fun u hu => ?_⟩
  · show t.plainText ++ "" = t.plainText
    rw [String.append_empty]
  · obtain rfl := List.mem_singleton.1 hu
    exact hq

theorem plainText_flatten {ts : List Token} {uss : List (List Token)}
    (h : List.Forall₂ (fun t us => plainText us = t.plainText ∧ ∀ u ∈ us, Q u) ts uss) :
    plainText uss.flatten = plainText ts ∧ ∀ u ∈ uss.flatten, Q u := by
  induction h with
  | nil => exact ⟨rfl, nofun⟩
  | @cons t us ts uss ht _ ih =>
    refine ⟨?_, fun u hu => ?_⟩
    · rw [List.flatten_cons, plainText_append, ht.1, ih.1]
      rfl
    · rcases List.mem_append.1 (List.flatten_cons ▸ hu) with hu | hu
      · exact ht.2 u hu
      · exact ih.2 u hu

theorem expands_streamWork {ts : List Token} (h : ∀ t ∈ ts, Expands Q (f t) t.plainText) :
    Expands Q (streamWork f ts) (plainText ts) := by
  intro i
  obtain ⟨uss, huss, hall⟩ := exists_sweep h i
  refine ⟨uss.flatten, ?_, plainText_flatten hall⟩
  rw [streamWork, huss]
  rfl

theorem streamWork_of_fixed {ts : List Token} (h : ∀ t ∈ ts, t.Fixed f) (i : IdSource) :
    (streamWork f ts i).1 = .ok ts := by
  rw [streamWork, sweep_eq_map h i]
  exact congrArg Except.ok (flatten_map_singleton ts)

theorem streamWork_of_passes {ts : List Token} (h : ∀ t ∈ ts, t.Passes f) (i : IdSource) :
    streamWork f ts i = (.ok ts, i) := by
  rw [streamWork, sweep_of_ready h]
  exact congrArg (fun us => (Except.ok us, i)) (flatten_map_singleton ts)

end Stream

/-! ### Tags -/

section Tags

variable {o : Options} {nested : List Token → Work (List Token)} {Q : Token → Prop}

theorem exists_sideWork {c : Content Token}
    (h : ∀ ts, c = .tokens ts → Expands Q (nested ts) (plainText ts)) (i : IdSource) :
    ∃ d, (sideWork nested c i).1 = .ok d ∧ d.plainText = c.plainText ∧ d.All Q := by
  cases c with
  | text s => exact ⟨.text s, rfl, rfl, Content.all_text s⟩
  | tokens ts =>
    obtain ⟨us, hus, htext, hq⟩ := h ts rfl i
    refine ⟨.tokens us, ?_, htext, Content.all_tokens.2 hq⟩
    rw [sideWork, hus]
    rfl

theorem sideWork_of_all (hfix : ∀ ts, (∀ t ∈ ts, Q t) → ∀ i, (nested ts i).1 = .ok ts)
    {c : Content Token} (h : c.All Q) (i : IdSource) : (sideWork nested c i).1 = .ok c := by
  cases c with
  | text s => rfl
  | tokens ts =>
    rw [sideWork, hfix ts (h ts rfl)]
    rfl

theorem exists_pairWork {a : Attribute Token}
    (h : ∀ ts, (a.key = .tokens ts ∨ a.value = .tokens ts) →
      Expands Q (nested ts) (plainText ts)) (i : IdSource) :
    ∃ p, (pairWork nested a i).1 = .ok p ∧ a.ExpandsTo p ∧
      p.get.key.plainText = a.key.plainText ∧ p.get.All Q := by
  have hpair : ∃ p, (pairWork nested a i).1 = .ok p ∧
      p.get.key.plainText = a.key.plainText ∧ p.get.All Q := by
    unfold pairWork
    cases hn : a.needsExpansion with
    | false => exact ⟨.shared a, rfl, rfl, Attribute.all_of_texts hn⟩
    | true =>
      have hsides : ∀ c ∈ [a.key, a.value], ∀ j, ∃ d, (sideWork nested c j).1 = .ok d ∧
          d.plainText = c.plainText ∧ d.All Q := by
        intro c hc j
        rcases List.mem_cons.1 hc with rfl | hc
        · exact exists_sideWork (fun ts hts => h ts (.inl hts)) j
        · obtain rfl := List.mem_singleton.1 hc
          exact exists_sideWork (fun ts hts => h ts (.inr hts)) j
      obtain ⟨sides, hsides, hall⟩ := exists_sweep hsides i
      rw [if_pos rfl, hsides]
      cases hall with
      | @cons _ k _ _ hk hrest =>
        cases hrest with
        | @cons _ v _ _ hv hnil =>
          cases hnil
          exact ⟨.own (newAttribute k v), rfl, hk.1, hk.2, hv.2⟩
  obtain ⟨p, hp, htext, hall⟩ := hpair
  exact ⟨p, hp, expandsTo_of_pairWork hp, htext, hall⟩

theorem pairWork_of_all (hfix : ∀ ts, (∀ t ∈ ts, Q t) → ∀ i, (nested ts i).1 = .ok ts)
    {b : Attribute Token} (h : b.All Q) (i : IdSource) :
    (pairWork nested b i).1 = .ok b.again := by
  unfold pairWork Attribute.again
  split
  · have hsides : (sweep (sideWork nested) [b.key, b.value] i).1 =
        .ok ([b.key, b.value].map id) := by
      refine sweep_eq_map (fun c hc j => ?_) i
      rcases List.mem_cons.1 hc with rfl | hc
      · exact sideWork_of_all hfix h.1 j
      · obtain rfl := List.mem_singleton.1 hc
        exact sideWork_of_all hfix h.2 j
    rw [hsides]
    rfl
  · rfl

/-- A tag of settled pairs, of which the sides come to themselves, is fixed. -/
theorem tagWork_of_settled (hfix : ∀ ts, (∀ t ∈ ts, Q t) → ∀ i, (nested ts i).1 = .ok ts)
    {t : Token} {g : Tag Token} (hg : t.expandableTag? = some g)
    (hs : ∀ b ∈ g.attributes, b.Settled ∧ b.All Q) (i : IdSource) :
    (tagWork o nested t g.attributes i).1 = .ok [t] := by
  have hpairs := sweep_eq_map (fun b hb j => pairWork_of_all hfix (hs b hb).2 j) i
  unfold tagWork
  generalize sweep (pairWork nested) g.attributes i = r at hpairs
  obtain ⟨r, j⟩ := r
  obtain rfl : r = .ok (g.attributes.map Attribute.again) := hpairs
  exact returnAttributes_again o j hg fun b hb => (hs b hb).1

/-- What comes of a tag is the tag itself where no pair of it changes, and otherwise
markers and a tag of settled pairs. -/
theorem exists_tagWork (hq : ∀ s, Q (.text s)) (hm : ∀ m, Q (.marker m)) {t : Token}
    {g : Tag Token} (hg : t.expandableTag? = some g)
    (hn : ∀ ts, t.Nests ts → Expands Q (nested ts) (plainText ts))
    (hd : ∀ a ∈ g.attributes, Text.contains maybeContent a.key.plainText = false)
    (i : IdSource) :
    ∃ us, (tagWork o nested t g.attributes i).1 = .ok us ∧
      ((changes g.attributes = false ∧ us = [t]) ∨
        changes g.attributes = true ∧ ∃ (ms : List (Marker Token)) (g' : Tag Token),
          us = ms.map .marker ++ [t.withTag g'] ∧
            ∀ b ∈ g'.attributes, b.Settled ∧ b.All Q) := by
  have hpair : ∀ a ∈ g.attributes, ∀ j, ∃ p, (pairWork nested a j).1 = .ok p ∧ p.get.All Q ∧
      a.ExpandsTo p ∧ Text.contains maybeContent p.get.key.plainText = false := by
    intro a ha j
    obtain ⟨p, hp, hx, htext, hall⟩ := exists_pairWork (fun ts hts => hn ts ⟨g, a, hg, ha, hts⟩) j
    exact ⟨p, hp, hall, hx, htext ▸ hd a ha⟩
  obtain ⟨hs, hsweep, hpairs⟩ := exists_sweep hpair i
  have hin : ∀ p ∈ hs, p.get.All Q :=
    ((List.forall₂_and_left hs g.attributes).1 (List.Forall₂.flip hpairs)).1
  have hx : List.Forall₂ Attribute.ExpandsTo g.attributes hs := hpairs.imp fun _ _ h => h.2.1
  have htag : ∃ us, (tagWork o nested t g.attributes i).1 = .ok us := by
    unfold tagWork
    generalize sweep (pairWork nested) g.attributes i = r at hsweep
    obtain ⟨r, j⟩ := r
    obtain rfl : r = .ok hs := hsweep
    exact ⟨_, returnAttributes_emitted o j hg (Nat.le_of_eq hx.length_eq)⟩
  obtain ⟨us, hus⟩ := htag
  refine ⟨us, hus, ?_⟩
  rcases tagWork_cases hg hus with ⟨hc, rfl⟩ | ⟨hc, hs', j, r, hsweep', hr, rfl⟩
  · exact .inl ⟨hc, rfl⟩
  · obtain rfl : hs' = hs := by
      rw [hsweep'] at hsweep
      exact Except.ok.inj hsweep
    have hdecided : List.Forall₂ (fun a h => a.Fits h.get ∧
        Text.contains maybeContent h.get.key.plainText = false) g.attributes hs' :=
      hpairs.imp fun _ _ h => ⟨h.2.1.fits, h.2.2⟩
    obtain ⟨hsettled, hadded⟩ := settled_reconcile (w := o.wrapTemplates) hdecided
    have hnone : ∀ b ∈ (reconcile o.wrapTemplates g.attributes hs').2.added, b.Settled := by
      rw [hadded]
      exact nofun
    have hset := editable_settled.rebuild hsettled hnone hr
    have hall := all_rebuild hq hm hin hr
    refine .inr ⟨hc, r.markers, g.withHeld r.attributes, rfl, fun b hb => ?_⟩
    obtain ⟨p, hp, rfl⟩ := List.mem_map.1 hb
    exact ⟨hset p hp, hall p hp⟩

end Tags

/-! ### Every depth -/

theorem Token.plainText_of_expandableTag? {t : Token} {g : Tag Token}
    (hg : t.expandableTag? = some g) : t.plainText = "" := by
  cases t with
  | text _ | newline => cases hg
  | _ => rfl

theorem plainText_emitted {t : Token} {g : Tag Token} (hg : t.expandableTag? = some g)
    (ms : List (Marker Token)) (g' : Tag Token) :
    plainText (ms.map .marker ++ [t.withTag g']) = "" := by
  have htag := Token.plainText_of_expandableTag? (Token.expandableTag?_withTag hg g')
  induction ms with
  | nil =>
    show (t.withTag g').plainText ++ "" = ""
    rw [htag]
    rfl
  | cons m ms ih =>
    show "" ++ plainText (ms.map .marker ++ [t.withTag g']) = ""
    rw [ih]
    rfl

section Depth

variable {run q : Options} {nested : Options → List Token → Work (List Token)} {Q : Token → Prop}

theorem Worker.expander_work {t : Token} {g : Tag Token} (hg : t.expandableTag? = some g)
    (i : IdSource) : (expander q).work run nested t i =
      if g.attributes.isEmpty then (.ok [t], i) else tagWork q (nested q) t g.attributes i := by
  rw [work, hg]

theorem Token.fixed_of_not_tag {t : Token} (h : t.expandableTag? = none) :
    t.Fixed ((Worker.expander q).work run nested) := by
  intro i
  rw [Worker.work, h]

theorem Token.fixed_of_tag {t : Token} {g : Tag Token} (hg : t.expandableTag? = some g)
    (h : ∀ i, (tagWork q (nested q) t g.attributes i).1 = .ok [t]) :
    t.Fixed ((Worker.expander q).work run nested) := by
  intro i
  rw [Worker.expander_work hg]
  split
  · rfl
  · exact h i

theorem fixed_emitted (hfix : ∀ ts, (∀ t ∈ ts, Q t) → ∀ i, (nested q ts i).1 = .ok ts) {t : Token}
    {g g' : Tag Token} (hg : t.expandableTag? = some g) (ms : List (Marker Token))
    (hs : ∀ b ∈ g'.attributes, b.Settled ∧ b.All Q) :
    ∀ u ∈ ms.map .marker ++ [t.withTag g'], u.Fixed ((Worker.expander q).work run nested) := by
  intro u hu
  have hg' := Token.expandableTag?_withTag hg g'
  rcases List.mem_append.1 hu with hu | hu
  · obtain ⟨m, -, rfl⟩ := List.mem_map.1 hu
    exact Token.fixed_of_not_tag rfl
  · obtain rfl := List.mem_singleton.1 hu
    exact Token.fixed_of_tag hg' (tagWork_of_settled hfix hg' hs)

/-- What an expander does with a token is fixed, if what its runs give is. -/
theorem expands_expander (hq : ∀ s, Q (.text s)) (hm : ∀ m, Q (.marker m))
    (hfix : ∀ ts, (∀ t ∈ ts, Q t) → ∀ i, (nested q ts i).1 = .ok ts) {t : Token}
    (hn : ∀ ts, t.Nests ts → Expands Q (nested q ts) (plainText ts)) (hd : t.Decided) :
    Expands (Token.Fixed ((Worker.expander q).work run nested))
      ((Worker.expander q).work run nested t) t.plainText := by
  cases hg : t.expandableTag? with
  | none =>
    have hfixed : t.Fixed ((Worker.expander q).work run nested) := Token.fixed_of_not_tag hg
    exact expands_of_fixed hfixed hfixed
  | some g =>
    have htag := exists_tagWork (o := q) hq hm hg hn fun a ha => hd a.key (.own hg ha rfl)
    cases hc : changes g.attributes with
    | false =>
      have hfixed : t.Fixed ((Worker.expander q).work run nested) := by
        refine Token.fixed_of_tag hg fun i => ?_
        obtain ⟨us, hus, ⟨-, rfl⟩ | ⟨hc', -⟩⟩ := htag i
        · exact hus
        · rw [hc] at hc'
          cases hc'
      exact expands_of_fixed hfixed hfixed
    | true =>
      have hne : ¬ g.attributes.isEmpty = true := by
        intro he
        rw [List.isEmpty_iff.1 he] at hc
        cases hc
      intro i
      obtain ⟨us, hus, ⟨hc', -⟩ | ⟨-, ms, g', rfl, hs⟩⟩ := htag i
      · rw [hc] at hc'
        cases hc'
      refine ⟨ms.map .marker ++ [t.withTag g'], ?_, ?_, fixed_emitted hfix hg ms hs⟩
      · rw [Worker.expander_work hg, if_neg hne]
        exact hus
      · rw [plainText_emitted hg, Token.plainText_of_expandableTag? hg]

end Depth

theorem streamWork_tokenWork_nil {run : Options} {nested : Options → List Token → Work (List Token)}
    (ts : List Token) (i : IdSource) :
    streamWork (tokenWork run nested []) ts i = (.ok ts, i) :=
  streamWork_of_passes (fun _ _ _ => rfl) i

theorem tokenWork_expander {run q : Options} {nested : Options → List Token → Work (List Token)}
    {r : Registration Worker} (hfilter : r.filter = .any) (hworker : r.handler = .expander q) :
    tokenWork run nested [r] = (Worker.expander q).work run nested := by
  funext t i
  rw [tokenWork, hfilter, if_pos (show Filter.any.accepts t.kind = true from rfl), hworker]
  generalize (Worker.expander q).work run nested t i = w
  obtain ⟨res, j⟩ := w
  cases res with
  | error e => rfl
  | ok us => exact streamWork_tokenWork_nil us j

def Registry.Sole (g : Registry Worker) (q : Options) : Prop :=
  ∃ r, g.entries = [r] ∧ r.filter = .any ∧ r.handler = .expander q

theorem sole_crewOf (rank : Rank) (q : Options) : (crewOf [(rank, .expander q)]).Sole q :=
  ⟨_, rfl, rfl, rfl⟩

namespace Registry

variable {g : Registry Worker} {q : Options}

/-- A run of one expander is that expander's work on its tokens. -/
theorem Sole.work_succ (hg : g.Sole q) (n : Nat) (run : Options) (ts : List Token) :
    g.work (n + 1) run ts = streamWork ((Worker.expander q).work run (g.work n)) ts := by
  obtain ⟨r, hr, hfilter, hworker⟩ := hg
  funext i
  rw [Registry.work, hr, tokenWork_expander hfilter hworker]

theorem Sole.work_of_fixed (hg : g.Sole q) (n : Nat) {ts : List Token}
    (h : ∀ t ∈ ts, t.Fixed ((Worker.expander q).work q (g.work n))) (i : IdSource) :
    (g.work (n + 1) q ts i).1 = .ok ts := by
  rw [hg.work_succ]
  exact streamWork_of_fixed h i

/-- **What an expander gives is fixed**, at any depth, and has the plain text of what
it got. -/
theorem Sole.expands (hg : g.Sole q) {n : Nat} {t : Token} (ht : t.Shallow n) (hd : t.Decided) :
    Expands (Token.Fixed ((Worker.expander q).work q (g.work (n + 1))))
      ((Worker.expander q).work q (g.work (n + 1)) t) t.plainText := by
  induction n generalizing t with
  | zero =>
    refine expands_expander (fun _ _ => rfl) (fun _ _ => rfl) (fun ts => hg.work_of_fixed 0)
      (fun ts hts => ?_) hd
    exact absurd hts (ht ts)
  | succ n ih =>
    refine expands_expander (fun _ _ => rfl) (fun _ _ => rfl) (fun ts => hg.work_of_fixed (n + 1))
      (fun ts hts => ?_) hd
    rw [hg.work_succ]
    exact expands_streamWork fun u hu => ih (ht ts hts u hu) (hd.nested hts hu)

end Registry

namespace Session

variable {σ : Type} {s : Session σ}

/-- **Expansion is idempotent.**  A pipeline of one expander, new or after some runs,
gives a stream for every stream without undecided keys; and that stream is what
the pipeline gives for it, the same one further on or any of the kind. -/
theorem run_idempotent {rank : Rank} {q : Options} (h : Serves [(rank, .expander q)] s)
    {ts : List Token} (hd : ∀ t ∈ ts, t.Decided) :
    ∃ n, ∀ k, n ≤ k → ∃ us, (s.run k ts).1 = .ok us ∧
      Serves [(rank, .expander q)] (s.run k ts).2 ∧
      ∀ s' : Session σ, Serves [(rank, .expander q)] s' →
        ∃ m, ∀ l, m ≤ l → (s'.run l us).1 = .ok us := by
  have hsole := sole_crewOf rank q
  have hordered := ordered_crewOf [(rank, .expander q)]
  obtain ⟨d, hts⟩ := Token.exists_shallow ts
  have hdeep : ∀ t ∈ ts, t.Shallow (d + 1) := fun t ht => (hts t ht).succ
  have hwork (o : Options) (us : List Token) :
      (crewOf [(rank, .expander q)]).work (d + 2) o us =
        streamWork ((Worker.expander q).work q ((crewOf [(rank, .expander q)]).work (d + 1))) us :=
    hsole.work_succ (d + 1) o us
  -- the work gives tokens that are fixed, and no deeper than the written ones
  obtain ⟨us, hus, -, hfixed⟩ :=
    expands_streamWork (fun t ht => hsole.expands (hts t ht) (hd t ht)) s.ids
  have hshallow : ∀ u ∈ us, u.Shallow (d + 1) := by
    refine shallow_work (crewOf [(rank, .expander q)]) (d + 1) q hdeep s.ids us ?_
    rw [hwork]
    exact hus
  obtain ⟨n, hn⟩ := h.rested.run hordered hdeep
  refine ⟨n, fun k hk => ⟨us, ?_, .run h k ts (hn k hk).2.2.2.2.agenda, fun s' h' => ?_⟩⟩
  · rw [(hn k hk).1, hwork]
    exact hus
  · obtain ⟨m, hm⟩ := h'.rested.run hordered hshallow
    refine ⟨m, fun l hl => ?_⟩
    rw [(hm l hl).1, hwork]
    exact streamWork_of_fixed hfixed s'.ids

/-- A link of which one attribute came out of a template as a whole, and of which the
target holds a tag with a title that came out of another. -/
theorem run_idempotent_produced :
    let s : Session Unit := withExpander {} {} .attributes ()
    let inner : Token := .selfClosing ⟨"i", [newAttribute (.text "title")
      (.tokens (TemplateTable.wrap "#mwt1" "page"))], {}⟩
    let link : Token := .opening ⟨"a", [newAttribute
      (.tokens (TemplateTable.wrap "#mwt2" "rel=next")) (.text ""),
      newAttribute (.text "href") (.tokens [inner])], {}⟩
    ∃ n, ∀ k, n ≤ k → ∃ us, (s.run k [link]).1 = .ok us ∧
      ∃ m, ∀ l, m ≤ l → ((s.run k [link]).2.run l us).1 = .ok us := by
  intro s inner link
  have hinner : inner.Decided := by
    refine Token.decided_of_tag rfl fun a ha => ?_
    obtain rfl := List.mem_singleton.1 ha
    have htitle : Text.contains maybeContent "title" = false := by decide
    exact ⟨htitle, Content.all_text _, Content.all_tokens.2 (decided_wrap _ _)⟩
  have hlink : link.Decided := by
    refine Token.decided_of_tag rfl fun a ha => ?_
    rcases List.mem_cons.1 ha with rfl | ha
    · have hrel : Text.contains maybeContent "rel=next" = false := by decide
      exact ⟨hrel, Content.all_tokens.2 (decided_wrap _ _), Content.all_text _⟩
    · obtain rfl := List.mem_singleton.1 ha
      have hhref : Text.contains maybeContent "href" = false := by decide
      exact ⟨hhref, Content.all_text _,
        Content.all_tokens.2 fun u hu => List.mem_singleton.1 hu ▸ hinner⟩
  have hs : Serves [(.attributes, .expander {})] s := .new {} {} ()
  obtain ⟨n, hn⟩ := run_idempotent hs fun t ht => List.mem_singleton.1 ht ▸ hlink
  refine ⟨n, fun k hk => ?_⟩
  obtain ⟨us, hus, hserves, hagain⟩ := hn k hk
  exact ⟨us, hus, hagain _ hserves⟩

end Session

end WikiExpansion
