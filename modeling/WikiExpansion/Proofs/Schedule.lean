import WikiExpansion.Proofs.Immediate
import WikiExpansion.Proofs.Rest
import WikiExpansion.Proofs.Verdict

/-!
# Schedules of a pipeline

A pipeline of stages whose tables hold their answers back is given jobs, does some
steps, and has some of the answers given that are held back, in any order and at
any time at which nothing else is on its way (`Schedule`).  When nothing is held
back any more each job is over, and its result is that of a run over its tokens
alone with tables that answer at once, but for the ids (`Schedule.outcome`).  Every
schedule can be gone on with to that point (`Schedule.exists_rest`).

Both sessions do what is due (`Flow`), and what is due to a job depends neither on
the schedule nor on the other jobs.
-/

namespace WikiExpansion

/-! ### Pipelines -/

def Stage.name : Stage → String
  | expander => expanderName
  | table _ => TemplateTable.handlerName

def Stage.filter : Stage → Filter
  | expander => .any
  | table _ => .only .selfClosing

def registryOf (stages : List (Rank × Stage)) : Registry Stage :=
  stages.foldl (fun g a => g.register a.2.name a.1 a.2.filter a.2) {}

theorem ordered_registryOf (stages : List (Rank × Stage)) : (registryOf stages).Ordered := by
  unfold registryOf
  refine List.foldlRecOn stages _ Registry.ordered_empty fun g hg a _ => ?_
  exact hg.register _ _ _ _

def planOf (o : Options) (stages : List (Rank × Stage)) : Plan :=
  ⟨o, registryOf stages, ordered_registryOf stages⟩

namespace Session

/-- A session of stages that work by its options.  Its tables hold their answers
back if they have a name to hold them under. -/
def pipeline (defer : Option String) (ids : IdSource) (o : Options)
    (stages : List (Rank × Stage)) : Session Desk :=
  stages.foldl (fun s a => s.register a.2.name a.1 a.2.filter (a.2.handler o defer))
    (Session.new ids o {})

-- A session with an expander and a table is one of them.
example (name : String) (ids : IdSource) (o : Options) (p q : Rank)
    (b : TemplateTable) :
    pipeline (some name) ids o [(p, .expander), (q, .table b)] =
      TemplateTable.register (withExpander ids o p {}) q (b.deferred name) := rfl

section Fresh

variable (defer : Option String) (ids : IdSource) (o : Options)

def Blank (s : Session Desk) (g : Registry Stage) : Prop :=
  s = { Session.new ids o {} with registry := g.map (Stage.handler o defer) } ∧
    Reaches (Session.new ids o {}) s

theorem Blank.register {s : Session Desk} {g : Registry Stage} (h : Blank defer ids o s g)
    (rank : Rank) (a : Stage) :
    Blank defer ids o (s.register a.name rank a.filter (a.handler o defer))
      (g.register a.name rank a.filter a) := by
  obtain ⟨rfl, hr⟩ := h
  refine ⟨?_, .act hr rfl (.register _ _ _ _)⟩
  rw [Registry.map_register]
  rfl

theorem blank_pipeline (stages : List (Rank × Stage)) :
    Blank defer ids o (pipeline defer ids o stages) (registryOf stages) := by
  have all : ∀ {s : Session Desk} {g : Registry Stage}, Blank defer ids o s g →
      Blank defer ids o
        (stages.foldl (fun s a => s.register a.2.name a.1 a.2.filter (a.2.handler o defer)) s)
        (stages.foldl (fun g a => g.register a.2.name a.1 a.2.filter a.2) g) := by
    induction stages with
    | nil => exact id
    | cons a stages ih => exact fun h => ih (h.register defer ids o a.1 a.2)
  exact all ⟨rfl, .refl⟩

end Fresh

/-! ### Schedules -/

/-- Gives some of the answers that are held back, one after the other. -/
def giveOut (s : Session Desk) (taken rest : List (String × Parked)) : Session Desk :=
  (s.setMemory { s.memory with held := rest }).push
    (taken.map fun p => .deliver (.handle p.2.handle) p.2.answer)

/-- What jobs, steps and answers that are given out lead to from a session.  The
answers that are given are any of those that are held back by then. -/
inductive Schedule (s₀ : Session Desk) : List (List Token) → Session Desk → Prop
  | start : Schedule s₀ [] s₀
  | step {jobs s} : Schedule s₀ jobs s → Schedule s₀ jobs s.step
  | process {jobs s} (ts : List Token) : Schedule s₀ jobs s → s.isOpen = true →
      Schedule s₀ (jobs ++ [ts]) (s.process ts none).2
  | answer {jobs s taken rest} : Schedule s₀ jobs s → s.isOpen = true →
      s.memory.held.Perm (taken ++ rest) → Schedule s₀ jobs (s.giveOut taken rest)

theorem Schedule.settle {s₀ s : Session Desk} {jobs : List (List Token)}
    (h : Schedule s₀ jobs s) (n : Nat) : Schedule s₀ jobs (s.settle n) := by
  induction n generalizing s with
  | zero => exact h
  | succ n ih =>
    rw [settle_succ]
    exact ih h.step

theorem Schedule.trans {s₀ s t : Session Desk} {jobs later : List (List Token)}
    (h : Schedule s₀ jobs s) (g : Schedule s later t) : Schedule s₀ (jobs ++ later) t := by
  induction g with
  | start => rwa [List.append_nil]
  | step _ ih => exact .step ih
  | process ts _ ho ih => exact List.append_assoc _ _ _ ▸ .process ts ih ho
  | answer _ ho hp ih => exact .answer ih ho hp

/-- To flush a table is to give out all that it holds back. -/
theorem flush_eq_giveOut (s : Session Desk) (name : String) (reversed : Bool) :
    ∃ taken rest, s.memory.held.Perm (taken ++ rest) ∧
      s.flush name reversed = s.giveOut taken rest := by
  let own := s.memory.held.filter (·.1 == name)
  have hperm : s.memory.held.Perm (own ++ s.memory.held.filter (·.1 != name)) :=
    (List.filter_append_perm _ _).symm
  cases reversed with
  | false =>
    refine ⟨own, _, hperm, ?_⟩
    simp only [flush, giveOut, Desk.heldBy, Bool.false_eq_true, if_false, List.map_map]
    rfl
  | true =>
    refine ⟨own.reverse, _, hperm.trans ((List.reverse_perm own).symm.append_right _), ?_⟩
    simp only [flush, giveOut, Desk.heldBy, if_true, ← List.map_reverse, List.map_map]
    rfl

theorem reaches_giveOut {s : Session Desk} (ho : s.isOpen = true)
    (taken rest : List (String × Parked)) : Reaches s (s.giveOut taken rest) := by
  induction taken with
  | nil => exact .act .refl ho (.remember _)
  | cons p taken ih =>
    refine .act ih ?_ (.complete p.2.handle p.2.answer)
    cases taken with
    | nil => exact ho
    | cons q taken => rfl

section Invariants

variable {s : Session Desk} {P : Plan} {defer : Option String} {jobs : List (List Token)}

theorem Flow.process (hf : Flow s P defer jobs) (ts : List Token) :
    Flow (s.process ts none).2 P defer (jobs ++ [ts]) := by
  have he : Extends s (s.process ts none).2 := (Act.process ts none).extends
  have hj : jobs <+: jobs ++ [ts] := List.prefix_append _ _
  refine ⟨hf.handlers, hf.options, ?_, fun k hk => ?_, fun h v hv => ?_, fun n x hx => ?_,
    fun n x hx => ?_, fun p hp => ?_, fun e hm => ?_⟩
  · show s.jobs + 1 = _
    rw [hf.count, List.length_append, List.length_singleton]
  · rcases List.mem_cons.1 (show k ∈ _ :: s.agenda from hk) with rfl | hk
    · refine ⟨hf.options, _, ⟨ts, ?_, rfl⟩, .refl _⟩
      rw [hf.count, List.getElem?_append_right (Nat.le_refl _), Nat.sub_self]
      rfl
    · exact (hf.tasks k hk).mono he hj
  · exact (hf.invocations h v hv).mono he hj
  · exact (hf.streams n x hx).mono he hj
  · exact (hf.expansions n x hx).mono he
  · exact (hf.held p hp).mono he hj
  · obtain ⟨j, r, rfl, hd⟩ := hf.events e hm
    exact ⟨j, r, rfl, hd.mono he hj⟩

theorem extends_giveOut (s : Session Desk) (taken rest : List (String × Parked)) :
    Extends s (s.giveOut taken rest) :=
  .of_eq rfl rfl rfl rfl (List.prefix_refl _) (Nat.le_refl _)

theorem Flow.giveOut (hf : Flow s P defer jobs) {taken rest : List (String × Parked)}
    (hp : s.memory.held.Perm (taken ++ rest)) : Flow (s.giveOut taken rest) P defer jobs := by
  have he := extends_giveOut s taken rest
  have hj := List.prefix_refl jobs
  have held (p : String × Parked) (hm : p ∈ taken ++ rest) :
      (s.giveOut taken rest).Due P jobs (.handle p.2.handle) p.2.answer :=
    (hf.held p (hp.mem_iff.2 hm)).mono he hj
  refine ⟨hf.handlers, hf.options, hf.count, fun k hk => ?_, fun h v hv => ?_, fun n x hx => ?_,
    fun n x hx => ?_, fun p hp => held p (List.mem_append_right _ hp), fun e hm => ?_⟩
  · rcases List.mem_append.1 hk with hk | hk
    · obtain ⟨p, hm, rfl⟩ := List.mem_map.1 hk
      exact held p (List.mem_append_left _ hm)
    · exact (hf.tasks k hk).mono he hj
  · exact (hf.invocations h v hv).mono he hj
  · exact (hf.streams n x hx).mono he hj
  · exact (hf.expansions n x hx).mono he
  · obtain ⟨j, r, rfl, hd⟩ := hf.events e hm
    exact ⟨j, r, rfl, hd.mono he hj⟩

/-- Who attends to an invocation still does so when more is put on the agenda, or is
put there in the place of what was held back. -/
theorem Attends.mono {t : Session Desk} {jobs' : List (List Token)} (ha : Attends s P jobs)
    (he : Extends s t) (hj : jobs <+: jobs') (ks : List (Task Desk))
    (hag : t.agenda = ks ++ s.agenda) (hks : ∀ e i, .expandPair e i ∉ ks)
    (hi : t.invocations = s.invocations) (hst : t.streams = s.streams)
    (hex : t.expansions = s.expansions)
    (hheld : ∀ p ∈ s.memory.held, p ∈ t.memory.held ∨
      ∃ r, .deliver (.handle p.2.handle) r ∈ ks) : Attends t P jobs' := by
  have stays {k : Task Desk} (hk : k ∈ s.agenda) : k ∈ t.agenda :=
    hag ▸ List.mem_append_right ks hk
  refine ⟨fun h v hv hn => ?_, fun e x i hx ho hs => ?_, fun e i hm => ?_, ?_⟩
  · rw [hi] at hv
    cases ha.answers h v hv hn with
    | follow hm hf hk => exact .follow (stays hm) hf (hk.mono he hj)
    | task hm hk => exact .task (stays hm) hk
    | held hm hp =>
      rcases hheld _ hm with hm | ⟨r, hm⟩
      · exact .held hm hp
      · refine .task (hag ▸ List.mem_append_left s.agenda hm) ?_
        rw [hp]
        exact beq_self_eq_true _
    | expansion hx ho => exact .expansion (hex ▸ hx) ho
  · rw [hex] at hx
    cases ha.pairs e x i hx ho hs with
    | expand hm => exact .expand (stays hm)
    | settle hm => exact .settle (stays hm)
    | sides ha hn hj ho => exact .sides ha hn hj ho
  · rw [hag] at hm
    rw [hex]
    exact ha.begun e i ((List.mem_append.1 hm).resolve_left (hks e i))
  · rw [hi, hst, hex]
    exact ha.younger

theorem Attends.process (ha : Attends s P jobs) (ts : List Token) :
    Attends (s.process ts none).2 P (jobs ++ [ts]) :=
  ha.mono (Act.process ts none).extends (List.prefix_append _ _)
    [.stream ts (none.getD s.options) none none (.job s.jobs)] rfl
    (fun _ _ h => by cases List.mem_singleton.1 h) rfl rfl rfl fun _ hp => Or.inl hp

theorem Attends.giveOut (ha : Attends s P jobs) {taken rest : List (String × Parked)}
    (hp : s.memory.held.Perm (taken ++ rest)) : Attends (s.giveOut taken rest) P jobs := by
  refine ha.mono (extends_giveOut s taken rest) (List.prefix_refl _) _ rfl (fun e i h => ?_) rfl
    rfl rfl fun p hm => ?_
  · obtain ⟨p, -, hp⟩ := List.mem_map.1 h
    cases hp
  · rcases List.mem_append.1 (hp.mem_iff.1 hm) with hm | hm
    · exact Or.inr ⟨p.2.answer, List.mem_map_of_mem hm⟩
    · exact Or.inl hm

/-- What is true of a session of stages whatever has been done. -/
structure Works (s : Session Desk) (P : Plan) (defer : Option String)
    (jobs : List (List Token)) : Prop where
  reachable : Reachable s
  flow : Flow s P defer jobs
  attends : Attends s P jobs

theorem works_pipeline (defer : Option String) (ids : IdSource) (o : Options)
    (stages : List (Rank × Stage)) :
    Works (pipeline defer ids o stages) (planOf o stages) defer [] := by
  obtain ⟨he, hr⟩ := blank_pipeline defer ids o stages
  refine ⟨⟨ids, o, {}, hr⟩, ?_, ?_⟩
  · rw [he]
    exact ⟨rfl, rfl, rfl, fun _ h => absurd h List.not_mem_nil,
      fun _ _ h => absurd h getElem?_empty_ne_some, fun _ _ h => absurd h getElem?_empty_ne_some,
      fun _ _ h => absurd h getElem?_empty_ne_some, fun _ h => absurd h List.not_mem_nil,
      fun _ h => absurd h (Array.not_mem_empty _)⟩
  · rw [he]
    exact ⟨fun _ _ h => absurd h getElem?_empty_ne_some,
      fun _ _ _ h => absurd h getElem?_empty_ne_some, fun _ _ h => absurd h List.not_mem_nil,
      fun _ _ _ _ _ _ _ _ _ _ h => absurd h getElem?_empty_ne_some⟩

theorem Works.step (h : Works s P defer jobs) : Works s.step P defer jobs := by
  rcases step_eq s with ⟨-, he⟩ | ⟨s₀, task, he, hm⟩
  · rw [he]
    exact h
  · have hg := h.reachable.ledger
    have hl := h.reachable.lineage
    have hc := h.reachable.account
    have hf := h.flow
    have ha := h.attends
    rw [he] at hg hl hc hf ha
    exact ⟨h.reachable.reaches (.step .refl), hm.flow hl hc hf, hm.attends hg hl hf ha⟩

theorem Works.process (h : Works s P defer jobs) (ho : s.isOpen = true) (ts : List Token) :
    Works (s.process ts none).2 P defer (jobs ++ [ts]) :=
  ⟨h.reachable.reaches (.act .refl ho (.process ts none)), h.flow.process ts, h.attends.process ts⟩

theorem Works.giveOut (h : Works s P defer jobs) (ho : s.isOpen = true)
    {taken rest : List (String × Parked)} (hp : s.memory.held.Perm (taken ++ rest)) :
    Works (s.giveOut taken rest) P defer jobs :=
  ⟨h.reachable.reaches (reaches_giveOut ho _ _), h.flow.giveOut hp, h.attends.giveOut hp⟩

/-- **Whatever the schedule, everything has the worth it should** and somebody sees
to all that is open. -/
theorem Schedule.works {s₀ : Session Desk} (h₀ : Works s₀ P defer []) (h : Schedule s₀ jobs s) :
    Works s P defer jobs := by
  induction h with
  | start => exact h₀
  | step _ ih => exact ih.step
  | process ts _ ho ih => exact ih.process ho ts
  | answer _ ho hp ih => exact ih.giveOut ho hp

/-- A result that was reported for a job is what its tokens are worth. -/
theorem Works.meets (h : Works s P defer jobs) {j : Nat} {ts : List Token}
    (hj : jobs[j]? = some ts) {r : Outcome (List Token)} (hm : .finished j r ∈ s.events) :
    Meets P.look r (P.stream none ts) := by
  obtain ⟨k, q, he, F, ⟨ts', hts', rfl⟩, hr⟩ := h.flow.events _ hm
  obtain ⟨rfl, rfl⟩ := Event.finished.inj he
  obtain rfl := Option.some.inj (hj.symm.trans hts')
  exact hr

/-- When nothing is left to do and nothing is held back, each job has its result. -/
theorem Works.result (h : Works s P defer jobs) (hr : s.agenda = []) (hh : s.memory.held = [])
    {j : Nat} {ts : List Token} (hj : jobs[j]? = some ts) :
    s.reports j = 1 ∧ ∃ r, s.result? j = some r ∧ Meets P.look r (P.stream none ts) := by
  have hlt : j < s.jobs := h.flow.count ▸ (List.getElem?_eq_some_iff.1 hj).1
  have h1 := h.attends.reports h.reachable.ledger h.reachable.lineage h.reachable.account h.flow
    hr hh hlt
  obtain ⟨e, he, hends⟩ := Array.countP_pos_iff.1 (by rw [reports] at h1; omega :
    0 < s.events.countP (Event.ends j))
  obtain ⟨k, r, rfl, -⟩ := h.flow.events e he
  obtain rfl := Target.job.inj (eq_of_beq hends)
  exact ⟨h1, r, result?_of_reports h1 he, h.meets hj he⟩

end Invariants

/-! ### The same stream on its own -/

theorem finished_of_result? {s : Session Desk} {j : Nat} {r : Outcome (List Token)}
    (h : s.result? j = some r) : .finished j r ∈ s.events := by
  obtain ⟨e, he, hr⟩ := List.exists_of_findSome?_eq_some h
  cases e with
  | finished k q =>
    simp only [Option.ite_none_right_eq_some, Option.some.injEq] at hr
    obtain ⟨rfl, rfl⟩ := hr
    exact Array.mem_toList_iff.1 he
  | _ => cases hr

section Alone

variable {ids : IdSource} {o : Options} {stages : List (Rank × Stage)} {ts : List Token}

theorem meets_run {n : Nat} {out : List Token}
    (h : ((pipeline none ids o stages).run n ts).1 = .ok out) :
    Meets (planOf o stages).look (.ok out) ((planOf o stages).stream none ts) := by
  have hs : Schedule (pipeline none ids o stages) [ts]
      (((pipeline none ids o stages).process ts none).2.settle n) := by
    refine Schedule.settle (.process ts .start ?_) n
    rw [(blank_pipeline none ids o stages).1]
    rfl
  have hw := hs.works (works_pipeline none ids o stages)
  have hj : (pipeline none ids o stages).jobs = 0 := by
    rw [(blank_pipeline none ids o stages).1]
    rfl
  rw [fst_run, hj] at h
  cases hr : (((pipeline none ids o stages).process ts none).2.settle n).result? 0 with
  | none =>
    rw [hr] at h
    cases h
  | some r =>
    rw [hr] at h
    obtain rfl : r = .ok out := h
    exact hw.meets rfl (finished_of_result? hr)

theorem exists_run {d : Nat} {us : List Token} (h : (planOf o stages).stream none ts d = some us) :
    ∃ n out, ((pipeline none ids o stages).run n ts).1 = .ok out := by
  obtain ⟨he, -⟩ := blank_pipeline none ids o stages
  refine exists_run_of_worth (P := planOf o stages) (d := d + 1) ?_ ?_ ?_ h
  · rw [he]
    rfl
  · rw [he]
    rfl
  · rw [he]
    rfl

end Alone

/-! ### The outcome of a job -/

/-- **The outcome of a job depends on the schedule in its ids only.**  Take a pipeline
of stages whose tables hold their answers back, give it jobs at any time, and have
all answers that are held back given in any order, until none is left.  Then each
job has been reported exactly once; it is a success if and only if a run over its
tokens alone is one, on a pipeline of its own whose tables answer at once; and then
the tokens of both are the same but for the ids, and the same altogether where
templates are not wrapped. -/
theorem Schedule.outcome (ids' : IdSource) {name : String} {ids : IdSource} {o : Options}
    {stages : List (Rank × Stage)} {jobs : List (List Token)} {s : Session Desk}
    (h : Schedule (pipeline (some name) ids o stages) jobs s) (hr : s.agenda = [])
    (hh : s.memory.held = []) {j : Nat} {ts : List Token} (hj : jobs[j]? = some ts) :
    s.reports j = 1 ∧ ∃ r, s.result? j = some r ∧
      ((∃ out, r = .ok out) ↔ ∃ n out, ((pipeline none ids' o stages).run n ts).1 = .ok out) ∧
      ∀ n out out', r = .ok out → ((pipeline none ids' o stages).run n ts).1 = .ok out' →
        out.map Token.mask = out'.map Token.mask ∧ (o.wrapTemplates = false → out = out') := by
  obtain ⟨h1, r, hres, hm⟩ := (h.works (works_pipeline _ ids o stages)).result hr hh hj
  refine ⟨h1, r, hres, ⟨?_, ?_⟩, ?_⟩
  · rintro ⟨out, rfl⟩
    obtain ⟨d, hd⟩ := hm.exists
    obtain ⟨us, hus, -⟩ := Option.map_eq_some_iff.1 hd.symm
    exact exists_run hus
  · rintro ⟨n, out, hrun⟩
    have := hm.unique (meets_run hrun)
    cases r with
    | ok out => exact ⟨out, rfl⟩
    | error e => cases this
  · rintro n out out' rfl hrun
    have heq : out.map (planOf o stages).look = out'.map (planOf o stages).look :=
      Option.some.inj (hm.unique (meets_run hrun))
    simp only [Plan.look, planOf] at heq
    cases hw : o.wrapTemplates with
    | true =>
      rw [hw] at heq
      exact ⟨heq, nofun⟩
    | false =>
      rw [hw, Token.view_false, List.map_id, List.map_id] at heq
      exact ⟨congrArg _ heq, fun _ => heq⟩

def pageStages : List (Rank × Stage) :=
  [(.attributes, .expander), (.templates, .table ⟨[("page", "Main")]⟩)]

def pageTag : Token :=
  .selfClosing ⟨"template", [newAttribute (.text "target") (.text "page")], {}⟩

def pageLink : Token :=
  .selfClosing ⟨"a", [newAttribute (.text "href") (.tokens [pageTag])], {}⟩

/-- Two jobs, each waiting for the template. -/
def pageWaiting : Session Desk :=
  ((((pipeline (some "page") {} {} pageStages).process [pageLink] none).2.settle 20).process
    [pageTag] none).2.settle 20

def pageAnswered : Session Desk := (pageWaiting.flush "page" true).settle 300

theorem outcome_pageLink :
    pageAnswered.reports 0 = 1 ∧ ∃ out n out', pageAnswered.result? 0 = some (.ok out) ∧
      ((pipeline none {} {} pageStages).run n [pageLink]).1 = .ok out' ∧
      out.map Token.mask = out'.map Token.mask := by
  have hwait : Schedule (pipeline (some "page") {} {} pageStages) [[pageLink], [pageTag]]
      pageWaiting :=
    .settle (.process _ (.settle (.process _ .start rfl) 20) rfl) 20
  obtain ⟨taken, rest, hp, he⟩ := flush_eq_giveOut pageWaiting "page" true
  have h : Schedule (pipeline (some "page") {} {} pageStages) [[pageLink], [pageTag]]
      pageAnswered := by
    rw [pageAnswered, he]
    exact .settle (.answer hwait rfl hp) 300
  obtain ⟨h1, r, hr, hiff, hsame⟩ := Schedule.outcome {} h rfl rfl (j := 0) rfl
  obtain ⟨out', hrun⟩ :
      ∃ out', ((pipeline none {} {} pageStages).run 120 [pageLink]).1 = .ok out' := ⟨_, rfl⟩
  obtain ⟨out, rfl⟩ := hiff.2 ⟨120, out', hrun⟩
  exact ⟨h1, out, 120, out', hr, hrun, (hsame 120 out out' rfl hrun).1⟩

end Session

end WikiExpansion
