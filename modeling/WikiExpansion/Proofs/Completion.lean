import WikiExpansion.Proofs.Working

/-!
# Every run is over

A pipeline of workers, any number of them at any ranks, is over with a run after
finitely many steps: nothing is left to do, the completion of the run has fired,
once, and its result is a stream or the failure of a handler, never that something
is incomplete (`run_completes`).  That holds of a new pipeline and of one that has
been used before (`Serves`).

The result is that of the work on the stream, and so are the ids that are left
(`Rested.run`).
-/

namespace WikiExpansion

/-! ### Pipelines of workers -/

namespace Worker

def name : Worker → String
  | expander _ => expanderName
  | table _ => TemplateTable.handlerName

def filter : Worker → Filter
  | expander _ => .any
  | table _ => .only .selfClosing

def enlist {σ : Type} (s : Session σ) (rank : Rank) : Worker → Session σ
  | expander o => s.registerExpander o rank
  | table t => TemplateTable.register s rank t.immediate

theorem enlist_eq {σ : Type} (s : Session σ) (rank : Rank) (w : Worker) :
    w.enlist s rank = s.register w.name rank w.filter w.handler := by
  cases w <;> rfl

end Worker

/-- The registry of some workers at their ranks, in the order of registration. -/
def crewOf (ws : List (Rank × Worker)) : Registry Worker :=
  ws.foldl (fun g w => g.register w.2.name w.1 w.2.filter w.2) {}

theorem ordered_crewOf (ws : List (Rank × Worker)) : (crewOf ws).Ordered := by
  unfold crewOf
  refine List.foldlRecOn ws _ Registry.ordered_empty fun g hg w _ => ?_
  exact hg.register _ _ _ _

/-! ### Failures -/

section Failures

variable {α β : Type} {f : α → Work β}

/-- A failure of the work on some items is that of one of them. -/
theorem exists_of_sweep_error {as : List α} {i : IdSource} {e : ExpansionError}
    (h : (sweep f as i).1 = .error e) : ∃ a ∈ as, ∃ j, (f a j).1 = .error e := by
  induction as generalizing i with
  | nil => cases h
  | cons a as ih =>
    cases hr : (f a i).1 with
    | error c =>
      rw [sweep_cons_error hr] at h
      obtain rfl := Except.error.inj h
      exact ⟨a, List.mem_cons_self, i, hr⟩
    | ok b =>
      rw [sweep_cons_ok hr] at h
      cases hrs : (sweep f as (f a i).2).1 with
      | ok bs =>
        rw [hrs] at h
        cases h
      | error c =>
        rw [hrs] at h
        obtain rfl := Except.error.inj h
        obtain ⟨a', ha', j, hj⟩ := ih hrs
        exact ⟨a', List.mem_cons_of_mem _ ha', j, hj⟩

theorem exists_of_streamWork_error {f : Token → Work (List Token)} {ts : List Token} {i : IdSource}
    {e : ExpansionError} (h : (streamWork f ts i).1 = .error e) :
    ∃ t ∈ ts, ∃ j, (f t j).1 = .error e := by
  rw [streamWork] at h
  cases hr : (sweep f ts i).1 with
  | ok vs =>
    rw [hr] at h
    cases h
  | error c =>
    rw [hr] at h
    obtain rfl := Except.error.inj h
    exact exists_of_sweep_error hr

end Failures

section Incomplete

variable {run : Options} {nested : Options → List Token → Work (List Token)}

theorem tagWork_ne_incomplete (o : Options) (nested : List Token → Work (List Token)) (t : Token)
    (as : List (Attribute Token)) (i : IdSource) :
    (tagWork o nested t as i).1 ≠ .error .incomplete := by
  unfold tagWork
  split
  · rename_i hs j _
    have hr := returns o j t hs
    generalize returnAttributes o j t hs = r at hr ⊢
    cases hr <;> exact fun h => by cases h
  · unfold Session.tokenFailure
    split <;> exact fun h => by cases h

theorem Worker.work_ne_incomplete (w : Worker) (t : Token) (i : IdSource) :
    (w.work run nested t i).1 ≠ .error .incomplete := by
  cases w with
  | expander o =>
    rw [work]
    split
    · split
      · exact fun h => by cases h
      · exact tagWork_ne_incomplete _ _ _ _ _
    · exact fun h => by cases h
  | table b =>
    rw [work]
    split
    · split
      · split <;> exact fun h => by cases h
      · exact fun h => by cases h
    · exact fun h => by cases h

theorem tokenWork_ne_incomplete (rs : List (Registration Worker)) (t : Token) (i : IdSource) :
    (tokenWork run nested rs t i).1 ≠ .error .incomplete := by
  induction rs generalizing t i with
  | nil => exact fun h => by cases h
  | cons r rs ih =>
    rw [tokenWork]
    split
    · have hworker : (r.handler.work run nested t i).1 ≠ .error .incomplete :=
        r.handler.work_ne_incomplete t i
      generalize r.handler.work run nested t i = w at hworker
      obtain ⟨res, j⟩ := w
      cases res with
      | error e => exact hworker
      | ok us =>
        intro h
        obtain ⟨u, -, k, hu⟩ := exists_of_streamWork_error h
        exact ih u k hu
    · exact ih t i

/-- **Work that goes deep enough is complete.** -/
theorem work_ne_incomplete (g : Registry Worker) (n : Nat) (ts : List Token) (i : IdSource) :
    (g.work (n + 1) run ts i).1 ≠ .error .incomplete := by
  intro h
  obtain ⟨t, -, j, ht⟩ := exists_of_streamWork_error h
  exact tokenWork_ne_incomplete g.entries t j ht

end Incomplete

namespace Session

variable {σ : Type} {s : Session σ} {g : Registry Worker}

/-! ### Runs -/

def ofWorkers (ids : IdSource) (o : Options) (m : σ) (ws : List (Rank × Worker)) : Session σ :=
  ws.foldl (fun s w => w.2.enlist s w.1) (Session.new ids o m)

theorem ofWorkers_eq (ids : IdSource) (o : Options) (m : σ) (ws : List (Rank × Worker)) :
    ofWorkers ids o m ws =
      { Session.new ids o m with registry := (crewOf ws).map Worker.handler } := by
  have (h : Registry Worker) : ws.foldl (fun s w => w.2.enlist s w.1)
      { Session.new ids o m with registry := h.map Worker.handler } =
      { Session.new ids o m with registry := (ws.foldl
        (fun g w => g.register w.2.name w.1 w.2.filter w.2) h).map Worker.handler } := by
    induction ws generalizing h with
    | nil => rfl
    | cons w ws ih =>
      rw [List.foldl_cons, List.foldl_cons, ← ih, Registry.map_register, Worker.enlist_eq]
      rfl
  exact this {}

/-- A session of workers that has nothing to do, and has reported the ends of old jobs
only. -/
structure Rested (g : Registry Worker) (s : Session σ) : Prop where
  employs : s.Employs g
  agenda : s.agenda = []
  old : ∀ n r, Event.finished n r ∈ s.events → n < s.jobs

theorem rested_ofWorkers (ids : IdSource) (o : Options) (m : σ) (ws : List (Rank × Worker)) :
    (ofWorkers ids o m ws).Rested (crewOf ws) := by
  rw [ofWorkers_eq]
  exact ⟨rfl, rfl, fun n r h => absurd h (Array.not_mem_empty _)⟩

theorem Rested.result? (h : s.Rested g) {t : Session σ} {r : Outcome (List Token)}
    (ht : t.events = s.events.push (.finished s.jobs r)) : t.result? s.jobs = some r := by
  have hold : s.result? s.jobs = none := by
    rw [Session.result?]
    refine List.findSome?_eq_none_iff.2 fun e he => ?_
    cases e with
    | finished n r =>
      have := h.old n r (Array.mem_toList_iff.1 he)
      exact if_neg (by omega)
    | _ => rfl
  rw [Session.result?] at hold ⊢
  rw [ht, Array.toList_push, List.findSome?_append, hold, Option.none_or]
  simp only [List.findSome?_cons, if_true]

/-- A job leads to a session that has nothing to do and has reported what the work of
its first task comes to. -/
theorem Rested.settles (h : s.Rested g) {task : Task σ} {w : Outcome (List Token) × IdSource}
    (hp : Produces s.newJob.2 s.newJob.2 [task] (.deliver (.job s.jobs)) w Any) :
    ∃ m u, (s.newJob.2.push [task]).settle m = u ∧ u.Rested g ∧ u.ids = w.2 ∧
      u.options = s.options ∧ u.events = s.events.push (.finished s.jobs w.1) := by
  obtain ⟨t, rest, ht, -, hr, hf, -⟩ := hp
  -- the result is reported, and what is left behind it fades
  obtain ⟨u, hu, hids, hru⟩ := hf (t.report (.finished s.jobs w.1)) (retains_of_eq rfl rfl rfl) rfl
  have hreport : Runs (t.push (.deliver (.job s.jobs) w.1 :: rest))
      ((t.report (.finished s.jobs w.1)).push rest) := .of_step ⟨0, rfl⟩
  have hidle : Idle u.agenda := by
    obtain ⟨ks, hks, htk⟩ := ht.agenda
    obtain ⟨ls, hls, hul⟩ := hu.agenda
    rw [hul, show (t.report (.finished s.jobs w.1)).agenda = ks ++ s.agenda from htk, h.agenda,
      List.append_nil]
    exact hls.append hks
  obtain ⟨m, hm⟩ := hr.trans (hreport.trans (hru.trans (runs_of_idle hidle)))
  have hevents : u.events = s.events.push (.finished s.jobs w.1) := by
    rw [hu.events, events_report, ht.events]
    rfl
  have hjobs : s.jobs < u.jobs := by
    have hext := (Reaches.settle (.refl (s := s.newJob.2.push [task])) m).extends.jobs
    rw [hm] at hext
    exact hext
  refine ⟨m, u.setAgenda [], hm,
    ⟨hu.retains.employs (ht.employs h.employs), rfl, fun n r hn => ?_⟩, hids,
    hu.options.trans ht.options, hevents⟩
  rcases Array.mem_push.1 (hevents ▸ hn) with hn | hn
  · exact Nat.lt_trans (h.old n r hn) hjobs
  · cases hn
    exact hjobs

theorem produces_process (hs : s.Employs g) (hg : g.Ordered) {n : Nat} {ts : List Token}
    (hts : ∀ t ∈ ts, t.Shallow n) (o : Options) :
    Produces s.newJob.2 s.newJob.2 [.stream ts o none none (.job s.jobs)] (.deliver (.job s.jobs))
      (g.work (n + 1) o ts s.ids) Any :=
  runsProduce hg (n + 1) o s.newJob.2 ts (.job s.jobs) hs ⟨n, rfl, hts⟩

/-- **A run of a session of workers is over with what the work on its stream comes
to.** -/
theorem Rested.run (h : s.Rested g) (hg : g.Ordered) {n : Nat} {ts : List Token}
    (hts : ∀ t ∈ ts, t.Shallow n) :
    ∃ m, ∀ k, m ≤ k → (s.run k ts).1 = (g.work (n + 1) s.options ts s.ids).1 ∧
      (s.run k ts).2.ids = (g.work (n + 1) s.options ts s.ids).2 ∧
      (s.run k ts).2.options = s.options ∧
      (s.run k ts).2.events =
        s.events.push (.finished s.jobs (g.work (n + 1) s.options ts s.ids).1) ∧
      (s.run k ts).2.Rested g := by
  obtain ⟨m, u, hm, hrested, hids, hoptions, hevents⟩ :=
    h.settles (produces_process h.employs hg hts s.options)
  have hm : (s.process ts none).2.settle m = u := hm
  refine ⟨m, fun k hk => ?_⟩
  have hend : (s.process ts none).2.settle k = u :=
    (settle_of_le (hm ▸ hrested.agenda) hk).trans hm
  have hsnd : (s.run k ts).2 = u := hend
  refine ⟨?_, hsnd ▸ hids, hsnd ▸ hoptions, hsnd ▸ hevents, hsnd ▸ hrested⟩
  rw [fst_run, hend, h.result? hevents]
  rfl

/-- The session is a pipeline of the workers, new or after some runs that are over. -/
inductive Serves (ws : List (Rank × Worker)) : Session σ → Prop
  | new (ids : IdSource) (o : Options) (m : σ) : Serves ws (ofWorkers ids o m ws)
  | run {s : Session σ} (h : Serves ws s) (k : Nat) (ts : List Token)
      (ended : (s.run k ts).2.agenda = []) : Serves ws (s.run k ts).2

theorem Serves.rested {ws : List (Rank × Worker)} (h : Serves ws s) : s.Rested (crewOf ws) := by
  induction h with
  | new ids o m => exact rested_ofWorkers ids o m ws
  | @run s h k ts ended ih =>
    obtain ⟨n, hn⟩ := Token.exists_shallow ts
    obtain ⟨m, hm⟩ := ih.run (ordered_crewOf ws) hn
    -- a run that is over is not changed by more steps
    have hsame : (s.run (k + m) ts).2 = (s.run k ts).2 := settle_of_le ended (by omega)
    rw [← hsame]
    exact (hm (k + m) (by omega)).2.2.2.2

/-- **Every run of a pipeline of workers is over** after some number of steps, however
deep the tokens nest: nothing is left to do, its completion has fired once, with a
result that is not incomplete. -/
theorem run_completes {ws : List (Rank × Worker)} (h : Serves ws s) (ts : List Token) :
    ∃ n, ∀ k, n ≤ k → (s.run k ts).2.agenda = [] ∧
      (s.run k ts).2.events = s.events.push (.finished s.jobs (s.run k ts).1) ∧
      (s.run k ts).2.result? s.jobs = some (s.run k ts).1 ∧
      (s.run k ts).1 ≠ .error .incomplete := by
  obtain ⟨n, hn⟩ := Token.exists_shallow ts
  obtain ⟨m, hm⟩ := h.rested.run (ordered_crewOf ws) hn
  refine ⟨m, fun k hk => ?_⟩
  obtain ⟨hresult, -, -, hevents, hrested⟩ := hm k hk
  rw [← hresult] at hevents
  refine ⟨hrested.agenda, hevents, h.rested.result? hevents, ?_⟩
  rw [hresult]
  exact work_ne_incomplete _ n ts s.ids

/-- Two expanders with a table between them, and a tag of which a value nests a tag
that nests a template. -/
theorem run_completes_nested :
    let s : Session Unit := ofWorkers {} {} () [(.attributes, .expander {}),
      (.templates, .table ⟨[("page", "Main")]⟩), (.attributes, .expander ⟨false⟩)]
    let template : Token :=
      .selfClosing ⟨"template", [newAttribute (.text "target") (.text "page")], {}⟩
    let inner : Token := .selfClosing ⟨"i", [newAttribute (.text "title") (.tokens [template])], {}⟩
    let link : Token := .opening ⟨"a", [newAttribute (.text "href") (.tokens [inner])], {}⟩
    ∃ n, ∀ k, n ≤ k → (s.run k [link]).2.agenda = [] ∧ (s.run k [link]).1 ≠ .error .incomplete := by
  intro s template inner link
  have hs : Serves [(.attributes, .expander {}), (.templates, .table ⟨[("page", "Main")]⟩),
      (.attributes, .expander ⟨false⟩)] s := .new {} {} ()
  obtain ⟨n, hn⟩ := run_completes hs [link]
  exact ⟨n, fun k hk => ⟨(hn k hk).1, (hn k hk).2.2.2⟩⟩

end Session

end WikiExpansion
