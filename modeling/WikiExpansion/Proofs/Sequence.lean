import WikiExpansion.Proofs.Completion

/-!
# One stream after another

A pipeline of workers has no memory but its ids.  To process two streams as one is
to process the first and then, from the ids that are left, the second, also where
the first fails (`Rested.process_append`).  So to process a stream is to dispatch its
tokens one after the other.

The work on a stream goes through its tokens in order and does not stop at a failure
(`streamWork_append`), and whoever enters a job, the work on its tokens is what comes
of it (`Rested.closes`).
-/

namespace WikiExpansion

/-- Two results one after the other: the tokens of both, or the first failure. -/
def Outcome.append : Outcome (List Token) → Outcome (List Token) → Outcome (List Token)
  | .ok us, .ok vs => .ok (us ++ vs)
  | .ok _, .error e => .error e
  | .error e, _ => .error e

/-! ### Work in sequence -/

section Work

variable {α β : Type} {f : α → Work β} {h : Token → Work (List Token)}

/-- The work on two lists together is that on the first, and then that on the second
with the ids that are left. -/
theorem sweep_append (as bs : List α) (i : IdSource) :
    sweep f (as ++ bs) i =
      ((sweep f as i).1.bind fun xs => (sweep f bs (sweep f as i).2).1.map (xs ++ ·),
        (sweep f bs (sweep f as i).2).2) := by
  induction as generalizing i with
  | nil =>
    refine Prod.ext ?_ rfl
    change (sweep f bs i).1 = (sweep f bs i).1.map fun ys => [] ++ ys
    cases (sweep f bs i).1 <;> rfl
  | cons a as ih =>
    cases hr : (f a i).1 with
    | error e => rw [List.cons_append, sweep_cons_error hr, sweep_cons_error hr, ih]; rfl
    | ok b =>
      rw [List.cons_append, sweep_cons_ok hr, sweep_cons_ok hr, ih]
      refine Prod.ext ?_ rfl
      -- what came of the first list is put before what comes of the second
      cases (sweep f as (f a i).2).1 with
      | error e => rfl
      | ok xs => cases (sweep f bs (sweep f as (f a i).2).2).1 <;> rfl

theorem streamWork_append (as bs : List Token) (i : IdSource) :
    streamWork h (as ++ bs) i =
      ((streamWork h as i).1.append (streamWork h bs (streamWork h as i).2).1,
        (streamWork h bs (streamWork h as i).2).2) := by
  simp only [streamWork, sweep_append]
  refine Prod.ext ?_ rfl
  cases (sweep h as i).1 with
  | error e => rfl
  | ok xs =>
    cases (sweep h bs (sweep h as i).2).1 with
    | error e => rfl
    | ok ys => exact congrArg Except.ok List.flatten_append

theorem streamWork_singleton (t : Token) (i : IdSource) : streamWork h [t] i = h t i := by
  cases hr : (h t i).1 with
  | error e =>
    rw [streamWork, sweep_cons_error hr]
    exact Prod.ext hr.symm rfl
  | ok us =>
    rw [streamWork, sweep_cons_ok hr]
    exact Prod.ext ((congrArg Except.ok (List.append_nil us)).trans hr.symm) rfl

theorem streamWork_cons (t : Token) (ts : List Token) (i : IdSource) :
    streamWork h (t :: ts) i =
      ((h t i).1.append (streamWork h ts (h t i).2).1, (streamWork h ts (h t i).2).2) := by
  have happend := streamWork_append (h := h) [t] ts i
  rwa [streamWork_singleton] at happend

end Work

namespace Session

variable {σ : Type} {s t u : Session σ} {g : Registry Worker}

/-! ### The end of a job -/

/-- The job that was entered is over: nothing is left to do, and the result is what
was reported for it. -/
structure Ends (entered : Nat × Session σ) (r : Outcome (List Token)) (t : Session σ) : Prop where
  runs : Runs entered.2 t
  agenda : t.agenda = []
  result : t.result? entered.1 = some r

theorem Ends.unique {entered : Nat × Session σ} {r q : Outcome (List Token)}
    (h : Ends entered r t) (k : Ends entered q u) : r = q ∧ t = u := by
  obtain ⟨m, hm⟩ := h.runs
  obtain ⟨n, hn⟩ := k.runs
  have heq : t = u := by
    rcases Nat.le_total m n with hle | hle
    · rw [← hm, ← settle_of_le (hm ▸ h.agenda) hle, hn]
    · rw [← hn, ← settle_of_le (hn ▸ k.agenda) hle, hm]
  refine ⟨?_, heq⟩
  have hr := h.result
  rw [heq, k.result] at hr
  exact (Option.some.inj hr).symm

/-- The job is over, with what some work comes to, and leaves a session of the same
workers with the ids that the work leaves. -/
structure Closes (g : Registry Worker) (s : Session σ) (entered : Nat × Session σ)
    (w : Outcome (List Token) × IdSource) (t : Session σ) : Prop where
  ends : Ends entered w.1 t
  rested : t.Rested g
  ids : t.ids = w.2
  options : t.options = s.options

theorem Rested.closes (h : s.Rested g) {task : Task σ} {w : Outcome (List Token) × IdSource}
    (hp : Produces s.newJob.2 s.newJob.2 [task] (.deliver (.job s.jobs)) w Any) :
    ∃ t, Closes g s (s.jobs, s.newJob.2.push [task]) w t := by
  obtain ⟨m, t, hm, hrested, hids, hoptions, hevents⟩ := h.settles hp
  exact ⟨t, ⟨⟨m, hm⟩, hrested.agenda, h.result? hevents⟩, hrested, hids, hoptions⟩

theorem Rested.closes_process (h : s.Rested g) (hg : g.Ordered) {n : Nat} {ts : List Token}
    (hts : ∀ t ∈ ts, t.Shallow n) (o : Option Options) :
    ∃ t, Closes g s (s.process ts o) (g.work (n + 1) (o.getD s.options) ts s.ids) t :=
  h.closes (produces_process h.employs hg hts (o.getD s.options))

theorem Rested.closes_dispatch (h : s.Rested g) (hg : g.Ordered) {n : Nat} {a : Token}
    (ha : a.Shallow n) :
    ∃ t, Closes g s (s.dispatch a) (tokenWork s.options (g.work n) g.entries a s.ids) t := by
  have hoffers := offersProduce (σ := σ) hg (runsProduce hg n) s.options none
  rw [Registry.after_none] at hoffers
  exact h.closes (hoffers s.newJob.2 a (.job s.jobs) h.employs ha)

/-! ### Streams in sequence -/

/-- Tokens are dispatched one after the other, each when the one before it is over;
the results are put together. -/
inductive Dispatched : Session σ → List Token → Outcome (List Token) → Session σ → Prop
  | nil (s : Session σ) : Dispatched s [] (.ok []) s
  | cons {s t u : Session σ} {a : Token} {as : List Token} {r rs : Outcome (List Token)} :
      Ends (s.dispatch a) r t → Dispatched t as rs u → Dispatched s (a :: as) (r.append rs) u

/-- Dispatching tokens one after the other does the work on their stream. -/
theorem Rested.exists_dispatched (h : s.Rested g) (hg : g.Ordered) {n : Nat} {ts : List Token}
    (hts : ∀ t ∈ ts, t.Shallow n) :
    ∃ u, Dispatched s ts (g.work (n + 1) s.options ts s.ids).1 u ∧
      u.ids = (g.work (n + 1) s.options ts s.ids).2 := by
  induction ts generalizing s with
  | nil => exact ⟨s, .nil s, rfl⟩
  | cons a ts ih =>
    obtain ⟨t, ht⟩ := h.closes_dispatch hg (hts a List.mem_cons_self)
    obtain ⟨u, hu, hids⟩ := ih ht.rested fun b hb => hts b (List.mem_cons_of_mem a hb)
    rw [ht.options, ht.ids] at hu hids
    refine ⟨u, ?_, ?_⟩
    · rw [Registry.work, streamWork_cons]
      exact .cons ht.ends hu
    · rw [Registry.work, streamWork_cons]
      exact hids

/-- **Two streams are processed one after the other as they are together**, from any
ids and with any options of the runs: the ids that are left are the same, and the
result is put together of both, with the first failure where one of them fails.  So
it makes no difference whether a token is processed or dispatched, and to process a
stream is to dispatch its tokens one after the other. -/
theorem Rested.process_append {ws : List (Rank × Worker)} (h : s.Rested (crewOf ws))
    (o : Option Options) (as bs : List Token) :
    (∃ ra rb t u v, Ends (s.process as o) ra t ∧ Ends (t.process bs o) rb u ∧
      Ends (s.process (as ++ bs) o) (ra.append rb) v ∧ v.ids = u.ids) ∧
    (∀ a, ∃ r t u, Ends (s.process [a] none) r t ∧ Ends (s.dispatch a) r u ∧ t.ids = u.ids) ∧
    ∃ r t u, Ends (s.process as none) r t ∧ Dispatched s as r u ∧ t.ids = u.ids := by
  have hg := ordered_crewOf ws
  refine ⟨?_, fun a => ?_, ?_⟩
  · obtain ⟨n, hn⟩ := Token.exists_shallow (as ++ bs)
    have has : ∀ t ∈ as, t.Shallow n := fun t ht => hn t (List.mem_append_left bs ht)
    have hbs : ∀ t ∈ bs, t.Shallow n := fun t ht => hn t (List.mem_append_right as ht)
    obtain ⟨t, ht⟩ := h.closes_process hg has o
    obtain ⟨u, hu⟩ := ht.rested.closes_process hg hbs o
    obtain ⟨v, hv⟩ := h.closes_process hg hn o
    rw [ht.options, ht.ids] at hu
    rw [Registry.work, streamWork_append] at hv
    exact ⟨_, _, t, u, v, ht.ends, hu.ends, hv.ends, hv.ids.trans hu.ids.symm⟩
  · obtain ⟨n, hn⟩ := Token.exists_shallow [a]
    obtain ⟨t, ht⟩ := h.closes_process hg hn none
    obtain ⟨u, hu⟩ := h.closes_dispatch hg (hn a List.mem_cons_self)
    rw [Registry.work, streamWork_singleton] at ht
    exact ⟨_, t, u, ht.ends, hu.ends, ht.ids.trans hu.ids.symm⟩
  · obtain ⟨n, hn⟩ := Token.exists_shallow as
    obtain ⟨t, ht⟩ := h.closes_process hg hn none
    obtain ⟨u, hu, hids⟩ := h.exists_dispatched hg hn
    exact ⟨_, t, u, ht.ends, hu, ht.ids.trans hids.symm⟩

def linkTo (names : List String) : Token :=
  .selfClosing ⟨"a", [newAttribute (.text "href") (.tokens (names.map fun name =>
    .selfClosing ⟨"template", [newAttribute (.text "target") (.text name)], {}⟩))], {}⟩

def linkWorkers : List (Rank × Worker) :=
  [(.attributes, .expander {}), (.templates, .table ⟨[("page", "Main")]⟩)]

def linkStart : Session Unit := ofWorkers {} {} () linkWorkers

def linkFailed : Session Unit :=
  (linkStart.process [linkTo ["page", "none"]] none).2.settle 200

def linkDone : Session Unit := (linkFailed.process [linkTo ["page"]] none).2.settle 200

theorem process_append_failing :
    ∃ e r v, Ends (linkStart.process [linkTo ["page", "none"]] none) (.error e) linkFailed ∧
      Ends (linkFailed.process [linkTo ["page"]] none) r linkDone ∧
      Ends (linkStart.process [linkTo ["page", "none"], linkTo ["page"]] none) (.error e) v ∧
      linkFailed.ids.next = 2 ∧ v.ids.next = 4 := by
  obtain ⟨ra, rb, t, u, v, ht, hu, hv, hids⟩ :=
    (Rested.process_append (rested_ofWorkers {} {} () linkWorkers) none
      [linkTo ["page", "none"]] [linkTo ["page"]]).1
  have hfailed : ∃ e, Ends (linkStart.process [linkTo ["page", "none"]] none) (.error e)
      linkFailed := ⟨_, ⟨200, rfl⟩, rfl, rfl⟩
  have hdone : ∃ r, Ends (linkFailed.process [linkTo ["page"]] none) r linkDone :=
    ⟨_, ⟨200, rfl⟩, rfl, rfl⟩
  obtain ⟨e, hfailed⟩ := hfailed
  obtain ⟨r, hdone⟩ := hdone
  obtain ⟨rfl, rfl⟩ := ht.unique hfailed
  obtain ⟨rfl, rfl⟩ := hu.unique hdone
  have hnext : linkDone.ids.next = 4 := rfl
  exact ⟨e, _, v, hfailed, hdone, hv, rfl, hids ▸ hnext⟩

end Session

end WikiExpansion
