import WikiExpansion.Handler.Stock
import WikiExpansion.Proofs.Root

/-!
# The verdict on a run

`Verdict` says what becomes of a run, whatever the handlers do and in whatever
order they answer: its result is handed over once; it is a success only after all
invocations of the run have succeeded, and then it is what the tokens have
become; it is a failure as soon as the first invocation of the run fails
(`FirstFailure`), with that failure; and when nothing is left to do and all are
answered, it has been handed over.

The main theorem is `Begins.verdict`.
-/

namespace WikiExpansion

namespace Session

variable {σ : Type}

/-- The next thing that happens is that an invocation of the run fails, and it is
the first one. -/
structure FirstFailure (s : Session σ) (root : Target) (h : Handle) (e : ExpansionError)
    (rest : List (Task σ)) : Prop where
  agenda : s.agenda = .deliver (.handle h) (.error e) :: rest
  unanswered : s.isAnswered h = false
  inRun : s.InRun root h
  first : ∀ k, s.InRun root k → ∀ e', s.answer? k ≠ some (.error e')

/-- What becomes of a run of `ts` that has begun in `p`. -/
structure Verdict (p : Session σ) (ts : List Token) (root : Target) : Prop where
  once : ∀ {t u r q}, Reaches p t → t.Fires root r → Reaches t.step u → ¬ u.Fires root q
  success : ∀ {t out}, Reaches p t → t.Fires root (.ok out) →
    (∀ h, t.InRun root h → ∃ ys, t.answer? h = some (.ok ys)) ∧ t.Yields root ts out
  /-- A failure is that of the invocation that failed first. -/
  failure : ∀ {t e}, Reaches p t → t.Fires root (.error e) →
    ∃ u h rest, Reaches p u ∧ u.FirstFailure root h e rest ∧ Reaches u t
  /-- That failure is handed over before anything else happens. -/
  promptly : ∀ {t h e rest}, Reaches p t → t.FirstFailure root h e rest →
    ∃ n, (t.settle n).agenda = .deliver root (.error e) :: rest ∧ (t.settle n).events = t.events
  answered : ∀ {t u h r rest}, Reaches p t → t.agenda = .deliver (.handle h) r :: rest →
    t.isAnswered h = false → Reaches t.step u → u.answer? h = some r
  ignored : ∀ {t h r rest}, Reaches p t → t.agenda = .deliver (.handle h) r :: rest →
    t.isAnswered h = true → t.step = { t with agenda := rest }
  concluded : ∀ {t}, Reaches p t → t.agenda = [] → (∀ h, t.InRun root h → t.isAnswered h = true) →
    ∃ u r, Reaches p u ∧ u.Fires root r ∧ Reaches u.step t
  reported : ∀ {j t u r}, root = .job j → Reaches p t → t.Fires root r → Reaches t.step u →
    u.reports j = 1 ∧ u.result? j = some r

/-! ### A failure -/

theorem FirstFailure.not_fails {t : Session σ} {root : Target} {h : Handle} {e : ExpansionError}
    {rest : List (Task σ)} (hf : t.FirstFailure root h e rest) : ¬ t.Fails root := by
  intro hr
  obtain ⟨k, e', hk, ha⟩ := fails_iff.1 hr
  exact hf.first k hk e' ha

/-- **The first failure of a run is handed over at once.** -/
theorem FirstFailure.promptly {t : Session σ} (hg : Ledger t) (hl : Lineage t) (ha : Account t)
    {root : Target} {h : Handle} {e : ExpansionError} {rest : List (Task σ)}
    (hf : t.FirstFailure root h e rest) :
    ∃ u, Carries t.step u ∧ u.agenda = .deliver root (.error e) :: rest ∧
      u.events = t.events := by
  obtain ⟨v, hv, hle⟩ := hf.inRun
  obtain ⟨w, hw, hn⟩ := isAnswered_eq_false_iff.1 hf.unanswered
  obtain rfl := Option.some.inj (hv.symm.trans hw)
  have hpos : 0 < t.invocations.countP (Invocation.owes v.target) := by
    refine Array.countP_pos_iff.2 ⟨v, Array.mem_of_getElem? hv, ?_⟩
    simp [Invocation.owes, hn]
  have ho : t.OpenTo root v.target :=
    openTo_of_debt hg hl ha hle hf.not_fails (by unfold debt; omega)
  have hstep : t.step = (({ t with agenda := rest } : Session σ).setAnswer h v (.error e)).push
      [.deliver v.target (.error e)] := step_of_move hf.agenda (.failed hv hn)
  rw [hstep]
  refine climb (ho.of_eq ?_) e
  rfl

theorem exists_firstFailure {p t : Session σ} (hp : Reachable p) (ht : Reaches p t)
    {root : Target} (hn : ¬ p.Fails root) (hf : t.Fails root) :
    ∃ u h e rest, Reaches p u ∧ u.FirstFailure root h e rest ∧ Reaches u.step t := by
  induction ht with
  | refl => exact absurd hf hn
  | @step t ht ih =>
    by_cases hft : t.Fails root
    · obtain ⟨u, h, e, rest, hu, hff, hr⟩ := ih hft
      exact ⟨u, h, e, rest, hu, hff, .step hr⟩
    · rcases step_eq t with ⟨-, he⟩ | ⟨s₀, task, he, hm⟩
      · rw [he] at hf
        exact absurd hf hft
      · have hl := (hp.reaches ht).lineage
        have hns : ¬ s₀.Fails root := fun h => hft (he ▸ h.mono (.push s₀ [task]))
        rcases hm.fails_cases (he ▸ hl) hf with h | ⟨k, e, v, rfl, hv, hv', hle⟩
        · exact absurd h hns
        · refine ⟨t, k, e, s₀.agenda, ht, ⟨by rw [he]; rfl, ?_, ?_, fun k' hk e' hke => ?_⟩, .refl⟩
          · rw [he]
            exact isAnswered_eq_false_iff.2 ⟨v, hv, hv'⟩
          · rw [he]
            exact ⟨v, hv, hle.mono (.push s₀ _)⟩
          · exact hft (fails_iff.2 ⟨k', e', hk, hke⟩)
  | @act t u ht ho ha ih =>
    obtain ⟨hi, hs, -⟩ := ha.records
    obtain ⟨u', h, e, rest, hu, hff, hr⟩ := ih (hf.of_eq hi.symm hs.symm)
    exact ⟨u', h, e, rest, hu, hff, .act hr ho ha⟩

/-- A failure that is handed over is the first one. -/
theorem failure_of_fires {p t : Session σ} (hp : Reachable p) (ht : Reaches p t) {root : Target}
    (hn : ¬ p.Fails root) (hk : p.Known root) {e : ExpansionError}
    (hf : t.Fires root (.error e)) :
    ∃ u h rest, Reaches p u ∧ u.FirstFailure root h e rest ∧ Reaches u t := by
  have hr := hp.reaches ht
  have hkt := hk.mono ht.extends
  have hft : t.Fails root := by
    obtain ⟨rest, hag⟩ := hf
    exact hr.account.carried root (.error e) (by rw [hag]; exact List.mem_cons_self) hkt.isPlace
  obtain ⟨u, h, e', rest, hu, hff, hut⟩ := exists_firstFailure hp ht hn hft
  have hru := hp.reaches hu
  obtain ⟨w, hc, ha, -⟩ := hff.promptly hru.ledger hru.lineage hru.account
  have hw : w.Fires root (.error e') := ⟨rest, ha⟩
  have huw : Reaches u w := hc.reaches.of_step
  have hkw := (hk.mono hu.extends).mono huw.extends
  -- both failures are handed over on one way, and only one is
  have same : t = w := by
    rcases hc.comparable hut with h | h
    · have ho : w.isOpen = false := by
        rw [isOpen, ha]
        cases root with
        | handle _ => exact hk.elim
        | _ => rfl
      rcases h.eq_or_step ho with rfl | h
      · rfl
      · exact absurd hf (not_fires_again (hru.reaches huw).ledger hkw hw h)
    · cases h with
      | refl => rfl
      | step _ h => exact absurd hw (not_fires_again hr.ledger hkt hf h.reaches)
  subst same
  obtain ⟨rest', hag⟩ := hf
  rw [ha] at hag
  cases hag
  exact ⟨u, h, rest, hu, hff, hut.of_step⟩

/-! ### The end of a run -/

def Alive (t : Session σ) (root : Target) : Prop :=
  (∃ ts o, .stream ts o none none root ∈ t.agenda) ∨ (∃ r, .deliver root r ∈ t.agenda) ∨
    ∃ (n : Nat) (x : Stream), t.streams[n]? = some x ∧ x.target = root ∧ x.join.delivered = false

/-- A run lives on until its result is handed over. -/
theorem Move.alive {s t : Session σ} {task : Task σ} (h : Move s task t) {root : Target}
    (ha : Alive (s.push [task]) root) : Alive t root ∨ ∃ r, task = .deliver root r := by
  obtain ⟨new, hn⟩ := h.agenda
  rcases ha with ⟨ts, o, hm⟩ | ⟨r, hm⟩ | ⟨n, x, hx, hg, ho⟩
  · rcases List.mem_cons.1 (show _ ∈ task :: s.agenda from hm) with rfl | hm
    · cases h with
      | noTokens => exact Or.inl (Or.inr (Or.inl ⟨_, List.mem_cons_self⟩))
      | stream hts =>
        refine Or.inl (Or.inr (Or.inr ⟨_, _, Array.getElem?_push_size, rfl, ?_⟩))
        simp [newStream, Join.new, hts]
    · exact Or.inl (Or.inl ⟨ts, o, hn ▸ List.mem_append_right new hm⟩)
  · rcases List.mem_cons.1 (show _ ∈ task :: s.agenda from hm) with rfl | hm
    · exact Or.inr ⟨r, rfl⟩
    · exact Or.inl (Or.inr (Or.inl ⟨r, hn ▸ List.mem_append_right new hm⟩))
  · refine Or.inl ?_
    cases h with
    | noTokens | stream _ =>
      exact Or.inr (Or.inr ⟨n, x, getElem?_push_of_some hx _, hg, ho⟩)
    | @chunk m i q y hy =>
      rcases getElem?_set_of_some hy { y with join := (y.join.fill i q).1 } hx with
        ⟨rfl, rfl, hx'⟩ | ⟨-, hx'⟩
      · rcases Option.eq_none_or_eq_some (x.join.fill i q).2 with hf | ⟨d, hf⟩
        · exact Or.inr (Or.inr ⟨n, _, hx', hg, (Join.delivered_of_silent hf).trans ho⟩)
        · refine Or.inr (Or.inl ⟨d.map List.flatten, ?_⟩)
          rw [hf, ← hg]
          exact List.mem_cons_self
      · exact Or.inr (Or.inr ⟨n, x, hx', hg, ho⟩)
    | _ => exact Or.inr (Or.inr ⟨n, x, hx, hg, ho⟩)

theorem Act.alive {s t : Session σ} (h : Act s t) {root : Target} (ha : Alive s root) :
    Alive t root := by
  obtain ⟨new, hn⟩ := h.agenda
  obtain ⟨-, hs, -⟩ := h.records
  rcases ha with ⟨ts, o, hm⟩ | ⟨r, hm⟩ | ⟨n, x, hx, hg, ho⟩
  · exact Or.inl ⟨ts, o, hn ▸ List.mem_append_right new hm⟩
  · exact Or.inr (Or.inl ⟨r, hn ▸ List.mem_append_right new hm⟩)
  · exact Or.inr (Or.inr ⟨n, x, hs ▸ hx, hg, ho⟩)

theorem alive_or_fired {p t : Session σ} {root : Target} (ha : Alive p root) (ht : Reaches p t) :
    Alive t root ∨ ∃ u r, Reaches p u ∧ u.Fires root r ∧ Reaches u.step t := by
  induction ht with
  | refl => exact Or.inl ha
  | @step t ht ih =>
    rcases ih with ih | ⟨u, r, hu, hf, hr⟩
    · rcases step_eq t with ⟨-, he⟩ | ⟨s₀, task, he, hm⟩
      · rw [he]
        exact Or.inl ih
      · rcases hm.alive (he ▸ ih) with h | ⟨r, rfl⟩
        · exact Or.inl h
        · exact Or.inr ⟨t, r, ht, ⟨s₀.agenda, by rw [he]; rfl⟩, .refl⟩
    · exact Or.inr ⟨u, r, hu, hf, .step hr⟩
  | act ht ho hact ih =>
    rcases ih with ih | ⟨u, r, hu, hf, hr⟩
    · exact Or.inl (hact.alive ih)
    · exact Or.inr ⟨u, r, hu, hf, .act hr ho hact⟩

/-- When nothing is left to do and all invocations of the run are answered, nothing of it
is still to come. -/
theorem not_alive_of_answered {t : Session σ} (ht : Reachable t) {root : Target}
    (ha : t.agenda = []) (hall : ∀ h, t.InRun root h → t.isAnswered h = true) :
    ¬ Alive t root := by
  rintro (⟨ts, o, hm⟩ | ⟨r, hm⟩ | ⟨n, x, hx, rfl, ho⟩)
  · rw [ha] at hm
    cases hm
  · rw [ha] at hm
    cases hm
  · obtain ⟨i, k, v, hv, hn, hle⟩ := exists_unanswered ht.ledger ht.lineage ht.account ha hx ho
    have hk := hall ⟨k⟩ ⟨v, hv, hle.up hx⟩
    rw [isAnswered_eq_false_iff.2 ⟨v, hv, hn⟩] at hk
    cases hk

/-! ### Answers -/

theorem answer?_of_deliver {t u : Session σ} {h : Handle} {r : Outcome (List Token)}
    {rest : List (Task σ)} (ha : t.agenda = .deliver (.handle h) r :: rest)
    (hn : t.isAnswered h = false) (hu : Reaches t.step u) : u.answer? h = some r := by
  obtain ⟨v, hv, hv'⟩ := isAnswered_eq_false_iff.1 hn
  have hw : t.step.invocations[h.index]? = some { v with answer := some r } := by
    have hset := Array.getElem?_setIfInBounds_self_of_lt (a := { v with answer := some r })
      (lt_size_of_some hv)
    cases r with
    | ok ys =>
      rw [step_of_move ha (.answered hv hv')]
      exact hset
    | error e =>
      rw [step_of_move ha (.failed hv hv')]
      exact hset
  obtain ⟨w, huw, hk⟩ := hu.extends.invocations _ _ hw
  rw [answer?, huw]
  exact hk r rfl

/-! ### Reports -/

theorem eq_of_countP_eq_one {α : Type} {l : List α} {p : α → Bool} (h : l.countP p = 1) {a b : α}
    (ha : a ∈ l) (hb : b ∈ l) (hpa : p a = true) (hpb : p b = true) : a = b := by
  rw [List.countP_eq_length_filter, List.length_eq_one_iff] at h
  obtain ⟨c, hc⟩ := h
  have hac : a ∈ l.filter p := List.mem_filter.2 ⟨ha, hpa⟩
  have hbc : b ∈ l.filter p := List.mem_filter.2 ⟨hb, hpb⟩
  rw [hc, List.mem_singleton] at hac hbc
  rw [hac, hbc]

theorem result?_of_reports {s : Session σ} {j : Nat} {r : Outcome (List Token)}
    (h : s.reports j = 1) (hm : .finished j r ∈ s.events) : s.result? j = some r := by
  have hl : s.events.toList.countP (Event.ends j) = 1 := by rw [Array.countP_toList]; exact h
  have hm : .finished j r ∈ s.events.toList := Array.mem_toList_iff.2 hm
  unfold result?
  cases hr : s.events.toList.findSome? _ with
  | none =>
    have := List.findSome?_eq_none_iff.1 hr _ hm
    simp at this
  | some q =>
    obtain ⟨e, he, hq⟩ := List.exists_of_findSome?_eq_some hr
    cases e with
    | finished n q' =>
      simp only [Option.ite_none_right_eq_some, Option.some.injEq] at hq
      obtain ⟨rfl, rfl⟩ := hq
      have := eq_of_countP_eq_one hl he hm (by simp [Event.ends]) (by simp [Event.ends])
      cases this
      rfl
    | _ => cases hq

theorem reported_of_fires {t u : Session σ} (ht : Reachable t) {j : Nat}
    {r : Outcome (List Token)} (hf : t.Fires (.job j) r) (hu : Reaches t.step u) :
    u.reports j = 1 ∧ u.result? j = some r := by
  obtain ⟨rest, ha⟩ := hf
  have hs : t.step.events = t.events.push (.finished j r) := by
    rw [step_of_move ha .finished]
    rfl
  have hm : .finished j r ∈ u.events := by
    refine Array.mem_toList_iff.1 (hu.extends.events.subset ?_)
    rw [hs, Array.toList_push]
    exact List.mem_append_right _ (List.mem_singleton.2 rfl)
  have hpos : 0 < u.reports j := Array.countP_pos_iff.2 ⟨_, hm, by simp [Event.ends]⟩
  have hj := (ht.reaches (Reaches.of_step hu)).ledger.jobs j
  have h1 : u.reports j = 1 := by
    split at hj <;> omega
  exact ⟨h1, result?_of_reports h1 hm⟩

/-- **The verdict on a run**, whatever the handlers do. -/
theorem Begins.verdict {s p : Session σ} {ts : List Token} {root : Target} (hs : Reachable s)
    (hb : Begins s ts root p) : Verdict p ts root := by
  have hp := hs.reaches hb.reaches
  obtain ⟨o, rest, ha⟩ := hb.agenda
  have hm : .stream ts o none none root ∈ p.agenda := by rw [ha]; exact List.mem_cons_self
  have hk : p.Known root := (hb.rooted hs).known hp.lineage
  have hn : ¬ p.Fails root := not_fails (fun _ _ hv => hb.stranger hs hv)
    (hp.lineage.pending _ hm root (by simp [Task.starts]))
  exact {
    once := fun ht hf hu =>
      not_fires_again (hp.reaches ht).ledger (hk.mono ht.extends) hf hu
    success := fun ht hf => by
      obtain ⟨hg, hl, hc, hr⟩ := hb.facts hs ht
      exact hr.success hg hl hc hf
    failure := fun ht hf => failure_of_fires hp ht hn hk hf
    promptly := fun {t h e rest} ht hf => by
      have hr := hp.reaches ht
      obtain ⟨u, hc, hag, hev⟩ := hf.promptly hr.ledger hr.lineage hr.account
      obtain ⟨n, rfl⟩ := hc.exists_settle
      exact ⟨n + 1, by rw [settle_succ]; exact hag, by rw [settle_succ]; exact hev⟩
    answered := fun _ hag hn hu => answer?_of_deliver hag hn hu
    ignored := fun _ hag hn => step_of_move hag (.ignored hn)
    concluded := fun ht hag hall =>
      (alive_or_fired (Or.inl ⟨ts, o, hm⟩) ht).resolve_left
        (not_alive_of_answered (hp.reaches ht) hag hall)
    reported := fun {j t u r} hj ht hf hu => by
      subst hj
      exact reported_of_fires (hp.reaches ht) hf hu }

def doubling : Session Unit :=
  (Session.new {} {} ()).register "double" .templates .any Handler.duplicate

theorem verdict_doubling :
    ∃ t, Reaches (doubling.process [.text "a"] none).2 t ∧
      t.Fires (.job 0) (.ok [.text "a", .text "a"]) ∧
      t.Yields (.job 0) [.text "a"] [.text "a", .text "a"] := by
  have hs : Reachable doubling := ⟨_, _, _, .act .refl rfl (.register _ _ _ _)⟩
  have hv : Verdict (doubling.process [.text "a"] none).2 [.text "a"] (.job 0) :=
    Begins.verdict hs (.outside none rfl)
  have ht := Reaches.settle (s := (doubling.process [.text "a"] none).2) .refl 10
  have hf : ((doubling.process [.text "a"] none).2.settle 10).Fires (.job 0)
      (.ok [.text "a", .text "a"]) := ⟨_, rfl⟩
  exact ⟨_, ht, hf, (hv.success ht hf).2⟩

end Session

end WikiExpansion
