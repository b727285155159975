import WikiExpansion.Proofs.Descent

/-!
# The root of a run

A run of a token stream begins when somebody processes tokens: from outside, in
the script of a handler, or in the place of a side of an attribute (`Begins`).
Its result goes to its root, and nothing else does (`Rooted`).  So it is handed
over once (`not_fires_again`), and a success is what the tokens of the run have
become, in their order, after all its invocations have succeeded
(`Rooted.success`).
-/

namespace WikiExpansion

namespace Session

variable {σ : Type}

inductive Begins (s : Session σ) (ts : List Token) : Target → Session σ → Prop
  | outside (o : Option Options) : s.isOpen = true →
      Begins s ts (.job s.jobs) (s.process ts o).2
  | script {f : Frame} {o : Option Options} {done : Outcome (List Token) → Script σ}
      {next : Script σ} {rest : List (Task σ)} :
      s.agenda = .follow f (.process ts o done next) :: rest →
      Begins s ts (.callback s.callbacks.size) s.step
  | side {e i : Nat} {d : Side} {x : Expansion} {a : Attribute Token} {rest : List (Task σ)} :
      s.agenda = .expandSide e i d :: rest → s.expansions[e]? = some x →
      x.attributes[i]? = some a → d.of a = .tokens ts → Begins s ts (.side e i d) s.step

/-- What a token, offered for a place, has become: itself if no handler took it,
and otherwise what has become of the tokens of the first answer. -/
inductive Becomes (s : Session σ) : Target → Token → List Token → Prop
  | kept {g : Target} {a : Token} :
      (∀ (h : Nat) (v : Invocation), s.invocations[h]? = some v → v.target ≠ g) →
      Becomes s g a [a]
  | handled {h n : Nat} {v : Invocation} {x : Stream} {outs : List (List Token)} :
      s.invocations[h]? = some v → v.answer = some (.ok x.tokens) →
      s.streams[n]? = some x → x.origin = some ⟨h⟩ → outs.length = x.tokens.length →
      (∀ (i : Nat) (a : Token) (out : List Token), x.tokens[i]? = some a →
        outs[i]? = some out → Becomes s (.chunk n i) a out) →
      Becomes s v.target v.token outs.flatten

def Yields (s : Session σ) (root : Target) (ts out : List Token) : Prop :=
  ∃ (n : Nat) (x : Stream) (outs : List (List Token)),
    s.streams[n]? = some x ∧ x.target = root ∧ x.origin = none ∧ x.tokens = ts ∧
    outs.length = ts.length ∧
    (∀ (i : Nat) (a : Token) (c : List Token), ts[i]? = some a → outs[i]? = some c →
      s.Becomes (.chunk n i) a c) ∧
    out = outs.flatten

/-- The next thing that happens is that a result is handed to the target. -/
def Fires (s : Session σ) (g : Target) (r : Outcome (List Token)) : Prop :=
  ∃ rest, s.agenda = .deliver g r :: rest

/-! ### How a run begins -/

theorem Begins.reaches {s p : Session σ} {ts : List Token} {root : Target}
    (h : Begins s ts root p) : Reaches s p := by
  cases h with
  | outside o ho => exact .act .refl ho (.process ts o)
  | script _ | side _ _ _ _ => exact .step .refl

theorem Begins.agenda {s p : Session σ} {ts : List Token} {root : Target}
    (h : Begins s ts root p) : ∃ o rest, p.agenda = .stream ts o none none root :: rest := by
  cases h with
  | outside o ho => exact ⟨_, _, rfl⟩
  | script ha =>
    rw [step_of_move ha .process]
    exact ⟨_, _, rfl⟩
  | side ha hx hi hd =>
    rw [step_of_move ha (.tokenSide hx hi hd)]
    exact ⟨_, _, rfl⟩

theorem Begins.stranger {s p : Session σ} {ts : List Token} {root : Target}
    (h : Begins s ts root p) (hs : Reachable s) {k : Nat} {v : Invocation}
    (hv : p.invocations[k]? = some v) : v.target ≠ root := by
  intro hg
  have hl := (hs.reaches h.reaches).lineage
  cases h with
  | outside o ho =>
    obtain ⟨q, hq⟩ := hs.lineage.invocations k v hv
    rw [hg] at hq
    exact Nat.lt_irrefl _ hq.1
  | script _ | side _ _ _ _ =>
    obtain ⟨q, hq⟩ := hl.invocations k v hv
    rw [hg] at hq
    exact hq

/-- The tokens of a run are still to come, or stand in the records; nothing else
goes to its root. -/
structure Rooted (t : Session σ) (ts : List Token) (root : Target) : Prop where
  stranger : ∀ (h : Nat) (v : Invocation), t.invocations[h]? = some v → v.target ≠ root
  unoffered : ∀ a o p, .offer a o p root ∉ t.agenda
  stream : (∃ o, .stream ts o none none root ∈ t.agenda) ∨
    ∃ (n : Nat) (x : Stream), t.streams[n]? = some x ∧ x.target = root ∧ x.origin = none ∧
      x.tokens = ts

theorem Rooted.known {t : Session σ} {ts : List Token} {root : Target} (h : Rooted t ts root)
    (hl : Lineage t) : t.Known root := by
  rcases h.stream with ⟨o, hm⟩ | ⟨n, x, hx, rfl, ho, -⟩
  · exact (hl.tasks _ hm).1
  · have hs := (hl.streams n x hx).1
    rw [ho] at hs
    exact hs

theorem Begins.rooted {s p : Session σ} {ts : List Token} {root : Target}
    (h : Begins s ts root p) (hs : Reachable s) : Rooted p ts root := by
  have hp := hs.reaches h.reaches
  obtain ⟨o, rest, ha⟩ := h.agenda
  have hm : .stream ts o none none root ∈ p.agenda := by rw [ha]; exact List.mem_cons_self
  refine ⟨fun k v hv => h.stranger hs hv, fun a o' q hq => ?_, Or.inl ⟨o, hm⟩⟩
  -- an offer for the root would owe it a second time
  have hb := hp.lineage.isPlace_of_stream hm
  have hd := hp.ledger.debt_le_one hb
  rw [eq_push_of_agenda ha] at hd
  rw [ha] at hq
  rcases List.mem_cons.1 hq with hq | hq
  · cases hq
  · have := not_owed_again (by simp [Task.owes]) hd hq
    simp [Task.owes] at this

theorem Move.rooted {s t : Session σ} {task : Task σ} (h : Move s task t)
    (hl : Lineage (s.push [task])) {ts : List Token} {root : Target}
    (hr : Rooted (s.push [task]) ts root) : Rooted t ts root := by
  have hk := hr.known hl
  refine ⟨fun k v hv => ?_, fun a o p hm => ?_, ?_⟩
  · rcases h.invocation_cases hv with ⟨r, hv, -⟩ | ⟨a, o, p, g, r, rfl, -, rfl, rfl⟩
    · have hn := hr.stranger k _ hv
      exact hn
    · rintro rfl
      exact hr.unoffered _ _ _ mem_push_self
  · rcases h.offer_cases hm with hm | ⟨ts, k, g, i, rfl, -, rfl⟩
    · exact hr.unoffered a o p (mem_push.2 (Or.inr hm))
    · exact hk
  · rcases hr.stream with ⟨o, hm⟩ | ⟨n, x, hx, hg, ho, ht⟩
    · rcases List.mem_cons.1 (show _ ∈ task :: s.agenda from hm) with rfl | hm
      · refine Or.inr ⟨s.streams.size, newStream ts none root, ?_, rfl, rfl, rfl⟩
        cases h with
        | noTokens => exact Array.getElem?_push_size
        | stream _ => exact Array.getElem?_push_size
      · obtain ⟨new, ha⟩ := h.agenda
        exact Or.inl ⟨o, ha ▸ List.mem_append_right new hm⟩
    · obtain ⟨j, hj, -⟩ := h.extends.streams n x hx
      exact Or.inr ⟨n, _, hj, hg, ho, ht⟩

theorem Act.rooted {s t : Session σ} (h : Act s t) (hl : Lineage s) {ts : List Token}
    {root : Target} (hr : Rooted s ts root) : Rooted t ts root := by
  have hk := hr.known hl
  obtain ⟨hi, hs, -, -⟩ := h.records
  refine ⟨hi ▸ hr.stranger, fun a o p hm => ?_, ?_⟩
  · rcases h.asks hm with hm | hk
    · exact hr.unoffered a o p hm
    · -- a token that is dispatched is offered for a job that was not there
      cases hk
      exact Nat.lt_irrefl _ hk
  · obtain ⟨new, ha⟩ := h.agenda
    rw [hs, ha]
    exact hr.stream.imp (fun ⟨o, hm⟩ => ⟨o, List.mem_append_right new hm⟩) id

/-- All that is used of a session that a run has reached. -/
theorem Begins.facts {s p t : Session σ} {ts : List Token} {root : Target}
    (h : Begins s ts root p) (hs : Reachable s) (ht : Reaches p t) :
    Ledger t ∧ Lineage t ∧ Account t ∧ Rooted t ts root := by
  have hp := hs.reaches h.reaches
  refine ⟨(hp.reaches ht).ledger, (hp.reaches ht).lineage, (hp.reaches ht).account, ?_⟩
  have both : Lineage t ∧ Ledger t ∧ Rooted t ts root :=
    ht.keeps (P := fun t => Lineage t ∧ Ledger t ∧ Rooted t ts root)
      (fun _ _ _ hm hl => ⟨hm.lineage hl.2.1 hl.1, hm.ledger hl.2.1, hm.rooted hl.1 hl.2.2⟩)
      (fun _ _ ho ha hl => ⟨ha.lineage hl.1, ha.ledger ho hl.2.1, ha.rooted hl.1 hl.2.2⟩)
      ⟨hp.lineage, hp.ledger, h.rooted hs⟩
  exact both.2.2

/-! ### The result is handed over once -/

theorem Known.opens_eq_false {s : Session σ} {g : Target} (hk : s.Known g) (task : Task σ) :
    s.opens g task = false := by
  cases task with
  | stream ts o p h g' =>
    rw [Bool.eq_false_iff]
    intro ho
    obtain ⟨i, -, rfl⟩ := opens_stream.1 ho
    exact hk
  | expand as o p =>
    rw [Bool.eq_false_iff]
    intro ho
    obtain ⟨i, -, rfl | rfl⟩ := opens_expand.1 ho
    · exact Nat.lt_irrefl _ hk
    · exact Nat.lt_irrefl _ hk
  | follow f k =>
    cases k with
    | process ts o d k =>
      rw [Bool.eq_false_iff]
      intro ho
      obtain rfl := eq_of_beq ho
      exact Nat.lt_irrefl _ hk
    | _ => rfl
  | _ => rfl

theorem Known.debt_le {s t : Session σ} (h : Reaches s t) {g : Target} (hk : s.Known g) :
    t.debt g ≤ s.debt g := by
  induction h with
  | refl => exact Nat.le_refl _
  | @step t h ih =>
    have hkt := hk.mono h.extends
    rcases step_eq t with ⟨-, he⟩ | ⟨s₀, task, he, hm⟩
    · rw [he]
      exact ih
    · have hk₀ : s₀.Known g := (he ▸ hkt).mono (Extends.refl s₀).of_push
      have hd := hm.debt hk.isPlace
      rw [hk₀.opens_eq_false, ← he] at hd
      simp only [Bool.toNat_false] at hd
      omega
  | @act t u h ho ha ih =>
    have hkt := hk.mono h.extends
    refine Nat.le_trans (Nat.le_of_eq ?_) ih
    cases ha with
    | process | dispatch | expandAttributes =>
      have hj : (Target.job t.jobs == g) = false := by
        rw [beq_eq_false_iff_ne]
        rintro rfl
        exact Nat.lt_irrefl _ hkt
      refine (debt_push_one _ _ _).trans ?_
      show (Target.job t.jobs == g).toNat + t.debt g = t.debt g
      rw [hj, Bool.toNat_false, Nat.zero_add]
    | complete h r =>
      refine (debt_push_one _ _ _).trans ?_
      rw [show Task.owes g (.deliver (.handle h) r) = false from beq_handle hk.isPlace h,
        Bool.toNat_false, Nat.zero_add]
    | _ => rfl

theorem debt_pos_of_fires {s : Session σ} {g : Target} {r : Outcome (List Token)}
    (h : s.Fires g r) : 0 < s.debt g := by
  obtain ⟨rest, h⟩ := h
  exact debt_pos_of_mem (h ▸ List.mem_cons_self) (by simp [Task.owes])

/-- A task that settles what is owed to the root leaves nothing. -/
theorem debt_step_of_settles {t : Session σ} {task : Task σ} {rest : List (Task σ)}
    (ha : t.agenda = task :: rest) {g : Target} (hk : t.Known g) (hle : t.debt g ≤ 1)
    (hs : ({ t with agenda := rest } : Session σ).settles g task = true) :
    t.step.debt g = 0 := by
  have hk₀ : ({ t with agenda := rest } : Session σ).Known g :=
    hk.mono (Extends.of_eq rfl rfl rfl rfl (List.prefix_refl _) (Nat.le_refl _))
  have hd := (move_of_agenda ha).debt hk.isPlace
  rw [hk₀.opens_eq_false, hs, ← eq_push_of_agenda ha] at hd
  simp only [Bool.toNat_false, Bool.toNat_true] at hd
  omega

theorem step_of_fires_side {t : Session σ} {e i : Nat} {d : Side} {r : Outcome (List Token)}
    {rest : List (Task σ)} (ha : t.agenda = .deliver (.side e i d) r :: rest) :
    t.step.agenda = .settleSide e i d (r.map .tokens) :: rest := by
  rw [step_of_move ha .side]
  rfl

theorem debt_side_eq_zero {t u : Session σ} (hg : Ledger t) {e i : Nat} {d : Side}
    {r : Outcome (List Token)} (hk : t.Known (.side e i d)) (hf : t.Fires (.side e i d) r)
    (hu : Reaches t.step.step u) : u.debt (.side e i d) = 0 := by
  obtain ⟨rest, ha⟩ := hf
  have hks : t.step.Known (.side e i d) := hk.mono (Reaches.step .refl).extends
  have hle := Nat.le_trans (hk.debt_le (Reaches.step .refl)) (hg.debt_le_one rfl)
  have hz := debt_step_of_settles (step_of_fires_side ha) hks hle (by simp [settles])
  have := (hks.mono (Reaches.step .refl).extends).debt_le hu
  omega

/-- Once a result was handed over, it is not handed over again. -/
theorem not_fires_again {t u : Session σ} (hg : Ledger t) {root : Target} (hk : t.Known root)
    {r q : Outcome (List Token)} (hf : t.Fires root r) (hu : Reaches t.step u) :
    ¬ u.Fires root q := by
  intro hq
  have hpos := debt_pos_of_fires hq
  have hle := hg.debt_le_one hk.isPlace
  have hks : t.step.Known root := hk.mono (Reaches.step .refl).extends
  cases root with
  | job _ | callback _ =>
    obtain ⟨rest, ha⟩ := hf
    have hz := debt_step_of_settles ha hk hle (by simp [settles])
    have := hks.debt_le hu
    omega
  | side e i d =>
    -- the side takes the result in at once, so nothing else can happen in between
    obtain ⟨rest, ha⟩ := hf
    have hs := step_of_fires_side ha
    have ho : t.step.isOpen = false := by rw [isOpen, hs]; rfl
    rcases hu.eq_or_step ho with rfl | hu
    · obtain ⟨rest', ha'⟩ := hq
      rw [hs] at ha'
      cases ha'
    · have := debt_side_eq_zero hg hk ⟨rest, ha⟩ hu
      omega
  | chunk _ _ | handle _ => exact hk

/-! ### A success -/

/-- What came for a place in a stream is what its token has become. -/
theorem becomes_of_came {t : Session σ} (hl : Lineage t) (ha : Account t) {n i : Nat} {x : Stream}
    (hx : t.streams[n]? = some x) {a : Token} (hi : x.tokens[i]? = some a) {c : List Token}
    (hc : t.Came (.chunk n i) c) : t.Becomes (.chunk n i) a c := by
  -- a stream that goes to the place is younger
  induction hk : t.streams.size - n using Nat.strongRecOn generalizing n i x a c with
  | ind d ih =>
    have same {b : Token} {p : Option Position} (ho : t.Offered b p (.chunk n i)) : b = a := by
      obtain ⟨y, hy, hb, -⟩ := ho
      obtain rfl := Option.some.inj (hx.symm.trans hy)
      exact Option.some.inj (hb.symm.trans hi)
    cases hc with
    | passed ho hv _ =>
      obtain rfl := same ho
      exact .kept hv
    | @streamed m y _ hy hg hf =>
      obtain ⟨vs, hs, rfl⟩ := hf
      have hst := (hl.streams m y hy).1
      cases ho : y.origin with
      | none =>
        rw [ho, hg] at hst
        exact hst.elim
      | some h =>
        rw [ho] at hst
        obtain ⟨v, hv, hva, hvg⟩ := hst
        obtain ⟨p, hp⟩ := hl.invocations _ v hv
        rw [hvg, hg] at hp
        obtain rfl := same hp
        have hlen : vs.length = y.tokens.length := by
          rw [← (ha.counts m y hy).2, hs, List.length_map]
        have hnm := hl.younger m y n i hy hg
        have hms := lt_size_of_some hy
        have hb := Becomes.handled hv hva hy ho hlen fun k b out hb hout =>
          ih (t.streams.size - m) (by omega) hy hb
            (ha.slots m y k out hy (by rw [hs, List.getElem?_map, hout]; rfl)) rfl
        rw [hvg, hg] at hb
        exact hb

/-- When a run is a success, something has come of every place that leads to its root. -/
theorem came_of_leads {t : Session σ} (hl : Lineage t) (ha : Account t) {root : Target}
    (hk : t.Known root) {out : List Token} (hc : t.Came root out) {g : Target}
    (hle : t.Leads root g) (hg : g = root ∨ ∃ a p, t.Offered a p g) : ∃ c, t.Came g c := by
  induction hle with
  | refl => exact ⟨out, hc⟩
  | @chunk n i x hx hle ih =>
    have hup : x.target = root ∨ ∃ a p, t.Offered a p x.target := by
      rcases hl.offered_or_known (hl.streams n x hx).1 with h | h
      · exact Or.inr h
      · refine Or.inl (hle.eq_of_not_chunk fun m k hm => ?_)
        rw [hm] at h
        exact h
    obtain ⟨c, hc⟩ := ih hup
    rcases hg with rfl | ⟨a, p, y, hy, hi, -⟩
    · exact hk.elim
    · obtain rfl := Option.some.inj (hx.symm.trans hy)
      cases hc with
      | passed _ _ hn => exact absurd rfl (hn n x hx)
      | @streamed m z _ hz hgz hf =>
        obtain rfl := hl.sole m n z x hz hx hgz
        obtain rfl := Option.some.inj (hx.symm.trans hz)
        obtain ⟨vs, hs, -⟩ := hf
        have hlen := (ha.counts m x hx).2
        rw [hs, List.length_map] at hlen
        have hlt : i < vs.length := hlen ▸ (List.getElem?_eq_some_iff.1 hi).1
        refine ⟨vs[i], ha.slots m x i _ hx ?_⟩
        rw [hs, List.getElem?_map, List.getElem?_eq_getElem hlt]
        rfl

theorem Rooted.exists_stream {t : Session σ} (hg : Ledger t) {ts : List Token} {root : Target}
    (hr : Rooted t ts root) (hk : t.Known root) {r : Outcome (List Token)}
    (hf : t.Fires root r) : ∃ (n : Nat) (x : Stream), t.streams[n]? = some x ∧
      x.target = root ∧ x.origin = none ∧ x.tokens = ts := by
  obtain ⟨rest, hag⟩ := hf
  have hle := hg.debt_le_one hk.isPlace
  refine hr.stream.resolve_left ?_
  rintro ⟨o, hm⟩
  rw [hag] at hm
  rcases List.mem_cons.1 hm with hm | hm
  · cases hm
  · rw [eq_push_of_agenda hag] at hle
    have := not_owed_again (by simp [Task.owes]) hle hm
    simp [Task.owes] at this

/-- When a run is a success, all its invocations were answered with tokens. -/
theorem answered_of_came {t : Session σ} (hl : Lineage t) (ha : Account t) {root : Target}
    (hk : t.Known root) (hn : ∀ (k : Nat) v, t.invocations[k]? = some v → v.target ≠ root)
    {out : List Token} (hc : t.Came root out) {h : Handle} (hrun : t.InRun root h) :
    ∃ ys, t.answer? h = some (.ok ys) := by
  obtain ⟨v, hv, hlv⟩ := hrun
  obtain ⟨p, hp⟩ := hl.invocations _ v hv
  obtain ⟨c, hcv⟩ := came_of_leads hl ha hk hc hlv (Or.inr ⟨_, p, hp⟩)
  cases hcv with
  | passed _ hno _ => exact absurd rfl (hno _ v hv)
  | @streamed m y _ hy hyg _ =>
    have hst := (hl.streams m y hy).1
    cases ho : y.origin with
    | none =>
      rw [ho, hyg] at hst
      have he := hlv.eq_of_not_chunk fun a b hab => by rw [hab] at hst; exact hst
      exact absurd he (hn _ v hv)
    | some k =>
      rw [ho] at hst
      obtain ⟨w, hw, hwa, hwg⟩ := hst
      have he := hl.unique _ _ w v hw hv (hwg.trans hyg)
      rw [he] at hw
      obtain rfl := Option.some.inj (hv.symm.trans hw)
      refine ⟨y.tokens, ?_⟩
      rw [answer?, hv]
      exact hwa

/-- **A run that succeeds comes after all its answers, and is what its tokens have
become.** -/
theorem Rooted.success {t : Session σ} (hg : Ledger t) (hl : Lineage t) (ha : Account t)
    {ts : List Token} {root : Target} (hr : Rooted t ts root) {out : List Token}
    (hf : t.Fires root (.ok out)) :
    (∀ h, t.InRun root h → ∃ ys, t.answer? h = some (.ok ys)) ∧ t.Yields root ts out := by
  have hk := hr.known hl
  obtain ⟨n, x, hx, hxg, hxo, hxt⟩ := hr.exists_stream hg hk hf
  have hc : t.Came root out := by
    obtain ⟨rest, hag⟩ := hf
    exact ha.carried root (.ok out) (by rw [hag]; exact List.mem_cons_self) hk.isPlace
  refine ⟨fun h hrun => answered_of_came hl ha hk hr.stranger hc hrun, ?_⟩
  cases hc with
  | passed _ _ hn => exact absurd hxg (hn n x hx)
  | @streamed m y _ hy hyg hfull =>
    obtain rfl := hl.sole m n y x hy hx (hyg.trans hxg.symm)
    obtain rfl := Option.some.inj (hx.symm.trans hy)
    obtain ⟨vs, hs, rfl⟩ := hfull
    have hlen := (ha.counts m x hx).2
    rw [hs, List.length_map, hxt] at hlen
    refine ⟨m, x, vs, hx, hxg, hxo, hxt, hlen, fun i a c hi hci => ?_, rfl⟩
    refine becomes_of_came hl ha hx (hxt ▸ hi) (ha.slots m x i c hx ?_)
    rw [hs, List.getElem?_map, hci]
    rfl

end Session

end WikiExpansion
