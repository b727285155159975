import WikiExpansion.Proofs.Account

/-!
# From the invocations of a run up to its root

`Leads s root g` says that what comes for the place `g` becomes part of what goes
to `root`.  An invocation is in a run if its place leads to the root of the run
(`InRun`), and the run has failed if one of its invocations has
(`fails_iff`).  A failure climbs from its place to the root before anything else
happens, as long as the streams in between are open (`climb`); they are while an
invocation below is unanswered and none has failed (`openTo_of_debt`).  When
nothing is left to do, an open stream has an unanswered invocation below it
(`exists_unanswered`).
-/

namespace WikiExpansion

namespace Session

variable {σ : Type}

/-- What comes for a place becomes part of what goes to the root. -/
inductive Leads (s : Session σ) (root : Target) : Target → Prop
  | refl : Leads s root root
  | chunk {n i : Nat} {x : Stream} : s.streams[n]? = some x → Leads s root x.target →
      Leads s root (.chunk n i)

def InRun (s : Session σ) (root : Target) (h : Handle) : Prop :=
  ∃ v, s.invocations[h.index]? = some v ∧ s.Leads root v.target

def answer? (s : Session σ) (h : Handle) : Option (Outcome (List Token)) :=
  (s.invocations[h.index]?).bind (·.answer)

theorem Leads.mono {s t : Session σ} (he : Extends s t) {root g : Target} (h : s.Leads root g) :
    t.Leads root g := by
  induction h with
  | refl => exact .refl
  | chunk hx _ ih =>
    obtain ⟨j, hj, -⟩ := he.streams _ _ hx
    exact .chunk hj ih

theorem Leads.up {s : Session σ} {n i : Nat} {x : Stream} (hx : s.streams[n]? = some x)
    {g : Target} (h : s.Leads (.chunk n i) g) : s.Leads x.target g := by
  induction h with
  | refl => exact .chunk hx .refl
  | chunk hy _ ih => exact .chunk hy ih

theorem Leads.exists_chunk {s : Session σ} (hl : Lineage s) {n i : Nat} {g : Target}
    (h : s.Leads (.chunk n i) g) : ∃ m k, g = .chunk m k ∧ n ≤ m := by
  induction h with
  | refl => exact ⟨n, i, rfl, Nat.le_refl n⟩
  | @chunk m k x hx _ ih =>
    obtain ⟨m', k', hg, hle⟩ := ih
    exact ⟨m, k, rfl, Nat.le_trans hle (Nat.le_of_lt (hl.younger m x m' k' hx hg))⟩

theorem Leads.eq_of_not_chunk {s : Session σ} {root g : Target} (h : s.Leads root g)
    (hg : ∀ n i, g ≠ .chunk n i) : g = root := by
  cases h with
  | refl => rfl
  | chunk => exact absurd rfl (hg _ _)

/-! ### Failures -/

theorem Fails.of_leads {s : Session σ} {root g : Target} (hl : s.Leads root g) (hf : s.Fails g) :
    s.Fails root := by
  induction hl with
  | refl => exact hf
  | chunk hx _ ih => exact ih (Fails.chunk hx hf)

theorem fails_iff {s : Session σ} {root : Target} :
    s.Fails root ↔ ∃ h e, s.InRun root h ∧ s.answer? h = some (.error e) := by
  constructor
  · intro hf
    induction hf with
    | @answer n v e hv ha =>
      refine ⟨⟨n⟩, e, ⟨v, hv, .refl⟩, ?_⟩
      rw [answer?, hv]
      exact ha
    | chunk hx _ ih =>
      obtain ⟨h, e, ⟨v, hv, hl⟩, ha⟩ := ih
      exact ⟨h, e, ⟨v, hv, hl.up hx⟩, ha⟩
  · rintro ⟨h, e, ⟨v, hv, hl⟩, ha⟩
    rw [answer?, hv] at ha
    exact Fails.of_leads hl (.answer hv ha)

theorem not_fails {s : Session σ} {g : Target}
    (hv : ∀ (h : Nat) (v : Invocation), s.invocations[h]? = some v → v.target ≠ g)
    (hx : ∀ (n : Nat) (x : Stream), s.streams[n]? = some x → x.target ≠ g) : ¬ s.Fails g := by
  intro hf
  cases hf with
  | answer hk _ => exact hv _ _ hk rfl
  | chunk hn _ => exact hx _ _ hn rfl

theorem Lineage.invocation_ne_chunk {s : Session σ} (hl : Lineage s) {k i : Nat} {v : Invocation}
    (hv : s.invocations[k]? = some v) : v.target ≠ .chunk s.streams.size i := by
  intro hg
  obtain ⟨p, hp⟩ := hl.invocations k v hv
  rw [hg] at hp
  obtain ⟨x, hx, -⟩ := hp
  exact Nat.lt_irrefl _ (lt_size_of_some hx)

/-- A run fails by the failing answer of one of its invocations. -/
theorem Move.fails_cases {s t : Session σ} {task : Task σ} (h : Move s task t)
    (hl : Lineage (s.push [task])) {g : Target} (hf : t.Fails g) :
    s.Fails g ∨ ∃ k e v, task = .deliver (.handle k) (.error e) ∧
      s.invocations[k.index]? = some v ∧ v.answer = none ∧ s.Leads g v.target := by
  induction hf with
  | @answer n v e hv ha =>
    rcases h.invocation_cases hv with ⟨a, hs, rfl | ⟨rfl, r, hr, rfl⟩⟩ |
      ⟨a, o, p, g, r, -, -, -, rfl⟩
    · have hf := Fails.answer hs ha
      exact Or.inl hf
    · rw [ha] at hr
      obtain rfl := Option.some.inj hr
      exact Or.inr ⟨⟨n⟩, e, _, rfl, hs, rfl, .refl⟩
    · cases ha
  | @chunk n i x hx hf ih =>
    rcases h.stream_cases hx with ⟨j, hx⟩ | ⟨ts, o, p, k, g, rfl, rfl, rfl⟩
    · rcases ih with hf | ⟨k, e, v, ht, hv, hn, hg⟩
      · have hf := Fails.chunk hx hf
        exact Or.inl hf
      · exact Or.inr ⟨k, e, v, ht, hv, hn, hg.up hx⟩
    · rcases ih with hf | ⟨k, e, v, ht, -⟩
      · refine absurd hf (not_fails (fun k v hv => ?_) fun n y hy => ?_)
        · exact hl.invocation_ne_chunk hv
        · exact hl.target_ne_chunk hy
      · cases ht

/-! ### Climbing -/

/-- All streams on the way from a place to the root are open, each older than the
one below it. -/
inductive OpenTo (s : Session σ) (root : Target) : Target → Prop
  | refl : OpenTo s root root
  | chunk {n i : Nat} {x : Stream} : s.streams[n]? = some x → x.join.delivered = false →
      (∀ m k, x.target = .chunk m k → m < n) → OpenTo s root x.target →
      OpenTo s root (.chunk n i)

theorem OpenTo.of_eq {s t : Session σ} (hs : t.streams = s.streams) {root g : Target}
    (h : s.OpenTo root g) : t.OpenTo root g := by
  induction h with
  | refl => exact .refl
  | chunk hx hd hm _ ih => exact .chunk (hs ▸ hx) hd hm ih

/-- The way up does not pass through a stream that is younger than the place. -/
theorem OpenTo.setStream {s : Session σ} {root g : Target} (h : s.OpenTo root g) {n : Nat}
    (hn : ∀ m i, g = .chunk m i → m < n) (y : Stream) : (s.setStream n y).OpenTo root g := by
  induction h with
  | refl => exact .refl
  | @chunk m i x hx hd hm _ ih =>
    have hmn := hn m i rfl
    refine .chunk ?_ hd hm (ih fun k l hg => Nat.lt_trans (hm k l hg) hmn)
    exact (Array.getElem?_setIfInBounds_ne (Nat.ne_of_gt hmn)).trans hx

/-- **A failure climbs to the root** before anything else happens. -/
theorem climb {s : Session σ} {root g : Target} (h : s.OpenTo root g) (e : ExpansionError) :
    ∃ t, Carries (s.push [.deliver g (.error e)]) t ∧
      t.agenda = .deliver root (.error e) :: s.agenda ∧ t.events = s.events := by
  -- the induction is on the number of the stream in which the place is
  have key : ∀ (N : Nat) (s : Session σ) (g : Target), s.OpenTo root g →
      (∀ m i, g = .chunk m i → m < N) →
      ∃ t, Carries (s.push [.deliver g (.error e)]) t ∧
        t.agenda = .deliver root (.error e) :: s.agenda ∧ t.events = s.events := by
    intro N
    induction N with
    | zero =>
      intro s g h hg
      cases h with
      | refl => exact ⟨_, .refl, rfl, rfl⟩
      | chunk => exact absurd (hg _ _ rfl) (Nat.not_lt_zero _)
    | succ N ih =>
      intro s g h hg
      cases h with
      | refl => exact ⟨_, .refl, rfl, rfl⟩
      | @chunk m i x hx hd hm ho =>
        have hmN := hg m i rfl
        have hstep : (s.push [.deliver (.chunk m i) (.error e)]).step =
            (s.setStream m { x with join := { x.join with delivered := true } }).push
              [.deliver x.target (.error e)] := perform_deliver_error hx hd i e
        obtain ⟨t, hc, ha, hv⟩ := ih _ x.target
          (ho.setStream hm { x with join := { x.join with delivered := true } })
          fun k l hk => by
            have := hm k l hk
            omega
        refine ⟨t, .step rfl ?_, ha, hv⟩
        rw [hstep]
        exact hc
  cases g with
  | chunk m i => exact key (m + 1) s _ h fun k l hk => by cases hk; exact Nat.lt_succ_self m
  | _ => exact key 0 s _ h fun k l hk => by cases hk

/-- As long as a run has not failed, the way up from a place that is owed its
tokens is open. -/
theorem openTo_of_debt {s : Session σ} (hg : Ledger s) (hl : Lineage s) (ha : Account s)
    {root g : Target} (h : s.Leads root g) (hf : ¬ s.Fails root) (hd : 0 < s.debt g) :
    s.OpenTo root g := by
  induction h with
  | refl => exact .refl
  | @chunk n i x hx hle ih =>
    obtain ⟨y, hy, hi⟩ := hg.free _ rfl hd
    obtain rfl := Option.some.inj (hx.symm.trans hy)
    have ho : x.join.delivered = false := by
      by_contra hc
      rcases ha.closed n x hx ((Bool.not_eq_false _).mp hc) with ⟨out, vs, hv, -⟩ | hc
      · rw [hv, List.getElem?_map] at hi
        cases hk : vs[i]? <;> rw [hk] at hi <;> cases hi
      · exact hf (Fails.of_leads hle hc)
    have hpos : 0 < s.streams.countP (Stream.owes x.target) := by
      refine Array.countP_pos_iff.2 ⟨x, Array.mem_of_getElem? hx, ?_⟩
      simp [Stream.owes, ho]
    refine .chunk hx ho (fun m k hm => hl.younger n x m k hx hm) (ih ?_)
    unfold debt
    omega

/-! ### Rest -/

/-- **When nothing is left to do, an open stream has an unanswered invocation
below it.** -/
theorem exists_unanswered {s : Session σ} (hg : Ledger s) (hl : Lineage s) (ha : Account s)
    (hr : s.agenda = []) {n : Nat} {x : Stream} (hx : s.streams[n]? = some x)
    (ho : x.join.delivered = false) :
    ∃ (i k : Nat) (v : Invocation), s.invocations[k]? = some v ∧ v.answer = none ∧
      s.Leads (.chunk n i) v.target := by
  -- streams below are younger, so the induction is on how many come after
  induction hk : s.streams.size - n using Nat.strongRecOn generalizing n x with
  | ind d ih =>
    obtain ⟨i, hi⟩ := Join.exists_empty (ha.counts n x hx).1 ho
    have hd := hg.owed (.chunk n i) ⟨x, hx, ho, hi⟩
    have hagenda : s.agenda.countP (Task.owes (.chunk n i)) = 0 := by rw [hr]; rfl
    have hexp : s.expansions.countP (Expansion.owes (.chunk n i)) = 0 := by
      rw [Array.countP_eq_zero]
      intro y _
      unfold Expansion.owes Purpose.target
      cases y.purpose <;> simp
    rw [debt, hagenda, hexp] at hd
    rcases Nat.eq_zero_or_pos (s.invocations.countP (Invocation.owes (.chunk n i))) with hz | hp
    · obtain ⟨y, hy, hw⟩ := Array.countP_pos_iff.1 (by omega :
        0 < s.streams.countP (Stream.owes (.chunk n i)))
      obtain ⟨m, hm⟩ := Array.getElem?_of_mem hy
      simp only [Stream.owes, Bool.and_eq_true, Bool.not_eq_true', beq_iff_eq] at hw
      have hnm := hl.younger m y n i hm hw.2
      have hms := lt_size_of_some hm
      obtain ⟨l, k, v, hv, hn, hle⟩ := ih (s.streams.size - m) (by omega) hm hw.1 rfl
      have hle := hle.up hm
      rw [hw.2] at hle
      exact ⟨i, k, v, hv, hn, hle⟩
    · obtain ⟨v, hv, hw⟩ := Array.countP_pos_iff.1 hp
      obtain ⟨k, hk⟩ := Array.getElem?_of_mem hv
      simp only [Invocation.owes, Bool.and_eq_true, Option.isNone_iff_eq_none, beq_iff_eq] at hw
      exact ⟨i, k, v, hk, hw.1, hw.2 ▸ .refl⟩

end Session

end WikiExpansion
