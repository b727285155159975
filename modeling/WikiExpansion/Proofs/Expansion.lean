import WikiExpansion.Handler.Stock
import WikiExpansion.Proofs.Pairs

/-!
# What becomes of an attribute list

`Gathers` says what the expansion of an attribute list does, whatever the handlers
do and in whatever order its nested runs are over: all of them are started in the
order of the list; what has become of the list is handed on once; it is a success
only with a pair for every pair, made of what the nested runs have handed over; and
it is the failure of the nested run that failed first (`FirstNested`), named by the
key of its pair, two steps after that failure.

The main theorem is `Reachable.gathers`.
-/

namespace WikiExpansion

namespace Session

variable {σ : Type} {s t u : Session σ}

/-- The next thing that happens is that a nested run hands over a failure, and it is
the first one of its list. -/
structure FirstNested (s t : Session σ) (e i : Nat) (d : Side) (cause : ExpansionError)
    (rest : List (Task σ)) : Prop where
  reached : Reaches s.step t
  agenda : t.agenda = .deliver (.side e i d) (.error cause) :: rest
  first : ∀ j d' c, ¬ Handed s.step t (.side e j d') (.error c)

/-- What becomes of an attribute list that the next step of `s` begins to expand. -/
structure Gathers (s : Session σ) (as : List (Attribute Token)) (o : Options) (p : Purpose)
    (rest : List (Task σ)) : Prop where
  /-- The nested runs are those of the token sides, in their order, -/
  launched : ∀ {t}, Reaches s.step t →
    t.started s.expansions.size ++ t.waiting s.expansions.size = tokenSides as
  /-- and all are started before the rest of the work goes on. -/
  returned : ∀ {t}, Reaches s.step t → t.agenda <:+ rest →
    t.started s.expansions.size = tokenSides as
  nested : ∀ {t i d out}, Reaches s.step t →
    t.Fires (.side s.expansions.size i d) (.ok out) →
    ∃ a ts, as[i]? = some a ∧ d.of a = .tokens ts ∧
      t.Yields (.side s.expansions.size i d) ts out
  handed : ∀ {t r}, Follows s t → Concludes t s.expansions.size r →
    t.step.agenda = .finish o p r :: t.agenda.tail
  once : ∀ {t u r q}, Follows s t → Concludes t s.expansions.size r → Reaches t.step u →
    ¬ Concludes u s.expansions.size q
  success : ∀ {t hs}, Follows s t → Concludes t s.expansions.size (.ok hs) →
    hs.length = as.length ∧ ∀ (i : Nat) a h, as[i]? = some a → hs[i]? = some h →
      PairCame s.step t s.expansions.size i a h
  /-- A failure is that of the nested run that failed first, two steps before. -/
  failure : ∀ {t err}, Follows s t → Concludes t s.expansions.size (.error err) →
    ∃ u i d a cause rest', FirstNested s u s.expansions.size i d cause rest' ∧
      as[i]? = some a ∧ err = .nestedExpansion a.key.plainText cause ∧ t = u.step.step
  /-- That failure is handed on before anything else happens. -/
  promptly : ∀ {t i d cause rest'}, FirstNested s t s.expansions.size i d cause rest' →
    ∃ a, as[i]? = some a ∧ (t.settle 3).agenda =
      .finish o p (.error (.nestedExpansion a.key.plainText cause)) :: rest' ∧
      (t.settle 3).events = t.events
  concluded : ∀ {t}, Reaches s.step t → t.agenda = [] →
    (∀ i d ts, (i, d, ts) ∈ tokenSides as →
      ∃ r, Handed s.step t (.side s.expansions.size i d) r) →
    ∃ u r, Follows s u ∧ Concludes u s.expansions.size r ∧ Reaches u.step t

/-! ### Closed joins -/

def Closed (t : Session σ) (e : Nat) : Prop :=
  ∃ x, t.expansions[e]? = some x ∧ x.pairs.delivered = true

theorem Move.closed_pairs {task : Task σ} (h : Move s task t) {e : Nat} (hc : Closed s e) :
    Closed t e := by
  obtain ⟨x, hx, hd⟩ := hc
  cases h with
  | noPairs | expand _ => exact ⟨x, getElem?_push_of_some hx _, hd⟩
  | @settleSide e' i d r y j a hy _ _ =>
    rcases getElem?_set_of_some hy { y with sides := y.sides.set i (j.fill d.slot r).1 } hx with
      ⟨-, rfl, hx'⟩ | ⟨-, hx'⟩
    · exact ⟨_, hx', hd⟩
    · exact ⟨x, hx', hd⟩
  | @settlePair e' i r y hy =>
    rcases getElem?_set_of_some hy { y with pairs := (y.pairs.fill i r).1 } hx with
      ⟨-, rfl, hx'⟩ | ⟨-, hx'⟩
    · exact ⟨_, hx', (Join.grows_fill ..).delivered hd⟩
    · exact ⟨x, hx', hd⟩
  | _ => exact ⟨x, hx, hd⟩

theorem Closed.mono {e : Nat} (hc : Closed s e) (h : Reaches s t) : Closed t e := by
  refine h.keeps (P := fun t => Closed t e) (fun _ _ _ hm hc => hm.closed_pairs hc)
    (fun _ _ _ ha hc => ?_) hc
  obtain ⟨-, -, hx, -⟩ := ha.puts
  rwa [Closed, hx]

theorem Concludes.closed {e : Nat} {r : Outcome (List (Held (Attribute Token)))}
    (h : Concludes t e r) : Closed t.step e := by
  cases h with
  | atOnce ha he =>
    subst he
    have hm := move_of_agenda ha
    generalize t.step = u at hm ⊢
    cases hm with
    | noPairs => exact ⟨_, Array.getElem?_push_size, rfl⟩
    | expand hn => exact absurd rfl hn
  | joined ha hx hf =>
    have hm := move_of_agenda ha
    generalize t.step = u at hm ⊢
    cases hm with
    | @settlePair _ _ _ y hy =>
      obtain rfl := Option.some.inj (hx.symm.trans hy)
      exact ⟨_, Array.getElem?_setIfInBounds_self_of_lt (lt_size_of_some hx),
        (Join.closes_of_delivers hf).2⟩
    | noExpansion hn =>
      have hn : t.expansions[e]? = none := hn
      rw [hx] at hn
      cases hn

theorem Closed.not_concludes {e : Nat} {r : Outcome (List (Held (Attribute Token)))}
    (hc : Closed t e) : ¬ Concludes t e r := by
  obtain ⟨x, hx, hd⟩ := hc
  intro h
  cases h with
  | atOnce _ he =>
    subst he
    exact Nat.lt_irrefl _ (lt_size_of_some hx)
  | joined _ hy hf =>
    obtain rfl := Option.some.inj (hx.symm.trans hy)
    rw [Join.fill_of_delivered hd] at hf
    cases hf

/-! ### Failures -/

theorem climb_side {e i : Nat} {d : Side} {cause : ExpansionError} {rest : List (Task σ)}
    {x : Expansion} {j : Join (Content Token)} {a : Attribute Token}
    (ha : t.agenda = .deliver (.side e i d) (.error cause) :: rest)
    (hx : t.expansions[e]? = some x) (hj : x.sides[i]? = some j) (hi : x.attributes[i]? = some a)
    (ho : j.delivered = false) :
    t.step.step.agenda = .settlePair e i (.error (.nestedExpansion a.key.plainText cause)) :: rest ∧
      (∃ sides, t.step.step.expansions[e]? = some { x with sides := sides }) ∧
      t.step.step.events = t.events := by
  have hs : t.step = ({ t with agenda := rest } : Session σ).push
      [.settleSide e i d (.error cause)] := step_of_move ha .side
  have hss : t.step.step = (({ t with agenda := rest } : Session σ).setExpansion e
      { x with sides := x.sides.set i { j with delivered := true } }).push
      [.settlePair e i (.error (.nestedExpansion a.key.plainText cause))] := by
    rw [hs]
    exact perform_settleSide_error (s := { t with agenda := rest }) hx hj ho hi d cause
  rw [hss]
  exact ⟨rfl, ⟨_, Array.getElem?_setIfInBounds_self_of_lt (lt_size_of_some hx)⟩, rfl⟩

theorem closed_of_settlePair {e i : Nat} {err : ExpansionError} {rest : List (Task σ)}
    {x : Expansion} (ha : t.agenda = .settlePair e i (.error err) :: rest)
    (hx : t.expansions[e]? = some x) : Closed t.step e := by
  have hm := move_of_agenda ha
  generalize t.step = u at hm ⊢
  cases hm with
  | settlePair hy =>
    exact ⟨_, Array.getElem?_setIfInBounds_self_of_lt (lt_size_of_some hx),
      Join.delivered_fill_error ..⟩
  | noExpansion hn =>
    have hn : t.expansions[e]? = none := hn
    rw [hx] at hn
    cases hn

theorem side_of_fires (ht : Reachable t) {e i : Nat} {d : Side} {r : Outcome (List Token)}
    (hf : t.Fires (.side e i d) r) :
    ∃ x j a ts, t.expansions[e]? = some x ∧ x.sides[i]? = some j ∧ x.attributes[i]? = some a ∧
      j.slots[d.slot]? = some none ∧ d.of a = .tokens ts := by
  obtain ⟨x, a, ts, hx, ha, hd, -⟩ := rooted_of_fires ht hf
  obtain ⟨y, j, hy, hj, hn⟩ := ht.ledger.free _ rfl (debt_pos_of_fires hf)
  obtain rfl := Option.some.inj (hx.symm.trans hy)
  exact ⟨x, j, a, ts, hx, hj, ha, hn, hd⟩

theorem Holds.side_open_of_fires {e : Nat} {x : Expansion} (h : Holds s t e x) (hg : Ledger t)
    {i : Nat} {d : Side} {r : Outcome (List Token)} {j : Join (Content Token)}
    (hf : t.Fires (.side e i d) r) (hj : x.sides[i]? = some j)
    (hn : j.slots[d.slot]? = some none) (hd : x.pairs.delivered = false) :
    j.delivered = false := by
  obtain ⟨rest, ha⟩ := hf
  by_contra hc
  rcases h.side_closed i j hj ((Bool.not_eq_false _).mp hc) with ⟨vs, hv⟩ | hc | ⟨err, hm⟩
  · exact not_empty_of_full hv _ hn
  · rw [hd] at hc
    cases hc
  · rw [ha] at hm
    rcases List.mem_cons.1 hm with hm | hm
    · cases hm
    · cases hg.quiet _ (by rw [ha]; exact hm)

theorem closed_of_failed (hs : Reachable s) {e : Nat} (hp : Progress s s.step e)
    (ht : Reaches s.step t) {i : Nat} {d : Side} {cause : ExpansionError}
    (hf : t.Fires (.side e i d) (.error cause)) (hu : Reaches t.step u) {g : Target}
    {r : Outcome (List Token)} (hq : u.Fires g r) : Closed u e := by
  have hrt := (hs.reaches (.step .refl)).reaches ht
  obtain ⟨x, j, a, ts, hx, hj, hi, hn, -⟩ := side_of_fires hrt hf
  have hh := (hp.reaches hs ht).holds x hx
  obtain ⟨rest', hua⟩ := hq
  cases hd : x.pairs.delivered with
  | true => exact Closed.mono ⟨x, hx, hd⟩ (Reaches.of_step hu)
  | false =>
    have ho := hh.side_open_of_fires hrt.ledger hf hj hn hd
    obtain ⟨rest, ha⟩ := hf
    obtain ⟨hss, ⟨sides, hy⟩, -⟩ := climb_side ha hx hj hi ho
    -- the failure is taken in for the side and for the pair before anything else happens
    have hs₁ := step_of_fires_side ha
    rcases hu.eq_or_step (by rw [isOpen, hs₁]; rfl) with rfl | hu
    · rw [hs₁] at hua
      cases hua
    · rcases hu.eq_or_step (by rw [isOpen, hss]; rfl) with rfl | hu
      · rw [hss] at hua
        cases hua
      · exact (closed_of_settlePair hss hy).mono hu

theorem PairCame.side {e i : Nat} {a : Attribute Token} {h : Held (Attribute Token)}
    (hp : PairCame s t e i a h) (hn : a.needsExpansion = true) (d : Side) :
    ∃ c, SideCame s t e i d a c := by
  cases hp with
  | kept hk =>
    rw [hn] at hk
    cases hk
  | made _ hk hv =>
    cases d with
    | key => exact ⟨_, hk⟩
    | value => exact ⟨_, hv⟩

theorem FirstNested.pairs_open (hs : Reachable s) {e : Nat} (hp : Progress s s.step e) {i : Nat}
    {d : Side} {cause : ExpansionError} {rest : List (Task σ)}
    (hf : FirstNested s t e i d cause rest) {x : Expansion} (hx : t.expansions[e]? = some x) :
    x.pairs.delivered = false := by
  have hr := hs.reaches (.step .refl)
  have hfires : t.Fires (.side e i d) (.error cause) := ⟨rest, hf.agenda⟩
  have hh := (hp.reaches hs hf.reached).holds x hx
  obtain ⟨y, a, ts, hy, ha, hd, -⟩ := rooted_of_fires (hr.reaches hf.reached) hfires
  obtain rfl := Option.some.inj (hx.symm.trans hy)
  by_contra hc
  rcases hh.closed ((Bool.not_eq_false _).mp hc) with ⟨hs', hv⟩ | ⟨j, d', c, hc⟩
  · -- the pair of the side would be made of what its nested run had handed over before
    have hlt : i < hs'.length := by
      have := hh.pairs_length
      rw [hv, List.length_map] at this
      exact this ▸ (List.getElem?_eq_some_iff.1 ha).1
    have hpair := hh.pair i a hs'[i] ha
      (by rw [hv, List.getElem?_map, List.getElem?_eq_getElem hlt]; rfl)
    obtain ⟨c, hcame⟩ := hpair.side (Attribute.needsExpansion_of_tokens hd) d
    rw [SideCame, hd] at hcame
    obtain ⟨out, -, u, hu, hfu, hut⟩ := hcame
    have hku : u.Known (.side e i d) := (hp.reaches hs hu).record
    exact not_fires_again (hr.reaches hu).ledger hku hfu hut hfires
  · exact hf.first j d' c hc

theorem expansions_step {as : List (Attribute Token)} {o : Options} {p : Purpose}
    {rest : List (Task σ)} (ha : s.agenda = .expand as o p :: rest) :
    s.step.expansions[s.expansions.size]? = some (newExpansion as o p) := by
  have hm := move_of_agenda ha
  generalize s.step = u at hm ⊢
  cases hm with
  | noPairs | expand _ => exact Array.getElem?_push_size

theorem expansion_of_reaches {as : List (Attribute Token)} {o : Options} {p : Purpose}
    {rest : List (Task σ)} (ha : s.agenda = .expand as o p :: rest) (ht : Reaches s.step t) :
    ∃ x, t.expansions[s.expansions.size]? = some x ∧ x.attributes = as ∧ x.options = o ∧
      x.purpose = p := by
  obtain ⟨sides, pairs, hx⟩ := ht.extends.expansions _ _ (expansions_step ha)
  exact ⟨_, hx, rfl, rfl, rfl⟩

theorem Concludes.cases_follows (hs : Reachable s) {as : List (Attribute Token)} {o : Options}
    {p : Purpose} {rest : List (Task σ)} (ha : s.agenda = .expand as o p :: rest)
    {r : Outcome (List (Held (Attribute Token)))} (hf : Follows s t)
    (hc : Concludes t s.expansions.size r) :
    (t = s ∧ as = [] ∧ r = .ok []) ∨ Reaches s.step t ∧ ∃ i q x rest',
      t.agenda = .settlePair s.expansions.size i q :: rest' ∧
        t.expansions[s.expansions.size]? = some x ∧ (x.pairs.fill i q).2 = some r ∧
        x.attributes = as ∧ x.options = o ∧ x.purpose = p := by
  rcases hf with rfl | ht
  · cases hc with
    | atOnce hb _ =>
      rw [ha] at hb
      cases hb
      exact Or.inl ⟨rfl, rfl, rfl⟩
    | joined hb _ _ =>
      rw [ha] at hb
      cases hb
  · obtain ⟨y, hy, hrecord⟩ := expansion_of_reaches ha ht
    cases hc with
    | atOnce _ he =>
      have := ((progress_step hs ha).reaches hs ht).record
      omega
    | joined hb hx hd =>
      obtain rfl := Option.some.inj (hx.symm.trans hy)
      exact Or.inr ⟨ht, _, _, _, _, hb, hx, hd, hrecord⟩

/-- What the join of a list delivers: all its pairs, or the failure that came. -/
theorem Progress.delivers {e : Nat} (hp : Progress s t e) {i : Nat}
    {q : Outcome (Held (Attribute Token))} {rest : List (Task σ)} {x : Expansion}
    {r : Outcome (List (Held (Attribute Token)))} (ha : t.agenda = .settlePair e i q :: rest)
    (hx : t.expansions[e]? = some x) (hd : (x.pairs.fill i q).2 = some r) :
    (∃ err a, r = .error err ∧ x.attributes[i]? = some a ∧
      PairResult s.step t e i a (.error err)) ∨
    ∃ hs : List (Held (Attribute Token)), r = .ok hs ∧ hs.length = x.attributes.length ∧
      ∀ (k : Nat) a h, x.attributes[k]? = some a → hs[k]? = some h → PairCame s.step t e k a h := by
  have hh := hp.holds x hx
  have hback : Backed s t e (.settlePair e i q) := hp.tasks _ (ha ▸ List.mem_cons_self)
  obtain ⟨a, hi, hpr⟩ := hback rfl
  rw [pair?, hx] at hi
  rcases Join.delivers_all (Q := fun k h => ∀ b, x.attributes[k]? = some b →
      PairCame s.step t e k b h) hh.counts hd (fun k h hk b hb => hh.pair k b h hb hk)
    (fun h hq b hb => by
      subst hq
      obtain rfl := Option.some.inj (hi.symm.trans hb)
      exact hpr) with ⟨err, rfl, rfl⟩ | ⟨vs, rfl, hlen, hall⟩
  · exact Or.inl ⟨err, a, rfl, hi, hpr⟩
  · exact Or.inr ⟨vs, rfl, hlen.trans hh.pairs_length, fun k b h hb hk => hall k h hk b hb⟩

/-- A failure of a list is that of the nested run that failed first. -/
theorem firstNested_of_failure (hs : Reachable s) {e : Nat} (hp : Progress s s.step e) {i : Nat}
    {a : Attribute Token} {err : ExpansionError} (hpr : PairResult s.step t e i a (.error err))
    (hc : ¬ Closed t e) :
    ∃ u d cause rest, FirstNested s u e i d cause rest ∧
      err = .nestedExpansion a.key.plainText cause ∧ t = u.step.step := by
  obtain ⟨u, d, cause, hu, hf, rfl, rfl⟩ := hpr
  obtain ⟨rest, ha⟩ := hf
  refine ⟨u, d, cause, rest, ⟨hu, ha, ?_⟩, rfl, rfl⟩
  rintro j d' c ⟨w, hw, hfw, hwu⟩
  exact hc ((closed_of_failed hs hp hw hfw hwu ⟨rest, ha⟩).mono (.step (.step .refl)))

/-- The first failure of a list is handed on before anything else happens. -/
theorem FirstNested.promptly (hs : Reachable s) {e : Nat} (hp : Progress s s.step e) {i : Nat}
    {d : Side} {cause : ExpansionError} {rest : List (Task σ)}
    (hf : FirstNested s t e i d cause rest) {x : Expansion} (hx : t.expansions[e]? = some x) :
    ∃ a, x.attributes[i]? = some a ∧ (t.settle 3).agenda =
      .finish x.options x.purpose (.error (.nestedExpansion a.key.plainText cause)) :: rest ∧
      (t.settle 3).events = t.events := by
  have hrt := (hs.reaches (.step .refl)).reaches hf.reached
  have hfires : t.Fires (.side e i d) (.error cause) := ⟨rest, hf.agenda⟩
  have hd := hf.pairs_open hs hp hx
  obtain ⟨y, j, a, ts, hy, hj, hi, hn, -⟩ := side_of_fires hrt hfires
  obtain rfl := Option.some.inj (hx.symm.trans hy)
  have ho := ((hp.reaches hs hf.reached).holds x hx).side_open_of_fires hrt.ledger hfires hj hn hd
  obtain ⟨ha, ⟨sides, hx'⟩, he⟩ := climb_side hf.agenda hx hj hi ho
  have hstep : t.settle 3 = t.step.step.step := by
    rw [settle_succ, settle_succ, settle_succ]
    rfl
  have hfin : t.step.step.step = (({ t.step.step with agenda := rest } : Session σ).setExpansion e
      { x with sides := sides, pairs := { x.pairs with delivered := true } }).push
      [.finish x.options x.purpose (.error (.nestedExpansion a.key.plainText cause))] :=
    (step_of_agenda ha).trans
      (perform_settlePair_error (s := { t.step.step with agenda := rest }) hx' hd i _)
  rw [hstep, hfin]
  exact ⟨a, hi, rfl, he⟩

/-- When nothing is left to do, a side that is owed its result waits for its nested
run. -/
theorem exists_stream_of_owed (hr : Reachable t) {e i : Nat} {d : Side} (ha : t.agenda = [])
    (hd : 0 < t.debt (.side e i d)) :
    ∃ (n : Nat) (y : Stream), t.streams[n]? = some y ∧ y.target = .side e i d := by
  have hagenda : t.agenda.countP (Task.owes (.side e i d)) = 0 := by rw [ha]; rfl
  have hexp : t.expansions.countP (Expansion.owes (.side e i d)) = 0 := by
    rw [Array.countP_eq_zero]
    intro y _
    unfold Expansion.owes Purpose.target
    cases y.purpose <;> simp
  have hinv : t.invocations.countP (Invocation.owes (.side e i d)) = 0 := by
    rw [Array.countP_eq_zero]
    intro v hv ho
    simp only [Invocation.owes, Bool.and_eq_true, beq_iff_eq] at ho
    obtain ⟨k, hk⟩ := Array.getElem?_of_mem hv
    obtain ⟨p, hp⟩ := hr.lineage.invocations k v hk
    rw [ho.2] at hp
    exact hp
  rw [debt, hagenda, hexp, hinv] at hd
  obtain ⟨y, hy, ho⟩ := Array.countP_pos_iff.1 (by omega :
    0 < t.streams.countP (Stream.owes (.side e i d)))
  simp only [Stream.owes, Bool.and_eq_true, beq_iff_eq] at ho
  obtain ⟨n, hn⟩ := Array.getElem?_of_mem hy
  exact ⟨n, y, hn, ho.2⟩

theorem Holds.delivered_of_rest (hr : Reachable s) {e : Nat} (hp : Progress s s.step e)
    (ht : Reaches s.step t) {x : Expansion} (hx : t.expansions[e]? = some x) (ha : t.agenda = [])
    (hall : ∀ i d ts, (i, d, ts) ∈ tokenSides x.attributes →
      ∃ r, Handed s.step t (.side e i d) r) : x.pairs.delivered = true := by
  have hrs := hr.reaches (.step .refl)
  have hrt := hrs.reaches ht
  have hh := (hp.reaches hr ht).holds x hx
  by_contra ho
  obtain ⟨i, hi⟩ := Join.exists_empty hh.counts ((Bool.not_eq_true _).mp ho)
  rcases hh.missing i ((Bool.not_eq_true _).mp ho) hi with hm | ⟨r, hm⟩ | ⟨j, a, hj, hb, hn, hd⟩
  · rw [ha] at hm
    cases hm
  · rw [ha] at hm
    cases hm
  · obtain ⟨hcount, hlen⟩ := hh.side_counts i j hj
    obtain ⟨d, hk⟩ := Join.exists_empty_side hcount hlen hd
    have hpos := hrt.ledger.owed (.side e i d) ⟨x, j, a, hx, hj, hb, hn, hd, hk⟩
    obtain ⟨n, y, hy, hg⟩ := exists_stream_of_owed hrt ha hpos
    obtain ⟨r, u, hu, hf, hut⟩ := hall i d _ (mem_tokenSides_of_stream hrt hx hy hg)
    -- the nested run was over, so its side is not owed its result any more
    obtain ⟨rest, hua⟩ := hf
    have hs₁ := step_of_fires_side hua
    rcases hut.eq_or_step (by rw [isOpen, hs₁]; rfl) with rfl | hut
    · rw [hs₁] at ha
      cases ha
    · have hku : u.Known (.side e i d) := (hp.reaches hr hu).record
      have := debt_side_eq_zero (hrs.reaches hu).ledger hku ⟨rest, hua⟩ hut
      omega

/-- **What becomes of an attribute list**, whatever the handlers do. -/
theorem Reachable.gathers (hs : Reachable s) {as : List (Attribute Token)} {o : Options}
    {p : Purpose} {rest : List (Task σ)} (ha : s.agenda = .expand as o p :: rest) :
    Gathers s as o p rest := by
  have hr := hs.reaches (.step .refl)
  have hp := progress_step hs ha
  have launched {t : Session σ} (ht : Reaches s.step t) :
      t.started s.expansions.size ++ t.waiting s.expansions.size = tokenSides as := by
    obtain ⟨x, hx, hxa, -⟩ := expansion_of_reaches ha ht
    rw [(hr.reaches ht).launch hx, hxa]
  exact {
    launched := launched
    returned := fun {t} ht hsuf => by
      rw [← launched ht, Session.waiting, List.flatMap_eq_nil_iff.2, List.append_nil]
      intro k hk
      refine hs.ledger.launches_eq_nil (Array.getElem?_eq_none (Nat.le_refl _)) ?_
      rw [ha]
      exact List.mem_cons_of_mem _ (hsuf.subset hk)
    nested := fun {t i d out} ht hf => by
      have hrt := hr.reaches ht
      obtain ⟨x, a, ts, hx, hi, hd, hroot⟩ := rooted_of_fires hrt hf
      obtain ⟨y, hy, rfl, -⟩ := expansion_of_reaches ha ht
      obtain rfl := Option.some.inj (hx.symm.trans hy)
      exact ⟨a, ts, hi, hd, (hroot.success hrt.ledger hrt.lineage hrt.account hf).2⟩
    handed := fun {t r} hf hc => by
      rcases hc.cases_follows hs ha hf with
        ⟨rfl, rfl, rfl⟩ | ⟨-, i, q, x, rest', hb, hx, hd, -, rfl, rfl⟩
      · rw [step_of_move ha .noPairs, ha]
        rfl
      · rw [step_of_move hb (.settlePair hx), hb, hd]
        rfl
    once := fun {t u r q} hf hc hu => (hc.closed.mono hu).not_concludes
    success := fun {t hs'} hf hc => by
      rcases hc.cases_follows hs ha hf with
        ⟨rfl, rfl, hr'⟩ | ⟨ht, i, q, x, rest', hb, hx, hd, rfl, -, -⟩
      · cases hr'
        exact ⟨rfl, fun i a h hi => by cases hi⟩
      · rcases (hp.reaches hs ht).delivers hb hx hd with ⟨err, a, he, -⟩ | ⟨vs, he, hall⟩
        · cases he
        · cases he
          exact hall
    failure := fun {t err} hf hc => by
      rcases hc.cases_follows hs ha hf with
        ⟨-, -, he⟩ | ⟨ht, i, q, x, rest', hb, hx, hd, rfl, -, -⟩
      · cases he
      · rcases (hp.reaches hs ht).delivers hb hx hd with ⟨err', a, he, hi, hpr⟩ | ⟨vs, he, -⟩
        · cases he
          obtain ⟨u, d, cause, rest'', hfirst, herr, htu⟩ :=
            firstNested_of_failure hs hp hpr fun hcl => hcl.not_concludes hc
          exact ⟨u, i, d, a, cause, rest'', hfirst, hi, herr, htu⟩
        · cases he
    promptly := fun {t i d cause rest'} hf => by
      obtain ⟨x, hx, rfl, rfl, rfl⟩ := expansion_of_reaches ha hf.reached
      exact hf.promptly hs hp hx
    concluded := fun {t} ht hag hall => by
      obtain ⟨x, hx, rfl, -⟩ := expansion_of_reaches ha ht
      have hd := Holds.delivered_of_rest hs hp ht hx hag hall
      exact ((hp.reaches hs ht).holds x hx).concluded hd }

def expanding : Session Unit :=
  ((Session.new {} {} ()).register "double" .templates .any Handler.duplicate).expandAttributes
    [⟨.text "a", .text "b", some "a", none, none⟩,
      ⟨.tokens [.text "k"], .text "v", none, none, none⟩] {} |>.2

theorem gathers_expanding :
    ∃ t hs, Reaches expanding.step t ∧ Concludes t 0 (.ok hs) ∧ hs.length = 2 ∧
      t.step.agenda = [.finish {} (.job 0) (.ok hs)] ∧
      t.started 0 ++ t.waiting 0 = [(1, .key, [.text "k"])] ∧
      hs = [.shared ⟨.text "a", .text "b", some "a", none, none⟩,
        .own (newAttribute (.tokens [.text "k", .text "k"]) (.text "v"))] := by
  have hs : Reachable expanding :=
    ⟨_, _, _, .act (.act .refl rfl (.register _ _ _ _)) rfl (.expandAttributes _ _)⟩
  have hg : Gathers expanding _ {} (.job 0) [] := Reachable.gathers hs rfl
  have ht : Reaches expanding.step (expanding.step.settle 18) := .settle .refl 18
  have hc : Concludes (expanding.step.settle 18) 0 (.ok [.shared _, .own _]) :=
    .joined (by rfl) (by rfl) (by rfl)
  exact ⟨_, _, ht, hc, (hg.success (Or.inr ht) hc).1, hg.handed (Or.inr ht) hc,
    hg.launched ht, rfl⟩

end Session

end WikiExpansion
