import WikiExpansion.Proofs.Debt

/-!
# The ledger of a session

`Ledger` says how the debts of a session stand.  A job is owed its result until
it is over, and then no more; a place in a stream or in an attribute list is owed
at most one result, none once it is filled, and one as long as somebody waits for
it.  Results are carried one at a time: only the first task can be one.

Every reachable session keeps its ledger (`Reachable.ledger`).
-/

namespace WikiExpansion

/-! ### The two sides of a pair -/

theorem Side.slot_injective {d d' : Side} (h : d.slot = d'.slot) : d = d' := by
  cases d with
  | key =>
    cases d' with
    | key => rfl
    | value => cases h
  | value =>
    cases d' with
    | key => cases h
    | value => rfl

theorem Side.exists_slot_eq {k : Nat} (h : k < 2) : ∃ d : Side, d.slot = k := by
  match k, h with
  | 0, _ => exact ⟨.key, rfl⟩
  | 1, _ => exact ⟨.value, rfl⟩

theorem Attribute.needsExpansion_of_tokens {a : Attribute Token} {d : Side} {ts : List Token}
    (h : d.of a = .tokens ts) : a.needsExpansion = true := by
  cases d with
  | key => exact Bool.or_eq_true_iff.2 (Or.inl (congrArg Content.isTokens h))
  | value => exact Bool.or_eq_true_iff.2 (Or.inr (congrArg Content.isTokens h))

theorem Join.exists_empty_side {j : Join (Content Token)} (hc : j.Counts)
    (hl : j.slots.length = 2) (ho : j.delivered = false) :
    ∃ d : Side, j.slots[d.slot]? = some none := by
  obtain ⟨k, hk⟩ := Join.exists_empty hc ho
  obtain ⟨d, rfl⟩ := Side.exists_slot_eq (hl ▸ (List.getElem?_eq_some_iff.1 hk).1)
  exact ⟨d, hk⟩

/-- The join of a pair hands on the failure of a side, or what has come of both. -/
theorem Join.delivers_sides {Q : Side → Content Token → Prop} {j : Join (Content Token)}
    (hc : j.Counts) (hl : j.slots.length = 2) {d : Side} {r : Outcome (Content Token)}
    {q : Outcome (List (Content Token))} (hq : (j.fill d.slot r).2 = some q)
    (hs : ∀ (d : Side) (c : Content Token), j.slots[d.slot]? = some (some c) → Q d c)
    (hr : ∀ c, r = .ok c → Q d c) :
    (∃ e, r = .error e ∧ q = .error e) ∨ ∃ k v, q = .ok [k, v] ∧ Q .key k ∧ Q .value v := by
  rcases Join.delivers_all (Q := fun k c => ∀ d : Side, d.slot = k → Q d c) hc hq
    (fun k c hk d hd => hs d c (hd ▸ hk))
    (fun c hc d' hd => Side.slot_injective hd.symm ▸ hr c hc) with he | ⟨vs, rfl, hlen, hvs⟩
  · exact Or.inl he
  · obtain ⟨k, v, rfl⟩ := List.length_eq_two.1 (hlen.trans hl)
    exact Or.inr ⟨k, v, rfl, hvs 0 k rfl .key rfl, hvs 1 v rfl .value rfl⟩

namespace Session

variable {σ : Type}

def Free (s : Session σ) : Target → Prop
  | .chunk n i => ∃ x, s.streams[n]? = some x ∧ x.join.slots[i]? = some none
  | .side e i d =>
    ∃ x j, s.expansions[e]? = some x ∧ x.sides[i]? = some j ∧ j.slots[d.slot]? = some none
  | .callback n => n < s.callbacks.size
  | _ => False

/-- The place is empty and its join waits for it. -/
def Awaited (s : Session σ) : Target → Prop
  | .chunk n i =>
    ∃ x, s.streams[n]? = some x ∧ x.join.delivered = false ∧ x.join.slots[i]? = some none
  | .side e i d =>
    ∃ x j a, s.expansions[e]? = some x ∧ x.sides[i]? = some j ∧ x.attributes[i]? = some a ∧
      a.needsExpansion = true ∧ j.delivered = false ∧ j.slots[d.slot]? = some none
  | _ => False

theorem Free.of_eq {s t : Session σ} (hs : t.streams = s.streams)
    (he : t.expansions = s.expansions) (hc : t.callbacks = s.callbacks) {g : Target}
    (h : s.Free g) : t.Free g := by
  cases g with
  | chunk n i => rw [Free, hs]; exact h
  | side e i d => rw [Free, he]; exact h
  | callback n => rw [Free, hc]; exact h
  | _ => exact h

theorem Awaited.of_eq {s t : Session σ} (hs : t.streams = s.streams)
    (he : t.expansions = s.expansions) {g : Target} (h : s.Awaited g) : t.Awaited g := by
  cases g with
  | chunk n i => rw [Awaited, hs]; exact h
  | side e i d => rw [Awaited, he]; exact h
  | _ => exact h

theorem Awaited.isPlace {s : Session σ} {g : Target} (h : s.Awaited g) : g.isPlace = true := by
  cases g with
  | chunk _ _ | side _ _ _ => rfl
  | _ => exact h.elim

@[simp] theorem awaited_push {s : Session σ} {ts : List (Task σ)} {g : Target} :
    (s.push ts).Awaited g ↔ s.Awaited g :=
  ⟨Awaited.of_eq rfl rfl, Awaited.of_eq rfl rfl⟩

@[simp] theorem free_push {s : Session σ} {ts : List (Task σ)} {g : Target} :
    (s.push ts).Free g ↔ s.Free g :=
  ⟨Free.of_eq rfl rfl rfl, Free.of_eq rfl rfl rfl⟩

/-! ### Places of new records -/

theorem not_free_chunk (s : Session σ) (i : Nat) : ¬ s.Free (.chunk s.streams.size i) := by
  rintro ⟨x, hx, -⟩
  exact Nat.lt_irrefl _ (lt_size_of_some hx)

theorem not_free_side (s : Session σ) (i : Nat) (d : Side) :
    ¬ s.Free (.side s.expansions.size i d) := by
  rintro ⟨x, j, hx, -⟩
  exact Nat.lt_irrefl _ (lt_size_of_some hx)

theorem not_free_callback (s : Session σ) : ¬ s.Free (.callback s.callbacks.size) :=
  Nat.lt_irrefl _

theorem Free.addStream {s : Session σ} {g : Target} (h : s.Free g) (x : Stream) :
    (s.addStream x).Free g := by
  cases g with
  | chunk n i =>
    obtain ⟨y, hy, hi⟩ := h
    exact ⟨y, getElem?_push_of_some hy x, hi⟩
  | side e i d => exact h
  | _ => exact h

theorem Free.addExpansion {s : Session σ} {g : Target} (h : s.Free g) (x : Expansion) :
    (s.addExpansion x).Free g := by
  cases g with
  | side e i d =>
    obtain ⟨y, j, hy, hj, hd⟩ := h
    exact ⟨y, j, getElem?_push_of_some hy x, hj, hd⟩
  | chunk n i => exact h
  | _ => exact h

theorem Free.addCallback {s : Session σ} {g : Target} (h : s.Free g) (c : Callback σ) :
    (s.addCallback c).Free g := by
  cases g with
  | callback n =>
    have hn : n < s.callbacks.size := h
    show n < (s.callbacks.push c).size
    rw [Array.size_push]
    exact Nat.lt_succ_of_lt hn
  | chunk n i => exact h
  | side e i d => exact h
  | _ => exact h

theorem awaited_of_addStream {s : Session σ} {x : Stream} {g : Target}
    (h : (s.addStream x).Awaited g) :
    s.Awaited g ∨ ∃ i, g = .chunk s.streams.size i ∧ x.join.slots[i]? = some none := by
  cases g with
  | chunk n i =>
    obtain ⟨y, hy, hd, hi⟩ := h
    rcases getElem?_push_cases hy with hy | ⟨rfl, rfl⟩
    · exact Or.inl ⟨y, hy, hd, hi⟩
    · exact Or.inr ⟨i, rfl, hi⟩
  | side e i d => exact Or.inl h
  | _ => exact h.elim

theorem awaited_of_addExpansion {s : Session σ} {x : Expansion} {g : Target}
    (h : (s.addExpansion x).Awaited g) :
    s.Awaited g ∨ ∃ i d, g = .side s.expansions.size i d ∧ i < x.attributes.length := by
  cases g with
  | side e i d =>
    obtain ⟨y, j, a, hy, hj, ha, hd⟩ := h
    rcases getElem?_push_cases hy with hy | ⟨rfl, rfl⟩
    · exact Or.inl ⟨y, j, a, hy, hj, ha, hd⟩
    · exact Or.inr ⟨i, d, rfl, (List.getElem?_eq_some_iff.1 ha).1⟩
  | chunk n i => exact Or.inl h
  | _ => exact h.elim

/-! ### Places of records that a result is put into -/

section Fill

variable {s : Session σ} {g : Target} {n e i : Nat} {d : Side}

theorem Free.fillChunk {x : Stream} (hx : s.streams[n]? = some x) (h : s.Free g)
    (hne : g ≠ .chunk n i) (r : Outcome (List Token)) :
    (s.setStream n { x with join := (x.join.fill i r).1 }).Free g := by
  cases g with
  | chunk m k =>
    obtain ⟨y, hy, hk⟩ := h
    rcases getElem?_set_of_some hx { x with join := (x.join.fill i r).1 } hy with
      ⟨rfl, rfl, hy'⟩ | ⟨-, hy'⟩
    · have hki : k ≠ i := fun hki => hne (congrArg _ hki)
      exact ⟨_, hy', (Join.slots_fill_of_ne _ hki _).trans hk⟩
    · exact ⟨y, hy', hk⟩
  | _ => exact h.of_eq rfl rfl rfl

theorem Free.fillSide {x : Expansion} {j : Join (Content Token)} (hx : s.expansions[e]? = some x)
    (hj : x.sides[i]? = some j) (h : s.Free g) (hne : g ≠ .side e i d)
    (r : Outcome (Content Token)) :
    (s.setExpansion e { x with sides := x.sides.set i (j.fill d.slot r).1 }).Free g := by
  cases g with
  | side f k b =>
    obtain ⟨y, l, hy, hl, hb⟩ := h
    rcases getElem?_set_of_some hx { x with sides := x.sides.set i (j.fill d.slot r).1 } hy with
      ⟨rfl, rfl, hy'⟩ | ⟨-, hy'⟩
    · by_cases hk : i = k
      · subst hk
        obtain rfl := Option.some.inj (hj.symm.trans hl)
        have hbd : b.slot ≠ d.slot := fun hbd => hne (congrArg _ (Side.slot_injective hbd))
        exact ⟨_, _, hy', List.getElem?_set_self (List.getElem?_eq_some_iff.1 hj).1,
          (Join.slots_fill_of_ne _ hbd _).trans hb⟩
      · exact ⟨_, l, hy', (List.getElem?_set_ne hk).trans hl, hb⟩
    · exact ⟨y, l, hy', hl, hb⟩
  | _ => exact h.of_eq rfl rfl rfl

theorem Free.fillPair {x : Expansion} (hx : s.expansions[e]? = some x) (h : s.Free g)
    (r : Outcome (Held (Attribute Token))) :
    (s.setExpansion e { x with pairs := (x.pairs.fill i r).1 }).Free g := by
  cases g with
  | side f k b =>
    obtain ⟨y, l, hy, hl, hb⟩ := h
    rcases getElem?_set_of_some hx { x with pairs := (x.pairs.fill i r).1 } hy with
      ⟨rfl, rfl, hy'⟩ | ⟨-, hy'⟩
    · exact ⟨_, l, hy', hl, hb⟩
    · exact ⟨y, l, hy', hl, hb⟩
  | _ => exact h.of_eq rfl rfl rfl

/-- What a stream still waits for after a result, it waited for before, and it is not
the place of the result. -/
theorem awaited_of_fillChunk {x : Stream} (hx : s.streams[n]? = some x)
    {r : Outcome (List Token)}
    (h : (s.setStream n { x with join := (x.join.fill i r).1 }).Awaited g) :
    s.Awaited g ∧ g ≠ .chunk n i := by
  cases g with
  | chunk m k =>
    obtain ⟨y, hy, hd, hk⟩ := h
    rcases getElem?_set_cases hy with ⟨rfl, rfl⟩ | ⟨hn, hy⟩
    · refine ⟨⟨x, hx, Join.open_of_fill hd, Join.empty_of_fill hk⟩, ?_⟩
      rintro ⟨⟩
      exact Join.not_empty_of_open hd hk
    · exact ⟨⟨y, hy, hd, hk⟩, fun he => hn (Target.chunk.inj he).1⟩
  | side f k b => exact ⟨h, nofun⟩
  | _ => exact h.elim

theorem awaited_of_fillSide {x : Expansion} {j : Join (Content Token)}
    (hx : s.expansions[e]? = some x) (hj : x.sides[i]? = some j) {r : Outcome (Content Token)}
    (h : (s.setExpansion e { x with sides := x.sides.set i (j.fill d.slot r).1 }).Awaited g) :
    s.Awaited g ∧ g ≠ .side e i d := by
  cases g with
  | side f k b =>
    obtain ⟨y, l, c, hy, hl, hc, hn, hd, hb⟩ := h
    rcases getElem?_set_cases hy with ⟨rfl, rfl⟩ | ⟨hf, hy⟩
    · by_cases hk : i = k
      · subst hk
        simp only at hl
        rw [List.getElem?_set_self (List.getElem?_eq_some_iff.1 hj).1] at hl
        obtain rfl := Option.some.inj hl
        refine ⟨⟨x, j, c, hx, hj, hc, hn, Join.open_of_fill hd, Join.empty_of_fill hb⟩, ?_⟩
        rintro ⟨⟩
        exact Join.not_empty_of_open hd hb
      · simp only at hl
        rw [List.getElem?_set_ne hk] at hl
        exact ⟨⟨x, l, c, hx, hl, hc, hn, hd, hb⟩, fun he => hk (Target.side.inj he).2.1.symm⟩
    · exact ⟨⟨y, l, c, hy, hl, hc, hn, hd, hb⟩, fun he => hf (Target.side.inj he).1⟩
  | chunk m k => exact ⟨h, nofun⟩
  | _ => exact h.elim

theorem awaited_of_fillPair {x : Expansion} (hx : s.expansions[e]? = some x)
    {r : Outcome (Held (Attribute Token))}
    (h : (s.setExpansion e { x with pairs := (x.pairs.fill i r).1 }).Awaited g) :
    s.Awaited g := by
  cases g with
  | side f k b =>
    obtain ⟨y, l, c, hy, hl, hc, hn, hd, hb⟩ := h
    rcases getElem?_set_cases hy with ⟨rfl, rfl⟩ | ⟨-, hy⟩
    · exact ⟨x, l, c, hx, hl, hc, hn, hd, hb⟩
    · exact ⟨y, l, c, hy, hl, hc, hn, hd, hb⟩
  | chunk m k => exact h
  | _ => exact h.elim

end Fill

theorem getElem?_slots_new {α : Type} {n i : Nat} :
    (Join.new n : Join α).slots[i]? = some none ↔ i < n := by
  simp [Join.new, List.getElem?_replicate]

/-! ### What a move does to the places -/

/-- A place that a task opens was not there before. -/
theorem not_free_of_opens {s : Session σ} {g : Target} {task : Task σ}
    (h : s.opens g task = true) : ¬ s.Free g := by
  cases task with
  | stream ts _ _ _ _ =>
    obtain ⟨i, -, rfl⟩ := opens_stream.1 h
    exact not_free_chunk s i
  | expand as _ _ =>
    obtain ⟨i, -, rfl | rfl⟩ := opens_expand.1 h
    · exact not_free_side s i _
    · exact not_free_side s i _
  | follow f k =>
    cases k with
    | process ts o d k =>
      obtain rfl := eq_of_beq h
      exact not_free_callback s
    | _ => cases h
  | _ => cases h

theorem Move.free_of_opens {s t : Session σ} {task : Task σ} (h : Move s task t) {g : Target}
    (ho : s.opens g task = true) : t.Free g := by
  cases h with
  | noTokens =>
    obtain ⟨i, hi, -⟩ := opens_stream.1 ho
    exact absurd hi (Nat.not_lt_zero i)
  | stream _ =>
    obtain ⟨i, hi, rfl⟩ := opens_stream.1 ho
    exact ⟨_, Array.getElem?_push_size, getElem?_slots_new.2 hi⟩
  | noPairs =>
    obtain ⟨i, hi, -⟩ := opens_expand.1 ho
    exact absurd hi (Nat.not_lt_zero i)
  | expand _ =>
    obtain ⟨i, hi, rfl | rfl⟩ := opens_expand.1 ho
    all_goals
      refine ⟨_, .new 2, Array.getElem?_push_size, ?_, getElem?_slots_new.2 (by decide)⟩
      simp only [newExpansion, List.getElem?_replicate, if_pos hi]
  | process =>
    obtain rfl := eq_of_beq ho
    show s.callbacks.size < (s.callbacks.push _).size
    rw [Array.size_push]
    exact Nat.lt_succ_self _
  | _ => cases ho

theorem settles_deliver_chunk {s : Session σ} {g : Target} {n i : Nat}
    {r : Outcome (List Token)} :
    s.settles g (.deliver (.chunk n i) r) = false ↔ g ≠ .chunk n i :=
  beq_eq_false_iff_ne.trans ne_comm

theorem settles_settleSide {s : Session σ} {g : Target} {e i : Nat} {d : Side}
    {r : Outcome (Content Token)} :
    s.settles g (.settleSide e i d r) = false ↔ g ≠ .side e i d :=
  beq_eq_false_iff_ne.trans ne_comm

/-- An empty place stays empty unless it is settled. -/
theorem Move.free {s t : Session σ} {task : Task σ} (h : Move s task t) {g : Target}
    (hf : s.Free g) (hs : s.settles g task = false) : t.Free g := by
  cases h with
  | noTokens | stream _ => exact free_push.2 (hf.addStream _)
  | noPairs | expand _ => exact free_push.2 (hf.addExpansion _)
  | process => exact free_push.2 (hf.addCallback _)
  | chunk hx => exact free_push.2 (hf.fillChunk hx (settles_deliver_chunk.1 hs) _)
  | settleSide hx hj _ => exact free_push.2 (hf.fillSide hx hj (settles_settleSide.1 hs) _)
  | settlePair hx => exact free_push.2 (hf.fillPair hx _)
  | _ => exact hf.of_eq rfl rfl rfl

theorem Awaited.settles_expandPair {s : Session σ} {g : Target} (h : s.Awaited g) (e i : Nat) :
    s.settles g (.expandPair e i) = false := by
  simp only [settles, Bool.and_eq_false_iff]
  cases g with
  | side f k b =>
    obtain ⟨x, j, a, hx, -, ha, hn, -⟩ := h
    by_cases he : e = f ∧ i = k
    · obtain ⟨rfl, rfl⟩ := he
      exact Or.inr (by rw [pair?_of_some hx ha, Option.any_some, hn]; rfl)
    · refine Or.inl ?_
      simp only [Task.owes, Bool.or_eq_false_iff, beq_eq_false_iff_ne, ne_eq, Target.side.injEq]
      exact ⟨fun hs => he ⟨hs.1, hs.2.1⟩, fun hs => he ⟨hs.1, hs.2.1⟩⟩
  | chunk n i => exact Or.inl rfl
  | _ => exact h.elim

theorem Awaited.settles_expandSide {s : Session σ} {g : Target} (h : s.Awaited g) (e i : Nat)
    (d : Side) : s.settles g (.expandSide e i d) = false := by
  simp only [settles, Bool.and_eq_false_iff]
  cases g with
  | side f k b =>
    obtain ⟨x, j, a, hx, -, ha, hn, -⟩ := h
    by_cases he : e = f ∧ i = k
    · obtain ⟨rfl, rfl⟩ := he
      exact Or.inr (by rw [pair?_of_some hx ha]; rfl)
    · refine Or.inl ?_
      simp only [beq_eq_false_iff_ne, ne_eq, Target.side.injEq]
      exact fun hs => he ⟨hs.1, hs.2.1⟩
  | chunk n i => exact Or.inl rfl
  | _ => exact h.elim

/-- A place that is awaited, and was not opened by the task, was awaited before
and is not settled. -/
theorem Move.awaited {s t : Session σ} {task : Task σ} (h : Move s task t) {g : Target}
    (ho : s.opens g task = false) (ha : t.Awaited g) : s.Awaited g ∧ s.settles g task = false := by
  cases h with
  | noTokens =>
    rcases awaited_of_addStream (awaited_push.1 ha) with hs | ⟨i, rfl, hi⟩
    · exact ⟨hs, rfl⟩
    · exact absurd (getElem?_slots_new.1 hi) (Nat.not_lt_zero i)
  | stream _ =>
    rcases awaited_of_addStream (awaited_push.1 ha) with hs | ⟨i, rfl, hi⟩
    · exact ⟨hs, rfl⟩
    · rw [opens_stream.2 ⟨i, getElem?_slots_new.1 hi, rfl⟩] at ho
      cases ho
  | noPairs =>
    rcases awaited_of_addExpansion (awaited_push.1 ha) with hs | ⟨i, d, rfl, hi⟩
    · exact ⟨hs, rfl⟩
    · exact absurd hi (Nat.not_lt_zero i)
  | @expand as o p _ =>
    rcases awaited_of_addExpansion (awaited_push.1 ha) with hs | ⟨i, d, rfl, hi⟩
    · exact ⟨hs, rfl⟩
    · have hd : s.opens (.side s.expansions.size i d) (.expand as o p) = true := by
        refine opens_expand.2 ⟨i, hi, ?_⟩
        cases d with
        | key => exact Or.inl rfl
        | value => exact Or.inr rfl
      rw [hd] at ho
      cases ho
  | chunk hx =>
    obtain ⟨hs, hne⟩ := awaited_of_fillChunk hx (awaited_push.1 ha)
    exact ⟨hs, settles_deliver_chunk.2 hne⟩
  | settleSide hx hj _ =>
    obtain ⟨hs, hne⟩ := awaited_of_fillSide hx hj (awaited_push.1 ha)
    exact ⟨hs, settles_settleSide.2 hne⟩
  | settlePair hx => exact ⟨awaited_of_fillPair hx (awaited_push.1 ha), rfl⟩
  | finished | resume _ | noCallback _ =>
    refine ⟨ha.of_eq rfl rfl, ?_⟩
    cases g with
    | chunk _ _ | side _ _ _ => rfl
    | _ => exact ha.elim
  | noStream hx =>
    refine ⟨ha, settles_deliver_chunk.2 ?_⟩
    rintro rfl
    obtain ⟨y, hy, -⟩ := ha
    rw [hx] at hy
    cases hy
  | noSlot hx =>
    refine ⟨ha, settles_settleSide.2 ?_⟩
    rintro rfl
    obtain ⟨y, l, c, hy, hl, hc, -⟩ := ha
    rcases hx y hy with h | h
    · rw [hl] at h
      cases h
    · rw [hc] at h
      cases h
  | expandPair _ _ _ | keepPair _ _ _ =>
    have hs := awaited_push.1 ha
    exact ⟨hs, hs.settles_expandPair ..⟩
  | noPair _ => exact ⟨ha, ha.settles_expandPair ..⟩
  | textSide _ _ _ | tokenSide _ _ _ =>
    have hs := awaited_push.1 ha
    exact ⟨hs, hs.settles_expandSide ..⟩
  | noSide _ => exact ⟨ha, ha.settles_expandSide ..⟩
  | expanded | reconciled | notExpanded =>
    refine ⟨ha.of_eq rfl rfl, ?_⟩
    cases g with
    | chunk _ _ | side _ _ _ => rfl
    | _ => exact ha.elim
  | _ => exact ⟨ha.of_eq rfl rfl, rfl⟩

/-! ### The ledger -/

structure Ledger (s : Session σ) : Prop where
  quiet : ∀ task ∈ s.agenda.tail, task.isCarried = false
  jobs : ∀ j, s.debt (.job j) + s.reports j = if j < s.jobs then 1 else 0
  once : ∀ g, g.isSlot = true → s.debt g ≤ 1
  free : ∀ g, g.isSlot = true → 0 < s.debt g → s.Free g
  owed : ∀ g, s.Awaited g → 0 < s.debt g

/-- A job is over when its result is taken, and only then. -/
theorem Move.reports {s t : Session σ} {task : Task σ} (h : Move s task t) (j : Nat) :
    t.reports j = s.reports j + (s.settles (.job j) task).toNat := by
  cases h with
  | finished | expanded =>
    rw [reports_report]
    rfl
  | report => rw [reports_push, reports_note]; rfl
  | _ => rfl

theorem settles_le_debt (s : Session σ) (g : Target) (task : Task σ) :
    (s.settles g task).toNat ≤ (s.push [task]).debt g := by
  rw [debt_push_one]
  have : s.settles g task = true → task.owes g = true := by
    intro h
    cases task with
    | deliver g' r => cases g' <;> first | exact h | cases h
    | settleSide | finish => exact h
    | expandPair e i => exact (Bool.and_eq_true_iff.1 h).1
    | expandSide e i d => exact (Bool.and_eq_true_iff.1 h).1
    | _ => cases h
  cases hs : s.settles g task with
  | false => exact Nat.zero_le _
  | true =>
    rw [this hs]
    exact Nat.le_add_right _ _

theorem not_opens_job (s : Session σ) (j : Nat) (task : Task σ) :
    s.opens (.job j) task = false := by
  cases task with
  | stream ts o p h g' => simp [opens]
  | expand as o p => simp [opens]
  | follow f k => cases k <;> rfl
  | _ => rfl

/-- Where nothing is carried, only the first of the tasks put in front may be. -/
theorem quiet_push {s : Session σ} {ts : List (Task σ)}
    (hq : ∀ task ∈ s.agenda, task.isCarried = false)
    (ht : ∀ task ∈ ts.tail, task.isCarried = false) :
    ∀ task ∈ (s.push ts).agenda.tail, task.isCarried = false := by
  cases ts with
  | nil => exact fun task hm => hq task (List.mem_of_mem_tail hm)
  | cons a ts =>
    intro task hm
    rcases List.mem_append.1 (show task ∈ ts ++ s.agenda from hm) with hm | hm
    · exact ht task hm
    · exact hq task hm

theorem Move.quiet {s t : Session σ} {task : Task σ} (h : Move s task t)
    (hq : ∀ task ∈ s.agenda, task.isCarried = false) :
    ∀ task ∈ t.agenda.tail, task.isCarried = false := by
  have same : ∀ task ∈ s.agenda.tail, task.isCarried = false :=
    fun task hm => hq task (List.mem_of_mem_tail hm)
  have nothing : ∀ task ∈ ([] : List (Task σ)), task.isCarried = false :=
    fun task hm => absurd hm List.not_mem_nil
  have tail_option {α : Type} (o : Option α) (f : α → Task σ) :
      ∀ task ∈ (o.toList.map f).tail, task.isCarried = false := by
    cases o with
    | none => exact nothing
    | some _ => exact nothing
  cases h with
  | finished | noCallback _ | ignored _ | noStream _ | noPair _ | noSide _ | noSlot _
  | noExpansion _ | expanded | suspend => exact same
  | stream _ =>
    refine quiet_push hq fun task hm => ?_
    obtain ⟨i, hi, rfl⟩ := List.mem_mapIdx.1 (List.mem_of_mem_tail hm)
    rfl
  | expand _ =>
    refine quiet_push hq fun task hm => ?_
    obtain ⟨i, -, rfl⟩ := List.mem_map.1 (List.mem_of_mem_tail hm)
    rfl
  | chunk _ | settleSide _ _ _ | settlePair _ => exact quiet_push hq (tail_option _ _)
  | expandPair _ _ _ | complete | process | expandAttributes =>
    refine quiet_push hq fun task hm => ?_
    rw [List.mem_singleton.1 hm]
    rfl
  | _ => exact quiet_push hq nothing

theorem Move.ledger {s t : Session σ} {task : Task σ} (h : Move s task t)
    (hl : Ledger (s.push [task])) : Ledger t where
  quiet := h.quiet hl.quiet
  jobs j := by
    have hd := h.debt (g := .job j) rfl
    have hr := h.reports j
    have hj := hl.jobs j
    rw [not_opens_job, Bool.toNat_false] at hd
    have : t.jobs = s.jobs := by cases h <;> rfl
    rw [this]
    rw [reports_push, jobs_push] at hj
    omega
  once g hg := by
    have hd := h.debt (Target.isPlace_of_isSlot hg)
    have ho := hl.once g hg
    cases hop : s.opens g task with
    | false =>
      rw [hop, Bool.toNat_false] at hd
      omega
    | true =>
      have hz : (s.push [task]).debt g = 0 := by
        by_contra hn
        exact not_free_of_opens hop (free_push.1 (hl.free g hg (Nat.pos_of_ne_zero hn)))
      rw [hop, Bool.toNat_true] at hd
      omega
  free g hg hp := by
    have hd := h.debt (Target.isPlace_of_isSlot hg)
    cases hop : s.opens g task with
    | true => exact h.free_of_opens hop
    | false =>
      rw [hop, Bool.toNat_false] at hd
      have hf := free_push.1 (hl.free g hg (by omega))
      refine h.free hf ?_
      have ho := hl.once g hg
      cases hs : s.settles g task with
      | false => rfl
      | true =>
        rw [hs, Bool.toNat_true] at hd
        omega
  owed g ha := by
    have hd := h.debt ha.isPlace
    cases hop : s.opens g task with
    | true =>
      have := s.settles_le_debt g task
      rw [hop, Bool.toNat_true] at hd
      omega
    | false =>
      obtain ⟨hs, hn⟩ := h.awaited hop ha
      have := hl.owed g (awaited_push.2 hs)
      rw [hn, hop, Bool.toNat_false] at hd
      omega

theorem quiet_of_isOpen {s : Session σ} (ho : s.isOpen = true)
    (hq : ∀ task ∈ s.agenda.tail, task.isCarried = false) :
    ∀ task ∈ s.agenda, task.isCarried = false := by
  unfold isOpen at ho
  cases h : s.agenda with
  | nil => exact nofun
  | cons a rest =>
    rw [h] at ho hq
    intro task hm
    rcases List.mem_cons.1 hm with rfl | hm
    · simpa using ho
    · exact hq task hm

theorem Ledger.push {s : Session σ} (hl : Ledger s) (ho : s.isOpen = true) {task : Task σ}
    (hn : ∀ g, g.isPlace = true → task.owes g = false) :
    Ledger (s.push [task]) where
  quiet := quiet_push (quiet_of_isOpen ho hl.quiet) nofun
  jobs j := by
    rw [debt_push_one, hn _ rfl, Bool.toNat_false, Nat.zero_add]
    exact hl.jobs j
  once g hg := by
    rw [debt_push_one, hn _ (Target.isPlace_of_isSlot hg)]
    simpa using hl.once g hg
  free g hg hp := by
    rw [debt_push_one, hn _ (Target.isPlace_of_isSlot hg)] at hp
    exact free_push.2 (hl.free g hg (by simpa using hp))
  owed g ha := by
    rw [debt_push_one]
    have := hl.owed g (awaited_push.1 ha)
    omega

/-- A new job with a task that owes its result. -/
theorem Ledger.job {s : Session σ} (hl : Ledger s) (ho : s.isOpen = true) {task : Task σ}
    (hn : ∀ g, task.owes g = (Target.job s.jobs == g)) : Ledger (s.newJob.2.push [task]) := by
  have hd (g : Target) : (s.newJob.2.push [task]).debt g =
      (Target.job s.jobs == g).toNat + s.debt g := by
    rw [debt_push_one, hn]
    rfl
  have hs (g : Target) (hg : g.isSlot = true) : (Target.job s.jobs == g) = false := by
    cases g with
    | handle _ | job _ => cases hg
    | _ => rfl
  exact {
    quiet := quiet_push (quiet_of_isOpen ho hl.quiet) nofun
    jobs := fun j => by
      have hj := hl.jobs j
      have hr : (s.newJob.2.push [task]).reports j = s.reports j := rfl
      have hn : (s.newJob.2.push [task]).jobs = s.jobs + 1 := rfl
      rw [hd, hr, hn]
      by_cases he : j = s.jobs
      · subst he
        rw [if_neg (Nat.lt_irrefl _)] at hj
        rw [if_pos (Nat.lt_succ_self _), beq_self_eq_true, Bool.toNat_true]
        omega
      · have hb : (Target.job s.jobs == Target.job j) = false := by
          rw [beq_eq_false_iff_ne]
          exact fun h => he (Target.job.inj h).symm
        rw [hb, Bool.toNat_false, Nat.zero_add, hj]
        by_cases hlt : j < s.jobs
        · rw [if_pos hlt, if_pos (by omega)]
        · rw [if_neg hlt, if_neg (by omega)]
    once := fun g hg => by
      rw [hd, hs g hg, Bool.toNat_false, Nat.zero_add]
      exact hl.once g hg
    free := fun g hg hp => by
      rw [hd, hs g hg, Bool.toNat_false, Nat.zero_add] at hp
      exact (hl.free g hg hp).of_eq rfl rfl rfl
    owed := fun g ha => by
      have := hl.owed g (ha.of_eq rfl rfl)
      rw [hd]
      omega }

theorem Act.ledger {s t : Session σ} (ho : s.isOpen = true) (h : Act s t) (hl : Ledger s) :
    Ledger t := by
  have same {u : Session σ} (ha : u.agenda = s.agenda) (hj : u.jobs = s.jobs)
      (hd : ∀ g, u.debt g = s.debt g) (hr : ∀ j, u.reports j = s.reports j)
      (hs : u.streams = s.streams) (he : u.expansions = s.expansions)
      (hc : u.callbacks = s.callbacks) : Ledger u :=
    ⟨ha ▸ hl.quiet, fun j => by rw [hd, hr, hj]; exact hl.jobs j,
      fun g hg => by rw [hd]; exact hl.once g hg,
      fun g hg hp => (hl.free g hg (hd g ▸ hp)).of_eq hs he hc,
      fun g h => by rw [hd]; exact hl.owed g (h.of_eq hs.symm he.symm)⟩
  cases h with
  | process | dispatch | expandAttributes => exact hl.job ho fun _ => rfl
  | complete h r => exact hl.push ho fun g hg => beq_handle hg h
  | _ => exact same rfl rfl (fun _ => rfl) (fun _ => rfl) rfl rfl rfl

theorem ledger_new (ids : IdSource) (o : Options) (m : σ) : Ledger (Session.new ids o m) where
  quiet := nofun
  jobs j := rfl
  once g _ := Nat.zero_le _
  free g _ h := absurd h (Nat.lt_irrefl 0)
  owed g h := by
    cases g with
    | chunk n i => obtain ⟨x, hx, -⟩ := h; cases hx
    | side e i d => obtain ⟨x, j, a, hx, -⟩ := h; cases hx
    | _ => exact h.elim

/-- **Every reachable session keeps its ledger.** -/
theorem Reachable.ledger {s : Session σ} (h : Reachable s) : Ledger s :=
  h.keeps ledger_new (fun _ _ _ hm => hm.ledger) fun _ _ ho ha => ha.ledger ho

theorem Ledger.debt_le_one {s : Session σ} (hl : Ledger s) {g : Target} (hg : g.isPlace = true) :
    s.debt g ≤ 1 := by
  cases g with
  | job j =>
    have := hl.jobs j
    split at this <;> omega
  | handle _ => cases hg
  | _ => exact hl.once _ rfl

end Session

end WikiExpansion
