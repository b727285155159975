import WikiExpansion.Proofs.Descent
import WikiExpansion.Proofs.Flow

/-!
# Sessions of stages at rest

In a session of stages somebody sees to every invocation that is unanswered
(`Attended`): a script or a task that leads to its answer, an answer that is held
back, or an open attribute list.  Somebody sees to every empty pair of an open
list as well (`Handled`), and the runs that an attribute list starts stand in
younger streams than the tag it belongs to.  Every move keeps all of this
(`Move.attends`).  So when nothing is left to do and nothing is held back, no
stream is open and each job is over (`Attends.reports`).
-/

namespace WikiExpansion

def Task.serves {σ : Type} (h : Handle) : Task σ → Bool
  | .deliver g _ => g == .handle h
  | .expand _ _ u | .finish _ u _ => u.target == .handle h
  | _ => false

namespace Session

section Definitions

variable (s : Session Desk) (P : Plan) (jobs : List (List Token))

/-- Somebody sees to it that the invocation is answered. -/
inductive Attended (h : Handle) : Prop
  | follow {f : Frame} {k : Script Desk} : .follow f k ∈ s.agenda → f.handle = h →
      s.Answers P jobs h true k → Attended h
  | task {k : Task Desk} : k ∈ s.agenda → k.serves h = true → Attended h
  | held {p : String × Parked} : p ∈ s.memory.held → p.2.handle = h → Attended h
  | expansion {e : Nat} {x : Expansion} : s.expansions[e]? = some x →
      x.owes (.handle h) = true → Attended h

/-- Somebody sees to it that the pair of the expansion is settled. -/
inductive Handled (e i : Nat) (x : Expansion) : Prop
  | expand : .expandPair e i ∈ s.agenda → Handled e i x
  | settle {r : Outcome (Held (Attribute Token))} : .settlePair e i r ∈ s.agenda → Handled e i x
  | sides {a : Attribute Token} {j : Join (Content Token)} : x.attributes[i]? = some a →
      a.needsExpansion = true → x.sides[i]? = some j → j.delivered = false → Handled e i x

structure Attends : Prop where
  answers : ∀ (h : Nat) (v : Invocation), s.invocations[h]? = some v → v.answer = none →
    s.Attended P jobs ⟨h⟩
  pairs : ∀ (e : Nat) (x : Expansion) (i : Nat), s.expansions[e]? = some x →
    x.pairs.delivered = false → x.pairs.slots[i]? = some none → s.Handled e i x
  begun : ∀ e i, .expandPair e i ∈ s.agenda → ∃ x j, s.expansions[e]? = some x ∧
    x.sides[i]? = some j ∧ j.delivered = false
  younger : ∀ (n : Nat) (x : Stream) (e i : Nat) (d : Side) (y : Expansion) (h : Handle)
    (v : Invocation) (m k : Nat), s.streams[n]? = some x → x.target = .side e i d →
    s.expansions[e]? = some y → y.purpose.target = .handle h → s.invocations[h.index]? = some v →
    v.target = .chunk m k → m < n

end Definitions

variable {s t : Session Desk} {P : Plan} {defer : Option String} {jobs : List (List Token)}
  {task : Task Desk}

/-! ### Invocations -/

theorem Purpose.target_eq_handle {u : Purpose} {h : Handle} (hu : u.target = .handle h) :
    ∃ a, u = .answer a h := by
  cases u with
  | job n => cases hu
  | answer a k => exact ⟨a, by rw [Target.handle.inj hu]⟩

theorem Move.attended_of_follow (h : Move s task t) {k : Handle} {f : Frame} {q : Script Desk}
    (hm : .follow f q ∈ (s.push [task]).agenda) (hf : f.handle = k)
    (hq : (s.push [task]).Answers P jobs k true q) : t.Attended P jobs k := by
  have he : Extends (s.push [task]) t := h.extends.of_push
  rcases h.mem_agenda hm with rfl | hm
  · have handle : (Target.handle f.handle == .handle k) = true := by rw [hf, beq_self_eq_true]
    cases hq with
    | answer hd =>
      cases h with
      | answer => exact .task List.mem_cons_self handle
    | expandAttributes hg hs hk =>
      cases h with
      | expandAttributes => exact .task List.mem_cons_self handle
    | newObjectId hk =>
      cases h with
      | newObjectId => exact .follow List.mem_cons_self hf ((hk _).mono he (List.prefix_refl _))
    | hold hp hd hk =>
      cases h with
      | remember => exact .held (List.mem_append_right _ (List.mem_singleton_self _)) hp
  · exact .follow hm hf (hq.mono he (List.prefix_refl _))

theorem Move.attended_of_task (h : Move s task t) {k : Nat} {v : Invocation}
    (hv : s.invocations[k]? = some v) (hn : v.answer = none)
    (ht : ∃ w, t.invocations[k]? = some w ∧ w.answer = none) {q : Task Desk}
    (hm : q ∈ (s.push [task]).agenda) (hq : q.serves ⟨k⟩ = true) : t.Attended P jobs ⟨k⟩ := by
  rcases h.mem_agenda hm with rfl | hm
  · cases q with
    | deliver g r =>
      obtain rfl := eq_of_beq hq
      -- the answer counts, so the invocation does not stay unanswered
      obtain ⟨w, hw, hwn⟩ := ht
      have counts (a : Invocation) (r : Outcome (List Token)) :
          (s.setAnswer ⟨k⟩ a r).invocations[k]? = some { a with answer := some r } :=
        Array.getElem?_setIfInBounds_self_of_lt (lt_size_of_some hv)
      cases h with
      | ignored hi =>
        rw [isAnswered_eq_false_iff.2 ⟨v, hv, hn⟩] at hi
        cases hi
      | answered _ _ | failed _ _ =>
        obtain rfl := Option.some.inj ((counts _ _).symm.trans hw)
        cases hwn
    | expand as o u =>
      cases h with
      | noPairs => exact .task List.mem_cons_self hq
      | expand hne =>
        refine .expansion Array.getElem?_push_size ?_
        simp only [Expansion.owes, newExpansion, Join.new, Bool.and_eq_true]
        exact ⟨by simpa using hne, hq⟩
    | finish o u r =>
      obtain ⟨a, rfl⟩ := Purpose.target_eq_handle (eq_of_beq hq)
      cases h with
      | reconciled => exact .task List.mem_cons_self hq
      | notExpanded => exact .task List.mem_cons_self hq
    | _ => cases hq
  · exact .task hm hq

/-- An open attribute list stays open, or its tag is put together. -/
theorem Move.attended_of_expansion (h : Move s task t) {k : Handle} {e : Nat} {x : Expansion}
    (hx : s.expansions[e]? = some x) (ho : x.owes (.handle k) = true) : t.Attended P jobs k := by
  cases h with
  | noPairs | expand _ => exact .expansion (getElem?_push_of_some hx _) ho
  | @settleSide e' i d q y j a hy _ _ =>
    rcases getElem?_set_of_some hy { y with sides := y.sides.set i (j.fill d.slot q).1 } hx with
      ⟨rfl, rfl, hx'⟩ | ⟨-, hx'⟩
    · exact .expansion hx' ho
    · exact .expansion hx' ho
  | @settlePair e' i q y hy =>
    rcases getElem?_set_of_some hy { y with pairs := (y.pairs.fill i q).1 } hx with
      ⟨rfl, rfl, hx'⟩ | ⟨-, hx'⟩
    · rcases Option.eq_none_or_eq_some (x.pairs.fill i q).2 with hd | ⟨c, hd⟩
      · refine .expansion hx' ?_
        rw [Expansion.owes] at ho ⊢
        rw [show (x.pairs.fill i q).1.delivered = _ from Join.delivered_of_silent hd]
        exact ho
      · refine .task (k := .finish x.options x.purpose c) ?_ (Bool.and_eq_true_iff.1 ho).2
        rw [hd]
        exact List.mem_cons_self
    · exact .expansion hx' ho
  | _ => exact .expansion hx ho

/-- The attendant of an invocation that stays unanswered hands over to another one. -/
theorem Move.attended (h : Move s task t) (hf : Flow (s.push [task]) P defer jobs) {k : Nat}
    {v : Invocation} (hv : s.invocations[k]? = some v) (hn : v.answer = none)
    (ht : ∃ w, t.invocations[k]? = some w ∧ w.answer = none)
    (ha : (s.push [task]).Attended P jobs ⟨k⟩) : t.Attended P jobs ⟨k⟩ := by
  cases ha with
  | follow hm hfh hq => exact h.attended_of_follow hm hfh hq
  | task hm hq => exact h.attended_of_task hv hn ht hm hq
  | expansion hx ho => exact h.attended_of_expansion hx ho
  | held hp hph =>
    cases h with
    | remember =>
      obtain ⟨b, hq⟩ := hf.tasks _ mem_push_self
      cases hq with
      | hold _ _ _ => exact .held (List.mem_append_left _ hp) hph
    | _ => exact .held hp hph

theorem Move.attends_answers (h : Move s task t) (hf : Flow (s.push [task]) P defer jobs)
    (ha : Attends (s.push [task]) P jobs) {k : Nat} {v : Invocation}
    (hv : t.invocations[k]? = some v) (hn : v.answer = none) : t.Attended P jobs ⟨k⟩ := by
  rcases h.invocation_cases hv with ⟨r, hs, hr⟩ | ⟨a, o, p, g, r, rfl, hnext, rfl, rfl⟩
  · have hr : r = none := by
      rcases hr with rfl | ⟨-, q, hq, -⟩
      · exact hn
      · rw [hn] at hq
        cases hq
    subst hr
    exact h.attended hf hs rfl ⟨v, hv, hn⟩ (ha.answers k _ hs rfl)
  · obtain ⟨ho, -⟩ := hf.tasks _ mem_push_self
    obtain ⟨r, hr, rfl⟩ := Option.map_eq_some_iff.1 ((hf.next? p a.kind).symm.trans hnext)
    cases h with
    | pass hp =>
      rw [hp] at hnext
      cases hnext
    | invoke hi =>
      obtain rfl := Option.some.inj (hi.symm.trans hnext)
      refine .follow List.mem_cons_self rfl ?_
      exact answers_handler (v := ⟨a, o, r.position, g, none⟩) Array.getElem?_push_size
        (List.mem_of_find?_eq_some hr) rfl rfl ho

/-! ### Pairs -/

theorem Move.expandPair_cases (h : Move s task t) {e i : Nat} (hm : .expandPair e i ∈ t.agenda) :
    .expandPair e i ∈ s.agenda ∨ ∃ as o u, task = .expand as o u ∧ as ≠ [] ∧
      e = s.expansions.size ∧ i < as.length := by
  rcases h.brings hm with hm | hl
  · exact Or.inl hm
  · cases hl with
    | pair hi =>
      exact Or.inr ⟨_, _, _, rfl, List.ne_nil_of_length_pos (Nat.zero_lt_of_lt hi), rfl, hi⟩

theorem Move.attends_begun (h : Move s task t) (hg : Ledger (s.push [task]))
    (ha : Attends (s.push [task]) P jobs) {e i : Nat} (hm : .expandPair e i ∈ t.agenda) :
    ∃ x j, t.expansions[e]? = some x ∧ x.sides[i]? = some j ∧ j.delivered = false := by
  rcases h.expandPair_cases hm with hold | ⟨as, o, u, rfl, hne, rfl, hi⟩
  · obtain ⟨x, j, hx, hj, ho⟩ := ha.begun e i (mem_push.2 (Or.inr hold))
    cases h with
    | noPairs | expand _ => exact ⟨x, j, getElem?_push_of_some hx _, hj, ho⟩
    | @settleSide e' i' d q y k a hy hk _ =>
      rcases getElem?_set_of_some hy { y with sides := y.sides.set i' (k.fill d.slot q).1 } hx with
        ⟨rfl, rfl, hx'⟩ | ⟨-, hx'⟩
      · by_cases hii : i = i'
        · -- the side would be owed twice
          subst hii
          have hown : Task.owes (σ := Desk) (.side e i d) (.settleSide e i d q) = true :=
            beq_self_eq_true _
          have := not_owed_again hown (hg.once _ rfl) hold
          cases d <;> simp [Task.owes] at this
        · exact ⟨_, j, hx', (List.getElem?_set_ne (Ne.symm hii)).trans hj, ho⟩
      · exact ⟨x, j, hx', hj, ho⟩
    | @settlePair e' i' q y hy =>
      rcases getElem?_set_of_some hy { y with pairs := (y.pairs.fill i' q).1 } hx with
        ⟨rfl, rfl, hx'⟩ | ⟨-, hx'⟩
      · exact ⟨_, j, hx', hj, ho⟩
      · exact ⟨x, j, hx', hj, ho⟩
    | _ => exact ⟨x, j, hx, hj, ho⟩
  · cases h with
    | noPairs => exact absurd rfl hne
    | expand _ =>
      refine ⟨_, .new 2, Array.getElem?_push_size, ?_, rfl⟩
      exact List.getElem?_replicate_of_lt hi

/-- What sees to a pair is left alone, or leads to another task that does. -/
theorem Move.handled (h : Move s task t) (hf : Flow (s.push [task]) P defer jobs)
    (ha : Attends (s.push [task]) P jobs) {e i : Nat} {x : Expansion}
    (hx : s.expansions[e]? = some x) (ho : x.pairs.delivered = false)
    (hi : x.pairs.slots[i]? = some none) (hn : ∀ r, task ≠ .settlePair e i r) :
    t.Handled e i x := by
  cases ha.pairs e x i hx ho hi with
  | expand hm =>
    rcases h.mem_agenda hm with rfl | hm
    · obtain ⟨y, j, hy, hj, hjo⟩ := ha.begun e i mem_push_self
      obtain rfl := Option.some.inj (hx.symm.trans hy)
      have hlt : i < x.attributes.length := by
        rw [← (hf.expansions e x hx).counts.2]
        exact (List.getElem?_eq_some_iff.1 hi).1
      cases h with
      | expandPair hy hi' hne =>
        obtain rfl := Option.some.inj (hx.symm.trans hy)
        exact .sides hi' hne hj hjo
      | keepPair _ _ _ => exact .settle List.mem_cons_self
      | noPair hno =>
        have := hno x hx
        rw [List.getElem?_eq_getElem hlt] at this
        cases this
    · exact .expand hm
  | @settle r hm =>
    rcases h.mem_agenda hm with rfl | hm
    · exact absurd rfl (hn r)
    · exact .settle hm
  | sides hai hne hj hjo => exact .sides hai hne hj hjo

theorem Handled.fillSide {e i k : Nat} {x : Expansion} (h : s.Handled e k x) {d : Side}
    {r : Outcome (Content Token)} {j : Join (Content Token)} {a : Attribute Token}
    (hj : x.sides[i]? = some j)
    (hc : ∀ c, (j.fill d.slot r).2 = some c → .settlePair e i (pairOfSides a c) ∈ s.agenda) :
    s.Handled e k { x with sides := x.sides.set i (j.fill d.slot r).1 } := by
  cases h with
  | expand hm => exact .expand hm
  | settle hm => exact .settle hm
  | @sides b l hb hne hl ho =>
    by_cases hk : i = k
    · subst hk
      obtain rfl := Option.some.inj (hj.symm.trans hl)
      rcases Option.eq_none_or_eq_some (j.fill d.slot r).2 with hd | ⟨c, hd⟩
      · refine .sides hb hne (List.getElem?_set_self (List.getElem?_eq_some_iff.1 hj).1) ?_
        exact (Join.delivered_of_silent hd).trans ho
      · exact .settle (hc c hd)
    · exact .sides hb hne ((List.getElem?_set_ne hk).trans hl) ho

/-- The one who sees to an empty pair hands over to another one. -/
theorem Move.attends_pairs (h : Move s task t) (hf : Flow (s.push [task]) P defer jobs)
    (ha : Attends (s.push [task]) P jobs) {e i : Nat} {x : Expansion}
    (hx : t.expansions[e]? = some x) (ho : x.pairs.delivered = false)
    (hi : x.pairs.slots[i]? = some none) : t.Handled e i x := by
  have same (hx : s.expansions[e]? = some x) (hn : ∀ r, task ≠ .settlePair e i r) :
      t.Handled e i x := h.handled hf ha hx ho hi hn
  cases h with
  | noPairs =>
    rcases getElem?_push_cases hx with hx | ⟨rfl, rfl⟩
    · exact same hx fun _ hk => by cases hk
    · cases hi
  | @expand as o u hne =>
    rcases getElem?_push_cases hx with hx | ⟨rfl, rfl⟩
    · exact same hx fun _ hk => by cases hk
    · refine .expand (List.mem_append_left _ (List.mem_map.2 ⟨i, List.mem_range.2 ?_, rfl⟩))
      exact getElem?_slots_new.1 hi
  | @settleSide e' k d q y j a hy hj hai =>
    rcases getElem?_set_cases hx with ⟨rfl, rfl⟩ | ⟨-, hx⟩
    · have old := (Move.settleSide (d := d) (r := q) hy hj hai).handled hf ha hy ho hi
        fun _ hk => by cases hk
      refine old.fillSide (a := a) hj fun c hc => ?_
      exact List.mem_append_left _ (List.mem_map.2 ⟨c, Option.mem_toList.2 hc, rfl⟩)
    · exact same hx fun _ hk => by cases hk
  | @settlePair e' k q y hy =>
    rcases getElem?_set_cases hx with ⟨rfl, rfl⟩ | ⟨hne, hx⟩
    · have hik : i ≠ k := by
        rintro rfl
        exact Join.not_empty_of_open ho hi
      have old := (Move.settlePair (i := k) (r := q) hy).handled hf ha hy (Join.open_of_fill ho)
        (Join.empty_of_fill hi) fun r hr => hik (Task.settlePair.inj hr).2.1.symm
      cases old with
      | expand hm => exact .expand hm
      | settle hm => exact .settle hm
      | sides hai hn hj hjo => exact .sides hai hn hj hjo
    · exact same hx fun r hr => hne (Task.settlePair.inj hr).1.symm
  | noExpansion hno =>
    refine same hx fun r hr => ?_
    cases hr
    rw [hno] at hx
    cases hx
  | _ => exact same hx fun _ hk => by cases hk

/-! ### Age -/

theorem Move.attends_younger (h : Move s task t) (hl : Lineage (s.push [task]))
    (hf : Flow (s.push [task]) P defer jobs) (ha : Attends (s.push [task]) P jobs) {n : Nat}
    {x : Stream} {e i : Nat} {d : Side} {y : Expansion} {k : Handle} {v : Invocation} {m l : Nat}
    (hx : t.streams[n]? = some x) (hg : x.target = .side e i d) (hy : t.expansions[e]? = some y)
    (hu : y.purpose.target = .handle k) (hv : t.invocations[k.index]? = some v)
    (hv' : v.target = .chunk m l) : m < n := by
  rcases h.stream_cases hx with ⟨j, hxs⟩ | ⟨ts, o, p, k', g, rfl, rfl, rfl⟩
  · rcases h.expansion_cases hy with ⟨a, b, hys⟩ | ⟨as, o, u, rfl, rfl, rfl⟩
    · rcases h.invocation_cases hv with ⟨r, hvs, -⟩ | ⟨a', o, p, g, r, -, -, hk, -⟩
      · exact ha.younger n _ e i d _ k _ m l hxs hg hys hu hvs hv'
      · -- the invocation was there when the expansion began
        obtain ⟨a₁, k₁, g₁, v₁, r₁, hu₁, -, -, -, hv₁, -⟩ := (hf.expansions e _ hys).serving
        obtain ⟨a₂, hu₂⟩ := Purpose.target_eq_handle hu
        obtain ⟨rfl, rfl⟩ := Purpose.answer.inj (hu₂.symm.trans hu₁)
        have := lt_size_of_some hv₁
        rw [hk] at this
        exact absurd this (Nat.lt_irrefl _)
    · have hne : x.target ≠ .side s.expansions.size i d :=
        hl.target_ne_side (x := { x with join := j }) hxs
      exact absurd hg hne
  · rcases h.invocation_cases hv with ⟨r, hvs, -⟩ | ⟨a', o', p', g', r, hk, -⟩
    · obtain ⟨q, hq⟩ := hl.invocations _ _ hvs
      rw [show ({ v with answer := r } : Invocation).target = .chunk m l from hv'] at hq
      obtain ⟨z, hz, -⟩ := hq
      exact lt_size_of_some hz
    · cases hk

/-- **A move leaves nobody unattended.** -/
theorem Move.attends (h : Move s task t) (hg : Ledger (s.push [task]))
    (hl : Lineage (s.push [task])) (hf : Flow (s.push [task]) P defer jobs)
    (ha : Attends (s.push [task]) P jobs) : Attends t P jobs where
  answers _ _ hv hn := h.attends_answers hf ha hv hn
  pairs _ _ _ hx ho hi := h.attends_pairs hf ha hx ho hi
  begun _ _ hm := h.attends_begun hg ha hm
  younger _ _ _ _ _ _ _ _ _ _ hx hg' hy hu hv hv' :=
    h.attends_younger hl hf ha hx hg' hy hu hv hv'

/-! ### Rest -/

/-- When nothing is left to do and nothing is held back, an unanswered invocation
waits for a run that one of its sides has started. -/
theorem Attends.exists_run (ha : Attends s P jobs) (hg : Ledger s) (hl : Lineage s)
    (hf : Flow s P defer jobs) (hr : s.agenda = []) (hh : s.memory.held = []) {h : Nat}
    {v : Invocation} (hv : s.invocations[h]? = some v) (hn : v.answer = none) :
    ∃ (n : Nat) (x : Stream) (e i : Nat) (d : Side) (y : Expansion), s.streams[n]? = some x ∧
      x.join.delivered = false ∧ x.target = .side e i d ∧ s.expansions[e]? = some y ∧
      y.purpose.target = .handle ⟨h⟩ := by
  cases ha.answers h v hv hn with
  | follow hm => rw [hr] at hm; exact absurd hm List.not_mem_nil
  | task hm => rw [hr] at hm; exact absurd hm List.not_mem_nil
  | held hp => rw [hh] at hp; exact absurd hp List.not_mem_nil
  | @expansion e y hy ho =>
    obtain ⟨ho, hu⟩ := Bool.and_eq_true_iff.1 ho
    have ho : y.pairs.delivered = false := by simpa using ho
    have hs := hf.expansions e y hy
    obtain ⟨i, hi⟩ := Join.exists_empty hs.counts.1 ho
    cases ha.pairs e y i hy ho hi with
    | expand hm => rw [hr] at hm; exact absurd hm List.not_mem_nil
    | settle hm => rw [hr] at hm; exact absurd hm List.not_mem_nil
    | @sides a j hai hne hj hjo =>
      obtain ⟨hc, hlen, -⟩ := hs.sides i j a hj hai
      obtain ⟨d, hk⟩ := Join.exists_empty_side hc hlen hjo
      have hd := hg.owed (.side e i d) ⟨y, j, a, hy, hj, hai, hne, hjo, hk⟩
      -- only a stream can owe a side now
      have htask : s.agenda.countP (Task.owes (.side e i d)) = 0 := by rw [hr]; rfl
      have hinv : s.invocations.countP (Invocation.owes (.side e i d)) = 0 := by
        rw [Array.countP_eq_zero]
        intro w hw how
        obtain ⟨n, hn⟩ := Array.getElem?_of_mem hw
        obtain ⟨p, hp⟩ := hl.invocations n w hn
        rw [eq_of_beq (Bool.and_eq_true_iff.1 how).2] at hp
        exact hp
      have hexp : s.expansions.countP (Expansion.owes (.side e i d)) = 0 := by
        rw [Array.countP_eq_zero]
        intro z _
        unfold Expansion.owes Purpose.target
        cases z.purpose <;> simp
      rw [debt, htask, hinv, hexp] at hd
      obtain ⟨x, hx, hxo⟩ := Array.countP_pos_iff.1 (by omega :
        0 < s.streams.countP (Stream.owes (.side e i d)))
      obtain ⟨n, hn⟩ := Array.getElem?_of_mem hx
      obtain ⟨hxo, hxg⟩ := Bool.and_eq_true_iff.1 hxo
      exact ⟨n, x, e, i, d, y, hn, by simpa using hxo, eq_of_beq hxg, hy, eq_of_beq hu⟩

/-- **When nothing is left to do and nothing is held back, no stream is open.** -/
theorem Attends.no_open_stream (ha : Attends s P jobs) (hg : Ledger s) (hl : Lineage s)
    (hc : Account s) (hf : Flow s P defer jobs) (hr : s.agenda = []) (hh : s.memory.held = [])
    {n : Nat} {x : Stream} (hx : s.streams[n]? = some x) : x.join.delivered = true := by
  -- an open stream would wait for a younger one
  induction hk : s.streams.size - n using Nat.strongRecOn generalizing n x with
  | ind b ih =>
    by_contra ho
    have ho : x.join.delivered = false := Bool.eq_false_iff.2 ho
    obtain ⟨i, h, v, hv, hn, hle⟩ := exists_unanswered hg hl hc hr hx ho
    obtain ⟨m, l, hvt, hnm⟩ := hle.exists_chunk hl
    obtain ⟨n', x', e, i', d, y, hx', ho', hxg, hy, hu⟩ := ha.exists_run hg hl hf hr hh hv hn
    have hmn := ha.younger n' x' e i' d y ⟨h⟩ v m l hx' hxg hy hu hv hvt
    have hlt := lt_size_of_some hx'
    have := ih (s.streams.size - n') (by omega) hx' rfl
    rw [ho'] at this
    cases this

/-- **When nothing is left to do and nothing is held back, each job is over.** -/
theorem Attends.reports (ha : Attends s P jobs) (hg : Ledger s) (hl : Lineage s) (hc : Account s)
    (hf : Flow s P defer jobs) (hr : s.agenda = []) (hh : s.memory.held = []) {j : Nat}
    (hj : j < s.jobs) : s.reports j = 1 := by
  have closed {n : Nat} {x : Stream} (hx : s.streams[n]? = some x) : x.join.delivered = true :=
    ha.no_open_stream hg hl hc hf hr hh hx
  have htask : s.agenda.countP (Task.owes (.job j)) = 0 := by rw [hr]; rfl
  have hinv : s.invocations.countP (Invocation.owes (.job j)) = 0 := by
    rw [Array.countP_eq_zero]
    intro v hv hvo
    obtain ⟨h, hh'⟩ := Array.getElem?_of_mem hv
    have hn : v.answer = none := Option.isNone_iff_eq_none.1 (Bool.and_eq_true_iff.1 hvo).1
    obtain ⟨n, x, -, -, -, -, hx, ho, -⟩ := ha.exists_run hg hl hf hr hh hh' hn
    rw [closed hx] at ho
    cases ho
  have hstr : s.streams.countP (Stream.owes (.job j)) = 0 := by
    rw [Array.countP_eq_zero]
    intro x hx hxo
    obtain ⟨n, hn⟩ := Array.getElem?_of_mem hx
    rw [Stream.owes, closed hn] at hxo
    cases hxo
  have hexp : s.expansions.countP (Expansion.owes (.job j)) = 0 := by
    rw [Array.countP_eq_zero]
    intro y hy hyo
    obtain ⟨e, he⟩ := Array.getElem?_of_mem hy
    obtain ⟨a, k, g, v, r, hu, -⟩ := (hf.expansions e y he).serving
    rw [Expansion.owes, hu] at hyo
    simp [Purpose.target] at hyo
  have hd : s.debt (.job j) = 0 := by rw [debt, htask, hinv, hstr, hexp]
  have := hg.jobs j
  rw [hd, if_pos hj] at this
  omega

end Session

end WikiExpansion
