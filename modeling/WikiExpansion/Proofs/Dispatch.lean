import Mathlib.Logic.Relation
import WikiExpansion.Handler.Stock
import WikiExpansion.Proofs.Account
import WikiExpansion.Proofs.Order

/-!
# The order in which handlers see a lineage

Handlers may be registered at any time, by other handlers and from outside, also
while a token is with somebody who answers later.  `Dispatches` says what that
leaves of the order.  A token is offered after the position of the handler that
answered it.  The handler that is called is the least one that is registered then,
comes after that position and wants the token (`Registry.Least`), and a token leaves
when there is none (`Registry.Exhausted`).  So the positions increase along a
lineage.

The main theorem is `Reachable.dispatches`.
-/

namespace WikiExpansion

namespace Registry

variable {η : Type} {g : Registry η} {p : Option Position} {k : Kind} {r : Registration η}

structure Least (g : Registry η) (p : Option Position) (k : Kind) (r : Registration η) : Prop where
  mem : r ∈ g.entries
  after : comesAfter r p = true
  accepts : r.filter.accepts k = true
  least : ∀ e ∈ g.entries, comesAfter e p = true → e.filter.accepts k = true →
    e = r ∨ r.position.Before e.position

def Exhausted (g : Registry η) (p : Option Position) (k : Kind) : Prop :=
  ∀ e ∈ g.entries, comesAfter e p = true → e.filter.accepts k = false

theorem Ordered.least (hg : g.Ordered) (h : g.next? p k = some r) : g.Least p k r := by
  obtain ⟨skipped, hskip, hr, hsplit⟩ := hg.after_eq h
  have hmem : r ∈ g.after p := by
    rw [hsplit]
    exact List.mem_append_right _ List.mem_cons_self
  refine ⟨(List.mem_filter.1 hmem).1, (List.mem_filter.1 hmem).2, hr, fun e he hp ha => ?_⟩
  have hm : e ∈ g.after p := List.mem_filter.2 ⟨he, hp⟩
  rw [hsplit] at hm
  rcases List.mem_append.1 hm with hm | hm
  · rw [hskip e hm] at ha
    cases ha
  · rcases List.mem_cons.1 hm with rfl | hm
    · exact Or.inl rfl
    · exact Or.inr (comesAfter_some.1 (List.mem_filter.1 hm).2)

theorem exhausted (h : g.next? p k = none) : g.Exhausted p k :=
  fun e he hp => next?_eq_none h e (List.mem_filter.2 ⟨he, hp⟩)

end Registry

namespace Session

variable {σ : Type} {s t : Session σ}

/-- The token that `k` was called with is one of those that `h` has answered. -/
def Begets (t : Session σ) (h k : Handle) : Prop :=
  ∃ (v w : Invocation) (n i : Nat) (x : Stream), t.invocations[h.index]? = some v ∧
    t.invocations[k.index]? = some w ∧ v.answer = some (.ok x.tokens) ∧
    x.tokens[i]? = some w.token ∧ t.streams[n]? = some x ∧ x.origin = some h ∧
    w.target = .chunk n i

abbrev Descends (t : Session σ) : Handle → Handle → Prop := Relation.TransGen t.Begets

/-- The position after which the token of an invocation was offered: that of the handler
that has answered it, or none if it is a token of the input. -/
inductive Stands (t : Session σ) (k : Handle) : Option Position → Prop
  | input : (∀ h, ¬ t.Begets h k) → Stands t k none
  | output {h : Handle} {v : Invocation} : t.Begets h k → t.invocations[h.index]? = some v →
      Stands t k (some v.position)

/-- What has become of a token of a stream: it is still to be offered, a handler has
taken it, or it has left when no handler after its position wanted it. -/
inductive Fate (t : Session σ) (n i : Nat) (a : Token) : Prop
  | waiting {o p} : .offer a o p (.chunk n i) ∈ t.agenda → Fate t n i a
  | taken {k : Nat} {w : Invocation} : t.invocations[k]? = some w → w.token = a →
      w.target = .chunk n i → Fate t n i a
  | left {u o p rest} : Reachable u → u.agenda = .offer a o p (.chunk n i) :: rest →
      u.Offered a p (.chunk n i) → u.registry.Exhausted p a.kind → Reaches u.step t → Fate t n i a

structure Dispatches (t : Session σ) : Prop where
  /-- The handlers along a lineage stand one after the other, so none is called twice. -/
  increasing : ∀ {h k : Handle} {v w : Invocation}, t.Descends h k →
    t.invocations[h.index]? = some v → t.invocations[k.index]? = some w →
    v.position.Before w.position ∧ v.position ≠ w.position
  invoked : ∀ {k : Nat} {w : Invocation}, t.invocations[k]? = some w → ∃ u p r rest, Reachable u ∧
    u.agenda = .offer w.token w.options p w.target :: rest ∧ t.Stands ⟨k⟩ p ∧
    u.registry.Least p w.token.kind r ∧ w.position = r.position ∧ k = u.invocations.size ∧
    u.step.agenda = .follow (u.nextFrame r w.options)
      (r.handler (u.nextFrame r w.options) w.token) :: rest ∧ Reaches u.step t
  passed : ∀ {a o p g rest}, t.agenda = .offer a o p g :: rest →
    t.step.agenda = .deliver g (.ok [a]) :: rest →
    t.Offered a p g ∧ t.registry.Exhausted p a.kind
  /-- No token of a stream gets lost, and those that have left had no handler left. -/
  fate : ∀ {n i : Nat} {x : Stream} {a : Token}, t.streams[n]? = some x →
    x.tokens[i]? = some a → t.Fate n i a

/-! ### The registry -/

theorem Move.ordered {task : Task σ} (h : Move s task t) (ho : s.registry.Ordered) :
    t.registry.Ordered := by
  cases h with
  | register => exact ho.register ..
  | _ => exact ho

theorem Act.ordered (h : Act s t) (ho : s.registry.Ordered) : t.registry.Ordered := by
  cases h with
  | register => exact ho.register ..
  | _ => exact ho

/-- **The registry of a reachable session is in order**, whoever registers when. -/
theorem Reachable.ordered (h : Reachable s) : s.registry.Ordered :=
  h.keeps (P := fun s => s.registry.Ordered) (fun _ _ _ => Registry.ordered_empty)
    (fun _ _ _ hm ho => hm.ordered ho) fun _ _ _ ha ho => ha.ordered ho

/-! ### Invocations -/

theorem Reachable.invoked (ht : Reachable t) {k : Nat} {w : Invocation}
    (hw : t.invocations[k]? = some w) : ∃ u p r rest, Reachable u ∧
      u.agenda = .offer w.token w.options p w.target :: rest ∧ u.Offered w.token p w.target ∧
      u.registry.Least p w.token.kind r ∧ w.position = r.position ∧ k = u.invocations.size ∧
      u.step.agenda = .follow (u.nextFrame r w.options)
        (r.handler (u.nextFrame r w.options) w.token) :: rest ∧ Reaches u.step t := by
  obtain ⟨ids, o, m, h⟩ := ht
  induction h generalizing w with
  | refl => exact absurd hw getElem?_empty_ne_some
  | @step t h ih =>
    rcases step_eq t with ⟨-, he⟩ | ⟨t₀, task, he, hm⟩
    · rw [he] at hw ⊢
      exact ih hw
    · rcases hm.invocation_cases hw with ⟨a, hv, -⟩ | ⟨a, o', p, g, r, rfl, hr, rfl, rfl⟩
      · have hv : t.invocations[k]? = some { w with answer := a } := by
          rw [he]
          exact hv
        obtain ⟨u, p, r, rest, hu, hag, hof, hl, hp, hk, hst, hut⟩ := ih hv
        exact ⟨u, p, r, rest, hu, hag, hof, hl, hp, hk, hst, .step hut⟩
      · have hrt : Reachable t := ⟨ids, o, m, h⟩
        have hag : t.agenda = .offer a o' p g :: t₀.agenda := by
          rw [he]
          rfl
        have hr' : t.registry.next? p a.kind = some r := by
          rw [he]
          exact hr
        refine ⟨t, p, r, t₀.agenda, hrt, hag, ?_, hrt.ordered.least hr', rfl, ?_, ?_, .refl⟩
        · exact hrt.lineage.tasks _ (hag ▸ List.mem_cons_self)
        · rw [he]
          rfl
        · rw [step_of_move hag (.invoke hr')]
          rfl
  | act h ho ha ih =>
    rw [ha.records.1] at hw
    obtain ⟨u, p, r, rest, hu, hag, hof, hl, hp, hk, hst, hut⟩ := ih hw
    exact ⟨u, p, r, rest, hu, hag, hof, hl, hp, hk, hst, .act hut ho ha⟩

theorem exhausted_of_passed {a : Token} {o : Options} {p : Option Position} {g : Target}
    {rest : List (Task σ)} (ha : t.agenda = .offer a o p g :: rest)
    (hd : t.step.agenda = .deliver g (.ok [a]) :: rest) : t.registry.Exhausted p a.kind := by
  have hm := move_of_agenda ha
  generalize t.step = u at hm hd
  cases hm with
  | pass hn => exact Registry.exhausted hn
  | invoke _ => cases hd

/-! ### Lineages -/

/-- The handler of a token comes after the one that has answered the token. -/
theorem Begets.before (ht : Reachable t) {h k : Handle} (hb : t.Begets h k) {v w : Invocation}
    (hv : t.invocations[h.index]? = some v) (hw : t.invocations[k.index]? = some w) :
    v.position.Before w.position := by
  obtain ⟨v', w', n, i, x, hv', hw', -, -, hx, ho, hg⟩ := hb
  obtain rfl := Option.some.inj (hv.symm.trans hv')
  obtain rfl := Option.some.inj (hw.symm.trans hw')
  obtain ⟨u, p, r, rest, -, -, hof, hl, hp, -, -, hut⟩ := ht.invoked hw
  have hof := hof.mono (Reaches.of_step hut).extends
  rw [hg] at hof
  obtain ⟨y, hy, -, hstart⟩ := hof
  obtain rfl := Option.some.inj (hx.symm.trans hy)
  rw [ho] at hstart
  obtain ⟨v', hv', rfl⟩ := hstart
  obtain rfl := Option.some.inj (hv.symm.trans hv')
  rw [hp]
  exact Registry.comesAfter_some.1 hl.after

theorem Descends.before (ht : Reachable t) {h k : Handle} (hd : t.Descends h k)
    {v w : Invocation} (hv : t.invocations[h.index]? = some v)
    (hw : t.invocations[k.index]? = some w) : v.position.Before w.position := by
  induction hd generalizing w with
  | single hb => exact hb.before ht hv hw
  | tail _ hb ih =>
    obtain ⟨c, -, -, -, -, hc, -⟩ := id hb
    exact (ih hc).trans (hb.before ht hc hw)

/-! ### The tokens of a stream -/

/-- What has become of a token stays so, unless it was to be offered and is so now. -/
theorem Move.fate {task : Task σ} (h : Move s task t) (ht : (s.push [task]).step = t)
    (hr : Reachable (s.push [task])) {n i : Nat} {a : Token}
    (hf : (s.push [task]).Fate n i a) : t.Fate n i a := by
  cases hf with
  | @waiting o p hm =>
    have hof : (s.push [task]).Offered a p (.chunk n i) := hr.lineage.tasks _ hm
    rcases h.mem_agenda hm with rfl | hm
    · cases h with
      | pass hn => exact .left hr rfl hof (Registry.exhausted hn) (ht ▸ .refl)
      | invoke _ => exact .taken Array.getElem?_push_size rfl rfl
    · exact .waiting hm
  | taken hw ha hg =>
    obtain ⟨r, hw, -⟩ := h.extends.of_push.invocations _ _ hw
    exact .taken hw ha hg
  | left hu hag hof he hut => exact .left hu hag hof he (ht ▸ .step hut)

theorem Act.fate (h : Act s t) (ho : s.isOpen = true) {n i : Nat} {a : Token}
    (hf : s.Fate n i a) : t.Fate n i a := by
  cases hf with
  | waiting hm =>
    obtain ⟨new, hn⟩ := h.agenda
    exact .waiting (hn ▸ List.mem_append_right new hm)
  | taken hw ha hg =>
    rw [← h.records.1] at hw
    exact .taken hw ha hg
  | left hu hag hof he hut => exact .left hu hag hof he (.act hut ho h)

theorem Reachable.fate (ht : Reachable t) {n i : Nat} {x : Stream} {a : Token}
    (hx : t.streams[n]? = some x) (ha : x.tokens[i]? = some a) : t.Fate n i a := by
  obtain ⟨ids, o, m, h⟩ := ht
  induction h generalizing x with
  | refl => exact absurd hx getElem?_empty_ne_some
  | @step t h ih =>
    have hrt : Reachable t := ⟨ids, o, m, h⟩
    rcases step_eq t with ⟨-, he⟩ | ⟨t₀, task, rfl, hm⟩
    · rw [he] at hx ⊢
      exact ih hx ha
    · rcases hm.stream_cases hx with ⟨j, hy⟩ | ⟨ts, o', p, k, g, rfl, rfl, rfl⟩
      · exact hm.fate rfl hrt (ih hy ha)
      · -- the tokens of a stream that begins are to be offered
        refine .waiting (o := o') (p := p) ?_
        obtain ⟨hi, rfl⟩ := List.getElem?_eq_some_iff.1 ha
        generalize (t₀.push [.stream ts o' p k g]).step = u at hm ⊢
        cases hm with
        | noTokens => exact absurd hi (Nat.not_lt_zero i)
        | stream _ => exact List.mem_append_left _ (List.mem_mapIdx.2 ⟨i, hi, rfl⟩)
  | act h ho hact ih => exact hact.fate ho (ih (hact.records.2.1 ▸ hx) ha)

theorem Offered.stands (hl : Lineage t) {k : Nat} {w : Invocation} {p : Option Position}
    (hw : t.invocations[k]? = some w) (ho : t.Offered w.token p w.target) : t.Stands ⟨k⟩ p := by
  have begets {h : Handle} (hb : t.Begets h ⟨k⟩) :
      ∃ (n i : Nat) (x : Stream), t.streams[n]? = some x ∧ x.origin = some h ∧
        w.target = .chunk n i := by
    obtain ⟨-, w', n, i, x, -, hw', -, -, hx, ho, hg⟩ := hb
    obtain rfl := Option.some.inj (hw.symm.trans hw')
    exact ⟨n, i, x, hx, ho, hg⟩
  cases hg : w.target with
  | chunk n i =>
    rw [hg] at ho
    obtain ⟨x, hx, hi, hs⟩ := ho
    cases hor : x.origin with
    | none =>
      rw [hor] at hs
      subst hs
      refine .input fun h hb => ?_
      obtain ⟨n', i', y, hy, hyo, hg'⟩ := begets hb
      cases hg.symm.trans hg'
      obtain rfl := Option.some.inj (hx.symm.trans hy)
      rw [hor] at hyo
      cases hyo
    | some h =>
      rw [hor] at hs
      obtain ⟨v, hv, rfl⟩ := hs
      have hst := (hl.streams n x hx).1
      rw [hor] at hst
      obtain ⟨v', hv', ha, -⟩ := hst
      obtain rfl := Option.some.inj (hv.symm.trans hv')
      exact .output ⟨v, w, n, i, x, hv, hw, ha, hi, hx, hor, hg⟩ hv
  | job j =>
    rw [hg] at ho
    obtain ⟨-, rfl⟩ := ho
    refine .input fun h hb => ?_
    obtain ⟨n, i, y, -, -, hg'⟩ := begets hb
    cases hg.symm.trans hg'
  | side | handle | callback =>
    rw [hg] at ho
    exact ho.elim

/-- **How tokens are dispatched**, whoever registers handlers when. -/
theorem Reachable.dispatches (ht : Reachable t) : Dispatches t where
  increasing hd hv hw := by
    have hb := hd.before ht hv hw
    refine ⟨hb, fun he => ?_⟩
    rw [he] at hb
    exact Position.not_before_self _ hb
  invoked hw := by
    obtain ⟨u, p, r, rest, hu, hag, hof, hl, hp, hk, hst, hut⟩ := ht.invoked hw
    have hof := hof.mono (Reaches.of_step hut).extends
    exact ⟨u, p, r, rest, hu, hag, hof.stands ht.lineage hw, hl, hp, hk, hst, hut⟩
  passed {a o p g rest} ha hd := by
    have hof : t.Traced (.offer a o p g) := ht.lineage.tasks _ (ha ▸ List.mem_cons_self)
    exact ⟨hof, exhausted_of_passed ha hd⟩
  fate := ht.fate

def recruiting : Session Desk :=
  (((Session.new {} {} {}).register "first" .templates .any
    (Handler.recruit "second" .attributes .any Handler.pass)).process [.text "a"] none).2

theorem dispatches_recruiting :
    ∃ t v w, Reaches recruiting t ∧ t.invocations[0]? = some v ∧ t.invocations[1]? = some w ∧
      t.Descends ⟨0⟩ ⟨1⟩ ∧ v.position.Before w.position ∧ v.position ≠ w.position := by
  have hs : Reachable recruiting :=
    ⟨_, _, _, .act (.act .refl rfl (.register _ _ _ _)) rfl (.process _ _)⟩
  have ht : Reaches recruiting (recruiting.settle 20) := .settle .refl 20
  have hd : Dispatches (recruiting.settle 20) := Reachable.dispatches (hs.reaches ht)
  have hb : (recruiting.settle 20).Descends ⟨0⟩ ⟨1⟩ :=
    .single ⟨_, _, 1, 0, _, rfl, rfl, rfl, rfl, rfl, rfl, rfl⟩
  exact ⟨_, _, _, ht, rfl, rfl, hb, hd.increasing hb rfl rfl⟩

end Session

end WikiExpansion
