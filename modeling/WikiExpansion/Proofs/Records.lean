import WikiExpansion.Proofs.Join
import WikiExpansion.Proofs.Move

/-!
# What the records of a session keep

`Extends s t` says that `t` knows all that `s` knows: no record is dropped, an
invocation keeps its first answer, a stream and an expansion keep what they are
about, what has come of a token stays, and no event is taken back.  Every move
and every act extends a session (`Move.extends`, `Act.extends`), so a session
extends all that it was reached from (`Reaches.extends`).

The other way, what stands in a session after a move or an act was there before or
has a reason.  For a record it is the task of the move that began it
(`Move.invocation_cases` and its like).  A task on the agenda is one that the task
of the move brings (`Move.brings`) or that the act asks for (`Act.asks`).

What a record does with a result that comes too late, or with a failure, is the same
wherever its join stands (`perform_deliver_closed` and the five after it).
-/

namespace WikiExpansion

/-! ### Entries of a record -/

section Entries

variable {α : Type}

theorem getElem?_push_of_some {xs : Array α} {n : Nat} {a : α} (h : xs[n]? = some a) (b : α) :
    (xs.push b)[n]? = some a := by
  rw [Array.getElem?_push_lt (Array.getElem?_eq_some_iff.1 h).1]
  exact congrArg some (Array.getElem?_eq_some_iff.1 h).2

theorem getElem?_push_cases {xs : Array α} {n : Nat} {a b : α} (h : (xs.push b)[n]? = some a) :
    xs[n]? = some a ∨ n = xs.size ∧ a = b := by
  rw [Array.getElem?_push] at h
  split at h
  · exact Or.inr ⟨‹_›, (Option.some.inj h).symm⟩
  · exact Or.inl h

theorem getElem?_set_of_some {xs : Array α} {m n : Nat} {a b : α} (hm : xs[m]? = some b) (c : α)
    (h : xs[n]? = some a) :
    (n = m ∧ a = b ∧ (xs.setIfInBounds m c)[n]? = some c) ∨
      (n ≠ m ∧ (xs.setIfInBounds m c)[n]? = some a) := by
  by_cases hn : n = m
  · subst hn
    rw [hm] at h
    refine Or.inl ⟨rfl, (Option.some.inj h).symm, ?_⟩
    exact Array.getElem?_setIfInBounds_self_of_lt (Array.getElem?_eq_some_iff.1 hm).1
  · refine Or.inr ⟨hn, ?_⟩
    rw [Array.getElem?_setIfInBounds_ne (Ne.symm hn)]
    exact h

theorem getElem?_set_cases {xs : Array α} {m n : Nat} {a c : α}
    (h : (xs.setIfInBounds m c)[n]? = some a) :
    (n = m ∧ a = c) ∨ (n ≠ m ∧ xs[n]? = some a) := by
  by_cases hn : n = m
  · subst hn
    rw [Array.getElem?_setIfInBounds_self] at h
    split at h
    · exact Or.inl ⟨rfl, (Option.some.inj h).symm⟩
    · cases h
  · rw [Array.getElem?_setIfInBounds_ne (Ne.symm hn)] at h
    exact Or.inr ⟨hn, h⟩

theorem setIfInBounds_of_some {xs : Array α} {n : Nat} {a : α} (h : xs[n]? = some a) :
    xs.setIfInBounds n a = xs := by
  refine Array.ext_getElem? fun m => ?_
  by_cases hn : n = m
  · subst hn
    rw [Array.getElem?_setIfInBounds_self_of_lt (Array.getElem?_eq_some_iff.1 h).1, h]
  · exact Array.getElem?_setIfInBounds_ne hn

theorem getElem?_list_set_cases {l : List α} {i k : Nat} {a b : α}
    (h : (l.set i b)[k]? = some a) : k = i ∧ a = b ∨ k ≠ i ∧ l[k]? = some a := by
  by_cases hk : i = k
  · subst hk
    obtain ⟨hi, hb⟩ := List.getElem?_eq_some_iff.1 h
    rw [List.getElem_set_self] at hb
    exact Or.inl ⟨rfl, hb.symm⟩
  · rw [List.getElem?_set_ne hk] at h
    exact Or.inr ⟨Ne.symm hk, h⟩

theorem getElem?_empty_ne_some {n : Nat} {a : α} : ¬ (#[] : Array α)[n]? = some a := by
  simp

theorem lt_size_of_some {xs : Array α} {n : Nat} {a : α} (h : xs[n]? = some a) : n < xs.size :=
  (Array.getElem?_eq_some_iff.1 h).1

end Entries

namespace Join

variable {α : Type}

/-- `k` has the slots of `j` and holds what `j` holds, and has delivered if `j` has. -/
structure Grows (j k : Join α) : Prop where
  length : k.slots.length = j.slots.length
  delivered : j.delivered = true → k.delivered = true
  filled : ∀ (i : Nat) (c : α), j.slots[i]? = some (some c) → k.slots[i]? = some (some c)

theorem Grows.refl (j : Join α) : j.Grows j := ⟨rfl, id, fun _ _ h => h⟩

theorem Grows.trans {i j k : Join α} (h : i.Grows j) (g : j.Grows k) : i.Grows k :=
  ⟨g.length.trans h.length, fun hd => g.delivered (h.delivered hd),
    fun n c hc => g.filled n c (h.filled n c hc)⟩

theorem grows_fill (j : Join α) (i : Nat) (r : Outcome α) : j.Grows (j.fill i r).1 := by
  refine ⟨length_slots_fill j i r, fun hd => ?_, fun n c hc => filled_fill hc i r⟩
  rw [fill_of_delivered hd]
  exact hd

end Join

namespace Session

variable {σ : Type}

structure Extends (s t : Session σ) : Prop where
  invocations : ∀ (n : Nat) (v : Invocation), s.invocations[n]? = some v →
    ∃ a, t.invocations[n]? = some { v with answer := a } ∧ ∀ r, v.answer = some r → a = some r
  streams : ∀ (n : Nat) (x : Stream), s.streams[n]? = some x →
    ∃ j, t.streams[n]? = some { x with join := j } ∧ x.join.Grows j
  expansions : ∀ (n : Nat) (x : Expansion), s.expansions[n]? = some x →
    ∃ sides pairs, t.expansions[n]? = some { x with sides := sides, pairs := pairs }
  callbacks : ∀ (n : Nat) (c : Callback σ), s.callbacks[n]? = some c → t.callbacks[n]? = some c
  events : s.events.toList <+: t.events.toList
  jobs : s.jobs ≤ t.jobs

namespace Extends

theorem of_eq {s t : Session σ} (hi : t.invocations = s.invocations) (hs : t.streams = s.streams)
    (he : t.expansions = s.expansions) (hc : t.callbacks = s.callbacks)
    (hv : s.events.toList <+: t.events.toList) (hj : s.jobs ≤ t.jobs) : Extends s t where
  invocations n v h := ⟨v.answer, by rw [hi]; exact h, fun _ hr => hr⟩
  streams n x h := ⟨x.join, by rw [hs]; exact h, .refl _⟩
  expansions n x h := ⟨x.sides, x.pairs, by rw [he]; exact h⟩
  callbacks n c h := by rw [hc]; exact h
  events := hv
  jobs := hj

theorem refl (s : Session σ) : Extends s s :=
  of_eq rfl rfl rfl rfl (List.prefix_refl _) (Nat.le_refl _)

theorem trans {s t u : Session σ} (h : Extends s t) (g : Extends t u) : Extends s u where
  invocations n v hv := by
    obtain ⟨a, ha, hk⟩ := h.invocations n v hv
    obtain ⟨b, hb, hl⟩ := g.invocations n _ ha
    exact ⟨b, hb, fun r hr => hl r (hk r hr)⟩
  streams n x hx := by
    obtain ⟨j, hj, hg⟩ := h.streams n x hx
    obtain ⟨k, hk, hl⟩ := g.streams n _ hj
    exact ⟨k, hk, hg.trans hl⟩
  expansions n x hx := by
    obtain ⟨a, b, hab⟩ := h.expansions n x hx
    obtain ⟨c, d, hcd⟩ := g.expansions n _ hab
    exact ⟨c, d, hcd⟩
  callbacks n c hc := g.callbacks n c (h.callbacks n c hc)
  events := h.events.trans g.events
  jobs := Nat.le_trans h.jobs g.jobs

theorem push (s : Session σ) (ts : List (Task σ)) : Extends s (s.push ts) :=
  of_eq rfl rfl rfl rfl (List.prefix_refl _) (Nat.le_refl _)

theorem of_push {s t : Session σ} {ts : List (Task σ)} (h : Extends s t) : Extends (s.push ts) t :=
  ⟨h.invocations, h.streams, h.expansions, h.callbacks, h.events, h.jobs⟩

theorem report (s : Session σ) (e : Event) : Extends s (s.report e) := by
  refine of_eq rfl rfl rfl rfl ?_ (Nat.le_refl _)
  rw [events_report, Array.toList_push]
  exact List.prefix_append _ _

theorem addInvocation (s : Session σ) (v : Invocation) : Extends s (s.addInvocation v) :=
  { refl s with
    invocations := fun _ w h => ⟨w.answer, getElem?_push_of_some h v, fun _ hr => hr⟩ }

theorem setAnswer {s : Session σ} {h : Handle} {v : Invocation}
    (hv : s.invocations[h.index]? = some v) (hn : v.answer = none) (r : Outcome (List Token)) :
    Extends s (s.setAnswer h v r) :=
  { refl s with
    invocations := fun n w hw => by
      rcases getElem?_set_of_some hv { v with answer := some r } hw with ⟨-, rfl, hs⟩ | ⟨-, hs⟩
      · exact ⟨some r, hs, fun q hq => by rw [hn] at hq; cases hq⟩
      · exact ⟨w.answer, hs, fun _ hq => hq⟩ }

theorem addStream (s : Session σ) (x : Stream) : Extends s (s.addStream x) :=
  { refl s with
    streams := fun _ y h => ⟨y.join, getElem?_push_of_some h x, .refl _⟩ }

theorem setStream {s : Session σ} {n : Nat} {x : Stream} (hx : s.streams[n]? = some x)
    {j : Join (List Token)} (hj : x.join.Grows j) :
    Extends s (s.setStream n { x with join := j }) :=
  { refl s with
    streams := fun m y hy => by
      rcases getElem?_set_of_some hx { x with join := j } hy with ⟨-, rfl, hs⟩ | ⟨-, hs⟩
      · exact ⟨j, hs, hj⟩
      · exact ⟨y.join, hs, .refl _⟩ }

theorem addExpansion (s : Session σ) (x : Expansion) : Extends s (s.addExpansion x) :=
  { refl s with
    expansions := fun _ y h => ⟨y.sides, y.pairs, getElem?_push_of_some h x⟩ }

theorem setExpansion {s : Session σ} {n : Nat} {x : Expansion} (hx : s.expansions[n]? = some x)
    (sides : List (Join (Content Token))) (pairs : Join (Held (Attribute Token))) :
    Extends s (s.setExpansion n { x with sides := sides, pairs := pairs }) :=
  { refl s with
    expansions := fun m y hy => by
      rcases getElem?_set_of_some hx { x with sides := sides, pairs := pairs } hy with
        ⟨-, rfl, hs⟩ | ⟨-, hs⟩
      · exact ⟨sides, pairs, hs⟩
      · exact ⟨y.sides, y.pairs, hs⟩ }

theorem addCallback (s : Session σ) (c : Callback σ) : Extends s (s.addCallback c) :=
  { refl s with
    callbacks := fun _ _ h => getElem?_push_of_some h c }

end Extends

/-- **A move loses no record.** -/
theorem Move.extends {s t : Session σ} {task : Task σ} (h : Move s task t) : Extends s t := by
  have same {u : Session σ} (hi : u.invocations = s.invocations) (hs : u.streams = s.streams)
      (he : u.expansions = s.expansions) (hc : u.callbacks = s.callbacks)
      (hv : u.events = s.events) (hj : u.jobs = s.jobs) : Extends s u :=
    .of_eq hi hs he hc (hv ▸ List.prefix_refl _) (Nat.le_of_eq hj.symm)
  cases h with
  | invoke _ => exact (Extends.addInvocation s _).trans (.push _ _)
  | noTokens | stream _ => exact (Extends.addStream s _).trans (.push _ _)
  | finished | expanded => exact .report s _
  | answered hv hn | failed hv hn => exact (Extends.setAnswer hv hn _).trans (.push _ _)
  | chunk hx => exact (Extends.setStream hx (Join.grows_fill _ _ _)).trans (.push _ _)
  | noPairs | expand _ => exact (Extends.addExpansion s _).trans (.push _ _)
  | settleSide hx _ _ | settlePair hx => exact (Extends.setExpansion hx _ _).trans (.push _ _)
  | process => exact (Extends.addCallback s _).trans (.push _ _)
  | report => exact (Extends.report s _).trans (.push _ _)
  | _ => exact same rfl rfl rfl rfl rfl rfl

/-- **What is done from outside loses no record.** -/
theorem Act.extends {s t : Session σ} (h : Act s t) : Extends s t := by
  have same {u : Session σ} (hi : u.invocations = s.invocations) (hs : u.streams = s.streams)
      (he : u.expansions = s.expansions) (hc : u.callbacks = s.callbacks)
      (hv : u.events = s.events) (hj : s.jobs ≤ u.jobs) : Extends s u :=
    .of_eq hi hs he hc (hv ▸ List.prefix_refl _) hj
  cases h with
  | process | dispatch | expandAttributes => exact same rfl rfl rfl rfl rfl (Nat.le_succ _)
  | _ => exact same rfl rfl rfl rfl rfl (Nat.le_refl _)

theorem Reaches.extends {s t : Session σ} (h : Reaches s t) : Extends s t := by
  induction h with
  | refl => exact .refl s
  | @step t _ ih =>
    rcases step_eq t with ⟨-, he⟩ | ⟨s₀, task, he, hm⟩
    · rw [he]; exact ih
    · rw [he] at ih
      exact ih.trans hm.extends.of_push
  | act _ _ ha ih => exact ih.trans ha.extends

/-! ### Where a record comes from -/

/-- An invocation was there before, and its answer with it unless it just came, or
a handler has taken a token. -/
theorem Move.invocation_cases {s t : Session σ} {task : Task σ} (h : Move s task t) {n : Nat}
    {v : Invocation} (hv : t.invocations[n]? = some v) :
    (∃ a, s.invocations[n]? = some { v with answer := a } ∧ (a = v.answer ∨
        a = none ∧ ∃ r, v.answer = some r ∧ task = .deliver (.handle ⟨n⟩) r)) ∨
      ∃ a o p g r, task = .offer a o p g ∧ s.registry.next? p a.kind = some r ∧
        n = s.invocations.size ∧ v = ⟨a, o, r.position, g, none⟩ := by
  cases h with
  | @invoke a o p g r hr =>
    rcases getElem?_push_cases hv with hv | ⟨rfl, rfl⟩
    · exact Or.inl ⟨_, hv, Or.inl rfl⟩
    · exact Or.inr ⟨a, o, p, g, r, rfl, hr, rfl, rfl⟩
  | answered hw hn | failed hw hn =>
    rcases getElem?_set_cases hv with ⟨rfl, rfl⟩ | ⟨-, hv⟩
    · exact Or.inl ⟨_, hw, Or.inr ⟨hn, _, rfl, rfl⟩⟩
    · exact Or.inl ⟨_, hv, Or.inl rfl⟩
  | _ => exact Or.inl ⟨_, hv, Or.inl rfl⟩

theorem Move.stream_cases {s t : Session σ} {task : Task σ} (h : Move s task t) {n : Nat}
    {x : Stream} (hx : t.streams[n]? = some x) :
    (∃ j, s.streams[n]? = some { x with join := j }) ∨
      ∃ ts o p k g, task = .stream ts o p k g ∧ n = s.streams.size ∧ x = newStream ts k g := by
  cases h with
  | @noTokens o p k g =>
    rcases getElem?_push_cases hx with hx | ⟨rfl, rfl⟩
    · exact Or.inl ⟨_, hx⟩
    · exact Or.inr ⟨[], o, p, k, g, rfl, rfl, rfl⟩
  | @stream ts o p k g _ =>
    rcases getElem?_push_cases hx with hx | ⟨rfl, rfl⟩
    · exact Or.inl ⟨_, hx⟩
    · exact Or.inr ⟨ts, o, p, k, g, rfl, rfl, rfl⟩
  | chunk hy =>
    rcases getElem?_set_cases hx with ⟨rfl, rfl⟩ | ⟨-, hx⟩
    · exact Or.inl ⟨_, hy⟩
    · exact Or.inl ⟨_, hx⟩
  | _ => exact Or.inl ⟨_, hx⟩

/-- An expansion was there before, or has just begun. -/
theorem Move.expansion_cases {s t : Session σ} {task : Task σ} (h : Move s task t) {n : Nat}
    {x : Expansion} (hx : t.expansions[n]? = some x) :
    (∃ sides pairs, s.expansions[n]? = some { x with sides := sides, pairs := pairs }) ∨
      ∃ as o p, task = .expand as o p ∧ n = s.expansions.size ∧ x = newExpansion as o p := by
  cases h with
  | @noPairs o p =>
    rcases getElem?_push_cases hx with hx | ⟨rfl, rfl⟩
    · exact Or.inl ⟨_, _, hx⟩
    · exact Or.inr ⟨[], o, p, rfl, rfl, rfl⟩
  | @expand as o p _ =>
    rcases getElem?_push_cases hx with hx | ⟨rfl, rfl⟩
    · exact Or.inl ⟨_, _, hx⟩
    · exact Or.inr ⟨as, o, p, rfl, rfl, rfl⟩
  | settleSide hy _ _ | settlePair hy =>
    rcases getElem?_set_cases hx with ⟨rfl, rfl⟩ | ⟨-, hx⟩
    · exact Or.inl ⟨_, _, hy⟩
    · exact Or.inl ⟨_, _, hx⟩
  | _ => exact Or.inl ⟨_, _, hx⟩

theorem Move.callback_cases {s t : Session σ} {task : Task σ} (h : Move s task t) {n : Nat}
    {c : Callback σ} (hc : t.callbacks[n]? = some c) :
    s.callbacks[n]? = some c ∨
      ∃ f ts o d k, task = .follow f (.process ts o d k) ∧ n = s.callbacks.size ∧ c = ⟨f, d⟩ := by
  cases h with
  | @process f ts o d k =>
    rcases getElem?_push_cases hc with hc | ⟨rfl, rfl⟩
    · exact Or.inl hc
    · exact Or.inr ⟨f, ts, o, d, k, rfl, rfl, rfl⟩
  | _ => exact Or.inl hc

/-! ### Tasks that a move puts in front -/

/-- The second script is what the first goes on with after the reply of the session. -/
inductive GoesOn (s : Session σ) : Script σ → Script σ → Prop
  | complete {h : Handle} {r : Outcome (List Token)} {k : Bool → Script σ} :
      GoesOn s (.complete h r k) (k !(s.isAnswered h))
  | isAnswered {h : Handle} {k : Bool → Script σ} : GoesOn s (.isAnswered h k) (k (s.isAnswered h))
  | process {ts : List Token} {o : Option Options} {d : Outcome (List Token) → Script σ}
      {k : Script σ} : GoesOn s (.process ts o d k) k
  | expandAttributes {a : Token} {o : Options} {k : Script σ} :
      GoesOn s (.expandAttributes a o k) k
  | newObjectId {k : String → Script σ} : GoesOn s (.newObjectId k) (k s.ids.newObjectId.1)
  | register {n : String} {r : Rank} {q : Filter} {a : Handler σ} {k : Script σ} :
      GoesOn s (.register n r q a k) k
  | report {n : Note} {k : Script σ} : GoesOn s (.report n k) k
  | remember {u : σ → σ} {k : σ → Script σ} : GoesOn s (.remember u k) (k s.memory)

/-- The second task is one of those that a move puts in the place of the first. -/
inductive Brings (s : Session σ) : Task σ → Task σ → Prop
  | pass {a o p g} : s.registry.next? p a.kind = none →
      Brings s (.offer a o p g) (.deliver g (.ok [a]))
  | invoke {a o p g r} : s.registry.next? p a.kind = some r →
      Brings s (.offer a o p g) (.follow (s.nextFrame r o) (r.handler (s.nextFrame r o) a))
  | noTokens {o p h g} : Brings s (.stream [] o p h g) (.deliver g (.ok []))
  | token {ts o p h g i a} : ts[i]? = some a →
      Brings s (.stream ts o p h g) (.offer a o p (.chunk s.streams.size i))
  | resume {n r c} : s.callbacks[n]? = some c →
      Brings s (.deliver (.callback n) r) (.follow c.frame (c.script r))
  | answered {h ts v} : s.invocations[h.index]? = some v → v.answer = none →
      Brings s (.deliver (.handle h) (.ok ts))
        (.stream ts v.options (some v.position) (some h) v.target)
  | failed {h e v} : s.invocations[h.index]? = some v → v.answer = none →
      Brings s (.deliver (.handle h) (.error e)) (.deliver v.target (.error e))
  | chunk {n i r x d} : s.streams[n]? = some x → (x.join.fill i r).2 = some d →
      Brings s (.deliver (.chunk n i) r) (.deliver x.target (d.map List.flatten))
  | side {e i d r} : Brings s (.deliver (.side e i d) r) (.settleSide e i d (r.map .tokens))
  | noPairs {o u} : Brings s (.expand [] o u) (.finish o u (.ok []))
  | pair {as o u i} : i < as.length →
      Brings s (.expand as o u) (.expandPair s.expansions.size i)
  | expandPair {e i d x a} : s.expansions[e]? = some x → x.attributes[i]? = some a →
      a.needsExpansion = true → Brings s (.expandPair e i) (.expandSide e i d)
  | keepPair {e i x a} : s.expansions[e]? = some x → x.attributes[i]? = some a →
      a.needsExpansion = false → Brings s (.expandPair e i) (.settlePair e i (.ok (.shared a)))
  | textSide {e i d x a w} : s.expansions[e]? = some x → x.attributes[i]? = some a →
      d.of a = .text w → Brings s (.expandSide e i d) (.settleSide e i d (.ok (.text w)))
  | tokenSide {e i d x a ts} : s.expansions[e]? = some x → x.attributes[i]? = some a →
      d.of a = .tokens ts →
      Brings s (.expandSide e i d) (.stream ts x.options none none (.side e i d))
  | settleSide {e i d r x j a c} : s.expansions[e]? = some x → x.sides[i]? = some j →
      x.attributes[i]? = some a → (j.fill d.slot r).2 = some c →
      Brings s (.settleSide e i d r) (.settlePair e i (pairOfSides a c))
  | settlePair {e i r x c} : s.expansions[e]? = some x → (x.pairs.fill i r).2 = some c →
      Brings s (.settlePair e i r) (.finish x.options x.purpose c)
  | reconciled {o a h hs} : Brings s (.finish o (.answer a h) (.ok hs))
      (.deliver (.handle h) (returnAttributes o s.ids a hs).1)
  | notExpanded {o a h e} : Brings s (.finish o (.answer a h) (.error e))
      (.deliver (.handle h) (.error (tokenFailure a e)))
  | answer {f r} : Brings s (.follow f (.answer r)) (.deliver (.handle f.handle) r)
  | complete {f h r k} : Brings s (.follow f (.complete h r k)) (.deliver (.handle h) r)
  | process {f ts o d k} : Brings s (.follow f (.process ts o d k))
      (.stream ts (o.getD s.options) none none (.callback s.callbacks.size))
  | expandAttributes {f a o k} : Brings s (.follow f (.expandAttributes a o k))
      (.expand ((a.tag?.map Tag.attributes).getD []) o (.answer a f.handle))
  | goesOn {f k k'} : GoesOn s k k' → Brings s (.follow f k) (.follow f k')

/-- **A task on the agenda was there before, or the task of the move leads to it.** -/
theorem Move.brings {s t : Session σ} {task k : Task σ} (h : Move s task t) (hm : k ∈ t.agenda) :
    k ∈ s.agenda ∨ Brings s task k := by
  have put {ks : List (Task σ)} (ha : t.agenda = ks ++ s.agenda)
      (hn : ∀ k ∈ ks, Brings s task k) : k ∈ s.agenda ∨ Brings s task k :=
    (List.mem_append.1 (ha ▸ hm)).symm.imp_right (hn k)
  have one {a : Task σ} (ha : t.agenda = [a] ++ s.agenda) (hn : Brings s task a) :
      k ∈ s.agenda ∨ Brings s task k :=
    put ha (List.forall_mem_singleton.2 hn)
  have two {a b : Task σ} (ha : t.agenda = [a, b] ++ s.agenda) (hn : Brings s task a)
      (hn' : Brings s task b) : k ∈ s.agenda ∨ Brings s task k :=
    put ha (List.forall_mem_cons.2 ⟨hn, List.forall_mem_singleton.2 hn'⟩)
  cases h with
  | pass hn => exact one rfl (.pass hn)
  | invoke hn => exact one rfl (.invoke hn)
  | noTokens => exact one rfl .noTokens
  | stream _ =>
    refine put rfl fun k hk => ?_
    obtain ⟨i, hi, rfl⟩ := List.mem_mapIdx.1 hk
    exact .token (List.getElem?_eq_getElem hi)
  | resume hc => exact one rfl (.resume hc)
  | answered hv hn => exact one rfl (.answered hv hn)
  | failed hv hn => exact one rfl (.failed hv hn)
  | chunk hx =>
    refine put rfl fun k hk => ?_
    obtain ⟨d, hd, rfl⟩ := List.mem_map.1 hk
    exact .chunk hx (Option.mem_toList.1 hd)
  | side => exact one rfl .side
  | noPairs => exact one rfl .noPairs
  | expand _ =>
    refine put rfl fun k hk => ?_
    obtain ⟨i, hi, rfl⟩ := List.mem_map.1 hk
    exact .pair (List.mem_range.1 hi)
  | expandPair hx ha hn => exact two rfl (.expandPair hx ha hn) (.expandPair hx ha hn)
  | keepPair hx ha hn => exact one rfl (.keepPair hx ha hn)
  | textSide hx ha hd => exact one rfl (.textSide hx ha hd)
  | tokenSide hx ha hd => exact one rfl (.tokenSide hx ha hd)
  | settleSide hx hj ha =>
    refine put rfl fun k hk => ?_
    obtain ⟨c, hc, rfl⟩ := List.mem_map.1 hk
    exact .settleSide hx hj ha (Option.mem_toList.1 hc)
  | settlePair hx =>
    refine put rfl fun k hk => ?_
    obtain ⟨c, hc, rfl⟩ := List.mem_map.1 hk
    exact .settlePair hx (Option.mem_toList.1 hc)
  | reconciled => exact one rfl .reconciled
  | notExpanded => exact one rfl .notExpanded
  | answer => exact one rfl .answer
  | complete => exact two rfl .complete (.goesOn .complete)
  | isAnswered => exact one rfl (.goesOn .isAnswered)
  | process => exact two rfl .process (.goesOn .process)
  | expandAttributes => exact two rfl .expandAttributes (.goesOn .expandAttributes)
  | newObjectId => exact one rfl (.goesOn .newObjectId)
  | register => exact one rfl (.goesOn .register)
  | report => exact one rfl (.goesOn .report)
  | remember => exact one rfl (.goesOn .remember)
  | finished | noCallback _ | ignored _ | noStream _ | noPair _ | noSide _ | noSlot _
  | noExpansion _ | expanded | suspend => exact Or.inl hm

/-- A token was to be offered before, or its stream has just begun. -/
theorem Move.offer_cases {s t : Session σ} {task : Task σ} (h : Move s task t) {a : Token}
    {o : Options} {p : Option Position} {g : Target} (hm : .offer a o p g ∈ t.agenda) :
    .offer a o p g ∈ s.agenda ∨ ∃ ts k g' i, task = .stream ts o p k g' ∧ ts[i]? = some a ∧
      g = .chunk s.streams.size i := by
  rcases h.brings hm with hm | hl
  · exact Or.inl hm
  · cases hl with
    | token hi => exact Or.inr ⟨_, _, _, _, rfl, hi, rfl⟩

/-- A script on the agenda was there before, is what a registered handler begins
with, takes up what another one has left, or goes on. -/
theorem Move.follow_cases {s t : Session σ} {task : Task σ} (h : Move s task t) {f : Frame}
    {k : Script σ} (hm : .follow f k ∈ t.agenda) :
    .follow f k ∈ s.agenda ∨
      (∃ r ∈ s.registry.entries, r.position = f.position ∧ ∃ a, k = r.handler f a) ∨
      (∃ (n : Nat) (c : Callback σ) (r : Outcome (List Token)),
        s.callbacks[n]? = some c ∧ c.frame = f ∧ k = c.script r) ∨
      ∃ k₀, task = .follow f k₀ ∧ GoesOn s k₀ k := by
  rcases h.brings hm with hm | hl
  · exact .inl hm
  · cases hl with
    | invoke hr => exact .inr (.inl ⟨_, List.mem_of_find?_eq_some hr, rfl, _, rfl⟩)
    | resume hc => exact .inr (.inr (.inl ⟨_, _, _, hc, rfl, rfl⟩))
    | goesOn hk => exact .inr (.inr (.inr ⟨_, rfl, hk⟩))

/-! ### What a join does with what it is handed -/

section Joins

variable {s : Session σ}

theorem setStream_self {n : Nat} {x : Stream} (hx : s.streams[n]? = some x) :
    s.setStream n x = s := by
  rw [setStream, setIfInBounds_of_some hx]

theorem setExpansion_self {e : Nat} {x : Expansion} (hx : s.expansions[e]? = some x) :
    s.setExpansion e x = s := by
  rw [setExpansion, setIfInBounds_of_some hx]

/-- A stream that is closed takes nothing in. -/
theorem perform_deliver_closed {n : Nat} {x : Stream} (hx : s.streams[n]? = some x)
    (hd : x.join.delivered = true) (i : Nat) (r : Outcome (List Token)) :
    s.perform (.deliver (.chunk n i) r) = s := by
  rw [Move.perform_eq (.chunk hx), Join.fill_of_delivered hd]
  exact setStream_self hx

theorem perform_deliver_error {n : Nat} {x : Stream} (hx : s.streams[n]? = some x)
    (hd : x.join.delivered = false) (i : Nat) (c : ExpansionError) :
    s.perform (.deliver (.chunk n i) (.error c)) =
      (s.setStream n { x with join := { x.join with delivered := true } }).push
        [.deliver x.target (.error c)] := by
  rw [Move.perform_eq (.chunk hx), Join.fill_error hd]
  rfl

theorem perform_settleSide_closed {e i : Nat} {x : Expansion} (hx : s.expansions[e]? = some x)
    {j : Join (Content Token)} (hj : x.sides[i]? = some j) (hd : j.delivered = true) (k : Side)
    (r : Outcome (Content Token)) : s.perform (.settleSide e i k r) = s := by
  cases ha : x.attributes[i]? with
  | none =>
    refine Move.perform_eq (.noSlot fun y hy => .inr ?_)
    exact Option.some.inj (hx.symm.trans hy) ▸ ha
  | some a =>
    have hset : x.sides.set i j = x.sides := by
      rw [← (List.getElem?_eq_some_iff.1 hj).2, List.set_getElem_self]
    rw [Move.perform_eq (.settleSide hx hj ha), Join.fill_of_delivered hd, hset]
    exact setExpansion_self hx

theorem perform_settleSide_error {e i : Nat} {x : Expansion} (hx : s.expansions[e]? = some x)
    {j : Join (Content Token)} (hj : x.sides[i]? = some j) (hd : j.delivered = false)
    {a : Attribute Token} (ha : x.attributes[i]? = some a) (k : Side) (c : ExpansionError) :
    s.perform (.settleSide e i k (.error c)) =
      (s.setExpansion e { x with sides := x.sides.set i { j with delivered := true } }).push
        [.settlePair e i (pairOfSides a (.error c))] := by
  rw [Move.perform_eq (.settleSide hx hj ha), Join.fill_error hd]
  rfl

theorem perform_settlePair_closed {e : Nat} {x : Expansion} (hx : s.expansions[e]? = some x)
    (hd : x.pairs.delivered = true) (i : Nat) (r : Outcome (Held (Attribute Token))) :
    s.perform (.settlePair e i r) = s := by
  rw [Move.perform_eq (.settlePair hx), Join.fill_of_delivered hd]
  exact setExpansion_self hx

theorem perform_settlePair_error {e : Nat} {x : Expansion} (hx : s.expansions[e]? = some x)
    (hd : x.pairs.delivered = false) (i : Nat) (c : ExpansionError) :
    s.perform (.settlePair e i (.error c)) =
      (s.setExpansion e { x with pairs := { x.pairs with delivered := true } }).push
        [.finish x.options x.purpose (.error c)] := by
  rw [Move.perform_eq (.settlePair hx), Join.fill_error hd]
  rfl

end Joins

/-! ### Acts from outside -/

theorem Act.records {s t : Session σ} (h : Act s t) :
    t.invocations = s.invocations ∧ t.streams = s.streams ∧ t.expansions = s.expansions ∧
      t.callbacks = s.callbacks := by
  cases h <;> exact ⟨rfl, rfl, rfl, rfl⟩

inductive Asks (s t : Session σ) : Task σ → Prop
  | process {ts o} : t.jobs = s.jobs + 1 → Asks s t (.stream ts o none none (.job s.jobs))
  | dispatch {a o} : t.jobs = s.jobs + 1 → Asks s t (.offer a o none (.job s.jobs))
  | expandAttributes {as o} : t.jobs = s.jobs + 1 → Asks s t (.expand as o (.job s.jobs))
  | complete {h r} : Asks s t (.deliver (.handle h) r)

/-- **A task on the agenda was there before, or the act asks for it.** -/
theorem Act.asks {s t : Session σ} {k : Task σ} (h : Act s t) (hm : k ∈ t.agenda) :
    k ∈ s.agenda ∨ Asks s t k := by
  have one {a : Task σ} (ha : t.agenda = [a] ++ s.agenda) (hn : Asks s t a) :
      k ∈ s.agenda ∨ Asks s t k := by
    rw [ha] at hm
    exact (List.mem_append.1 hm).symm.imp_right (List.forall_mem_singleton.2 hn k)
  cases h with
  | process => exact one rfl (.process rfl)
  | dispatch => exact one rfl (.dispatch rfl)
  | expandAttributes => exact one rfl (.expandAttributes rfl)
  | complete => exact one rfl .complete
  | _ => exact Or.inl hm

end Session

end WikiExpansion
