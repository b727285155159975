import WikiExpansion.Proofs.Ledger

/-!
# Where the work of a session comes from

`Lineage` ties every record to the one that it stems from.  A token is offered
for its own place in a stream; an invocation works on the token that was offered;
a stream that stems from an invocation has the tokens of its first answer, goes
through the handlers after it, and goes where that one's tokens go.  A stream is
younger than the stream in which it has its place, and no place sees two
invocations or two streams.

Every reachable session has its lineage (`Reachable.lineage`).
-/

namespace WikiExpansion

/-- The task leads to a stream with the target, if nobody takes it over. -/
def Task.starts {σ : Type} (g : Target) : Task σ → Bool
  | .offer _ _ _ g' | .stream _ _ _ _ g' => g' == g
  | .expandPair e i => .side e i .key == g || .side e i .value == g
  | .expandSide e i d => .side e i d == g
  | _ => false

theorem Task.owes_of_starts {σ : Type} {g : Target} {task : Task σ} (h : task.starts g = true) :
    task.owes g = true := by
  cases task with
  | offer | stream | expandPair | expandSide => exact h
  | _ => cases h

namespace Session

variable {σ : Type}

def StartsAfter (s : Session σ) : Option Handle → Option Position → Prop
  | none, p => p = none
  | some h, p => ∃ v, s.invocations[h.index]? = some v ∧ p = some v.position

/-- The token is the one to be offered, after the position, for the target. -/
def Offered (s : Session σ) (t : Token) (p : Option Position) : Target → Prop
  | .chunk n i =>
    ∃ x, s.streams[n]? = some x ∧ x.tokens[i]? = some t ∧ s.StartsAfter x.origin p
  | .job j => j < s.jobs ∧ p = none
  | _ => False

def Known (s : Session σ) : Target → Prop
  | .job j => j < s.jobs
  | .side e _ _ => e < s.expansions.size
  | .callback n => n < s.callbacks.size
  | _ => False

/-- The tokens are the first answer of the invocation they stem from, and go
where its tokens go. -/
def Stems (s : Session σ) : Option Handle → List Token → Target → Prop
  | none, _, g => s.Known g
  | some h, ts, g =>
    ∃ v, s.invocations[h.index]? = some v ∧ v.answer = some (.ok ts) ∧ v.target = g

def Calls (s : Session σ) (f : Frame) : Prop :=
  ∃ v, s.invocations[f.handle.index]? = some v ∧ v.position = f.position ∧ v.options = f.options

def Traced (s : Session σ) : Task σ → Prop
  | .offer t _ p g => s.Offered t p g
  | .stream ts _ p h g => s.Stems h ts g ∧ s.StartsAfter h p
  | .follow f _ => s.Calls f
  | _ => True

structure Lineage (s : Session σ) : Prop where
  tasks : ∀ task ∈ s.agenda, s.Traced task
  invocations : ∀ (h : Nat) (v : Invocation), s.invocations[h]? = some v →
    ∃ p, s.Offered v.token p v.target
  streams : ∀ (n : Nat) (x : Stream), s.streams[n]? = some x →
    s.Stems x.origin x.tokens x.target ∧ ∃ p, s.StartsAfter x.origin p
  younger : ∀ (n : Nat) (x : Stream) (m i : Nat), s.streams[n]? = some x →
    x.target = .chunk m i → m < n
  callbacks : ∀ (n : Nat) (c : Callback σ), s.callbacks[n]? = some c → s.Calls c.frame
  unheard : ∀ (t : Token) (o : Options) (p : Option Position) (g : Target),
    .offer t o p g ∈ s.agenda →
    ∀ (h : Nat) (v : Invocation), s.invocations[h]? = some v → v.target ≠ g
  unique : ∀ (h k : Nat) (v w : Invocation), s.invocations[h]? = some v →
    s.invocations[k]? = some w → v.target = w.target → h = k
  pending : ∀ task ∈ s.agenda, ∀ g, task.starts g = true →
    ∀ (n : Nat) (x : Stream), s.streams[n]? = some x → x.target ≠ g
  waiting : ∀ (h : Nat) (v : Invocation), s.invocations[h]? = some v → v.answer = none →
    ∀ (n : Nat) (x : Stream), s.streams[n]? = some x → x.target ≠ v.target
  sole : ∀ (m n : Nat) (x y : Stream), s.streams[m]? = some x → s.streams[n]? = some y →
    x.target = y.target → m = n

/-! ### What is known of a task or a record stays known -/

theorem StartsAfter.mono {s t : Session σ} (he : Extends s t) {h : Option Handle}
    {p : Option Position} (hp : s.StartsAfter h p) : t.StartsAfter h p := by
  cases h with
  | none => exact hp
  | some h =>
    obtain ⟨v, hv, hp⟩ := hp
    obtain ⟨a, ha, -⟩ := he.invocations _ v hv
    exact ⟨_, ha, hp⟩

theorem Offered.mono {s t : Session σ} (he : Extends s t) {a : Token} {p : Option Position}
    {g : Target} (h : s.Offered a p g) : t.Offered a p g := by
  cases g with
  | chunk n i =>
    obtain ⟨x, hx, ha, hp⟩ := h
    obtain ⟨j, hj, -⟩ := he.streams n x hx
    exact ⟨_, hj, ha, hp.mono he⟩
  | job j => exact ⟨Nat.lt_of_lt_of_le h.1 he.jobs, h.2⟩
  | _ => exact h.elim

theorem Extends.size_expansions {s t : Session σ} (he : Extends s t) :
    s.expansions.size ≤ t.expansions.size := by
  by_contra hn
  obtain ⟨a, b, hx⟩ := he.expansions t.expansions.size _
    (Array.getElem?_eq_getElem (Nat.lt_of_not_le hn))
  exact Nat.lt_irrefl _ (lt_size_of_some hx)

theorem Extends.size_callbacks {s t : Session σ} (he : Extends s t) :
    s.callbacks.size ≤ t.callbacks.size := by
  by_contra hn
  have hc := he.callbacks t.callbacks.size _ (Array.getElem?_eq_getElem (Nat.lt_of_not_le hn))
  exact Nat.lt_irrefl _ (lt_size_of_some hc)

theorem Known.mono {s t : Session σ} (he : Extends s t) {g : Target} (h : s.Known g) :
    t.Known g := by
  cases g with
  | job j => exact Nat.lt_of_lt_of_le h he.jobs
  | side e i d => exact Nat.lt_of_lt_of_le h he.size_expansions
  | callback n => exact Nat.lt_of_lt_of_le h he.size_callbacks
  | _ => exact h.elim

theorem Known.isPlace {s : Session σ} {g : Target} (h : s.Known g) : g.isPlace = true := by
  cases g with
  | handle _ => exact h.elim
  | _ => rfl

theorem Stems.mono {s t : Session σ} (he : Extends s t) {h : Option Handle} {ts : List Token}
    {g : Target} (hs : s.Stems h ts g) : t.Stems h ts g := by
  cases h with
  | none => exact Known.mono he hs
  | some h =>
    obtain ⟨v, hv, ha, hg⟩ := hs
    obtain ⟨a, hw, hk⟩ := he.invocations _ v hv
    exact ⟨_, hw, hk _ ha, hg⟩

theorem Calls.mono {s t : Session σ} (he : Extends s t) {f : Frame} (h : s.Calls f) :
    t.Calls f := by
  obtain ⟨v, hv, hp⟩ := h
  obtain ⟨a, ha, -⟩ := he.invocations _ v hv
  exact ⟨_, ha, hp⟩

theorem Traced.mono {s t : Session σ} (he : Extends s t) {task : Task σ} (h : s.Traced task) :
    t.Traced task := by
  cases task with
  | offer a o p g => exact Offered.mono he h
  | stream ts o p k g => exact ⟨h.1.mono he, h.2.mono he⟩
  | follow f k => exact Calls.mono he h
  | _ => trivial

theorem Offered.isPlace {s : Session σ} {a : Token} {p : Option Position} {g : Target}
    (h : s.Offered a p g) : g.isPlace = true := by
  cases g with
  | chunk _ _ | job _ => rfl
  | _ => exact h.elim

/-! ### Moves -/

theorem mem_push {s : Session σ} {ts : List (Task σ)} {task : Task σ} :
    task ∈ (s.push ts).agenda ↔ task ∈ ts ∨ task ∈ s.agenda :=
  List.mem_append

theorem mem_push_self {s : Session σ} {task : Task σ} : task ∈ (s.push [task]).agenda :=
  List.mem_cons_self

theorem Move.mem_agenda {s t : Session σ} {task k : Task σ} (h : Move s task t)
    (hm : k ∈ (s.push [task]).agenda) : k = task ∨ k ∈ t.agenda := by
  obtain ⟨new, hn⟩ := h.agenda
  rcases mem_push.1 hm with hm | hm
  · exact Or.inl (List.mem_singleton.1 hm)
  · exact Or.inr (hn ▸ List.mem_append_right new hm)

/-- The tasks that a move leaves are traced. -/
theorem Move.traced {s t : Session σ} {task : Task σ} (h : Move s task t)
    (hl : Lineage (s.push [task])) : ∀ k ∈ t.agenda, t.Traced k := by
  have he := h.extends
  have old : ∀ k ∈ s.agenda, t.Traced k := fun k hk =>
    (hl.tasks k (mem_push.2 (Or.inr hk))).mono he.of_push
  have head : t.Traced task :=
    (hl.tasks task mem_push_self).mono he.of_push
  -- what is put in front of the old tasks has to be traced in the new session
  have put {ts : List (Task σ)} (ha : t.agenda = ts ++ s.agenda) (hn : ∀ k ∈ ts, t.Traced k) :
      ∀ k ∈ t.agenda, t.Traced k := by
    intro k hk
    rw [ha] at hk
    rcases List.mem_append.1 hk with hk | hk
    · exact hn k hk
    · exact old k hk
  have single {a : Task σ} (ha : t.agenda = [a] ++ s.agenda) (hn : t.Traced a) :
      ∀ k ∈ t.agenda, t.Traced k :=
    put ha fun k hk => List.mem_singleton.1 hk ▸ hn
  have pair {a b : Task σ} (ha : t.agenda = [a, b] ++ s.agenda) (hn : t.Traced a)
      (hm : t.Traced b) : ∀ k ∈ t.agenda, t.Traced k := by
    refine put ha fun k hk => ?_
    rcases List.mem_cons.1 hk with rfl | hk
    · exact hn
    · exact List.mem_singleton.1 hk ▸ hm
  cases h with
  | invoke _ => exact single rfl ⟨_, Array.getElem?_push_size, rfl, rfl⟩
  | stream _ =>
    refine put rfl fun k hk => ?_
    obtain ⟨i, hi, rfl⟩ := List.mem_mapIdx.1 hk
    exact ⟨_, Array.getElem?_push_size, List.getElem?_eq_getElem hi, head.2⟩
  | resume hc => exact single rfl ((hl.callbacks _ _ hc).mono he.of_push)
  | @answered h ts v hv hn =>
    have hw : (s.setAnswer h v (.ok ts)).invocations[h.index]? =
        some { v with answer := some (.ok ts) } :=
      Array.getElem?_setIfInBounds_self_of_lt (lt_size_of_some hv)
    exact single rfl ⟨⟨_, hw, rfl, rfl⟩, _, hw, rfl⟩
  | chunk _ =>
    refine put rfl fun k hk => ?_
    obtain ⟨d, -, rfl⟩ := List.mem_map.1 hk
    trivial
  | expand _ =>
    refine put rfl fun k hk => ?_
    obtain ⟨i, -, rfl⟩ := List.mem_map.1 hk
    trivial
  | expandPair _ _ _ => exact pair rfl trivial trivial
  | tokenSide hx _ _ => exact single rfl ⟨lt_size_of_some hx, rfl⟩
  | settleSide _ _ _ =>
    refine put rfl fun k hk => ?_
    obtain ⟨d, -, rfl⟩ := List.mem_map.1 hk
    trivial
  | settlePair _ =>
    refine put rfl fun k hk => ?_
    obtain ⟨d, -, rfl⟩ := List.mem_map.1 hk
    trivial
  | complete | expandAttributes => exact pair rfl trivial head
  | @process f ts o d k =>
    refine pair rfl ⟨?_, rfl⟩ head
    show s.callbacks.size < (s.callbacks.push ⟨f, d⟩).size
    rw [Array.size_push]
    exact Nat.lt_succ_self _
  | isAnswered | newObjectId | register | report | remember => exact single rfl head
  | finished | noCallback _ | ignored _ | noStream _ | noPair _ | noSide _ | noSlot _
  | noExpansion _ | expanded | suspend => exact old
  | _ => exact single rfl trivial

/-- Two tasks that owe one place would owe it twice. -/
theorem not_owed_again {s : Session σ} {task : Task σ} {g : Target} (ht : task.owes g = true)
    (hd : (s.push [task]).debt g ≤ 1) {k : Task σ} (hm : k ∈ s.agenda) : k.owes g = false := by
  by_contra hk
  have hpos : 0 < s.agenda.countP (Task.owes g) :=
    List.countP_pos_iff.2 ⟨k, hm, (Bool.not_eq_false _).mp hk⟩
  rw [debt_push_one, ht, Bool.toNat_true, debt] at hd
  omega

/-- A task that starts something was there before, or the move says why it starts. -/
theorem Move.starts_cases {s t : Session σ} {task : Task σ} (h : Move s task t) {k : Task σ}
    (hk : k ∈ t.agenda) {g : Target} (hs : k.starts g = true) :
    k ∈ s.agenda ∨
      (∃ e i, (task = .expandPair e i ∨ ∃ d, task = .expandSide e i d) ∧ task.starts g = true) ∨
      (∃ ts o p h g' i, task = .stream ts o p h g' ∧ g = .chunk s.streams.size i) ∨
      (∃ h r v, task = .deliver (.handle h) r ∧ s.invocations[h.index]? = some v ∧
        v.answer = none ∧ g = v.target) ∨
      (∃ as o p i d, task = .expand as o p ∧ g = .side s.expansions.size i d) ∨
      ∃ f ts o d k, task = .follow f (.process ts o d k) ∧ g = .callback s.callbacks.size := by
  rcases h.brings hk with hk | hl
  · exact Or.inl hk
  · refine Or.inr ?_
    cases hl with
    | @expandPair e i d =>
      refine Or.inl ⟨_, _, Or.inl rfl, Bool.or_eq_true_iff.2 ?_⟩
      cases d with
      | key => exact Or.inl hs
      | value => exact Or.inr hs
    | tokenSide _ _ _ => exact Or.inl ⟨_, _, Or.inr ⟨_, rfl⟩, hs⟩
    | token _ => exact Or.inr (Or.inl ⟨_, _, _, _, _, _, rfl, (eq_of_beq hs).symm⟩)
    | answered hv hn =>
      exact Or.inr (Or.inr (Or.inl ⟨_, _, _, rfl, hv, hn, (eq_of_beq hs).symm⟩))
    | pair _ =>
      refine Or.inr (Or.inr (Or.inr (Or.inl ?_)))
      rcases Bool.or_eq_true_iff.1 hs with hs | hs
      · exact ⟨_, _, _, _, _, rfl, (eq_of_beq hs).symm⟩
      · exact ⟨_, _, _, _, _, rfl, (eq_of_beq hs).symm⟩
    | process =>
      exact Or.inr (Or.inr (Or.inr (Or.inr ⟨_, _, _, _, _, rfl, (eq_of_beq hs).symm⟩)))
    | _ => cases hs

/-- Where tokens that stem from somewhere go is a place that is there. -/
theorem Lineage.offered_or_known {s : Session σ} (hl : Lineage s) {k : Option Handle}
    {ts : List Token} {g : Target} (hs : s.Stems k ts g) :
    (∃ a p, s.Offered a p g) ∨ s.Known g := by
  cases k with
  | none => exact Or.inr hs
  | some k =>
    obtain ⟨v, hv, -, rfl⟩ := hs
    obtain ⟨p, hp⟩ := hl.invocations _ v hv
    exact Or.inl ⟨_, p, hp⟩

/-- No stream goes where nothing was opened yet. -/
theorem Lineage.target_ne_chunk {s : Session σ} (hl : Lineage s) {n i : Nat} {x : Stream}
    (hx : s.streams[n]? = some x) : x.target ≠ .chunk s.streams.size i := by
  intro hg
  have := hl.younger n x _ i hx hg
  have := lt_size_of_some hx
  omega

theorem Lineage.target_ne_side {s : Session σ} (hl : Lineage s) {n i : Nat} {d : Side} {x : Stream}
    (hx : s.streams[n]? = some x) : x.target ≠ .side s.expansions.size i d := by
  intro hg
  rcases hl.offered_or_known (hl.streams n x hx).1 with ⟨a, p, h⟩ | h
  · rw [hg] at h
    exact h
  · rw [hg] at h
    exact Nat.lt_irrefl _ h

theorem Lineage.target_ne_callback {s : Session σ} (hl : Lineage s) {n : Nat} {x : Stream}
    (hx : s.streams[n]? = some x) : x.target ≠ .callback s.callbacks.size := by
  intro hg
  rcases hl.offered_or_known (hl.streams n x hx).1 with ⟨a, p, h⟩ | h
  · rw [hg] at h
    exact h
  · rw [hg] at h
    exact Nat.lt_irrefl _ h

theorem Lineage.target_ne_job {s : Session σ} (hl : Lineage s) {n : Nat} {x : Stream}
    (hx : s.streams[n]? = some x) : x.target ≠ .job s.jobs := by
  intro hg
  rcases hl.offered_or_known (hl.streams n x hx).1 with ⟨a, p, h⟩ | h
  · rw [hg] at h
    exact Nat.lt_irrefl _ h.1
  · rw [hg] at h
    exact Nat.lt_irrefl _ h

theorem Lineage.isPlace_of_stream {s : Session σ} {ts : List Token} {o : Options}
    {p : Option Position} {k : Option Handle} {g : Target} (hl : Lineage s)
    (hm : .stream ts o p k g ∈ s.agenda) : g.isPlace = true := by
  have hs : s.Stems k ts g := (hl.tasks _ hm).1
  rcases hl.offered_or_known hs with ⟨a, q, h⟩ | h
  · exact h.isPlace
  · exact h.isPlace

theorem Move.unheard {s t : Session σ} {task : Task σ} (h : Move s task t)
    (hg : Ledger (s.push [task])) (hl : Lineage (s.push [task])) {a : Token} {o : Options}
    {p : Option Position} {g : Target} (hm : .offer a o p g ∈ t.agenda) {k : Nat} {v : Invocation}
    (hv : t.invocations[k]? = some v) : v.target ≠ g := by
  rcases h.offer_cases hm with hm | ⟨ts, h', g', i, rfl, -, rfl⟩
  · rcases h.invocation_cases hv with ⟨r, hv, -⟩ | ⟨b, o', p', g', r, rfl, -, -, rfl⟩
    · have hu := hl.unheard a o p g (mem_push.2 (Or.inr hm)) k _ hv
      exact hu
    · rintro rfl
      have hb := Offered.isPlace (hl.tasks _ mem_push_self)
      have := not_owed_again (by simp [Task.owes]) (hg.debt_le_one hb) hm
      simp [Task.owes] at this
  · rcases h.invocation_cases hv with ⟨r, hv, -⟩ | ⟨b, o', p', g', r, he, -⟩
    · intro he
      obtain ⟨q, hq⟩ := hl.invocations k _ hv
      rw [show v.target = _ from he] at hq
      obtain ⟨x, hx, -⟩ := hq
      exact Nat.lt_irrefl _ (lt_size_of_some hx)
    · cases he

theorem Move.unique {s t : Session σ} {task : Task σ} (h : Move s task t)
    (hl : Lineage (s.push [task])) {k l : Nat} {v w : Invocation}
    (hv : t.invocations[k]? = some v) (hw : t.invocations[l]? = some w)
    (he : v.target = w.target) : k = l := by
  rcases h.invocation_cases hv with ⟨r, hv, -⟩ | ⟨a, o, p, g, r, rfl, -, rfl, rfl⟩
  · rcases h.invocation_cases hw with ⟨q, hw, -⟩ | ⟨a, o, p, g, q, rfl, -, rfl, rfl⟩
    · exact hl.unique k l _ _ hv hw he
    · have hu := hl.unheard a o p g mem_push_self k _ hv
      exact absurd he hu
  · rcases h.invocation_cases hw with ⟨q, hw, -⟩ | ⟨b, o', p', g', q, ht, -, rfl, rfl⟩
    · have hu := hl.unheard a o p g mem_push_self l _ hw
      exact absurd he.symm hu
    · rfl

theorem Move.unanswered {s t : Session σ} {task : Task σ} (h : Move s task t) {k : Nat}
    {v : Invocation} (hv : t.invocations[k]? = some v) (hn : v.answer = none) :
    s.invocations[k]? = some v ∨
      ∃ a o p g r, task = .offer a o p g ∧ v = ⟨a, o, r, g, none⟩ := by
  rcases h.invocation_cases hv with ⟨r, hs, hr⟩ | ⟨a, o, p, g, r, rfl, -, -, rfl⟩
  · have hr : r = v.answer := hr.elim id fun h => h.1.trans hn.symm
    rw [hr] at hs
    exact Or.inl hs
  · exact Or.inr ⟨a, o, p, g, _, rfl, rfl⟩

/-- Nothing that still leads to a stream has one already. -/
theorem Move.pending {s t : Session σ} {task : Task σ} (h : Move s task t)
    (hg : Ledger (s.push [task])) (hl : Lineage (s.push [task])) {k : Task σ} (hk : k ∈ t.agenda)
    {g : Target} (hs : k.starts g = true) {n : Nat} {x : Stream} (hx : t.streams[n]? = some x) :
    x.target ≠ g := by
  rcases h.stream_cases hx with ⟨j, hx⟩ | ⟨ts, o, p, l, g', rfl, rfl, rfl⟩
  · have key : ({ x with join := j } : Stream).target ≠ g := by
      rcases h.starts_cases hk hs with hk | ⟨-, -, -, hk⟩ | ⟨ts, o, p, h', g', i, rfl, rfl⟩ |
        ⟨h', r, v, rfl, hv, hn, rfl⟩ | ⟨as, o, p, i, d, rfl, rfl⟩ | ⟨f, ts, o, d, k', rfl, rfl⟩
      · exact hl.pending k (mem_push.2 (Or.inr hk)) g hs n _ hx
      · exact hl.pending task mem_push_self g hk n _ hx
      · exact hl.target_ne_chunk hx
      · exact hl.waiting _ v hv hn n _ hx
      · exact hl.target_ne_side hx
      · exact hl.target_ne_callback hx
    exact key
  · intro hg'
    obtain rfl : g' = g := hg'
    have hm := hl.tasks _ mem_push_self
    rcases h.starts_cases hk hs with hk | ⟨e, i, he | ⟨d, he⟩, -⟩ | ⟨ts, o, p, h', g', i, -, rfl⟩ |
      ⟨h', r, v, he, -⟩ | ⟨as, o, p, i, d, he, -⟩ | ⟨f, ts, o, d, k', he, -⟩
    · have hb := hl.isPlace_of_stream mem_push_self
      have := not_owed_again (by simp [Task.owes]) (hg.debt_le_one hb) hk
      rw [Task.owes_of_starts hs] at this
      cases this
    · cases he
    · cases he
    · rcases hl.offered_or_known hm.1 with ⟨a, q, y, hy, -⟩ | hk
      · exact Nat.lt_irrefl _ (lt_size_of_some hy)
      · exact hk
    · cases he
    · cases he
    · cases he

theorem target_ne_of_unanswered {s : Session σ} {task : Task σ} {g : Target}
    (hd : (s.push [task]).debt g ≤ 1) (ht : task.owes g = true) {k : Nat} {v : Invocation}
    (hv : s.invocations[k]? = some v) (hn : v.answer = none) : v.target ≠ g := by
  rintro rfl
  have hpos : 0 < s.invocations.countP (Invocation.owes v.target) := by
    refine Array.countP_pos_iff.2 ⟨v, Array.mem_of_getElem? hv, ?_⟩
    simp [Invocation.owes, hn]
  rw [debt_push_one, ht, Bool.toNat_true, debt] at hd
  omega

theorem Move.waiting {s t : Session σ} {task : Task σ} (h : Move s task t)
    (hg : Ledger (s.push [task])) (hl : Lineage (s.push [task])) {k : Nat} {v : Invocation}
    (hv : t.invocations[k]? = some v) (hn : v.answer = none) {n : Nat} {x : Stream}
    (hx : t.streams[n]? = some x) : x.target ≠ v.target := by
  rcases h.unanswered hv hn with hv | ⟨a, o, p, g, r, rfl, rfl⟩
  · rcases h.stream_cases hx with ⟨j, hx⟩ | ⟨ts, o, p, l, g', rfl, rfl, rfl⟩
    · have hw := hl.waiting k v hv hn n _ hx
      exact hw
    · have hb := hl.isPlace_of_stream mem_push_self
      have := target_ne_of_unanswered (hg.debt_le_one hb) (by simp [Task.owes]) hv hn
      exact this.symm
  · rcases h.stream_cases hx with ⟨j, hx⟩ | ⟨ts, o, p, l, g', he, -⟩
    · have hw := hl.pending _ mem_push_self g (by simp [Task.starts]) n _ hx
      exact hw
    · cases he

theorem Move.sole {s t : Session σ} {task : Task σ} (h : Move s task t)
    (hl : Lineage (s.push [task])) {m n : Nat} {x y : Stream} (hx : t.streams[m]? = some x)
    (hy : t.streams[n]? = some y) (he : x.target = y.target) : m = n := by
  rcases h.stream_cases hx with ⟨j, hx⟩ | ⟨ts, o, p, k, g, rfl, rfl, rfl⟩
  · rcases h.stream_cases hy with ⟨j', hy⟩ | ⟨ts, o, p, k, g, rfl, rfl, rfl⟩
    · exact hl.sole m n _ _ hx hy he
    · have hp := hl.pending _ mem_push_self g (by simp [Task.starts]) m _ hx
      exact absurd he hp
  · rcases h.stream_cases hy with ⟨j', hy⟩ | ⟨ts', o', p', k', g', ht, rfl, rfl⟩
    · have hp := hl.pending _ mem_push_self g (by simp [Task.starts]) n _ hy
      exact absurd he.symm hp
    · rfl

theorem Move.lineage {s t : Session σ} {task : Task σ} (h : Move s task t)
    (hg : Ledger (s.push [task])) (hl : Lineage (s.push [task])) : Lineage t where
  tasks := h.traced hl
  invocations k v hv := by
    have he := h.extends
    rcases h.invocation_cases hv with ⟨r, hv, -⟩ | ⟨a, o, p, g, r, rfl, -, rfl, rfl⟩
    · obtain ⟨p, hp⟩ := hl.invocations k _ hv
      exact ⟨p, hp.mono he.of_push⟩
    · have ho : (s.push _).Offered a p g := hl.tasks _ mem_push_self
      exact ⟨p, ho.mono he.of_push⟩
  streams n x hx := by
    have he := h.extends
    rcases h.stream_cases hx with ⟨j, hx⟩ | ⟨ts, o, p, k, g, rfl, rfl, rfl⟩
    · obtain ⟨hs, p, hp⟩ := hl.streams n _ hx
      exact ⟨hs.mono he.of_push, p, hp.mono he.of_push⟩
    · obtain ⟨hs, hp⟩ : (s.push _).Stems k ts g ∧ (s.push _).StartsAfter k p :=
        hl.tasks _ mem_push_self
      exact ⟨hs.mono he.of_push, p, hp.mono he.of_push⟩
  younger n x m i hx hg := by
    rcases h.stream_cases hx with ⟨j, hx⟩ | ⟨ts, o, p, k, g, rfl, rfl, rfl⟩
    · exact hl.younger n _ m i hx hg
    · obtain ⟨hs, -⟩ : (s.push _).Stems k ts g ∧ (s.push _).StartsAfter k p :=
        hl.tasks _ mem_push_self
      obtain rfl : g = .chunk m i := hg
      cases k with
      | none => exact hs.elim
      | some k =>
        obtain ⟨v, hv, -, ht⟩ := hs
        obtain ⟨q, hq⟩ := hl.invocations _ v hv
        rw [ht] at hq
        obtain ⟨y, hy, -⟩ := hq
        exact lt_size_of_some hy
  callbacks n c hc := by
    have he := h.extends
    rcases h.callback_cases hc with hc | ⟨f, ts, o, d, k, rfl, rfl, rfl⟩
    · exact (hl.callbacks n c hc).mono he.of_push
    · have hf : (s.push _).Calls f := hl.tasks _ mem_push_self
      exact hf.mono he.of_push
  unheard a o p g hm k v hv := h.unheard hg hl hm hv
  unique k l v w hv hw he := h.unique hl hv hw he
  pending k hk g hs n x hx := h.pending hg hl hk hs hx
  waiting k v hv hn n x hx := h.waiting hg hl hv hn hx
  sole m n x y hx hy he := h.sole hl hx hy he

/-- What an act asks for starts nothing but a new job. -/
theorem Asks.target_eq {s t : Session σ} {k : Task σ} (h : Asks s t k) {g : Target}
    (hg : k.starts g = true) : g = .job s.jobs := by
  cases h with
  | process _ | dispatch _ => exact (eq_of_beq hg).symm
  | _ => cases hg

theorem Act.lineage {s t : Session σ} (h : Act s t) (hl : Lineage s) : Lineage t := by
  have he := h.extends
  obtain ⟨hi, hs, -, hc⟩ := h.records
  -- the records are the same, so it is enough to look at the new tasks
  refine ⟨fun k hk => ?_, fun k v hv => ?_, fun n x hx => ?_, fun n x m i hx hg => ?_,
    fun n c hn => ?_, fun a o p g hm k v hv => ?_, fun k l v w hv hw => ?_,
    fun k hk g hg n x hx => ?_, fun k v hv hn n x hx => ?_, fun m n x y hx hy => ?_⟩
  · rcases h.asks hk with hk | ha
    · exact (hl.tasks k hk).mono he
    · cases ha with
      | process hj | dispatch hj =>
        have hlt : s.jobs < t.jobs := by omega
        exact ⟨hlt, rfl⟩
      | _ => trivial
  · obtain ⟨p, hp⟩ := hl.invocations k v (hi ▸ hv)
    exact ⟨p, hp.mono he⟩
  · obtain ⟨hx, p, hp⟩ := hl.streams n x (hs ▸ hx)
    exact ⟨hx.mono he, p, hp.mono he⟩
  · exact hl.younger n x m i (hs ▸ hx) hg
  · exact (hl.callbacks n c (hc ▸ hn)).mono he
  · rcases h.asks hm with hm | ha
    · exact hl.unheard a o p g hm k v (hi ▸ hv)
    · obtain rfl := ha.target_eq (g := g) (by simp [Task.starts])
      intro hg
      obtain ⟨q, hq⟩ := hl.invocations k v (hi ▸ hv)
      rw [hg] at hq
      exact Nat.lt_irrefl _ hq.1
  · exact hl.unique k l v w (hi ▸ hv) (hi ▸ hw)
  · rcases h.asks hk with hk | ha
    · exact hl.pending k hk g hg n x (hs ▸ hx)
    · obtain rfl := ha.target_eq hg
      exact hl.target_ne_job (hs ▸ hx)
  · exact hl.waiting k v (hi ▸ hv) hn n x (hs ▸ hx)
  · exact hl.sole m n x y (hs ▸ hx) (hs ▸ hy)

theorem lineage_new (ids : IdSource) (o : Options) (m : σ) : Lineage (Session.new ids o m) where
  tasks _ h := absurd h List.not_mem_nil
  invocations _ _ h := absurd h getElem?_empty_ne_some
  streams _ _ h := absurd h getElem?_empty_ne_some
  younger _ _ _ _ h := absurd h getElem?_empty_ne_some
  callbacks _ _ h := absurd h getElem?_empty_ne_some
  unheard _ _ _ _ h := absurd h List.not_mem_nil
  unique _ _ _ _ h := absurd h getElem?_empty_ne_some
  pending _ h := absurd h List.not_mem_nil
  waiting _ _ h := absurd h getElem?_empty_ne_some
  sole _ _ _ _ h := absurd h getElem?_empty_ne_some

/-- **Every reachable session has its lineage.** -/
theorem Reachable.lineage {s : Session σ} (h : Reachable s) : Lineage s := by
  have both : Ledger s ∧ Lineage s :=
    h.keeps (P := fun s => Ledger s ∧ Lineage s)
      (fun ids o m => ⟨ledger_new ids o m, lineage_new ids o m⟩)
      (fun _ _ _ hm hs => ⟨hm.ledger hs.1, hm.lineage hs.1 hs.2⟩)
      fun _ _ ho ha hs => ⟨ha.ledger ho hs.1, ha.lineage hs.2⟩
  exact both.2

end Session

end WikiExpansion
