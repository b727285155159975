import WikiExpansion.Proofs.Lineage

/-!
# What comes of the tokens of a session

`Account` says that no result is made up.  A failure that is on its way to a
target, or was reported for it, is that of an invocation whose tokens were to go
there (`Fails`).  The tokens that are on their way, that stand in a slot or were
reported are those of a stream that is over, or the one token that no handler
wanted (`Came`).  A stream that is closed is over or has failed.

Every reachable session keeps its account (`Reachable.account`).
-/

namespace WikiExpansion

def Stream.Full (x : Stream) (out : List Token) : Prop :=
  ∃ vs : List (List Token), x.join.slots = vs.map some ∧ vs.flatten = out

theorem Stream.Full.grows {x : Stream} {out : List Token} (h : x.Full out) {j : Join (List Token)}
    (hj : x.join.Grows j) : ({ x with join := j } : Stream).Full out := by
  obtain ⟨vs, hs, ho⟩ := h
  refine ⟨vs, ?_, ho⟩
  have hl := hj.length
  rw [hs] at hl
  refine List.ext_getElem hl fun i h₁ h₂ => ?_
  have hi : i < vs.length := by simpa using h₂
  have hv : x.join.slots[i]? = some (some vs[i]) := by rw [hs]; simp [hi]
  have hf := hj.filled i _ hv
  rw [List.getElem_map]
  exact (List.getElem?_eq_some_iff.1 hf).2

namespace Session

variable {σ : Type}

/-- An invocation of which the tokens were to go to the target has failed. -/
inductive Fails (s : Session σ) : Target → Prop
  | answer {n : Nat} {v : Invocation} {e : ExpansionError} : s.invocations[n]? = some v →
      v.answer = some (.error e) → Fails s v.target
  | chunk {n i : Nat} {x : Stream} : s.streams[n]? = some x → Fails s (.chunk n i) →
      Fails s x.target

/-- The tokens are what has come of the work for a target. -/
inductive Came (s : Session σ) (g : Target) : List Token → Prop
  | passed {a : Token} {p : Option Position} : s.Offered a p g →
      (∀ (h : Nat) (v : Invocation), s.invocations[h]? = some v → v.target ≠ g) →
      (∀ (n : Nat) (x : Stream), s.streams[n]? = some x → x.target ≠ g) → Came s g [a]
  | streamed {n : Nat} {x : Stream} {out : List Token} : s.streams[n]? = some x →
      x.target = g → x.Full out → Came s g out

def Comes (s : Session σ) (g : Target) : Outcome (List Token) → Prop
  | .ok out => s.Came g out
  | .error _ => s.Fails g

structure Account (s : Session σ) : Prop where
  carried : ∀ g r, .deliver g r ∈ s.agenda → g.isPlace = true → s.Comes g r
  slots : ∀ (n : Nat) (x : Stream) (i : Nat) (out : List Token), s.streams[n]? = some x →
    x.join.slots[i]? = some (some out) → s.Came (.chunk n i) out
  closed : ∀ (n : Nat) (x : Stream), s.streams[n]? = some x → x.join.delivered = true →
    (∃ out, x.Full out) ∨ s.Fails x.target
  counts : ∀ (n : Nat) (x : Stream), s.streams[n]? = some x →
    x.join.Counts ∧ x.join.slots.length = x.tokens.length
  finished : ∀ j r, .finished j r ∈ s.events → s.Comes (.job j) r

/-! ### What has come stays -/

theorem Fails.mono {s t : Session σ} (he : Extends s t) {g : Target} (h : s.Fails g) :
    t.Fails g := by
  induction h with
  | answer hv ha =>
    obtain ⟨a, hw, hk⟩ := he.invocations _ _ hv
    have hf := Fails.answer hw (hk _ ha)
    exact hf
  | chunk hx _ ih =>
    obtain ⟨j, hj, -⟩ := he.streams _ _ hx
    have hf := Fails.chunk hj ih
    exact hf

/-- What has come stays as long as nobody takes up the work again. -/
theorem Came.move {s t : Session σ} {task : Task σ} (h : Move s task t) {g : Target}
    {out : List Token} (hc : (s.push [task]).Came g out)
    (ho : g.isPlace = true → task.starts g = false) : t.Came g out := by
  have he : Extends (s.push [task]) t := h.extends.of_push
  cases hc with
  | passed ha hv hx =>
    have hn := ho ha.isPlace
    refine .passed (ha.mono he) (fun k v hk => ?_) fun n x hn => ?_
    · rcases h.invocation_cases hk with ⟨r, hk, -⟩ | ⟨b, o, p, g', r, rfl, -, rfl, rfl⟩
      · have := hv k _ hk
        exact this
      · rintro rfl
        simp [Task.starts] at hn
    · rcases h.stream_cases hn with ⟨j, hn⟩ | ⟨ts, o, p, k, g', rfl, rfl, rfl⟩
      · have := hx n _ hn
        exact this
      · rintro rfl
        simp [Task.starts, newStream] at hn
  | streamed hx hg hf =>
    obtain ⟨j, hj, hgr⟩ := he.streams _ _ hx
    have hc := Came.streamed hj hg (hf.grows hgr)
    exact hc

theorem Comes.move {s t : Session σ} {task : Task σ} (h : Move s task t) {g : Target}
    {r : Outcome (List Token)} (hc : (s.push [task]).Comes g r)
    (ho : g.isPlace = true → task.starts g = false) : t.Comes g r := by
  cases r with
  | ok out => exact Came.move h hc ho
  | error e => exact Fails.mono h.extends.of_push hc

/-! ### Moves -/

theorem starts_eq_false_of_mem {s : Session σ} {task k : Task σ} {g : Target}
    (hd : (s.push [task]).debt g ≤ 1) (hm : k ∈ s.agenda) (hk : k.owes g = true) :
    task.starts g = false := by
  by_contra ht
  have := not_owed_again (Task.owes_of_starts ((Bool.not_eq_false _).mp ht)) hd hm
  rw [hk] at this
  cases this

theorem starts_eq_false_of_debt {s : Session σ} {task : Task σ} {g : Target}
    (hd : (s.push [task]).debt g = 0) : task.starts g = false := by
  by_contra ht
  rw [debt_push_one, Task.owes_of_starts ((Bool.not_eq_false _).mp ht), Bool.toNat_true] at hd
  omega

theorem Ledger.debt_of_filled {s : Session σ} (hg : Ledger s) {n i : Nat} {x : Stream}
    {out : List Token} (hx : s.streams[n]? = some x) (hi : x.join.slots[i]? = some (some out)) :
    s.debt (.chunk n i) = 0 := by
  by_contra hn
  obtain ⟨y, hy, he⟩ := hg.free _ rfl (Nat.pos_of_ne_zero hn)
  rw [hx] at hy
  obtain rfl := Option.some.inj hy
  rw [hi] at he
  cases he

theorem Ledger.debt_of_event {s : Session σ} (hg : Ledger s) {j : Nat} {e : Event}
    (he : e ∈ s.events) (hj : e.ends j = true) : s.debt (.job j) = 0 := by
  have hpos : 0 < s.reports j := Array.countP_pos_iff.2 ⟨_, he, hj⟩
  have := hg.jobs j
  split at this <;> omega

theorem Move.carried {s t : Session σ} {task : Task σ} (h : Move s task t)
    (hg : Ledger (s.push [task])) (hl : Lineage (s.push [task])) (ha : Account (s.push [task]))
    {g : Target} {r : Outcome (List Token)} (hm : .deliver g r ∈ t.agenda)
    (hp : g.isPlace = true) : t.Comes g r := by
  have old (hm : .deliver g r ∈ s.agenda) : t.Comes g r :=
    Comes.move h (ha.carried g r (mem_push.2 (Or.inr hm)) hp)
      fun _ => starts_eq_false_of_mem (hg.debt_le_one hp) hm (by simp [Task.owes])
  have put {ts : List (Task σ)} (hs : t.agenda = ts ++ s.agenda)
      (hn : .deliver g r ∈ ts → t.Comes g r) : t.Comes g r := by
    rw [hs] at hm
    exact (List.mem_append.1 hm).elim hn old
  cases h with
  | @pass a o p g' _ =>
    refine put rfl fun hm => ?_
    cases List.mem_singleton.1 hm
    have ho : s.Offered a p g := hl.tasks _ mem_push_self
    refine .passed (ho.mono (.push s _)) (fun k v hv => ?_) fun n x hx => ?_
    · exact hl.unheard a o p g mem_push_self k v hv
    · exact hl.pending _ mem_push_self g (by simp [Task.starts]) n x hx
  | noTokens =>
    refine put rfl fun hm => ?_
    cases List.mem_singleton.1 hm
    exact .streamed Array.getElem?_push_size rfl ⟨[], rfl, rfl⟩
  | stream _ =>
    refine put rfl fun hm => ?_
    obtain ⟨i, hi, he⟩ := List.mem_mapIdx.1 hm
    cases he
  | @failed k e v hv hn =>
    refine put rfl fun hm => ?_
    cases List.mem_singleton.1 hm
    have hw : (s.setAnswer k v (.error e)).invocations[k.index]? =
        some { v with answer := some (.error e) } :=
      Array.getElem?_setIfInBounds_self_of_lt (lt_size_of_some hv)
    have hf := Fails.answer hw rfl
    exact hf.mono (.push _ _)
  | @chunk n i q x hx =>
    refine put rfl fun hm => ?_
    obtain ⟨d, hd, he⟩ := List.mem_map.1 hm
    cases he
    have hy : (s.setStream n { x with join := (x.join.fill i q).1 }).streams[n]? =
        some { x with join := (x.join.fill i q).1 } :=
      Array.getElem?_setIfInBounds_self_of_lt (lt_size_of_some hx)
    obtain ⟨-, -, ⟨e, rfl, rfl, -⟩ | ⟨v, vs, -, rfl, -, hs⟩⟩ :=
      Join.fill_delivers (ha.counts n x hx).1 (Option.mem_toList.1 hd)
    · have hf : (s.push _).Fails (.chunk n i) := ha.carried _ _ mem_push_self rfl
      have he : Extends s (s.setStream n { x with join := (x.join.fill i (.error e)).1 }) :=
        .setStream hx (Join.grows_fill _ _ _)
      have hc := Fails.chunk hy (hf.mono he.of_push)
      exact hc.mono (.push _ _)
    · exact .streamed hy rfl ⟨vs, hs, rfl⟩
  | expand _ | settleSide _ _ _ | settlePair _ =>
    refine put rfl fun hm => ?_
    obtain ⟨d, -, hd⟩ := List.mem_map.1 hm
    cases hd
  | reconciled | notExpanded | answer =>
    refine put rfl fun hm => ?_
    cases List.mem_singleton.1 hm
    cases hp
  | complete =>
    refine put rfl fun hm => ?_
    rcases List.mem_cons.1 hm with he | hm
    · cases he
      cases hp
    · cases List.mem_singleton.1 hm
  | finished | noCallback _ | ignored _ | noStream _ | noPair _ | noSide _ | noSlot _
  | noExpansion _ | expanded | suspend => exact old hm
  | _ => exact put rfl fun hm => by simp at hm

theorem Move.slots {s t : Session σ} {task : Task σ} (h : Move s task t)
    (hg : Ledger (s.push [task])) (ha : Account (s.push [task])) {n i : Nat} {x : Stream}
    {out : List Token} (hx : t.streams[n]? = some x) (hi : x.join.slots[i]? = some (some out)) :
    t.Came (.chunk n i) out := by
  have old {y : Stream} (hy : s.streams[n]? = some y) (hi : y.join.slots[i]? = some (some out)) :
      t.Came (.chunk n i) out :=
    Came.move h (ha.slots n y i out hy hi)
      fun _ => starts_eq_false_of_debt (hg.debt_of_filled hy hi)
  have fresh {ts : List Token} {k : Option Handle} {g : Target}
      (hi : (newStream ts k g).join.slots[i]? = some (some out)) : False := by
    simp [newStream, Join.new, List.getElem?_replicate] at hi
  cases h with
  | noTokens | stream _ =>
    rcases getElem?_push_cases hx with hx | ⟨rfl, rfl⟩
    · exact old hx hi
    · exact (fresh hi).elim
  | @chunk m k q y hy =>
    rcases getElem?_set_cases hx with ⟨rfl, rfl⟩ | ⟨-, hx⟩
    · rcases Join.filled_of_fill hi with hi | ⟨rfl, rfl⟩
      · exact old hy hi
      · exact Came.move (.chunk hy) (ha.carried _ _ mem_push_self rfl) fun _ => rfl
    · exact old hx hi
  | _ => exact old hx hi

theorem Move.closed {s t : Session σ} {task : Task σ} (h : Move s task t)
    (ha : Account (s.push [task])) {n : Nat} {x : Stream} (hx : t.streams[n]? = some x)
    (hd : x.join.delivered = true) : (∃ out, x.Full out) ∨ t.Fails x.target := by
  have old {y : Stream} (hy : s.streams[n]? = some y) (hd : y.join.delivered = true) :
      (∃ out, y.Full out) ∨ t.Fails y.target :=
    (ha.closed n y hy hd).imp id fun hf => hf.mono h.extends.of_push
  cases h with
  | noTokens =>
    rcases getElem?_push_cases hx with hx | ⟨rfl, rfl⟩
    · exact old hx hd
    · exact Or.inl ⟨_, [], rfl, rfl⟩
  | stream hts =>
    rcases getElem?_push_cases hx with hx | ⟨rfl, rfl⟩
    · exact old hx hd
    · simp [newStream, Join.new, hts] at hd
  | @chunk m k q y hy =>
    have hm := Move.chunk (s := s) (i := k) (r := q) hy
    rcases getElem?_set_cases hx with ⟨rfl, rfl⟩ | ⟨-, hx⟩
    · rcases Option.eq_none_or_eq_some (y.join.fill k q).2 with hf | ⟨d, hf⟩
      · rw [show (y.join.fill k q).1.delivered = _ from Join.delivered_of_silent hf] at hd
        rcases old hy hd with ⟨out, ho⟩ | ho
        · exact Or.inl ⟨out, ho.grows (Join.grows_fill _ _ _)⟩
        · exact Or.inr ho
      · obtain ⟨-, -, ⟨e, rfl, rfl, -⟩ | ⟨v, vs, -, rfl, -, hs⟩⟩ :=
          Join.fill_delivers (ha.counts n y hy).1 hf
        · have hc : (s.push _).Fails (.chunk n k) := ha.carried _ _ mem_push_self rfl
          exact Or.inr (Fails.chunk hx (hc.mono hm.extends.of_push))
        · exact Or.inl ⟨vs.flatten, vs, hs, rfl⟩
    · exact old hx hd
  | _ => exact old hx hd

theorem Move.counts {s t : Session σ} {task : Task σ} (h : Move s task t)
    (ha : Account (s.push [task])) {n : Nat} {x : Stream} (hx : t.streams[n]? = some x) :
    x.join.Counts ∧ x.join.slots.length = x.tokens.length := by
  have old {y : Stream} (hy : s.streams[n]? = some y) := ha.counts n y hy
  cases h with
  | noTokens | stream _ =>
    rcases getElem?_push_cases hx with hx | ⟨rfl, rfl⟩
    · exact old hx
    · exact ⟨Join.counts_new _, Join.length_slots_new _⟩
  | chunk hy =>
    rcases getElem?_set_cases hx with ⟨rfl, rfl⟩ | ⟨-, hx⟩
    · exact ⟨Join.counts_fill (old hy).1 _ _, (Join.length_slots_fill _ _ _).trans (old hy).2⟩
    · exact old hx
  | _ => exact old hx

theorem Move.finishedEvents {s t : Session σ} {task : Task σ} (h : Move s task t)
    (hg : Ledger (s.push [task])) (ha : Account (s.push [task])) {j : Nat}
    {r : Outcome (List Token)} (he : .finished j r ∈ t.events) : t.Comes (.job j) r := by
  have old (he : .finished j r ∈ s.events) : t.Comes (.job j) r :=
    Comes.move h (ha.finished j r he)
      fun _ => starts_eq_false_of_debt (hg.debt_of_event he (by simp [Event.ends]))
  cases h with
  | finished =>
    rcases Array.mem_push.1 he with he | he
    · exact old he
    · cases he
      exact Comes.move .finished (ha.carried _ _ mem_push_self rfl) fun _ => rfl
  | expanded =>
    rcases Array.mem_push.1 he with he | he
    · exact old he
    · cases he
  | @report f n k =>
    rcases Array.mem_push.1 he with he | he
    · exact old he
    · cases n <;> cases he
  | _ => exact old he

theorem Move.account {s t : Session σ} {task : Task σ} (h : Move s task t)
    (hg : Ledger (s.push [task])) (hl : Lineage (s.push [task])) (ha : Account (s.push [task])) :
    Account t where
  carried _ _ hm hp := h.carried hg hl ha hm hp
  slots _ _ _ _ hx hi := h.slots hg ha hx hi
  closed _ _ hx hd := h.closed ha hx hd
  counts _ _ hx := h.counts ha hx
  finished _ _ he := h.finishedEvents hg ha he

/-! ### Acts -/

theorem Fails.of_eq {s t : Session σ} (hi : t.invocations = s.invocations)
    (hs : t.streams = s.streams) {g : Target} (h : s.Fails g) : t.Fails g := by
  induction h with
  | answer hv ha => exact .answer (hi ▸ hv) ha
  | chunk hx _ ih => exact .chunk (hs ▸ hx) ih

theorem Came.of_eq {s t : Session σ} (he : Extends s t) (hi : t.invocations = s.invocations)
    (hs : t.streams = s.streams) {g : Target} {out : List Token} (h : s.Came g out) :
    t.Came g out := by
  cases h with
  | passed ha hv hx => exact .passed (ha.mono he) (hi ▸ hv) (hs ▸ hx)
  | streamed hx hg hf => exact .streamed (hs ▸ hx) hg hf

theorem Comes.of_eq {s t : Session σ} (he : Extends s t) (hi : t.invocations = s.invocations)
    (hs : t.streams = s.streams) {g : Target} {r : Outcome (List Token)} (h : s.Comes g r) :
    t.Comes g r := by
  cases r with
  | ok out => exact Came.of_eq he hi hs h
  | error e => exact Fails.mono he h

theorem Act.account {s t : Session σ} (h : Act s t) (ha : Account s) : Account t := by
  have he := h.extends
  obtain ⟨hi, hs, -, -⟩ := h.records
  have hv : t.events = s.events := by cases h <;> rfl
  refine ⟨fun g r hm hp => ?_, fun n x i out hx ho => ?_, fun n x hx hd => ?_,
    fun n x hx => ha.counts n x (hs ▸ hx), fun j r hj => ?_⟩
  · rcases h.asks hm with hm | hk
    · exact (ha.carried g r hm hp).of_eq he hi hs
    · cases hk
      cases hp
  · exact (ha.slots n x i out (hs ▸ hx) ho).of_eq he hi hs
  · exact (ha.closed n x (hs ▸ hx) hd).imp id fun hf => hf.mono he
  · exact (ha.finished j r (hv ▸ hj)).of_eq he hi hs

theorem account_new (ids : IdSource) (o : Options) (m : σ) : Account (Session.new ids o m) :=
  ⟨nofun, nofun, nofun, nofun, nofun⟩

/-- **Every reachable session keeps its account.** -/
theorem Reachable.account {s : Session σ} (h : Reachable s) : Account s := by
  have all : Ledger s ∧ Lineage s ∧ Account s :=
    h.keeps (P := fun s => Ledger s ∧ Lineage s ∧ Account s)
      (fun ids o m => ⟨ledger_new ids o m, lineage_new ids o m, account_new ids o m⟩)
      (fun _ _ _ hm hs => ⟨hm.ledger hs.1, hm.lineage hs.1 hs.2.1, hm.account hs.1 hs.2.1 hs.2.2⟩)
      fun _ _ ho ha hs => ⟨ha.ledger ho hs.1, ha.lineage hs.2.1, ha.account hs.2.2⟩
  exact all.2.2

end Session

end WikiExpansion
