import WikiExpansion.Proofs.Launch
import WikiExpansion.Proofs.Root

/-!
# The sides and pairs of an attribute list

From the step that begins to expand an attribute list, `Progress` says how its
joins stand.  What is in the slot of a side is that side, or what its nested run
handed over (`SideCame`); what is in the slot of a pair is made of its two sides
(`PairCame`).  A join that is closed is full or has met a failure, and that
failure is on its way or has closed the join above it.  A pair that is still
missing is to be expanded, or one of its sides is.

All sessions that are reached from there have it (`Progress.reaches`).
-/

namespace WikiExpansion

/-- The task is about one pair of an expansion, and not the first one about it. -/
def Task.isInner {σ : Type} : Task σ → Bool
  | .expandSide .. | .settleSide .. | .settlePair .. => true
  | _ => false

namespace Session

variable {σ : Type} {s t u : Session σ}

/-! ### Tasks about a pair -/

inductive Prepares (s : Session σ) : Task σ → Task σ → Prop
  | sides {e i d x a} : s.expansions[e]? = some x → x.attributes[i]? = some a →
      a.needsExpansion = true → Prepares s (.expandPair e i) (.expandSide e i d)
  | plain {e i d x a w} : s.expansions[e]? = some x → x.attributes[i]? = some a →
      d.of a = .text w → Prepares s (.expandSide e i d) (.settleSide e i d (.ok (.text w)))
  | nested {e i d q} : Prepares s (.deliver (.side e i d) q) (.settleSide e i d (q.map .tokens))
  | kept {e i x a} : s.expansions[e]? = some x → x.attributes[i]? = some a →
      a.needsExpansion = false → Prepares s (.expandPair e i) (.settlePair e i (.ok (.shared a)))
  | joined {e i d q x j a c} : s.expansions[e]? = some x → x.sides[i]? = some j →
      x.attributes[i]? = some a → (j.fill d.slot q).2 = some c →
      Prepares s (.settleSide e i d q) (.settlePair e i (pairOfSides a c))

theorem Move.prepares {task k : Task σ} (h : Move s task t) (hm : k ∈ t.agenda)
    (hk : k.isInner = true) : k ∈ s.agenda ∨ Prepares s task k := by
  rcases h.brings hm with hm | hl
  · exact Or.inl hm
  · refine Or.inr ?_
    cases hl with
    | expandPair hx ha hn => exact .sides hx ha hn
    | keepPair hx ha hn => exact .kept hx ha hn
    | textSide hx ha hd => exact .plain hx ha hd
    | side => exact .nested
    | settleSide hx hj ha hc => exact .joined hx hj ha hc
    | _ => cases hk

/-- A result on its way is the first task. -/
theorem Ledger.eq_of_carried {task k : Task σ} (hg : Ledger (s.push [task]))
    (hm : k ∈ (s.push [task]).agenda) (hk : k.isCarried = true) : k = task := by
  rcases mem_push.1 hm with hm | hm
  · exact List.mem_singleton.1 hm
  · have := hg.quiet k hm
    rw [hk] at this
    cases this

/-! ### What has become of the sides and the pairs -/

/-- The result was handed to the target on the way from one session to another. -/
def Handed (s t : Session σ) (g : Target) (r : Outcome (List Token)) : Prop :=
  ∃ u, Reaches s u ∧ u.Fires g r ∧ Reaches u.step t

def SideCame (s t : Session σ) (e i : Nat) (d : Side) (a : Attribute Token) (c : Content Token) :
    Prop :=
  match d.of a with
  | .text w => c = .text w
  | .tokens _ => ∃ out, c = .tokens out ∧ Handed s t (.side e i d) (.ok out)

/-- What a pair has become: one of plain texts is itself, and any other one is a new
pair of what its sides have become, without a source. -/
inductive PairCame (s t : Session σ) (e i : Nat) (a : Attribute Token) :
    Held (Attribute Token) → Prop
  | kept : a.needsExpansion = false → PairCame s t e i a (.shared a)
  | made {k v : Content Token} : a.needsExpansion = true → SideCame s t e i .key a k →
      SideCame s t e i .value a v → PairCame s t e i a (.own (newAttribute k v))

theorem Handed.mono {g : Target} {r : Outcome (List Token)} (h : Handed s t g r)
    (ht : Reaches t u) : Handed s u g r := by
  obtain ⟨w, hw, hf, hr⟩ := h
  exact ⟨w, hw, hf, hr.trans ht⟩

theorem SideCame.mono {e i : Nat} {d : Side} {a : Attribute Token} {c : Content Token}
    (h : SideCame s t e i d a c) (ht : Reaches t u) : SideCame s u e i d a c := by
  unfold SideCame at h ⊢
  cases hd : d.of a with
  | text w =>
    rw [hd] at h
    exact h
  | tokens ts =>
    rw [hd] at h
    obtain ⟨out, hc, ho⟩ := h
    exact ⟨out, hc, ho.mono ht⟩

theorem PairCame.mono {e i : Nat} {a : Attribute Token} {h : Held (Attribute Token)}
    (hp : PairCame s t e i a h) (ht : Reaches t u) : PairCame s u e i a h := by
  cases hp with
  | kept hn => exact .kept hn
  | made hn hk hv => exact .made hn (hk.mono ht) (hv.mono ht)

/-- What is taken in for a side: its plain text, or what its nested run has handed
over in the step before. -/
def SideResult (s t : Session σ) (e i : Nat) (d : Side) (a : Attribute Token)
    (r : Outcome (Content Token)) : Prop :=
  match d.of a with
  | .text w => r = .ok (.text w)
  | .tokens _ => ∃ u q, r = q.map .tokens ∧ Reaches s u ∧ u.Fires (.side e i d) q ∧ t = u.step

/-- What is taken in for a pair: what it has become, or the failure that a nested run
has handed over two steps before, named by the key. -/
def PairResult (s t : Session σ) (e i : Nat) (a : Attribute Token) :
    Outcome (Held (Attribute Token)) → Prop
  | .ok h => PairCame s t e i a h
  | .error err => ∃ u d cause, Reaches s u ∧ u.Fires (.side e i d) (.error cause) ∧
      t = u.step.step ∧ err = .nestedExpansion a.key.plainText cause

theorem SideResult.came {e i : Nat} {d : Side} {a : Attribute Token} {c : Content Token}
    (h : SideResult s t e i d a (.ok c)) : SideCame s t e i d a c := by
  unfold SideResult at h
  unfold SideCame
  cases hd : d.of a with
  | text w =>
    rw [hd] at h
    exact Except.ok.inj h
  | tokens ts =>
    rw [hd] at h
    obtain ⟨u, q, hq, hr, hf, rfl⟩ := h
    cases q with
    | error c => cases hq
    | ok out => exact ⟨out, Except.ok.inj hq, u, hr, hf, .refl⟩

theorem SideResult.failed {e i : Nat} {d : Side} {a : Attribute Token} {c : ExpansionError}
    (h : SideResult s t e i d a (.error c)) :
    ∃ u, Reaches s u ∧ u.Fires (.side e i d) (.error c) ∧ t = u.step := by
  unfold SideResult at h
  cases hd : d.of a with
  | text w =>
    rw [hd] at h
    cases h
  | tokens ts =>
    rw [hd] at h
    obtain ⟨u, q, hq, hr, hf, ht⟩ := h
    cases q with
    | ok out => cases hq
    | error c' =>
      cases hq
      exact ⟨u, hr, hf, ht⟩

/-- What is handed to a side stems from a stream that goes there. -/
theorem exists_stream_of_comes (hl : Lineage t) {e i : Nat} {d : Side} {r : Outcome (List Token)}
    (hc : t.Comes (.side e i d) r) :
    ∃ (n : Nat) (y : Stream), t.streams[n]? = some y ∧ y.target = .side e i d := by
  cases r with
  | ok out =>
    cases hc with
    | passed ho _ _ => exact ho.elim
    | streamed hy hg _ => exact ⟨_, _, hy, hg⟩
  | error c =>
    have hc : t.Fails (.side e i d) := hc
    generalize hg : Target.side e i d = g at hc
    cases hc with
    | answer hv _ =>
      obtain ⟨p, hp⟩ := hl.invocations _ _ hv
      rw [← hg] at hp
      exact hp.elim
    | chunk hy _ => exact ⟨_, _, hy, rfl⟩

theorem mem_tokenSides_of_stream (ht : Reachable t) {e i n : Nat} {d : Side} {x : Expansion}
    {y : Stream} (hx : t.expansions[e]? = some x) (hy : t.streams[n]? = some y)
    (hg : y.target = .side e i d) : (i, d, y.tokens) ∈ tokenSides x.attributes := by
  rw [← ht.launch hx]
  refine List.mem_append_left _ (List.mem_filterMap.2 ⟨y, ?_, ?_⟩)
  · exact Array.mem_toList_iff.2 (Array.mem_of_getElem? hy)
  · rw [Stream.launched?, hg]
    exact if_pos rfl

/-- Only a side that holds tokens is handed anything, and it comes from their run. -/
theorem rooted_of_fires (hr : Reachable t) {e i : Nat} {d : Side} {r : Outcome (List Token)}
    (hf : t.Fires (.side e i d) r) :
    ∃ x a ts, t.expansions[e]? = some x ∧ x.attributes[i]? = some a ∧ d.of a = .tokens ts ∧
      Rooted t ts (.side e i d) := by
  obtain ⟨x, -, hx, -⟩ := hr.ledger.free _ rfl (debt_pos_of_fires hf)
  obtain ⟨rest, ha⟩ := hf
  obtain ⟨n, y, hy, hg⟩ := exists_stream_of_comes hr.lineage
    (hr.account.carried _ _ (ha ▸ List.mem_cons_self) rfl)
  obtain ⟨a, hi, hd⟩ := mem_tokenSides.1 (mem_tokenSides_of_stream hr hx hy hg)
  have stranger : ∀ (k : Nat) (v : Invocation), t.invocations[k]? = some v →
      v.target ≠ .side e i d := by
    intro k v hv hg
    obtain ⟨p, hp⟩ := hr.lineage.invocations k v hv
    rw [hg] at hp
    exact hp
  have origin : y.origin = none := by
    cases ho : y.origin with
    | none => rfl
    | some k =>
      have hst := (hr.lineage.streams n y hy).1
      rw [ho] at hst
      obtain ⟨v, hv, -, hvg⟩ := hst
      exact absurd (hvg.trans hg) (stranger _ v hv)
  exact ⟨x, a, y.tokens, hx, hi, hd, stranger, fun b o p hm => hr.lineage.tasks _ hm,
    Or.inr ⟨n, y, hy, hg, origin, rfl⟩⟩

/-! ### How far an expansion is -/

/-- The session, or one that is reached after its next step. -/
def Follows (s t : Session σ) : Prop := t = s ∨ Reaches s.step t

inductive Concludes (t : Session σ) (e : Nat) : Outcome (List (Held (Attribute Token))) → Prop
  | atOnce {o p rest} : t.agenda = .expand [] o p :: rest → e = t.expansions.size →
      Concludes t e (.ok [])
  | joined {i q r x rest} : t.agenda = .settlePair e i q :: rest → t.expansions[e]? = some x →
      (x.pairs.fill i q).2 = some r → Concludes t e r

def Joins (x : Expansion) (i : Nat) : Prop :=
  ∃ j a, x.sides[i]? = some j ∧ x.attributes[i]? = some a ∧ a.needsExpansion = true ∧
    j.delivered = false

/-- What the joins of an expansion hold, in `t`, if it is begun by the next step of `s`. -/
structure Holds (s t : Session σ) (e : Nat) (x : Expansion) : Prop where
  sides_length : x.sides.length = x.attributes.length
  pairs_length : x.pairs.slots.length = x.attributes.length
  counts : x.pairs.Counts
  side_counts : ∀ (i : Nat) (j : Join (Content Token)), x.sides[i]? = some j →
    j.Counts ∧ j.slots.length = 2
  side : ∀ (i : Nat) (j : Join (Content Token)) (a : Attribute Token) (d : Side)
    (c : Content Token), x.sides[i]? = some j → x.attributes[i]? = some a →
    j.slots[d.slot]? = some (some c) → SideCame s.step t e i d a c
  pair : ∀ (i : Nat) (a : Attribute Token) (h : Held (Attribute Token)),
    x.attributes[i]? = some a → x.pairs.slots[i]? = some (some h) → PairCame s.step t e i a h
  side_closed : ∀ (i : Nat) (j : Join (Content Token)), x.sides[i]? = some j →
    j.delivered = true → (∃ vs : List (Content Token), j.slots = vs.map some) ∨
      x.pairs.delivered = true ∨ ∃ err, .settlePair e i (.error err) ∈ t.agenda
  closed : x.pairs.delivered = true →
    (∃ hs : List (Held (Attribute Token)), x.pairs.slots = hs.map some) ∨
      ∃ i d cause, Handed s.step t (.side e i d) (.error cause)
  concluded : x.pairs.delivered = true →
    ∃ u r, Follows s u ∧ Concludes u e r ∧ Reaches u.step t
  missing : ∀ i : Nat, x.pairs.delivered = false → x.pairs.slots[i]? = some none →
    .expandPair e i ∈ t.agenda ∨ (∃ r, .settlePair e i r ∈ t.agenda) ∨ Joins x i

def Backed (s t : Session σ) (e : Nat) : Task σ → Prop
  | .expandSide e' i _ => e' = e → ∃ a, t.pair? e i = some a ∧ a.needsExpansion = true
  | .settleSide e' i d r => e' = e → ∃ a, t.pair? e i = some a ∧ a.needsExpansion = true ∧
      SideResult s.step t e i d a r
  | .settlePair e' i r => e' = e → ∃ a, t.pair? e i = some a ∧ PairResult s.step t e i a r
  | _ => True

structure Progress (s t : Session σ) (e : Nat) : Prop where
  record : e < t.expansions.size
  holds : ∀ x, t.expansions[e]? = some x → Holds s t e x
  tasks : ∀ task ∈ t.agenda, Backed s t e task

/-- What the joins hold stays, as long as no pair is taken in. -/
theorem Holds.mono {e : Nat} {x : Expansion} (h : Holds s t e x) (hr : Reaches t u)
    (hq : ∀ i r, .settlePair e i r ∉ t.agenda)
    (hm : ∀ i, x.pairs.delivered = false → .expandPair e i ∈ t.agenda →
      .expandPair e i ∈ u.agenda ∨ (∃ r, .settlePair e i r ∈ u.agenda) ∨ Joins x i) :
    Holds s u e x where
  sides_length := h.sides_length
  pairs_length := h.pairs_length
  counts := h.counts
  side_counts := h.side_counts
  side i j a d c hj ha hc := (h.side i j a d c hj ha hc).mono hr
  pair i a k ha hk := (h.pair i a k ha hk).mono hr
  side_closed i j hj hd := by
    rcases h.side_closed i j hj hd with hf | hc | ⟨err, he⟩
    · exact Or.inl hf
    · exact Or.inr (Or.inl hc)
    · exact absurd he (hq i _)
  closed hd := (h.closed hd).imp id fun ⟨i, d, c, hc⟩ => ⟨i, d, c, hc.mono hr⟩
  concluded hd := by
    obtain ⟨w, r, hw, hc, hu⟩ := h.concluded hd
    exact ⟨w, r, hw, hc, hu.trans hr⟩
  missing i hd hn := by
    rcases h.missing i hd hn with he | ⟨r, he⟩ | hj
    · exact hm i hd he
    · exact absurd he (hq i r)
    · exact Or.inr (Or.inr hj)

theorem not_empty_of_full {α : Type} {slots : List (Option α)} {vs : List α}
    (h : slots = vs.map some) (k : Nat) : slots[k]? ≠ some none := by
  rw [h, List.getElem?_map]
  cases vs[k]? <;> simp

theorem Holds.fillSide {e : Nat} {x : Expansion} (h : Holds s t e x) {i : Nat} {d : Side}
    {r : Outcome (Content Token)} {j : Join (Content Token)} {a : Attribute Token}
    (hj : x.sides[i]? = some j) (ha : x.attributes[i]? = some a)
    (hs : ∀ c, r = .ok c → SideCame s.step t e i d a c)
    (hp : ∀ c, (j.fill d.slot r).2 = some c → .settlePair e i (pairOfSides a c) ∈ t.agenda) :
    Holds s t e { x with sides := x.sides.set i (j.fill d.slot r).1 } where
  sides_length := (List.length_set ..).trans h.sides_length
  pairs_length := h.pairs_length
  counts := h.counts
  side_counts k l hl := by
    rcases getElem?_list_set_cases hl with ⟨rfl, rfl⟩ | ⟨-, hl⟩
    · obtain ⟨hc, hlen⟩ := h.side_counts k j hj
      exact ⟨Join.counts_fill hc _ _, (Join.length_slots_fill ..).trans hlen⟩
    · exact h.side_counts k l hl
  side k l b d' c hl hb hc := by
    rcases getElem?_list_set_cases hl with ⟨rfl, rfl⟩ | ⟨-, hl⟩
    · rcases Join.filled_of_fill hc with hc | ⟨hd, rfl⟩
      · exact h.side k j b d' c hj hb hc
      · obtain rfl := Side.slot_injective hd
        obtain rfl := Option.some.inj (ha.symm.trans hb)
        exact hs c rfl
    · exact h.side k l b d' c hl hb hc
  pair := h.pair
  side_closed k l hl hd := by
    rcases getElem?_list_set_cases hl with ⟨rfl, rfl⟩ | ⟨-, hl⟩
    · rcases Option.eq_none_or_eq_some (j.fill d.slot r).2 with hf | ⟨c, hf⟩
      · rw [Join.delivered_of_silent hf] at hd
        rcases h.side_closed k j hj hd with ⟨vs, hv⟩ | ho
        · refine Or.inl ⟨vs, ?_⟩
          rw [Join.fill_of_delivered hd, hv]
        · exact Or.inr ho
      · obtain ⟨-, -, ⟨err, -, rfl, -⟩ | ⟨v, vs, -, rfl, -, hv⟩⟩ :=
          Join.fill_delivers (h.side_counts k j hj).1 hf
        · exact Or.inr (Or.inr ⟨_, hp _ hf⟩)
        · exact Or.inl ⟨vs, hv⟩
    · exact h.side_closed k l hl hd
  closed := h.closed
  concluded := h.concluded
  missing k hd hn := by
    rcases h.missing k hd hn with he | hq | ⟨l, b, hl, hb, hne, ho⟩
    · exact Or.inl he
    · exact Or.inr (Or.inl hq)
    · by_cases hk : i = k
      · subst hk
        obtain rfl := Option.some.inj (hj.symm.trans hl)
        rcases Option.eq_none_or_eq_some (j.fill d.slot r).2 with hf | ⟨c, hf⟩
        · refine Or.inr (Or.inr ⟨_, b, ?_, hb, hne, (Join.delivered_of_silent hf).trans ho⟩)
          exact List.getElem?_set_self (List.getElem?_eq_some_iff.1 hj).1
        · exact Or.inr (Or.inl ⟨_, hp c hf⟩)
      · exact Or.inr (Or.inr ⟨l, b, (List.getElem?_set_ne hk).trans hl, hb, hne, ho⟩)

theorem Holds.fillPair {e : Nat} {x : Expansion} (h : Holds s t e x) (htu : Reaches t u) {i : Nat}
    {r : Outcome (Held (Attribute Token))} {a : Attribute Token} (ha : x.attributes[i]? = some a)
    (hp : PairResult s.step t e i a r)
    (hq : ∀ k q, .settlePair e k q ∈ t.agenda → k = i ∧ q = r)
    (he : ∀ k, .expandPair e k ∈ t.agenda → .expandPair e k ∈ u.agenda)
    (hc : ∀ c, (x.pairs.fill i r).2 = some c → ∃ w q, Follows s w ∧ Concludes w e q ∧
      Reaches w.step u) :
    Holds s u e { x with pairs := (x.pairs.fill i r).1 } where
  sides_length := h.sides_length
  pairs_length := (Join.length_slots_fill ..).trans h.pairs_length
  counts := Join.counts_fill h.counts _ _
  side_counts := h.side_counts
  side k l b d c hl hb hs := (h.side k l b d c hl hb hs).mono htu
  pair k b c hb hk := by
    rcases Join.filled_of_fill hk with hk | ⟨rfl, rfl⟩
    · exact (h.pair k b c hb hk).mono htu
    · obtain rfl := Option.some.inj (ha.symm.trans hb)
      exact PairCame.mono hp htu
  side_closed k l hl hd := by
    rcases h.side_closed k l hl hd with hf | hd | ⟨err, hm⟩
    · exact Or.inl hf
    · exact Or.inr (Or.inl ((Join.grows_fill ..).delivered hd))
    · obtain ⟨rfl, rfl⟩ := hq k _ hm
      exact Or.inr (Or.inl (Join.delivered_fill_error ..))
  closed hd := by
    rcases Option.eq_none_or_eq_some (x.pairs.fill i r).2 with hf | ⟨c, hf⟩
    · rw [Join.delivered_of_silent hf] at hd
      rw [Join.fill_of_delivered hd]
      exact (h.closed hd).imp id fun ⟨k, d, c, hk⟩ => ⟨k, d, c, hk.mono htu⟩
    · obtain ⟨-, -, ⟨err, rfl, -⟩ | ⟨v, vs, -, -, -, hv⟩⟩ := Join.fill_delivers h.counts hf
      · obtain ⟨w, d, cause, hw, hfw, rfl, -⟩ := hp
        exact Or.inr ⟨i, d, cause, w, hw, hfw, (Reaches.step .refl).trans htu⟩
      · exact Or.inl ⟨vs, hv⟩
  concluded hd := by
    rcases Option.eq_none_or_eq_some (x.pairs.fill i r).2 with hf | ⟨c, hf⟩
    · rw [Join.delivered_of_silent hf] at hd
      obtain ⟨w, q, hw, hcw, hr⟩ := h.concluded hd
      exact ⟨w, q, hw, hcw, hr.trans htu⟩
    · exact hc c hf
  missing k hd hn := by
    rcases h.missing k (Join.open_of_fill hd) (Join.empty_of_fill hn) with hk | ⟨q, hk⟩ | hj
    · exact Or.inl (he k hk)
    · obtain ⟨rfl, -⟩ := hq k q hk
      exact absurd hn (Join.not_empty_of_open hd)
    · exact Or.inr (Or.inr hj)

/-! ### Moves -/

theorem Backed.of_not_inner {e : Nat} {task : Task σ} (h : task.isInner = false) :
    Backed s t e task := by
  cases task with
  | expandSide | settleSide | settlePair => cases h
  | _ => trivial

theorem Backed.mono {e : Nat} {task : Task σ} (h : Backed s t e task)
    (hc : task.isCarried = false) (hp : ∀ i, u.pair? e i = t.pair? e i) : Backed s u e task := by
  cases task with
  | expandSide e' i d =>
    intro he
    rw [hp]
    exact h he
  | settleSide | settlePair => cases hc
  | _ => trivial

/-- Two sides that are joined make the pair, or one of them has failed. -/
theorem Holds.pairResult {e : Nat} {x : Expansion} (h : Holds s t e x) {i : Nat} {d : Side}
    {r : Outcome (Content Token)} {j : Join (Content Token)} {a : Attribute Token}
    {c : Outcome (List (Content Token))} (hj : x.sides[i]? = some j)
    (ha : x.attributes[i]? = some a) (hn : a.needsExpansion = true)
    (hr : SideResult s.step t e i d a r) (hc : (j.fill d.slot r).2 = some c) :
    PairResult s.step t.step e i a (pairOfSides a c) := by
  obtain ⟨hcount, hlen⟩ := h.side_counts i j hj
  have hstep : Reaches t t.step := .step .refl
  rcases Join.delivers_sides hcount hlen hc
    (fun d' c hk => (h.side i j a d' c hj ha hk).mono hstep)
    (fun c hk => (SideResult.came (hk ▸ hr)).mono hstep) with ⟨err, rfl, rfl⟩ | ⟨k, v, rfl, hk, hv⟩
  · obtain ⟨w, hw, hf, rfl⟩ := hr.failed
    exact ⟨w, d, err, hw, hf, rfl, rfl⟩
  · exact .made hn hk hv

theorem Move.backed {task : Task σ} (h : Move t task u) (hu : (t.push [task]).step = u)
    (hr : Reachable (t.push [task])) (hs : Reaches s.step (t.push [task])) {e : Nat}
    (hp : Progress s (t.push [task]) e) : ∀ k ∈ u.agenda, Backed s u e k := by
  have hpair {x : Expansion} {i : Nat} {a : Attribute Token} (hx : t.expansions[e]? = some x)
      (ha : x.attributes[i]? = some a) : u.pair? e i = some a :=
    (h.extends.pair?_eq hx i).trans (pair?_of_some hx ha)
  have head := hp.tasks task mem_push_self
  intro k hk
  cases hi : k.isInner with
  | false => exact .of_not_inner hi
  | true =>
    rcases h.prepares hk hi with hk | hf
    · obtain ⟨x, hx⟩ : ∃ x, t.expansions[e]? = some x :=
        ⟨_, Array.getElem?_eq_getElem hp.record⟩
      have hm := hp.tasks k (mem_push.2 (Or.inr hk))
      exact hm.mono (hr.ledger.quiet k hk) (h.extends.pair?_eq hx)
    · cases hf with
      | sides hx ha hn =>
        rintro rfl
        exact ⟨_, hpair hx ha, hn⟩
      | plain hx ha hd =>
        rintro rfl
        obtain ⟨a, hb, hn⟩ := head rfl
        obtain rfl := Option.some.inj ((pair?_of_some hx ha).symm.trans hb)
        refine ⟨_, hpair hx ha, hn, ?_⟩
        rw [SideResult, hd]
      | @nested e' i d q =>
        rintro rfl
        obtain ⟨x, a, ts, hx, ha, hd, -⟩ := rooted_of_fires hr (r := q) ⟨_, rfl⟩
        refine ⟨a, hpair hx ha, Attribute.needsExpansion_of_tokens hd, ?_⟩
        rw [SideResult, hd]
        exact ⟨_, q, rfl, hs, ⟨_, rfl⟩, hu.symm⟩
      | kept hx ha hn =>
        rintro rfl
        exact ⟨_, hpair hx ha, .kept hn⟩
      | joined hx hj ha hc =>
        rintro rfl
        obtain ⟨a, hb, hn, hsr⟩ := head rfl
        obtain rfl := Option.some.inj ((pair?_of_some hx ha).symm.trans hb)
        refine ⟨_, hpair hx ha, ?_⟩
        rw [← hu]
        exact (hp.holds _ hx).pairResult hj ha hn hsr hc

theorem Holds.side_open {e : Nat} {x : Expansion} (h : Holds s t e x) (hg : Ledger t) {i : Nat}
    (hx : t.expansions[e]? = some x) (hm : .expandPair e i ∈ t.agenda)
    (hd : x.pairs.delivered = false) (hq : ∀ r, .settlePair e i r ∉ t.agenda) :
    ∃ j, x.sides[i]? = some j ∧ j.delivered = false := by
  have hpos : 0 < t.debt (.side e i .key) := debt_pos_of_mem hm (by simp [Task.owes])
  obtain ⟨y, j, hy, hj, hk⟩ := hg.free _ rfl hpos
  obtain rfl := Option.some.inj (hx.symm.trans hy)
  refine ⟨j, hj, ?_⟩
  by_contra hc
  rcases h.side_closed i j hj ((Bool.not_eq_false _).mp hc) with ⟨vs, hv⟩ | hc | ⟨err, he⟩
  · exact not_empty_of_full hv _ hk
  · rw [hd] at hc
    cases hc
  · exact hq _ he

/-- **What the joins of an expansion hold is kept by every move.** -/
theorem Move.holds {task : Task σ} (h : Move t task u) (hu : (t.push [task]).step = u)
    (hr : Reachable (t.push [task])) (hs : Reaches s.step (t.push [task])) {e : Nat}
    (hp : Progress s (t.push [task]) e) {x : Expansion} (hx : u.expansions[e]? = some x) :
    Holds s u e x := by
  have htu : Reaches (t.push [task]) u := hu ▸ .step .refl
  have hg := hr.ledger
  have head := hp.tasks task mem_push_self
  have carried {k : Task σ} (hm : k ∈ (t.push [task]).agenda) (hk : k.isCarried = true) :
      k = task := hg.eq_of_carried hm hk
  -- a move that takes no pair of the expansion in
  have other {y : Expansion} (hy : t.expansions[e]? = some y)
      (hq : ∀ i r, task ≠ .settlePair e i r) (he : ∀ i, y.pairs.delivered = false →
        task = .expandPair e i → (∃ r, .settlePair e i r ∈ u.agenda) ∨ Joins y i) :
      Holds s u e y := by
    refine (hp.holds y hy).mono htu (fun i r hm => hq i r (carried hm rfl).symm) fun i hd hm => ?_
    rcases h.mem_agenda hm with hm | hm
    · exact Or.inr (he i hd hm.symm)
    · exact Or.inl hm
  cases h with
  | @settleSide e' i d r y j a hy hj ha =>
    have hold {z : Expansion} (hz : t.expansions[e]? = some z) : Holds s _ e z :=
      other hz (fun _ _ hk => by cases hk) fun _ _ hk => by cases hk
    rcases getElem?_set_cases hx with ⟨rfl, rfl⟩ | ⟨-, hx⟩
    · refine (hold hy).fillSide hj ha (fun c hc => ?_) fun c hc => ?_
      · obtain ⟨b, hb, -, hsr⟩ := head rfl
        obtain rfl := Option.some.inj ((pair?_of_some hy ha).symm.trans hb)
        subst hc
        exact hsr.came.mono htu
      · exact List.mem_append_left _ (List.mem_map.2 ⟨c, Option.mem_toList.2 hc, rfl⟩)
    · exact hold hx
  | @settlePair e' i r y hy =>
    rcases getElem?_set_cases hx with ⟨rfl, rfl⟩ | ⟨hne, hx⟩
    · obtain ⟨a, ha, hpr⟩ := head rfl
      rw [pair?, show (t.push _).expansions[e]? = some y from hy] at ha
      refine (hp.holds y hy).fillPair htu ha hpr (fun k q hm => ?_) (fun k hm => ?_) fun c hc => ?_
      · cases carried hm rfl
        exact ⟨rfl, rfl⟩
      · rcases mem_push.1 hm with hm | hm
        · cases List.mem_singleton.1 hm
        · exact List.mem_append_right _ hm
      · exact ⟨_, c, Or.inr hs, .joined rfl hy hc, hu ▸ .refl⟩
    · refine other hx (fun k q hk => ?_) fun _ _ hk => by cases hk
      cases hk
      exact hne rfl
  | noPairs | expand _ =>
    rcases getElem?_push_cases hx with hx | ⟨rfl, -⟩
    · exact other hx (fun _ _ hk => by cases hk) fun _ _ hk => by cases hk
    · exact absurd hp.record (Nat.lt_irrefl _)
  | @expandPair e' i y a hy ha hn =>
    refine other hx (fun _ _ hk => by cases hk) fun k hd hk => ?_
    cases hk
    obtain rfl := Option.some.inj (hy.symm.trans hx)
    obtain ⟨j, hj, ho⟩ := (hp.holds y hy).side_open hg hy mem_push_self hd
      fun r hm => by cases carried hm rfl
    exact Or.inr ⟨j, a, hj, ha, hn, ho⟩
  | @keepPair e' i y a hy ha hn =>
    refine other hx (fun _ _ hk => by cases hk) fun k hd hk => ?_
    cases hk
    exact Or.inl ⟨_, List.mem_cons_self⟩
  | @noPair e' i hn =>
    refine other hx (fun _ _ hk => by cases hk) fun k hd hk => ?_
    cases hk
    obtain ⟨j, hj, -⟩ := (hp.holds x hx).side_open hg hx mem_push_self hd
      fun r hm => by cases carried hm rfl
    have hlt := (List.getElem?_eq_some_iff.1 hj).1
    have hle := List.getElem?_eq_none_iff.1 (hn x hx)
    rw [(hp.holds x hx).sides_length] at hlt
    exact absurd hlt (Nat.not_lt_of_le hle)
  | noExpansion hn =>
    refine other hx (fun k q hk => ?_) fun _ _ hk => by cases hk
    cases hk
    rw [hn] at hx
    cases hx
  | _ => exact other hx (fun _ _ hk => by cases hk) fun _ _ hk => by cases hk

theorem Move.progress {task : Task σ} (h : Move t task u) (hu : (t.push [task]).step = u)
    (hr : Reachable (t.push [task])) (hs : Reaches s.step (t.push [task])) {e : Nat}
    (hp : Progress s (t.push [task]) e) : Progress s u e where
  record := Nat.lt_of_lt_of_le hp.record h.extends.of_push.size_expansions
  holds _ hx := h.holds hu hr hs hp hx
  tasks := h.backed hu hr hs hp

/-! ### Acts -/

theorem Act.puts (h : Act t u) : ∃ new, u.agenda = new ++ t.agenda ∧
    u.expansions = t.expansions ∧ ∀ k ∈ new, k.isInner = false := by
  cases h with
  | process | dispatch | expandAttributes | complete =>
    exact ⟨_, rfl, rfl, fun k hk => by rw [List.mem_singleton.1 hk]; rfl⟩
  | _ => exact ⟨[], rfl, rfl, fun k hk => absurd hk List.not_mem_nil⟩

/-- While others may act no result is on its way. -/
theorem Ledger.not_carried (hg : Ledger t) (ho : t.isOpen = true) {k : Task σ}
    (hk : k ∈ t.agenda) : k.isCarried = false := by
  cases ha : t.agenda with
  | nil =>
    rw [ha] at hk
    cases hk
  | cons task rest =>
    rw [ha] at hk
    rw [isOpen, ha] at ho
    rcases List.mem_cons.1 hk with rfl | hk
    · simpa using ho
    · exact hg.quiet k (by rw [ha]; exact hk)

theorem Act.progress (h : Act t u) (ho : t.isOpen = true) (hr : Reachable t) {e : Nat}
    (hp : Progress s t e) : Progress s u e := by
  obtain ⟨new, ha, hx, hn⟩ := h.puts
  have hq : ∀ i r, .settlePair e i r ∉ t.agenda := fun i r hm => by
    cases hr.ledger.not_carried ho hm
  refine ⟨hx ▸ hp.record, fun x hy => ?_, fun k hk => ?_⟩
  · refine (hp.holds x (hx ▸ hy)).mono (.act .refl ho h) hq fun i _ hm => ?_
    exact Or.inl (ha ▸ List.mem_append_right new hm)
  · rcases List.mem_append.1 (ha ▸ hk) with hk | hk
    · exact .of_not_inner (hn k hk)
    · refine (hp.tasks k hk).mono (hr.ledger.not_carried ho hk) fun i => ?_
      rw [pair?, hx, pair?]

/-! ### The beginning -/

theorem Holds.new {e : Nat} {as : List (Attribute Token)} {o : Options} {p : Purpose}
    (hc : as = [] → ∃ w r, Follows s w ∧ Concludes w e r ∧ Reaches w.step t)
    (hm : ∀ i < as.length, .expandPair e i ∈ t.agenda) : Holds s t e (newExpansion as o p) := by
  have side {i : Nat} {j : Join (Content Token)}
      (h : (newExpansion as o p).sides[i]? = some j) : j = .new 2 := by
    rw [newExpansion, List.getElem?_replicate] at h
    split at h
    · exact (Option.some.inj h).symm
    · cases h
  have nil (h : (newExpansion as o p).pairs.delivered = true) : as = [] :=
    List.length_eq_zero_iff.1 (eq_of_beq h)
  have empty {α : Type} {n k : Nat} {c : α} : (Join.new n : Join α).slots[k]? ≠ some (some c) := by
    rw [Join.new, List.getElem?_replicate]
    split <;> simp
  exact {
    sides_length := List.length_replicate ..
    pairs_length := Join.length_slots_new _
    counts := Join.counts_new _
    side_counts := fun i j hj => side hj ▸ ⟨Join.counts_new 2, Join.length_slots_new 2⟩
    side := fun i j a d c hj _ hd => absurd (side hj ▸ hd) empty
    pair := fun i a h _ hh => absurd hh empty
    side_closed := fun i j hj hd => by
      rw [side hj] at hd
      cases hd
    closed := fun hd => Or.inl ⟨[], by rw [nil hd]; rfl⟩
    concluded := fun hd => hc (nil hd)
    missing := fun i _ hn => Or.inl (hm i (getElem?_slots_new.1 hn)) }

theorem progress_step (hs : Reachable s) {as : List (Attribute Token)} {o : Options} {p : Purpose}
    {rest : List (Task σ)} (ha : s.agenda = .expand as o p :: rest) :
    Progress s s.step s.expansions.size := by
  have hg := hs.ledger
  have hm := move_of_agenda ha
  -- nothing is known of the expansion before it begins
  have old : ∀ k ∈ rest, Backed s s.step s.expansions.size k := by
    intro k hk
    have hkc : k.isCarried = false := hg.quiet k (by rw [ha]; exact hk)
    cases k with
    | expandSide e i d =>
      rintro rfl
      have hpos : 0 < s.debt (.side s.expansions.size i d) :=
        debt_pos_of_mem (ha ▸ List.mem_cons_of_mem _ hk) (by simp [Task.owes])
      exact absurd (hg.free _ rfl hpos) (not_free_side s i d)
    | settleSide | settlePair => cases hkc
    | _ => trivial
  generalize hu : s.step = u at hm old ⊢
  cases hm with
  | noPairs =>
    refine ⟨?_, fun x hx => ?_, fun k hk => ?_⟩
    · exact lt_size_of_some Array.getElem?_push_size
    · obtain rfl := Option.some.inj (hx.symm.trans Array.getElem?_push_size)
      refine .new (fun _ => ⟨s, _, Or.inl rfl, .atOnce ha rfl, hu ▸ .refl⟩) ?_
      exact fun i hi => absurd hi (Nat.not_lt_zero i)
    · rcases List.mem_cons.1 hk with rfl | hk
      · trivial
      · exact old k hk
  | @expand as o p hne =>
    refine ⟨?_, fun x hx => ?_, fun k hk => ?_⟩
    · exact lt_size_of_some Array.getElem?_push_size
    · obtain rfl := Option.some.inj (hx.symm.trans Array.getElem?_push_size)
      refine .new (fun h => absurd h hne) fun i hi => ?_
      exact List.mem_append_left _ (List.mem_map.2 ⟨i, List.mem_range.2 hi, rfl⟩)
    · rcases List.mem_append.1 hk with hk | hk
      · obtain ⟨i, -, rfl⟩ := List.mem_map.1 hk
        trivial
      · exact old k hk

/-- **All sessions that are reached from there have it.** -/
theorem Progress.reaches (hs : Reachable s) {e : Nat} (hp : Progress s s.step e)
    (ht : Reaches s.step t) : Progress s t e := by
  have hr := hs.reaches (.step .refl)
  induction ht with
  | refl => exact hp
  | @step t ht ih =>
    rcases step_eq t with ⟨-, he⟩ | ⟨t₀, task, he, hm⟩
    · rw [he]
      exact ih
    · have hrt := hr.reaches ht
      subst he
      exact hm.progress rfl hrt ht ih
  | act ht ho ha ih => exact ha.progress ho (hr.reaches ht) ih

end Session

end WikiExpansion
