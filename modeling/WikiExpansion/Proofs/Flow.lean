import WikiExpansion.Proofs.Due

/-!
# What flows through a session of stages

`Flow` says that in a session of a plan everything has the worth it should: each
result on its way is what its place is due, each answer that is held back is what
its invocation is due, and what stands in the records adds up to what is due
further up.  It holds whether the tables answer at once or hold their answers
back, and every move keeps it (`Move.flow`); so what is reported for a job is the
worth of its tokens (`Flow.events`).
-/

namespace WikiExpansion

def Stage.handler (o : Options) (defer : Option String) : Stage → Handler Desk
  | expander => WikiExpansion.expander o
  | table b =>
    match defer with
    | some name => b.deferred name
    | none => b.immediate

namespace Session

section Definitions

variable (s : Session Desk) (P : Plan) (defer : Option String) (jobs : List (List Token))

/-- What the tokens of an invocation are worth from its stage on is what its place
is due. -/
def SoundInvocation (v : Invocation) : Prop :=
  v.options = P.options ∧ ∃ r ∈ P.stages.entries, r.position = v.position ∧
    ∃ F, s.Expects P jobs v.target F ∧
      Agree P.look (fun n => (r.handler.worth P.options (P.worth n) v.token).bind fun ts =>
        P.stream (some v.position) ts n) F

/-- What a stream is worth is what its place is due, and what has come of its
tokens is what they are worth. -/
def SoundStream (n : Nat) (x : Stream) : Prop :=
  (∃ p, s.StartsAfter x.origin p ∧ s.Feeds P jobs p x.tokens x.target) ∧
    ∀ i out, x.join.slots[i]? = some (some out) → s.Due P jobs (.chunk n i) (.ok out)

structure SoundExpansion (x : Expansion) : Prop where
  options : x.options = P.options
  serving : s.Serving P x.purpose x.attributes
  sides : ∀ (i : Nat) (j : Join (Content Token)) (a : Attribute Token), x.sides[i]? = some j →
    x.attributes[i]? = some a → j.Counts ∧ j.slots.length = 2 ∧
      ∀ (d : Side) (c : Content Token), j.slots[d.slot]? = some (some c) →
        P.SideMeets (d.of a) (.ok c)
  counts : x.pairs.Counts ∧ x.pairs.slots.length = x.attributes.length
  pairs : ∀ (i : Nat) (h : Held (Attribute Token)), x.pairs.slots[i]? = some (some h) →
    ∃ a, x.attributes[i]? = some a ∧ P.PairMeets a (.ok h)

structure Flow : Prop where
  handlers : s.registry = P.stages.map (Stage.handler P.options defer)
  options : s.options = P.options
  count : s.jobs = jobs.length
  tasks : ∀ task ∈ s.agenda, s.Sound P jobs task
  invocations : ∀ (h : Nat) (v : Invocation), s.invocations[h]? = some v →
    s.SoundInvocation P jobs v
  streams : ∀ (n : Nat) (x : Stream), s.streams[n]? = some x → s.SoundStream P jobs n x
  expansions : ∀ (n : Nat) (x : Expansion), s.expansions[n]? = some x → s.SoundExpansion P x
  held : ∀ p ∈ s.memory.held, s.Due P jobs (.handle p.2.handle) p.2.answer
  events : ∀ e ∈ s.events, ∃ j r, e = .finished j r ∧ s.Due P jobs (.job j) r

end Definitions

variable {s t : Session Desk} {P : Plan} {defer : Option String} {jobs jobs' : List (List Token)}

theorem SoundInvocation.mono (he : Extends s t) (hj : jobs <+: jobs') {v : Invocation}
    (h : s.SoundInvocation P jobs v) : t.SoundInvocation P jobs' v := by
  obtain ⟨ho, r, hr, hp, F, hF, ha⟩ := h
  exact ⟨ho, r, hr, hp, F, hF.mono he hj, ha⟩

theorem SoundStream.mono (he : Extends s t) (hj : jobs <+: jobs') {n : Nat} {x : Stream}
    (h : s.SoundStream P jobs n x) : t.SoundStream P jobs' n x := by
  obtain ⟨⟨p, hp, hf⟩, hs⟩ := h
  exact ⟨⟨p, hp.mono he, hf.mono he hj⟩, fun i out hi => (hs i out hi).mono he hj⟩

theorem SoundExpansion.mono (he : Extends s t) {x : Expansion} (h : s.SoundExpansion P x) :
    t.SoundExpansion P x :=
  { h with serving := h.serving.mono he }

theorem Flow.next? (hf : Flow s P defer jobs) (p : Option Position) (k : Kind) :
    s.registry.next? p k =
      (P.stages.next? p k).map (Registration.map (Stage.handler P.options defer)) :=
  Registry.next?_of_eq_map hf.handlers rfl

/-! ### What the scripts of stages answer -/

section Scripts

variable {h : Handle} {v : Invocation} {r : Registration Stage}

theorem due_of_meets (hv : s.invocations[h.index]? = some v) (hr : r ∈ P.stages.entries)
    (hp : r.position = v.position) {q : Outcome (List Token)}
    (hq : Meets P.look q fun n => r.handler.worth P.options (P.worth n) v.token) :
    s.Due P jobs (.handle h) q :=
  ⟨_, ⟨v, r, hv, hr, hp, rfl⟩, hq⟩

theorem answers_expander (hv : s.invocations[h.index]? = some v) (hr : r ∈ P.stages.entries)
    (hp : r.position = v.position) (hc : r.handler = .expander) {f : Frame} (hf : f.handle = h) :
    s.Answers P jobs h true (expander P.options f v.token) := by
  subst hf
  -- a token without attributes is worth itself
  have keep (hw : ∀ n, Stage.expander.worth P.options (P.worth n) v.token = some [v.token]) :
      s.Answers P jobs f.handle true (.answer (.ok [v.token])) :=
    .answer (due_of_meets hv hr hp (meets_of_eq fun n => by rw [hc, hw]; rfl))
  unfold expander
  cases hg : v.token.expandableTag? with
  | none => exact keep fun n => by simp only [Stage.worth, hg]
  | some g =>
    cases he : g.attributes.isEmpty with
    | true =>
      simp only [he, if_true]
      exact keep fun n => by simp only [Stage.worth, hg, he, if_true]
    | false =>
      simp only [he, Bool.false_eq_true, if_false]
      have hne : g.attributes ≠ [] := List.isEmpty_eq_false_iff.1 he
      exact .expandAttributes hg
        ⟨v.token, f.handle, g, v, r, rfl, hg, rfl, hne, hv, rfl, hr, hp, hc⟩ .suspend

theorem answers_expand (hv : s.invocations[h.index]? = some v) (hr : r ∈ P.stages.entries)
    (hp : r.position = v.position) {b : TemplateTable} (hc : r.handler = .table b) {n : String}
    (hn : TemplateTable.target? v.token = some n) {next : Outcome (List Token) → Script Desk}
    (hnext : ∀ q, s.Due P jobs (.handle h) q → s.Answers P jobs h true (next q)) :
    s.Answers P jobs h true (b.expand P.options n next) := by
  have due {q : Outcome (List Token)}
      (hq : Meets P.look q fun n => r.handler.worth P.options (P.worth n) v.token) :
      s.Due P jobs (.handle h) q := due_of_meets hv hr hp hq
  simp only [hc, Stage.worth, hn] at due
  simp only [TemplateTable.expand]
  cases hb : b.body? n with
  | none =>
    simp only [hb] at due
    exact hnext _ (due (meets_of_eq fun _ => rfl))
  | some body =>
    simp only [hb] at due
    cases hw : P.options.wrapTemplates with
    | false =>
      simp only [hw] at due
      exact hnext _ (due (meets_of_eq fun _ => rfl))
    | true =>
      refine .newObjectId fun id => hnext _ (due (meets_of_eq fun _ => ?_))
      simp only [hw, if_true, Option.map_some, Plan.look]
      exact congrArg some (TemplateTable.map_mask_wrap _ _ _)

/-- A table of either kind gives its answer or holds it back. -/
theorem answers_table (hv : s.invocations[h.index]? = some v) (hr : r ∈ P.stages.entries)
    (hp : r.position = v.position) {b : TemplateTable} (hc : r.handler = .table b) {f : Frame}
    (hf : f.handle = h) (ho : f.options = P.options) :
    s.Answers P jobs h true ((Stage.table b).handler P.options defer f v.token) := by
  cases hn : TemplateTable.target? v.token with
  | none =>
    have keep : s.Answers P jobs h true (.answer (.ok [v.token])) :=
      .answer (due_of_meets hv hr hp (meets_of_eq fun _ => by rw [hc, Stage.worth, hn]; rfl))
    cases defer with
    | none => simpa only [Stage.handler, TemplateTable.immediate, hn] using keep
    | some name => simpa only [Stage.handler, TemplateTable.deferred, hn] using keep
  | some n =>
    cases defer with
    | none =>
      simp only [Stage.handler, TemplateTable.immediate, hn, ho]
      exact answers_expand hv hr hp hc hn fun q hq => .answer hq
    | some name =>
      simp only [Stage.handler, TemplateTable.deferred, hn, ho]
      exact answers_expand hv hr hp hc hn fun q hq => .hold hf hq fun _ => .suspend

/-- A stage gives an answer, and no other than the one that is due. -/
theorem answers_handler (hv : s.invocations[h.index]? = some v) (hr : r ∈ P.stages.entries)
    (hp : r.position = v.position) {f : Frame} (hf : f.handle = h) (ho : f.options = P.options) :
    s.Answers P jobs h true (r.handler.handler P.options defer f v.token) := by
  cases hc : r.handler with
  | expander => exact answers_expander hv hr hp hc hf
  | table b => exact answers_table hv hr hp hc hf ho

end Scripts

/-! ### Results that come together -/

theorem tag?_of_expandableTag? {a : Token} {g : Tag Token} (h : a.expandableTag? = some g) :
    a.tag? = some g := by
  cases a with
  | opening | selfClosing => exact h
  | _ => cases h

/-- All that came of the tokens of a stream is what it is worth. -/
theorem meets_stream {n : Nat} {x : Stream} (hx : s.streams[n]? = some x) {p : Option Position}
    (hp : s.StartsAfter x.origin p) {vs : List (List Token)} (hl : vs.length = x.tokens.length)
    (hs : ∀ (i : Nat) (out : List Token), vs[i]? = some out →
      s.Due P jobs (.chunk n i) (.ok out)) :
    Meets P.look (.ok vs.flatten) (P.stream p x.tokens) := by
  refine meets_gather (List.forall₂_iff_get.2 ⟨hl.symm, fun i hi hv => ?_⟩)
  obtain ⟨F, hF, hm⟩ := hs i (vs.get ⟨i, hv⟩) (List.getElem?_eq_getElem hv)
  obtain ⟨a, ha, rfl⟩ := hF.of_chunk hx hp
  rw [List.getElem?_eq_getElem hi] at ha
  obtain rfl := Option.some.inj ha
  exact hm

/-- What a stream hands on is what its place is due. -/
theorem due_of_delivers {n i : Nat} {x : Stream} (hx : s.streams[n]? = some x)
    (hc : x.join.Counts ∧ x.join.slots.length = x.tokens.length)
    (h : s.SoundStream P jobs n x) {r : Outcome (List Token)} (hr : s.Due P jobs (.chunk n i) r)
    {d : Outcome (List (List Token))} (hd : (x.join.fill i r).2 = some d) :
    s.Due P jobs x.target (d.map List.flatten) := by
  obtain ⟨⟨p, hp, hf⟩, hs⟩ := h
  rcases Join.delivers_all (Q := fun i out => s.Due P jobs (.chunk n i) (.ok out)) hc.1 hd hs
    (fun v hv => hv ▸ hr) with ⟨e, rfl, rfl⟩ | ⟨vs, rfl, hl, hvs⟩
  · obtain ⟨F, hF, hm⟩ := hr
    obtain ⟨a, ha, rfl⟩ := hF.of_chunk hx hp
    exact Due.trans hf (meets_gather_error (List.mem_of_getElem? ha) hm e)
  · exact Due.trans hf (meets_stream hx hp (hl.trans hc.2) hvs)

theorem pairMeets_of_delivers {j : Join (Content Token)} {a : Attribute Token}
    (hn : a.needsExpansion = true) (hc : j.Counts ∧ j.slots.length = 2)
    (hs : ∀ (d : Side) (c : Content Token), j.slots[d.slot]? = some (some c) →
      P.SideMeets (d.of a) (.ok c))
    {d : Side} {r : Outcome (Content Token)} (hr : P.SideMeets (d.of a) r)
    {q : Outcome (List (Content Token))} (hq : (j.fill d.slot r).2 = some q) :
    P.PairMeets a (pairOfSides a q) := by
  rcases Join.delivers_sides hc.1 hc.2 hq hs (fun c hc => hc ▸ hr) with
    ⟨e, rfl, rfl⟩ | ⟨k, v, rfl, hk, hv⟩
  · exact Plan.pairMeets_of_error hn hr _
  · exact Plan.pairMeets_of_sides hn hk hv

theorem SoundExpansion.pairsMeet {x : Expansion} (h : s.SoundExpansion P x) {i : Nat}
    {a : Attribute Token} (ha : x.attributes[i]? = some a)
    {r : Outcome (Held (Attribute Token))} (hr : P.PairMeets a r)
    {q : Outcome (List (Held (Attribute Token)))} (hq : (x.pairs.fill i r).2 = some q) :
    P.PairsMeet x.attributes q := by
  rcases Join.delivers_all
    (Q := fun i h => ∃ a, x.attributes[i]? = some a ∧ P.PairMeets a (.ok h)) h.counts.1 hq h.pairs
    (fun v hv => ⟨a, ha, hv ▸ hr⟩) with ⟨e, rfl, rfl⟩ | ⟨hs, rfl, hl, hall⟩
  · exact Plan.pairsMeet_of_error (List.mem_of_getElem? ha) hr _
  · refine Plan.pairsMeet_of_pairs (List.forall₂_iff_get.2 ⟨(hl.trans h.counts.2).symm, ?_⟩)
    intro k hk hv
    obtain ⟨b, hb, hp⟩ := hall k (hs.get ⟨k, hv⟩) (List.getElem?_eq_getElem hv)
    rw [List.getElem?_eq_getElem hk] at hb
    obtain rfl := Option.some.inj hb
    exact hp

theorem Serving.exists_tag {a : Token} {h : Handle} {as : List (Attribute Token)}
    (hs : s.Serving P (.answer a h) as) :
    ∃ g, a.expandableTag? = some g ∧ g.attributes = as := by
  obtain ⟨b, k, g, v, r, hu, hg, has, -⟩ := hs
  obtain ⟨rfl, rfl⟩ := Purpose.answer.inj hu
  exact ⟨g, hg, has⟩

/-- What the pairs of a tag are worth, put back into it, is the answer that is due. -/
theorem Serving.due {a : Token} {h : Handle} {as : List (Attribute Token)}
    (hs : s.Serving P (.answer a h) as) {q : Outcome (List Token)}
    (hq : Meets P.look q fun n => (pairsWorth (P.worth n) as).bind fun hs =>
      (returnAttributes P.options {} a hs).1.toOption) : s.Due P jobs (.handle h) q := by
  obtain ⟨b, k, g, v, r, hu, hg, rfl, hne, hv, hvb, hr, hp, hc⟩ := hs
  obtain ⟨rfl, rfl⟩ := Purpose.answer.inj hu
  have he : g.attributes.isEmpty = false := List.isEmpty_eq_false_iff.2 hne
  refine due_of_meets hv hr hp ?_
  simpa only [hvb, hc, Stage.worth, hg, he, Bool.false_eq_true, if_false] using hq

theorem due_returnAttributes {a : Token} {h : Handle} {as : List (Attribute Token)}
    (hs : s.Serving P (.answer a h) as) {hs' : List (Held (Attribute Token))}
    (hm : P.PairsMeet as (.ok hs')) (ids : IdSource) :
    s.Due P jobs (.handle h) (returnAttributes P.options ids a hs').1 := by
  obtain ⟨g, hg, rfl⟩ := hs.exists_tag
  refine hs.due ?_
  filter_upwards [hm.2] with n e
  exact seen_bind_returnAttributes ids {} rfl hg hg
    (fun ks hk => hm.1 ks (congrArg _ (Option.some.inj hk))) (fun _ => fitAll_of_pairsWorth) e

theorem due_tokenFailure {a : Token} {h : Handle} {as : List (Attribute Token)}
    (hs : s.Serving P (.answer a h) as) {e : ExpansionError} (hm : P.PairsMeet as (.error e))
    (e' : ExpansionError) : s.Due P jobs (.handle h) (.error e') := by
  refine hs.due ?_
  filter_upwards [hm.2.eventually_none] with n e
  rw [e]
  rfl

/-- The tokens of an answer are worth after its stage what the place behind is due. -/
theorem SoundInvocation.feeds {h : Handle} {v : Invocation} (hs : s.SoundInvocation P jobs v)
    (hv : s.invocations[h.index]? = some v) {ts : List Token}
    (hd : s.Due P jobs (.handle h) (.ok ts)) : s.Feeds P jobs (some v.position) ts v.target := by
  obtain ⟨-, r, hr, hp, F, hF, hag⟩ := hs
  obtain ⟨G, hG, hm⟩ := hd
  obtain rfl := hG.of_handle hv hr hp
  refine ⟨F, hF, Agree.trans ?_ hag⟩
  filter_upwards [hm] with n e
  have := seen_bind (r := some ts) e (P.respects_stream (some v.position) n)
  exact this

theorem SoundInvocation.due_error {h : Handle} {v : Invocation} (hs : s.SoundInvocation P jobs v)
    (hv : s.invocations[h.index]? = some v) {e : ExpansionError}
    (hd : s.Due P jobs (.handle h) (.error e)) : s.Due P jobs v.target (.error e) := by
  obtain ⟨-, r, hr, hp, F, hF, hag⟩ := hs
  obtain ⟨G, hG, hm⟩ := hd
  obtain rfl := hG.of_handle hv hr hp
  refine ⟨F, hF, Meets.agree ?_ hag⟩
  filter_upwards [hm.eventually_none] with n e
  rw [e]
  rfl

/-! ### Records that begin, and what is put into them -/

theorem SoundStream.new {ts : List Token} {k : Option Handle} {g : Target} {p : Option Position}
    (hp : s.StartsAfter k p) (hf : s.Feeds P jobs p ts g) (n : Nat) :
    s.SoundStream P jobs n (newStream ts k g) := by
  refine ⟨⟨p, hp, hf⟩, fun i out hi => ?_⟩
  simp [newStream, Join.new, List.getElem?_replicate] at hi

theorem SoundStream.fill {n i : Nat} {x : Stream} {r : Outcome (List Token)}
    (h : s.SoundStream P jobs n x) (hr : s.Due P jobs (.chunk n i) r) :
    s.SoundStream P jobs n { x with join := (x.join.fill i r).1 } := by
  refine ⟨h.1, fun k out hk => ?_⟩
  rcases Join.filled_of_fill hk with hk | ⟨rfl, rfl⟩
  · exact h.2 k out hk
  · exact hr

theorem SoundExpansion.new {as : List (Attribute Token)} {u : Purpose}
    (hs : s.Serving P u as) : s.SoundExpansion P (newExpansion as P.options u) where
  options := rfl
  serving := hs
  sides i j a hj _ := by
    obtain rfl := List.eq_of_mem_replicate (List.mem_of_getElem? hj)
    refine ⟨Join.counts_new 2, Join.length_slots_new 2, fun d c hc => ?_⟩
    cases d <;> cases hc
  counts := ⟨Join.counts_new _, Join.length_slots_new _⟩
  pairs i h hi := by simp [newExpansion, Join.new, List.getElem?_replicate] at hi

theorem SoundExpansion.fillSide {x : Expansion} (h : s.SoundExpansion P x) {i : Nat}
    {j : Join (Content Token)} {a : Attribute Token} (hj : x.sides[i]? = some j)
    (ha : x.attributes[i]? = some a) {d : Side} {r : Outcome (Content Token)}
    (hr : P.SideMeets (d.of a) r) :
    s.SoundExpansion P { x with sides := x.sides.set i (j.fill d.slot r).1 } := by
  refine { h with sides := fun k l b hl hb => ?_ }
  rcases getElem?_list_set_cases hl with ⟨rfl, rfl⟩ | ⟨-, hl⟩
  · obtain rfl := Option.some.inj (ha.symm.trans hb)
    obtain ⟨hc, hlen, hs⟩ := h.sides k j a hj ha
    refine ⟨Join.counts_fill hc _ _, (Join.length_slots_fill _ _ _).trans hlen, fun d' c hd => ?_⟩
    rcases Join.filled_of_fill hd with hold | ⟨hslot, rfl⟩
    · exact hs d' c hold
    · obtain rfl := Side.slot_injective hslot
      exact hr
  · exact h.sides k l b hl hb

theorem SoundExpansion.fillPair {x : Expansion} (h : s.SoundExpansion P x) {i : Nat}
    {a : Attribute Token} (ha : x.attributes[i]? = some a)
    {r : Outcome (Held (Attribute Token))} (hr : P.PairMeets a r) :
    s.SoundExpansion P { x with pairs := (x.pairs.fill i r).1 } := by
  refine { h with
    counts := ⟨Join.counts_fill h.counts.1 _ _,
      (Join.length_slots_fill _ _ _).trans h.counts.2⟩
    pairs := fun k b hk => ?_ }
  rcases Join.filled_of_fill hk with hk | ⟨rfl, rfl⟩
  · exact h.pairs k b hk
  · exact ⟨a, ha, hr⟩

/-! ### Moves -/

section Moves

variable {task : Task Desk}

/-- What a script goes on with is sound, and so is what it has answered. -/
theorem sound_of_follow {f : Frame} {q : Script Desk} {k : Task Desk}
    (ht : (s.push [.follow f q]).Sound P jobs (.follow f q)) (hb : Brings s (.follow f q) k) :
    (s.push [.follow f q]).Sound P jobs k := by
  obtain ⟨b, ht⟩ := ht
  cases ht with
  | answer hd =>
    cases hb with
    | answer => exact hd
    | goesOn h => cases h
  | suspend =>
    cases hb with
    | goesOn h => cases h
  | @expandAttributes _ a _ g hg hs hk =>
    cases hb with
    | expandAttributes =>
      refine ⟨rfl, ?_⟩
      rw [tag?_of_expandableTag? hg]
      exact hs
    | goesOn h =>
      cases h
      exact ⟨_, hk⟩
  | newObjectId hk =>
    cases hb with
    | goesOn h =>
      cases h
      exact ⟨_, hk _⟩
  | hold _ _ hk =>
    cases hb with
    | goesOn h =>
      cases h
      exact ⟨_, hk _⟩

theorem sound_of_deliver {g : Target} {r : Outcome (List Token)} {k : Task Desk}
    (ha : Account (s.push [.deliver g r])) (hf : Flow (s.push [.deliver g r]) P defer jobs)
    (hb : Brings s (.deliver g r) k) : (s.push [.deliver g r]).Sound P jobs k := by
  have ht : (s.push [.deliver g r]).Due P jobs g r := hf.tasks _ mem_push_self
  cases hb with
  | resume => exact ht.elim fun _ h => h.1.elim
  | answered hv hn =>
    have hs := hf.invocations _ _ hv
    exact ⟨hs.1, hs.feeds hv ht⟩
  | failed hv hn => exact (hf.invocations _ _ hv).due_error hv ht
  | chunk hx hd => exact due_of_delivers hx (ha.counts _ _ hx) (hf.streams _ _ hx) ht hd
  | side =>
    obtain ⟨F, ⟨x, a, ts, hx, hi, hd, rfl⟩, hm⟩ := ht
    refine ⟨x, a, hx, hi, Attribute.needsExpansion_of_tokens hd, ?_⟩
    rw [hd]
    exact ⟨r, rfl, hm.of_succ⟩

theorem sound_of_expandSide {e i : Nat} {d : Side} {k : Task Desk}
    (hf : Flow (s.push [.expandSide e i d]) P defer jobs) (hb : Brings s (.expandSide e i d) k) :
    (s.push [.expandSide e i d]).Sound P jobs k := by
  cases hb with
  | textSide hx hi hd =>
    obtain ⟨y, b, hy, hb, hn⟩ := hf.tasks _ mem_push_self
    obtain rfl := Option.some.inj (hx.symm.trans hy)
    obtain rfl := Option.some.inj (hi.symm.trans hb)
    refine ⟨_, _, hx, hi, hn, ?_⟩
    rw [hd]
    rfl
  | tokenSide hx hi hd =>
    exact ⟨(hf.expansions _ _ hx).options, _, ⟨_, _, _, hx, hi, hd, rfl⟩, Agree.refl _⟩

theorem sound_of_settleSide {e i : Nat} {d : Side} {r : Outcome (Content Token)} {k : Task Desk}
    (hf : Flow (s.push [.settleSide e i d r]) P defer jobs)
    (hb : Brings s (.settleSide e i d r) k) : (s.push [.settleSide e i d r]).Sound P jobs k := by
  cases hb with
  | settleSide hx hj hi hc =>
    obtain ⟨y, b, hy, hb, hn, hm⟩ := hf.tasks _ mem_push_self
    obtain rfl := Option.some.inj (hx.symm.trans hy)
    obtain rfl := Option.some.inj (hi.symm.trans hb)
    obtain ⟨hcount, hlen, hs⟩ := (hf.expansions _ _ hx).sides _ _ _ hj hi
    exact ⟨_, _, hx, hi, pairMeets_of_delivers hn ⟨hcount, hlen⟩ hs hm hc⟩

theorem sound_of_settlePair {e i : Nat} {r : Outcome (Held (Attribute Token))} {k : Task Desk}
    (hf : Flow (s.push [.settlePair e i r]) P defer jobs) (hb : Brings s (.settlePair e i r) k) :
    (s.push [.settlePair e i r]).Sound P jobs k := by
  cases hb with
  | settlePair hx hc =>
    obtain ⟨y, b, hy, hb, hm⟩ := hf.tasks _ mem_push_self
    obtain rfl := Option.some.inj (hx.symm.trans hy)
    have hs := hf.expansions _ _ hx
    exact ⟨hs.options, _, hs.serving, hs.pairsMeet hb hm hc⟩

/-- **What a move puts in front is sound**: by what the task is about. -/
theorem Move.soundTasks (h : Move s task t) (hl : Lineage (s.push [task]))
    (ha : Account (s.push [task])) (hf : Flow (s.push [task]) P defer jobs) :
    ∀ k ∈ t.agenda, t.Sound P jobs k := by
  have he : Extends (s.push [task]) t := h.extends.of_push
  have ht : (s.push [task]).Sound P jobs task := hf.tasks _ mem_push_self
  have before {k : Task Desk} (hk : (s.push [task]).Sound P jobs k) : t.Sound P jobs k :=
    hk.mono he (List.prefix_refl _)
  intro k hk
  rcases h.brings hk with hk | hb
  · exact before (hf.tasks k (mem_push.2 (Or.inr hk)))
  cases task with
  | offer a o p g =>
    cases hb with
    | pass hnext =>
      have hnext := Option.map_eq_none_iff.1 ((hf.next? p a.kind).symm.trans hnext)
      refine before ⟨_, ht.2, meets_of_eq fun n => ?_⟩
      rw [P.token_of_next?_eq_none hnext]
      rfl
    | @invoke _ _ _ _ r hnext =>
      have hv : t.invocations[s.invocations.size]? = some ⟨a, o, r.position, g, none⟩ := by
        cases h with
        | pass hn => cases hn.symm.trans hnext
        | invoke hn =>
          obtain rfl := Option.some.inj (hn.symm.trans hnext)
          exact Array.getElem?_push_size
      obtain ⟨r, hr, rfl⟩ := Option.map_eq_some_iff.1 ((hf.next? p a.kind).symm.trans hnext)
      exact ⟨true, answers_handler hv (List.mem_of_find?_eq_some hr) rfl rfl ht.1⟩
  | stream ts o p k g =>
    cases hb with
    | noTokens => exact before (Due.trans ht.2 (meets_of_eq fun _ => rfl))
    | token hi =>
      have hx : t.streams[s.streams.size]? = some (newStream ts k g) := by
        cases h with
        | noTokens | stream _ => exact Array.getElem?_push_size
      have hst : (s.push [_]).StartsAfter k p := (hl.tasks _ mem_push_self).2
      exact ⟨ht.1, _, _, p, hx, hi, hst.mono he, rfl⟩
  | follow f q => exact before (sound_of_follow ht hb)
  | deliver g r => exact before (sound_of_deliver ha hf hb)
  | expand as o u =>
    cases hb with
    | noPairs =>
      obtain ⟨-, a, k, g, v, r, -, -, -, hne, -⟩ := ht
      exact absurd rfl hne
    | pair _ => trivial
  | expandPair e i =>
    cases hb with
    | expandPair hx hi hn => exact before ⟨_, _, hx, hi, hn⟩
    | keepPair hx hi hn => exact before ⟨_, _, hx, hi, Plan.pairMeets_shared hn⟩
  | expandSide e i d => exact before (sound_of_expandSide hf hb)
  | settleSide e i d r => exact before (sound_of_settleSide hf hb)
  | settlePair e i r => exact before (sound_of_settlePair hf hb)
  | finish o u r =>
    obtain ⟨rfl, as, hs, hm⟩ := ht
    cases hb with
    | reconciled => exact before (due_returnAttributes hs hm _)
    | notExpanded => exact before (due_tokenFailure hs hm _)

theorem Move.soundInvocations (h : Move s task t) (hf : Flow (s.push [task]) P defer jobs)
    {n : Nat} {v : Invocation} (hv : t.invocations[n]? = some v) : t.SoundInvocation P jobs v := by
  have he : Extends (s.push [task]) t := h.extends.of_push
  rcases h.invocation_cases hv with ⟨a, hv, -⟩ | ⟨a, o, p, g, r, rfl, hnext, rfl, rfl⟩
  · have := (hf.invocations n _ hv).mono he (List.prefix_refl _)
    exact this
  · obtain ⟨ho, hg⟩ := hf.tasks _ mem_push_self
    obtain ⟨r, hr, rfl⟩ := Option.map_eq_some_iff.1 ((hf.next? p a.kind).symm.trans hnext)
    refine ⟨ho, r, List.mem_of_find?_eq_some hr, rfl, _, hg.mono he (List.prefix_refl _), ?_⟩
    exact Filter.Eventually.of_forall fun n => by rw [P.token_of_next? hr]; rfl

theorem Move.soundStreams (h : Move s task t) (hl : Lineage (s.push [task]))
    (hf : Flow (s.push [task]) P defer jobs) {n : Nat} {x : Stream}
    (hx : t.streams[n]? = some x) : t.SoundStream P jobs n x := by
  have he : Extends (s.push [task]) t := h.extends.of_push
  have ht := hf.tasks _ mem_push_self
  have old {y : Stream} (hy : s.streams[n]? = some y) : t.SoundStream P jobs n y :=
    (hf.streams n y hy).mono he (List.prefix_refl _)
  have hs := hl.tasks _ mem_push_self
  cases h with
  | noTokens | stream _ =>
    rcases getElem?_push_cases hx with hx | ⟨rfl, rfl⟩
    · exact old hx
    · exact .new (StartsAfter.mono he hs.2) (Feeds.mono he (List.prefix_refl _) ht.2) _
  | @chunk m i q y hy =>
    rcases getElem?_set_cases hx with ⟨rfl, rfl⟩ | ⟨-, hx⟩
    · exact (old hy).fill (Due.mono he (List.prefix_refl _) ht)
    · exact old hx
  | _ => exact old hx

theorem Move.soundExpansions (h : Move s task t) (hf : Flow (s.push [task]) P defer jobs) {n : Nat}
    {x : Expansion} (hx : t.expansions[n]? = some x) : t.SoundExpansion P x := by
  have he : Extends (s.push [task]) t := h.extends.of_push
  have ht := hf.tasks _ mem_push_self
  have old {y : Expansion} (hy : s.expansions[n]? = some y) : t.SoundExpansion P y :=
    (hf.expansions n y hy).mono he
  cases h with
  | noPairs | expand _ =>
    rcases getElem?_push_cases hx with hx | ⟨rfl, rfl⟩
    · exact old hx
    · obtain ⟨rfl, hs⟩ := ht
      exact .new (hs.mono he)
  | @settleSide e i d q y j a hy hj hi =>
    rcases getElem?_set_cases hx with ⟨rfl, rfl⟩ | ⟨-, hx⟩
    · obtain ⟨z, b, hz, hb, -, hm⟩ := ht
      obtain rfl := Option.some.inj (hy.symm.trans hz)
      exact (old hy).fillSide hj hb (Option.some.inj (hi.symm.trans hb) ▸ hm)
    · exact old hx
  | @settlePair e i q y hy =>
    rcases getElem?_set_cases hx with ⟨rfl, rfl⟩ | ⟨-, hx⟩
    · obtain ⟨z, a, hz, ha, hm⟩ := ht
      obtain rfl := Option.some.inj (hy.symm.trans hz)
      exact (old hy).fillPair ha hm
    · exact old hx
  | _ => exact old hx

/-- **A move keeps the flow.** -/
theorem Move.flow (h : Move s task t) (hl : Lineage (s.push [task]))
    (ha : Account (s.push [task])) (hf : Flow (s.push [task]) P defer jobs) :
    Flow t P defer jobs := by
  have he : Extends (s.push [task]) t := h.extends.of_push
  have ht : (s.push [task]).Sound P jobs task := hf.tasks _ mem_push_self
  refine ⟨?_, ?_, ?_, h.soundTasks hl ha hf, fun _ _ hv => h.soundInvocations hf hv,
    fun _ _ hx => h.soundStreams hl hf hx, fun _ _ hx => h.soundExpansions hf hx, ?_, ?_⟩
  · cases h with
    | register =>
      obtain ⟨b, ht⟩ := ht
      cases ht
    | _ => exact hf.handlers
  · cases h <;> exact hf.options
  · cases h <;> exact hf.count
  · have old (p : String × Parked) (hp : p ∈ s.memory.held) :
        t.Due P jobs (.handle p.2.handle) p.2.answer :=
      (hf.held p hp).mono he (List.prefix_refl _)
    cases h with
    | remember =>
      obtain ⟨b, ht⟩ := ht
      cases ht with
      | hold hq hd _ =>
        intro p hp
        rcases List.mem_append.1 hp with hp | hp
        · exact old p hp
        · obtain rfl := List.mem_singleton.1 hp
          exact Due.mono he (List.prefix_refl _) (hq ▸ hd)
    | _ => exact old
  · have old (e : Event) (hm : e ∈ s.events) :
        ∃ j r, e = .finished j r ∧ t.Due P jobs (.job j) r := by
      obtain ⟨j, r, he', hd⟩ := hf.events e hm
      exact ⟨j, r, he', Due.mono he (List.prefix_refl _) hd⟩
    intro e hm
    cases h with
    | finished =>
      rcases Array.mem_push.1 hm with hm | rfl
      · exact old e hm
      · exact ⟨_, _, rfl, Due.mono he (List.prefix_refl _) ht⟩
    | expanded =>
      -- an attribute list is never expanded for a job
      obtain ⟨-, as, ⟨a, k, g, v, r, hu, -⟩, -⟩ := ht
      cases hu
    | report =>
      obtain ⟨b, ht⟩ := ht
      cases ht
    | _ => exact old e hm

end Moves

end Session

end WikiExpansion
