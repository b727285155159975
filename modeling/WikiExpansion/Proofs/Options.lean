import WikiExpansion.Handler.Expander
import WikiExpansion.Proofs.Unwrapped

/-!
# The options of a run

A run has the options it was begun with, and every invocation in it receives
them (`Steady`).  A run that an attribute list starts for one of its sides has
the options of the list.  Where an expander was registered first, the lists that
are expanded for its tags have the options of the expander (`Owned`), whatever
the options of the run in which the tag came.

So the options of a run reach the invocations of the runs that the expander
starts, at whatever depth, only if they are those of the expander or if there are
no such invocations (`options_reach`).
-/

namespace WikiExpansion

namespace Session

variable {σ : Type}

/-! ### From a place up to the options of its run -/

/-- The place belongs to a run with the options: those of the job where it is the
job `j`, and those of the attribute list where it is a side. -/
inductive Under (s : Session σ) (j : Nat) (o : Options) : Target → Options → Prop
  | job {n : Nat} {q : Options} : (n = j → q = o) → Under s j o (.job n) q
  | callback {n : Nat} {q : Options} : Under s j o (.callback n) q
  | side {e i : Nat} {d : Side} {x : Expansion} {q : Options} : s.expansions[e]? = some x →
      x.options = q → Under s j o (.side e i d) q
  | chunk {n i : Nat} {x : Stream} {q : Options} : s.streams[n]? = some x →
      Under s j o x.target q → Under s j o (.chunk n i) q

/-- What is offered, run or handed to a handler has the options of its run. -/
structure Steady (s : Session σ) (j : Nat) (o : Options) : Prop where
  offers : ∀ a q p g, .offer a q p g ∈ s.agenda → s.Under j o g q
  streams : ∀ ts q p h g, .stream ts q p h g ∈ s.agenda → s.Under j o g q
  invocations : ∀ (h : Nat) (v : Invocation), s.invocations[h]? = some v →
    s.Under j o v.target v.options

variable {s t : Session σ} {task : Task σ} {j : Nat} {o : Options}

theorem Under.mono (he : Extends s t) {g : Target} {q : Options} (h : s.Under j o g q) :
    t.Under j o g q := by
  induction h with
  | job hq => exact .job hq
  | callback => exact .callback
  | side hx hq =>
    obtain ⟨a, b, hab⟩ := he.expansions _ _ hx
    exact .side hab hq
  | chunk hx _ ih =>
    obtain ⟨k, hk, -⟩ := he.streams _ _ hx
    exact .chunk hk ih

theorem Under.root {root g : Target} {q : Options} (hl : s.Leads root g) (h : s.Under j o g q) :
    s.Under j o root q := by
  induction hl with
  | refl => exact h
  | @chunk n i x hx _ ih =>
    cases h with
    | chunk hy hu =>
      obtain rfl := Option.some.inj (hx.symm.trans hy)
      exact ih hu

theorem Move.steady_streams (h : Move s task t) (hs : Steady (s.push [task]) j o) {ts : List Token}
    {q : Options} {p : Option Position} {k : Option Handle} {g : Target}
    (hm : .stream ts q p k g ∈ t.agenda) : t.Under j o g q := by
  have he : Extends (s.push [task]) t := h.extends.of_push
  rcases h.brings hm with hm | hl
  · exact (hs.streams _ _ _ _ _ (mem_push.2 (Or.inr hm))).mono he
  · cases hl with
    | answered hv _ => exact (hs.invocations _ _ hv).mono he
    | @tokenSide e i d x a ts hx _ _ =>
      have hu : (s.push [.expandSide e i d]).Under j o (.side e i d) x.options := .side hx rfl
      exact hu.mono he
    | process => cases h with | process => exact .callback

/-- **A move keeps the options of the runs.** -/
theorem Move.steady (h : Move s task t) (hs : Steady (s.push [task]) j o) : Steady t j o := by
  have he : Extends (s.push [task]) t := h.extends.of_push
  refine ⟨fun a q p g hm => ?_, fun ts q p k g hm => h.steady_streams hs hm, fun k v hv => ?_⟩
  · rcases h.offer_cases hm with hm | ⟨ts, k, g', i, rfl, hi, rfl⟩
    · exact (hs.offers _ _ _ _ (mem_push.2 (Or.inr hm))).mono he
    · have hu : t.Under j o g' q := (hs.streams _ _ _ _ _ mem_push_self).mono he
      have hx : t.streams[s.streams.size]? = some (newStream ts k g') := by
        cases h with
        | noTokens | stream _ => exact Array.getElem?_push_size
      exact .chunk hx hu
  · rcases h.invocation_cases hv with ⟨r, hv, -⟩ | ⟨a, q, p, g, r, rfl, -, -, rfl⟩
    · have := (hs.invocations k _ hv).mono he
      exact this
    · exact (hs.offers _ _ _ _ mem_push_self).mono he

theorem Act.steady (h : Act s t) (hs : Steady s j o) (hj : s.jobs = j → t.jobs = s.jobs) :
    Steady t j o := by
  have he := h.extends
  -- a job that begins is another one
  have other (hjobs : t.jobs = s.jobs + 1) (q : Options) : t.Under j o (.job s.jobs) q := by
    refine .job fun hn => ?_
    have := hj hn
    omega
  refine ⟨fun a q p g hm => ?_, fun ts q p k g hm => ?_, fun k v hv => ?_⟩
  · rcases h.asks hm with hm | hk
    · exact (hs.offers _ _ _ _ hm).mono he
    · cases hk with
      | dispatch hjobs => exact other hjobs _
  · rcases h.asks hm with hm | hk
    · exact (hs.streams _ _ _ _ _ hm).mono he
    · cases hk with
      | process hjobs => exact other hjobs _
  · exact (hs.invocations k v (h.records.1 ▸ hv)).mono he

theorem steady_new (ids : IdSource) (q : Options) (m : σ) : Steady (Session.new ids q m) j o :=
  ⟨fun _ _ _ _ h => absurd h List.not_mem_nil, fun _ _ _ _ _ h => absurd h List.not_mem_nil,
    fun _ _ h => absurd h getElem?_empty_ne_some⟩

theorem Reachable.steady (h : Reachable s) : ∀ j o, s.jobs ≤ j → Steady s j o := by
  refine h.keeps (P := fun s => ∀ j o, s.jobs ≤ j → Steady s j o) ?_ ?_ ?_
  · intro ids q m j o _
    exact steady_new ids q m
  · intro s task t hm hs j o hj
    exact hm.steady (hs j o (Nat.le_trans hm.extends.of_push.jobs hj))
  · intro s t _ ha hs j o hj
    have hle := ha.extends.jobs
    exact ha.steady (hs j o (Nat.le_trans hle hj)) fun hn => by omega

/-- **A run keeps the options it was begun with.** -/
theorem steady_process (hs : Reachable s) {ts : List Token}
    (ht : Reaches (s.process ts (some o)).2 t) : s.jobs < t.jobs ∧ Steady t s.jobs o := by
  have hold := hs.steady s.jobs o (Nat.le_refl _)
  have he : Extends s (s.process ts (some o)).2 := (Act.process ts (some o)).extends
  refine ht.keeps (P := fun t => s.jobs < t.jobs ∧ Steady t s.jobs o) ?_ ?_ ⟨Nat.lt_succ_self _, ?_⟩
  · intro u task v hm hu
    exact ⟨Nat.lt_of_lt_of_le hu.1 hm.extends.of_push.jobs, hm.steady hu.2⟩
  · intro u v _ ha hu
    exact ⟨Nat.lt_of_lt_of_le hu.1 ha.extends.jobs, ha.steady hu.2 fun hn => by omega⟩
  · refine ⟨fun a q p g hm => ?_, fun us q p k g hm => ?_, fun k v hv => ?_⟩
    · rcases List.mem_cons.1 (show _ ∈ _ :: s.agenda from hm) with hm | hm
      · cases hm
      · exact (hold.offers _ _ _ _ hm).mono he
    · rcases List.mem_cons.1 (show _ ∈ _ :: s.agenda from hm) with hm | hm
      · cases hm
        exact .job fun _ => rfl
      · exact (hold.streams _ _ _ _ _ hm).mono he
    · exact (hold.invocations k v hv).mono he

/-! ### The lists of the expander -/

inductive OwnScript (o : Options) : Script σ → Prop
  | answer {r : Outcome (List Token)} : OwnScript o (.answer r)
  | suspend : OwnScript o .suspend
  | expandAttributes {a : Token} : OwnScript o (.expandAttributes a o .suspend)

theorem ownScript_expander (o : Options) (f : Frame) (a : Token) :
    OwnScript o (expander o f a : Script σ) := by
  unfold expander
  split
  · split
    · exact .answer
    · exact .expandAttributes
  · exact .answer

/-- The handler at the position is an expander with the options, and so are the
lists that are expanded for its invocations. -/
structure Owned (s : Session σ) (p : Position) (o : Options) : Prop where
  registry : ∀ r ∈ s.registry.entries, r.position = p → r.handler = expander o
  older : p.number < s.registry.next
  scripts : ∀ f k, .follow f k ∈ s.agenda → f.position = p → OwnScript o k
  callbacks : ∀ (n : Nat) (c : Callback σ), s.callbacks[n]? = some c → c.frame.position ≠ p
  lists : ∀ as q a (h : Handle), .expand as q (.answer a h) ∈ s.agenda →
    ∃ v, s.invocations[h.index]? = some v ∧ (v.position = p → q = o)
  expansions : ∀ (e : Nat) (x : Expansion) (a : Token) (h : Handle), s.expansions[e]? = some x →
    x.purpose = .answer a h →
      ∃ v, s.invocations[h.index]? = some v ∧ (v.position = p → x.options = o)

variable {p : Position}

theorem Owned.register (h : Owned s p o) (n : String) (k : Rank) (f : Filter) (a : Handler σ) :
    (∀ r ∈ (s.register n k f a).registry.entries, r.position = p → r.handler = expander o) ∧
      p.number < (s.register n k f a).registry.next := by
  refine ⟨fun r hr hp => ?_, Nat.lt_succ_of_lt h.older⟩
  rcases Registry.mem_insert.1 hr with rfl | hr
  · exact absurd h.older (hp ▸ Nat.lt_irrefl _)
  · exact h.registry r hr hp

theorem Move.owned_scripts (h : Move s task t) (hs : Owned (s.push [task]) p o) {f : Frame}
    {k : Script σ} (hm : .follow f k ∈ t.agenda) (hp : f.position = p) : OwnScript o k := by
  rcases h.follow_cases hm with hm | ⟨r, hr, hrp, a, rfl⟩ | ⟨n, c, q, hc, rfl, -⟩ | ⟨k₀, rfl, hk⟩
  · exact hs.scripts f k (mem_push.2 (Or.inr hm)) hp
  · rw [hs.registry r hr (hrp.trans hp)]
    exact ownScript_expander o f a
  · exact absurd hp (hs.callbacks _ _ hc)
  · cases hs.scripts _ _ mem_push_self hp with
    | answer | suspend => cases hk
    | expandAttributes =>
      cases hk
      exact .suspend

theorem Move.owned_lists (h : Move s task t) (hl : Lineage (s.push [task]))
    (hs : Owned (s.push [task]) p o) {as : List (Attribute Token)} {q : Options} {a : Token}
    {b : Handle} (hm : .expand as q (.answer a b) ∈ t.agenda) :
    ∃ v, t.invocations[b.index]? = some v ∧ (v.position = p → q = o) := by
  have he : Extends (s.push [task]) t := h.extends.of_push
  rcases h.brings hm with hm | hl
  · obtain ⟨v, hv, hq⟩ := hs.lists _ _ _ _ (mem_push.2 (Or.inr hm))
    obtain ⟨r, hr, -⟩ := he.invocations _ v hv
    exact ⟨_, hr, hq⟩
  · cases hl with
    | @expandAttributes f a' q' k =>
      obtain ⟨v, hv, hvp, -⟩ : (s.push [_]).Calls f := hl.tasks _ mem_push_self
      obtain ⟨r, hr, -⟩ := he.invocations _ v hv
      refine ⟨_, hr, fun hp => ?_⟩
      cases hs.scripts _ _ mem_push_self (hvp ▸ hp)
      rfl

/-- **A move leaves the lists of the expander their options.** -/
theorem Move.owned (h : Move s task t) (hl : Lineage (s.push [task]))
    (hs : Owned (s.push [task]) p o) : Owned t p o := by
  have he : Extends (s.push [task]) t := h.extends.of_push
  have hreg : (∀ r ∈ t.registry.entries, r.position = p → r.handler = expander o) ∧
      p.number < t.registry.next := by
    cases h with
    | register => exact hs.register _ _ _ _
    | _ => exact ⟨hs.registry, hs.older⟩
  refine ⟨hreg.1, hreg.2, fun f k hm hp => h.owned_scripts hs hm hp, fun n c hc => ?_,
    fun as q a b hm => h.owned_lists hl hs hm, fun e x a b hx hu => ?_⟩
  · rcases h.callback_cases hc with hc | ⟨f, ts, q, d, k, rfl, -, rfl⟩
    · exact hs.callbacks n c hc
    · intro hp
      cases hs.scripts _ _ mem_push_self hp
  · have keeps {q : Options} (hq : ∃ v, (s.push [task]).invocations[b.index]? = some v ∧
        (v.position = p → q = o)) :
        ∃ v, t.invocations[b.index]? = some v ∧ (v.position = p → q = o) := by
      obtain ⟨v, hv, hq⟩ := hq
      obtain ⟨r, hr, -⟩ := he.invocations _ v hv
      exact ⟨_, hr, hq⟩
    rcases h.expansion_cases hx with ⟨c, d, hx⟩ | ⟨as, q, u, rfl, -, rfl⟩
    · have := keeps (hs.expansions e _ a b hx hu)
      exact this
    · obtain rfl : u = .answer a b := hu
      exact keeps (hs.lists _ _ _ _ mem_push_self)

theorem Act.owned (h : Act s t) (hs : Owned s p o) : Owned t p o := by
  obtain ⟨hi, -, hx, hc⟩ := h.records
  have hreg : (∀ r ∈ t.registry.entries, r.position = p → r.handler = expander o) ∧
      p.number < t.registry.next := by
    cases h with
    | register => exact hs.register _ _ _ _
    | _ => exact ⟨hs.registry, hs.older⟩
  refine ⟨hreg.1, hreg.2, fun f k hm => ?_, hc ▸ hs.callbacks, fun as q a b hm => ?_, ?_⟩
  · rcases h.asks hm with hm | hk
    · exact hs.scripts f k hm
    · cases hk
  · rw [hi]
    rcases h.asks hm with hm | hk
    · exact hs.lists as q a b hm
    · cases hk
  · rw [hi, hx]
    exact hs.expansions

theorem owned_withExpander (ids : IdSource) (o : Options) (rank : Rank) (m : σ) :
    Owned (withExpander ids o rank m) ⟨rank, 0⟩ o where
  registry r hr _ := by
    obtain rfl := List.mem_singleton.1 hr
    rfl
  older := Nat.lt_succ_self 0
  scripts _ _ h := absurd h List.not_mem_nil
  callbacks _ _ h := absurd h getElem?_empty_ne_some
  lists _ _ _ _ h := absurd h List.not_mem_nil
  expansions _ _ _ _ h := absurd h getElem?_empty_ne_some

/-! ### What the invocations of a run receive -/

def Starts (s : Session σ) (p : Position) (h : Handle) (e : Nat) : Prop :=
  ∃ v x a, s.invocations[h.index]? = some v ∧ v.position = p ∧ s.expansions[e]? = some x ∧
    x.purpose = .answer a h

/-- The invocation is in the run, or in one that the handler at the position has
started, at some depth, for a side of a tag. -/
inductive Within (s : Session σ) (p : Position) (root : Target) : Handle → Prop
  | run {h : Handle} : s.InRun root h → Within s p root h
  | nested {h k : Handle} {e i : Nat} {d : Side} : Within s p root k → s.Starts p k e →
      s.InRun (.side e i d) h → Within s p root h

def Nested (s : Session σ) (p : Position) (root : Target) (h : Handle) : Prop :=
  ∃ k e i d, s.Within p root k ∧ s.Starts p k e ∧ s.InRun (.side e i d) h

/-- The invocation was made with the options, and its frame has them. -/
def Receives (s : Session σ) (h : Handle) (o : Options) : Prop :=
  (∃ v, s.invocations[h.index]? = some v ∧ v.options = o) ∧
    ∀ f k, .follow f k ∈ s.agenda → f.handle = h → f.options = o

theorem within_iff {h : Handle} {root : Target} :
    s.Within p root h ↔ s.InRun root h ∨ s.Nested p root h := by
  constructor
  · intro hw
    cases hw with
    | run hr => exact Or.inl hr
    | nested hk hs hr => exact Or.inr ⟨_, _, _, _, hk, hs, hr⟩
  · rintro (hr | ⟨k, e, i, d, hk, hs, hr⟩)
    · exact .run hr
    · exact .nested hk hs hr

theorem Receives.unique {h : Handle} {q : Options} (ho : s.Receives h o) (hq : s.Receives h q) :
    o = q := by
  obtain ⟨⟨v, hv, rfl⟩, -⟩ := ho
  obtain ⟨⟨w, hw, rfl⟩, -⟩ := hq
  rw [Option.some.inj (hv.symm.trans hw)]

theorem receives_of_options (hl : Lineage s) {h : Handle} {v : Invocation}
    (hv : s.invocations[h.index]? = some v) : s.Receives h v.options := by
  refine ⟨⟨v, hv, rfl⟩, fun f k hm hf => ?_⟩
  obtain ⟨w, hw, -, ho⟩ : s.Calls f := hl.tasks _ hm
  rw [hf, hv] at hw
  obtain rfl := Option.some.inj hw
  exact ho.symm

section Job

variable {ids : IdSource} {o₀ : Options} {rank : Rank} {m : σ} {ts : List Token}

/-- What was true where the job began is true of all that came of it. -/
theorem lineage_owned (hs : Reaches (withExpander ids o₀ rank m) s) (ho : s.isOpen = true)
    (ht : Reaches (s.process ts (some o)).2 t) : Lineage t ∧ Owned t ⟨rank, 0⟩ o₀ := by
  have hnew : Reachable (withExpander ids o₀ rank m) :=
    ⟨ids, o₀, m, .act .refl rfl (.register _ _ _ _)⟩
  have hall := hs.trans ((Reaches.act .refl ho (.process ts (some o))).trans ht)
  have key := hall.keeps (P := fun t => Ledger t ∧ Lineage t ∧ Owned t ⟨rank, 0⟩ o₀) ?_ ?_
    ⟨hnew.ledger, hnew.lineage, owned_withExpander ids o₀ rank m⟩
  · exact key.2
  · rintro u task v hm ⟨hg, hl, how⟩
    exact ⟨hm.ledger hg, hm.lineage hg hl, hm.owned hl how⟩
  · rintro u v hopen ha ⟨hg, hl, how⟩
    exact ⟨ha.ledger hopen hg, ha.lineage hl, ha.owned how⟩

theorem reachable_of_withExpander (hs : Reaches (withExpander ids o₀ rank m) s) : Reachable s :=
  ⟨ids, o₀, m, (Reaches.act .refl rfl (.register _ _ _ _)).trans hs⟩

/-- **The invocations of a run receive the options of the run**, whatever the
handlers do. -/
theorem receives_of_inRun (hs : Reaches (withExpander ids o₀ rank m) s) (ho : s.isOpen = true)
    (ht : Reaches (s.process ts (some o)).2 t) {h : Handle} (hr : t.InRun (.job s.jobs) h) :
    t.Receives h o := by
  obtain ⟨v, hv, hlead⟩ := hr
  have hst := (steady_process (reachable_of_withExpander hs) ht).2
  have hq : v.options = o := by
    cases (hst.invocations _ v hv).root hlead with
    | job hq => exact hq rfl
  exact hq ▸ receives_of_options (lineage_owned hs ho ht).1 hv

/-- **Those of a run that the expander starts receive the options of the expander.** -/
theorem receives_of_nested (hs : Reaches (withExpander ids o₀ rank m) s) (ho : s.isOpen = true)
    (ht : Reaches (s.process ts (some o)).2 t) {h : Handle}
    (hn : t.Nested ⟨rank, 0⟩ (.job s.jobs) h) : t.Receives h o₀ := by
  obtain ⟨k, e, i, d, -, ⟨u, x, a, hu, hup, hx, hxa⟩, v, hv, hlead⟩ := hn
  obtain ⟨hl, how⟩ := lineage_owned hs ho ht
  have hst := (steady_process (reachable_of_withExpander hs) ht).2
  obtain ⟨w, hw, hwo⟩ := how.expansions e x a k hx hxa
  obtain rfl := Option.some.inj (hu.symm.trans hw)
  have hq : v.options = o₀ := by
    cases (hst.invocations _ v hv).root hlead with
    | side hy hyq =>
      obtain rfl := Option.some.inj (hx.symm.trans hy)
      exact hyq.symm.trans (hwo hup)
  exact hq ▸ receives_of_options hl hv

/-- The options of a run reach all of its invocations, those of the runs that the
expander starts included, just when they are those of the expander or there are
none of these runs. -/
theorem receives_all_iff (hs : Reaches (withExpander ids o₀ rank m) s) (ho : s.isOpen = true)
    (ht : Reaches (s.process ts (some o)).2 t) :
    (∀ h, t.Within ⟨rank, 0⟩ (.job s.jobs) h → t.Receives h o) ↔
      o = o₀ ∨ ∀ h, ¬ t.Nested ⟨rank, 0⟩ (.job s.jobs) h := by
  constructor
  · intro hall
    by_cases hn : ∃ h, t.Nested ⟨rank, 0⟩ (.job s.jobs) h
    · obtain ⟨h, hn⟩ := hn
      exact Or.inl ((hall h (within_iff.2 (Or.inr hn))).unique (receives_of_nested hs ho ht hn))
    · exact Or.inr fun h hh => hn ⟨h, hh⟩
  · intro hor h hw
    rcases within_iff.1 hw with hr | hn
    · exact receives_of_inRun hs ho ht hr
    · rcases hor with rfl | hnone
      · exact receives_of_nested hs ho ht hn
      · exact absurd hn (hnone h)

end Job

/-- **How far the options of a run reach.**  In a session with an expander, whatever
other handlers it has, the invocations of a run receive the options of the run, and
those of the runs that the expander starts, at any depth, the options of the
expander.  So all of them receive the options of the run just when these are the
options of the expander or no run of the expander calls a handler.  And where a
pipeline and its expander do not wrap, whether its tables answer at once or later,
each tag and each marker anywhere in the result of a job comes from one in the
tokens of the job. -/
theorem options_reach {ids : IdSource} {o : Options} :
    (∀ {σ : Type} {o₀ : Options} {rank : Rank} {m : σ} {s t : Session σ}
      {ts : List Token}, Reaches (withExpander ids o₀ rank m) s → s.isOpen = true →
      Reaches (s.process ts (some o)).2 t →
      (∀ h, t.InRun (.job s.jobs) h → t.Receives h o) ∧
      (∀ h, t.Nested ⟨rank, 0⟩ (.job s.jobs) h → t.Receives h o₀) ∧
      ((∀ h, t.Within ⟨rank, 0⟩ (.job s.jobs) h → t.Receives h o) ↔
        o = o₀ ∨ ∀ h, ¬ t.Nested ⟨rank, 0⟩ (.job s.jobs) h)) ∧
    (∀ {defer : Option String} {stages : List (Rank × Stage)}
      {jobs : List (List Token)} {s : Session Desk}, o.wrapTemplates = false →
      Schedule (pipeline defer ids o stages) jobs s →
      ∀ {j : Nat} {ts out : List Token}, jobs[j]? = some ts → s.result? j = some (.ok out) →
      ∀ k, ∀ u ∈ out, u.Holds k → ∃ t ∈ ts, t.Holds k) := by
  refine ⟨fun hs ho ht => ⟨?_, ?_, receives_all_iff hs ho ht⟩, ?_⟩
  · exact fun _ hr => receives_of_inRun hs ho ht hr
  · exact fun _ hn => receives_of_nested hs ho ht hn
  · exact fun hw h _ _ _ hj hr _ _ hu hk => h.holds hw hj hr hu hk

def pageUnwrapped : Session Desk :=
  ((pipeline none {} {} pageStages).process [pageLink] (some ⟨false⟩)).2.settle 100

def pagePlain : Session Desk :=
  ((pipeline none {} ⟨false⟩ pageStages).process [pageLink] none).2.settle 100

theorem options_reach_pageLink :
    (∃ h, pageUnwrapped.Nested ⟨.attributes, 0⟩ (.job 0) h ∧ pageUnwrapped.Receives h {}) ∧
      (¬ ∀ h, pageUnwrapped.Within ⟨.attributes, 0⟩ (.job 0) h → pageUnwrapped.Receives h ⟨false⟩) ∧
      ∃ out, pagePlain.result? 0 = some (.ok out) ∧
        ∀ k, ∀ u ∈ out, u.Holds k → ∃ t ∈ [pageLink], t.Holds k := by
  have hs : Reaches (withExpander {} {} .attributes {}) (pipeline none {} {} pageStages) :=
    .act .refl rfl (.register _ _ _ _)
  have ht : Reaches ((pipeline none {} {} pageStages).process [pageLink] (some ⟨false⟩)).2
      pageUnwrapped := Reaches.settle .refl 100
  obtain ⟨-, hnested, hiff⟩ := options_reach.1 hs rfl ht
  -- the tag was seen by the expander in the answer of the table
  have hlink : pageUnwrapped.InRun (.job 0) ⟨1⟩ :=
    ⟨_, rfl, .chunk (x := pageUnwrapped.streams[1]) rfl
      (.chunk (x := pageUnwrapped.streams[0]) rfl .refl)⟩
  have hpage : pageUnwrapped.Nested ⟨.attributes, 0⟩ (.job 0) ⟨2⟩ :=
    ⟨⟨1⟩, 0, 0, .value, .run hlink, ⟨_, _, _, rfl, rfl, rfl, rfl⟩, _, rfl,
      .chunk (x := pageUnwrapped.streams[2]) rfl .refl⟩
  have hplain : Schedule (pipeline none {} ⟨false⟩ pageStages) [[pageLink]] pagePlain :=
    .settle (.process _ .start rfl) 100
  have hr : ∃ out, pagePlain.result? 0 = some (.ok out) := ⟨_, rfl⟩
  obtain ⟨out, hr⟩ := hr
  refine ⟨⟨⟨2⟩, hpage, hnested _ hpage⟩, fun hall => ?_, out, hr,
    options_reach.2 rfl hplain (j := 0) rfl hr⟩
  rcases hiff.1 hall with h | h
  · cases h
  · exact h _ hpage

end Session

end WikiExpansion
