import WikiExpansion.Proofs.Join
import WikiExpansion.Proofs.Records

/-!
# Work that leaves alone what was there

`Runs` says that steps lead from one session to another, and `Keeps` that all that
stood in the first session stands in the second as it was: its records, its
registry, its events, and the work it still had to do.  Some tasks `Turn` into
another where steps lead from them to it and keep the session they were put into.
-/

namespace WikiExpansion

namespace Session

variable {σ : Type} {s t u : Session σ}

def Runs (s t : Session σ) : Prop := ∃ n, s.settle n = t

theorem Runs.refl (s : Session σ) : Runs s s := ⟨0, rfl⟩

theorem Runs.trans (h : Runs s t) (g : Runs t u) : Runs s u := by
  obtain ⟨m, rfl⟩ := h
  obtain ⟨n, rfl⟩ := g
  exact ⟨m + n, settle_add m n s⟩

theorem Runs.of_step (h : Runs s.step t) : Runs s t := by
  obtain ⟨n, rfl⟩ := h
  exact ⟨n + 1, settle_succ n s⟩

def setAgenda (s : Session σ) (ks : List (Task σ)) : Session σ := { s with agenda := ks }

def Idle (ks : List (Task σ)) : Prop := ∀ k ∈ ks, ∃ f, k = .follow f .suspend

theorem idle_nil : Idle ([] : List (Task σ)) := fun _ h => absurd h List.not_mem_nil

theorem Idle.append {ks ls : List (Task σ)} (h : Idle ks) (g : Idle ls) : Idle (ks ++ ls) :=
  fun k hk => (List.mem_append.1 hk).elim (h k) (g k)

theorem runs_idle {ks : List (Task σ)} (h : Idle ks) (s : Session σ) :
    Runs (s.push ks) s := by
  induction ks with
  | nil => exact .refl s
  | cons k ks ih =>
    obtain ⟨f, rfl⟩ := h k List.mem_cons_self
    exact .of_step (ih fun k hk => h k (List.mem_cons_of_mem _ hk))

theorem runs_of_idle (h : Idle s.agenda) : Runs s (s.setAgenda []) := by
  have := runs_idle h (s.setAgenda [])
  rwa [show (s.setAgenda []).push s.agenda = s by simp only [push, setAgenda, List.append_nil]]
    at this

theorem fst_run (n : Nat) (s : Session σ) (ts : List Token) :
    (s.run n ts).1 =
      (((s.process ts none).2.settle n).result? s.jobs).getD (.error .incomplete) := rfl

/-- The session still has to do what it had to do, scripts that are over apart, and
all its records stand as they were. -/
structure Keeps (s t : Session σ) : Prop where
  agenda : ∃ idle, Idle idle ∧ t.agenda = idle ++ s.agenda
  registry : t.registry = s.registry
  options : t.options = s.options
  events : t.events = s.events
  invocations : ∀ (n : Nat) (v : Invocation), s.invocations[n]? = some v →
    t.invocations[n]? = some v
  streams : ∀ (n : Nat) (x : Stream), s.streams[n]? = some x → t.streams[n]? = some x
  expansions : ∀ (n : Nat) (x : Expansion), s.expansions[n]? = some x → t.expansions[n]? = some x

namespace Keeps

theorem refl (s : Session σ) : Keeps s s :=
  ⟨⟨[], idle_nil, rfl⟩, rfl, rfl, rfl, fun _ _ => id, fun _ _ => id, fun _ _ => id⟩

theorem trans (h : Keeps s t) (g : Keeps t u) : Keeps s u where
  agenda := by
    obtain ⟨ks, hks, hk⟩ := h.agenda
    obtain ⟨ls, hls, hl⟩ := g.agenda
    exact ⟨ls ++ ks, hls.append hks, by rw [hl, hk, List.append_assoc]⟩
  registry := g.registry.trans h.registry
  options := g.options.trans h.options
  events := g.events.trans h.events
  invocations n v hv := g.invocations n v (h.invocations n v hv)
  streams n x hx := g.streams n x (h.streams n x hx)
  expansions n x hx := g.expansions n x (h.expansions n x hx)

/-- What stood on the agenda behind the work that was done still stands there. -/
theorem eq_push {ks : List (Task σ)} (h : Keeps (s.push ks) t) :
    ∃ idle, Idle idle ∧ t = (t.setAgenda s.agenda).push (idle ++ ks) := by
  obtain ⟨idle, hi, ha⟩ := h.agenda
  refine ⟨idle, hi, ?_⟩
  cases t
  simp only [push, setAgenda] at ha ⊢
  rw [ha, List.append_assoc]

theorem runs {ks : List (Task σ)} (h : Keeps (s.push ks) t) :
    Runs t ((t.setAgenda s.agenda).push ks) := by
  obtain ⟨idle, hi, ht⟩ := h.eq_push
  have := runs_idle hi ((t.setAgenda s.agenda).push ks)
  rwa [push_push, ← ht] at this

theorem of_push {ks : List (Task σ)} (h : Keeps (s.push ks) t) :
    Keeps s (t.setAgenda s.agenda) :=
  { h with agenda := ⟨[], idle_nil, rfl⟩ }

/-- The session that is kept may be taken with another agenda for some of the work. -/
theorem rebase (h : Keeps s t) (g : Keeps (s.setAgenda t.agenda) u) : Keeps s u :=
  { g with
    agenda := by
      obtain ⟨ks, hks, hk⟩ := h.agenda
      obtain ⟨ls, hls, hl⟩ := g.agenda
      exact ⟨ls ++ ks, hls.append hks, by rw [hl, List.append_assoc]; exact congrArg (ls ++ ·) hk⟩ }

theorem push (h : Keeps s t) (ha : t.agenda = s.agenda) (ks : List (Task σ)) :
    Keeps (s.push ks) (t.push ks) :=
  { h with agenda := ⟨[], idle_nil, congrArg (ks ++ ·) ha⟩ }

theorem push_idle {ks : List (Task σ)} (h : Idle ks) (s : Session σ) : Keeps s (s.push ks) :=
  { refl s with agenda := ⟨ks, h, rfl⟩ }

theorem addInvocation (s : Session σ) (v : Invocation) : Keeps s (s.addInvocation v) :=
  { refl s with invocations := fun _ _ h => getElem?_push_of_some h v }

theorem addStream (s : Session σ) (x : Stream) : Keeps s (s.addStream x) :=
  { refl s with streams := fun _ _ h => getElem?_push_of_some h x }

theorem addExpansion (s : Session σ) (x : Expansion) : Keeps s (s.addExpansion x) :=
  { refl s with expansions := fun _ _ h => getElem?_push_of_some h x }

theorem setIds (s : Session σ) (ids : IdSource) : Keeps s (s.setIds ids) := { refl s with }

/-- A record that was added since may change. -/
theorem setStream (h : Keeps s t) {n : Nat} (hn : s.streams[n]? = none) (x : Stream) :
    Keeps s (t.setStream n x) :=
  { h with
    streams := fun m y hy => by
      have hne : n ≠ m := by
        rintro rfl
        rw [hn] at hy
        cases hy
      exact (Array.getElem?_setIfInBounds_ne hne).trans (h.streams m y hy) }

theorem setExpansion (h : Keeps s t) {n : Nat} (hn : s.expansions[n]? = none) (x : Expansion) :
    Keeps s (t.setExpansion n x) :=
  { h with
    expansions := fun m y hy => by
      have hne : n ≠ m := by
        rintro rfl
        rw [hn] at hy
        cases hy
      exact (Array.getElem?_setIfInBounds_ne hne).trans (h.expansions m y hy) }

theorem setAnswer (h : Keeps s t) {k : Handle} (hk : s.invocations[k.index]? = none)
    (v : Invocation) (r : Outcome (List Token)) : Keeps s (t.setAnswer k v r) :=
  { h with
    invocations := fun m w hw => by
      have hne : k.index ≠ m := by
        rintro rfl
        rw [hk] at hw
        cases hw
      exact (Array.getElem?_setIfInBounds_ne hne).trans (h.invocations m w hw) }

end Keeps

/-- Steps lead from some tasks to another one and leave alone what was there. -/
def Turns (s : Session σ) (a : List (Task σ)) (b : Task σ) : Prop :=
  ∃ t, Keeps s t ∧ Runs (s.push a) (t.push [b])

theorem runs_perform {a : Task σ} (h : s.perform a = t) : Runs (s.push [a]) t :=
  .of_step ⟨0, h⟩

theorem Turns.of_eq {a b : Task σ} (hk : Keeps s t) (h : s.perform a = t.push [b]) :
    s.Turns [a] b :=
  ⟨t, hk, runs_perform h⟩

/-- The first task leads to others, which lead on. -/
theorem Turns.of_perform {a : Task σ} {b : List (Task σ)} {c : Task σ} (hk : Keeps s t)
    (h : s.perform a = t.push b) (g : t.Turns b c) : s.Turns [a] c := by
  obtain ⟨u, hu, hr⟩ := g
  exact ⟨u, hk.trans hu, (runs_perform h).trans hr⟩

/-- Some tasks lead to another, which leads on. -/
theorem Turns.next {a : List (Task σ)} {b c : Task σ} (h : s.Turns a b)
    (g : ∀ t, Keeps s t → t.Turns [b] c) : s.Turns a c := by
  obtain ⟨t, ht, hr⟩ := h
  obtain ⟨u, hu, hr'⟩ := g t ht
  exact ⟨u, ht.trans hu, hr.trans hr'⟩

/-- What has come of a token takes its slot, and in the last slot it leads on. -/
theorem perform_deliver_chunk {n : Nat} {ts : List Token} {k : Option Handle} {g : Target}
    {vs : List (List Token)} (hx : s.streams[n]? = some ⟨ts, k, .partly ts.length vs, g⟩)
    (h : vs.length < ts.length) (v : List Token) :
    s.perform (.deliver (.chunk n vs.length) (.ok v)) =
      (s.setStream n ⟨ts, k, .partly ts.length (vs ++ [v]), g⟩).push
        (if vs.length + 1 = ts.length then [.deliver g (.ok (vs ++ [v]).flatten)] else []) := by
  rw [Move.perform_eq (.chunk hx), Join.fill_partly h v]
  by_cases hl : vs.length + 1 = ts.length
  · simp only [if_pos hl]
    rfl
  · simp only [if_neg hl]
    rfl

theorem offers_eq_map (n : Nat) (ts : List Token) (o : Options) (p : Option Position) :
    (offers n ts o p : List (Task σ)) =
      (List.range' 0 ts.length).map fun i => .offer (ts[i]?.getD default) o p (.chunk n i) := by
  refine List.ext_getElem (by simp [offers]) fun i h _ => ?_
  have hi : i < ts.length := by simpa [offers] using h
  simp [offers, List.getElem?_eq_getElem hi]

def sideAt : Nat → Side
  | 0 => .key
  | _ => .value

theorem slot_sideAt {n : Nat} (h : n < 2) : (sideAt n).slot = n := by
  match n with
  | 0 => rfl
  | 1 => rfl

theorem perform_settleSide {e i : Nat} {x : Expansion} {cs : List (Content Token)}
    (hx : s.expansions[e]? = some { x with sides := x.sides.set i (.partly 2 cs) })
    (hi : i < x.sides.length) {a : Attribute Token} (ha : x.attributes[i]? = some a)
    (h : cs.length < 2) (c : Content Token) :
    s.perform (.settleSide e i (sideAt cs.length) (.ok c)) =
      (s.setExpansion e { x with sides := x.sides.set i (.partly 2 (cs ++ [c])) }).push
        (if cs.length + 1 = 2 then
          [.settlePair e i (pairOfSides a (.ok (cs ++ [c])))] else []) := by
  have hj : (x.sides.set i (.partly 2 cs))[i]? = some (.partly 2 cs) := List.getElem?_set_self hi
  rw [Move.perform_eq (.settleSide hx hj ha), slot_sideAt h, Join.fill_partly h c, List.set_set]
  by_cases hl : cs.length + 1 = 2
  · simp only [if_pos hl]
    rfl
  · simp only [if_neg hl]
    rfl

theorem perform_settlePair {e N : Nat} {x : Expansion} {hs : List (Held (Attribute Token))}
    (hx : s.expansions[e]? = some { x with pairs := .partly N hs }) (hi : hs.length < N)
    (h : Held (Attribute Token)) :
    s.perform (.settlePair e hs.length (.ok h)) =
      (s.setExpansion e { x with pairs := .partly N (hs ++ [h]) }).push
        (if hs.length + 1 = N then [.finish x.options x.purpose (.ok (hs ++ [h]))] else []) := by
  rw [Move.perform_eq (.settlePair hx), Join.fill_partly hi h]
  by_cases hl : hs.length + 1 = N
  · simp only [if_pos hl]
    rfl
  · simp only [if_neg hl]
    rfl

end Session

end WikiExpansion
