import WikiExpansion.Proofs.Runs
import WikiExpansion.Proofs.Work

/-!
# A session does its work

In a session of workers each task comes to what the work on it comes to: steps lead
from it to the task that hands on the result (`Produces`).  A success leaves nothing
behind.  After a failure the tasks that stood behind it are still done, but all
joins that their results could reach are closed by then: they fade, and only the
ids that they take tell that they were done (`Fades`).

The three joins of a session, those of a stream, of the sides of a pair and of the
pairs of a list, are filled in the same way, slot after slot, up to the first
failure.  A `Row` says what is needed of such a join, and `Row.produces_all` what
comes of it.
-/

namespace WikiExpansion

structure Expansion.Retains (x y : Expansion) : Prop where
  attributes : y.attributes = x.attributes
  options : y.options = x.options
  sides : ∀ (i : Nat) (j : Join (Content Token)), x.sides[i]? = some j → j.delivered = true →
    y.sides[i]? = some j
  pairs : x.pairs.delivered = true → y.pairs = x.pairs

theorem Expansion.Retains.refl (x : Expansion) : x.Retains x :=
  ⟨rfl, rfl, fun _ _ h _ => h, fun _ => rfl⟩

theorem Expansion.Retains.trans {x y z : Expansion} (h : x.Retains y) (k : y.Retains z) :
    x.Retains z := by
  refine ⟨k.attributes.trans h.attributes, k.options.trans h.options, fun i j hi hd => ?_,
    fun hd => ?_⟩
  · exact k.sides i j (h.sides i j hi hd) hd
  · have hp := h.pairs hd
    rw [k.pairs (by rw [hp, hd]), hp]

theorem Expansion.Retains.setSide {x : Expansion} {i : Nat} {j k : Join (Content Token)}
    (hj : x.sides[i]? = some j) (h : j.delivered = true → k = j) :
    x.Retains { x with sides := x.sides.set i k } := by
  refine ⟨rfl, rfl, fun l c hl hd => ?_, fun _ => rfl⟩
  by_cases hne : i = l
  · subst hne
    obtain rfl := Option.some.inj (hj.symm.trans hl)
    rw [h hd]
    exact List.getElem?_set_self (List.getElem?_eq_some_iff.1 hj).1
  · exact (List.getElem?_set_ne hne).trans hl

theorem Expansion.Retains.setPairs {x : Expansion} {p : Join (Held (Attribute Token))}
    (h : x.pairs.delivered = true → p = x.pairs) : x.Retains { x with pairs := p } :=
  ⟨rfl, rfl, fun _ _ hl _ => hl, h⟩

namespace Session

variable {σ : Type} {s t u : Session σ}

/-! ### What is left behind a failure -/

/-- The workers are the same, and what is settled in the first session stands in the
other. -/
structure Retains (s t : Session σ) : Prop where
  registry : t.registry = s.registry
  streams : ∀ (n : Nat) (x : Stream), s.streams[n]? = some x → x.join.delivered = true →
    t.streams[n]? = some x
  expansions : ∀ (n : Nat) (x : Expansion), s.expansions[n]? = some x →
    ∃ y, t.expansions[n]? = some y ∧ x.Retains y

theorem retains_of_eq (hr : t.registry = s.registry) (hs : t.streams = s.streams)
    (he : t.expansions = s.expansions) : Retains s t :=
  ⟨hr, fun _ _ hx _ => hs ▸ hx, fun _ x hx => ⟨x, he ▸ hx, .refl x⟩⟩

theorem Retains.refl (s : Session σ) : Retains s s := retains_of_eq rfl rfl rfl

theorem Retains.trans (h : Retains s t) (k : Retains t u) : Retains s u := by
  refine ⟨k.registry.trans h.registry, fun n x hx hd => ?_, fun n x hx => ?_⟩
  · exact k.streams n x (h.streams n x hx hd) hd
  · obtain ⟨y, hy, hxy⟩ := h.expansions n x hx
    obtain ⟨z, hz, hyz⟩ := k.expansions n y hy
    exact ⟨z, hz, hxy.trans hyz⟩

theorem Keeps.retains (h : Keeps s t) : Retains s t :=
  ⟨h.registry, fun n x hx _ => h.streams n x hx, fun n x hx => ⟨x, h.expansions n x hx, .refl x⟩⟩

theorem retains_setStream {n : Nat} {x : Stream} (hx : s.streams[n]? = some x)
    (hd : x.join.delivered = false) (y : Stream) : Retains s (s.setStream n y) := by
  refine ⟨rfl, fun m z hz hzd => ?_, fun m z hz => ⟨z, hz, .refl z⟩⟩
  have hne : n ≠ m := by
    rintro rfl
    obtain rfl := Option.some.inj (hx.symm.trans hz)
    rw [hd] at hzd
    cases hzd
  exact (Array.getElem?_setIfInBounds_ne hne).trans hz

theorem retains_setExpansion {n : Nat} {x y : Expansion} (hx : s.expansions[n]? = some x)
    (hxy : x.Retains y) : Retains s (s.setExpansion n y) := by
  refine ⟨rfl, fun m z hz _ => hz, fun m z hz => ?_⟩
  by_cases hne : n = m
  · subst hne
    obtain rfl := Option.some.inj (hx.symm.trans hz)
    exact ⟨y, Array.getElem?_setIfInBounds_self_of_lt (lt_size_of_some hx), hxy⟩
  · exact ⟨z, (Array.getElem?_setIfInBounds_ne hne).trans hz, .refl z⟩

/-- What work that comes to nothing leaves: scripts that are over, and all that was
settled before. -/
structure Leaves (s t : Session σ) : Prop where
  agenda : ∃ idle, Idle idle ∧ t.agenda = idle ++ s.agenda
  options : t.options = s.options
  events : t.events = s.events
  retains : Retains s t

theorem Leaves.refl (s : Session σ) : Leaves s s := ⟨⟨[], idle_nil, rfl⟩, rfl, rfl, .refl s⟩

theorem Keeps.leaves (h : Keeps s t) : Leaves s t := ⟨h.agenda, h.options, h.events, h.retains⟩

theorem Leaves.trans (h : Leaves s t) (k : Leaves t u) : Leaves s u := by
  obtain ⟨ks, hks, hk⟩ := h.agenda
  obtain ⟨ls, hls, hl⟩ := k.agenda
  refine ⟨⟨ls ++ ks, hls.append hks, ?_⟩, k.options.trans h.options, k.events.trans h.events,
    h.retains.trans k.retains⟩
  rw [hl, hk, List.append_assoc]

theorem Leaves.setAgenda {ks : List (Task σ)} (h : Leaves (s.push ks) t) :
    Leaves s (t.setAgenda s.agenda) :=
  ⟨⟨[], idle_nil, rfl⟩, h.options, h.events,
    ⟨h.retains.registry, h.retains.streams, h.retains.expansions⟩⟩

def Vanishes (s : Session σ) (ks : List (Task σ)) (i : IdSource) : Prop :=
  ∃ t, Leaves s t ∧ t.ids = i ∧ Runs (s.push ks) t

/-- The tasks come to nothing wherever all that is settled now still stands: from
some ids they leave others. -/
def Fades (s : Session σ) (i : IdSource) (ks : List (Task σ)) (j : IdSource) : Prop :=
  ∀ t, Retains s t → t.ids = i → Vanishes t ks j

theorem vanishes_idle {ks : List (Task σ)} (h : Idle ks) (s : Session σ) : s.Vanishes ks s.ids :=
  ⟨s, .refl s, rfl, runs_idle h s⟩

theorem fades_idle {ks : List (Task σ)} (h : Idle ks) (s : Session σ) (i : IdSource) :
    s.Fades i ks i := by
  rintro t - rfl
  exact vanishes_idle h t

theorem Fades.of_retains {i j : IdSource} {ks : List (Task σ)} (h : s.Fades i ks j)
    (hst : Retains s t) : t.Fades i ks j := fun u hu hi => h u (hst.trans hu) hi

theorem vanishes_append {i j : IdSource} {ks ls : List (Task σ)} (h : (s.push ls).Vanishes ks i)
    (k : s.Fades i ls j) : s.Vanishes (ks ++ ls) j := by
  obtain ⟨t, ht, rfl, hr⟩ := h
  obtain ⟨idle, hidle, ha⟩ := ht.agenda
  have hleaves := ht.setAgenda
  obtain ⟨u, hu, hj, hr'⟩ := k (t.setAgenda s.agenda) hleaves.retains rfl
  refine ⟨u, hleaves.trans hu, hj, ?_⟩
  rw [← push_push]
  refine hr.trans (Runs.trans ?_ hr')
  have hend := runs_idle hidle ((t.setAgenda s.agenda).push ls)
  have heq : ((t.setAgenda s.agenda).push ls).push idle = t := by
    cases t
    simp only [agenda_push] at ha
    simp only [push, Session.setAgenda, ha]
  rwa [heq] at hend

theorem Fades.append {i j k : IdSource} {ks ls : List (Task σ)} (h : s.Fades i ks j)
    (g : s.Fades j ls k) : s.Fades i (ks ++ ls) k := by
  intro t ht hi
  refine vanishes_append (h (t.push ls) ?_ hi) (g.of_retains ht)
  exact ⟨ht.registry, ht.streams, ht.expansions⟩

/-! ### Tasks and what they come to -/

variable {α β : Type}

/-- The tasks come to the work's result, which a task hands on; what is left behind
that fades, and a success leaves nothing behind.  All that stood in the session
`s₀` stands as it was, and `R` says what is known beside. -/
def Produces (s₀ s : Session σ) (ks : List (Task σ)) (last : Outcome α → Task σ)
    (w : Outcome α × IdSource) (R : Session σ → Prop) : Prop :=
  ∃ t rest, Keeps s₀ t ∧ R t ∧ Runs (s.push ks) (t.push (last w.1 :: rest)) ∧
    t.Fades t.ids rest w.2 ∧ ∀ a, w.1 = .ok a → rest = [] ∧ t.ids = w.2

def Any (_ : Session σ) : Prop := True

section Produces

variable {s₀ : Session σ} {last : Outcome α → Task σ} {w : Outcome α × IdSource}
  {R : Session σ → Prop}

theorem Produces.of_eq {k : Task σ} (hk : Keeps s₀ t) (hr : R t) (hi : t.ids = w.2)
    (h : s.perform k = t.push [last w.1]) : Produces s₀ s [k] last w R :=
  ⟨t, [], hk, hr, runs_perform h, hi ▸ fades_idle idle_nil t t.ids, fun _ _ => ⟨rfl, hi⟩⟩

theorem Produces.of_runs {ks ls : List (Task σ)} (h : Produces s₀ t ls last w R)
    (hr : Runs (s.push ks) (t.push ls)) : Produces s₀ s ks last w R := by
  obtain ⟨u, rest, hu, hR, hru, hrest⟩ := h
  exact ⟨u, rest, hu, hR, hr.trans hru, hrest⟩

theorem Produces.mono {ks : List (Task σ)} {s₁ : Session σ} (h : Produces s₀ s ks last w R)
    (hk : Keeps s₁ s₀) {Q : Session σ → Prop} (hR : ∀ t, Keeps s₀ t → R t → Q t) :
    Produces s₁ s ks last w Q := by
  obtain ⟨u, rest, hu, hr, hrest⟩ := h
  exact ⟨u, rest, hk.trans hu, hR u hu hr, hrest⟩

/-- The task that hands on a result may be told by what becomes of the result, if a
failure stays one. -/
theorem Produces.map {γ : Type} {ks : List (Task σ)} {h : Outcome α → Outcome γ}
    {next : Outcome γ → Task σ} (hy : Produces s₀ s ks (fun r => next (h r)) w R)
    (herror : ∀ e, ∃ e', h (.error e) = .error e') : Produces s₀ s ks next (h w.1, w.2) R := by
  obtain ⟨u, rest, hu, hr, hru, hf, hok⟩ := hy
  refine ⟨u, rest, hu, hr, hru, hf, fun c hc => ?_⟩
  cases hw : w.1 with
  | error e =>
    obtain ⟨e', he⟩ := herror e
    rw [hw, he] at hc
    cases hc
  | ok a => exact hok a hw

/-- A success is handed on by steps that produce something. -/
theorem Produces.ok_then {γ : Type} {ks : List (Task σ)} {a : α} (h : Produces s₀ s ks last w R)
    (ha : w.1 = .ok a) {next : Outcome γ → Task σ} {w' : Outcome γ × IdSource}
    {Q : Session σ → Prop}
    (k : ∀ t, Keeps s₀ t → R t → t.ids = w.2 → Produces s₀ t [last (.ok a)] next w' Q) :
    Produces s₀ s ks next w' Q := by
  obtain ⟨t, rest, ht, hR, hr, -, hok⟩ := h
  obtain ⟨rfl, hi⟩ := hok a ha
  rw [ha] at hr
  exact (k t ht hR hi).of_runs hr

/-- A failure is handed on at once, and the tasks behind it stay behind. -/
theorem Produces.error_then {γ : Type} {ks : List (Task σ)} {e c : ExpansionError}
    (h : Produces s₀ s ks last w R) (he : w.1 = .error e) {next : Outcome γ → Task σ}
    {Q : Session σ → Prop}
    (k : ∀ t, Keeps s₀ t → R t → ∃ t', Keeps s₀ t' ∧ Retains t t' ∧ t'.ids = t.ids ∧ Q t' ∧
      ∀ rest, (t.push rest).perform (last (.error e)) = (t'.push rest).push [next (.error c)]) :
    Produces s₀ s ks next (.error c, w.2) Q := by
  obtain ⟨t, rest, ht, hR, hr, hf, -⟩ := h
  obtain ⟨t', ht', hst, hi, hQ, hp⟩ := k t ht hR
  rw [he] at hr
  refine ⟨t', rest, ht', hQ, hr.trans ?_, ?_, fun a ha => by cases ha⟩
  · have := runs_perform (hp rest)
    rwa [push_push, push_push] at this
  · rw [hi]
    exact hf.of_retains hst

/-- What is handed to a place where it changes nothing vanishes with what is behind it. -/
theorem Produces.vanishes {ks : List (Task σ)} (h : Produces s s ks last w R)
    (absorbed : ∀ t, Retains s t → t.Vanishes [last w.1] t.ids) : s.Vanishes ks w.2 := by
  obtain ⟨t, rest, ht, -, hr, hf, -⟩ := h
  have hall : t.Vanishes ([last w.1] ++ rest) w.2 := by
    refine vanishes_append (absorbed (t.push rest) ?_) hf
    exact ⟨ht.retains.registry, ht.retains.streams, ht.retains.expansions⟩
  obtain ⟨u, hu, hi, hru⟩ := hall
  exact ⟨u, ht.leaves.trans hu, hi, hr.trans hru⟩

end Produces

/-! ### Joins that are filled in order -/

/-- The tasks `item` fill a join slot by slot: each produces what the work `f` on its
item comes to, `give` puts that into the slot, and `last` hands on what the join
delivers.  `At vs` says that the first slots are filled with `vs`, `Mid vs` that the
next item has been worked on, and `Shut` that the join is closed. -/
structure Row (s₀ : Session σ) (all : List β) (f : β → Work α) (item : Nat → Task σ)
    (give : Nat → Outcome α → Task σ) (last : Outcome (List α) → Task σ)
    (At Mid : List α → Session σ → Prop) (R Shut : Session σ → Prop) : Prop where
  stay : ∀ s vs ks, At vs s → At vs (s.setAgenda ks)
  stay_end : ∀ s ks, R s → R (s.setAgenda ks)
  stay_shut : ∀ s t, Shut s → Retains s t → Shut t
  ends : ∀ s vs, At vs s → R s
  produces : ∀ s vs ks a, Keeps (s₀.push ks) s → At vs s → all[vs.length]? = some a →
    Produces (s₀.push ks) s [item vs.length] (give vs.length) (f a s.ids) (Mid vs)
  /-- A value takes its slot, and the last one makes the join deliver. -/
  give_ok : ∀ s vs ks v, Keeps (s₀.push ks) s → Mid vs s → vs.length < all.length →
    ∃ t, Keeps (s₀.push ks) t ∧ At (vs ++ [v]) t ∧ t.ids = s.ids ∧
      s.perform (give vs.length (.ok v)) =
        t.push (if vs.length + 1 = all.length then [last (.ok (vs ++ [v]))] else [])
  give_error : ∀ s vs ks e, Keeps (s₀.push ks) s → Mid vs s → vs.length < all.length →
    ∃ t, Keeps (s₀.push ks) t ∧ Retains s t ∧ t.ids = s.ids ∧ (R t ∧ Shut t) ∧
      ∀ rest, (s.push rest).perform (give vs.length (.error e)) =
        (t.push rest).push [last (.error e)]
  /-- What comes into a closed join vanishes. -/
  shut : ∀ s i a, Shut s → all[i]? = some a → s.Vanishes [item i] (f a s.ids).2

namespace Row

variable {s₀ : Session σ} {all : List β} {f : β → Work α} {item : Nat → Task σ}
  {give : Nat → Outcome α → Task σ} {last : Outcome (List α) → Task σ}
  {At Mid : List α → Session σ → Prop} {R Shut : Session σ → Prop}

/-- The items from a slot on fade once the join is closed. -/
theorem fades (h : Row s₀ all f item give last At Mid R Shut) (m : Nat) :
    ∀ (n : Nat) (s : Session σ) (i : IdSource), n + m = all.length → Shut s →
      s.Fades i ((List.range' n m).map item) (sweep f (all.drop n) i).2 := by
  induction m with
  | zero =>
    intro n s i hn _
    rw [List.drop_eq_nil_of_le (by omega)]
    exact fades_idle idle_nil s i
  | succ m ih =>
    intro n s i hn hs
    have hlt : n < all.length := by omega
    rw [List.drop_eq_getElem_cons hlt, sweep_cons, List.range'_succ, List.map_cons]
    have first : s.Fades i [item n] (f all[n] i).2 := by
      rintro t ht rfl
      exact h.shut t n _ (h.stay_shut s t hs ht) (List.getElem?_eq_getElem hlt)
    exact first.append (ih (n + 1) s _ (by omega) hs)

theorem map_cons_map_append (v : α) (vs : List α) (r : Outcome (List α)) :
    (r.map (v :: ·)).map (vs ++ ·) = r.map ((vs ++ [v]) ++ ·) := by
  cases r with
  | error e => rfl
  | ok ws =>
    have : vs ++ v :: ws = (vs ++ [v]) ++ ws := by rw [List.append_assoc, List.singleton_append]
    exact congrArg Except.ok this

theorem produces_next (h : Row s₀ all f item give last At Mid R Shut) {vs : List α}
    (hk : Keeps s₀ s) (ha : s.agenda = s₀.agenda) (hvs : At vs s) (hlt : vs.length < all.length)
    (later : List (Task σ)) :
    Produces (s₀.push later) (s.push later) [item vs.length] (give vs.length)
      (f all[vs.length] s.ids) (Mid vs) :=
  h.produces (s.push later) vs later _ (hk.push ha later) (h.stay s vs _ hvs)
    (List.getElem?_eq_getElem hlt)

theorem push_items (s : Session σ) (item : Nat → Task σ) (n m : Nat) :
    (s.push ((List.range' (n + 1) m).map item)).push [item n] =
      s.push ((List.range' n (m + 1)).map item) := by
  rw [push_push, List.range'_succ, List.map_cons]
  rfl

/-- If the item of the next slot fails, the join closes and the later items fade. -/
theorem produces_failure (h : Row s₀ all f item give last At Mid R Shut) {m : Nat} {vs : List α}
    (hm : vs.length + (m + 1) = all.length) (hk : Keeps s₀ s) (ha : s.agenda = s₀.agenda)
    (hvs : At vs s) (hlt : vs.length < all.length) {e : ExpansionError}
    (he : (f all[vs.length] s.ids).1 = .error e) :
    Produces s₀ s ((List.range' vs.length (m + 1)).map item) last
      (.error e, (sweep f (all.drop (vs.length + 1)) (f all[vs.length] s.ids).2).2) R := by
  let later : List (Task σ) := (List.range' (vs.length + 1) m).map item
  have herror := (h.produces_next hk ha hvs hlt later).error_then (c := e)
    (Q := fun t => R t ∧ Shut t) he fun t ht hmid => h.give_error t vs later e ht hmid hlt
  obtain ⟨t, rest, ht, ⟨hR, hshut⟩, hr, hf, -⟩ := herror
  rw [push_items] at hr
  obtain ⟨idle, hidle, heq⟩ := ht.eq_push
  have hretains : Retains t (t.setAgenda s₀.agenda) := retains_of_eq rfl rfl rfl
  refine ⟨t.setAgenda s₀.agenda, rest ++ (idle ++ later), ht.of_push, h.stay_end _ _ hR, ?_, ?_,
    fun a ha => by cases ha⟩
  · have hpush : t.push (last (.error e) :: rest) =
        (t.setAgenda s₀.agenda).push (last (.error e) :: (rest ++ (idle ++ later))) := by
      rw [heq]
      simp only [push_push, Session.setAgenda]
      rfl
    exact hpush ▸ hr
  · refine (hf.of_retains hretains).append ((fades_idle hidle _ _).append ?_)
    exact h.fades m (vs.length + 1) _ _ (by omega) (h.stay_shut t _ hshut hretains)

/-- The items from a slot on come to what the work on them comes to, behind the values
of the slots before. -/
theorem produces_from (h : Row s₀ all f item give last At Mid R Shut) (m : Nat) :
    ∀ (s : Session σ) (vs : List α), vs.length + (m + 1) = all.length → Keeps s₀ s →
      s.agenda = s₀.agenda → At vs s →
      Produces s₀ s ((List.range' vs.length (m + 1)).map item) last
        ((sweep f (all.drop vs.length) s.ids).1.map (vs ++ ·),
          (sweep f (all.drop vs.length) s.ids).2) R := by
  induction m with
  | zero =>
    intro s vs hm hk ha hvs
    have hlt : vs.length < all.length := by omega
    rw [List.drop_eq_getElem_cons hlt]
    cases hv : (f all[vs.length] s.ids).1 with
    | error e =>
      rw [sweep_cons_error hv]
      exact h.produces_failure hm hk ha hvs hlt hv
    | ok v =>
      have hnil : all.drop (vs.length + 1) = [] := List.drop_eq_nil_of_le (by omega)
      rw [sweep_cons_ok hv, hnil]
      refine (h.produces_next hk ha hvs hlt []).ok_then hv fun t ht hmid hi => ?_
      obtain ⟨t', ht', hat, hi', hp⟩ := h.give_ok t vs [] v ht hmid hlt
      rw [if_pos (by omega)] at hp
      exact .of_eq ht' (h.ends _ _ hat) (hi'.trans hi) hp
  | succ m ih =>
    intro s vs hm hk ha hvs
    have hlt : vs.length < all.length := by omega
    rw [List.drop_eq_getElem_cons hlt]
    cases hv : (f all[vs.length] s.ids).1 with
    | error e =>
      rw [sweep_cons_error hv]
      exact h.produces_failure hm hk ha hvs hlt hv
    | ok v =>
      rw [sweep_cons_ok hv]
      let later : List (Task σ) := (List.range' (vs.length + 1) (m + 1)).map item
      obtain ⟨t, rest, ht, hmid, hr, -, hok⟩ := h.produces_next hk ha hvs hlt later
      obtain ⟨rfl, hi⟩ := hok v hv
      obtain ⟨t', ht', hat, hi', hp⟩ := h.give_ok t vs later v ht hmid hlt
      rw [if_neg (by omega), push_nil] at hp
      rw [hv, push_items] at hr
      have hlen : (vs ++ [v]).length = vs.length + 1 := by
        rw [List.length_append, List.length_singleton]
      have hrest := ih (t'.setAgenda s₀.agenda) (vs ++ [v]) (by omega) ht'.of_push rfl
        (h.stay t' _ _ hat)
      have hids : (t'.setAgenda s₀.agenda).ids = (f all[vs.length] s.ids).2 := hi'.trans hi
      rw [hlen, hids] at hrest
      rw [map_cons_map_append]
      exact hrest.of_runs (hr.trans ((runs_perform hp).trans ht'.runs))

/-- **The items of a row come to what the work on all of them comes to.** -/
theorem produces_all (h : Row s₀ all f item give last At Mid R Shut) (hne : all ≠ [])
    {s : Session σ} (hk : Keeps s₀ s) (ha : s.agenda = s₀.agenda) (hat : At [] s) :
    Produces s₀ s ((List.range all.length).map item) last (sweep f all s.ids) R := by
  have hpos := List.length_pos_iff.2 hne
  have hall := h.produces_from (all.length - 1) s [] (by rw [List.length_nil]; omega) hk ha hat
  have hnil : (sweep f all s.ids).1.map (([] : List α) ++ ·) = (sweep f all s.ids).1 := by
    cases (sweep f all s.ids).1 <;> rfl
  rwa [List.length_nil, List.drop_zero, hnil, Nat.sub_add_cancel hpos,
    ← List.range_eq_range'] at hall

end Row

end Session

end WikiExpansion
