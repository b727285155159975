import WikiExpansion.Proofs.Registrations
import WikiExpansion.Proofs.Runs

/-!
# Depth first and stage by stage

Handlers that answer at once by a function of the token and the options can be
run without a session, in two ways.  `walk` takes each token as far as it goes
before it takes the next one; `byStages` takes the whole stream through one
handler after the other.  They succeed on the same streams and then agree
(`walk_eq_ok_iff`), but where several tokens fail they may fail by different ones.

A session walks: `run_pipeline` says that a run of a pipeline of such handlers
comes to an end, with the result of the walk and so with its failure.
-/

namespace WikiExpansion

/-- What a handler answers by that looks at the options and the token only. -/
abbrev Answerer : Type := Options → Token → Outcome (List Token)

/-! ### Two ways to evaluate -/

def pass (o : Options) (r : Registration Answerer) (t : Token) : Outcome (List Token) :=
  if r.filter.accepts t.kind then r.handler o t else .ok [t]

/-- One handler after the other takes the whole stream as it stands then. -/
def byStages (o : Options) (rs : List (Registration Answerer)) (ts : List Token) :
    Outcome (List Token) :=
  rs.foldlM (fun ts r => ts.flatMapM (pass o r)) ts

/-- A token goes to the first handler that accepts it, and each token that comes
out goes on to the handlers after that one before the next is taken. -/
def walkToken (o : Options) : List (Registration Answerer) → Token → Outcome (List Token)
  | [], t => .ok [t]
  | r :: rs, t =>
    if r.filter.accepts t.kind then do (← r.handler o t).flatMapM (walkToken o rs)
    else walkToken o rs t

def walk (o : Options) (rs : List (Registration Answerer)) (ts : List Token) :
    Outcome (List Token) :=
  ts.flatMapM (walkToken o rs)

section

variable {α β : Type} {f : α → Outcome (List β)}

theorem bind_eq_ok_iff {x : Outcome α} {g : α → Outcome β} {b : β} :
    (x >>= g) = .ok b ↔ ∃ a, x = .ok a ∧ g a = .ok b := by
  cases x with
  | error e =>
    constructor
    · exact fun h => by cases h
    · rintro ⟨a, ha, -⟩
      cases ha
  | ok a =>
    constructor
    · exact fun h => ⟨a, rfl, h⟩
    · rintro ⟨a', ha, h⟩
      obtain rfl := Except.ok.inj ha
      exact h

theorem flatMapM_cons_eq_ok_iff {a : α} {as : List α} {out : List β} :
    (a :: as).flatMapM f = .ok out ↔
      ∃ x y, f a = .ok x ∧ as.flatMapM f = .ok y ∧ x ++ y = out := by
  rw [List.flatMapM_cons, bind_eq_ok_iff]
  constructor
  · rintro ⟨x, hx, h⟩
    obtain ⟨y, hy, h⟩ := bind_eq_ok_iff.1 h
    exact ⟨x, y, hx, hy, Except.ok.inj h⟩
  · rintro ⟨x, y, hx, hy, rfl⟩
    exact ⟨x, hx, bind_eq_ok_iff.2 ⟨y, hy, rfl⟩⟩

theorem flatMapM_append_eq_ok_iff {as bs : List α} {out : List β} :
    (as ++ bs).flatMapM f = .ok out ↔
      ∃ x y, as.flatMapM f = .ok x ∧ bs.flatMapM f = .ok y ∧ x ++ y = out := by
  induction as generalizing out with
  | nil =>
    rw [List.nil_append, List.flatMapM_nil]
    constructor
    · exact fun h => ⟨[], out, rfl, h, rfl⟩
    · rintro ⟨x, y, hx, hy, rfl⟩
      obtain rfl := Except.ok.inj hx
      exact hy
  | cons a as ih =>
    rw [List.cons_append, flatMapM_cons_eq_ok_iff]
    constructor
    · rintro ⟨x, w, hx, hw, rfl⟩
      obtain ⟨y, z, hy, hz, rfl⟩ := ih.1 hw
      exact ⟨x ++ y, z, flatMapM_cons_eq_ok_iff.2 ⟨x, y, hx, hy, rfl⟩, hz, List.append_assoc ..⟩
    · rintro ⟨w, z, hw, hz, rfl⟩
      obtain ⟨x, y, hx, hy, rfl⟩ := flatMapM_cons_eq_ok_iff.1 hw
      exact ⟨x, y ++ z, hx, ih.2 ⟨y, z, hy, hz, rfl⟩, (List.append_assoc ..).symm⟩

/-- **Two passes over a stream**: to do the second on what the first gives for each
item is to do it after the first is over. -/
theorem flatMapM_bind_eq_ok_iff {γ : Type} {g : β → Outcome (List γ)} {as : List α}
    {out : List γ} :
    as.flatMapM (fun a => f a >>= fun bs => bs.flatMapM g) = .ok out ↔
      ∃ mid, as.flatMapM f = .ok mid ∧ mid.flatMapM g = .ok out := by
  induction as generalizing out with
  | nil =>
    rw [List.flatMapM_nil, List.flatMapM_nil]
    constructor
    · exact fun h => ⟨[], rfl, h⟩
    · rintro ⟨mid, hmid, h⟩
      obtain rfl := Except.ok.inj hmid
      exact h
  | cons a as ih =>
    rw [flatMapM_cons_eq_ok_iff]
    constructor
    · rintro ⟨x, y, hx, hy, rfl⟩
      obtain ⟨u, hu, hx⟩ := bind_eq_ok_iff.1 hx
      obtain ⟨v, hv, hy⟩ := ih.1 hy
      exact ⟨u ++ v, flatMapM_cons_eq_ok_iff.2 ⟨u, v, hu, hv, rfl⟩,
        flatMapM_append_eq_ok_iff.2 ⟨x, y, hx, hy, rfl⟩⟩
    · rintro ⟨mid, hmid, h⟩
      obtain ⟨u, v, hu, hv, rfl⟩ := flatMapM_cons_eq_ok_iff.1 hmid
      obtain ⟨x, y, hx, hy, rfl⟩ := flatMapM_append_eq_ok_iff.1 h
      exact ⟨x, y, bind_eq_ok_iff.2 ⟨u, hu, hx⟩, ih.2 ⟨v, hv, hy⟩, rfl⟩

end

variable {o : Options}

theorem walkToken_cons (o : Options) (r : Registration Answerer)
    (rs : List (Registration Answerer)) (t : Token) :
    walkToken o (r :: rs) t = pass o r t >>= walk o rs := by
  rw [walkToken, pass]
  split
  · rfl
  · show _ = [t].flatMapM (walkToken o rs)
    rw [List.flatMapM_cons, List.flatMapM_nil]
    cases walkToken o rs t with
    | error e => rfl
    | ok us => exact congrArg Except.ok (List.append_nil us).symm

theorem walk_nil (ts : List Token) : walk o [] ts = .ok ts := by
  induction ts with
  | nil => rfl
  | cons t ts ih => exact flatMapM_cons_eq_ok_iff.2 ⟨[t], ts, rfl, ih, rfl⟩

/-- **The walk succeeds where the stages do, and with the same tokens.** -/
theorem walk_eq_ok_iff {rs : List (Registration Answerer)} {ts out : List Token} :
    walk o rs ts = .ok out ↔ byStages o rs ts = .ok out := by
  induction rs generalizing ts with
  | nil => rw [walk_nil]; rfl
  | cons r rs ih =>
    have hcons : walkToken o (r :: rs) = fun t => pass o r t >>= fun us =>
        us.flatMapM (walkToken o rs) := funext fun t => walkToken_cons o r rs t
    rw [walk, hcons, flatMapM_bind_eq_ok_iff, byStages, List.foldlM_cons, bind_eq_ok_iff]
    exact exists_congr fun mid => and_congr_right fun _ => ih

/-- Of a text and a line break that are both refused, the walk fails by the text, and
the stages by the line break, which is refused by the handler before. -/
example :
    let refusing (name : String) (n : Nat) (k : Kind) : Registration Answerer :=
      ⟨name, ⟨.templates, n⟩, .only k, fun _ _ => .error (.handler name "refused")⟩
    let rs := [refusing "breaks" 0 .newline, refusing "texts" 1 .text]
    walk {} rs [.text "a", .newline] = .error (.handler "texts" "refused") ∧
      byStages {} rs [.text "a", .newline] = .error (.handler "breaks" "refused") :=
  ⟨rfl, rfl⟩

/-! ### The next handler -/

theorem walkToken_append {skipped : List (Registration Answerer)} {t : Token}
    (h : ∀ r ∈ skipped, r.filter.accepts t.kind = false) (rs : List (Registration Answerer)) :
    walkToken o (skipped ++ rs) t = walkToken o rs t := by
  induction skipped with
  | nil => rfl
  | cons r skipped ih =>
    rw [List.cons_append, walkToken, h r List.mem_cons_self, if_neg Bool.false_ne_true]
    exact ih fun r hr => h r (List.mem_cons_of_mem _ hr)

theorem walkToken_of_next?_eq_none {g : Registry Answerer} {p : Option Position} {t : Token}
    (h : g.next? p t.kind = none) : walkToken o (g.after p) t = .ok [t] := by
  have := walkToken_append (o := o) (Registry.next?_eq_none h) []
  rwa [List.append_nil] at this

theorem walkToken_of_next? {g : Registry Answerer} (hg : g.Ordered) {p : Option Position}
    {t : Token} {r : Registration Answerer} (h : g.next? p t.kind = some r) :
    walkToken o (g.after p) t = r.handler o t >>= walk o (g.after (some r.position)) := by
  obtain ⟨skipped, hskip, hr, he⟩ := hg.after_eq h
  rw [he, walkToken_append hskip, walkToken, if_pos hr]
  rfl

namespace Session

variable {σ : Type} {s t u : Session σ} {g : Registry Answerer}

/-! ### What is left behind a failure

A stream that fails hands on the failure at once, but the rest of its tokens are
still offered.  What comes of them is filled into a join that is closed. -/

/-- The handlers are those of the other session, and the streams that are closed
there are closed in the same way here. -/
structure Inherits (s u : Session σ) : Prop where
  registry : u.registry = s.registry
  closed : ∀ (n : Nat) (x : Stream), s.streams[n]? = some x → x.join.delivered = true →
    u.streams[n]? = some x

/-- Tasks that come to nothing in every session that inherits from this one. -/
def Spent (s : Session σ) (ks : List (Task σ)) : Prop :=
  ∀ u, Inherits s u → ∃ v, Keeps u v ∧ Runs (u.push ks) v

theorem Inherits.refl (s : Session σ) : Inherits s s := ⟨rfl, fun _ _ h _ => h⟩

theorem Inherits.trans (h : Inherits s t) (k : Inherits t u) : Inherits s u :=
  ⟨k.registry.trans h.registry, fun n x hx hd => k.closed n x (h.closed n x hx hd) hd⟩

theorem Keeps.inherits (h : Keeps s t) : Inherits s t :=
  ⟨h.registry, fun n x hx _ => h.streams n x hx⟩

theorem inherits_setStream {n : Nat} {x : Stream} (hx : s.streams[n]? = some x)
    (hd : x.join.delivered = false) (y : Stream) : Inherits s (s.setStream n y) := by
  refine ⟨rfl, fun m z hz hzd => ?_⟩
  have hne : n ≠ m := by
    rintro rfl
    obtain rfl := Option.some.inj (hx.symm.trans hz)
    rw [hd] at hzd
    cases hzd
  exact (Array.getElem?_setIfInBounds_ne hne).trans hz

theorem Spent.of_inherits {ks : List (Task σ)} (h : Spent s ks) (hst : Inherits s t) :
    Spent t ks :=
  fun u hu => h u (hst.trans hu)

theorem spent_idle {ks : List (Task σ)} (h : Idle ks) (s : Session σ) : Spent s ks :=
  fun u _ => ⟨u, .refl u, runs_idle h u⟩

theorem Spent.append {ks ls : List (Task σ)} (h : Spent s ks) (k : Spent s ls) :
    Spent s (ks ++ ls) := by
  intro u hu
  obtain ⟨v, hv, hr⟩ := h (u.push ls) ⟨hu.registry, hu.closed⟩
  obtain ⟨w, hw, hr'⟩ := k (v.setAgenda u.agenda) (hu.trans hv.of_push.inherits)
  refine ⟨w, hv.of_push.trans hw, ?_⟩
  rw [← push_push]
  exact hr.trans (hv.runs.trans hr')

/-- A task comes to the result `r` for the target `g`, and what is left behind the
delivery is spent; a success leaves nothing behind. -/
def Settles (s : Session σ) (ks : List (Task σ)) (g : Target) (r : Outcome (List Token)) : Prop :=
  ∃ t rest, Keeps s t ∧ Runs (s.push ks) (t.push (.deliver g r :: rest)) ∧ Spent t rest ∧
    ∀ out, r = .ok out → rest = []

theorem Settles.of_eq {k : Task σ} {g : Target} {r : Outcome (List Token)} (hk : Keeps s t)
    (h : s.perform k = t.push [.deliver g r]) : s.Settles [k] g r :=
  ⟨t, [], hk, runs_perform h, spent_idle idle_nil t, fun _ _ => rfl⟩

theorem Settles.of_runs {ks ls : List (Task σ)} {g : Target} {r : Outcome (List Token)}
    (h : t.Settles ls g r) (hk : Keeps s t) (hr : Runs (s.push ks) (t.push ls)) :
    s.Settles ks g r := by
  obtain ⟨u, rest, hu, hru, hrest⟩ := h
  exact ⟨u, rest, hk.trans hu, hr.trans hru, hrest⟩

theorem Settles.into_closed {k : Task σ} {n i : Nat} {r : Outcome (List Token)}
    (h : s.Settles [k] (.chunk n i) r) {x : Stream} (hx : s.streams[n]? = some x)
    (hd : x.join.delivered = true) : ∃ v, Keeps s v ∧ Runs (s.push [k]) v := by
  obtain ⟨t, rest, ht, hr, hrest, -⟩ := h
  obtain ⟨v, hv, hrv⟩ := hrest t (.refl t)
  have hp : (t.push rest).perform (.deliver (.chunk n i) r) = t.push rest :=
    perform_deliver_closed (s := t.push rest) (ht.streams n x hx) hd i r
  have := runs_perform hp
  rw [push_push] at this
  exact ⟨v, ht.trans hv, hr.trans (this.trans hrv)⟩

def offersFrom (n : Nat) (o : Options) (p : Option Position) (i : Nat) (ts : List Token) :
    List (Task σ) :=
  ts.mapIdx fun j t => .offer t o p (.chunk n (i + j))

theorem offers_eq_offersFrom (n : Nat) (ts : List Token) (o : Options) (p : Option Position) :
    (offers n ts o p : List (Task σ)) = offersFrom n o p 0 ts := by
  simp only [offers, offersFrom, Nat.zero_add]

theorem offersFrom_cons (n : Nat) (o : Options) (p : Option Position) (i : Nat) (t : Token)
    (ts : List Token) :
    (offersFrom n o p i (t :: ts) : List (Task σ)) =
      .offer t o p (.chunk n i) :: offersFrom n o p (i + 1) ts := by
  rw [offersFrom, List.mapIdx_cons, offersFrom]
  congr 1
  exact congrArg (List.mapIdx · ts) (funext fun j => by rw [Nat.add_comm j 1, ← Nat.add_assoc])

section

variable {o : Options} {p : Option Position} {f : Token → Outcome (List Token)}

/-- In sessions with the given handlers, offers after a position settle with `f`. -/
def OffersSettle (σ : Type) (g : Registry Answerer) (o : Options) (p : Option Position)
    (f : Token → Outcome (List Token)) : Prop :=
  ∀ (s : Session σ) (t : Token) (a : Target), s.registry = g.map Handler.ofFunction →
    s.Settles [.offer t o p a] a (f t)

theorem spent_offersFrom (hf : OffersSettle σ g o p f) {n : Nat} {x : Stream}
    (hs : s.registry = g.map Handler.ofFunction) (hx : s.streams[n]? = some x)
    (hd : x.join.delivered = true) (i : Nat) (ts : List Token) :
    Spent s (offersFrom n o p i ts) := by
  induction ts generalizing i with
  | nil => exact spent_idle idle_nil s
  | cons t ts ih =>
    rw [offersFrom_cons]
    have first : Spent s [.offer t o p (.chunk n i)] := fun u hu =>
      (hf u t (.chunk n i) (hu.registry.trans hs)).into_closed (hu.closed n x hx hd) hd
    exact first.append (ih (i + 1))

/-- A failure in an open stream that was added since is handed on, and the work that
stood behind it comes to nothing if it does so once the stream is closed. -/
theorem runs_failure {s₀ : Session σ} {later rest : List (Task σ)}
    (ht : Keeps (s₀.push later) t) {n : Nat} (hn : s₀.streams[n]? = none) {x : Stream}
    (hx : t.streams[n]? = some x) (hd : x.join.delivered = false) (hrest : Spent t rest)
    (hlater : ∀ (u : Session σ) (y : Stream), u.registry = t.registry →
      u.streams[n]? = some y → y.join.delivered = true → Spent u later)
    (i : Nat) (e : ExpansionError) :
    ∃ u left, Keeps s₀ u ∧ Spent u left ∧
      Runs (t.push (.deliver (.chunk n i) (.error e) :: rest))
        (u.push (.deliver x.target (.error e) :: left)) := by
  let y : Stream := { x with join := { x.join with delivered := true } }
  have hnext : Keeps (s₀.push later) (t.setStream n y) := ht.setStream hn y
  have hy : (t.setStream n y).streams[n]? = some y :=
    Array.getElem?_setIfInBounds_self_of_lt (lt_size_of_some hx)
  obtain ⟨idle, hidle, he⟩ := hnext.eq_push
  let u : Session σ := (t.setStream n y).setAgenda s₀.agenda
  have htu : Inherits t u := ⟨rfl, (inherits_setStream hx hd y).closed⟩
  refine ⟨u, rest ++ (idle ++ later), hnext.of_push, ?_, ?_⟩
  · exact (hrest.of_inherits htu).append ((spent_idle hidle u).append (hlater u y rfl hy rfl))
  · have hstep := runs_perform (perform_deliver_error (s := t.push rest) hx hd i e)
    rw [push_push] at hstep
    have hend : u.push (.deliver x.target (.error e) :: (rest ++ (idle ++ later))) =
        ((t.push rest).setStream n y).push [.deliver x.target (.error e)] := by
      have : u.push (.deliver x.target (.error e) :: (rest ++ (idle ++ later))) =
          (u.push (idle ++ later)).push (.deliver x.target (.error e) :: rest) := by
        rw [push_push, List.cons_append]
      rw [this, ← he]
      rfl
    exact hend ▸ hstep

/-- **The tokens of a stream settle in their order**, up to the first that fails. -/
theorem settles_offersFrom (hf : OffersSettle σ g o p f) {s₀ : Session σ} {n : Nat}
    (hn : s₀.streams[n]? = none) {ts : List Token} {k : Option Handle} {a : Target}
    (todo : List Token) : ∀ (s : Session σ) (vs : List (List Token)), todo ≠ [] →
      vs.length + todo.length = ts.length → Keeps s₀ s → s.agenda = s₀.agenda →
      s.registry = g.map Handler.ofFunction →
      s.streams[n]? = some ⟨ts, k, .partly ts.length vs, a⟩ →
      ∃ t rest, Keeps s₀ t ∧
        Runs (s.push (offersFrom n o p vs.length todo))
          (t.push (.deliver a ((todo.flatMapM f).map (vs.flatten ++ ·)) :: rest)) ∧
        Spent t rest ∧ ∀ out, todo.flatMapM f = .ok out → rest = [] := by
  induction todo with
  | nil => exact fun _ _ h => absurd rfl h
  | cons b bs ih =>
    intro s vs _ hlen hk ha hs hx
    rw [List.length_cons] at hlen
    let later : List (Task σ) := offersFrom n o p (vs.length + 1) bs
    -- the first token, before the others
    obtain ⟨t, rest, ht, hr, hrest, hclean⟩ := hf (s.push later) b (.chunk n vs.length) hs
    rw [push_push, List.singleton_append, ← offersFrom_cons] at hr
    have hxt : t.streams[n]? = some ⟨ts, k, .partly ts.length vs, a⟩ := ht.streams n _ hx
    have hkt : Keeps (s₀.push later) t := (hk.push ha later).trans ht
    cases hb : f b with
    | error e =>
      rw [hb] at hr
      have hval : (b :: bs).flatMapM f = .error e := by
        rw [List.flatMapM_cons, hb]
        rfl
      obtain ⟨u, left, hu, hleft, hru⟩ := runs_failure hkt hn hxt (decide_eq_false (by omega))
        hrest (fun u y hreg hy hd => spent_offersFrom hf (hreg.trans (ht.registry.trans hs)) hy hd
          _ bs) vs.length e
      rw [hval]
      exact ⟨u, left, hu, hr.trans hru, hleft, fun out hout => by cases hout⟩
    | ok v =>
      rw [hb] at hr
      obtain rfl := hclean v hb
      have hval : ((b :: bs).flatMapM f).map (vs.flatten ++ ·) =
          (bs.flatMapM f).map ((vs ++ [v]).flatten ++ ·) := by
        rw [List.flatMapM_cons, hb, List.flatten_append, List.flatten_singleton]
        cases bs.flatMapM f with
        | error e => rfl
        | ok w => exact congrArg Except.ok (List.append_assoc ..).symm
      let next : Session σ := t.setStream n ⟨ts, k, .partly ts.length (vs ++ [v]), a⟩
      have hnext : Keeps (s₀.push later) next := hkt.setStream hn _
      have hstep := hr.trans (runs_perform (perform_deliver_chunk hxt (by omega) v))
      rw [hval]
      cases hbs : bs with
      | nil =>
        subst hbs
        rw [if_pos (by exact hlen)] at hstep
        refine ⟨next, [], hnext, ?_, spent_idle idle_nil next, fun _ _ => rfl⟩
        rw [← List.append_nil (vs ++ [v]).flatten] at hstep
        rw [List.flatMapM_nil]
        exact hstep
      | cons c cs =>
        rw [← hbs]
        have hne : vs.length + 1 ≠ ts.length := by
          rw [hbs, List.length_cons] at hlen
          omega
        have hlen' : (vs ++ [v]).length = vs.length + 1 := List.length_append
        rw [if_neg hne, push_nil] at hstep
        obtain ⟨u, left, hu, hru, hleft, hnone⟩ := ih (next.setAgenda s₀.agenda) (vs ++ [v])
          (hbs ▸ List.cons_ne_nil c cs) (by omega) hnext.of_push rfl
          (ht.registry.trans hs) (Array.getElem?_setIfInBounds_self_of_lt (lt_size_of_some hxt))
        rw [hlen'] at hru
        refine ⟨u, left, hu, hstep.trans (hnext.runs.trans hru), hleft, fun out hout => ?_⟩
        obtain ⟨-, w, -, hw, -⟩ := flatMapM_cons_eq_ok_iff.1 hout
        exact hnone w hw

theorem settles_stream (hf : OffersSettle σ g o p f) (hs : s.registry = g.map Handler.ofFunction)
    (ts : List Token) (k : Option Handle) (a : Target) :
    s.Settles [.stream ts o p k a] a (ts.flatMapM f) := by
  cases hts : ts with
  | nil => exact .of_eq (.addStream s _) rfl
  | cons b bs =>
    rw [← hts]
    have hx : (s.addStream (newStream ts k a)).streams[s.streams.size]? =
        some ⟨ts, k, .partly ts.length [], a⟩ := by
      rw [← Join.new_eq_partly]
      exact Array.getElem?_push_size
    obtain ⟨t, rest, ht, hr, hrest, hclean⟩ := settles_offersFrom hf
      (Array.getElem?_eq_none (Nat.le_refl _)) ts (s.addStream (newStream ts k a)) []
      (hts ▸ List.cons_ne_nil b bs) (Nat.zero_add _) (.addStream s _) rfl hs hx
    have hmap : (ts.flatMapM f).map (([] : List (List Token)).flatten ++ ·) = ts.flatMapM f := by
      cases ts.flatMapM f <;> rfl
    rw [hmap, List.length_nil, ← offers_eq_offersFrom] at hr
    refine ⟨t, rest, ht, (runs_perform ?_).trans hr, hrest, hclean⟩
    rw [hts]
    rfl

end

/-! ### Offers and runs -/

/-- **Offers after a position settle with what the walk makes of the token**: by the
number of handlers that are left. -/
theorem offersSettle (hg : g.Ordered) (o : Options) (p : Option Position) :
    OffersSettle σ g o p (walkToken o (g.after p)) := by
  induction hm : (g.after p).length using Nat.strongRecOn generalizing p with
  | ind m ih =>
    intro s t a hs
    cases hn : g.next? p t.kind with
    | none =>
      have hreg : s.registry.next? p t.kind = none :=
        Registry.next?_of_eq_map hs hn
      rw [walkToken_of_next?_eq_none hn]
      refine .of_eq (.refl s) ?_
      exact Move.perform_eq (.pass hreg)
    | some r =>
      have hreg : s.registry.next? p t.kind = some (r.map Handler.ofFunction) :=
        Registry.next?_of_eq_map hs hn
      rw [walkToken_of_next? hg hn]
      let v : Invocation := ⟨t, o, r.position, a, none⟩
      let h : Handle := ⟨s.invocations.size⟩
      have hnone : s.invocations[h.index]? = none := Array.getElem?_eq_none (Nat.le_refl _)
      have hv : (s.addInvocation v).invocations[h.index]? = some v := Array.getElem?_push_size
      have hk := (Keeps.addInvocation s v).setAnswer hnone v (r.handler o t)
      -- the handler is called, answers, and the answer is taken
      have hanswer : Runs (s.push [.offer t o p a])
          ((s.addInvocation v).push [.deliver (.handle h) (r.handler o t)]) :=
        (runs_perform (Move.perform_eq (.invoke hreg))).trans (runs_perform rfl)
      cases hr : r.handler o t with
      | error e =>
        rw [hr] at hanswer hk
        have hfails : ((s.addInvocation v).setAnswer h v (.error e)).Settles
            [.deliver a (.error e)] a (.error e) :=
          ⟨_, [], .refl _, .refl _, spent_idle idle_nil _, fun _ _ => rfl⟩
        exact hfails.of_runs hk
          (hanswer.trans (runs_perform (Move.perform_eq (.failed hv rfl))))
      | ok us =>
        rw [hr] at hanswer hk
        have hlater := ih _ (hm ▸ Registry.length_after_lt hn) (some r.position) rfl
        have hstream := settles_stream hlater
          (s := (s.addInvocation v).setAnswer h v (.ok us)) hs us (some h) a
        exact hstream.of_runs hk
          (hanswer.trans (runs_perform (Move.perform_eq (.answered hv rfl))))

/-- **A session that has nothing to do runs to its end**, with the result of the
walk. -/
theorem exists_run_eq_walk (hg : g.Ordered) (hs : s.registry = g.map Handler.ofFunction)
    (ha : s.agenda = []) (hv : s.events = #[]) (ts : List Token) :
    ∃ n, ∀ m, n ≤ m →
      (s.run m ts).1 = walk s.options g.entries ts ∧ (s.run m ts).2.agenda = [] := by
  let r := walk s.options g.entries ts
  have hsettle : s.newJob.2.Settles [.stream ts s.options none none (.job s.jobs)]
      (.job s.jobs) r := by
    have := settles_stream (offersSettle (σ := σ) hg s.options none) (s := s.newJob.2) hs ts none
      (.job s.jobs)
    rwa [Registry.after_none] at this
  obtain ⟨t, rest, ht, hr, hrest, -⟩ := hsettle
  -- the result is reported, and what is left behind it comes to nothing
  obtain ⟨u, hu, hru⟩ := hrest (t.report (.finished s.jobs r)) ⟨rfl, fun _ _ h _ => h⟩
  have hreport : Runs (t.push (.deliver (.job s.jobs) r :: rest))
      ((t.report (.finished s.jobs r)).push rest) := .of_step ⟨0, rfl⟩
  obtain ⟨ks, hks, htk⟩ := ht.agenda
  obtain ⟨ls, hls, hul⟩ := hu.agenda
  have hidle : Idle u.agenda := by
    rw [hul, show (t.report (.finished s.jobs r)).agenda = ks ++ s.agenda from htk, ha,
      List.append_nil]
    exact hls.append hks
  obtain ⟨n, hn⟩ := hr.trans (hreport.trans (hru.trans (runs_of_idle hidle)))
  have hend : ((s.process ts none).2.settle n).agenda = [] := congrArg agenda hn
  have hevents : u.events = #[.finished s.jobs r] := by
    rw [hu.events, events_report, ht.events]
    exact congrArg (Array.push · (Event.finished s.jobs r)) hv
  refine ⟨n, fun m hm => ?_⟩
  have hm := (settle_of_le hend hm).trans hn
  refine ⟨?_, congrArg agenda hm⟩
  rw [fst_run, hm]
  simp [result?, setAgenda, hevents, r]

end Session

/-! ### Pipelines -/

/-- A handler that answers at once, with what it is registered by. -/
structure PureHandler where
  name : String
  rank : Rank
  filter : Filter
  answer : Answerer

namespace PureHandler

def registration (h : PureHandler) (n : Nat) : Registration Answerer :=
  ⟨h.name, ⟨h.rank, n⟩, h.filter, h.answer⟩

def registerAll (g : Registry Answerer) (hs : List PureHandler) : Registry Answerer :=
  hs.foldl (fun g h => g.register h.name h.rank h.filter h.answer) g

def dispatchOrder (hs : List PureHandler) : List (Registration Answerer) :=
  (registerAll {} hs).entries

theorem ordered_registerAll {g : Registry Answerer} (hg : g.Ordered) (hs : List PureHandler) :
    (registerAll g hs).Ordered := by
  induction hs generalizing g with
  | nil => exact hg
  | cons h hs ih => exact ih (hg.register ..)

/-- They stand by rank, and by the number of their registration where ranks are equal. -/
theorem dispatchOrder_sorted (hs : List PureHandler) :
    (dispatchOrder hs).Pairwise fun a b => a.position.Before b.position :=
  (ordered_registerAll Registry.ordered_empty hs).sorted

def call (h : PureHandler) : Registry.Call Answerer := ⟨h.name, h.rank, h.filter, h.answer⟩

theorem registerAll_eq (hs : List PureHandler) :
    registerAll {} hs = Registry.registerAll (hs.map call) := by
  rw [Registry.registerAll, List.foldl_map]
  rfl

/-- Each handler stands in it once, with the number of its registration. -/
theorem dispatchOrder_perm (hs : List PureHandler) :
    (dispatchOrder hs).Perm (hs.zipIdx.map fun x => x.1.registration x.2) := by
  have h := Registry.perm_registerAll (hs.map call)
  rw [← registerAll_eq, Registry.registrations, List.zipIdx_map, List.map_map] at h
  exact h

end PureHandler

namespace Session

variable {σ : Type}

def purePipeline (ids : IdSource) (o : Options) (m : σ) (hs : List PureHandler) : Session σ :=
  hs.foldl (fun s h => s.register h.name h.rank h.filter (Handler.ofFunction h.answer))
    (.new ids o m)

theorem purePipeline_eq (ids : IdSource) (o : Options) (m : σ) (hs : List PureHandler) :
    purePipeline ids o m hs = { Session.new ids o m with
      registry := (PureHandler.registerAll {} hs).map Handler.ofFunction } := by
  have (g : Registry Answerer) : hs.foldl
      (fun s h => s.register h.name h.rank h.filter (Handler.ofFunction h.answer))
      { Session.new ids o m with registry := g.map Handler.ofFunction } =
      { Session.new ids o m with
        registry := (PureHandler.registerAll g hs).map Handler.ofFunction } := by
    induction hs generalizing g with
    | nil => rfl
    | cons h hs ih =>
      have := ih (g.register h.name h.rank h.filter h.answer)
      rw [Registry.map_register] at this
      exact this
  exact this {}

open PureHandler (dispatchOrder)

/-- **A pipeline of handlers that answer at once walks**: every run comes to an end
with the result of the walk, and it is a success where taking the stream through one
handler after the other is, with the same tokens. -/
theorem run_pipeline (ids : IdSource) (o : Options) (m : σ) (hs : List PureHandler)
    (ts : List Token) :
    ∃ n, ∀ k, n ≤ k →
      ((purePipeline ids o m hs).run k ts).2.agenda = [] ∧
      ((purePipeline ids o m hs).run k ts).1 = walk o (dispatchOrder hs) ts ∧
      ∀ out, ((purePipeline ids o m hs).run k ts).1 = .ok out ↔
        byStages o (dispatchOrder hs) ts = .ok out := by
  obtain ⟨n, hn⟩ := exists_run_eq_walk (s := purePipeline ids o m hs)
    (PureHandler.ordered_registerAll Registry.ordered_empty hs) (by rw [purePipeline_eq])
    (by rw [purePipeline_eq]; rfl) (by rw [purePipeline_eq]; rfl) ts
  have ho : (purePipeline ids o m hs).options = o := by rw [purePipeline_eq]; rfl
  refine ⟨n, fun k hk => ?_⟩
  obtain ⟨hwalk, hend⟩ := hn k hk
  rw [ho] at hwalk
  exact ⟨hend, hwalk, fun out => by rw [hwalk]; exact walk_eq_ok_iff⟩

end Session

end WikiExpansion
