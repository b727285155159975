import WikiExpansion.Proofs.Walk
import WikiExpansion.Proofs.Produces

/-!
# Workers at work

The three joins of a session are rows (`row_stream`, `row_sides`, `row_pairs`).  So
in a session of workers an offer produces what the work on its token comes to, by the
number of workers that are left (`offersProduce`), and a stream what the work on it
comes to, by the depth of its tokens (`runsProduce`).
-/

namespace WikiExpansion

namespace Session

variable {σ : Type} {s t u : Session σ} {g : Registry Worker}

def Employs (s : Session σ) (g : Registry Worker) : Prop := s.registry = g.map Worker.handler

theorem Keeps.employs (h : Keeps s t) (hs : s.Employs g) : t.Employs g := h.registry.trans hs

theorem Retains.employs (h : Retains s t) (hs : s.Employs g) : t.Employs g := h.registry.trans hs

/-! ### Streams -/

section Streams

variable {o : Options} {p : Option Position} {D : Token → Prop} {f : Token → Work (List Token)}

/-- Offers of the tokens that `D` admits, after a position, produce what the work
`f` on them comes to. -/
def OffersProduce (σ : Type) (g : Registry Worker) (o : Options) (p : Option Position)
    (D : Token → Prop) (f : Token → Work (List Token)) : Prop :=
  ∀ (s : Session σ) (t : Token) (a : Target), s.Employs g → D t →
    Produces s s [.offer t o p a] (.deliver a) (f t s.ids) Any

theorem row_stream (hf : OffersProduce σ g o p D f) {s₀ : Session σ} (hs : s₀.Employs g) {n : Nat}
    (hn : s₀.streams[n]? = none) {ts : List Token} (hD : ∀ t ∈ ts, D t) (k : Option Handle)
    (a : Target) :
    Row s₀ ts f (fun i => .offer (ts[i]?.getD default) o p (.chunk n i))
      (fun i r => .deliver (.chunk n i) r) (fun r => .deliver a (r.map List.flatten))
      (fun vs s => s.streams[n]? = some ⟨ts, k, .partly ts.length vs, a⟩)
      (fun vs s => s.streams[n]? = some ⟨ts, k, .partly ts.length vs, a⟩) Any
      (fun s => s.Employs g ∧ ∃ x, s.streams[n]? = some x ∧ x.join.delivered = true) where
  stay _ _ _ h := h
  stay_end _ _ _ := trivial
  stay_shut := by
    rintro s t ⟨hs, x, hx, hd⟩ hst
    exact ⟨hst.employs hs, x, hst.streams n x hx hd, hd⟩
  ends _ _ _ := trivial
  produces := by
    intro s vs ks b hk hat hb
    have hoffer := hf s b (.chunk n vs.length) (hk.registry.trans hs)
      (hD b (List.mem_of_getElem? hb))
    rw [hb]
    exact hoffer.mono hk fun t ht _ => ht.streams n _ hat
  give_ok := by
    intro s vs ks v hk hat hlt
    refine ⟨s.setStream n ⟨ts, k, .partly ts.length (vs ++ [v]), a⟩, hk.setStream hn _, ?_, rfl,
      perform_deliver_chunk hat hlt v⟩
    exact Array.getElem?_setIfInBounds_self_of_lt (lt_size_of_some hat)
  give_error := by
    intro s vs ks e hk hat hlt
    have hd : (Join.partly ts.length vs).delivered = false := decide_eq_false (by omega)
    let y : Stream := ⟨ts, k, { Join.partly ts.length vs with delivered := true }, a⟩
    have hy : (s.setStream n y).streams[n]? = some y :=
      Array.getElem?_setIfInBounds_self_of_lt (lt_size_of_some hat)
    exact ⟨s.setStream n y, hk.setStream hn y, retains_setStream hat hd y, rfl,
      ⟨trivial, hk.registry.trans hs, y, hy, rfl⟩,
      fun rest => perform_deliver_error (s := s.push rest) hat hd vs.length e⟩
  shut := by
    rintro s i b ⟨hs, x, hx, hd⟩ hb
    have hoffer := hf s b (.chunk n i) hs (hD b (List.mem_of_getElem? hb))
    rw [hb]
    refine hoffer.vanishes fun t ht => ?_
    exact ⟨t, .refl t, rfl, runs_perform (perform_deliver_closed (ht.streams n x hx hd) hd i _)⟩

theorem produces_stream_of_offers (hf : OffersProduce σ g o p D f) (hs : s.Employs g)
    {ts : List Token} (hD : ∀ t ∈ ts, D t) (k : Option Handle) (a : Target) :
    Produces s s [.stream ts o p k a] (.deliver a) (streamWork f ts s.ids) Any := by
  cases hts : ts with
  | nil => exact .of_eq (.addStream s _) trivial rfl rfl
  | cons b bs =>
    rw [← hts]
    have hrow := row_stream hf hs (Array.getElem?_eq_none (Nat.le_refl s.streams.size)) hD k a
    have hnew : (s.addStream (newStream ts k a)).streams[s.streams.size]? =
        some ⟨ts, k, .partly ts.length [], a⟩ := by
      rw [← Join.new_eq_partly]
      exact Array.getElem?_push_size
    have hall := hrow.produces_all (hts ▸ List.cons_ne_nil b bs) (.addStream s _) rfl hnew
    rw [List.range_eq_range', ← offers_eq_map] at hall
    have hmap := hall.map (h := Except.map List.flatten) fun e => ⟨e, rfl⟩
    refine hmap.of_runs (runs_perform ?_)
    rw [hts]
    rfl

end Streams

/-! ### Sides -/

section Sides

variable {o : Options} {D : List Token → Prop} {nested : List Token → Work (List Token)}

/-- Runs over the streams that `D` admits produce what the work `nested` on them
comes to. -/
def RunsProduce (σ : Type) (g : Registry Worker) (o : Options) (D : List Token → Prop)
    (nested : List Token → Work (List Token)) : Prop :=
  ∀ (s : Session σ) (ts : List Token) (a : Target), s.Employs g → D ts →
    Produces s s [.stream ts o none none a] (.deliver a) (nested ts s.ids) Any

def Admits (D : List Token → Prop) (a : Attribute Token) : Prop :=
  ∀ ts, (a.key = .tokens ts ∨ a.value = .tokens ts) → D ts

theorem produces_expandSide (hd : RunsProduce σ g o D nested) (hs : s.Employs g) {e i : Nat}
    (k : Side) {x : Expansion} (hx : s.expansions[e]? = some x) (ho : x.options = o)
    {a : Attribute Token} (ha : x.attributes[i]? = some a) (hD : Admits D a) :
    Produces s s [.expandSide e i k] (.settleSide e i k) (sideWork nested (k.of a) s.ids) Any := by
  cases hc : k.of a with
  | text c =>
    refine .of_eq (.refl s) trivial rfl ?_
    exact Move.perform_eq (.textSide hx ha hc)
  | tokens ts =>
    have hts : D ts := by
      cases k with
      | key => exact hD ts (.inl hc)
      | value => exact hD ts (.inr hc)
    have hstart : s.perform (.expandSide e i k) =
        s.push [.stream ts o none none (.side e i k)] :=
      ho ▸ Move.perform_eq (.tokenSide hx ha hc)
    have hstream := (hd s ts (.side e i k) hs hts).of_runs (runs_perform hstart)
    rw [sideWork]
    cases hr : (nested ts s.ids).1 with
    | ok us => exact hstream.ok_then hr fun t ht _ hi => .of_eq ht trivial hi rfl
    | error c =>
      exact hstream.error_then hr fun t ht _ => ⟨t, ht, .refl t, rfl, trivial, fun _ => rfl⟩

theorem of_sideAt {a : Attribute Token} {c : Content Token} {j : Nat}
    (h : [a.key, a.value][j]? = some c) : (sideAt j).of a = c := by
  match j with
  | 0 => exact Option.some.inj h
  | 1 => exact Option.some.inj h
  | n + 2 => cases h

theorem row_sides (hd : RunsProduce σ g o D nested) {s₀ : Session σ} (hs : s₀.Employs g) {e i : Nat}
    (h₀ : s₀.expansions[e]? = none) {x : Expansion} (ho : x.options = o) (hi : i < x.sides.length)
    {a : Attribute Token} (ha : x.attributes[i]? = some a) (hD : Admits D a) :
    Row s₀ [a.key, a.value] (sideWork nested) (fun j => .expandSide e i (sideAt j))
      (fun j r => .settleSide e i (sideAt j) r) (fun r => .settlePair e i (pairOfSides a r))
      (fun cs s => s.expansions[e]? = some { x with sides := x.sides.set i (.partly 2 cs) })
      (fun cs s => s.expansions[e]? = some { x with sides := x.sides.set i (.partly 2 cs) })
      (fun s => ∃ sides, s.expansions[e]? = some { x with sides := sides } ∧
        ∀ j, j ≠ i → sides[j]? = x.sides[j]?)
      (fun s => s.Employs g ∧ ∃ y j, s.expansions[e]? = some y ∧ y.attributes = x.attributes ∧
        y.options = x.options ∧ y.sides[i]? = some j ∧ j.delivered = true) where
  stay _ _ _ h := h
  stay_end _ _ h := h
  stay_shut := by
    rintro s t ⟨hs, y, j, hy, hattr, hopt, hj, hd⟩ hst
    obtain ⟨z, hz, hyz⟩ := hst.expansions e y hy
    exact ⟨hst.employs hs, z, j, hz, hyz.attributes.trans hattr, hyz.options.trans hopt,
      hyz.sides i j hj hd, hd⟩
  ends s cs hat := ⟨_, hat, fun j hj => List.getElem?_set_ne (Ne.symm hj)⟩
  produces := by
    intro s cs ks c hk hat hc
    have hside := produces_expandSide hd (hk.registry.trans hs) (sideAt cs.length) hat ho ha hD
    rw [of_sideAt hc] at hside
    exact hside.mono hk fun t ht _ => ht.expansions e _ hat
  give_ok := by
    intro s cs ks c hk hat hlt
    refine ⟨_, hk.setExpansion h₀ { x with sides := x.sides.set i (.partly 2 (cs ++ [c])) }, ?_,
      rfl, perform_settleSide hat hi ha hlt c⟩
    exact Array.getElem?_setIfInBounds_self_of_lt (lt_size_of_some hat)
  give_error := by
    intro s cs ks c hk hat hlt
    let x' : Expansion := { x with sides := x.sides.set i (.partly 2 cs) }
    have hj : x'.sides[i]? = some (.partly 2 cs) := List.getElem?_set_self hi
    have hopen : (Join.partly 2 cs).delivered = false := decide_eq_false (by
      change cs.length < 2 at hlt
      omega)
    let y : Expansion :=
      { x' with sides := x'.sides.set i { Join.partly 2 cs with delivered := true } }
    have hy : (s.setExpansion e y).expansions[e]? = some y :=
      Array.getElem?_setIfInBounds_self_of_lt (lt_size_of_some hat)
    have hretains : x'.Retains y :=
      .setSide hj fun hd => absurd (hopen.symm.trans hd) Bool.false_ne_true
    refine ⟨s.setExpansion e y, hk.setExpansion h₀ y, retains_setExpansion hat hretains, rfl,
      ⟨⟨_, hy, fun j hj => ?_⟩, hk.registry.trans hs, y,
        { Join.partly 2 cs with delivered := true }, hy, rfl, rfl, ?_, rfl⟩, fun rest => ?_⟩
    · rw [List.getElem?_set_ne (Ne.symm hj)]
      exact List.getElem?_set_ne (Ne.symm hj)
    · refine List.getElem?_set_self ?_
      rw [List.length_set]
      exact hi
    · exact perform_settleSide_error (s := s.push rest) hat hj hopen ha _ c
  shut := by
    rintro s j c ⟨hs, y, l, hy, hattr, hopt, hl, hclosed⟩ hc
    have hside := produces_expandSide hd hs (sideAt j) hy (hopt.trans ho) (hattr ▸ ha) hD
    rw [of_sideAt hc] at hside
    refine hside.vanishes fun t ht => ⟨t, .refl t, rfl, runs_perform ?_⟩
    obtain ⟨z, hz, hyz⟩ := ht.expansions e y hy
    exact perform_settleSide_closed hz (hyz.sides i l hl hclosed) hclosed _ _

end Sides

/-! ### Pairs -/

section Pairs

variable {o : Options} {D : List Token → Prop} {nested : List Token → Work (List Token)}

theorem produces_expandPair (hd : RunsProduce σ g o D nested) {s₀ : Session σ} (hk : Keeps s₀ s)
    (hs : s.Employs g) {e i : Nat} (h₀ : s₀.expansions[e]? = none) {x : Expansion}
    (hx : s.expansions[e]? = some x) (ho : x.options = o) (hj : x.sides[i]? = some (.new 2))
    {a : Attribute Token} (ha : x.attributes[i]? = some a) (hD : Admits D a) :
    Produces s₀ s [.expandPair e i] (.settlePair e i) (pairWork nested a s.ids) fun t =>
      ∃ sides, t.expansions[e]? = some { x with sides := sides } ∧
        ∀ j, j ≠ i → sides[j]? = x.sides[j]? := by
  unfold pairWork
  cases hn : a.needsExpansion with
  | false =>
    rw [if_neg Bool.false_ne_true]
    exact .of_eq hk ⟨x.sides, hx, fun _ _ => rfl⟩ rfl (Move.perform_eq (.keepPair hx ha hn))
  | true =>
    rw [if_pos rfl]
    have hi : i < x.sides.length := (List.getElem?_eq_some_iff.1 hj).1
    have hnew : s.expansions[e]? = some { x with sides := x.sides.set i (.partly 2 []) } := by
      rw [← Join.new_eq_partly, hx, ← (List.getElem?_eq_some_iff.1 hj).2, List.set_getElem_self]
    have hemploys : (s₀.setAgenda s.agenda).Employs g := hk.registry.symm.trans hs
    have hrow := row_sides hd hemploys h₀ ho hi ha hD
    have hall := hrow.produces_all (s := s) (List.cons_ne_nil _ _)
      { hk with agenda := ⟨[], idle_nil, rfl⟩ } rfl hnew
    have hstart := runs_perform (Move.perform_eq (.expandPair hx ha hn))
    obtain ⟨t, rest, ht, hR, hr, hf, hok⟩ := (hall.map fun c => ⟨_, rfl⟩).of_runs hstart
    exact ⟨t, rest, hk.rebase ht, hR, hr, hf, hok⟩

/-- What comes of a side changes a slot at most where the pairs are closed. -/
theorem vanishes_settleSide {e : Nat} {y : Expansion} (hy : s.expansions[e]? = some y)
    (hp : y.pairs.delivered = true) (i : Nat) (k : Side) (r : Outcome (Content Token)) :
    s.Vanishes [.settleSide e i k r] s.ids := by
  have noSlot (h : y.sides[i]? = none ∨ y.attributes[i]? = none) :
      s.Vanishes [.settleSide e i k r] s.ids := by
    refine ⟨s, .refl s, rfl, runs_perform (Move.perform_eq (.noSlot fun z hz => ?_))⟩
    exact Option.some.inj (hy.symm.trans hz) ▸ h
  cases hj : y.sides[i]? with
  | none => exact noSlot (.inl hj)
  | some j =>
    cases ha : y.attributes[i]? with
    | none => exact noSlot (.inr ha)
    | some a =>
      let z : Expansion := { y with sides := y.sides.set i (j.fill k.slot r).1 }
      have hretains : y.Retains z := .setSide hj fun hd => by rw [Join.fill_of_delivered hd]
      have hleaves : Leaves s (s.setExpansion e z) :=
        ⟨⟨[], idle_nil, rfl⟩, rfl, rfl, retains_setExpansion hy hretains⟩
      have hz : (s.setExpansion e z).expansions[e]? = some z :=
        Array.getElem?_setIfInBounds_self_of_lt (lt_size_of_some hy)
      have hstep := runs_perform (Move.perform_eq (.settleSide (d := k) (r := r) hy hj ha))
      refine ⟨s.setExpansion e z, hleaves, rfl, ?_⟩
      cases hfill : (j.fill k.slot r).2 with
      | none =>
        rw [hfill] at hstep
        exact hstep
      | some d =>
        rw [hfill] at hstep
        exact hstep.trans (runs_perform (perform_settlePair_closed hz hp i _))

theorem vanishes_expandSide (hd : RunsProduce σ g o D nested) (hs : s.Employs g) {e i : Nat}
    (k : Side) {y : Expansion} (hy : s.expansions[e]? = some y) (ho : y.options = o)
    {a : Attribute Token} (ha : y.attributes[i]? = some a) (hD : Admits D a)
    (hp : y.pairs.delivered = true) :
    s.Vanishes [.expandSide e i k] (sideWork nested (k.of a) s.ids).2 := by
  refine (produces_expandSide hd hs k hy ho ha hD).vanishes fun t ht => ?_
  obtain ⟨z, hz, hyz⟩ := ht.expansions e y hy
  exact vanishes_settleSide hz (by rw [hyz.pairs hp, hp]) i k _

theorem vanishes_expandPair (hd : RunsProduce σ g o D nested) (hs : s.Employs g) {e i : Nat}
    {y : Expansion} (hy : s.expansions[e]? = some y) (ho : y.options = o) {a : Attribute Token}
    (ha : y.attributes[i]? = some a) (hD : Admits D a) (hp : y.pairs.delivered = true) :
    s.Vanishes [.expandPair e i] (pairWork nested a s.ids).2 := by
  unfold pairWork
  cases hn : a.needsExpansion with
  | false =>
    rw [if_neg Bool.false_ne_true]
    have hstart := runs_perform (Move.perform_eq (.keepPair hy ha hn))
    exact ⟨s, .refl s, rfl, hstart.trans (runs_perform (perform_settlePair_closed hy hp i _))⟩
  | true =>
    rw [if_pos rfl]
    have hstart := runs_perform (Move.perform_eq (.expandPair hy ha hn))
    have hvalue : s.Fades (sideWork nested a.key s.ids).2 [.expandSide e i .value]
        (sideWork nested a.value (sideWork nested a.key s.ids).2).2 := by
      intro t ht hi
      obtain ⟨z, hz, hyz⟩ := ht.expansions e y hy
      rw [← hi]
      exact vanishes_expandSide hd (ht.employs hs) .value hz (hyz.options.trans ho)
        (hyz.attributes ▸ ha) hD (by rw [hyz.pairs hp, hp])
    have hboth : s.Vanishes ([.expandSide e i .key] ++ [.expandSide e i .value])
        (sideWork nested a.value (sideWork nested a.key s.ids).2).2 :=
      vanishes_append (vanishes_expandSide (s := s.push _) hd hs .key hy ho ha hD hp) hvalue
    obtain ⟨t, ht, hi, hr⟩ := hboth
    exact ⟨t, ht, hi, hstart.trans hr⟩

theorem row_pairs (hd : RunsProduce σ g o D nested) {s₀ : Session σ} (hs : s₀.Employs g) {e : Nat}
    (h₀ : s₀.expansions[e]? = none) {as : List (Attribute Token)} (u : Purpose)
    (hD : ∀ a ∈ as, Admits D a) :
    Row s₀ as (pairWork nested) (fun i => .expandPair e i) (fun i r => .settlePair e i r)
      (fun r => .finish o u r)
      (fun hs s => ∃ sides, s.expansions[e]? = some ⟨as, o, u, sides, .partly as.length hs⟩ ∧
        ∀ j, hs.length ≤ j → j < as.length → sides[j]? = some (.new 2))
      (fun hs s => ∃ sides, s.expansions[e]? = some ⟨as, o, u, sides, .partly as.length hs⟩ ∧
        ∀ j, hs.length < j → j < as.length → sides[j]? = some (.new 2)) Any
      (fun s => s.Employs g ∧ ∃ y, s.expansions[e]? = some y ∧ y.attributes = as ∧
        y.options = o ∧ y.pairs.delivered = true) where
  stay _ _ _ h := h
  stay_end _ _ _ := trivial
  stay_shut := by
    rintro s t ⟨hs, y, hy, hattr, hopt, hp⟩ hst
    obtain ⟨z, hz, hyz⟩ := hst.expansions e y hy
    exact ⟨hst.employs hs, z, hz, hyz.attributes.trans hattr, hyz.options.trans hopt,
      by rw [hyz.pairs hp, hp]⟩
  ends _ _ _ := trivial
  produces := by
    rintro s hs' ks a hk ⟨sides, hx, hnew⟩ ha
    have hlt : hs'.length < as.length := (List.getElem?_eq_some_iff.1 ha).1
    have hpair := produces_expandPair hd hk (hk.registry.trans hs) h₀ hx rfl
      (hnew _ (Nat.le_refl _) hlt) ha (hD a (List.mem_of_getElem? ha))
    refine hpair.mono (.refl _) ?_
    rintro t - ⟨sides', hx', hsame⟩
    refine ⟨sides', hx', fun j hj hjlt => ?_⟩
    rw [hsame j (by omega)]
    exact hnew j (by omega) hjlt
  give_ok := by
    rintro s hs' ks h hk ⟨sides, hx, hnew⟩ hlt
    refine ⟨_, hk.setExpansion h₀ ⟨as, o, u, sides, .partly as.length (hs' ++ [h])⟩,
      ⟨sides, Array.getElem?_setIfInBounds_self_of_lt (lt_size_of_some hx), fun j hj hjlt => ?_⟩,
      rfl, perform_settlePair (x := ⟨as, o, u, sides, .partly as.length hs'⟩) hx hlt h⟩
    rw [List.length_append, List.length_singleton] at hj
    exact hnew j (by omega) hjlt
  give_error := by
    rintro s hs' ks c hk ⟨sides, hx, hnew⟩ hlt
    have hopen : (Join.partly as.length hs').delivered = false := decide_eq_false (by omega)
    let y : Expansion :=
      ⟨as, o, u, sides, { Join.partly as.length hs' with delivered := true }⟩
    have hy : (s.setExpansion e y).expansions[e]? = some y :=
      Array.getElem?_setIfInBounds_self_of_lt (lt_size_of_some hx)
    have hretains : Expansion.Retains ⟨as, o, u, sides, .partly as.length hs'⟩ y :=
      .setPairs fun hp => absurd (hopen.symm.trans hp) Bool.false_ne_true
    exact ⟨s.setExpansion e y, hk.setExpansion h₀ y, retains_setExpansion hx hretains, rfl,
      ⟨trivial, hk.registry.trans hs, y, hy, rfl, rfl, rfl⟩,
      fun rest => perform_settlePair_error (s := s.push rest) hx hopen hs'.length c⟩
  shut := by
    rintro s i a ⟨hs, y, hy, rfl, hopt, hp⟩ ha
    exact vanishes_expandPair hd hs hy hopt ha (hD a (List.mem_of_getElem? ha)) hp

/-- **An attribute list produces what the work on its pairs comes to.** -/
theorem produces_expand (hd : RunsProduce σ g o D nested) (hs : s.Employs g)
    {as : List (Attribute Token)} (hD : ∀ a ∈ as, Admits D a) (u : Purpose) :
    Produces s s [.expand as o u] (.finish o u) (sweep (pairWork nested) as s.ids) Any := by
  cases has : as with
  | nil => exact .of_eq (.addExpansion s _) trivial rfl rfl
  | cons b bs =>
    rw [← has]
    have hrow := row_pairs hd hs (Array.getElem?_eq_none (Nat.le_refl s.expansions.size)) u hD
    have hnew : ∃ sides, (s.addExpansion (newExpansion as o u)).expansions[s.expansions.size]? =
        some ⟨as, o, u, sides, .partly as.length []⟩ ∧
        ∀ j, ([] : List (Held (Attribute Token))).length ≤ j → j < as.length →
          sides[j]? = some (.new 2) := by
      refine ⟨List.replicate as.length (.new 2), ?_, fun j _ hj => List.getElem?_replicate_of_lt hj⟩
      rw [← Join.new_eq_partly]
      exact Array.getElem?_push_size
    have hall := hrow.produces_all (has ▸ List.cons_ne_nil b bs) (.addExpansion s _) rfl hnew
    refine hall.of_runs (runs_perform ?_)
    rw [has]
    rfl

end Pairs

/-! ### Tokens -/

section Tokens

variable {run : Options} {nested : Options → List Token → Work (List Token)}
  {D : List Token → Prop}

theorem produces_tag {o : Options} (hd : RunsProduce σ g o D (nested o)) (hs : s.Employs g)
    {t : Token} {tag : Tag Token} (hD : ∀ a ∈ tag.attributes, Admits D a) (h : Handle) :
    Produces s s [.expand tag.attributes o (.answer t h)] (.deliver (.handle h))
      (tagWork o (nested o) t tag.attributes s.ids) Any := by
  have hall := produces_expand hd hs hD (.answer t h)
  unfold tagWork
  generalize sweep (pairWork (nested o)) tag.attributes s.ids = w at hall
  obtain ⟨r, i⟩ := w
  cases r with
  | ok hs' =>
    refine hall.ok_then rfl fun u hu _ hi => ?_
    obtain rfl : u.ids = i := hi
    exact .of_eq (hu.trans (.setIds u (returnAttributes o u.ids t hs').2)) trivial rfl rfl
  | error c =>
    exact hall.error_then rfl fun u hu _ => ⟨u, hu, .refl u, rfl, trivial, fun _ => rfl⟩

/-- A worker answers with what its work comes to. -/
theorem produces_follow (hd : ∀ o, RunsProduce σ g o D (nested o)) (hs : s.Employs g) (w : Worker)
    {t : Token} (hD : ∀ ts, t.Nests ts → D ts) {f : Frame} (ho : f.options = run) :
    Produces s s [.follow f (w.handler f t)] (.deliver (.handle f.handle))
      (w.work run nested t s.ids) Any := by
  have answer (r : Outcome (List Token)) :
      Produces s s [.follow f (.answer r)] (.deliver (.handle f.handle)) (r, s.ids) Any :=
    .of_eq (.refl s) trivial rfl rfl
  cases w with
  | expander o =>
    simp only [Worker.handler, expander, Worker.work]
    cases hg : t.expandableTag? with
    | none => exact answer _
    | some tag =>
      dsimp only
      split
      · exact answer _
      · have hidle : Idle [(.follow f .suspend : Task σ)] :=
          fun k hk => ⟨f, List.mem_singleton.1 hk⟩
        have htag := produces_tag (s := s.push [.follow f .suspend]) (t := t) (hd o) hs
          (fun a ha ts hts => hD ts ⟨tag, a, hg, ha, hts⟩) f.handle
        refine (htag.mono (.push_idle hidle s) fun _ _ h => h).of_runs (runs_perform ?_)
        have hattrs : (t.tag?.map Tag.attributes).getD [] = tag.attributes := by
          cases t with
          | opening k | selfClosing k =>
            obtain rfl := Option.some.inj hg
            rfl
          | _ => cases hg
        rw [← hattrs]
        rfl
  | table b =>
    simp only [Worker.handler, TemplateTable.immediate, Worker.work]
    cases hn : TemplateTable.target? t with
    | none => exact answer _
    | some n =>
      simp only [TemplateTable.expand, ho]
      cases hb : b.body? n with
      | none => exact answer _
      | some body =>
        dsimp only
        split
        · have hid : s.perform (.follow f (.newObjectId fun id =>
              .answer (.ok (TemplateTable.wrap ("#" ++ id) body)))) =
              (s.setIds s.ids.newObjectId.2).push [.follow f
                (.answer (.ok (TemplateTable.wrap ("#" ++ s.ids.newObjectId.1) body)))] := rfl
          refine Produces.of_runs ?_ (runs_perform hid)
          exact .of_eq (.setIds s _) trivial rfl rfl
        · exact answer _

/-- The next worker for a token is called, and answers to the record of its call with
what its work comes to. -/
theorem produces_call (run : Options) (hd : ∀ o, RunsProduce σ g o D (nested o))
    (hs : s.Employs g) {t : Token} (hD : ∀ ts, t.Nests ts → D ts) {p : Option Position}
    {r : Registration Worker} (hn : g.next? p t.kind = some r) (a : Target) :
    Produces s s [.offer t run p a] (.deliver (.handle ⟨s.invocations.size⟩))
      (r.handler.work run nested t s.ids)
      fun u => u.invocations[s.invocations.size]? = some ⟨t, run, r.position, a, none⟩ := by
  have hreg : s.registry.next? p t.kind = some (r.map Worker.handler) :=
    Registry.next?_of_eq_map hs hn
  let v : Invocation := ⟨t, run, r.position, a, none⟩
  let f : Frame := ⟨⟨s.invocations.size⟩, r.name, r.position, run⟩
  have hcall : Runs (s.push [.offer t run p a])
      ((s.addInvocation v).push [.follow f (r.handler.handler f t)]) :=
    runs_perform (Move.perform_eq (.invoke hreg))
  have hanswer := produces_follow (s := s.addInvocation v) (f := f) (t := t) hd hs r.handler hD rfl
  have hknown := hanswer.mono (.addInvocation s v)
    (Q := fun u => u.invocations[s.invocations.size]? = some v)
    fun u hu _ => hu.invocations _ v Array.getElem?_push_size
  exact hknown.of_runs hcall

def Below (n : Nat) (ts : List Token) : Prop := ∃ m, m + 1 = n ∧ ∀ u ∈ ts, u.Shallow m

theorem below_of_nests {n : Nat} {t : Token} (ht : t.Shallow n) {ts : List Token}
    (h : t.Nests ts) : Below n ts := by
  cases n with
  | zero => exact absurd h (ht ts)
  | succ n => exact ⟨n, rfl, ht ts h⟩

/-- **Offers after a position produce what the work on their tokens comes to**: by the
number of workers that are left. -/
theorem offersProduce (hg : g.Ordered) {n : Nat}
    (hd : ∀ o, RunsProduce σ g o (Below n) (g.work n o)) (run : Options) (p : Option Position) :
    OffersProduce σ g run p (Token.Shallow n) (tokenWork run (g.work n) (g.after p)) := by
  induction hm : (g.after p).length using Nat.strongRecOn generalizing p with
  | ind m ih =>
    intro s t a hs ht
    cases hn : g.next? p t.kind with
    | none =>
      have hreg : s.registry.next? p t.kind = none :=
        Registry.next?_of_eq_map hs hn
      rw [tokenWork_of_next?_eq_none hn]
      exact .of_eq (.refl s) trivial rfl (Move.perform_eq (.pass hreg))
    | some r =>
      have hcall := produces_call run hd hs (fun ts hts => below_of_nests ht hts) hn a
      let v : Invocation := ⟨t, run, r.position, a, none⟩
      have hnone : s.invocations[s.invocations.size]? = none :=
        Array.getElem?_eq_none (Nat.le_refl _)
      have hgives : Gives (Token.Shallow n) (r.handler.work run (g.work n) t) :=
        Worker.shallow_work ht fun m hm o ts hts => hm ▸ shallow_work g m o hts
      have hshallow := hgives s.ids
      rw [tokenWork_of_next? hg hn]
      generalize r.handler.work run (g.work n) t s.ids = w at hcall hshallow
      obtain ⟨res, i⟩ := w
      cases res with
      | error e =>
        refine hcall.error_then rfl fun u hu hv =>
          ⟨_, hu.setAnswer hnone v (.error e), retains_of_eq rfl rfl rfl, rfl, trivial, ?_⟩
        exact fun rest => Move.perform_eq (.failed (s := u.push rest) hv rfl)
      | ok us =>
        refine hcall.ok_then rfl fun u hu hv hi => ?_
        have hk := hu.setAnswer hnone v (.ok us)
        have hlater := ih _ (hm ▸ Registry.length_after_lt hn) (some r.position) rfl
        have hstream := produces_stream_of_offers hlater (hk.employs hs) (hshallow us rfl)
          (some ⟨s.invocations.size⟩) a
        obtain rfl : u.ids = i := hi
        exact (hstream.mono hk fun _ _ h => h).of_runs
          (runs_perform (Move.perform_eq (.answered hv rfl)))

/-- **Runs produce what the work on their streams comes to**: by the depth of the
tokens. -/
theorem runsProduce (hg : g.Ordered) (n : Nat) (o : Options) :
    RunsProduce σ g o (Below n) (g.work n o) := by
  induction n generalizing o with
  | zero =>
    rintro s ts a - ⟨m, hm, -⟩
    cases hm
  | succ n ih =>
    rintro s ts a hs ⟨m, hm, hts⟩
    obtain rfl := Nat.succ.inj hm
    have hoffers := offersProduce hg ih o none
    rw [Registry.after_none] at hoffers
    exact produces_stream_of_offers hoffers hs hts none a

end Tokens

end Session

end WikiExpansion
