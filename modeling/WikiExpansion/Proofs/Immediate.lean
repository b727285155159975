import WikiExpansion.Proofs.Flow
import WikiExpansion.Proofs.Runs

/-!
# Tables that answer at once

Where the tables of a plan answer at once, a stream that is worth something
settles: steps lead from it to the delivery of what it is worth, and all that
stood in the session before is left as it was (`turns_stream`).  The proof follows
the worth: by the depth of the runs, the number of stages that are left, and the
tokens of the stream in their order.

So a run over such a stream on a session in which nothing has happened is a
success (`exists_run_of_worth`).
-/

namespace WikiExpansion

namespace Session

variable {s t u : Session Desk} {P : Plan}

/-! ### Joins that are filled in order -/

section Fills

variable {α : Type} {N : Nat} {s₀ : Session Desk} {item : Nat → Task Desk}
  {last : List α → Task Desk} {Q : Nat → α → Prop} {At : List α → Session Desk → Prop}

/-- Each of some tasks fills the next slot of a join, and the one that fills the last
slot leads on.  `At vs` says that the join stands in a session with `vs` in its
slots, and `Q i` is what is known of the value in slot `i`. -/
structure Fills (N : Nat) (s₀ : Session Desk) (item : Nat → Task Desk)
    (last : List α → Task Desk) (Q : Nat → α → Prop) (At : List α → Session Desk → Prop) :
    Prop where
  stay : ∀ s vs ks, At vs s → At vs (s.setAgenda ks)
  fill : ∀ s vs ks, Keeps (s₀.push ks) s → At vs s → vs.length < N → ∃ v t,
    Q vs.length v ∧ Keeps (s₀.push ks) t ∧ At (vs ++ [v]) t ∧
      Runs (s.push [item vs.length])
        (t.push (if vs.length + 1 = N then [last (vs ++ [v])] else []))

/-- All slots from some place on are filled, one after the other: by the number of
those that are left. -/
theorem Fills.runs_from (hf : Fills N s₀ item last Q At) :
    ∀ (m : Nat) (s : Session Desk) (vs : List α), vs.length + (m + 1) = N → Keeps s₀ s →
      s.agenda = s₀.agenda → At vs s →
      ∃ ws t, ws.length = m + 1 ∧ (∀ (i : Nat) (v : α), ws[i]? = some v → Q (vs.length + i) v) ∧
        Keeps s₀ t ∧ At (vs ++ ws) t ∧ Runs (s.push ((List.range' vs.length (m + 1)).map item))
          (t.push [last (vs ++ ws)]) := by
  intro m
  induction m with
  | zero =>
    intro s vs hN hk ha hvs
    obtain ⟨v, t, hv, ht, htv, hr⟩ := hf.fill s vs [] hk hvs (by omega)
    rw [if_pos (by omega)] at hr
    refine ⟨[v], t, rfl, fun i w hw => ?_, ht, htv, hr⟩
    obtain ⟨hi, rfl⟩ := List.getElem?_eq_some_iff.1 hw
    obtain rfl : i = 0 := by
      rw [List.length_singleton] at hi
      omega
    exact hv
  | succ m ih =>
    intro s vs hN hk ha hvs
    let ks := (List.range' (vs.length + 1) (m + 1)).map item
    obtain ⟨v, t, hv, ht, htv, hr⟩ :=
      hf.fill (s.push ks) vs ks (hk.push ha ks) (hf.stay s vs _ hvs) (by omega)
    rw [if_neg (by omega), push_nil] at hr
    have hlen : (vs ++ [v]).length = vs.length + 1 := by rw [List.length_append]; rfl
    obtain ⟨ws, u, hl, hws, hu, huv, hr'⟩ := ih (t.setAgenda s₀.agenda) (vs ++ [v])
      (by rw [hlen]; omega) ht.of_push rfl (hf.stay t _ _ htv)
    rw [List.append_assoc] at huv hr'
    rw [hlen] at hr'
    refine ⟨v :: ws, u, by rw [List.length_cons, hl], fun i w hw => ?_, hu, huv,
      hr.trans (ht.runs.trans hr')⟩
    cases i with
    | zero =>
      obtain rfl := Option.some.inj hw
      exact hv
    | succ i =>
      have := hws i w hw
      rwa [hlen, Nat.add_assoc, Nat.add_comm 1 i] at this

theorem Fills.runs (hf : Fills N s₀ item last Q At) (hN : 0 < N) (hk : Keeps s₀ s)
    (ha : s.agenda = s₀.agenda) (hs : At [] s) :
    ∃ ws t, ws.length = N ∧ (∀ (i : Nat) (v : α), ws[i]? = some v → Q i v) ∧ Keeps s₀ t ∧
      At ws t ∧ Runs (s.push ((List.range' 0 N).map item)) (t.push [last ws]) := by
  obtain ⟨m, rfl⟩ := Nat.exists_eq_add_one_of_ne_zero (Nat.ne_of_gt hN)
  obtain ⟨ws, t, hl, hws, ht, htw, hr⟩ := hf.runs_from m s [] (Nat.zero_add _) hk ha hs
  refine ⟨ws, t, hl, fun i v hv => ?_, ht, htw, hr⟩
  have := hws i v hv
  rwa [List.length_nil, Nat.zero_add] at this

end Fills

/-! ### Streams -/

def Prompt (s : Session Desk) (P : Plan) : Prop :=
  s.registry = P.stages.map (Stage.handler P.options none)

theorem Keeps.prompt (h : Keeps s t) (hs : s.Prompt P) : t.Prompt P := h.registry.trans hs

theorem map_flatten_of_gather {α β γ : Type} {m : β → γ} {f : α → Option (List β)} {as : List α}
    {us : List β} {vs : List (List β)} (hg : gather f as = some us) (hl : vs.length = as.length)
    (h : ∀ (i : Nat) (v : List β), vs[i]? = some v →
      ∃ a w, as[i]? = some a ∧ f a = some w ∧ v.map m = w.map m) :
    vs.flatten.map m = us.map m := by
  have hm : Meets m (.ok vs.flatten) fun _ => gather f as := by
    refine meets_gather (List.forall₂_iff_get.2 ⟨hl.symm, fun i hi hv => ?_⟩)
    obtain ⟨a, w, ha, hw, e⟩ := h i (vs.get ⟨i, hv⟩) (List.getElem?_eq_getElem hv)
    rw [List.getElem?_eq_getElem hi] at ha
    obtain rfl := Option.some.inj ha
    refine meets_of_eq fun _ => ?_
    rw [show f (as.get ⟨i, hi⟩) = some w from hw]
    exact congrArg some e
  obtain ⟨_, e⟩ := hm.exists
  rw [hg] at e
  exact Option.some.inj e

theorem exists_of_gather {α β : Type} {f : α → Option (List β)} {as : List α} {us : List β}
    (hg : gather f as = some us) {a : α} (ha : a ∈ as) : ∃ w, f a = some w := by
  cases h : f a with
  | none =>
    rw [gather_eq_none ha h] at hg
    cases hg
  | some w => exact ⟨w, rfl⟩

theorem fills_stream {d : Nat} {p : Option Position}
    (offer : ∀ (s : Session Desk) a us g, s.Prompt P → P.token p a d = some us →
      ∃ out, out.map P.look = us.map P.look ∧
        s.Turns [.offer a P.options p g] (.deliver g (.ok out)))
    (hs : s.Prompt P) {ts us : List Token} (h : P.stream p ts d = some us) {n : Nat}
    (hn : s.streams[n]? = none) (k : Option Handle) (g : Target) :
    Fills ts.length s (fun i => .offer (ts[i]?.getD default) P.options p (.chunk n i))
      (fun vs => .deliver g (.ok vs.flatten))
      (fun i v => ∃ a w, ts[i]? = some a ∧ P.token p a d = some w ∧ v.map P.look = w.map P.look)
      (fun vs t => t.streams[n]? = some ⟨ts, k, .partly ts.length vs, g⟩) where
  stay _ _ _ h := h
  fill t vs ks ht hvs hi := by
    have ha : ts[vs.length]? = some ts[vs.length] := List.getElem?_eq_getElem hi
    obtain ⟨w, hw⟩ := exists_of_gather h (List.getElem_mem hi)
    obtain ⟨v, hv, u, hu, hr⟩ := offer t ts[vs.length] w (.chunk n vs.length)
      (ht.registry.trans hs) hw
    have hx := hu.streams n _ hvs
    refine ⟨v, u.setStream n ⟨ts, k, .partly ts.length (vs ++ [v]), g⟩, ⟨_, w, ha, hw, hv⟩,
      (ht.trans hu).setStream hn _, ?_, ?_⟩
    · exact Array.getElem?_setIfInBounds_self_of_lt (lt_size_of_some hx)
    · simp only [ha, Option.getD_some]
      exact hr.trans (runs_perform (perform_deliver_chunk hx hi v))

theorem turns_stream_of_offers {d : Nat} {p : Option Position}
    (offer : ∀ (s : Session Desk) a us g, s.Prompt P → P.token p a d = some us →
      ∃ out, out.map P.look = us.map P.look ∧
        s.Turns [.offer a P.options p g] (.deliver g (.ok out)))
    (hs : s.Prompt P) {ts us : List Token} (h : P.stream p ts d = some us) (k : Option Handle)
    (g : Target) :
    ∃ out, out.map P.look = us.map P.look ∧
      s.Turns [.stream ts P.options p k g] (.deliver g (.ok out)) := by
  cases hts : ts with
  | nil =>
    subst hts
    obtain rfl := Option.some.inj h
    exact ⟨[], rfl, .of_eq (.addStream s _) rfl⟩
  | cons b bs =>
    rw [← hts]
    have hnew : (s.addStream (newStream ts k g)).streams[s.streams.size]? =
        some ⟨ts, k, .partly ts.length [], g⟩ := by
      rw [← Join.new_eq_partly]
      exact Array.getElem?_push_size
    have hfills := fills_stream offer hs h (Array.getElem?_eq_none (Nat.le_refl _)) k g
    obtain ⟨ws, t, hl, hws, ht, -, hr⟩ :=
      hfills.runs (hts ▸ Nat.succ_pos _) (.addStream s _) rfl hnew
    refine ⟨ws.flatten, map_flatten_of_gather h hl hws, t, ht, ?_⟩
    rw [← offers_eq_map] at hr
    refine (runs_perform ?_).trans hr
    rw [hts]
    rfl

/-! ### Sides and pairs -/

def Pays (P : Plan) (d : Nat) : Prop :=
  ∀ (s : Session Desk) (ts us : List Token) (g : Target), s.Prompt P → P.worth d ts = some us →
    ∃ out, out.map P.look = us.map P.look ∧
      s.Turns [.stream ts P.options none none g] (.deliver g (.ok out))

theorem turns_expandSide {d : Nat} (hd : Pays P d) (hs : s.Prompt P) {e i : Nat} {k : Side}
    {x : Expansion} (hx : s.expansions[e]? = some x) (ho : x.options = P.options)
    {a : Attribute Token} (ha : x.attributes[i]? = some a) {c : Content Token}
    (h : sideWorth (P.worth d) (k.of a) = some c) :
    ∃ r, r.view P.options.wrapTemplates = c.view P.options.wrapTemplates ∧ (k.of a).Fits r ∧
      s.Turns [.expandSide e i k] (.settleSide e i k (.ok r)) := by
  cases hc : k.of a with
  | text t =>
    rw [hc] at h
    obtain rfl := Option.some.inj h
    exact ⟨.text t, rfl, rfl, .of_eq (.refl s) (Move.perform_eq (.textSide hx ha hc))⟩
  | tokens ts =>
    rw [hc] at h
    obtain ⟨us, hus, rfl⟩ := Option.map_eq_some_iff.1 h
    obtain ⟨out, hout, ht⟩ := hd s ts us (.side e i k) hs hus
    refine ⟨.tokens out, ?_, rfl, .of_perform (b := [.stream ts P.options none none (.side e i k)])
      (.refl s) ?_ (ht.next fun t _ => .of_eq (.refl t) rfl)⟩
    · rw [Content.view_tokens, Content.view_tokens]
      exact congrArg Content.tokens hout
    · exact ho ▸ Move.perform_eq (.tokenSide hx ha hc)

theorem fills_sides {d : Nat} (hd : Pays P d) {s₀ : Session Desk} (hs : s₀.Prompt P) {e i : Nat}
    (h₀ : s₀.expansions[e]? = none) {x : Expansion} (ho : x.options = P.options)
    (hi : i < x.sides.length) {a : Attribute Token} (ha : x.attributes[i]? = some a)
    (hw : ∀ k : Side, ∃ c, sideWorth (P.worth d) (k.of a) = some c) :
    Fills 2 s₀ (fun j => .expandSide e i (sideAt j))
      (fun cs => .settlePair e i (pairOfSides a (.ok cs)))
      (fun j c => ((sideAt j).of a).Fits c ∧
        ∃ c', sideWorth (P.worth d) ((sideAt j).of a) = some c' ∧
          c.view P.options.wrapTemplates = c'.view P.options.wrapTemplates)
      (fun cs t => t.expansions[e]? = some { x with sides := x.sides.set i (.partly 2 cs) }) where
  stay _ _ _ h := h
  fill t cs ks ht hcs hlt := by
    obtain ⟨c', hc'⟩ := hw (sideAt cs.length)
    obtain ⟨c, hc, hfit, u, hu, hr⟩ := turns_expandSide hd (ht.registry.trans hs) hcs ho ha hc'
    have hux := hu.expansions e _ hcs
    refine ⟨c, u.setExpansion e { x with sides := x.sides.set i (.partly 2 (cs ++ [c])) },
      ⟨hfit, c', hc', hc⟩, (ht.trans hu).setExpansion h₀ _, ?_, ?_⟩
    · exact Array.getElem?_setIfInBounds_self_of_lt (lt_size_of_some hux)
    · exact hr.trans (runs_perform (perform_settleSide hux hi ha hlt c))

/-- The sides of a pair settle one after the other, and make what the pair is
worth; nothing is left changed but the slots of the pair. -/
theorem runs_sides {d : Nat} (hd : Pays P d) {s₀ : Session Desk} (hk : Keeps s₀ s)
    (hs : s.Prompt P) {e i : Nat} (h₀ : s₀.expansions[e]? = none) {x : Expansion}
    (hx : s.expansions[e]? = some x) (ho : x.options = P.options)
    (hj : x.sides[i]? = some (.new 2)) {a : Attribute Token} (ha : x.attributes[i]? = some a)
    {k v : Content Token} (hkey : sideWorth (P.worth d) a.key = some k)
    (hval : sideWorth (P.worth d) a.value = some v) :
    ∃ k' v' t, a.Fits (newAttribute k' v') ∧
      (newAttribute k' v').view P.options.wrapTemplates =
        (newAttribute k v).view P.options.wrapTemplates ∧
      Keeps s₀ t ∧ t.expansions[e]? = some { x with sides := x.sides.set i (.partly 2 [k', v']) } ∧
      Runs (s.push [.expandSide e i .key, .expandSide e i .value])
        (t.push [.settlePair e i (.ok (.own (newAttribute k' v')))]) := by
  have hi : i < x.sides.length := (List.getElem?_eq_some_iff.1 hj).1
  have hw (d' : Side) : ∃ c, sideWorth (P.worth d) (d'.of a) = some c := by
    cases d' with
    | key => exact ⟨k, hkey⟩
    | value => exact ⟨v, hval⟩
  have hnew : s.expansions[e]? = some { x with sides := x.sides.set i (.partly 2 []) } := by
    rw [← Join.new_eq_partly, hx, ← (List.getElem?_eq_some_iff.1 hj).2, List.set_getElem_self]
  have hprompt : (s₀.setAgenda s.agenda).Prompt P := hk.registry.symm.trans hs
  have hfills := fills_sides hd hprompt h₀ ho hi ha hw
  obtain ⟨ws, t, hl, hws, ht, htx, hr⟩ :=
    hfills.runs (s := s) Nat.two_pos { hk with agenda := ⟨[], idle_nil, rfl⟩ } rfl hnew
  obtain ⟨k', v', rfl⟩ := List.length_eq_two.1 hl
  obtain ⟨fk, k'', hk'', ek⟩ := hws 0 k' rfl
  obtain ⟨fv, v'', hv'', ev⟩ := hws 1 v' rfl
  obtain rfl := Option.some.inj (hkey.symm.trans hk'')
  obtain rfl := Option.some.inj (hval.symm.trans hv'')
  exact ⟨k', v', t, ⟨fk, fv⟩, view_newAttribute ek ev, hk.rebase ht, htx, hr⟩

/-- A pair settles, and nothing is left changed but the slots of its sides. -/
theorem runs_pair {d : Nat} (hd : Pays P d) {s₀ : Session Desk} (hk : Keeps s₀ s)
    (hs : s.Prompt P) {e i : Nat} (h₀ : s₀.expansions[e]? = none) {x : Expansion}
    (hx : s.expansions[e]? = some x) (ho : x.options = P.options)
    (hj : x.sides[i]? = some (.new 2)) {a : Attribute Token} (ha : x.attributes[i]? = some a)
    {h : Held (Attribute Token)} (hw : pairWorth (P.worth d) a = some h) :
    ∃ r t sides, a.Fits r.get ∧ P.lookAt r = P.lookAt h ∧ Keeps s₀ t ∧
      (∀ j, j ≠ i → sides[j]? = x.sides[j]?) ∧ t.expansions[e]? = some { x with sides := sides } ∧
      Runs (s.push [.expandPair e i]) (t.push [.settlePair e i (.ok r)]) := by
  rcases pairWorth_cases hw with ⟨hn, rfl⟩ | ⟨hn, k, v, rfl, hkey, hval⟩
  · exact ⟨.shared a, s, x.sides, ⟨Content.fits_self _, Content.fits_self _⟩, rfl, hk,
      fun _ _ => rfl, hx, runs_perform (Move.perform_eq (.keepPair hx ha hn))⟩
  · obtain ⟨k', v', t, hfit, hview, ht, htx, hr⟩ := runs_sides hd hk hs h₀ hx ho hj ha hkey hval
    exact ⟨.own (newAttribute k' v'), t, _, hfit, congrArg Held.own hview, ht,
      fun j hj => List.getElem?_set_ne (Ne.symm hj), htx,
      (runs_perform (Move.perform_eq (.expandPair hx ha hn))).trans hr⟩

theorem fills_pairs {d : Nat} (hd : Pays P d) (hs : s.Prompt P) {as : List (Attribute Token)}
    {ws : List (Held (Attribute Token))} (hw : pairsWorth (P.worth d) as = some ws) (u : Purpose)
    {e : Nat} (h₀ : s.expansions[e]? = none) :
    Fills as.length s (fun i => .expandPair e i) (fun hs => .finish P.options u (.ok hs))
      (fun i h => ∃ a w, as[i]? = some a ∧ pairWorth (P.worth d) a = some w ∧ a.Fits h.get ∧
        P.lookAt h = P.lookAt w)
      (fun hs t => ∃ sides, t.expansions[e]? =
          some ⟨as, P.options, u, sides, .partly as.length hs⟩ ∧
        ∀ j, hs.length ≤ j → j < as.length → sides[j]? = some (.new 2)) where
  stay _ _ _ h := h
  fill t hs' ks ht hat hi := by
    obtain ⟨sides, hx, hnew⟩ := hat
    have ha : as[hs'.length]? = some as[hs'.length] := List.getElem?_eq_getElem hi
    obtain ⟨w, hw⟩ := exists_of_gather hw (List.getElem_mem hi)
    obtain ⟨w, hw, -⟩ := Option.map_eq_some_iff.1 hw
    obtain ⟨h, v, sides', hfit, hlook, hv, hsides, hvx, hr⟩ := runs_pair hd ht
      (ht.registry.trans hs) h₀ hx rfl (hnew _ (Nat.le_refl _) hi) ha hw
    have hp := perform_settlePair (x := ⟨as, P.options, u, sides', .partly as.length hs'⟩) hvx
      hi h
    refine ⟨h, _, ⟨_, w, ha, hw, hfit, hlook⟩, hv.setExpansion h₀ _,
      ⟨sides', Array.getElem?_setIfInBounds_self_of_lt (lt_size_of_some hvx), fun j hj hlt => ?_⟩,
      hr.trans (runs_perform hp)⟩
    rw [List.length_append, List.length_singleton] at hj
    rw [hsides j (by omega)]
    exact hnew j (by omega) hlt

theorem map_lookAt_of_pairsWorth {d : Nat} {as : List (Attribute Token)}
    {ws hs : List (Held (Attribute Token))} (hw : pairsWorth (P.worth d) as = some ws)
    (hl : hs.length = as.length)
    (h : ∀ (i : Nat) (h : Held (Attribute Token)), hs[i]? = some h → ∃ a w, as[i]? = some a ∧
      pairWorth (P.worth d) a = some w ∧ P.lookAt h = P.lookAt w) :
    hs.map P.lookAt = ws.map P.lookAt := by
  have hf : (hs.map fun h => [h]).flatten = hs := by
    rw [← List.flatMap_def, List.flatMap_singleton']
  rw [← hf]
  refine map_flatten_of_gather hw ((List.length_map _).trans hl) fun i v hv => ?_
  rw [List.getElem?_map] at hv
  obtain ⟨k, hk, rfl⟩ := Option.map_eq_some_iff.1 hv
  obtain ⟨a, w, ha, hw, hlook⟩ := h i k hk
  refine ⟨a, [w], ha, ?_, congrArg (fun h => [h]) hlook⟩
  rw [hw]
  rfl

/-- **Attribute lists settle** where the streams in them do. -/
theorem turns_expand {d : Nat} (hd : Pays P d) (hs : s.Prompt P)
    {as : List (Attribute Token)} {ws : List (Held (Attribute Token))}
    (hw : pairsWorth (P.worth d) as = some ws) (u : Purpose) :
    ∃ hs : List (Held (Attribute Token)), FitAll as hs ∧ hs.map P.lookAt = ws.map P.lookAt ∧
      s.Turns [.expand as P.options u] (.finish P.options u (.ok hs)) := by
  cases has : as with
  | nil =>
    subst has
    obtain rfl := Option.some.inj hw
    exact ⟨[], .nil, rfl, .of_eq (.addExpansion s _) rfl⟩
  | cons b bs =>
    rw [← has]
    have hfills := fills_pairs hd hs hw u (Array.getElem?_eq_none (Nat.le_refl s.expansions.size))
    obtain ⟨hs', t, hl, hq, ht, -, hr⟩ := hfills.runs (has ▸ Nat.succ_pos _) (.addExpansion s _)
      rfl ⟨List.replicate as.length (.new 2), by
        rw [← Join.new_eq_partly]
        exact Array.getElem?_push_size, fun j _ hj => List.getElem?_replicate_of_lt hj⟩
    refine ⟨hs', ?_, ?_, t, ht, ?_⟩
    · refine List.forall₂_iff_get.2 ⟨hl.symm, fun i hi hv => ?_⟩
      obtain ⟨a, w, ha, -, hfit, -⟩ := hq i (hs'.get ⟨i, hv⟩) (List.getElem?_eq_getElem hv)
      rw [List.getElem?_eq_getElem hi] at ha
      obtain rfl := Option.some.inj ha
      exact hfit
    · refine map_lookAt_of_pairsWorth hw hl fun i h hh => ?_
      obtain ⟨a, w, ha, hw, -, hlook⟩ := hq i h hh
      exact ⟨a, w, ha, hw, hlook⟩
    · rw [← List.range_eq_range'] at hr
      refine (runs_perform ?_).trans hr
      rw [has]
      rfl

/-! ### Tokens -/

theorem turns_answer (s : Session Desk) (f : Frame) (r : Outcome (List Token)) :
    s.Turns [.follow f (.answer r)] (.deliver (.handle f.handle) r) := .of_eq (.refl s) rfl

theorem turns_finish {d : Nat} {t : Token} {g : Tag Token} (hg : t.expandableTag? = some g)
    {ws hs : List (Held (Attribute Token))} (hw : pairsWorth (P.worth d) g.attributes = some ws)
    (hfit : FitAll g.attributes hs) (hlook : hs.map P.lookAt = ws.map P.lookAt) {us : List Token}
    (h : (returnAttributes P.options {} t ws).1.toOption = some us) (k : Handle) :
    ∃ out, out.map P.look = us.map P.look ∧
      s.Turns [.finish P.options (.answer t k) (.ok hs)] (.deliver (.handle k) (.ok out)) := by
  have hb := seen_bind_returnAttributes (o := P.options) (r := some hs) (q := some ws) s.ids {} rfl
    hg hg (fun _ hk => Option.some.inj hk ▸ hfit)
    (fun _ hk => Option.some.inj hk ▸ fitAll_of_pairsWorth hw) (congrArg some hlook)
  simp only [Option.bind_some, h] at hb
  cases hr : (returnAttributes P.options s.ids t hs).1 with
  | error e =>
    rw [hr] at hb
    cases hb
  | ok out =>
    rw [hr] at hb
    refine ⟨out, Option.some.inj hb,
      .of_eq (.setIds s (returnAttributes P.options s.ids t hs).2) ?_⟩
    rw [← hr]
    rfl

theorem turns_follow {d : Nat} (hd : Pays P d) (hs : s.Prompt P) {a : Stage} {t : Token}
    {us : List Token} (h : a.worth P.options (P.worth d) t = some us) {f : Frame}
    (ho : f.options = P.options) :
    ∃ out, out.map P.look = us.map P.look ∧
      s.Turns [.follow f (a.handler P.options none f t)]
        (.deliver (.handle f.handle) (.ok out)) := by
  cases a with
  | expander =>
    simp only [Stage.worth] at h
    simp only [Stage.handler, expander]
    cases hg : t.expandableTag? with
    | none =>
      rw [hg] at h
      exact ⟨[t], congrArg _ (Option.some.inj h), turns_answer s f _⟩
    | some g =>
      simp only [hg] at h
      cases he : g.attributes.isEmpty with
      | true =>
        simp only [he, if_true] at h ⊢
        exact ⟨[t], congrArg _ (Option.some.inj h), turns_answer s f _⟩
      | false =>
        simp only [he, Bool.false_eq_true, if_false] at h ⊢
        obtain ⟨ws, hws, hu⟩ := Option.bind_eq_some_iff.1 h
        have hidle : Idle [(.follow f .suspend : Task Desk)] :=
          fun k hk => ⟨f, List.mem_singleton.1 hk⟩
        obtain ⟨hs', hfit, hlook, u, hk, hr⟩ := turns_expand (s := s.push [.follow f .suspend]) hd
          hs hws (.answer t f.handle)
        obtain ⟨out, hout, v, hv, hr'⟩ := turns_finish (s := u) hg hws hfit hlook hu f.handle
        refine ⟨out, hout, v, (Keeps.push_idle hidle s).trans (hk.trans hv), ?_⟩
        have hga : (t.tag?.map Tag.attributes).getD [] = g.attributes := by
          rw [tag?_of_expandableTag? hg]
          rfl
        refine (runs_perform ?_).trans (hr.trans hr')
        rw [← hga]
        rfl
  | table b =>
    simp only [Stage.worth] at h
    simp only [Stage.handler, TemplateTable.immediate]
    cases hn : TemplateTable.target? t with
    | none =>
      rw [hn] at h
      exact ⟨[t], congrArg _ (Option.some.inj h), turns_answer s f _⟩
    | some n =>
      simp only [hn] at h
      obtain ⟨body, hb, rfl⟩ := Option.map_eq_some_iff.1 h
      simp only [TemplateTable.expand, hb, ho]
      cases hw : P.options.wrapTemplates with
      | false => exact ⟨_, rfl, turns_answer s f _⟩
      | true =>
        refine ⟨TemplateTable.wrap ("#" ++ s.ids.newObjectId.1) body, ?_,
          .of_perform (.setIds s s.ids.newObjectId.2) rfl (turns_answer _ f _)⟩
        simp only [Plan.look, hw, if_true]
        exact TemplateTable.map_mask_wrap _ _ _

theorem turns_offer {d : Nat} (hd : Pays P d) {p : Option Position} {a : Token}
    (later : ∀ r, P.stages.next? p a.kind = some r → ∀ (s : Session Desk) ts us k g, s.Prompt P →
      P.stream (some r.position) ts d = some us → ∃ out, out.map P.look = us.map P.look ∧
        s.Turns [.stream ts P.options (some r.position) k g] (.deliver g (.ok out)))
    (hs : s.Prompt P) {us : List Token} (h : P.token p a d = some us) (g : Target) :
    ∃ out, out.map P.look = us.map P.look ∧
      s.Turns [.offer a P.options p g] (.deliver g (.ok out)) := by
  cases hn : P.stages.next? p a.kind with
  | none =>
    have hreg : s.registry.next? p a.kind = none :=
      Registry.next?_of_eq_map hs hn
    rw [P.token_of_next?_eq_none hn] at h
    exact ⟨[a], congrArg _ (Option.some.inj h),
      .of_eq (.refl s) (Move.perform_eq (.pass hreg))⟩
  | some r =>
    have hreg : s.registry.next? p a.kind = some (r.map (Stage.handler P.options none)) :=
      Registry.next?_of_eq_map hs hn
    rw [P.token_of_next? hn] at h
    obtain ⟨ws, hws, h⟩ := Option.bind_eq_some_iff.1 h
    let v : Invocation := ⟨a, P.options, r.position, g, none⟩
    let f : Frame := ⟨⟨s.invocations.size⟩, r.name, r.position, P.options⟩
    have hnone : s.invocations[f.handle.index]? = none := Array.getElem?_eq_none (Nat.le_refl _)
    -- the stage answers
    obtain ⟨mid, hmid, t, ht, hr⟩ := turns_follow (s := s.addInvocation v) (f := f) hd hs hws rfl
    have hv : t.invocations[f.handle.index]? = some v :=
      ht.invocations _ v Array.getElem?_push_size
    have ht := ((Keeps.addInvocation s v).trans ht).setAnswer hnone v (.ok mid)
    -- and its answer goes through the stages after it
    have hrest : ∃ us', P.stream (some r.position) mid d = some us' ∧
        us'.map P.look = us.map P.look := by
      have : seen _ (P.stream (some r.position) mid d) = seen _ (P.stream (some r.position) ws d) :=
        P.respects_stream (some r.position) d mid ws hmid
      rw [h] at this
      obtain ⟨us', hus', e⟩ := Option.map_eq_some_iff.1 this
      exact ⟨us', hus', e⟩
    obtain ⟨us', hus', e⟩ := hrest
    obtain ⟨out, hout, u, hu, hr'⟩ := later r hn (t.setAnswer f.handle v (.ok mid)) mid us'
      (some f.handle) g (ht.prompt hs) hus'
    have hcall := runs_perform (Move.perform_eq (.invoke (o := P.options) (g := g) hreg))
    have htaken : t.perform (.deliver (.handle f.handle) (.ok mid)) = _ :=
      Move.perform_eq (.answered hv rfl)
    exact ⟨out, hout.trans e, u, ht.trans hu,
      hcall.trans (hr.trans ((runs_perform htaken).trans hr'))⟩

/-- A stream after a position settles: by the number of stages that are left. -/
theorem turns_stream {d : Nat} (hd : Pays P d) {p : Option Position} (hs : s.Prompt P)
    {ts us : List Token} (h : P.stream p ts d = some us) (k : Option Handle) (g : Target) :
    ∃ out, out.map P.look = us.map P.look ∧
      s.Turns [.stream ts P.options p k g] (.deliver g (.ok out)) := by
  induction hm : (P.stages.after p).length using Nat.strongRecOn generalizing s p ts us k g with
  | ind m ih =>
    refine turns_stream_of_offers (fun s a us g hs h => ?_) hs h k g
    refine turns_offer hd (fun r hr s ts us k g hs h => ?_) hs h g
    exact ih _ (hm ▸ Registry.length_after_lt hr) hs h k g rfl

/-- **A stream that is worth something settles**, at whatever depth. -/
theorem pays (P : Plan) (d : Nat) : Pays P d := by
  induction d with
  | zero => exact fun _ _ _ _ _ h => nomatch h
  | succ d ih => exact fun s ts us g hs h => turns_stream ih hs h none g

/-- **A run over a stream that is worth something is a success.** -/
theorem exists_run_of_worth (hs : s.Prompt P) (ho : s.options = P.options)
    (hv : s.events = #[]) {d : Nat} {ts us : List Token} (h : P.worth d ts = some us) :
    ∃ n out, (s.run n ts).1 = .ok out := by
  obtain ⟨out, -, t, ht, n, hr⟩ := pays P d s.newJob.2 ts us (.job s.jobs) hs h
  have hrun : (s.process ts none).2.settle (n + 1) = t.report (.finished s.jobs (.ok out)) := by
    have hp : (s.process ts none).2 =
        s.newJob.2.push [.stream ts P.options none none (.job s.jobs)] := by
      rw [← ho]
      rfl
    rw [hp, settle_add, hr]
    rfl
  have hres : (t.report (.finished s.jobs (.ok out))).result? s.jobs = some (.ok out) := by
    have hv : t.events = #[] := ht.events.trans hv
    simp [result?, hv]
  refine ⟨n + 1, out, ?_⟩
  rw [fst_run, hrun, hres]
  rfl

end Session

end WikiExpansion
