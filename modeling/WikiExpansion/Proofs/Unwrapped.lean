import WikiExpansion.Proofs.Grouping
import WikiExpansion.Proofs.Schedule

/-!
# Pipelines that do not wrap

Where templates are not wrapped, a pipeline of stages makes up neither a tag nor a
marker.  The stamp of a tag is its kind, its name and its source, that of a marker
is the marker itself; a token holds the stamps of all that stands in it, at every
depth (`Token.Holds`).  All stamps that the result of a job holds are held by the
tokens of the job (`Schedule.holds`).  So a wrapper tag in the result comes from
a `meta` tag of the input, and a marker stood in the input already.
-/

namespace WikiExpansion

/-! ### Stamps -/

/-- What expansion leaves of a tag or a marker. -/
inductive Stamp where
  | tag (kind : Kind) (name : String) (source : TagSource)
  | marker (m : Marker Token)

namespace Token

def stamp? : Token → Option Stamp
  | opening g => some (.tag .opening g.name g.source)
  | selfClosing g => some (.tag .selfClosing g.name g.source)
  | closing g => some (.tag .closing g.name g.source)
  | marker m => some (.marker m)
  | _ => none

def contents : Token → List (Content Token)
  | opening g | selfClosing g | closing g => g.attributes.flatMap fun a => [a.key, a.value]
  | marker m => [m.key, m.value, m.expansion]
  | _ => []

/-- The token has the stamp, or a token in it holds the stamp. -/
inductive Holds (k : Stamp) : Token → Prop
  | own {t : Token} : t.stamp? = some k → Holds k t
  | inside {t u : Token} {ts : List Token} : .tokens ts ∈ t.contents → u ∈ ts → Holds k u →
      Holds k t

end Token

def Content.Holds (k : Stamp) (c : Content Token) : Prop :=
  ∃ ts, c = .tokens ts ∧ ∃ u ∈ ts, u.Holds k

def Attribute.Holds (k : Stamp) (a : Attribute Token) : Prop := a.key.Holds k ∨ a.value.Holds k

variable {k : Stamp}

theorem not_holds_text (s : String) : ¬ (Content.text s).Holds k := by
  rintro ⟨ts, hs, -⟩
  cases hs

theorem Token.not_holds_text (s : String) : ¬ (Token.text s).Holds k := by
  intro h
  cases h with
  | own h => cases h
  | inside h => exact absurd h List.not_mem_nil

/-- A tag holds its own stamp and those of its attributes. -/
theorem Token.holds_iff {t : Token} {g : Tag Token} (hg : t.tag? = some g) :
    t.Holds k ↔ t.stamp? = some k ∨ ∃ a ∈ g.attributes, a.Holds k := by
  have hc : t.contents = g.attributes.flatMap fun a => [a.key, a.value] := by
    cases t with
    | opening | selfClosing | closing =>
      obtain rfl := Option.some.inj hg
      rfl
    | _ => cases hg
  constructor
  · intro h
    cases h with
    | own h => exact Or.inl h
    | @inside _ u ts hts hu h =>
      rw [hc] at hts
      obtain ⟨a, ha, hts⟩ := List.mem_flatMap.1 hts
      have hcon : (Content.tokens ts).Holds k := ⟨ts, rfl, u, hu, h⟩
      rcases List.mem_cons.1 hts with e | hts
      · exact Or.inr ⟨a, ha, Or.inl (e ▸ hcon)⟩
      · exact Or.inr ⟨a, ha, Or.inr (List.mem_singleton.1 hts ▸ hcon)⟩
  · rintro (h | ⟨a, ha, h⟩)
    · exact .own h
    · rcases h with ⟨ts, hts, u, hu, h⟩ | ⟨ts, hts, u, hu, h⟩
      · have hk : a.key ∈ t.contents :=
          hc ▸ List.mem_flatMap.2 ⟨a, ha, List.mem_cons_self⟩
        exact .inside (hts ▸ hk) hu h
      · have hv : a.value ∈ t.contents :=
          hc ▸ List.mem_flatMap.2 ⟨a, ha, List.mem_cons_of_mem _ (List.mem_singleton_self _)⟩
        exact .inside (hts ▸ hv) hu h

/-! ### Settling pairs -/

theorem holds_strip {w : Bool} {c : Content Token} (h : (strip w c).value.Holds k) : c.Holds k := by
  obtain ⟨us, hus, u, hu, h⟩ := h
  rcases value_strip_cases w c with ⟨s, hs⟩ | ⟨ts, rfl, hts, -⟩
  · cases hs.symm.trans hus
  · obtain rfl := Content.tokens.inj (hts.symm.trans hus)
    exact ⟨ts, rfl, u, (List.mem_filter.1 hu).1, h⟩

theorem holds_reconcileKey (p : Held (Attribute Token)) :
    ((reconcileKey false p).pair.get.Holds k → p.get.Holds k) ∧
      ∀ b ∈ (reconcileKey false p).findings.added, b.Holds k → p.get.Holds k := by
  have hr := reconcilesKey false p
  generalize reconcileKey false p = step at hr ⊢
  cases hr with
  | undecided =>
    refine ⟨fun h => ?_, fun b hb h => ?_⟩
    · rw [Held.get_write] at h
      exact h.imp (fun h => absurd h (not_holds_text _)) id
    · obtain rfl := List.mem_singleton.1 hb
      exact h.imp (fun h => absurd h (not_holds_text _)) id
  | plain =>
    refine ⟨fun h => ?_, fun b hb => absurd hb List.not_mem_nil⟩
    rw [Held.get_write] at h
    exact h.imp holds_strip id
  | whole _ ht | alone _ ht =>
    rw [objectType_strip_false] at ht
    cases ht

theorem holds_settleValue (a : Attribute Token) (s : KeyStep) :
    ((settleValue false a s).1.get.Holds k → s.pair.get.Holds k) ∧
      (settleValue false a s).2.added = [] := by
  have hr := settlesValue false a s
  generalize settleValue false a s = r at hr ⊢
  cases hr with
  | kept | reserved => exact ⟨id, rfl⟩
  | deferred =>
    rw [objectType_strip_false]
    exact ⟨id, rfl⟩
  | stripped =>
    refine ⟨fun h => ?_, rfl⟩
    rw [Held.get_write] at h
    exact h.imp id holds_strip

theorem holds_carrySources (a : Attribute Token) (h : Held (Attribute Token)) :
    (h.carrySources a).get.Holds k ↔ h.get.Holds k := by
  cases h <;> exact Iff.rfl

theorem holds_reconcilePair (a : Attribute Token) (h : Held (Attribute Token)) :
    ((reconcilePair false a h).1.get.Holds k → h.get.Holds k) ∧
      ∀ b ∈ (reconcilePair false a h).2.added, b.Holds k → h.get.Holds k := by
  have hc := holds_carrySources (k := k) a h
  have hr := reconcilesPair false a h
  generalize reconcilePair false a h = r at hr ⊢
  cases hr with
  | empty => exact ⟨hc.1, fun b hb => absurd hb List.not_mem_nil⟩
  | text =>
    obtain ⟨hv, hadd⟩ := holds_settleValue (k := k) a (keptKey a (h.carrySources a))
    refine ⟨fun hh => hc.1 (hv hh), fun b hb => ?_⟩
    simp only [Findings.append_def, hadd, List.append_nil] at hb
    exact absurd hb List.not_mem_nil
  | tokens =>
    obtain ⟨hk, hkb⟩ := holds_reconcileKey (k := k) (h.carrySources a)
    obtain ⟨hv, hadd⟩ := holds_settleValue (k := k) a (reconcileKey false (h.carrySources a))
    refine ⟨fun hh => hc.1 (hk (hv hh)), fun b hb hh => hc.1 (hkb b ?_ hh)⟩
    rw [Findings.append_def] at hb
    simpa only [hadd, List.append_nil] using hb

theorem holds_reconcile (as : List (Attribute Token)) (hs : List (Held (Attribute Token))) :
    (∀ h ∈ (reconcile false as hs).1, h.get.Holds k → ∃ h ∈ hs, h.get.Holds k) ∧
      ∀ b ∈ (reconcile false as hs).2.added, b.Holds k → ∃ h ∈ hs, h.get.Holds k := by
  refine ⟨fun p hp hk => ?_, fun b hb hk => ?_⟩
  · rcases mem_reconcile hp with hp | ⟨a, -, h, hh, rfl⟩
    · exact ⟨p, hp, hk⟩
    · exact ⟨h, hh, (holds_reconcilePair a h).1 hk⟩
  · obtain ⟨a, -, h, hh, hb⟩ := mem_added_reconcile hb
    exact ⟨h, hh, (holds_reconcilePair a h).2 b hb hk⟩

/-! ### Putting a tag back -/

theorem stamp?_withTag {t : Token} {g : Tag Token} (hg : t.expandableTag? = some g)
    (hs : List (Held (Attribute Token))) : (t.withTag (g.withHeld hs)).stamp? = t.stamp? := by
  cases t with
  | opening | selfClosing =>
    obtain rfl := Option.some.inj hg
    rfl
  | _ => cases hg

/-- What a tag becomes holds no stamp that neither the tag nor its new attributes hold. -/
theorem holds_returnAttributes {o : Options} (hw : o.wrapTemplates = false) {ids : IdSource}
    {t : Token} {hs : List (Held (Attribute Token))} {us : List Token}
    (h : (returnAttributes o ids t hs).1 = .ok us) {u : Token} (hu : u ∈ us) (hk : u.Holds k) :
    t.Holds k ∨ ∃ h ∈ hs, h.get.Holds k := by
  have self (h : [t] = us) : t.Holds k := by
    subst h
    exact List.mem_singleton.1 hu ▸ hk
  have hr := returns o ids t hs
  generalize returnAttributes o ids t hs = r at h hr
  cases hr with
  | ineligible | unmodified => exact Or.inl (self (Except.ok.inj h))
  | malformed => cases h
  | @rebuilt g r ids' hg hl hr =>
    have hb := rebuilds o ids g.attributes hs
    rw [hr] at hb
    cases hb with
    | marked _ hlast =>
      rw [hw, markers_reconcile_unwrapped] at hlast
      cases hlast
    | unmarked =>
      obtain rfl := Except.ok.inj h
      obtain rfl := List.mem_singleton.1 hu
      obtain ⟨hr, hra⟩ := holds_reconcile (k := k) g.attributes hs
      rw [← hw] at hr hra
      rcases (Token.holds_iff (tag?_withTag hg _)).1 hk with hk | ⟨a, ha, hk⟩
      · rw [stamp?_withTag hg] at hk
        exact Or.inl (.own hk)
      · obtain ⟨b, hb, rfl⟩ := List.mem_map.1 ha
        rcases List.mem_append.1 hb with hb | hb
        · exact Or.inr (hr b hb hk)
        · obtain ⟨c, hc, rfl⟩ := List.mem_map.1 hb
          exact Or.inr (hra c hc hk)

/-! ### What streams are worth -/

def Preserves (k : Stamp) (f : List Token → Option (List Token)) : Prop :=
  ∀ ts us, f ts = some us → ∀ u ∈ us, u.Holds k → ∃ t ∈ ts, t.Holds k

theorem preserves_gather {f : Token → Option (List Token)}
    (h : ∀ t us, f t = some us → ∀ u ∈ us, u.Holds k → t.Holds k) : Preserves k (gather f) := by
  intro ts us hus u hu hk
  obtain ⟨t, ht, vs, hvs, hv⟩ := exists_of_mem_gather hus hu
  exact ⟨t, ht, h t vs hvs u hv hk⟩

theorem holds_sideWorth {f : List Token → Option (List Token)} (hf : Preserves k f)
    {c d : Content Token} (h : sideWorth f c = some d) (hk : d.Holds k) : c.Holds k := by
  cases c with
  | text s =>
    obtain rfl := Option.some.inj h
    exact hk
  | tokens ts =>
    obtain ⟨us, hus, rfl⟩ := Option.map_eq_some_iff.1 h
    obtain ⟨vs, hvs, u, hu, hk⟩ := hk
    obtain rfl := Content.tokens.inj hvs
    obtain ⟨t, ht, hk⟩ := hf ts us hus u hu hk
    exact ⟨ts, rfl, t, ht, hk⟩

theorem holds_pairWorth {f : List Token → Option (List Token)} (hf : Preserves k f)
    {a : Attribute Token} {h : Held (Attribute Token)} (hw : pairWorth f a = some h)
    (hk : h.get.Holds k) : a.Holds k := by
  rcases pairWorth_cases hw with ⟨-, rfl⟩ | ⟨-, x, y, rfl, hx, hy⟩
  · exact hk
  · exact hk.imp (holds_sideWorth hf hx) (holds_sideWorth hf hy)

/-- A stage that does not wrap makes up no stamp. -/
theorem Stage.holds_worth {o : Options} (hw : o.wrapTemplates = false)
    {f : List Token → Option (List Token)} (hf : Preserves k f) (a : Stage) (t : Token)
    (us : List Token) (h : a.worth o f t = some us) : ∀ u ∈ us, u.Holds k → t.Holds k := by
  intro u hu hk
  have self (h : [t] = us) : t.Holds k := by
    subst h
    exact List.mem_singleton.1 hu ▸ hk
  cases a with
  | expander =>
    simp only [worth] at h
    cases hg : t.expandableTag? with
    | none =>
      simp only [hg] at h
      exact self (Option.some.inj h)
    | some g =>
      simp only [hg] at h
      split at h
      · exact self (Option.some.inj h)
      · obtain ⟨hs, hhs, h⟩ := Option.bind_eq_some_iff.1 h
        rcases holds_returnAttributes hw (eq_ok_of_toOption h) hu hk with hk | ⟨b, hb, hk⟩
        · exact hk
        · obtain ⟨x, hx, cs, hcs, hbc⟩ := exists_of_mem_gather hhs hb
          obtain ⟨y, hy, rfl⟩ := Option.map_eq_some_iff.1 hcs
          obtain rfl := List.mem_singleton.1 hbc
          exact (Token.holds_iff (Session.tag?_of_expandableTag? hg)).2
            (Or.inr ⟨x, hx, holds_pairWorth hf hy hk⟩)
  | table b =>
    simp only [worth] at h
    cases hn : TemplateTable.target? t with
    | none =>
      simp only [hn] at h
      exact self (Option.some.inj h)
    | some n =>
      simp only [hn, hw] at h
      obtain ⟨body, -, rfl⟩ := Option.map_eq_some_iff.1 h
      obtain rfl := List.mem_singleton.1 hu
      exact absurd hk (Token.not_holds_text body)

theorem holds_tokenWorth {o : Options} (hw : o.wrapTemplates = false)
    {f : List Token → Option (List Token)} (hf : Preserves k f) (rs : List (Registration Stage)) :
    ∀ t us, tokenWorth o f rs t = some us → ∀ u ∈ us, u.Holds k → t.Holds k := by
  induction rs with
  | nil =>
    intro t us h u hu hk
    obtain rfl := Option.some.inj h
    exact List.mem_singleton.1 hu ▸ hk
  | cons r rs ih =>
    intro t us h u hu hk
    rw [tokenWorth] at h
    split at h
    · obtain ⟨vs, hvs, h⟩ := Option.bind_eq_some_iff.1 h
      obtain ⟨v, hv, hk⟩ := preserves_gather ih vs us h u hu hk
      exact r.handler.holds_worth hw hf t vs hvs v hv hk
    · exact ih t us h u hu hk

namespace Plan

variable {P : Plan}

theorem preserves_worth (hw : P.options.wrapTemplates = false) (n : Nat) :
    Preserves k (P.worth n) := by
  induction n with
  | zero => exact fun _ _ h => nomatch h
  | succ n ih => exact preserves_gather (holds_tokenWorth hw ih _)

theorem preserves_stream (hw : P.options.wrapTemplates = false) (p : Option Position) (n : Nat) :
    Preserves k fun ts => P.stream p ts n :=
  preserves_gather (holds_tokenWorth hw (P.preserves_worth hw n) _)

end Plan

/-- **A job of a pipeline that does not wrap makes up no stamp**, whatever the schedule. -/
theorem Session.Schedule.holds {defer : Option String} {ids : IdSource} {o : Options}
    {stages : List (Rank × Stage)} {jobs : List (List Token)} {s : Session Desk}
    (h : Schedule (pipeline defer ids o stages) jobs s) (hw : o.wrapTemplates = false) {j : Nat}
    {ts out : List Token} (hj : jobs[j]? = some ts) (hr : s.result? j = some (.ok out)) {u : Token}
    (hu : u ∈ out) (hk : u.Holds k) : ∃ t ∈ ts, t.Holds k := by
  have hm := (h.works (works_pipeline defer ids o stages)).meets hj (finished_of_result? hr)
  obtain ⟨n, hn⟩ := hm.exists
  have hlook : (planOf o stages).look = id := by
    rw [Plan.look, planOf, hw, Token.view_false]
  rw [hlook, List.map_id_fun, Option.map_id, id_eq, id_eq] at hn
  exact (planOf o stages).preserves_stream hw none n ts out hn.symm u hu hk

end WikiExpansion
