import WikiExpansion.Proofs.Flow
import WikiExpansion.Proofs.Work

/-!
# How deep the answers of stages are

A stage gives nothing deeper than it got, if the runs that it starts do not
(`Stage.shallow_worth`), so no pipeline of stages does (`Plan.keepsDepth_worth`).  The
depth of a token does not depend on the ids in it (`Token.shallow_view`).  Hence what is
due to an invocation is no deeper than its token (`Session.Due.shallow`).
-/

namespace WikiExpansion

/-! ### Ids do not nest -/

theorem Content.mask_eq_tokens_iff {c : Content Token} {id : Bool} {us : List Token} :
    c.mask id = .tokens us ↔ ∃ ts, c = .tokens ts ∧ us = ts.map Token.mask := by
  cases c with
  | text s =>
    rw [mask_text]
    exact ⟨nofun, nofun⟩
  | tokens ts =>
    rw [mask_tokens, tokens.injEq]
    exact ⟨fun h => ⟨ts, rfl, h.symm⟩, fun ⟨_, h, hu⟩ => tokens.inj h ▸ hu.symm⟩

namespace Token

theorem nests_mask_iff {t : Token} {us : List Token} :
    t.mask.Nests us ↔ ∃ ts, t.Nests ts ∧ us = ts.map mask := by
  constructor
  · rintro ⟨k, b, hk, hb, hside⟩
    rw [expandableTag?_mask] at hk
    obtain ⟨g, hg, rfl⟩ := Option.map_eq_some_iff.1 hk
    rw [Tag.attributes_mask] at hb
    obtain ⟨a, ha, rfl⟩ := List.mem_map.1 hb
    rw [Attribute.key_mask, Attribute.value_mask, Content.mask_eq_tokens_iff,
      Content.mask_eq_tokens_iff] at hside
    rcases hside with ⟨ts, hts, hus⟩ | ⟨ts, hts, hus⟩
    · exact ⟨ts, ⟨g, a, hg, ha, .inl hts⟩, hus⟩
    · exact ⟨ts, ⟨g, a, hg, ha, .inr hts⟩, hus⟩
  · rintro ⟨ts, ⟨g, a, hg, ha, hside⟩, rfl⟩
    refine ⟨g.mask, a.mask, ?_, ?_, ?_⟩
    · rw [expandableTag?_mask, hg]
      rfl
    · rw [Tag.attributes_mask]
      exact List.mem_map_of_mem ha
    · rw [Attribute.key_mask, Attribute.value_mask]
      exact hside.imp (fun h => by rw [h, Content.mask_tokens])
        (fun h => by rw [h, Content.mask_tokens])

theorem shallow_mask {n : Nat} {t : Token} : t.mask.Shallow n ↔ t.Shallow n := by
  induction n generalizing t with
  | zero =>
    refine ⟨fun h ts hts => h _ (nests_mask_iff.2 ⟨ts, hts, rfl⟩), fun h us hus => ?_⟩
    obtain ⟨ts, hts, -⟩ := nests_mask_iff.1 hus
    exact h ts hts
  | succ n ih =>
    constructor
    · intro h ts hts u hu
      exact ih.1 (h _ (nests_mask_iff.2 ⟨ts, hts, rfl⟩) u.mask (List.mem_map_of_mem hu))
    · intro h us hus u hu
      obtain ⟨ts, hts, rfl⟩ := nests_mask_iff.1 hus
      obtain ⟨v, hv, rfl⟩ := List.mem_map.1 hu
      exact ih.2 (h ts hts v hv)

theorem shallow_view (w : Bool) {n : Nat} {t : Token} : (t.view w).Shallow n ↔ t.Shallow n := by
  cases w with
  | false => exact Iff.rfl
  | true => exact shallow_mask

end Token

/-! ### What streams are worth -/

def KeepsDepth (f : List Token → Option (List Token)) : Prop :=
  ∀ n ts us, f ts = some us → (∀ t ∈ ts, t.Shallow n) → ∀ u ∈ us, u.Shallow n

theorem keepsDepth_gather {f : Token → Option (List Token)}
    (h : ∀ n t us, f t = some us → t.Shallow n → ∀ u ∈ us, u.Shallow n) :
    KeepsDepth (gather f) := by
  intro n ts us hus ht u hu
  obtain ⟨t, hts, vs, hvs, hu⟩ := exists_of_mem_gather hus hu
  exact h n t vs hvs (ht t hts) u hu

section Worth

variable {f : List Token → Option (List Token)} {n : Nat}

theorem all_of_sideWorth (hf : KeepsDepth f) {c d : Content Token} (h : sideWorth f c = some d)
    (hc : c.All (Token.Shallow n)) : d.All (Token.Shallow n) := by
  cases c with
  | text s =>
    obtain rfl := Option.some.inj h
    exact hc
  | tokens ts =>
    obtain ⟨us, hus, rfl⟩ := Option.map_eq_some_iff.1 h
    exact Content.all_tokens.2 (hf n ts us hus (Content.all_tokens.1 hc))

theorem expandsTo_of_pairWorth {a : Attribute Token} {h : Held (Attribute Token)}
    (hw : pairWorth f a = some h) : a.ExpandsTo h := by
  unfold Attribute.ExpandsTo
  rcases pairWorth_cases hw with ⟨hn, rfl⟩ | ⟨hn, k, v, rfl, hk, hv⟩
  · rw [hn, if_neg Bool.false_ne_true]
  · rw [hn, if_pos rfl]
    exact ⟨k, v, rfl, Content.fits_of_sideWorth hk, Content.fits_of_sideWorth hv⟩

theorem all_of_pairWorth (hf : KeepsDepth f) {a : Attribute Token} {h : Held (Attribute Token)}
    (hw : pairWorth f a = some h) (ha : a.All (Token.Shallow n)) :
    h.get.All (Token.Shallow n) := by
  rcases pairWorth_cases hw with ⟨-, rfl⟩ | ⟨-, k, v, rfl, hk, hv⟩
  · exact ha
  · exact ⟨all_of_sideWorth hf hk ha.1, all_of_sideWorth hf hv ha.2⟩

theorem expandsTo_of_pairsWorth {as : List (Attribute Token)} {hs : List (Held (Attribute Token))}
    (h : pairsWorth f as = some hs) : List.Forall₂ Attribute.ExpandsTo as hs := by
  induction as generalizing hs with
  | nil =>
    cases h
    exact .nil
  | cons a as ih =>
    obtain ⟨b, hb, h⟩ := Option.bind_eq_some_iff.1 h
    obtain ⟨p, hp, rfl⟩ := Option.map_eq_some_iff.1 hb
    obtain ⟨ks, hk, rfl⟩ := Option.map_eq_some_iff.1 h
    exact .cons (expandsTo_of_pairWorth hp) (ih hk)

/-- **A stage gives nothing deeper than it got**, if the runs that it starts do not. -/
theorem Stage.shallow_worth (hf : KeepsDepth f) {o : Options} (a : Stage) {t : Token}
    {us : List Token} (h : a.worth o f t = some us) (ht : t.Shallow n) : ∀ u ∈ us, u.Shallow n := by
  have self (h : some [t] = some us) : ∀ u ∈ us, u.Shallow n :=
    Option.some.inj h ▸ List.forall_mem_singleton.2 ht
  cases a with
  | expander =>
    simp only [worth] at h
    cases hg : t.expandableTag? with
    | none =>
      simp only [hg] at h
      exact self h
    | some g =>
      simp only [hg] at h
      split at h
      · exact self h
      · obtain ⟨hs, hhs, h⟩ := Option.bind_eq_some_iff.1 h
        refine shallow_returnAttributes hg ht (expandsTo_of_pairsWorth hhs) (fun m hm p hp => ?_)
          (eq_ok_of_toOption h)
        subst hm
        obtain ⟨x, hx, cs, hcs, hpc⟩ := exists_of_mem_gather hhs hp
        obtain ⟨y, hy, rfl⟩ := Option.map_eq_some_iff.1 hcs
        obtain rfl := List.mem_singleton.1 hpc
        exact all_of_pairWorth hf hy ⟨fun ts hts => ht ts ⟨g, x, hg, hx, .inl hts⟩,
          fun ts hts => ht ts ⟨g, x, hg, hx, .inr hts⟩⟩
  | table b =>
    simp only [worth] at h
    cases hn : TemplateTable.target? t with
    | none =>
      simp only [hn] at h
      exact self h
    | some name =>
      simp only [hn] at h
      obtain ⟨body, -, rfl⟩ := Option.map_eq_some_iff.1 h
      intro u hu
      split at hu
      · exact Token.shallow_of_not_nests (not_nests_wrap hu) n
      · obtain rfl := List.mem_singleton.1 hu
        exact Token.shallow_of_not_nests (Token.not_nests rfl) n

theorem shallow_tokenWorth (hf : KeepsDepth f) {o : Options} (rs : List (Registration Stage)) :
    ∀ n t us, tokenWorth o f rs t = some us → t.Shallow n → ∀ u ∈ us, u.Shallow n := by
  induction rs with
  | nil =>
    intro n t us h ht
    obtain rfl := Option.some.inj h
    exact List.forall_mem_singleton.2 ht
  | cons r rs ih =>
    intro n t us h ht
    rw [tokenWorth] at h
    split at h
    · obtain ⟨vs, hvs, h⟩ := Option.bind_eq_some_iff.1 h
      exact keepsDepth_gather ih n vs us h (r.handler.shallow_worth hf hvs ht)
    · exact ih n t us h ht

end Worth

/-- **A pipeline of stages gives nothing deeper than it got.** -/
theorem Plan.keepsDepth_worth (P : Plan) (n : Nat) : KeepsDepth (P.worth n) := by
  induction n with
  | zero => exact fun _ _ _ h => nomatch h
  | succ n ih => exact keepsDepth_gather (shallow_tokenWorth ih _)

/-- What is due to an invocation is no deeper than its token. -/
theorem Session.Due.shallow {s : Session Desk} {P : Plan} {jobs : List (List Token)} {h : Handle}
    {ts : List Token} (hd : s.Due P jobs (.handle h) (.ok ts)) {v : Invocation}
    (hv : s.invocations[h.index]? = some v) {n : Nat} (hn : v.token.Shallow n) :
    ∀ t ∈ ts, t.Shallow n := by
  obtain ⟨F, ⟨w, r, hw, -, -, rfl⟩, hm⟩ := hd
  obtain rfl := Option.some.inj (hv.symm.trans hw)
  obtain ⟨d, hd⟩ := hm.exists
  obtain ⟨us, hus, he⟩ := Option.map_eq_some_iff.1 hd.symm
  have hall := r.handler.shallow_worth (P.keepsDepth_worth d) hus hn
  -- the answer agrees with what the token is worth but for the ids
  intro t ht
  have hlook : P.look t ∈ us.map P.look := he ▸ List.mem_map_of_mem ht
  obtain ⟨u, hu, hut⟩ := List.mem_map.1 hlook
  have hlooku : (P.look u).Shallow n := (Token.shallow_view _).2 (hall u hu)
  rw [hut] at hlooku
  exact (Token.shallow_view _).1 hlooku

end WikiExpansion
