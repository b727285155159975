import WikiExpansion.Handler.Expander
import WikiExpansion.Proofs.Ids
import WikiExpansion.Proofs.Order

/-!
# What a pipeline of stages makes of a stream

A stage is an expander or a template table.  A `Plan` is a registry of stages
with the options they work by.  `Plan.worth n ts` is what a pipeline of that plan
makes of a stream, as a function: runs nest in it at most `n` deep, and no
session, no schedule and no counter of ids is left.

The worth of a stream does not depend on the ids in it (`Plan.respects_worth`).
What a token is worth after a position is what the next stage gives for it, worth
after the position of that stage (`Plan.token_of_next?`).
-/

namespace WikiExpansion

/-- What a stage does with a token. -/
inductive Stage where
  | expander
  | table (t : TemplateTable)
deriving Inhabited

def gather {α β : Type} (f : α → Option (List β)) : List α → Option (List β)
  | [] => some []
  | a :: as => (f a).bind fun b => (gather f as).map (b ++ ·)

theorem exists_of_mem_gather {α β : Type} {f : α → Option (List β)} {as : List α} {bs : List β}
    (h : gather f as = some bs) {b : β} (hb : b ∈ bs) : ∃ a ∈ as, ∃ cs, f a = some cs ∧ b ∈ cs := by
  induction as generalizing bs with
  | nil =>
    obtain rfl := Option.some.inj h
    exact absurd hb List.not_mem_nil
  | cons a as ih =>
    obtain ⟨cs, hcs, h⟩ := Option.bind_eq_some_iff.1 h
    obtain ⟨ds, hds, rfl⟩ := Option.map_eq_some_iff.1 h
    rcases List.mem_append.1 hb with hb | hb
    · exact ⟨a, List.mem_cons_self, cs, hcs, hb⟩
    · obtain ⟨a', ha, h⟩ := ih hds hb
      exact ⟨a', List.mem_cons_of_mem a ha, h⟩

theorem eq_ok_of_toOption {α : Type} {r : Outcome α} {a : α} (h : r.toOption = some a) :
    r = .ok a := by
  cases r with
  | error e => cases h
  | ok b => exact congrArg _ (Option.some.inj h)

/-! ### Worth -/

/-- What a side of an attribute is worth, if `nested` gives what streams are worth. -/
def sideWorth (nested : List Token → Option (List Token)) :
    Content Token → Option (Content Token)
  | .text s => some (.text s)
  | .tokens ts => (nested ts).map .tokens

def pairWorth (nested : List Token → Option (List Token)) (a : Attribute Token) :
    Option (Held (Attribute Token)) :=
  if a.needsExpansion then
    (sideWorth nested a.key).bind fun k =>
      (sideWorth nested a.value).map fun v => .own (newAttribute k v)
  else some (.shared a)

def pairsWorth (nested : List Token → Option (List Token)) (as : List (Attribute Token)) :
    Option (List (Held (Attribute Token))) :=
  gather (fun a => (pairWorth nested a).map ([·])) as

def Stage.worth (o : Options) (nested : List Token → Option (List Token)) :
    Stage → Token → Option (List Token)
  | expander, t =>
    match t.expandableTag? with
    | some g =>
      if g.attributes.isEmpty then some [t]
      else (pairsWorth nested g.attributes).bind fun hs => (returnAttributes o {} t hs).1.toOption
    | none => some [t]
  | table b, t =>
    match TemplateTable.target? t with
    | some n => (b.body? n).map fun body =>
        if o.wrapTemplates then TemplateTable.wrap maskedId body else [.text body]
    | none => some [t]

/-- What a token is worth on its way through some stages. -/
def tokenWorth (o : Options) (nested : List Token → Option (List Token)) :
    List (Registration Stage) → Token → Option (List Token)
  | [], t => some [t]
  | r :: rs, t =>
    if r.filter.accepts t.kind then
      (r.handler.worth o nested t).bind (gather (tokenWorth o nested rs))
    else tokenWorth o nested rs t

structure Plan where
  options : Options
  stages : Registry Stage
  ordered : stages.Ordered

namespace Plan

/-- What a stream is worth, with runs nested less than `n` deep. -/
def worth (P : Plan) : Nat → List Token → Option (List Token)
  | 0, _ => none
  | n + 1, ts => gather (tokenWorth P.options (P.worth n) (P.stages.after none)) ts

def token (P : Plan) (p : Option Position) (t : Token) (n : Nat) : Option (List Token) :=
  tokenWorth P.options (P.worth n) (P.stages.after p) t

def stream (P : Plan) (p : Option Position) (ts : List Token) (n : Nat) : Option (List Token) :=
  gather (fun t => P.token p t n) ts

end Plan

/-! ### Ids do not matter -/

/-- The tokens that are given, up to what is compared. -/
def seen (w : Bool) (r : Option (List Token)) : Option (List Token) :=
  r.map (List.map (Token.view w))

/-- Streams that agree are worth the same, up to what is compared. -/
def Respects (w : Bool) (f : List Token → Option (List Token)) : Prop :=
  ∀ ts us, ts.map (Token.view w) = us.map (Token.view w) → seen w (f ts) = seen w (f us)

theorem map_gather_congr {α β γ δ : Type} {m : α → γ} {k : β → δ} {f g : α → Option (List β)}
    (h : ∀ a b, m a = m b → (f a).map (List.map k) = (g b).map (List.map k)) :
    ∀ {as bs : List α}, as.map m = bs.map m →
      (gather f as).map (List.map k) = (gather g bs).map (List.map k) := by
  intro as
  induction as with
  | nil =>
    intro bs e
    obtain rfl := List.map_eq_nil_iff.1 e.symm
    rfl
  | cons a as ih =>
    intro bs e
    cases bs with
    | nil => cases e
    | cons b bs =>
      rw [List.map_cons, List.map_cons, List.cons.injEq] at e
      have hab := h a b e.1
      have hr := ih e.2
      rw [gather, gather]
      cases ha : f a with
      | none =>
        cases hb : g b with
        | none => rfl
        | some y =>
          rw [ha, hb] at hab
          cases hab
      | some x =>
        cases hb : g b with
        | none =>
          rw [ha, hb] at hab
          cases hab
        | some y =>
          rw [ha, hb] at hab
          have hxy : x.map k = y.map k := Option.some.inj hab
          cases hx : gather f as with
          | none =>
            cases hy : gather g bs with
            | none => rfl
            | some v =>
              rw [hx, hy] at hr
              cases hr
          | some u =>
            cases hy : gather g bs with
            | none =>
              rw [hx, hy] at hr
              cases hr
            | some v =>
              rw [hx, hy] at hr
              have huv : u.map k = v.map k := Option.some.inj hr
              simp only [Option.bind_some, Option.map_some, List.map_append, hxy, huv]

theorem seen_bind {w : Bool} {r q : Option (List Token)} {f : List Token → Option (List Token)}
    (h : seen w r = seen w q) (hf : Respects w f) : seen w (r.bind f) = seen w (q.bind f) := by
  cases r with
  | none =>
    cases q with
    | none => rfl
    | some b => cases h
  | some a =>
    cases q with
    | none => cases h
    | some b => exact hf a b (Option.some.inj h)

theorem respects_gather {w : Bool} {f : Token → Option (List Token)}
    (h : ∀ t u, t.view w = u.view w → seen w (f t) = seen w (f u)) : Respects w (gather f) :=
  fun _ _ e => map_gather_congr h e

def Content.view (w : Bool) (c : Content Token) : Content Token := if w then c.mask false else c

theorem Content.view_tokens (w : Bool) (ts : List Token) :
    (Content.tokens ts).view w = .tokens (ts.map (Token.view w)) := by
  cases w with
  | false => simp only [view, Bool.false_eq_true, if_false, Token.view_false, List.map_id]
  | true => exact mask_tokens false ts

theorem Content.view_text (w : Bool) (s : String) : (Content.text s).view w = .text s := by
  cases w <;> rfl

theorem view_newAttribute {w : Bool} {k k' v v' : Content Token} (hk : k.view w = k'.view w)
    (hv : v.view w = v'.view w) :
    (newAttribute k v).view w = (newAttribute k' v').view w := by
  cases w with
  | false =>
    obtain rfl : k = k' := hk
    obtain rfl : v = v' := hv
    rfl
  | true =>
    refine Attribute.mask_eq_of_maskSides (Attribute.maskSides_eq_iff.2 ?_)
    exact ⟨hk, hv, rfl, rfl, rfl⟩

theorem map_view_sideWorth {w : Bool} {f : List Token → Option (List Token)} (hf : Respects w f)
    {c d : Content Token} (h : c.view w = d.view w) :
    (sideWorth f c).map (Content.view w) = (sideWorth f d).map (Content.view w) := by
  cases c with
  | text s =>
    cases d with
    | text t => exact congrArg some h
    | tokens us =>
      rw [Content.view_text, Content.view_tokens] at h
      cases h
  | tokens ts =>
    cases d with
    | text t =>
      rw [Content.view_text, Content.view_tokens] at h
      cases h
    | tokens us =>
      rw [Content.view_tokens, Content.view_tokens] at h
      have hfs := hf ts us (Content.tokens.inj h)
      simp only [sideWorth, Option.map_map]
      have hc (r : Option (List Token)) :
          r.map (Content.view w ∘ Content.tokens) = (seen w r).map Content.tokens := by
        rw [seen, Option.map_map]
        exact congrArg (Option.map · r) (funext fun ts => Content.view_tokens w ts)
      rw [hc, hc, hfs]

theorem Attribute.view_sides {w : Bool} {a b : Attribute Token} (h : a.view w = b.view w) :
    a.needsExpansion = b.needsExpansion ∧ (a.needsExpansion = true →
      a.key.view w = b.key.view w ∧ a.value.view w = b.value.view w) := by
  cases w with
  | false =>
    obtain rfl : a = b := h
    exact ⟨rfl, fun _ => ⟨rfl, rfl⟩⟩
  | true =>
    have h : a.mask = b.mask := h
    have hn : a.needsExpansion = b.needsExpansion := by
      rw [← needsExpansion_mask, h, needsExpansion_mask]
    refine ⟨hn, fun ha => ?_⟩
    have hs := maskSides_eq_mask ha
    rw [h, ← maskSides_eq_mask (hn ▸ ha)] at hs
    obtain ⟨hk, hv, -⟩ := maskSides_eq_iff.1 hs
    exact ⟨hk, hv⟩

/-- Pairs that agree are worth the same. -/
theorem map_view_pairWorth {w : Bool} {f : List Token → Option (List Token)} (hf : Respects w f)
    {a b : Attribute Token} (h : a.view w = b.view w) :
    (pairWorth f a).map (Held.map (Attribute.view w)) =
      (pairWorth f b).map (Held.map (Attribute.view w)) := by
  obtain ⟨hn, hs⟩ := Attribute.view_sides h
  unfold pairWorth
  rw [← hn]
  cases ha : a.needsExpansion with
  | false => exact congrArg (fun a => some (Held.shared a)) h
  | true =>
    obtain ⟨hk, hv⟩ := hs ha
    have hk := map_view_sideWorth hf hk
    have hv := map_view_sideWorth hf hv
    simp only [if_true]
    cases hka : sideWorth f a.key with
    | none =>
      cases hkb : sideWorth f b.key with
      | none => rfl
      | some k' =>
        rw [hka, hkb] at hk
        cases hk
    | some k =>
      cases hkb : sideWorth f b.key with
      | none =>
        rw [hka, hkb] at hk
        cases hk
      | some k' =>
        cases hva : sideWorth f a.value with
        | none =>
          cases hvb : sideWorth f b.value with
          | none => rfl
          | some v' =>
            rw [hva, hvb] at hv
            cases hv
        | some v =>
          cases hvb : sideWorth f b.value with
          | none =>
            rw [hva, hvb] at hv
            cases hv
          | some v' =>
            rw [hka, hkb] at hk
            rw [hva, hvb] at hv
            have := view_newAttribute (Option.some.inj hk) (Option.some.inj hv)
            exact congrArg (fun a => some (Held.own a)) this

theorem Content.fits_of_sideWorth {f : List Token → Option (List Token)} {c d : Content Token}
    (h : sideWorth f c = some d) : c.Fits d := by
  cases c with
  | text s => exact (Option.some.inj h).symm
  | tokens ts =>
    obtain ⟨us, -, rfl⟩ := Option.map_eq_some_iff.1 h
    rfl

theorem Content.fits_self (c : Content Token) : c.Fits c := by
  cases c <;> rfl

/-- What a pair is worth: the pair itself, or a new one of what its sides are worth. -/
theorem pairWorth_cases {f : List Token → Option (List Token)} {a : Attribute Token}
    {h : Held (Attribute Token)} (hw : pairWorth f a = some h) :
    (a.needsExpansion = false ∧ h = .shared a) ∨
      a.needsExpansion = true ∧ ∃ k v, h = .own (newAttribute k v) ∧
        sideWorth f a.key = some k ∧ sideWorth f a.value = some v := by
  unfold pairWorth at hw
  cases hn : a.needsExpansion with
  | false =>
    rw [hn, if_neg Bool.false_ne_true] at hw
    exact .inl ⟨rfl, (Option.some.inj hw).symm⟩
  | true =>
    rw [hn, if_pos rfl] at hw
    obtain ⟨k, hk, hw⟩ := Option.bind_eq_some_iff.1 hw
    obtain ⟨v, hv, rfl⟩ := Option.map_eq_some_iff.1 hw
    exact .inr ⟨rfl, k, v, rfl, hk, hv⟩

theorem fits_of_pairWorth {f : List Token → Option (List Token)} {a : Attribute Token}
    {h : Held (Attribute Token)} (e : pairWorth f a = some h) : a.Fits h.get := by
  rcases pairWorth_cases e with ⟨-, rfl⟩ | ⟨-, k, v, rfl, hk, hv⟩
  · exact ⟨Content.fits_self _, Content.fits_self _⟩
  · exact ⟨Content.fits_of_sideWorth hk, Content.fits_of_sideWorth hv⟩

theorem fitAll_of_pairsWorth {f : List Token → Option (List Token)} {as : List (Attribute Token)}
    {hs : List (Held (Attribute Token))} (e : pairsWorth f as = some hs) : FitAll as hs := by
  induction as generalizing hs with
  | nil =>
    cases e
    exact .nil
  | cons a as ih =>
    obtain ⟨b, hb, e⟩ := Option.bind_eq_some_iff.1 e
    obtain ⟨h, hh, rfl⟩ := Option.map_eq_some_iff.1 hb
    obtain ⟨ks, hk, rfl⟩ := Option.map_eq_some_iff.1 e
    exact .cons (fits_of_pairWorth hh) (ih hk)

theorem map_view_pairsWorth {w : Bool} {f : List Token → Option (List Token)} (hf : Respects w f)
    {as bs : List (Attribute Token)}
    (h : as.map (Attribute.view w) = bs.map (Attribute.view w)) :
    (pairsWorth f as).map (List.map (Held.map (Attribute.view w))) =
      (pairsWorth f bs).map (List.map (Held.map (Attribute.view w))) := by
  refine map_gather_congr (fun a b e => ?_) h
  rw [Option.map_map, Option.map_map]
  have := congrArg (Option.map fun h => [h]) (map_view_pairWorth hf e)
  rw [Option.map_map, Option.map_map] at this
  exact this

/-- A tag whose pairs came out in ways that agree is put back in ways that agree. -/
theorem seen_bind_returnAttributes {o : Options} {t u : Token} {g k : Tag Token}
    {r q : Option (List (Held (Attribute Token)))} (ids ids' : IdSource)
    (htu : t.view o.wrapTemplates = u.view o.wrapTemplates)
    (hg : t.expandableTag? = some g) (hk : u.expandableTag? = some k)
    (hr : ∀ hs, r = some hs → FitAll g.attributes hs)
    (hq : ∀ hs, q = some hs → FitAll k.attributes hs)
    (h : r.map (List.map (Held.map (Attribute.view o.wrapTemplates))) =
      q.map (List.map (Held.map (Attribute.view o.wrapTemplates)))) :
    seen o.wrapTemplates (r.bind fun hs => (returnAttributes o ids t hs).1.toOption) =
      seen o.wrapTemplates (q.bind fun hs => (returnAttributes o ids' u hs).1.toOption) := by
  cases r with
  | none =>
    cases q with
    | none => rfl
    | some ks => cases h
  | some hs =>
    cases q with
    | none => cases h
    | some ks =>
      refine viewResult_returnAttributes o ids ids' htu (Option.some.inj h) ?_ ?_
      · intro g' hg'
        obtain rfl := Option.some.inj (hg.symm.trans hg')
        exact hr hs rfl
      · intro k' hk'
        obtain rfl := Option.some.inj (hk.symm.trans hk')
        exact hq ks rfl

theorem Token.kind_view (w : Bool) (t : Token) : (t.view w).kind = t.kind := by
  cases w with
  | false => rfl
  | true => exact kind_mask t

theorem Token.target?_view (w : Bool) (t : Token) :
    TemplateTable.target? (t.view w) = TemplateTable.target? t := by
  cases w with
  | false => rfl
  | true => exact TemplateTable.target?_mask t

theorem Token.attributes_view {w : Bool} {t u : Token} (h : t.view w = u.view w) :
    t.expandableTag?.map (fun g => g.attributes.map (Attribute.view w)) =
      u.expandableTag?.map (fun g => g.attributes.map (Attribute.view w)) := by
  cases w with
  | false =>
    obtain rfl : t = u := h
    rfl
  | true =>
    have h : t.mask = u.mask := h
    have := congrArg (fun t => t.expandableTag?.map Tag.attributes) h
    simp only [expandableTag?_mask, Option.map_map] at this
    have hc : Tag.attributes ∘ Tag.mask = fun g => g.attributes.map Attribute.mask :=
      funext fun g => Tag.attributes_mask g
    rw [hc] at this
    exact this

/-- A stage gives the same for tokens that agree. -/
theorem Stage.seen_worth {o : Options} {f : List Token → Option (List Token)}
    (hf : Respects o.wrapTemplates f) (a : Stage) {t u : Token}
    (h : t.view o.wrapTemplates = u.view o.wrapTemplates) :
    seen o.wrapTemplates (a.worth o f t) = seen o.wrapTemplates (a.worth o f u) := by
  have single : seen o.wrapTemplates (some [t]) = seen o.wrapTemplates (some [u]) :=
    congrArg (fun t => some [t]) h
  cases a with
  | expander =>
    have ha := Token.attributes_view h
    simp only [worth]
    cases hg : t.expandableTag? with
    | none =>
      cases hk : u.expandableTag? with
      | none => exact single
      | some k =>
        rw [hg, hk] at ha
        cases ha
    | some g =>
      cases hk : u.expandableTag? with
      | none =>
        rw [hg, hk] at ha
        cases ha
      | some k =>
        rw [hg, hk] at ha
        have ha : g.attributes.map (Attribute.view o.wrapTemplates) =
            k.attributes.map (Attribute.view o.wrapTemplates) := Option.some.inj ha
        have he : g.attributes.isEmpty = k.attributes.isEmpty := by
          rw [← List.isEmpty_map, ha, List.isEmpty_map]
        simp only [he]
        split
        · exact single
        · exact seen_bind_returnAttributes {} {} h hg hk (fun _ => fitAll_of_pairsWorth)
            (fun _ => fitAll_of_pairsWorth) (map_view_pairsWorth hf ha)
  | table b =>
    have ht : TemplateTable.target? t = TemplateTable.target? u := by
      rw [← Token.target?_view o.wrapTemplates, h, Token.target?_view]
    simp only [worth, ht]
    cases TemplateTable.target? u with
    | none => exact single
    | some n => rfl

theorem seen_tokenWorth {o : Options} {f : List Token → Option (List Token)}
    (hf : Respects o.wrapTemplates f) (rs : List (Registration Stage)) {t u : Token}
    (h : t.view o.wrapTemplates = u.view o.wrapTemplates) :
    seen o.wrapTemplates (tokenWorth o f rs t) = seen o.wrapTemplates (tokenWorth o f rs u) := by
  induction rs generalizing t u with
  | nil => exact congrArg (fun t => some [t]) h
  | cons r rs ih =>
    have hk : t.kind = u.kind := by
      rw [← Token.kind_view o.wrapTemplates, h, Token.kind_view]
    rw [tokenWorth, tokenWorth, hk]
    split
    · exact seen_bind (r.handler.seen_worth hf h) (respects_gather fun t u e => ih e)
    · exact ih h

namespace Plan

variable {P : Plan}

/-- **Streams that agree up to ids are worth the same up to ids.** -/
theorem respects_worth (n : Nat) : Respects P.options.wrapTemplates (P.worth n) := by
  induction n with
  | zero => exact fun _ _ _ => rfl
  | succ n ih => exact respects_gather fun t u e => seen_tokenWorth ih _ e

theorem respects_stream (p : Option Position) (n : Nat) :
    Respects P.options.wrapTemplates (fun ts => P.stream p ts n) :=
  respects_gather fun _ _ e => seen_tokenWorth (P.respects_worth n) _ e

/-! ### The next stage -/

/-- Stages that do not want a token are passed over. -/
theorem tokenWorth_append {o : Options} {f : List Token → Option (List Token)}
    {skipped rs : List (Registration Stage)} {t : Token}
    (h : ∀ e ∈ skipped, e.filter.accepts t.kind = false) :
    tokenWorth o f (skipped ++ rs) t = tokenWorth o f rs t := by
  induction skipped with
  | nil => rfl
  | cons e es ih =>
    obtain ⟨he, hes⟩ := List.forall_mem_cons.1 h
    rw [List.cons_append, tokenWorth, he]
    exact ih hes

theorem token_of_next?_eq_none {p : Option Position} {t : Token}
    (h : P.stages.next? p t.kind = none) (n : Nat) : P.token p t n = some [t] := by
  rw [token, ← List.append_nil (P.stages.after p), tokenWorth_append (Registry.next?_eq_none h)]
  rfl

/-- **What a token is worth is what the next stage gives for it**, worth after the
position of that stage. -/
theorem token_of_next? {p : Option Position} {t : Token} {r : Registration Stage}
    (h : P.stages.next? p t.kind = some r) (n : Nat) :
    P.token p t n = (r.handler.worth P.options (P.worth n) t).bind
      fun ts => P.stream (some r.position) ts n := by
  obtain ⟨skipped, hskip, hr, hsplit⟩ := P.ordered.after_eq h
  rw [token, hsplit, tokenWorth_append hskip, tokenWorth, hr]
  rfl

end Plan

end WikiExpansion
