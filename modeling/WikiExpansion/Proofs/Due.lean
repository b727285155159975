import Mathlib.Order.Filter.AtTopBot.Basic
import WikiExpansion.Handler.Desk
import WikiExpansion.Proofs.Account
import WikiExpansion.Proofs.Stages

/-!
# What the places of a session are due

`Meets` says that a result is what a function of the depth gives from some depth
on, up to what is compared.  Each place of a session of stages is due the worth
of the tokens it stands for (`Session.Expects`), and `Session.Due` says that a
result is that.  The rest of the module says the same of the work in between: of
sides and pairs, of a stream on its way to a place (`Feeds`), of an attribute list
that is expanded for a tag (`Serving`) and of what a script has still to do
(`Answers`).  None of it is lost when a session goes on.
-/

namespace WikiExpansion

section Meets

variable {α β γ : Type} {m : β → γ}

/-- The result is what the function gives from some depth on. -/
def Meets (m : β → γ) (r : Outcome (List β)) (F : Nat → Option (List β)) : Prop :=
  ∀ᶠ n in Filter.atTop, r.toOption.map (List.map m) = (F n).map (List.map m)

def Agree (m : β → γ) (F G : Nat → Option (List β)) : Prop :=
  ∀ᶠ n in Filter.atTop, (F n).map (List.map m) = (G n).map (List.map m)

theorem Agree.refl (F : Nat → Option (List β)) : Agree m F F :=
  Filter.Eventually.of_forall fun _ => rfl

theorem Agree.trans {F G H : Nat → Option (List β)} (h : Agree m F G) (g : Agree m G H) :
    Agree m F H := by
  filter_upwards [h, g] with n e₁ e₂
  exact e₁.trans e₂

theorem Meets.agree {r : Outcome (List β)} {F G : Nat → Option (List β)} (h : Meets m r F)
    (g : Agree m F G) : Meets m r G := by
  filter_upwards [h, g] with n e₁ e₂
  exact e₁.trans e₂

theorem meets_of_eq {r : Outcome (List β)} {F : Nat → Option (List β)}
    (h : ∀ n, r.toOption.map (List.map m) = (F n).map (List.map m)) : Meets m r F :=
  Filter.Eventually.of_forall h

/-- Results that a function gives in the end agree. -/
theorem Meets.unique {r q : Outcome (List β)} {F : Nat → Option (List β)} (h : Meets m r F)
    (g : Meets m q F) : r.toOption.map (List.map m) = q.toOption.map (List.map m) := by
  obtain ⟨n, e₁, e₂⟩ := (h.and g).exists
  exact e₁.trans e₂.symm

theorem Meets.of_succ {r : Outcome (List β)} {F : Nat → Option (List β)}
    (h : Meets m r fun n => F (n + 1)) : Meets m r F := by
  obtain ⟨k, hk⟩ := Filter.eventually_atTop.1 h
  refine Filter.eventually_atTop.2 ⟨k + 1, fun n hn => ?_⟩
  cases n with
  | zero => omega
  | succ n => exact hk n (by omega)

theorem gather_eq_none {f : α → Option (List β)} {a : α} {as : List α} (ha : a ∈ as)
    (h : f a = none) : gather f as = none := by
  induction as with
  | nil => exact absurd ha List.not_mem_nil
  | cons b bs ih =>
    rw [gather]
    rcases List.mem_cons.1 ha with rfl | ha
    · rw [h]
      rfl
    · rw [ih ha]
      cases f b <;> rfl

theorem meets_gather {f : Nat → α → Option (List β)} {as : List α} {vs : List (List β)}
    (h : List.Forall₂ (fun a v => Meets m (.ok v) fun n => f n a) as vs) :
    Meets m (.ok vs.flatten) fun n => gather (f n) as := by
  induction h with
  | nil => exact meets_of_eq fun _ => rfl
  | @cons a v as vs ha _ ih =>
    filter_upwards [ha, ih] with n e₁ e₂
    rw [gather]
    cases hx : f n a with
    | none =>
      rw [hx] at e₁
      cases e₁
    | some x =>
      cases hy : gather (f n) as with
      | none =>
        rw [hy] at e₂
        cases e₂
      | some y =>
        rw [hx] at e₁
        rw [hy] at e₂
        have e₁ : v.map m = x.map m := Option.some.inj e₁
        have e₂ : vs.flatten.map m = y.map m := Option.some.inj e₂
        show some ((v ++ vs.flatten).map m) = some ((x ++ y).map m)
        rw [List.map_append, List.map_append, e₁, e₂]

theorem meets_gather_error {f : Nat → α → Option (List β)} {a : α} {as : List α} (ha : a ∈ as)
    {e : ExpansionError} (h : Meets m (.error e) fun n => f n a) (e' : ExpansionError) :
    Meets m (.error e') fun n => gather (f n) as := by
  filter_upwards [h] with n he
  have hn : f n a = none := Option.map_eq_none_iff.1 he.symm
  rw [gather_eq_none ha hn]
  rfl

theorem Meets.eventually_none {e : ExpansionError} {F : Nat → Option (List β)}
    (h : Meets m (.error e) F) : ∀ᶠ n in Filter.atTop, F n = none :=
  h.mono fun _ e => Option.map_eq_none_iff.1 e.symm

end Meets

/-! ### Sides and pairs -/

namespace Plan

variable (P : Plan)

/-- What is compared of the tokens of a pipeline. -/
abbrev look : Token → Token := Token.view P.options.wrapTemplates

abbrev lookAt : Held (Attribute Token) → Held (Attribute Token) :=
  Held.map (Attribute.view P.options.wrapTemplates)

def SideMeets (c : Content Token) (r : Outcome (Content Token)) : Prop :=
  match c with
  | .text s => r = .ok (.text s)
  | .tokens ts => ∃ q : Outcome (List Token), r = q.map .tokens ∧
      Meets P.look q fun n => P.worth n ts

/-- The result is what a pair is worth, and stands for the pair. -/
def PairMeets (a : Attribute Token) (r : Outcome (Held (Attribute Token))) : Prop :=
  (∀ h, r = .ok h → a.Fits h.get) ∧
    Meets P.lookAt (r.map fun h => [h]) fun n => (pairWorth (P.worth n) a).map fun h => [h]

def PairsMeet (as : List (Attribute Token)) (r : Outcome (List (Held (Attribute Token)))) : Prop :=
  (∀ hs, r = .ok hs → FitAll as hs) ∧ Meets P.lookAt r fun n => pairsWorth (P.worth n) as

variable {P}

theorem SideMeets.fits {c d : Content Token} (h : P.SideMeets c (.ok d)) : c.Fits d := by
  cases c with
  | text s => exact Except.ok.inj h
  | tokens ts =>
    obtain ⟨q, hq, -⟩ := h
    cases q with
    | error e => cases hq
    | ok us =>
      obtain rfl := Except.ok.inj hq
      rfl

theorem SideMeets.eventually {c : Content Token} {r : Outcome (Content Token)}
    (h : P.SideMeets c r) : ∀ᶠ n in Filter.atTop,
      r.toOption.map (Content.view P.options.wrapTemplates) =
        (sideWorth (P.worth n) c).map (Content.view P.options.wrapTemplates) := by
  cases c with
  | text s =>
    obtain rfl : r = .ok (.text s) := h
    exact Filter.Eventually.of_forall fun _ => rfl
  | tokens ts =>
    obtain ⟨q, rfl, hq⟩ := h
    filter_upwards [hq] with n e
    have hc (r : Option (List Token)) :
        (r.map Content.tokens).map (Content.view P.options.wrapTemplates) =
          (r.map (List.map P.look)).map Content.tokens := by
      rw [Option.map_map, Option.map_map]
      exact congrArg (Option.map · r) (funext fun ts => Content.view_tokens _ ts)
    have ho : (q.map Content.tokens).toOption = q.toOption.map Content.tokens := by
      cases q <;> rfl
    rw [ho, hc, e, sideWorth, hc]

theorem pairMeets_of_sides {a : Attribute Token} (hn : a.needsExpansion = true)
    {k v : Content Token} (hk : P.SideMeets a.key (.ok k)) (hv : P.SideMeets a.value (.ok v)) :
    P.PairMeets a (.ok (.own (newAttribute k v))) := by
  refine ⟨fun h e => ?_, ?_⟩
  · obtain rfl := Except.ok.inj e
    exact ⟨hk.fits, hv.fits⟩
  · filter_upwards [hk.eventually, hv.eventually] with n e₁ e₂
    rw [pairWorth, if_pos hn]
    cases hx : sideWorth (P.worth n) a.key with
    | none =>
      rw [hx] at e₁
      cases e₁
    | some x =>
      cases hy : sideWorth (P.worth n) a.value with
      | none =>
        rw [hy] at e₂
        cases e₂
      | some y =>
        rw [hx] at e₁
        rw [hy] at e₂
        have := view_newAttribute (Option.some.inj e₁) (Option.some.inj e₂)
        exact congrArg (fun a => some [Held.own a]) this

theorem pairMeets_of_error {a : Attribute Token} (hn : a.needsExpansion = true) {d : Side}
    {e : ExpansionError} (h : P.SideMeets (d.of a) (.error e)) (e' : ExpansionError) :
    P.PairMeets a (.error e') := by
  refine ⟨nofun, ?_⟩
  filter_upwards [h.eventually] with n he
  have hs : sideWorth (P.worth n) (d.of a) = none := Option.map_eq_none_iff.1 he.symm
  rw [pairWorth, if_pos hn]
  cases d with
  | key =>
    rw [show sideWorth (P.worth n) a.key = none from hs]
    rfl
  | value =>
    rw [show sideWorth (P.worth n) a.value = none from hs]
    cases sideWorth (P.worth n) a.key <;> rfl

theorem pairMeets_shared {a : Attribute Token} (hn : a.needsExpansion = false) :
    P.PairMeets a (.ok (.shared a)) := by
  refine ⟨fun h e => ?_, meets_of_eq fun n => ?_⟩
  · obtain rfl := Except.ok.inj e
    exact ⟨Content.fits_self _, Content.fits_self _⟩
  · rw [pairWorth, hn]
    rfl

theorem pairsMeet_of_pairs {as : List (Attribute Token)} {hs : List (Held (Attribute Token))}
    (h : List.Forall₂ (fun a h => P.PairMeets a (.ok h)) as hs) : P.PairsMeet as (.ok hs) := by
  refine ⟨fun ks e => ?_, ?_⟩
  · obtain rfl := Except.ok.inj e
    exact h.imp fun a h hp => hp.1 h rfl
  · have hg : List.Forall₂ (fun a v => Meets P.lookAt (.ok v)
        fun n => (pairWorth (P.worth n) a).map fun h => [h]) as (hs.map fun h => [h]) :=
      List.forall₂_map_right_iff.2 (h.imp fun a h hp => hp.2)
    have := meets_gather hg
    rwa [← List.flatMap_def, List.flatMap_singleton'] at this

theorem pairsMeet_of_error {as : List (Attribute Token)} {a : Attribute Token} (ha : a ∈ as)
    {e : ExpansionError} (h : P.PairMeets a (.error e)) (e' : ExpansionError) :
    P.PairsMeet as (.error e') :=
  ⟨nofun, meets_gather_error ha h.2 e'⟩

end Plan

/-! ### Places -/

namespace Session

variable (s : Session Desk) (P : Plan) (jobs : List (List Token))

/-- What a place is due: the worth of the tokens it stands for. -/
def Expects : Target → (Nat → Option (List Token)) → Prop
  | .job j, F => ∃ ts, jobs[j]? = some ts ∧ F = P.stream none ts
  | .chunk n i, F =>
    ∃ x t p, s.streams[n]? = some x ∧ x.tokens[i]? = some t ∧ s.StartsAfter x.origin p ∧
      F = P.token p t
  | .side e i d, F =>
    ∃ x a ts, s.expansions[e]? = some x ∧ x.attributes[i]? = some a ∧ d.of a = .tokens ts ∧
      F = P.stream none ts
  | .handle h, F =>
    ∃ v r, s.invocations[h.index]? = some v ∧ r ∈ P.stages.entries ∧ r.position = v.position ∧
      F = fun n => r.handler.worth P.options (P.worth n) v.token
  | .callback _, _ => False

def Due (g : Target) (r : Outcome (List Token)) : Prop :=
  ∃ F, s.Expects P jobs g F ∧ Meets P.look r F

/-- What comes of the tokens after the position is what the place is due. -/
def Feeds (p : Option Position) (ts : List Token) (g : Target) : Prop :=
  ∃ F, s.Expects P jobs g F ∧ Agree P.look (P.stream p ts) F

/-- The attributes are those of the tag for which an expander was invoked, and
what becomes of the tag is its answer. -/
def Serving (u : Purpose) (as : List (Attribute Token)) : Prop :=
  ∃ t h g v r, u = .answer t h ∧ t.expandableTag? = some g ∧ g.attributes = as ∧ as ≠ [] ∧
    s.invocations[h.index]? = some v ∧ v.token = t ∧ r ∈ P.stages.entries ∧
    r.position = v.position ∧ r.handler = .expander

/-- The script gives no other answers than those that are due, now or by the
entries that it leaves on the desk; where `owing`, it has still to give one. -/
inductive Answers (h : Handle) : Bool → Script Desk → Prop
  | answer {owing r} : s.Due P jobs (.handle h) r → Answers h owing (.answer r)
  | suspend : Answers h false .suspend
  | expandAttributes {owing t k g} : t.expandableTag? = some g →
      s.Serving P (.answer t h) g.attributes → Answers h false k →
      Answers h owing (.expandAttributes t P.options k)
  | newObjectId {owing k} : (∀ id, Answers h owing (k id)) → Answers h owing (.newObjectId k)
  | hold {owing name p k} : p.handle = h → s.Due P jobs (.handle h) p.answer →
      (∀ m, Answers h false (k m)) → Answers h owing (.remember (·.hold name p) k)

def Sound : Task Desk → Prop
  | .offer t o p g => o = P.options ∧ s.Expects P jobs g (P.token p t)
  | .stream ts o p _ g => o = P.options ∧ s.Feeds P jobs p ts g
  | .follow f k => ∃ owing, s.Answers P jobs f.handle owing k
  | .deliver g r => s.Due P jobs g r
  | .expand as o u => o = P.options ∧ s.Serving P u as
  | .expandPair _ _ => True
  | .expandSide e i _ =>
    ∃ x a, s.expansions[e]? = some x ∧ x.attributes[i]? = some a ∧ a.needsExpansion = true
  | .settleSide e i d r =>
    ∃ x a, s.expansions[e]? = some x ∧ x.attributes[i]? = some a ∧ a.needsExpansion = true ∧
      P.SideMeets (d.of a) r
  | .settlePair e i r =>
    ∃ x a, s.expansions[e]? = some x ∧ x.attributes[i]? = some a ∧ P.PairMeets a r
  | .finish o u r => o = P.options ∧ ∃ as, s.Serving P u as ∧ P.PairsMeet as r

variable {s P jobs} {t : Session Desk} {jobs' : List (List Token)}

/-! ### What is due stays due -/

theorem Expects.mono (he : Extends s t) (hj : jobs <+: jobs') {g : Target}
    {F : Nat → Option (List Token)} (h : s.Expects P jobs g F) : t.Expects P jobs' g F := by
  cases g with
  | job j =>
    obtain ⟨ts, hts, hF⟩ := h
    obtain ⟨more, rfl⟩ := hj
    refine ⟨ts, ?_, hF⟩
    rw [List.getElem?_append_left (List.getElem?_eq_some_iff.1 hts).1]
    exact hts
  | chunk n i =>
    obtain ⟨x, a, p, hx, ha, hp, hF⟩ := h
    obtain ⟨j, hj, -⟩ := he.streams n x hx
    exact ⟨_, a, p, hj, ha, hp.mono he, hF⟩
  | side e i d =>
    obtain ⟨x, a, ts, hx, ha, hd, hF⟩ := h
    obtain ⟨u, v, hu⟩ := he.expansions e x hx
    exact ⟨_, a, ts, hu, ha, hd, hF⟩
  | handle k =>
    obtain ⟨v, r, hv, hr, hp, hF⟩ := h
    obtain ⟨a, ha, -⟩ := he.invocations _ v hv
    exact ⟨_, r, ha, hr, hp, hF⟩
  | callback n => exact h.elim

theorem Due.mono (he : Extends s t) (hj : jobs <+: jobs') {g : Target}
    {r : Outcome (List Token)} (h : s.Due P jobs g r) : t.Due P jobs' g r :=
  h.imp fun _ h => ⟨h.1.mono he hj, h.2⟩

theorem Feeds.mono (he : Extends s t) (hj : jobs <+: jobs') {p : Option Position}
    {ts : List Token} {g : Target} (h : s.Feeds P jobs p ts g) : t.Feeds P jobs' p ts g :=
  h.imp fun _ h => ⟨h.1.mono he hj, h.2⟩

theorem Serving.mono (he : Extends s t) {u : Purpose} {as : List (Attribute Token)}
    (h : s.Serving P u as) : t.Serving P u as := by
  obtain ⟨a, k, g, v, r, hu, hg, has, hne, hv, hva, hr⟩ := h
  obtain ⟨b, hb, -⟩ := he.invocations _ v hv
  exact ⟨a, k, g, _, r, hu, hg, has, hne, hb, hva, hr⟩

theorem Answers.mono (he : Extends s t) (hj : jobs <+: jobs') {h : Handle} {owing : Bool}
    {k : Script Desk} (ha : s.Answers P jobs h owing k) : t.Answers P jobs' h owing k := by
  induction ha with
  | answer hd => exact .answer (hd.mono he hj)
  | suspend => exact .suspend
  | expandAttributes hg hs _ ih => exact .expandAttributes hg (hs.mono he) ih
  | newObjectId _ ih => exact .newObjectId ih
  | hold hp hd _ ih => exact .hold hp (hd.mono he hj) ih

theorem Sound.mono (he : Extends s t) (hj : jobs <+: jobs') {task : Task Desk}
    (h : s.Sound P jobs task) : t.Sound P jobs' task := by
  cases task with
  | offer a o p g => exact ⟨h.1, h.2.mono he hj⟩
  | stream ts o p k g => exact ⟨h.1, h.2.mono he hj⟩
  | follow f k => exact h.imp fun _ h => h.mono he hj
  | deliver g r => exact Due.mono he hj h
  | expand as o u => exact ⟨h.1, h.2.mono he⟩
  | expandPair e i => trivial
  | expandSide e i d =>
    obtain ⟨x, a, hx, ha⟩ := h
    obtain ⟨u, v, hu⟩ := he.expansions e x hx
    exact ⟨_, a, hu, ha⟩
  | settleSide e i d r =>
    obtain ⟨x, a, hx, ha⟩ := h
    obtain ⟨u, v, hu⟩ := he.expansions e x hx
    exact ⟨_, a, hu, ha⟩
  | settlePair e i r =>
    obtain ⟨x, a, hx, ha⟩ := h
    obtain ⟨u, v, hu⟩ := he.expansions e x hx
    exact ⟨_, a, hu, ha⟩
  | finish o u r =>
    obtain ⟨ho, as, hs, hm⟩ := h
    exact ⟨ho, as, hs.mono he, hm⟩

/-! ### No place is due two things -/

theorem StartsAfter.unique {k : Option Handle} {p q : Option Position} (hp : s.StartsAfter k p)
    (hq : s.StartsAfter k q) : p = q := by
  cases k with
  | none => exact hp.trans hq.symm
  | some h =>
    obtain ⟨v, hv, rfl⟩ := hp
    obtain ⟨w, hw, rfl⟩ := hq
    rw [Option.some.inj (hv.symm.trans hw)]

/-- What an invocation is due is what its stage gives. -/
theorem Expects.of_handle {h : Handle} {F : Nat → Option (List Token)}
    (hF : s.Expects P jobs (.handle h) F) {v : Invocation} (hv : s.invocations[h.index]? = some v)
    {r : Registration Stage} (hr : r ∈ P.stages.entries) (hp : r.position = v.position) :
    F = fun n => r.handler.worth P.options (P.worth n) v.token := by
  obtain ⟨w, q, hw, hq, hqp, rfl⟩ := hF
  obtain rfl := Option.some.inj (hv.symm.trans hw)
  rw [P.ordered.eq_of_position hr hq (hp.trans hqp.symm)]

/-- What a place in a stream is due is what its token is worth. -/
theorem Expects.of_chunk {n i : Nat} {F : Nat → Option (List Token)}
    (hF : s.Expects P jobs (.chunk n i) F) {x : Stream} (hx : s.streams[n]? = some x)
    {p : Option Position} (hp : s.StartsAfter x.origin p) :
    ∃ a, x.tokens[i]? = some a ∧ F = P.token p a := by
  obtain ⟨y, a, q, hy, ha, hq, rfl⟩ := hF
  obtain rfl := Option.some.inj (hx.symm.trans hy)
  obtain rfl := hp.unique hq
  exact ⟨a, ha, rfl⟩

theorem Due.trans {g : Target} {p : Option Position} {ts : List Token} {r : Outcome (List Token)}
    (hf : s.Feeds P jobs p ts g) (hm : Meets P.look r (P.stream p ts)) : s.Due P jobs g r := by
  obtain ⟨F, hF, ha⟩ := hf
  exact ⟨F, hF, hm.agree ha⟩

end Session

end WikiExpansion
