import WikiExpansion.Handler.Expander
import WikiExpansion.Proofs.Issues
import WikiExpansion.Proofs.Lineage

/-!
# What is labelled by an id

An id that an expander or a template table takes ends as an `about`: on the markers
before a tag, or on the wrapper tags around the body of a template.  It is on all of
them and nothing else is (`labels_tag`, `labels_script`), so tags and templates that
took different ids are told apart by it (`issued_apart`).

Who asks for an id is told by the position in its frame: every script that is on the
agenda is one that a handler registered there may come to (`History.scripted`).  A table
comes to wrapper tags only by way of an id (`History.written`).
-/

namespace WikiExpansion

open TemplateTable

namespace Session

variable {σ : Type}

/-! ### The handler of a script -/

inductive Unfolds (a : Handler σ) (f : Frame) : Script σ → Prop
  | begins (t : Token) : Unfolds a f (a f t)
  | goesOn {s : Session σ} {k₀ k : Script σ} : Unfolds a f k₀ → GoesOn s k₀ k → Unfolds a f k
  | resumes {ts : List Token} {o : Option Options} {done : Outcome (List Token) → Script σ}
      {k : Script σ} (r : Outcome (List Token)) : Unfolds a f (.process ts o done k) →
      Unfolds a f (done r)

/-- A handler registered at the position of the frame may come to the script. -/
def Traces (g : Registry (Handler σ)) (f : Frame) (k : Script σ) : Prop :=
  ∃ r ∈ g.entries, r.position = f.position ∧ Unfolds r.handler f k

theorem Traces.mono {g g' : Registry (Handler σ)} (hg : ∀ r ∈ g.entries, r ∈ g'.entries)
    {f : Frame} {k : Script σ} (h : Traces g f k) : Traces g' f k := by
  obtain ⟨r, hr, hp, hk⟩ := h
  exact ⟨r, hg r hr, hp, hk⟩

/-- All scripts of a session stem from the handlers at their positions. -/
structure Scripted (s : Session σ) : Prop where
  scripts : ∀ f k, .follow f k ∈ s.agenda → Traces s.registry f k
  callbacks : ∀ (n : Nat) (c : Callback σ), s.callbacks[n]? = some c →
    ∃ ts o k, Traces s.registry c.frame (.process ts o c.script k)

variable {s t : Session σ} {task : Task σ}

theorem mem_entries_register {r : Registration (Handler σ)} (h : r ∈ s.registry.entries)
    (n : String) (k : Rank) (f : Filter) (a : Handler σ) :
    r ∈ (s.register n k f a).registry.entries :=
  Registry.mem_insert.2 (.inr h)

theorem Move.registered (h : Move s task t) : ∀ r ∈ s.registry.entries, r ∈ t.registry.entries := by
  intro r hr
  cases h with
  | register => exact mem_entries_register hr _ _ _ _
  | _ => exact hr

theorem Act.registered (h : Act s t) : ∀ r ∈ s.registry.entries, r ∈ t.registry.entries := by
  intro r hr
  cases h with
  | register => exact mem_entries_register hr _ _ _ _
  | _ => exact hr

theorem registered_step (s : Session σ) :
    ∀ r ∈ s.registry.entries, r ∈ s.step.registry.entries := by
  rcases step_eq s with ⟨-, he⟩ | ⟨s₀, task, rfl, hm⟩
  · exact he.symm ▸ fun _ hr => hr
  · exact hm.registered

theorem Move.scripted (h : Move s task t) (hs : Scripted (s.push [task])) : Scripted t := by
  refine ⟨fun f k hm => ?_, fun n c hc => ?_⟩
  · rcases h.follow_cases hm with hm | ⟨r, hr, hp, a, rfl⟩ | ⟨n, c, q, hc, rfl, rfl⟩ |
      ⟨k₀, rfl, hk⟩
    · exact (hs.scripts f k (mem_push.2 (.inr hm))).mono h.registered
    · exact ⟨r, h.registered r hr, hp, .begins a⟩
    · obtain ⟨ts, o, k, r, hr, hp, hk⟩ := hs.callbacks n c hc
      exact ⟨r, h.registered r hr, hp, .resumes q hk⟩
    · obtain ⟨r, hr, hp, hc⟩ := hs.scripts f k₀ mem_push_self
      exact ⟨r, h.registered r hr, hp, .goesOn hc hk⟩
  · rcases h.callback_cases hc with hc | ⟨f, ts, o, d, k, rfl, -, rfl⟩
    · obtain ⟨ts, o, k, hk⟩ := hs.callbacks n c hc
      exact ⟨ts, o, k, hk.mono h.registered⟩
    · exact ⟨ts, o, k, (hs.scripts f _ mem_push_self).mono h.registered⟩

theorem Act.follow_mem (h : Act s t) {f : Frame} {k : Script σ} (hm : .follow f k ∈ t.agenda) :
    .follow f k ∈ s.agenda := (h.asks hm).resolve_right nofun

theorem Act.scripted (h : Act s t) (hs : Scripted s) : Scripted t := by
  obtain ⟨-, -, -, hc⟩ := h.records
  refine ⟨fun f k hm => (hs.scripts f k (h.follow_mem hm)).mono h.registered, fun n c hn => ?_⟩
  obtain ⟨ts, o, k, hk⟩ := hs.callbacks n c (hc ▸ hn)
  exact ⟨ts, o, k, hk.mono h.registered⟩

variable {ids : IdSource} {is : List (Issue σ)}

/-- **Every script is one that a handler registered at its position may come to.** -/
theorem History.scripted (h : History ids is s) : Scripted s := by
  refine h.keeps ?_ ?_ ?_ ?_
  · intro o m
    exact ⟨fun _ _ h => absurd h List.not_mem_nil, fun _ _ h => absurd h getElem?_empty_ne_some⟩
  · intro s task t hm hs
    exact hm.scripted hs
  · intro s t ha hs
    exact ha.scripted hs
  · intro s i hs
    exact ⟨hs.scripts, hs.callbacks⟩

end Session

open Session

/-! ### Where an issue comes from -/

namespace Issue

variable {σ : Type}

/-- A script that takes an id is one that a registered handler may come to, and a tag
takes one only where it is put together with a new one. -/
def Arises (g : Registry (Handler σ)) (i : Issue σ) : Prop :=
  match i.receiver with
  | .outside _ => True
  | .script f next => Traces g f (.newObjectId next)
  | .tag o t hs => (returnAttributes o i.ids t hs).2 ≠ i.ids

theorem Arises.mono {g g' : Registry (Handler σ)} (hg : ∀ r ∈ g.entries, r ∈ g'.entries)
    {i : Issue σ} (h : i.Arises g) : i.Arises g' := by
  obtain ⟨ids, _ | ⟨f, next⟩ | ⟨o, t, hs⟩⟩ := i
  · trivial
  · exact Traces.mono hg h
  · exact h

theorem arises_ofTag (g : Registry (Handler σ)) {ids : IdSource} {o : Options} {t : Token}
    {hs : List (Held (Attribute Token))} {i : Issue σ} (hi : i ∈ ofTag ids o t hs) :
    i.Arises g := by
  unfold ofTag at hi
  split at hi
  next => cases hi
  next hne =>
    obtain rfl := List.mem_singleton.1 hi
    exact hne

end Issue

theorem Session.Scripted.arises {σ : Type} {s : Session σ} (h : Scripted s) {i : Issue σ}
    (hi : i ∈ s.issues) : i.Arises s.registry := by
  unfold issues at hi
  split at hi
  next ha =>
    obtain rfl := List.mem_singleton.1 hi
    exact h.scripts _ _ (ha ▸ List.mem_cons_self)
  next => exact Issue.arises_ofTag _ hi
  next => cases hi

theorem Session.History.arises {σ : Type} {ids : IdSource} {is : List (Issue σ)} {s : Session σ}
    (h : History ids is s) : ∀ i ∈ is, i.Arises s.registry := by
  induction h with
  | new o m => exact nofun
  | @step is s h ih =>
    intro i hi
    rcases List.mem_append.1 hi with hi | hi
    · exact (ih i hi).mono (registered_step s)
    · exact (h.scripted.arises hi).mono (registered_step s)
  | act _ ha _ ih => exact fun i hi => (ih i hi).mono ha.registered
  | object _ ih | about _ ih =>
    intro i hi
    rcases List.mem_append.1 hi with hi | hi
    · exact ih i hi
    · obtain rfl := List.mem_singleton.1 hi
      trivial
  | reconcile o t hs _ ih =>
    intro i hi
    rcases List.mem_append.1 hi with hi | hi
    · exact ih i hi
    · exact Issue.arises_ofTag _ hi

/-! ### What a table writes -/

/-- The script answers with the tokens, or holds them back as an answer. -/
inductive Script.Gives : Script Desk → List Token → Prop
  | answer (ts : List Token) : Gives (.answer (.ok ts)) ts
  | hold (name : String) (h : Handle) (t : Token) (ts : List Token) :
      Gives (.remember (·.hold name ⟨h, t, .ok ts⟩) fun _ => .suspend) ts

theorem gives_hold {name : String} {h : Handle} {t : Token} {r : Outcome (List Token)}
    {ts : List Token}
    (hg : Script.Gives (.remember (·.hold name ⟨h, t, r⟩) fun _ => .suspend) ts) : r = .ok ts := by
  generalize hk : (Script.remember (fun d : Desk => d.hold name ⟨h, t, r⟩)
    fun _ => .suspend) = k at hg
  cases hg with
  | answer => cases hk
  | hold name' h' t' =>
    injection hk with hu
    -- what an empty desk then holds
    have hd := congrArg Desk.held (congrFun hu {})
    simp only [Desk.hold, List.nil_append, List.cons.injEq, Prod.mk.injEq, Parked.mk.injEq,
      and_true] at hd
    exact hd.2.2.2

theorem Script.Gives.unique {k : Script Desk} {ts us : List Token} (h : k.Gives ts)
    (g : k.Gives us) : ts = us := by
  cases h with
  | answer =>
    cases g with
    | answer => rfl
  | hold => exact Except.ok.inj (gives_hold g)

inductive Templating : Handler Desk → Prop
  | expander (o : Options) : Templating (expander o)
  | immediate (b : TemplateTable) : Templating b.immediate
  | deferred (b : TemplateTable) (name : String) : Templating (b.deferred name)

inductive Proceeds : Script Desk → Prop
  | answer (r : Outcome (List Token)) : Proceeds (.answer r)
  | suspend : Proceeds .suspend
  | expand (t : Token) (o : Options) : Proceeds (.expandAttributes t o .suspend)
  | hold (name : String) (p : Parked) : Proceeds (.remember (·.hold name p) fun _ => .suspend)
  | ask {next : String → Script Desk} (body : String) :
      (∀ id, (next id).Gives (wrap ("#" ++ id) body)) → Proceeds (.newObjectId next)

theorem Script.Gives.proceeds {k : Script Desk} {ts : List Token} (h : k.Gives ts) :
    Proceeds k := by
  cases h with
  | answer => exact .answer _
  | hold name a t => exact .hold name _

theorem Proceeds.goesOn {s : Session Desk} {k₀ k : Script Desk} (h : Proceeds k₀)
    (hk : GoesOn s k₀ k) : Proceeds k := by
  cases h with
  | answer | suspend => cases hk
  | expand | hold =>
    cases hk
    exact .suspend
  | ask body hb =>
    cases hk with
    | newObjectId => exact (hb _).proceeds

structure HandsOver (next : Outcome (List Token) → Script Desk) : Prop where
  proceeds : ∀ r, Proceeds (next r)
  gives : ∀ r ts, (next r).Gives ts ↔ r = .ok ts

theorem handsOver_answer : HandsOver .answer := by
  refine ⟨fun r => .answer r, fun r ts => ⟨fun h => ?_, fun h => h ▸ .answer ts⟩⟩
  cases h
  rfl

theorem handsOver_hold (name : String) (h : Handle) (t : Token) :
    HandsOver fun r => .remember (·.hold name ⟨h, t, r⟩) fun _ => .suspend :=
  ⟨fun r => .hold name ⟨h, t, r⟩, fun _ ts => ⟨gives_hold, fun hr => hr ▸ .hold name h t ts⟩⟩

/-- What the handlers of expanders and tables begin with when they meet the token. -/
inductive TakesUp (t : Token) : Script Desk → Prop
  | pass : TakesUp t (.answer (.ok [t]))
  | expand (o : Options) : TakesUp t (.expandAttributes t o .suspend)
  | template {next : Outcome (List Token) → Script Desk} (b : TemplateTable) (o : Options)
      (target : String) : HandsOver next → TakesUp t (b.expand o target next)

theorem Templating.takesUp {a : Handler Desk} (h : Templating a) (f : Frame) (t : Token) :
    TakesUp t (a f t) := by
  cases h with
  | expander o =>
    unfold WikiExpansion.expander
    split
    · split
      · exact .pass
      · exact .expand o
    · exact .pass
  | immediate b =>
    unfold TemplateTable.immediate
    split
    · exact .pass
    · exact .template b _ _ handsOver_answer
  | deferred b name =>
    unfold TemplateTable.deferred
    split
    · exact .pass
    · exact .template b _ _ (handsOver_hold name f.handle t)

theorem TakesUp.proceeds {t : Token} {k : Script Desk} (h : TakesUp t k) : Proceeds k := by
  cases h with
  | pass => exact .answer _
  | expand o => exact .expand t o
  | template b o target hn =>
    unfold TemplateTable.expand
    split
    · exact hn.proceeds _
    · split
      · exact .ask _ fun id => (hn.gives _ _).2 rfl
      · exact hn.proceeds _

/-- Before it has an id a table gives one token at most. -/
theorem TakesUp.single {t : Token} {k : Script Desk} (h : TakesUp t k) {ts : List Token}
    (hg : k.Gives ts) : ∃ u, ts = [u] := by
  cases h with
  | pass =>
    cases hg
    exact ⟨t, rfl⟩
  | expand => cases hg
  | template b o target hn =>
    unfold TemplateTable.expand at hg
    split at hg
    · cases (hn.gives _ _).1 hg
    · split at hg
      · cases hg
      · exact ⟨_, (Except.ok.inj ((hn.gives _ _).1 hg)).symm⟩

theorem Templating.unfolds {a : Handler Desk} (h : Templating a) {f : Frame} {k : Script Desk}
    (hk : Unfolds a f k) : Proceeds k := by
  induction hk with
  | begins t => exact (h.takesUp f t).proceeds
  | goesOn _ hg ih => exact ih.goesOn hg
  | resumes _ _ ih => cases ih

namespace Session

def Templated (s : Session Desk) (p : Position) : Prop :=
  ∀ r ∈ s.registry.entries, r.position = p → Templating r.handler

theorem Templated.of_registered {s t : Session Desk} {p : Position} (h : t.Templated p)
    (hr : ∀ r ∈ s.registry.entries, r ∈ t.registry.entries) : s.Templated p :=
  fun r hm hp => h r (hr r hm) hp

theorem Traces.proceeds {s : Session Desk} {f : Frame} {k : Script Desk}
    (h : Traces s.registry f k) (hs : s.Templated f.position) : Proceeds k := by
  obtain ⟨r, hr, hp, hk⟩ := h
  exact (hs r hr hp).unfolds hk

/-- What the script gives is one token, or is written with an id of the list. -/
def Written (is : List (Issue Desk)) (f : Frame) (k : Script Desk) : Prop :=
  ∀ ts, k.Gives ts → (∃ u, ts = [u]) ∨
    ∃ i ∈ is, ∃ next, i.receiver = .script f next ∧ k = next i.id

theorem Written.mono {is js : List (Issue Desk)} {f : Frame} {k : Script Desk}
    (h : Written is f k) : Written (is ++ js) f k := by
  intro ts hg
  refine (h ts hg).imp_right fun ⟨i, hi, next, hn⟩ => ?_
  exact ⟨i, List.mem_append_left js hi, next, hn⟩

theorem Move.written {s t : Session Desk} {task : Task Desk} (h : Move s task t)
    (hs : Scripted (s.push [task])) {is : List (Issue Desk)}
    (ih : ∀ f k, .follow f k ∈ (s.push [task]).agenda → s.Templated f.position → Written is f k)
    {f : Frame} {k : Script Desk} (hm : .follow f k ∈ t.agenda) (hp : t.Templated f.position) :
    Written (is ++ (s.push [task]).issues) f k := by
  have hp : s.Templated f.position := hp.of_registered h.registered
  rcases h.follow_cases hm with hm | ⟨r, hr, hrp, a, rfl⟩ | ⟨n, c, q, hc, rfl, rfl⟩ | ⟨k₀, rfl, hk⟩
  · exact (ih f k (mem_push.2 (.inr hm)) hp).mono
  · exact fun ts hg => .inl (((hp r hr hrp).takesUp f a).single hg)
  · -- no expander and no table leaves a script behind
    obtain ⟨ts, o, k, ht⟩ := hs.callbacks n c hc
    cases ht.proceeds hp
  · intro ts hg
    cases (hs.scripts f k₀ mem_push_self).proceeds hp with
    | answer | suspend => cases hk
    | expand | hold =>
      cases hk
      cases hg
    | ask body hb =>
      cases hk with
      | newObjectId =>
        exact .inr ⟨_, List.mem_append_right is (List.mem_singleton_self _), _, rfl, rfl⟩

/-- **Wrapper tags are written with ids that were taken for them.** -/
theorem History.written {ids : IdSource} {is : List (Issue Desk)} {s : Session Desk}
    (h : History ids is s) : ∀ f k, .follow f k ∈ s.agenda → s.Templated f.position →
      Written is f k := by
  induction h with
  | new o m => exact fun _ _ hm => absurd hm List.not_mem_nil
  | @step is s h ih =>
    rcases step_eq s with ⟨-, he⟩ | ⟨s₀, task, rfl, hm⟩
    · rw [he]
      exact fun f k hm hp => (ih f k hm hp).mono
    · exact fun f k hk hp => hm.written h.scripted ih hk hp
  | act _ ha _ ih =>
    exact fun f k hm hp => ih f k (ha.follow_mem hm) (hp.of_registered ha.registered)
  | object _ ih | about _ ih | reconcile _ _ _ _ ih => exact fun f k hm hp => (ih f k hm hp).mono

end Session

/-! ### Labels -/

/-- What is made with the id has the `about` id on it: a marker of the tag that took
it, or a wrapper tag that the script goes on to write. -/
inductive Issue.Labels (i : Issue Desk) (about : String) : Prop
  | marker {o : Options} {t : Token} {hs : List (Held (Attribute Token))} {out : List Token}
      {m : Marker Token} : i.receiver = .tag o t hs → (returnAttributes o i.ids t hs).1 = .ok out →
      .marker m ∈ out → m.about = some about → Labels i about
  | wrapper {f : Frame} {next : String → Script Desk} {ts : List Token} {t : Token}
      {g : Tag Token} : i.receiver = .script f next → (next i.id).Gives ts → t ∈ ts →
      t.tag? = some g → g.textAttribute? "about" = some about → Labels i about

def Issue.about {σ : Type} (i : Issue σ) : String := i.ids.newAboutId.1

theorem labels_tag {ids : IdSource} {o : Options} {t : Token} {hs : List (Held (Attribute Token))}
    (hne : (returnAttributes o ids t hs).2 ≠ ids) (about : String) :
    (⟨ids, .tag o t hs⟩ : Issue Desk).Labels about ↔ about = ids.newAboutId.1 := by
  obtain ⟨ms, u, hm, hout, hon⟩ : ∃ (ms : List (Marker Token)) (u : Token), ms ≠ [] ∧
      (returnAttributes o ids t hs).1 = .ok (ms.map .marker ++ [u]) ∧ u.tag?.isSome = true ∧
      ∀ m ∈ ms, m.about = some ids.newAboutId.1 := by
    have hr := returned_returnAttributes o ids t hs
    generalize (returnAttributes o ids t hs).1 = out at hr ⊢
    generalize (returnAttributes o ids t hs).2 = ids' at hr hne
    cases hr with
    | ineligible | unmodified | modified | malformed => exact absurd rfl hne
    | grouped ht hn hg =>
      rcases hg.source with ⟨-, he, -⟩ | ⟨-, rfl, -⟩
      · exact absurd he hne
      · exact ⟨_, _, hn, rfl, by rw [tag?_withTag ht]; rfl, hg.onMarkers⟩
  refine ⟨fun h => ?_, ?_⟩
  · cases h with
    | @marker o' t' hs' out m he hout' hmem ha =>
      cases he
      obtain rfl := Except.ok.inj (hout.symm.trans hout')
      rcases List.mem_append.1 hmem with hmem | hmem
      · obtain ⟨m', hm', he⟩ := List.mem_map.1 hmem
        obtain rfl := Token.marker.inj he
        exact Option.some.inj (ha.symm.trans (hon.2 _ hm'))
      · rw [← List.mem_singleton.1 hmem] at hon
        cases hon.1
    | wrapper he => cases he
  · rintro rfl
    obtain ⟨m, hm⟩ := List.exists_mem_of_ne_nil ms hm
    exact .marker rfl hout (List.mem_append_left _ (List.mem_map_of_mem hm)) (hon.2 m hm)

theorem labels_script {ids : IdSource} {f : Frame} {next : String → Script Desk} {body : String}
    (hb : ∀ id, (next id).Gives (wrap ("#" ++ id) body)) (about : String) :
    (⟨ids, .script f next⟩ : Issue Desk).Labels about ↔ about = ids.newAboutId.1 := by
  refine ⟨fun h => ?_, ?_⟩
  · cases h with
    | marker he => cases he
    | wrapper he hg ht htag ha =>
      cases he
      obtain rfl := hg.unique (hb _)
      -- both wrapper tags have the id, and the body is no tag
      simp only [wrap, List.mem_cons, List.not_mem_nil, or_false] at ht
      rcases ht with rfl | rfl | rfl
      · obtain rfl := Option.some.inj htag
        exact (Option.some.inj ha).symm
      · cases htag
      · obtain rfl := Option.some.inj htag
        exact (Option.some.inj ha).symm
  · rintro rfl
    exact .wrapper rfl (hb _) List.mem_cons_self rfl rfl

/-- The id was taken for a tag, or in a place of expanders and tables only. -/
def Issue.Groups (s : Session Desk) (i : Issue Desk) : Prop :=
  match i.receiver with
  | .outside _ => False
  | .script f _ => s.Templated f.position
  | .tag .. => True

theorem Issue.Arises.labels {s : Session Desk} {i : Issue Desk} (h : i.Arises s.registry)
    (hg : i.Groups s) (about : String) : i.Labels about ↔ about = i.about := by
  obtain ⟨ids, _ | ⟨f, next⟩ | ⟨o, t, hs⟩⟩ := i
  · exact hg.elim
  · cases Traces.proceeds h hg with
    | ask body hb => exact labels_script hb about
  · exact labels_tag h about

/-- **Ids are handed out once, and label what they were taken for.**  Whatever the
handlers are and however their work is interleaved with calls from outside, the ids
of a session differ from each other and have the numbers from the first one on.

Two places at which a tag was put together with a new id, or at which a template table
took one, have the same `about` on their markers and wrapper tags only if they are the
same place; and no table gives wrapper tags without such a place. -/
theorem issued_apart :
    (∀ {σ : Type} {ids : IdSource} {is : List (Issue σ)} {s : Session σ}, History ids is s →
      (is.map Issue.id).Nodup ∧ s.ids.next = ids.next + is.length ∧
      ∀ (n : Nat) (i : Issue σ), is[n]? = some i →
        i.id = ids.label i.receiver.wantsAbout (ids.next + n)) ∧
    ∀ {ids : IdSource} {is : List (Issue Desk)} {s : Session Desk}, History ids is s →
      (∀ i ∈ is, i.Groups s → ∀ about, i.Labels about ↔ about = i.about) ∧
      (∀ (m n : Nat) (i j : Issue Desk) (a b : String), is[m]? = some i → is[n]? = some j →
        i.Groups s → j.Groups s → i.Labels a → j.Labels b → (a = b ↔ m = n)) ∧
      ∀ f k, .follow f k ∈ s.agenda → s.Templated f.position → Written is f k := by
  refine ⟨fun h => ⟨h.nodup, ?_, fun n i hi => h.id_eq hi⟩, fun {ids is s} h => ?_⟩
  · rw [h.numbered.left]
    rfl
  · have hl (i : Issue Desk) (hi : i ∈ is) (hg : i.Groups s) := (h.arises i hi).labels hg
    have habout {n : Nat} {i : Issue Desk} (hi : is[n]? = some i) :
        i.about = ids.label true (ids.next + n) := by
      rw [Issue.about, h.numbered.source n i hi]
      rfl
    refine ⟨hl, fun m n i j a b hi hj hgi hgj ha hb => ?_, h.written⟩
    rw [(hl i (List.mem_of_getElem? hi) hgi a).1 ha, (hl j (List.mem_of_getElem? hj) hgj b).1 hb,
      habout hi, habout hj, IdSource.label_inj, Nat.add_left_cancel_iff]
    exact and_iff_right rfl

/-! ### Two links and a table that waits -/

namespace Session

/-- The answers that a table gives late take no id of their own. -/
theorem History.flush {ids : IdSource} {is : List (Issue Desk)} {s : Session Desk}
    (h : History ids is s) (name : String) (reversed : Bool) :
    History ids is (s.flush name reversed) := by
  have all (ps : List Parked) : History ids is ((s.setMemory (s.memory.release name)).push
      (ps.map fun p => .deliver (.handle p.handle) p.answer)) := by
    induction ps with
    | nil => exact h.act (.remember _) rfl
    | cons p ps ih => exact ih.act (.complete p.handle p.answer) rfl
  exact all _

def twoStart : Session Desk :=
  TemplateTable.register (withExpander {} {} .attributes {}) .templates
    (TemplateTable.deferred ⟨[("page", "Main")]⟩ "late")

def twoLink : Token :=
  .selfClosing ⟨"a", [newAttribute (.text "href") (.tokens
    [.selfClosing ⟨"template", [newAttribute (.text "target") (.text "page")], {}⟩])], {}⟩

def twoAsked : Session Desk := (twoStart.process [twoLink, twoLink] none).2

def twoAnswered : Session Desk := (twoAsked.settle 100).flush "late" true

def twoIssues : List (Issue Desk) := twoAsked.trail 100 ++ twoAnswered.trail 100

theorem history_two : History {} twoIssues (twoAnswered.settle 100) := by
  have hstart : History {} [] twoStart :=
    ((History.new {} {}).act (.register _ _ _ _) rfl).act (.register _ _ _ _) rfl
  have hasked := (hstart.act (.process [twoLink, twoLink] none) rfl).settle 100
  exact (hasked.flush "late" true).settle 100

theorem templated_two (p : Position) : (twoAnswered.settle 100).Templated p := by
  have hentries : (twoAnswered.settle 100).registry.entries = twoStart.registry.entries := rfl
  intro r hr _
  rw [hentries] at hr
  rcases Registry.mem_insert.1 hr with rfl | hr
  · exact .deferred _ _
  · obtain rfl := List.mem_singleton.1 hr
    exact .expander _

end Session

/-- The second template and the first link took different ids. -/
theorem issued_apart_two :
    twoIssues.map Issue.id = ["mwt1", "mwt2", "#mwt3", "#mwt4"] ∧ (twoIssues.map Issue.id).Nodup ∧
      ∃ i j, twoIssues[1]? = some i ∧ twoIssues[2]? = some j ∧
        i.Labels "#mwt2" ∧ j.Labels "#mwt3" ∧ ("#mwt2" = "#mwt3" ↔ 1 = 2) := by
  obtain ⟨hl, hapart, -⟩ := issued_apart.2 history_two
  obtain ⟨ids, f, next, hi⟩ : ∃ ids f next, twoIssues[1]? = some ⟨ids, .script f next⟩ :=
    ⟨_, _, _, rfl⟩
  obtain ⟨ids', o, t, hs, hj⟩ : ∃ ids o t hs, twoIssues[2]? = some ⟨ids, .tag o t hs⟩ :=
    ⟨_, _, _, _, rfl⟩
  have habout : twoIssues.map Issue.about = ["#mwt1", "#mwt2", "#mwt3", "#mwt4"] := rfl
  have hia := congrArg (·[1]?) habout
  have hja := congrArg (·[2]?) habout
  simp only [List.getElem?_map, hi, hj, Option.map_some] at hia hja
  have hgi : (⟨ids, .script f next⟩ : Issue Desk).Groups (twoAnswered.settle 100) := templated_two _
  have hli := (hl _ (List.mem_of_getElem? hi) hgi _).2 (Option.some.inj hia).symm
  have hlj := (hl _ (List.mem_of_getElem? hj) trivial _).2 (Option.some.inj hja).symm
  exact ⟨rfl, (issued_apart.1 history_two).1, _, _, hi, hj, hli, hlj,
    hapart 1 2 _ _ _ _ hi hj hgi trivial hli hlj⟩

end WikiExpansion
