import WikiExpansion.Proofs.Table

/-!
# Values that templates give

The values of a tag may hold texts and templates.  Where a table knows all of these
templates, the standard pipeline leaves every pair of the tag its place and its key and
gives it the text that its texts and the bodies of its templates make
(`Session.run_filled`).  Where templates are wrapped, a marker for each pair with a
template stands before the tag, and an `about` and a `typeof` stand behind its pairs.

What comes of a text or a template is that text or that body once the wrapper tags are
dropped, and they name a template if it was one (`Fills`).  So stripping a value leaves one
text (`strip_of_fills`), which settles its pair (`reconcilePair_of_fills`).
-/

namespace WikiExpansion

open Vocabulary

def templateType : String := "mw:Object/Template"

/-! ### The reference -/

/-- The text itself, or the body that the table has for a template. -/
def Token.filling (b : TemplateTable) (t : Token) : String :=
  match t.template? with
  | some n => (b.body? n).getD ""
  | none => t.plainText

def Token.Fillable (b : TemplateTable) (t : Token) : Prop :=
  (∃ s, t = .text s) ∨ ∃ n body, t.template? = some n ∧ b.body? n = some body

namespace Content

def filling (b : TemplateTable) : Content Token → String
  | .text s => s
  | .tokens ts => String.join (ts.map (Token.filling b))

def asks : Content Token → Bool
  | .text _ => false
  | .tokens ts => ts.any (·.template?.isSome)

theorem asks_of_text {c : Content Token} {s : String} (h : c = .text s) : c.asks = false := by
  rw [h]
  rfl

end Content

namespace Attribute

def filled (b : TemplateTable) (a : Attribute Token) : Attribute Token :=
  { a with value := .text (a.value.filling b) }

/-- The key is an ordinary text that names no label of the tag, and the value is a text, or
texts and templates that the table knows. -/
structure Fillable (b : TemplateTable) (a : Attribute Token) : Prop where
  key : ∃ k, a.key = .text k ∧ k ≠ "" ∧ k ≠ "about" ∧ k ≠ "typeof" ∧
    Text.startsWith reserved k = false ∧ Text.contains maybeContent k = false
  value : ∀ ts, a.value = .tokens ts → ∀ u ∈ ts, u.Fillable b

/-- The pairs of which the record is kept: none where templates are not wrapped, and
else those with a template. -/
def recorded (q : Options) (as : List (Attribute Token)) : List (Attribute Token) :=
  if q.wrapTemplates then as.filter (·.value.asks) else []

theorem recorded_singleton (q : Options) (a : Attribute Token) :
    recorded q [a] = if q.wrapTemplates && a.value.asks then [a] else [] := by
  rw [recorded, List.filter_cons, List.filter_nil]
  cases q.wrapTemplates <;> rfl

theorem recorded_cons (q : Options) (a : Attribute Token) (as : List (Attribute Token)) :
    recorded q (a :: as) = recorded q [a] ++ recorded q as := by
  unfold recorded
  cases q.wrapTemplates with
  | true =>
    rw [if_pos rfl, if_pos rfl, if_pos rfl]
    exact List.filter_append [a] as
  | false => rfl

theorem recorded_of_texts (q : Options) {as : List (Attribute Token)}
    (h : ∀ a ∈ as, a.value.asks = false) : recorded q as = [] := by
  have hnone : as.filter (·.value.asks) = [] :=
    List.filter_eq_nil_iff.2 fun a ha => Bool.eq_false_iff.1 (h a ha)
  rw [recorded, hnone, ite_self]

theorem filled_of_text {b : TemplateTable} {a : Attribute Token} {s : String}
    (h : a.value = .text s) : a.filled b = a := by
  rw [filled, h, Content.filling, ← h]

end Attribute

/-- The marker of a pair that has its value from templates, with the id of its tag. -/
structure Marker.Records (b : TemplateTable) (id : String) (a : Attribute Token)
    (m : Marker Token) : Prop where
  part : m.part = .value
  objectType : m.objectType = templateType
  key : m.key = a.key
  value : m.value = .text (a.value.filling b)
  about : m.about = some id

def templateLabels (id : String) (as : List (Attribute Token)) : List (Attribute Token) :=
  if as.isEmpty then []
  else [newAttribute (.text "about") (.text id),
    newAttribute (.text "typeof") (.text "mw:ExpandedAttrs/Template")]

/-! ### What comes of a value -/

section Value

variable {q : Options} {b : TemplateTable}

/-- Without wrapper tags the tokens are the one text that the token stands for, and
they name a template where it is one and is wrapped. -/
def Fills (q : Options) (b : TemplateTable) (t : Token) (us : List Token) : Prop :=
  us.filter (!·.isMeta) = [.text (t.filling b)] ∧
    us.findSome? Token.wrapperType? =
      if q.wrapTemplates && t.template?.isSome then some templateType else none

theorem Registry.Tabled.exists_fills {g : Registry Worker} (hg : g.Tabled q b)
    {nested : Options → List Token → Work (List Token)} {t : Token} (ht : t.Fillable b)
    (i : IdSource) :
    ∃ us, (tokenWork q nested g.entries t i).1 = .ok us ∧ Fills q b t us := by
  rcases ht with ⟨s, rfl⟩ | ⟨n, body, hn, hbody⟩
  · refine ⟨[.text s], ?_, rfl, ?_⟩
    · rw [hg.tokenWork_other rfl, Token.passes_of_not_tag rfl]
    · show none = if q.wrapTemplates && false then some templateType else none
      rw [Bool.and_false]
      rfl
  · have hfilling : t.filling b = body := by
      rw [Token.filling, hn]
      show (b.body? n).getD "" = body
      rw [hbody]
      rfl
    have htarget : TemplateTable.target? t = some n := TemplateTable.target?_of_template? hn
    unfold Fills
    rw [hg.tokenWork_template hn, Worker.work, htarget, hfilling, hn]
    dsimp only
    rw [hbody]
    cases q.wrapTemplates with
    | true => exact ⟨_, rfl, rfl, rfl⟩
    | false => exact ⟨_, rfl, rfl, rfl⟩

theorem plainText_map_text (ss : List String) : plainText (ss.map .text) = String.join ss := by
  induction ss with
  | nil => rfl
  | cons s ss ih =>
    rw [List.map_cons, plainText, ih, String.join_cons]
    rfl

theorem filter_of_fills {ts : List Token} {uss : List (List Token)}
    (h : List.Forall₂ (Fills q b) ts uss) :
    uss.flatten.filter (!·.isMeta) = (ts.map (Token.filling b)).map .text := by
  induction h with
  | nil => rfl
  | cons ht _ ih =>
    rw [List.flatten_cons, List.filter_append, ht.1, ih]
    rfl

theorem findSome?_of_fills {ts : List Token} {uss : List (List Token)}
    (h : List.Forall₂ (Fills q b) ts uss) :
    uss.flatten.findSome? Token.wrapperType? =
      if q.wrapTemplates && ts.any (·.template?.isSome) then some templateType else none := by
  induction h with
  | nil =>
    show none = if q.wrapTemplates && false then some templateType else none
    rw [Bool.and_false]
    rfl
  | @cons t us ts uss ht _ ih =>
    rw [List.flatten_cons, List.findSome?_append, ht.2, ih, List.any_cons]
    cases q.wrapTemplates <;> cases t.template?.isSome <;> rfl

/-- **Of a value one text is left**, with the type of the templates in it. -/
theorem strip_of_fills {ts : List Token} {uss : List (List Token)}
    (h : List.Forall₂ (Fills q b) ts uss) :
    strip q.wrapTemplates (.tokens uss.flatten) =
      ⟨.text ((Content.tokens ts).filling b),
        if q.wrapTemplates && (Content.tokens ts).asks then some templateType else none⟩ := by
  have htexts : ((ts.map (Token.filling b)).map Token.text).all Token.isText = true := by
    rw [List.all_map]
    exact List.all_eq_true.2 fun _ _ => rfl
  rw [strip, filter_of_fills h, findSome?_of_fills h, collapse, if_pos htexts, plainText_map_text,
    Content.filling, Content.asks]
  cases q.wrapTemplates <;> rfl

end Value

/-! ### What comes of a pair -/

section Pair

variable {q : Options} {b : TemplateTable} {a : Attribute Token} {p : Held (Attribute Token)}

/-- A pair of texts is kept, and of any other the expanded value leaves the text that the
written one stands for. -/
inductive PairFills (q : Options) (b : TemplateTable) (a : Attribute Token) :
    Held (Attribute Token) → Prop
  | kept (s : String) (hv : a.value = .text s) : PairFills q b a (.shared a)
  | given (x : Content Token) (hv : a.value.isTokens = true)
      (hx : strip q.wrapTemplates x = ⟨.text (a.value.filling b),
        if q.wrapTemplates && a.value.asks then some templateType else none⟩) :
      PairFills q b a (.own (newAttribute a.key x))

theorem exists_pairFills {nested : List Token → Work (List Token)}
    (hn : ∀ ts, (∀ t ∈ ts, t.Fillable b) → ∀ i, ∃ uss, (nested ts i).1 = .ok uss.flatten ∧
      List.Forall₂ (Fills q b) ts uss)
    (ha : a.Fillable b) (i : IdSource) :
    ∃ p, (pairWork nested a i).1 = .ok p ∧ PairFills q b a p := by
  obtain ⟨k, hk, -⟩ := ha.key
  cases hv : a.value with
  | text s =>
    have hplain : a.needsExpansion = false := by
      rw [Attribute.needsExpansion, hk, hv]
      rfl
    refine ⟨.shared a, ?_, .kept s hv⟩
    rw [pairWork_of_texts hplain]
  | tokens ts =>
    obtain ⟨uss, huss, hfills⟩ := hn ts (ha.value ts hv) i
    have hneeds : a.needsExpansion = true := by
      rw [Attribute.needsExpansion, hk, hv]
      rfl
    refine ⟨.own (newAttribute a.key (.tokens uss.flatten)), ?_, .given _ ?_ ?_⟩
    · have hkey : (sideWork nested a.key i) = (.ok a.key, i) := by
        rw [hk]
        rfl
      have hvalue : (sideWork nested a.value i).1 = .ok (.tokens uss.flatten) := by
        rw [hv, sideWork, huss]
        rfl
      rw [pairWork, if_pos hneeds, sweep_cons_ok (congrArg Prod.fst hkey),
        show (sideWork nested a.key i).2 = i from congrArg Prod.snd hkey, sweep_cons_ok hvalue]
      rfl
    · rw [hv]
      rfl
    · rw [hv]
      exact strip_of_fills hfills

def Attribute.MarkedBy (b : TemplateTable) (a : Attribute Token) (m : Marker Token) : Prop :=
  ∃ x, m = newMarker .value templateType a.key (.text (a.value.filling b)) x

theorem reconcilePair_of_text_key {w : Bool} {k : String} (hk : a.key = .text k) (hne : k ≠ "")
    (hp : p.get.key = .text k) :
    reconcilePair w a p = settleValue w a ⟨p.carrySources a, .text k, {}⟩ := by
  have hkey : (p.carrySources a).get.key = .text k := (get_carrySources a p).1.trans hp
  have hempty : p.get.key.isEmptyText = false := by
    rw [hp]
    exact beq_eq_false_iff_ne.2 hne
  have htext : a.key.isTokens = false := by
    rw [hk]
    rfl
  have hsame : keptKey a (p.carrySources a) = ⟨p.carrySources a, .text k, {}⟩ := by
    rw [keptKey, hkey, hk, decide_eq_false fun h => h rfl]
  rw [(ReconcilesPair.text hempty htext).eq, hsame]
  rfl

/-- **A pair is settled with the text of its value**, and marked for its templates. -/
theorem reconcilePair_of_fills (ha : a.Fillable b) (h : PairFills q b a p) :
    (reconcilePair q.wrapTemplates a p).1.get = a.filled b ∧
      (reconcilePair q.wrapTemplates a p).2.added = [] ∧
      List.Forall₂ (Attribute.MarkedBy b) (Attribute.recorded q [a])
        (reconcilePair q.wrapTemplates a p).2.markers := by
  obtain ⟨k, hk, hne, -, -, hreserved, hmaybe⟩ := ha.key
  rw [Attribute.recorded_singleton]
  cases h with
  | kept s hv =>
    have hvalue : a.value.isTokens = false := by
      rw [hv]
      rfl
    rw [reconcilePair_of_text_key (p := .shared a) hk hne hk, settleValue_keeps (.inr hvalue),
      Attribute.filled_of_text hv, Content.asks_of_text hv, Bool.and_false]
    exact ⟨rfl, rfl, .nil⟩
  | given x hv hx =>
    rw [reconcilePair_of_text_key (p := .own (newAttribute a.key x)) hk hne hk,
      (SettlesValue.stripped rfl hv hmaybe hreserved).eq, Held.carrySources,
      carrySources_newAttribute]
    simp only [Held.get_own, Held.get_write, hx]
    refine ⟨rfl, trivial, ?_⟩
    cases q.wrapTemplates && a.value.asks with
    | true =>
      refine .cons ⟨x, ?_⟩ .nil
      rw [hk]
    | false => exact .nil

end Pair

/-! ### What comes of a tag -/

section Tag

variable {q : Options} {b : TemplateTable}

theorem reconcile_of_fills {as : List (Attribute Token)} {hs : List (Held (Attribute Token))}
    (ha : ∀ a ∈ as, a.Fillable b) (h : List.Forall₂ (PairFills q b) as hs) :
    (reconcile q.wrapTemplates as hs).1.map Held.get = as.map (Attribute.filled b) ∧
      (reconcile q.wrapTemplates as hs).2.added = [] ∧
      List.Forall₂ (Attribute.MarkedBy b) (Attribute.recorded q as)
        (reconcile q.wrapTemplates as hs).2.markers := by
  induction h with
  | nil =>
    have hnil : Attribute.recorded q [] = [] := ite_self []
    rw [hnil]
    exact ⟨rfl, rfl, .nil⟩
  | @cons a p as hs hap _ ih =>
    obtain ⟨hget, hadded, hmarkers⟩ := reconcilePair_of_fills (ha a List.mem_cons_self) hap
    obtain ⟨hgets, hadded', hmarkers'⟩ := ih fun c hc => ha c (List.mem_cons_of_mem a hc)
    rw [reconcile_cons, Attribute.recorded_cons]
    simp only [Findings.append_def]
    rw [List.map_cons, List.map_cons, hget, hgets, hadded, hadded']
    exact ⟨rfl, rfl, List.rel_append hmarkers hmarkers'⟩

theorem group_of_unnamed (ids : IdSource) (last : Marker Token) (ms : List (Marker Token))
    {hs : List (Held (Attribute Token))}
    (h : ∀ g ∈ hs, g.get.isNamed "about" = false ∧ g.get.isNamed "typeof" = false) :
    ∃ id, (group ids last ms hs).1.markers = ms.map (fun m => { m with about := some id }) ∧
      (group ids last ms hs).1.attributes =
        hs ++ [.own (newAttribute (.text "about") (.text id)),
          .own (newAttribute (.text "typeof") (.text (expandedLabel last.objectType)))] := by
  obtain ⟨id, mid, hm, hmid, ha⟩ := group_attributes [] ids last ms h
  have hnil : mid = [] := by
    rcases hmid with rfl | ⟨-, rfl⟩
    · rfl
    · rfl
  subst hnil
  refine ⟨id, hm, ha.trans ?_⟩
  show [] ++ (hs ++ [Held.own (newAttribute (.text "about") (.text id))]) ++ _ = _
  rw [List.nil_append, List.append_assoc]
  rfl

/-- The tag with the texts of its values, and with labels if one of these is recorded. -/
def Tag.filled (q : Options) (b : TemplateTable) (id : String) (g : Tag Token) : Tag Token :=
  { g with attributes := g.attributes.map (Attribute.filled b) ++
      templateLabels id (Attribute.recorded q g.attributes) }

theorem Tag.filled_of_none {g : Tag Token} (h : Attribute.recorded q g.attributes = [])
    (id : String) :
    g.filled q b id = { g with attributes := g.attributes.map (Attribute.filled b) } := by
  rw [Tag.filled, h]
  show { g with attributes := g.attributes.map (Attribute.filled b) ++ [] } = _
  rw [List.append_nil]

def IsFilled (q : Options) (b : TemplateTable) (t : Token) (g : Tag Token)
    (r : Outcome (List Token)) : Prop :=
  ∃ id ms, r = .ok (ms.map .marker ++ [t.withTag (g.filled q b id)]) ∧
    List.Forall₂ (Marker.Records b id) (Attribute.recorded q g.attributes) ms

theorem Attribute.Fillable.isNamed_filled {a : Attribute Token} (ha : a.Fillable b) :
    (a.filled b).isNamed "about" = false ∧ (a.filled b).isNamed "typeof" = false := by
  obtain ⟨k, hk, -, habout, htypeof, -⟩ := ha.key
  have hname : (a.filled b).isNamed k = true := Attribute.isNamed_iff.2 hk
  exact ⟨Attribute.not_isNamed_of_ne habout hname, Attribute.not_isNamed_of_ne htypeof hname⟩

theorem isTokens_of_changes_eq_false {as : List (Attribute Token)} (ha : ∀ a ∈ as, a.Fillable b)
    (hc : changes as = false) : ∀ a ∈ as, a.value.isTokens = false := by
  intro a hmem
  obtain ⟨k, hk, hne, -⟩ := (ha a hmem).key
  have hempty : a.key.isEmptyText = false := by
    rw [hk]
    exact beq_eq_false_iff_ne.2 hne
  have hplain := Bool.eq_false_iff.2 (List.any_eq_false.1 hc a hmem)
  rw [hempty, Bool.not_false, Bool.and_true] at hplain
  exact (Bool.or_eq_false_iff.1 hplain).2

theorem isFilled_of_texts {t : Token} {g : Tag Token} (hg : t.expandableTag? = some g)
    (h : ∀ a ∈ g.attributes, a.value.isTokens = false) : IsFilled q b t g (.ok [t]) := by
  have htext : ∀ a ∈ g.attributes, a.filled b = a ∧ a.value.asks = false := by
    intro a ha
    obtain ⟨s, hs⟩ := Content.isTokens_eq_false_iff.1 (h a ha)
    exact ⟨Attribute.filled_of_text hs, Content.asks_of_text hs⟩
  have hnone := Attribute.recorded_of_texts q fun a ha => (htext a ha).2
  have hsame : g.filled q b "" = g := by
    rw [Tag.filled_of_none hnone, List.map_congr_left fun a ha => (htext a ha).1, List.map_id']
  refine ⟨"", [], ?_, hnone ▸ .nil⟩
  rw [hsame, withTag_self hg]
  rfl

theorem Attribute.MarkedBy.records {a : Attribute Token} {m : Marker Token} (h : a.MarkedBy b m)
    (id : String) : Marker.Records b id a { m with about := some id } := by
  obtain ⟨x, rfl⟩ := h
  exact ⟨rfl, rfl, rfl, rfl, rfl⟩

theorem templateLabels_of_last {as : List (Attribute Token)} {ms : List (Marker Token)}
    (h : List.Forall₂ (Attribute.MarkedBy b) as ms) {last : Marker Token}
    (hlast : ms.getLast? = some last) (id : String) :
    templateLabels id as = [newAttribute (.text "about") (.text id),
      newAttribute (.text "typeof") (.text (expandedLabel last.objectType))] := by
  have htype : last.objectType = templateType := by
    obtain ⟨n, hn⟩ := List.getElem?_of_mem (List.mem_of_getLast? hlast)
    obtain ⟨a, -, x, rfl⟩ := getElem?_of_forall₂ h.flip hn
    rfl
  cases h with
  | nil => cases hlast
  | cons _ _ =>
    rw [htype]
    rfl

/-- **A tag of which the values were filled is emitted with them.** -/
theorem isFilled_returnAttributes {t : Token} {g : Tag Token} (hg : t.expandableTag? = some g)
    (ha : ∀ a ∈ g.attributes, a.Fillable b) {hs : List (Held (Attribute Token))}
    (hx : List.Forall₂ Attribute.ExpandsTo g.attributes hs)
    (h : List.Forall₂ (PairFills q b) g.attributes hs) (i : IdSource) :
    IsFilled q b t g (returnAttributes q i t hs).1 := by
  cases hc : changes g.attributes with
  | false =>
    rw [returnAttributes_of_changes_eq_false i hg hx hc]
    exact isFilled_of_texts hg (isTokens_of_changes_eq_false ha hc)
  | true =>
    obtain ⟨hgets, hadded, hmarkers⟩ := reconcile_of_fills ha h
    have hmodified := (modified_reconcile (w := q.wrapTemplates) hx).trans hc
    have hpairs : settledPairs q.wrapTemplates g.attributes hs =
        (reconcile q.wrapTemplates g.attributes hs).1 := by
      rw [settledPairs, hadded, List.map_nil, List.append_nil]
    rw [returnAttributes_emitted q i hg (Nat.le_of_eq h.length_eq)]
    have he := emits q i g hs
    generalize emittedMarkers q i g hs = ms at he ⊢
    generalize emittedAttributes q i g hs = out at he ⊢
    cases he with
    | unmodified hm => exact absurd (hm.symm.trans hmodified) Bool.false_ne_true
    | unmarked _ hn =>
      -- nothing is recorded, and so nothing is added
      rw [hn] at hmarkers
      have hnone := List.forall₂_nil_right_iff.1 hmarkers
      have hfilled : g.withHeld (settledPairs q.wrapTemplates g.attributes hs) =
          g.filled q b "" := by
        rw [Tag.withHeld, hpairs, hgets, Tag.filled_of_none hnone]
      refine ⟨"", [], ?_, hnone ▸ .nil⟩
      exact congrArg (fun g' => Except.ok [t.withTag g']) hfilled
    | @marked last _ hlast =>
      have hunnamed : ∀ p ∈ (reconcile q.wrapTemplates g.attributes hs).1,
          p.get.isNamed "about" = false ∧ p.get.isNamed "typeof" = false := by
        intro p hp
        obtain ⟨a, hmem, he⟩ := List.mem_map.1 (hgets ▸ List.mem_map_of_mem hp)
        exact he ▸ (ha a hmem).isNamed_filled
      rw [hpairs]
      obtain ⟨id, hms, hattributes⟩ := group_of_unnamed i last
        (reconcile q.wrapTemplates g.attributes hs).2.markers hunnamed
      refine ⟨id, (reconcile q.wrapTemplates g.attributes hs).2.markers.map
        fun m => { m with about := some id }, ?_, ?_⟩
      · rw [hms, hattributes, Tag.withHeld, Tag.filled, List.map_append, hgets,
          templateLabels_of_last hmarkers hlast]
        rfl
      · exact List.forall₂_map_right_iff.2 (hmarkers.imp fun a m hm => hm.records id)

/-- What comes of a tag, if the runs on its values come to what they stand for. -/
theorem isFilled_tagWork {nested : List Token → Work (List Token)}
    (hn : ∀ ts, (∀ t ∈ ts, t.Fillable b) → ∀ i, ∃ uss, (nested ts i).1 = .ok uss.flatten ∧
      List.Forall₂ (Fills q b) ts uss)
    {t : Token} {g : Tag Token} (hg : t.expandableTag? = some g)
    (ha : ∀ a ∈ g.attributes, a.Fillable b) (i : IdSource) :
    IsFilled q b t g (tagWork q nested t g.attributes i).1 := by
  obtain ⟨hs, hsweep, hfills⟩ := exists_sweep (fun a hmem j => exists_pairFills hn (ha a hmem) j) i
  have hx := expandsTo_of_sweep hsweep
  unfold tagWork
  generalize sweep (pairWork nested) g.attributes i = r at hsweep
  obtain ⟨r, j⟩ := r
  obtain rfl : r = .ok hs := hsweep
  exact isFilled_returnAttributes hg ha hx hfills j

end Tag

/-! ### The pipeline -/

namespace Registry

variable {g : Registry Worker} {q : Options} {b : TemplateTable}

theorem Tabled.exists_work (hg : g.Tabled q b) (n : Nat) {ts : List Token}
    (hts : ∀ t ∈ ts, t.Fillable b) (i : IdSource) :
    ∃ uss, (g.work (n + 1) q ts i).1 = .ok uss.flatten ∧ List.Forall₂ (Fills q b) ts uss := by
  have htoken : ∀ t ∈ ts, ∀ j, ∃ us,
      (tokenWork q (g.work n) g.entries t j).1 = .ok us ∧ Fills q b t us := by
    intro t ht j
    exact hg.exists_fills (hts t ht) j
  obtain ⟨uss, hsweep, hfills⟩ := exists_sweep htoken i
  refine ⟨uss, ?_, hfills⟩
  rw [Registry.work, streamWork, hsweep]
  rfl

/-- **A tag comes to itself with its values filled.** -/
theorem Tabled.isFilled_work (hg : g.Tabled q b) (n : Nat) {t : Token} {tag : Tag Token}
    (ht : t.expandableTag? = some tag) (hother : t.template? = none)
    (ha : ∀ a ∈ tag.attributes, a.Fillable b) (i : IdSource) :
    IsFilled q b t tag (g.work (n + 2) q [t] i).1 := by
  rw [Registry.work, streamWork_singleton, hg.tokenWork_other hother, Worker.expander_work ht]
  split
  · rename_i hempty
    refine isFilled_of_texts ht ?_
    intro a hmem
    rw [List.isEmpty_iff.1 hempty] at hmem
    cases hmem
  · exact isFilled_tagWork (fun ts hts j => hg.exists_work n hts j) ht ha i

end Registry

namespace Session

variable {σ : Type}

/-- **The standard pipeline puts the bodies of templates in their places.**  A tag with
ordinary keys, of which the values are texts or made of texts and known templates, comes out
with its pairs in their order, each with its key and the text that its value stands for, in
either mode.  Where templates are wrapped, the pairs with a template have one
marker each before the tag, in their order, and two labels behind them. -/
theorem run_filled (q : Options) (memory : σ) (b : TemplateTable) {t : Token} {g : Tag Token}
    (ht : t = .opening g ∨ t = .selfClosing g ∧ g.name ≠ "template")
    (ha : ∀ a ∈ g.attributes, a.Fillable b) :
    ∃ n, ∀ k, n ≤ k → ∃ (id : String) (ms : List (Marker Token)),
      ((tabled q memory b).run k [t]).1 = .ok (ms.map .marker ++
        [t.withTag (g.filled q b id)]) ∧
      List.Forall₂ (Marker.Records b id) (Attribute.recorded q g.attributes) ms := by
  have htag : t.expandableTag? = some g := by
    rcases ht with rfl | ⟨rfl, -⟩
    · rfl
    · rfl
  have hother : t.template? = none := by
    rcases ht with rfl | ⟨rfl, hname⟩
    · rfl
    · exact if_neg hname
  obtain ⟨d, hd⟩ := Token.exists_shallow [t]
  obtain ⟨n, hn⟩ := run_tabled q memory b fun u hu => (hd u hu).succ
  refine ⟨n, ?_⟩
  intro k hk
  rw [hn k hk]
  exact (tabled_crewOf q b).isFilled_work d htag hother ha {}

def pageTable : TemplateTable := ⟨[("page", "Main")]⟩

def titledDiv : Tag Token :=
  ⟨"div", [newAttribute (.text "id") (.text "x"),
    newAttribute (.text "title") (.tokens [.text "to ", .selfClosing ⟨"template",
      [newAttribute (.text "target") (.text "page")], {}⟩, .text "!"])], {}⟩

theorem run_filled_titledDiv :
    ∃ n, ∀ k, n ≤ k → ∃ (id : String) (m : Marker Token),
      ((tabled {} () pageTable).run k [.opening titledDiv]).1 = .ok [.marker m,
        .opening ⟨"div", [newAttribute (.text "id") (.text "x"),
          newAttribute (.text "title") (.text "to Main!"),
          newAttribute (.text "about") (.text id),
          newAttribute (.text "typeof") (.text "mw:ExpandedAttrs/Template")], {}⟩] ∧
      m.key = .text "title" ∧ m.value = .text "to Main!" ∧ m.about = some id := by
  have hid : (newAttribute (.text "id") (.text "x")).Fillable pageTable := by
    refine ⟨⟨"id", rfl, ?_⟩, nofun⟩
    decide
  have htitle : ∀ a ∈ titledDiv.attributes, a.Fillable pageTable := by
    intro a ha
    rcases List.mem_cons.1 ha with rfl | ha
    · exact hid
    · obtain rfl := List.mem_singleton.1 ha
      refine ⟨⟨"title", rfl, ?_⟩, ?_⟩
      · decide
      · intro ts hts u hu
        obtain rfl := Content.tokens.inj hts
        rcases List.mem_cons.1 hu with rfl | hu
        · exact .inl ⟨_, rfl⟩
        · rcases List.mem_cons.1 hu with rfl | hu
          · exact .inr ⟨"page", "Main", rfl, rfl⟩
          · obtain rfl := List.mem_singleton.1 hu
            exact .inl ⟨_, rfl⟩
  obtain ⟨n, hn⟩ := run_filled {} () pageTable (.inl rfl) htitle
  refine ⟨n, ?_⟩
  intro k hk
  obtain ⟨id, ms, hrun, hms⟩ := hn k hk
  cases hms with
  | @cons _ m _ _ hm hrest =>
    cases hrest
    exact ⟨id, m, hrun, hm.key, hm.value, hm.about⟩

end Session

end WikiExpansion
