import Mathlib.Data.List.ReduceOption
import WikiExpansion.Proofs.Changes

/-!
# Undecided attributes

An attribute whose key holds `mw:maybeContent` may yet turn out to be content.  It is
left undecided: its value stays in the tag as it came, wrappers and all, and nothing
marks it.  What is needed to decide about it later stands in a pair of its own behind
the written ones (`Attribute.Companion`).  A value that some object produced has both of
its forms there, and the value under a key that was itself produced is repeated.

`returnAttributes_undecided` says so of the tag that comes out of an expansion: the
undecided attributes keep their places, and their companions, one for each at most,
follow the written pairs in the order of these.
-/

namespace WikiExpansion

open Vocabulary

/-! ### What each pair gives -/

section Gives

variable {o : Options} {as : List (Attribute Token)} {hs : List (Held (Attribute Token))}

/-- The markers that a pair gives, which are none where templates are not wrapped. -/
def marksOf (w : Bool) (written expanded : Attribute Token) : List (Marker Token) :=
  if w then pairMarkers written expanded else []

theorem markers_reconcile_eq_flatten {w : Bool} (hf : FitAll as hs) :
    (reconcile w as hs).2.markers = (List.zipWith (marksOf w) as (hs.map Held.get)).flatten := by
  cases w with
  | true => exact (reconcile_markers hf).1
  | false =>
    rw [markers_reconcile_unwrapped]
    induction hf with
    | nil => rfl
    | cons _ _ ih => exact ih

variable {tag : Tag Token} {ids : IdSource}

theorem emittedMarkers_eq (o : Options) (ids : IdSource) (hf : FitAll tag.attributes hs) :
    ∃ id, emittedMarkers o ids tag hs =
      (List.zipWith (marksOf o.wrapTemplates) tag.attributes (hs.map Held.get)).flatten.map
        fun m => { m with about := some id } := by
  rw [← markers_reconcile_eq_flatten hf]
  have he := emits o ids tag hs
  generalize emittedMarkers o ids tag hs = ms at he ⊢
  generalize emittedAttributes o ids tag hs = out at he
  cases he with
  | unmodified hm =>
    rw [(tells_reconcile _ _ _ hm).1]
    exact ⟨"", rfl⟩
  | unmarked _ hn =>
    rw [hn]
    exact ⟨"", rfl⟩
  | marked => exact markers_group ..

/-- A pair that changed stands in its place as it was settled, but for an `about` and a
`typeof`. -/
theorem getElem?_emittedAttributes (ids : IdSource) {i : Nat} {a : Attribute Token}
    {h : Held (Attribute Token)} (ha : tag.attributes[i]? = some a) (hh : hs[i]? = some h)
    (hc : ¬ a.Unchanged h.get)
    (habout : (reconcilePair o.wrapTemplates a h).1.get.isNamed "about" = false)
    (htypeof : (reconcilePair o.wrapTemplates a h).1.get.isNamed "typeof" = false) :
    ∃ x, (emittedAttributes o ids tag hs)[i]? = some x ∧
      x.get = (reconcilePair o.wrapTemplates a h).1.get := by
  obtain ⟨r, ids', hr, -, hget⟩ := rebuild_of_changed o ids tag fun hu => hc (hu i a h ha hh)
  obtain ⟨x, hx, he⟩ := hget i _ (getElem?_reconcile ha hh) habout htypeof
  refine ⟨x, ?_, he⟩
  rw [emittedAttributes, hr]
  exact hx

/-- Behind the written pairs stand those that were added for them, and then nothing but
an `about` and a `typeof`. -/
theorem drop_emittedAttributes (o : Options) (ids : IdSource) (hf : FitAll tag.attributes hs) :
    ∃ rest, ((emittedAttributes o ids tag hs).map Held.get).drop tag.attributes.length =
        syntheticPairs o.wrapTemplates tag.attributes (hs.map Held.get) ++ rest ∧
      ∀ b ∈ rest, b.key = .text "about" ∨ b.key = .text "typeof" := by
  have hlen : (reconcile o.wrapTemplates tag.attributes hs).1.length = tag.attributes.length := by
    rw [length_reconcile, hf.length_eq]
  rw [← added_reconcile hf]
  have he := emits o ids tag hs
  generalize emittedMarkers o ids tag hs = ms at he
  generalize emittedAttributes o ids tag hs = out at he ⊢
  cases he with
  | unmodified hm =>
    refine ⟨[], ?_, nofun⟩
    have hshare : (tag.share.map Held.get).length = tag.attributes.length := by
      rw [List.length_map, Tag.share, List.length_map]
    rw [(tells_reconcile _ _ _ hm).2]
    exact List.drop_eq_nil_iff.2 (Nat.le_of_eq hshare)
  | unmarked =>
    refine ⟨[], ?_, nofun⟩
    rw [List.append_nil, settledPairs, ← List.map_drop, List.drop_left' hlen, List.map_map]
    exact List.map_id _
  | @marked last =>
    have hnames : ∀ g ∈ (reconcile o.wrapTemplates tag.attributes hs).2.added.map Held.own,
        g.get.isNamed "about" = false ∧ g.get.isNamed "typeof" = false := by
      intro g hg
      obtain ⟨c, hc, rfl⟩ := List.mem_map.1 hg
      rw [added_reconcile hf] at hc
      exact isNamed_syntheticPairs c hc
    obtain ⟨rest, hdrop, hkeys⟩ := drop_group (reconcile o.wrapTemplates tag.attributes hs).1 ids
      last (reconcile o.wrapTemplates tag.attributes hs).2.markers hnames
    rw [hlen] at hdrop
    refine ⟨rest.map Held.get, ?_, fun b hb => ?_⟩
    · rw [← List.map_drop, settledPairs, hdrop, List.map_append, List.map_map]
      exact congrArg (· ++ _) (List.map_id _)
    · obtain ⟨g, hg, rfl⟩ := List.mem_map.1 hb
      exact hkeys g hg

end Gives

/-! ### Undecided sides -/

namespace Attribute

/-- The key is a text that holds the mark, and the value was to be expanded. -/
structure DefersValue (written : Attribute Token) (k : String) : Prop where
  key : written.key = .text k
  marked : Text.contains maybeContent k = true
  value : written.value.isTokens = true

/-- The key was to be expanded, and the plain text that came of it holds the mark. -/
structure DefersKey (written expanded : Attribute Token) : Prop where
  key : written.key.isTokens = true
  marked : Text.contains maybeContent expanded.key.plainText = true

/-- The pair that an undecided one is given to be decided by. -/
inductive Companion (w : Bool) (written expanded : Attribute Token) : Attribute Token → Prop
  /-- Both forms of a value that some object produced, with the type of the object. -/
  | value {k type : String} : written.DefersValue k →
      (strip w expanded.value).objectType = some type →
      Companion w written expanded (newAttribute (.text valueAffected)
        (.tokens [.text type, .marker ⟨.value, type, .text k, (strip w expanded.value).value,
          expanded.value, none⟩]))
  | key : written.DefersKey expanded →
      Companion w written expanded (newAttribute (.text keyAffected) expanded.value)

variable {w : Bool} {a b c : Attribute Token} {h : Held (Attribute Token)} {k : String}

theorem DefersValue.key_eq (hd : a.DefersValue k) (hf : a.Fits b) : b.key = .text k := by
  have hk := hf.1
  rw [hd.key] at hk
  exact hk

theorem DefersValue.not_isTokens (hd : a.DefersValue k) : a.key.isTokens = false := by
  rw [hd.key]
  rfl

theorem syntheticPair?_eq_some_iff (hf : a.Fits b) :
    syntheticPair? w a b = some c ↔ a.Companion w b c := by
  constructor
  · intro hc
    unfold syntheticPair? at hc
    split at hc
    · rename_i hmark
      split at hc
      · rename_i hk
        obtain rfl := Option.some.inj hc
        exact .key ⟨hk, hmark⟩
      · rename_i hk
        split at hc
        · rename_i hv
          obtain ⟨k, hkey⟩ := Content.isTokens_eq_false_iff.1 (Bool.eq_false_iff.2 hk)
          have hbkey : b.key = .text k := (hf.1.eq_of_text (Bool.eq_false_iff.2 hk)).trans hkey
          rw [hbkey] at hmark hc
          obtain ⟨type, htype, rfl⟩ := Option.map_eq_some_iff.1 hc
          exact .value ⟨hkey, hmark, hv⟩ htype
        · cases hc
    · cases hc
  · intro hc
    unfold syntheticPair?
    cases hc with
    | @value k type hd htype =>
      have hmark : Text.contains maybeContent b.key.plainText = true := by
        rw [hd.key_eq hf]
        exact hd.marked
      rw [if_pos hmark, if_neg (by rw [hd.not_isTokens]; exact Bool.false_ne_true),
        if_pos hd.value, htype, hd.key_eq hf]
      rfl
    | key hd => rw [if_pos hd.marked, if_pos hd.key]

theorem not_isEmptyText_of_marked {s : String} (hs : Text.contains maybeContent s = true) :
    (Content.text s : Content Token).isEmptyText = false := by
  cases he : (Content.text s : Content Token).isEmptyText with
  | false => rfl
  | true =>
    rw [beq_iff_eq.1 he] at hs
    cases hs

/-- The mark is not a name of the tag's own. -/
theorem not_isNamed_of_marked {s : String} (hs : Text.contains maybeContent s = true)
    (hb : b.key = .text s) : b.isNamed "about" = false ∧ b.isNamed "typeof" = false := by
  have ne {j : String} (hj : Text.contains maybeContent j = false) : b.isNamed j = false := by
    rw [Bool.eq_false_iff, ne_eq, isNamed_iff, hb]
    intro he
    rw [Content.text.inj he, hj] at hs
    cases hs
  exact ⟨ne (by decide), ne (by decide)⟩

/-- A value that is deferred stays as it came. -/
theorem DefersValue.reconcilePair (hd : a.DefersValue k) (hf : a.Fits h.get) :
    (reconcilePair w a h).1 = h.carrySources a := by
  have hkey : (keptKey a (h.carrySources a)).key = .text k := by
    rw [keptKey, (get_carrySources a h).1, hd.key_eq hf]
  have hempty : h.get.key.isEmptyText = false := by
    rw [hd.key_eq hf, not_isEmptyText_of_marked hd.marked]
  rw [(ReconcilesPair.text hempty hd.not_isTokens).eq,
    (SettlesValue.deferred hkey hd.value hd.marked).eq]
  rfl

/-- A key that is deferred becomes its plain text, and the value beside it stays as it
came. -/
theorem DefersKey.reconcilePair (hd : a.DefersKey h.get) (hf : a.Fits h.get) :
    (reconcilePair w a h).1.get.key = .text h.get.key.plainText ∧
      (reconcilePair w a h).1.get.value = h.get.value := by
  obtain ⟨hkey, hvalue⟩ := get_carrySources a h
  have hempty : h.get.key.isEmptyText = false :=
    Content.isEmptyText_of_isTokens (hf.1.isTokens.trans hd.key)
  have hmark : Text.contains maybeContent (h.carrySources a).get.key.plainText = true := by
    rw [hkey, hd.marked]
  rw [(ReconcilesPair.tokens hempty hd.key).eq, (ReconcilesKey.undecided hmark).eq, ← hkey,
    ← hvalue]
  -- the key that stands in for the deferred one is reserved
  cases hv : a.value.isTokens with
  | false =>
    rw [settleValue_keeps (.inr hv)]
    exact ⟨rfl, rfl⟩
  | true =>
    rw [(SettlesValue.reserved (k := keyAffected) rfl hv (by decide) (by decide)).eq]
    exact ⟨rfl, rfl⟩

theorem not_isOrdinaryKey_of_marked {s : String} (hs : Text.contains maybeContent s = true) :
    (Content.text s : Content Token).isOrdinaryKey = false := by
  rw [Content.isOrdinaryKey, Content.text?_text, Option.any_some, hs]
  rfl

theorem DefersValue.marksOf_eq (hd : a.DefersValue k) (hf : a.Fits b) : marksOf w a b = [] := by
  have hkey : dueKeyMarker? a b = none := by
    rw [dueKeyMarker?, hd.not_isTokens]
    rfl
  have hvalue : dueValueMarker? a b = none := by
    rw [dueValueMarker?, finalKey_of_text hf hd.not_isTokens, hd.key,
      not_isOrdinaryKey_of_marked hd.marked, Bool.and_false]
    rfl
  rw [marksOf, pairMarkers, hkey, hvalue]
  exact ite_self _

theorem DefersKey.marksOf_eq (hd : a.DefersKey b) : marksOf w a b = [] := by
  have hkey : dueKeyMarker? a b = none := by
    rw [dueKeyMarker?, hd.marked, Bool.not_true, Bool.and_false]
    rfl
  have hvalue : dueValueMarker? a b = none := by
    rw [dueValueMarker?, finalKey, if_pos hd.key, if_pos hd.marked,
      not_isOrdinaryKey_of_marked hd.marked, Bool.and_false]
    rfl
  rw [marksOf, pairMarkers, hkey, hvalue]
  exact ite_self _

end Attribute

/-! ### The tag -/

structure KeepsUndecided (w : Bool) (as : List (Attribute Token))
    (hs : List (Held (Attribute Token))) (ms : List (Marker Token))
    (out : List (Attribute Token)) : Prop where
  value : ∀ (i : Nat) (a : Attribute Token) (h : Held (Attribute Token)) (k : String),
    as[i]? = some a → hs[i]? = some h → a.DefersValue k →
    ∃ b, out[i]? = some b ∧ b.key = .text k ∧ b.value = h.get.value
  key : ∀ (i : Nat) (a : Attribute Token) (h : Held (Attribute Token)),
    as[i]? = some a → hs[i]? = some h → a.DefersKey h.get →
    ∃ b, out[i]? = some b ∧ b.key = .text h.get.key.plainText ∧ b.value = h.get.value
  /-- The companions follow the written pairs in the order of these, one for each at most,
  with nothing but an `about` and a `typeof` behind them. -/
  companions : ∃ (cs : List (Option (Attribute Token))) (rest : List (Attribute Token)),
    out.drop as.length = cs.reduceOption ++ rest ∧
    (∀ b ∈ rest, b.key = .text "about" ∨ b.key = .text "typeof") ∧ cs.length = as.length ∧
    ∀ (i : Nat) (a : Attribute Token) (h : Held (Attribute Token)),
      as[i]? = some a → hs[i]? = some h →
      ∃ x, cs[i]? = some x ∧ ∀ c, x = some c ↔ a.Companion w h.get c
  marks : ∃ id, ms = (List.zipWith (marksOf w) as (hs.map Held.get)).flatten.map
    fun m => { m with about := some id }
  unmarked : ∀ (i : Nat) (a : Attribute Token) (h : Held (Attribute Token)),
    as[i]? = some a → hs[i]? = some h → (∃ k, a.DefersValue k) ∨ a.DefersKey h.get →
    marksOf w a h.get = []

section Tag

variable {o : Options} {ids : IdSource} {tag : Tag Token} {hs : List (Held (Attribute Token))}
  {i : Nat} {a : Attribute Token} {h : Held (Attribute Token)}

theorem FitAll.fits {as : List (Attribute Token)} (hf : FitAll as hs) (ha : as[i]? = some a)
    (hh : hs[i]? = some h) : a.Fits h.get := by
  obtain ⟨g, hg, hfit⟩ := getElem?_of_forall₂ hf ha
  obtain rfl := Option.some.inj (hh.symm.trans hg)
  exact hfit

theorem getElem?_zipWith_get {β : Type} (f : Attribute Token → Attribute Token → β)
    {as : List (Attribute Token)} (ha : as[i]? = some a) (hh : hs[i]? = some h) :
    (List.zipWith f as (hs.map Held.get))[i]? = some (f a h.get) := by
  rw [List.getElem?_zipWith, ha, List.getElem?_map, hh]
  rfl

theorem FitAll.length_zipWith_get {β : Type} (f : Attribute Token → Attribute Token → β)
    {as : List (Attribute Token)} (hf : FitAll as hs) :
    (List.zipWith f as (hs.map Held.get)).length = as.length := by
  rw [List.length_zipWith, List.length_map, hf.length_eq, Nat.min_self]

theorem syntheticPairs_eq_reduceOption (w : Bool) (as bs : List (Attribute Token)) :
    syntheticPairs w as bs = (List.zipWith (syntheticPair? w) as bs).reduceOption := by
  induction as generalizing bs with
  | nil => rfl
  | cons a as ih =>
    cases bs with
    | nil => rfl
    | cons b bs =>
      show (syntheticPair? w a b).toList ++ syntheticPairs w as bs = _
      rw [ih, List.zipWith_cons_cons]
      cases syntheticPair? w a b with
      | none => rfl
      | some c => rfl

theorem getElem?_emitted_of_marked {s : String} (ha : tag.attributes[i]? = some a)
    (hh : hs[i]? = some h) (hn : a.needsExpansion = true) (hne : h.get.key.isEmptyText = false)
    (hs' : Text.contains maybeContent s = true)
    (hk : (reconcilePair o.wrapTemplates a h).1.get.key = .text s) :
    ((emittedAttributes o ids tag hs).map Held.get)[i]? =
      some (reconcilePair o.wrapTemplates a h).1.get := by
  have hchanged : ¬ a.Unchanged h.get := by
    rintro (he | ⟨hno, -⟩)
    · rw [Content.isEmptyText_iff.2 he] at hne
      cases hne
    · rw [hn] at hno
      cases hno
  obtain ⟨habout, htypeof⟩ := Attribute.not_isNamed_of_marked hs' hk
  obtain ⟨x, hx, he⟩ := getElem?_emittedAttributes ids ha hh hchanged habout htypeof
  rw [List.getElem?_map, hx, ← he]
  rfl

theorem keepsUndecided_emitted (o : Options) (ids : IdSource) (hf : FitAll tag.attributes hs) :
    KeepsUndecided o.wrapTemplates tag.attributes hs (emittedMarkers o ids tag hs)
      ((emittedAttributes o ids tag hs).map Held.get) := by
  refine ⟨fun i a h k ha hh hd => ?_, fun i a h ha hh hd => ?_, ?_, emittedMarkers_eq o ids hf,
    fun i a h ha hh hd => ?_⟩
  · have hkey := hd.key_eq (hf.fits ha hh)
    have hsettled := hd.reconcilePair (w := o.wrapTemplates) (hf.fits ha hh)
    obtain ⟨hck, hcv⟩ := get_carrySources a h
    have hne : h.get.key.isEmptyText = false := by
      rw [hkey]
      exact Attribute.not_isEmptyText_of_marked hd.marked
    have hn : a.needsExpansion = true := by rw [Attribute.needsExpansion, hd.value, Bool.or_true]
    refine ⟨_, getElem?_emitted_of_marked ha hh hn hne hd.marked ?_, ?_, ?_⟩
    · rw [hsettled, hck, hkey]
    · rw [hsettled, hck, hkey]
    · rw [hsettled, hcv]
  · obtain ⟨hkey, hvalue⟩ := hd.reconcilePair (w := o.wrapTemplates) (hf.fits ha hh)
    have hne := Content.isEmptyText_of_isTokens ((hf.fits ha hh).1.isTokens.trans hd.key)
    have hn : a.needsExpansion = true := by rw [Attribute.needsExpansion, hd.key, Bool.true_or]
    exact ⟨_, getElem?_emitted_of_marked ha hh hn hne hd.marked hkey, hkey, hvalue⟩
  · obtain ⟨rest, hdrop, hrest⟩ := drop_emittedAttributes o ids hf
    rw [syntheticPairs_eq_reduceOption] at hdrop
    exact ⟨_, rest, hdrop, hrest, hf.length_zipWith_get _, fun i a h ha hh =>
      ⟨_, getElem?_zipWith_get _ ha hh, fun c =>
        Attribute.syntheticPair?_eq_some_iff (hf.fits ha hh)⟩⟩
  · rcases hd with ⟨k, hd⟩ | hd
    · exact hd.marksOf_eq (hf.fits ha hh)
    · exact hd.marksOf_eq

end Tag

/-- **Both forms of an undecided attribute are kept**, in the pair itself and in one
behind the written pairs, and nothing is decided about it. -/
theorem returnAttributes_undecided (o : Options) (ids : IdSource) {token : Token}
    {tag : Tag Token} {hs : List (Held (Attribute Token))}
    (ht : token.expandableTag? = some tag) (hf : FitAll tag.attributes hs) :
    ∃ (ms : List (Marker Token)) (tag' : Tag Token),
      (returnAttributes o ids token hs).1 = .ok (ms.map .marker ++ [token.withTag tag']) ∧
      KeepsUndecided o.wrapTemplates tag.attributes hs ms tag'.attributes :=
  ⟨_, _, returnAttributes_emitted o ids ht (Nat.le_of_eq hf.length_eq),
    keepsUndecided_emitted o ids hf⟩

def undecidedLink : Tag Token :=
  ⟨"a", [newAttribute (.text maybeContent) (.tokens [.text "x"]),
    newAttribute (.tokens [.text "y"]) (.tokens [.text "z"])], {}⟩

def undecidedPairs : List (Held (Attribute Token)) :=
  [.own (newAttribute (.text maybeContent) templatedTarget),
    .own (newAttribute (.tokens (TemplateTable.wrap "#mwt2" maybeContent)) templatedTarget)]

theorem undecided_undecidedLink :
    ∃ (ms : List (Marker Token)) (tag' : Tag Token) (cs : List (Option (Attribute Token)))
        (rest : List (Attribute Token)),
      (returnAttributes {} {} (.selfClosing undecidedLink) undecidedPairs).1 =
        .ok (ms.map .marker ++ [.selfClosing tag']) ∧
      (∃ b, tag'.attributes[0]? = some b ∧ b.key = .text maybeContent ∧
        b.value = templatedTarget) ∧
      (∃ b, tag'.attributes[1]? = some b ∧ b.key = .text maybeContent ∧
        b.value = templatedTarget) ∧
      tag'.attributes.drop 2 = cs.reduceOption ++ rest ∧
      cs[0]? = some (some (newAttribute (.text valueAffected)
        (.tokens [.text "mw:Object/Template", .marker (newMarker .value "mw:Object/Template"
          (.text maybeContent) (.text "page") templatedTarget)]))) ∧
      cs[1]? = some (some (newAttribute (.text keyAffected) templatedTarget)) := by
  have ht : (Token.selfClosing undecidedLink).expandableTag? = some undecidedLink := rfl
  have hf : FitAll undecidedLink.attributes undecidedPairs :=
    .cons ⟨rfl, rfl⟩ (.cons ⟨rfl, rfl⟩ .nil)
  have hvalue : (newAttribute (.text maybeContent) (.tokens [.text "x"])).DefersValue
      maybeContent := ⟨rfl, rfl, rfl⟩
  obtain ⟨ms, tag', hout, hkeeps⟩ := returnAttributes_undecided {} {} ht hf
  obtain ⟨cs, rest, hdrop, -, -, hcs⟩ := hkeeps.companions
  refine ⟨ms, tag', cs, rest, hout, hkeeps.value 0 _ _ maybeContent rfl rfl hvalue,
    hkeeps.key 1 _ _ rfl rfl ⟨rfl, rfl⟩, hdrop, ?_, ?_⟩
  · obtain ⟨x, hx, hiff⟩ := hcs 0 _ _ rfl rfl
    rw [hx, (hiff _).2 (.value hvalue rfl)]
    rfl
  · obtain ⟨x, hx, hiff⟩ := hcs 1 _ _ rfl rfl
    rw [hx, (hiff _).2 (.key ⟨rfl, rfl⟩)]
    rfl

end WikiExpansion
