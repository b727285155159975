import WikiExpansion.Proofs.Nesting

/-!
# Settled pairs

A pair whose key is decided comes out of an expansion settled: its key has no
wrappers left, and its value has none either unless it is kept under its key as it
came (`settled_reconcilePair`).  To settle such a pair again changes nothing of it,
marks nothing and adds nothing, even where the pair still has tokens and counts as
changed (`Attribute.Settled.reconcilePair_again`).  So a tag of which all pairs are
settled, and all sides expand to themselves, is returned itself
(`returnAttributes_again`).
-/

namespace WikiExpansion

open Vocabulary

/-! ### Clean sides -/

/-- Tokens of the side are not wrappers or markers, and not all of them are texts. -/
def Content.Clean (c : Content Token) : Prop :=
  ∀ ts, c = .tokens ts → (∀ u ∈ ts, u.isMeta = false) ∧ ∃ u ∈ ts, u.isText = false

theorem Content.clean_text (s : String) : (Content.text s).Clean := by
  intro ts hts
  cases hts

theorem Content.clean_of_isTokens_eq_false {c : Content Token} (h : c.isTokens = false) :
    c.Clean := by
  obtain ⟨s, rfl⟩ := Content.isTokens_eq_false_iff.1 h
  exact Content.clean_text s

theorem clean_strip (w : Bool) (c : Content Token) : (strip w c).value.Clean := by
  rcases value_strip_cases w c with ⟨s, hs⟩ | ⟨us, rfl, hus, htext⟩
  · rw [hs]
    exact Content.clean_text s
  · rw [hus]
    intro ts hts
    obtain rfl := Content.tokens.inj hts
    obtain ⟨u, hu, hn⟩ := List.all_eq_false.1 htext
    refine ⟨fun t ht => ?_, u, hu, Bool.eq_false_iff.2 hn⟩
    rw [← Bool.not_eq_true']
    exact (List.mem_filter.1 ht).2

theorem Token.wrapperType?_of_isMeta_eq_false {t : Token} (h : t.isMeta = false) :
    t.wrapperType? = none := by
  cases t with
  | opening g | selfClosing g | closing g =>
    have hname : ¬ g.name = "meta" := beq_eq_false_iff_ne.1 h
    exact if_neg hname
  | _ => rfl

theorem Content.Clean.strip_eq {c : Content Token} (h : c.Clean) (w : Bool) :
    strip w c = ⟨c, none⟩ := by
  cases c with
  | text s => rfl
  | tokens ts =>
    obtain ⟨hmeta, u, hu, htext⟩ := h ts rfl
    have hfilter : ts.filter (!·.isMeta) = ts := by
      refine List.filter_eq_self.2 fun t ht => ?_
      rw [hmeta t ht]
      rfl
    have hall : ts.all Token.isText = false :=
      List.all_eq_false.2 ⟨u, hu, Bool.eq_false_iff.1 htext⟩
    have htype : ts.findSome? Token.wrapperType? = none :=
      List.findSome?_eq_none_iff.2 fun t ht => Token.wrapperType?_of_isMeta_eq_false (hmeta t ht)
    rw [strip, hfilter, collapse, hall, if_neg Bool.false_ne_true, htype, ite_self]

theorem endsText_of_leadingText {ts us : List Token} {u : Token}
    (h : (leadingText ts).2 = u :: us) : u.endsText = true := by
  induction ts with
  | nil => cases h
  | cons t ts ih =>
    rw [leadingText] at h
    split at h
    · rename_i ht
      obtain ⟨rfl, -⟩ := List.cons.inj h
      exact ht
    · exact ih h

theorem Content.Clean.of_infer? {c v : Content Token} {k : String} (h : c.Clean)
    (hi : KeyValue.infer? c = some (k, v)) : v.Clean := by
  rcases infer?_cases hi with ⟨s, rfl⟩ | ⟨ts, s, u, us, rfl, hrest, rfl⟩
  · exact Content.clean_text s
  · intro xs hxs
    obtain rfl := Content.tokens.inj hxs
    have hends := endsText_of_leadingText hrest
    refine ⟨fun x hx => ?_, u, List.mem_cons_of_mem _ List.mem_cons_self, ?_⟩
    · rcases List.mem_cons.1 hx with rfl | hx
      · rfl
      · exact (h ts rfl).1 x ((leadingText_suffix ts).subset (hrest ▸ hx))
    · cases u with
      | text s => cases hends
      | _ => rfl

/-! ### What comes out settled -/

/-- A value under such a key is kept as it came: the key has tokens, or it is the empty
text, or it is reserved and decided. -/
def Content.Exempts (key : Content Token) : Prop :=
  ∀ k, key = .text k →
    k = "" ∨ Text.contains maybeContent k = false ∧ Text.startsWith reserved k = true

structure Attribute.Settled (b : Attribute Token) : Prop where
  key : b.key.Clean
  decided : b.key.isTokens = true → Text.contains maybeContent b.key.plainText = false
  value : b.key.Exempts ∨ b.value.Clean

theorem Attribute.settled_of_text {b : Attribute Token} {k : String} (hk : b.key = .text k)
    (hv : b.key.Exempts ∨ b.value.Clean) : b.Settled := by
  refine ⟨?_, fun h => ?_, hv⟩
  · rw [hk]
    exact Content.clean_text k
  · rw [hk] at h
    cases h

/-- What edits write is settled. -/
theorem editable_settled : Editable Attribute.Settled where
  texts _ v := Attribute.settled_of_text rfl (.inr (Content.clean_text v))
  withText _ v h := ⟨h.key, h.decided, .inr (Content.clean_text v)⟩

section Settle

variable {w : Bool} {a : Attribute Token} {h : Held (Attribute Token)}

theorem settled_settleValue {step : KeyStep} (hkey : step.pair.get.key = step.key)
    (hc : step.key.Clean) (hm : Text.contains maybeContent step.key.plainText = false)
    (hv : a.value.isTokens = false → step.pair.get.value.Clean) :
    (settleValue w a step).1.get.Settled := by
  have hr := settlesValue w a step
  generalize settleValue w a step = r at hr ⊢
  cases hr with
  | kept hkeeps =>
    rw [← hkey] at hc hm hkeeps
    cases hk : step.pair.get.key with
    | text k =>
      rw [hk] at hkeeps
      exact Attribute.settled_of_text hk (.inr (hv (hkeeps.resolve_left Bool.false_ne_true)))
    | tokens ts =>
      refine ⟨hc, fun _ => hm, .inl fun _ hk' => ?_⟩
      rw [hk] at hk'
      cases hk'
  | deferred hk _ hmark =>
    rw [hk] at hm
    exact absurd (hm.symm.trans hmark) Bool.false_ne_true
  | @reserved k hk _ hmark hr =>
    have hpair := hkey.trans hk
    refine Attribute.settled_of_text hpair (.inl fun _ hk' => .inr ?_)
    obtain rfl := Content.text.inj (hpair.symm.trans hk')
    exact ⟨hmark, hr⟩
  | stripped hk =>
    exact Attribute.settled_of_text (hkey.trans hk) (.inr (clean_strip w _))

/-- A value that came out with its key is settled too. -/
theorem settled_reconcileKey {pair : Held (Attribute Token)} (hf : a.Fits pair.get)
    (hm : Text.contains maybeContent pair.get.key.plainText = false) :
    (settleValue w a (reconcileKey w pair)).1.get.Settled := by
  have hv : a.value.isTokens = false → pair.get.value.Clean := by
    intro hv
    exact Content.clean_of_isTokens_eq_false (hf.2.isTokens.trans hv)
  have hclean := clean_strip w pair.get.key
  have hstrip : Text.contains maybeContent (strip w pair.get.key).value.plainText = false := by
    rw [plainText_strip, hm]
  have hr := reconcilesKey w pair
  generalize reconcileKey w pair = step at hr ⊢
  cases hr with
  | undecided hmark => exact absurd (hm.symm.trans hmark) Bool.false_ne_true
  | plain | alone => exact settled_settleValue rfl hclean hstrip hv
  | whole _ _ he hi =>
    -- the key holds the value, which takes the place of an empty text
    have htext : a.value.isTokens = false :=
      hf.2.isTokens.symm.trans (Content.isTokens_of_isEmptyText he)
    rw [settleValue_keeps (.inr htext)]
    exact Attribute.settled_of_text rfl (.inr (hclean.of_infer? hi))

/-- **A pair with a decided key comes out settled**, and adds no pair. -/
theorem settled_reconcilePair (hf : a.Fits h.get)
    (hm : Text.contains maybeContent h.get.key.plainText = false) :
    (reconcilePair w a h).1.get.Settled ∧ (reconcilePair w a h).2.added = [] := by
  refine ⟨?_, ?_⟩
  swap
  · rw [added_reconcilePair hf, syntheticPair?, hm]
    rfl
  obtain ⟨hkey, -⟩ := get_carrySources a h
  have hf := hf.carrySources
  have hr := reconcilesPair w a h
  generalize reconcilePair w a h = r at hr ⊢
  cases hr with
  | empty he =>
    have hk := hkey.trans (Content.isEmptyText_iff.1 he)
    refine Attribute.settled_of_text hk (.inl fun _ hk' => .inl ?_)
    exact Content.text.inj (hk'.symm.trans hk)
  | text _ ha =>
    rw [← hkey] at hm
    have hclean := Content.clean_of_isTokens_eq_false (hf.1.isTokens.trans ha)
    refine settled_settleValue rfl hclean hm fun hv => ?_
    exact Content.clean_of_isTokens_eq_false (hf.2.isTokens.trans hv)
  | tokens => exact settled_reconcileKey hf (hkey ▸ hm)

theorem settled_reconcile {as : List (Attribute Token)} {hs : List (Held (Attribute Token))}
    (hf : List.Forall₂ (fun a h => a.Fits h.get ∧
      Text.contains maybeContent h.get.key.plainText = false) as hs) :
    (∀ p ∈ (reconcile w as hs).1, p.get.Settled) ∧ (reconcile w as hs).2.added = [] := by
  induction hf with
  | nil => exact ⟨nofun, rfl⟩
  | @cons a h as hs hah _ ih =>
    obtain ⟨hpair, hadded⟩ := settled_reconcilePair (w := w) hah.1 hah.2
    refine ⟨fun p hp => ?_, ?_⟩
    · rcases List.mem_cons.1 hp with rfl | hp
      · exact hpair
      · exact ih.1 p hp
    · change (reconcilePair w a h).2.added ++ (reconcile w as hs).2.added = []
      rw [hadded, ih.2, List.append_nil]

end Settle

/-! ### Settling again -/

def Attribute.again (b : Attribute Token) : Held (Attribute Token) :=
  if b.needsExpansion then .own (newAttribute b.key b.value) else .shared b

namespace Attribute

theorem get_carrySources_again (b : Attribute Token) : (b.again.carrySources b).get = b := by
  unfold again
  split
  · exact carrySources_newAttribute b b.key b.value
  · rfl

theorem Settled.settleValue {b : Attribute Token} (h : b.Settled) {step : KeyStep}
    (hpair : step.pair.get = b) (hkey : step.key = b.key) (he : b.key.isEmptyText = false)
    (w : Bool) :
    (settleValue w b step).1.get = b ∧ (settleValue w b step).2.markers = [] ∧
      (settleValue w b step).2.added = [] := by
  have hexempt {k : String} (hk : step.key = .text k) (hx : b.key.Exempts) :
      Text.contains maybeContent k = false ∧ Text.startsWith reserved k = true := by
    have hk := hkey.symm.trans hk
    refine (hx k hk).resolve_left fun hempty => ?_
    rw [hk, hempty] at he
    cases he
  have hr := settlesValue w b step
  generalize WikiExpansion.settleValue w b step = r at hr ⊢
  cases hr with
  | kept | reserved => exact ⟨hpair, rfl, rfl⟩
  | deferred hk _ hmark =>
    -- a key in plain text may be undecided, and then its value is clean
    have hclean := h.value.resolve_left fun hx =>
      Bool.false_ne_true ((hexempt hk hx).1.symm.trans hmark)
    rw [hpair, hclean.strip_eq w]
    exact ⟨rfl, rfl, rfl⟩
  | stripped hk _ _ hr =>
    have hclean := h.value.resolve_left fun hx =>
      Bool.false_ne_true (hr.symm.trans (hexempt hk hx).2)
    rw [hpair, hclean.strip_eq w]
    exact ⟨by rw [Held.get_write, hpair], rfl, rfl⟩

/-- **A settled pair is left as it is.** -/
theorem Settled.reconcilePair_again {b : Attribute Token} (h : b.Settled) (w : Bool) :
    (reconcilePair w b b.again).1.get = b ∧ (reconcilePair w b b.again).2.markers = [] ∧
      (reconcilePair w b b.again).2.added = [] := by
  have hget := get_carrySources_again b
  have hkey : b.again.get.key = b.key :=
    (get_carrySources b b.again).1.symm.trans (congrArg Attribute.key hget)
  have hr := reconcilesPair w b b.again
  generalize reconcilePair w b b.again = r at hr ⊢
  cases hr with
  | empty => exact ⟨hget, rfl, rfl⟩
  | text he =>
    exact h.settleValue hget (congrArg Attribute.key hget) (hkey ▸ he) w
  | tokens he hk =>
    have hplain : ReconcilesKey w (b.again.carrySources b) _ :=
      .plain (by rw [hget, h.decided hk]) (by rw [hget, h.key.strip_eq w])
    rw [hget, h.key.strip_eq w] at hplain
    rw [hplain.eq]
    exact h.settleValue (by rw [Held.get_write, hget]) rfl (hkey ▸ he) w

end Attribute

theorem reconcile_again {bs : List (Attribute Token)} (h : ∀ b ∈ bs, b.Settled) (w : Bool) :
    (reconcile w bs (bs.map Attribute.again)).1.map Held.get = bs ∧
      (reconcile w bs (bs.map Attribute.again)).2.markers = [] ∧
      (reconcile w bs (bs.map Attribute.again)).2.added = [] := by
  induction bs with
  | nil => exact ⟨rfl, rfl, rfl⟩
  | cons b bs ih =>
    obtain ⟨hget, hmarkers, hadded⟩ := (h b List.mem_cons_self).reconcilePair_again w
    obtain ⟨hgets, hmarkers', hadded'⟩ := ih fun c hc => h c (List.mem_cons_of_mem _ hc)
    rw [List.map_cons, reconcile_cons]
    simp only [Findings.append_def]
    rw [List.map_cons, hget, hgets, hmarkers, hmarkers', hadded, hadded']
    exact ⟨rfl, rfl, rfl⟩

/-- **A tag of settled pairs is returned itself.** -/
theorem returnAttributes_again (o : Options) (ids : IdSource) {token : Token} {tag : Tag Token}
    (ht : token.expandableTag? = some tag) (h : ∀ b ∈ tag.attributes, b.Settled) :
    (returnAttributes o ids token (tag.attributes.map Attribute.again)).1 = .ok [token] := by
  obtain ⟨hgets, hmarkers, hadded⟩ := reconcile_again h o.wrapTemplates
  have hl : tag.attributes.length ≤ (tag.attributes.map Attribute.again).length :=
    Nat.le_of_eq (List.length_map ..).symm
  rw [returnAttributes_emitted o ids ht hl]
  have he := emits o ids tag (tag.attributes.map Attribute.again)
  generalize emittedMarkers o ids tag _ = ms at he ⊢
  generalize emittedAttributes o ids tag _ = out at he ⊢
  cases he with
  | unmodified =>
    rw [Tag.withHeld_share, withTag_self ht]
    rfl
  | unmarked =>
    have hsame : tag.withHeld (settledPairs o.wrapTemplates tag.attributes
        (tag.attributes.map Attribute.again)) = tag := by
      rw [settledPairs, hadded, List.map_nil, List.append_nil, Tag.withHeld, hgets]
    rw [hsame, withTag_self ht]
    rfl
  | marked _ hlast =>
    rw [hmarkers] at hlast
    cases hlast

end WikiExpansion
