import Mathlib.Data.List.Forall2
import WikiExpansion.Proofs.Mask
import WikiExpansion.Proofs.Reconcile

/-!
# How far ids reach

An `about` id that is drawn while the attributes of a tag are put back reaches
the `about` of the tag and of its markers, and nothing else; and ids that stand
in the expanded sides stay where they are.  So the tag that comes out is the same
up to ids, whatever the ids were and from wherever they are drawn
(`viewResult_returnAttributes`).  Where templates are not wrapped no id is drawn at
all, and the tag is the same.
-/

namespace WikiExpansion

namespace Held

variable {α β : Type}

def map (f : α → β) : Held α → Held β
  | shared a => shared (f a)
  | own a => own (f a)

@[simp] theorem get_map (f : α → β) (h : Held α) : (h.map f).get = f h.get := by
  cases h <;> rfl

theorem get_eq_of_map {f : α → β} {h k : Held α} (e : h.map f = k.map f) : f h.get = f k.get := by
  have := congrArg get e
  rwa [get_map, get_map] at this

theorem map_get_eq {f : α → β} {hs ks : List (Held α)} (e : hs.map (map f) = ks.map (map f)) :
    (hs.map get).map f = (ks.map get).map f := by
  have h := congrArg (List.map get) e
  simp only [List.map_map] at h ⊢
  have hc : f ∘ get = get ∘ map f := funext fun h => (get_map f h).symm
  rw [hc]
  exact h

/-- Writing to lists that agree gives lists that agree, if the writer picks and
writes by what they agree on. -/
theorem map_writeFirst {m : α → β} {p : α → Bool} {f f' : α → α} {new new' : α}
    (hp : ∀ a b, m a = m b → p a = p b)
    (hf : ∀ a b, p a = true → m a = m b → m (f a) = m (f' b))
    (hn : m new = m new') {hs ks : List (Held α)} (h : hs.map (map m) = ks.map (map m)) :
    (writeFirst p f new hs).map (map m) = (writeFirst p f' new' ks).map (map m) := by
  induction hs generalizing ks with
  | nil =>
    obtain rfl := List.map_eq_nil_iff.1 h.symm
    simp only [writeFirst, List.map_cons, List.map_nil, map, hn]
  | cons a hs ih =>
    cases ks with
    | nil => cases h
    | cons b ks =>
      rw [List.map_cons, List.map_cons, List.cons.injEq] at h
      have hab := get_eq_of_map h.1
      rw [writeFirst, writeFirst, hp _ _ hab]
      by_cases hb : p b.get = true
      · rw [if_pos hb, if_pos hb, List.map_cons, List.map_cons, h.2]
        exact congrArg (· :: _) (congrArg own (hf _ _ ((hp _ _ hab).trans hb) hab))
      · rw [if_neg hb, if_neg hb, List.map_cons, List.map_cons, h.1, ih h.2]

end Held

/-! ### Pairs that were expanded -/

/-- The content stands for the written one: a text as it is, and tokens for tokens. -/
def Content.Fits (written c : Content Token) : Prop :=
  match written with
  | .text s => c = .text s
  | .tokens _ => c.isTokens = true

def Attribute.Fits (written a : Attribute Token) : Prop :=
  written.key.Fits a.key ∧ written.value.Fits a.value

theorem Content.Fits.isTokens {written c : Content Token} (h : written.Fits c) :
    c.isTokens = written.isTokens := by
  cases written with
  | text s =>
    obtain rfl : c = .text s := h
    rfl
  | tokens ts => exact h

theorem Content.Fits.eq_of_text {written c : Content Token} (h : written.Fits c)
    (hw : written.isTokens = false) : c = written := by
  obtain ⟨s, rfl⟩ := Content.isTokens_eq_false_iff.1 hw
  exact h

theorem Content.isEmptyText_iff {c : Content Token} : c.isEmptyText = true ↔ c = .text "" := by
  cases c with
  | text s => rw [isEmptyText, beq_iff_eq, Content.text.injEq]
  | tokens ts =>
    constructor
    · intro h
      cases h
    · intro h
      cases h

theorem Content.ne_of_isEmptyText_eq_false {c : Content Token} (h : c.isEmptyText = false) :
    c ≠ .text "" :=
  fun hc => Bool.false_ne_true (h.symm.trans (isEmptyText_iff.2 hc))

theorem Content.isEmptyText_of_isTokens {c : Content Token} (h : c.isTokens = true) :
    c.isEmptyText = false := by
  cases c with
  | text s => cases h
  | tokens ts => rfl

theorem Content.isTokens_of_isEmptyText {c : Content Token} (h : c.isEmptyText = true) :
    c.isTokens = false := by
  cases c with
  | text s => rfl
  | tokens ts => cases h

theorem Content.Fits.isEmptyText {written c : Content Token} (h : written.Fits c) :
    c.isEmptyText = written.isEmptyText := by
  cases hw : written.isTokens with
  | false => rw [h.eq_of_text hw]
  | true => rw [isEmptyText_of_isTokens hw, isEmptyText_of_isTokens (h.isTokens.trans hw)]

theorem Attribute.Fits.carrySources {written : Attribute Token} {h : Held (Attribute Token)}
    (hf : written.Fits h.get) : written.Fits (h.carrySources written).get := by
  rw [Attribute.Fits, (get_carrySources written h).1, (get_carrySources written h).2]
  exact hf

theorem Attribute.Fits.needsExpansion {written a : Attribute Token} (h : written.Fits a) :
    a.needsExpansion = written.needsExpansion := by
  rw [Attribute.needsExpansion, Attribute.needsExpansion, h.1.isTokens, h.2.isTokens]

def Findings.mask (f : Findings) : Findings :=
  ⟨f.modified, f.markers.map Marker.mask, f.added.map Attribute.mask⟩

def Findings.maskSides (f : Findings) : Findings :=
  ⟨f.modified, f.markers.map Marker.mask, f.added.map Attribute.maskSides⟩

@[simp] theorem Findings.maskSides_append (f g : Findings) :
    (f ++ g).maskSides = f.maskSides ++ g.maskSides := by
  simp only [append_def, maskSides, List.map_append]

@[simp] theorem Findings.mask_append (f g : Findings) : (f ++ g).mask = f.mask ++ g.mask := by
  simp only [append_def, mask, List.map_append]

def KeyStep.maskSides (k : KeyStep) : KeyStep :=
  ⟨k.pair.map Attribute.maskSides, k.key.mask false, k.findings.maskSides⟩

theorem mask_newMarker (p : Part) (t : String) (k v x : Content Token) :
    (newMarker p t k v x).mask = newMarker p t (k.mask false) (v.mask false) (x.mask false) := by
  rw [newMarker, Marker.mask]
  rfl

theorem maskSides_newAttribute (k v : Content Token) :
    (newAttribute k v).maskSides = newAttribute (k.mask false) (v.mask false) := rfl

theorem Findings.maskSides_markers (o : Option String) (f : String → Marker Token) :
    (⟨true, (o.map f).toList, []⟩ : Findings).maskSides =
      ⟨true, (o.map fun t => (f t).mask).toList, []⟩ := by
  cases o <;> rfl

theorem Findings.maskSides_added (o : Option String) (f : String → Attribute Token) :
    (⟨true, [], (o.map f).toList⟩ : Findings).maskSides =
      ⟨true, [], (o.map fun t => (f t).maskSides).toList⟩ := by
  cases o <;> rfl

theorem Held.write_maskSides (p : Held (Attribute Token))
    {f g : Attribute Token → Attribute Token} (h : ∀ a, f a.maskSides = (g a).maskSides) :
    (p.map Attribute.maskSides).write f = (p.write g).map Attribute.maskSides := by
  rw [Held.write, Held.get_map, h]
  rfl

theorem reconcileKey_maskSides (w : Bool) (p : Held (Attribute Token)) :
    reconcileKey w (p.map Attribute.maskSides) = (reconcileKey w p).maskSides := by
  have hk : (p.map Attribute.maskSides).get.key = p.get.key.mask false := by
    rw [Held.get_map]
    rfl
  have hv : (p.map Attribute.maskSides).get.value = p.get.value.mask false := by
    rw [Held.get_map]
    rfl
  have hplain : (p.map Attribute.maskSides).get.key.plainText = p.get.key.plainText := by
    rw [hk, Content.plainText_mask]
  have hstrip : strip w (p.map Attribute.maskSides).get.key =
      ⟨(strip w p.get.key).value.mask false, (strip w p.get.key).objectType⟩ := by
    rw [hk, strip_mask]
  have htype : (strip w (p.map Attribute.maskSides).get.key).objectType =
      (strip w p.get.key).objectType := by rw [hstrip]
  -- masking changes nothing of what the way to go is chosen by
  have hr := reconcilesKey w p
  generalize reconcileKey w p = step at hr ⊢
  refine ReconcilesKey.eq ?_
  cases hr with
  | undecided hc =>
    have hm := ReconcilesKey.undecided (w := w) (hplain ▸ hc)
    rw [hplain, hv, p.write_maskSides
      (g := fun a => { a with key := .text p.get.key.plainText }) fun _ => rfl] at hm
    exact hm
  | plain hc ht =>
    have hm := ReconcilesKey.plain (hplain ▸ hc) (htype.trans ht)
    rw [hstrip, p.write_maskSides
      (g := fun a => { a with key := (strip w p.get.key).value }) fun _ => rfl] at hm
    exact hm
  | @whole type k v hc ht he hi =>
    have hinfer : KeyValue.infer? (strip w (p.map Attribute.maskSides).get.key).value =
        some (k, v.mask false) := by
      rw [hstrip, KeyValue.infer?_mask, hi]
      rfl
    have hm := ReconcilesKey.whole (hplain ▸ hc) (htype.trans ht)
      (by rw [hv, Content.isEmptyText_mask, he]) hinfer
    rw [hstrip, hk, p.write_maskSides
      (g := fun a => { a with key := .text k, value := v }) fun _ => rfl] at hm
    rw [KeyStep.maskSides, Findings.maskSides, List.map_singleton, mask_newMarker]
    exact hm
  | @alone type hc ht hi =>
    have hinfer (he : (p.map Attribute.maskSides).get.value.isEmptyText = true) :
        KeyValue.infer? (strip w (p.map Attribute.maskSides).get.key).value = none := by
      rw [hv, Content.isEmptyText_mask] at he
      rw [hstrip, KeyValue.infer?_mask, hi he]
      rfl
    have hm := ReconcilesKey.alone (hplain ▸ hc) (htype.trans ht) hinfer
    rw [hstrip, hk, p.write_maskSides
      (g := fun a => { a with key := (strip w p.get.key).value }) fun _ => rfl] at hm
    rw [KeyStep.maskSides, Findings.maskSides, List.map_singleton, mask_newMarker]
    exact hm

theorem settleValue_maskSides (w : Bool) (a : Attribute Token) (k : KeyStep)
    (h : k.key.isTokens = false) (ha : a.value.isTokens = true) :
    settleValue w a.maskSides k.maskSides =
      ((settleValue w a k).1.map Attribute.maskSides, (settleValue w a k).2.maskSides) := by
  have hv : k.maskSides.pair.get.value = k.pair.get.value.mask false := by
    rw [KeyStep.maskSides, Held.get_map]
    rfl
  have hk {t : String} (ht : k.key = .text t) : k.maskSides.key = .text t := by
    rw [KeyStep.maskSides, ht]
    rfl
  have ha' : a.maskSides.value.isTokens = true := by
    rw [Attribute.maskSides, Content.isTokens_mask, ha]
  have hstrip : strip w k.maskSides.pair.get.value =
      ⟨(strip w k.pair.get.value).value.mask false, (strip w k.pair.get.value).objectType⟩ := by
    rw [hv, strip_mask]
  have hr := settlesValue w a k
  generalize settleValue w a k = r at hr ⊢
  refine SettlesValue.eq ?_
  cases hr with
  | kept hkeeps =>
    rcases hkeeps with hkeeps | hkeeps
    · exact absurd (h.symm.trans hkeeps) Bool.false_ne_true
    · exact absurd (hkeeps.symm.trans ha) Bool.false_ne_true
  | deferred ht _ hc =>
    have hm := SettlesValue.deferred (w := w) (hk ht) ha' hc
    rw [hstrip, hv] at hm
    rw [Findings.maskSides_added]
    simp only [maskSides_newAttribute, Content.mask_tokens, List.map_cons, List.map_nil, Token.mask,
      mask_newMarker]
    exact hm
  | reserved ht _ hc hres => exact .reserved (hk ht) ha' hc hres
  | stripped ht _ hc hres =>
    have hm := SettlesValue.stripped (w := w) (hk ht) ha' hc hres
    have hw : k.maskSides.pair.write (fun a => { a with
        value := (strip w k.pair.get.value).value.mask false }) =
        (k.pair.write fun a => { a with value := (strip w k.pair.get.value).value }).map
          Attribute.maskSides := Held.write_maskSides k.pair fun _ => rfl
    rw [hstrip, hv, hw] at hm
    rw [Findings.maskSides_markers]
    simp only [mask_newMarker]
    exact hm

theorem carrySources_maskSides (a : Attribute Token) (h : Held (Attribute Token)) :
    (h.map Attribute.maskSides).carrySources a.maskSides =
      (h.carrySources a).map Attribute.maskSides := by
  cases h <;> rfl

theorem reconcilePair_plain {w : Bool} {a : Attribute Token} {h : Held (Attribute Token)}
    (hf : a.Fits h.get) (hn : a.needsExpansion = false) :
    reconcilePair w a h = (h.carrySources a, {}) := by
  obtain ⟨hk, hv⟩ := Bool.or_eq_false_iff.1 hn
  obtain ⟨hpk, hpv⟩ := get_carrySources a h
  have hr := reconcilesPair w a h
  generalize reconcilePair w a h = r at hr ⊢
  cases hr with
  | empty => rfl
  | text =>
    rw [settleValue_keeps (.inr hv), keptKey, hpk, hpv, hf.1.eq_of_text hk, hf.2.eq_of_text hv]
    simp only [ne_eq, not_true_eq_false, decide_false]
    rfl
  | tokens _ hk' => exact absurd (hk.symm.trans hk') Bool.false_ne_true

theorem keptKey_maskSides {a : Attribute Token} {p : Held (Attribute Token)}
    (hk : p.get.key = a.key) :
    keptKey a.maskSides (p.map Attribute.maskSides) = (keptKey a p).maskSides := by
  have hkey : (p.map Attribute.maskSides).get.key = a.maskSides.key := by
    rw [Held.get_map, Attribute.maskSides, Attribute.maskSides, hk]
  rw [keptKey, keptKey, hkey, hk]
  simp only [ne_eq, not_true_eq_false, decide_false]
  rfl

/-- A pair that was expanded is settled in the same way whatever ids are nested in it. -/
theorem reconcilePair_maskSides {w : Bool} {a : Attribute Token} {h : Held (Attribute Token)}
    (hf : a.Fits h.get) (hn : a.needsExpansion = true) :
    reconcilePair w a.maskSides (h.map Attribute.maskSides) =
      ((reconcilePair w a h).1.map Attribute.maskSides, (reconcilePair w a h).2.maskSides) := by
  have hk : a.maskSides.key.isTokens = a.key.isTokens := Content.isTokens_mask _ _
  have hv : a.maskSides.value.isTokens = a.value.isTokens := Content.isTokens_mask _ _
  have he : (h.map Attribute.maskSides).get.key.isEmptyText = h.get.key.isEmptyText := by
    rw [Held.get_map]
    exact Content.isEmptyText_mask _
  have hr := reconcilesPair w a h
  generalize reconcilePair w a h = r at hr ⊢
  refine ReconcilesPair.eq ?_
  cases hr with
  | empty hempty =>
    have hm : ReconcilesPair w a.maskSides (h.map Attribute.maskSides) _ :=
      .empty (he.trans hempty)
    rw [carrySources_maskSides] at hm
    exact hm
  | text hempty hkt =>
    have hva : a.value.isTokens = true := by
      rw [Attribute.needsExpansion, hkt, Bool.false_or] at hn
      exact hn
    have hkey : (h.carrySources a).get.key = a.key := hf.carrySources.1.eq_of_text hkt
    have htext : (keptKey a (h.carrySources a)).key.isTokens = false := by
      rw [keptKey, hkey, hkt]
    have hm := ReconcilesPair.text (w := w) (he.trans hempty) (hk.trans hkt)
    rw [carrySources_maskSides, keptKey_maskSides hkey, settleValue_maskSides w a _ htext hva] at hm
    rw [Findings.maskSides_append]
    exact hm
  | tokens hempty hkt =>
    have hm := ReconcilesPair.tokens (w := w) (he.trans hempty) (hk.trans hkt)
    rw [carrySources_maskSides, reconcileKey_maskSides] at hm
    by_cases hc : (reconcileKey w (h.carrySources a)).key.isTokens = true ∨
        a.value.isTokens = false
    · -- the value may seem to have changed, but the key has changed anyway
      have hmod := modified_reconcileKey w (h.carrySources a)
      have hc' : (reconcileKey w (h.carrySources a)).maskSides.key.isTokens = true ∨
          a.maskSides.value.isTokens = false := by
        rw [hv, KeyStep.maskSides, Content.isTokens_mask]
        exact hc
      rw [settleValue_keeps hc'] at hm
      rw [settleValue_keeps hc]
      simp only [KeyStep.maskSides, Findings.append_def, Findings.maskSides, hmod, Bool.true_or,
        List.append_nil] at hm ⊢
      exact hm
    · rw [not_or, Bool.not_eq_true, Bool.not_eq_false] at hc
      rw [settleValue_maskSides w a _ hc.1 hc.2] at hm
      rw [Findings.maskSides_append]
      exact hm

/-! ### Up to ids -/

def Rebuilt.mask (r : Rebuilt) : Rebuilt :=
  ⟨r.markers.map Marker.mask, r.attributes.map (Held.map Attribute.mask)⟩

/-- What a pair is settled to, without its ids. -/
def maskSettled (r : Held (Attribute Token) × Findings) : Held (Attribute Token) × Findings :=
  (r.1.map Attribute.mask, r.2.mask)

theorem Held.map_mask_of_maskSides {h k : Held (Attribute Token)}
    (e : h.map Attribute.maskSides = k.map Attribute.maskSides) :
    h.map Attribute.mask = k.map Attribute.mask := by
  cases h with
  | shared a =>
    cases k with
    | shared b => exact congrArg shared (Attribute.mask_eq_of_maskSides (Held.shared.inj e))
    | own b => cases e
  | own a =>
    cases k with
    | shared b => cases e
    | own b => exact congrArg own (Attribute.mask_eq_of_maskSides (Held.own.inj e))

theorem Held.map_maskSides_eq {h : Held (Attribute Token)} (hn : h.get.needsExpansion = true) :
    h.map Attribute.maskSides = h.map Attribute.mask := by
  cases h with
  | shared a => exact congrArg shared (Attribute.maskSides_eq_mask hn)
  | own a => exact congrArg own (Attribute.maskSides_eq_mask hn)

theorem map_mask_of_maskSides {as bs : List (Attribute Token)}
    (e : as.map Attribute.maskSides = bs.map Attribute.maskSides) :
    as.map Attribute.mask = bs.map Attribute.mask := by
  induction as generalizing bs with
  | nil =>
    obtain rfl := List.map_eq_nil_iff.1 e.symm
    rfl
  | cons a as ih =>
    cases bs with
    | nil => cases e
    | cons b bs =>
      rw [List.map_cons, List.map_cons, List.cons.injEq] at e
      rw [List.map_cons, List.map_cons, Attribute.mask_eq_of_maskSides e.1, ih e.2]

theorem Findings.mask_of_maskSides {f g : Findings} (e : f.maskSides = g.maskSides) :
    f.mask = g.mask := by
  simp only [maskSides, mk.injEq] at e
  simp only [mask, mk.injEq]
  exact ⟨e.1, e.2.1, map_mask_of_maskSides e.2.2⟩

theorem carrySources_mask (a : Attribute Token) (h : Held (Attribute Token)) :
    (h.map Attribute.mask).carrySources a.mask = (h.carrySources a).map Attribute.mask := by
  have ha : a.mask.keySource = a.keySource ∧ a.mask.valueSource = a.valueSource ∧
      a.mask.offsets = a.offsets := by
    cases a
    simp only [Attribute.mask, and_self]
  cases h with
  | shared b => rfl
  | own b =>
    obtain ⟨h₁, h₂, h₃⟩ := ha
    cases b
    simp only [Held.map, Held.carrySources, Attribute.carrySources, Attribute.mask, h₁, h₂, h₃]

theorem maskSettled_reconcilePair {w : Bool} {a b : Attribute Token} {h k : Held (Attribute Token)}
    (hab : a.mask = b.mask) (hhk : h.map Attribute.mask = k.map Attribute.mask)
    (ha : a.Fits h.get) (hb : b.Fits k.get) :
    maskSettled (reconcilePair w a h) = maskSettled (reconcilePair w b k) := by
  have hn : a.needsExpansion = b.needsExpansion := by
    rw [← Attribute.needsExpansion_mask, hab, Attribute.needsExpansion_mask]
  cases hna : a.needsExpansion with
  | false =>
    rw [reconcilePair_plain ha hna, reconcilePair_plain hb (hn ▸ hna)]
    simp only [maskSettled]
    rw [← carrySources_mask, ← carrySources_mask, hab, hhk]
  | true =>
    have hnb : b.needsExpansion = true := hn ▸ hna
    have hs : a.maskSides = b.maskSides := by
      rw [Attribute.maskSides_eq_mask hna, Attribute.maskSides_eq_mask hnb, hab]
    have hp : h.map Attribute.maskSides = k.map Attribute.maskSides := by
      rw [Held.map_maskSides_eq (ha.needsExpansion.trans hna),
        Held.map_maskSides_eq (hb.needsExpansion.trans hnb), hhk]
    have h₁ := reconcilePair_maskSides (w := w) ha hna
    have h₂ := reconcilePair_maskSides (w := w) hb hnb
    rw [hs, hp, h₂] at h₁
    obtain ⟨e₁, e₂⟩ := Prod.mk.inj h₁
    simp only [maskSettled]
    rw [Held.map_mask_of_maskSides e₁.symm, Findings.mask_of_maskSides e₂.symm]

abbrev FitAll (as : List (Attribute Token)) (hs : List (Held (Attribute Token))) : Prop :=
  List.Forall₂ (fun a h => a.Fits h.get) as hs

theorem reconcile_congr {w : Bool} {as bs : List (Attribute Token)}
    {hs ks : List (Held (Attribute Token))} (hab : as.map Attribute.mask = bs.map Attribute.mask)
    (hhk : hs.map (Held.map Attribute.mask) = ks.map (Held.map Attribute.mask))
    (ha : FitAll as hs) (hb : FitAll bs ks) :
    (reconcile w as hs).1.map (Held.map Attribute.mask) =
        (reconcile w bs ks).1.map (Held.map Attribute.mask) ∧
      (reconcile w as hs).2.mask = (reconcile w bs ks).2.mask := by
  induction ha generalizing bs ks with
  | nil =>
    obtain rfl := List.map_eq_nil_iff.1 hab.symm
    obtain rfl := List.map_eq_nil_iff.1 hhk.symm
    exact ⟨rfl, rfl⟩
  | @cons a h as hs hf ha ih =>
    cases hb with
    | nil => cases hab
    | @cons b k bs ks hg hb =>
      rw [List.map_cons, List.map_cons, List.cons.injEq] at hab hhk
      obtain ⟨e₁, e₂⟩ := Prod.mk.inj (maskSettled_reconcilePair (w := w) hab.1 hhk.1 hf hg)
      obtain ⟨i₁, i₂⟩ := ih hab.2 hhk.2 hb
      simp only [reconcile_cons, List.map_cons, Findings.mask_append]
      rw [e₁, e₂, i₁, i₂]
      exact ⟨rfl, rfl⟩

/-- The text that a word is added to is no id. -/
theorem find?_isTextNamed_mask {k : String} (hk : k ≠ "about")
    (hs : List (Held (Attribute Token))) :
    ((hs.map (Held.map Attribute.mask)).find? (·.get.isTextNamed k)).bind (·.get.value.text?) =
      (hs.find? (·.get.isTextNamed k)).bind (·.get.value.text?) := by
  induction hs with
  | nil => rfl
  | cons h hs ih =>
    rw [List.map_cons, List.find?_cons, List.find?_cons, Held.get_map, Attribute.isTextNamed_mask]
    cases hn : h.get.isTextNamed k with
    | false => exact ih
    | true =>
      have ha : h.get.isNamed "about" = false := by
        have : h.get.key.text? = some k := eq_of_beq (Bool.and_eq_true_iff.1 hn).1
        rw [Attribute.isNamed, this]
        exact beq_eq_false_iff_ne.2 fun e => hk (Option.some.inj e)
      show (h.map Attribute.mask).get.value.text? = h.get.value.text?
      rw [Held.get_map, Attribute.value_mask, ha, Content.text?_mask]

theorem apply_addWord_congr {k : String} (hk : k ≠ "about") (word : String)
    {hs ks : List (Held (Attribute Token))}
    (h : hs.map (Held.map Attribute.mask) = ks.map (Held.map Attribute.mask)) :
    (AttributeEdit.apply hs (.addWord k word)).map (Held.map Attribute.mask) =
      (AttributeEdit.apply ks (.addWord k word)).map (Held.map Attribute.mask) := by
  have hf : (hs.find? (·.get.isTextNamed k)).bind (·.get.value.text?) =
      (ks.find? (·.get.isTextNamed k)).bind (·.get.value.text?) := by
    rw [← find?_isTextNamed_mask hk, h, find?_isTextNamed_mask hk]
  unfold AttributeEdit.apply
  simp only [hf]
  split
  · split
    · exact h
    · refine Held.map_writeFirst (fun a b e => ?_) (fun a b _ e => ?_) rfl h
      · rw [← Attribute.isTextNamed_mask, e, Attribute.isTextNamed_mask]
      · obtain ⟨h₁, -, h₂⟩ := Attribute.mask_eq_iff.1 e
        refine Attribute.mask_eq_iff.2 ⟨h₁, ?_, h₂⟩
        exact congrArg (Content.mask · _) (Attribute.isNamed_eq_of_mask h₁ "about")
  · rw [List.map_append, List.map_append, h]

/-- An id is put in the same place whatever it is. -/
theorem apply_about_congr (i j : String) {hs ks : List (Held (Attribute Token))}
    (h : hs.map (Held.map Attribute.mask) = ks.map (Held.map Attribute.mask)) :
    (AttributeEdit.apply hs (.set "about" (.text i))).map (Held.map Attribute.mask) =
      (AttributeEdit.apply ks (.set "about" (.text j))).map (Held.map Attribute.mask) := by
  refine Held.map_writeFirst (fun a b e => ?_) (fun a b ha e => ?_) ?_ h
  · rw [← Attribute.isNamed_mask, e, Attribute.isNamed_mask]
  · obtain ⟨h₁, -, h₂⟩ := Attribute.mask_eq_iff.1 e
    refine Attribute.mask_eq_iff.2 ⟨h₁, ?_, h₂⟩
    have hb : b.isNamed "about" = true := (Attribute.isNamed_eq_of_mask h₁ "about").symm.trans ha
    show (Content.text i).mask (a.isNamed "about") = (Content.text j).mask (b.isNamed "about")
    rw [ha, hb]
    rfl
  · rfl

/-- A tag and its markers get the same ids up to ids. -/
theorem mask_group (ids ids' : IdSource) {last last' : Marker Token} {ms ns : List (Marker Token)}
    {hs ks : List (Held (Attribute Token))} (hl : last.mask = last'.mask)
    (hm : ms.map Marker.mask = ns.map Marker.mask)
    (h : hs.map (Held.map Attribute.mask) = ks.map (Held.map Attribute.mask)) :
    (group ids last ms hs).1.mask = (group ids' last' ns ks).1.mask := by
  have ho : last.objectType = last'.objectType := by
    have := congrArg Marker.objectType hl
    cases last
    cases last'
    simpa only [Marker.mask] using this
  have hmark (i j : String) : (ms.map fun m => { m with about := some i }).map Marker.mask =
      (ns.map fun m => { m with about := some j }).map Marker.mask := by
    have hc (i : String) (m : Marker Token) :
        ({ m with about := some i } : Marker Token).mask =
          { m.mask with about := some maskedId } := by
      cases m
      simp only [Marker.mask, Option.map_some]
    have hd (i : String) (ms : List (Marker Token)) :
        (ms.map fun m => { m with about := some i }).map Marker.mask =
          (ms.map Marker.mask).map fun m => { m with about := some maskedId } := by
      rw [List.map_map, List.map_map]
      exact List.map_congr_left fun m _ => hc i m
    rw [hd, hd, hm]
  have hi : (Attribute.lookupText "about" (hs.map Held.get)).isSome =
      (Attribute.lookupText "about" (ks.map Held.get)).isSome := by
    rw [← Attribute.lookupText_about_mask, Held.map_get_eq h, Attribute.lookupText_about_mask]
  cases ha : Attribute.lookupText "about" (hs.map Held.get) with
  | some i =>
    cases hb : Attribute.lookupText "about" (ks.map Held.get) with
    | none =>
      rw [ha, hb] at hi
      cases hi
    | some j =>
      rw [group_of_about ha, group_of_about hb, Rebuilt.mask, Rebuilt.mask, hmark i j, ho,
        apply_addWord_congr (by decide) _ h]
  | none =>
    cases hb : Attribute.lookupText "about" (ks.map Held.get) with
    | some j =>
      rw [ha, hb] at hi
      cases hi
    | none =>
      rw [group_of_no_about ha, group_of_no_about hb, Rebuilt.mask, Rebuilt.mask,
        hmark _ ids'.newAboutId.1, ho,
        apply_addWord_congr (by decide) _ (apply_about_congr _ ids'.newAboutId.1 h)]

theorem mask_rebuild (o : Options) (ids ids' : IdSource) {as bs : List (Attribute Token)}
    {hs ks : List (Held (Attribute Token))} (hab : as.map Attribute.mask = bs.map Attribute.mask)
    (hhk : hs.map (Held.map Attribute.mask) = ks.map (Held.map Attribute.mask))
    (ha : FitAll as hs) (hb : FitAll bs ks) :
    (rebuild o ids as hs).1.map Rebuilt.mask = (rebuild o ids' bs ks).1.map Rebuilt.mask := by
  obtain ⟨e₁, e₂⟩ := reconcile_congr (w := o.wrapTemplates) hab hhk ha hb
  simp only [Findings.mask, Findings.mk.injEq] at e₂
  obtain ⟨hmod, hmark, hadd⟩ := e₂
  have hadd : ((reconcile o.wrapTemplates as hs).2.added.map Held.own).map
      (Held.map Attribute.mask) =
      ((reconcile o.wrapTemplates bs ks).2.added.map Held.own).map (Held.map Attribute.mask) := by
    have := congrArg (List.map Held.own) hadd
    rw [List.map_map, List.map_map] at this ⊢
    exact this
  have hall : (settledPairs o.wrapTemplates as hs).map (Held.map Attribute.mask) =
      (settledPairs o.wrapTemplates bs ks).map (Held.map Attribute.mask) := by
    rw [settledPairs, settledPairs, List.map_append, List.map_append, e₁, hadd]
  have hr := rebuilds o ids as hs
  generalize rebuild o ids as hs = r at hr ⊢
  cases hr with
  | unmodified hm =>
    have hr : Rebuilds o ids' bs ks _ := .unmodified (hmod.symm.trans hm)
    rw [hr.eq]
  | unmarked hm hn =>
    have hn' : (reconcile o.wrapTemplates bs ks).2.markers = [] := by
      rw [hn] at hmark
      exact List.map_eq_nil_iff.1 hmark.symm
    have hr : Rebuilds o ids' bs ks _ := .unmarked (hmod.symm.trans hm) hn'
    rw [hr.eq]
    simp only [Option.map_some, Rebuilt.mask, List.map_nil, hall]
  | @marked last hm hlast =>
    have hlasts := congrArg List.getLast? hmark
    rw [List.getLast?_map, List.getLast?_map, hlast, Option.map_some] at hlasts
    obtain ⟨last', hlast', hl⟩ := Option.map_eq_some_iff.1 hlasts.symm
    have hr : Rebuilds o ids' bs ks _ := .marked (hmod.symm.trans hm) hlast'
    rw [hr.eq]
    exact congrArg some (mask_group ids ids' hl.symm hmark hall)

/-- The type that a marker names was reported by stripping. -/
def Marker.Reported (w : Bool) (m : Marker Token) : Prop :=
  ∃ c, (strip w c).objectType = some m.objectType

section Reported

variable {w : Bool} {m : Marker Token}

theorem reported_reconcileKey {p : Held (Attribute Token)}
    (hm : m ∈ (reconcileKey w p).findings.markers) : m.Reported w := by
  have hr := reconcilesKey w p
  generalize reconcileKey w p = step at hr hm
  cases hr with
  | undecided | plain => cases hm
  | whole _ ht | alone _ ht =>
    obtain rfl := List.mem_singleton.1 hm
    exact ⟨_, ht⟩

theorem reported_settleValue {a : Attribute Token} {step : KeyStep}
    (hm : m ∈ (settleValue w a step).2.markers) : m.Reported w := by
  have hr := settlesValue w a step
  generalize settleValue w a step = r at hr hm
  cases hr with
  | kept | deferred | reserved => cases hm
  | stripped =>
    obtain ⟨type, ht, rfl⟩ := Option.map_eq_some_iff.1 (Option.mem_toList.1 hm)
    exact ⟨_, ht⟩

theorem reported_reconcilePair {a : Attribute Token} {h : Held (Attribute Token)}
    (hm : m ∈ (reconcilePair w a h).2.markers) : m.Reported w := by
  have hr := reconcilesPair w a h
  generalize reconcilePair w a h = r at hr hm
  cases hr with
  | empty => cases hm
  | text => exact reported_settleValue hm
  | tokens =>
    rcases List.mem_append.1 hm with hm | hm
    · exact reported_reconcileKey hm
    · exact reported_settleValue hm

theorem reported_reconcile {as : List (Attribute Token)}
    {hs : List (Held (Attribute Token))}
    (hm : m ∈ (reconcile w as hs).2.markers) : m.Reported w := by
  obtain ⟨a, -, h, -, hm⟩ := mem_markers_reconcile hm
  exact reported_reconcilePair hm

end Reported

/-- Nothing is marked where templates are not wrapped. -/
theorem markers_reconcile_unwrapped (as : List (Attribute Token))
    (hs : List (Held (Attribute Token))) : (reconcile false as hs).2.markers = [] := by
  rw [List.eq_nil_iff_forall_not_mem]
  intro m hm
  obtain ⟨c, hc⟩ := reported_reconcile hm
  rw [objectType_strip_false] at hc
  cases hc

/-- No id is drawn where templates are not wrapped. -/
theorem rebuild_unwrapped {o : Options} (hw : o.wrapTemplates = false) (ids : IdSource)
    (as : List (Attribute Token)) (hs : List (Held (Attribute Token))) :
    rebuild o ids as hs = ((rebuild o {} as hs).1, ids) := by
  have hr := rebuilds o ids as hs
  generalize rebuild o ids as hs = r at hr ⊢
  cases hr with
  | unmodified hm => rw [(Rebuilds.unmodified hm).eq]
  | unmarked hm hn => rw [(Rebuilds.unmarked hm hn).eq]
  | marked _ hlast =>
    rw [hw, markers_reconcile_unwrapped] at hlast
    cases hlast

theorem mask_withHeld {g k : Tag Token} {hs ks : List (Held (Attribute Token))}
    (hgk : g.mask = k.mask)
    (h : hs.map (Held.map Attribute.mask) = ks.map (Held.map Attribute.mask)) :
    (g.withHeld hs).mask = (k.withHeld ks).mask := by
  have hc := Held.map_get_eq h
  obtain ⟨n, as, s⟩ := g
  obtain ⟨n', as', s'⟩ := k
  simp only [Tag.mask, Tag.mk.injEq] at hgk
  simp only [Tag.withHeld, Tag.mask, Attribute.maskList_eq_map, hc, hgk]

/-! ### What is compared -/

/-- What is compared of a token: all of it, but where templates are wrapped not
its ids. -/
def Token.view (w : Bool) (t : Token) : Token := if w then t.mask else t

def Attribute.view (w : Bool) (a : Attribute Token) : Attribute Token := if w then a.mask else a

@[simp] theorem Token.view_false : Token.view false = id := rfl

@[simp] theorem Attribute.view_true : Attribute.view true = Attribute.mask := rfl

@[simp] theorem Attribute.view_false : Attribute.view false = id := rfl

@[simp] theorem Held.map_id {α : Type} : Held.map (id : α → α) = id := by
  funext h
  cases h <;> rfl

def viewResult (w : Bool) (r : Outcome (List Token)) : Option (List Token) :=
  r.toOption.map (List.map (Token.view w))

/-- Where templates are not wrapped, no id reaches the tag that comes out. -/
theorem returnAttributes_unwrapped {o : Options} (hw : o.wrapTemplates = false)
    (ids ids' : IdSource) (t : Token) (hs : List (Held (Attribute Token))) :
    (returnAttributes o ids t hs).1 = (returnAttributes o ids' t hs).1 := by
  have other {as : List (Attribute Token)} {r : Option Rebuilt} {j : IdSource}
      (hr : rebuild o ids as hs = (r, j)) : rebuild o ids' as hs = (r, ids') := by
    rw [rebuild_unwrapped hw] at hr ⊢
    rw [(Prod.mk.inj hr).1]
  have h := returns o ids t hs
  generalize returnAttributes o ids t hs = r at h ⊢
  cases h with
  | ineligible ht => rw [(Returns.ineligible ht).eq]
  | malformed ht hl => rw [(Returns.malformed ht hl).eq]
  | unmodified ht hl hr => rw [(Returns.unmodified ht hl (other hr)).eq]
  | rebuilt ht hl hr => rw [(Returns.rebuilt ht hl (other hr)).eq]

theorem Token.map_mask_marker (ms : List (Marker Token)) :
    (ms.map Token.marker).map Token.mask = (ms.map Marker.mask).map Token.marker := by
  rw [List.map_map, List.map_map]
  exact List.map_congr_left fun m _ => by simp only [Function.comp, Token.mask]

theorem Rebuilt.mask_tokens {t u : Token} (htu : t.mask = u.mask) {g k : Tag Token}
    (hgk : g.mask = k.mask) {r q : Rebuilt} (h : r.mask = q.mask) :
    (r.markers.map Token.marker ++ [t.withTag (g.withHeld r.attributes)]).map Token.mask =
      (q.markers.map Token.marker ++ [u.withTag (k.withHeld q.attributes)]).map Token.mask := by
  simp only [Rebuilt.mask, Rebuilt.mk.injEq] at h
  have hlast : (t.withTag (g.withHeld r.attributes)).mask =
      (u.withTag (k.withHeld q.attributes)).mask := by
    rw [Token.mask_withTag, Token.mask_withTag, htu, mask_withHeld hgk h.2]
  rw [List.map_append, List.map_append, Token.map_mask_marker, Token.map_mask_marker, h.1,
    List.map_singleton, List.map_singleton, hlast]

/-- Up to ids, the tag that comes out is fixed by what was expanded up to ids. -/
theorem mask_returnAttributes (o : Options) (ids ids' : IdSource) {t u : Token}
    {hs ks : List (Held (Attribute Token))} (htu : t.mask = u.mask)
    (hhk : hs.map (Held.map Attribute.mask) = ks.map (Held.map Attribute.mask))
    (ht : ∀ g, t.expandableTag? = some g → FitAll g.attributes hs)
    (hu : ∀ g, u.expandableTag? = some g → FitAll g.attributes ks) :
    viewResult true (returnAttributes o ids t hs).1 =
      viewResult true (returnAttributes o ids' u ks).1 := by
  have same : viewResult true (.ok [t]) = viewResult true (.ok [u]) :=
    congrArg (fun t => some [t]) htu
  have htag : t.expandableTag?.map Tag.mask = u.expandableTag?.map Tag.mask := by
    rw [← Token.expandableTag?_mask, htu, Token.expandableTag?_mask]
  cases hg : t.expandableTag? with
  | none =>
    rw [hg] at htag
    rw [(Returns.ineligible hg).eq, (Returns.ineligible (Option.map_eq_none_iff.1 htag.symm)).eq]
    exact same
  | some g =>
    rw [hg, Option.map_some] at htag
    obtain ⟨k, hk, htag⟩ := Option.map_eq_some_iff.1 htag.symm
    have hab : g.attributes.map Attribute.mask = k.attributes.map Attribute.mask := by
      rw [← Tag.attributes_mask, ← htag, Tag.attributes_mask]
    have hgl := Nat.le_of_eq (ht g hg).length_eq
    have hkl := Nat.le_of_eq (hu k hk).length_eq
    have hr := mask_rebuild o ids ids' hab hhk (ht g hg) (hu k hk)
    cases hp : rebuild o ids g.attributes hs with
    | mk r i =>
      cases hq : rebuild o ids' k.attributes ks with
      | mk r' j =>
        rw [hp, hq] at hr
        cases r with
        | none =>
          obtain rfl := Option.map_eq_none_iff.1 hr.symm
          rw [(Returns.unmodified hg hgl hp).eq, (Returns.unmodified hk hkl hq).eq]
          exact same
        | some r =>
          obtain ⟨r', rfl, hsame⟩ := Option.map_eq_some_iff.1 hr.symm
          rw [(Returns.rebuilt hg hgl hp).eq, (Returns.rebuilt hk hkl hq).eq]
          exact congrArg some (Rebuilt.mask_tokens htu htag.symm hsame.symm)

/-- **The tag that comes out does not depend on ids**, neither on those that are
drawn nor on those that stand in what was expanded. -/
theorem viewResult_returnAttributes (o : Options) (ids ids' : IdSource) {t u : Token}
    {hs ks : List (Held (Attribute Token))}
    (htu : t.view o.wrapTemplates = u.view o.wrapTemplates)
    (hhk : hs.map (Held.map (Attribute.view o.wrapTemplates)) =
      ks.map (Held.map (Attribute.view o.wrapTemplates)))
    (ht : ∀ g, t.expandableTag? = some g → FitAll g.attributes hs)
    (hu : ∀ g, u.expandableTag? = some g → FitAll g.attributes ks) :
    viewResult o.wrapTemplates (returnAttributes o ids t hs).1 =
      viewResult o.wrapTemplates (returnAttributes o ids' u ks).1 := by
  cases hw : o.wrapTemplates with
  | false =>
    rw [hw] at htu hhk
    simp only [Token.view_false, id_eq] at htu
    simp only [Attribute.view_false, Held.map_id, List.map_id] at hhk
    subst htu hhk
    exact congrArg _ (returnAttributes_unwrapped hw ids ids' t hs)
  | true =>
    rw [hw] at htu hhk
    exact mask_returnAttributes o ids ids' htu hhk ht hu

end WikiExpansion
