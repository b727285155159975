import WikiExpansion.Proofs.Provenance

/-!
# What stays in its place

The tag that comes out of an expansion has a pair in the place of every written
one, with its source pointers, and with its key where that was text.  A pair of
plain texts is the written pair itself, unless the producer of the last marker was
listed in it.  All that is new stands behind the written pairs: first the pairs
that keep both forms of an undecided side, in the order of the pairs they are
about, then an `about` and a `typeof` where the tag had none to write to
(`returnAttributes_layout`).
-/

namespace WikiExpansion

open Vocabulary

/-! ### Writing in place -/

namespace Held

variable {α : Type}

def touchFirst (p : α → Bool) (f : α → α) (hs : List (Held α)) : List (Held α) :=
  hs.modify (hs.findIdx (p ·.get)) (write f)

variable {p : α → Bool} {f : α → α}

theorem touchFirst_cons_of_pos {h : Held α} (hp : p h.get = true) (hs : List (Held α)) :
    touchFirst p f (h :: hs) = h.write f :: hs := by
  rw [touchFirst, List.findIdx_cons, hp]
  rfl

theorem touchFirst_cons_of_neg {h : Held α} (hp : p h.get = false) (hs : List (Held α)) :
    touchFirst p f (h :: hs) = h :: touchFirst p f hs := by
  rw [touchFirst, List.findIdx_cons, hp]
  rfl

theorem length_touchFirst (hs : List (Held α)) : (touchFirst p f hs).length = hs.length :=
  List.length_modify ..

/-- A write to the front of a list, of which the rest is not picked, happens in
place or appends. -/
theorem writeFirst_append (new : α) (hs : List (Held α)) {ks : List (Held α)}
    (hk : ∀ k ∈ ks, p k.get = false) :
    writeFirst p f new (hs ++ ks) =
      touchFirst p f hs ++ ks ++ if hs.any (p ·.get) then [] else [own new] := by
  induction hs with
  | nil =>
    induction ks with
    | nil => rfl
    | cons k ks ih =>
      have ih := ih fun j hj => hk j (List.mem_cons_of_mem _ hj)
      rw [List.nil_append] at ih ⊢
      rw [writeFirst, hk k List.mem_cons_self, if_neg Bool.false_ne_true, ih]
      rfl
  | cons h hs ih =>
    rw [List.cons_append, writeFirst, List.any_cons]
    cases hp : p h.get with
    | true => rw [if_pos rfl, touchFirst_cons_of_pos hp, Bool.true_or, if_pos rfl, List.append_nil,
        List.cons_append]
    | false => rw [if_neg Bool.false_ne_true, touchFirst_cons_of_neg hp, Bool.false_or, ih,
        List.cons_append, List.cons_append]

theorem getElem?_touchFirst {hs : List (Held α)} {i : Nat} {h : Held α} (hi : hs[i]? = some h) :
    (touchFirst p f hs)[i]? = some h ∨
      p h.get = true ∧ (∀ j < i, ∀ g, hs[j]? = some g → p g.get = false) ∧
        (∀ j < i, (touchFirst p f hs)[j]? = hs[j]?) ∧
        (touchFirst p f hs)[i]? = some (h.write f) := by
  induction hs generalizing i with
  | nil => cases hi
  | cons k hs ih =>
    cases hp : p k.get with
    | true =>
      rw [touchFirst_cons_of_pos hp]
      cases i with
      | zero =>
        obtain rfl := Option.some.inj hi
        exact .inr ⟨hp, fun j hj => absurd hj (Nat.not_lt_zero j),
          fun j hj => absurd hj (Nat.not_lt_zero j), rfl⟩
      | succ i => exact .inl hi
    | false =>
      rw [touchFirst_cons_of_neg hp]
      cases i with
      | zero => exact .inl hi
      | succ i =>
        rcases ih hi with he | ⟨hph, hfirst, hbefore, he⟩
        · exact .inl he
        · refine .inr ⟨hph, fun j hj g hg => ?_, fun j hj => ?_, he⟩
          · cases j with
            | zero =>
              obtain rfl := Option.some.inj hg
              exact hp
            | succ j => exact hfirst j (Nat.lt_of_succ_lt_succ hj) g hg
          · cases j with
            | zero => rfl
            | succ j => exact hbefore j (Nat.lt_of_succ_lt_succ hj)

theorem any_touchFirst {q : α → Bool} (hq : ∀ a, p a = true → q (f a) = q a) (hs : List (Held α)) :
    (touchFirst p f hs).any (q ·.get) = hs.any (q ·.get) := by
  induction hs with
  | nil => rfl
  | cons h hs ih =>
    cases hp : p h.get with
    | true => rw [touchFirst_cons_of_pos hp, List.any_cons, List.any_cons, get_write, hq _ hp]
    | false => rw [touchFirst_cons_of_neg hp, List.any_cons, List.any_cons, ih]

end Held

namespace Attribute

variable {τ : Type}

/-- Lists a word in the first attribute keyed `k` with a plain text value, where
there is one and it does not list the word yet. -/
def listWord (k w : String) (hs : List (Held (Attribute τ))) : List (Held (Attribute τ)) :=
  match (hs.find? (·.get.isTextNamed k)).bind (·.get.value.text?) with
  | some current =>
    if (Text.words current).contains w then hs
    else
      Held.touchFirst (Attribute.isTextNamed k)
        (fun a => { a with value := .text (Attribute.appendWord w current) }) hs
  | none => hs

theorem isTextNamed_of_find? {k : String} {hs : List (Held (Attribute τ))}
    {h : Held (Attribute τ)} (hf : hs.find? (·.get.isTextNamed k) = some h) :
    h.get.isTextNamed k = true :=
  List.find?_some (p := fun g : Held (Attribute τ) => g.get.isTextNamed k) hf

theorem not_isTextNamed_of_find? {k : String} {hs : List (Held (Attribute τ))}
    (h : (hs.find? (·.get.isTextNamed k)).bind (·.get.value.text?) = none) :
    ∀ g ∈ hs, g.get.isTextNamed k = false := by
  intro g hg
  cases hf : hs.find? (·.get.isTextNamed k) with
  | none => exact Bool.eq_false_iff.2 (List.find?_eq_none.1 hf g hg)
  | some g' =>
    obtain ⟨s, -, hs⟩ := isTextNamed_iff.1 (isTextNamed_of_find? hf)
    rw [hf, Option.bind_some, hs] at h
    cases h

theorem length_listWord (k w : String) (hs : List (Held (Attribute τ))) :
    (listWord k w hs).length = hs.length := by
  unfold listWord
  split
  · split
    · rfl
    · exact Held.length_touchFirst hs
  · rfl

theorem any_listWord {q : Attribute τ → Bool} {k : String}
    (hq : ∀ a v, a.isTextNamed k = true → q { a with value := .text v } = q a) (w : String)
    (hs : List (Held (Attribute τ))) : (listWord k w hs).any (q ·.get) = hs.any (q ·.get) := by
  unfold listWord
  split
  · split
    · rfl
    · exact Held.any_touchFirst (fun a ha => hq a _ ha) hs
  · rfl

theorem getElem?_listWord {k w : String} {hs : List (Held (Attribute τ))} {i : Nat}
    {h : Held (Attribute τ)} (hi : hs[i]? = some h) :
    (listWord k w hs)[i]? = some h ∨
      ∃ current, h.get.key = .text k ∧ h.get.value = .text current ∧
        (Text.words current).contains w = false ∧
        (∀ j < i, ∀ g, (listWord k w hs)[j]? = some g → g.get.isTextNamed k = false) ∧
        (listWord k w hs)[i]? =
          some (.own { h.get with value := .text (appendWord w current) }) := by
  cases hc : (hs.find? (·.get.isTextNamed k)).bind (·.get.value.text?) with
  | none =>
    have same : listWord k w hs = hs := by rw [listWord, hc]
    exact .inl (by rw [same, hi])
  | some current =>
    cases hw : (Text.words current).contains w with
    | true =>
      have same : listWord k w hs = hs := by
        rw [listWord, hc]
        exact if_pos hw
      exact .inl (by rw [same, hi])
    | false =>
      have touch : listWord k w hs = Held.touchFirst (Attribute.isTextNamed k)
          (fun a => { a with value := .text (appendWord w current) }) hs := by
        rw [listWord, hc]
        exact if_neg (by rw [hw]; exact Bool.false_ne_true)
      rw [touch]
      rcases Held.getElem?_touchFirst hi with he | ⟨hp, hfirst, hbefore, he⟩
      · exact .inl he
      · obtain ⟨s, hkey, hvalue⟩ := isTextNamed_iff.1 hp
        -- the word is read off the attribute that it is written to
        have hfind : hs.find? (·.get.isTextNamed k) = some h := by
          obtain ⟨hlt, hget⟩ := List.getElem?_eq_some_iff.1 hi
          refine List.find?_eq_some_iff_getElem.2 ⟨hp, i, hlt, hget, fun j hj => ?_⟩
          rw [hfirst j hj _ (List.getElem?_eq_getElem (Nat.lt_trans hj hlt))]
          rfl
        rw [hfind, Option.bind_some, hvalue] at hc
        obtain rfl := Option.some.inj hc
        refine .inr ⟨s, hkey, hvalue, hw, fun j hj g hg => ?_, he⟩
        rw [hbefore j hj] at hg
        exact hfirst j hj g hg

/-- Listing a word in the front of a list, of which the rest has no plain text
under the key, happens in place or appends. -/
theorem apply_addWord_append {k : String} (w : String) (hs : List (Held (Attribute τ)))
    {ks : List (Held (Attribute τ))} (hk : ∀ g ∈ ks, g.get.isTextNamed k = false) :
    AttributeEdit.apply (hs ++ ks) (.addWord k w) =
      listWord k w hs ++ ks ++
        if hs.any (·.get.isTextNamed k) then []
        else [.own ⟨.text k, .text w, none, none, none⟩] := by
  have hrest : ks.find? (·.get.isTextNamed k) = none :=
    List.find?_eq_none.2 fun g hg => Bool.eq_false_iff.1 (hk g hg)
  rw [AttributeEdit.apply, listWord, List.find?_append, hrest, Option.or_none]
  cases hc : (hs.find? (·.get.isTextNamed k)).bind (·.get.value.text?) with
  | none =>
    have hnone : hs.any (·.get.isTextNamed k) = false :=
      List.any_eq_false.2 fun g hg => Bool.eq_false_iff.1 (not_isTextNamed_of_find? hc g hg)
    simp only [hnone, Bool.false_eq_true, if_false]
  | some current =>
    have hsome : hs.any (·.get.isTextNamed k) = true := by
      obtain ⟨g, hg, -⟩ := Option.bind_eq_some_iff.1 hc
      exact List.any_eq_true.2 ⟨g, List.mem_of_find?_eq_some hg, isTextNamed_of_find? hg⟩
    simp only [hsome, if_true, List.append_nil]
    split
    · rfl
    · rw [Held.writeFirst_append _ hs hk, hsome, if_pos rfl, List.append_nil]

end Attribute

/-! ### The shape of an expanded list -/

/-- What expanding its sides makes of a written pair: a pair of plain texts stays
that very pair, and any other becomes a new pair with no source, which keeps what
was text and has tokens for tokens. -/
def Attribute.ExpandsTo (a : Attribute Token) (h : Held (Attribute Token)) : Prop :=
  if a.needsExpansion then ∃ k v, h = .own (newAttribute k v) ∧ a.Fits (newAttribute k v)
  else h = .shared a

theorem Content.fits_of_text {c : Content Token} (h : c.isTokens = false) : c.Fits c := by
  obtain ⟨s, rfl⟩ := Content.isTokens_eq_false_iff.1 h
  rfl

theorem Attribute.ExpandsTo.fits {a : Attribute Token} {h : Held (Attribute Token)}
    (hx : a.ExpandsTo h) : a.Fits h.get := by
  unfold Attribute.ExpandsTo at hx
  split at hx
  · obtain ⟨k, v, rfl, hf⟩ := hx
    exact hf
  · rename_i hn
    obtain ⟨hk, hv⟩ := Bool.or_eq_false_iff.1 (Bool.eq_false_iff.2 hn)
    subst hx
    exact ⟨Content.fits_of_text hk, Content.fits_of_text hv⟩

/-! ### One pair -/

structure Attribute.Keeps (a b : Attribute Token) : Prop where
  keySource : b.keySource = a.keySource
  valueSource : b.valueSource = a.valueSource
  offsets : b.offsets = a.offsets
  key : a.key.isTokens = false → b.key = a.key

section Keeps

variable {w : Bool} {a b : Attribute Token} {h : Held (Attribute Token)}

theorem Attribute.Keeps.self (a : Attribute Token) : a.Keeps a := ⟨rfl, rfl, rfl, fun _ => rfl⟩

theorem Attribute.Keeps.withValue (hk : a.Keeps b) (v : Content Token) :
    a.Keeps { b with value := v } := ⟨hk.keySource, hk.valueSource, hk.offsets, hk.key⟩

theorem Attribute.Keeps.withSides (hk : a.Keeps b) (ha : a.key.isTokens = true)
    (k v : Content Token) : a.Keeps { b with key := k, value := v } := by
  refine ⟨hk.keySource, hk.valueSource, hk.offsets, fun hn => ?_⟩
  rw [ha] at hn
  cases hn

theorem carrySources_newAttribute (a : Attribute Token) (k v : Content Token) :
    (newAttribute k v).carrySources a = ⟨k, v, a.keySource, a.valueSource, a.offsets⟩ := by
  simp [Attribute.carrySources, newAttribute]

theorem Attribute.ExpandsTo.keeps (hx : a.ExpandsTo h) : a.Keeps (h.carrySources a).get := by
  have hkey : a.key.isTokens = false → (h.carrySources a).get.key = a.key :=
    fun hk => hx.fits.carrySources.1.eq_of_text hk
  unfold Attribute.ExpandsTo at hx
  split at hx
  · obtain ⟨k, v, rfl, -⟩ := hx
    have hget : ((Held.own (newAttribute k v)).carrySources a).get =
        ⟨k, v, a.keySource, a.valueSource, a.offsets⟩ := carrySources_newAttribute a k v
    refine ⟨?_, ?_, ?_, hkey⟩
    all_goals rw [hget]
  · subst hx
    exact Attribute.Keeps.self a

theorem keeps_reconcileKey (hk : a.Keeps h.get) (ha : a.key.isTokens = true) :
    a.Keeps (reconcileKey w h).pair.get := by
  have hr := reconcilesKey w h
  generalize reconcileKey w h = step at hr ⊢
  cases hr with
  | undecided | plain | whole | alone => exact hk.withSides ha _ _

theorem keeps_settleValue {step : KeyStep} (hk : a.Keeps step.pair.get) :
    a.Keeps (settleValue w a step).1.get := by
  have hr := settlesValue w a step
  generalize settleValue w a step = r at hr ⊢
  cases hr with
  | kept | deferred | reserved => exact hk
  | stripped => exact hk.withValue _

/-- A settled pair has the pointers of the written one, and its key where that is text. -/
theorem Attribute.ExpandsTo.keeps_reconcilePair (hx : a.ExpandsTo h) :
    a.Keeps (reconcilePair w a h).1.get := by
  have hc := hx.keeps
  have hr := reconcilesPair w a h
  generalize reconcilePair w a h = r at hr ⊢
  cases hr with
  | empty => exact hc
  | text => exact keeps_settleValue hc
  | tokens _ hk => exact keeps_settleValue (keeps_reconcileKey hc hk)

theorem Attribute.ExpandsTo.reconcilePair_eq (hx : a.ExpandsTo h) (hn : a.needsExpansion = false) :
    reconcilePair w a h = (.shared a, {}) := by
  have hshared : h = .shared a := by
    rw [Attribute.ExpandsTo, hn, if_neg Bool.false_ne_true] at hx
    exact hx
  rw [reconcilePair_plain hx.fits hn, hshared]
  rfl

end Keeps

/-! ### The pairs that keep both forms -/

/-- The pair that is added for one with an undecided side: for a key that was
expanded its value as it came, for a value that an object produced under such a
key its type with both forms of it. -/
def syntheticPair? (w : Bool) (written expanded : Attribute Token) : Option (Attribute Token) :=
  if Text.contains maybeContent expanded.key.plainText then
    if written.key.isTokens then some (newAttribute (.text keyAffected) expanded.value)
    else if written.value.isTokens then
      (strip w expanded.value).objectType.map fun type =>
        newAttribute (.text valueAffected)
          (.tokens [.text type, .marker (newMarker .value type expanded.key
            (strip w expanded.value).value expanded.value)])
    else none
  else none

def syntheticPairs (w : Bool) (written expanded : List (Attribute Token)) :
    List (Attribute Token) :=
  (List.zipWith (fun a b => (syntheticPair? w a b).toList) written expanded).flatten

theorem Token.plainText_of_isMeta {t : Token} (h : t.isMeta = true) : t.plainText = "" := by
  cases t with
  | text s | newline | comment s => cases h
  | _ => rfl

theorem plainText_strip (w : Bool) (c : Content Token) :
    (strip w c).value.plainText = c.plainText := by
  cases c with
  | text s => rfl
  | tokens ts =>
    change (collapse _).plainText = WikiExpansion.plainText ts
    rw [plainText_collapse]
    induction ts with
    | nil => rfl
    | cons t ts ih =>
      cases hm : t.isMeta with
      | true =>
        rw [List.filter_cons_of_neg (by rw [hm]; exact Bool.false_ne_true), ih,
          WikiExpansion.plainText, Token.plainText_of_isMeta hm, String.empty_append]
      | false =>
        rw [List.filter_cons_of_pos (by rw [hm]; rfl), WikiExpansion.plainText, ih]
        rfl

section Added

variable {w : Bool} {a : Attribute Token} {h : Held (Attribute Token)}

theorem added_settleValue_of_decided (step : KeyStep)
    (hk : a.value.isTokens = true → Text.contains maybeContent step.key.plainText = false) :
    (settleValue w a step).2.added = [] := by
  have hr := settlesValue w a step
  generalize settleValue w a step = r at hr ⊢
  cases hr with
  | kept | reserved | stripped => rfl
  | deferred hkey hv hc =>
    have hdecided := hk hv
    rw [hkey] at hdecided
    exact absurd (hdecided.symm.trans hc) Bool.false_ne_true

/-- A key adds a pair where it is undecided, and decides about its value in any case. -/
theorem added_reconcileKey (w : Bool) (h : Held (Attribute Token)) :
    (reconcileKey w h).findings.added =
        (if Text.contains maybeContent h.get.key.plainText then
          [newAttribute (.text keyAffected) h.get.value] else []) ∧
      (h.get.value.isTokens = true →
        Text.contains maybeContent (reconcileKey w h).key.plainText = false) := by
  have hr := reconcilesKey w h
  have hstrip : (strip w h.get.key).value.plainText = h.get.key.plainText := plainText_strip w _
  generalize reconcileKey w h = step at hr ⊢
  cases hr with
  | undecided hc =>
    rw [if_pos hc]
    exact ⟨rfl, fun _ => show Text.contains maybeContent keyAffected = false by decide⟩
  | plain hc | alone hc =>
    rw [if_neg (Bool.eq_false_iff.1 hc)]
    exact ⟨rfl, fun _ => hstrip ▸ hc⟩
  | whole hc _ he =>
    rw [if_neg (Bool.eq_false_iff.1 hc)]
    refine ⟨rfl, fun hv => ?_⟩
    rw [Content.isEmptyText_of_isTokens hv] at he
    cases he

theorem added_reconcilePair (hf : a.Fits h.get) :
    (reconcilePair w a h).2.added = (syntheticPair? w a h.get).toList := by
  obtain ⟨hkey, hvalue⟩ := get_carrySources a h
  have hsyn : syntheticPair? w a h.get = syntheticPair? w a (h.carrySources a).get := by
    rw [syntheticPair?, syntheticPair?, hkey, hvalue]
  have hfit := hf.carrySources
  have hr := reconcilesPair w a h
  generalize reconcilePair w a h = r at hr ⊢
  cases hr with
  | empty he =>
    rw [syntheticPair?, Content.isEmptyText_iff.1 he]
    rfl
  | text _ ha =>
    rw [hsyn, syntheticPair?, ha, if_neg Bool.false_ne_true]
    show (settleValue w a (keptKey a (h.carrySources a))).2.added = _
    have hv := settlesValue w a (keptKey a (h.carrySources a))
    generalize settleValue w a (keptKey a (h.carrySources a)) = r at hv ⊢
    cases hv with
    | kept hkeeps =>
      have htext : (h.carrySources a).get.key.isTokens = false := hfit.1.isTokens.trans ha
      rw [hkeeps.resolve_left fun hk => Bool.false_ne_true (htext.symm.trans hk),
        if_neg Bool.false_ne_true, ite_self]
      rfl
    | @deferred k hk hv hc =>
      have hk : (h.carrySources a).get.key = .text k := hk
      have hmark : Text.contains maybeContent (h.carrySources a).get.key.plainText = true := by
        rw [hk]
        exact hc
      rw [if_pos hmark, if_pos hv]
      rfl
    | @reserved k hk _ hc | @stripped k hk _ hc =>
      have hk : (h.carrySources a).get.key = .text k := hk
      have hmark : Text.contains maybeContent (h.carrySources a).get.key.plainText = false := by
        rw [hk]
        exact hc
      rw [hmark, if_neg Bool.false_ne_true]
      rfl
  | tokens _ ha =>
    obtain ⟨hadd, hdecided⟩ := added_reconcileKey w (h.carrySources a)
    rw [hsyn, syntheticPair?, ha, if_pos rfl, Findings.append_def]
    simp only
    rw [hadd, added_settleValue_of_decided _ fun hv => hdecided (hfit.2.isTokens.trans hv),
      List.append_nil]
    split <;> rfl

end Added

/-! ### All pairs -/

/-- The settled pair keeps what it has to of the written one, which it is where
nothing of that was to be expanded. -/
def Attribute.SettlesTo (a : Attribute Token) (h : Held (Attribute Token)) : Prop :=
  a.Keeps h.get ∧ (a.needsExpansion = false → h = .shared a)

theorem added_reconcile {w : Bool} {as : List (Attribute Token)}
    {hs : List (Held (Attribute Token))} (hf : FitAll as hs) :
    (reconcile w as hs).2.added = syntheticPairs w as (hs.map Held.get) := by
  induction hf with
  | nil => rfl
  | @cons a h as hs hah _ ih =>
    show (reconcilePair w a h).2.added ++ (reconcile w as hs).2.added = _
    rw [added_reconcilePair hah, ih]
    rfl

theorem settlesTo_reconcile {w : Bool} {as : List (Attribute Token)}
    {hs : List (Held (Attribute Token))} (hx : List.Forall₂ Attribute.ExpandsTo as hs) :
    List.Forall₂ Attribute.SettlesTo as (reconcile w as hs).1 ∧
      (reconcile w as hs).2.added = syntheticPairs w as (hs.map Held.get) := by
  refine ⟨?_, added_reconcile (hx.imp fun _ _ hah => hah.fits)⟩
  induction hx with
  | nil => exact .nil
  | @cons a h as hs hah _ ih =>
    refine .cons ⟨hah.keeps_reconcilePair, fun hn => ?_⟩ ih
    change (reconcilePair w a h).1 = _
    rw [hah.reconcilePair_eq hn]

def Findings.Tells (f : Findings) : Prop := f.modified = false → f.markers = [] ∧ f.added = []

theorem Findings.Tells.append {f g : Findings} (hf : f.Tells) (hg : g.Tells) : (f ++ g).Tells := by
  intro hm
  rw [append_def, Bool.or_eq_false_iff] at hm
  obtain ⟨hfm, hfa⟩ := hf hm.1
  obtain ⟨hgm, hga⟩ := hg hm.2
  rw [append_def, hfm, hfa, hgm, hga]
  exact ⟨rfl, rfl⟩

theorem Findings.tells_of_modified {f : Findings} (h : f.modified = true) : f.Tells := by
  intro hm
  rw [h] at hm
  cases hm

theorem tells_settleValue (w : Bool) (a : Attribute Token) (step : KeyStep) :
    (settleValue w a step).2.Tells := by
  have hr := settlesValue w a step
  generalize settleValue w a step = r at hr ⊢
  cases hr with
  | kept => exact fun _ => ⟨rfl, rfl⟩
  | deferred | reserved | stripped => exact Findings.tells_of_modified rfl

theorem tells_reconcilePair (w : Bool) (a : Attribute Token) (h : Held (Attribute Token)) :
    (reconcilePair w a h).2.Tells := by
  have hr := reconcilesPair w a h
  generalize reconcilePair w a h = r at hr ⊢
  cases hr with
  | empty => exact fun _ => ⟨rfl, rfl⟩
  | text => exact .append (fun _ => ⟨rfl, rfl⟩) (tells_settleValue w a _)
  | tokens =>
    exact .append (Findings.tells_of_modified (modified_reconcileKey w _)) (tells_settleValue w a _)

theorem tells_reconcile (w : Bool) (as : List (Attribute Token))
    (hs : List (Held (Attribute Token))) : (reconcile w as hs).2.Tells := by
  induction as generalizing hs with
  | nil => exact fun _ => ⟨rfl, rfl⟩
  | cons a as ih =>
    cases hs with
    | nil => exact fun _ => ⟨rfl, rfl⟩
    | cons h hs => exact (tells_reconcilePair w a h).append (ih hs)

/-- A pair has changed if something of it was expanded, unless its key is the empty
text. -/
theorem Attribute.ExpandsTo.modified {w : Bool} {a : Attribute Token}
    {h : Held (Attribute Token)} (hx : a.ExpandsTo h) :
    (reconcilePair w a h).2.modified = (a.needsExpansion && !a.key.isEmptyText) := by
  cases hn : a.needsExpansion with
  | false => rw [hx.reconcilePair_eq hn]; rfl
  | true =>
    have hempty := hx.fits.1.isEmptyText
    have hr := reconcilesPair w a h
    generalize reconcilePair w a h = r at hr ⊢
    cases hr with
    | empty he =>
      rw [← hempty, he]
      rfl
    | text he hk =>
      have hv : a.value.isTokens = true := by
        rw [Attribute.needsExpansion, hk, Bool.false_or] at hn
        exact hn
      have htext : (keptKey a (h.carrySources a)).key.isTokens = false :=
        hx.fits.carrySources.1.isTokens.trans hk
      rw [← hempty, he, Findings.append_def, modified_settleValue hv htext, Bool.or_true]
      rfl
    | tokens he =>
      rw [← hempty, he, Findings.append_def, modified_reconcileKey]
      rfl

def changes (as : List (Attribute Token)) : Bool :=
  as.any fun a => a.needsExpansion && !a.key.isEmptyText

theorem modified_reconcile {w : Bool} {as : List (Attribute Token)}
    {hs : List (Held (Attribute Token))} (hx : List.Forall₂ Attribute.ExpandsTo as hs) :
    (reconcile w as hs).2.modified = changes as := by
  induction hx with
  | nil => rfl
  | @cons a h as hs hah _ ih =>
    change ((reconcilePair w a h).2.modified || (reconcile w as hs).2.modified) = _
    rw [hah.modified, ih]
    rfl

/-! ### The emitted tag -/

/-- A token of which no pair changes is returned itself. -/
theorem returnAttributes_of_changes_eq_false {o : Options} (ids : IdSource) {token : Token}
    {tag : Tag Token} {expanded : List (Held (Attribute Token))}
    (ht : token.expandableTag? = some tag)
    (hx : List.Forall₂ Attribute.ExpandsTo tag.attributes expanded)
    (hc : changes tag.attributes = false) :
    returnAttributes o ids token expanded = (.ok [token], ids) := by
  have hm : (reconcile o.wrapTemplates tag.attributes expanded).2.modified = false :=
    (modified_reconcile hx).trans hc
  exact (Returns.unmodified ht (Nat.le_of_eq hx.length_eq) (Rebuilds.unmodified hm).eq).eq

/-- The pairs that hold a tag together with its markers, where it has none of
these names among `as`: an `about`, and a `typeof` in plain text. -/
def groupingPairs (ms : List (Marker Token)) (as : List (Attribute Token)) :
    List (Attribute Token) :=
  match ms.getLast? with
  | none => []
  | some last =>
    (if as.any (·.isNamed "about") then []
      else (last.about.map fun id => newAttribute (.text "about") (.text id)).toList) ++
    if as.any (·.isTextNamed "typeof") then []
    else [newAttribute (.text "typeof") (.text (expandedLabel last.objectType))]

/-- The pair in place `i` is the written pair `a` with the label of the last marker
listed in it: it is the first `typeof` in plain text, and did not list it yet. -/
def Labels (ms : List (Marker Token)) (out : List (Held (Attribute Token))) (i : Nat)
    (a : Attribute Token) (h : Held (Attribute Token)) : Prop :=
  ∃ last current, ms.getLast? = some last ∧ a.key = .text "typeof" ∧ a.value = .text current ∧
    (Text.words current).contains (expandedLabel last.objectType) = false ∧
    (∀ j < i, ∀ g, out[j]? = some g → g.get.isTextNamed "typeof" = false) ∧
    h = .own { a with
      value := .text (Attribute.appendWord (expandedLabel last.objectType) current) }

/-- How the attributes `out` of the emitted tag lie over the written ones `as`, of
which `hs` are the expanded ones, with `ms` the markers before it. -/
structure Layout (w : Bool) (as : List (Attribute Token)) (hs : List (Held (Attribute Token)))
    (ms : List (Marker Token)) (out : List (Held (Attribute Token))) : Prop where
  length : as.length ≤ out.length
  /-- A written pair has its place, and what was all text is not copied unless the
  label was listed in it. -/
  places : ∀ i a, as[i]? = some a → ∃ h, out[i]? = some h ∧ a.Keeps h.get ∧
    (a.needsExpansion = false → h = .shared a ∨ Labels ms out i a h)
  behind : out.drop as.length = (syntheticPairs w as (hs.map Held.get) ++
    groupingPairs ms ((out.take as.length).map Held.get)).map .own

theorem Attribute.lookup_of_first {k : String} {as : List (Attribute Token)} {i : Nat}
    {a : Attribute Token} (hi : as[i]? = some a) (ha : a.isNamed k = true)
    (hfirst : ∀ j < i, ∀ b, as[j]? = some b → b.isNamed k = false) :
    Attribute.lookup k as = some a.value := by
  obtain ⟨hlt, hget⟩ := List.getElem?_eq_some_iff.1 hi
  have hfind : as.find? (·.isNamed k) = some a := by
    refine List.find?_eq_some_iff_getElem.2 ⟨ha, i, hlt, hget, fun j hj => ?_⟩
    rw [hfirst j hj _ (List.getElem?_eq_getElem (Nat.lt_trans hj hlt))]
    rfl
  rw [Attribute.lookup, hfind]
  rfl

theorem getElem?_of_forall₂ {α β : Type} {R : α → β → Prop} {as : List α} {bs : List β}
    (h : List.Forall₂ R as bs) {i : Nat} {a : α} (hi : as[i]? = some a) :
    ∃ b, bs[i]? = some b ∧ R a b := by
  induction h generalizing i with
  | nil => cases hi
  | cons hab _ ih =>
    cases i with
    | zero =>
      obtain rfl := Option.some.inj hi
      exact ⟨_, rfl, hab⟩
    | succ i => exact ih hi

theorem Attribute.lookup_append {k : String} (as : List (Attribute Token))
    {bs : List (Attribute Token)} (hb : ∀ b ∈ bs, b.isNamed k = false) :
    Attribute.lookup k (as ++ bs) = Attribute.lookup k as := by
  have hnone : bs.find? (·.isNamed k) = none :=
    List.find?_eq_none.2 fun b hm => Bool.eq_false_iff.1 (hb b hm)
  rw [Attribute.lookup, List.find?_append, hnone, Option.or_none]
  rfl

theorem any_isNamed_of_lookupText {k v : String} {hs : List (Held (Attribute Token))}
    (h : Attribute.lookupText k (hs.map Held.get) = some v) : hs.any (·.get.isNamed k) = true := by
  obtain ⟨c, hc, -⟩ := Option.bind_eq_some_iff.1 h
  obtain ⟨a, ha, -⟩ := Option.map_eq_some_iff.1 hc
  obtain ⟨g, hg, rfl⟩ := List.mem_map.1 (List.mem_of_find?_eq_some ha)
  exact List.any_eq_true.2 ⟨g, hg, List.find?_some (p := fun a : Attribute Token => a.isNamed k) ha⟩

section Group

variable {settled synthetic : List (Held (Attribute Token))}

/-- Grouping writes in place to the settled pairs and appends behind the others:
an `about` is written where there was none in plain text. -/
theorem group_attributes (settled : List (Held (Attribute Token))) (ids : IdSource)
    (last : Marker Token) (ms : List (Marker Token))
    (hs : ∀ g ∈ synthetic, g.get.isNamed "about" = false ∧ g.get.isNamed "typeof" = false) :
    ∃ id mid, (group ids last ms (settled ++ synthetic)).1.markers =
        ms.map (fun m => { m with about := some id }) ∧
      (mid = settled ∨ Attribute.lookupText "about" (settled.map Held.get) = none ∧
        mid = Held.touchFirst (·.isNamed "about") (fun a => { a with value := .text id }) settled) ∧
      (group ids last ms (settled ++ synthetic)).1.attributes =
        Attribute.listWord "typeof" (expandedLabel last.objectType) mid ++ (synthetic ++
          if mid.any (·.get.isNamed "about") then []
          else [.own (newAttribute (.text "about") (.text id))]) ++
        if mid.any (·.get.isTextNamed "typeof") then []
        else [.own (newAttribute (.text "typeof") (.text (expandedLabel last.objectType)))] := by
  have habout : Attribute.lookupText "about" ((settled ++ synthetic).map Held.get) =
      Attribute.lookupText "about" (settled.map Held.get) := by
    rw [Attribute.lookupText, List.map_append, Attribute.lookup_append]
    · rfl
    · intro b hb
      obtain ⟨g, hg, rfl⟩ := List.mem_map.1 hb
      exact (hs g hg).1
  have htypeof : ∀ g ∈ synthetic, g.get.isTextNamed "typeof" = false := by
    intro g hg
    rw [Attribute.isTextNamed, (hs g hg).2, Bool.false_and]
  cases hid : Attribute.lookupText "about" (settled.map Held.get) with
  | some id =>
    rw [group_of_about (habout.trans hid)]
    refine ⟨id, settled, rfl, .inl rfl, ?_⟩
    simp only [any_isNamed_of_lookupText hid, if_true, List.append_nil]
    exact Attribute.apply_addWord_append _ settled htypeof
  | none =>
    rw [group_of_no_about (habout.trans hid)]
    refine ⟨ids.newAboutId.1, _, rfl, .inr ⟨rfl, rfl⟩, ?_⟩
    simp only [AttributeEdit.apply.eq_2]
    rw [Held.writeFirst_append _ settled fun g hg => (hs g hg).1, List.append_assoc]
    have hkept := Held.any_touchFirst (p := fun a : Attribute Token => a.isNamed "about")
      (f := fun a => { a with value := .text ids.newAboutId.1 })
      (q := fun a => a.isNamed "about") (fun a _ => rfl) settled
    rw [hkept]
    refine Attribute.apply_addWord_append _ _ fun g hg => ?_
    rcases List.mem_append.1 hg with hg | hg
    · exact htypeof g hg
    · split at hg
      · cases hg
      · obtain rfl := List.mem_singleton.1 hg
        rfl

/-- Behind the pairs that were settled and those that were added for them, grouping puts
nothing but an `about` and a `typeof`. -/
theorem drop_group (settled : List (Held (Attribute Token))) (ids : IdSource)
    (last : Marker Token) (ms : List (Marker Token))
    (hs : ∀ g ∈ synthetic, g.get.isNamed "about" = false ∧ g.get.isNamed "typeof" = false) :
    ∃ rest, (group ids last ms (settled ++ synthetic)).1.attributes.drop settled.length =
        synthetic ++ rest ∧
      ∀ g ∈ rest, g.get.key = .text "about" ∨ g.get.key = .text "typeof" := by
  obtain ⟨id, mid, -, hmid, hout⟩ := group_attributes settled ids last ms hs
  have hlen : (Attribute.listWord "typeof" (expandedLabel last.objectType) mid).length =
      settled.length := by
    rw [Attribute.length_listWord]
    rcases hmid with rfl | ⟨-, rfl⟩
    · rfl
    · exact Held.length_touchFirst ..
  rw [hout, List.append_assoc, List.drop_left' hlen, List.append_assoc]
  refine ⟨_, rfl, fun g hg => ?_⟩
  -- each of the two is appended only where there is none
  rcases List.mem_append.1 hg with hg | hg
  · split at hg
    · cases hg
    · obtain rfl := List.mem_singleton.1 hg
      exact .inl rfl
  · split at hg
    · cases hg
    · obtain rfl := List.mem_singleton.1 hg
      exact .inr rfl

/-- An `about` that is written in place is one that was to be expanded: in plain
text it would have been used. -/
theorem settlesTo_touchFirst_about {id : String} {i : Nat} {a : Attribute Token}
    {h : Held (Attribute Token)} (hi : settled[i]? = some h) (ha : a.SettlesTo h)
    (hnone : Attribute.lookupText "about" (settled.map Held.get) = none) :
    ∃ g, (Held.touchFirst (·.isNamed "about") (fun a => { a with value := .text id }) settled)[i]? =
      some g ∧ a.SettlesTo g := by
  rcases Held.getElem?_touchFirst (p := fun a : Attribute Token => a.isNamed "about")
    (f := fun a => { a with value := .text id }) hi with he | ⟨hp, hfirst, -, he⟩
  · exact ⟨h, he, ha⟩
  · refine ⟨_, he, ha.1.withValue _, fun hn => ?_⟩
    obtain rfl := ha.2 hn
    have hlookup : Attribute.lookup "about" (settled.map Held.get) = some a.value := by
      refine Attribute.lookup_of_first (i := i) (by rw [List.getElem?_map, hi]; rfl) hp ?_
      intro j hj b hb
      rw [List.getElem?_map] at hb
      obtain ⟨g, hg, rfl⟩ := Option.map_eq_some_iff.1 hb
      exact hfirst j hj g hg
    obtain ⟨s, hs⟩ := Content.isTokens_eq_false_iff.1 (Bool.or_eq_false_iff.1 hn).2
    rw [Attribute.lookupText, hlookup, hs] at hnone
    cases hnone

end Group

theorem key_syntheticPair? {w : Bool} {a b c : Attribute Token}
    (h : syntheticPair? w a b = some c) :
    c.key = .text keyAffected ∨ c.key = .text valueAffected := by
  unfold syntheticPair? at h
  split at h
  · split at h
    · obtain rfl := Option.some.inj h
      exact .inl rfl
    · split at h
      · obtain ⟨type, -, rfl⟩ := Option.map_eq_some_iff.1 h
        exact .inr rfl
      · cases h
  · cases h

theorem isNamed_syntheticPairs {w : Bool} {as bs : List (Attribute Token)} :
    ∀ c ∈ syntheticPairs w as bs, c.isNamed "about" = false ∧ c.isNamed "typeof" = false := by
  induction as generalizing bs with
  | nil => exact nofun
  | cons a as ih =>
    cases bs with
    | nil => exact nofun
    | cons b bs =>
      intro c hc
      rcases List.mem_append.1 (show c ∈ _ ++ syntheticPairs w as bs from hc) with hc | hc
      · rw [Attribute.isNamed, Attribute.isNamed]
        rcases key_syntheticPair? (Option.mem_toList.1 hc) with hk | hk
        · rw [hk]
          exact ⟨rfl, rfl⟩
        · rw [hk]
          exact ⟨rfl, rfl⟩
      · exact ih c hc

section Layout

variable {w : Bool} {as : List (Attribute Token)} {hs settled : List (Held (Attribute Token))}

/-- Pairs that were settled, with the added ones behind them. -/
theorem layout_append (hs' : List.Forall₂ Attribute.SettlesTo as settled) :
    Layout w as hs [] (settled ++ (syntheticPairs w as (hs.map Held.get)).map .own) := by
  have hlen := hs'.length_eq
  refine ⟨?_, fun i a hi => ?_, ?_⟩
  · rw [List.length_append]
    omega
  · obtain ⟨h, hh, hkeeps, hshared⟩ := getElem?_of_forall₂ hs' hi
    obtain ⟨hlt, -⟩ := List.getElem?_eq_some_iff.1 hh
    exact ⟨h, by rw [List.getElem?_append_left hlt, hh], hkeeps, fun hn => .inl (hshared hn)⟩
  · rw [List.drop_left' hlen.symm, groupingPairs, List.getLast?_nil]
    simp only [List.append_nil]

/-- Where the label is listed, a settled pair keeps its place, and is not copied unless
the label was listed in it. -/
theorem place_listWord {ms : List (Marker Token)} {last : Marker Token}
    (hlast : ms.getLast? = some last) {mid : List (Held (Attribute Token))} {i : Nat}
    {a : Attribute Token} {h : Held (Attribute Token)} (hh : mid[i]? = some h)
    (ha : a.SettlesTo h) (ks : List (Held (Attribute Token))) :
    ∃ g, (Attribute.listWord "typeof" (expandedLabel last.objectType) mid ++ ks)[i]? = some g ∧
      a.Keeps g.get ∧ (a.needsExpansion = false → g = .shared a ∨ Labels ms
        (Attribute.listWord "typeof" (expandedLabel last.objectType) mid ++ ks) i a g) := by
  have hlt : i < mid.length := (List.getElem?_eq_some_iff.1 hh).1
  have hleft {j : Nat} (hj : j ≤ i) :
      (Attribute.listWord "typeof" (expandedLabel last.objectType) mid ++ ks)[j]? =
        (Attribute.listWord "typeof" (expandedLabel last.objectType) mid)[j]? := by
    refine List.getElem?_append_left ?_
    rw [Attribute.length_listWord]
    omega
  rw [hleft (Nat.le_refl i)]
  rcases Attribute.getElem?_listWord (k := "typeof") (w := expandedLabel last.objectType) hh with
    he | ⟨current, hkey, hvalue, hword, hfirst, he⟩
  · exact ⟨h, he, ha.1, fun hn => .inl (ha.2 hn)⟩
  · refine ⟨_, he, ha.1.withValue _, fun hn => .inr ?_⟩
    obtain rfl := ha.2 hn
    refine ⟨last, current, hlast, hkey, hvalue, hword, fun j hj g hg => ?_, rfl⟩
    rw [hleft (Nat.le_of_lt hj)] at hg
    exact hfirst j hj g hg

theorem groupingPairs_listWord {ms : List (Marker Token)} {last : Marker Token} {id : String}
    (hlast : ms.getLast? = some last) (hid : last.about = some id)
    (mid : List (Held (Attribute Token))) :
    (groupingPairs ms ((Attribute.listWord "typeof" (expandedLabel last.objectType) mid).map
      Held.get)).map Held.own =
      (if mid.any (·.get.isNamed "about") then []
        else [.own (newAttribute (.text "about") (.text id))]) ++
      if mid.any (·.get.isTextNamed "typeof") then []
      else [.own (newAttribute (.text "typeof") (.text (expandedLabel last.objectType)))] := by
  have habout := Attribute.any_listWord (q := fun a : Attribute Token => a.isNamed "about")
    (k := "typeof") (fun a v _ => rfl) (expandedLabel last.objectType) mid
  have htypeof := Attribute.any_listWord
    (q := fun a : Attribute Token => a.isTextNamed "typeof") (k := "typeof")
    (fun a v ha => by
      rw [ha]
      exact Attribute.isTextNamed_iff.2
        ⟨v, (Attribute.isTextNamed_iff.1 ha).choose_spec.1, rfl⟩)
    (expandedLabel last.objectType) mid
  simp only [groupingPairs, hlast, hid, List.any_map, Function.comp_def, habout, htypeof,
    List.map_append]
  congr 1
  · split <;> rfl
  · split <;> rfl

/-- Grouping leaves the settled pairs in their places. -/
theorem layout_group (ids : IdSource) {last : Marker Token} {ms : List (Marker Token)}
    (hlast : ms.getLast? = some last) (hs' : List.Forall₂ Attribute.SettlesTo as settled) :
    Layout w as hs
      (group ids last ms (settled ++ (syntheticPairs w as (hs.map Held.get)).map .own)).1.markers
      (group ids last ms
        (settled ++ (syntheticPairs w as (hs.map Held.get)).map .own)).1.attributes := by
  have hlen := hs'.length_eq
  have hsynthetic : ∀ g ∈ (syntheticPairs w as (hs.map Held.get)).map Held.own,
      g.get.isNamed "about" = false ∧ g.get.isNamed "typeof" = false := by
    intro g hg
    obtain ⟨c, hc, rfl⟩ := List.mem_map.1 hg
    exact isNamed_syntheticPairs c hc
  obtain ⟨id, mid, hms, hmid, hout⟩ := group_attributes settled ids last ms hsynthetic
  have hmidlen : mid.length = as.length := by
    rcases hmid with rfl | ⟨-, rfl⟩
    · exact hlen.symm
    · rw [Held.length_touchFirst, hlen]
  have hplaces (i : Nat) (a : Attribute Token) (hi : as[i]? = some a) :
      ∃ h, mid[i]? = some h ∧ a.SettlesTo h := by
    obtain ⟨h, hh, ha⟩ := getElem?_of_forall₂ hs' hi
    rcases hmid with rfl | ⟨hnone, rfl⟩
    · exact ⟨h, hh, ha⟩
    · exact settlesTo_touchFirst_about hh ha hnone
  have hlast' : (ms.map fun m => { m with about := some id }).getLast? =
      some { last with about := some id } := by
    rw [List.getLast?_map, hlast]
    rfl
  have hlistlen : (Attribute.listWord "typeof" (expandedLabel last.objectType) mid).length =
      as.length := by rw [Attribute.length_listWord, hmidlen]
  rw [hms, hout, List.append_assoc]
  refine ⟨?_, fun i a hi => ?_, ?_⟩
  · rw [List.length_append]
    omega
  · obtain ⟨h, hh, ha⟩ := hplaces i a hi
    exact place_listWord hlast' hh ha _
  · rw [List.drop_left' hlistlen, List.take_left' hlistlen, List.map_append,
      groupingPairs_listWord hlast' rfl, List.append_assoc]

end Layout

/-- **A tag keeps its frame and its attributes their places**: what comes out of an
expansion is markers and one tag of the same kind, name and source, in which the
written pairs lie as `Layout` says. -/
theorem returnAttributes_layout (o : Options) (ids : IdSource) {token : Token} {tag : Tag Token}
    {expanded : List (Held (Attribute Token))} (ht : token.expandableTag? = some tag)
    (hx : List.Forall₂ Attribute.ExpandsTo tag.attributes expanded) :
    (returnAttributes o ids token expanded).1 =
        .ok ((emittedMarkers o ids tag expanded).map .marker ++
          [token.withTag (tag.withHeld (emittedAttributes o ids tag expanded))]) ∧
      Layout o.wrapTemplates tag.attributes expanded (emittedMarkers o ids tag expanded)
        (emittedAttributes o ids tag expanded) := by
  refine ⟨returnAttributes_emitted o ids ht (Nat.le_of_eq hx.length_eq), ?_⟩
  obtain ⟨hsettled, hadded⟩ := settlesTo_reconcile (w := o.wrapTemplates) hx
  have htells := tells_reconcile o.wrapTemplates tag.attributes expanded
  have he := emits o ids tag expanded
  generalize emittedMarkers o ids tag expanded = ms at he ⊢
  generalize emittedAttributes o ids tag expanded = out at he ⊢
  cases he with
  | unmodified hm =>
    -- nothing was added, and the tag has its own attributes
    have hnone := (htells hm).2
    rw [hadded] at hnone
    have hown : List.Forall₂ Attribute.SettlesTo tag.attributes tag.share := by
      refine List.forall₂_map_right_iff.2 (List.forall₂_same.2 fun a _ => ?_)
      exact ⟨Attribute.Keeps.self a, fun _ => rfl⟩
    have hlayout : Layout o.wrapTemplates tag.attributes expanded [] _ := layout_append hown
    rw [hnone, List.map_nil, List.append_nil] at hlayout
    exact hlayout
  | unmarked =>
    rw [settledPairs, hadded]
    exact layout_append hsettled
  | marked _ hlast =>
    rw [settledPairs, hadded]
    exact layout_group ids hlast hsettled

def deferredLink : Tag Token :=
  ⟨"a", [⟨.text maybeContent, .tokens [.text "x"], some "k", none, none⟩,
    newAttribute (.text "typeof") (.text "mw:Extra"),
    newAttribute (.text "href") (.tokens [.text "y"])], {}⟩

def deferredPairs : List (Held (Attribute Token)) :=
  [.own (newAttribute (.text maybeContent) templatedTarget),
    .shared (newAttribute (.text "typeof") (.text "mw:Extra")),
    .own (newAttribute (.text "href") templatedTarget)]

theorem layout_deferredLink :
    Layout true deferredLink.attributes deferredPairs
        (emittedMarkers {} {} deferredLink deferredPairs)
        (emittedAttributes {} {} deferredLink deferredPairs) ∧
      (emittedAttributes {} {} deferredLink deferredPairs).map (fun h => (h.isShared, h.get.key)) =
        [(false, .text maybeContent), (false, .text "typeof"), (false, .text "href"),
          (false, .text valueAffected), (false, .text "about")] := by
  have hx : List.Forall₂ Attribute.ExpandsTo deferredLink.attributes deferredPairs :=
    .cons ⟨_, _, rfl, rfl, rfl⟩ (.cons rfl (.cons ⟨_, _, rfl, rfl, rfl⟩ .nil))
  have ht : (Token.selfClosing deferredLink).expandableTag? = some deferredLink := rfl
  exact ⟨(returnAttributes_layout {} {} ht hx).2, rfl⟩

end WikiExpansion
