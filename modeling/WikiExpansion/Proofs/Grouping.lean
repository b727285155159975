import WikiExpansion.Handler.Templates
import WikiExpansion.Proofs.Edits
import WikiExpansion.Proofs.Reconcile

/-!
# One id for a tag and its markers

When the expansion of attributes is put back into a tag, the markers that stand
before the tag and the tag itself are held together by one `about` id
(`returnAttributes_grouping`).  The id is the one that the tag has, where the
first `about` of the reconciled list is plain text; otherwise it is a new one,
which takes the place of that `about` or stands at the end of the list.  No id is
used up in any other case.
-/

namespace WikiExpansion

/-! ### Looking up what was written -/

namespace Attribute

variable {τ : Type}

theorem lookup_cons_of_named {k : String} {a : Attribute τ} (h : a.isNamed k = true)
    (as : List (Attribute τ)) : lookup k (a :: as) = some a.value := by
  simp only [lookup, List.find?_cons, h, Option.map_some]

theorem lookup_cons_of_not_named {k : String} {a : Attribute τ} (h : a.isNamed k = false)
    (as : List (Attribute τ)) : lookup k (a :: as) = lookup k as := by
  simp only [lookup, List.find?_cons, h]

end Attribute

namespace Held

variable {τ : Type}

/-- What is written to the first attribute with a key is what is found under it. -/
theorem lookup_writeFirst (k : String) (v : Content τ) (x y : Option String)
    (z : Option SourceRange) (hs : List (Held (Attribute τ))) :
    Attribute.lookup k ((writeFirst (·.isNamed k) (fun a => { a with value := v })
      ⟨.text k, v, x, y, z⟩ hs).map get) = some v := by
  induction hs with
  | nil => exact Attribute.lookup_cons_of_named (Attribute.isNamed_text ..) _
  | cons h hs ih =>
    rw [writeFirst]
    by_cases hk : h.get.isNamed k = true
    · rw [if_pos hk, List.map_cons, get_write]
      exact Attribute.lookup_cons_of_named (a := { h.get with value := v }) hk _
    · rw [if_neg hk, List.map_cons, Attribute.lookup_cons_of_not_named (Bool.eq_false_iff.2 hk)]
      exact ih

theorem lookup_writeFirst_of_ne {k : String} {p : Attribute τ → Bool}
    {f : Attribute τ → Attribute τ} {new : Attribute τ} (hp : ∀ a, p a = true → a.isNamed k = false)
    (hf : ∀ a, (f a).key = a.key) (hn : new.isNamed k = false) (hs : List (Held (Attribute τ))) :
    Attribute.lookup k ((writeFirst p f new hs).map get) = Attribute.lookup k (hs.map get) := by
  induction hs with
  | nil => exact Attribute.lookup_cons_of_not_named hn _
  | cons h hs ih =>
    rw [writeFirst]
    by_cases hph : p h.get = true
    · have hk := hp _ hph
      have hfk : (f h.get).isNamed k = false := by rw [Attribute.isNamed, hf]; exact hk
      rw [if_pos hph, List.map_cons, List.map_cons, get_write,
        Attribute.lookup_cons_of_not_named hfk, Attribute.lookup_cons_of_not_named hk]
    · rw [if_neg hph, List.map_cons, List.map_cons]
      by_cases hk : h.get.isNamed k = true
      · rw [Attribute.lookup_cons_of_named hk, Attribute.lookup_cons_of_named hk]
      · have hk := Bool.eq_false_iff.2 hk
        rw [Attribute.lookup_cons_of_not_named hk, Attribute.lookup_cons_of_not_named hk, ih]

end Held

namespace AttributeEdit

variable {τ : Type}

theorem lookup_set (hs : List (Held (Attribute τ))) (k : String) (v : Content τ) :
    Attribute.lookup k ((AttributeEdit.apply hs (.set k v)).map Held.get) = some v :=
  Held.lookup_writeFirst k v none none none hs

theorem lookup_append_of_not_named {k : String} {a : Attribute τ} (ha : a.isNamed k = false)
    (as : List (Attribute τ)) : Attribute.lookup k (as ++ [a]) = Attribute.lookup k as := by
  simp only [Attribute.lookup, List.find?_append, List.find?_cons, ha, List.find?_nil,
    Option.or_none]

theorem lookup_addWord_of_ne {j k : String} (h : j ≠ k) (w : String)
    (hs : List (Held (Attribute τ))) :
    Attribute.lookup k ((AttributeEdit.apply hs (.addWord j w)).map Held.get) =
      Attribute.lookup k (hs.map Held.get) := by
  have hn (s : String) :
      (⟨.text j, .text s, none, none, none⟩ : Attribute τ).isNamed k = false :=
    Attribute.not_isNamed_of_ne h (Attribute.isNamed_text ..)
  rw [apply]
  split
  · split
    · rfl
    · refine Held.lookup_writeFirst_of_ne (fun a ha => ?_) (fun a => ?_) (hn w) hs
      · exact Attribute.not_isNamed_of_ne h (Bool.and_eq_true_iff.1 ha).1
      · rfl
  · rw [List.map_append]
    exact lookup_append_of_not_named (hn w) _

end AttributeEdit

/-! ### Where it was written -/

namespace Attribute

variable {τ : Type}

/-- `bs` has all attributes of `as` in their places, but for those with the key. -/
def KeepsBut (k : String) (as bs : List (Attribute τ)) : Prop :=
  ∀ (i : Nat) (a : Attribute τ), as[i]? = some a → a.isNamed k = false → bs[i]? = some a

/-- `bs` is `as` with the text `v` as the value of its first attribute with the
key, or in a new attribute at the end where there is none. -/
def Puts (k v : String) (as bs : List (Attribute τ)) : Prop :=
  (∃ (i : Nat) (a : Attribute τ), as[i]? = some a ∧ a.isNamed k = true ∧
      (∀ (j : Nat) (b : Attribute τ), j < i → as[j]? = some b → b.isNamed k = false) ∧
      bs = as.set i { a with value := .text v }) ∨
    (∀ a ∈ as, a.isNamed k = false) ∧ bs = as ++ [⟨.text k, .text v, none, none, none⟩]

end Attribute

namespace AttributeEdit

variable {τ : Type}

theorem puts_set (hs : List (Held (Attribute τ))) (k v : String) :
    Attribute.Puts k v (hs.map Held.get)
      ((AttributeEdit.apply hs (.set k (.text v))).map Held.get) := by
  rcases Held.writeFirst_cases (·.isNamed k) (fun a => { a with value := .text v })
    ⟨.text k, .text v, none, none, none⟩ hs with ⟨i, h, hi, hk, hj, he⟩ | ⟨hn, he⟩
  · refine Or.inl ⟨i, h.get, by rw [List.getElem?_map, hi]; rfl, hk, fun j b hlt hb => ?_, ?_⟩
    · rw [List.getElem?_map] at hb
      obtain ⟨g, hg, rfl⟩ := Option.map_eq_some_iff.1 hb
      exact hj j g hlt hg
    · rw [apply, he, List.map_set]
      rfl
  · refine Or.inr ⟨fun a ha => ?_, ?_⟩
    · obtain ⟨h, hh, rfl⟩ := List.mem_map.1 ha
      exact hn h hh
    · rw [apply, he, List.map_append]
      rfl

theorem keepsBut_addWord (hs : List (Held (Attribute τ))) (k w : String) :
    Attribute.KeepsBut k (hs.map Held.get)
      ((AttributeEdit.apply hs (.addWord k w)).map Held.get) := by
  intro i a hi ha
  have append (new : Held (Attribute τ)) : ((hs ++ [new]).map Held.get)[i]? = some a := by
    rw [List.map_append, List.getElem?_append_left (List.getElem?_eq_some_iff.1 hi).1]
    exact hi
  have he := edits hs (.addWord k w)
  generalize AttributeEdit.apply hs (.addWord k w) = ks at he ⊢
  cases he with
  | listed => exact hi
  | wordNew => exact append _
  | @word _ _ s j h hf hj =>
    -- the place that is written to has the key
    have hne : j ≠ i := by
      rintro rfl
      obtain ⟨b, hb, u, hk, -⟩ := hf.here
      obtain rfl := Option.some.inj (hi.symm.trans hb)
      rw [Attribute.isNamed_iff.2 hk] at ha
      cases ha
    rw [List.map_set, List.getElem?_set_ne hne]
    exact hi

end AttributeEdit

/-! ### The emitted tag -/

/-- The reconciled list of a tag: its settled pairs, and those that were added. -/
def reconciled (w : Bool) (tag : Tag Token) (expanded : List (Held (Attribute Token))) :
    List (Attribute Token) :=
  ((reconcile w tag.attributes expanded).1 ++
    (reconcile w tag.attributes expanded).2.added.map Held.own).map Held.get

/-- The markers and the tag share one id.  The first `about` of the reconciled
list gave it, and no id was used up; or it is new, and was put into the list. -/
structure Grouped (ids ids' : IdSource) (as : List (Attribute Token)) (ms : List (Marker Token))
    (tag : Tag Token) (id : String) : Prop where
  onMarkers : ∀ m ∈ ms, m.about = some id
  onTag : tag.textAttribute? "about" = some id
  source : (Attribute.lookupText "about" as = some id ∧ ids' = ids ∧
      Attribute.KeepsBut "typeof" as tag.attributes) ∨
    (Attribute.lookupText "about" as = none ∧ id = ids.newAboutId.1 ∧ ids' = ids.newAboutId.2 ∧
      ids'.next = ids.next + 1 ∧
      ∃ bs, Attribute.Puts "about" id as bs ∧ Attribute.KeepsBut "typeof" bs tag.attributes)

theorem grouped_group (ids : IdSource) (last : Marker Token) (ms : List (Marker Token))
    (hs : List (Held (Attribute Token))) (tag : Tag Token) :
    ∃ id, Grouped ids (group ids last ms hs).2 (hs.map Held.get) (group ids last ms hs).1.markers
      (tag.withHeld (group ids last ms hs).1.attributes) id := by
  cases hid : Attribute.lookupText "about" (hs.map Held.get) with
  | some id =>
    rw [group_of_about hid]
    refine ⟨id, ?_, ?_, Or.inl ⟨hid, rfl, AttributeEdit.keepsBut_addWord hs _ _⟩⟩
    · intro m hm
      obtain ⟨m', -, rfl⟩ := List.mem_map.1 hm
      rfl
    · rw [Tag.textAttribute?, Attribute.lookupText, Tag.withHeld,
        AttributeEdit.lookup_addWord_of_ne (by decide)]
      exact hid
  | none =>
    rw [group_of_no_about hid]
    refine ⟨ids.newAboutId.1, ?_, ?_, Or.inr ⟨hid, rfl, rfl, rfl, _,
      AttributeEdit.puts_set hs _ _, AttributeEdit.keepsBut_addWord _ _ _⟩⟩
    · intro m hm
      obtain ⟨m', -, rfl⟩ := List.mem_map.1 hm
      rfl
    · rw [Tag.textAttribute?, Attribute.lookupText, Tag.withHeld,
        AttributeEdit.lookup_addWord_of_ne (by decide), AttributeEdit.lookup_set]
      rfl

inductive Returned (o : Options) (ids : IdSource) (token : Token)
    (expanded : List (Held (Attribute Token))) : Outcome (List Token) → IdSource → Prop
  | ineligible : token.expandableTag? = none → Returned o ids token expanded (.ok [token]) ids
  | malformed {tag : Tag Token} {e : ExpansionError} : token.expandableTag? = some tag →
      expanded.length < tag.attributes.length → Returned o ids token expanded (.error e) ids
  | unmodified {tag : Tag Token} : token.expandableTag? = some tag →
      (reconcile o.wrapTemplates tag.attributes expanded).2.modified = false →
      Returned o ids token expanded (.ok [token]) ids
  | modified {tag tag' : Tag Token} : token.expandableTag? = some tag →
      tag'.attributes = reconciled o.wrapTemplates tag expanded →
      Returned o ids token expanded (.ok [token.withTag tag']) ids
  | grouped {tag tag' : Tag Token} {ms : List (Marker Token)} {id : String} {ids' : IdSource} :
      token.expandableTag? = some tag → ms ≠ [] →
      Grouped ids ids' (reconciled o.wrapTemplates tag expanded) ms tag' id →
      Returned o ids token expanded (.ok (ms.map .marker ++ [token.withTag tag'])) ids'

theorem returned_returnAttributes (o : Options) (ids : IdSource) (token : Token)
    (expanded : List (Held (Attribute Token))) :
    Returned o ids token expanded (returnAttributes o ids token expanded).1
      (returnAttributes o ids token expanded).2 := by
  have h := returns o ids token expanded
  generalize returnAttributes o ids token expanded = r at h ⊢
  cases h with
  | ineligible ht => exact .ineligible ht
  | malformed ht hl => exact .malformed ht hl
  | @unmodified tag ids' ht hl hr =>
    have hb := rebuilds o ids tag.attributes expanded
    rw [hr] at hb
    cases hb with
    | unmodified hm => exact .unmodified ht hm
  | @rebuilt tag r ids' ht hl hr =>
    have hb := rebuilds o ids tag.attributes expanded
    rw [hr] at hb
    cases hb with
    | unmarked hm hn => exact .modified ht rfl
    | @marked last hm hlast =>
      obtain ⟨id, hg⟩ := grouped_group ids last
        (reconcile o.wrapTemplates tag.attributes expanded).2.markers
        (settledPairs o.wrapTemplates tag.attributes expanded) tag
      refine .grouped ht (fun hn => ?_) hg
      -- giving the markers an id keeps their number
      obtain ⟨id', hmarkers⟩ := markers_group ids last
        (reconcile o.wrapTemplates tag.attributes expanded).2.markers
        (settledPairs o.wrapTemplates tag.attributes expanded)
      rw [List.map_eq_nil_iff.1 (hmarkers.symm.trans hn)] at hlast
      cases hlast

theorem tag?_withTag {token : Token} {tag : Tag Token} (h : token.expandableTag? = some tag)
    (tag' : Tag Token) : (token.withTag tag').tag? = some tag' := by
  cases token with
  | opening _ | selfClosing _ => rfl
  | _ => cases h

/-- Markers before one tag are told from the tag. -/
theorem markers_append_inj {ms ns : List (Marker Token)} {t u : Token}
    (h : ms.map Token.marker ++ [t] = ns.map Token.marker ++ [u]) : ms = ns ∧ t = u := by
  obtain ⟨hm, ht⟩ := List.append_inj' h rfl
  refine ⟨?_, List.head_eq_of_cons_eq ht⟩
  exact List.map_injective_iff.2 (fun a b hab => Token.marker.inj hab) hm

/-- **The markers before a tag and the tag share one id**, and only the case in
which it is a new one uses up an id. -/
theorem returnAttributes_grouping (o : Options) (ids : IdSource) (token : Token)
    (expanded : List (Held (Attribute Token))) :
    (∀ (ms : List (Marker Token)) (t : Token) (tag' : Tag Token),
      (returnAttributes o ids token expanded).1 = .ok (ms.map .marker ++ [t]) → ms ≠ [] →
      t.tag? = some tag' →
      ∃ tag id, token.expandableTag? = some tag ∧ t = token.withTag tag' ∧
        Grouped ids (returnAttributes o ids token expanded).2
          (reconciled o.wrapTemplates tag expanded) ms tag' id) ∧
    ((∀ (ms : List (Marker Token)) (t : Token), ms ≠ [] → t.tag?.isSome = true →
        (returnAttributes o ids token expanded).1 ≠ .ok (ms.map .marker ++ [t])) →
      (returnAttributes o ids token expanded).2 = ids) := by
  have single {ms : List (Marker Token)} {t u : Token} (hn : ms ≠ [])
      (h : (.ok [u] : Outcome (List Token)) = .ok (ms.map .marker ++ [t])) : False := by
    have hl := congrArg List.length (Except.ok.inj h)
    simp only [List.length_singleton, List.length_append, List.length_map] at hl
    have := List.length_pos_iff.2 hn
    omega
  have hr := returned_returnAttributes o ids token expanded
  generalize (returnAttributes o ids token expanded).1 = out at hr ⊢
  generalize (returnAttributes o ids token expanded).2 = ids' at hr ⊢
  cases hr with
  | ineligible | unmodified | modified =>
    exact ⟨fun ms t tag' h hn _ => (single hn h).elim, fun _ => rfl⟩
  | malformed => exact ⟨nofun, fun _ => rfl⟩
  | @grouped tag tag' ms id ids' ht hn hg =>
    refine ⟨fun ns t tag'' h _ htag => ?_, fun h => ?_⟩
    · obtain ⟨rfl, rfl⟩ := markers_append_inj (Except.ok.inj h)
      rw [tag?_withTag ht] at htag
      obtain rfl := Option.some.inj htag
      exact ⟨tag, id, ht, rfl, hg⟩
    · exact absurd rfl (h ms _ hn (by rw [tag?_withTag ht]; rfl))

def templatedLink : Token :=
  .selfClosing ⟨"a", [newAttribute (.text "href") (.tokens [.text "x"])], {}⟩

def templatedTarget : Content Token := .tokens (TemplateTable.wrap "#mwt1" "page")

theorem grouping_templatedLink :
    ∃ m tag' id, (returnAttributes {} {} templatedLink
        [.own (newAttribute (.text "href") templatedTarget)]).1 =
        .ok ([m].map .marker ++ [.selfClosing tag']) ∧
      m.about = some id ∧ tag'.textAttribute? "about" = some id := by
  have hout : (returnAttributes {} {} templatedLink
      [.own (newAttribute (.text "href") templatedTarget)]).1 =
      .ok ([⟨.value, "mw:Object/Template", .text "href", .text "page", templatedTarget,
          some "#mwt1"⟩].map .marker ++
        [.selfClosing ⟨"a", [newAttribute (.text "href") (.text "page"),
          newAttribute (.text "about") (.text "#mwt1"),
          newAttribute (.text "typeof") (.text "mw:ExpandedAttrs/Template")], {}⟩]) := rfl
  obtain ⟨tag, id, -, -, hg⟩ := (returnAttributes_grouping {} {} templatedLink
    [.own (newAttribute (.text "href") templatedTarget)]).1 _ _ _ hout (List.cons_ne_nil _ _) rfl
  exact ⟨_, _, id, hout, hg.onMarkers _ List.mem_cons_self, hg.onTag⟩

end WikiExpansion
