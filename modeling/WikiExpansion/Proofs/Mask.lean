import WikiExpansion.Handler.Templates
import WikiExpansion.Reconcile

/-!
# Tokens without their ids

`mask` puts one fixed text in the place of every `about` id: that of a marker,
and every plain text value of an attribute with the key `about`, at every depth.
All that the expansion reads of a token, its kind, its names, its plain text and
the types of its wrappers, can be read off the masked token just as well.

`Attribute.maskSides` masks only what is nested in the sides of a pair.  The two
agree where a side holds tokens, and there the masking of a pair does not depend
on its key.
-/

namespace WikiExpansion

/-- What stands in the place of an id. -/
def maskedId : String := "#"

mutual

def Token.mask : Token → Token
  | .opening t => .opening t.mask
  | .selfClosing t => .selfClosing t.mask
  | .closing t => .closing t.mask
  | .marker m => .marker m.mask
  | .text s => .text s
  | .newline => .newline
  | .comment s => .comment s
termination_by structural t => t

def Tag.mask : Tag Token → Tag Token
  | ⟨n, as, s⟩ => ⟨n, Attribute.maskList as, s⟩
termination_by structural t => t

def Attribute.maskList : List (Attribute Token) → List (Attribute Token)
  | [] => []
  | a :: as => a.mask :: Attribute.maskList as
termination_by structural as => as

/-- The pair without ids: the text behind the key `about` is one. -/
def Attribute.mask : Attribute Token → Attribute Token
  | ⟨k, v, x, y, z⟩ => ⟨k.mask false, v.mask (k.text? == some "about"), x, y, z⟩
termination_by structural a => a

def Marker.mask : Marker Token → Marker Token
  | ⟨p, t, k, v, x, i⟩ =>
    ⟨p, t, k.mask false, v.mask false, x.mask false, i.map fun _ => maskedId⟩
termination_by structural m => m

def Content.mask (id : Bool) : Content Token → Content Token
  | .text s => .text (if id then maskedId else s)
  | .tokens ts => .tokens (Token.maskList ts)
termination_by structural c => c

def Token.maskList : List Token → List Token
  | [] => []
  | t :: ts => t.mask :: Token.maskList ts
termination_by structural ts => ts

end

theorem Token.maskList_eq_map (ts : List Token) : Token.maskList ts = ts.map Token.mask := by
  induction ts with
  | nil => rfl
  | cons t ts ih => rw [Token.maskList, ih, List.map_cons]

theorem Attribute.maskList_eq_map (as : List (Attribute Token)) :
    Attribute.maskList as = as.map Attribute.mask := by
  induction as with
  | nil => rfl
  | cons a as ih => rw [Attribute.maskList, ih, List.map_cons]

/-! ### What can be read off a masked token -/

namespace Content

@[simp] theorem mask_text (id : Bool) (s : String) :
    (text s : Content Token).mask id = text (if id then maskedId else s) := rfl

@[simp] theorem mask_tokens (id : Bool) (ts : List Token) :
    (tokens ts).mask id = tokens (ts.map Token.mask) := by
  rw [mask, Token.maskList_eq_map]

@[simp] theorem text?_mask (c : Content Token) : (c.mask false).text? = c.text? := by
  cases c with
  | text s => rfl
  | tokens ts => rw [mask_tokens, text?_tokens, text?_tokens]

@[simp] theorem isTokens_mask (id : Bool) (c : Content Token) :
    (c.mask id).isTokens = c.isTokens := by
  cases c with
  | text s => rfl
  | tokens ts => rw [mask_tokens, isTokens, isTokens]

@[simp] theorem isEmptyText_mask (c : Content Token) :
    (c.mask false).isEmptyText = c.isEmptyText := by
  cases c with
  | text s => rfl
  | tokens ts => rw [mask_tokens, isEmptyText, isEmptyText]

/-- What nested ids leave open is settled by the contents alone. -/
theorem mask_congr {c d : Content Token} (h : c.mask false = d.mask false) (id : Bool) :
    c.mask id = d.mask id := by
  cases c with
  | text s =>
    cases d with
    | text t =>
      simp only [mask_text, Bool.false_eq_true, if_false, text.injEq] at h
      rw [h]
    | tokens ts =>
      rw [mask_text, mask_tokens] at h
      cases h
  | tokens ts =>
    cases d with
    | text t =>
      rw [mask_text, mask_tokens] at h
      cases h
    | tokens us =>
      rw [mask_tokens, mask_tokens] at h ⊢
      exact h

theorem mask_eq_of_isTokens {c : Content Token} (h : c.isTokens = true) (id : Bool) :
    c.mask id = c.mask false := by
  cases c with
  | text s => cases h
  | tokens ts => rw [mask_tokens, mask_tokens]

end Content

namespace Tag

@[simp] theorem name_mask (t : Tag Token) : t.mask.name = t.name := by
  cases t with
  | mk n as s => rw [mask]

@[simp] theorem attributes_mask (t : Tag Token) :
    t.mask.attributes = t.attributes.map Attribute.mask := by
  cases t with
  | mk n as s => rw [mask, Attribute.maskList_eq_map]

end Tag

namespace Attribute

@[simp] theorem key_mask (a : Attribute Token) : a.mask.key = a.key.mask false := by
  cases a with
  | mk k v x y z => rw [mask]

@[simp] theorem value_mask (a : Attribute Token) :
    a.mask.value = a.value.mask (a.isNamed "about") := by
  cases a with
  | mk k v x y z => rw [mask, isNamed]

@[simp] theorem isNamed_mask (a : Attribute Token) (k : String) :
    a.mask.isNamed k = a.isNamed k := by
  rw [isNamed, isNamed, key_mask, Content.text?_mask]

@[simp] theorem needsExpansion_mask (a : Attribute Token) :
    a.mask.needsExpansion = a.needsExpansion := by
  rw [needsExpansion, needsExpansion, key_mask, value_mask, Content.isTokens_mask,
    Content.isTokens_mask]

theorem isTextNamed_mask (a : Attribute Token) (k : String) :
    a.mask.isTextNamed k = a.isTextNamed k := by
  rw [isTextNamed, isTextNamed, isNamed_mask, value_mask]
  cases a.value with
  | text s => rfl
  | tokens ts => rw [Content.mask_tokens, Content.text?_tokens, Content.text?_tokens]

theorem mask_eq_iff {a b : Attribute Token} :
    a.mask = b.mask ↔ a.key.mask false = b.key.mask false ∧
      a.value.mask (a.isNamed "about") = b.value.mask (b.isNamed "about") ∧
      a.keySource = b.keySource ∧ a.valueSource = b.valueSource ∧ a.offsets = b.offsets := by
  cases a with
  | mk k v x y z =>
    cases b with
    | mk k' v' x' y' z' => simp only [mask, mk.injEq, isNamed]

/-- The pair without the ids that are nested in its sides. -/
def maskSides (a : Attribute Token) : Attribute Token :=
  { a with key := a.key.mask false, value := a.value.mask false }

theorem maskSides_eq_iff {a b : Attribute Token} :
    a.maskSides = b.maskSides ↔ a.key.mask false = b.key.mask false ∧
      a.value.mask false = b.value.mask false ∧
      a.keySource = b.keySource ∧ a.valueSource = b.valueSource ∧ a.offsets = b.offsets := by
  cases a with
  | mk k v x y z =>
    cases b with
    | mk k' v' x' y' z' => simp only [maskSides, mk.injEq]

theorem isNamed_eq_of_mask {a b : Attribute Token} (h : a.key.mask false = b.key.mask false)
    (k : String) : a.isNamed k = b.isNamed k := by
  rw [isNamed, isNamed, ← Content.text?_mask, h, Content.text?_mask]

/-- Pairs that agree up to nested ids agree up to ids. -/
theorem mask_eq_of_maskSides {a b : Attribute Token} (h : a.maskSides = b.maskSides) :
    a.mask = b.mask := by
  obtain ⟨hk, hv, hs⟩ := maskSides_eq_iff.1 h
  refine mask_eq_iff.2 ⟨hk, ?_, hs⟩
  rw [isNamed_eq_of_mask hk]
  exact Content.mask_congr hv _

/-- A pair with a side of tokens has only nested ids. -/
theorem maskSides_eq_mask {a : Attribute Token} (h : a.needsExpansion = true) :
    a.maskSides = a.mask := by
  have hv : a.value.mask (a.isNamed "about") = a.value.mask false := by
    rcases Bool.or_eq_true_iff.1 h with hk | hv
    · have hn : a.isNamed "about" = false := by
        cases hc : a.key with
        | text s => rw [hc] at hk; cases hk
        | tokens ts => rw [isNamed, hc]; rfl
      rw [hn]
    · exact Content.mask_eq_of_isTokens hv _
  cases a with
  | mk k v x y z =>
    simp only [isNamed] at hv
    simp only [mask, maskSides, hv]

theorem lookup_mask (k : String) (as : List (Attribute Token)) :
    lookup k (as.map mask) = (lookup k as).map (Content.mask (k == "about")) := by
  induction as with
  | nil => rfl
  | cons a as ih =>
    rw [List.map_cons, lookup, lookup, List.find?_cons, List.find?_cons, isNamed_mask]
    cases h : a.isNamed k with
    | true =>
      have hk : a.isNamed "about" = (k == "about") := by
        have : a.key.text? = some k := eq_of_beq h
        rw [isNamed, this]
        rfl
      show some a.mask.value = some (a.value.mask (k == "about"))
      rw [value_mask, hk]
    | false => exact ih

/-- Texts other than ids can be read off the masked list. -/
theorem lookupText_mask {k : String} (hk : k ≠ "about") (as : List (Attribute Token)) :
    lookupText k (as.map mask) = lookupText k as := by
  rw [lookupText, lookupText, lookup_mask, beq_eq_false_iff_ne.2 hk]
  cases lookup k as with
  | none => rfl
  | some c => exact Content.text?_mask c

/-- Whether there is an id can be read off the masked list. -/
theorem lookupText_about_mask (as : List (Attribute Token)) :
    (lookupText "about" (as.map mask)).isSome = (lookupText "about" as).isSome := by
  rw [lookupText, lookupText, lookup_mask]
  cases lookup "about" as with
  | none => rfl
  | some c =>
    cases c with
    | text s => rfl
    | tokens ts =>
      simp only [Option.map_some, Option.bind_some, Content.mask_tokens, Content.text?_tokens]

end Attribute

namespace Token

@[simp] theorem kind_mask (t : Token) : t.mask.kind = t.kind := by
  cases t <;> simp only [mask, kind]

@[simp] theorem tag?_mask (t : Token) : t.mask.tag? = t.tag?.map Tag.mask := by
  cases t <;> simp only [mask, tag?, Option.map_some, Option.map_none]

@[simp] theorem expandableTag?_mask (t : Token) :
    t.mask.expandableTag? = t.expandableTag?.map Tag.mask := by
  cases t <;> simp only [mask, expandableTag?, Option.map_some, Option.map_none]

theorem mask_withTag (g : Tag Token) (t : Token) :
    (t.withTag g).mask = t.mask.withTag g.mask := by
  cases t <;> simp only [mask, withTag]

@[simp] theorem isTagNamed_mask (n : String) (t : Token) :
    t.mask.isTagNamed n = t.isTagNamed n := by
  rw [isTagNamed, isTagNamed, tag?_mask]
  cases t.tag? with
  | none => rfl
  | some g =>
    show (g.mask.name == n) = (g.name == n)
    rw [Tag.name_mask]

@[simp] theorem isMeta_mask (t : Token) : t.mask.isMeta = t.isMeta := by
  cases t with
  | marker m => simp only [mask, isMeta]
  | opening g | selfClosing g | closing g => exact isTagNamed_mask "meta" _
  | _ => rfl

@[simp] theorem plainText_mask (t : Token) : t.mask.plainText = t.plainText := by
  cases t <;> simp only [mask, plainText]

@[simp] theorem endsText_mask (t : Token) : t.mask.endsText = t.endsText := by
  cases t <;> simp only [mask, endsText]

@[simp] theorem isText_mask (t : Token) : t.mask.isText = t.isText := by
  cases t <;> simp only [mask, isText]

theorem textAttribute?_mask {k : String} (hk : k ≠ "about") (g : Tag Token) :
    g.mask.textAttribute? k = g.textAttribute? k := by
  rw [Tag.textAttribute?, Tag.textAttribute?, Tag.attributes_mask, Attribute.lookupText_mask hk]

@[simp] theorem wrapperType?_mask (t : Token) : t.mask.wrapperType? = t.wrapperType? := by
  rw [wrapperType?, wrapperType?, tag?_mask]
  cases t.tag? with
  | none => rfl
  | some g =>
    simp only [Option.map_some, Tag.name_mask, textAttribute?_mask (by decide : "typeof" ≠ "about")]

end Token

@[simp] theorem TemplateTable.target?_mask (t : Token) :
    TemplateTable.target? t.mask = TemplateTable.target? t := by
  rw [TemplateTable.target?, TemplateTable.target?, Token.tag?_mask]
  cases t.tag? with
  | none => rfl
  | some g =>
    simp only [Option.map_some, Tag.name_mask,
      Token.textAttribute?_mask (by decide : "target" ≠ "about")]

/-- Whatever the ids of its wrapper tags, a body is wrapped in the same way. -/
theorem TemplateTable.map_mask_wrap (i j body : String) :
    (TemplateTable.wrap i body).map Token.mask = (TemplateTable.wrap j body).map Token.mask := by
  rfl

/-! ### Streams -/

@[simp] theorem plainText_map_mask (ts : List Token) :
    plainText (ts.map Token.mask) = plainText ts := by
  induction ts with
  | nil => rfl
  | cons t ts ih => rw [List.map_cons, plainText, plainText, Token.plainText_mask, ih]

@[simp] theorem Content.plainText_mask (c : Content Token) :
    (c.mask false).plainText = c.plainText := by
  cases c with
  | text s => rfl
  | tokens ts => rw [mask_tokens, Content.plainText, Content.plainText, plainText_map_mask]

theorem leadingText_map_mask (ts : List Token) :
    leadingText (ts.map Token.mask) =
      ((leadingText ts).1, (leadingText ts).2.map Token.mask) := by
  induction ts with
  | nil => rfl
  | cons t ts ih =>
    rw [List.map_cons, leadingText, leadingText, Token.endsText_mask, ih, Token.plainText_mask]
    split
    · rfl
    · rfl

theorem collapse_map_mask (ts : List Token) :
    collapse (ts.map Token.mask) = (collapse ts).mask false := by
  have ha : (ts.map Token.mask).all Token.isText = ts.all Token.isText := by
    rw [List.all_map]
    exact congrArg ts.all (funext fun t => Token.isText_mask t)
  rw [collapse, collapse, ha, plainText_map_mask]
  split
  · rfl
  · rw [Content.mask_tokens]

theorem strip_mask (w : Bool) (c : Content Token) :
    strip w (c.mask false) = ⟨(strip w c).value.mask false, (strip w c).objectType⟩ := by
  cases c with
  | text s => rfl
  | tokens ts =>
    have hf : (ts.map Token.mask).filter (!·.isMeta) = (ts.filter (!·.isMeta)).map Token.mask := by
      rw [List.filter_map]
      refine congrArg (List.map Token.mask) (List.filter_congr fun t _ => ?_)
      simp
    have hw : (ts.map Token.mask).findSome? Token.wrapperType? =
        ts.findSome? Token.wrapperType? := by
      rw [List.findSome?_map]
      exact congrArg (ts.findSome? ·) (funext fun t => Token.wrapperType?_mask t)
    rw [Content.mask_tokens, strip, strip, hf, hw, collapse_map_mask]

theorem KeyValue.infer?_mask (c : Content Token) :
    KeyValue.infer? (c.mask false) = (KeyValue.infer? c).map fun kv => (kv.1, kv.2.mask false) := by
  cases c with
  | text s =>
    show (KeyValue.split? s).map _ = ((KeyValue.split? s).map _).map _
    rw [Option.map_map]
    rfl
  | tokens ts =>
    rw [Content.mask_tokens, KeyValue.infer?, KeyValue.infer?, leadingText_map_mask]
    rcases leadingText ts with ⟨s, rest⟩
    cases rest with
    | nil =>
      show (KeyValue.split? s).map _ = ((KeyValue.split? s).map _).map _
      rw [Option.map_map]
      rfl
    | cons t rest =>
      show (KeyValue.split? s).map _ = ((KeyValue.split? s).map _).map _
      rw [Option.map_map]
      refine congrArg (Option.map · _) (funext fun kv => ?_)
      simp only [Function.comp, Content.mask_tokens, List.map_cons]
      rfl

end WikiExpansion
