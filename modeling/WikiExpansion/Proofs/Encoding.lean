import Mathlib.Data.List.Forall2
import WikiExpansion.Proofs.Written
import WikiExpansion.Token.Json

/-!
# Streams are read back from JSON

The JSON form of a stream says all that the stream says: reading it gives the
stream back (`Token.ofJson?_of_same` and the lemmas beside it), also where the
fields of its objects stand in another order.  With the text of a JSON value,
which is read back as the value, two streams have the same form or the same text
only if they are the same stream (`stream_encoding`).
-/

namespace WikiExpansion

namespace Json

/-- Equality of JSON values: the order of the fields of an object does not count. -/
inductive Same : Json → Json → Prop
  | null : Same null null
  | bool (b : Bool) : Same (bool b) (bool b)
  | num (n : Numeral) : Same (num n) (num n)
  | str (s : String) : Same (str s) (str s)
  | arr {js ks : List Json} : List.Forall₂ Same js ks → Same (arr js) (arr ks)
  | obj {fs gs : List (String × Json)} :
      (∀ k, (lookup k fs).isSome = (lookup k gs).isSome) →
      (∀ k v w, lookup k fs = some v → lookup k gs = some w → Same v w) →
      Same (obj fs) (obj gs)

theorem Same.refl : ∀ j : Json, Same j j
  | .null => .null
  | .bool b => .bool b
  | .num n => .num n
  | .str s => .str s
  | .arr js => .arr (List.forall₂_same.2 fun j hj =>
    have := List.sizeOf_lt_of_mem hj
    Same.refl j)
  | .obj fs => .obj (fun _ => rfl) fun k v w hv hw => by
    obtain rfl := Option.some.inj (hv.symm.trans hw)
    have := Json.sizeOf_lookup hv
    exact Same.refl v
termination_by j => sizeOf j

variable {fs : List (String × Json)} {j : Json} {k : String}

/-- A field that is there is there in both. -/
theorem Same.field? (h : Same (Json.obj fs) j) {v : Json} (hv : lookup k fs = some v)
    (hn : v.isNull = false) : ∃ w, j.field? k = some w ∧ Same v w := by
  cases h with
  | @obj _ gs hsome hsame =>
    have hk := hsome k
    rw [hv, Option.isSome_some] at hk
    obtain ⟨w, hw⟩ := Option.isSome_iff_exists.1 hk.symm
    have hvw := hsame k v w hv hw
    refine ⟨w, ?_, hvw⟩
    have hwn : w.isNull = false := by
      cases hvw with
      | null => cases hn
      | _ => rfl
    simp [Json.field?, hw, hwn]

/-- A field that is left out is left out in both. -/
theorem Same.field?_eq_none (h : Same (Json.obj fs) j) (hv : lookup k fs = none) :
    j.field? k = none := by
  cases h with
  | @obj _ gs hsome hsame =>
    have hk := hsome k
    rw [hv, Option.isSome_none] at hk
    have hnone : lookup k gs = none := by simpa using hk
    simp [Json.field?, hnone]

theorem Same.eq_str {s : String} (h : Same (Json.str s) j) : j = Json.str s := by
  cases h
  rfl

theorem Same.eq_num {n : Numeral} (h : Same (Json.num n) j) : j = Json.num n := by
  cases h
  rfl

theorem Same.text (h : Same (Json.obj fs) j) {s : String} (hv : lookup k fs = some (Json.str s)) :
    (j.field? k).bind text? = some s := by
  obtain ⟨w, hw, hs⟩ := h.field? hv rfl
  rw [hw, hs.eq_str]
  rfl

theorem Same.optional? {α : Type} {f : α → Json} {g : Json → Option α} {a : Option α}
    (h : Same (Json.obj fs) j) (hv : lookup k fs = a.map f) (hn : ∀ a, (f a).isNull = false)
    (hg : ∀ a w, Same (f a) w → g w = some a) : j.optional? k g = some a := by
  cases a with
  | none =>
    rw [Json.optional?, h.field?_eq_none hv]
  | some a =>
    obtain ⟨w, hw, hs⟩ := h.field? hv (hn a)
    rw [Json.optional?, hw]
    simp only [hg a w hs, Option.map_some]

end Json

open Json

/-! ### Looking up what was written -/

theorem lookup_append (k : String) (fs gs : List (String × Json)) :
    lookup k (fs ++ gs) = (lookup k fs).or (lookup k gs) := by
  induction fs with
  | nil => rfl
  | cons f fs ih =>
    obtain ⟨k', v⟩ := f
    rw [List.cons_append, lookup, lookup]
    by_cases h : k' = k
    · rw [if_pos h, if_pos h]
      rfl
    · rw [if_neg h, if_neg h, ih]

theorem lookup_optionalField {α : Type} (k j : String) (f : α → Json) (a : Option α) :
    lookup j (optionalField k f a) = if k = j then a.map f else none := by
  cases a with
  | none => simp [optionalField, lookup]
  | some a => simp [optionalField, lookup]

theorem Json.text?_of_same {s : String} {w : Json} (h : Same (.str s) w) : w.text? = some s := by
  rw [h.eq_str]
  rfl

theorem SourceRange.ofJson?_of_same {r : SourceRange} {j : Json} (h : Same r.toJson j) :
    SourceRange.ofJson? j = some r := by
  obtain ⟨v, hv, hs⟩ := h.field? (k := "start") rfl rfl
  obtain ⟨w, hw, he⟩ := h.field? (k := "end") rfl rfl
  rw [SourceRange.ofJson?, hv, hw, hs.eq_num, he.eq_num]
  rfl

theorem TagSource.ofJson?_of_same {d : TagSource} {j : Json} (h : Same d.toJson j) :
    TagSource.ofJson? j = some d := by
  have hrange : j.optional? "tsr" SourceRange.ofJson? = some d.range :=
    h.optional? (f := SourceRange.toJson) (by simp [lookup_append, lookup_optionalField])
      (fun _ => rfl) fun _ _ => SourceRange.ofJson?_of_same
  have htext : j.optional? "src" Json.text? = some d.text :=
    h.optional? (f := Json.str) (by simp [lookup_append, lookup_optionalField])
      (fun _ => rfl) fun _ _ => text?_of_same
  have hstyle : j.optional? "stx" Json.text? = some d.style :=
    h.optional? (f := Json.str) (by simp [lookup_append, lookup_optionalField])
      (fun _ => rfl) fun _ _ => text?_of_same
  rw [TagSource.ofJson?, hrange, htext, hstyle]
  rfl

/-! ### Tokens -/

theorem Token.ofJson?_of_fields {type : String} {j d : Json}
    (htype : (j.field? "type").bind Json.text? = some type) (hdata : j.field? "data" = some d) :
    Token.ofJson? j =
      if type = "newline" then some .newline
      else if type = "tag_open" then (Tag.ofJson? d).map .opening
      else if type = "self_closing" then (Tag.ofJson? d).map .selfClosing
      else if type = "tag_close" then (Tag.ofJson? d).map .closing
      else if type = "meta" then (Marker.ofJson? d).map .marker
      else if type = "text" then d.text?.map .text
      else if type = "comment" then d.text?.map .comment
      else none := by
  rw [Token.ofJson?, htype]
  simp only
  split
  · rfl
  · split
    · rw [hdata] at *
      cases ‹some d = none›
    · rename_i hd
      rw [hdata] at hd
      obtain rfl := Option.some.inj hd
      rfl

theorem Token.ofJson?_of_data {type : String} {d j : Json} (hn : d.isNull = false)
    (h : Same (.obj [("type", .str type), ("data", d)]) j) :
    ∃ w, Same d w ∧ (j.field? "type").bind Json.text? = some type ∧ j.field? "data" = some w := by
  obtain ⟨w, hw, hs⟩ := h.field? (k := "data") (v := d) rfl hn
  exact ⟨w, hs, h.text rfl, hw⟩

theorem Tag.ofJson?_of_fields {name : String} {source : Option TagSource} {j : Json}
    {items : List Json} (hname : (j.field? "name").bind Json.text? = some name)
    (hsource : j.optional? "data" TagSource.ofJson? = some source)
    (hitems : j.field? "attribs" = some (.arr items)) :
    Tag.ofJson? j =
      (Attribute.ofJsonList? items).map fun as => ⟨name, as, source.getD {}⟩ := by
  rw [Tag.ofJson?, hname, hsource]
  simp only
  split
  · rw [hitems] at *
    cases ‹some (Json.arr items) = none›
  · rename_i he
    rw [hitems] at he
    obtain rfl := Json.arr.inj (Option.some.inj he)
    rfl
  · rename_i hne he
    rw [hitems] at he
    exact absurd (Option.some.inj he).symm (hne items)

theorem Attribute.ofJson?_of_fields {key value : Content Token} {j k v : Json}
    {keySource valueSource : Option String} {offsets : Option SourceRange}
    (hk : j.field? "k" = some k) (hv : j.field? "v" = some v)
    (hkey : Content.ofJson? k = some key) (hvalue : Content.ofJson? v = some value)
    (hks : j.optional? "key_src" Json.text? = some keySource)
    (hvs : j.optional? "value_src" Json.text? = some valueSource)
    (ho : j.optional? "src_offsets" SourceRange.ofJson? = some offsets) :
    Attribute.ofJson? j = some ⟨key, value, keySource, valueSource, offsets⟩ := by
  rw [Attribute.ofJson?]
  split
  · rename_i hk' hv'
    obtain rfl := Option.some.inj (hk.symm.trans hk')
    obtain rfl := Option.some.inj (hv.symm.trans hv')
    rw [hkey, hvalue, hks, hvs, ho]
  · rename_i hne
    exact absurd hv (hne k v hk)

theorem Marker.ofJson?_of_fields {part : Part} {type : String} {key value expansion : Content Token}
    {about : Option String} {j k v x : Json}
    (hpart : (j.field? "content_type").bind Json.text? = some part.label)
    (htype : (j.field? "object_type").bind Json.text? = some type)
    (hk : j.field? "key" = some k) (hv : j.field? "value" = some v)
    (hx : j.field? "expansion" = some x) (hkey : Content.ofJson? k = some key)
    (hvalue : Content.ofJson? v = some value) (hexpansion : Content.ofJson? x = some expansion)
    (habout : j.optional? "about" Json.text? = some about) :
    Marker.ofJson? j = some ⟨part, type, key, value, expansion, about⟩ := by
  rw [Marker.ofJson?]
  split
  · rename_i hk' hv' hx'
    obtain rfl := Option.some.inj (hk.symm.trans hk')
    obtain rfl := Option.some.inj (hv.symm.trans hv')
    obtain rfl := Option.some.inj (hx.symm.trans hx')
    rw [hpart, htype, habout, Option.bind_some, Part.ofLabel?_label]
    simp only [hkey, hvalue, hexpansion]
  · rename_i hne
    exact absurd hx (hne k v x hk hv)

theorem Content.isNull_toJson (c : Content Token) : c.toJson.isNull = false := by
  cases c <;> rfl

theorem Tag.isNull_toJson (t : Tag Token) : t.toJson.isNull = false := by
  cases t
  rfl

theorem Marker.isNull_toJson (m : Marker Token) : m.toJson.isNull = false := by
  cases m
  rfl

mutual

/-- **A token is read back from its form**: by the six ways in which tokens nest. -/
theorem Token.ofJson?_of_same : ∀ {t : Token} {j : Json}, Same t.toJson j →
    Token.ofJson? j = some t
  | .opening t, j, h => by
    obtain ⟨d, hs, htype, hd⟩ := Token.ofJson?_of_data t.isNull_toJson h
    rw [Token.ofJson?_of_fields htype hd, Tag.ofJson?_of_same hs]
    rfl
  | .selfClosing t, j, h => by
    obtain ⟨d, hs, htype, hd⟩ := Token.ofJson?_of_data t.isNull_toJson h
    rw [Token.ofJson?_of_fields htype hd, Tag.ofJson?_of_same hs]
    rfl
  | .closing t, j, h => by
    obtain ⟨d, hs, htype, hd⟩ := Token.ofJson?_of_data t.isNull_toJson h
    rw [Token.ofJson?_of_fields htype hd, Tag.ofJson?_of_same hs]
    rfl
  | .marker m, j, h => by
    obtain ⟨d, hs, htype, hd⟩ := Token.ofJson?_of_data m.isNull_toJson h
    rw [Token.ofJson?_of_fields htype hd, Marker.ofJson?_of_same hs]
    rfl
  | .text s, j, h => by
    obtain ⟨d, hs, htype, hd⟩ := Token.ofJson?_of_data (d := .str s) rfl h
    rw [Token.ofJson?_of_fields htype hd, text?_of_same hs]
    rfl
  | .newline, j, h => by
    rw [Token.toJson] at h
    rw [Token.ofJson?, h.text rfl]
    rfl
  | .comment s, j, h => by
    obtain ⟨d, hs, htype, hd⟩ := Token.ofJson?_of_data (d := .str s) rfl h
    rw [Token.ofJson?_of_fields htype hd, text?_of_same hs]
    rfl

theorem Tag.ofJson?_of_same : ∀ {t : Tag Token} {j : Json}, Same t.toJson j →
    Tag.ofJson? j = some t
  | ⟨name, attributes, source⟩, j, h => by
    rw [Tag.toJson] at h
    obtain ⟨w, hw, hs⟩ := h.field? (k := "attribs") rfl rfl
    have hsource : j.optional? "data" TagSource.ofJson? =
        some (if source = {} then none else some source) := by
      refine h.optional? (f := TagSource.toJson) ?_ (fun _ => rfl)
        fun _ _ => TagSource.ofJson?_of_same
      by_cases he : source = {}
      · simp [he, lookup]
      · simp [he, lookup]
    cases hs with
    | arr hs =>
      rw [Tag.ofJson?_of_fields (h.text rfl) hsource hw, Attribute.ofJsonList?_of_same hs]
      by_cases he : source = {}
      · simp [he]
      · simp [he]

theorem Attribute.ofJsonList?_of_same : ∀ {as : List (Attribute Token)} {js : List Json},
    List.Forall₂ Same (Attribute.toJsonList as) js → Attribute.ofJsonList? js = some as
  | [], js, h => by
    rw [Attribute.toJsonList, List.forall₂_nil_left_iff] at h
    rw [h, Attribute.ofJsonList?]
  | a :: as, js, h => by
    rw [Attribute.toJsonList, List.forall₂_cons_left_iff] at h
    obtain ⟨j, ks, hj, hks, rfl⟩ := h
    rw [Attribute.ofJsonList?, Attribute.ofJson?_of_same hj, Attribute.ofJsonList?_of_same hks]
    rfl

theorem Attribute.ofJson?_of_same : ∀ {a : Attribute Token} {j : Json}, Same a.toJson j →
    Attribute.ofJson? j = some a
  | ⟨key, value, keySource, valueSource, offsets⟩, j, h => by
    rw [Attribute.toJson] at h
    obtain ⟨k, hk, hsk⟩ := h.field? (k := "k") rfl key.isNull_toJson
    obtain ⟨v, hv, hsv⟩ := h.field? (k := "v") rfl value.isNull_toJson
    refine Attribute.ofJson?_of_fields hk hv (Content.ofJson?_of_same hsk)
      (Content.ofJson?_of_same hsv) ?_ ?_ ?_
    · exact h.optional? (f := Json.str) (by simp [lookup_append, lookup_optionalField, lookup])
        (fun _ => rfl) fun _ _ => text?_of_same
    · exact h.optional? (f := Json.str) (by simp [lookup_append, lookup_optionalField, lookup])
        (fun _ => rfl) fun _ _ => text?_of_same
    · exact h.optional? (f := SourceRange.toJson)
        (by simp [lookup_append, lookup_optionalField, lookup]) (fun _ => rfl)
        fun _ _ => SourceRange.ofJson?_of_same

theorem Marker.ofJson?_of_same : ∀ {m : Marker Token} {j : Json}, Same m.toJson j →
    Marker.ofJson? j = some m
  | ⟨part, objectType, key, value, expansion, about⟩, j, h => by
    rw [Marker.toJson] at h
    obtain ⟨k, hk, hsk⟩ := h.field? (k := "key") rfl key.isNull_toJson
    obtain ⟨v, hv, hsv⟩ := h.field? (k := "value") rfl value.isNull_toJson
    obtain ⟨x, hx, hsx⟩ := h.field? (k := "expansion") rfl expansion.isNull_toJson
    refine Marker.ofJson?_of_fields (h.text rfl) (h.text rfl) hk hv hx
      (Content.ofJson?_of_same hsk) (Content.ofJson?_of_same hsv) (Content.ofJson?_of_same hsx) ?_
    exact h.optional? (f := Json.str) (by simp [lookup_optionalField, lookup]) (fun _ => rfl)
      fun _ _ => text?_of_same

theorem Content.ofJson?_of_same : ∀ {c : Content Token} {j : Json}, Same c.toJson j →
    Content.ofJson? j = some c
  | .text s, j, h => by
    rw [Content.toJson] at h
    rw [h.eq_str, Content.ofJson?]
  | .tokens ts, j, h => by
    rw [Content.toJson] at h
    cases h with
    | arr hs =>
      rw [Content.ofJson?, Token.ofJsonList?_of_same hs]
      rfl

theorem Token.ofJsonList?_of_same : ∀ {ts : List Token} {js : List Json},
    List.Forall₂ Same (Token.toJsonList ts) js → Token.ofJsonList? js = some ts
  | [], js, h => by
    rw [Token.toJsonList, List.forall₂_nil_left_iff] at h
    rw [h, Token.ofJsonList?]
  | t :: ts, js, h => by
    rw [Token.toJsonList, List.forall₂_cons_left_iff] at h
    obtain ⟨j, ks, hj, hks, rfl⟩ := h
    rw [Token.ofJsonList?, Token.ofJson?_of_same hj, Token.ofJsonList?_of_same hks]
    rfl

end

/-! ### Streams -/

/-- **A stream is read back from its form**, whatever the order of the fields. -/
theorem streamOfJson?_of_same {ts : List Token} {j : Json} (h : Same (streamToJson ts) j) :
    streamOfJson? j = some ts := by
  rw [streamToJson] at h
  cases h with
  | arr hs => exact Token.ofJsonList?_of_same hs

def streamOfText? (s : String) : Option (List Token) := (Json.parse? s).bind streamOfJson?

/-- **Two streams have the same form only if they are the same stream**, and so have
two texts; each is read back from its form and from its text. -/
theorem stream_encoding (a b : List Token) :
    (Same (streamToJson a) (streamToJson b) ↔ a = b) ∧
      (streamToText a = streamToText b ↔ a = b) ∧
      streamOfJson? (streamToJson a) = some a ∧ streamOfText? (streamToText a) = some a := by
  have htext (ts : List Token) : streamOfText? (streamToText ts) = some ts := by
    rw [streamOfText?, streamToText, Json.parse?_toText]
    exact streamOfJson?_of_same (Same.refl _)
  refine ⟨⟨?_, ?_⟩, ⟨?_, ?_⟩, streamOfJson?_of_same (Same.refl _), htext a⟩
  · intro h
    have hb := streamOfJson?_of_same (Same.refl (streamToJson b))
    rw [streamOfJson?_of_same h] at hb
    exact Option.some.inj hb
  · rintro rfl
    exact Same.refl _
  · intro h
    have hb := htext b
    rw [← h, htext a] at hb
    exact Option.some.inj hb
  · rintro rfl
    rfl

end WikiExpansion
