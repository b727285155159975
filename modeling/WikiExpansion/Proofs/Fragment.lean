import Mathlib.Data.List.TakeWhile
import WikiExpansion.KeyValue

/-!
# What a text is split into

A fragment is one whole attribute: a key without `=`, the sign, and a value without
quotes in one or two optional quotes.  A text is split into the key and the value of
the first fragment that reaches to its end, where fragments begin at the start of the
text or behind an `=` (`splitFrom_eq_some_iff`).  What stands before that fragment is
neither in the key nor in the value.  So a split accounts for the whole text only
where the text is one whole fragment (`infer?_text_exact`).
-/

namespace WikiExpansion.KeyValue

def AtMostQuote (q : List Char) : Prop := q = [] ∨ ∃ c, isQuote c = true ∧ q = [c]

/-- The text is one attribute, with the key and the value. -/
structure Fragment (cs k v : List Char) : Prop where
  key_ne_nil : k ≠ []
  key : '=' ∉ k
  value : ∀ c ∈ v, isQuote c = false
  whole : ∃ q₁ q₂, AtMostQuote q₁ ∧ AtMostQuote q₂ ∧ cs = k ++ '=' :: (q₁ ++ v ++ q₂)

/-- The text behind `lead` is a fragment, and does not begin within a key. -/
def SplitsAt (cs lead k v : List Char) : Prop :=
  (lead = [] ∨ ∃ l, lead = l ++ ['=']) ∧ ∃ frag, cs = lead ++ frag ∧ Fragment frag k v

def SplitsFirst (cs lead k v : List Char) : Prop :=
  SplitsAt cs lead k v ∧ ∀ lead' k' v', SplitsAt cs lead' k' v' → lead.length ≤ lead'.length

/-! ### The value -/

theorem exists_dropQuote (cs : List Char) : ∃ q, AtMostQuote q ∧ cs = q ++ dropQuote cs := by
  cases cs with
  | nil => exact ⟨[], .inl rfl, rfl⟩
  | cons c cs =>
    rw [dropQuote]
    split
    next hc => exact ⟨[c], .inr ⟨c, hc, rfl⟩, rfl⟩
    next => exact ⟨[], .inl rfl, rfl⟩

theorem AtMostQuote.span {q : List Char} (hq : AtMostQuote q) {v : List Char}
    (hv : ∀ c ∈ v, isQuote c = false) :
    (v ++ q).takeWhile (!isQuote ·) = v ∧ (v ++ q).dropWhile (!isQuote ·) = q := by
  have hp : ∀ c ∈ v, (!isQuote c) = true := fun c hc => by rw [hv c hc]; rfl
  rw [List.takeWhile_append_of_pos hp, List.dropWhile_append_of_pos hp]
  rcases hq with rfl | ⟨c, hc, rfl⟩
  · exact ⟨List.append_nil v, rfl⟩
  · simp [hc]

theorem dropQuote_append {q₁ q₂ v : List Char} (hq₁ : AtMostQuote q₁) (hq₂ : AtMostQuote q₂)
    (hv : ∀ c ∈ v, isQuote c = false) :
    dropQuote (q₁ ++ v ++ q₂) = v ++ q₂ ∨ v = [] ∧ dropQuote (q₁ ++ v ++ q₂) = [] := by
  rcases hq₁ with rfl | ⟨c, hc, rfl⟩
  · cases v with
    | nil =>
      rcases hq₂ with rfl | ⟨c, hc, rfl⟩
      · exact .inl rfl
      · exact .inr ⟨rfl, by simp [dropQuote, hc]⟩
    | cons a v =>
      have ha := hv a List.mem_cons_self
      exact .inl (by simp [dropQuote, ha])
  · exact .inl (by simp [dropQuote, hc])

theorem value?_eq_some_iff {cs v : List Char} :
    value? cs = some v ↔ (∀ c ∈ v, isQuote c = false) ∧
      ∃ q₁ q₂, AtMostQuote q₁ ∧ AtMostQuote q₂ ∧ cs = q₁ ++ v ++ q₂ := by
  constructor
  · intro h
    obtain ⟨q₁, hq₁, hcs⟩ := exists_dropQuote cs
    have hspan := List.takeWhile_append_dropWhile (p := (!isQuote ·)) (l := dropQuote cs)
    have hfree : ∀ c ∈ (dropQuote cs).takeWhile (!isQuote ·), isQuote c = false := by
      intro c hc
      simpa using List.mem_takeWhile_imp hc
    unfold value? at h
    simp only at h
    split at h
    next hd =>
      obtain rfl := Option.some.inj h
      rw [hd] at hspan
      exact ⟨hfree, q₁, [], hq₁, .inl rfl, by rw [List.append_assoc, hspan]; exact hcs⟩
    next c hd =>
      obtain rfl := Option.some.inj h
      have hc := List.head?_dropWhile_not (!isQuote ·) (dropQuote cs)
      rw [hd] at hspan hc
      refine ⟨hfree, q₁, [c], hq₁, .inr ⟨c, by simpa using hc, rfl⟩, ?_⟩
      rw [List.append_assoc, hspan]
      exact hcs
    next => cases h
  · rintro ⟨hv, q₁, q₂, hq₁, hq₂, rfl⟩
    unfold value?
    rcases dropQuote_append hq₁ hq₂ hv with hd | ⟨rfl, hd⟩
    · obtain ⟨htake, hdrop⟩ := hq₂.span hv
      simp only [hd, htake, hdrop]
      rcases hq₂ with rfl | ⟨c, -, rfl⟩ <;> rfl
    · simp only [hd]
      rfl

/-! ### The first fragment -/

theorem append_cons_inj {k r cs ds : List Char} (hk : '=' ∉ k) (hr : '=' ∉ r)
    (h : k ++ '=' :: cs = r ++ '=' :: ds) : k = r ∧ cs = ds := by
  induction k generalizing r with
  | nil =>
    cases r with
    | nil => exact ⟨rfl, (List.cons.inj h).2⟩
    | cons b r => exact absurd (List.mem_cons.2 (.inl (List.cons.inj h).1)) hr
  | cons a k ih =>
    cases r with
    | nil => exact absurd (List.mem_cons.2 (.inl (List.cons.inj h).1.symm)) hk
    | cons b r =>
      obtain ⟨rfl, htail⟩ := List.cons.inj h
      obtain ⟨rfl, hcs⟩ := ih (fun hm => hk (List.mem_cons_of_mem _ hm))
        (fun hm => hr (List.mem_cons_of_mem _ hm)) htail
      exact ⟨rfl, hcs⟩

theorem Fragment.unique {cs k v k' v' : List Char} (h : Fragment cs k v)
    (h' : Fragment cs k' v') : k = k' ∧ v = v' := by
  obtain ⟨q₁, q₂, hq₁, hq₂, rfl⟩ := h.whole
  obtain ⟨q₁', q₂', hq₁', hq₂', he⟩ := h'.whole
  obtain ⟨rfl, hrest⟩ := append_cons_inj h.key h'.key he
  have hv := value?_eq_some_iff.2 ⟨h.value, q₁, q₂, hq₁, hq₂, rfl⟩
  have hv' := value?_eq_some_iff.2 ⟨h'.value, q₁', q₂', hq₁', hq₂', hrest⟩
  exact ⟨rfl, Option.some.inj (hv.symm.trans hv')⟩

theorem not_splitsAt {cs lead k v : List Char} (hcs : '=' ∉ cs) : ¬ SplitsAt cs lead k v := by
  rintro ⟨-, frag, rfl, hf⟩
  obtain ⟨q₁, q₂, -, -, rfl⟩ := hf.whole
  exact hcs (List.mem_append_right _ (List.mem_append_right _ List.mem_cons_self))

/-- A fragment begins at the start of the text, or behind its first `=` or a later one. -/
theorem splitsAt_append_iff {r cs lead k v : List Char} (hr : '=' ∉ r) :
    SplitsAt (r ++ '=' :: cs) lead k v ↔
      (lead = [] ∧ k = r ∧ r ≠ [] ∧ value? cs = some v) ∨
        ∃ lead', lead = r ++ '=' :: lead' ∧ SplitsAt cs lead' k v := by
  constructor
  · rintro ⟨rfl | ⟨l, rfl⟩, frag, he, hf⟩
    · obtain ⟨q₁, q₂, hq₁, hq₂, rfl⟩ := hf.whole
      obtain ⟨rfl, rfl⟩ := append_cons_inj hr hf.key he
      exact .inl ⟨rfl, rfl, hf.key_ne_nil, value?_eq_some_iff.2 ⟨hf.value, q₁, q₂, hq₁, hq₂, rfl⟩⟩
    · refine .inr ?_
      rw [List.append_assoc, List.singleton_append] at he
      by_cases hl : '=' ∈ l
      · obtain ⟨l₁, l₂, rfl, hl₁⟩ := List.eq_append_cons_of_mem hl
        rw [List.append_assoc, List.cons_append] at he
        obtain ⟨rfl, rfl⟩ := append_cons_inj hr hl₁ he
        exact ⟨l₂ ++ ['='], by rw [List.append_assoc, List.cons_append], .inr ⟨l₂, rfl⟩, frag,
          by rw [List.append_assoc, List.singleton_append], hf⟩
      · obtain ⟨rfl, rfl⟩ := append_cons_inj hr hl he
        exact ⟨[], rfl, .inl rfl, cs, rfl, hf⟩
  · rintro (⟨rfl, rfl, hne, hv⟩ | ⟨lead', rfl, hlead, frag, rfl, hf⟩)
    · obtain ⟨hfree, q₁, q₂, hq₁, hq₂, rfl⟩ := value?_eq_some_iff.1 hv
      exact ⟨.inl rfl, _, rfl, hne, hr, hfree, q₁, q₂, hq₁, hq₂, rfl⟩
    · refine ⟨.inr ?_, frag, by rw [List.append_assoc, List.cons_append], hf⟩
      rcases hlead with rfl | ⟨l, rfl⟩
      · exact ⟨r, rfl⟩
      · exact ⟨r ++ '=' :: l, by rw [List.append_assoc, List.cons_append]⟩

/-! ### The split -/

theorem splitFrom_cons_of_ne {c : Char} (hc : c ≠ '=') (run cs : List Char) :
    splitFrom run (c :: cs) = splitFrom (c :: run) cs := if_neg hc

theorem splitFrom_cons_sign (run cs : List Char) :
    splitFrom run ('=' :: cs) =
      match run, value? cs with
      | [], _ | _, none => splitFrom [] cs
      | k, some v => some (k.reverse, v) := rfl

theorem splitFrom_append {r : List Char} (hr : '=' ∉ r) (run cs : List Char) :
    splitFrom run (r ++ cs) = splitFrom (r.reverse ++ run) cs := by
  induction r generalizing run with
  | nil => rfl
  | cons c r ih =>
    obtain ⟨hc, hr⟩ := not_or.1 (mt List.mem_cons.2 hr)
    rw [List.cons_append, splitFrom_cons_of_ne (Ne.symm hc), ih hr, List.reverse_cons,
      List.append_assoc, List.singleton_append]

theorem splitFrom_of_not_mem {cs : List Char} (hcs : '=' ∉ cs) : splitFrom [] cs = none := by
  have happend := splitFrom_append hcs [] []
  rwa [List.append_nil] at happend

theorem splitFrom_of_value {r cs v : List Char} (hr : '=' ∉ r) (hne : r ≠ [])
    (hv : value? cs = some v) : splitFrom [] (r ++ '=' :: cs) = some (r, v) := by
  rw [splitFrom_append hr, List.append_nil, splitFrom_cons_sign, hv]
  cases hrev : r.reverse with
  | nil => exact absurd (List.reverse_eq_nil_iff.1 hrev) hne
  | cons c l =>
    change some ((c :: l).reverse, v) = some (r, v)
    rw [← hrev, List.reverse_reverse]

theorem splitFrom_skip {r cs : List Char} (hr : '=' ∉ r)
    (h : ∀ v, r ≠ [] → value? cs ≠ some v) : splitFrom [] (r ++ '=' :: cs) = splitFrom [] cs := by
  rw [splitFrom_append hr, List.append_nil, splitFrom_cons_sign]
  cases hv : value? cs with
  | none => cases r.reverse <;> rfl
  | some v =>
    have hnil : r = [] := Decidable.not_not.1 fun hne => h v hne hv
    rw [hnil]
    rfl

/-- Induction along the signs of a text, up to the first that has a key before it and a
value behind it. -/
@[elab_as_elim]
theorem sign_induction {motive : List Char → Prop} (cs : List Char)
    (unsigned : ∀ cs, '=' ∉ cs → motive cs)
    (value : ∀ r cs v, '=' ∉ r → r ≠ [] → value? cs = some v → motive (r ++ '=' :: cs))
    (skip : ∀ r cs, '=' ∉ r → (∀ v, r ≠ [] → value? cs ≠ some v) → motive cs →
      motive (r ++ '=' :: cs)) :
    motive cs := by
  induction hn : cs.length using Nat.strongRecOn generalizing cs with
  | ind n ih =>
    by_cases hmem : '=' ∈ cs
    · obtain ⟨r, ds, rfl, hr⟩ := List.eq_append_cons_of_mem hmem
      by_cases hfull : ∃ v, r ≠ [] ∧ value? ds = some v
      · obtain ⟨v, hne, hv⟩ := hfull
        exact value r ds v hr hne hv
      · refine skip r ds hr (fun v hne hv => hfull ⟨v, hne, hv⟩) (ih ds.length ?_ ds rfl)
        rw [← hn, List.length_append, List.length_cons]
        omega
    · exact unsigned cs hmem

theorem splitFrom_first (cs : List Char) :
    (∀ k v, splitFrom [] cs = some (k, v) → ∃ lead, SplitsFirst cs lead k v) ∧
      (splitFrom [] cs = none → ∀ lead k v, ¬ SplitsAt cs lead k v) := by
  induction cs using sign_induction with
  | unsigned cs hcs =>
    rw [splitFrom_of_not_mem hcs]
    exact ⟨nofun, fun _ _ _ _ => not_splitsAt hcs⟩
  | value r cs w hr hne hw =>
    rw [splitFrom_of_value hr hne hw]
    refine ⟨fun k v h => ?_, nofun⟩
    obtain ⟨rfl, rfl⟩ := Prod.mk.inj (Option.some.inj h)
    exact ⟨[], (splitsAt_append_iff hr).2 (.inl ⟨rfl, rfl, hne, hw⟩),
      fun _ _ _ _ => Nat.zero_le _⟩
  | skip r cs hr hskip ih =>
    -- whatever splits the text splits what stands behind its first sign
    have behind {lead k v : List Char} (h : SplitsAt (r ++ '=' :: cs) lead k v) :
        ∃ lead', lead = r ++ '=' :: lead' ∧ SplitsAt cs lead' k v :=
      ((splitsAt_append_iff hr).1 h).resolve_left fun ⟨_, _, hne, hv⟩ => hskip v hne hv
    obtain ⟨hsome, hnone⟩ := ih
    rw [splitFrom_skip hr hskip]
    refine ⟨fun k v h => ?_, fun h lead k v hs => ?_⟩
    · obtain ⟨lead, hs, hfirst⟩ := hsome k v h
      refine ⟨r ++ '=' :: lead, (splitsAt_append_iff hr).2 (.inr ⟨lead, rfl, hs⟩),
        fun lead' k' v' hs' => ?_⟩
      obtain ⟨lead'', rfl, hs''⟩ := behind hs'
      have := hfirst _ _ _ hs''
      simp only [List.length_append, List.length_cons]
      omega
    · obtain ⟨lead', -, hs'⟩ := behind hs
      exact hnone h lead' k v hs'

theorem SplitsFirst.unique {cs lead k v lead' k' v' : List Char} (h : SplitsFirst cs lead k v)
    (h' : SplitsFirst cs lead' k' v') : k = k' ∧ v = v' := by
  have hlen := Nat.le_antisymm (h.2 _ _ _ h'.1) (h'.2 _ _ _ h.1)
  obtain ⟨-, frag, rfl, hf⟩ := h.1
  obtain ⟨-, frag', he, hf'⟩ := h'.1
  obtain ⟨-, rfl⟩ := List.append_inj he hlen
  exact hf.unique hf'

/-- **A text is split at the first fragment that reaches to its end.** -/
theorem splitFrom_eq_some_iff {cs k v : List Char} :
    splitFrom [] cs = some (k, v) ↔ ∃ lead, SplitsFirst cs lead k v := by
  refine ⟨(splitFrom_first cs).1 k v, fun ⟨lead, h⟩ => ?_⟩
  cases hs : splitFrom [] cs with
  | none => exact absurd h.1 ((splitFrom_first cs).2 hs lead k v)
  | some kv =>
    obtain ⟨lead', h'⟩ := (splitFrom_first cs).1 kv.1 kv.2 hs
    obtain ⟨rfl, rfl⟩ := h.unique h'
    rfl

theorem splitFrom_eq_none_iff {cs : List Char} :
    splitFrom [] cs = none ↔ ∀ lead k v, ¬ SplitsAt cs lead k v := by
  refine ⟨(splitFrom_first cs).2, fun h => ?_⟩
  cases hs : splitFrom [] cs with
  | none => rfl
  | some kv =>
    obtain ⟨lead, hf⟩ := (splitFrom_first cs).1 kv.1 kv.2 hs
    exact absurd hf.1 (h _ _ _)

/-! ### A key that is a text -/

theorem infer?_text_eq_some_iff {s k : String} {v : Content Token} :
    infer? (.text s) = some (k, v) ↔
      ∃ w : String, v = .text w ∧ splitFrom [] s.toList = some (k.toList, w.toList) := by
  simp only [infer?, split?, Option.map_map, Option.map_eq_some_iff, Function.comp_apply]
  constructor
  · rintro ⟨kv, hs, he⟩
    obtain ⟨rfl, rfl⟩ := Prod.mk.inj he
    exact ⟨_, rfl, by rw [hs, String.toList_ofList, String.toList_ofList]⟩
  · rintro ⟨w, rfl, hs⟩
    exact ⟨_, hs, by rw [String.ofList_toList, String.ofList_toList]⟩

/-- **What a key is split into.**  A text is split at the first fragment that reaches to
its end, and at none only where no end of it is one.  The key and the value account
for all of the text exactly where the text itself is a fragment. -/
theorem infer?_text_exact (s : String) :
    (∀ k v, infer? (.text s) = some (k, v) ↔
      ∃ lead, ∃ w : String, v = .text w ∧ SplitsFirst s.toList lead k.toList w.toList) ∧
    (infer? (.text s) = none ↔ ∀ lead k v, ¬ SplitsAt s.toList lead k v) ∧
    ∀ k v : String, infer? (.text s) = some (k, .text v) →
      ((∃ q₁ q₂ : String, AtMostQuote q₁.toList ∧ AtMostQuote q₂.toList ∧
          s = k ++ "=" ++ q₁ ++ v ++ q₂) ↔
        ∃ k' v', Fragment s.toList k' v') := by
  refine ⟨fun k v => ?_, ?_, fun k v h => ?_⟩
  · rw [infer?_text_eq_some_iff]
    simp only [splitFrom_eq_some_iff]
    exact ⟨fun ⟨w, hv, lead, h⟩ => ⟨lead, w, hv, h⟩, fun ⟨lead, w, hv, h⟩ => ⟨w, hv, lead, h⟩⟩
  · rw [← splitFrom_eq_none_iff, infer?, split?, Option.map_map, Option.map_eq_none_iff]
  · obtain ⟨w, hw, hs⟩ := infer?_text_eq_some_iff.1 h
    obtain rfl := Content.text.inj hw
    obtain ⟨lead, ⟨-, frag, hlead, hf⟩, hfirst⟩ := splitFrom_eq_some_iff.1 hs
    constructor
    · rintro ⟨q₁, q₂, hq₁, hq₂, rfl⟩
      refine ⟨k.toList, v.toList, hf.key_ne_nil, hf.key, hf.value, _, _, hq₁, hq₂, ?_⟩
      simp
    · rintro ⟨k', v', hwhole⟩
      -- the text splits at its start, so nothing stands before the fragment
      have hnil := hfirst [] k' v' ⟨.inl rfl, _, rfl, hwhole⟩
      obtain rfl := List.length_eq_zero_iff.1 (Nat.le_zero.1 hnil)
      obtain ⟨q₁, q₂, hq₁, hq₂, he⟩ := hf.whole
      refine ⟨.ofList q₁, .ofList q₂, by rwa [String.toList_ofList],
        by rwa [String.toList_ofList], String.toList_inj.1 ?_⟩
      rw [hlead, List.nil_append, he]
      simp

/-- Of two attributes the sign of the first one is lost, and its key with it. -/
theorem infer?_text_two :
    infer? (.text "class=\"a\" id=\"b\"") = some ("\"a\" id", .text "b") ∧
      (¬ ∃ q₁ q₂ : String, AtMostQuote q₁.toList ∧ AtMostQuote q₂.toList ∧
        "class=\"a\" id=\"b\"" = "\"a\" id" ++ "=" ++ q₁ ++ "b" ++ q₂) ∧
      ¬ ∃ k v, Fragment "class=\"a\" id=\"b\"".toList k v := by
  have h : infer? (.text "class=\"a\" id=\"b\"") = some ("\"a\" id", .text "b") := by rfl
  have hlost : ¬ ∃ q₁ q₂ : String, AtMostQuote q₁.toList ∧ AtMostQuote q₂.toList ∧
      "class=\"a\" id=\"b\"" = "\"a\" id" ++ "=" ++ q₁ ++ "b" ++ q₂ := by
    rintro ⟨q₁, q₂, -, -, he⟩
    have hhead := congrArg (fun s : String => s.toList.head?) he
    simp at hhead
  exact ⟨h, hlost, mt ((infer?_text_exact _).2.2 _ _ h).2 hlost⟩

end WikiExpansion.KeyValue
