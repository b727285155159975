import WikiExpansion.Registry

/-!
# The order of a registry

The entries of a registry stand in the order of their positions, and the number
of the next registration is greater than theirs (`Registry.Ordered`).  So what
comes after an entry is the rest of the list behind it, and the next handler
after a position is the first of those behind it that wants the token.
-/

namespace WikiExpansion

theorem Position.Before.asymm {p q : Position} (h : p.Before q) : ¬ q.Before p :=
  fun g => not_before_self p (h.trans g)

namespace Registry

variable {η θ : Type}

/-- Entries stand in the order of their positions, all of them registered before
the next one. -/
structure Ordered (g : Registry η) : Prop where
  sorted : g.entries.Pairwise fun a b => a.position.Before b.position
  older : ∀ e ∈ g.entries, e.position.number < g.next

theorem pairwise_insert {r : Registration η} {es : List (Registration η)}
    (hes : es.Pairwise fun a b => a.position.Before b.position)
    (hn : ∀ e ∈ es, e.position.number < r.position.number) :
    (insert r es).Pairwise fun a b => a.position.Before b.position := by
  induction es with
  | nil => exact List.pairwise_singleton _ _
  | cons e es ih =>
    obtain ⟨he, hes⟩ := List.pairwise_cons.1 hes
    rw [insert]
    split
    · rename_i hlt
      have hre : r.position.Before e.position := Or.inl hlt
      refine List.pairwise_cons.2 ⟨fun a ha => ?_, List.pairwise_cons.2 ⟨he, hes⟩⟩
      rcases List.mem_cons.1 ha with rfl | ha
      · exact hre
      · exact hre.trans (he a ha)
    · rename_i hge
      refine List.pairwise_cons.2
        ⟨fun a ha => ?_, ih hes fun a ha => hn a (List.mem_cons_of_mem e ha)⟩
      rcases mem_insert.1 ha with rfl | ha
      · by_cases hk : e.position.rank.key < a.position.rank.key
        · exact Or.inl hk
        · exact Or.inr ⟨Binary64.key_injective (by omega), hn e List.mem_cons_self⟩
      · exact he a ha

theorem ordered_empty : Ordered ({} : Registry η) :=
  ⟨List.Pairwise.nil, fun _ h => absurd h List.not_mem_nil⟩

theorem Ordered.register {g : Registry η} (h : g.Ordered) (name : String) (rank : Rank)
    (filter : Filter) (handler : η) : (g.register name rank filter handler).Ordered := by
  refine ⟨pairwise_insert h.sorted h.older, fun e he => ?_⟩
  rcases mem_insert.1 he with rfl | he
  · exact Nat.lt_succ_self _
  · exact Nat.lt_succ_of_lt (h.older e he)

theorem comesAfter_some {r : Registration η} {p : Position} :
    comesAfter r (some p) = true ↔ p.Before r.position :=
  decide_eq_true_iff

theorem filter_comesAfter_cons {e : Registration η} {p : Position} (h : ¬ p.Before e.position)
    (es : List (Registration η)) :
    (e :: es).filter (comesAfter · (some p)) = es.filter (comesAfter · (some p)) := by
  rw [List.filter_cons, if_neg (mt comesAfter_some.1 h)]

def after (g : Registry η) (p : Option Position) : List (Registration η) :=
  g.entries.filter (comesAfter · p)

theorem after_none (g : Registry η) : g.after none = g.entries :=
  List.filter_eq_self.2 fun _ _ => rfl

theorem next?_eq_find? (g : Registry η) (p : Option Position) (k : Kind) :
    g.next? p k = (g.after p).find? (·.filter.accepts k) := by
  rw [next?, after, List.find?_filter]
  exact congrArg (g.entries.find? ·) (funext fun r => by rw [Bool.decide_and, Bool.decide_eq_true,
    Bool.decide_eq_true])

theorem Ordered.eq_of_position {g : Registry η} (h : g.Ordered) {a b : Registration η}
    (ha : a ∈ g.entries) (hb : b ∈ g.entries) (hp : a.position = b.position) : a = b := by
  obtain ⟨i, hi, rfl⟩ := List.getElem_of_mem ha
  obtain ⟨j, hj, rfl⟩ := List.getElem_of_mem hb
  rcases Nat.lt_trichotomy i j with hij | rfl | hij
  · have := List.pairwise_iff_getElem.1 h.sorted i j hi hj hij
    rw [hp] at this
    exact absurd this (Position.not_before_self _)
  · rfl
  · have := List.pairwise_iff_getElem.1 h.sorted j i hj hi hij
    rw [hp] at this
    exact absurd this (Position.not_before_self _)

/-- Of what comes after a position, what comes after an entry behind it is all
that comes after the entry. -/
theorem filter_after (g : Registry η) {p : Option Position} {r : Registration η}
    (h : comesAfter r p = true) :
    (g.after p).filter (comesAfter · (some r.position)) = g.after (some r.position) := by
  rw [after, after, List.filter_filter]
  refine List.filter_congr fun e _ => ?_
  rw [Bool.and_eq_left_iff_imp]
  intro he
  cases p with
  | none => rfl
  | some q => exact comesAfter_some.2 ((comesAfter_some.1 h).trans (comesAfter_some.1 he))

/-- The entries after one that comes after a position are fewer than those after it. -/
theorem length_after_lt {g : Registry η} {p : Option Position} {k : Kind}
    {r : Registration η} (h : g.next? p k = some r) :
    (g.after (some r.position)).length < (g.after p).length := by
  rw [Registry.next?_eq_find?] at h
  have hr := List.mem_of_find?_eq_some h
  rw [← Registry.filter_after g (List.mem_filter.1 hr).2]
  refine List.length_filter_lt_length_iff_exists.2 ⟨r, hr, ?_⟩
  exact mt Registry.comesAfter_some.1 (Position.not_before_self _)

theorem next?_eq_none {g : Registry η} {p : Option Position} {k : Kind}
    (h : g.next? p k = none) : ∀ e ∈ g.after p, e.filter.accepts k = false := by
  rw [next?_eq_find?] at h
  exact fun e he => Bool.eq_false_iff.2 (List.find?_eq_none.1 h e he)

/-- What comes after a position is some entries that the next one stands behind and
that do not want the token, the next one, and what comes after that. -/
theorem Ordered.after_eq {g : Registry η} (hg : g.Ordered) {p : Option Position} {k : Kind}
    {r : Registration η} (h : g.next? p k = some r) :
    ∃ skipped, (∀ e ∈ skipped, e.filter.accepts k = false) ∧ r.filter.accepts k = true ∧
      g.after p = skipped ++ r :: g.after (some r.position) := by
  rw [next?_eq_find?] at h
  obtain ⟨hr, skipped, later, hsplit, hskip⟩ := List.find?_eq_some_iff_append.1 h
  refine ⟨skipped, fun e he => ?_, hr, ?_⟩
  · exact Bool.eq_false_iff.2 fun ha => by simpa [ha] using hskip e he
  · have hsorted : (g.after p).Pairwise fun a b => a.position.Before b.position :=
      hg.sorted.filter _
    have hmem : r ∈ g.after p := List.mem_of_find?_eq_some h
    rw [← filter_after g (List.mem_filter.1 hmem).2]
    rw [hsplit] at hsorted ⊢
    obtain ⟨-, hlater, hbefore⟩ := List.pairwise_append.1 hsorted
    obtain ⟨hlater, -⟩ := List.pairwise_cons.1 hlater
    have hs : skipped.filter (comesAfter · (some r.position)) = [] :=
      List.filter_eq_nil_iff.2 fun e he ha =>
        (hbefore e he r List.mem_cons_self).asymm (comesAfter_some.1 ha)
    have hl : later.filter (comesAfter · (some r.position)) = later :=
      List.filter_eq_self.2 fun e he => comesAfter_some.2 (hlater e he)
    rw [List.filter_append, hs, List.nil_append,
      filter_comesAfter_cons (Position.not_before_self _), hl]

end Registry

/-! ### Other handlers at the same positions -/

def Registration.map {η θ : Type} (f : η → θ) (r : Registration η) : Registration θ :=
  ⟨r.name, r.position, r.filter, f r.handler⟩

namespace Registry

variable {η θ : Type}

def map (f : η → θ) (g : Registry η) : Registry θ := ⟨g.entries.map (Registration.map f), g.next⟩

theorem map_insert (f : η → θ) (r : Registration η) (es : List (Registration η)) :
    (insert r es).map (Registration.map f) = insert (r.map f) (es.map (Registration.map f)) := by
  induction es with
  | nil => rfl
  | cons e es ih =>
    have hk : (r.map f).position.rank.key < (e.map f).position.rank.key ↔
        r.position.rank.key < e.position.rank.key := Iff.rfl
    rw [List.map_cons, insert, insert]
    by_cases h : r.position.rank.key < e.position.rank.key
    · rw [if_pos h, if_pos (hk.2 h), List.map_cons, List.map_cons]
    · rw [if_neg h, if_neg (mt hk.1 h), List.map_cons, ih]

theorem map_register (f : η → θ) (g : Registry η) (name : String) (rank : Rank) (filter : Filter)
    (handler : η) :
    (g.register name rank filter handler).map f =
      (g.map f).register name rank filter (f handler) := by
  rw [register, register, map, map, map_insert]
  rfl

theorem next?_map (f : η → θ) (g : Registry η) (p : Option Position) (k : Kind) :
    (g.map f).next? p k = (g.next? p k).map (Registration.map f) := by
  rw [next?, next?, map, List.find?_map]
  rfl

/-- What is found in a registry whose handlers were made of others. -/
theorem next?_of_eq_map {f : η → θ} {g : Registry η} {h : Registry θ} (hm : h = g.map f)
    {p : Option Position} {k : Kind} {r : Option (Registration η)} (hr : g.next? p k = r) :
    h.next? p k = r.map (Registration.map f) := by
  rw [hm, next?_map, hr]

end Registry

end WikiExpansion
