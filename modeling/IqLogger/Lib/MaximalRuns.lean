import IqLogger.Lib.Fields

/-!
# Maximal runs

A run of a list is a part of it, given by where it begins and where it ends, that is not
empty and holds no separator; a maximal run is part of no other run. This says what the
fields of a list are without saying how a list is split: they are its maximal runs, each
of them once, from left to right (`List.exists_maximalRuns`).

As with the fields, everything comes from one fact, that a separator splits a list: a run
is before it or behind it (`List.isRun_append_cons`), and so is a maximal run
(`List.isMaximalRun_append_cons`).
-/

namespace List

variable {α : Type*} {a : α} {x y l : List α} {i j : ℕ}

/-- The part of a list from the position `i` up to the position `j` is a run: it is not
empty, and the separator is not in it. -/
structure IsRun (a : α) (l : List α) (i j : ℕ) : Prop where
  lt : i < j
  le : j ≤ l.length
  notMem : a ∉ (l.take j).drop i

/-- A run that is part of no other one. -/
structure IsMaximalRun (a : α) (l : List α) (i j : ℕ) : Prop where
  run : IsRun a l i j
  maximal : ∀ {i' j'}, IsRun a l i' j' → i' ≤ i → j ≤ j' → i' = i ∧ j' = j

/-! ### Runs beside a separator -/

/-- A part of what comes behind a separator. -/
theorem drop_take_append_cons (i j : ℕ) :
    ((x ++ a :: y).take (x.length + 1 + j)).drop (x.length + 1 + i) = (y.take j).drop i := by
  have happ : x ++ a :: y = (x ++ [a]) ++ y := by simp
  have hlen : x.length + 1 = (x ++ [a]).length := by simp
  rw [happ, hlen, take_length_add_append, drop_length_add_append]

/-- **No run goes over a separator.** -/
theorem isRun_append_cons : IsRun a (x ++ a :: y) i j ↔
    IsRun a x i j ∨ ∃ i' j', i = x.length + 1 + i' ∧ j = x.length + 1 + j' ∧ IsRun a y i' j' := by
  have hlen : (x ++ a :: y).length = x.length + 1 + y.length := by
    simp only [length_append, length_cons]
    omega
  have hfront : j ≤ x.length → ((x ++ a :: y).take j).drop i = (x.take j).drop i := fun hj => by
    rw [take_append_of_le_length hj]
  constructor
  · rintro ⟨hlt, hle, hmem⟩
    by_cases hj : j ≤ x.length
    · exact Or.inl ⟨hlt, hj, hfront hj ▸ hmem⟩
    · -- the separator itself is not in the run, so the run begins behind it
      have hi : x.length + 1 ≤ i := by
        by_contra hi
        refine hmem (mem_of_getElem? (i := x.length - i) ?_)
        rw [getElem?_drop, getElem?_take, if_pos (by omega), Nat.add_sub_cancel' (by omega)]
        simp
      obtain ⟨i', rfl⟩ := Nat.exists_eq_add_of_le hi
      obtain ⟨j', rfl⟩ := Nat.exists_eq_add_of_le (show x.length + 1 ≤ j by omega)
      rw [drop_take_append_cons] at hmem
      exact Or.inr ⟨i', j', rfl, rfl, by omega, by omega, hmem⟩
  · rintro (⟨hlt, hle, hmem⟩ | ⟨i', j', rfl, rfl, hlt, hle, hmem⟩)
    · exact ⟨hlt, by omega, (hfront hle).symm ▸ hmem⟩
    · refine ⟨by omega, by omega, ?_⟩
      rwa [drop_take_append_cons]

/-- **The maximal runs of a list are those before a separator and those behind it.** -/
theorem isMaximalRun_append_cons : IsMaximalRun a (x ++ a :: y) i j ↔
    IsMaximalRun a x i j ∨
      ∃ i' j', i = x.length + 1 + i' ∧ j = x.length + 1 + j' ∧ IsMaximalRun a y i' j' := by
  constructor
  · rintro ⟨hrun, hmax⟩
    rcases isRun_append_cons.mp hrun with hx | ⟨i', j', rfl, rfl, hy⟩
    · exact Or.inl ⟨hx, fun h => hmax (isRun_append_cons.mpr (Or.inl h))⟩
    · refine Or.inr ⟨i', j', rfl, rfl, hy, fun {i₁ j₁} h hi hj => ?_⟩
      have heq := hmax (isRun_append_cons.mpr (Or.inr ⟨i₁, j₁, rfl, rfl, h⟩)) (by omega) (by omega)
      omega
  · rintro (⟨hx, hmax⟩ | ⟨i', j', rfl, rfl, hy, hmax⟩)
    · refine ⟨isRun_append_cons.mpr (Or.inl hx), fun h hi hj => ?_⟩
      rcases isRun_append_cons.mp h with h | ⟨i₁, j₁, rfl, rfl, -⟩
      · exact hmax h hi hj
      · -- a run behind the separator holds none before it
        have hlt := hx.lt
        have hle := hx.le
        omega
    · refine ⟨isRun_append_cons.mpr (Or.inr ⟨i', j', rfl, rfl, hy⟩), fun h hi hj => ?_⟩
      rcases isRun_append_cons.mp h with h | ⟨i₁, j₁, rfl, rfl, h'⟩
      · have hle := h.le
        have hlt := hy.lt
        omega
      · have heq := hmax h' (by omega) (by omega)
        omega

/-- A list without separators is one run. -/
theorem isMaximalRun_of_notMem (h : a ∉ l) (hne : l ≠ []) :
    IsMaximalRun a l i j ↔ i = 0 ∧ j = l.length := by
  have hall : IsRun a l 0 l.length :=
    ⟨length_pos_iff.mpr hne, le_rfl, by rwa [take_length, drop_zero]⟩
  constructor
  · rintro ⟨hrun, hmax⟩
    have heq := hmax hall (Nat.zero_le i) hrun.le
    omega
  · rintro ⟨rfl, rfl⟩
    refine ⟨hall, fun hrun hi hj => ?_⟩
    have hle := hrun.le
    omega

theorem not_isMaximalRun_nil : ¬IsMaximalRun a [] i j := fun h => by
  have hlt := h.run.lt
  have hle := h.run.le
  simp only [length_nil] at hle
  omega

/-! ### The fields -/

/-- **The fields of a list are its maximal runs**, from left to right. -/
theorem exists_maximalRuns [DecidableEq α] (a : α) (l : List α) :
    ∃ runs : List (ℕ × ℕ), runs.Pairwise (fun p q => p.2 < q.1) ∧
      (∀ i j, (i, j) ∈ runs ↔ IsMaximalRun a l i j) ∧
      fields a l = runs.map fun p => (l.take p.2).drop p.1 := by
  induction hn : l.length using Nat.strong_induction_on generalizing l with
  | _ n ih =>
    by_cases hmem : a ∈ l
    · obtain ⟨x, y, rfl⟩ := append_of_mem hmem
      rw [length_append, length_cons] at hn
      obtain ⟨xs, hxs, hxmem, hx⟩ := ih x.length (by omega) x rfl
      obtain ⟨ys, hys, hymem, hy⟩ := ih y.length (by omega) y rfl
      have hle : ∀ p ∈ xs, p.2 ≤ x.length := fun p hp => ((hxmem p.1 p.2).mp hp).run.le
      refine ⟨xs ++ ys.map fun p => (x.length + 1 + p.1, x.length + 1 + p.2), ?_,
      fun i j => ?_, ?_⟩
      · refine pairwise_append.mpr ⟨hxs, pairwise_map.mpr (hys.imp fun h => ?_),
          fun p hp q hq => ?_⟩
        · exact Nat.add_lt_add_left h _
        · obtain ⟨q, -, rfl⟩ := mem_map.mp hq
          exact Nat.lt_of_le_of_lt (hle p hp) (by dsimp only; omega)
      · rw [mem_append, hxmem, isMaximalRun_append_cons]
        refine or_congr_right ?_
        constructor
        · intro h
          obtain ⟨⟨i', j'⟩, hp, heq⟩ := mem_map.mp h
          obtain ⟨rfl, rfl⟩ := Prod.mk.inj heq
          exact ⟨i', j', rfl, rfl, (hymem i' j').mp hp⟩
        · rintro ⟨i', j', rfl, rfl, h⟩
          exact mem_map.mpr ⟨(i', j'), (hymem i' j').mpr h, rfl⟩
      · rw [fields_append_cons, hx, hy, map_append, map_map]
        congr 1
        · refine map_congr_left fun p hp => ?_
          rw [take_append_of_le_length (hle p hp)]
        · exact map_congr_left fun p _ => (drop_take_append_cons p.1 p.2).symm
    · by_cases hne : l = []
      · subst hne
        exact ⟨[], .nil, fun i j => iff_of_false not_mem_nil not_isMaximalRun_nil, rfl⟩
      · refine ⟨[(0, l.length)], pairwise_singleton _ _, fun i j => ?_, ?_⟩
        · rw [isMaximalRun_of_notMem hmem hne, mem_singleton, Prod.mk.injEq]
        · rw [fields_of_notMem hmem hne, map_singleton, take_length, drop_zero]

end List
