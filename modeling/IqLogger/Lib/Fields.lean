import Mathlib.Data.List.Basic
import Mathlib.Data.List.Chain

/-!
# The non-empty fields of a list

The maximal runs of a list between occurrences of a separator, without the empty
ones: `List.splitOn` followed by a filter. Everything about them comes from the
one equation `fields_append_cons`, that a list is split at a separator.

The question this file answers is when the fields of a list can be computed from
the pieces the list is cut into. A cut next to a separator does no harm
(`fields_append`); a cut inside a field makes two fields of it, so it changes
how many there are (`length_fields_append`). Hence the fields of the pieces are
the fields of the list exactly when every cut is next to a separator
(`flatMap_fields_eq_iff`).
-/

namespace List

variable {α : Type*} [DecidableEq α] {a : α}

/-- The non-empty runs of a list between occurrences of `a`, in order. -/
def fields (a : α) (l : List α) : List (List α) := (l.splitOn a).filter fun w => w ≠ []

@[simp] theorem fields_nil : fields a [] = [] := rfl

/-- **A list is split at a separator.** -/
theorem fields_append_cons (x y : List α) : fields a (x ++ a :: y) = fields a x ++ fields a y := by
  rw [fields, splitOn_append_cons_self, filter_append]
  rfl

@[simp] theorem fields_cons_self (y : List α) : fields a (a :: y) = fields a y := by
  simpa using fields_append_cons (a := a) [] y

theorem fields_append_self (x : List α) : fields a (x ++ [a]) = fields a x := by
  simpa using fields_append_cons x ([] : List α)

/-- A list without separators is one field. -/
theorem fields_of_notMem {w : List α} (h : a ∉ w) (hne : w ≠ []) : fields a w = [w] := by
  rw [fields, splitOn_eq_singleton h]
  simp [hne]

/-- A field, followed by a separator. -/
theorem fields_append_cons_of_notMem {w y : List α} (h : a ∉ w) (hne : w ≠ []) :
    fields a (w ++ a :: y) = w :: fields a y := by
  rw [fields_append_cons, fields_of_notMem h hne, singleton_append]

/-- Splitting drops the separators and nothing else. -/
theorem flatten_splitOn (l : List α) : (l.splitOn a).flatten = l.filter fun b => b ≠ a := by
  induction l with
  | nil => rfl
  | cons b l ih =>
    rw [splitOn_cons_eq_if_modifyHead]
    by_cases hb : b = a
    · simpa [hb] using ih
    · obtain ⟨w, ws, hw⟩ := exists_cons_of_ne_nil (splitOn_ne_nil a l)
      rw [hw] at ih ⊢
      simpa [hb] using ih

/-- The fields of a list, concatenated, are the list without its separators. -/
theorem flatten_fields (l : List α) : (fields a l).flatten = l.filter fun b => b ≠ a := by
  rw [fields, flatten_filter_ne_nil, flatten_splitOn]

/-- The first separator of a list, and the field in front of it. -/
theorem append_cons_of_idxOf? {l : List α} {i : ℕ} (h : l.idxOf? a = some i) :
    l = l.take i ++ a :: l.drop (i + 1) ∧ a ∉ l.take i := by
  obtain ⟨hi, rfl, hbefore⟩ := idxOf?_eq_some_iff.mp h
  refine ⟨?_, fun hmem => ?_⟩
  · rw [getElem_cons_drop, take_append_drop]
  · obtain ⟨j, hj, heq⟩ := mem_take_iff_getElem.mp hmem
    exact hbefore j (by omega) heq

/-! ### Cutting a list next to a separator -/

/-- A cut between two lists that is next to a separator. -/
def CutAt (a : α) (x y : List α) : Prop := x.getLast? = some a ∨ y.head? = some a

instance (x y : List α) : Decidable (CutAt a x y) := inferInstanceAs (Decidable (_ ∨ _))

/-- **A cut next to a separator keeps the fields.** -/
theorem fields_append {x y : List α} (h : CutAt a x y) :
    fields a (x ++ y) = fields a x ++ fields a y := by
  rcases h with h | h
  · obtain ⟨x, rfl⟩ := getLast?_eq_some_iff.mp h
    rw [append_assoc, singleton_append, fields_append_cons, fields_append_self]
  · obtain ⟨y, rfl⟩ := head?_eq_some_iff.mp h
    rw [fields_append_cons, fields_cons_self]

/-- One more element at the front: a separator changes nothing, and any other
element opens a field unless it extends the first one. -/
theorem length_fields_cons {b : α} (hb : b ≠ a) (l : List α) :
    (fields a (b :: l)).length =
      if l = [] ∨ l.head? = some a then (fields a l).length + 1 else (fields a l).length := by
  cases l with
  | nil => simp [fields_of_notMem (w := [b]) (by simpa using hb.symm)]
  | cons c l =>
    by_cases hc : c = a
    · subst hc
      rw [show b :: c :: l = [b] ++ c :: l from rfl,
        fields_append_cons_of_notMem (by simpa using hb.symm) (by simp), fields_cons_self]
      simp
    · obtain ⟨w, ws, hw⟩ := exists_cons_of_ne_nil (splitOn_ne_nil a l)
      simp [fields, splitOn_cons_eq_if_modifyHead, hb, hc, hw]

/-- **A cut inside a field makes two of it.** -/
theorem length_fields_append : ∀ {x y : List α}, x ≠ [] → y ≠ [] → ¬CutAt a x y →
    (fields a (x ++ y)).length + 1 = (fields a x).length + (fields a y).length
  | [], _, hx, _, _ => absurd rfl hx
  | [b], y, _, hy, h => by
    have hb : b ≠ a := fun hb => h (Or.inl (by simp [hb]))
    have hhead : ¬(y = [] ∨ y.head? = some a) := fun hc => h (Or.inr (hc.resolve_left hy))
    rw [singleton_append, length_fields_cons hb, if_neg hhead,
      fields_of_notMem (w := [b]) (by simpa using hb.symm) (by simp), length_singleton]
    omega
  | b :: c :: x, y, _, hy, h => by
    have ih := length_fields_append (x := c :: x) (by simp) hy
      (fun hc => h (hc.imp (by simp) id))
    by_cases hb : b = a
    · rw [hb, cons_append, fields_cons_self, fields_cons_self]
      exact ih
    · rw [cons_append, length_fields_cons hb, length_fields_cons hb]
      simp only [cons_append, head?_cons, reduceCtorEq, false_or] at ih ⊢
      split_ifs <;> omega

theorem length_fields_append_le (x y : List α) :
    (fields a (x ++ y)).length ≤ (fields a x).length + (fields a y).length := by
  by_cases hx : x = []
  · simp [hx]
  by_cases hy : y = []
  · simp [hy]
  by_cases h : CutAt a x y
  · rw [fields_append h, length_append]
  · have := length_fields_append hx hy h
    omega

/-! ### Cutting a list anywhere -/

theorem length_fields_flatten_le : ∀ bufs : List (List α),
    (fields a bufs.flatten).length ≤ (bufs.flatMap (fields a)).length
  | [] => by simp
  | b :: bufs => by
    have hb := length_fields_append_le (a := a) b bufs.flatten
    have ih := length_fields_flatten_le bufs
    rw [flatten_cons, flatMap_cons, length_append]
    omega

omit [DecidableEq α] in
/-- The head of a list is the head of its first piece. -/
theorem cutAt_flatten_cons {b c : List α} (hc : c ≠ []) (bufs : List (List α)) :
    CutAt a b (c ++ bufs.flatten) ↔ CutAt a b c := by
  rw [CutAt, CutAt, head?_append_of_ne_nil _ hc]

/-- **The fields of the pieces are the fields of the list exactly when every cut
is next to a separator.** -/
theorem flatMap_fields_eq_iff : ∀ {bufs : List (List α)}, (∀ b ∈ bufs, b ≠ []) →
    (bufs.flatMap (fields a) = fields a bufs.flatten ↔ bufs.IsChain (CutAt a))
  | [], _ => by simp
  | [b], _ => by simp
  | b :: c :: bufs, h => by
    have ih : (c :: bufs).flatMap (fields a) = fields a (c :: bufs).flatten ↔
        (c :: bufs).IsChain (CutAt a) :=
      flatMap_fields_eq_iff fun b hb => h b (mem_cons_of_mem _ hb)
    have hb : b ≠ [] := h b (by simp)
    have hc : c ≠ [] := h c (by simp)
    have hcut : CutAt a b (c :: bufs).flatten ↔ CutAt a b c := cutAt_flatten_cons hc bufs
    have hne : (c :: bufs).flatten ≠ [] := by simp [hc]
    rw [isChain_cons_cons, ← hcut, ← ih, flatMap_cons, flatten_cons]
    constructor
    · intro heq
      have hlen := congrArg length heq
      have hle := length_fields_flatten_le (a := a) (c :: bufs)
      rw [length_append] at hlen
      have hcb : CutAt a b (c :: bufs).flatten := by
        by_contra hcon
        have := length_fields_append hb hne hcon
        omega
      rw [fields_append hcb] at heq
      exact ⟨hcb, append_cancel_left heq⟩
    · rintro ⟨hcb, heq⟩
      rw [heq, fields_append hcb]

end List
