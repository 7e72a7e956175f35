import Mathlib.Data.List.Basic
import Mathlib.Data.List.Infix

/-!
# Occurrences of a literal

The leftmost non-overlapping occurrences of a literal in a text, as a search
reports them that goes on after each match (`List.literalMatches`).

A text is often searched piece by piece. Searching the pieces finds the same
occurrences as searching the whole when no occurrence crosses from one piece
into the next (`List.literalMatches_append`).
-/

namespace List

variable {α : Type*} [DecidableEq α] (d : List α)

/-- The offsets of the leftmost non-overlapping occurrences of `d` in a text
that begins at the offset `pos`, when its first `skip` letters belong to the last
match. -/
def literalMatches : ℕ → ℕ → List α → List ℕ
  | _, _, [] => []
  | pos, skip + 1, _ :: l => literalMatches (pos + 1) skip l
  | pos, 0, a :: l =>
    if d <+: a :: l then pos :: literalMatches (pos + 1) (d.length - 1) l
    else literalMatches (pos + 1) 0 l

variable {d}

/-- A match lies inside the text. -/
theorem of_mem_literalMatches {pos skip p : ℕ} {l : List α}
    (h : p ∈ literalMatches d pos skip l) : pos ≤ p ∧ p + d.length ≤ pos + l.length := by
  induction l generalizing pos skip with
  | nil => simp [literalMatches] at h
  | cons a l ih =>
    have hrest : ∀ {skip}, p ∈ literalMatches d (pos + 1) skip l →
        pos ≤ p ∧ p + d.length ≤ pos + (a :: l).length := fun h => by
      have := ih h
      rw [length_cons]
      omega
    cases skip with
    | succ skip => exact hrest h
    | zero =>
      rw [literalMatches] at h
      split_ifs at h with hpre
      · rcases mem_cons.mp h with rfl | h
        · exact ⟨le_rfl, Nat.add_le_add_left hpre.length_le p⟩
        · exact hrest h
      · exact hrest h

/-- A match is an occurrence. -/
theorem prefix_of_mem_literalMatches {pos skip p : ℕ} {l : List α}
    (h : p ∈ literalMatches d pos skip l) : d <+: l.drop (p - pos) := by
  induction l generalizing pos skip with
  | nil => simp [literalMatches] at h
  | cons a l ih =>
    have hrest : ∀ {skip}, p ∈ literalMatches d (pos + 1) skip l → d <+: (a :: l).drop (p - pos) :=
      fun h => by
        have hpos : p - pos = p - (pos + 1) + 1 := by
          have := (of_mem_literalMatches h).1
          omega
        rw [hpos, drop_succ_cons]
        exact ih h
    cases skip with
    | succ skip => exact hrest h
    | zero =>
      rw [literalMatches] at h
      split_ifs at h with hpre
      · rcases mem_cons.mp h with rfl | h
        · simpa using hpre
        · exact hrest h
      · exact hrest h

/-- The matches are reported in ascending order. -/
theorem literalMatches_sorted {pos skip : ℕ} {l : List α} :
    (literalMatches d pos skip l).Pairwise (· < ·) := by
  induction l generalizing pos skip with
  | nil => exact Pairwise.nil
  | cons a l ih =>
    cases skip with
    | succ skip => exact ih
    | zero =>
      rw [literalMatches]
      split_ifs with hpre
      · exact pairwise_cons.mpr ⟨fun p hp => (of_mem_literalMatches hp).1, ih⟩
      · exact ih

/-- Moving the text moves the matches. -/
theorem literalMatches_add (n pos skip : ℕ) (l : List α) :
    literalMatches d (pos + n) skip l = (literalMatches d pos skip l).map (· + n) := by
  induction l generalizing pos skip with
  | nil => rfl
  | cons a l ih =>
    have hpos : pos + n + 1 = pos + 1 + n := by omega
    cases skip with
    | succ skip => rw [literalMatches, literalMatches, hpos, ih]
    | zero =>
      rw [literalMatches, literalMatches]
      split_ifs with hpre
      · rw [map_cons, hpos, ih]
      · rw [hpos, ih]

/-- A text shorter than the literal has no match. -/
theorem literalMatches_of_length_lt {l : List α} (h : l.length < d.length) (pos skip : ℕ) :
    literalMatches d pos skip l = [] := by
  refine eq_nil_iff_forall_not_mem.mpr fun p hp => ?_
  have := of_mem_literalMatches hp
  omega

variable (d) in
/-- No occurrence of `d` in `l ++ m` crosses from `l` into `m`. -/
def NoCrossing (l m : List α) : Prop :=
  ∀ i < l.length, d <+: (l ++ m).drop i → i + d.length ≤ l.length

omit [DecidableEq α] in
theorem NoCrossing.tail {a : α} {l m : List α} (h : NoCrossing d (a :: l) m) :
    NoCrossing d l m := by
  intro i hi hpre
  have := h (i + 1) (by simpa using hi) hpre
  rw [length_cons] at this
  omega

omit [DecidableEq α] in
theorem NoCrossing.of_append {k l m : List α} (h : NoCrossing d (k ++ l) m) :
    NoCrossing d l m := by
  induction k with
  | nil => exact h
  | cons a k ih => exact ih h.tail

/-- **Searching the pieces is searching the whole** when no occurrence crosses
from one piece into the next. -/
theorem literalMatches_append {pos skip : ℕ} {l m : List α} (hskip : skip ≤ l.length)
    (hcross : NoCrossing d l m) :
    literalMatches d pos skip (l ++ m) =
      literalMatches d pos skip l ++ literalMatches d (pos + l.length) 0 m := by
  induction l generalizing pos skip with
  | nil =>
    obtain rfl : skip = 0 := by simpa using hskip
    rfl
  | cons a l ih =>
    have hpos : pos + (a :: l).length = pos + 1 + l.length := by
      rw [length_cons]
      omega
    rw [hpos]
    cases skip with
    | succ skip => exact ih (by simpa using hskip) hcross.tail
    | zero =>
      rw [cons_append, literalMatches, literalMatches, ← cons_append]
      -- `d` begins the whole if and only if it begins the piece, as it cannot cross
      have hiff : d <+: (a :: l) ++ m ↔ d <+: a :: l := by
        refine ⟨fun hpre => ?_, fun hpre => hpre.trans (prefix_append ..)⟩
        have hlen := hcross 0 (by simp) hpre
        exact prefix_of_prefix_length_le hpre (prefix_append ..) (by omega)
      by_cases hpre : d <+: a :: l
      · have hlen := hpre.length_le
        rw [length_cons] at hlen
        rw [if_pos (hiff.mpr hpre), if_pos hpre, ih (by omega) hcross.tail, cons_append]
      · rw [if_neg (mt hiff.mp hpre), if_neg hpre, ih (Nat.zero_le _) hcross.tail]

end List
