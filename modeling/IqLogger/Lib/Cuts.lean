import Mathlib.Data.List.Basic
import Mathlib.Data.List.Sort

/-!
# A list cut at offsets

The pieces of a list between consecutive offsets (`List.cutFrom`), the
non-empty ones among them (`List.segments`), and what is left after the last
offset (`List.afterCuts`).

The algebra is that of a stream: a list grows at its end and is cut further on.
Growing it changes no piece (`List.cutFrom_append_left`), cutting further on adds
pieces after the ones there are (`List.cutFrom_append`), and the pieces of a
suffix are those of the list at shifted offsets (`List.cutFrom_map_add`).

Empty pieces being dropped, the segments depend only on the *set* of positive
offsets, and they determine it: the offsets are the ends of the segments
(`List.mem_ends_segments`), so two ways of cutting give the same segments
exactly when they have the same positive offsets (`List.segments_eq_iff`).
-/

namespace List

variable {α : Type*}

/-! ### Pieces -/

/-- The pieces of a list from the offset `o` on, cut at the offsets of a list in
ascending order. -/
def cutFrom (l : List α) : ℕ → List ℕ → List (List α)
  | _, [] => []
  | o, c :: cs => (l.take c).drop o :: cutFrom l c cs

/-- The last of a list of cuts, or `o` if there is none. -/
def lastCut (o : ℕ) (cs : List ℕ) : ℕ := cs.getLast?.getD o

@[simp] theorem lastCut_nil (o : ℕ) : lastCut o [] = o := rfl

@[simp] theorem lastCut_cons (o c : ℕ) (cs : List ℕ) : lastCut o (c :: cs) = lastCut c cs := by
  cases cs <;> simp [lastCut, getLast?_cons]

theorem lastCut_append (o : ℕ) (cs ds : List ℕ) :
    lastCut o (cs ++ ds) = lastCut (lastCut o cs) ds := by
  induction cs generalizing o with
  | nil => rfl
  | cons c cs ih => simp [ih]

theorem lastCut_mem (o : ℕ) (cs : List ℕ) : lastCut o cs = o ∨ lastCut o cs ∈ cs := by
  induction cs generalizing o with
  | nil => exact Or.inl rfl
  | cons c cs ih =>
    rw [lastCut_cons, mem_cons]
    exact Or.inr (ih c)

theorem lastCut_map_add (o n : ℕ) (cs : List ℕ) :
    lastCut (o + n) (cs.map (· + n)) = lastCut o cs + n := by
  induction cs generalizing o with
  | nil => rfl
  | cons c cs ih => simp [ih]

theorem lastCut_le {l : List α} {cs : List ℕ} (h : ∀ c ∈ cs, c ≤ l.length) :
    lastCut 0 cs ≤ l.length := by
  rcases lastCut_mem 0 cs with hzero | hmem
  · omega
  · exact h _ hmem

/-- Cutting further on adds pieces. -/
theorem cutFrom_append (l : List α) (o : ℕ) (cs ds : List ℕ) :
    cutFrom l o (cs ++ ds) = cutFrom l o cs ++ cutFrom l (lastCut o cs) ds := by
  induction cs generalizing o with
  | nil => rfl
  | cons c cs ih => simp [cutFrom, ih]

/-- Growing the list changes no piece. -/
theorem cutFrom_append_left (l m : List α) (o : ℕ) (cs : List ℕ) (h : ∀ c ∈ cs, c ≤ l.length) :
    cutFrom (l ++ m) o cs = cutFrom l o cs := by
  induction cs generalizing o with
  | nil => rfl
  | cons c cs ih =>
    rw [cutFrom, cutFrom, take_append_of_le_length (h c (by simp)),
      ih c fun d hd => h d (mem_cons_of_mem _ hd)]

/-- The pieces of a suffix. -/
theorem cutFrom_map_add (l m : List α) (o : ℕ) (cs : List ℕ) :
    cutFrom (l ++ m) (o + l.length) (cs.map (· + l.length)) = cutFrom m o cs := by
  induction cs generalizing o with
  | nil => rfl
  | cons c cs ih =>
    rw [map_cons, cutFrom, cutFrom, ih, Nat.add_comm c, take_length_add_append, Nat.add_comm o,
      drop_length_add_append]

/-! ### Segments -/

/-- The non-empty pieces of a list cut at the given offsets, in order. -/
def segments (l : List α) (cs : List ℕ) : List (List α) :=
  (cutFrom l 0 cs).filter fun w => w ≠ []

/-- What is left of a list after the last cut. -/
def afterCuts (l : List α) (cs : List ℕ) : List α := l.drop (lastCut 0 cs)

theorem ne_nil_of_mem_segments {l w : List α} {cs : List ℕ} (h : w ∈ segments l cs) : w ≠ [] := by
  simpa using (mem_filter.mp h).2

/-- Further cuts of a longer list, seen from the last cut so far. -/
theorem map_add_length (l : List α) {a : ℕ} (ha : a ≤ l.length) (ps : List ℕ) :
    ps.map (· + l.length) =
      (ps.map (· + (l.drop a).length)).map (· + (l.take a).length) := by
  rw [map_map]
  refine map_congr_left fun p _ => ?_
  simp only [Function.comp_apply, length_drop, length_take]
  omega

/-- **Cutting further on**: when a list grows at its end and is cut in the new
part, the new segments are those of what followed the last cut and the new
part. -/
theorem segments_append (l m : List α) {cs : List ℕ} (hle : ∀ c ∈ cs, c ≤ l.length)
    (ps : List ℕ) :
    segments (l ++ m) (cs ++ ps.map (· + l.length)) =
      segments l cs ++ segments (afterCuts l cs ++ m) (ps.map (· + (afterCuts l cs).length)) := by
  have ha := lastCut_le hle
  have hlen : 0 + (l.take (lastCut 0 cs)).length = lastCut 0 cs := by
    rw [length_take]
    omega
  have hcut := cutFrom_map_add (l.take (lastCut 0 cs)) (l.drop (lastCut 0 cs) ++ m) 0
    (ps.map (· + (l.drop (lastCut 0 cs)).length))
  rw [← append_assoc, take_append_drop, ← map_add_length l ha, hlen] at hcut
  rw [segments, cutFrom_append, filter_append, cutFrom_append_left l m 0 cs hle, hcut]
  rfl

/-- What follows the last cut, when a list grows and is cut in the new part. -/
theorem afterCuts_append (l m : List α) {cs : List ℕ} (hle : ∀ c ∈ cs, c ≤ l.length)
    (ps : List ℕ) :
    afterCuts (l ++ m) (cs ++ ps.map (· + l.length)) =
      afterCuts (afterCuts l cs ++ m) (ps.map (· + (afterCuts l cs).length)) := by
  have ha := lastCut_le hle
  have hlen : 0 + (l.take (lastCut 0 cs)).length = lastCut 0 cs := by
    rw [length_take]
    omega
  have hlast := lastCut_map_add 0 (l.take (lastCut 0 cs)).length
    (ps.map (· + (l.drop (lastCut 0 cs)).length))
  rw [← map_add_length l ha, hlen] at hlast
  have happ : l ++ m = l.take (lastCut 0 cs) ++ (afterCuts l cs ++ m) := by
    rw [← append_assoc, afterCuts, take_append_drop]
  rw [afterCuts, lastCut_append, hlast, happ, Nat.add_comm, drop_length_add_append]
  rfl

/-- The offsets at which the members of a list of lists end, counted from `o`. -/
def ends : ℕ → List (List α) → List ℕ
  | _, [] => []
  | o, w :: ws => (o + w.length) :: ends (o + w.length) ws

/-- The offsets at which non-empty lists end strictly increase. -/
theorem pairwise_ends {o : ℕ} {ws : List (List α)} (h : ∀ w ∈ ws, w ≠ []) :
    (o :: ends o ws).Pairwise (· < ·) := by
  induction ws generalizing o with
  | nil => simp [ends]
  | cons w ws ih =>
    have hw : 0 < w.length := length_pos_iff.mpr (h w (by simp))
    have hws := ih (o := o + w.length) fun v hv => h v (mem_cons_of_mem _ hv)
    refine pairwise_cons.mpr ⟨fun e he => ?_, hws⟩
    rcases mem_cons.mp he with rfl | he
    · omega
    · have := (pairwise_cons.mp hws).1 e he
      omega

section Sorted

variable {l : List α} {o : ℕ} {cs : List ℕ}

/-- The piece up to the next cut, and whether it is empty. -/
theorem drop_take_eq_nil_iff {c : ℕ} (ho : o ≤ c) (hc : c ≤ l.length) :
    (l.take c).drop o = [] ↔ o = c := by
  rw [drop_eq_nil_iff, length_take, min_eq_left hc]
  omega

/-- Strictly increasing cuts leave no empty piece. -/
theorem ne_nil_of_mem_cutFrom {w : List α} (hsort : (o :: cs).Pairwise (· < ·))
    (hle : ∀ c ∈ cs, c ≤ l.length) (hw : w ∈ cutFrom l o cs) : w ≠ [] := by
  induction cs generalizing o with
  | nil => simp [cutFrom] at hw
  | cons c cs ih =>
    obtain ⟨ho, hcs⟩ := pairwise_cons.mp hsort
    have hoc : o < c := ho c (by simp)
    rcases mem_cons.mp hw with rfl | hw
    · exact fun h => hoc.ne ((drop_take_eq_nil_iff hoc.le (hle c (by simp))).mp h)
    · exact ih hcs (fun d hd => hle d (mem_cons_of_mem _ hd)) hw

/-- The pieces, and what follows the last cut, make up the list. -/
theorem flatten_cutFrom_append_drop (hsort : (o :: cs).Pairwise (· ≤ ·)) :
    (cutFrom l o cs).flatten ++ l.drop (lastCut o cs) = l.drop o := by
  induction cs generalizing o with
  | nil => rfl
  | cons c cs ih =>
    obtain ⟨ho, hcs⟩ := pairwise_cons.mp hsort
    have hoc : o ≤ c := ho c (by simp)
    rw [cutFrom, flatten_cons, lastCut_cons, append_assoc, ih hcs]
    calc (l.take c).drop o ++ l.drop c
        = (l.drop o).take (c - o) ++ (l.drop o).drop (c - o) := by
          rw [drop_take, drop_drop, Nat.add_sub_cancel' hoc]
      _ = l.drop o := take_append_drop ..

/-- **Nothing is lost**: the segments, and what follows the last cut, make up the
list. -/
theorem flatten_segments_append_afterCuts (hsort : cs.Pairwise (· ≤ ·)) :
    (segments l cs).flatten ++ afterCuts l cs = l := by
  rw [segments, afterCuts, flatten_filter_ne_nil,
    flatten_cutFrom_append_drop (pairwise_cons.mpr ⟨fun _ _ => Nat.zero_le _, hsort⟩), drop_zero]

/-- **The ends of the non-empty pieces are the offsets**, apart from those where
nothing lies between two cuts. -/
theorem mem_ends_cutFrom {e : ℕ} (hsort : (o :: cs).Pairwise (· ≤ ·))
    (hle : ∀ c ∈ cs, c ≤ l.length) :
    e ∈ ends o ((cutFrom l o cs).filter fun w => w ≠ []) ↔ e ∈ cs ∧ o < e := by
  induction cs generalizing o with
  | nil => simp [cutFrom, ends]
  | cons c cs ih =>
    obtain ⟨ho, hcs⟩ := pairwise_cons.mp hsort
    have hoc : o ≤ c := ho c (by simp)
    have hc : c ≤ l.length := hle c (by simp)
    have ih := ih hcs fun d hd => hle d (mem_cons_of_mem _ hd)
    rw [cutFrom]
    by_cases heq : o = c
    · have hnil := (drop_take_eq_nil_iff hoc hc).mpr heq
      rw [filter_cons_of_neg (by rw [hnil]; simp), heq, ih, mem_cons]
      exact and_congr_left fun hlt => ⟨Or.inr, fun h => h.resolve_left (by omega)⟩
    · have hne := mt (drop_take_eq_nil_iff hoc hc).mp heq
      have hlen : o + ((l.take c).drop o).length = c := by
        rw [length_drop, length_take]
        omega
      rw [filter_cons_of_pos (by simpa using hne), ends, hlen, mem_cons, ih, mem_cons]
      constructor
      · rintro (rfl | ⟨he, hlt⟩)
        · exact ⟨Or.inl rfl, by omega⟩
        · exact ⟨Or.inr he, by omega⟩
      · rintro ⟨rfl | he, hlt⟩
        · exact Or.inl rfl
        · by_cases hec : e = c
          · exact Or.inl hec
          · have := (pairwise_cons.mp hcs).1 e he
            exact Or.inr ⟨he, by omega⟩

/-- **The non-empty pieces are the pieces between their own ends.** -/
theorem cutFrom_ends (hsort : (o :: cs).Pairwise (· ≤ ·)) (hle : ∀ c ∈ cs, c ≤ l.length) :
    cutFrom l o (ends o ((cutFrom l o cs).filter fun w => w ≠ [])) =
      (cutFrom l o cs).filter fun w => w ≠ [] := by
  induction cs generalizing o with
  | nil => rfl
  | cons c cs ih =>
    obtain ⟨ho, hcs⟩ := pairwise_cons.mp hsort
    have hoc : o ≤ c := ho c (by simp)
    have hc : c ≤ l.length := hle c (by simp)
    have ih := ih hcs fun d hd => hle d (mem_cons_of_mem _ hd)
    rw [cutFrom]
    by_cases heq : o = c
    · have hnil := (drop_take_eq_nil_iff hoc hc).mpr heq
      rw [filter_cons_of_neg (by rw [hnil]; simp), heq, ih]
    · have hne := mt (drop_take_eq_nil_iff hoc hc).mp heq
      have hlen : o + ((l.take c).drop o).length = c := by
        rw [length_drop, length_take]
        omega
      rw [filter_cons_of_pos (by simpa using hne), ends, hlen, cutFrom, ih]

end Sorted

/-- **Two ways of cutting a list give the same segments exactly when they have
the same positive offsets.** -/
theorem segments_eq_iff {l : List α} {cs ds : List ℕ} (hcs : cs.Pairwise (· ≤ ·))
    (hds : ds.Pairwise (· ≤ ·)) (hcl : ∀ c ∈ cs, c ≤ l.length) (hdl : ∀ d ∈ ds, d ≤ l.length) :
    segments l cs = segments l ds ↔ ∀ e, 0 < e → (e ∈ cs ↔ e ∈ ds) := by
  have hcs' : (0 :: cs).Pairwise (· ≤ ·) := pairwise_cons.mpr ⟨fun _ _ => Nat.zero_le _, hcs⟩
  have hds' : (0 :: ds).Pairwise (· ≤ ·) := pairwise_cons.mpr ⟨fun _ _ => Nat.zero_le _, hds⟩
  constructor
  · intro heq e he
    have h := mem_ends_cutFrom (e := e) hcs' hcl
    rw [← segments, heq, segments, mem_ends_cutFrom hds' hdl] at h
    simpa [he] using h.symm
  · intro hmem
    have hsorted : ∀ {bs : List ℕ}, (ends 0 (segments l bs)).Pairwise (· < ·) := fun {bs} =>
      (pairwise_cons.mp (pairwise_ends (o := 0) fun w hw => by simpa using (mem_filter.mp hw).2)).2
    have hperm : (ends 0 (segments l cs)).Perm (ends 0 (segments l ds)) := by
      refine (perm_ext_iff_of_nodup (hsorted.imp ne_of_lt) (hsorted.imp ne_of_lt)).mpr fun e => ?_
      rw [segments, segments, mem_ends_cutFrom hcs' hcl, mem_ends_cutFrom hds' hdl]
      exact and_congr_left (hmem e)
    have hends : ends 0 (segments l cs) = ends 0 (segments l ds) :=
      hperm.eq_of_pairwise (fun _ _ _ _ h h' => absurd h' h.not_gt) hsorted hsorted
    rw [segments, segments] at hends ⊢
    rw [← cutFrom_ends hcs' hcl, ← cutFrom_ends hds' hdl, hends]

end List
