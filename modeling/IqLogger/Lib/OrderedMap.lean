import Mathlib.Data.List.Sort
import Mathlib.Data.List.Range
import Mathlib.Data.Finset.Card

/-!
# Ordered maps

A map over a linear order, as the list of its entries in ascending key order.
The order is a field (`OrderedMap.sorted`), so a map with two entries under one
key, or with its entries out of order, cannot be built; what a lookup needs to
know is then membership of a pair in the list
(`OrderedMap.mem_set`), and what an iteration needs to know is that a map is
determined by its pairs (`OrderedMap.values_eq_of_mem_iff`).

The keys of a map are distinct, so a map whose keys are numbers below `n` is
full exactly when it has `n` entries: the pigeonhole principle, in the two
directions `OrderedMap.mem_of_nodup_of_length` and
`OrderedMap.le_length_of_forall_mem`.
-/

/-- A map over a linear order: its entries, in ascending key order. -/
structure OrderedMap (κ ν : Type*) [LinearOrder κ] where
  /-- The entries, in ascending key order. -/
  entries : List (κ × ν)
  /-- The keys strictly increase. -/
  sorted : entries.Pairwise (fun e e' => e.1 < e'.1)

namespace OrderedMap

variable {κ ν : Type*} [LinearOrder κ]

instance [DecidableEq ν] : DecidableEq (OrderedMap κ ν) := fun m m' =>
  decidable_of_iff (m.entries = m'.entries)
    ⟨fun h => by cases m; cases m'; simpa using h, fun h => h ▸ rfl⟩

/-- The map without entries. -/
def empty : OrderedMap κ ν := ⟨[], List.Pairwise.nil⟩

/-- The keys, ascending. -/
def keys (m : OrderedMap κ ν) : List κ := m.entries.map Prod.fst

/-- The values, in the order of their keys. -/
def values (m : OrderedMap κ ν) : List ν := m.entries.map Prod.snd

/-- The number of entries. -/
def size (m : OrderedMap κ ν) : ℕ := m.entries.length

/-! ### Writing under a key -/

/-- The entries after writing `v` under `k`: the entry of `k` is replaced, or a
new one goes to its place in the order. -/
def setEntry (k : κ) (v : ν) : List (κ × ν) → List (κ × ν)
  | [] => [(k, v)]
  | e :: l => if k < e.1 then (k, v) :: e :: l
      else if k = e.1 then (k, v) :: l
      else e :: setEntry k v l

theorem mem_setEntry {k : κ} {v : ν} : ∀ {l : List (κ × ν)} {e : κ × ν},
    l.Pairwise (fun e e' => e.1 < e'.1) →
    (e ∈ setEntry k v l ↔ e = (k, v) ∨ (e.1 ≠ k ∧ e ∈ l))
  | [], e, _ => by simp [setEntry]
  | d :: l, e, hl => by
    obtain ⟨hd, hl⟩ := List.pairwise_cons.mp hl
    rw [setEntry]
    split_ifs with hlt heq
    · have hne : ∀ e ∈ d :: l, e.1 ≠ k := by
        intro e he
        rcases List.mem_cons.mp he with rfl | he
        · exact hlt.ne'
        · exact (hlt.trans (hd e he)).ne'
      rw [List.mem_cons]
      exact or_congr_right ⟨fun he => ⟨hne e he, he⟩, And.right⟩
    · have hne : ∀ e ∈ l, e.1 ≠ k := fun e he => heq ▸ (hd e he).ne'
      rw [List.mem_cons, List.mem_cons]
      refine or_congr_right ⟨fun he => ⟨hne e he, Or.inr he⟩, ?_⟩
      rintro ⟨hk, rfl | he⟩
      · exact absurd heq.symm hk
      · exact he
    · rw [List.mem_cons, List.mem_cons, mem_setEntry hl]
      constructor
      · rintro (rfl | rfl | ⟨hk, he⟩)
        · exact Or.inr ⟨fun h => heq h.symm, Or.inl rfl⟩
        · exact Or.inl rfl
        · exact Or.inr ⟨hk, Or.inr he⟩
      · rintro (rfl | ⟨hk, rfl | he⟩)
        · exact Or.inr (Or.inl rfl)
        · exact Or.inl rfl
        · exact Or.inr (Or.inr ⟨hk, he⟩)

theorem sorted_setEntry {k : κ} {v : ν} : ∀ {l : List (κ × ν)},
    l.Pairwise (fun e e' => e.1 < e'.1) →
    (setEntry k v l).Pairwise (fun e e' => e.1 < e'.1)
  | [], _ => by simp [setEntry]
  | d :: l, hl => by
    obtain ⟨hd, hl'⟩ := List.pairwise_cons.mp hl
    rw [setEntry]
    split_ifs with hlt heq
    · refine List.pairwise_cons.mpr ⟨fun e he => ?_, hl⟩
      rcases List.mem_cons.mp he with rfl | he
      · exact hlt
      · exact hlt.trans (hd e he)
    · exact List.pairwise_cons.mpr ⟨fun e he => heq ▸ hd e he, hl'⟩
    · refine List.pairwise_cons.mpr ⟨fun e he => ?_, sorted_setEntry hl'⟩
      rcases (mem_setEntry hl').mp he with rfl | ⟨-, he⟩
      · exact lt_of_le_of_ne (not_lt.mp hlt) fun h => heq h.symm
      · exact hd e he

/-- The map after writing `v` under `k`. -/
def set (m : OrderedMap κ ν) (k : κ) (v : ν) : OrderedMap κ ν :=
  ⟨setEntry k v m.entries, sorted_setEntry m.sorted⟩

/-- **Writing under a key changes that key only.** -/
@[simp] theorem mem_set {m : OrderedMap κ ν} {k : κ} {v : ν} {e : κ × ν} :
    e ∈ (m.set k v).entries ↔ e = (k, v) ∨ (e.1 ≠ k ∧ e ∈ m.entries) :=
  mem_setEntry m.sorted

@[simp] theorem notMem_empty (e : κ × ν) : e ∉ (empty : OrderedMap κ ν).entries := by
  simp [empty]

/-! ### What the entries determine -/

/-- The values of a map, listed in any way with strictly increasing keys: two
such lists with the same members are the same. -/
theorem values_eq_of_mem_iff (key : ν → κ) {m : OrderedMap κ ν} {l : List ν}
    (hkey : ∀ e ∈ m.entries, e.1 = key e.2) (hl : l.Pairwise (fun v v' => key v < key v'))
    (hmem : ∀ v, (∃ k, (k, v) ∈ m.entries) ↔ v ∈ l) : m.values = l := by
  have hsort : m.values.Pairwise (fun v v' => key v < key v') := by
    refine List.pairwise_map.mpr (m.sorted.imp_of_mem fun he he' h => ?_)
    rwa [← hkey _ he, ← hkey _ he']
  have hnodup : ∀ {l : List ν}, l.Pairwise (fun v v' => key v < key v') → l.Nodup :=
    fun h => h.imp fun h hc => h.ne (congrArg key hc)
  have hperm : m.values.Perm l := by
    refine (List.perm_ext_iff_of_nodup (hnodup hsort) (hnodup hl)).mpr fun v => ?_
    rw [← hmem v]
    simp [values]
  exact hperm.eq_of_pairwise (fun v v' _ _ h h' => absurd h' h.not_gt) hsort hl

@[simp] theorem length_values (m : OrderedMap κ ν) : m.values.length = m.size := by
  simp [values, size]

/-- **The pigeonhole principle for a completeness test by counting**: as many
different numbers as a bound on them are all the numbers below the bound. -/
theorem mem_of_nodup_of_length {l : List ℕ} {n : ℕ} (hnodup : l.Nodup) (hlt : ∀ k ∈ l, k < n)
    (hlen : n ≤ l.length) {k : ℕ} (hk : k < n) : k ∈ l := by
  have hsub : l.toFinset ⊆ Finset.range n := fun j hj =>
    Finset.mem_range.mpr (hlt j (List.mem_toFinset.mp hj))
  have hcard : (Finset.range n).card ≤ l.toFinset.card := by
    rwa [List.toFinset_card_of_nodup hnodup, Finset.card_range]
  have heq := Finset.eq_of_subset_of_card_le hsub hcard
  exact List.mem_toFinset.mp (heq ▸ Finset.mem_range.mpr hk)

theorem keys_nodup (m : OrderedMap κ ν) : m.keys.Nodup :=
  (List.pairwise_map.mpr m.sorted).imp fun h => h.ne

/-- **A map with as many entries as the bound on its keys** has all keys below
the bound, in order. -/
theorem keys_eq_range (m : OrderedMap ℕ ν) {n : ℕ} (hfull : m.size = n)
    (hlt : ∀ k ∈ m.keys, k < n) : m.keys = List.range n := by
  have hlen : n ≤ m.keys.length := by
    rw [keys, List.length_map]
    exact hfull.ge
  have hperm : m.keys.Perm (List.range n) := by
    refine (List.perm_ext_iff_of_nodup m.keys_nodup List.nodup_range).mpr fun k => ?_
    rw [List.mem_range]
    exact ⟨hlt k, mem_of_nodup_of_length m.keys_nodup hlt hlen⟩
  exact hperm.eq_of_pairwise (fun _ _ _ _ h h' => absurd h' h.not_gt)
    (List.pairwise_map.mpr m.sorted) List.pairwise_lt_range

/-- Conversely, a list with every number below a bound is at least that long. -/
theorem le_length_of_forall_mem {l : List ℕ} {n : ℕ} (h : ∀ k < n, k ∈ l) : n ≤ l.length := by
  have hsub : Finset.range n ⊆ l.toFinset := fun k hk =>
    List.mem_toFinset.mpr (h k (Finset.mem_range.mp hk))
  have hcard := Finset.card_le_card hsub
  rw [Finset.card_range] at hcard
  exact hcard.trans (List.toFinset_card_le l)

end OrderedMap
