import Mathlib.Data.List.Nodup
import Mathlib.Data.Set.Finite.Basic

/-!
# Descents along children

A function that calls itself once for each child of a node descends the tree of
all paths from that node: a node that can be reached in two ways is descended
twice, and a cycle without end. Some nodes have a *key*, the thing that a call
works on, and a descent yields the keys of its calls in order
(`Descent.descend`). The recursion is given fuel; without enough of it there is
no result.

The main result is `Descent.descend_nodup_iff`: with finitely many keys, a descent
comes to an end and meets no key twice, exactly when no key lies at the end of two
different paths (`Descent.OneWay`). That it comes to an end then is a matter of
counting: along one path, too, no key is met twice.
-/

namespace Descent

variable {α κ : Type*}

/-! ### One after the other -/

/-- The keys of several descents in order, if each of them comes to an end. -/
def inOrder : List (Option (List κ)) → Option (List κ)
  | [] => some []
  | x :: xs => do
    let keys ← x
    let rest ← inOrder xs
    some (keys ++ rest)

@[simp] theorem inOrder_nil : inOrder ([] : List (Option (List κ))) = some [] := rfl

theorem inOrder_cons (x : Option (List κ)) (xs : List (Option (List κ))) :
    inOrder (x :: xs) = x.bind fun keys => (inOrder xs).map (keys ++ ·) := by
  cases x <;> cases h : inOrder xs <;> simp [inOrder, h]

theorem inOrder_append (xs ys : List (Option (List κ))) :
    inOrder (xs ++ ys) = (inOrder xs).bind fun keys => (inOrder ys).map (keys ++ ·) := by
  induction xs with
  | nil => simp
  | cons x xs ih =>
    rw [List.cons_append, inOrder_cons, inOrder_cons, ih]
    cases x <;> cases inOrder xs <;> cases inOrder ys <;> simp

theorem inOrder_eq_some {xs : List (Option (List κ))} {keys : List κ} :
    inOrder xs = some keys ↔ ∃ lists : List (List κ), xs = lists.map some ∧
      keys = lists.flatten := by
  induction xs generalizing keys with
  | nil =>
    simp only [inOrder_nil, Option.some.injEq]
    constructor
    · rintro rfl
      exact ⟨[], rfl, rfl⟩
    · rintro ⟨lists, hnil, rfl⟩
      rw [List.map_eq_nil_iff.mp hnil.symm, List.flatten_nil]
  | cons x xs ih =>
    rw [inOrder_cons]
    constructor
    · intro h
      obtain ⟨first, rfl, hrest⟩ := Option.bind_eq_some_iff.mp h
      obtain ⟨rest, hinOrder, rfl⟩ := Option.map_eq_some_iff.mp hrest
      obtain ⟨lists, rfl, rfl⟩ := ih.mp hinOrder
      exact ⟨first :: lists, rfl, rfl⟩
    · rintro ⟨lists, hlists, rfl⟩
      cases lists with
      | nil => simp at hlists
      | cons first lists =>
        obtain ⟨rfl, rfl⟩ := List.cons.inj hlists
        rw [ih.mpr ⟨lists, rfl, rfl⟩]
        rfl

/-- One descent without an end is enough for there to be no result. -/
theorem none_mem_of_inOrder {xs : List (Option (List κ))} (h : inOrder xs = none) :
    none ∈ xs := by
  induction xs with
  | nil => simp at h
  | cons x xs ih =>
    cases x with
    | none => exact List.mem_cons_self
    | some keys =>
      rw [inOrder_cons, Option.bind_some, Option.map_eq_none_iff] at h
      exact List.mem_cons_of_mem _ (ih h)

/-! ### Descents and paths -/

section Descend

variable (children : α → List α) (key : α → Option κ)

/-- The keys that a function meets which calls itself for each child. -/
def descend : ℕ → α → Option (List κ)
  | 0, _ => none
  | fuel + 1, a => (inOrder ((children a).map (descend fuel))).map ((key a).toList ++ ·)

/-- The node a path leads to: from each node on it, to the child of a number. -/
def walk : α → List ℕ → Option α
  | a, [] => some a
  | a, i :: w => (children a)[i]?.bind fun b => walk b w

/-- The key at the end of a path. -/
def keyAt (a : α) (w : List ℕ) : Option κ := (walk children a w).bind key

/-- **No key lies at the end of two paths.** -/
def OneWay (a : α) : Prop :=
  ∀ ⦃w w' : List ℕ⦄ ⦃k : κ⦄,
    keyAt children key a w = some k → keyAt children key a w' = some k → w = w'

end Descend

variable {children : α → List α} {key : α → Option κ}

theorem walk_append (a : α) (w w' : List ℕ) :
    walk children a (w ++ w') = (walk children a w).bind fun b => walk children b w' := by
  induction w generalizing a with
  | nil => rfl
  | cons i w ih =>
    rw [List.cons_append, walk, walk, Option.bind_assoc]
    congr 1
    funext b
    exact ih b

@[simp] theorem keyAt_nil (a : α) : keyAt children key a [] = key a := rfl

theorem keyAt_cons (a : α) (i : ℕ) (w : List ℕ) :
    keyAt children key a (i :: w) = (children a)[i]?.bind fun b => keyAt children key b w := by
  rw [keyAt, walk, Option.bind_assoc]
  rfl

/-- A descent that comes to an end is the descents of the children, each of which
comes to an end. -/
theorem descend_succ_eq_some {fuel : ℕ} {a : α} {keys : List κ}
    (h : descend children key (fuel + 1) a = some keys) :
    ∃ lists : List (List κ), keys = (key a).toList ++ lists.flatten ∧
      (∀ (i : ℕ) (b : α), (children a)[i]? = some b →
        ∃ list, lists[i]? = some list ∧ descend children key fuel b = some list) ∧
      ∀ (i : ℕ) (list : List κ), lists[i]? = some list →
        ∃ b, (children a)[i]? = some b ∧ descend children key fuel b = some list := by
  obtain ⟨rest, hrest, rfl⟩ := Option.map_eq_some_iff.mp h
  obtain ⟨lists, hlists, rfl⟩ := inOrder_eq_some.mp hrest
  have hget : ∀ i : ℕ, (children a)[i]?.map (descend children key fuel) = lists[i]?.map some := by
    intro i
    rw [← List.getElem?_map, ← List.getElem?_map, hlists]
  refine ⟨lists, rfl, fun i b hb => ?_, fun i list hlist => ?_⟩
  · have hi := hget i
    rw [hb, Option.map_some] at hi
    obtain ⟨list, hlist, hdescend⟩ := Option.map_eq_some_iff.mp hi.symm
    exact ⟨list, hlist, hdescend.symm⟩
  · have hi := hget i
    rw [hlist, Option.map_some] at hi
    exact Option.map_eq_some_iff.mp hi

/-- The keys below a node, if those of its children are known. -/
theorem mem_flatten_iff {fuel : ℕ} {a : α} {lists : List (List κ)}
    (hlist : ∀ (i : ℕ) (b : α), (children a)[i]? = some b →
      ∃ list, lists[i]? = some list ∧ descend children key fuel b = some list)
    (hchild : ∀ (i : ℕ) (list : List κ), lists[i]? = some list →
      ∃ b, (children a)[i]? = some b ∧ descend children key fuel b = some list)
    (hmem : ∀ {b : α} {list : List κ}, descend children key fuel b = some list →
      ∀ k, k ∈ list ↔ ∃ w, keyAt children key b w = some k) (k : κ) :
    k ∈ lists.flatten ↔ ∃ i w, keyAt children key a (i :: w) = some k := by
  rw [List.mem_flatten]
  constructor
  · rintro ⟨list, hin, hk⟩
    obtain ⟨i, hi⟩ := List.mem_iff_getElem?.mp hin
    obtain ⟨b, hb, hdescend⟩ := hchild i list hi
    obtain ⟨w, hw⟩ := (hmem hdescend k).mp hk
    exact ⟨i, w, by rw [keyAt_cons, hb, Option.bind_some, hw]⟩
  · rintro ⟨i, w, hw⟩
    rw [keyAt_cons] at hw
    obtain ⟨b, hb, hw⟩ := Option.bind_eq_some_iff.mp hw
    obtain ⟨list, hi, hdescend⟩ := hlist i b hb
    exact ⟨list, List.mem_of_getElem? hi, (hmem hdescend k).mpr ⟨w, hw⟩⟩

/-- **The keys of a descent** are those at the end of some path. -/
theorem mem_descend {fuel : ℕ} {a : α} {keys : List κ}
    (h : descend children key fuel a = some keys) (k : κ) :
    k ∈ keys ↔ ∃ w, keyAt children key a w = some k := by
  induction fuel generalizing a keys k with
  | zero => simp [descend] at h
  | succ fuel ih =>
    obtain ⟨lists, rfl, hlist, hchild⟩ := descend_succ_eq_some h
    rw [List.mem_append, Option.mem_toList, mem_flatten_iff hlist hchild ih]
    constructor
    · rintro (hkey | ⟨i, w, hw⟩)
      · exact ⟨[], hkey⟩
      · exact ⟨i :: w, hw⟩
    · rintro ⟨_ | ⟨i, w⟩, hw⟩
      · exact Or.inl hw
      · exact Or.inr ⟨i, w, hw⟩

/-- The paths from a node, child by child. -/
theorem oneWay_iff (a : α) :
    OneWay children key a ↔
      (∀ (i : ℕ) (w : List ℕ) (k : κ), key a = some k → keyAt children key a (i :: w) ≠ some k) ∧
      (∀ (i : ℕ) (b : α), (children a)[i]? = some b → OneWay children key b) ∧
      ∀ (i j : ℕ) (b c : α), i < j → (children a)[i]? = some b → (children a)[j]? = some c →
        ∀ w w' k, keyAt children key b w = some k → keyAt children key c w' ≠ some k := by
  constructor
  · intro h
    -- a path of a child goes on from the node itself
    have hcons : ∀ {i : ℕ} {b : α} {w : List ℕ} {k : κ}, (children a)[i]? = some b →
        keyAt children key b w = some k → keyAt children key a (i :: w) = some k := by
      intro i b w k hb hw
      rw [keyAt_cons, hb, Option.bind_some, hw]
    refine ⟨fun i w k hk hw => ?_, fun i b hb w w' k hw hw' => ?_, ?_⟩
    · have hnil : keyAt children key a [] = some k := hk
      exact absurd (h hnil hw) (List.cons_ne_nil i w).symm
    · exact (List.cons.inj (h (hcons hb hw) (hcons hb hw'))).2
    · intro i j b c hij hb hc w w' k hw hw'
      exact absurd (List.cons.inj (h (hcons hb hw) (hcons hc hw'))).1 hij.ne
  · rintro ⟨hself, hchild, hpair⟩ (_ | ⟨i, w⟩) (_ | ⟨j, w'⟩) k hw hw'
    · rfl
    · exact absurd hw' (hself j w' k hw)
    · exact absurd hw (hself i w k hw')
    · rw [keyAt_cons] at hw hw'
      obtain ⟨b, hb, hw⟩ := Option.bind_eq_some_iff.mp hw
      obtain ⟨c, hc, hw'⟩ := Option.bind_eq_some_iff.mp hw'
      rcases Nat.lt_trichotomy i j with hij | rfl | hij
      · exact absurd hw' (hpair i j b c hij hb hc w w' k hw)
      · obtain rfl := Option.some.inj (hb.symm.trans hc)
        rw [hchild i b hb hw hw']
      · exact absurd hw (hpair j i c b hij hc hb w' w k hw')

/-- **When a descent meets no key twice**, provided it comes to an end. -/
theorem nodup_iff {fuel : ℕ} {a : α} {keys : List κ}
    (h : descend children key fuel a = some keys) :
    keys.Nodup ↔ OneWay children key a := by
  induction fuel generalizing a keys with
  | zero => simp [descend] at h
  | succ fuel ih =>
    obtain ⟨lists, rfl, hlist, hchild⟩ := descend_succ_eq_some h
    have hbelow := mem_flatten_iff hlist hchild mem_descend
    rw [oneWay_iff, List.nodup_append, List.nodup_flatten]
    constructor
    · rintro ⟨-, ⟨hnodup, hpairwise⟩, hne⟩
      refine ⟨fun i w k hk hw => ?_, fun i b hb => ?_, ?_⟩
      · exact hne k (Option.mem_toList.mpr hk) k ((hbelow k).mpr ⟨i, w, hw⟩) rfl
      · obtain ⟨list, hi, hdescend⟩ := hlist i b hb
        exact (ih hdescend).mp (hnodup list (List.mem_of_getElem? hi))
      · intro i j b c hij hb hc w w' k hw hw'
        obtain ⟨list, hi, hdescend⟩ := hlist i b hb
        obtain ⟨list', hj, hdescend'⟩ := hlist j c hc
        obtain ⟨hlt, rfl⟩ := List.getElem?_eq_some_iff.mp hi
        obtain ⟨hlt', rfl⟩ := List.getElem?_eq_some_iff.mp hj
        exact List.pairwise_iff_getElem.mp hpairwise i j hlt hlt' hij
          ((mem_descend hdescend k).mpr ⟨w, hw⟩) ((mem_descend hdescend' k).mpr ⟨w', hw'⟩)
    · rintro ⟨hne, hone, hpair⟩
      refine ⟨?_, ⟨fun list hmem => ?_, ?_⟩, ?_⟩
      · cases key a <;> simp
      · obtain ⟨i, hi⟩ := List.mem_iff_getElem?.mp hmem
        obtain ⟨b, hb, hdescend⟩ := hchild i list hi
        exact (ih hdescend).mpr (hone i b hb)
      · refine List.pairwise_iff_getElem.mpr fun i j hi hj hij => ?_
        obtain ⟨b, hb, hdescend⟩ := hchild i _ (List.getElem?_eq_getElem hi)
        obtain ⟨c, hc, hdescend'⟩ := hchild j _ (List.getElem?_eq_getElem hj)
        intro k hk hk'
        obtain ⟨w, hw⟩ := (mem_descend hdescend k).mp hk
        obtain ⟨w', hw'⟩ := (mem_descend hdescend' k).mp hk'
        exact hpair i j b c hij hb hc w w' k hw hw'
      · rintro k hk k' hk' rfl
        obtain ⟨i, w, hw⟩ := (hbelow k).mp hk'
        exact hne i w k (Option.mem_toList.mp hk) hw

/-! ### Coming to an end -/

/-- Without enough fuel, there is a path as long as the fuel. -/
theorem exists_walk {fuel : ℕ} {a : α} (h : descend children key fuel a = none) :
    ∃ w b, w.length = fuel ∧ walk children a w = some b := by
  induction fuel generalizing a with
  | zero => exact ⟨[], a, rfl, rfl⟩
  | succ fuel ih =>
    rw [descend, Option.map_eq_none_iff] at h
    obtain ⟨b, hb, hdescend⟩ := List.mem_map.mp (none_mem_of_inOrder h)
    obtain ⟨i, hi⟩ := List.mem_iff_getElem?.mp hb
    obtain ⟨w, c, hlength, hw⟩ := ih hdescend
    exact ⟨i :: w, c, by rw [List.length_cons, hlength], by rw [walk, hi, Option.bind_some, hw]⟩

/-- A path that goes on leads to a key, if nodes without one have no children. -/
theorem exists_key (hleaf : ∀ a, key a = none → children a = []) {a b : α} {w w' : List ℕ}
    (h : walk children a (w ++ w') = some b) (hne : w' ≠ []) :
    ∃ k, keyAt children key a w = some k := by
  rw [walk_append] at h
  obtain ⟨c, hc, hrest⟩ := Option.bind_eq_some_iff.mp h
  cases hkey : key c with
  | some k => exact ⟨k, by rw [keyAt, hc, Option.bind_some, hkey]⟩
  | none =>
    obtain ⟨i, w', rfl⟩ := List.exists_cons_of_ne_nil hne
    rw [walk, hleaf c hkey] at hrest
    simp at hrest

/-- **A descent comes to an end** if no key lies at the end of two paths: the keys
along one path are all different. -/
theorem exists_descend (hfinite : (Set.range key).Finite)
    (hleaf : ∀ a, key a = none → children a = []) {a : α} (h : OneWay children key a) :
    ∃ fuel keys, descend children key fuel a = some keys := by
  let fuel := hfinite.toFinset.card + 1
  cases hdescend : descend children key fuel a with
  | some keys => exact ⟨fuel, keys, hdescend⟩
  | none =>
    obtain ⟨w, b, hlength, hw⟩ := exists_walk hdescend
    have hkey : ∀ i, i < fuel → ∃ k, keyAt children key a (w.take i) = some k := by
      intro i hi
      have hwalk : walk children a (w.take i ++ w.drop i) = some b := by
        rwa [List.take_append_drop]
      refine exists_key hleaf hwalk ?_
      rw [ne_eq, List.drop_eq_nil_iff, hlength, not_le]
      exact hi
    have hmem : Set.MapsTo (fun i => keyAt children key a (w.take i)) (Finset.range fuel)
        hfinite.toFinset := by
      intro i hi
      obtain ⟨k, hk⟩ := hkey i (Finset.mem_range.mp hi)
      obtain ⟨c, -, hc⟩ := Option.bind_eq_some_iff.mp hk
      exact (Set.Finite.mem_toFinset hfinite).mpr ⟨c, hc.trans hk.symm⟩
    have hinj : Set.InjOn (fun i => keyAt children key a (w.take i)) (Finset.range fuel) := by
      intro i hi j hj hij
      obtain ⟨k, hk⟩ := hkey i (Finset.mem_range.mp hi)
      have htake := congrArg List.length (h hk (hij.symm.trans hk))
      rw [List.length_take, List.length_take, hlength] at htake
      have hi' := Finset.mem_range.mp hi
      have hj' := Finset.mem_range.mp hj
      omega
    have hcard := Finset.card_le_card_of_injOn _ hmem hinj
    rw [Finset.card_range] at hcard
    exact absurd hcard (by omega)

/-- **When a descent comes to an end and meets no key twice.** -/
theorem descend_nodup_iff (hfinite : (Set.range key).Finite)
    (hleaf : ∀ a, key a = none → children a = []) (a : α) :
    (∃ (fuel : ℕ) (keys : List κ), descend children key fuel a = some keys ∧ keys.Nodup) ↔
      OneWay children key a := by
  constructor
  · rintro ⟨fuel, keys, hdescend, hnodup⟩
    exact (nodup_iff hdescend).mp hnodup
  · intro h
    obtain ⟨fuel, keys, hdescend⟩ := exists_descend hfinite hleaf h
    exact ⟨fuel, keys, hdescend, (nodup_iff hdescend).mpr h⟩

end Descent
