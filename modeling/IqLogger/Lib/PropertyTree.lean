import Mathlib.Data.List.Infix
import Mathlib.Data.List.Nodup
import Mathlib.Data.List.Perm.Basic

/-!
# Property trees

A tree whose nodes hold data and have an ordered list of children under keys. A node is
found at the path of keys that leads to it (`Ptree.get?`), and its data there is
`Ptree.value`.

`Ptree.nodes` lists the nodes of a tree with their paths, in the order of a walk. Where
siblings have different keys (`Ptree.Distinct`) these are exactly the nodes that are found
(`Ptree.mem_nodes_iff`), each once (`Ptree.nodup_nodes`).

`Ptree.IsPut` says of an operation what a `put` does: the node at the path gets the
data and is created with all its missing parents if it does not exist; nothing else
changes. `Ptree.put` does it.
-/

/-- A node, and what is below it. -/
inductive Ptree (κ δ : Type*)
  | node (data : δ) (children : List (κ × Ptree κ δ))

namespace Ptree

variable {κ δ : Type*}

/-- The data of a node. -/
def data : Ptree κ δ → δ
  | .node data _ => data

/-- The children of a node. -/
def children : Ptree κ δ → List (κ × Ptree κ δ)
  | .node _ children => children

/-- **The induction over a tree**: what holds of a node if it holds of its children holds of
all of them. -/
@[elab_as_elim]
theorem ind {motive : Ptree κ δ → Prop}
    (h : ∀ d cs, (∀ k c, (k, c) ∈ cs → motive c) → motive (.node d cs)) : ∀ t, motive t
  | .node d cs => h d cs fun k c hmem => by
    have hlt := List.sizeOf_lt_of_mem hmem
    have hpair : sizeOf (k, c) = 1 + sizeOf k + sizeOf c := rfl
    exact ind h c
termination_by t => sizeOf t
decreasing_by
  simp only [Ptree.node.sizeOf_spec]
  omega

/-! ### The nodes of a tree -/

mutual

/-- The nodes of a tree, each with the path to it. -/
def nodes : Ptree κ δ → List (List κ × Ptree κ δ)
  | .node d cs => ([], .node d cs) :: nodesOf cs

/-- The nodes below some children. -/
def nodesOf : List (κ × Ptree κ δ) → List (List κ × Ptree κ δ)
  | [] => []
  | (k, c) :: rest => (nodes c).map (fun x => (k :: x.1, x.2)) ++ nodesOf rest

end

theorem nodes_eq (t : Ptree κ δ) : nodes t = ([], t) :: nodesOf t.children := by
  cases t
  rfl

theorem nodesOf_eq (cs : List (κ × Ptree κ δ)) :
    nodesOf cs = cs.flatMap fun kc => (nodes kc.2).map fun x => (kc.1 :: x.1, x.2) := by
  induction cs with
  | nil => rfl
  | cons kc cs ih =>
    obtain ⟨k, c⟩ := kc
    rw [nodesOf, ih, List.flatMap_cons]

theorem mem_nodesOf {cs : List (κ × Ptree κ δ)} {q : List κ} {n : Ptree κ δ} :
    (q, n) ∈ nodesOf cs ↔ ∃ k c r, (k, c) ∈ cs ∧ q = k :: r ∧ (r, n) ∈ nodes c := by
  rw [nodesOf_eq, List.mem_flatMap]
  constructor
  · rintro ⟨⟨k, c⟩, hmem, hq⟩
    obtain ⟨⟨r, m⟩, hr, heq⟩ := List.mem_map.mp hq
    obtain ⟨rfl, rfl⟩ := Prod.mk.inj heq
    exact ⟨k, c, r, hmem, rfl, hr⟩
  · rintro ⟨k, c, r, hmem, rfl, hr⟩
    exact ⟨(k, c), hmem, List.mem_map.mpr ⟨(r, n), hr, rfl⟩⟩

section Paths

variable [DecidableEq κ]

/-- The node at a path: the first child under each key is followed. -/
def get? : Ptree κ δ → List κ → Option (Ptree κ δ)
  | t, [] => some t
  | t, k :: ks => (t.children.lookup k).bind fun c => c.get? ks

/-- The data of the node at a path. -/
def value (t : Ptree κ δ) (q : List κ) : Option δ := (t.get? q).map data

@[simp] theorem get?_nil (t : Ptree κ δ) : t.get? [] = some t := by rw [get?]

theorem get?_cons (t : Ptree κ δ) (k : κ) (ks : List κ) :
    t.get? (k :: ks) = (t.children.lookup k).bind fun c => c.get? ks := by rw [get?]

@[simp] theorem value_nil (t : Ptree κ δ) : t.value [] = some t.data := by simp [value]

theorem value_cons (t : Ptree κ δ) (k : κ) (ks : List κ) :
    t.value (k :: ks) = (t.children.lookup k).bind fun c => c.value ks := by
  rw [value, get?_cons, Option.map_bind]
  rfl

theorem get?_append (t : Ptree κ δ) (p q : List κ) :
    t.get? (p ++ q) = (t.get? p).bind fun c => c.get? q := by
  induction p generalizing t with
  | nil => rw [List.nil_append, get?_nil, Option.bind_some]
  | cons k p ih =>
    rw [List.cons_append, get?_cons, get?_cons, Option.bind_assoc]
    simp only [ih]

/-- A child below a node that is found. -/
theorem value_append {t n : Ptree κ δ} {p q : List κ} (h : t.get? p = some n) :
    t.value (p ++ q) = n.value q := by
  rw [value, get?_append, h, Option.bind_some, value]

/-- Under no two children of a node that is found is the key the same. -/
def Distinct (t : Ptree κ δ) : Prop :=
  ∀ q n, t.get? q = some n → (n.children.map Prod.fst).Nodup

theorem lookup_eq_of_nodup {cs : List (κ × Ptree κ δ)} (h : (cs.map Prod.fst).Nodup) {k : κ}
    {c : Ptree κ δ} : cs.lookup k = some c ↔ (k, c) ∈ cs := by
  induction cs with
  | nil => simp
  | cons kc cs ih =>
    obtain ⟨l, d⟩ := kc
    rw [List.map_cons, List.nodup_cons] at h
    rw [List.lookup_cons, List.mem_cons, Prod.mk.injEq]
    by_cases hk : k = l
    · subst hk
      have hnot : (k, c) ∉ cs := fun hmem => h.1 (List.mem_map.mpr ⟨_, hmem, rfl⟩)
      simp [hnot, eq_comm]
    · simp [beq_false_of_ne hk, hk, ih h.2]

namespace Distinct

variable {t : Ptree κ δ}

theorem nodup (h : t.Distinct) : (t.children.map Prod.fst).Nodup := h [] t (get?_nil t)

/-- Below a node that is found, siblings have different keys as well. -/
theorem of_get? (h : t.Distinct) {p : List κ} {n : Ptree κ δ} (hp : t.get? p = some n) :
    n.Distinct := by
  intro q m hq
  refine h (p ++ q) m ?_
  rw [get?_append, hp, Option.bind_some, hq]

theorem child (h : t.Distinct) {k : κ} {c : Ptree κ δ} (hmem : (k, c) ∈ t.children) :
    t.get? [k] = some c := by
  rw [get?_cons, (lookup_eq_of_nodup h.nodup).mpr hmem, Option.bind_some, get?_nil]

end Distinct

/-- **The nodes of a tree are those that are found at a path.** -/
theorem mem_nodes_iff {t : Ptree κ δ} (h : t.Distinct) {q : List κ} {n : Ptree κ δ} :
    (q, n) ∈ nodes t ↔ t.get? q = some n := by
  induction q generalizing t with
  | nil =>
    rw [nodes_eq, get?_nil, List.mem_cons, mem_nodesOf, Prod.mk.injEq, Option.some.injEq]
    simp [eq_comm]
  | cons k q ih =>
    rw [nodes_eq, get?_cons, List.mem_cons, mem_nodesOf, Option.bind_eq_some_iff, Prod.mk.injEq]
    constructor
    · rintro (⟨hnil, -⟩ | ⟨l, c, r, hmem, hq, hr⟩)
      · simp at hnil
      · obtain ⟨rfl, rfl⟩ := List.cons.inj hq
        exact ⟨c, (lookup_eq_of_nodup h.nodup).mpr hmem, (ih (h.of_get? (h.child hmem))).mp hr⟩
    · rintro ⟨c, hc, hq⟩
      have hmem := (lookup_eq_of_nodup h.nodup).mp hc
      exact Or.inr ⟨k, c, q, hmem, rfl, (ih (h.of_get? (h.child hmem))).mpr hq⟩

/-- **No node is listed twice.** -/
theorem nodup_nodes {t : Ptree κ δ} (h : t.Distinct) : ((nodes t).map Prod.fst).Nodup := by
  induction t using ind with
  | h d cs ih =>
    rw [nodes_eq, List.map_cons, List.nodup_cons]
    constructor
    · intro hnil
      obtain ⟨⟨q, n⟩, hmem, rfl⟩ := List.mem_map.mp hnil
      obtain ⟨k, c, r, -, hq, -⟩ := mem_nodesOf.mp hmem
      exact List.cons_ne_nil k r hq.symm
    · have hkeys : cs.Pairwise fun x y => x.1 ≠ y.1 := List.pairwise_map.mp h.nodup
      rw [children, nodesOf_eq, List.map_flatMap, List.nodup_flatMap]
      constructor
      · rintro ⟨k, c⟩ hmem
        have hc := (ih k c hmem (h.of_get? (h.child hmem))).map (List.cons_injective (a := k))
        rw [List.map_map] at hc ⊢
        exact hc
      · refine hkeys.imp fun {x y} hne q hx hy => ?_
        simp only [List.mem_map] at hx hy
        obtain ⟨_, ⟨_, -, rfl⟩, rfl⟩ := hx
        obtain ⟨_, ⟨_, -, rfl⟩, hq⟩ := hy
        exact hne (List.cons.inj hq).1.symm

/-! ### Leaves -/

/-- A node without children. -/
def isLeaf (t : Ptree κ δ) : Bool := t.children.isEmpty

/-- **A node is a leaf exactly if nothing is found one key further.** -/
theorem isLeaf_iff {t n : Ptree κ δ} {q : List κ} (hq : t.get? q = some n) :
    n.isLeaf = true ↔ ∀ k, t.value (q ++ [k]) = none := by
  have hvalue : ∀ k, t.value (q ++ [k]) = (n.children.lookup k).map data := fun k => by
    rw [value_append hq, value_cons]
    cases n.children.lookup k with
    | none => rfl
    | some c => rw [Option.bind_some, value_nil, Option.map_some]
  simp only [hvalue, isLeaf, List.isEmpty_iff, Option.map_eq_none_iff]
  constructor
  · rintro hnil k
    rw [hnil, List.lookup_nil]
  · intro hnone
    rcases hcs : n.children with _ | ⟨⟨k, c⟩, cs⟩
    · rfl
    · have hk := hnone k
      rw [hcs] at hk
      simp at hk

/-- **The leaves of a tree**, each with its data, are the entries of a list that has them all
under different paths. -/
theorem leaves_perm {t : Ptree κ δ} (h : t.Distinct) {entries : List (List κ × δ)}
    (hnodup : (entries.map Prod.fst).Nodup)
    (hmem : ∀ q d, (q, d) ∈ entries ↔
      t.value q = some d ∧ ∀ k, t.value (q ++ [k]) = none) :
    (((nodes t).filter fun x => x.2.isLeaf).map fun x => (x.1, x.2.data)).Perm entries := by
  refine (List.perm_ext_iff_of_nodup ?_ (hnodup.of_map _)).mpr ?_
  · have hsub : ((nodes t).filter fun x => x.2.isLeaf).Sublist (nodes t) := List.filter_sublist
    refine List.Nodup.of_map Prod.fst ?_
    rw [List.map_map]
    exact (nodup_nodes h).sublist (hsub.map Prod.fst)
  · rintro ⟨q, d⟩
    rw [hmem, List.mem_map]
    constructor
    · rintro ⟨⟨p, n⟩, hn, heq⟩
      obtain ⟨rfl, rfl⟩ := Prod.mk.inj heq
      obtain ⟨hnode, hleaf⟩ := List.mem_filter.mp hn
      have hget := (mem_nodes_iff h).mp hnode
      exact ⟨by rw [value, hget, Option.map_some], (isLeaf_iff hget).mp hleaf⟩
    · rintro ⟨hvalue, hnone⟩
      obtain ⟨n, hget, rfl⟩ := Option.map_eq_some_iff.mp hvalue
      exact ⟨(q, n), List.mem_filter.mpr ⟨(mem_nodes_iff h).mpr hget,
        (isLeaf_iff hget).mpr hnone⟩, rfl⟩

/-! ### Putting data at a path -/

/-- **What a `put` does**: the node at the path gets the data; it and its parents are
created, empty, if they do not exist; nothing else changes. -/
structure IsPut (empty : δ) (put : Ptree κ δ → List κ → δ → Ptree κ δ) : Prop where
  distinct : ∀ t p d, t.Distinct → (put t p d).Distinct
  value_put : ∀ t p d q, t.Distinct → (put t p d).value q =
    if q = p then some d else if q <+: p ∧ t.value q = none then some empty else t.value q

/-- Change the child under a key, or an empty one that is created behind the others. -/
def alter (empty : δ) (k : κ) (f : Ptree κ δ → Ptree κ δ) :
    List (κ × Ptree κ δ) → List (κ × Ptree κ δ)
  | [] => [(k, f (.node empty []))]
  | (l, c) :: cs => if l = k then (l, f c) :: cs else (l, c) :: alter empty k f cs

/-- Put data at a path. -/
def put (empty : δ) : Ptree κ δ → List κ → δ → Ptree κ δ
  | .node _ cs, [], d => .node d cs
  | .node d₀ cs, k :: ks, d => .node d₀ (alter empty k (fun c => put empty c ks d) cs)

theorem lookup_alter (empty : δ) (k l : κ) (f : Ptree κ δ → Ptree κ δ)
    (cs : List (κ × Ptree κ δ)) :
    (alter empty k f cs).lookup l =
      if l = k then some (f ((cs.lookup k).getD (.node empty []))) else cs.lookup l := by
  induction cs with
  | nil =>
    rw [alter, List.lookup_cons]
    split_ifs with hl
    · simp [hl]
    · simp [beq_false_of_ne hl]
  | cons x cs ih =>
    obtain ⟨m, c⟩ := x
    rw [alter]
    by_cases hm : m = k
    · subst hm
      by_cases hl : l = m
      · simp [hl]
      · simp [List.lookup_cons, beq_false_of_ne hl, hl]
    · rw [if_neg hm, List.lookup_cons, ih, List.lookup_cons, List.lookup_cons,
        beq_false_of_ne (Ne.symm hm)]
      by_cases hl : l = k
      · subst hl
        simp [beq_false_of_ne (Ne.symm hm)]
      · simp [hl]

theorem keys_alter (empty : δ) (k : κ) (f : Ptree κ δ → Ptree κ δ) (cs : List (κ × Ptree κ δ)) :
    (alter empty k f cs).map Prod.fst =
      if k ∈ cs.map Prod.fst then cs.map Prod.fst else cs.map Prod.fst ++ [k] := by
  induction cs with
  | nil => rfl
  | cons x cs ih =>
    obtain ⟨m, c⟩ := x
    rw [alter]
    by_cases hm : m = k
    · simp [hm]
    · rw [if_neg hm, List.map_cons, ih]
      by_cases hk : k ∈ cs.map Prod.fst
      · simp [hk]
      · simp [hk, Ne.symm hm]

theorem nodup_keys_alter (empty : δ) (k : κ) (f : Ptree κ δ → Ptree κ δ)
    {cs : List (κ × Ptree κ δ)} (h : (cs.map Prod.fst).Nodup) :
    ((alter empty k f cs).map Prod.fst).Nodup := by
  rw [keys_alter]
  split_ifs with hk
  · exact h
  · exact List.nodup_append.mpr ⟨h, by simp, by rintro a ha b hb rfl; simp_all⟩

/-- A tree has different keys under siblings if the root has and every child has. -/
theorem distinct_of_lookup {t : Ptree κ δ} (hroot : (t.children.map Prod.fst).Nodup)
    (hchild : ∀ k c, t.children.lookup k = some c → c.Distinct) : t.Distinct := by
  intro q n hq
  cases q with
  | nil =>
    obtain rfl : t = n := Option.some.inj ((get?_nil t).symm.trans hq)
    exact hroot
  | cons k q =>
    rw [get?_cons] at hq
    obtain ⟨c, hc, hn⟩ := Option.bind_eq_some_iff.mp hq
    exact hchild k c hc q n hn

theorem distinct_empty (d : δ) : (Ptree.node d [] : Ptree κ δ).Distinct :=
  distinct_of_lookup List.nodup_nil fun _ _ h => by simp [children] at h

theorem distinct_put (empty : δ) (t : Ptree κ δ) (p : List κ) (d : δ) (h : t.Distinct) :
    (put empty t p d).Distinct := by
  induction p generalizing t with
  | nil =>
    obtain ⟨d₀, cs⟩ := t
    rw [put]
    refine distinct_of_lookup h.nodup fun k c hc => ?_
    exact h.of_get? (h.child ((lookup_eq_of_nodup h.nodup).mp hc))
  | cons k ks ih =>
    obtain ⟨d₀, cs⟩ := t
    have hchild : ∀ l c, cs.lookup l = some c → c.Distinct := fun l c hc =>
      h.of_get? (h.child ((lookup_eq_of_nodup h.nodup).mp hc))
    rw [put]
    refine distinct_of_lookup (nodup_keys_alter _ _ _ h.nodup) fun l c hc => ?_
    rw [children, lookup_alter] at hc
    split_ifs at hc with hl
    · obtain rfl := Option.some.inj hc
      refine ih _ ?_
      rcases hk : cs.lookup k with _ | c
      · exact distinct_empty empty
      · exact hchild k c hk
    · exact hchild l c hc

theorem value_empty (d : δ) (q : List κ) :
    (Ptree.node d [] : Ptree κ δ).value q = if q = [] then some d else none := by
  cases q with
  | nil => rw [value_nil, if_pos rfl, data]
  | cons k q => rw [value_cons, children, List.lookup_nil, Option.bind_none, if_neg (by simp)]

theorem value_put (empty : δ) (t : Ptree κ δ) (p : List κ) (d : δ) (q : List κ) :
    (put empty t p d).value q =
      if q = p then some d else if q <+: p ∧ t.value q = none then some empty else t.value q := by
  induction p generalizing t q with
  | nil =>
    obtain ⟨d₀, cs⟩ := t
    cases q with
    | nil => rw [put, value_nil, if_pos rfl, data]
    | cons l q => simp [put, value_cons, children]
  | cons k ks ih =>
    obtain ⟨d₀, cs⟩ := t
    cases q with
    | nil => simp [put, data]
    | cons l q =>
      rw [put, value_cons, children, lookup_alter, value_cons, children]
      by_cases hl : l = k
      · subst hl
        rw [if_pos rfl, Option.bind_some, ih]
        simp only [List.cons.injEq, true_and, List.cons_prefix_cons]
        rcases cs.lookup l with _ | c
        · rw [Option.getD_none, Option.bind_none, value_empty]
          -- Where there was no child, the path to `ks` below the new one is created.
          by_cases hq : q = ks
          · rw [if_pos hq, if_pos hq]
          · by_cases hpre : q <+: ks
            · by_cases hnil : q = [] <;> simp [hq, hpre, hnil]
            · have hnil : q ≠ [] := by
                rintro rfl
                exact hpre List.nil_prefix
              simp [hq, hpre, hnil]
        · rw [Option.getD_some, Option.bind_some]
      · simp [hl]

/-- **`Ptree.put` does what a `put` does.** -/
theorem isPut_put (empty : δ) : IsPut (κ := κ) empty (put empty) :=
  ⟨fun t p d => distinct_put empty t p d, fun t p d q _ => value_put empty t p d q⟩

end Paths

end Ptree
