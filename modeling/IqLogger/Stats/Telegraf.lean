import IqLogger.Core.Base
import IqLogger.Lib.PropertyTree

/-!
# The Telegraf exporter

The exporter puts the table of metrics into a property tree, under the dotted names of the
metrics (`Exporter.getMetricsPtree`), and walks it back to dotted paths
(`Exporter.visit_if`), of the whole tree or of what is below the first component of the
names.

What is put is found: `Built` says what a tree looks like that a list of metrics has
been put into, whatever the order, and from it the leaves are the metrics
(`Built.mem_entries`). A walk lists the leaves in its own order, so that the calls of the
visitor are those of the table up to a permutation (`visit_metrics`).
-/

namespace IqLogger.Telegraf

/-- The separator of a path. -/
def dot : UInt8 := 46

/-- The metrics, in the order in which the unordered map yields them. -/
structure MetricsTable where
  entries : List (Bytes × UInt64)
  nodup : (entries.map Prod.fst).Nodup

/-- `boost::property_tree::ptree`. -/
abbrev PTree := Ptree Bytes Bytes

/-- The keys a dotted path is made of. -/
def components (name : Bytes) : List Bytes := name.splitOn dot

namespace Exporter

section Put

/- What puts data at the keys of a path, and the text a number is put as. -/
variable (put : PTree → List Bytes → Bytes → PTree) (text : UInt64 → Bytes)

/-- `Exporter::getMetricsPtree`. -/
def getMetricsPtree (metrics : MetricsTable) : PTree :=
  metrics.entries.foldl (fun iqlogger m => put iqlogger (components m.1) (text m.2)) (.node [] [])

end Put

/-- `Exporter::is_leaf`. -/
def is_leaf (pt : PTree) : Bool := pt.children.isEmpty

/-- The path a child is visited with. -/
def childPath (path key : Bytes) : Bytes := if path.isEmpty then key else path ++ dot :: key

mutual

/-- `Exporter::visit_if`: the calls of the visitor, in order. -/
def visit_if (p : PTree → Bool) : PTree → Bytes → List (Bytes × PTree)
  | .node data children, path =>
    (if p (.node data children) then [(path, .node data children)] else []) ++
      visit_children p children path

/-- The loop over the children. -/
def visit_children (p : PTree → Bool) : List (Bytes × PTree) → Bytes → List (Bytes × PTree)
  | [], _ => []
  | (key, child) :: rest, path =>
    visit_if p child (childPath path key) ++ visit_children p rest path

end

end Exporter

open Exporter

/-! ### What a walk visits -/

theorem visit_children_eq (p : PTree → Bool) (cs : List (Bytes × PTree)) (path : Bytes) :
    visit_children p cs path = cs.flatMap fun kc => visit_if p kc.2 (childPath path kc.1) := by
  induction cs with
  | nil => rfl
  | cons kc cs ih =>
    obtain ⟨k, c⟩ := kc
    rw [visit_children, ih, List.flatMap_cons]

/-- **A walk visits the nodes it is asked to**, under the paths their keys make up. -/
theorem visit_if_eq (p : PTree → Bool) (t : PTree) (path : Bytes) :
    visit_if p t path =
      ((Ptree.nodes t).filter fun x => p x.2).map fun x => (x.1.foldl childPath path, x.2) := by
  induction t using Ptree.ind generalizing path with
  | h d cs ih =>
    have hchildren : visit_children p cs path = ((Ptree.nodesOf cs).filter fun x => p x.2).map
        fun x => (x.1.foldl childPath path, x.2) := by
      rw [visit_children_eq, Ptree.nodesOf_eq, List.filter_flatMap, List.map_flatMap]
      refine List.flatMap_congr fun kc hmem => ?_
      rw [ih kc.1 kc.2 hmem, List.filter_map, List.map_map]
      rfl
    rw [visit_if, hchildren, Ptree.nodes, List.filter_cons]
    split_ifs with hp
    · rfl
    · rfl

/-- The path that non-empty keys make up. -/
theorem foldl_childPath {q : List Bytes} (h : ∀ k ∈ q, k ≠ []) :
    q.foldl childPath [] = [dot].intercalate q := by
  have hrest : ∀ (rest : List Bytes) (path : Bytes), path ≠ [] →
      rest.foldl childPath path = [dot].intercalate (path :: rest) := by
    intro rest
    induction rest with
    | nil =>
      intro path _
      rw [List.foldl_nil, List.intercalate_singleton]
    | cons k rest ih =>
      intro path hpath
      have hstep : childPath path k = path ++ dot :: k := by
        rw [childPath, if_neg (by simpa using hpath)]
      rw [List.foldl_cons, hstep, ih _ (by simp)]
      cases rest with
      | nil => simp
      | cons l rest => simp
  cases q with
  | nil => rfl
  | cons k q => exact hrest q k (h k (by simp))

/-! ### Names -/

theorem components_ne_nil (name : Bytes) : components name ≠ [] := List.splitOn_ne_nil dot name

theorem intercalate_components (name : Bytes) : [dot].intercalate (components name) = name :=
  List.intercalate_splitOn dot

theorem components_injective : Function.Injective components :=
  Function.LeftInverse.injective intercalate_components

/-- There is no separator in a component. -/
theorem dot_not_mem {name c : Bytes} (h : c ∈ components name) : dot ∉ c := by
  induction name generalizing c with
  | nil =>
    rw [components, List.splitOn_nil, List.mem_singleton] at h
    rw [h]
    exact List.not_mem_nil
  | cons b name ih =>
    rw [components, List.splitOn_cons_eq_if_modifyHead] at h
    split_ifs at h with hb
    · rcases List.mem_cons.mp h with rfl | h
      · exact List.not_mem_nil
      · exact ih h
    · obtain ⟨first, rest, hsplit⟩ := List.exists_cons_of_ne_nil (List.splitOn_ne_nil dot name)
      rw [hsplit, List.modifyHead_cons, List.mem_cons] at h
      have hmem : ∀ d ∈ first :: rest, d ∈ components name := by
        rw [components, hsplit]
        exact fun d hd => hd
      rcases h with rfl | h
      · have hne : dot ≠ b := by
          rintro rfl
          simp at hb
        exact List.not_mem_cons_of_ne_of_not_mem hne (ih (hmem first (by simp)))
      · exact ih (hmem c (by simp [h]))

/-- **The names that start with a component and a separator**, seen by their components. -/
theorem prefix_iff {name c : Bytes} (hc : dot ∉ c) :
    (c ++ [dot]).isPrefixOf name = true ↔ ∃ q, q ≠ [] ∧ components name = c :: q := by
  rw [List.isPrefixOf_iff_prefix]
  constructor
  · rintro ⟨rest, rfl⟩
    refine ⟨components rest, components_ne_nil rest, ?_⟩
    rw [components, List.append_assoc, List.singleton_append,
      List.splitOn_append_cons_self_of_not_mem hc, components]
  · rintro ⟨q, hq, hname⟩
    obtain ⟨k, q, rfl⟩ := List.exists_cons_of_ne_nil hq
    refine ⟨[dot].intercalate (k :: q), ?_⟩
    rw [← intercalate_components name, hname, List.intercalate_cons_cons]

/-- What is left of such a name. -/
theorem drop_name {name c : Bytes} {q : List Bytes} (hq : q ≠ []) (h : components name = c :: q) :
    name.drop (c.length + 1) = [dot].intercalate q := by
  obtain ⟨k, q, rfl⟩ := List.exists_cons_of_ne_nil hq
  rw [← intercalate_components name, h, List.intercalate_cons_cons, List.append_assoc,
    List.drop_append]
  simp

/-! ### The tree of the metrics -/

section Tree

variable {put : PTree → List Bytes → Bytes → PTree} {text : UInt64 → Bytes}

/-- **What has been put is what is found**: the tree holds every metric at the keys of its
name, and nothing but the metrics and their parents. -/
structure Built (text : UInt64 → Bytes) (t : PTree) (ms : List (Bytes × UInt64)) : Prop where
  distinct : t.Distinct
  value_components : ∀ m ∈ ms, t.value (components m.1) = some (text m.2)
  prefix_of_value : ∀ q, q ≠ [] → t.value q ≠ none → ∃ m ∈ ms, q <+: components m.1
  value_of_prefix : ∀ m ∈ ms, ∀ q, q <+: components m.1 → t.value q ≠ none

theorem Built.empty : Built text (.node [] []) [] where
  distinct := Ptree.distinct_empty []
  value_components := by simp
  prefix_of_value q hq h := by
    rw [Ptree.value_empty, if_neg hq] at h
    exact absurd rfl h
  value_of_prefix := by simp

/-- One more metric is put. -/
theorem Built.step (hput : Ptree.IsPut [] put) {t : PTree} {ms : List (Bytes × UInt64)}
    (h : Built text t ms) (m : Bytes × UInt64) (hnew : ∀ m' ∈ ms, m'.1 ≠ m.1) :
    Built text (put t (components m.1) (text m.2)) (ms ++ [m]) := by
  have hvalue := fun q => hput.value_put t (components m.1) (text m.2) q h.distinct
  refine ⟨hput.distinct t _ _ h.distinct, ?_, ?_, ?_⟩
  · intro m' hm'
    rw [hvalue]
    rcases List.mem_append.mp hm' with hold | hlast
    · have hname : components m'.1 ≠ components m.1 := fun heq =>
        hnew m' hold (components_injective heq)
      have hfound := h.value_components m' hold
      rw [if_neg hname, if_neg (by simp [hfound]), hfound]
    · obtain rfl := List.mem_singleton.mp hlast
      rw [if_pos rfl]
  · intro q hq hne
    rw [hvalue] at hne
    by_cases hpre : q <+: components m.1
    · exact ⟨m, by simp, hpre⟩
    · have hself : q ≠ components m.1 := by
        rintro rfl
        exact hpre List.prefix_rfl
      rw [if_neg hself, if_neg fun hand => hpre hand.1] at hne
      obtain ⟨m', hm', hq'⟩ := h.prefix_of_value q hq hne
      exact ⟨m', by simp [hm'], hq'⟩
  · intro m' hm' q hq
    rw [hvalue]
    split_ifs with hself hcreated
    · simp
    · simp
    · intro hnone
      rcases List.mem_append.mp hm' with hold | hlast
      · exact h.value_of_prefix m' hold q hq hnone
      · obtain rfl := List.mem_singleton.mp hlast
        exact hcreated ⟨hq, hnone⟩

/-- **The metrics are put, in any order.** -/
theorem built_getMetricsPtree (hput : Ptree.IsPut [] put) (metrics : MetricsTable) :
    Built text (getMetricsPtree put text metrics) metrics.entries := by
  have hfold : ∀ (rest done : List (Bytes × UInt64)) (t : PTree), Built text t done →
      ((done ++ rest).map Prod.fst).Nodup →
      Built text (rest.foldl (fun t m => put t (components m.1) (text m.2)) t) (done ++ rest) := by
    intro rest
    induction rest with
    | nil =>
      intro done t h _
      rwa [List.append_nil]
    | cons m rest ih =>
      intro done t h hnodup
      have hsplit : done ++ m :: rest = done ++ [m] ++ rest := by simp
      have hnew : ∀ m' ∈ done, m'.1 ≠ m.1 := by
        rw [List.map_append, List.map_cons, List.nodup_append] at hnodup
        exact fun m' hm' => hnodup.2.2 _ (List.mem_map_of_mem hm') _ (by simp)
      rw [hsplit] at hnodup ⊢
      exact ih (done ++ [m]) _ (h.step hput m hnew) hnodup
  exact hfold metrics.entries [] _ Built.empty metrics.nodup

namespace Built

variable {t : PTree} {ms : List (Bytes × UInt64)}

/-- **The leaves below the root are the metrics**, where no name is the beginning of another. -/
theorem leaf_iff (h : Built text t ms)
    (hpre : ∀ m ∈ ms, ∀ m' ∈ ms, components m.1 <+: components m'.1 → m = m')
    {q : List Bytes} (hq : q ≠ []) (d : Bytes) :
    (t.value q = some d ∧ ∀ k, t.value (q ++ [k]) = none) ↔
      ∃ m ∈ ms, components m.1 = q ∧ text m.2 = d := by
  constructor
  · rintro ⟨hvalue, hnone⟩
    obtain ⟨m, hm, rest, hrest⟩ := h.prefix_of_value q hq (by simp [hvalue])
    cases rest with
    | nil =>
      rw [List.append_nil] at hrest
      have hfound := h.value_components m hm
      rw [← hrest, hvalue] at hfound
      exact ⟨m, hm, hrest.symm, (Option.some.inj hfound).symm⟩
    | cons k rest =>
      have hlonger : q ++ [k] <+: components m.1 := ⟨rest, by rw [← hrest]; simp⟩
      exact absurd (hnone k) (h.value_of_prefix m hm _ hlonger)
  · rintro ⟨m, hm, rfl, rfl⟩
    refine ⟨h.value_components m hm, fun k => ?_⟩
    by_contra hne
    obtain ⟨m', hm', hlonger⟩ := h.prefix_of_value _ (by simp) hne
    obtain rfl := hpre m hm m' hm' ((List.prefix_append _ [k]).trans hlonger)
    have hlen := hlonger.length_le
    rw [List.length_append, List.length_singleton] at hlen
    omega

/-- The root is no leaf. -/
theorem exists_child (h : Built text t ms) (hne : ms ≠ []) : ∃ k, t.value [k] ≠ none := by
  obtain ⟨m, rest, rfl⟩ := List.exists_cons_of_ne_nil hne
  obtain ⟨k, q, hname⟩ := List.exists_cons_of_ne_nil (components_ne_nil m.1)
  exact ⟨k, h.value_of_prefix m (by simp) [k] ⟨q, hname.symm⟩⟩

/-- Every key of a node is a component of a name. -/
theorem ne_nil_of_value (h : Built text t ms) (hcomp : ∀ m ∈ ms, ∀ c ∈ components m.1, c ≠ [])
    {q : List Bytes} (hq : t.value q ≠ none) : ∀ k ∈ q, k ≠ [] := by
  by_cases hnil : q = []
  · simp [hnil]
  · obtain ⟨m, hm, hpre⟩ := h.prefix_of_value q hnil hq
    exact fun k hk => hcomp m hm k (hpre.subset hk)

end Built

/-- A walk from an empty path, by the leaves of the tree: what a list has at the keys it
visits. -/
theorem visit_perm {t : PTree} (h : t.Distinct) (hkeys : ∀ q, t.value q ≠ none → ∀ k ∈ q, k ≠ [])
    {entries : List (List Bytes × Bytes)} (hnodup : (entries.map Prod.fst).Nodup)
    (hmem : ∀ q d, (q, d) ∈ entries ↔ t.value q = some d ∧ ∀ k, t.value (q ++ [k]) = none) :
    ((visit_if is_leaf t []).map fun call => (call.1, call.2.data)).Perm
      (entries.map fun x => ([dot].intercalate x.1, x.2)) := by
  have hperm := (Ptree.leaves_perm h hnodup hmem).map fun x => (x.1.foldl childPath [], x.2)
  rw [List.map_map] at hperm
  rw [visit_if_eq, List.map_map]
  refine hperm.trans (List.Perm.of_eq (List.map_congr_left ?_))
  rintro ⟨q, d⟩ hq
  rw [foldl_childPath (hkeys q (by simp [((hmem q d).mp hq).1]))]

section Walks

variable {t : PTree} {ms : List (Bytes × UInt64)}

/-- The walk of the whole tree. -/
theorem visit_root (h : Built text t ms) (hne : ms ≠ [])
    (hnodup : (ms.map fun m => components m.1).Nodup)
    (hcomp : ∀ m ∈ ms, ∀ c ∈ components m.1, c ≠ [])
    (hpre : ∀ m ∈ ms, ∀ m' ∈ ms, components m.1 <+: components m'.1 → m = m') :
    ((visit_if is_leaf t []).map fun call => (call.1, call.2.data)).Perm
      (ms.map fun m => (m.1, text m.2)) := by
  have hmem : ∀ q d, (q, d) ∈ ms.map (fun m => (components m.1, text m.2)) ↔
      t.value q = some d ∧ ∀ k, t.value (q ++ [k]) = none := by
    intro q d
    rw [List.mem_map]
    by_cases hq : q = []
    · obtain ⟨k, hk⟩ := h.exists_child hne
      constructor
      · rintro ⟨m, -, hm⟩
        exact absurd ((congrArg Prod.fst hm).trans hq) (components_ne_nil m.1)
      · rintro ⟨-, hnone⟩
        rw [hq] at hnone
        exact absurd (hnone k) hk
    · rw [h.leaf_iff hpre hq]
      simp only [Prod.mk.injEq]
  have hperm := visit_perm h.distinct (fun q => h.ne_nil_of_value hcomp)
    (by rw [List.map_map]; exact hnodup) hmem
  rw [List.map_map] at hperm
  refine hperm.trans (List.Perm.of_eq (List.map_congr_left fun m _ => ?_))
  exact Prod.ext (intercalate_components m.1) rfl

/-- The walk of what is below a first component. -/
theorem visit_child (h : Built text t ms)
    (hnodup : (ms.map fun m => components m.1).Nodup)
    (hcomp : ∀ m ∈ ms, ∀ c ∈ components m.1, c ≠ [])
    (hpre : ∀ m ∈ ms, ∀ m' ∈ ms, components m.1 <+: components m'.1 → m = m')
    {c : Bytes} (hdot : dot ∉ c) (hc : ∀ m ∈ ms, m.1 ≠ c) {sub : PTree}
    (hsub : t.get? [c] = some sub) :
    ((visit_if is_leaf sub []).map fun call => (call.1, call.2.data)).Perm
      ((ms.filter fun m => (c ++ [dot]).isPrefixOf m.1).map
        fun m => (m.1.drop (c.length + 1), text m.2)) := by
  -- A node below `sub` is one of the whole tree, one key further down.
  have hvalue : ∀ q, sub.value q = t.value (c :: q) := fun q =>
    (Ptree.value_append (p := [c]) (q := q) hsub).symm
  have hsplit : ∀ m ∈ ms.filter (fun m => (c ++ [dot]).isPrefixOf m.1),
      ∃ q, q ≠ [] ∧ components m.1 = c :: q := fun m hm =>
    (prefix_iff hdot).mp (List.mem_filter.mp hm).2
  have hmem : ∀ q d, (q, d) ∈ (ms.filter fun m => (c ++ [dot]).isPrefixOf m.1).map
      (fun m => ((components m.1).tail, text m.2)) ↔
        sub.value q = some d ∧ ∀ k, sub.value (q ++ [k]) = none := by
    intro q d
    have hleaf := h.leaf_iff hpre (List.cons_ne_nil c q) d
    simp only [hvalue]
    refine Iff.trans ?_ hleaf.symm
    rw [List.mem_map]
    constructor
    · rintro ⟨m, hm, heq⟩
      obtain ⟨rfl, rfl⟩ := Prod.mk.inj heq
      obtain ⟨r, -, hr⟩ := hsplit m hm
      exact ⟨m, (List.mem_filter.mp hm).1, by rw [hr, List.tail_cons], rfl⟩
    · rintro ⟨m, hm, hname, rfl⟩
      have hq : q ≠ [] := by
        rintro rfl
        refine hc m hm ?_
        rw [← intercalate_components m.1, hname, List.intercalate_singleton]
      exact ⟨m, List.mem_filter.mpr ⟨hm, (prefix_iff hdot).mpr ⟨q, hq, hname⟩⟩, by
        rw [hname, List.tail_cons]⟩
  have hnodup' : ((ms.filter fun m => (c ++ [dot]).isPrefixOf m.1).map
      fun m => (components m.1).tail).Nodup := by
    refine List.Nodup.of_map (List.cons c) ?_
    have hfilter := hnodup.sublist ((List.filter_sublist
      (p := fun m : Bytes × UInt64 => (c ++ [dot]).isPrefixOf m.1)).map fun m => components m.1)
    rw [List.map_map]
    rwa [List.map_congr_left fun m hm => ?_] at hfilter
    obtain ⟨r, -, hr⟩ := hsplit m hm
    rw [Function.comp_apply, hr, List.tail_cons]
  have hkeys : ∀ q, sub.value q ≠ none → ∀ k ∈ q, k ≠ [] := fun q hq k hk =>
    h.ne_nil_of_value hcomp (by rwa [← hvalue]) k (List.mem_cons_of_mem c hk)
  have hperm := visit_perm (h.distinct.of_get? hsub) hkeys
    (by rw [List.map_map]; exact hnodup') hmem
  rw [List.map_map] at hperm
  refine hperm.trans (List.Perm.of_eq (List.map_congr_left fun m hm => ?_))
  obtain ⟨q, hq, hname⟩ := hsplit m hm
  rw [Function.comp_apply, hname, List.tail_cons, drop_name hq hname]

end Walks

/-- **The exporter visits every metric exactly once, under its own name.** A walk of the
whole tree calls the visitor for the metrics of the table; a walk of what is below a
first component `c`, which is not itself a metric, for those whose names start with `c`
and a dot, under what is left of the name. -/
theorem visit_metrics (hput : Ptree.IsPut [] put) (metrics : MetricsTable)
    (hne : metrics.entries ≠ [])
    (hcomp : ∀ m ∈ metrics.entries, ∀ c ∈ components m.1, c ≠ [])
    (hpre : ∀ m ∈ metrics.entries, ∀ m' ∈ metrics.entries,
      components m.1 <+: components m'.1 → m = m') :
    ((visit_if is_leaf (getMetricsPtree put text metrics) []).map
      fun call => (call.1, call.2.data)).Perm
        (metrics.entries.map fun m => (m.1, text m.2)) ∧
    ∀ m ∈ metrics.entries, ∀ c, (components m.1).head? = some c →
      (∀ m' ∈ metrics.entries, m'.1 ≠ c) →
      ∃ sub, (getMetricsPtree put text metrics).get? [c] = some sub ∧
        ((visit_if is_leaf sub []).map fun call => (call.1, call.2.data)).Perm
          ((metrics.entries.filter fun m => (c ++ [dot]).isPrefixOf m.1).map
            fun m => (m.1.drop (c.length + 1), text m.2)) := by
  have hbuilt : Built text (getMetricsPtree put text metrics) metrics.entries :=
    built_getMetricsPtree hput metrics
  have hnodup : (metrics.entries.map fun m => components m.1).Nodup := by
    have hnames := metrics.nodup.map components_injective
    rw [List.map_map] at hnames
    exact hnames
  refine ⟨visit_root hbuilt hne hnodup hcomp hpre, fun m hm c hhead hc => ?_⟩
  obtain ⟨q, hname⟩ := List.head?_eq_some_iff.mp hhead
  have hfound := hbuilt.value_of_prefix m hm [c] ⟨q, hname.symm⟩
  obtain ⟨d, hd⟩ := Option.ne_none_iff_exists'.mp hfound
  obtain ⟨sub, hsub, -⟩ := Option.map_eq_some_iff.mp hd
  have hmem : c ∈ components m.1 := by
    rw [hname]
    exact List.mem_cons_self
  exact ⟨sub, hsub, visit_child hbuilt hnodup hcomp hpre (dot_not_mem hmem) hc hsub⟩

end Tree

/-- A table of three metrics, two of them below one component. -/
def threeMetrics : MetricsTable where
  entries := [(ascii "inputs.tail.count", 3), (ascii "queue", 2), (ascii "inputs.total", 7)]
  nodup := by decide +kernel

/-- What is exported of a table of three metrics. -/
theorem visit_metrics_three :
    ((visit_if is_leaf (getMetricsPtree (Ptree.put []) (fun v => ascii (toString v.toNat))
      threeMetrics) []).map fun call => (call.1, call.2.data)).Perm
        [(ascii "inputs.tail.count", ascii "3"), (ascii "queue", ascii "2"),
          (ascii "inputs.total", ascii "7")] :=
  (visit_metrics (Ptree.isPut_put []) threeMetrics (by decide +kernel) (by decide +kernel)
    (by decide +kernel)).1

end IqLogger.Telegraf
