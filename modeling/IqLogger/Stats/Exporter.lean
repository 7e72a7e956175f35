import IqLogger.Lib.LineProtocol
import IqLogger.Metrics.MetricsController
import IqLogger.Stats.Http.Reply

/-!
# What the Telegraf exporter sends

`Exporter.exportTelegraf` writes the metrics as lines of the line protocol: one of the process,
one of the queue of the processor and one for each of its threads, one of the main queue, and one
for every input and every output. The first of these take their metrics out of the table by
their names, those of inputs and outputs walk the tree of `Exporter.getMetricsPtree`, for which
the table is taken a second time.

Whoever reads the text gets the table back: under each measurement, tag and field there is the
metric it was made of, and there is nothing else and nothing twice
(`IqLogger.Telegraf.samples_perm`).
-/

namespace IqLogger.Telegraf

open LineProtocol

/-- `boost::property_tree::ptree_bad_path`. -/
structure ptree_bad_path where
  path : Bytes
  deriving DecidableEq, Repr

/-- `at` of the table; what it throws is caught everywhere and ends a section. -/
def MetricsTable.at? (metrics : MetricsTable) (name : Bytes) : Option UInt64 :=
  metrics.entries.lookup name

/-- How a number is written. -/
def text (v : UInt64) : Bytes := Http.sizeText v.toNat

namespace Exporter

section Export

/- The exporter's measurement, the time as it is written, and the first of its two tables. -/
variable (m_measurement time : Bytes) (metrics : MetricsTable)

/-- The section of the process. -/
def exportProcess : Option Bytes := do
  let cpu_user_seconds_total ← metrics.at? (ascii "process.cpu_user_seconds_total")
  let open_fds ← metrics.at? (ascii "process.open_fds")
  let cpu_system_seconds_total ← metrics.at? (ascii "process.cpu_system_seconds_total")
  let resident_memory_bytes ← metrics.at? (ascii "process.resident_memory_bytes")
  let max_fds ← metrics.at? (ascii "process.max_fds")
  let threads ← metrics.at? (ascii "process.threads")
  pure (m_measurement ++ ascii "_process " ++
    ascii "cpu_user_seconds_total=" ++ text cpu_user_seconds_total ++
    ascii "i,open_fds=" ++ text open_fds ++
    ascii "i,cpu_system_seconds_total=" ++ text cpu_system_seconds_total ++
    ascii "i,resident_memory_bytes=" ++ text resident_memory_bytes ++
    ascii "i,max_fds=" ++ text max_fds ++
    ascii "i,threads=" ++ text threads ++ ascii "i " ++ time ++ ascii "\n")

/-- The section of a queue: that of the processor, or the main one. -/
def exportQueue (measurement name : Bytes) : Option Bytes := do
  let length ← metrics.at? name
  pure (m_measurement ++ measurement ++ ascii "queue_length=" ++ text length ++ ascii "i " ++
    time ++ ascii "\n")

/-- A round of the loop over the threads of the processor. -/
def exportHeap (oss : Bytes) (processor : Bytes × PTree) : Option Bytes :=
  if processor.1 ≠ ascii "queue" then do
    let heap_size ← metrics.at? (ascii "processor." ++ processor.1 ++ ascii ".heap_size")
    pure (oss ++ (m_measurement ++ ascii "_processor,processor=" ++ processor.1 ++
      ascii " heap_size=" ++ text heap_size ++ ascii "i " ++ time ++ ascii "\n"))
  else pure oss

/-- The section of the threads of the processor. -/
def exportHeaps (processors : List (Bytes × PTree)) : Option Bytes :=
  processors.foldlM (exportHeap m_measurement time metrics) []

/-- `std::replace` of the dots of a path. -/
def underscores (path : Bytes) : Bytes := path.map fun b => if b = dot then 95 else b

/-- What the visitor of a walk writes: the counter, a `short`, decides on the comma. -/
def visitField (state : Bytes × UInt16) (call : Bytes × PTree) : Bytes × UInt16 :=
  (state.1 ++ (if state.2 ≠ 0 then ascii "," else []) ++
    (underscores call.1 ++ ascii "=" ++ call.2.data ++ ascii "i"), state.2 + 1)

/-- The fields of an input or an output. -/
def exportFields (node : PTree) : Bytes := ((visit_if is_leaf node []).foldl visitField ([], 0)).1

/-- A round of the loop over the inputs, or over the outputs. One of the children is the metric
of all of them. -/
def exportChild (measurement total oss : Bytes) (child : Bytes × PTree) : Bytes :=
  if child.1 ≠ total then
    oss ++ (m_measurement ++ measurement ++ child.1 ++ ascii " " ++ exportFields child.2 ++
      ascii " " ++ time ++ ascii "\n")
  else oss

/-- The section of the inputs, or that of the outputs. -/
def exportNamed (measurement total : Bytes) (children : List (Bytes × PTree)) : Bytes :=
  children.foldl (exportChild m_measurement time measurement total) []

/-- `get_child`. -/
def get_child (ptree : PTree) (path : Bytes) : Except ptree_bad_path PTree :=
  match ptree.get? (components path) with
  | some node => .ok node
  | none => .error ⟨path⟩

/- What puts data at the keys of a path, and the second table. -/
variable (put : PTree → List Bytes → Bytes → PTree) (metrics' : MetricsTable)

/-- `Exporter::exportTelegraf`. Where there is no child under a name, what is thrown is not
caught. -/
def exportTelegraf : Except ptree_bad_path Bytes := do
  let ptree := getMetricsPtree put text metrics'
  let processor ← get_child ptree (ascii "processor")
  let inputs ← get_child ptree (ascii "inputs")
  let outputs ← get_child ptree (ascii "outputs")
  pure ((exportProcess m_measurement time metrics).getD [] ++
    (exportQueue m_measurement time metrics (ascii "_processor ")
      (ascii "processor.queue.length")).getD [] ++
    (exportHeaps m_measurement time metrics processor.children).getD [] ++
    (exportQueue m_measurement time metrics (ascii "_main_queue ")
      (ascii "main_queue.length")).getD [] ++
    exportNamed m_measurement time (ascii "_inputs,name=") (ascii "receive_total")
      inputs.children ++
    exportNamed m_measurement time (ascii "_outputs,name=") (ascii "sent_total")
      outputs.children)

end Export

/-! ### What it stands for -/

/-- A value that is exported. -/
structure Sample where
  measurement : Bytes
  tags : List (Bytes × Bytes)
  field : Bytes
  value : UInt64
  time : Bytes
  deriving DecidableEq

/-- The values of a line. -/
def lineSamples (line : Line UInt64) : List Sample :=
  line.fields.map fun field => ⟨line.measurement, line.tags, field.1, field.2, line.time⟩

/-- The values of some lines. -/
def samples (lines : List (Line UInt64)) : List Sample :=
  lines.flatMap lineSamples

/-- An integer of the line protocol, of 64 bits. -/
def readInteger (s : Bytes) : Option UInt64 :=
  if s.getLast? = some 105 ∧ s.dropLast ≠ [] ∧ s.dropLast.all (fun b => Http.IsDigit b) ∧
      Http.number s.dropLast < UInt64.size then
    some (UInt64.ofNat (Http.number s.dropLast))
  else none

section Expected

variable (m_measurement time : Bytes)

/-- The fields of the line of the process. -/
def processFields : List Bytes :=
  [ascii "cpu_user_seconds_total", ascii "open_fds", ascii "cpu_system_seconds_total",
    ascii "resident_memory_bytes", ascii "max_fds", ascii "threads"]

/-- **What is made of a metric of the process, the processor or the main queue.** -/
def ownSample (m : Bytes × UInt64) : Option Sample :=
  match components m.1 with
  | [c, d] =>
    if c = ascii "process" ∧ processFields.contains d then
      some ⟨m_measurement ++ ascii "_process", [], d, m.2, time⟩
    else if c = ascii "main_queue" ∧ d = ascii "length" then
      some ⟨m_measurement ++ ascii "_main_queue", [], ascii "queue_length", m.2, time⟩
    else none
  | [c, d, e] =>
    if c = ascii "processor" ∧ d = ascii "queue" ∧ e = ascii "length" then
      some ⟨m_measurement ++ ascii "_processor", [], ascii "queue_length", m.2, time⟩
    else if c = ascii "processor" ∧ d ≠ ascii "queue" ∧ e = ascii "heap_size" then
      some ⟨m_measurement ++ ascii "_processor", [(ascii "processor", d)], ascii "heap_size", m.2,
        time⟩
    else none
  | _ => none

/-- **What is made of a metric of an input or an output**: all of them are kept, the dots of what
is left of their names are underscores. -/
def namedSample (section_ measurement total : Bytes) (m : Bytes × UInt64) : Option Sample :=
  match components m.1 with
  | c :: name :: rest =>
    if c = section_ ∧ name ≠ total then
      some ⟨m_measurement ++ measurement, [(ascii "name", name)], [95].intercalate rest, m.2, time⟩
    else none
  | _ => none

end Expected

end Exporter

open Exporter

/-! ### Numbers -/

/-- How a number is written as a field. -/
def integerText (v : UInt64) : Bytes := text v ++ ascii "i"

theorem isDigit_of_mem_text {v : UInt64} {b : UInt8} (h : b ∈ text v) : Http.IsDigit b :=
  Http.isDigit_of_mem_sizeText h

theorem text_ne_nil (v : UInt64) : text v ≠ [] := by
  rw [text, Http.sizeText]
  split_ifs with h
  · simp
  · simpa using Nat.digits_ne_nil_iff_ne_zero.mpr h

/-- The number of a text. -/
def valueOf (s : Bytes) : UInt64 := UInt64.ofNat (Http.number s)

@[simp] theorem valueOf_text (v : UInt64) : valueOf (text v) = v := by
  rw [valueOf, text, Http.number_sizeText, UInt64.ofNat_toNat]

/-- **A number is read back as what it is.** -/
theorem readInteger_integerText (v : UInt64) : readInteger (integerText v) = some v := by
  have hsuffix : ascii "i" = [105] := rfl
  have hlast : (integerText v).getLast? = some 105 := by
    rw [integerText, hsuffix, List.getLast?_concat]
  have hdrop : (integerText v).dropLast = text v := by
    rw [integerText, hsuffix, List.dropLast_concat]
  have hnumber : Http.number (text v) = v.toNat := Http.number_sizeText v.toNat
  rw [readInteger, hlast, hdrop, hnumber, if_pos, UInt64.ofNat_toNat]
  refine ⟨rfl, text_ne_nil v, List.all_eq_true.mpr fun b hb => ?_, v.toNat_lt⟩
  exact decide_eq_true (isDigit_of_mem_text hb)

/-- A text of letters that are no separators. -/
theorem plain_of_forall {s : Bytes}
    (h : ∀ b ∈ s, b ≠ comma ∧ b ≠ equals ∧ b ≠ space ∧ b ≠ newline) : Plain s :=
  ⟨fun hm => (h _ hm).1 rfl, fun hm => (h _ hm).2.1 rfl, fun hm => (h _ hm).2.2.1 rfl,
    fun hm => (h _ hm).2.2.2 rfl⟩

theorem plain_integerText (v : UInt64) : Plain (integerText v) := by
  have hdigits : Plain (text v) := by
    refine plain_of_forall fun b hb => ?_
    have hdigit := isDigit_of_mem_text hb
    refine ⟨?_, ?_, ?_, ?_⟩
    all_goals
      rintro rfl
      exact absurd hdigit (by decide)
  exact hdigits.append (by decide)

/-! ### A walk from any node -/

section Walk

variable {textOf : UInt64 → Bytes} {t : PTree} {ms : List (Bytes × UInt64)}

/-- **The walk of what is below a path**: the metrics whose names begin with it, under what is
left of the names. -/
theorem visit_below (h : Built textOf t ms) (hnodup : (ms.map fun m => components m.1).Nodup)
    (hcomp : ∀ m ∈ ms, ∀ c ∈ components m.1, c ≠ [])
    (hpre : ∀ m ∈ ms, ∀ m' ∈ ms, components m.1 <+: components m'.1 → m = m')
    {p : List Bytes} (hp : p ≠ []) {sub : PTree} (hsub : t.get? p = some sub) :
    ((visit_if is_leaf sub []).map fun call => (call.1, call.2.data)).Perm
      ((ms.filter fun m => p <+: components m.1).map
        fun m => ([dot].intercalate ((components m.1).drop p.length), textOf m.2)) := by
  -- A node below `sub` is one of the whole tree, as many keys further down.
  have hvalue : ∀ q, sub.value q = t.value (p ++ q) := fun q => (Ptree.value_append hsub).symm
  have hsplit : ∀ m ∈ ms.filter (fun m => p <+: components m.1),
      components m.1 = p ++ (components m.1).drop p.length := by
    intro m hm
    have hinit : p <+: components m.1 := by simpa using (List.mem_filter.mp hm).2
    exact (List.prefix_append_drop hinit)
  have hmem : ∀ q d, (q, d) ∈ (ms.filter fun m => p <+: components m.1).map
      (fun m => ((components m.1).drop p.length, textOf m.2)) ↔
        sub.value q = some d ∧ ∀ k, sub.value (q ++ [k]) = none := by
    intro q d
    have hleaf := h.leaf_iff hpre (q := p ++ q) (by simp [hp]) d
    simp only [hvalue, ← List.append_assoc]
    refine Iff.trans ?_ hleaf.symm
    rw [List.mem_map]
    constructor
    · rintro ⟨m, hm, heq⟩
      obtain ⟨rfl, rfl⟩ := Prod.mk.inj heq
      exact ⟨m, (List.mem_filter.mp hm).1, hsplit m hm, rfl⟩
    · rintro ⟨m, hm, hname, rfl⟩
      refine ⟨m, List.mem_filter.mpr ⟨hm, by simp [hname]⟩, ?_⟩
      rw [hname, List.drop_left]
  have hnodup' : (((ms.filter fun m => p <+: components m.1).map
      fun m => ((components m.1).drop p.length, textOf m.2)).map Prod.fst).Nodup := by
    refine List.Nodup.of_map (p ++ ·) ?_
    have hfilter := hnodup.sublist ((List.filter_sublist
      (p := fun m : Bytes × UInt64 => decide (p <+: components m.1))).map fun m => components m.1)
    rw [List.map_map, List.map_map]
    rwa [List.map_congr_left fun m hm => hsplit m hm] at hfilter
  have hkeys : ∀ q, sub.value q ≠ none → ∀ k ∈ q, k ≠ [] := fun q hq k hk =>
    h.ne_nil_of_value hcomp (by rwa [← hvalue]) k (List.mem_append_right p hk)
  have hperm := visit_perm (h.distinct.of_get? hsub) hkeys hnodup' hmem
  rwa [List.map_map] at hperm

end Walk

/-! ### The fields of an input -/

/-- The commas between the fields come out right up to the round of the counter. -/
theorem foldl_visitField {calls : List (Bytes × PTree)} (hlength : calls.length ≤ 65536) :
    (calls.foldl visitField ([], 0)).1 =
      [comma].intercalate (calls.map fun call =>
        underscores call.1 ++ ascii "=" ++ call.2.data ++ ascii "i") := by
  have hfold : ∀ (calls : List (Bytes × PTree)) (oss : Bytes) (i : ℕ), 0 < i →
      i + calls.length ≤ 65536 →
      (calls.foldl visitField (oss, UInt16.ofNat i)).1 =
        oss ++ calls.flatMap fun call =>
          comma :: (underscores call.1 ++ ascii "=" ++ call.2.data ++ ascii "i") := by
    intro calls
    induction calls with
    | nil => simp
    | cons call calls ih =>
      intro oss i hi hle
      rw [List.length_cons] at hle
      have hcounter : UInt16.ofNat i ≠ 0 := fun h => by
        have hzero := congrArg UInt16.toNat h
        rw [UInt16.toNat_ofNat_of_lt' (by rw [UInt16.size]; omega)] at hzero
        exact absurd hzero (by simpa using Nat.pos_iff_ne_zero.mp hi)
      have hsucc : UInt16.ofNat i + 1 = UInt16.ofNat (i + 1) := by
        rw [UInt16.ofNat_add]
        rfl
      have hcomma : ascii "," = [comma] := rfl
      rw [List.foldl_cons, visitField, if_pos hcounter, hsucc, ih _ (i + 1) (by omega) (by omega),
        List.flatMap_cons, hcomma]
      simp
  cases calls with
  | nil => rfl
  | cons call calls =>
    rw [List.length_cons] at hlength
    have hone : (0 : UInt16) + 1 = UInt16.ofNat 1 := rfl
    rw [List.foldl_cons, visitField, if_neg (by simp), hone, hfold calls _ 1 (by omega) (by omega),
      List.map_cons, intercalate_cons, List.flatMap_map, List.append_nil, List.nil_append]

/-- The fields of the line of an input or an output. -/
def fieldsOf (node : PTree) : List (Bytes × UInt64) :=
  (visit_if is_leaf node []).map fun call => (underscores call.1, valueOf call.2.data)

theorem exportFields_eq {node : PTree} (hlength : (visit_if is_leaf node []).length ≤ 65536)
    (hdata : ∀ call ∈ visit_if is_leaf node [], ∃ v, call.2.data = text v) :
    exportFields node = fieldSet integerText (fieldsOf node) := by
  have hequals : ascii "=" = [equals] := rfl
  rw [exportFields, foldl_visitField hlength, fieldSet, fieldsOf, List.map_map]
  refine congrArg _ (List.map_congr_left fun call hcall => ?_)
  obtain ⟨v, hv⟩ := hdata call hcall
  rw [Function.comp_apply, pair, hv, valueOf_text, integerText, hequals]
  simp

/-! ### The sections, as lines -/

section Lines

variable (m_measurement time : Bytes) (metrics : MetricsTable)

/-- The line of a queue. -/
def queueLine (measurement : Bytes) (v : UInt64) : Line UInt64 :=
  ⟨m_measurement ++ measurement, [], [(ascii "queue_length", v)], time⟩

/-- The line of a thread of the processor. -/
def heapLine (processor : Bytes) (v : UInt64) : Line UInt64 :=
  ⟨m_measurement ++ ascii "_processor", [(ascii "processor", processor)], [(ascii "heap_size", v)],
    time⟩

/-- The line of an input or an output. -/
def namedLine (measurement : Bytes) (child : Bytes × PTree) : Line UInt64 :=
  ⟨m_measurement ++ measurement, [(ascii "name", child.1)], fieldsOf child.2, time⟩

/-- The line of the process. -/
def processLine (value : Bytes → UInt64) : Line UInt64 :=
  ⟨m_measurement ++ ascii "_process", [], processFields.map fun field =>
    (field, value (ascii "process." ++ field)), time⟩

variable {m_measurement time metrics}

theorem exportProcess_eq {value : Bytes → UInt64}
    (h : ∀ field ∈ processFields, metrics.at? (ascii "process." ++ field) =
      some (value (ascii "process." ++ field))) :
    exportProcess m_measurement time metrics =
      some (render integerText [processLine m_measurement time value]) := by
  simp only [processFields, List.forall_mem_cons] at h
  obtain ⟨huser, hfds, hsystem, hmemory, hmax, hthreads, -⟩ := h
  -- The names and the constants of the source, in parts.
  have nuser : ascii "process.cpu_user_seconds_total" =
    ascii "process." ++ ascii "cpu_user_seconds_total" := rfl
  have nfds : ascii "process.open_fds" = ascii "process." ++ ascii "open_fds" := rfl
  have nsystem : ascii "process.cpu_system_seconds_total" =
    ascii "process." ++ ascii "cpu_system_seconds_total" := rfl
  have nmemory : ascii "process.resident_memory_bytes" =
    ascii "process." ++ ascii "resident_memory_bytes" := rfl
  have nmax : ascii "process.max_fds" = ascii "process." ++ ascii "max_fds" := rfl
  have nthreads : ascii "process.threads" = ascii "process." ++ ascii "threads" := rfl
  have cprocess : ascii "_process " = ascii "_process" ++ [space] := rfl
  have cuser : ascii "cpu_user_seconds_total=" = ascii "cpu_user_seconds_total" ++ [equals] := rfl
  have cfds : ascii "i,open_fds=" = ascii "i" ++ comma :: (ascii "open_fds" ++ [equals]) := rfl
  have csystem : ascii "i,cpu_system_seconds_total=" =
    ascii "i" ++ comma :: (ascii "cpu_system_seconds_total" ++ [equals]) := rfl
  have cmemory : ascii "i,resident_memory_bytes=" =
    ascii "i" ++ comma :: (ascii "resident_memory_bytes" ++ [equals]) := rfl
  have cmax : ascii "i,max_fds=" = ascii "i" ++ comma :: (ascii "max_fds" ++ [equals]) := rfl
  have cthreads : ascii "i,threads=" = ascii "i" ++ comma :: (ascii "threads" ++ [equals]) := rfl
  have cend : ascii "i " = ascii "i" ++ [space] := rfl
  have cnewline : ascii "\n" = [newline] := rfl
  rw [exportProcess, nuser, nfds, nsystem, nmemory, nmax, nthreads, huser, hfds, hsystem, hmemory,
    hmax, hthreads, cprocess, cuser, cfds, csystem, cmemory, cmax, cthreads, cend, cnewline]
  simp [render, processLine, processFields, Line.render, Line.series, fieldSet, pair, integerText,
    List.intercalate_cons_cons]

theorem exportQueue_eq {measurement name : Bytes} {v : UInt64} (h : metrics.at? name = some v) :
    exportQueue m_measurement time metrics (measurement ++ [space]) name =
      some (render integerText [queueLine m_measurement time measurement v]) := by
  have hnewline : ascii "\n" = [newline] := rfl
  have hequals : ascii "queue_length=" = ascii "queue_length" ++ [equals] := rfl
  have hend : ascii "i " = ascii "i" ++ [space] := rfl
  rw [exportQueue, h, hnewline, hequals, hend]
  simp [render, queueLine, Line.render, Line.series, fieldSet, pair, integerText]

/-- The metric of a thread of the processor. -/
def heapName (processor : Bytes) : Bytes := ascii "processor." ++ processor ++ ascii ".heap_size"

theorem exportHeaps_eq {processors : List (Bytes × PTree)} {value : Bytes → UInt64}
    (h : ∀ processor ∈ processors, processor.1 ≠ ascii "queue" →
      metrics.at? (heapName processor.1) = some (value (heapName processor.1))) :
    exportHeaps m_measurement time metrics processors =
      some (render integerText ((processors.filter fun processor => processor.1 ≠ ascii "queue").map
        fun processor =>
          heapLine m_measurement time processor.1 (value (heapName processor.1)))) := by
  have hnewline : ascii "\n" = [newline] := rfl
  have htag : ascii "_processor,processor=" =
    ascii "_processor" ++ comma :: (ascii "processor" ++ [equals]) := rfl
  have hfield : ascii " heap_size=" = space :: (ascii "heap_size" ++ [equals]) := rfl
  have hend : ascii "i " = ascii "i" ++ [space] := rfl
  have hfold : ∀ (processors : List (Bytes × PTree)) (oss : Bytes),
      (∀ processor ∈ processors, processor.1 ≠ ascii "queue" →
        metrics.at? (heapName processor.1) = some (value (heapName processor.1))) →
      processors.foldlM (exportHeap m_measurement time metrics) oss =
      some (oss ++ render integerText
        ((processors.filter fun processor => processor.1 ≠ ascii "queue").map fun processor =>
          heapLine m_measurement time processor.1 (value (heapName processor.1)))) := by
    intro processors
    induction processors with
    | nil => simp
    | cons processor processors ih =>
      intro oss h
      obtain ⟨hprocessor, hrest⟩ := List.forall_mem_cons.mp h
      rw [List.foldlM_cons, exportHeap]
      by_cases hqueue : processor.1 = ascii "queue"
      · rw [if_neg (by simpa using hqueue), List.filter_cons_of_neg (by simpa using hqueue)]
        exact ih oss hrest
      · have hat := hprocessor hqueue
        rw [heapName] at hat
        rw [if_pos hqueue, hat, List.filter_cons_of_pos (by simpa using hqueue),
          List.map_cons, render_cons, hnewline, htag, hfield, hend]
        refine (ih _ hrest).trans ?_
        simp [heapLine, Line.render, Line.series, fieldSet, pair, integerText, heapName,
          List.intercalate_cons_cons]
  exact hfold processors [] h

theorem exportNamed_eq {measurement total : Bytes} {children : List (Bytes × PTree)}
    (h : ∀ child ∈ children, child.1 ≠ total →
      exportFields child.2 = fieldSet integerText (fieldsOf child.2)) :
    exportNamed m_measurement time (measurement ++ comma :: (ascii "name" ++ [equals])) total
      children =
        render integerText ((children.filter fun child => child.1 ≠ total).map
          (namedLine m_measurement time measurement)) := by
  have hnewline : ascii "\n" = [newline] := rfl
  have hspace : ascii " " = [space] := rfl
  have hfold : ∀ (children : List (Bytes × PTree)) (oss : Bytes),
      (∀ child ∈ children, child.1 ≠ total →
        exportFields child.2 = fieldSet integerText (fieldsOf child.2)) →
      children.foldl (exportChild m_measurement time
        (measurement ++ comma :: (ascii "name" ++ [equals])) total) oss =
      oss ++ render integerText ((children.filter fun child => child.1 ≠ total).map
        (namedLine m_measurement time measurement)) := by
    intro children
    induction children with
    | nil => simp
    | cons child children ih =>
      intro oss h
      obtain ⟨hchild, hrest⟩ := List.forall_mem_cons.mp h
      rw [List.foldl_cons, exportChild]
      by_cases htotal : child.1 = total
      · rw [if_neg (by simpa using htotal), List.filter_cons_of_neg (by simpa using htotal)]
        exact ih oss hrest
      · rw [if_pos htotal, List.filter_cons_of_pos (by simpa using htotal), List.map_cons,
          render_cons, hnewline, hspace, hchild htotal]
        refine (ih _ hrest).trans ?_
        simp [namedLine, Line.render, Line.series, pair, List.intercalate_cons_cons]
  exact hfold children [] h

end Lines

/-! ### Tables that can be exported -/

/-- **The two tables of an export**, when all that is taken out of the first one by name is
there, the names are plain and none is the beginning of another one, and an input or an output has
no more metrics than the counter of the commas can count. -/
structure Exportable (metrics metrics' : MetricsTable) : Prop where
  names : ∀ name, (metrics.at? name).isSome = (metrics'.at? name).isSome
  plain : ∀ m ∈ metrics'.entries, Plain m.1
  components_ne_nil : ∀ m ∈ metrics'.entries, ∀ c ∈ components m.1, c ≠ []
  prefix_free : ∀ m ∈ metrics'.entries, ∀ m' ∈ metrics'.entries,
    components m.1 <+: components m'.1 → m = m'
  process : ∀ field ∈ processFields, (metrics.at? (ascii "process." ++ field)).isSome = true
  queue : (metrics.at? (ascii "processor.queue.length")).isSome = true
  heaps : ∀ m ∈ metrics'.entries, ∀ processor, [ascii "processor", processor] <+: components m.1 →
    processor ≠ ascii "queue" → (metrics.at? (heapName processor)).isSome = true
  main_queue : (metrics.at? (ascii "main_queue.length")).isSome = true
  inputs : ∃ m ∈ metrics'.entries, [ascii "inputs"] <+: components m.1
  outputs : ∃ m ∈ metrics'.entries, [ascii "outputs"] <+: components m.1
  few : ∀ c name : Bytes,
    (metrics'.entries.filter fun m => [c, name] <+: components m.1).length ≤ 65536

/-- The value of a metric that is there. -/
def MetricsTable.value (metrics : MetricsTable) (name : Bytes) : UInt64 := (metrics.at? name).getD 0

theorem MetricsTable.at?_eq {metrics : MetricsTable} {name : Bytes}
    (h : (metrics.at? name).isSome = true) : metrics.at? name = some (metrics.value name) := by
  obtain ⟨v, hv⟩ := Option.isSome_iff_exists.mp h
  rw [value, hv, Option.getD_some]

theorem MetricsTable.at?_isSome_iff {metrics : MetricsTable} {name : Bytes} :
    (metrics.at? name).isSome = true ↔ ∃ m ∈ metrics.entries, m.1 = name := by
  rw [at?, List.lookup_isSome_iff]
  constructor
  · rintro ⟨m, hm, hname⟩
    exact ⟨m, hm, (eq_of_beq hname).symm⟩
  · rintro ⟨m, hm, rfl⟩
    exact ⟨m, hm, by simp⟩

/-! ### The metrics that are taken by their names -/

/-- The names the exporter takes out of the first table, in the order of the lines. -/
def ownNames (processors : List Bytes) : List Bytes :=
  processFields.map (ascii "process." ++ ·) ++ [ascii "processor.queue.length"] ++
    processors.map heapName ++ [ascii "main_queue.length"]

theorem components_heapName {processor : Bytes} (h : dot ∉ processor) :
    components (heapName processor) = [ascii "processor", processor, ascii "heap_size"] := by
  have hfirst : ascii "processor." = ascii "processor" ++ [dot] := rfl
  have hlast : ascii ".heap_size" = dot :: ascii "heap_size" := rfl
  have hrest : (ascii "heap_size").splitOn dot = [ascii "heap_size"] := by decide
  rw [heapName, hfirst, hlast, components, List.append_assoc, List.append_assoc,
    List.singleton_append, splitOn_append_cons (by decide), splitOn_append_cons h, hrest]

section Own

variable {m_measurement time : Bytes} {processors : List Bytes}

/-- What is taken by name, by its components. -/
theorem map_components_ownNames (hdot : ∀ processor ∈ processors, dot ∉ processor) :
    (ownNames processors).map components =
      processFields.map (fun field => [ascii "process", field]) ++
        [[ascii "processor", ascii "queue", ascii "length"]] ++
        processors.map (fun processor => [ascii "processor", processor, ascii "heap_size"]) ++
        [[ascii "main_queue", ascii "length"]] := by
  have hprocess : (processFields.map (ascii "process." ++ ·)).map components =
      processFields.map (fun field => [ascii "process", field]) := by decide +kernel
  have hqueue : components (ascii "processor.queue.length") =
      [ascii "processor", ascii "queue", ascii "length"] := by decide +kernel
  have hmain : components (ascii "main_queue.length") =
      [ascii "main_queue", ascii "length"] := by decide +kernel
  rw [ownNames, List.map_append, List.map_append, List.map_append, hprocess, List.map_singleton,
    List.map_singleton, hqueue, hmain, List.map_map]
  congr 2
  exact List.map_congr_left fun processor hprocessor =>
    components_heapName (hdot processor hprocessor)

/-- No name is taken twice. -/
theorem nodup_ownNames (hnodup : processors.Nodup)
    (hdot : ∀ processor ∈ processors, dot ∉ processor) : (ownNames processors).Nodup := by
  refine List.Nodup.of_map components ?_
  rw [map_components_ownNames hdot]
  have hprocess : (processFields.map fun field => [ascii "process", field]).Nodup := by
    decide +kernel
  have hheaps : (processors.map fun processor =>
      [ascii "processor", processor, ascii "heap_size"]).Nodup :=
    hnodup.map fun p q h => by simpa using h
  refine List.Nodup.append (List.Nodup.append (List.Nodup.append hprocess (List.nodup_singleton _)
    ?_) hheaps ?_) (List.nodup_singleton _) ?_
  · exact List.disjoint_singleton.mpr (by decide +kernel)
  · intro x hx hheap
    obtain ⟨processor, -, rfl⟩ := List.mem_map.mp hheap
    rcases List.mem_append.mp hx with hx | hx
    · obtain ⟨field, -, hfield⟩ := List.mem_map.mp hx
      simp at hfield
    · have hlength : ascii "heap_size" ≠ ascii "length" := by decide
      simp [hlength] at hx
  · refine List.disjoint_singleton.mpr fun hmem => ?_
    rcases List.mem_append.mp hmem with hmem | hmem
    · exact absurd hmem (by decide +kernel)
    · obtain ⟨processor, -, hheap⟩ := List.mem_map.mp hmem
      simp at hheap

/-- **What counts for the first four sections** has one of the names that are taken. -/
theorem ownSample_eq_none {m : Bytes × UInt64} (hname : m.1 ∉ ownNames processors)
    (hprocessors : ∀ processor, [ascii "processor", processor] <+: components m.1 →
      processor ≠ ascii "queue" → processor ∈ processors) :
    ownSample m_measurement time m = none := by
  have hm := intercalate_components m.1
  rw [ownSample]
  split
  · rename_i c d hcomponents
    rw [hcomponents, List.intercalate_cons_cons, List.intercalate_singleton] at hm
    rw [if_neg, if_neg]
    · rintro ⟨rfl, rfl⟩
      refine hname ?_
      rw [← hm]
      exact List.mem_append_right _ (List.mem_singleton.mpr rfl)
    · rintro ⟨rfl, hd⟩
      refine hname ?_
      rw [← hm]
      refine List.mem_append_left _ (List.mem_append_left _ (List.mem_append_left _ ?_))
      exact List.mem_map.mpr ⟨d, List.contains_iff_mem.mp hd, rfl⟩
  · rename_i c d e hcomponents
    rw [hcomponents, List.intercalate_cons_cons, List.intercalate_cons_cons,
      List.intercalate_singleton] at hm
    rw [if_neg, if_neg]
    · rintro ⟨rfl, hd, rfl⟩
      refine hname ?_
      rw [← hm]
      refine List.mem_append_left _ (List.mem_append_right _ (List.mem_map.mpr ⟨d, ?_, ?_⟩))
      · exact hprocessors d (by rw [hcomponents]; exact ⟨[ascii "heap_size"], rfl⟩) hd
      · have hfirst : ascii "processor." = ascii "processor" ++ [dot] := rfl
        have hlast : ascii ".heap_size" = [dot] ++ ascii "heap_size" := rfl
        rw [heapName, hfirst, hlast]
        simp
    · rintro ⟨rfl, rfl, rfl⟩
      refine hname ?_
      rw [← hm]
      refine List.mem_append_left _ (List.mem_append_left _ (List.mem_append_right _ ?_))
      exact List.mem_singleton.mpr rfl
  · rfl

/-- The lines of the first four sections. -/
def ownLines (m_measurement time : Bytes) (value : Bytes → UInt64) (processors : List Bytes) :
    List (Line UInt64) :=
  [processLine m_measurement time value] ++
    [queueLine m_measurement time (ascii "_processor") (value (ascii "processor.queue.length"))] ++
    processors.map (fun processor =>
      heapLine m_measurement time processor (value (heapName processor))) ++
    [queueLine m_measurement time (ascii "_main_queue") (value (ascii "main_queue.length"))]

theorem filterMap_eq_map_of_some {α β : Type} {f : α → Option β} {g : α → β} {l : List α}
    (h : ∀ a ∈ l, f a = some (g a)) : l.filterMap f = l.map g := by
  rw [← List.filterMap_eq_map]
  exact List.filterMap_congr h

/-- **Their values** are what is made of the metrics that are taken. -/
theorem samples_ownLines (value : Bytes → UInt64)
    (hdot : ∀ processor ∈ processors, dot ∉ processor) (hqueue : ascii "queue" ∉ processors) :
    samples (ownLines m_measurement time value processors) =
      (ownNames processors).filterMap fun name =>
        ownSample m_measurement time (name, value name) := by
  have hprocess : ∀ field ∈ processFields, components (ascii "process." ++ field) =
      [ascii "process", field] := by decide +kernel
  have hfields : ∀ field ∈ processFields,
      ownSample m_measurement time (ascii "process." ++ field, value (ascii "process." ++ field)) =
        some ⟨m_measurement ++ ascii "_process", [], field, value (ascii "process." ++ field),
          time⟩ := by
    intro field hfield
    rw [ownSample, hprocess field hfield]
    dsimp only
    rw [if_pos ⟨rfl, List.contains_iff_mem.mpr hfield⟩]
  have hlength : components (ascii "processor.queue.length") =
      [ascii "processor", ascii "queue", ascii "length"] := by decide +kernel
  have hheaps : ∀ processor ∈ processors,
      ownSample m_measurement time (heapName processor, value (heapName processor)) =
        some ⟨m_measurement ++ ascii "_processor", [(ascii "processor", processor)],
          ascii "heap_size", value (heapName processor), time⟩ := by
    intro processor hprocessor
    have hne : processor ≠ ascii "queue" := fun h => hqueue (h ▸ hprocessor)
    rw [ownSample, components_heapName (hdot processor hprocessor)]
    dsimp only
    rw [if_neg fun h => hne h.2.1, if_pos ⟨rfl, hne, rfl⟩]
  have hmain : components (ascii "main_queue.length") =
      [ascii "main_queue", ascii "length"] := by decide +kernel
  have hother : ascii "main_queue" ≠ ascii "process" := by decide
  have hprocessLine : (processFields.map (ascii "process." ++ ·)).filterMap
      (fun name => ownSample m_measurement time (name, value name)) =
        lineSamples (processLine m_measurement time value) := by
    rw [List.filterMap_map, lineSamples, processLine, List.map_map]
    exact filterMap_eq_map_of_some hfields
  have hqueueLine : [ascii "processor.queue.length"].filterMap
      (fun name => ownSample m_measurement time (name, value name)) =
        lineSamples (queueLine m_measurement time (ascii "_processor")
          (value (ascii "processor.queue.length"))) := by
    rw [List.filterMap_cons, ownSample, hlength]
    dsimp only
    rw [if_pos ⟨rfl, rfl, rfl⟩]
    rfl
  have hheapLines : (processors.map heapName).filterMap
      (fun name => ownSample m_measurement time (name, value name)) =
        (processors.map fun processor => heapLine m_measurement time processor
          (value (heapName processor))).flatMap lineSamples := by
    rw [List.filterMap_map, List.flatMap_map]
    refine (filterMap_eq_map_of_some hheaps).trans ?_
    exact (List.flatMap_pure_eq_map _ _).symm
  have hmainLine : [ascii "main_queue.length"].filterMap
      (fun name => ownSample m_measurement time (name, value name)) =
        lineSamples (queueLine m_measurement time (ascii "_main_queue")
          (value (ascii "main_queue.length"))) := by
    rw [List.filterMap_cons, ownSample, hmain]
    dsimp only
    rw [if_neg fun h => hother h.1, if_pos ⟨rfl, rfl⟩]
    rfl
  rw [ownLines, ownNames, samples, List.flatMap_append, List.flatMap_append, List.flatMap_append,
    List.filterMap_append, List.filterMap_append, List.filterMap_append, List.flatMap_singleton,
    List.flatMap_singleton, List.flatMap_singleton, hprocessLine, hqueueLine, hheapLines,
    hmainLine]

end Own

/-! ### The metrics of inputs and outputs -/

theorem underscores_intercalate {parts : List Bytes} (h : ∀ part ∈ parts, dot ∉ part) :
    underscores ([dot].intercalate parts) = [95].intercalate parts := by
  have hpart : ∀ part, dot ∉ part → underscores part = part := by
    intro part hdot
    refine (List.map_congr_left fun b hb => ?_).trans (List.map_id part)
    rw [if_neg]
    · rfl
    · rintro rfl
      exact hdot hb
  induction parts with
  | nil => rfl
  | cons part parts ih =>
    obtain ⟨hdot, hparts⟩ := List.forall_mem_cons.mp h
    rcases parts with _ | ⟨next, parts⟩
    · rw [List.intercalate_singleton, List.intercalate_singleton, hpart part hdot]
    · have happend : ∀ s s' : Bytes, underscores (s ++ s') = underscores s ++ underscores s' :=
        fun s s' => List.map_append
      have hsingle : underscores [dot] = [95] := rfl
      rw [List.intercalate_cons_cons, List.intercalate_cons_cons, happend, happend, hpart part hdot,
        hsingle, ih hparts]

/-- What a name begins with does not say more about it than its components do. -/
theorem namedSample_of_prefix {m_measurement time c measurement total name : Bytes}
    {m : Bytes × UInt64} (hinit : [c, name] <+: components m.1) (htotal : name ≠ total) :
    namedSample m_measurement time c measurement total m =
      some ⟨m_measurement ++ measurement, [(ascii "name", name)],
        [95].intercalate ((components m.1).drop 2), m.2, time⟩ := by
  obtain ⟨rest, hrest⟩ := hinit
  rw [namedSample, ← hrest]
  exact if_pos ⟨rfl, htotal⟩

theorem prefix_of_namedSample {m_measurement time c measurement total : Bytes}
    {m : Bytes × UInt64} (h : namedSample m_measurement time c measurement total m ≠ none) :
    ∃ name, name ≠ total ∧ [c, name] <+: components m.1 := by
  rw [namedSample] at h
  split at h
  · rename_i d name rest hcomponents
    split_ifs at h with hif
    · obtain ⟨rfl, htotal⟩ := hif
      exact ⟨name, htotal, by rw [hcomponents]; exact ⟨rest, rfl⟩⟩
    · exact absurd rfl h
  · exact absurd rfl h

section Named

variable {m_measurement time measurement total c : Bytes} {t : PTree} {ms : List (Bytes × UInt64)}
  (h : Built text t ms) (hnodup : (ms.map fun m => components m.1).Nodup)
  (hcomp : ∀ m ∈ ms, ∀ c ∈ components m.1, c ≠ [])
  (hpre : ∀ m ∈ ms, ∀ m' ∈ ms, components m.1 <+: components m'.1 → m = m')

include h hnodup hcomp hpre

/-- **The fields of a line** are the metrics whose names begin with the path of the child. -/
theorem fieldsOf_perm {p : List Bytes} (hp : p ≠ []) {child : PTree}
    (hchild : t.get? p = some child) :
    (fieldsOf child).Perm ((ms.filter fun m => p <+: components m.1).map
      fun m => ([95].intercalate ((components m.1).drop p.length), m.2)) := by
  have hperm := (visit_below h hnodup hcomp hpre hp hchild).map
    fun call => (underscores call.1, valueOf call.2)
  rw [List.map_map, List.map_map] at hperm
  rw [fieldsOf]
  refine hperm.trans (List.Perm.of_eq (List.map_congr_left fun m hm => ?_))
  have hdot : ∀ part ∈ (components m.1).drop p.length, dot ∉ part := fun part hpart =>
    dot_not_mem (List.mem_of_mem_drop hpart)
  rw [Function.comp_apply, underscores_intercalate hdot, valueOf_text]

/-- The texts of the leaves are those of numbers. -/
theorem data_of_mem_visit {p : List Bytes} (hp : p ≠ []) {child : PTree}
    (hchild : t.get? p = some child) :
    ∀ call ∈ visit_if is_leaf child [], ∃ v, call.2.data = text v := by
  intro call hcall
  have hperm := visit_below h hnodup hcomp hpre hp hchild
  have hmem := hperm.mem_iff.mp (List.mem_map_of_mem hcall)
  obtain ⟨m, -, hm⟩ := List.mem_map.mp hmem
  exact ⟨m.2, (Prod.mk.inj hm).2.symm⟩

/-- **What a line gives**: what is made of the metrics of this input or output. -/
theorem lineSamples_namedLine {name : Bytes} {child : PTree}
    (hchild : t.get? [c, name] = some child) (htotal : name ≠ total) :
    (lineSamples (namedLine m_measurement time measurement (name, child))).Perm
      ((ms.filter fun m => [c, name] <+: components m.1).filterMap
        (namedSample m_measurement time c measurement total)) := by
  have hsample : ∀ m ∈ ms.filter (fun m => [c, name] <+: components m.1),
      namedSample m_measurement time c measurement total m =
        some ⟨m_measurement ++ measurement, [(ascii "name", name)],
          [95].intercalate ((components m.1).drop 2), m.2, time⟩ := fun m hm =>
    namedSample_of_prefix (by simpa using (List.mem_filter.mp hm).2) htotal
  rw [filterMap_eq_map_of_some hsample, lineSamples]
  have hperm := (fieldsOf_perm h hnodup hcomp hpre (List.cons_ne_nil c [name]) hchild).map
    fun field => (⟨m_measurement ++ measurement, [(ascii "name", name)], field.1, field.2, time⟩ :
      Sample)
  rw [List.map_map] at hperm
  exact hperm

/-- **What a section gives**: what is made of all the metrics of inputs, or of outputs. -/
theorem samples_named {node : PTree} (hnode : t.get? [c] = some node) :
    (samples ((node.children.filter fun child => child.1 ≠ total).map
      (namedLine m_measurement time measurement))).Perm
        (ms.filterMap (namedSample m_measurement time c measurement total)) := by
  have hdistinct := h.distinct.of_get? hnode
  have hchild : ∀ child ∈ node.children, t.get? [c, child.1] = some child.2 := by
    intro child hmem
    have happend : [c, child.1] = [c] ++ [child.1] := rfl
    rw [happend, Ptree.get?_append, hnode, Option.bind_some]
    exact hdistinct.child hmem
  obtain ⟨names, hnames⟩ : ∃ names,
      names = (node.children.filter fun child => child.1 ≠ total).map Prod.fst := ⟨_, rfl⟩
  have hkeys : names.Nodup := hnames ▸ hdistinct.nodup.sublist (List.filter_sublist.map _)
  -- Every metric that counts is below one of the children.
  have hcounts : ∀ m ∈ ms, namedSample m_measurement time c measurement total m ≠ none →
      ∃ name ∈ names, [c, name] <+: components m.1 := by
    intro m hm hne
    obtain ⟨name, htotal, hinit⟩ := prefix_of_namedSample hne
    have hfound := h.value_of_prefix m hm _ hinit
    have happend : [c, name] = [c] ++ [name] := rfl
    rw [happend, Ptree.value_append hnode, Ptree.value_cons] at hfound
    obtain ⟨d, hd⟩ := Option.ne_none_iff_exists'.mp hfound
    obtain ⟨child, hlookup, -⟩ := Option.bind_eq_some_iff.mp hd
    have hmem := (Ptree.lookup_eq_of_nodup hdistinct.nodup).mp hlookup
    refine ⟨name, ?_, hinit⟩
    rw [hnames]
    exact List.mem_map.mpr ⟨(name, child), List.mem_filter.mpr ⟨hmem, by simpa using htotal⟩, rfl⟩
  -- Line by line, then all the metrics together.
  have hlines : (samples ((node.children.filter fun child => child.1 ≠ total).map
      (namedLine m_measurement time measurement))).Perm
        ((names.flatMap fun name => ms.filter fun m => [c, name] <+: components m.1).filterMap
          (namedSample m_measurement time c measurement total)) := by
    rw [hnames, samples, List.flatMap_map, List.flatMap_map, List.filterMap_flatMap]
    refine List.Perm.flatMap_left _ fun child hmem => ?_
    obtain ⟨hmem, htotal⟩ := List.mem_filter.mp hmem
    exact lineSamples_namedLine h hnodup hcomp hpre (hchild child hmem) (by simpa using htotal)
  have hcollected : (names.flatMap fun name => ms.filter fun m => [c, name] <+: components m.1).Perm
      (ms.filter fun m => names.any fun name => [c, name] <+: components m.1) := by
    refine List.flatMap_filter_perm hkeys (fun name name' m hname hname' => ?_) ms
    have hsame := List.prefix_of_prefix_length_le (of_decide_eq_true hname)
      (of_decide_eq_true hname') (by simp)
    simpa using hsame.eq_of_length (by simp)
  refine hlines.trans ((hcollected.filterMap _).trans (List.Perm.of_eq ?_))
  rw [List.filterMap_filter]
  refine List.filterMap_congr fun m hm => ?_
  by_cases hne : namedSample m_measurement time c measurement total m = none
  · rw [hne, ite_self]
  · obtain ⟨name, hname, hinit⟩ := hcounts m hm hne
    exact if_pos (List.any_eq_true.mpr ⟨name, hname, decide_eq_true hinit⟩)

end Named

/-! ### Lines that can be read -/

theorem subset_intercalate (sep : UInt8) {part : Bytes} {parts : List Bytes} (h : part ∈ parts) :
    part ⊆ [sep].intercalate parts := by
  induction parts with
  | nil => simp at h
  | cons first parts ih =>
    rcases parts with _ | ⟨next, parts⟩
    · obtain rfl := List.mem_singleton.mp h
      rw [List.intercalate_singleton]
      exact List.Subset.refl _
    · rw [List.intercalate_cons_cons]
      rcases List.mem_cons.mp h with rfl | h
      · exact fun b hb => List.mem_append_left _ (List.mem_append_left _ hb)
      · exact fun b hb => List.mem_append_right _ (ih h hb)

/-- The components of a plain name are plain. -/
theorem plain_of_mem_components {name part : Bytes} (h : Plain name)
    (hpart : part ∈ components name) : Plain part := by
  refine h.mono ?_
  have hsubset := subset_intercalate dot hpart
  rwa [intercalate_components] at hsubset

theorem plain_intercalate {parts : List Bytes} (h : ∀ part ∈ parts, Plain part) :
    Plain ([95].intercalate parts) :=
  ⟨not_mem_intercalate (by decide) fun part hpart => (h part hpart).1,
    not_mem_intercalate (by decide) fun part hpart => (h part hpart).2.1,
    not_mem_intercalate (by decide) fun part hpart => (h part hpart).2.2.1,
    not_mem_intercalate (by decide) fun part hpart => (h part hpart).2.2.2⟩

/-- What there is of a field to be read. -/
theorem readable_field {field : Bytes × UInt64} (h : Plain field.1) :
    Plain field.1 ∧ Plain (integerText field.2) ∧
      readInteger (integerText field.2) = some field.2 :=
  ⟨h, plain_integerText field.2, readInteger_integerText field.2⟩

section Readable

variable {m_measurement time : Bytes} (hmeasurement : Plain m_measurement) (htime : Plain time)

include hmeasurement htime

theorem readable_ownLines {processors : List Bytes}
    (hplain : ∀ processor ∈ processors, Plain processor) (value : Bytes → UInt64) :
    ∀ line ∈ ownLines m_measurement time value processors,
      line.Readable integerText readInteger := by
  have hqueueLine : ∀ (measurement : Bytes) (v : UInt64), Plain measurement →
      (queueLine m_measurement time measurement v).Readable integerText readInteger := by
    intro measurement v hplain
    refine ⟨hmeasurement.append hplain, by simp [queueLine], ?_, by simp [queueLine], htime⟩
    intro field hfield
    obtain rfl := List.mem_singleton.mp hfield
    have hname : Plain (ascii "queue_length") := by decide
    exact readable_field hname
  intro line hline
  simp only [ownLines, List.mem_append, List.mem_singleton, List.mem_map] at hline
  rcases hline with ((rfl | rfl) | ⟨processor, hprocessor, rfl⟩) | rfl
  · refine ⟨hmeasurement.append (by decide), by simp [processLine], ?_,
      by simp [processLine, processFields], htime⟩
    intro field hfield
    obtain ⟨name, hname, rfl⟩ := List.mem_map.mp hfield
    have hnames : ∀ name ∈ processFields, Plain name := by decide +kernel
    exact readable_field (hnames name hname)
  · exact hqueueLine _ _ (by decide)
  · refine ⟨hmeasurement.append (by decide), ?_, ?_, by simp [heapLine], htime⟩
    · intro tag htag
      obtain rfl := List.mem_singleton.mp htag
      have hkey : Plain (ascii "processor") := by decide
      exact ⟨hkey, hplain processor hprocessor⟩
    · intro field hfield
      obtain rfl := List.mem_singleton.mp hfield
      have hname : Plain (ascii "heap_size") := by decide
      exact readable_field hname
  · exact hqueueLine _ _ (by decide)

theorem readable_namedLine {t : PTree} {ms : List (Bytes × UInt64)} (h : Built text t ms)
    (hnodup : (ms.map fun m => components m.1).Nodup)
    (hcomp : ∀ m ∈ ms, ∀ c ∈ components m.1, c ≠ [])
    (hpre : ∀ m ∈ ms, ∀ m' ∈ ms, components m.1 <+: components m'.1 → m = m')
    (hplain : ∀ m ∈ ms, Plain m.1) {measurement c name : Bytes} {child : PTree}
    (hkind : Plain measurement) (hchild : t.get? [c, name] = some child) :
    (namedLine m_measurement time measurement (name, child)).Readable integerText readInteger := by
  have hperm := fieldsOf_perm h hnodup hcomp hpre (List.cons_ne_nil c [name]) hchild
  have hvalue : t.value [c, name] ≠ none := by simp [Ptree.value, hchild]
  obtain ⟨m, hm, hinit⟩ := h.prefix_of_value _ (List.cons_ne_nil c [name]) hvalue
  refine ⟨hmeasurement.append hkind, ?_, ?_, ?_, htime⟩
  · intro tag htag
    obtain rfl := List.mem_singleton.mp htag
    have hkey : Plain (ascii "name") := by decide
    exact ⟨hkey, plain_of_mem_components (hplain m hm) (hinit.subset (by simp))⟩
  · intro field hfield
    obtain ⟨m', hm', rfl⟩ := List.mem_map.mp (hperm.mem_iff.mp hfield)
    refine readable_field (plain_intercalate fun part hpart => ?_)
    exact plain_of_mem_components (hplain m' (List.mem_filter.mp hm').1)
      (List.mem_of_mem_drop hpart)
  · intro hnil
    have hfields : fieldsOf child = [] := hnil
    rw [hfields, List.nil_perm] at hperm
    have hmem : m ∈ ms.filter fun m => [c, name] <+: components m.1 :=
      List.mem_filter.mpr ⟨hm, decide_eq_true hinit⟩
    rw [List.map_eq_nil_iff.mp hperm] at hmem
    exact List.not_mem_nil hmem

end Readable

/-! ### What is sent -/

/-- **What an export should say**: of the first table what is taken out of it by name, and of the
second all metrics of inputs and outputs. -/
def exported (m_measurement time : Bytes) (metrics metrics' : MetricsTable) : List Sample :=
  metrics.entries.filterMap (ownSample m_measurement time) ++
    metrics'.entries.filterMap (namedSample m_measurement time (ascii "inputs") (ascii "_inputs")
      (ascii "receive_total")) ++
    metrics'.entries.filterMap (namedSample m_measurement time (ascii "outputs")
      (ascii "_outputs") (ascii "sent_total"))

section Sent

variable {put : PTree → List Bytes → Bytes → PTree} (hput : Ptree.IsPut [] put)
  {metrics metrics' : MetricsTable}

theorem MetricsTable.nodup_components (metrics : MetricsTable) :
    (metrics.entries.map fun m => components m.1).Nodup := by
  have hnames := metrics.nodup.map components_injective
  rwa [List.map_map] at hnames

include hput

/-- There is a child for every first component. -/
theorem get_child_eq {c : Bytes} (hc : components c = [c])
    (hmetric : ∃ m ∈ metrics'.entries, [c] <+: components m.1) :
    ∃ node, (getMetricsPtree put text metrics').get? [c] = some node ∧
      get_child (getMetricsPtree put text metrics') c = .ok node := by
  obtain ⟨m, hm, hinit⟩ := hmetric
  have hbuilt : Built text (getMetricsPtree put text metrics') metrics'.entries :=
    built_getMetricsPtree hput metrics'
  have hfound := hbuilt.value_of_prefix m hm _ hinit
  obtain ⟨d, hd⟩ := Option.ne_none_iff_exists'.mp hfound
  obtain ⟨node, hnode, -⟩ := Option.map_eq_some_iff.mp hd
  exact ⟨node, hnode, by rw [get_child, hc, hnode]⟩

namespace Exportable

variable (h : Exportable metrics metrics')

include h

/-- **A section of inputs or outputs**: its lines can be read, and give what is made of the
metrics. -/
theorem exportNamed_spec {m_measurement time : Bytes} (hmeasurement : Plain m_measurement)
    (htime : Plain time) {c measurement : Bytes} (total : Bytes) (hkind : Plain measurement)
    {node : PTree} (hnode : (getMetricsPtree put text metrics').get? [c] = some node) :
    ∃ lines : List (Line UInt64), (∀ line ∈ lines, line.Readable integerText readInteger) ∧
      exportNamed m_measurement time (measurement ++ comma :: (ascii "name" ++ [equals])) total
        node.children = render integerText lines ∧
      (samples lines).Perm
        (metrics'.entries.filterMap (namedSample m_measurement time c measurement total)) := by
  have hbuilt : Built text (getMetricsPtree put text metrics') metrics'.entries :=
    built_getMetricsPtree hput metrics'
  have hnodup := metrics'.nodup_components
  have hchild : ∀ child ∈ node.children,
      (getMetricsPtree put text metrics').get? [c, child.1] = some child.2 := by
    intro child hmem
    have happend : [c, child.1] = [c] ++ [child.1] := rfl
    rw [happend, Ptree.get?_append, hnode, Option.bind_some]
    exact (hbuilt.distinct.of_get? hnode).child hmem
  refine ⟨(node.children.filter fun child => child.1 ≠ total).map
    (namedLine m_measurement time measurement), ?_, ?_, ?_⟩
  · intro line hline
    obtain ⟨child, hmem, rfl⟩ := List.mem_map.mp hline
    exact readable_namedLine hmeasurement htime hbuilt hnodup h.components_ne_nil h.prefix_free
      h.plain hkind (hchild child (List.mem_filter.mp hmem).1)
  · refine exportNamed_eq fun child hmem _ => exportFields_eq ?_ ?_
    · have hperm := visit_below hbuilt hnodup h.components_ne_nil h.prefix_free
        (List.cons_ne_nil c [child.1]) (hchild child hmem)
      have hlength := hperm.length_eq
      rw [List.length_map, List.length_map] at hlength
      rw [hlength]
      exact h.few c child.1
    · exact data_of_mem_visit hbuilt hnodup h.components_ne_nil h.prefix_free
        (List.cons_ne_nil c [child.1]) (hchild child hmem)
  · exact samples_named hbuilt hnodup h.components_ne_nil h.prefix_free hnode

/-- **The first four sections**: their lines can be read, and give what is made of the metrics. -/
theorem exportOwn_spec {m_measurement time : Bytes} (hmeasurement : Plain m_measurement)
    (htime : Plain time) {node : PTree}
    (hnode : (getMetricsPtree put text metrics').get? [ascii "processor"] = some node) :
    ∃ lines : List (Line UInt64), (∀ line ∈ lines, line.Readable integerText readInteger) ∧
      (exportProcess m_measurement time metrics).getD [] ++
        (exportQueue m_measurement time metrics (ascii "_processor ")
          (ascii "processor.queue.length")).getD [] ++
        (exportHeaps m_measurement time metrics node.children).getD [] ++
        (exportQueue m_measurement time metrics (ascii "_main_queue ")
          (ascii "main_queue.length")).getD [] = render integerText lines ∧
      (samples lines).Perm (metrics.entries.filterMap (ownSample m_measurement time)) := by
  have hbuilt : Built text (getMetricsPtree put text metrics') metrics'.entries :=
    built_getMetricsPtree hput metrics'
  have hdistinct := (hbuilt.distinct.of_get? hnode).nodup
  obtain ⟨processors, hprocessors⟩ : ∃ processors, processors =
      (node.children.filter fun processor => processor.1 ≠ ascii "queue").map Prod.fst := ⟨_, rfl⟩
  -- A child of the node is a component of some name.
  have hbelow : ∀ processor child, (processor, child) ∈ node.children →
      ∃ m ∈ metrics'.entries, [ascii "processor", processor] <+: components m.1 := by
    intro processor child hmem
    refine hbuilt.prefix_of_value [ascii "processor", processor] (by simp) ?_
    have happend : [ascii "processor", processor] = [ascii "processor"] ++ [processor] := rfl
    rw [happend, Ptree.value_append hnode, Ptree.value,
      (hbuilt.distinct.of_get? hnode).child hmem]
    simp
  have hmem : ∀ processor ∈ processors, processor ≠ ascii "queue" ∧
      ∃ m ∈ metrics'.entries, [ascii "processor", processor] <+: components m.1 := by
    intro processor hprocessor
    rw [hprocessors] at hprocessor
    obtain ⟨⟨name, child⟩, hchild, rfl⟩ := List.mem_map.mp hprocessor
    obtain ⟨hchild, hqueue⟩ := List.mem_filter.mp hchild
    exact ⟨by simpa using hqueue, hbelow name child hchild⟩
  have hdot : ∀ processor ∈ processors, dot ∉ processor := by
    intro processor hprocessor
    obtain ⟨-, m, -, hinit⟩ := hmem processor hprocessor
    exact dot_not_mem (hinit.subset (by simp))
  have hplain : ∀ processor ∈ processors, Plain processor := by
    intro processor hprocessor
    obtain ⟨-, m, hm, hinit⟩ := hmem processor hprocessor
    exact plain_of_mem_components (h.plain m hm) (hinit.subset (by simp))
  have hqueue : ascii "queue" ∉ processors := fun hmem' => (hmem _ hmem').1 rfl
  have hheap : ∀ processor ∈ processors,
      metrics.at? (heapName processor) = some (metrics.value (heapName processor)) := by
    intro processor hprocessor
    obtain ⟨hne, m, hm, hinit⟩ := hmem processor hprocessor
    exact MetricsTable.at?_eq (h.heaps m hm processor hinit hne)
  refine ⟨ownLines m_measurement time metrics.value processors,
    readable_ownLines hmeasurement htime hplain metrics.value, ?_, ?_⟩
  · have hprocessLine : exportProcess m_measurement time metrics =
        some (render integerText [processLine m_measurement time metrics.value]) :=
      exportProcess_eq fun field hfield => MetricsTable.at?_eq (h.process field hfield)
    have hqueueLine : exportQueue m_measurement time metrics (ascii "_processor" ++ [space])
        (ascii "processor.queue.length") = some (render integerText
          [queueLine m_measurement time (ascii "_processor") (metrics.value _)]) :=
      exportQueue_eq (MetricsTable.at?_eq h.queue)
    have hheapLines : exportHeaps m_measurement time metrics node.children =
        some (render integerText
          ((node.children.filter fun processor => processor.1 ≠ ascii "queue").map fun processor =>
            heapLine m_measurement time processor.1 (metrics.value (heapName processor.1)))) :=
      exportHeaps_eq fun processor hchild hne => hheap processor.1 (by
        rw [hprocessors]
        exact List.mem_map.mpr ⟨processor, List.mem_filter.mpr ⟨hchild, by simpa using hne⟩, rfl⟩)
    have hmainLine : exportQueue m_measurement time metrics (ascii "_main_queue" ++ [space])
        (ascii "main_queue.length") = some (render integerText
          [queueLine m_measurement time (ascii "_main_queue") (metrics.value _)]) :=
      exportQueue_eq (MetricsTable.at?_eq h.main_queue)
    have cqueue : ascii "_processor " = ascii "_processor" ++ [space] := rfl
    have cmain : ascii "_main_queue " = ascii "_main_queue" ++ [space] := rfl
    rw [cqueue, cmain, hprocessLine, hqueueLine, hheapLines, hmainLine, ownLines, hprocessors,
      render_append, render_append, render_append, List.map_map]
    rfl
  · rw [samples_ownLines metrics.value hdot hqueue]
    refine List.filterMap_lookup_perm metrics.nodup (nodup_ownNames ?_ hdot) ?_ ?_
    · exact hprocessors ▸ hdistinct.sublist (List.filter_sublist.map _)
    · intro name hname
      simp only [ownNames, List.mem_append, List.mem_singleton, List.mem_map] at hname
      rcases hname with ((⟨field, hfield, rfl⟩ | rfl) | ⟨processor, hprocessor, rfl⟩) | rfl
      · exact MetricsTable.at?_eq (h.process field hfield)
      · exact MetricsTable.at?_eq h.queue
      · exact hheap processor hprocessor
      · exact MetricsTable.at?_eq h.main_queue
    · intro m hm hname
      refine ownSample_eq_none hname fun processor hinit hne => ?_
      -- The metric is in the second table as well, and so there is a child for it.
      have hother := h.names m.1
      rw [MetricsTable.at?_isSome_iff.mpr ⟨m, hm, rfl⟩] at hother
      obtain ⟨m', hm', hsame⟩ := MetricsTable.at?_isSome_iff.mp hother.symm
      have hfound := hbuilt.value_of_prefix m' hm' _ (hsame.symm ▸ hinit)
      have happend : [ascii "processor", processor] = [ascii "processor"] ++ [processor] := rfl
      rw [happend, Ptree.value_append hnode, Ptree.value_cons] at hfound
      obtain ⟨d, hd⟩ := Option.ne_none_iff_exists'.mp hfound
      obtain ⟨child, hlookup, -⟩ := Option.bind_eq_some_iff.mp hd
      have hchild := (Ptree.lookup_eq_of_nodup hdistinct).mp hlookup
      rw [hprocessors]
      exact List.mem_map.mpr ⟨(processor, child),
        List.mem_filter.mpr ⟨hchild, by simpa using hne⟩, rfl⟩

end Exportable

/-- **What is sent is the table**: an export of tables that can be exported succeeds, and whoever
reads the text finds in it exactly the values of the metrics, each under its own measurement, tag
and field. -/
theorem samples_perm {m_measurement time : Bytes} (hmeasurement : Plain m_measurement)
    (htime : Plain time) (h : Exportable metrics metrics') :
    ∃ sent lines, exportTelegraf m_measurement time metrics put metrics' = .ok sent ∧
      read readInteger sent = some lines ∧
      (samples lines).Perm (exported m_measurement time metrics metrics') := by
  have hqueue : ∃ m ∈ metrics'.entries, [ascii "processor"] <+: components m.1 := by
    have hother := h.names (ascii "processor.queue.length")
    rw [h.queue] at hother
    obtain ⟨m, hm, hname⟩ := MetricsTable.at?_isSome_iff.mp hother.symm
    have hcomponents : [ascii "processor"] <+: components (ascii "processor.queue.length") := by
      decide +kernel
    exact ⟨m, hm, hname ▸ hcomponents⟩
  obtain ⟨processor, hprocessor, hget⟩ := get_child_eq hput (by decide +kernel) hqueue
  obtain ⟨inputs, hinputs, hgetInputs⟩ := get_child_eq hput (by decide +kernel) h.inputs
  obtain ⟨outputs, houtputs, hgetOutputs⟩ := get_child_eq hput (by decide +kernel) h.outputs
  obtain ⟨own, hreadOwn, hown, hownPerm⟩ := h.exportOwn_spec hput hmeasurement htime hprocessor
  have cinputs : ascii "_inputs,name=" =
    ascii "_inputs" ++ comma :: (ascii "name" ++ [equals]) := rfl
  have coutputs : ascii "_outputs,name=" =
    ascii "_outputs" ++ comma :: (ascii "name" ++ [equals]) := rfl
  have hplainInputs : Plain (ascii "_inputs") := by decide
  have hplainOutputs : Plain (ascii "_outputs") := by decide
  obtain ⟨ins, hreadIns, hins, hinsPerm⟩ :=
    h.exportNamed_spec hput hmeasurement htime (ascii "receive_total") hplainInputs hinputs
  obtain ⟨outs, hreadOuts, houts, houtsPerm⟩ :=
    h.exportNamed_spec hput hmeasurement htime (ascii "sent_total") hplainOutputs houtputs
  have hsent : exportTelegraf m_measurement time metrics put metrics' =
      .ok (render integerText (own ++ ins ++ outs)) := by
    rw [exportTelegraf, hget, hgetInputs, hgetOutputs, render_append, render_append, ← hown, ← hins,
      ← houts, cinputs, coutputs]
    rfl
  refine ⟨_, own ++ ins ++ outs, hsent, read_render fun line hline => ?_, ?_⟩
  · rcases List.mem_append.mp hline with hline | hline
    · rcases List.mem_append.mp hline with hline | hline
      · exact hreadOwn line hline
      · exact hreadIns line hline
    · exact hreadOuts line hline
  · rw [samples, List.flatMap_append, List.flatMap_append, exported]
    exact (hownPerm.append hinsPerm).append houtsPerm

end Sent

end IqLogger.Telegraf
