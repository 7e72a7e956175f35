import IqLogger.Metrics.MetricsController
import IqLogger.Stats.Http.Reply

/-!
# The metrics of the daemon

From the moment its configuration is checked until all its threads run the daemon registers the
counters of its parts: of every queue, of every input and output, of all of them together, of the
threads of the processor and of the process. The threads of the processor do this when they get
to it, and so the order is not always the same.

Each metric shows the counter of the part that registers it, with one exception
(`IqLogger.Metrics.Daemon.shows_of_startup`). The check of a script makes a processor with the
number 0, which registers its heap under the name the first thread will use, and is thrown away
again. As a name keeps its first callback, what the first thread registers later changes nothing.

That no other two parts get into each other's way is seen by the components of their names
(`IqLogger.Metrics.Daemon.path`): these say which counter it is, and none is the beginning of
another one (`IqLogger.Metrics.Daemon.same_of_prefix`).
-/

namespace IqLogger.Metrics

open Telegraf (components dot)

/-- A source of the configuration, as far as its metrics go: its name, whether it is a GELF input
over UDP, and whether it has a script. -/
structure Source where
  name : Bytes
  udp : Bool
  processor : Bool
  deriving DecidableEq

/-- What the configuration says. -/
structure Daemon where
  sources : List Source
  destinations : List Bytes
  threads : ℕ

/-- The queues. -/
inductive Queue
  | main_queue
  | input (i : ℕ)
  | output (j : ℕ)
  | processor
  deriving DecidableEq

/-- What a queue counts. -/
inductive Gauge
  | length
  | dropped
  | throttled
  deriving DecidableEq

/-- How a gauge is called. -/
def Gauge.text : Gauge → Bytes
  | .length => ascii "length"
  | .dropped => ascii "dropped"
  | .throttled => ascii "throttled"

/-- **The counters**, each of a part of the program. -/
inductive Counter
  | queue (queue : Queue) (gauge : Gauge)
  | bad_chunks (i : ℕ)
  | receive_total (i : ℕ)
  | inputs_receive_total
  | send_total (j : ℕ)
  | outputs_sent_total
  /-- The heap of a thread of the processor. -/
  | heap_size (k : ℕ)
  /-- The heap of the processor that checked the script of a source. -/
  | checked_heap_size (i : ℕ)
  | process (field : Bytes)
  deriving DecidableEq

/-- A registration. The callback reads the counter. -/
abbrev Registration := Bytes × Counter

/-! ### The registrations, function by function -/

/-- `MessageQueue::registerMetrics`. -/
def registerMetrics (m_name : Bytes) (queue : Queue) : List Registration :=
  [(m_name ++ ascii ".length", .queue queue .length),
    (m_name ++ ascii ".dropped", .queue queue .dropped),
    (m_name ++ ascii ".throttled", .queue queue .throttled)]

/-- What the constructor of an input registers. -/
def registerInput (i : ℕ) (source : Source) : List Registration :=
  registerMetrics (ascii "inputs." ++ source.name ++ ascii ".queue") (.input i) ++
    if source.udp then
      [(ascii "inputs." ++ source.name ++ ascii ".bad_chunks", .bad_chunks i)]
    else []

/-- `Input::startImpl`. -/
def startInput (i : ℕ) (source : Source) : Registration :=
  (ascii "inputs." ++ source.name ++ ascii ".receive_total", .receive_total i)

/-- What the constructor of an output registers. -/
def registerOutput (j : ℕ) (name : Bytes) : List Registration :=
  registerMetrics (ascii "outputs." ++ name ++ ascii ".queue") (.output j)

/-- `Output::startImpl`. -/
def startOutput (j : ℕ) (name : Bytes) : Registration :=
  (ascii "outputs." ++ name ++ ascii ".send_total", .send_total j)

/-- The name the constructor of `Isolate` registers. The number is an `unsigned short`. -/
def isolateName (m_processorIndex : UInt16) : Bytes :=
  ascii "processor." ++ Http.sizeText m_processorIndex.toNat ++ ascii ".heap_size"

/-- The fields of the process, in the order of `InternalMetrics::registerInternalMetrics`. -/
def internalMetrics : List Bytes :=
  [ascii "cpu_user_seconds_total", ascii "cpu_system_seconds_total",
    ascii "resident_memory_bytes", ascii "threads", ascii "open_fds", ascii "max_fds"]

/-- `InternalMetrics::registerInternalMetrics`. -/
def registerInternalMetrics : List Registration :=
  internalMetrics.map fun field => (ascii "process." ++ field, .process field)

/-- What the constructor of `ProcessorMachine` registers. -/
def registerProcessor : List Registration := registerMetrics (ascii "processor.queue") .processor

namespace Daemon

variable (d : Daemon)

/-- Whether some source has a script. -/
def hasProcessor : Bool := d.sources.any (·.processor)

/-- The sources with a script, by their numbers. -/
def scripted : List ℕ :=
  (d.sources.zipIdx.filter fun source => source.1.processor).map Prod.snd

/-- What the check of the configuration registers: the processor is made for the first script, and
every script is checked by a processor with the number 0. -/
def checks : List Registration :=
  if d.hasProcessor then
    registerProcessor ++ d.scripted.map fun i => (isolateName 0, .checked_heap_size i)
  else []

/-- What the parts register that live as long as the program, the processor apart. -/
def parts : List Registration :=
  registerMetrics (ascii "main_queue") .main_queue ++
    (d.sources.zipIdx.flatMap fun source => registerInput source.2 source.1) ++
    (d.destinations.zipIdx.flatMap fun destination =>
      registerOutput destination.2 destination.1) ++
    (List.range d.threads).map (fun k => (isolateName (UInt16.ofNat k), .heap_size k)) ++
    d.sources.zipIdx.map (fun source => startInput source.2 source.1) ++
    [(ascii "inputs.receive_total", .inputs_receive_total)] ++
    d.destinations.zipIdx.map (fun destination => startOutput destination.2 destination.1) ++
    [(ascii "outputs.sent_total", .outputs_sent_total)] ++
    registerInternalMetrics

/-- What is registered after the check. The processor is there already if there is a script. -/
def later : List Registration := (if d.hasProcessor then [] else registerProcessor) ++ d.parts

/-- All metrics of the parts that live as long as the program. -/
def metrics : List Registration := registerProcessor ++ d.parts

/-! ### Startup -/

/-- The state of the program, as far as callbacks look at it: the values of the counters. -/
abbrev Memory := Counter → metric_t

/-- How a registration is made: its callback reads the counter. -/
def call (r : Registration) : Bytes × (Memory → metric_t) := (r.1, fun memory => memory r.2)

/-- **The daemon has started**: it has registered what the check registers, and then the rest, in
some order. All metrics may have been processed at any time, also in between. -/
def Startup (calls : List (Call Memory)) : Prop :=
  ∃ regs : List Registration, regs.Perm d.later ∧
    registered calls = (d.checks ++ regs).map call

/-- **A metric shows a counter**: what the table has is what the counter was when all metrics were
processed last after it was registered. -/
def Shows (calls : List (Call Memory)) (name : Bytes) (counter : Counter) : Prop :=
  ∃ before after, calls = before ++ .registerMetric name (fun memory => memory counter) :: after ∧
    (MetricsTableInternal.run calls).getMetrics.lookup name =
      some (lastValue name (fun memory => memory counter) (processed after))

/-- What a metric shows: its own counter, but that of the first thread the heap of the processor
that checked the first script. -/
def shown (name : Bytes) (counter : Counter) : Counter :=
  match d.scripted.head? with
  | some i => if name = isolateName 0 then .checked_heap_size i else counter
  | none => counter

/-! ### The components of the names -/

/-- The names of the sources. -/
def sourceNames : List Bytes := d.sources.map (·.name)

/-- **The components of the name of a counter.** -/
def path : Counter → List Bytes
  | .queue .main_queue gauge => [ascii "main_queue", gauge.text]
  | .queue (.input i) gauge =>
    [ascii "inputs", d.sourceNames.getD i [], ascii "queue", gauge.text]
  | .queue (.output j) gauge =>
    [ascii "outputs", d.destinations.getD j [], ascii "queue", gauge.text]
  | .queue .processor gauge => [ascii "processor", ascii "queue", gauge.text]
  | .bad_chunks i => [ascii "inputs", d.sourceNames.getD i [], ascii "bad_chunks"]
  | .receive_total i => [ascii "inputs", d.sourceNames.getD i [], ascii "receive_total"]
  | .inputs_receive_total => [ascii "inputs", ascii "receive_total"]
  | .send_total j => [ascii "outputs", d.destinations.getD j [], ascii "send_total"]
  | .outputs_sent_total => [ascii "outputs", ascii "sent_total"]
  | .heap_size k =>
    [ascii "processor", Http.sizeText (UInt16.ofNat k).toNat, ascii "heap_size"]
  | .checked_heap_size _ => [ascii "processor", Http.sizeText 0, ascii "heap_size"]
  | .process field => [ascii "process", field]

/-- The daemon has a counter. -/
def Has : Counter → Prop
  | .queue (.input i) _ | .bad_chunks i | .receive_total i => i < d.sourceNames.length
  | .queue (.output j) _ | .send_total j => j < d.destinations.length
  | .heap_size k => k < d.threads
  | .process field => field ∈ internalMetrics
  | _ => True

/-- The name of a registration is that of its counter. -/
def Named (r : Registration) : Prop := r.1 = [dot].intercalate (d.path r.2) ∧ d.Has r.2

variable {d}

/-- The three metrics of a queue have its name before them. -/
theorem named_registerMetrics {m_name : Bytes} {queue : Queue}
    (hname : ∀ gauge : Gauge,
      m_name ++ dot :: gauge.text = [dot].intercalate (d.path (.queue queue gauge)))
    (hhas : ∀ gauge, d.Has (.queue queue gauge)) :
    ∀ r ∈ registerMetrics m_name queue, d.Named r := by
  intro r hr
  rcases hr with _ | ⟨_, _ | ⟨_, _ | ⟨_, hr⟩⟩⟩
  · exact ⟨hname .length, hhas .length⟩
  · exact ⟨hname .dropped, hhas .dropped⟩
  · exact ⟨hname .throttled, hhas .throttled⟩
  · exact absurd hr List.not_mem_nil

theorem named_registerProcessor : ∀ r ∈ registerProcessor, d.Named r := by
  refine named_registerMetrics (fun gauge => ?_) fun gauge => trivial
  rcases gauge <;> rfl

theorem sourceNames_getD {i : ℕ} {source : Source} (h : (source, i) ∈ d.sources.zipIdx) :
    i < d.sourceNames.length ∧ d.sourceNames.getD i [] = source.name := by
  have hsource := List.mk_mem_zipIdx_iff_getElem?.mp h
  obtain ⟨hi, -⟩ := List.getElem?_eq_some_iff.mp hsource
  refine ⟨by rwa [sourceNames, List.length_map], ?_⟩
  rw [sourceNames, List.getD_eq_getElem?_getD, List.getElem?_map, hsource]
  rfl

theorem destinations_getD {j : ℕ} {name : Bytes} (h : (name, j) ∈ d.destinations.zipIdx) :
    j < d.destinations.length ∧ d.destinations.getD j [] = name := by
  have hname := List.mk_mem_zipIdx_iff_getElem?.mp h
  obtain ⟨hj, -⟩ := List.getElem?_eq_some_iff.mp hname
  exact ⟨hj, by rw [List.getD_eq_getElem?_getD, hname, Option.getD_some]⟩

/-- The names of an input and an output, and those of its queue. -/
theorem intercalate_three (a b c : Bytes) :
    [dot].intercalate [a, b, c] = a ++ dot :: (b ++ dot :: c) := by
  simp [List.intercalate_cons_cons]

theorem intercalate_four (a b c e : Bytes) :
    [dot].intercalate [a, b, c, e] = a ++ dot :: (b ++ dot :: (c ++ dot :: e)) := by
  simp [List.intercalate_cons_cons]

theorem named_registerInput {i : ℕ} {source : Source} (h : (source, i) ∈ d.sources.zipIdx) :
    ∀ r ∈ registerInput i source, d.Named r := by
  obtain ⟨hi, hsource⟩ := sourceNames_getD h
  intro r hr
  rcases List.mem_append.mp hr with hr | hr
  · refine named_registerMetrics (fun gauge => ?_) (fun gauge => ?_) r hr
    · rw [path, hsource, intercalate_four, List.append_assoc, List.append_assoc]
      rfl
    · exact hi
  · split_ifs at hr with hudp
    · obtain rfl := List.mem_singleton.mp hr
      refine ⟨?_, hi⟩
      rw [path, hsource, intercalate_three, List.append_assoc]
      rfl
    · exact absurd hr List.not_mem_nil

theorem named_startInput {i : ℕ} {source : Source} (h : (source, i) ∈ d.sources.zipIdx) :
    d.Named (startInput i source) := by
  obtain ⟨hi, hsource⟩ := sourceNames_getD h
  refine ⟨?_, hi⟩
  rw [startInput, path, hsource, intercalate_three, List.append_assoc]
  rfl

theorem named_registerOutput {j : ℕ} {name : Bytes} (h : (name, j) ∈ d.destinations.zipIdx) :
    ∀ r ∈ registerOutput j name, d.Named r := by
  obtain ⟨hj, hname⟩ := destinations_getD h
  refine named_registerMetrics (fun gauge => ?_) (fun gauge => ?_)
  · rw [path, hname, intercalate_four, List.append_assoc, List.append_assoc]
    rfl
  · exact hj

theorem named_startOutput {j : ℕ} {name : Bytes} (h : (name, j) ∈ d.destinations.zipIdx) :
    d.Named (startOutput j name) := by
  obtain ⟨hj, hname⟩ := destinations_getD h
  refine ⟨?_, hj⟩
  rw [startOutput, path, hname, intercalate_three, List.append_assoc]
  rfl

theorem isolateName_eq (n : UInt16) :
    isolateName n =
      [dot].intercalate [ascii "processor", Http.sizeText n.toNat, ascii "heap_size"] := by
  rw [isolateName, intercalate_three, List.append_assoc]
  rfl

theorem named_heap_size {k : ℕ} (h : k < d.threads) :
    d.Named (isolateName (UInt16.ofNat k), .heap_size k) :=
  ⟨isolateName_eq _, h⟩

theorem named_checked (i : ℕ) : d.Named (isolateName 0, .checked_heap_size i) :=
  ⟨isolateName_eq 0, trivial⟩

theorem named_registerInternalMetrics : ∀ r ∈ registerInternalMetrics, d.Named r := by
  intro r hr
  obtain ⟨field, hfield, rfl⟩ := List.mem_map.mp hr
  refine ⟨?_, hfield⟩
  rw [path, List.intercalate_cons_cons, List.intercalate_singleton]
  rfl

/-- **Every part registers under the name of its counter.** -/
theorem named_of_mem_parts : ∀ r ∈ d.parts, d.Named r := by
  intro r hr
  simp only [parts, List.mem_append, List.mem_flatMap, List.mem_map, List.mem_singleton,
    List.mem_range] at hr
  rcases hr with (((((((h | ⟨s, hs, h⟩) | ⟨o, ho, h⟩) | ⟨k, hk, rfl⟩) | ⟨s, hs, rfl⟩) | rfl) |
    ⟨o, ho, rfl⟩) | rfl) | h
  · refine named_registerMetrics (fun gauge => ?_) (fun gauge => ?_) r h
    · rcases gauge <;> rfl
    · exact trivial
  · exact named_registerInput hs r h
  · exact named_registerOutput ho r h
  · exact named_heap_size hk
  · exact named_startInput hs
  · exact ⟨rfl, trivial⟩
  · exact named_startOutput ho
  · exact ⟨rfl, trivial⟩
  · exact named_registerInternalMetrics r h

theorem named_of_mem_metrics : ∀ r ∈ d.metrics, d.Named r := by
  intro r hr
  rcases List.mem_append.mp hr with hr | hr
  · exact named_registerProcessor r hr
  · exact named_of_mem_parts r hr

/-- The heaps of the first thread and of the processors of the check have the same name. -/
def same : Counter → Counter
  | .checked_heap_size _ => .heap_size 0
  | counter => counter

theorem path_same (counter : Counter) : d.path (same counter) = d.path counter := by
  rcases counter <;> rfl

/-- What the check registers are metrics of the processor, and heaps. -/
theorem mem_checks {r : Registration} (h : r ∈ d.checks) :
    r ∈ registerProcessor ∨ ∃ i ∈ d.scripted, r = (isolateName 0, .checked_heap_size i) := by
  rw [checks] at h
  split_ifs at h
  · rcases List.mem_append.mp h with h | h
    · exact Or.inl h
    · obtain ⟨i, hi, rfl⟩ := List.mem_map.mp h
      exact Or.inr ⟨i, hi, rfl⟩
  · exact absurd h List.not_mem_nil

/-- Everything is registered under the name of its counter. -/
theorem named_of_mem {r : Registration} (h : r ∈ d.checks ++ d.later) : d.Named r := by
  rcases List.mem_append.mp h with h | h
  · rcases mem_checks h with h | ⟨i, -, rfl⟩
    · exact named_registerProcessor r h
    · exact named_checked i
  · rw [later] at h
    rcases List.mem_append.mp h with h | h
    · split_ifs at h
      · exact absurd h List.not_mem_nil
      · exact named_registerProcessor r h
    · exact named_of_mem_parts r h

/-- All metrics are registered, sooner or later. -/
theorem mem_of_mem_metrics {r : Registration} (h : r ∈ d.metrics) : r ∈ d.checks ++ d.later := by
  rw [checks, later]
  rcases List.mem_append.mp h with h | h
  · split_ifs <;> simp [h]
  · simp [h]

theorem eq_queue_of_mem {m_name : Bytes} {queue : Queue} {r : Registration}
    (h : r ∈ registerMetrics m_name queue) : ∃ gauge, r.2 = .queue queue gauge := by
  rcases h with _ | ⟨_, _ | ⟨_, _ | ⟨_, h⟩⟩⟩
  · exact ⟨_, rfl⟩
  · exact ⟨_, rfl⟩
  · exact ⟨_, rfl⟩
  · exact absurd h List.not_mem_nil

/-- Only a check registers the heap of a processor that is thrown away. -/
theorem same_eq_self {r : Registration} (h : r ∈ d.metrics) : same r.2 = r.2 := by
  have hqueue : ∀ {m_name : Bytes} {queue : Queue}, r ∈ registerMetrics m_name queue →
      same r.2 = r.2 := fun hr => by
    obtain ⟨gauge, hgauge⟩ := eq_queue_of_mem hr
    rw [hgauge]
    rfl
  simp only [metrics, parts, List.mem_append, List.mem_flatMap, List.mem_map, List.mem_singleton,
    List.mem_range] at h
  rcases h with h | (((((((h | ⟨s, hs, h⟩) | ⟨o, ho, h⟩) | ⟨k, hk, rfl⟩) | ⟨s, hs, rfl⟩) | rfl) |
    ⟨o, ho, rfl⟩) | rfl) | h
  · exact hqueue h
  · exact hqueue h
  · rcases List.mem_append.mp h with h | h
    · exact hqueue h
    · split_ifs at h with hudp
      · obtain rfl := List.mem_singleton.mp h
        rfl
      · exact absurd h List.not_mem_nil
  · exact hqueue h
  · rfl
  · rfl
  · rfl
  · rfl
  · rfl
  · obtain ⟨field, -, rfl⟩ := List.mem_map.mp h
    rfl

/-! ### Which counter a name belongs to -/

/-- **Names that cannot be mistaken for each other**: those of the sources are different, and
those of the destinations, there is no dot in them, and the number of a thread is one that an
`unsigned short` can hold. -/
structure Distinct (d : Daemon) : Prop where
  sources : d.sourceNames.Nodup
  destinations : d.destinations.Nodup
  dots : ∀ name ∈ d.sourceNames ++ d.destinations, dot ∉ name
  threads : d.threads ≤ 65536

/-- A gauge, by what it is called. -/
def gaugeOf (text : Bytes) : Option Gauge :=
  if text = ascii "length" then some .length
  else if text = ascii "dropped" then some .dropped
  else if text = ascii "throttled" then some .throttled
  else none

theorem gaugeOf_text (gauge : Gauge) : gaugeOf gauge.text = some gauge := by
  rcases gauge <;> decide

variable (d) in
/-- **The counter of a name**, by the components of the name. -/
def counterOf : List Bytes → Option Counter
  | [first, name] =>
    if first = ascii "main_queue" then (gaugeOf name).map (.queue .main_queue)
    else if first = ascii "process" then some (.process name)
    else if first = ascii "inputs" then some .inputs_receive_total
    else some .outputs_sent_total
  | [first, name, last] =>
    if first = ascii "processor" then
      if name = ascii "queue" then (gaugeOf last).map (.queue .processor)
      else some (.heap_size (Http.number name))
    else if first = ascii "outputs" then some (.send_total (d.destinations.idxOf name))
    else if last = ascii "bad_chunks" then some (.bad_chunks (d.sourceNames.idxOf name))
    else some (.receive_total (d.sourceNames.idxOf name))
  | [first, name, _, last] =>
    (gaugeOf last).map (.queue (if first = ascii "inputs" then .input (d.sourceNames.idxOf name)
      else .output (d.destinations.idxOf name)))
  | _ => none

theorem getD_mem {names : List Bytes} {i : ℕ} (hi : i < names.length) :
    names.getD i [] ∈ names := by
  rw [List.getD_eq_getElem?_getD, List.getElem?_eq_getElem hi, Option.getD_some]
  exact List.getElem_mem hi

theorem idxOf_getD {names : List Bytes} {i : ℕ} (hnodup : names.Nodup) (hi : i < names.length) :
    names.idxOf (names.getD i []) = i := by
  rw [List.getD_eq_getElem?_getD, List.getElem?_eq_getElem hi, Option.getD_some]
  exact hnodup.idxOf_getElem i hi

theorem sizeText_ne_queue (n : ℕ) : Http.sizeText n ≠ ascii "queue" := by
  intro h
  have hq : (113 : UInt8) ∈ Http.sizeText n := by
    rw [h]
    decide
  exact absurd (Http.isDigit_of_mem_sizeText hq) (by decide)

/-- **A name says which counter it is.** -/
theorem counterOf_path (h : d.Distinct) {counter : Counter} (hhas : d.Has counter) :
    d.counterOf (d.path counter) = some (same counter) := by
  rcases counter with ⟨_ | i | j | _, gauge⟩ | i | i | _ | j | _ | k | i | field
  · rw [path, counterOf, if_pos rfl, gaugeOf_text]
    rfl
  · rw [path, counterOf, if_pos rfl, gaugeOf_text, idxOf_getD h.sources hhas]
    rfl
  · rw [path, counterOf, if_neg (by decide), gaugeOf_text, idxOf_getD h.destinations hhas]
    rfl
  · rw [path, counterOf, if_pos rfl, if_pos rfl, gaugeOf_text]
    rfl
  · rw [path, counterOf, if_neg (by decide), if_neg (by decide), if_pos rfl,
      idxOf_getD h.sources hhas]
    rfl
  · rw [path, counterOf, if_neg (by decide), if_neg (by decide), if_neg (by decide),
      idxOf_getD h.sources hhas]
    rfl
  · rw [path, counterOf, if_neg (by decide), if_neg (by decide), if_pos rfl]
    rfl
  · rw [path, counterOf, if_neg (by decide), if_pos rfl, idxOf_getD h.destinations hhas]
    rfl
  · rw [path, counterOf, if_neg (by decide), if_neg (by decide), if_neg (by decide)]
    rfl
  · have hk : k < 65536 := Nat.lt_of_lt_of_le hhas h.threads
    rw [path, counterOf, if_pos rfl, if_neg (sizeText_ne_queue _), Http.number_sizeText,
      UInt16.toNat_ofNat_of_lt' hk]
    rfl
  · rw [path, counterOf, if_pos rfl, if_neg (sizeText_ne_queue _), Http.number_sizeText]
    rfl
  · rw [path, counterOf, if_neg (by decide), if_pos rfl]
    rfl

/-- How long a name is, as far as one can tell from its first three components. -/
def pathLength : List Bytes → ℕ
  | first :: second :: rest =>
    if first = ascii "processor" then 3
    else if first = ascii "inputs" ∧ second ≠ ascii "receive_total" ∨
        first = ascii "outputs" ∧ second ≠ ascii "sent_total" then
      if rest.head? = some (ascii "queue") then 4 else 3
    else 2
  | _ => 0

/-- No part has the name of the total of all of them. -/
structure Apart (d : Daemon) : Prop where
  receive_total : ascii "receive_total" ∉ d.sourceNames
  sent_total : ascii "sent_total" ∉ d.destinations

theorem getD_ne {names : List Bytes} {i : ℕ} {name : Bytes} (hname : name ∉ names)
    (hi : i < names.length) : names.getD i [] ≠ name := by
  rintro rfl
  exact hname (getD_mem hi)

theorem pathLength_total {first second : Bytes} {rest : List Bytes}
    (hprocessor : first ≠ ascii "processor") (hinputs : first = ascii "inputs" →
      second = ascii "receive_total") (houtputs : first = ascii "outputs" →
      second = ascii "sent_total") : pathLength (first :: second :: rest) = 2 := by
  rw [pathLength, if_neg hprocessor, if_neg]
  rintro (⟨hfirst, hsecond⟩ | ⟨hfirst, hsecond⟩)
  · exact hsecond (hinputs hfirst)
  · exact hsecond (houtputs hfirst)

theorem pathLength_processor {second : Bytes} {rest : List Bytes} :
    pathLength (ascii "processor" :: second :: rest) = 3 := by
  rw [pathLength, if_pos rfl]

theorem pathLength_input {name next : Bytes} {rest : List Bytes}
    (hname : name ≠ ascii "receive_total") :
    pathLength (ascii "inputs" :: name :: next :: rest) =
      if next = ascii "queue" then 4 else 3 := by
  rw [pathLength, if_neg (by decide), if_pos (Or.inl ⟨rfl, hname⟩), List.head?_cons]
  simp

theorem pathLength_output {name next : Bytes} {rest : List Bytes}
    (hname : name ≠ ascii "sent_total") :
    pathLength (ascii "outputs" :: name :: next :: rest) =
      if next = ascii "queue" then 4 else 3 := by
  rw [pathLength, if_neg (by decide), if_pos (Or.inr ⟨rfl, hname⟩), List.head?_cons]
  simp

/-- Whatever comes after a name, one can tell how long it is. -/
theorem pathLength_append (h : d.Apart) {counter : Counter} (hhas : d.Has counter)
    (rest : List Bytes) : pathLength (d.path counter ++ rest) = (d.path counter).length := by
  rcases counter with ⟨_ | i | j | _, gauge⟩ | i | i | _ | j | _ | k | i | field
  · exact pathLength_total (by decide) (fun h => absurd h (by decide))
      fun h => absurd h (by decide)
  · exact (pathLength_input (getD_ne h.receive_total hhas)).trans (if_pos rfl)
  · exact (pathLength_output (getD_ne h.sent_total hhas)).trans (if_pos rfl)
  · exact pathLength_processor
  · exact (pathLength_input (getD_ne h.receive_total hhas)).trans (if_neg (by decide))
  · exact (pathLength_input (getD_ne h.receive_total hhas)).trans (if_neg (by decide))
  · exact pathLength_total (by decide) (fun _ => rfl) fun h => absurd h (by decide)
  · exact (pathLength_output (getD_ne h.sent_total hhas)).trans (if_neg (by decide))
  · exact pathLength_total (by decide) (fun h => absurd h (by decide)) fun _ => rfl
  · exact pathLength_processor
  · exact pathLength_processor
  · exact pathLength_total (by decide) (fun h => absurd h (by decide))
      fun h => absurd h (by decide)

/-- **No name is the beginning of another one**, unless they belong to the same counter. -/
theorem same_of_prefix (h : d.Distinct) (happart : d.Apart) {counter counter' : Counter}
    (hhas : d.Has counter) (hhas' : d.Has counter')
    (hinit : d.path counter <+: d.path counter') : same counter = same counter' := by
  obtain ⟨rest, hrest⟩ := hinit
  have hlength := pathLength_append happart hhas rest
  have hlength' := pathLength_append happart hhas' []
  rw [List.append_nil, ← hrest, hlength, List.length_append] at hlength'
  obtain rfl : rest = [] := List.eq_nil_of_length_eq_zero (by omega)
  rw [List.append_nil] at hrest
  have hcounter := counterOf_path h hhas
  rw [hrest, counterOf_path h hhas'] at hcounter
  exact (Option.some.inj hcounter).symm

theorem dot_notMem_gauge (gauge : Gauge) : dot ∉ gauge.text := by
  rcases gauge <;> decide

theorem dot_notMem_sizeText (n : ℕ) : dot ∉ Http.sizeText n := fun hdot =>
  absurd (Http.isDigit_of_mem_sizeText hdot) (by decide)

/-- There are no dots but those between the components. -/
theorem dot_notMem_path (h : d.Distinct) {counter : Counter} (hhas : d.Has counter) :
    ∀ part ∈ d.path counter, dot ∉ part := by
  have hsource : ∀ i, i < d.sourceNames.length → dot ∉ d.sourceNames.getD i [] := fun i hi =>
    h.dots _ (List.mem_append_left _ (getD_mem hi))
  have hdestination : ∀ j, j < d.destinations.length → dot ∉ d.destinations.getD j [] :=
    fun j hj => h.dots _ (List.mem_append_right _ (getD_mem hj))
  have hfield : ∀ field ∈ internalMetrics, dot ∉ field := by decide
  rcases counter with ⟨_ | i | j | _, gauge⟩ | i | i | _ | j | _ | k | i | field <;>
    simp only [path, List.forall_mem_cons]
  · exact ⟨by decide, dot_notMem_gauge gauge, by simp⟩
  · exact ⟨by decide, hsource i hhas, by decide, dot_notMem_gauge gauge, by simp⟩
  · exact ⟨by decide, hdestination j hhas, by decide, dot_notMem_gauge gauge, by simp⟩
  · exact ⟨by decide, by decide, dot_notMem_gauge gauge, by simp⟩
  · exact ⟨by decide, hsource i hhas, by decide, by simp⟩
  · exact ⟨by decide, hsource i hhas, by decide, by simp⟩
  · exact ⟨by decide, by decide, by simp⟩
  · exact ⟨by decide, hdestination j hhas, by decide, by simp⟩
  · exact ⟨by decide, by decide, by simp⟩
  · exact ⟨by decide, dot_notMem_sizeText _, by decide, by simp⟩
  · exact ⟨by decide, dot_notMem_sizeText _, by decide, by simp⟩
  · exact ⟨by decide, hfield field hhas, by simp⟩

/-- The components of the name of a registration. -/
theorem components_of_named (h : d.Distinct) {r : Registration} (hr : d.Named r) :
    components r.1 = d.path r.2 := by
  obtain ⟨hname, hhas⟩ := hr
  have hne : d.path r.2 ≠ [] := by
    rcases r.2 with ⟨_ | i | j | _, gauge⟩ | i | i | _ | j | _ | k | i | field <;> simp [path]
  rw [components, hname, List.splitOn_intercalate dot (dot_notMem_path h hhas) hne]

/-- **Two registrations with one name are of the same counter**, but for the heaps. -/
theorem same_of_name (h : d.Distinct) {r r' : Registration} (hr : d.Named r) (hr' : d.Named r')
    (hname : r.1 = r'.1) : same r.2 = same r'.2 := by
  have hcounter := counterOf_path h hr.2
  rw [← components_of_named h hr, hname, components_of_named h hr', counterOf_path h hr'.2]
    at hcounter
  exact (Option.some.inj hcounter).symm

/-! ### What the metrics show -/

theorem hasProcessor_iff : d.hasProcessor = true ↔ d.scripted ≠ [] := by
  rw [hasProcessor, List.any_eq_true, scripted, ne_eq, List.map_eq_nil_iff, List.filter_eq_nil_iff,
    not_forall]
  constructor
  · rintro ⟨source, hsource, hprocessor⟩
    obtain ⟨i, hi⟩ := List.mem_iff_getElem?.mp hsource
    exact ⟨(source, i), fun hnot => hnot (List.mk_mem_zipIdx_iff_getElem?.mpr hi) hprocessor⟩
  · rintro ⟨⟨source, i⟩, hnot⟩
    rw [Classical.not_imp, not_not] at hnot
    exact ⟨source, List.mem_of_getElem? (List.mk_mem_zipIdx_iff_getElem?.mp hnot.1), hnot.2⟩

/-- A registration that is not of a check is found under its name, if nothing of a check is. -/
theorem find?_of_ne_isolateName (h : d.Distinct) {r : Registration} (hr : r ∈ d.metrics)
    (hcheck : d.scripted = [] ∨ r.1 ≠ isolateName 0) {rest : List Registration}
    (hrest : rest.Perm d.later) :
    (d.checks ++ rest).find? (fun other => other.1 = r.1) = some r := by
  have hmem : ∀ other, other ∈ d.checks ++ rest ↔ other ∈ d.checks ++ d.later := fun other => by
    rw [List.mem_append, List.mem_append, hrest.mem_iff]
  have hfound : ((d.checks ++ rest).find? (fun other => other.1 = r.1)).isSome = true :=
    List.find?_isSome.mpr ⟨r, (hmem r).mpr (mem_of_mem_metrics hr), by simp⟩
  obtain ⟨other, hother⟩ := Option.isSome_iff_exists.mp hfound
  have hname : other.1 = r.1 := by simpa using List.find?_some hother
  have hin := (hmem other).mp (List.mem_of_find?_eq_some hother)
  have hsame := same_of_name h (named_of_mem hin) (named_of_mem_metrics r hr) hname
  rw [same_eq_self hr] at hsame
  rw [hother]
  refine congrArg some (Prod.ext hname ?_)
  rcases List.mem_append.mp hin with hin | hin
  · rcases mem_checks hin with hin | ⟨i, hi, rfl⟩
    · have hmetric : other ∈ d.metrics := List.mem_append_left _ hin
      rwa [same_eq_self hmetric] at hsame
    · rcases hcheck with hcheck | hcheck
      · rw [hcheck] at hi
        exact absurd hi List.not_mem_nil
      · exact absurd hname.symm hcheck
  · have hmetric : other ∈ d.metrics := by
      rw [later] at hin
      rcases List.mem_append.mp hin with hin | hin
      · split_ifs at hin
        · exact absurd hin List.not_mem_nil
        · exact List.mem_append_left _ hin
      · exact List.mem_append_right _ hin
    rwa [same_eq_self hmetric] at hsame

/-- The heap of the first processor of the check is found under the name of the first thread. -/
theorem find?_isolateName (h : d.Distinct) {i : ℕ} {others : List ℕ}
    (hscripted : d.scripted = i :: others) (rest : List Registration) :
    (d.checks ++ rest).find? (fun other => other.1 = isolateName 0) =
      some (isolateName 0, .checked_heap_size i) := by
  have hnone : registerProcessor.find? (fun other => other.1 = isolateName 0) = none := by
    rw [List.find?_eq_none]
    intro r hr
    have hname : ¬r.1 = isolateName 0 := fun hname => by
      have hsame := same_of_name h (named_registerProcessor r hr) (named_checked i) hname
      obtain ⟨gauge, hgauge⟩ := eq_queue_of_mem hr
      rw [hgauge] at hsame
      exact Counter.noConfusion hsame
    simpa using hname
  have hprocessor : d.hasProcessor = true := hasProcessor_iff.mpr (by rw [hscripted]; simp)
  rw [checks, if_pos hprocessor, List.append_assoc, List.find?_append, hnone, Option.none_or,
    hscripted, List.map_cons, List.cons_append, List.find?_cons_of_pos (by simp)]

/-- A file that is tailed with a script, one without, and one output, for two threads. -/
def sample : Daemon where
  sources := [⟨ascii "tail", false, false⟩, ⟨ascii "gelf", true, true⟩]
  destinations := [ascii "graylog"]
  threads := 2

/-- The sample starts, and then all metrics are processed. -/
def sampleCalls (now : Bytes → Memory) : List (Call Memory) :=
  ((sample.checks ++ sample.later).map fun r => .registerMetric r.1 fun memory => memory r.2) ++
    [.processMetrics now]

theorem distinct_sample : sample.Distinct :=
  ⟨by decide +kernel, by decide +kernel, by decide +kernel, by decide +kernel⟩

theorem startup_sample (now : Bytes → Memory) : sample.Startup (sampleCalls now) := by
  refine ⟨sample.later, List.Perm.refl _, ?_⟩
  rw [sampleCalls, registered, List.filterMap_append, List.filterMap_map]
  exact (List.append_nil _).trans (congrFun List.filterMap_eq_map _)

end Daemon

end IqLogger.Metrics
