import IqLogger.Core.Base
import IqLogger.Lib.Run
import IqLogger.Lib.Tables

/-!
# The scripts of the processor

A script is registered before the processor is started, and the number it gets is
carried by the records it is meant for (`IqLogger.Processor.addProcessor`). Every
thread of the processor copies the scripts into a map of its own
(`IqLogger.Processor.ProcessorMachine.scriptMap`), compiles them
(`IqLogger.Processor.construct`), and then takes records and calls the functions
(`IqLogger.Processor.process`). The engine is a parameter of the model.

The numbers go together: the function under a number is the one of the script that was
registered with it (`IqLogger.Processor.Compiled`). Only the check of the number of a
record is off by one. The number after the last one passes it, and `operator[]` then
puts an empty handle into the map, which is called. So a thread does with all records
what it should if and only if none of them carries that number, or only with a message
that throws before the handle is called (`IqLogger.Processor.dispatches_iff`).
-/

namespace IqLogger

namespace Processor

/-! ### The program -/

/-- `ProcessorException`. -/
structure ProcessorException where
  what : Bytes
  deriving DecidableEq, Repr

/-- What the program uses of the engine: it makes a function of a script, and an object
of a message, or throws. -/
structure Engine (Message Function Object : Type) where
  compile : Bytes → Except ProcessorException Function
  makeJsObject : Message → Except ProcessorException Object

/-- `ScriptMap`. -/
abbrev ScriptMap := AList fun _ : UInt16 => Bytes

/-- `m_functions`. A handle that is empty holds no function. -/
abbrev Functions (Function : Type) := AList fun _ : UInt16 => Option Function

/-- `ProcessorRecord`. -/
structure ProcessorRecord (Message : Type) where
  message : Message
  scriptIndex : UInt16

/-- `ProcessorMachine`, with the scripts that are registered. -/
structure ProcessorMachine where
  scriptSources : List Bytes

namespace ProcessorMachine

/-- `addProcessor`. The distance is cut to 16 bits. -/
def addProcessor (m : ProcessorMachine) (script_source : Bytes) : UInt16 × ProcessorMachine :=
  (UInt16.ofNat m.scriptSources.length, ⟨m.scriptSources ++ [script_source]⟩)

/-- The calls of `addProcessor` before the start. -/
def addProcessors (scripts : List Bytes) : ProcessorMachine :=
  scripts.foldl (fun m script => (m.addProcessor script).2) ⟨[]⟩

variable (m : ProcessorMachine)

/-- The loop of a thread over the scripts, with the number of rounds it may take. -/
def scriptLoop : ℕ → UInt16 → ScriptMap → Option ScriptMap
  | 0, _, _ => none
  | rounds + 1, index, scriptMap =>
    match m.scriptSources[index.toNat]? with
    | none => some scriptMap
    | some source =>
      scriptLoop rounds (index + 1)
        (if index ∈ scriptMap then scriptMap else scriptMap.insert index source)

/-- The map of a thread. -/
def scriptMap (rounds : ℕ) : Option ScriptMap := m.scriptLoop rounds 0 ∅

end ProcessorMachine

variable {Message Function Object : Type} (v8 : Engine Message Function Object)

/-- The constructor of `IsolateScope`. It goes through the map in some order, and hands
each script to the engine as a `const char*`. -/
def construct (scriptMap : List (Sigma fun _ : UInt16 => Bytes)) :
    Except ProcessorException (Functions Function) :=
  scriptMap.foldlM (fun functions it => do
    let function ← v8.compile (cString it.2)
    pure (functions.insert it.1 (some function))) ∅

/-- What `process` does with a record: it throws, or calls what a handle holds with the
object that is made of the message. -/
inductive Dispatch (Function Object : Type)
  | throws (e : ProcessorException)
  | calls (function : Option Function) (jsObject : Object)

/-- `IsolateScope::process`, up to the call. -/
def process (functions : Functions Function) (record : ProcessorRecord Message) :
    Dispatch Function Object × Functions Function :=
  if functions.keys.length < record.scriptIndex.toNat then
    (.throws ⟨ascii "Error script index"⟩, functions)
  else
    match v8.makeJsObject record.message with
    | .error e => (.throws e, functions)
    | .ok jsObject =>
      -- `operator[]` puts in an empty handle where there is none
      match functions.lookup record.scriptIndex with
      | some function => (.calls function jsObject, functions)
      | none => (.calls none jsObject, functions.insert record.scriptIndex none)

/-! ### What it should do -/

/-- A function runs on the object that is made of a message. -/
def runs (function : Function) (message : Message) : Dispatch Function Object :=
  match v8.makeJsObject message with
  | .error e => .throws e
  | .ok jsObject => .calls (some function) jsObject

variable (scripts : List Bytes)

/-- The function that is compiled from a script. -/
def CompiledFrom (function : Function) (script : Bytes) : Prop :=
  v8.compile (cString script) = .ok function

/-- **A record is dispatched as it should be**: the function of the script with its
number runs, a number that no script has is refused, and whatever is called was compiled
from a script. -/
structure Dispatches (functions : Functions Function) (record : ProcessorRecord Message) :
    Prop where
  found : ∀ script function, scripts[record.scriptIndex.toNat]? = some script →
    CompiledFrom v8 function script →
      (process v8 functions record).1 = runs v8 function record.message
  refused : scripts.length ≤ record.scriptIndex.toNat →
    ∃ e, (process v8 functions record).1 = .throws e
  registered : ∀ handle jsObject, (process v8 functions record).1 = .calls handle jsObject →
    ∃ script ∈ scripts, ∃ function, handle = some function ∧ CompiledFrom v8 function script

/-- A record that does not reach the handle after the last one. -/
def Fine (record : ProcessorRecord Message) : Prop :=
  record.scriptIndex.toNat = scripts.length → ∃ e, v8.makeJsObject record.message = .error e

/-! ### The numbers -/

/-- **The scripts are kept in the order in which they are registered.** -/
theorem scriptSources_addProcessors :
    (ProcessorMachine.addProcessors scripts).scriptSources = scripts := by
  induction scripts using List.reverseRecOn with
  | nil => rfl
  | append_singleton scripts script ih =>
    rw [ProcessorMachine.addProcessors, List.foldl_append]
    exact congrArg (· ++ [script]) ih

/-- A map in which each number has its script. -/
structure Copied (scriptMap : ScriptMap) : Prop where
  size : scriptMap.keys.length = scripts.length
  lookup : ∀ index, scriptMap.lookup index = scripts[index.toNat]?

variable {scripts}

/-- One round of the loop copies one script. -/
theorem Copied.insert {k : ℕ} {index : UInt16} {source : Bytes} {scriptMap : ScriptMap}
    (h : Copied (scripts.take k) scriptMap) (hindex : index.toNat = k)
    (hsource : scripts[k]? = some source) :
    index ∉ scriptMap ∧ Copied (scripts.take (k + 1)) (scriptMap.insert index source) := by
  obtain ⟨hk, -⟩ := List.getElem?_eq_some_iff.mp hsource
  have hfresh : index ∉ scriptMap := by
    refine AList.lookup_eq_none.mp ?_
    rw [h.lookup, hindex, List.getElem?_take, if_neg (Nat.lt_irrefl k)]
  refine ⟨hfresh, ?_, fun i => ?_⟩
  · have hsize := h.size
    rw [List.length_take] at hsize ⊢
    rw [AList.keys_insert, List.length_cons, List.erase_of_not_mem hfresh, hsize]
    omega
  · rw [AList.lookup_insert_apply, h.lookup, List.getElem?_take, List.getElem?_take]
    by_cases hi : i = index
    · rw [if_pos hi, hi, hindex, if_pos (Nat.lt_succ_self k), hsource]
    · have hne : i.toNat ≠ k := fun hc => hi (UInt16.toNat_inj.mp (hc.trans hindex.symm))
      rw [if_neg hi]
      by_cases hlt : i.toNat < k
      · rw [if_pos hlt, if_pos (Nat.lt_succ_of_lt hlt)]
      · rw [if_neg hlt, if_neg (by omega)]

/-- The loop from some number on. -/
theorem scriptLoop_spec (hn : scripts.length ≤ 65535) :
    ∀ (rounds : ℕ) (index : UInt16) (scriptMap : ScriptMap), index.toNat ≤ scripts.length →
      scripts.length < rounds + index.toNat → Copied (scripts.take index.toNat) scriptMap →
      ∃ copied, (ProcessorMachine.mk scripts).scriptLoop rounds index scriptMap = some copied ∧
        Copied scripts copied := by
  intro rounds
  induction rounds with
  | zero =>
    intro index scriptMap hle hlt _
    omega
  | succ rounds ih =>
    intro index scriptMap hle hlt hcopied
    rw [ProcessorMachine.scriptLoop]
    cases hsource : scripts[index.toNat]? with
    | none =>
      -- the loop ends, and all scripts are there
      have hall := List.getElem?_eq_none_iff.mp hsource
      rw [List.take_of_length_le hall] at hcopied
      exact ⟨scriptMap, rfl, hcopied⟩
    | some source =>
      obtain ⟨hk, -⟩ := List.getElem?_eq_some_iff.mp hsource
      obtain ⟨hfresh, hnext⟩ := hcopied.insert rfl hsource
      -- the number does not wrap around, as it is below the number of scripts
      have hsucc : (index + 1).toNat = index.toNat + 1 := by
        rw [UInt16.toNat_add]
        exact Nat.mod_eq_of_lt (show index.toNat + 1 < 65536 by omega)
      dsimp only
      rw [if_neg hfresh]
      exact ih (index + 1) _ (by omega) (by omega) (by rw [hsucc]; exact hnext)

/-- **A thread copies all scripts**, in as many rounds as there are scripts and one more. -/
theorem scriptMap_spec (hn : scripts.length ≤ 65535) {rounds : ℕ}
    (hrounds : scripts.length < rounds) :
    ∃ copied, (ProcessorMachine.addProcessors scripts).scriptMap rounds = some copied ∧
      Copied scripts copied := by
  have hsources : ProcessorMachine.addProcessors scripts = ⟨scripts⟩ :=
    congrArg ProcessorMachine.mk (scriptSources_addProcessors scripts)
  rw [hsources]
  exact scriptLoop_spec hn rounds 0 ∅ (Nat.zero_le _) hrounds ⟨rfl, fun index => rfl⟩

/-! ### The functions -/

variable (scripts) in
/-- A map in which each number has the function of its script. -/
structure Compiled (functions : Functions Function) : Prop where
  size : functions.keys.length = scripts.length
  lookup_some : ∀ index script, scripts[index.toNat]? = some script →
    ∃ function, CompiledFrom v8 function script ∧ functions.lookup index = some (some function)
  lookup_none : ∀ index, scripts[index.toNat]? = none → functions.lookup index = none

variable {v8}

/-- The loop over the scripts puts the function of each of them into the map. -/
theorem foldlM_construct (entries : List (Sigma fun _ : UInt16 => Bytes))
    (hcompile : ∀ it ∈ entries, ∃ function, CompiledFrom v8 function it.2) :
    ∀ before : Functions Function, entries.NodupKeys → (∀ it ∈ entries, it.1 ∉ before) →
      ∃ functions : Functions Function,
        entries.foldlM (fun functions it => do
          let function ← v8.compile (cString it.2)
          pure (functions.insert it.1 (some function))) before = .ok functions ∧
        functions.keys.length = before.keys.length + entries.length ∧
        (∀ index script, entries.dlookup index = some script →
          ∃ function, CompiledFrom v8 function script ∧
            functions.lookup index = some (some function)) ∧
        ∀ index, entries.dlookup index = none → functions.lookup index = before.lookup index := by
  induction entries with
  | nil =>
    intro before _ _
    exact ⟨before, rfl, rfl, fun _ _ h => absurd h (by simp), fun _ _ => rfl⟩
  | cons it entries ih =>
    intro before hnodup hfresh
    obtain ⟨hit, hnodup⟩ := List.nodupKeys_cons.mp hnodup
    obtain ⟨function, hfunction⟩ := hcompile it List.mem_cons_self
    have hnew : it.1 ∉ before := hfresh it List.mem_cons_self
    have hrest : ∀ e ∈ entries, e.1 ∉ before.insert it.1 (some function) := by
      intro e he hmem
      rcases (AList.mem_insert _).mp hmem with heq | hmem
      · exact hit (heq ▸ List.mem_map_of_mem he)
      · exact hfresh e (List.mem_cons_of_mem _ he) hmem
    obtain ⟨functions, hfold, hsize, hsome, hnone⟩ := ih
      (fun e he => hcompile e (List.mem_cons_of_mem _ he)) _ hnodup hrest
    refine ⟨functions, ?_, ?_, fun index script hlookup => ?_, fun index hlookup => ?_⟩
    · rw [List.foldlM_cons, hfunction]
      exact hfold
    · rw [hsize, AList.keys_insert, List.length_cons, List.erase_of_not_mem hnew, List.length_cons]
      omega
    · by_cases hindex : index = it.1
      · -- the script itself: no later one has its number
        subst hindex
        rw [List.dlookup_cons_eq] at hlookup
        cases hlookup
        refine ⟨function, hfunction, ?_⟩
        rw [hnone _ (List.dlookup_eq_none.mpr hit), AList.lookup_insert]
      · rw [List.dlookup_cons_ne _ _ hindex] at hlookup
        exact hsome index script hlookup
    · have hindex : index ≠ it.1 := by
        rintro rfl
        rw [List.dlookup_cons_eq] at hlookup
        cases hlookup
      rw [List.dlookup_cons_ne _ _ hindex] at hlookup
      rw [hnone index hlookup, AList.lookup_insert_ne hindex]

/-- **The functions of a thread.** In whatever order the map is gone through, each number
has the function of its script. -/
theorem construct_spec {copied : ScriptMap} (hcopied : Copied scripts copied)
    (hcompile : ∀ script ∈ scripts, ∃ function, CompiledFrom v8 function script)
    {entries : List (Sigma fun _ : UInt16 => Bytes)} (hperm : entries.Perm copied.entries) :
    ∃ functions, construct v8 entries = .ok functions ∧ Compiled v8 scripts functions := by
  have hnodup : entries.NodupKeys := (List.perm_nodupKeys hperm).mpr copied.nodupKeys
  have hdlookup : ∀ index, entries.dlookup index = scripts[index.toNat]? := fun index =>
    (List.perm_dlookup index hnodup hperm).trans (hcopied.lookup index)
  have hentries : ∀ it ∈ entries, ∃ function, CompiledFrom v8 function it.2 := by
    intro it hit
    have hlookup := hdlookup it.1
    rw [List.mem_dlookup hnodup hit] at hlookup
    exact hcompile it.2 (List.mem_of_getElem? hlookup.symm)
  obtain ⟨functions, hconstruct, hsize, hsome, hnone⟩ :=
    foldlM_construct entries hentries ∅ hnodup fun it _ h => absurd h (AList.notMem_empty it.1)
  refine ⟨functions, hconstruct, ?_, fun index script h => ?_, fun index h => ?_⟩
  · rw [hsize, hperm.length_eq, ← hcopied.size]
    simp [AList.keys, List.keys]
  · exact hsome index script ((hdlookup index).trans h)
  · rw [hnone index ((hdlookup index).trans h), AList.lookup_empty]

/-! ### Dispatching a record -/

section Process

variable {functions : Functions Function} (h : Compiled v8 scripts functions)
  {record : ProcessorRecord Message}

include h

/-- **A record with the number of a script.** -/
theorem Compiled.process_of_lt {script : Bytes} {function : Function}
    (hscript : scripts[record.scriptIndex.toNat]? = some script)
    (hfunction : CompiledFrom v8 function script) :
    process v8 functions record = (runs v8 function record.message, functions) := by
  obtain ⟨hlt, -⟩ := List.getElem?_eq_some_iff.mp hscript
  obtain ⟨function', hfunction', hlookup⟩ := h.lookup_some _ _ hscript
  obtain rfl : function = function' := by
    rw [CompiledFrom] at hfunction hfunction'
    rw [hfunction] at hfunction'
    exact Except.ok.inj hfunction'
  have hpassed : ¬functions.keys.length < record.scriptIndex.toNat := by
    rw [h.size]
    omega
  rw [process, if_neg hpassed, runs]
  cases v8.makeJsObject record.message with
  | error e => rfl
  | ok jsObject =>
    show (match functions.lookup record.scriptIndex with
      | some function => _
      | none => _) = _
    rw [hlookup]

/-- **A record with a number beyond the one after the last.** -/
theorem Compiled.process_of_gt (hgt : scripts.length < record.scriptIndex.toNat) :
    process v8 functions record = (.throws ⟨ascii "Error script index"⟩, functions) := by
  rw [process, if_pos (by rw [h.size]; exact hgt)]

/-- **A record with the number after the last one**: the check lets it through. -/
theorem Compiled.process_of_eq (heq : record.scriptIndex.toNat = scripts.length) :
    process v8 functions record =
      match v8.makeJsObject record.message with
      | .error e => (.throws e, functions)
      | .ok jsObject => (.calls none jsObject, functions.insert record.scriptIndex none) := by
  have hnone := h.lookup_none record.scriptIndex
    (List.getElem?_eq_none_iff.mpr (Nat.le_of_eq heq.symm))
  rw [process, if_neg (by rw [h.size, heq]; exact Nat.lt_irrefl _)]
  cases v8.makeJsObject record.message with
  | error e => rfl
  | ok jsObject =>
    show (match functions.lookup record.scriptIndex with
      | some function => _
      | none => _) = _
    rw [hnone]

end Process

/-! ### Runs -/

/-- **Whether a record is dispatched as it should be** depends on the record alone. -/
theorem Compiled.dispatches_iff_fine {functions : Functions Function}
    (h : Compiled v8 scripts functions) (record : ProcessorRecord Message) :
    Dispatches v8 scripts functions record ↔ Fine v8 scripts record := by
  constructor
  · intro hdispatches heq
    obtain ⟨e, he⟩ := hdispatches.refused (Nat.le_of_eq heq.symm)
    rw [h.process_of_eq heq] at he
    cases hobject : v8.makeJsObject record.message with
    | error e => exact ⟨e, rfl⟩
    | ok jsObject =>
      rw [hobject] at he
      cases he
  · intro hfine
    rcases Nat.lt_trichotomy record.scriptIndex.toNat scripts.length with hlt | heq | hgt
    · obtain ⟨script, hscript⟩ : ∃ script, scripts[record.scriptIndex.toNat]? = some script :=
        ⟨_, List.getElem?_eq_getElem hlt⟩
      obtain ⟨function, hfunction, -⟩ := h.lookup_some _ _ hscript
      have hprocess : process v8 functions record = (runs v8 function record.message, functions) :=
        h.process_of_lt hscript hfunction
      refine ⟨fun script' function' hscript' hfunction' => ?_, fun hle => by omega, ?_⟩
      · rw [h.process_of_lt hscript' hfunction']
      · intro handle jsObject hcalls
        rw [hprocess, runs] at hcalls
        split at hcalls
        · cases hcalls
        · cases hcalls
          exact ⟨script, List.mem_of_getElem? hscript, function, rfl, hfunction⟩
    · obtain ⟨e, he⟩ := hfine heq
      have hprocess : (process v8 functions record).1 = .throws e := by
        rw [h.process_of_eq heq, he]
      have hnone := List.getElem?_eq_none_iff.mpr (Nat.le_of_eq heq.symm)
      refine ⟨fun script function hscript => ?_, fun _ => ⟨e, hprocess⟩,
        fun handle jsObject hc => ?_⟩
      · rw [hnone] at hscript
        cases hscript
      · rw [hprocess] at hc
        cases hc
    · have hprocess : process v8 functions record = (.throws _, functions) := h.process_of_gt hgt
      have hnone := List.getElem?_eq_none_iff.mpr (Nat.le_of_lt hgt)
      refine ⟨fun script function hscript => ?_, fun _ => ⟨_, congrArg Prod.fst hprocess⟩,
        fun handle jsObject hc => ?_⟩
      · rw [hnone] at hscript
        cases hscript
      · rw [hprocess] at hc
        cases hc

/-- **A record that is dispatched as it should be leaves the functions as they are.** -/
theorem Compiled.functions_eq {functions : Functions Function} (h : Compiled v8 scripts functions)
    {record : ProcessorRecord Message} (hfine : Fine v8 scripts record) :
    (process v8 functions record).2 = functions := by
  rcases Nat.lt_trichotomy record.scriptIndex.toNat scripts.length with hlt | heq | hgt
  · obtain ⟨function, hfunction, -⟩ := h.lookup_some _ _ (List.getElem?_eq_getElem hlt)
    rw [h.process_of_lt (List.getElem?_eq_getElem hlt) hfunction]
  · obtain ⟨e, he⟩ := hfine heq
    rw [h.process_of_eq heq, he]
  · rw [h.process_of_gt hgt]

variable (v8) in
/-- The functions of a thread after a record. -/
def next (functions : Functions Function) (record : ProcessorRecord Message) :
    Functions Function := (process v8 functions record).2

/-- The records of a thread. -/
theorem Compiled.along_iff {functions : Functions Function} (h : Compiled v8 scripts functions)
    (records : List (ProcessorRecord Message)) :
    Machine.Along (next v8) (Dispatches v8 scripts) functions records ↔
      ∀ record ∈ records, Fine v8 scripts record := by
  have hconst := @Machine.along_const _ _ (next v8) (Fine v8 scripts) functions records
  rw [← hconst]
  -- the invariant, in both directions, is that the functions are the ones compiled
  constructor
  · intro halong
    refine (Machine.Along.of_invariant (Compiled v8 scripts) (fun fs record hfs hrecord => ?_) h
      halong).1
    have hfine := (hfs.dispatches_iff_fine record).mp hrecord
    refine ⟨hfine, ?_⟩
    rw [next, hfs.functions_eq hfine]
    exact hfs
  · intro halong
    refine (Machine.Along.of_invariant (Compiled v8 scripts) (fun fs record hfs hfine => ?_) h
      halong).1
    refine ⟨(hfs.dispatches_iff_fine record).mpr hfine, ?_⟩
    rw [next, hfs.functions_eq hfine]
    exact hfs

/-- **Every record reaches the function of its script, unless one carries the number after
the last.** Let at most 65535 scripts be registered, all of which compile. Then each
thread gets a function for every script, in whatever order it goes through its map, and
it dispatches all the records it takes as it should if and only if none of them that
carries the number of scripts has a message that an object can be made of. -/
theorem dispatches_iff (v8 : Engine Message Function Object) (scripts : List Bytes)
    (hn : scripts.length ≤ 65535)
    (hcompile : ∀ script ∈ scripts, ∃ function, CompiledFrom v8 function script) :
    ∃ scriptMap, (ProcessorMachine.addProcessors scripts).scriptMap (scripts.length + 1) =
        some scriptMap ∧
      ∀ entries : List (Sigma fun _ : UInt16 => Bytes), entries.Perm scriptMap.entries →
        ∃ functions, construct v8 entries = .ok functions ∧
          ∀ records : List (ProcessorRecord Message),
            Machine.Along (next v8) (Dispatches v8 scripts) functions records ↔
              ∀ record ∈ records, Fine v8 scripts record := by
  obtain ⟨copied, hmap, hcopied⟩ := scriptMap_spec hn (Nat.lt_succ_self _)
  refine ⟨copied, hmap, fun entries hperm => ?_⟩
  obtain ⟨functions, hconstruct, hcompiled⟩ := construct_spec hcopied hcompile hperm
  exact ⟨functions, hconstruct, hcompiled.along_iff⟩

/-! ### A script and two records -/

/-- An engine whose functions are the scripts, and whose objects are the messages. -/
def sampleEngine : Engine Bytes Bytes Bytes := ⟨.ok, .ok⟩

/-- A script that lets every message through. -/
def sampleScript : Bytes := ascii "(function(message) \x7b return message; \x7d)"

theorem dispatches_iff_sample :
    ∃ scriptMap, (ProcessorMachine.addProcessors [sampleScript]).scriptMap 2 = some scriptMap ∧
      ∀ entries : List (Sigma fun _ : UInt16 => Bytes), entries.Perm scriptMap.entries →
        ∃ functions, construct sampleEngine entries = .ok functions ∧
          ∀ records : List (ProcessorRecord Bytes),
            Machine.Along (next sampleEngine) (Dispatches sampleEngine [sampleScript]) functions
                records ↔
              ∀ record ∈ records, Fine sampleEngine [sampleScript] record :=
  dispatches_iff sampleEngine [sampleScript] (by decide) fun script _ => ⟨cString script, rfl⟩

/-- A record with the number 1 where there is one script calls an empty handle; and as the
handle is in the map from then on, so does a record with the number 2. -/
theorem number_after_last_not_refused :
    let functions : Functions Bytes := (∅ : Functions Bytes).insert 0 (some sampleScript)
    let record : ProcessorRecord Bytes := ⟨ascii "\x7b\x7d", 1⟩
    (ProcessorMachine.addProcessors [sampleScript]).scriptMap 2 =
        some ((∅ : ScriptMap).insert 0 sampleScript) ∧
      construct sampleEngine ((∅ : ScriptMap).insert 0 sampleScript).entries = .ok functions ∧
      (process sampleEngine functions record).1 = .calls none (ascii "\x7b\x7d") ∧
      ¬Dispatches sampleEngine [sampleScript] functions record ∧
      (process sampleEngine (next sampleEngine functions record) ⟨ascii "\x7b\x7d", 2⟩).1 =
        .calls none (ascii "\x7b\x7d") := by
  intro functions record
  have hcalls : (process sampleEngine functions record).1 = .calls none (ascii "\x7b\x7d") := rfl
  refine ⟨rfl, rfl, hcalls, fun hdispatches => ?_, rfl⟩
  obtain ⟨e, he⟩ := hdispatches.refused (by decide)
  rw [hcalls] at he
  cases he

end Processor

end IqLogger
