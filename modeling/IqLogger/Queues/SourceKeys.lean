import IqLogger.Lib.Fails
import IqLogger.Queues.MessageQueue

/-!
# The keys of a source

A source is configured by an object, of whose members `SourceConfig::from_json` reads some
by name and keeps the others as parameters. The two settings of the queue are optional, and
are read one after the other in one `try` block: what is thrown for the first skips the
second.

So the settings do not depend on each other (`SourceConfig.KeysIndependent`) exactly unless
the strategy that is named differs from the default and the size is not there to be read
(`SourceConfig.keysIndependent_iff`).
-/

namespace IqLogger

open Nlohmann (Value)

namespace SourceConfig

section Keys

variable {InputType : Type} (input_type_from_str : Bytes → Option InputType)
  (undefinedType : InputType) (toSize : Float → UInt64)

/-- The number under the key `max_queue_size`, if there is one. -/
def validSize (members : List (Bytes × Value)) : Option UInt64 :=
  (members.lookup (ascii "max_queue_size")).bind fun value => (getSize toSize value).toOption

/-- The strategy that is named under the key `overflow_strategy`, if there is a known name. -/
def namedStrategy (members : List (Bytes × Value)) : Option OverflowStrategy :=
  match members.lookup (ascii "overflow_strategy") with
  | some (.string name) => OverflowStrategy.strategyFromStrMap.lookup name
  | _ => none

/-- **The keys of a source are independent**: each setting is what its own key says, or the
default, and the parameters are the members under the other names. -/
structure KeysIndependent (members : List (Bytes × Value)) (sourceConfig : SourceConfig InputType) :
    Prop where
  max_queue_size : sourceConfig.max_queue_size = (validSize toSize members).getD 10000
  overflow_strategy_named : ∀ strategy, namedStrategy members = some strategy →
    sourceConfig.overflow_strategy = strategy
  overflow_strategy_absent : members.lookup (ascii "overflow_strategy") = none →
    sourceConfig.overflow_strategy = .throttle
  params : ∀ key, sourceConfig.params.lookup key =
    if key ∈ ownNames then none else members.lookup key

variable {input_type_from_str undefinedType toSize} {members : List (Bytes × Value)}

/-- A name is looked up among the members that are left. -/
theorem lookup_filter_ownNames (members : List (Bytes × Value)) (key : Bytes) :
    (members.filter fun member => member.1 ∉ ownNames).lookup key =
      if key ∈ ownNames then none else members.lookup key := by
  induction members with
  | nil => simp
  | cons member members ih =>
    obtain ⟨name, value⟩ := member
    by_cases hown : name ∈ ownNames
    · rw [List.filter_cons_of_neg (by simpa using hown), ih, List.lookup_cons]
      by_cases hkey : key = name
      · rw [if_pos (hkey ▸ hown), if_pos (hkey ▸ hown)]
      · rw [beq_false_of_ne hkey]
    · rw [List.filter_cons_of_pos (by simpa using hown), List.lookup_cons, List.lookup_cons, ih]
      by_cases hkey : key = name
      · subst hkey
        simp only [beq_self_eq_true, if_neg hown]
      · rw [beq_false_of_ne hkey]

/-- The conversion to a size throws nothing else than the JSON library does. -/
theorem getSize_error {value : Value} {e : ConfigFailure} (h : getSize toSize value = .error e) :
    ∃ failure, e = .json failure := by
  cases value <;> cases h
  all_goals exact ⟨_, rfl⟩

/-- Where there is a size, it is read. -/
theorem size_eq_ok {n : UInt64} (h : validSize toSize members = some n) :
    (atKey (.object members) "max_queue_size").bind (getSize toSize) = .ok n := by
  obtain ⟨value, hvalue, hn⟩ := Option.bind_eq_some_iff.mp h
  rw [atKey, hvalue]
  change getSize toSize value = .ok n
  cases hsize : getSize toSize value with
  | ok m =>
    rw [hsize] at hn
    exact congrArg Except.ok (Option.some.inj hn)
  | error e =>
    rw [hsize] at hn
    cases hn

/-- Where there is none, the JSON library throws. -/
theorem size_eq_error (h : validSize toSize members = none) :
    ∃ e, (atKey (.object members) "max_queue_size").bind (getSize toSize) = .error (.json e) := by
  rw [atKey]
  cases hvalue : members.lookup (ascii "max_queue_size") with
  | none => exact ⟨.outOfRange, rfl⟩
  | some value =>
    change ∃ e, getSize toSize value = .error (.json e)
    cases hsize : getSize toSize value with
    | ok n =>
      rw [validSize, hvalue, Option.bind_some, hsize] at h
      cases h
    | error e =>
      obtain ⟨failure, rfl⟩ := getSize_error hsize
      exact ⟨failure, rfl⟩

/-- **What is read for the queue**: without a size the defaults, and otherwise the size and what
the other key says. -/
theorem queueSettings_ok {settings : UInt64 × OverflowStrategy}
    (h : queueSettings toSize (.object members) = .ok settings) :
    settings.1 = (validSize toSize members).getD 10000 ∧
      (validSize toSize members = none → settings.2 = .throttle) ∧
      (validSize toSize members ≠ none → ∀ strategy, namedStrategy members = some strategy →
        settings.2 = strategy) ∧
      (members.lookup (ascii "overflow_strategy") = none → settings.2 = .throttle) := by
  rw [queueSettings] at h
  cases hsize : validSize toSize members with
  | none =>
    obtain ⟨e, he⟩ := size_eq_error hsize
    rw [he] at h
    obtain rfl := Except.ok.inj h
    exact ⟨rfl, fun _ => rfl, fun hne => absurd rfl hne, fun _ => rfl⟩
  | some n =>
    rw [size_eq_ok hsize, atKey] at h
    cases hvalue : members.lookup (ascii "overflow_strategy") with
    | none =>
      rw [hvalue] at h
      obtain rfl := Except.ok.inj h
      refine ⟨rfl, fun hne => by simp at hne, fun _ strategy hnamed => ?_, fun _ => rfl⟩
      rw [namedStrategy, hvalue] at hnamed
      cases hnamed
    | some value =>
      rw [hvalue] at h
      dsimp only [pure, Except.pure, Except.bind] at h
      refine ⟨?_, fun hne => by simp at hne, fun _ strategy hnamed => ?_, fun hnone => by
        simp at hnone⟩
      · rw [Option.getD_some]
        split at h
        · exact (congrArg Prod.fst (Except.ok.inj h)).symm
        · cases h
        · exact (congrArg Prod.fst (Except.ok.inj h)).symm
      · have hread : OverflowStrategy.from_json value = .ok strategy := by
          rw [namedStrategy, hvalue] at hnamed
          split at hnamed
          · rename_i name heq
            obtain rfl := Option.some.inj heq
            change OverflowStrategy.strategy_from_str name = .ok strategy
            rw [OverflowStrategy.strategy_from_str, hnamed]
            rfl
          · cases hnamed
        rw [hread] at h
        exact (congrArg Prod.snd (Except.ok.inj h)).symm

/-- **What a source is made of**: the settings of its queue, and its parameters. -/
theorem from_json_ok {sourceConfig : SourceConfig InputType}
    (h : from_json input_type_from_str undefinedType toSize (.object members) = .ok sourceConfig) :
    ∃ settings, queueSettings toSize (.object members) = .ok settings ∧
      sourceConfig.max_queue_size = settings.1 ∧ sourceConfig.overflow_strategy = settings.2 ∧
      sourceConfig.params = members.filter fun member => member.1 ∉ ownNames := by
  rw [from_json] at h
  obtain ⟨name, -, h⟩ := Except.bind_eq_ok.mp h
  obtain ⟨type, -, h⟩ := Except.bind_eq_ok.mp h
  obtain ⟨threads, -, h⟩ := Except.bind_eq_ok.mp h
  obtain ⟨settings, hsettings, h⟩ := Except.bind_eq_ok.mp h
  obtain rfl := Except.ok.inj h
  exact ⟨settings, hsettings, rfl, rfl, rfl⟩

/-- **When the keys of a source are independent**: exactly unless a strategy other than the
default is named and there is no size that could be read. -/
theorem keysIndependent_iff {sourceConfig : SourceConfig InputType}
    (h : from_json input_type_from_str undefinedType toSize (.object members) = .ok sourceConfig) :
    KeysIndependent toSize members sourceConfig ↔
      (validSize toSize members = none → ∀ strategy, namedStrategy members = some strategy →
        strategy = .throttle) := by
  obtain ⟨settings, hsettings, hsize, hstrategy, hparams⟩ := from_json_ok h
  obtain ⟨hfirst, hskipped, hnamed, habsent⟩ := queueSettings_ok hsettings
  constructor
  · intro hind hnone strategy hstrategy'
    rw [← hind.overflow_strategy_named strategy hstrategy', hstrategy, hskipped hnone]
  · intro hcond
    refine ⟨hsize.trans hfirst, fun strategy hstrategy' => ?_, fun hnone => ?_, fun key => ?_⟩
    · rw [hstrategy]
      by_cases hnone : validSize toSize members = none
      · rw [hskipped hnone, hcond hnone strategy hstrategy']
      · exact hnamed hnone strategy hstrategy'
    · rw [hstrategy, habsent hnone]
    · rw [hparams, lookup_filter_ownNames]

end Keys

/-! ### A source that names a strategy alone -/

/-- A source without `max_queue_size`. -/
def dropWithoutSize : List (Bytes × Value) :=
  [(ascii "name", .string (ascii "a")), (ascii "overflow_strategy", .string (ascii "drop")),
    (ascii "threads", .unsigned 1), (ascii "type", .string (ascii "tail"))]

/-- The only type of inputs there is here. -/
def tailOnly (name : Bytes) : Option Unit := if name = ascii "tail" then some () else none

/-- The strategy that is named is not the one that is set. -/
theorem dropWithoutSize_throttles (toSize : Float → UInt64) :
    ∃ sourceConfig, from_json tailOnly () toSize (.object dropWithoutSize) = .ok sourceConfig ∧
      sourceConfig.overflow_strategy = .throttle :=
  ⟨_, rfl, rfl⟩

/-- The keys of a source are not independent in general. -/
theorem keys_not_independent :
    ¬∀ (toSize : Float → UInt64) (members : List (Bytes × Value))
      (sourceConfig : SourceConfig Unit),
      from_json tailOnly () toSize (.object members) = .ok sourceConfig →
        KeysIndependent toSize members sourceConfig := by
  intro h
  obtain ⟨sourceConfig, hok, hthrottle⟩ := dropWithoutSize_throttles fun _ => 0
  have hdrop := (h _ _ _ hok).overflow_strategy_named .drop (by decide +kernel)
  rw [hthrottle] at hdrop
  cases hdrop

/-- A source that names a strategy and a size. -/
theorem keysIndependent_iff_drop :
    ∃ sourceConfig, from_json tailOnly () (fun _ => 0)
        (.object ((ascii "max_queue_size", .unsigned 5) :: dropWithoutSize)) = .ok sourceConfig ∧
      KeysIndependent (fun _ => 0) ((ascii "max_queue_size", .unsigned 5) :: dropWithoutSize)
        sourceConfig := by
  obtain ⟨sourceConfig, hok⟩ : ∃ sourceConfig, from_json tailOnly () (fun _ => 0)
      (.object ((ascii "max_queue_size", .unsigned 5) :: dropWithoutSize)) = .ok sourceConfig :=
    ⟨_, rfl⟩
  exact ⟨sourceConfig, hok, (keysIndependent_iff hok).mpr fun hnone =>
    absurd hnone (by decide +kernel)⟩

end SourceConfig

end IqLogger
