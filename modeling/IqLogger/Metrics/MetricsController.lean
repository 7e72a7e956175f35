import IqLogger.Lib.Tables
import IqLogger.Stats.Telegraf

/-!
# The table of metrics

Every part of the program registers its counters under dotted names, each with a callback that
reads the counter. A thread of `MetricsController` calls all of them over and over and puts
what they return into a table, and the exporters work on copies of this table.

What is found under a name (`IqLogger.Metrics.lookup_run`) is what its callback has returned when
all of them were called last, and 0 before that; and the callback is the one it was registered
with first, since a registration under a name that is there already changes nothing, although it
succeeds. The proof looks at one name: what a table has under it
(`IqLogger.Metrics.MetricsTableInternal.view`) is the state of a machine of its own.
-/

namespace IqLogger.Metrics

/-- `metric_t`. -/
abbrev metric_t := UInt64

/-- `MetricsTable`. -/
abbrev MetricsTable := AList fun _ : Bytes => metric_t

/- What the callbacks look at. -/
variable {σ : Type}

/-- `MetricsController::MetricsTableInternal`. -/
structure MetricsTableInternal (σ : Type) where
  m_metricsCallbacks : AList fun _ : Bytes => (σ → metric_t)
  m_currentMetrics : MetricsTable

namespace MetricsTableInternal

/-- No metrics. -/
def empty : MetricsTableInternal σ := ⟨∅, ∅⟩

/-- `registerMetric`, which always succeeds. `insert` leaves an entry as it is. -/
def registerMetric (t : MetricsTableInternal σ) (name : Bytes) (callback : σ → metric_t) :
    Bool × MetricsTableInternal σ :=
  (true,
    { m_currentMetrics :=
        if t.m_currentMetrics.lookup name = none then t.m_currentMetrics.insert name 0
        else t.m_currentMetrics
      m_metricsCallbacks :=
        if name ∈ t.m_metricsCallbacks then t.m_metricsCallbacks
        else t.m_metricsCallbacks.insert name callback })

/-- `processMetrics`; `now` is what each of the callbacks finds when it is called. -/
def processMetrics (t : MetricsTableInternal σ) (now : Bytes → σ) : MetricsTableInternal σ :=
  { t with
    m_currentMetrics := t.m_metricsCallbacks.entries.foldl
      (fun metrics m => metrics.insert m.1 (m.2 (now m.1))) t.m_currentMetrics }

/-- `getMetrics`. -/
def getMetrics (t : MetricsTableInternal σ) : MetricsTable := t.m_currentMetrics

end MetricsTableInternal

/-- The calls that change the table. -/
inductive Call (σ : Type)
  | registerMetric (name : Bytes) (callback : σ → metric_t)
  | processMetrics (now : Bytes → σ)

namespace MetricsTableInternal

/-- One call. -/
def call (t : MetricsTableInternal σ) : Call σ → MetricsTableInternal σ
  | .registerMetric name callback => (t.registerMetric name callback).2
  | .processMetrics now => t.processMetrics now

/-- Any number of calls. -/
def run (calls : List (Call σ)) : MetricsTableInternal σ := calls.foldl call empty

end MetricsTableInternal

/-! ### One name -/

/-- What the callbacks find at each of the calls of `processMetrics`. -/
def processed (calls : List (Call σ)) : List (Bytes → σ) :=
  calls.filterMap fun
    | .processMetrics now => some now
    | .registerMetric _ _ => none

/-- The registrations among some calls. -/
def registered (calls : List (Call σ)) : List (Bytes × (σ → metric_t)) :=
  calls.filterMap fun
    | .registerMetric name callback => some (name, callback)
    | .processMetrics _ => none

/-- What a callback has returned at the last of some calls of all callbacks, and 0 without one. -/
def lastValue (name : Bytes) (callback : σ → metric_t) (nows : List (Bytes → σ)) : metric_t :=
  (nows.getLast?.map fun now => callback (now name)).getD 0

/-- **What is expected under a name** after some calls: nothing before it is registered, and then
what the callback of that registration has returned last. -/
def expected (name : Bytes) : List (Call σ) → Option metric_t
  | [] => none
  | .processMetrics _ :: calls => expected name calls
  | .registerMetric n callback :: calls =>
    if n = name then some (lastValue name callback (processed calls)) else expected name calls

/-- The machine of one name: its callback and its value, once it is registered. -/
def nameStep (name : Bytes) (state : Option ((σ → metric_t) × metric_t)) :
    Call σ → Option ((σ → metric_t) × metric_t)
  | .registerMetric n callback => state.or (if n = name then some (callback, 0) else none)
  | .processMetrics now => state.map fun s => (s.1, s.1 (now name))

namespace MetricsTableInternal

/-- What a table has under a name. -/
def view (t : MetricsTableInternal σ) (name : Bytes) : Option ((σ → metric_t) × metric_t) :=
  (t.m_metricsCallbacks.lookup name).bind fun callback =>
    (t.m_currentMetrics.lookup name).map fun value => (callback, value)

/-- The two maps of a table have the same names. -/
def Paired (t : MetricsTableInternal σ) : Prop :=
  ∀ name, (t.m_metricsCallbacks.lookup name).isSome = (t.m_currentMetrics.lookup name).isSome

theorem lookup_processMetrics (t : MetricsTableInternal σ) (now : Bytes → σ) (name : Bytes) :
    (t.processMetrics now).m_currentMetrics.lookup name =
      ((t.m_metricsCallbacks.lookup name).map fun callback => callback (now name)).or
        (t.m_currentMetrics.lookup name) := by
  have h := AList.lookup_foldl_insert
    (fun (k : Bytes) (callback : σ → metric_t) => callback (now k))
    t.m_metricsCallbacks.entries t.m_metricsCallbacks.nodupKeys t.m_currentMetrics name
  exact h

theorem lookup_callbacks_registerMetric (t : MetricsTableInternal σ) (n : Bytes)
    (callback : σ → metric_t) (name : Bytes) :
    (t.registerMetric n callback).2.m_metricsCallbacks.lookup name =
      (t.m_metricsCallbacks.lookup name).or (if n = name then some callback else none) := by
  rw [registerMetric]
  by_cases hmem : n ∈ t.m_metricsCallbacks
  · rw [if_pos hmem]
    by_cases hn : n = name
    · subst hn
      obtain ⟨c, hc⟩ := Option.isSome_iff_exists.mp (AList.lookup_isSome.mpr hmem)
      rw [hc, Option.some_or]
    · rw [if_neg hn, Option.or_none]
  · rw [if_neg hmem, AList.lookup_insert_apply]
    by_cases hn : n = name
    · subst hn
      rw [if_pos rfl, if_pos rfl, AList.lookup_eq_none.mpr hmem, Option.none_or]
    · rw [if_neg (Ne.symm hn), if_neg hn, Option.or_none]

theorem lookup_current_registerMetric (t : MetricsTableInternal σ) (n : Bytes)
    (callback : σ → metric_t) (name : Bytes) :
    (t.registerMetric n callback).2.m_currentMetrics.lookup name =
      (t.m_currentMetrics.lookup name).or (if n = name then some 0 else none) := by
  rw [registerMetric, AList.lookup_insert_if_none]
  by_cases hn : n = name
  · subst hn
    cases t.m_currentMetrics.lookup n with
    | none => simp
    | some value => simp
  · rw [if_neg fun h => hn h.1.symm, if_neg hn, Option.or_none]

/-- **The names stay paired, and each name goes its own way.** -/
theorem call_view {t : MetricsTableInternal σ} (h : t.Paired) (c : Call σ) :
    (t.call c).Paired ∧ ∀ name, (t.call c).view name = nameStep name (t.view name) c := by
  cases c with
  | registerMetric n callback =>
    have hpaired : ((t.registerMetric n callback).2).Paired := fun name => by
      rw [lookup_callbacks_registerMetric, lookup_current_registerMetric, Option.isSome_or,
        Option.isSome_or, h name]
      split_ifs <;> rfl
    refine ⟨hpaired, fun name => ?_⟩
    rw [call, view, lookup_callbacks_registerMetric, lookup_current_registerMetric, nameStep, view]
    have hname := h name
    cases hc : t.m_metricsCallbacks.lookup name with
    | none =>
      rw [hc, Option.isSome_none] at hname
      rw [Option.isSome_eq_false_iff.mp hname.symm |> Option.isNone_iff_eq_none.mp]
      split_ifs <;> rfl
    | some c =>
      rw [hc, Option.isSome_some] at hname
      obtain ⟨v, hv⟩ := Option.isSome_iff_exists.mp hname.symm
      rw [hv]
      rfl
  | processMetrics now =>
    refine ⟨fun name => ?_, fun name => ?_⟩
    · rw [call, lookup_processMetrics, Option.isSome_or, ← h name]
      show (t.m_metricsCallbacks.lookup name).isSome = _
      cases t.m_metricsCallbacks.lookup name <;> rfl
    · rw [call, view, lookup_processMetrics, nameStep, view]
      show (t.m_metricsCallbacks.lookup name).bind _ = _
      have hname := h name
      cases hc : t.m_metricsCallbacks.lookup name with
      | none => rfl
      | some c =>
        rw [hc, Option.isSome_some] at hname
        obtain ⟨v, hv⟩ := Option.isSome_iff_exists.mp hname.symm
        rw [hv]
        rfl

/-- What is found under a name is what is in view there. -/
theorem lookup_getMetrics {t : MetricsTableInternal σ} (h : t.Paired) (name : Bytes) :
    t.getMetrics.lookup name = (t.view name).map Prod.snd := by
  have hname := h name
  rw [view, getMetrics]
  cases hc : t.m_metricsCallbacks.lookup name with
  | none =>
    rw [hc, Option.isSome_none] at hname
    rw [Option.isNone_iff_eq_none.mp (Option.isSome_eq_false_iff.mp hname.symm)]
    rfl
  | some c =>
    rw [Option.bind_some, Option.map_map]
    cases t.m_currentMetrics.lookup name <;> rfl

/-- **After any calls** the names are paired, and in view under each is where its own machine has
come to. -/
theorem run_view (calls : List (Call σ)) :
    (run calls).Paired ∧
      ∀ name, (run calls).view name = calls.foldl (nameStep name) none := by
  have hfold : ∀ (calls : List (Call σ)) (t : MetricsTableInternal σ), t.Paired →
      (calls.foldl call t).Paired ∧
        ∀ name, (calls.foldl call t).view name = calls.foldl (nameStep name) (t.view name) := by
    intro calls
    induction calls with
    | nil => exact fun t h => ⟨h, fun name => rfl⟩
    | cons c calls ih =>
      intro t h
      obtain ⟨hpaired, hview⟩ := call_view h c
      obtain ⟨hpaired', hview'⟩ := ih (t.call c) hpaired
      refine ⟨hpaired', fun name => ?_⟩
      rw [List.foldl_cons, List.foldl_cons, hview' name, hview name]
  exact hfold calls empty fun name => rfl

end MetricsTableInternal

/-! ### What the machine of a name comes to -/

/-- Once it is registered a name keeps its callback, whatever is registered later. -/
theorem foldl_nameStep_some (name : Bytes) (callback : σ → metric_t) (calls : List (Call σ))
    (value : metric_t) :
    calls.foldl (nameStep name) (some (callback, value)) =
      some (callback,
        ((processed calls).getLast?.map fun now => callback (now name)).getD value) := by
  induction calls generalizing value with
  | nil => rfl
  | cons c calls ih =>
    cases c with
    | registerMetric n other => rw [List.foldl_cons, nameStep, Option.some_or, ih]; rfl
    | processMetrics now =>
      have hcons : processed (.processMetrics now :: calls) = now :: processed calls := rfl
      rw [List.foldl_cons, nameStep, Option.map_some, ih, hcons, List.getLast?_cons]
      cases (processed calls).getLast? <;> rfl

theorem foldl_nameStep_none (name : Bytes) (calls : List (Call σ)) :
    (calls.foldl (nameStep name) none).map Prod.snd = expected name calls := by
  induction calls with
  | nil => rfl
  | cons c calls ih =>
    cases c with
    | processMetrics now => exact ih
    | registerMetric n callback =>
      rw [List.foldl_cons, nameStep, Option.none_or, expected]
      split_ifs with hn
      · rw [foldl_nameStep_some, Option.map_some, lastValue]
      · exact ih

/-- **The value of a metric.** After any registrations and calls of the callbacks, in any order,
what the table has under a name is what the callback it was first registered with returned when
all were called last: 0 if that is not so far the case, and nothing for a name that is not
registered. -/
theorem lookup_run (name : Bytes) (calls : List (Call σ)) :
    (MetricsTableInternal.run calls).getMetrics.lookup name = expected name calls := by
  obtain ⟨hpaired, hview⟩ := MetricsTableInternal.run_view calls
  rw [MetricsTableInternal.lookup_getMetrics hpaired, hview, foldl_nameStep_none]

/-- **The first registration counts**: the calls before it are none of the name, and what is
expected is what its callback makes of the calls after it. -/
theorem expected_of_find? {name : Bytes} {callback : σ → metric_t} {calls : List (Call σ)}
    (h : (registered calls).find? (fun r => r.1 = name) = some (name, callback)) :
    ∃ before after, calls = before ++ .registerMetric name callback :: after ∧
      expected name calls = some (lastValue name callback (processed after)) := by
  induction calls with
  | nil => simp [registered] at h
  | cons c calls ih =>
    rcases c with ⟨n, other⟩ | now
    · have hcons : registered (.registerMetric n other :: calls) = (n, other) :: registered calls :=
        rfl
      rw [hcons, List.find?_cons] at h
      by_cases hn : n = name
      · subst hn
        obtain rfl : other = callback := by simpa using h
        exact ⟨[], calls, rfl, by rw [expected, if_pos rfl]⟩
      · obtain ⟨before, after, hcalls, hexpected⟩ := ih (by simpa [hn] using h)
        exact ⟨.registerMetric n other :: before, after, by rw [hcalls]; rfl,
          by rw [expected, if_neg hn, hexpected]⟩
    · obtain ⟨before, after, hcalls, hexpected⟩ := ih h
      exact ⟨.processMetrics now :: before, after, by rw [hcalls]; rfl, hexpected⟩

/-- The names that are found are those that have been registered. -/
theorem expected_isSome_iff {name : Bytes} {calls : List (Call σ)} :
    (expected name calls).isSome = true ↔ name ∈ (registered calls).map Prod.fst := by
  induction calls with
  | nil => simp [expected, registered]
  | cons c calls ih =>
    rcases c with ⟨n, other⟩ | now
    · have hcons : registered (.registerMetric n other :: calls) = (n, other) :: registered calls :=
        rfl
      rw [hcons, expected, List.map_cons, List.mem_cons, ← ih]
      by_cases hn : n = name
      · simp [hn]
      · simp [hn, Ne.symm hn]
    · exact ih

end IqLogger.Metrics
