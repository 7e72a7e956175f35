import IqLogger.Core.Task
import IqLogger.Pipeline.Wedged
import Mathlib.Logic.Relation

/-!
# Starting and stopping the outputs

`OutputServer` starts its outputs one after the other, and then its own threads; it stops
the outputs one after the other, and then joins its threads. An output of either type
joins its threads at the end of `stopImpl`, but a LOG output first calls `stop` of its
base class, which is not the `stopImpl` of that class: it is the `stop` it has been
called from, and throws since the flag is off by now.

Here is what the thread does that initialises, starts and stops the server
(`IqLogger.Outputs.Driver`). It has to wait for a thread that it joins; what the other
threads do meanwhile is in `IqLogger.Outputs.Shutdown`. Leaving that aside, its way is
determined (`IqLogger.Outputs.Driver.Goes`): without LOG outputs it leads to the end of all
calls with everything stopped (`IqLogger.Outputs.Driver.goes_of_gelf`), and otherwise to an
exception (`IqLogger.Outputs.Driver.goes_of_log`).
-/

namespace IqLogger.Outputs

open Pipeline (OutputType)
open Pipeline.Flow (Setup Thread)

/-! ### The server and its outputs -/

section Classes

variable (c : Setup)

/-- The server, and its outputs. -/
inductive Task
  | server
  | output (o : Fin c.outputs)
  deriving DecidableEq

/-- What the virtual methods do besides calling methods of tasks. -/
inductive Action
  /-- `m_threads.emplace_back`. -/
  | create (t : Thread c)
  /-- `OutputInterface::stopImpl`, that is `m_io_service.stop()`. -/
  | stopService (o : Fin c.outputs)
  /-- The `join` of a thread that is joinable. -/
  | join (t : Thread c)
  /-- The end of `stopImpl` of an output. -/
  | leave (o : Fin c.outputs)

/-- A `std::thread` of `m_threads`. -/
inductive StdThread
  | none
  | joinable
  | joined
  deriving DecidableEq, Repr

/-- `OutputServer`, with its outputs: the flags of the tasks, and what they have besides. How
often `stopImpl` of an output has run to its end is known to the model only. -/
structure OutputServer where
  task : Task c → TaskInterface
  m_threads : Thread c → StdThread
  io_service_stopped : Fin c.outputs → Bool
  stopped : Fin c.outputs → ℕ

/-- The thread that drives them: the calls that are left, and the exception that has left
them all. -/
structure Driver where
  server : OutputServer c
  calls : List (TaskCall (Task c) (Action c))
  thrown : Option String

/-- The threads of an output. -/
def outputThreads (o : Fin c.outputs) : List (Thread c) :=
  ((List.finRange c.outputThreads).filter fun w => c.output w = o).map .output

/-- The threads of the server. -/
def serverThreads : List (Thread c) := (List.finRange c.exporters).map .exporter

/-- A method is called for each output, in order. -/
def forOutputs (method : TaskMethod) : List (TaskCall (Task c) (Action c)) :=
  (List.finRange c.outputs).map fun o => .call method (.output o)

variable {c}

/-- A loop that creates threads. -/
def creates (ts : List (Thread c)) : List (TaskCall (Task c) (Action c)) :=
  ts.map fun t => .action (.create t)

/-- A loop that joins threads. -/
def joins (ts : List (Thread c)) : List (TaskCall (Task c) (Action c)) :=
  ts.map fun t => .action (.join t)

/-- `stopImpl` of an output. That of `LogOutput` begins with `Output<Log>::stop()`, which is
`TaskInterface::stop`. -/
def stopImpl (type : Fin c.outputs → OutputType) (o : Fin c.outputs) :
    List (TaskCall (Task c) (Action c)) :=
  match type o with
  | .gelf => .action (.stopService o) :: (joins (outputThreads c o) ++ [.action (.leave o)])
  | .log => .call .stop (.output o) :: (joins (outputThreads c o) ++ [.action (.leave o)])

/-- The virtual methods of the server, and those of an output of the type it has.
`OutputInterface::initImpl` does nothing. -/
def impl (type : Fin c.outputs → OutputType) :
    TaskMethod → Task c → List (TaskCall (Task c) (Action c))
  | .init, .server => forOutputs c .init
  | .start, .server => forOutputs c .start ++ creates (serverThreads c)
  | .stop, .server => forOutputs c .stop ++ joins (serverThreads c)
  | .init, .output _ => []
  | .start, .output o => creates (outputThreads c o)
  | .stop, .output o => stopImpl type o

end Classes

variable {c : Setup}

namespace OutputServer

variable (c) in
/-- The server when it has been constructed, with its outputs. -/
def configure : OutputServer c where
  task _ := .new
  m_threads _ := .none
  io_service_stopped _ := false
  stopped _ := 0

variable (s : OutputServer c)

def setTask (task : Task c) (flags : TaskInterface) : OutputServer c :=
  { s with task := Function.update s.task task flags }

@[simp] theorem task_setTask_self (task : Task c) (flags : TaskInterface) :
    (s.setTask task flags).task task = flags := Function.update_self ..

/-- Some threads are created, or have been joined. -/
def setThreads (ts : List (Thread c)) (state : StdThread) : OutputServer c :=
  { s with m_threads := fun t => if t ∈ ts then state else s.m_threads t }

/-- **An action**, if it is possible: the join of a thread is so when it has ended. -/
def act (ended : Thread c → Bool) : Action c → Option (OutputServer c)
  | .create t => some (s.setThreads [t] .joinable)
  | .stopService o =>
    some { s with io_service_stopped := Function.update s.io_service_stopped o true }
  | .join t =>
    if s.m_threads t = .joinable then
      if ended t then some (s.setThreads [t] .joined) else none
    else some s
  | .leave o => some { s with stopped := Function.update s.stopped o (s.stopped o + 1) }

/-- **Everything has been stopped**: nothing is running, every output has stopped once, and
all threads have been joined. -/
structure AllStopped : Prop where
  not_running : ∀ task, (s.task task).m_started = false
  outputs_stopped : ∀ o, s.stopped o = 1
  threads_joined : ∀ w, s.m_threads (.output w) = .joined
  server_threads_joined : ∀ e, s.m_threads (.exporter e) = .joined

end OutputServer

namespace Driver

variable (c) in
/-- The whole life of the server: it is initialised, started, and in the end stopped. -/
def start : Driver c where
  server := .configure c
  calls := [.call .init .server, .call .start .server, .call .stop .server]
  thrown := none

variable (type : Fin c.outputs → OutputType) (ended : Thread c → Bool) (d : Driver c)

/-- **The next step of the thread**, if it is possible. -/
def step : Option (Driver c) :=
  match d.calls with
  | [] => none
  | .call method task :: rest =>
    let out := (d.server.task task).enter method
    some ⟨d.server.setTask task out.1,
      if out.2.isNone then impl type method task ++ rest else [], out.2⟩
  | .action a :: rest => (d.server.act ended a).map fun server => ⟨server, rest, none⟩

/-- **All calls have returned.** -/
def Returned : Prop := d.calls = [] ∧ d.thrown = none

end Driver

/-! ### The way of the thread -/

/-- What a thread of an output or of the server looks at tells it to end: its flag is off, and
for a thread of the server all threads of the outputs have been joined, too. -/
def Released (s : OutputServer c) : Thread c → Prop
  | .output w => (s.task (.output (c.output w))).m_started = false
  | .exporter _ => (s.task .server).m_started = false ∧ ∀ w, s.m_threads (.output w) = .joined
  | _ => False

variable {type : Fin c.outputs → OutputType}

variable (type) in
/-- **A step of the thread**, which may be a join only of a thread that is told to end. -/
def Driver.Goes (d d' : Driver c) : Prop :=
  d.step type (fun _ => true) = some d' ∧
    ∀ t rest, d.calls = .action (.join t) :: rest → d.server.m_threads t = .joinable →
      Released d.server t

variable (type) in
/-- Some calls are made in a state of the server, and return in another one. -/
def Runs (calls : List (TaskCall (Task c) (Action c))) (s s' : OutputServer c) : Prop :=
  ∀ rest, Relation.ReflTransGen (Driver.Goes type) ⟨s, calls ++ rest, none⟩ ⟨s', rest, none⟩

variable (type) in
/-- Some calls are made in a state of the server, and an exception leaves them. -/
def Throws (calls : List (TaskCall (Task c) (Action c))) (s : OutputServer c) : Prop :=
  ∀ rest, ∃ s' what,
    Relation.ReflTransGen (Driver.Goes type) ⟨s, calls ++ rest, none⟩ ⟨s', [], some what⟩

section Rules

variable {s s' s'' : OutputServer c} {a b : List (TaskCall (Task c) (Action c))}

theorem Runs.nil : Runs type [] s s := fun _ => .refl

theorem Runs.append (ha : Runs type a s s') (hb : Runs type b s' s'') :
    Runs type (a ++ b) s s'' := by
  intro rest
  rw [List.append_assoc]
  exact (ha (b ++ rest)).trans (hb rest)

theorem Runs.cons {call : TaskCall (Task c) (Action c)} (ha : Runs type [call] s s')
    (hb : Runs type b s' s'') : Runs type (call :: b) s s'' :=
  ha.append hb

theorem Runs.throws (ha : Runs type a s s') (hb : Throws type b s') :
    Throws type (a ++ b) s := by
  intro rest
  obtain ⟨u, what, hrun⟩ := hb rest
  rw [List.append_assoc]
  exact ⟨u, what, (ha (b ++ rest)).trans hrun⟩

theorem Throws.append (ha : Throws type a s) : Throws type (a ++ b) s := by
  intro rest
  rw [List.append_assoc]
  exact ha (b ++ rest)

/-- A method that does not throw is its virtual method. -/
theorem Runs.call {method : TaskMethod} {task : Task c} {flags : TaskInterface}
    (henter : (s.task task).enter method = (flags, none))
    (himpl : Runs type (impl type method task) (s.setTask task flags) s') :
    Runs type [.call method task] s s' := by
  intro rest
  refine .head ⟨?_, by simp⟩ (himpl rest)
  simp [Driver.step, henter]

theorem Throws.call {method : TaskMethod} {task : Task c} {flags : TaskInterface}
    (henter : (s.task task).enter method = (flags, none))
    (himpl : Throws type (impl type method task) (s.setTask task flags)) :
    Throws type [.call method task] s := by
  intro rest
  obtain ⟨u, what, hrun⟩ := himpl rest
  refine ⟨u, what, .head ⟨?_, by simp⟩ hrun⟩
  simp [Driver.step, henter]

/-- A method that throws by itself. -/
theorem throws_call {method : TaskMethod} {task : Task c} {flags : TaskInterface}
    {what : String} (henter : (s.task task).enter method = (flags, some what)) :
    Throws type [.call method task] s := by
  intro rest
  refine ⟨s.setTask task flags, what, .single ⟨?_, by simp⟩⟩
  simp [Driver.step, henter]

/-- An action that waits for nothing. -/
theorem Runs.action {action : Action c} (hact : s.act (fun _ => true) action = some s')
    (hjoin : ∀ t, action = .join t → s.m_threads t = .joinable → Released s t) :
    Runs type [.action action] s s' := by
  intro rest
  refine .single ⟨?_, ?_⟩
  · simp [Driver.step, hact]
  · intro t rest' hcalls
    simp only [List.singleton_append, List.cons.injEq, TaskCall.action.injEq] at hcalls
    exact hjoin t hcalls.1

end Rules

/-! ### Loops over threads -/

section Loops

variable {s : OutputServer c} {ts : List (Thread c)} {state : StdThread}

namespace OutputServer

/-- Nothing changes for threads that are in that state. -/
theorem setThreads_eq_self (h : ∀ t ∈ ts, s.m_threads t = state) :
    s.setThreads ts state = s := by
  have hsame : (fun t => if t ∈ ts then state else s.m_threads t) = s.m_threads := by
    funext t
    split_ifs with ht
    · exact (h t ht).symm
    · rfl
  rw [setThreads, hsame]

theorem setThreads_cons (t : Thread c) :
    s.setThreads (t :: ts) state = (s.setThreads [t] state).setThreads ts state := by
  simp only [setThreads, mk.injEq, true_and, and_true]
  funext u
  by_cases hu : u ∈ ts <;> simp [hu]

end OutputServer

/-- A thread stays told to end when others have been joined. -/
theorem Released.setThreads {t : Thread c} (h : Released s t) :
    Released (s.setThreads ts .joined) t := by
  rcases t with _ | _ | _ | e | w
  · exact h
  · exact h
  · exact h
  · refine ⟨h.1, fun w => ?_⟩
    simp only [OutputServer.setThreads, h.2 w, ite_self]
  · exact h

/-- **Threads are created.** -/
theorem runs_creates : Runs type (creates ts) s (s.setThreads ts .joinable) := by
  induction ts generalizing s with
  | nil =>
    rw [OutputServer.setThreads_eq_self (by simp)]
    exact .nil
  | cons t ts ih =>
    rw [OutputServer.setThreads_cons]
    exact (Runs.action rfl (by simp)).cons ih

/-- **Threads are joined** that are told to end. -/
theorem runs_joins (h : ∀ t ∈ ts, s.m_threads t ≠ .none ∧ Released s t) :
    Runs type (joins ts) s (s.setThreads ts .joined) := by
  induction ts generalizing s with
  | nil =>
    rw [OutputServer.setThreads_eq_self (by simp)]
    exact .nil
  | cons t ts ih =>
    obtain ⟨⟨hcreated, hreleased⟩, hrest⟩ := List.forall_mem_cons.mp h
    have hact : s.act (fun _ => true) (.join t) = some (s.setThreads [t] .joined) := by
      by_cases ht : s.m_threads t = .joinable
      · rw [OutputServer.act, if_pos ht, if_pos rfl]
      · have hjoined : s.m_threads t = .joined := by
          cases hstate : s.m_threads t with
          | none => exact absurd hstate hcreated
          | joinable => exact absurd hstate ht
          | joined => rfl
        rw [OutputServer.act, if_neg ht, OutputServer.setThreads_eq_self (by simpa using hjoined)]
    rw [OutputServer.setThreads_cons]
    refine (Runs.action hact fun u hu _ => ?_).cons (ih fun u hu => ⟨?_, ?_⟩)
    · cases hu
      exact hreleased
    · by_cases hut : u = t
      · simp [OutputServer.setThreads, hut]
      · simpa [OutputServer.setThreads, hut] using (hrest u hu).1
    · exact (hrest u hu).2.setThreads

end Loops

/-! ### Loops over outputs -/

/-- How an output stands: its flags, its threads, and how often it has stopped. -/
structure Stage where
  flags : TaskInterface
  threads : StdThread
  stopped : ℕ

namespace OutputServer

section Stages

variable (s s' : OutputServer c) (o : Fin c.outputs)

/-- An output stands so. -/
def At (g : Stage) : Prop :=
  s.task (.output o) = g.flags ∧ (∀ w, c.output w = o → s.m_threads (.output w) = g.threads) ∧
    s.stopped o = g.stopped

/-- A method of one output has run: the others are as they were, and the server. -/
structure SameBut : Prop where
  server : s'.task .server = s.task .server
  exporters : ∀ e, s'.m_threads (.exporter e) = s.m_threads (.exporter e)
  task : ∀ p ≠ o, s'.task (.output p) = s.task (.output p)
  threads : ∀ w, c.output w ≠ o → s'.m_threads (.output w) = s.m_threads (.output w)
  stopped : ∀ p ≠ o, s'.stopped p = s.stopped p

/-- **In a loop over the outputs**: those that are left stand so, the others so, and so do
the server and its threads. -/
structure Between (before after : Stage) (flags : TaskInterface) (exporters : StdThread)
    (todo : List (Fin c.outputs)) : Prop where
  nodup : todo.Nodup
  server : s.task .server = flags
  exporters : ∀ e, s.m_threads (.exporter e) = exporters
  left : ∀ p ∈ todo, s.At p before
  done : ∀ p ∉ todo, s.At p after

variable {s s' o} {before after : Stage} {flags : TaskInterface} {exporters : StdThread}
  {todo : List (Fin c.outputs)}

theorem At.sameBut {p : Fin c.outputs} {g : Stage} (h : s.At p g) (hsame : SameBut s s' o)
    (hp : p ≠ o) : s'.At p g := by
  refine ⟨(hsame.task p hp).trans h.1, fun w hw => ?_, (hsame.stopped p hp).trans h.2.2⟩
  exact (hsame.threads w (hw ▸ hp)).trans (h.2.1 w hw)

/-- A round of the loop. -/
theorem Between.next (h : Between s before after flags exporters (o :: todo))
    (hsame : SameBut s s' o) (ho : s'.At o after) :
    Between s' before after flags exporters todo := by
  obtain ⟨hnot, hnodup⟩ := List.nodup_cons.mp h.nodup
  refine ⟨hnodup, hsame.server.trans h.server, fun e => (hsame.exporters e).trans (h.exporters e),
    fun p hp => ?_, fun p hp => ?_⟩
  · exact (h.left p (List.mem_cons_of_mem _ hp)).sameBut hsame fun hpo => hnot (hpo ▸ hp)
  · by_cases hpo : p = o
    · rw [hpo]
      exact ho
    · exact (h.done p (by simp [hpo, hp])).sameBut hsame hpo

/-- **The loop over all outputs.** -/
theorem Between.runs {method : TaskMethod}
    (hround : ∀ s o, s.At o before → s.task .server = flags →
      ∃ s', Runs type [.call method (.output o)] s s' ∧ SameBut s s' o ∧ s'.At o after)
    (h : Between s before after flags exporters todo) :
    ∃ s', Runs type (todo.map fun o => .call method (.output o)) s s' ∧
      Between s' before after flags exporters [] := by
  induction todo generalizing s with
  | nil => exact ⟨s, .nil, h⟩
  | cons o todo ih =>
    obtain ⟨s', hrun, hsame, ho⟩ := hround s o (h.left o (List.mem_cons_self ..)) h.server
    obtain ⟨s'', hrest, hend⟩ := ih (h.next hsame ho)
    exact ⟨s'', hrun.cons hrest, hend⟩

end Stages

end OutputServer

/-! ### The methods of an output -/

theorem mem_outputThreads {o : Fin c.outputs} {w : Fin c.outputThreads} :
    Thread.output w ∈ outputThreads c o ↔ c.output w = o := by
  simp [outputThreads]

theorem exporter_notMem_outputThreads {o : Fin c.outputs} {e : Fin c.exporters} :
    Thread.exporter e ∉ outputThreads c o := by
  simp [outputThreads]

namespace OutputServer

variable {s : OutputServer c} {o : Fin c.outputs}

/-- Only the flags of an output have changed, its threads, and how often it has stopped. -/
theorem sameBut_of_output {s' : OutputServer c} {flags : TaskInterface}
    (htask : s'.task = Function.update s.task (.output o) flags)
    (hthreads : ∀ t ∉ outputThreads c o, s'.m_threads t = s.m_threads t)
    (hstopped : ∀ p ≠ o, s'.stopped p = s.stopped p) : SameBut s s' o where
  server := by simp [htask]
  exporters e := hthreads _ exporter_notMem_outputThreads
  task p hp := by simp [htask, hp]
  threads w hw := hthreads _ fun h => hw (mem_outputThreads.mp h)
  stopped := hstopped

/-- **`init` of an output.** -/
theorem runs_init (h : s.At o ⟨.new, .none, 0⟩) :
    ∃ s', Runs type [.call .init (.output o)] s s' ∧ SameBut s s' o ∧
      s'.At o ⟨⟨true, false⟩, .none, 0⟩ := by
  refine ⟨s.setTask (.output o) ⟨true, false⟩, .call (by rw [h.1]; rfl) .nil, ?_, ?_⟩
  · exact sameBut_of_output rfl (fun _ _ => rfl) fun _ _ => rfl
  · exact ⟨Function.update_self .., h.2⟩

/-- **`start` of an output** creates its threads. -/
theorem runs_start (h : s.At o ⟨⟨true, false⟩, .none, 0⟩) :
    ∃ s', Runs type [.call .start (.output o)] s s' ∧ SameBut s s' o ∧
      s'.At o ⟨⟨true, true⟩, .joinable, 0⟩ := by
  refine ⟨(s.setTask (.output o) ⟨true, true⟩).setThreads (outputThreads c o) .joinable,
    .call (by rw [h.1]; rfl) runs_creates, ?_, ?_⟩
  · exact sameBut_of_output rfl (fun _ ht => if_neg ht) fun _ _ => rfl
  · exact ⟨Function.update_self .., fun _ hw => if_pos (mem_outputThreads.mpr hw), h.2.2⟩

/-- **`stop` of a GELF output** joins its threads, whose flag is off by then. -/
theorem runs_stop (hgelf : type o = .gelf) (h : s.At o ⟨⟨true, true⟩, .joinable, 0⟩) :
    ∃ s', Runs type [.call .stop (.output o)] s s' ∧ SameBut s s' o ∧
      s'.At o ⟨⟨true, false⟩, .joined, 1⟩ := by
  let begun : OutputServer c :=
    { s.setTask (.output o) ⟨true, false⟩ with
      io_service_stopped := Function.update s.io_service_stopped o true }
  let joined := begun.setThreads (outputThreads c o) .joined
  let ended : OutputServer c :=
    { joined with stopped := Function.update s.stopped o (s.stopped o + 1) }
  have hjoins : Runs type (joins (outputThreads c o)) begun joined := by
    refine runs_joins fun t ht => ?_
    obtain ⟨w, hw, rfl⟩ := List.mem_map.mp ht
    have howner : c.output w = o := by simpa using hw
    refine ⟨?_, ?_⟩
    · change s.m_threads (.output w) ≠ .none
      simp [h.2.1 w howner]
    · simp [Released, begun, setTask, howner]
  have himpl : Runs type (impl type .stop (.output o)) (s.setTask (.output o) ⟨true, false⟩)
      ended := by
    rw [impl, stopImpl, hgelf]
    exact (Runs.action rfl (by simp)).cons (hjoins.append (Runs.action rfl (by simp)))
  refine ⟨ended, .call (by rw [h.1]; rfl) himpl, ?_, ?_⟩
  · exact sameBut_of_output rfl (fun _ ht => if_neg ht) fun _ hp => Function.update_of_ne hp ..
  · refine ⟨Function.update_self .., fun _ hw => if_pos (mem_outputThreads.mpr hw), ?_⟩
    change Function.update s.stopped o (s.stopped o + 1) o = 1
    rw [Function.update_self, h.2.2]

/-- **`stop` of a LOG output throws**: it calls the `stop` it has been called from. -/
theorem throws_stop (hlog : type o = .log) (h : s.At o ⟨⟨true, true⟩, .joinable, 0⟩) :
    Throws type [.call .stop (.output o)] s := by
  refine .call (by rw [h.1]; rfl) ?_
  rw [impl, stopImpl, hlog]
  have hnested : Throws type [.call .stop (.output o)]
      (s.setTask (.output o) ⟨true, false⟩) :=
    throws_call (by rw [task_setTask_self]; rfl)
  exact hnested.append

end OutputServer

/-! ### The whole way -/

namespace OutputServer

/-- All outputs stand so, and so do the server and its threads. -/
structure Stands (s : OutputServer c) (g : Stage) (flags : TaskInterface)
    (exporters : StdThread) : Prop where
  server : s.task .server = flags
  exporters : ∀ e, s.m_threads (.exporter e) = exporters
  outputs : ∀ o, s.At o g

section Stands

variable {s : OutputServer c} {g g' : Stage} {flags : TaskInterface} {exporters : StdThread}

/-- Before a loop over all outputs. -/
theorem Stands.between (h : s.Stands g flags exporters) (after : Stage) :
    s.Between g after flags exporters (List.finRange c.outputs) where
  nodup := List.nodup_finRange _
  server := h.server
  exporters := h.exporters
  left o _ := h.outputs o
  done o ho := absurd (List.mem_finRange o) ho

variable (type) in
/-- **A method of all outputs.** -/
theorem Stands.runs {method : TaskMethod} (h : s.Stands g flags exporters)
    (hround : ∀ s o, s.At o g → s.task .server = flags →
      ∃ s', Runs type [.call method (.output o)] s s' ∧ SameBut s s' o ∧ s'.At o g') :
    ∃ s', Runs type (forOutputs c method) s s' ∧ s'.Stands g' flags exporters := by
  obtain ⟨s', hrun, hend⟩ := (h.between g').runs hround
  exact ⟨s', hrun, hend.server, hend.exporters, fun o => hend.done o List.not_mem_nil⟩

/-- The flags of the server change. -/
theorem Stands.setServer (h : s.Stands g flags exporters) (flags' : TaskInterface) :
    (s.setTask .server flags').Stands g flags' exporters where
  server := task_setTask_self ..
  exporters := h.exporters
  outputs o := by
    refine ⟨?_, (h.outputs o).2⟩
    simp [setTask, (h.outputs o).1]

/-- The threads of the server change. -/
theorem Stands.setThreads (h : s.Stands g flags exporters) (state : StdThread) :
    (s.setThreads (serverThreads c) state).Stands g flags state where
  server := h.server
  exporters e := if_pos (by simp [serverThreads])
  outputs o := by
    refine ⟨(h.outputs o).1, fun w hw => ?_, (h.outputs o).2.2⟩
    rw [← (h.outputs o).2.1 w hw]
    exact if_neg (by simp [serverThreads])

end Stands

/-- The server and its outputs after `start` has returned. -/
def Started (s : OutputServer c) : Prop :=
  s.Stands ⟨⟨true, true⟩, .joinable, 0⟩ ⟨true, true⟩ .joinable

variable (type) in
/-- **Everything that is configured can be initialised and started.** -/
theorem runs_start_server : ∃ s : OutputServer c,
    Runs type [.call .init .server, .call .start .server] (configure c) s ∧ s.Started := by
  have hnew : (configure c).Stands ⟨.new, .none, 0⟩ .new .none :=
    ⟨rfl, fun _ => rfl, fun _ => ⟨rfl, fun _ _ => rfl, rfl⟩⟩
  obtain ⟨inited, hinit, hinited⟩ := (hnew.setServer ⟨true, false⟩).runs type
    fun _ _ h _ => runs_init h
  obtain ⟨started, hstart, hstarted⟩ := (hinited.setServer ⟨true, true⟩).runs type
    fun _ _ h _ => runs_start h
  refine ⟨_, Runs.cons (.call rfl hinit) (.call (by rw [hinited.server]; rfl) ?_),
    hstarted.setThreads .joinable⟩
  exact hstart.append runs_creates

variable {s : OutputServer c}

/-- **Without LOG outputs everything is stopped.** -/
theorem Started.runs_stop (h : s.Started) (hgelf : ∀ o, type o = .gelf) :
    ∃ s', Runs type [.call .stop .server] s s' ∧ s'.AllStopped := by
  obtain ⟨stopped, hstop, hstopped⟩ := (h.setServer ⟨true, false⟩).runs type
    fun _ o h _ => OutputServer.runs_stop (hgelf o) h
  have hjoins : Runs type (joins (serverThreads c)) stopped
      (stopped.setThreads (serverThreads c) .joined) := by
    refine runs_joins fun t ht => ?_
    obtain ⟨e, -, rfl⟩ := List.mem_map.mp ht
    refine ⟨by simp [hstopped.exporters e], by rw [hstopped.server], fun w => ?_⟩
    exact (hstopped.outputs (c.output w)).2.1 w rfl
  have hend := hstopped.setThreads .joined
  refine ⟨_, .call (by rw [h.server]; rfl) (hstop.append hjoins), ?_, fun o => ?_, fun w => ?_,
    hend.exporters⟩
  · rintro (_ | o)
    · rw [hend.server]
    · rw [(hend.outputs o).1]
  · exact (hend.outputs o).2.2
  · exact (hend.outputs (c.output w)).2.1 w rfl

/-- The loop that stops the outputs, when there is a LOG output among those that are left. -/
theorem Between.throws {flags : TaskInterface} {exporters : StdThread}
    {todo : List (Fin c.outputs)}
    (h : s.Between ⟨⟨true, true⟩, .joinable, 0⟩ ⟨⟨true, false⟩, .joined, 1⟩ flags exporters todo)
    (hlog : ∃ o ∈ todo, type o = .log) :
    Throws type (todo.map fun o => .call .stop (.output o)) s := by
  induction todo generalizing s with
  | nil => simp at hlog
  | cons o todo ih =>
    have ho := h.left o (List.mem_cons_self ..)
    cases htype : type o with
    | log => exact (throws_stop htype ho).append
    | gelf =>
      obtain ⟨s', hrun, hsame, ho'⟩ := OutputServer.runs_stop htype ho
      refine hrun.throws (ih (h.next hsame ho') ?_)
      obtain ⟨p, hp, hplog⟩ := hlog
      rcases List.mem_cons.mp hp with rfl | hp
      · rw [htype] at hplog
        cases hplog
      · exact ⟨p, hp, hplog⟩

/-- **With a LOG output an exception leaves `stop`.** -/
theorem Started.throws_stop (h : s.Started) (hlog : ∃ o, type o = .log) :
    Throws type [.call .stop .server] s := by
  obtain ⟨o, ho⟩ := hlog
  have hloop := ((h.setServer ⟨true, false⟩).between ⟨⟨true, false⟩, .joined, 1⟩).throws
    ⟨o, List.mem_finRange o, ho⟩
  exact .call (by rw [h.server]; rfl) hloop.append

end OutputServer

namespace Driver

/-- **The way of the thread without LOG outputs.** -/
theorem goes_of_gelf (hgelf : ∀ o, type o = .gelf) : ∃ s,
    Relation.ReflTransGen (Goes type) (start c) ⟨s, [], none⟩ ∧ s.AllStopped := by
  obtain ⟨s, hstart, hs⟩ := OutputServer.runs_start_server type (c := c)
  obtain ⟨s', hstop, hend⟩ := hs.runs_stop hgelf
  exact ⟨s', (hstart.append hstop) [], hend⟩

/-- **The way of the thread with a LOG output.** -/
theorem goes_of_log (hlog : ∃ o, type o = .log) : ∃ s what,
    Relation.ReflTransGen (Goes type) (start c) ⟨s, [], some what⟩ := by
  obtain ⟨s, hstart, hs⟩ := OutputServer.runs_start_server type (c := c)
  exact (hstart.throws (hs.throws_stop hlog)) []

variable {d d' final : Driver c}

/-- A thread that has come to its end makes no step. -/
theorem step_of_calls_nil {ended : Thread c → Bool} (h : d.calls = []) :
    d.step type ended = none := by
  rw [step, h]

/-- A step that is made is made all the more when no thread has to be waited for. -/
theorem step_of_ended {ended : Thread c → Bool} (hstep : d.step type ended = some d') :
    d.step type (fun _ => true) = some d' := by
  rw [step] at hstep ⊢
  split at hstep
  · cases hstep
  · exact hstep
  · next action rest _ =>
    obtain ⟨s, hact, hd'⟩ := Option.map_eq_some_iff.mp hstep
    rw [Option.map_eq_some_iff]
    refine ⟨s, ?_, hd'⟩
    rcases action with t | o | t | o
    · exact hact
    · exact hact
    · rw [OutputServer.act] at hact ⊢
      by_cases ht : d.server.m_threads t = .joinable
      · rw [if_pos ht] at hact ⊢
        obtain ⟨-, hact⟩ := Option.ite_none_right_eq_some.mp hact
        rw [if_pos rfl, hact]
      · rwa [if_neg ht] at hact ⊢
    · exact hact

/-- A step is made when the thread that is joined in it has ended. -/
theorem step_of_ready {ended : Thread c → Bool} (hstep : d.step type (fun _ => true) = some d')
    (hready : ∀ t rest, d.calls = .action (.join t) :: rest →
      d.server.m_threads t = .joinable → ended t = true) : d.step type ended = some d' := by
  rw [step] at hstep ⊢
  split at hstep
  · cases hstep
  · exact hstep
  · next action rest hcalls =>
    obtain ⟨s, hact, hd'⟩ := Option.map_eq_some_iff.mp hstep
    rw [Option.map_eq_some_iff]
    refine ⟨s, ?_, hd'⟩
    rcases action with t | o | t | o
    · exact hact
    · exact hact
    · rw [OutputServer.act] at hact ⊢
      by_cases ht : d.server.m_threads t = .joinable
      · rw [if_pos ht, if_pos rfl] at hact
        rw [if_pos ht, if_pos (hready t rest hcalls ht), hact]
      · rwa [if_neg ht] at hact ⊢
    · exact hact

/-- **The thread does not leave its way.** -/
theorem goes_step (hfinal : final.calls = [])
    (hway : Relation.ReflTransGen (Goes type) d final) {ended : Thread c → Bool}
    (hstep : d.step type ended = some d') : Relation.ReflTransGen (Goes type) d' final := by
  rcases hway.cases_head with rfl | ⟨e, hgoes, hrest⟩
  · rw [step_of_calls_nil hfinal] at hstep
    cases hstep
  · have hsame := (step_of_ended hstep).symm.trans hgoes.1
    cases hsame
    exact hrest

/-- A thread without calls that is on its way has come to the end of it. -/
theorem eq_of_goes (hway : Relation.ReflTransGen (Goes type) d final) (h : d.calls = []) :
    d = final := by
  rcases hway.cases_head with rfl | ⟨e, hgoes, -⟩
  · rfl
  · have hstep := hgoes.1
    rw [step_of_calls_nil h] at hstep
    cases hstep

end Driver

end IqLogger.Outputs
