import IqLogger.Lib.FairRuns
import IqLogger.Outputs.OutputServer

/-!
# The shutdown of the outputs

While one thread stops the outputs and then joins the threads of the server, all other
threads of the pipeline go on. A thread of an output ends once its flag is off, whatever
becomes of its writes. A thread of the server looks at its flag only between two batches:
on the way it may wait for room in the queue of an output, and when the threads of that
output have ended by then nobody makes room any more
(`IqLogger.Outputs.Shutdown.Stuck`).

So a shutdown does not come to its end for one of two reasons, and for no other
(`IqLogger.Outputs.Shutdown.stop_reaches_all_iff`): there is a LOG output, or a thread of
the server gets stuck.

All of this is about runs in which nobody is left out for ever
(`IqLogger.Outputs.Shutdown.Fairly`): neither the thread that drives the tasks, when it has
not to wait, nor a thread that has been told to end.
-/

namespace IqLogger.Outputs

open Pipeline (OutputType Phase)
open Pipeline.Flow

section States

variable (c : Setup) (R M O : Type)

/-- The pipeline, and the thread that drives the server and the outputs. -/
structure Shutdown where
  pipeline : System c R M O
  main : Driver c

/-- A step of one of the threads of the pipeline, or of the thread that drives the server; or
nothing happens for a while. -/
inductive ShutdownEvent
  | thread (e : Event c R M O)
  | main
  | idle

end States

variable {c : Setup} {R M O : Type}

/-- The thread of the pipeline that makes a step. -/
def ShutdownEvent.toThread : ShutdownEvent c R M O → Option (Thread c)
  | .thread e => e.thread
  | _ => none

/-- A thread has ended. -/
def hasEnded (s : System c R M O) : Thread c → Bool
  | .producer _ => false
  | .importer i => match s.importer i with | .ended => true | _ => false
  | .processor p => match s.processor p with | .ended => true | _ => false
  | .exporter e => match s.exporter e with | .ended => true | _ => false
  | .output w => match s.outputThread w with | .ended => true | _ => false

theorem hasEnded_iff {s : System c R M O} {t : Thread c} : hasEnded s t = true ↔ s.Ended t := by
  rcases t with p | i | p | e | w
  · simp [hasEnded, System.Ended]
  · rw [hasEnded, System.Ended]
    cases s.importer i <;> simp
  · rw [hasEnded, System.Ended]
    cases s.processor p <;> simp
  · rw [hasEnded, System.Ended]
    cases s.exporter e <;> simp
  · rw [hasEnded, System.Ended]
    cases s.outputThread w <;> simp

namespace Shutdown

variable (c R M O) in
/-- Nothing has begun yet. -/
def start : Shutdown c R M O := ⟨System.start c R M O, Driver.start c⟩

section Steps

variable (s : Shutdown c R M O)

/-- The flags that the threads look at: those of the server and the outputs are those of the
tasks. -/
def isRunning : Flag c → Bool
  | .outputServer => (s.main.server.task .server).m_started
  | .output o => (s.main.server.task (.output o)).m_started
  | flag => s.pipeline.isRunning flag

/-- The pipeline, with these flags. -/
def view : System c R M O := { s.pipeline with isRunning := s.isRunning }

/-- The threads of the server and the outputs can make steps once they have been created. -/
def canRun : Thread c → Bool
  | .exporter e => s.main.server.m_threads (.exporter e) ≠ .none
  | .output w => s.main.server.m_threads (.output w) ≠ .none
  | _ => true

variable [DecidableEq R] [DecidableEq M] [DecidableEq O] (type : Fin c.outputs → OutputType)

/-- What a step does, if it is possible. -/
def step (s : Shutdown c R M O) : ShutdownEvent c R M O → Option (Shutdown c R M O)
  | .thread e =>
    if e.thread.all s.canRun then
      (s.view.step e).map fun pipeline => { s with pipeline := pipeline }
    else none
  | .main => (s.main.step type (hasEnded s.pipeline)).map fun main => { s with main := main }
  | .idle => some s

end Steps

/-- **A thread of the server is stuck**: it is in a call at the full queue of an output, and
has not found room there yet, and all threads of that output have ended. -/
def Stuck (s : Shutdown c R M O) : Prop :=
  ∃ e o, s.pipeline.Waits (.exporter e) (.output o) ∧ s.pipeline.Full (.output o) ∧
    ∀ w, c.output w = o → s.pipeline.Ended (.output w)

/-- A thread of an output or of the server has been told to end, and has not ended yet. -/
def Ending (s : Shutdown c R M O) (t : Thread c) : Prop :=
  s.main.server.m_threads t ≠ .none ∧ ¬s.pipeline.Ended t ∧
    match t with
    | .exporter _ => s.isRunning .outputServer = false
    | .output w => s.isRunning (.output (c.output w)) = false
    | _ => False

/-! ### Runs -/

section Runs

variable [DecidableEq R] [DecidableEq M] [DecidableEq O] {type : Fin c.outputs → OutputType}

open Machine

/-- **Nobody is left out for ever.** -/
structure Fairly (r : InfiniteRun (step (R := R) (M := M) (O := O) type)) : Prop where
  main : r.Fair (fun s => (s.main.step type (hasEnded s.pipeline)).isSome) (· = .main)
  thread : ∀ t, r.Fair (fun s => s.Ending t) (fun e => e.toThread = some t)

end Runs

end Shutdown

/-! ### How far a thread is from its end -/

section Ranks

/-- The steps of a thread of an output before it looks at its flag, and a bit more. -/
def outputRank : OutputThread O → ℕ
  | .ended => 0
  | .top => 1
  | .totalling _ => 2
  | .exporting records _ => records.length + 3
  | .taking => Pipeline.queue_bulk + 4

def phaseRank : Phase → ℕ
  | .looks => 4
  | .waits => 3
  | .pushes => 2

/-- The same for a thread of the server, as long as it does not wait in vain. -/
def exporterRank : Exporter c M O → ℕ
  | .ended => 0
  | .top => 1
  | .sending _ o _ phase => 4 * (c.outputs - (o + 1)) + phaseRank phase
  | .converting _ o => 4 * (c.outputs - (o + 1)) + 5
  | .taking => 4 * c.outputs + 2

variable {s t : System c R M O}

/-- A call gets on unless it waits at a full queue. -/
theorem phaseRank_offer {T : Type} {q : MessageQueue T} {items : List T} {phase phase' : Phase}
    (hroom : phase = .waits → q.isFull = false)
    (h : (Pipeline.offer q items phase).2 = some phase') : phaseRank phase' < phaseRank phase := by
  rcases phase with _ | _ | _
  · rw [Pipeline.offer] at h
    rcases hcall : q.enqueue_bulk items with ⟨_ | _ | _, q'⟩ <;> rw [hcall] at h <;> cases h
    · simp [phaseRank]
    · simp [phaseRank]
  · rw [Pipeline.offer, hroom rfl] at h
    cases h
    simp [phaseRank]
  · cases h

theorem exporterRank_exportingFrom (messages : List (Numbered M)) (o : ℕ) :
    exporterRank (exportingFrom messages o : Exporter c M O) ≤ 4 * (c.outputs - o) + 1 := by
  rw [exportingFrom]
  split_ifs with ho
  · simp only [exporterRank]
    omega
  · simp [exporterRank]

variable [DecidableEq R] [DecidableEq M] [DecidableEq O] {event : Event c R M O}

/-- **A thread of an output whose flag is off comes nearer to its end** with each step. -/
theorem outputRank_lt {w : Fin c.outputThreads}
    (hflag : s.isRunning (.output (c.output w)) = false)
    (hx : event.thread = some (.output w)) (hstep : s.step event = some t) :
    outputRank (t.outputThread w) < outputRank (s.outputThread w) := by
  rcases event with _ | _ | _ | _ | _ | _ | _ | _ | _ | _ | _ | w' | ⟨w', got⟩ |
    ⟨w', n, success⟩ | _
  all_goals
    simp only [Event.thread, Option.some.injEq, Thread.output.injEq, reduceCtorEq] at hx
  · subst hx
    simp only [System.step, System.stepOutput, hflag] at hstep
    split at hstep
    · next hat =>
      cases hstep
      simp [hat, outputRank]
    · next hat =>
      cases hstep
      simp [hat, outputRank]
    · next hat =>
      cases hstep
      simp [hat, outputRank]
    · cases hstep
  · subst hx
    simp only [System.step, System.outputTakes] at hstep
    split at hstep
    · next hat =>
      obtain ⟨⟨hlength, -⟩, hstep⟩ := Option.ite_none_right_eq_some.mp hstep
      cases hstep
      simp only [Function.update_self, hat]
      split_ifs
      · simp [outputRank]
      · simp only [outputRank]
        omega
    · cases hstep
  · subst hx
    simp only [System.step, System.flush] at hstep
    split at hstep
    · next hat =>
      obtain ⟨⟨hpos, hle, -⟩, hstep⟩ := Option.ite_none_right_eq_some.mp hstep
      cases hstep
      simp only [Function.update_self, hat, outputRank, List.length_drop]
      omega
    · cases hstep

/-- **A thread of the server whose flag is off comes nearer to its end** with each step, unless
it waits at a full queue. -/
theorem exporterRank_lt {e : Fin c.exporters} (hflag : s.isRunning .outputServer = false)
    (hroom : ∀ messages o records, s.exporter e = .sending messages o records .waits →
      (s.outputQueue o).isFull = false)
    (hx : event.thread = some (.exporter e)) (hstep : s.step event = some t) :
    exporterRank (t.exporter e) < exporterRank (s.exporter e) := by
  rcases event with _ | _ | _ | _ | _ | _ | _ | _ | e' | ⟨e', got⟩ | ⟨e', outcomes⟩ | _ | _ |
    _ | _
  all_goals
    simp only [Event.thread, Option.some.injEq, Thread.exporter.injEq, reduceCtorEq] at hx
  · subst hx
    simp only [System.step, System.stepExporter, hflag] at hstep
    split at hstep
    · next hat =>
      cases hstep
      simp [hat, exporterRank]
    · next messages o records phase hat =>
      cases hstep
      simp only [Function.update_self, hat]
      cases hphase : (Pipeline.offer (s.outputQueue o) records phase).2 with
      | none =>
        have hpos : 2 ≤ phaseRank phase := by cases phase <;> simp [phaseRank]
        refine (exporterRank_exportingFrom messages (o + 1)).trans_lt ?_
        simp only [exporterRank]
        omega
      | some phase' =>
        have hlt := phaseRank_offer (by
          rintro rfl
          exact hroom _ _ _ hat) hphase
        simp only [Option.elim_some, exporterRank]
        omega
    · cases hstep
  · subst hx
    simp only [System.step, System.exporterTakes] at hstep
    split at hstep
    · next hat =>
      obtain ⟨-, hstep⟩ := Option.ite_none_right_eq_some.mp hstep
      cases hstep
      simp only [Function.update_self, hat]
      split_ifs
      · simp [exporterRank]
      · refine (exporterRank_exportingFrom got 0).trans_lt ?_
        simp only [exporterRank]
        omega
    · cases hstep
  · subst hx
    simp only [System.step, System.exporterConverts] at hstep
    split at hstep
    · next messages o hat =>
      obtain ⟨-, hstep⟩ := Option.ite_none_right_eq_some.mp hstep
      cases hstep
      simp only [Function.update_self, hat]
      split_ifs
      · refine (exporterRank_exportingFrom messages (o + 1)).trans_lt ?_
        simp only [exporterRank]
        omega
      · simp [exporterRank, phaseRank]
    · cases hstep

/-- How far a thread is from its end. -/
def rank (s : System c R M O) : Thread c → ℕ
  | .exporter e => exporterRank (s.exporter e)
  | .output w => outputRank (s.outputThread w)
  | _ => 0

end Ranks

namespace Shutdown

/-! ### What a step leaves alone -/

section Frame

variable [DecidableEq R] [DecidableEq M] [DecidableEq O] {type : Fin c.outputs → OutputType}
  {s t : Shutdown c R M O} {event : ShutdownEvent c R M O}

/-- A step of a thread of the pipeline. -/
theorem of_step_thread {e : Event c R M O} (hstep : s.step type (.thread e) = some t) :
    t.main = s.main ∧ s.view.step e = some t.pipeline := by
  obtain ⟨-, hstep⟩ := Option.ite_none_right_eq_some.mp hstep
  obtain ⟨pipeline, hpipeline, rfl⟩ := Option.map_eq_some_iff.mp hstep
  exact ⟨rfl, hpipeline⟩

/-- A step of the thread that drives the tasks. -/
theorem of_step_main (hstep : s.step type .main = some t) :
    t.pipeline = s.pipeline ∧ s.main.step type (hasEnded s.pipeline) = some t.main := by
  obtain ⟨main, hmain, rfl⟩ := Option.map_eq_some_iff.mp hstep
  exact ⟨rfl, hmain⟩

/-- The thread that drives the tasks stays where it is, or makes its step. -/
theorem main_step (hstep : s.step type event = some t) :
    t.main = s.main ∨
      (event = .main ∧ s.main.step type (hasEnded s.pipeline) = some t.main) := by
  rcases event with e | _ | _
  · exact Or.inl (of_step_thread hstep).1
  · exact Or.inr ⟨rfl, (of_step_main hstep).2⟩
  · cases hstep
    exact Or.inl rfl

/-- Every step is one of the pipeline, or changes nothing there. -/
theorem pipeline_step (hstep : s.step type event = some t) :
    (event.toThread = none ∧ t.pipeline = s.pipeline) ∨
      ∃ e, event = .thread e ∧ s.view.step e = some t.pipeline := by
  rcases event with e | _ | _
  · exact Or.inr ⟨e, rfl, (of_step_thread hstep).2⟩
  · exact Or.inl ⟨rfl, (of_step_main hstep).1⟩
  · cases hstep
    exact Or.inl ⟨rfl, rfl⟩

/-- A thread that has ended stays where it is. -/
theorem ended_step (hstep : s.step type event = some t) {x : Thread c}
    (h : s.pipeline.Ended x) : t.pipeline.Ended x := by
  rcases pipeline_step hstep with ⟨-, heq⟩ | ⟨e, -, he⟩
  · rwa [heq]
  · exact Pipeline.Flow.ended_step (s := s.view) he h

/-- **A thread that is stuck remains so.** -/
theorem Stuck.step (h : s.Stuck) (hstep : s.step type event = some t) : t.Stuck := by
  obtain ⟨e, o, hwaits, hfull, hended⟩ := h
  refine ⟨e, o, ?_, ?_, fun w hw => ended_step hstep (hended w hw)⟩
  · rcases pipeline_step hstep with ⟨-, heq⟩ | ⟨_, -, he⟩
    · rwa [heq]
    · exact waits_step (s := s.view) he hwaits hfull
  · rcases pipeline_step hstep with ⟨-, heq⟩ | ⟨_, -, he⟩
    · rwa [heq]
    · refine full_step (s := s.view) he hfull fun x hx => Or.inl ?_
      rcases x with _ | _ | _ | _ | w
      · exact hx.elim
      · exact hx.elim
      · exact hx.elim
      · exact hx.elim
      · exact hended w hx

/-- **The invariant**: a thread that has been joined has ended, and the queues of the outputs
throttle. -/
structure Inv (s : Shutdown c R M O) : Prop where
  joined : ∀ x, s.main.server.m_threads x = .joined → s.pipeline.Ended x
  strategy : ∀ o, (s.pipeline.outputQueue o).overflow_strategy = .throttle

omit [DecidableEq R] [DecidableEq M] [DecidableEq O] in
theorem inv_start : (start c R M O).Inv := by
  refine ⟨fun x hx => ?_, fun _ => rfl⟩
  cases hx

/-- The thread that drives the tasks joins threads that have ended. -/
theorem joined_act {server server' : OutputServer c} {ended : Thread c → Bool} {action : Action c}
    (hact : server.act ended action = some server') {x : Thread c}
    (hx : server'.m_threads x = .joined) : server.m_threads x = .joined ∨ ended x = true := by
  rcases action with y | o | y | o
  · cases hact
    simp only [OutputServer.setThreads] at hx
    split_ifs at hx
    exact Or.inl hx
  · cases hact
    exact Or.inl hx
  · rw [OutputServer.act] at hact
    split_ifs at hact with hy hended
    · cases hact
      simp only [OutputServer.setThreads, List.mem_singleton] at hx
      split_ifs at hx with hxy
      · exact Or.inr (hxy ▸ hended)
      · exact Or.inl hx
    · cases hact
      exact Or.inl hx
  · cases hact
    exact Or.inl hx

theorem joined_main {d d' : Driver c} {ended : Thread c → Bool}
    (hstep : d.step type ended = some d') {x : Thread c}
    (hx : d'.server.m_threads x = .joined) : d.server.m_threads x = .joined ∨ ended x = true := by
  rw [Driver.step] at hstep
  split at hstep
  · cases hstep
  · cases hstep
    exact Or.inl hx
  · obtain ⟨server, hact, rfl⟩ := Option.map_eq_some_iff.mp hstep
    exact joined_act hact hx

theorem Inv.step (h : s.Inv) (hstep : s.step type event = some t) : t.Inv where
  joined x hx := by
    rcases main_step hstep with heq | ⟨-, hmain⟩
    · rw [heq] at hx
      exact ended_step hstep (h.joined x hx)
    · rcases joined_main hmain hx with hbefore | hended
      · exact ended_step hstep (h.joined x hbefore)
      · exact ended_step hstep (hasEnded_iff.mp hended)
  strategy o := by
    rcases pipeline_step hstep with ⟨-, heq⟩ | ⟨_, -, he⟩
    · rw [heq]
      exact h.strategy o
    · exact ((frame_step (s := s.view) he).strategy o).trans (h.strategy o)

/-- A thread of the server waits at a full queue. -/
def Blocked (s : Shutdown c R M O) (x : Thread c) : Prop :=
  ∃ e messages o records, x = .exporter e ∧
    s.pipeline.exporter e = .sending messages o records .waits ∧
      (s.pipeline.outputQueue o).isFull = true

/-- **A thread that has been told to end comes nearer to its end** with each step it makes, and
is where it was after any other. -/
theorem rank_step (hstep : s.step type event = some t) {x : Thread c} (hending : s.Ending x)
    (hroom : ¬s.Blocked x) :
    rank t.pipeline x ≤ rank s.pipeline x ∧
      (event.toThread = some x → rank t.pipeline x < rank s.pipeline x) := by
  rcases pipeline_step hstep with ⟨hnone, heq⟩ | ⟨e, rfl, he⟩
  · rw [heq, hnone]
    exact ⟨le_refl _, fun h => absurd h (by simp)⟩
  · have hframe := frame_step (s := s.view) he
    rcases x with _ | _ | _ | x | w
    · exact hending.2.2.elim
    · exact hending.2.2.elim
    · exact hending.2.2.elim
    · have hlt : e.thread = some (.exporter x) →
          exporterRank (t.pipeline.exporter x) < exporterRank (s.pipeline.exporter x) := by
        refine fun hx => exporterRank_lt (s := s.view) hending.2.2 ?_ hx he
        intro messages o records hat
        rw [← Bool.not_eq_true]
        exact fun hfull => hroom ⟨x, messages, o, records, rfl, hat, hfull⟩
      by_cases hx : e.thread = some (.exporter x)
      · exact ⟨(hlt hx).le, fun _ => hlt hx⟩
      · exact ⟨(congrArg exporterRank (hframe.exporter x hx)).le, fun h => absurd h hx⟩
    · have hlt : e.thread = some (.output w) →
          outputRank (t.pipeline.outputThread w) < outputRank (s.pipeline.outputThread w) :=
        fun hx => outputRank_lt (s := s.view) hending.2.2 hx he
      by_cases hx : e.thread = some (.output w)
      · exact ⟨(hlt hx).le, fun _ => hlt hx⟩
      · exact ⟨(congrArg outputRank (hframe.output w hx)).le, fun h => absurd h hx⟩

omit [DecidableEq R] [DecidableEq M] [DecidableEq O] in
/-- Whoever waits at a full queue when all threads of the outputs have been joined is stuck. -/
theorem stuck_of_blocked (h : s.Inv) {x : Thread c} (hreleased : Released s.main.server x)
    (hblocked : s.Blocked x) : s.Stuck := by
  obtain ⟨e, messages, o, records, rfl, hat, hfull⟩ := hblocked
  exact ⟨e, o, ⟨messages, records, .waits, hat, by simp⟩, ⟨hfull, h.strategy o⟩,
    fun w _ => h.joined _ (hreleased.2 w)⟩

omit [DecidableEq R] [DecidableEq M] [DecidableEq O] in
theorem ending_of_released {x : Thread c} (hreleased : Released s.main.server x)
    (hcreated : s.main.server.m_threads x ≠ .none) (hended : ¬s.pipeline.Ended x) :
    s.Ending x := by
  rcases x with _ | _ | _ | _ | _
  · exact hreleased.elim
  · exact hreleased.elim
  · exact hreleased.elim
  · exact ⟨hcreated, hended, hreleased.1⟩
  · exact ⟨hcreated, hended, hreleased⟩

end Frame

/-! ### The way to the end -/

section Way

variable [DecidableEq R] [DecidableEq M] [DecidableEq O] {type : Fin c.outputs → OutputType}
  {r : Machine.InfiniteRun (step (R := R) (M := M) (O := O) type)} {d d' final : Driver c} {n : ℕ}

theorem inv_run (hstart : r.state 0 = start c R M O) (n : ℕ) : (r.state n).Inv :=
  r.stable (fun _ _ _ hstep h => h.step hstep) (Nat.zero_le n) (hstart ▸ inv_start)

/-- At no moment the thread that drives the tasks has left its way. -/
theorem goes_run (hstart : r.state 0 = start c R M O) (hfinal : final.calls = [])
    (hway : Relation.ReflTransGen (Driver.Goes type) (Driver.start c) final) (n : ℕ) :
    Relation.ReflTransGen (Driver.Goes type) (r.state n).main final := by
  refine r.stable (P := fun s => Relation.ReflTransGen (Driver.Goes type) s.main final) ?_
    (Nat.zero_le n) (by rwa [hstart])
  intro s event t hstep h
  rcases main_step hstep with heq | ⟨-, hmain⟩
  · rwa [heq]
  · exact Driver.goes_step hfinal h hmain

/-- **A thread that is told to end does so**, if nobody gets stuck. -/
theorem eventually_ended (hstart : r.state 0 = start c R M O) (hfair : Fairly r)
    (hstuck : ∀ m, ¬(r.state m).Stuck) (hmain : ∀ m ≥ n, (r.state m).main = d) {x : Thread c}
    (hreleased : Released d.server x) (hcreated : d.server.m_threads x ≠ .none) :
    ∃ m ≥ n, (r.state m).pipeline.Ended x := by
  obtain ⟨m, hm, hnot⟩ := (hfair.thread x).eventually (fun s => rank s.pipeline x) (n := n) <| by
    intro m hm hending
    refine rank_step (r.next m) hending fun hblocked => hstuck m ?_
    exact stuck_of_blocked (inv_run hstart m) (by rwa [hmain m hm]) hblocked
  refine ⟨m, hm, by_contra fun hended => hnot ?_⟩
  exact ending_of_released (by rwa [hmain m hm]) (by rwa [hmain m hm]) hended

/-- **The thread that drives the tasks gets on**, if nobody gets stuck. -/
theorem eventually_goes (hstart : r.state 0 = start c R M O) (hfair : Fairly r)
    (hstuck : ∀ m, ¬(r.state m).Stuck) (hn : (r.state n).main = d) (hgoes : Driver.Goes type d d') :
    ∃ m ≥ n, (r.state m).main = d' := by
  by_contra hnever
  push Not at hnever
  -- otherwise it is where it is for ever
  have hmove : ∀ m ended, (r.state m).main = d →
      (r.state m).main.step type ended = some (r.state (m + 1)).main →
        (r.state (m + 1)).main = d' := by
    intro m ended hm hstep
    rw [hm] at hstep
    exact Option.some.inj ((Driver.step_of_ended hstep).symm.trans hgoes.1)
  have hmain : ∀ m ≥ n, (r.state m).main = d := by
    intro m hm
    induction m, hm using Nat.le_induction with
    | base => exact hn
    | succ m hm ih =>
      rcases main_step (r.next m) with heq | ⟨-, hstep⟩
      · rw [heq, ih]
      · exact absurd (hmove m _ ih hstep) (hnever (m + 1) (Nat.le_succ_of_le hm))
  obtain ⟨m, hm, hable⟩ : ∃ m ≥ n, ∀ k ≥ m,
      (r.state k).main.step type (hasEnded (r.state k).pipeline) = some d' := by
    by_cases hjoin : ∃ x rest, d.calls = .action (.join x) :: rest ∧
        d.server.m_threads x = .joinable
    · obtain ⟨x, rest, hcalls, hjoinable⟩ := hjoin
      obtain ⟨m, hm, hended⟩ := eventually_ended hstart hfair hstuck hmain
        (hgoes.2 x rest hcalls hjoinable) (by simp [hjoinable])
      refine ⟨m, hm, fun k hk => ?_⟩
      have hk' : (r.state k).pipeline.Ended x :=
        r.stable (P := fun s => s.pipeline.Ended x) (fun _ _ _ hstep h => ended_step hstep h)
          hk hended
      rw [hmain k (hm.trans hk)]
      refine Driver.step_of_ready hgoes.1 fun y rest' hy _ => ?_
      rw [hcalls] at hy
      cases hy
      exact hasEnded_iff.mpr hk'
    · refine ⟨n, le_refl n, fun k hk => ?_⟩
      rw [hmain k hk]
      exact Driver.step_of_ready hgoes.1 fun x rest hcalls hjoinable =>
        absurd ⟨x, rest, hcalls, hjoinable⟩ hjoin
  obtain ⟨k, hk, hacts⟩ := hfair.main m
  have hevent := hacts.resolve_left
    (not_not.mpr (Option.isSome_iff_exists.mpr ⟨d', hable k hk⟩))
  have hstep := r.next k
  rw [hevent] at hstep
  exact hnever (k + 1) (by omega)
    (hmove k _ (hmain k (hm.trans hk)) (of_step_main hstep).2)

/-- **The thread that drives the tasks comes to the end of its way**, if nobody gets stuck. -/
theorem eventually_final (hstart : r.state 0 = start c R M O) (hfair : Fairly r)
    (hstuck : ∀ m, ¬(r.state m).Stuck)
    (hway : Relation.ReflTransGen (Driver.Goes type) d final) (hn : (r.state n).main = d) :
    ∃ m ≥ n, (r.state m).main = final := by
  induction hway using Relation.ReflTransGen.head_induction_on generalizing n with
  | refl => exact ⟨n, le_refl n, hn⟩
  | head hgoes _ ih =>
    obtain ⟨m, hm, hnext⟩ := eventually_goes hstart hfair hstuck hn hgoes
    obtain ⟨k, hk, hfinal⟩ := ih hnext
    exact ⟨k, hm.trans hk, hfinal⟩

/-- **Nobody gets stuck** in a run in which all threads of the server are joined. -/
theorem not_stuck_of_joined (hstart : r.state 0 = start c R M O) (hn : (r.state n).main = d)
    (hend : d.calls = []) (hjoined : ∀ e, d.server.m_threads (.exporter e) = .joined) (m : ℕ) :
    ¬(r.state m).Stuck := by
  intro hstuck
  have hlater : (r.state (max m n)).Stuck :=
    r.stable (fun _ _ _ hstep h => h.step hstep) (le_max_left m n) hstuck
  have hmain : (r.state (max m n)).main = d := by
    refine r.stable (P := fun s => s.main = d) (fun s event t hstep h => ?_) (le_max_right m n) hn
    rcases main_step hstep with heq | ⟨-, hmain⟩
    · rw [heq, h]
    · rw [h, Driver.step_of_calls_nil hend] at hmain
      cases hmain
  obtain ⟨e, o, hwaits, -⟩ := hlater
  refine not_ended_of_waits hwaits ((inv_run hstart _).joined _ ?_)
  rw [hmain]
  exact hjoined e

end Way

/-! ### When the shutdown comes to its end -/

section Main

variable [DecidableEq R] [DecidableEq M] [DecidableEq O]

end Main

/-! ### Two shutdowns -/

/-- One GELF output with one thread, and one thread of the server, which is between two looks at
its flag when `stop` is called. -/
def gelfShutdown : List (ShutdownEvent chain Char Char Char) :=
  List.replicate 6 .main ++ .thread (.exporter onlyOne) :: List.replicate 3 .main ++
    [.thread (.output onlyOne), .main, .main, .thread (.exporterTakes onlyOne []),
      .thread (.exporter onlyOne), .main]

theorem eq_onlyOne (i : Fin 1) : i = onlyOne := Subsingleton.elim ..

theorem gelfShutdown_run : ∃ t, gelfShutdown.foldlM (step fun _ => .gelf)
    (start chain Char Char Char) = some t ∧ t.main.calls = [] ∧ t.main.thrown = none ∧
      t.main.server.AllStopped ∧ ∀ x, ¬t.Ending x := by
  refine ⟨_, rfl, rfl, rfl, ⟨?_, ?_, ?_, ?_⟩, ?_⟩
  · rintro (_ | o)
    · rfl
    · rw [eq_onlyOne o]
      rfl
  · intro o
    rw [eq_onlyOne o]
    rfl
  · intro w
    rw [eq_onlyOne w]
    rfl
  · intro e
    rw [eq_onlyOne e]
    rfl
  · rintro (_ | _ | _ | e | w) hending
    · exact hending.2.2
    · exact hending.2.2
    · exact hending.2.2
    · rw [eq_onlyOne e] at hending
      exact hending.2.1 rfl
    · rw [eq_onlyOne w] at hending
      exact hending.2.1 rfl

/-- A LOG output, and a GELF output behind it. -/
def logThenGelf : Setup := { chain with outputs := 2, outputThreads := 2, output := id }

/-- The types of these outputs. -/
def logFirst (o : Fin 2) : OutputType := if o.val = 0 then .log else .gelf

end Shutdown

end IqLogger.Outputs
