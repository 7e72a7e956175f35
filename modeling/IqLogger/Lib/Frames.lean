import IqLogger.Lib.Fields
import IqLogger.Lib.Run

/-!
# Terminated frames

A stream of frames, each followed by a terminator. Reading one is a machine with
outputs: its state is the frame being read, and a terminator puts the frame out
(`List.frameStep`). What was put out after a list of elements are its frames
(`List.frames`), and the state is its unterminated tail (`List.unterminated`).

The laws are about two lists one after the other. Frames that were put out stay
(`List.frames_prefix_append`), so a stream that breaks off somewhere yields the
first of its frames; and after a list without unterminated tail reading starts
afresh (`List.frames_append_of_unterminated`).
-/

namespace List

variable {α : Type*} [DecidableEq α] {a : α}

/-- One element of a stream: a terminator ends the frame `cur`, anything else
extends it. -/
def frameStep (a : α) (cur : List α) (b : α) : List α × List (List α) :=
  if b = a then ([], [cur]) else (cur ++ [b], [])

/-- The frames that are complete in a list. -/
def frames (a : α) (l : List α) : List (List α) := (Machine.run (frameStep a) [] l).2

/-- What comes after the last terminator. -/
def unterminated (a : α) (l : List α) : List α := (Machine.run (frameStep a) [] l).1

/-- The stream of a list of frames. -/
def terminated (a : α) (ws : List (List α)) : List α := ws.flatMap fun w => w ++ [a]

omit [DecidableEq α] in
theorem terminated_append (ws vs : List (List α)) :
    terminated a (ws ++ vs) = terminated a ws ++ terminated a vs := flatMap_append

/-- A list without terminators extends the frame being read. -/
theorem run_frameStep_of_notMem {w : List α} (h : a ∉ w) (cur : List α) :
    Machine.run (frameStep a) cur w = (cur ++ w, []) := by
  induction w generalizing cur with
  | nil => simp
  | cons b w ih =>
    obtain ⟨hb, hw⟩ := not_or.mp (mem_cons.not.mp h)
    rw [Machine.run_cons, frameStep, if_neg (Ne.symm hb), ih hw]
    simp

/-- A frame and its terminator. -/
theorem run_frameStep_append_cons {w : List α} (h : a ∉ w) (cur l : List α) :
    Machine.run (frameStep a) cur (w ++ a :: l) =
      ((Machine.run (frameStep a) [] l).1, (cur ++ w) :: (Machine.run (frameStep a) [] l).2) := by
  rw [Machine.run_append, run_frameStep_of_notMem h, Machine.run_cons, frameStep, if_pos rfl]
  rfl

/-- Reading goes on from an unterminated tail as if it came again. -/
theorem run_frameStep_eq {cur : List α} (h : a ∉ cur) (l : List α) :
    Machine.run (frameStep a) cur l = Machine.run (frameStep a) [] (cur ++ l) := by
  rw [Machine.run_append, run_frameStep_of_notMem h]
  rfl

theorem notMem_unterminated (l : List α) : a ∉ unterminated a l := by
  refine Machine.run_induction (P := fun _ cur _ => a ∉ cur) not_mem_nil ?_ l
  intro _ b cur _ hcur
  rw [frameStep]
  split_ifs with hb
  · exact not_mem_nil
  · simpa [hcur] using Ne.symm hb

/-- **Frames that are complete stay**: more of the stream adds frames behind. -/
theorem frames_prefix_append (x y : List α) : frames a x <+: frames a (x ++ y) := by
  rw [frames, frames, Machine.run_append]
  exact prefix_append _ _

theorem frames_append (x y : List α) :
    frames a (x ++ y) = frames a x ++ frames a (unterminated a x ++ y) := by
  rw [frames, Machine.run_append, frames, frames, ← run_frameStep_eq (notMem_unterminated x) y]
  rfl

theorem unterminated_append (x y : List α) :
    unterminated a (x ++ y) = unterminated a (unterminated a x ++ y) := by
  rw [unterminated, Machine.run_append, unterminated,
    ← run_frameStep_eq (notMem_unterminated x) y]
  rfl

/-- **A fresh start**: behind a list without unterminated tail, the frames are
those of the rest. -/
theorem frames_append_of_unterminated {x : List α} (h : unterminated a x = []) (y : List α) :
    frames a (x ++ y) = frames a x ++ frames a y ∧
      unterminated a (x ++ y) = unterminated a y := by
  rw [frames_append, unterminated_append, h]
  exact ⟨rfl, rfl⟩

/-- **Reading undoes writing.** -/
theorem frames_terminated : ∀ {ws : List (List α)}, (∀ w ∈ ws, a ∉ w) →
    frames a (terminated a ws) = ws ∧ unterminated a (terminated a ws) = []
  | [], _ => ⟨rfl, rfl⟩
  | w :: ws, h => by
    have ih := frames_terminated fun v hv => h v (mem_cons_of_mem w hv)
    have hcons : terminated a (w :: ws) = w ++ a :: terminated a ws := by
      simp [terminated]
    rw [frames, unterminated, hcons, run_frameStep_append_cons (h w mem_cons_self)]
    exact ⟨congrArg (w :: ·) ih.1, ih.2⟩

/-- **A stream that breaks off** yields the first of its frames. -/
theorem frames_take_terminated {ws : List (List α)} (h : ∀ w ∈ ws, a ∉ w) (n : ℕ) :
    frames a ((terminated a ws).take n) <+: ws := by
  have hpre := frames_prefix_append (a := a) ((terminated a ws).take n) ((terminated a ws).drop n)
  rwa [take_append_drop, (frames_terminated h).1] at hpre

end List
