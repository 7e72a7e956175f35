import IqLogger.Inputs.Gelf.Tcp

/-!
# The GELF output over TCP

A thread of `GelfOutput` takes a batch of records from its queue, collects them
in a buffer, each followed by a NUL byte, and flushes the buffer whenever it has
got long enough and at the end of the batch. A flush writes the whole buffer to
the socket; as long as that fails and the thread is to go on, it reconnects and
writes the whole buffer again (`IqLogger.Gelf.Tcp.flush`). What the network makes
of the attempts to write is a schedule: for each flush a list of attempts
(`IqLogger.Gelf.Tcp.Attempt`), each of which may deliver any part of the buffer
before it fails.

On the other side every connection ends in a `TcpConnection`. The result
(`IqLogger.Gelf.Tcp.delivered_at_least_once`) is that a record is never damaged
and never lost, whatever the schedule, as long as every flush ends with success.
Two facts carry it: an attempt that fails leaves a prefix of a stream of frames,
hence whole frames and an unterminated tail that is lost with the connection
(`List.frames_take_terminated`); and a flush starts where no tail is left, since
the attempt before it on the same connection was a success
(`IqLogger.Gelf.Tcp.Delivered.fresh`).
-/

namespace IqLogger

namespace Gelf

namespace Tcp

open List

/-! ### Writing -/

/-- An attempt to write a buffer: whether it fails, how many bytes of the buffer
have then been delivered on the connection, and what `isRunning()` says
afterwards. -/
structure Attempt where
  failed : Bool
  bytes : ℕ
  running : Bool
  deriving DecidableEq, Repr

/-- The socket of an output thread, with what was delivered on it: the bytes of
every connection given up, those of the present one, and the buffers of the
attempts that succeeded. -/
structure Socket where
  closed : List Bytes
  current : Bytes
  written : List Bytes
  deriving DecidableEq, Repr

/-- All connections, the present one last. -/
def Socket.connections (s : Socket) : List Bytes := s.closed ++ [s.current]

/-- `reconnect`: the socket is closed and a new connection made. -/
def Socket.reconnect (s : Socket) : Socket :=
  { s with closed := s.closed ++ [s.current], current := [] }

/-- `async_write` of `str`, run to its end. -/
def Socket.write (s : Socket) (str : Bytes) (a : Attempt) : Socket :=
  if a.failed then
    { s with current := s.current ++ str.take a.bytes }
  else
    { s with current := s.current ++ str, written := s.written ++ [str] }

/-- The `do … while (error && isRunning())` of `flush`, from a value of `error`,
over the attempts it makes. -/
def flush (str : Bytes) : Bool → List Attempt → Socket → Socket
  | _, [], s => s
  | error, a :: attempts, s =>
    let s := if error then s.reconnect else s
    let s := s.write str a
    if a.failed && a.running then flush str true attempts s else s

/-- **A flush that delivers**: some attempts fail while the thread is running,
and the last one succeeds. -/
def Succeeds (attempts : List Attempt) : Prop :=
  ∃ failures a, attempts = failures ++ [a] ∧ (∀ f ∈ failures, f.failed ∧ f.running) ∧ ¬a.failed

/-! ### Exporting -/

/-- `buff_len`. -/
def buffLen : ℕ := 8 * 4096

/-- The state of an output thread: the buffer, `current_buff_len`, the number of
flushes so far, and the socket. -/
structure Export where
  buff : Bytes
  currentBuffLen : ℕ
  flushes : ℕ
  socket : Socket
  deriving DecidableEq, Repr

/-- A thread with its first connection. -/
def Export.start : Export := ⟨[], 0, 0, ⟨[], [], []⟩⟩

variable (schedule : ℕ → List Attempt)

/-- A flush of the buffer; its attempts are the next of the schedule. -/
def Export.flushBuff (e : Export) : Export :=
  { e with
    flushes := e.flushes + 1
    socket := flush e.buff false (schedule e.flushes) e.socket }

/-- The body of the loop over a batch. The terminators are not counted. -/
def Export.exportRecord (e : Export) (str : Bytes) : Export :=
  let e := { e with
    buff := e.buff ++ str ++ [0]
    currentBuffLen := e.currentBuffLen + str.length }
  if e.currentBuffLen ≥ buffLen then
    { e.flushBuff schedule with buff := [], currentBuffLen := 0 }
  else
    e

/-- The body of the thread's `while`, for a batch of records. -/
def Export.exportBatch (e : Export) (batch : List Bytes) : Export :=
  let e := { e with buff := [], currentBuffLen := 0 }
  let e := batch.foldl (Export.exportRecord schedule) e
  if e.currentBuffLen ≠ 0 then e.flushBuff schedule else e

/-- The thread over any number of batches. -/
def Export.run (batches : List (List Bytes)) (e : Export) : Export :=
  batches.foldl (Export.exportBatch schedule) e

/-! ### What a flush delivers -/

variable {schedule} {rs ws : List Bytes} {s : Socket}

/-- In the course of a flush of `ws`, with `rs` delivered before: nothing else is
read on the connections, and all of `rs` is. -/
structure Delivering (rs ws : List Bytes) (s : Socket) : Prop where
  only : ∀ c ∈ s.connections, ∀ r ∈ frames 0 c, r ∈ rs ∨ r ∈ ws
  each : ∀ r ∈ rs, ∃ c ∈ s.connections, r ∈ frames 0 c
  written : s.written.flatMap (frames 0) = rs

/-- **Between flushes**: nothing but `rs` is read on the connections, all of it
is, in order in what was written with success; and the present connection has no
unterminated tail. -/
structure Delivered (rs : List Bytes) (s : Socket) : Prop where
  only : ∀ c ∈ s.connections, ∀ r ∈ frames 0 c, r ∈ rs
  each : ∀ r ∈ rs, ∃ c ∈ s.connections, r ∈ frames 0 c
  written : s.written.flatMap (frames 0) = rs
  fresh : unterminated 0 s.current = []

theorem delivered_start : Delivered [] Export.start.socket where
  only c hc r hr := by
    obtain rfl : c = [] := by simpa [Export.start, Socket.connections] using hc
    exact absurd hr not_mem_nil
  each r hr := absurd hr not_mem_nil
  written := rfl
  fresh := rfl

theorem Delivered.delivering (h : Delivered rs s) (ws : List Bytes) : Delivering rs ws s where
  only c hc r hr := Or.inl (h.only c hc r hr)
  each := h.each
  written := h.written

/-- A new connection has delivered nothing yet. -/
theorem Delivering.reconnect (h : Delivering rs ws s) : Delivering rs ws s.reconnect := by
  have hconn : s.reconnect.connections = s.connections ++ [[]] := rfl
  refine ⟨fun c hc r hr => ?_, fun r hr => ?_, h.written⟩
  · rw [hconn] at hc
    rcases mem_append.mp hc with hc | hc
    · exact h.only c hc r hr
    · rw [mem_singleton.mp hc] at hr
      exact absurd hr not_mem_nil
  · obtain ⟨c, hc, hr⟩ := h.each r hr
    exact ⟨c, hconn ▸ mem_append_left _ hc, hr⟩

/-- What is read on the connections after more was delivered on the present one,
if that had no unterminated tail. -/
theorem mem_connections_append (hfresh : unterminated 0 s.current = []) (t : Bytes) {r : Bytes} :
    (∃ c ∈ s.closed ++ [s.current ++ t], r ∈ frames 0 c) ↔
      (∃ c ∈ s.connections, r ∈ frames 0 c) ∨ r ∈ frames 0 t := by
  simp only [Socket.connections, mem_append, mem_singleton, or_and_right, exists_or,
    exists_eq_left, (frames_append_of_unterminated hfresh t).1, or_assoc]

/-- **A failed attempt** delivers the first frames of the buffer, or fewer. -/
theorem Delivering.write_of_failed (h : Delivering rs ws s)
    (hfresh : unterminated 0 s.current = []) (hws : ∀ w ∈ ws, 0 ∉ w) {a : Attempt}
    (ha : a.failed) : Delivering rs ws (s.write (terminated 0 ws) a) := by
  rw [Socket.write, if_pos ha]
  have hread := fun r => mem_connections_append (r := r) hfresh ((terminated 0 ws).take a.bytes)
  refine ⟨fun c hc r hr => ?_, fun r hr => (hread r).mpr (Or.inl (h.each r hr)), h.written⟩
  -- what is cut off has no terminator, so it is no frame
  rcases (hread r).mp ⟨c, hc, hr⟩ with ⟨c, hc, hr⟩ | hr
  · exact h.only c hc r hr
  · exact Or.inr ((frames_take_terminated hws a.bytes).subset hr)

/-- **A successful attempt** delivers the buffer. -/
theorem Delivering.write_of_not_failed (h : Delivering rs ws s)
    (hfresh : unterminated 0 s.current = []) (hws : ∀ w ∈ ws, 0 ∉ w) {a : Attempt}
    (ha : ¬a.failed) : Delivered (rs ++ ws) (s.write (terminated 0 ws) a) := by
  rw [Socket.write, if_neg ha]
  obtain ⟨hframes, htail⟩ := frames_terminated hws
  have hread := fun r => mem_connections_append (r := r) hfresh (terminated 0 ws)
  rw [hframes] at hread
  refine ⟨fun c hc r hr => ?_, fun r hr => ?_, ?_, ?_⟩
  · rw [mem_append]
    rcases (hread r).mp ⟨c, hc, hr⟩ with ⟨c, hc, hr⟩ | hr
    · exact h.only c hc r hr
    · exact Or.inr hr
  · exact (hread r).mpr ((mem_append.mp hr).imp_left (h.each r))
  · rw [flatMap_append, flatMap_singleton, h.written, hframes]
  · exact (frames_append_of_unterminated hfresh _).2.trans htail

/-- **A flush delivers the buffer**, whatever happens to its attempts before the
last. The induction is on the failures; a connection on which one of them has
left an unterminated tail is given up before the next attempt. -/
theorem Delivering.flush (hws : ∀ w ∈ ws, 0 ∉ w) {a : Attempt} (ha : ¬a.failed) :
    ∀ (failures : List Attempt) {error : Bool} {s : Socket},
      (∀ f ∈ failures, f.failed ∧ f.running) →
    Delivering rs ws s → (error = false → unterminated 0 s.current = []) →
    Delivered (rs ++ ws) (flush (terminated 0 ws) error (failures ++ [a]) s) := by
  have hconnect : ∀ {error : Bool} {s : Socket}, Delivering rs ws s →
      (error = false → unterminated 0 s.current = []) →
      Delivering rs ws (if error then s.reconnect else s) ∧
        unterminated 0 (if error then s.reconnect else s).current = [] := by
    intro error s h hfresh
    cases error with
    | false => exact ⟨h, hfresh rfl⟩
    -- the new connection has no tail, whatever the old one was left with
    | true => exact ⟨h.reconnect, rfl⟩
  intro failures
  induction failures with
  | nil =>
    intro error s _ h hfresh
    obtain ⟨h, hfresh⟩ := hconnect h hfresh
    simpa [Tcp.flush, ha] using h.write_of_not_failed hfresh hws ha
  | cons f failures ih =>
    intro error s hf h hfresh
    obtain ⟨h, hfresh⟩ := hconnect h hfresh
    obtain ⟨hfailed, hrunning⟩ := hf f mem_cons_self
    rw [cons_append, Tcp.flush, if_pos (by simp [hfailed, hrunning])]
    exact ih (fun f hf' => hf f (mem_cons_of_mem _ hf')) (h.write_of_failed hfresh hws hfailed)
      (by simp)

/-! ### What a thread delivers -/

/-- In the course of a batch: the records taken are delivered or in the buffer,
and `current_buff_len` counts the bytes of the latter. -/
def Exported (rs : List Bytes) (e : Export) : Prop :=
  ∃ done pending, rs = done ++ pending ∧ Delivered done e.socket ∧
    (∀ w ∈ pending, w ≠ [] ∧ 0 ∉ w) ∧ e.buff = terminated 0 pending ∧
    e.currentBuffLen = (pending.map length).sum

theorem Delivered.flushBuff (hsched : ∀ k, Succeeds (schedule k)) {e : Export}
    (h : Delivered rs e.socket) (hws : ∀ w ∈ ws, w ≠ [] ∧ 0 ∉ w)
    (hbuff : e.buff = terminated 0 ws) : Delivered (rs ++ ws) (e.flushBuff schedule).socket := by
  obtain ⟨failures, a, hattempts, hfailures, ha⟩ := hsched e.flushes
  rw [Export.flushBuff, hattempts, hbuff]
  exact Delivering.flush (fun w hw => (hws w hw).2) ha failures hfailures (h.delivering ws)
    fun _ => h.fresh

/-- **One record of a batch.** -/
theorem Exported.exportRecord (hsched : ∀ k, Succeeds (schedule k)) {e : Export}
    (h : Exported rs e) {str : Bytes} (hstr : str ≠ [] ∧ 0 ∉ str) :
    Exported (rs ++ [str]) (e.exportRecord schedule str) := by
  obtain ⟨done, pending, rfl, hdone, hpending, hbuff, hlen⟩ := h
  have hpending' : ∀ w ∈ pending ++ [str], w ≠ [] ∧ 0 ∉ w := by
    intro w hw
    rcases mem_append.mp hw with hw | hw
    · exact hpending w hw
    · exact mem_singleton.mp hw ▸ hstr
  have hbuff' : e.buff ++ str ++ [0] = terminated 0 (pending ++ [str]) := by
    rw [terminated_append, hbuff]
    simp [terminated]
  rw [Export.exportRecord]
  split_ifs
  · refine ⟨done ++ (pending ++ [str]), [], by simp, ?_, by simp, rfl, rfl⟩
    exact Delivered.flushBuff (e := ⟨e.buff ++ str ++ [0], _, e.flushes, e.socket⟩) hsched hdone
      hpending' hbuff'
  · refine ⟨done, pending ++ [str], by simp, hdone, hpending', hbuff', ?_⟩
    simp [hlen]

/-- **A batch.** At its end what is still in the buffer is flushed; nothing is
exactly when `current_buff_len` is 0, since no record is empty. -/
theorem Delivered.exportBatch (hsched : ∀ k, Succeeds (schedule k)) {e : Export}
    (h : Delivered rs e.socket) {batch : List Bytes} (hbatch : ∀ r ∈ batch, r ≠ [] ∧ 0 ∉ r) :
    Delivered (rs ++ batch) (e.exportBatch schedule batch).socket := by
  have hfold : ∀ (batch : List Bytes) {rs : List Bytes} {e : Export}, Exported rs e →
      (∀ r ∈ batch, r ≠ [] ∧ 0 ∉ r) →
      Exported (rs ++ batch) (batch.foldl (Export.exportRecord schedule) e) := by
    intro batch
    induction batch with
    | nil =>
      intro rs e h _
      rwa [append_nil]
    | cons r batch ih =>
      intro rs e h hbatch
      rw [append_cons]
      exact ih (h.exportRecord hsched (hbatch r mem_cons_self))
        fun r hr => hbatch r (mem_cons_of_mem _ hr)
  obtain ⟨done, pending, hrs, hdone, hpending, hbuff, hlen⟩ :=
    hfold batch (e := ⟨[], 0, e.flushes, e.socket⟩)
      ⟨rs, [], (append_nil rs).symm, h, by simp, rfl, rfl⟩ hbatch
  rw [Export.exportBatch]
  split_ifs with hzero
  · rw [hrs]
    exact hdone.flushBuff hsched hpending hbuff
  · have hnil : pending = [] := by
      cases pending with
      | nil => rfl
      | cons w pending =>
        have hw := length_pos_iff.mpr (hpending w mem_cons_self).1
        rw [not_not.mp hzero, map_cons, sum_cons] at hlen
        omega
    rw [hrs, hnil, append_nil]
    exact hdone

theorem Delivered.run (hsched : ∀ k, Succeeds (schedule k)) :
    ∀ (batches : List (List Bytes)) {rs : List Bytes} {e : Export}, Delivered rs e.socket →
    (∀ r ∈ batches.flatten, r ≠ [] ∧ 0 ∉ r) →
    Delivered (rs ++ batches.flatten) (e.run schedule batches).socket
  | [], rs, e, h, _ => by simpa [Export.run] using h
  | batch :: batches, rs, e, h, hbatches => by
    rw [flatten_cons, ← append_assoc]
    exact Delivered.run hsched batches
      (h.exportBatch hsched fun r hr => hbatches r (by simp [hr]))
      fun r hr => hbatches r (by simp only [flatten_cons, mem_append, hr, or_true])

/-- **Delivery is at least once and never damages a record.** A thread exports
any batches of non-empty records without NUL bytes, under any schedule in which
every flush ends with success while any attempt before may deliver any part of
its buffer; and the bytes of each of its connections arrive at a `TcpConnection`
in any pieces. Then these hand on nothing but records of the batches, and each of
them at least once; and what the successful attempts alone would have handed on
is the batches, in order. -/
theorem delivered_at_least_once {batches : List (List Bytes)}
    (hbatches : ∀ r ∈ batches.flatten, r ≠ [] ∧ 0 ∉ r) {schedule : ℕ → List Attempt}
    (hsched : ∀ k, Succeeds (schedule k)) :
    (∀ arrivals : List (List Bytes),
        arrivals.map flatten = (Export.start.run schedule batches).socket.connections →
        (∀ r ∈ arrivals.flatMap received, r ∈ batches.flatten) ∧
          ∀ r ∈ batches.flatten, r ∈ arrivals.flatMap received) ∧
      (Export.start.run schedule batches).socket.written.flatMap (fun str => received [str]) =
        batches.flatten := by
  have h := Delivered.run hsched batches delivered_start hbatches
  rw [nil_append] at h
  refine ⟨fun arrivals harrivals => ?_, ?_⟩
  · have hread : arrivals.flatMap received =
        (Export.start.run schedule batches).socket.connections.flatMap (frames 0) := by
      rw [← harrivals, flatMap_map]
      exact flatMap_congr fun pieces _ => received_eq_frames pieces
    rw [hread]
    refine ⟨fun r hr => ?_, fun r hr => mem_flatMap.mpr (h.each r hr)⟩
    obtain ⟨c, hc, hr⟩ := mem_flatMap.mp hr
    exact h.only c hc r hr
  · rw [← h.written]
    refine flatMap_congr fun str _ => ?_
    rw [received_eq_frames, flatten_singleton]

/-- Two batches; the first flush fails after five of its six bytes and again
after none, the second succeeds at once. -/
theorem delivered_at_least_once_two :
    let schedule := fun k => if k = 0 then
      [⟨true, 5, true⟩, ⟨true, 0, true⟩, ⟨false, 0, true⟩] else [⟨false, 0, true⟩]
    (Export.start.run schedule [[[1, 2], [3, 4]], [[5]]]).socket.written.flatMap
      (fun str => received [str]) = [[[1, 2], [3, 4]], [[5]]].flatten := by
  intro schedule
  refine (delivered_at_least_once (by decide) fun k => ?_).2
  by_cases hk : k = 0
  · refine ⟨[⟨true, 5, true⟩, ⟨true, 0, true⟩], ⟨false, 0, true⟩, ?_, by decide, by decide⟩
    simp [schedule, hk]
  · exact ⟨[], ⟨false, 0, true⟩, by simp [schedule, hk], by simp, by decide⟩

end Tcp

end Gelf

end IqLogger
