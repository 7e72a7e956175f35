import IqLogger.Lib.Run
import IqLogger.Stats.Http.Connection
import Mathlib.Data.Finset.Card

/-!
# The statistics server

`Server` accepts connections and `ConnectionManager` keeps them; each of them waits for one
operation at a time, and is called back by the `io_service` when it has ended. The callbacks of
different connections come in any order, one after the other, and between them the metrics
change. At some moment another thread stops the server, in three steps, and meanwhile the
thread of the `io_service` may still be in its last callback.

What a client is sent depends on nothing but the bytes it has sent itself, and on the metrics at
the moment at which these have become a request: it is one reply, or a beginning of it
(`Server.served`), and a page that the client can take apart again (`Server.pages_sent`). A
connection is kept exactly as long as its socket is open, and an open one always waits for
something as long as the server runs; a stop leaves none over but one whose accept was on its way
when all others were closed (`Server.sockets_managed`).
-/

namespace IqLogger.Http

open Scanner RequestParser RequestHandler

/-! ### The answer to some reads -/

namespace Connection

variable (v w : Int32) (stats : Bytes)

/-- The three cases of an answer: the bytes are the beginning of a request, begin with one, or are
neither. -/
theorem answer_cases (reads : List Bytes) :
    answer v w stats reads = none ∨
      (∃ text : RequestText, text.encode <+: reads.flatten ∧ ∃ req : Request,
        req.fields = text.fields ∧ answer v w stats reads = some (handle_request stats req)) ∨
      (∀ text : RequestText, ¬text.encode <+: reads.flatten) ∧
        answer v w stats reads = some (.stock_reply .bad_request) := by
  by_cases htext : ∃ text : RequestText, text.encode <+: reads.flatten
  · obtain ⟨text, t, ht⟩ := htext
    exact Or.inr (Or.inl ⟨text, ⟨t, ht⟩, answer_request v w stats text t reads ht.symm⟩)
  · have hno : ∀ text : RequestText, ¬text.encode <+: reads.flatten := by simpa using htext
    rcases hverdict : do_read (fresh v w) reads with ⟨verdict, parser, rest⟩
    cases verdict with
    | good =>
      rw [do_read, scanChunks_eq] at hverdict
      obtain ⟨_, ⟨text, rfl, -⟩, hinput⟩ :=
        (good_iff (recognizes v w) reads.flatten rest _).mp ⟨parser, hverdict, rfl⟩
      exact absurd ⟨rest, hinput.symm⟩ (hno text)
    | bad => exact Or.inr (Or.inr ⟨hno, by rw [answer, hverdict]⟩)
    | indeterminate => exact Or.inl (by rw [answer, hverdict])

/-- **The version numbers a request starts with** do not show in the answer, and the statistics
do not decide if there is one. -/
theorem answer_eq_none (v' w' : Int32) (stats' : Bytes) {reads : List Bytes}
    (h : answer v w stats reads = none) : answer v' w' stats' reads = none := by
  rw [answer_eq_none_iff] at h ⊢
  exact h

theorem answer_version (v' w' : Int32) (reads : List Bytes) :
    answer v w stats reads = answer v' w' stats reads := by
  rcases answer_cases v w stats reads with hnone | ⟨text, ⟨t, ht⟩, req, hfields, hanswer⟩ |
    ⟨hno, hanswer⟩
  · rw [hnone, answer_eq_none v w stats v' w' stats hnone]
  · obtain ⟨req', hfields', hanswer'⟩ := answer_request v' w' stats text t reads ht.symm
    -- the two requests differ in nothing the handler looks at
    have huri : req.uri = req'.uri := congrArg Fields.uri (hfields.trans hfields'.symm)
    rw [hanswer, hanswer', handle_request, handle_request, huri]
  · rcases answer_cases v' w' stats reads with hnone | ⟨text, htext, -⟩ | ⟨-, hanswer'⟩
    · rw [answer_eq_none v' w' stats v w stats hnone] at hanswer
      cases hanswer
    · exact absurd htext (hno text)
    · rw [hanswer, hanswer']

/-- One more read. -/
theorem do_read_snoc {parser start : State × Request} {reads : List Bytes} {rest : Bytes}
    (h : do_read start reads = (.indeterminate, parser, rest)) (bytes : Bytes) :
    do_read start (reads ++ [bytes]) = parse parser bytes := by
  rw [do_read, scanChunks_eq] at h ⊢
  rw [List.flatten_append, List.flatten_singleton, scan_append_of_indeterminate bytes h, parse]

end Connection

/-! ### Connections -/

/-- A `boost::system::error_code` that is an error, as far as the handlers tell them apart. -/
inductive ErrorCode
  | operation_aborted
  | other
  deriving DecidableEq, Repr

/-- What a connection has asked the `io_service` for. -/
inductive Operation
  | async_read_some
  | async_write
  deriving DecidableEq, Repr

/-- `Connection`: whether its socket is open, the parser with the request, the reply once it was
made, the operation it waits for, and what has gone out on the socket by the callbacks of its
writes. While a write lasts, a beginning of the reply has gone out. -/
structure Connection where
  socket : Bool
  parser : State × Request
  reply : Option Reply
  operation : Option Operation
  sent : Bytes

namespace Connection

/-- A connection that was accepted and started. -/
def accepted (major minor : Int32) : Connection where
  socket := true
  parser := fresh major minor
  reply := none
  operation := some .async_read_some
  sent := []

/-- `Connection::stop`. -/
def stop (c : Connection) : Connection := { c with socket := false }

/-- `Connection::do_write`. -/
def do_write (c : Connection) (rep : Reply) : Connection :=
  { c with reply := some rep, operation := some .async_write }

/-- The handler of `async_read_some`, without the call of the manager. -/
def onRead (stats : Bytes) (c : Connection) (ec : Option ErrorCode) (bytes : Bytes) :
    Connection :=
  if ec = none then
    match parse c.parser bytes with
    | (.good, parser, _) =>
      { c with parser := parser }.do_write (handle_request stats parser.2)
    | (.bad, parser, _) => { c with parser := parser }.do_write (.stock_reply .bad_request)
    | (.indeterminate, parser, _) =>
      { c with parser := parser, operation := some .async_read_some }
  else
    { c with operation := none }

/-- The bytes of the reply. -/
def buffers (c : Connection) : Bytes := (c.reply.map fun rep => rep.to_buffers.flatten).getD []

/-- The handler of `async_write`, without the call of the manager: without an error all has been
written. -/
def onWrite (c : Connection) (ec : Option ErrorCode) (bytes_transferred : ℕ) : Connection :=
  { c with
    operation := none
    sent := if ec = none then c.buffers else c.buffers.take bytes_transferred }

end Connection

/-! ### The server -/

/-- `Server`: the connections there have been, in the order of their accepts, the set
`ConnectionManager` keeps of them, whether the acceptor is open, whether the `io_service` has not
been stopped and whether all connections have, and the metrics as the text they are written to.
The handler of an accept can be past its look at the acceptor, and once the `io_service` has been
stopped its thread can be in a last handler. -/
structure Server where
  connections : List Connection
  m_connections : Finset ℕ
  acceptor : Bool
  io_service : Bool
  stopped : Bool
  accepting : Option (Int32 × Int32)
  handling : Bool
  stats : Bytes

namespace ConnectionManager

/-- `ConnectionManager::start`. -/
def start (s : Server) (c : Connection) : Server :=
  { s with
    connections := s.connections ++ [c]
    m_connections := insert s.connections.length s.m_connections }

/-- `ConnectionManager::stop`. -/
def stop (s : Server) (id : ℕ) : Server :=
  { s with
    connections := s.connections.modify id Connection.stop
    m_connections := s.m_connections.erase id }

/-- `ConnectionManager::stop_all`. -/
def stop_all (s : Server) : Server :=
  { s with
    connections := s.connections.mapIdx fun id c => if id ∈ s.m_connections then c.stop else c
    m_connections := ∅ }

end ConnectionManager

namespace Server

/-- A server that listens. -/
def start (stats : Bytes) : Server where
  connections := []
  m_connections := ∅
  acceptor := true
  io_service := true
  stopped := false
  accepting := none
  handling := false
  stats := stats

/-- What happens: a handler is called, with the error code and what was transferred, that of an
accept up to its look at the acceptor and then from there on; the metrics change; or one of the
three lines of `Server::stopImpl` is executed, the first with the thread of the `io_service` in a
handler or not. -/
inductive Event
  | accept (ec : Option ErrorCode) (major minor : Int32)
  | started
  | read (id : ℕ) (ec : Option ErrorCode) (bytes : Bytes)
  | write (id : ℕ) (ec : Option ErrorCode) (bytes_transferred : ℕ)
  | measure (stats : Bytes)
  | stop (busy : Bool)
  | close
  | stop_all
  deriving DecidableEq

/-- The size of the buffer of a connection. -/
def bufferSize : ℕ := 8192

/-- Whether a handler can be called, or is the last one. -/
def Serving (s : Server) : Prop :=
  s.accepting = none ∧ (s.io_service = true ∨ s.handling = true)

instance (s : Server) : Decidable s.Serving := inferInstanceAs (Decidable (_ ∧ _))

/-- Whether a connection can be called back: it has asked for it, and the operation is aborted
exactly if the socket was closed, unless the last handler has begun before that. -/
def Ready (s : Server) (c : Connection) (operation : Operation) (ec : Option ErrorCode) : Prop :=
  s.Serving ∧ c.operation = some operation ∧ (ec = some .operation_aborted → c.socket = false) ∧
    (s.io_service = true → c.socket = false → ec = some .operation_aborted)

instance (s : Server) (c : Connection) (operation : Operation) (ec : Option ErrorCode) :
    Decidable (s.Ready c operation ec) := inferInstanceAs (Decidable (_ ∧ _ ∧ _ ∧ _))

/-- A connection has been called back, and the manager is told to stop it, or not. -/
def update (s : Server) (id : ℕ) (c : Connection) (stops : Bool) : Server :=
  let s := { s with connections := s.connections.set id c, handling := false }
  if stops then ConnectionManager.stop s id else s

/-- One step of the server, if it is possible. -/
def step (s : Server) : Event → Option Server
  | .accept ec major minor =>
    if s.Serving then
      if s.acceptor && ec.isNone then some { s with accepting := some (major, minor) }
      else some { s with handling := false }
    else none
  | .started =>
    match s.accepting with
    | some (major, minor) =>
      some (ConnectionManager.start { s with accepting := none, handling := false }
        (.accepted major minor))
    | none => none
  | .read id ec bytes =>
    match s.connections[id]? with
    | some c =>
      if s.Ready c .async_read_some ec ∧ (ec = none → bytes ≠ [] ∧ bytes.length ≤ bufferSize) then
        some (s.update id (c.onRead s.stats ec bytes)
          (ec.isSome && ec != some .operation_aborted))
      else none
    | none => none
  | .write id ec bytes_transferred =>
    match s.connections[id]? with
    | some c =>
      if s.Ready c .async_write ec then
        some (s.update id (c.onWrite ec bytes_transferred) (ec != some .operation_aborted))
      else none
    | none => none
  | .measure stats => some { s with stats := stats }
  | .stop busy =>
    if s.io_service ∧ (s.accepting.isSome → busy) then
      some { s with io_service := false, handling := busy }
    else none
  | .close =>
    if s.acceptor ∧ ¬s.io_service then some { s with acceptor := false } else none
  | .stop_all =>
    if ¬s.acceptor ∧ ¬s.stopped then some (ConnectionManager.stop_all { s with stopped := true })
    else none

/-! ### What a step does -/

variable {s t : Server}

/-- The handler of an accept goes on, or it is over. -/
theorem accept_cases {ec : Option ErrorCode} {major minor : Int32}
    (h : s.step (.accept ec major minor) = some t) : s.Serving ∧
      (s.acceptor = true ∧ t = { s with accepting := some (major, minor) } ∨
        t = { s with handling := false }) := by
  rw [step] at h
  split_ifs at h with hserving haccept
  · obtain ⟨hacceptor, -⟩ := Bool.and_eq_true_iff.mp haccept
    exact ⟨hserving, Or.inl ⟨hacceptor, (Option.some.inj h).symm⟩⟩
  · exact ⟨hserving, Or.inr (Option.some.inj h).symm⟩

/-- **A connection is started** when its accept was on its way. -/
theorem started_cases (h : s.step .started = some t) :
    ∃ major minor, s.accepting = some (major, minor) ∧
      t = ConnectionManager.start { s with accepting := none, handling := false }
        (.accepted major minor) := by
  rw [step] at h
  split at h
  · next major minor haccepting => exact ⟨major, minor, haccepting, (Option.some.inj h).symm⟩
  · cases h

theorem read_cases {id : ℕ} {ec : Option ErrorCode} {bytes : Bytes}
    (h : s.step (.read id ec bytes) = some t) :
    ∃ c, s.connections[id]? = some c ∧ s.Ready c .async_read_some ec ∧
      t = s.update id (c.onRead s.stats ec bytes) (ec.isSome && ec != some .operation_aborted) := by
  rw [step] at h
  split at h
  · next c hc =>
    split_ifs at h with hready
    exact ⟨c, hc, hready.1, (Option.some.inj h).symm⟩
  · cases h

theorem write_cases {id : ℕ} {ec : Option ErrorCode} {bytes_transferred : ℕ}
    (h : s.step (.write id ec bytes_transferred) = some t) :
    ∃ c, s.connections[id]? = some c ∧ s.Ready c .async_write ec ∧
      t = s.update id (c.onWrite ec bytes_transferred) (ec != some .operation_aborted) := by
  rw [step] at h
  split at h
  · next c hc =>
    split_ifs at h with hready
    exact ⟨c, hc, hready, (Option.some.inj h).symm⟩
  · cases h

theorem stop_cases {busy : Bool} (h : s.step (.stop busy) = some t) : s.io_service = true ∧
    (s.accepting.isSome = true → busy = true) ∧
      t = { s with io_service := false, handling := busy } := by
  rw [step] at h
  split_ifs at h with hrun
  exact ⟨hrun.1, hrun.2, (Option.some.inj h).symm⟩

theorem close_cases (h : s.step .close = some t) :
    s.io_service = false ∧ t = { s with acceptor := false } := by
  rw [step] at h
  split_ifs at h with hopen
  exact ⟨Bool.eq_false_iff.mpr hopen.2, (Option.some.inj h).symm⟩

theorem stop_all_cases (h : s.step .stop_all = some t) : s.acceptor = false ∧
    t = ConnectionManager.stop_all { s with stopped := true } := by
  rw [step] at h
  split_ifs at h with hclosed
  exact ⟨Bool.eq_false_iff.mpr hclosed.1, (Option.some.inj h).symm⟩

section Update

variable (s) (id : ℕ) (c : Connection) (stops : Bool)

/-- **A callback concerns one connection.** -/
theorem connections_update (j : ℕ) :
    (s.update id c stops).connections[j]? =
      if id = j then s.connections[j]?.map fun _ => if stops then c.stop else c
      else s.connections[j]? := by
  rw [update]
  cases stops with
  | false =>
    simp only [Bool.false_eq_true, if_false, List.getElem?_set']
    rfl
  | true =>
    simp only [if_true, ConnectionManager.stop, List.getElem?_modify, List.getElem?_set']
    split_ifs with hj
    · cases s.connections[j]? <;> simp
    · simp

theorem length_connections_update :
    (s.update id c stops).connections.length = s.connections.length := by
  cases stops <;> simp [update, ConnectionManager.stop]

theorem m_connections_update :
    (s.update id c stops).m_connections =
      if stops then s.m_connections.erase id else s.m_connections := by
  cases stops <;> rfl

@[simp] theorem stats_update : (s.update id c stops).stats = s.stats := by
  cases stops <;> rfl

@[simp] theorem io_service_update : (s.update id c stops).io_service = s.io_service := by
  cases stops <;> rfl

@[simp] theorem acceptor_update : (s.update id c stops).acceptor = s.acceptor := by
  cases stops <;> rfl

@[simp] theorem stopped_update : (s.update id c stops).stopped = s.stopped := by
  cases stops <;> rfl

@[simp] theorem accepting_update : (s.update id c stops).accepting = s.accepting := by
  cases stops <;> rfl

@[simp] theorem handling_update : (s.update id c stops).handling = false := by
  cases stops <;> rfl

end Update

/-- The connections after an accept. -/
theorem connections_start (s : Server) (c : Connection) (j : ℕ) :
    (ConnectionManager.start s c).connections[j]? =
      if j = s.connections.length then some c else s.connections[j]? := by
  rw [ConnectionManager.start]
  split_ifs with hj
  · simp [hj]
  · rcases Nat.lt_or_gt_of_ne hj with hlt | hgt
    · rw [List.getElem?_append_left hlt]
    · rw [List.getElem?_eq_none (by simp; omega), List.getElem?_eq_none (by omega)]

/-- The connections after a stop of the server. -/
theorem connections_stop_all (s : Server) (j : ℕ) :
    (ConnectionManager.stop_all s).connections[j]? =
      s.connections[j]?.map fun c => if j ∈ s.m_connections then c.stop else c := by
  rw [ConnectionManager.stop_all, List.getElem?_mapIdx]

/-! ### What clients are sent -/

/-- What a connection has read in a run. -/
def readsOf (id : ℕ) (events : List Event) : List Bytes :=
  events.filterMap fun
    | .read i none bytes => if i = id then some bytes else none
    | _ => none

/-- How the writes of a connection have ended in a run. -/
def writesOf (id : ℕ) (events : List Event) : List (Option ErrorCode × ℕ) :=
  events.filterMap fun
    | .write i ec bytes_transferred => if i = id then some (ec, bytes_transferred) else none
    | _ => none

/-- The metrics after a run. -/
def statsAfter (stats : Bytes) (events : List Event) : Bytes :=
  events.foldl (fun stats event => match event with | .measure stats' => stats' | _ => stats) stats

@[simp] theorem readsOf_append (id : ℕ) (xs ys : List Event) :
    readsOf id (xs ++ ys) = readsOf id xs ++ readsOf id ys := List.filterMap_append

@[simp] theorem writesOf_append (id : ℕ) (xs ys : List Event) :
    writesOf id (xs ++ ys) = writesOf id xs ++ writesOf id ys := List.filterMap_append

@[simp] theorem readsOf_write (id i : ℕ) (ec : Option ErrorCode) (n : ℕ) :
    readsOf id [.write i ec n] = [] := rfl

@[simp] theorem writesOf_read (id i : ℕ) (ec : Option ErrorCode) (bytes : Bytes) :
    writesOf id [.read i ec bytes] = [] := rfl

@[simp] theorem readsOf_self (id : ℕ) (ec : Option ErrorCode) (bytes : Bytes) :
    readsOf id [.read id ec bytes] = if ec = none then [bytes] else [] := by
  cases ec <;> simp [readsOf]

@[simp] theorem writesOf_self (id : ℕ) (ec : Option ErrorCode) (n : ℕ) :
    writesOf id [.write id ec n] = [(ec, n)] := by
  simp [writesOf]

theorem readsOf_other {id i : ℕ} (h : i ≠ id) (ec : Option ErrorCode) (bytes : Bytes) :
    readsOf id [.read i ec bytes] = [] := by
  cases ec <;> simp [readsOf, h]

theorem writesOf_other {id i : ℕ} (h : i ≠ id) (ec : Option ErrorCode) (n : ℕ) :
    writesOf id [.write i ec n] = [] := by
  simp [writesOf, h]

variable (stats₀ : Bytes)

/-- **A reply is the answer** to what the connection has read, with the metrics of the moment at
which the last of it came; nothing was read after that. -/
def AnsweredIn (events : List Event) (id : ℕ) (rep : Reply) : Prop :=
  ∃ before bytes after, events = before ++ .read id none bytes :: after ∧ readsOf id after = [] ∧
    ∀ v w, Connection.answer v w (statsAfter stats₀ before) (readsOf id before ++ [bytes]) =
      some rep

/-- What has gone out on a socket of a reply, once the write has ended. -/
def delivered (rep : Reply) (ec : Option ErrorCode) (bytes_transferred : ℕ) : Bytes :=
  if ec = none then rep.to_buffers.flatten else rep.to_buffers.flatten.take bytes_transferred

/-- **What is true of one connection in a run**, whatever the others do. -/
structure Served (events : List Event) (id : ℕ) (c : Connection) : Prop where
  unanswered : c.reply = none → c.sent = [] ∧ writesOf id events = [] ∧
    c.operation ≠ some .async_write ∧
    ∃ v w rest, Connection.do_read (fresh v w) (readsOf id events) =
      (.indeterminate, c.parser, rest)
  answered : ∀ rep, c.reply = some rep → c.operation ≠ some .async_read_some ∧
    AnsweredIn stats₀ events id rep ∧
    (writesOf id events = [] ∧ c.sent = [] ∨
      c.operation = none ∧ ∃ ec n, writesOf id events = [(ec, n)] ∧ c.sent = delivered rep ec n)

namespace Served

variable {stats₀} {events : List Event} {id : ℕ} {c : Connection}

theorem stop (h : Served stats₀ events id c) : Served stats₀ events id c.stop :=
  ⟨h.unanswered, h.answered⟩

/-- Events that do not concern the connection. -/
theorem frame (h : Served stats₀ events id c) {event : Event} (hreads : readsOf id [event] = [])
    (hwrites : writesOf id [event] = []) : Served stats₀ (events ++ [event]) id c where
  unanswered hnone := by
    obtain ⟨hsent, hw, hop, v, w, rest, hscan⟩ := h.unanswered hnone
    refine ⟨hsent, by simp [hw, hwrites], hop, v, w, rest, ?_⟩
    rw [readsOf_append, hreads, List.append_nil, hscan]
  answered rep hrep := by
    obtain ⟨hop, ⟨before, bytes, after, rfl, hafter, hanswer⟩, hdelivered⟩ := h.answered rep hrep
    refine ⟨hop, ⟨before, bytes, after ++ [event], by simp, by simp [hafter, hreads], hanswer⟩, ?_⟩
    rwa [writesOf_append, hwrites, List.append_nil]

/-- **A read of the connection.** Up to the first verdict there is no reply, and with it the reply
is made. -/
theorem read (h : Served stats₀ events id c) (hop : c.operation = some .async_read_some)
    (ec : Option ErrorCode) (bytes : Bytes) :
    Served stats₀ (events ++ [.read id ec bytes]) id
      (c.onRead (statsAfter stats₀ events) ec bytes) := by
  have hreply : c.reply = none := by
    rcases hrep : c.reply with _ | rep
    · rfl
    · exact absurd hop (h.answered rep hrep).1
  obtain ⟨hsent, hwrites, -, v, w, rest, hscan⟩ := h.unanswered hreply
  have hwrites' : writesOf id (events ++ [.read id ec bytes]) = [] := by simp [hwrites]
  cases ec with
  | some e =>
    have hreads : readsOf id (events ++ [.read id (some e) bytes]) = readsOf id events := by simp
    refine ⟨fun _ => ⟨hsent, hwrites', by simp [Connection.onRead], v, w, rest, ?_⟩, ?_⟩
    · rw [hreads, hscan]
      rfl
    · intro rep hrep
      exact absurd (hreply.symm.trans hrep) (by simp)
  | none =>
    have hscan' := Connection.do_read_snoc hscan bytes
    have hanswer : ∀ {rep : Reply}, Connection.answer v w (statsAfter stats₀ events)
        (readsOf id events ++ [bytes]) = some rep →
        AnsweredIn stats₀ (events ++ [.read id none bytes]) id rep := by
      intro rep hrep
      refine ⟨events, bytes, [], rfl, rfl, fun v' w' => ?_⟩
      rw [Connection.answer_version v' w' _ v w, hrep]
    rw [Connection.onRead, if_pos rfl]
    rcases hparse : parse c.parser bytes with ⟨verdict, parser, rest'⟩
    rw [hparse] at hscan'
    cases verdict with
    | indeterminate =>
      refine ⟨fun _ => ⟨hsent, hwrites', by simp, v, w, rest', ?_⟩, ?_⟩
      · rw [readsOf_append, readsOf_self, if_pos rfl, hscan']
      · intro rep hrep
        exact absurd (hreply.symm.trans hrep) (by simp)
    | good =>
      refine ⟨fun hnone => absurd hnone (by simp [Connection.do_write]), fun rep hrep => ?_⟩
      obtain rfl := Option.some.inj hrep
      exact ⟨by simp [Connection.do_write], hanswer (by rw [Connection.answer, hscan']),
        Or.inl ⟨hwrites', hsent⟩⟩
    | bad =>
      refine ⟨fun hnone => absurd hnone (by simp [Connection.do_write]), fun rep hrep => ?_⟩
      obtain rfl := Option.some.inj hrep
      exact ⟨by simp [Connection.do_write], hanswer (by rw [Connection.answer, hscan']),
        Or.inl ⟨hwrites', hsent⟩⟩

/-- **A write of the connection**: the only one there is. -/
theorem write (h : Served stats₀ events id c) (hop : c.operation = some .async_write)
    (ec : Option ErrorCode) (n : ℕ) :
    Served stats₀ (events ++ [.write id ec n]) id (c.onWrite ec n) := by
  rcases hrep : c.reply with _ | rep
  · exact absurd hop (h.unanswered hrep).2.2.1
  · obtain ⟨-, ⟨before, bytes, after, rfl, hafter, hanswer⟩, hdelivered⟩ := h.answered rep hrep
    obtain ⟨hwrites, -⟩ | ⟨hnone, -⟩ := hdelivered
    · refine ⟨fun hnone => absurd (hrep.symm.trans hnone) (by simp), fun rep' hrep' => ?_⟩
      obtain rfl := Option.some.inj (hrep.symm.trans hrep')
      refine ⟨by simp [Connection.onWrite], ⟨before, bytes, after ++ [.write id ec n], by simp,
        by simp [hafter], hanswer⟩, Or.inr ⟨rfl, ec, n, ?_, ?_⟩⟩
      · rw [writesOf_append, hwrites, writesOf_self, List.nil_append]
      · simp [Connection.onWrite, delivered, Connection.buffers, hrep]
    · rw [hop] at hnone
      cases hnone

/-- A connection that was just accepted. -/
theorem accepted {major minor : Int32} (hreads : readsOf id events = [])
    (hwrites : writesOf id events = []) :
    Served stats₀ events id (.accepted major minor) where
  unanswered _ := by
    refine ⟨rfl, hwrites, by simp [Connection.accepted], major, minor, [], ?_⟩
    rw [hreads]
    rfl
  answered rep hrep := absurd hrep (by simp [Connection.accepted])

end Served

/-- What is true of all connections in a run. -/
structure AllServed (events : List Event) (s : Server) : Prop where
  served : ∀ (id : ℕ) c, s.connections[id]? = some c → Served stats₀ events id c
  untouched : ∀ id, s.connections.length ≤ id → readsOf id events = [] ∧ writesOf id events = []
  stats : s.stats = statsAfter stats₀ events

namespace AllServed

variable {stats₀} {events : List Event}

/-- A step that concerns no connection, except that it closes some sockets. -/
theorem frame (h : AllServed stats₀ events s) {event : Event}
    (hreads : ∀ id, readsOf id [event] = []) (hwrites : ∀ id, writesOf id [event] = [])
    (hconnections : ∀ (id : ℕ) (c : Connection), t.connections[id]? = some c →
      s.connections[id]? = some c ∨ ∃ c' : Connection, s.connections[id]? = some c' ∧ c = c'.stop)
    (hlength : t.connections.length = s.connections.length)
    (hstats : t.stats = statsAfter s.stats [event]) : AllServed stats₀ (events ++ [event]) t where
  served id c hc := by
    rcases hconnections id c hc with hold | ⟨c', hold, rfl⟩
    · exact (h.served id c hold).frame (hreads id) (hwrites id)
    · exact ((h.served id c' hold).frame (hreads id) (hwrites id)).stop
  untouched id hid := by
    obtain ⟨hr, hw⟩ := h.untouched id (hlength ▸ hid)
    exact ⟨by rw [readsOf_append, hr, hreads, List.append_nil],
      by rw [writesOf_append, hw, hwrites, List.append_nil]⟩
  stats := by
    rw [hstats, h.stats, statsAfter, statsAfter, statsAfter, List.foldl_append]

/-- A callback of one connection. -/
theorem update (h : AllServed stats₀ events s) {event : Event} {id : ℕ} {c c' : Connection}
    (hc : s.connections[id]? = some c) (hserved : Served stats₀ (events ++ [event]) id c')
    (hreads : ∀ j, j ≠ id → readsOf j [event] = [])
    (hwrites : ∀ j, j ≠ id → writesOf j [event] = [])
    (hstats : statsAfter s.stats [event] = s.stats) (stops : Bool) :
    AllServed stats₀ (events ++ [event]) (s.update id c' stops) where
  served j d hd := by
    rw [connections_update] at hd
    by_cases hj : id = j
    · subst hj
      rw [if_pos rfl, hc, Option.map_some] at hd
      obtain rfl := Option.some.inj hd
      cases stops with
      | false => exact hserved
      | true => exact hserved.stop
    · rw [if_neg hj] at hd
      exact (h.served j d hd).frame (hreads j (Ne.symm hj)) (hwrites j (Ne.symm hj))
  untouched j hj := by
    rw [length_connections_update] at hj
    have hlt : id < s.connections.length := (List.getElem?_eq_some_iff.mp hc).1
    have hne : j ≠ id := by omega
    obtain ⟨hr, hw⟩ := h.untouched j hj
    exact ⟨by rw [readsOf_append, hr, hreads j hne, List.append_nil],
      by rw [writesOf_append, hw, hwrites j hne, List.append_nil]⟩
  stats := by
    rw [stats_update, ← hstats, h.stats, statsAfter, statsAfter, statsAfter, List.foldl_append]

/-- **One step.** -/
theorem step (h : AllServed stats₀ events s) {event : Event} (hstep : s.step event = some t) :
    AllServed stats₀ (events ++ [event]) t := by
  cases event with
  | accept ec major minor =>
    obtain ⟨-, ⟨-, rfl⟩ | rfl⟩ := accept_cases hstep
    · exact h.frame (fun _ => rfl) (fun _ => rfl) (fun _ _ hc => Or.inl hc) rfl rfl
    · exact h.frame (fun _ => rfl) (fun _ => rfl) (fun _ _ hc => Or.inl hc) rfl rfl
  | started =>
    obtain ⟨major, minor, -, rfl⟩ := started_cases hstep
    obtain ⟨hr, hw⟩ := h.untouched _ le_rfl
    refine ⟨fun id c hc => ?_, fun id hid => ?_, h.stats.trans (by simp [statsAfter])⟩
    · rw [connections_start] at hc
      split_ifs at hc with hid
      · obtain rfl := Option.some.inj hc
        subst hid
        exact .accepted (by rw [readsOf_append, hr]; rfl) (by rw [writesOf_append, hw]; rfl)
      · exact (h.served id c hc).frame rfl rfl
    · have hle : s.connections.length ≤ id := by
        simp only [ConnectionManager.start, List.length_append, List.length_singleton] at hid
        omega
      obtain ⟨hr', hw'⟩ := h.untouched id hle
      exact ⟨by rw [readsOf_append, hr']; rfl, by rw [writesOf_append, hw']; rfl⟩
  | read id ec bytes =>
    obtain ⟨c, hc, hready, rfl⟩ := read_cases hstep
    have hserved := (h.served id c hc).read hready.2.1 ec bytes
    rw [← h.stats] at hserved
    exact h.update hc hserved (fun j hj => readsOf_other (Ne.symm hj) ec bytes) (fun _ _ => rfl)
      rfl _
  | write id ec n =>
    obtain ⟨c, hc, hready, rfl⟩ := write_cases hstep
    exact h.update hc ((h.served id c hc).write hready.2.1 ec n) (fun _ _ => rfl)
      (fun j hj => writesOf_other (Ne.symm hj) ec n) rfl _
  | measure stats =>
    obtain rfl := Option.some.inj hstep
    exact h.frame (fun _ => rfl) (fun _ => rfl) (fun _ _ hc => Or.inl hc) rfl rfl
  | stop busy =>
    obtain ⟨-, -, rfl⟩ := stop_cases hstep
    exact h.frame (fun _ => rfl) (fun _ => rfl) (fun _ _ hc => Or.inl hc) rfl rfl
  | close =>
    obtain ⟨-, rfl⟩ := close_cases hstep
    exact h.frame (fun _ => rfl) (fun _ => rfl) (fun _ _ hc => Or.inl hc) rfl rfl
  | stop_all =>
    obtain ⟨-, rfl⟩ := stop_all_cases hstep
    refine h.frame (fun _ => rfl) (fun _ => rfl) (fun id c hc => ?_) ?_ rfl
    · rw [connections_stop_all] at hc
      obtain ⟨c', hc', heq⟩ := Option.map_eq_some_iff.mp hc
      split_ifs at heq with hmem
      · exact Or.inr ⟨c', hc', heq.symm⟩
      · exact Or.inl (heq ▸ hc')
    · simp [ConnectionManager.stop_all]

/-- **A whole run.** -/
theorem run (stats₀ : Bytes) (events : List Event) (s : Server)
    (hrun : events.foldlM Server.step (.start stats₀) = some s) : AllServed stats₀ events s := by
  refine Machine.interleaving_induction (P := fun events s => AllServed stats₀ events s) ?_ ?_
    events s hrun
  · exact ⟨fun id c hc => by simp [start] at hc, fun _ _ => ⟨rfl, rfl⟩, rfl⟩
  · exact fun events s event t h hstep => h.step hstep

end AllServed

/-- **Every client is served for itself.** In every run, whatever the other clients do and in
whatever order the callbacks come: as long as what a connection has read is the beginning of a
request, nothing is sent on it. Otherwise there is one reply, the answer to what it has read with
the metrics of the moment at which the last of it came, and what is sent is nothing, as long as
the write lasts, and the reply, or a beginning of it if the write fails, afterwards. -/
theorem served {events : List Event} {s : Server}
    (hrun : events.foldlM step (start stats₀) = some s) {id : ℕ} {c : Connection}
    (hc : s.connections[id]? = some c) :
    ((∀ v w stats, Connection.answer v w stats (readsOf id events) = none) ∧
      writesOf id events = [] ∧ c.sent = []) ∨
    ∃ rep, AnsweredIn stats₀ events id rep ∧
      (writesOf id events = [] ∧ c.sent = [] ∨
        ∃ ec n, writesOf id events = [(ec, n)] ∧ c.sent = delivered rep ec n) := by
  have h := (AllServed.run stats₀ events s hrun).served id c hc
  rcases hrep : c.reply with _ | rep
  · obtain ⟨hsent, hwrites, -, v, w, rest, hscan⟩ := h.unanswered hrep
    refine Or.inl ⟨fun v' w' stats => ?_, hwrites, hsent⟩
    exact Connection.answer_eq_none v w stats v' w' stats (by rw [Connection.answer, hscan])
  · obtain ⟨-, hanswered, hdelivered⟩ := h.answered rep hrep
    exact Or.inr ⟨rep, hanswered, hdelivered.imp_right fun hd => hd.2⟩

/-- Two clients: the request of the first comes in two reads, and between them the second is
answered. -/
def twoClients : List Event :=
  [.accept none 0 0, .started, .accept none 7 7, .started, .read 0 none (ascii "GET /sta"),
    .read 1 none [LF],
    .measure (ascii "\x7b\x7d"), .write 1 none 0,
    .read 0 none (ascii "ts HTTP/1.0" ++ crlf ++ crlf), .write 0 (some .other) 9]

theorem served_two : ∃ rep, AnsweredIn [] twoClients 0 rep ∧
    writesOf 0 twoClients = [(some .other, 9)] := by
  obtain ⟨c, hc⟩ : ∃ c, (twoClients.foldlM step (start [])).bind (fun s => s.connections[0]?) =
      some c := Option.isSome_iff_exists.mp (by decide +kernel)
  obtain ⟨s, hrun, hc⟩ := Option.bind_eq_some_iff.mp hc
  obtain ⟨-, hwrites, -⟩ | ⟨rep, hanswered, -⟩ := served [] hrun hc
  · exact absurd hwrites (by decide)
  · exact ⟨rep, hanswered, by decide⟩

/-- **What is sent is a page**: once a connection has been called back by its write, what has gone
out is a beginning of a line for a status, lines that hold no line end, an empty line, and as many
bytes as one of the lines says, and all of this where the write has not failed. The status is OK
exactly if what was read begins with a request for a path that is decoded as `/stats`, and then
these bytes are the metrics of the moment at which the last of it came. -/
theorem pages_sent {events : List Event} {s : Server}
    (hrun : events.foldlM step (start stats₀) = some s) {id : ℕ} {c : Connection}
    (hc : s.connections[id]? = some c) {ec : Option ErrorCode} {n : ℕ}
    (hwrite : writesOf id events = [(ec, n)]) :
    ∃ (status : StatusType) (lines : List Bytes) (content : Bytes),
      (∀ line ∈ status.line :: lines, OneLine line) ∧
      Reply.lengthLine content.length ∈ lines ∧
      c.sent <+: (status.line :: lines).flatMap (· ++ crlf) ++ crlf ++ content ∧
      (ec = none →
        c.sent = (status.line :: lines).flatMap (· ++ crlf) ++ crlf ++ content) ∧
      (status = .ok ↔ ∃ text : RequestText, text.encode <+: (readsOf id events).flatten ∧
        url_decode text.line.uri = (true, ascii "/stats")) ∧
      (status = .ok → ∃ before bytes after, events = before ++ .read id none bytes :: after ∧
        readsOf id after = [] ∧ content = statsAfter stats₀ before) := by
  have h := (AllServed.run stats₀ events s hrun).served id c hc
  rcases hrep : c.reply with _ | rep
  · rw [(h.unanswered hrep).2.1] at hwrite
    cases hwrite
  obtain ⟨-, ⟨before, bytes, after, hevents, hafter, hanswer⟩, hdelivered⟩ := h.answered rep hrep
  have hanswer := hanswer 0 0
  obtain ⟨lines, hlines, hlength, hbuffers⟩ :=
    (Connection.framed_answer 0 0 _ hanswer).exists_lines
  have hreads : readsOf id events = readsOf id before ++ [bytes] := by
    rw [hevents, readsOf_append, ← List.singleton_append, readsOf_append, readsOf_self, if_pos rfl,
      hafter, List.append_nil]
  have hsent : c.sent = delivered rep ec n := by
    rcases hdelivered with ⟨hnone, -⟩ | ⟨-, ec', n', hwrite', hsent⟩
    · rw [hwrite] at hnone
      cases hnone
    · rw [hwrite] at hwrite'
      obtain ⟨rfl, rfl⟩ := Prod.mk.inj (List.cons.inj hwrite').1
      exact hsent
  refine ⟨rep.status, lines, rep.content, hlines, hlength, ?_, fun hec => ?_, ?_, fun hok => ?_⟩
  · rw [hsent, delivered, ← hbuffers]
    split_ifs
    · exact List.prefix_rfl
    · exact List.take_prefix _ _
  · rw [hsent, delivered, if_pos hec, hbuffers]
  · have hok := Connection.answer_ok_iff 0 0 (statsAfter stats₀ before) (readsOf id events)
    rw [hreads, hanswer] at hok
    rw [hreads, ← hok]
    simp
  · exact ⟨before, bytes, after, hevents, hafter, Connection.content_of_answer_ok 0 0 _ hanswer hok⟩

/-- A client that asks for the statistics. -/
def oneClient : List Event :=
  [.accept none 0 0, .started, .measure (ascii "\x7b\x7d"),
    .read 0 none (ascii "GET /stats HTTP/1.0" ++ crlf ++ crlf), .write 0 none 0]

theorem pages_sent_one : ∃ c : Connection,
    (oneClient.foldlM step (start [])).bind (fun s => s.connections[0]?) = some c ∧
    ∃ (status : StatusType) (lines : List Bytes) (content : Bytes),
      (∀ line ∈ status.line :: lines, OneLine line) ∧
      Reply.lengthLine content.length ∈ lines ∧
      c.sent = (status.line :: lines).flatMap (· ++ crlf) ++ crlf ++ content ∧
      (status = .ok ↔ ∃ text : RequestText, text.encode <+: (readsOf 0 oneClient).flatten ∧
        url_decode text.line.uri = (true, ascii "/stats")) := by
  obtain ⟨c, hc⟩ : ∃ c, (oneClient.foldlM step (start [])).bind (fun s => s.connections[0]?) =
      some c := Option.isSome_iff_exists.mp (by decide +kernel)
  obtain ⟨s, hrun, hconnection⟩ := Option.bind_eq_some_iff.mp hc
  obtain ⟨status, lines, content, hlines, hlength, -, hsent, hok, -⟩ :=
    pages_sent [] hrun hconnection (by decide : writesOf 0 oneClient = [(none, 0)])
  exact ⟨c, hc, status, lines, content, hlines, hlength, hsent rfl, hok⟩

/-! ### The connections that are kept -/

/-- A connection was started after all others had been stopped. -/
def StartedLate (events : List Event) : Prop :=
  ∃ before after, events = before ++ .started :: after ∧ .stop_all ∈ before

theorem StartedLate.snoc {events : List Event} (h : StartedLate events) (event : Event) :
    StartedLate (events ++ [event]) := by
  obtain ⟨before, after, rfl, hmem⟩ := h
  exact ⟨before, after ++ [event], by simp, hmem⟩

/-- **What the manager keeps**: the connections whose sockets are open, which all wait for
something while the server runs. Nothing is left when all have been stopped, but what the last
handler starts then. -/
structure Managed (events : List Event) (s : Server) : Prop where
  managed : ∀ id, id ∈ s.m_connections ↔
    ∃ c : Connection, s.connections[id]? = some c ∧ c.socket = true
  waits : s.io_service = true → ∀ (id : ℕ) (c : Connection), s.connections[id]? = some c →
    (c.socket = true ↔ c.operation ≠ none)
  acceptor : s.io_service = true → s.acceptor = true
  closed : s.stopped = true → s.acceptor = false ∧ .stop_all ∈ events
  accepting : s.accepting.isSome = true → s.io_service = true ∨ s.handling = true
  handling : s.stopped = true → s.handling = true → s.m_connections = ∅
  late : s.stopped = true → s.m_connections.card ≤ 1 ∧ (s.m_connections ≠ ∅ → StartedLate events)

namespace Managed

variable {events : List Event}

/-- When all connections have been stopped, the `io_service` has been so before. -/
theorem io_service (h : s.Managed events) (hstopped : s.stopped = true) : s.io_service = false := by
  refine Bool.eq_false_iff.mpr fun hrun => ?_
  have hacceptor := h.acceptor hrun
  rw [(h.closed hstopped).1] at hacceptor
  cases hacceptor

/-- A step after which the manager keeps what it kept before. -/
theorem frame (h : s.Managed events) (event : Event) (hconnections : t.connections = s.connections)
    (hm_connections : t.m_connections = s.m_connections)
    (hrun : t.io_service = true → s.io_service = true)
    (hacceptor : t.io_service = true → t.acceptor = s.acceptor)
    (hstopped : t.stopped = true → s.stopped = true ∧ t.acceptor = false)
    (haccepting : t.accepting.isSome = true → t.io_service = true ∨ t.handling = true)
    (hhandling : t.stopped = true → t.handling = true → s.handling = true) :
    t.Managed (events ++ [event]) where
  managed id := by rw [hm_connections, hconnections, h.managed]
  waits hio id c hc := h.waits (hrun hio) id c (hconnections ▸ hc)
  acceptor hio := (hacceptor hio).trans (h.acceptor (hrun hio))
  closed ht := ⟨(hstopped ht).2, by simp [(h.closed (hstopped ht).1).2]⟩
  accepting := haccepting
  handling ht hth := by
    rw [hm_connections]
    exact h.handling (hstopped ht).1 (hhandling ht hth)
  late ht := by
    obtain ⟨hcard, hlate⟩ := h.late (hstopped ht).1
    rw [hm_connections]
    exact ⟨hcard, fun hne => (hlate hne).snoc event⟩

/-- The handler of a connection, which ends with a new operation or with the end of the
connection. -/
theorem update (h : s.Managed events) (event : Event) {id : ℕ} {c c' : Connection}
    (hserving : s.Serving) (hc : s.connections[id]? = some c) {stops : Bool}
    (hsocket : c'.socket = c.socket)
    (hoperation : s.io_service = true → c.socket = true ∧ (c'.operation = none ↔ stops = true)) :
    (s.update id c' stops).Managed (events ++ [event]) where
  managed j := by
    rw [m_connections_update, connections_update]
    by_cases hj : id = j
    · subst hj
      rw [if_pos rfl, hc, Option.map_some]
      cases stops with
      | false => simp [h.managed id, hc, hsocket]
      | true => simp [Connection.stop]
    · rw [if_neg hj]
      cases stops with
      | false => exact h.managed j
      | true =>
        rw [if_pos rfl, Finset.mem_erase, h.managed j]
        simp [Ne.symm hj]
  waits hio j d hd := by
    rw [io_service_update] at hio
    obtain ⟨hopen, hop⟩ := hoperation hio
    rw [connections_update] at hd
    by_cases hj : id = j
    · subst hj
      rw [if_pos rfl, hc, Option.map_some] at hd
      obtain rfl := Option.some.inj hd
      cases stops with
      | false => simpa [hsocket, hopen] using hop
      | true => simpa [Connection.stop] using hop
    · rw [if_neg hj] at hd
      exact h.waits hio j d hd
  acceptor hio := by
    rw [io_service_update] at hio
    rw [acceptor_update, h.acceptor hio]
  closed ht := by
    rw [stopped_update] at ht
    rw [acceptor_update]
    exact ⟨(h.closed ht).1, by simp [(h.closed ht).2]⟩
  accepting haccepting := by
    rw [accepting_update, hserving.1] at haccepting
    cases haccepting
  handling _ hhandling := by simp at hhandling
  late ht := by
    rw [stopped_update] at ht
    -- the last handler is one of a connection, and nothing is kept any more
    have hempty : s.m_connections = ∅ := by
      refine h.handling ht (hserving.2.resolve_left ?_)
      rw [h.io_service ht]
      exact Bool.false_ne_true
    have hnone : (s.update id c' stops).m_connections = ∅ := by
      rw [m_connections_update, hempty]
      cases stops <;> rfl
    rw [hnone]
    exact ⟨by simp, fun hne => absurd rfl hne⟩

/-- While the server runs, the socket of a connection that is called back is open, so nothing was
aborted. -/
theorem ready (h : s.Managed events) (hrun : s.io_service = true) {id : ℕ} {c : Connection}
    (hc : s.connections[id]? = some c) {operation : Operation} {ec : Option ErrorCode}
    (hready : s.Ready c operation ec) : c.socket = true ∧ ec ≠ some .operation_aborted := by
  obtain ⟨-, hop, haborted, -⟩ := hready
  have hopen : c.socket = true := (h.waits hrun id c hc).mpr (by simp [hop])
  refine ⟨hopen, fun hec => ?_⟩
  rw [haborted hec] at hopen
  cases hopen

/-- A connection is started. -/
theorem started (h : s.Managed events) {major minor : Int32}
    (haccepting : s.accepting.isSome = true) :
    (ConnectionManager.start { s with accepting := none, handling := false }
      (.accepted major minor)).Managed (events ++ [.started]) where
  managed id := by
    rw [connections_start, ConnectionManager.start, Finset.mem_insert, h.managed]
    split_ifs with hid
    · simp [hid, Connection.accepted]
    · simp [hid]
  waits hio id c hc := by
    rw [connections_start] at hc
    split_ifs at hc with hid
    · obtain rfl := Option.some.inj hc
      simp [Connection.accepted]
    · exact h.waits hio id c hc
  acceptor := h.acceptor
  closed ht := ⟨(h.closed ht).1, by simp [(h.closed ht).2]⟩
  accepting hsome := by cases hsome
  handling _ hhandling := by cases hhandling
  late ht := by
    have hempty : s.m_connections = ∅ := by
      refine h.handling ht ((h.accepting haccepting).resolve_left ?_)
      rw [h.io_service ht]
      exact Bool.false_ne_true
    refine ⟨?_, fun _ => ⟨events, [], rfl, (h.closed ht).2⟩⟩
    simp [ConnectionManager.start, hempty]

/-- All connections are stopped. -/
theorem stop_all (h : s.Managed events) (hacceptor : s.acceptor = false) :
    (ConnectionManager.stop_all { s with stopped := true }).Managed (events ++ [.stop_all]) where
  managed id := by
    rw [connections_stop_all]
    simp only [ConnectionManager.stop_all, Finset.notMem_empty, false_iff]
    rintro ⟨c, hc, hopen⟩
    obtain ⟨c', hc', heq⟩ := Option.map_eq_some_iff.mp hc
    split_ifs at heq with hmem
    · subst heq
      cases hopen
    · subst heq
      exact hmem ((h.managed id).mpr ⟨c', hc', hopen⟩)
  waits hio := by
    have hopen := h.acceptor hio
    rw [hacceptor] at hopen
    cases hopen
  acceptor := h.acceptor
  closed _ := ⟨hacceptor, by simp⟩
  accepting := h.accepting
  handling _ _ := rfl
  late _ := ⟨by simp [ConnectionManager.stop_all], fun hne => absurd rfl hne⟩

/-- **One step.** -/
theorem step (h : s.Managed events) {event : Event} (hstep : s.step event = some t) :
    t.Managed (events ++ [event]) := by
  cases event with
  | accept ec major minor =>
    obtain ⟨hserving, ⟨hacceptor, rfl⟩ | rfl⟩ := accept_cases hstep
    · refine h.frame _ rfl rfl id (fun _ => rfl) (fun ht => ?_) (fun _ => hserving.2) fun _ => id
      rw [(h.closed ht).1] at hacceptor
      cases hacceptor
    · refine h.frame _ rfl rfl id (fun _ => rfl) (fun ht => ⟨ht, (h.closed ht).1⟩) (fun hsome => ?_)
        fun _ hhandling => by cases hhandling
      rw [hserving.1] at hsome
      cases hsome
  | started =>
    obtain ⟨major, minor, haccepting, rfl⟩ := started_cases hstep
    exact h.started (by rw [haccepting]; rfl)
  | read id ec bytes =>
    obtain ⟨c, hc, hready, rfl⟩ := read_cases hstep
    have hread : (c.onRead s.stats ec bytes).socket = c.socket ∧
        ((c.onRead s.stats ec bytes).operation = none ↔ ec.isSome = true) := by
      cases ec with
      | some e => exact ⟨rfl, by simp [Connection.onRead]⟩
      | none =>
        rw [Connection.onRead, if_pos rfl]
        rcases parse c.parser bytes with ⟨_ | _ | _, parser, rest⟩
        · exact ⟨rfl, by simp [Connection.do_write]⟩
        · exact ⟨rfl, by simp [Connection.do_write]⟩
        · exact ⟨rfl, by simp⟩
    refine h.update _ hready.1 hc hread.1 fun hrun => ?_
    obtain ⟨hopen, haborted⟩ := h.ready hrun hc hready
    exact ⟨hopen, by simpa [haborted] using hread.2⟩
  | write id ec n =>
    obtain ⟨c, hc, hready, rfl⟩ := write_cases hstep
    refine h.update _ hready.1 hc rfl fun hrun => ?_
    obtain ⟨hopen, haborted⟩ := h.ready hrun hc hready
    exact ⟨hopen, by simp [Connection.onWrite, haborted]⟩
  | measure stats =>
    obtain rfl := Option.some.inj hstep
    exact h.frame _ rfl rfl id (fun _ => rfl) (fun ht => ⟨ht, (h.closed ht).1⟩) h.accepting
      fun _ => id
  | stop busy =>
    obtain ⟨hrun, hbusy, rfl⟩ := stop_cases hstep
    refine h.frame _ rfl rfl (fun hio => by cases hio) (fun hio => by cases hio) (fun ht => ?_)
      (fun hsome => Or.inr (hbusy hsome)) fun ht => ?_
    · rw [h.io_service ht] at hrun
      cases hrun
    · rw [h.io_service ht] at hrun
      cases hrun
  | close =>
    obtain ⟨hrun, rfl⟩ := close_cases hstep
    refine h.frame _ rfl rfl id (fun hio => ?_) (fun ht => ⟨ht, rfl⟩) h.accepting fun _ => id
    rw [hrun] at hio
    cases hio
  | stop_all =>
    obtain ⟨hacceptor, rfl⟩ := stop_all_cases hstep
    exact h.stop_all hacceptor

/-- **A whole run.** -/
theorem run (stats₀ : Bytes) (events : List Event) (s : Server)
    (hrun : events.foldlM Server.step (.start stats₀) = some s) : s.Managed events := by
  refine Machine.interleaving_induction (P := fun events s => Managed events s) ?_ ?_ events s hrun
  · exact ⟨by simp [start], by simp [start], fun _ => rfl, by simp [start], by simp [start],
      by simp [start], by simp [start]⟩
  · exact fun events s event t h hstep => h.step hstep

end Managed

/-- **A connection is kept exactly as long as its socket is open.** In every state that is reached,
the manager keeps the connections whose sockets are open. While the server runs each of these
waits for something, so that it will be called back, and no callback reports an operation that
was aborted. When all connections have been stopped at most one is open, which the last handler
has started after that, and when this handler is over there are no callbacks any more. -/
theorem sockets_managed {events : List Event} {s : Server}
    (hrun : events.foldlM step (start stats₀) = some s) :
    (∀ id, id ∈ s.m_connections ↔
      ∃ c : Connection, s.connections[id]? = some c ∧ c.socket = true) ∧
    (s.io_service = true → ∀ (id : ℕ) (c : Connection), s.connections[id]? = some c →
      (c.socket = true ↔ c.operation ≠ none) ∧
      ∀ operation ec, s.Ready c operation ec → ec ≠ some .operation_aborted) ∧
    (s.stopped = true → s.m_connections.card ≤ 1 ∧
      (s.m_connections ≠ ∅ → StartedLate events) ∧
      (s.handling = false →
        ∀ event t, s.step event = some t → ∃ stats, t = { s with stats := stats })) := by
  have h := Managed.run stats₀ events s hrun
  refine ⟨h.managed, fun hio id c hc => ⟨h.waits hio id c hc, fun operation ec hready =>
    (h.ready hio hc hready).2⟩, fun hstopped => ⟨(h.late hstopped).1, (h.late hstopped).2,
      fun hhandling event t hstep => ?_⟩⟩
  have hio := h.io_service hstopped
  have hserving : ¬s.Serving := fun hserving => by simpa [hio, hhandling] using hserving.2
  cases event with
  | accept ec major minor => exact absurd (accept_cases hstep).1 hserving
  | started =>
    obtain ⟨major, minor, haccepting, -⟩ := started_cases hstep
    have hbusy := h.accepting (by rw [haccepting]; rfl)
    simp [hio, hhandling] at hbusy
  | read id ec bytes =>
    obtain ⟨c, -, hready, -⟩ := read_cases hstep
    exact absurd hready.1 hserving
  | write id ec n =>
    obtain ⟨c, -, hready, -⟩ := write_cases hstep
    exact absurd hready.1 hserving
  | measure stats => exact ⟨stats, (Option.some.inj hstep).symm⟩
  | stop busy => exact absurd (stop_cases hstep).1 (by simp [hio])
  | close =>
    rw [step, if_neg (by simp [(h.closed hstopped).1])] at hstep
    cases hstep
  | stop_all =>
    rw [step, if_neg (by simp [hstopped])] at hstep
    cases hstep

/-- A third client, whose accept is on its way when the server is stopped. -/
def thirdClient : List Event :=
  twoClients ++ [.accept none 0 0, .stop true, .close, .stop_all, .started]

/-- The second of the two clients is not kept, and the third one is the only one that is left
over. -/
theorem sockets_managed_three : ∃ s t, twoClients.foldlM step (start []) = some s ∧
    thirdClient.foldlM step (start []) = some t ∧
    (1 ∈ s.m_connections ↔ ∃ c : Connection, s.connections[1]? = some c ∧ c.socket = true) ∧
    (t.stopped = true → t.m_connections.card ≤ 1) ∧ t.stopped = true ∧ 2 ∈ t.m_connections := by
  obtain ⟨s, hs⟩ : ∃ s, twoClients.foldlM step (start []) = some s :=
    Option.isSome_iff_exists.mp (by decide +kernel)
  obtain ⟨t, ht, hend⟩ : ∃ t, thirdClient.foldlM step (start []) = some t ∧ t.stopped = true ∧
      2 ∈ t.m_connections := by
    have hany : (thirdClient.foldlM step (start [])).any
        (fun t => t.stopped && decide (2 ∈ t.m_connections)) = true := by decide +kernel
    obtain ⟨t, ht, hend⟩ := (Option.any_eq_true _ _).mp hany
    exact ⟨t, ht, by simpa using hend⟩
  exact ⟨s, t, hs, ht, (sockets_managed [] hs).1 1, fun hstopped =>
    ((sockets_managed [] ht).2.2 hstopped).1, hend⟩

end Server

end IqLogger.Http
