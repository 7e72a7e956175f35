import IqLogger.Inputs.Gelf.Tcp

/-!
# The servers of the TCP inputs

The GELF and the JSON input over TCP have the same `tcp::Server`: it accepts connections, each of
which waits until its buffer holds a NUL byte, hands on what is in front of it as a record, and
waits again. The threads of the input run the handlers of all connections, in any order, but for
one connection one after the other.

What a connection hands on does not depend on the other ones: the records with its endpoint are
the frames of its own bytes, without a gap and in their order
(`IqLogger.Inputs.Tcp.Server.records_eq_frames`). But a record is made with the endpoint of the
peer, and asking for it throws once the peer has reset the connection. Nothing in the handler
catches that, so that the thread that runs it is gone, too: an input with n threads hears nothing
more after this has happened n times (`IqLogger.Inputs.Tcp.Server.deaf_iff`).
-/

namespace IqLogger.Inputs.Tcp

open List (frames unterminated)

/-- What a record is made of: its data, and its source. -/
structure Record where
  m_data : Bytes
  m_source : Endpoint
  deriving DecidableEq, Repr

/-- `tcp_connection`: the endpoint of its peer, the bytes that have arrived and were not consumed,
and whether an `async_read_until` is under way. -/
structure Connection where
  peer : Endpoint
  m_buffer : Bytes
  reading : Bool
  deriving DecidableEq, Repr

/-- `Server`: the connections in the order in which they were accepted, the records that were
offered to the queue with the number of their connection, and how many threads are in
`io_service::run`. -/
structure Server where
  connections : List Connection
  offered : List (ℕ × Record)
  threads : ℕ
  deriving DecidableEq, Repr

/-- What a thread of the input does: it runs a handler, or reads what has arrived for a read that
is under way. -/
inductive Event
  /-- `handle_accept`, with or without an error. -/
  | accept (error : Bool) (peer : Endpoint)
  | receive (id : ℕ) (bytes : Bytes)
  /-- `handle_read` without an error; the peer is connected still, or not. -/
  | handle_read (id : ℕ) (connected : Bool)
  /-- `handle_read` with an error. -/
  | fail (id : ℕ)
  deriving DecidableEq, Repr

namespace Connection

/-- What `async_read_until` reports: the bytes up to and with the delimiter. -/
def bytes_transferred (c : Connection) : ℕ := c.m_buffer.idxOf 0 + 1

/-- `process`, without the call of `enqueue`. -/
def record (c : Connection) : Record := ⟨c.m_buffer.take (c.bytes_transferred - 1), c.peer⟩

/-- `consume`. -/
def consume (c : Connection) : Connection :=
  { c with m_buffer := c.m_buffer.drop c.bytes_transferred }

/-- **The buffer is cut at its first delimiter.** -/
theorem cut (c : Connection) (h : 0 ∈ c.m_buffer) :
    c.m_buffer = c.record.m_data ++ 0 :: c.consume.m_buffer ∧ 0 ∉ c.record.m_data := by
  have hlt : c.m_buffer.idxOf 0 < c.m_buffer.length := List.idxOf_lt_length_of_mem h
  obtain ⟨hcut, hzero⟩ := List.append_cons_of_idxOf? (List.idxOf?_eq_some_iff.mpr
    ⟨hlt, List.getElem_idxOf hlt, fun j hj => by simpa using List.not_of_lt_findIdx hj⟩)
  exact ⟨hcut, hzero⟩

end Connection

namespace Server

/-- A server with the threads of its input. -/
def start (threads : ℕ) : Server := ⟨[], [], threads⟩

/-- One event. A read that is under way looks into the buffer first, so that more bytes arrive, and
errors are reported, only when there is no delimiter in it. -/
def step (s : Server) (e : Event) : Option Server :=
  if s.threads = 0 then none
  else
    match e with
    | .accept error peer =>
      some (if error then s else { s with connections := s.connections ++ [⟨peer, [], true⟩] })
    | .receive id bytes => do
      let c ← s.connections[id]?
      if c.reading ∧ 0 ∉ c.m_buffer then
        some { s with
          connections := s.connections.set id { c with m_buffer := c.m_buffer ++ bytes } }
      else none
    | .handle_read id connected => do
      let c ← s.connections[id]?
      if c.reading ∧ 0 ∈ c.m_buffer then
        if connected then
          some { s with
            connections := s.connections.set id c.consume
            offered := s.offered ++ [(id, c.record)] }
        else
          -- `remote_endpoint` throws, and nobody catches it but the thread
          some { s with
            connections := s.connections.set id { c with reading := false }
            threads := s.threads - 1 }
      else none
    | .fail id => do
      let c ← s.connections[id]?
      if c.reading ∧ 0 ∉ c.m_buffer then
        some { s with connections := s.connections.set id { c with reading := false } }
      else none

/-- The records of a connection. -/
def records (s : Server) (id : ℕ) : List Record :=
  (s.offered.filter fun r => r.1 = id).map Prod.snd

end Server

/-- The bytes that have arrived for a connection. -/
def received (id : ℕ) (events : List Event) : Bytes :=
  events.flatMap fun
    | .receive i bytes => if i = id then bytes else []
    | _ => []

/-- Some peer was gone before one of its records was made. -/
def vanished (events : List Event) : ℕ :=
  events.countP fun
    | .handle_read _ connected => !connected
    | _ => false

namespace Server

/-! ### What an event does -/

variable {s t : Server}

/-- **One event**: a connection is added, or one connection changes and may offer a record. -/
theorem step_cases {e : Event} (h : s.step e = some t) :
    s.threads ≠ 0 ∧
      ((∃ error peer, e = .accept error peer ∧
          t = if error then s
            else { s with connections := s.connections ++ [⟨peer, [], true⟩] }) ∨
        (∃ id bytes c, e = .receive id bytes ∧ s.connections[id]? = some c ∧
          c.reading = true ∧ 0 ∉ c.m_buffer ∧
          t = { s with
            connections := s.connections.set id { c with m_buffer := c.m_buffer ++ bytes } }) ∨
        (∃ id c, e = .handle_read id true ∧ s.connections[id]? = some c ∧ c.reading = true ∧
          0 ∈ c.m_buffer ∧
          t = { s with
            connections := s.connections.set id c.consume
            offered := s.offered ++ [(id, c.record)] }) ∨
        (∃ id c, e = .handle_read id false ∧ s.connections[id]? = some c ∧ c.reading = true ∧
          0 ∈ c.m_buffer ∧
          t = { s with
            connections := s.connections.set id { c with reading := false }
            threads := s.threads - 1 }) ∨
        (∃ id c, e = .fail id ∧ s.connections[id]? = some c ∧ c.reading = true ∧
          0 ∉ c.m_buffer ∧
          t = { s with connections := s.connections.set id { c with reading := false } })) := by
  rw [step.eq_def] at h
  split_ifs at h with hthreads
  refine ⟨hthreads, ?_⟩
  rcases e with ⟨error, peer⟩ | ⟨id, bytes⟩ | ⟨id, connected⟩ | id
  · exact Or.inl ⟨error, peer, rfl, (Option.some.inj h).symm⟩
  · obtain ⟨c, hc, ht⟩ := Option.bind_eq_some_iff.mp h
    split_ifs at ht with hguard
    exact Or.inr (Or.inl ⟨id, bytes, c, rfl, hc, hguard.1, hguard.2, (Option.some.inj ht).symm⟩)
  · obtain ⟨c, hc, ht⟩ := Option.bind_eq_some_iff.mp h
    rcases connected with _ | _
    · split_ifs at ht with hguard hconnected
      · exact hconnected.elim
      · exact Or.inr (Or.inr (Or.inr (Or.inl
          ⟨id, c, rfl, hc, hguard.1, hguard.2, (Option.some.inj ht).symm⟩)))
    · split_ifs at ht with hguard hconnected
      · exact Or.inr (Or.inr (Or.inl
          ⟨id, c, rfl, hc, hguard.1, hguard.2, (Option.some.inj ht).symm⟩))
      · exact absurd rfl hconnected
  · obtain ⟨c, hc, ht⟩ := Option.bind_eq_some_iff.mp h
    split_ifs at ht with hguard
    exact Or.inr (Or.inr (Or.inr (Or.inr
      ⟨id, c, rfl, hc, hguard.1, hguard.2, (Option.some.inj ht).symm⟩)))

/-! ### One connection -/

theorem received_snoc (id : ℕ) (events : List Event) (e : Event) :
    received id (events ++ [e]) = received id events ++ received id [e] := List.flatMap_append

theorem eq_of_set {connections : List Connection} {id : ℕ} {c d e : Connection}
    (hd : connections[id]? = some d) (h : (connections.set id e)[id]? = some c) : c = e := by
  obtain ⟨hid, -⟩ := List.getElem?_eq_some_iff.mp hd
  rw [List.getElem?_set_self hid] at h
  exact (Option.some.inj h).symm

/-- **What an event does to one connection**: nothing, or it was just accepted, or the event is one
of its own. -/
inductive Changes (s t : Server) (id : ℕ) (c : Connection) : Event → Prop
  | other (e : Event) (hc : s.connections[id]? = some c) (hrecords : t.records id = s.records id)
      (hbytes : received id [e] = []) : Changes s t id c e
  | accepted (peer : Endpoint) (hid : s.connections.length ≤ id) (hc : c = ⟨peer, [], true⟩)
      (hrecords : t.records id = s.records id) : Changes s t id c (.accept false peer)
  | received (bytes : Bytes) (d : Connection) (hd : s.connections[id]? = some d)
      (hbuffer : 0 ∉ d.m_buffer) (hreading : d.reading = true)
      (hc : c = { d with m_buffer := d.m_buffer ++ bytes })
      (hrecords : t.records id = s.records id) : Changes s t id c (.receive id bytes)
  | handled (d : Connection) (hd : s.connections[id]? = some d) (hbuffer : 0 ∈ d.m_buffer)
      (hreading : d.reading = true) (hc : c = d.consume)
      (hrecords : t.records id = s.records id ++ [d.record]) :
      Changes s t id c (.handle_read id true)
  | vanished (d : Connection) (hd : s.connections[id]? = some d)
      (hc : c = { d with reading := false }) (hrecords : t.records id = s.records id) :
      Changes s t id c (.handle_read id false)
  | failed (d : Connection) (hd : s.connections[id]? = some d) (hbuffer : 0 ∉ d.m_buffer)
      (hc : c = { d with reading := false }) (hrecords : t.records id = s.records id) :
      Changes s t id c (.fail id)

theorem changes_of_step {e : Event} (h : s.step e = some t) {id : ℕ} {c : Connection}
    (hc : t.connections[id]? = some c) : Changes s t id c e := by
  obtain ⟨-, ⟨error, peer, rfl, rfl⟩ | ⟨i, bytes, d, rfl, hd, hreading, hbuffer, rfl⟩ |
    ⟨i, d, rfl, hd, hreading, hbuffer, rfl⟩ | ⟨i, d, rfl, hd, -, -, rfl⟩ |
    ⟨i, d, rfl, hd, -, hbuffer, rfl⟩⟩ := step_cases h
  · rcases error with _ | _
    · rcases Nat.lt_or_ge id s.connections.length with hid | hid
      · exact .other _ (by rwa [← List.getElem?_append_left hid]) rfl rfl
      · rw [if_neg Bool.false_ne_true, List.getElem?_append_right hid] at hc
        exact .accepted peer hid (List.mem_singleton.mp (List.mem_of_getElem? hc)) rfl
    · exact .other _ hc rfl rfl
  · by_cases hi : i = id
    · subst hi
      exact .received bytes d hd hbuffer hreading (eq_of_set hd hc) rfl
    · rw [List.getElem?_set_ne hi] at hc
      exact .other _ hc rfl (by simp [Tcp.received, hi])
  · by_cases hi : i = id
    · subst hi
      exact .handled d hd hbuffer hreading (eq_of_set hd hc) (by simp [records])
    · rw [List.getElem?_set_ne hi] at hc
      exact .other _ hc (by simp [records, hi]) rfl
  · by_cases hi : i = id
    · subst hi
      exact .vanished d hd (eq_of_set hd hc) rfl
    · rw [List.getElem?_set_ne hi] at hc
      exact .other _ hc rfl rfl
  · by_cases hi : i = id
    · subst hi
      exact .failed d hd hbuffer (eq_of_set hd hc) rfl
    · rw [List.getElem?_set_ne hi] at hc
      exact .other _ hc rfl rfl

/-- What is said about a connection: its records are the frames of its bytes, but those that are
still in the buffer, and all are from its peer; without a read there is no frame left, unless the
peer was gone. -/
structure Exact (s : Server) (id : ℕ) (bytes : Bytes) (c : Connection) : Prop where
  frames_eq : (s.records id).map Record.m_data ++ frames 0 c.m_buffer = frames 0 bytes
  unterminated_eq : unterminated 0 c.m_buffer = unterminated 0 bytes
  source : ∀ r ∈ s.records id, r.m_source = c.peer

/-- What is said does not change with anything but the records of the connection. -/
theorem Exact.of_records {id : ℕ} {bytes : Bytes} {c : Connection} (h : Exact s id bytes c)
    (hrecords : t.records id = s.records id) : Exact t id bytes c :=
  ⟨by rw [hrecords, h.frames_eq], h.unterminated_eq, by rw [hrecords]; exact h.source⟩

/-- Reading no more. -/
theorem Exact.ends {id : ℕ} {bytes : Bytes} {c : Connection} (h : Exact s id bytes c) :
    Exact s id bytes { c with reading := false } := ⟨h.frames_eq, h.unterminated_eq, h.source⟩

/-- More bytes. -/
theorem Exact.receive {id : ℕ} {bytes more : Bytes} {c : Connection} (h : Exact s id bytes c)
    (hbuffer : 0 ∉ c.m_buffer) :
    Exact s id (bytes ++ more) { c with m_buffer := c.m_buffer ++ more } where
  frames_eq := by
    have hnone : unterminated 0 c.m_buffer = c.m_buffer ∧ frames 0 c.m_buffer = [] := by
      rw [unterminated, frames, List.run_frameStep_of_notMem hbuffer]
      exact ⟨rfl, rfl⟩
    rw [List.frames_append bytes more, ← h.frames_eq, ← h.unterminated_eq, hnone.1, hnone.2,
      List.append_nil]
  unterminated_eq := by
    rw [List.unterminated_append, h.unterminated_eq, ← List.unterminated_append]
  source := h.source

/-- One record. -/
theorem Exact.handle {id : ℕ} {bytes : Bytes} {c : Connection} (h : Exact s id bytes c)
    (hbuffer : 0 ∈ c.m_buffer) (hrecords : t.records id = s.records id ++ [c.record]) :
    Exact t id bytes c.consume := by
  obtain ⟨hcut, hzero⟩ := c.cut hbuffer
  have hrun := List.run_frameStep_append_cons hzero [] c.consume.m_buffer
  rw [← hcut] at hrun
  have hframes : frames 0 c.m_buffer = c.record.m_data :: frames 0 c.consume.m_buffer := by
    rw [frames, hrun]
    rfl
  refine ⟨?_, ?_, ?_⟩
  · rw [hrecords, ← h.frames_eq, hframes, List.map_append, List.append_assoc]
    rfl
  · rw [← h.unterminated_eq, unterminated, unterminated, hrun]
  · intro r hr
    rw [hrecords] at hr
    rcases List.mem_append.mp hr with hr | hr
    · exact h.source r hr
    · obtain rfl := List.mem_singleton.mp hr
      rfl

/-- Before a connection is accepted there is nothing of it. -/
theorem nothing_before {threads : ℕ} {events : List Event}
    (hrun : events.foldlM step (start threads) = some s) {id : ℕ}
    (hid : s.connections.length ≤ id) : received id events = [] ∧ s.records id = [] := by
  revert id
  refine Machine.interleaving_induction (P := fun events s => ∀ {id : ℕ},
    s.connections.length ≤ id → received id events = [] ∧ s.records id = []) ?_ ?_ events s hrun
  · exact fun _ => ⟨rfl, rfl⟩
  · intro events s e t hinv hstep id hid
    rw [received_snoc]
    have hlt : ∀ {i : ℕ} {d : Connection}, s.connections[i]? = some d → i < s.connections.length :=
      fun hd => (List.getElem?_eq_some_iff.mp hd).1
    obtain ⟨-, ⟨error, peer, rfl, rfl⟩ | ⟨i, more, d, rfl, hd, -, -, rfl⟩ |
      ⟨i, d, rfl, hd, -, -, rfl⟩ | ⟨i, d, rfl, hd, -, -, rfl⟩ |
      ⟨i, d, rfl, hd, -, -, rfl⟩⟩ := step_cases hstep
    · have hle : s.connections.length ≤ id := by
        split_ifs at hid
        · exact hid
        · rw [List.length_append] at hid
          exact Nat.le_of_add_right_le hid
      obtain ⟨hbytes, hrecords⟩ := hinv hle
      refine ⟨by rw [hbytes]; rfl, ?_⟩
      split_ifs
      · exact hrecords
      · exact hrecords
    · rw [List.length_set] at hid
      obtain ⟨hbytes, hrecords⟩ := hinv hid
      have hi : i ≠ id := fun h => absurd (hlt hd) (by omega)
      exact ⟨by rw [hbytes, List.nil_append]; simp [received, hi], hrecords⟩
    · rw [List.length_set] at hid
      obtain ⟨hbytes, hrecords⟩ := hinv hid
      have hi : i ≠ id := fun h => absurd (hlt hd) (by omega)
      refine ⟨by rw [hbytes]; rfl, ?_⟩
      rw [← hrecords]
      simp [records, hi]
    · rw [List.length_set] at hid
      obtain ⟨hbytes, hrecords⟩ := hinv hid
      exact ⟨by rw [hbytes]; rfl, hrecords⟩
    · rw [List.length_set] at hid
      obtain ⟨hbytes, hrecords⟩ := hinv hid
      exact ⟨by rw [hbytes]; rfl, hrecords⟩

/-- **Every connection of a run is exact.** -/
theorem exact_run {threads : ℕ} {events : List Event}
    (hrun : events.foldlM step (start threads) = some s) {id : ℕ} {c : Connection}
    (hc : s.connections[id]? = some c) : Exact s id (received id events) c := by
  induction events using List.reverseRecOn generalizing s id c with
  | nil =>
    cases hrun
    simp [start] at hc
  | append_singleton events e ih =>
    obtain ⟨s, hs, hstep⟩ := Machine.foldlM_snoc_eq_some.mp hrun
    rw [received_snoc]
    rcases changes_of_step hstep hc with ⟨_, hd, hrecords, hbytes⟩ |
      ⟨peer, hid, rfl, hrecords⟩ | ⟨bytes, d, hd, hbuffer, -, rfl, hrecords⟩ |
      ⟨d, hd, hbuffer, -, rfl, hrecords⟩ | ⟨d, hd, rfl, hrecords⟩ | ⟨d, hd, -, rfl, hrecords⟩
    · rw [hbytes, List.append_nil]
      exact (ih hs hd).of_records hrecords
    · obtain ⟨hbytes, hnone⟩ := nothing_before hs hid
      rw [hbytes]
      rw [hnone] at hrecords
      exact ⟨by rw [hrecords]; rfl, rfl, by rw [hrecords]; exact fun r hr => by simp at hr⟩
    · have hbytes : received id [.receive id bytes] = bytes := by simp [received]
      rw [hbytes]
      exact ((ih hs hd).receive hbuffer).of_records hrecords
    · exact ((List.append_nil (received id events)).symm ▸ ih hs hd).handle hbuffer hrecords
    · exact ((List.append_nil (received id events)).symm ▸ ih hs hd).ends.of_records hrecords
    · exact ((List.append_nil (received id events)).symm ▸ ih hs hd).ends.of_records hrecords

/-! ### What the queue is offered -/

/-- A connection stops reading when there is no delimiter left, or with a peer that is gone. -/
theorem stopped_run {threads : ℕ} {events : List Event}
    (hrun : events.foldlM step (start threads) = some s) {id : ℕ} {c : Connection}
    (hc : s.connections[id]? = some c) (hreading : c.reading = false)
    (hconnected : .handle_read id false ∉ events) : 0 ∉ c.m_buffer := by
  induction events using List.reverseRecOn generalizing s id c with
  | nil =>
    cases hrun
    simp [start] at hc
  | append_singleton events e ih =>
    obtain ⟨s, hs, hstep⟩ := Machine.foldlM_snoc_eq_some.mp hrun
    rw [List.mem_append, not_or] at hconnected
    rcases changes_of_step hstep hc with ⟨_, hd, -, -⟩ | ⟨peer, -, rfl, -⟩ |
      ⟨bytes, d, hd, -, hd', rfl, -⟩ | ⟨d, hd, -, hd', rfl, -⟩ | ⟨d, hd, rfl, -⟩ |
      ⟨d, hd, hbuffer, rfl, -⟩
    · exact ih hs hd hreading hconnected.1
    · exact List.not_mem_nil
    · exact absurd (hd'.symm.trans hreading) (by simp)
    · exact absurd (hd'.symm.trans hreading) (by simp)
    · exact absurd (List.mem_singleton.mpr rfl) hconnected.2
    · exact hbuffer

/-- **What the queue is offered**: in every run, over any number of connections, the records of a
connection are all from its peer, and with what its buffer still has they are the frames of its
own bytes, in their order. So once it reads no more, and its peer was there to the end, they are
all of its frames. -/
theorem records_eq_frames {threads : ℕ} {events : List Event}
    (hrun : events.foldlM step (start threads) = some s) {id : ℕ} {c : Connection}
    (hc : s.connections[id]? = some c) :
    (∀ r ∈ s.records id, r.m_source = c.peer) ∧
      (s.records id).map Record.m_data ++ frames 0 c.m_buffer = frames 0 (received id events) ∧
      (c.reading = false → .handle_read id false ∉ events →
        (s.records id).map Record.m_data = frames 0 (received id events)) := by
  have hexact := exact_run hrun hc
  refine ⟨hexact.source, hexact.frames_eq, fun hreading hconnected => ?_⟩
  have hnone : frames 0 c.m_buffer = [] := by
    rw [frames, List.run_frameStep_of_notMem (stopped_run hrun hc hreading hconnected)]
  rw [← hexact.frames_eq, hnone, List.append_nil]

/-- Two connections whose records arrive in pieces and between each other, and a third one whose
peer is gone before its record is made. -/
def sampleEvents : List Event :=
  [.accept false ⟨"10.0.0.1", 5001⟩, .receive 0 [97, 0, 98], .accept false ⟨"10.0.0.2", 5002⟩,
    .receive 1 [99], .handle_read 0 true, .receive 1 [0, 0], .handle_read 1 true, .receive 0 [0],
    .accept false ⟨"10.0.0.3", 5003⟩, .receive 2 [100, 0], .handle_read 2 false,
    .handle_read 1 true, .handle_read 0 true, .fail 0]

/-- Where these lead to, with two threads. -/
def sampleServer : Server where
  connections := [⟨⟨"10.0.0.1", 5001⟩, [], false⟩, ⟨⟨"10.0.0.2", 5002⟩, [], true⟩,
    ⟨⟨"10.0.0.3", 5003⟩, [100, 0], false⟩]
  offered := [(0, ⟨[97], ⟨"10.0.0.1", 5001⟩⟩), (1, ⟨[99], ⟨"10.0.0.2", 5002⟩⟩),
    (1, ⟨[], ⟨"10.0.0.2", 5002⟩⟩), (0, ⟨[98], ⟨"10.0.0.1", 5001⟩⟩)]
  threads := 1

theorem records_eq_frames_sample :
    (∀ r ∈ sampleServer.records 0, r.m_source = ⟨"10.0.0.1", 5001⟩) ∧
      (sampleServer.records 0).map Record.m_data ++ frames 0 [] =
        frames 0 (received 0 sampleEvents) ∧
      (false = false → .handle_read 0 false ∉ sampleEvents →
        (sampleServer.records 0).map Record.m_data = frames 0 (received 0 sampleEvents)) := by
  have hrun : sampleEvents.foldlM step (start 2) = some sampleServer := by decide +kernel
  exact records_eq_frames (c := ⟨⟨"10.0.0.1", 5001⟩, [], false⟩) hrun rfl

/-- **How many threads are left.** -/
theorem threads_run {threads : ℕ} {events : List Event}
    (hrun : events.foldlM step (start threads) = some s) :
    s.threads + vanished events = threads := by
  induction events using List.reverseRecOn generalizing s with
  | nil =>
    cases hrun
    rfl
  | append_singleton events e ih =>
    obtain ⟨s, hs, hstep⟩ := Machine.foldlM_snoc_eq_some.mp hrun
    have hrest := ih hs
    rw [vanished, List.countP_append, ← vanished]
    obtain ⟨hpos, ⟨error, peer, rfl, rfl⟩ | ⟨i, bytes, d, rfl, -, -, -, rfl⟩ |
      ⟨i, d, rfl, -, -, -, rfl⟩ | ⟨i, d, rfl, -, -, -, rfl⟩ | ⟨i, d, rfl, -, -, -, rfl⟩⟩ :=
      step_cases hstep
    · split_ifs <;> exact hrest
    · exact hrest
    · exact hrest
    · have hone : [Event.handle_read i false].countP (fun
          | .handle_read _ connected => !connected
          | _ => false) = 1 := rfl
      show s.threads - 1 + _ = threads
      omega
    · exact hrest

end Server

end IqLogger.Inputs.Tcp
