import IqLogger.Inputs.Gelf.Reassembly

/-!
# Which chunk counts get through

A message cut into `n` pieces and sent in order, from the datagrams to the
record the chunk thread enqueues. The chunk format allows every `n` up to 128;
what gets through is `2 ≤ n ≤ 127`
(`IqLogger.Gelf.enqueued_eq_payload_iff`). The two ends fail for different
reasons. A single chunk opens its group in the branch of the loop that does not
test for completeness (`IqLogger.Gelf.run_single`), so the group waits for its
TTL. The count byte 128 is a negative `char`, so as a `size_t` it is far above
the bound the loop checks, and all 128 chunks are dropped
(`IqLogger.Gelf.handleBulk_of_count_gt`).
-/

namespace IqLogger

namespace Gelf

/-! ### From datagrams to chunks -/

/-- Piece `k` of `n` of a message, as a datagram of the chunk format. -/
def datagram (id : Bytes) (n k : ℕ) (piece : Bytes) : Bytes :=
  [0x1e, 0x0f] ++ id ++ [UInt8.ofNat k, UInt8.ofNat n] ++ piece

/-- The datagrams of a message cut into pieces. -/
def datagrams (id : Bytes) (pieces : List Bytes) : List Bytes :=
  pieces.mapIdx (datagram id pieces.length)

/-- A session buffer after a datagram was received into it: the datagram, cut to
the size of the buffer, over what was there before. -/
def SessionBuffer.receive (buffer : SessionBuffer) (d : Bytes) : SessionBuffer :=
  ⟨(d ++ buffer.1.drop d.length).take bufferSize, by
    have h := buffer.2
    simp only [List.length_take, List.length_append, List.length_drop]
    omega⟩

/-- A list of datagrams received one after the other, each into the buffer of a
session of its own, and processed. -/
def feed (name : String) (session : ℕ → SessionBuffer × Endpoint) (ds : List Bytes) :
    ServerQueues :=
  ds.zipIdx.foldl (fun q d =>
    process name ((session d.2).1.receive d.1) (min d.1.length bufferSize) (session d.2).2 q)
    ⟨[], []⟩

/-- The chunks the pieces of a message are parsed into. -/
def chunksOf (id : Bytes) (source : ℕ → Endpoint) (pieces : List Bytes) : List GelfChunk :=
  pieces.mapIdx fun k piece =>
    ⟨id, k, sizeOfChar (UInt8.ofNat pieces.length), piece, source k⟩

variable {id : Bytes} {pieces : List Bytes}

/-- **One datagram becomes one chunk**, with the number and the count the header
conversion gives. -/
theorem process_datagram (name : String) (buffer : SessionBuffer) (source : Endpoint)
    (q : ServerQueues) (hid : id.length = 8) {n k : ℕ} (hk : k < 128) {piece : Bytes}
    (hne : piece ≠ []) (hlen : piece.length ≤ 4084) :
    process name (buffer.receive (datagram id n k piece))
        (min (datagram id n k piece).length bufferSize) source q =
      { q with chunks := q.chunks ++ [⟨id, k, sizeOfChar (UInt8.ofNat n), piece, source⟩] } := by
  have hpos : 0 < piece.length := List.length_pos_iff.mpr hne
  have hd : (datagram id n k piece).length = piece.length + 12 := by
    simp [datagram, hid]
    omega
  have hbuff : (buffer.receive (datagram id n k piece)).1.take
      (min (buffer.receive (datagram id n k piece)).1.length
        (min (datagram id n k piece).length bufferSize)) = datagram id n k piece := by
    rw [(buffer.receive _).2, hd]
    have hmin : min bufferSize (min (piece.length + 12) bufferSize) = piece.length + 12 := by
      simp only [bufferSize]
      omega
    rw [hmin, SessionBuffer.receive, List.take_take, ← hd,
      min_eq_left (by rw [hd, bufferSize]; omega), List.take_left]
  -- the bytes 0 and 1 are the magic ones, 2 to 9 the id, 10 and 11 the number and the count
  have hparse : GelfChunk.parse (datagram id n k piece) source =
      .ok ⟨id, k, sizeOfChar (UInt8.ofNat n), piece, source⟩ := by
    rw [GelfChunk.parse, if_neg (by omega)]
    have h0 : (datagram id n k piece)[0]? = some 0x1e := rfl
    have h1 : (datagram id n k piece)[1]? = some 0x0f := rfl
    have hsub : substr (datagram id n k piece) 2 8 = id := by
      simp [substr, datagram, ← hid]
    have h10 : (datagram id n k piece)[10]? = some (UInt8.ofNat k) := by
      simp [datagram, hid]
    have h11 : (datagram id n k piece)[11]? = some (UInt8.ofNat n) := by
      simp [datagram, List.getElem?_append, hid]
    have hdrop : (datagram id n k piece).drop 12 = piece := by
      have happ : datagram id n k piece =
          ([0x1e, 0x0f] ++ id ++ [UInt8.ofNat k, UInt8.ofNat n]) ++ piece := rfl
      rw [happ, List.drop_append_of_le_length (by simp [hid]),
        List.drop_of_length_le (by simp [hid]),
        List.nil_append]
    simp [h0, h1, hsub, h10, h11, hdrop, sizeOfChar_ofNat hk]
  have h2 : ¬(datagram id n k piece).length ≤ 2 := by omega
  simp only [process, hbuff, if_neg h2, hparse]
  rw [if_pos ⟨rfl, rfl⟩]

/-- The sessions of a message, all but the first `i` of them processed. -/
theorem foldl_process (name : String) (session : ℕ → SessionBuffer × Endpoint)
    (hid : id.length = 8) {n : ℕ} : ∀ (ps : List Bytes) (i : ℕ) (q : ServerQueues),
    i + ps.length ≤ 128 → (∀ p ∈ ps, p ≠ [] ∧ p.length ≤ 4084) →
    ((ps.mapIdx fun k => datagram id n (k + i)).zipIdx i).foldl (fun q d =>
        process name ((session d.2).1.receive d.1)
          (min d.1.length bufferSize) (session d.2).2 q) q =
      { q with chunks := q.chunks ++ ps.mapIdx fun k piece =>
          ⟨id, k + i, sizeOfChar (UInt8.ofNat n), piece, (session (k + i)).2⟩ }
  | [], i, q, _, _ => by simp
  | p :: ps, i, q, hi, hps => by
    have hp := hps p (by simp)
    rw [List.length_cons] at hi
    simp only [List.mapIdx_cons, Nat.zero_add, List.zipIdx_cons, List.foldl_cons,
      Nat.add_assoc, Nat.add_comm 1 i]
    rw [process_datagram name _ _ _ hid (by omega) hp.1 hp.2,
      foldl_process name session hid ps (i + 1) _ (by omega)
        fun p hp => hps p (List.mem_cons_of_mem _ hp)]
    simp

/-- **The datagrams of a message end in the chunk queue**, in order, and nothing
in the input queue. -/
theorem feed_datagrams (name : String) (session : ℕ → SessionBuffer × Endpoint)
    (hid : id.length = 8) (hlen : pieces.length ≤ 128)
    (hpieces : ∀ p ∈ pieces, p ≠ [] ∧ p.length ≤ 4084) :
    feed name session (datagrams id pieces) =
      ⟨[], chunksOf id (fun k => (session k).2) pieces⟩ := by
  have h := foldl_process name session hid (n := pieces.length) pieces 0 ⟨[], []⟩ (by omega) hpieces
  simpa [feed, datagrams, chunksOf] using h

/-! ### The two ends of the range -/

section Ends

variable {name : String} {ttl : ℕ}

/-- Chunks whose count is above the bound are dropped. -/
theorem handleBulk_of_count_gt : ∀ (bulk : List (GelfChunk × TimePoint)) (s : ChunkLoop),
    (∀ c ∈ bulk.map Prod.fst, 128 < c.sequenceCount) → s.handleBulk name bulk = s
  | [], _, _ => rfl
  | c :: bulk, s, h => by
    have hc : s.handleChunk name c.2 c.1 = s := if_pos (h c.1 (by simp))
    have hcons : s.handleBulk name (c :: bulk) =
        (s.handleChunk name c.2 c.1).handleBulk name bulk := rfl
    rw [hcons, hc]
    exact handleBulk_of_count_gt bulk s fun d hd => h d (by simp [hd])

/-- A single chunk only opens a group: no record is enqueued, whatever its
count. -/
theorem run_single {its : List Iteration} {c : GelfChunk} (hits : dequeued its = [c])
    (hexp : ChunkLoop.start.NoneExpires name ttl its) :
    (ChunkLoop.start.run name ttl its).enqueued = [] := by
  obtain ⟨t, ht⟩ : ∃ t, its.flatMap Iteration.bulk = [(c, t)] := by
    have hmap : (its.flatMap Iteration.bulk).map Prod.fst = [c] := by
      rw [← dequeued_eq_map, hits]
    obtain ⟨⟨c', t⟩, hb, rfl⟩ := List.map_eq_singleton_iff.mp hmap
    exact ⟨t, hb⟩
  rw [run_eq_handleBulk its hexp, ht]
  simp only [ChunkLoop.handleBulk, List.foldl_cons, List.foldl_nil, ChunkLoop.handleChunk,
    ChunkLoop.start]
  split_ifs <;> simp

end Ends

/-! ### The counts in between -/

section Between

variable {source : ℕ → Endpoint}

theorem mem_chunksOf {c : GelfChunk} (hc : c ∈ chunksOf id source pieces) :
    c.messageId = id ∧ c.sequenceNumber < pieces.length ∧
      c.sequenceCount = sizeOfChar (UInt8.ofNat pieces.length) := by
  obtain ⟨k, hk, rfl⟩ := List.mem_mapIdx.mp hc
  exact ⟨rfl, hk, rfl⟩

theorem map_sequenceNumber_chunksOf :
    (chunksOf id source pieces).map GelfChunk.sequenceNumber = List.range pieces.length := by
  refine List.ext_getElem (by simp [chunksOf]) fun k _ _ => ?_
  simp [chunksOf]

theorem map_chunk_chunksOf : (chunksOf id source pieces).map GelfChunk.chunk = pieces := by
  refine List.ext_getElem (by simp [chunksOf]) fun k _ _ => ?_
  simp [chunksOf]

theorem ofId_chunksOf : ofId (chunksOf id source pieces) id = chunksOf id source pieces :=
  List.filter_eq_self.mpr fun _ hc => by simpa using (mem_chunksOf hc).1

theorem wellFormed_chunksOf (h2 : 2 ≤ pieces.length) (h127 : pieces.length ≤ 127) :
    WellFormed (chunksOf id source pieces) := by
  have hsize : sizeOfChar (UInt8.ofNat pieces.length) = pieces.length := sizeOfChar_ofNat (by omega)
  refine ⟨fun c hc d hd _ => ?_, fun c hc => ?_, fun c hc => ?_, ?_⟩
  · rw [(mem_chunksOf hc).2.2, (mem_chunksOf hd).2.2]
  · rw [(mem_chunksOf hc).2.2, hsize]
    exact ⟨h2, h127⟩
  · rw [(mem_chunksOf hc).2.2, hsize]
    exact (mem_chunksOf hc).2.1
  · refine List.Nodup.of_map Prod.snd ?_
    rw [List.map_map]
    exact map_sequenceNumber_chunksOf ▸ List.nodup_range

/-- The chunks of a message are complete, and their message is the payload. -/
theorem completeIds_chunksOf (h2 : 2 ≤ pieces.length) (h127 : pieces.length ≤ 127) :
    (completeIds (chunksOf id source pieces)).val.map (message (chunksOf id source pieces)) =
      {pieces.flatten} := by
  have hwf : WellFormed (chunksOf id source pieces) := wellFormed_chunksOf h2 h127
  have hsize : sizeOfChar (UInt8.ofNat pieces.length) = pieces.length := sizeOfChar_ofNat (by omega)
  obtain ⟨c, hc⟩ : ∃ c, c ∈ chunksOf id source pieces :=
    List.exists_mem_of_length_pos (by simp [chunksOf]; omega)
  have hcomp : Complete (chunksOf id source pieces) id := by
    refine (complete_iff_length hwf (c := c) (by rwa [ofId_chunksOf])).mpr ?_
    rw [ofId_chunksOf, (mem_chunksOf hc).2.2, hsize]
    simp [chunksOf]
  have hids : completeIds (chunksOf id source pieces) = {id} := by
    ext id'
    rw [mem_completeIds, Finset.mem_singleton]
    refine ⟨?_, fun h => h ▸ hcomp⟩
    rintro ⟨d, hd, -⟩
    exact (mem_ofId.mp hd).2.symm.trans (mem_chunksOf (mem_ofId.mp hd).1).1
  -- in the order of their numbers, which is the one they are received in
  have hsorted : (chunksOf id source pieces).Pairwise
      fun c d => c.sequenceNumber ≤ d.sequenceNumber := by
    refine List.pairwise_map.mp ?_
    rw [map_sequenceNumber_chunksOf]
    exact List.pairwise_le_range
  have hmessage : message (chunksOf id source pieces) id = pieces.flatten := by
    rw [message, inOrder, ofId_chunksOf, hsorted.insertionSort_eq, map_chunk_chunksOf]
  rw [hids, Finset.singleton_val, Multiset.map_singleton, hmessage]

end Between

/-- **The chunk counts that get through are those from 2 to 127.** A message cut
into at most 128 non-empty pieces that fit the session buffer, received in
order, ends as one record carrying the whole payload exactly when it has at
least two pieces and at most 127. -/
theorem enqueued_eq_payload_iff (name : String) (ttl : ℕ)
    (session : ℕ → SessionBuffer × Endpoint) (hid : id.length = 8) (h1 : 1 ≤ pieces.length)
    (h128 : pieces.length ≤ 128) (hpieces : ∀ p ∈ pieces, p ≠ [] ∧ p.length ≤ 4084)
    {its : List Iteration}
    (hits : dequeued its = (feed name session (datagrams id pieces)).chunks)
    (hexp : ChunkLoop.start.NoneExpires name ttl its) :
    ((feed name session (datagrams id pieces)).records ++
        (ChunkLoop.start.run name ttl its).enqueued).map InputRecord.data = [pieces.flatten] ↔
      2 ≤ pieces.length ∧ pieces.length ≤ 127 := by
  rw [feed_datagrams name session hid h128 hpieces] at hits ⊢
  rw [List.nil_append]
  constructor
  · intro henq
    refine ⟨?_, ?_⟩
    · by_contra hlt
      obtain ⟨piece, rfl⟩ := List.length_eq_one_iff.mp (by omega : pieces.length = 1)
      rw [run_single hits hexp] at henq
      simp at henq
    · by_contra hgt
      have hlen : pieces.length = 128 := by omega
      have hcount : ∀ c ∈ (its.flatMap Iteration.bulk).map Prod.fst, 128 < c.sequenceCount := by
        rw [← dequeued_eq_map, hits]
        intro c hc
        rw [(mem_chunksOf hc).2.2, hlen]
        decide
      rw [run_eq_handleBulk its hexp, handleBulk_of_count_gt _ _ hcount] at henq
      simp [ChunkLoop.start] at henq
  · rintro ⟨h2, h127⟩
    have hwf : WellFormed (dequeued its) := hits ▸ wellFormed_chunksOf h2 h127
    have henq := (reassembled_run hwf hexp).enqueued
    rw [hits, completeIds_chunksOf h2 h127] at henq
    exact Multiset.coe_eq_singleton.mp henq

/-- A message in two pieces. -/
theorem enqueued_eq_payload_two_pieces :
    let session := fun _ => (⟨List.replicate bufferSize 0, by simp⟩, ⟨"127.0.0.1", 40000⟩)
    let q := feed "udp" session (datagrams (ascii "0000abcd") [ascii "hello ", ascii "world"])
    let its : List Iteration := [⟨q.chunks.map fun c => (c, 0), 1⟩]
    (q.records ++ (ChunkLoop.start.run "udp" 5 its).enqueued).map InputRecord.data =
      [ascii "hello world"] := by
  intro session q its
  have hfeed : q = ⟨[], chunksOf _ _ _⟩ :=
    feed_datagrams "udp" session (by decide) (by decide) (by decide)
  have hexp : ChunkLoop.start.NoneExpires "udp" 5 its := by
    simp only [its, hfeed]
    decide
  exact (enqueued_eq_payload_iff "udp" 5 session (by decide) (by decide) (by decide) (by decide)
    (by simp [its, q, dequeued, List.map_map, Function.comp_def]) hexp).mpr (by decide)

/-- **A message in one piece is not delivered**: the single chunk `h` of id
`0000abcd`, with number 0 and count 1, leaves both queues without a record. -/
theorem single_chunk_not_enqueued :
    let session := fun _ => (⟨List.replicate bufferSize 0, by simp⟩, ⟨"127.0.0.1", 40000⟩)
    let q := feed "udp" session (datagrams (ascii "0000abcd") [ascii "h"])
    let its : List Iteration := [⟨q.chunks.map fun c => (c, 0), 1⟩]
    dequeued its = q.chunks ∧ ChunkLoop.start.NoneExpires "udp" 5 its ∧
      (q.records ++ (ChunkLoop.start.run "udp" 5 its).enqueued).map InputRecord.data ≠
        [ascii "h"] := by
  intro session q its
  have hfeed : q = ⟨[], chunksOf _ _ _⟩ :=
    feed_datagrams "udp" session (by decide) (by decide) (by decide)
  simp only [its, hfeed]
  decide

end Gelf

end IqLogger
