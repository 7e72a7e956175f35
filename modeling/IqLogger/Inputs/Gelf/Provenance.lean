import Mathlib.Data.List.Nodup
import Mathlib.Logic.Function.Basic
import IqLogger.Inputs.Gelf.Udp
import IqLogger.Lib.Tables

/-!
# Where enqueued payloads come from

Nothing is assumed of the chunks here: numbers may repeat with other contents,
counts may contradict each other, an id may come back after its group was
completed or has expired. What remains true is that the chunk thread invents
nothing. Every payload it enqueues is put together from chunks it has received,
of one id and one count `n`, numbered `0, 1, …, n - 1`, and no received chunk
goes into two payloads (`IqLogger.Gelf.enqueued_of_received`).

"A received chunk" is a position in the list of chunks dequeued so far, since
equal chunks may be received more than once. The invariant
`IqLogger.Gelf.Accounted` keeps two accounts of these positions: `used` lists, for
each enqueued record, the positions its pieces came from, and `pos` gives, for
each number of each open group, the position of the chunk that is held under it.
The accounts never overlap, and within an open group they cannot: a position
determines the chunk, hence the id and the number. A chunk that replaces another
one of the same number only changes `pos`, a group that is completed moves its
positions from `pos` to `used`, and a group that expires just leaves
(`IqLogger.Gelf.Accounted.of_sub`), whichever groups expire.
-/

namespace IqLogger

namespace Gelf

variable {C : List GelfChunk} {c : GelfChunk} {r : InputRecord} {s s' : ChunkLoop}

/-! ### The statement -/

/-- The chunks `cs` **make up** the record `r`: one id, one count, which is their
number, the numbers `0, 1, 2, …` in this order, and the payload is their pieces
in this order. -/
structure MakesUp (cs : List GelfChunk) (r : InputRecord) : Prop where
  messageId : ∃ id, ∀ c ∈ cs, c.messageId = id
  sequenceCount : ∀ c ∈ cs, c.sequenceCount = cs.length
  sequenceNumber : cs.map GelfChunk.sequenceNumber = List.range cs.length
  data : r.data = (cs.map GelfChunk.chunk).flatten
  source : cs.head?.map GelfChunk.source = some r.source

/-- The record `r` is made up by the chunks of `C` at the positions `is`. -/
def MadeFrom (C : List GelfChunk) (is : List ℕ) (r : InputRecord) : Prop :=
  ∃ cs, is.map (C[·]?) = cs.map some ∧ MakesUp cs r

/-- What was received stays where it is when more is received. -/
theorem MadeFrom.append {is : List ℕ} (h : MadeFrom C is r) (D : List GelfChunk) :
    MadeFrom (C ++ D) is r := by
  obtain ⟨cs, hcs, hr⟩ := h
  refine ⟨cs, ?_, hr⟩
  rw [← hcs]
  refine List.map_congr_left fun i hi => ?_
  have hsome : C[i]? ∈ cs.map some := hcs ▸ List.mem_map_of_mem hi
  obtain ⟨c, -, hc⟩ := List.mem_map.mp hsome
  rw [List.getElem?_append_left (List.getElem?_eq_some_iff.mp hc.symm).1]

/-! ### The invariant -/

/-- An open group is not empty, and under every number it holds the chunk at the
position `pos` gives, which is one of the group's id and count and of that
number. -/
structure GroupFrom (C : List GelfChunk) (pos : ℕ → ℕ) (id : Bytes) (g : ChunkedMessage) :
    Prop where
  nonempty : g.chunks.entries ≠ []
  received : ∀ e ∈ g.chunks.entries, C[pos e.1]? = some e.2
  messageId : ∀ e ∈ g.chunks.entries, e.2.messageId = id
  sequenceNumber : ∀ e ∈ g.chunks.entries, e.2.sequenceNumber = e.1
  sequenceCount : ∀ e ∈ g.chunks.entries, e.2.sequenceCount = g.size
  lt_size : ∀ e ∈ g.chunks.entries, e.1 < g.size

/-- **The accounts of the chunk thread** after the chunks `C`: the records
enqueued are made from the positions in `used`, the open groups hold the chunks
at the positions `pos`, and no position is in two places. -/
structure Accounted (C : List GelfChunk) (s : ChunkLoop) (used : List (List ℕ))
    (pos : Bytes → ℕ → ℕ) : Prop where
  enqueued : List.Forall₂ (MadeFrom C) used s.enqueued
  nodup : used.flatten.Nodup
  lt_length : ∀ i ∈ used.flatten, i < C.length
  group : ∀ id g, s.chunkMap.lookup id = some g → GroupFrom C (pos id) id g
  unused : ∀ id g, s.chunkMap.lookup id = some g →
    ∀ e ∈ g.chunks.entries, pos id e.1 ∉ used.flatten

variable {used : List (List ℕ)} {pos : Bytes → ℕ → ℕ}

theorem accounted_start : Accounted [] ChunkLoop.start [] pos where
  enqueued := List.Forall₂.nil
  nodup := List.nodup_nil
  lt_length i hi := by simp at hi
  group id g hg := by simp [ChunkLoop.start] at hg
  unused id g hg := by simp [ChunkLoop.start] at hg

/-- **Any groups may leave**: a state that enqueued the same records and has open
groups of the old state only is accounted for in the same way. -/
theorem Accounted.of_sub (h : Accounted C s used pos) (henq : s'.enqueued = s.enqueued)
    (hsub : ∀ id g, s'.chunkMap.lookup id = some g → s.chunkMap.lookup id = some g) :
    Accounted C s' used pos where
  enqueued := henq ▸ h.enqueued
  nodup := h.nodup
  lt_length := h.lt_length
  group id g hg := h.group id g (hsub id g hg)
  unused id g hg := h.unused id g (hsub id g hg)

theorem GroupFrom.append {g : ChunkedMessage} {id : Bytes} {p : ℕ → ℕ} (h : GroupFrom C p id g)
    (D : List GelfChunk) : GroupFrom (C ++ D) p id g where
  nonempty := h.nonempty
  received e he := by
    have hC := h.received e he
    rw [List.getElem?_append_left (List.getElem?_eq_some_iff.mp hC).1, hC]
  messageId := h.messageId
  sequenceNumber := h.sequenceNumber
  sequenceCount := h.sequenceCount
  lt_size := h.lt_size

/-- A chunk that is not looked at changes no account. -/
theorem Accounted.append (h : Accounted C s used pos) (D : List GelfChunk) :
    Accounted (C ++ D) s used pos where
  enqueued := h.enqueued.imp fun _ _ hr => hr.append D
  nodup := h.nodup
  lt_length i hi := by
    rw [List.length_append]
    exact (h.lt_length i hi).trans_le (Nat.le_add_right _ _)
  group id g hg := (h.group id g hg).append D
  unused := h.unused

/-! ### One chunk -/

/-- **Writing a chunk into its group**: whatever was held under its number is
replaced, and the position of that number is now the last one. -/
theorem GroupFrom.set {g : ChunkedMessage} {p : ℕ → ℕ} (hsize : g.size = c.sequenceCount)
    (hlt : c.sequenceNumber < c.sequenceCount)
    (h : ∀ e ∈ g.chunks.entries, C[p e.1]? = some e.2 ∧ e.2.messageId = c.messageId ∧
      e.2.sequenceNumber = e.1 ∧ e.2.sequenceCount = g.size ∧ e.1 < g.size) :
    GroupFrom (C ++ [c]) (Function.update p c.sequenceNumber C.length) c.messageId
      { g with chunks := g.chunks.set c.sequenceNumber c } := by
  have hmem : (c.sequenceNumber, c) ∈ (g.chunks.set c.sequenceNumber c).entries :=
    OrderedMap.mem_set.mpr (Or.inl rfl)
  refine ⟨List.ne_nil_of_mem hmem, ?_, ?_, ?_, ?_, ?_⟩
  all_goals
    intro e he
    rcases OrderedMap.mem_set.mp he with rfl | ⟨hne, he⟩
  · simp
  · have hC := (h e he).1
    rw [Function.update_of_ne hne,
      List.getElem?_append_left (List.getElem?_eq_some_iff.mp hC).1, hC]
  · rfl
  · exact (h e he).2.1
  · rfl
  · exact (h e he).2.2.1
  · exact hsize.symm
  · exact (h e he).2.2.2.1
  · exact hsize ▸ hlt
  · exact (h e he).2.2.2.2

/-- The positions of a group, in number order. -/
def positions (p : ℕ → ℕ) (g : ChunkedMessage) : List ℕ := g.chunks.keys.map p

/-- The positions of a group differ: the chunk there has the number. -/
theorem GroupFrom.positions_nodup {g : ChunkedMessage} {p : ℕ → ℕ} {id : Bytes}
    (h : GroupFrom C p id g) : (positions p g).Nodup := by
  refine List.Nodup.map_on ?_ (g.chunks.keys_nodup)
  intro j hj k hk hjk
  obtain ⟨e, he, rfl⟩ := List.mem_map.mp hj
  obtain ⟨d, hd, rfl⟩ := List.mem_map.mp hk
  have heq : e.2 = d.2 := by
    rw [← Option.some_inj, ← h.received e he, ← h.received d hd, hjk]
  rw [← h.sequenceNumber e he, ← h.sequenceNumber d hd, heq]

/-- **A full group makes up its record**: as many entries as the count, all
numbered below it, are the numbers `0, 1, …, n - 1`. -/
theorem GroupFrom.madeFrom {g : ChunkedMessage} {p : ℕ → ℕ} {id : Bytes}
    (h : GroupFrom C p id g) (hfull : g.chunks.size = g.size) {name : String} {first : GelfChunk}
    (hfirst : g.chunks.values.head? = some first) :
    MadeFrom C (positions p g) ⟨name, totalMessage g.chunks, first.source⟩ := by
  refine ⟨g.chunks.values, ?_, ⟨id, ?_⟩, ?_, ?_, rfl, by rw [hfirst]; rfl⟩
  · rw [positions, OrderedMap.keys, OrderedMap.values, List.map_map, List.map_map, List.map_map]
    exact List.map_congr_left fun e he => h.received e he
  · intro c hc
    obtain ⟨e, he, rfl⟩ := List.mem_map.mp hc
    exact h.messageId e he
  · intro c hc
    obtain ⟨e, he, rfl⟩ := List.mem_map.mp hc
    rw [OrderedMap.length_values, hfull]
    exact h.sequenceCount e he
  · have hkeys : g.chunks.values.map GelfChunk.sequenceNumber = g.chunks.keys := by
      rw [OrderedMap.keys, OrderedMap.values, List.map_map]
      exact List.map_congr_left fun e he => h.sequenceNumber e he
    rw [hkeys, OrderedMap.length_values, hfull]
    refine g.chunks.keys_eq_range hfull fun k hk => ?_
    obtain ⟨e, he, rfl⟩ := List.mem_map.mp hk
    exact h.lt_size e he

/-- The accounts after a chunk was written into the open group `g`: the position
of its number in the group of its id is the last one. -/
def record (pos : Bytes → ℕ → ℕ) (C : List GelfChunk) (c : GelfChunk) : Bytes → ℕ → ℕ :=
  Function.update pos c.messageId
    (Function.update (pos c.messageId) c.sequenceNumber C.length)

theorem record_self (pos : Bytes → ℕ → ℕ) (C : List GelfChunk) (c : GelfChunk) :
    record pos C c c.messageId =
      Function.update (pos c.messageId) c.sequenceNumber C.length := by
  rw [record, Function.update_self]

theorem record_of_ne (pos : Bytes → ℕ → ℕ) (C : List GelfChunk) {id : Bytes}
    (h : id ≠ c.messageId) : record pos C c id = pos id := by
  rw [record, Function.update_of_ne h]

/-- **Only the group of the chunk's id changes**: a state that enqueued nothing
and differs in that group is accounted for if the group is, and if the positions
of the group are the new one or unused ones. -/
theorem Accounted.write (h : Accounted C s used pos) (henq : s'.enqueued = s.enqueued)
    (hother : ∀ id, id ≠ c.messageId → s'.chunkMap.lookup id = s.chunkMap.lookup id)
    {g : ChunkedMessage} (hself : s'.chunkMap.lookup c.messageId = some g)
    (hg : GroupFrom (C ++ [c]) (record pos C c c.messageId) c.messageId g)
    (hunused : ∀ e ∈ g.chunks.entries, e.1 ≠ c.sequenceNumber →
      pos c.messageId e.1 ∉ used.flatten) :
    Accounted (C ++ [c]) s' used (record pos C c) := by
  have happ := h.append [c]
  refine ⟨henq ▸ happ.enqueued, h.nodup, happ.lt_length, fun id g' hg' => ?_,
    fun id g' hg' e he => ?_⟩
  · by_cases hid : id = c.messageId
    · subst hid
      obtain rfl : g = g' := Option.some_inj.mp (hself.symm.trans hg')
      exact hg
    · rw [record_of_ne pos C hid]
      exact happ.group id g' (hother id hid ▸ hg')
  · by_cases hid : id = c.messageId
    · subst hid
      obtain rfl : g = g' := Option.some_inj.mp (hself.symm.trans hg')
      rw [record_self]
      by_cases hk : e.1 = c.sequenceNumber
      · -- the last position is new, so no record was made from it
        rw [hk, Function.update_self]
        exact fun hmem => (h.lt_length _ hmem).false
      · rw [Function.update_of_ne hk]
        exact hunused e he hk
    · rw [record_of_ne pos C hid]
      exact h.unused id g' (hother id hid ▸ hg') e he

/-- **Completing a group** moves its positions from the open to the used. -/
theorem Accounted.complete (h : Accounted C s used pos) {id : Bytes} {g : ChunkedMessage}
    (hg : s.chunkMap.lookup id = some g) (hfull : g.chunks.size = g.size) (name : String) :
    ∃ is, Accounted C { s with
      chunkMap := s.chunkMap.erase id
      enqueued := s.enqueued ++ (g.chunks.values.head?.map fun first =>
        ⟨name, totalMessage g.chunks, first.source⟩).toList } (used ++ [is]) pos := by
  have hgroup := h.group id g hg
  obtain ⟨first, hfirst⟩ : ∃ first, g.chunks.values.head? = some first := by
    refine Option.isSome_iff_exists.mp ?_
    rw [List.isSome_head?]
    simpa [OrderedMap.values] using hgroup.nonempty
  have hmem : ∀ i ∈ positions (pos id) g, ∃ e ∈ g.chunks.entries, pos id e.1 = i := by
    intro i hi
    obtain ⟨k, hk, rfl⟩ := List.mem_map.mp hi
    obtain ⟨e, he, rfl⟩ := List.mem_map.mp hk
    exact ⟨e, he, rfl⟩
  have hflat : (used ++ [positions (pos id) g]).flatten =
      used.flatten ++ positions (pos id) g := by simp
  refine ⟨positions (pos id) g, ?_, ?_, ?_, ?_, ?_⟩
  · rw [hfirst]
    exact List.rel_append h.enqueued
      (List.Forall₂.cons (hgroup.madeFrom hfull hfirst) List.Forall₂.nil)
  · rw [hflat]
    refine h.nodup.append hgroup.positions_nodup fun i hi hi' => ?_
    -- a position of an open group was not used before
    obtain ⟨e, he, rfl⟩ := hmem i hi'
    exact h.unused id g hg e he hi
  · intro i hi
    rw [hflat] at hi
    rcases List.mem_append.mp hi with hi | hi
    · exact h.lt_length i hi
    · obtain ⟨e, he, rfl⟩ := hmem i hi
      exact (List.getElem?_eq_some_iff.mp (hgroup.received e he)).1
  · intro id' g' hg'
    exact h.group id' g' (AList.lookup_erase_eq_some.mp hg').2
  · intro id' g' hg' e he hi
    obtain ⟨hne, hg'⟩ := AList.lookup_erase_eq_some.mp hg'
    rw [hflat] at hi
    rcases List.mem_append.mp hi with hi | hi
    · exact h.unused id' g' hg' e he hi
    · -- one position is one chunk, and a chunk has one id
      obtain ⟨d, hd, hpos⟩ := hmem _ hi
      have hgroup' := h.group id' g' hg'
      have heq : d.2 = e.2 := by
        rw [← Option.some_inj, ← hgroup.received d hd, ← hgroup'.received e he, hpos]
      exact hne (by rw [← hgroup'.messageId e he, ← heq, hgroup.messageId d hd])

variable (name : String) (ttl : ℕ)

/-- **One chunk is accounted for**, whatever it is. -/
theorem Accounted.handleChunk (h : Accounted C s used pos) (now : TimePoint) (c : GelfChunk) :
    ∃ used pos, Accounted (C ++ [c]) (s.handleChunk name now c) used pos := by
  rw [ChunkLoop.handleChunk]
  split_ifs with hcount hnumber
  · exact ⟨used, pos, h.append [c]⟩
  · exact ⟨used, pos, h.append [c]⟩
  -- a chunk that is not dropped is written at a number below the count
  have hlt : c.sequenceNumber < c.sequenceCount := not_le.mp hnumber
  cases hlook : s.chunkMap.lookup c.messageId with
  | none =>
    have hset : GroupFrom (C ++ [c]) (record pos C c c.messageId) c.messageId
        ⟨OrderedMap.empty.set c.sequenceNumber c, c.sequenceCount, now⟩ := by
      rw [record_self]
      exact GroupFrom.set (g := ⟨OrderedMap.empty, c.sequenceCount, now⟩) rfl hlt
        fun e he => absurd he (OrderedMap.notMem_empty e)
    refine ⟨used, record pos C c, h.write rfl (fun id hid => AList.lookup_insert_ne hid)
      (AList.lookup_insert _) hset fun e he hne => ?_⟩
    rcases OrderedMap.mem_set.mp he with rfl | ⟨-, he⟩
    · exact absurd rfl hne
    · exact absurd he (OrderedMap.notMem_empty e)
  | some g =>
    have hgroup := h.group _ g hlook
    dsimp only
    split_ifs with hsize hfull
    · exact ⟨used, pos, h.append [c]⟩
    all_goals
      have hset : GroupFrom (C ++ [c]) (record pos C c c.messageId) c.messageId
          { g with chunks := g.chunks.set c.sequenceNumber c } := by
        rw [record_self]
        exact GroupFrom.set (not_not.mp hsize) hlt fun e he =>
          ⟨hgroup.received e he, hgroup.messageId e he, hgroup.sequenceNumber e he,
            hgroup.sequenceCount e he, hgroup.lt_size e he⟩
      have hwrite : Accounted (C ++ [c])
          { s with
            chunkMap := s.chunkMap.insert c.messageId
              ({ g with chunks := g.chunks.set c.sequenceNumber c }) }
          used (record pos C c) := by
        refine h.write rfl (fun id hid => AList.lookup_insert_ne hid) (AList.lookup_insert _)
          hset fun e he hne => ?_
        rcases OrderedMap.mem_set.mp he with rfl | ⟨-, he⟩
        · exact absurd rfl hne
        · exact h.unused _ g hlook e he
    · -- the group is full: first the write, then the completion of what was written
      obtain ⟨is, hcomp⟩ := hwrite.complete (AList.lookup_insert _) hfull name
      refine ⟨used ++ [is], record pos C c, hcomp.of_sub rfl fun id g' hg' => ?_⟩
      have hne := (AList.lookup_erase_eq_some.mp hg').1
      rw [AList.lookup_erase_ne hne] at hg' ⊢
      rwa [AList.lookup_insert_ne hne]
    · exact ⟨used, record pos C c, hwrite⟩

/-! ### Executions -/

theorem Accounted.handleBulk (name : String) :
    ∀ (bulk : List (GelfChunk × TimePoint)) {C : List GelfChunk}
    {s : ChunkLoop}, (∃ used pos, Accounted C s used pos) →
    ∃ used pos, Accounted (C ++ bulk.map Prod.fst) (s.handleBulk name bulk) used pos
  | [], C, s, h => by simpa [ChunkLoop.handleBulk] using h
  | c :: bulk, C, s, ⟨used, pos, h⟩ => by
    rw [List.map_cons, List.append_cons]
    exact Accounted.handleBulk name bulk (h.handleChunk name c.2 c.1)

/-- A group that is left after a number of removals was there before. -/
theorem lookup_of_lookup_foldl_erase {ν : Type*} : ∀ (ids : List Bytes)
    {m : AList (fun _ : Bytes => ν)} {id : Bytes} {g : ν},
    (ids.foldl (fun m i => m.erase i) m).lookup id = some g → m.lookup id = some g
  | [], _, _, _, h => h
  | _ :: ids, _, _, _, h => (AList.lookup_erase_eq_some.mp (lookup_of_lookup_foldl_erase ids h)).2

/-- The sweep removes groups and does nothing else that is accounted for. -/
theorem Accounted.sweep (h : Accounted C s used pos) (now : TimePoint) :
    Accounted C (s.sweep ttl now) used pos := by
  refine h.of_sub rfl fun id g hg => ?_
  rw [ChunkLoop.sweep] at hg
  refine lookup_of_lookup_foldl_erase
    ((s.chunkMap.entries.filter fun e => ChunkLoop.Expired ttl now e.2).map Sigma.fst) ?_
  rwa [List.foldl_map]

theorem Accounted.run (name : String) (ttl : ℕ) :
    ∀ (its : List Iteration) {C : List GelfChunk} {s : ChunkLoop},
    (∃ used pos, Accounted C s used pos) →
    ∃ used pos, Accounted (C ++ dequeued its) (s.run name ttl its) used pos
  | [], C, s, h => by simpa [dequeued, ChunkLoop.run] using h
  | it :: its, C, s, h => by
    obtain ⟨used, pos, hbulk⟩ := Accounted.handleBulk name it.bulk h
    have hrest := Accounted.run name ttl its ⟨used, pos, hbulk.sweep ttl it.now⟩
    rwa [List.append_assoc] at hrest

/-- **Reassembly never fabricates a message.** Take any execution of the chunk
thread, stopped anywhere: after any iterations, with any clock readings, hence
with any old groups swept, and then any part of one more bulk. No open group is
empty. Every record enqueued is made up of as many received chunks as their
common count says, of one id and with the numbers `0, 1, …, n - 1`, its payload
being their pieces in this order; and no position among the received chunks is
used twice, neither in one record nor in two. -/
theorem enqueued_of_received (name : String) (ttl : ℕ) (its : List Iteration)
    (bulk : List (GelfChunk × TimePoint)) :
    (∀ e ∈ ((ChunkLoop.start.run name ttl its).handleBulk name bulk).chunkMap.entries,
        e.2.chunks.entries ≠ []) ∧
      ∃ used : List (List ℕ), used.flatten.Nodup ∧
        List.Forall₂ (MadeFrom (dequeued its ++ bulk.map Prod.fst)) used
          ((ChunkLoop.start.run name ttl its).handleBulk name bulk).enqueued := by
  have hrun := Accounted.run name ttl its ⟨[], fun _ _ => 0, accounted_start⟩
  rw [List.nil_append] at hrun
  obtain ⟨used, pos, h⟩ := Accounted.handleBulk name bulk hrun
  refine ⟨fun e he => ?_, used, h.nodup, h.enqueued⟩
  exact (h.group e.1 e.2 (AList.mem_lookup_iff.mpr he)).nonempty

end Gelf

end IqLogger
