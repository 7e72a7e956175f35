import Mathlib.Data.Finset.Image
import Mathlib.Data.Multiset.Bind
import IqLogger.Inputs.Gelf.Udp

/-!
# Chunked messages are reassembled exactly

What the chunk thread is for, in terms of the *set* of chunks it has dequeued,
and the proof that it does it. A collection of chunks is well formed
(`IqLogger.Gelf.WellFormed`) when every message id has one sequence count, all
numbers are below it, and no number comes twice; an id is complete when all its
numbers are there, and its message is then the concatenation of its pieces in
number order (`IqLogger.Gelf.message`). None of these notions knows an order of
arrival.

The invariant `IqLogger.Gelf.Reassembled` says what the state of the thread is,
given the chunks dequeued so far: one enqueued record for each complete id, and
one open group, with all its chunks, for each id that is not. It is preserved by
one chunk (`IqLogger.Gelf.Reassembled.handleChunk`), whatever the id and the
number, and by a sweep that removes nothing; so it holds after any execution in
which no group reaches its TTL (`IqLogger.Gelf.Reassembled.run`), however the
chunks are ordered, interleaved and grouped into bulks.

The two counts to reconcile are the one the code tests, that a group has as many
entries as its sequence count, and the one completeness means, that all numbers
below the count are there. They agree by the pigeonhole principle
(`IqLogger.Gelf.complete_iff_length`).
-/

namespace IqLogger

namespace Gelf

/-! ### What a collection of chunks says -/

/-- **A well-formed collection of chunks**: one sequence count between 2 and 127
for each message id, every number below it, no number twice. -/
structure WellFormed (C : List GelfChunk) : Prop where
  count_eq : ∀ c ∈ C, ∀ d ∈ C, c.messageId = d.messageId → c.sequenceCount = d.sequenceCount
  count_range : ∀ c ∈ C, 2 ≤ c.sequenceCount ∧ c.sequenceCount ≤ 127
  number_lt : ∀ c ∈ C, c.sequenceNumber < c.sequenceCount
  nodup : (C.map fun c => (c.messageId, c.sequenceNumber)).Nodup

/-- The chunks of one message id. -/
def ofId (C : List GelfChunk) (id : Bytes) : List GelfChunk :=
  C.filter fun c => c.messageId = id

/-- All numbers of a message id have arrived. -/
def Complete (C : List GelfChunk) (id : Bytes) : Prop :=
  ∃ c ∈ ofId C id, ∀ k < c.sequenceCount, k ∈ (ofId C id).map GelfChunk.sequenceNumber

instance (C : List GelfChunk) (id : Bytes) : Decidable (Complete C id) :=
  inferInstanceAs (Decidable (∃ c ∈ ofId C id, _))

/-- The chunks of one message id, in ascending number order. -/
def inOrder (C : List GelfChunk) (id : Bytes) : List GelfChunk :=
  (ofId C id).insertionSort fun c d => c.sequenceNumber ≤ d.sequenceNumber

/-- The message of an id: its pieces, concatenated in number order. -/
def message (C : List GelfChunk) (id : Bytes) : Bytes :=
  ((inOrder C id).map GelfChunk.chunk).flatten

/-- The message ids all of whose chunks have arrived. -/
def completeIds (C : List GelfChunk) : Finset Bytes :=
  (C.map GelfChunk.messageId).toFinset.filter (Complete C)

variable {C D : List GelfChunk} {c d : GelfChunk} {id : Bytes}

@[simp] theorem mem_ofId : c ∈ ofId C id ↔ c ∈ C ∧ c.messageId = id := by
  simp [ofId]

theorem mem_completeIds : id ∈ completeIds C ↔ Complete C id := by
  rw [completeIds, Finset.mem_filter, List.mem_toFinset, List.mem_map, and_iff_right_iff_imp]
  rintro ⟨c, hc, -⟩
  exact ⟨c, mem_ofId.mp hc⟩

@[simp] theorem ofId_snoc_of_ne (h : c.messageId ≠ id) : ofId (C ++ [c]) id = ofId C id := by
  simp [ofId, h]

@[simp] theorem ofId_snoc_self : ofId (C ++ [c]) c.messageId = ofId C c.messageId ++ [c] := by
  simp [ofId]

theorem complete_snoc_of_ne (h : c.messageId ≠ id) : Complete (C ++ [c]) id ↔ Complete C id := by
  rw [Complete, Complete, ofId_snoc_of_ne h]

theorem message_snoc_of_ne (h : c.messageId ≠ id) : message (C ++ [c]) id = message C id := by
  rw [message, message, inOrder, inOrder, ofId_snoc_of_ne h]

/-! ### Well-formed collections -/

theorem WellFormed.perm (h : WellFormed C) (hp : C.Perm D) : WellFormed D where
  count_eq c hc d hd := h.count_eq c (hp.mem_iff.mpr hc) d (hp.mem_iff.mpr hd)
  count_range c hc := h.count_range c (hp.mem_iff.mpr hc)
  number_lt c hc := h.number_lt c (hp.mem_iff.mpr hc)
  nodup := (hp.map _).nodup_iff.mp h.nodup

theorem WellFormed.of_append (h : WellFormed (C ++ D)) : WellFormed C where
  count_eq c hc d hd := h.count_eq c (List.mem_append_left _ hc) d (List.mem_append_left _ hd)
  count_range c hc := h.count_range c (List.mem_append_left _ hc)
  number_lt c hc := h.number_lt c (List.mem_append_left _ hc)
  nodup := List.Nodup.of_append_left (by simpa using h.nodup)

/-- The numbers of one message id are distinct. -/
theorem WellFormed.numbers_nodup (h : WellFormed C) (id : Bytes) :
    ((ofId C id).map GelfChunk.sequenceNumber).Nodup := by
  have hpair : ((ofId C id).map fun c => (c.messageId, c.sequenceNumber)).Nodup :=
    h.nodup.sublist (List.Sublist.map _ List.filter_sublist)
  rw [List.nodup_map_iff_inj_on (List.Nodup.of_map _ hpair)]
  intro c hc d hd hcd
  refine List.inj_on_of_nodup_map hpair hc hd ?_
  rw [(mem_ofId.mp hc).2, (mem_ofId.mp hd).2, hcd]

/-- **Completeness by counting**: the chunks of an id are complete when there
are as many of them as the sequence count says. -/
theorem complete_iff_length (h : WellFormed C) (hc : c ∈ ofId C id) :
    Complete C id ↔ (ofId C id).length = c.sequenceCount := by
  have hcount : ∀ d ∈ ofId C id, d.sequenceCount = c.sequenceCount := fun d hd =>
    h.count_eq d (mem_ofId.mp hd).1 c (mem_ofId.mp hc).1
      ((mem_ofId.mp hd).2.trans (mem_ofId.mp hc).2.symm)
  have hlt : ∀ k ∈ (ofId C id).map GelfChunk.sequenceNumber, k < c.sequenceCount := by
    intro k hk
    obtain ⟨d, hd, rfl⟩ := List.mem_map.mp hk
    exact (h.number_lt d (mem_ofId.mp hd).1).trans_eq (hcount d hd)
  have hlen : ((ofId C id).map GelfChunk.sequenceNumber).length = (ofId C id).length :=
    List.length_map _
  constructor
  · rintro ⟨d, hd, hall⟩
    rw [hcount d hd] at hall
    refine le_antisymm ?_ (hlen ▸ OrderedMap.le_length_of_forall_mem hall)
    have hsub : ((ofId C id).map GelfChunk.sequenceNumber).Subperm (List.range c.sequenceCount) :=
      (h.numbers_nodup id).subperm fun k hk => List.mem_range.mpr (hlt k hk)
    simpa using hsub.length_le
  · intro heq
    refine ⟨c, hc, fun k hk => ?_⟩
    exact OrderedMap.mem_of_nodup_of_length (h.numbers_nodup id) hlt (by rw [hlen, heq]) hk

/-- The chunks of an id in number order have strictly increasing numbers. -/
theorem inOrder_pairwise (h : WellFormed C) (id : Bytes) :
    (inOrder C id).Pairwise fun c d => c.sequenceNumber < d.sequenceNumber := by
  have hperm : (inOrder C id).Perm (ofId C id) := List.perm_insertionSort _ _
  have hnodup : ((inOrder C id).map GelfChunk.sequenceNumber).Nodup :=
    (hperm.map _).nodup_iff.mpr (h.numbers_nodup id)
  have hle : (inOrder C id).Pairwise fun c d => c.sequenceNumber ≤ d.sequenceNumber :=
    List.pairwise_insertionSort _ _
  exact (hle.and (List.pairwise_map.mp hnodup)).imp fun h => lt_of_le_of_ne h.1 h.2

@[simp] theorem mem_inOrder : c ∈ inOrder C id ↔ c ∈ ofId C id :=
  (List.perm_insertionSort _ _).mem_iff

@[simp] theorem length_inOrder (C : List GelfChunk) (id : Bytes) :
    (inOrder C id).length = (ofId C id).length :=
  (List.perm_insertionSort _ _).length_eq

/-! ### Independence of the order of arrival -/

theorem complete_perm (hp : C.Perm D) : Complete C id ↔ Complete D id := by
  have hof : (ofId C id).Perm (ofId D id) := hp.filter _
  have hnum := hof.map GelfChunk.sequenceNumber
  exact exists_congr fun c => and_congr hof.mem_iff
    (forall₂_congr fun k _ => hnum.mem_iff)

theorem completeIds_perm (hp : C.Perm D) : completeIds C = completeIds D := by
  ext id
  rw [mem_completeIds, mem_completeIds, complete_perm hp]

theorem inOrder_perm (h : WellFormed C) (hp : C.Perm D) (id : Bytes) :
    inOrder C id = inOrder D id := by
  have hperm : (inOrder C id).Perm (inOrder D id) :=
    ((List.perm_insertionSort _ _).trans (hp.filter _)).trans (List.perm_insertionSort _ _).symm
  exact hperm.eq_of_pairwise (fun _ _ _ _ hlt hgt => absurd hgt hlt.not_gt)
    (inOrder_pairwise h id) (inOrder_pairwise (h.perm hp) id)

theorem message_perm (h : WellFormed C) (hp : C.Perm D) (id : Bytes) :
    message C id = message D id := by
  rw [message, message, inOrder_perm h hp]

/-! ### The invariant -/

/-- An open group holds exactly the chunks `l`, each under its number. -/
def ChunkedMessage.Holds (g : ChunkedMessage) (l : List GelfChunk) : Prop :=
  (∀ e, e ∈ g.chunks.entries ↔ e.2 ∈ l ∧ e.1 = e.2.sequenceNumber) ∧
    ∀ c ∈ l, g.size = c.sequenceCount

/-- **The chunks `C` are reassembled by the state `s`**: one record has been
enqueued for each complete id, with its message; and the open groups are those
of the ids that have appeared and are not complete, each with its chunks. -/
structure Reassembled (C : List GelfChunk) (s : ChunkLoop) : Prop where
  enqueued : (s.enqueued.map InputRecord.data : Multiset Bytes) =
    (completeIds C).val.map (message C)
  isSome_iff : ∀ id, (s.chunkMap.lookup id).isSome ↔ ofId C id ≠ [] ∧ ¬Complete C id
  holds : ∀ id g, s.chunkMap.lookup id = some g → g.Holds (ofId C id)

theorem reassembled_start : Reassembled [] ChunkLoop.start where
  enqueued := rfl
  isSome_iff id := by simp [ChunkLoop.start, ofId]
  holds id g h := by simp [ChunkLoop.start] at h

/-- The values of a group are its chunks in number order. -/
theorem ChunkedMessage.Holds.values_eq {g : ChunkedMessage} (h : WellFormed C)
    (hg : g.Holds (ofId C id)) : g.chunks.values = inOrder C id := by
  refine OrderedMap.values_eq_of_mem_iff GelfChunk.sequenceNumber
    (fun e he => ((hg.1 e).mp he).2) (inOrder_pairwise h id) fun c => ?_
  rw [mem_inOrder]
  refine ⟨fun ⟨k, hk⟩ => ((hg.1 _).mp hk).1, fun hc => ⟨c.sequenceNumber, (hg.1 _).mpr ⟨hc, rfl⟩⟩⟩

/-- A group that holds all chunks so far holds the next one too once it is
written under its number. -/
theorem ChunkedMessage.Holds.set {g : ChunkedMessage} {l : List GelfChunk} (hg : g.Holds l)
    (hnew : c.sequenceNumber ∉ l.map GelfChunk.sequenceNumber)
    (hsize : g.size = c.sequenceCount) :
    ChunkedMessage.Holds { g with chunks := g.chunks.set c.sequenceNumber c } (l ++ [c]) := by
  refine ⟨fun e => ?_, fun d hd => ?_⟩
  · rw [OrderedMap.mem_set, hg.1 e, List.mem_append, List.mem_singleton]
    constructor
    · rintro (rfl | ⟨-, he, hk⟩)
      · exact ⟨Or.inr rfl, rfl⟩
      · exact ⟨Or.inl he, hk⟩
    · rintro ⟨he | he, hk⟩
      · -- the number is new, so no chunk that was there is written over
        refine Or.inr ⟨fun hc => hnew ?_, he, hk⟩
        exact List.mem_map.mpr ⟨e.2, he, hk.symm.trans hc⟩
      · exact Or.inl (Prod.ext (hk.trans (congrArg _ he)) he)
  · rcases List.mem_append.mp hd with hd | hd
    · exact hg.2 d hd
    · rw [List.mem_singleton.mp hd, ← hsize]

section Step

variable {s : ChunkLoop} {name : String}

/-- What one more chunk of a well-formed collection is: in range, and with a
number its id has not had yet. -/
theorem WellFormed.snoc (h : WellFormed (C ++ [c])) :
    2 ≤ c.sequenceCount ∧ c.sequenceCount ≤ 127 ∧ c.sequenceNumber < c.sequenceCount ∧
      c.sequenceNumber ∉ (ofId C c.messageId).map GelfChunk.sequenceNumber := by
  have hc : c ∈ C ++ [c] := by simp
  refine ⟨(h.count_range c hc).1, (h.count_range c hc).2, h.number_lt c hc, ?_⟩
  have hnodup := h.numbers_nodup c.messageId
  rw [ofId_snoc_self, List.map_append] at hnodup
  exact fun hmem => List.disjoint_of_nodup_append hnodup hmem (by simp)

/-- The id of the next chunk of a well-formed collection is not complete yet. -/
theorem WellFormed.not_complete (h : WellFormed (C ++ [c])) : ¬Complete C c.messageId := by
  rintro ⟨d, hd, hall⟩
  obtain ⟨-, -, hlt, hnew⟩ := h.snoc
  have hmem := mem_ofId.mp hd
  have hcount := h.count_eq d (List.mem_append_left _ hmem.1) c (by simp) hmem.2
  exact hnew (hall _ (hcount ▸ hlt))

/-- An id is complete with its next chunk when the group then has as many
chunks as the sequence count says. -/
theorem WellFormed.complete_snoc_iff (h : WellFormed (C ++ [c])) :
    Complete (C ++ [c]) c.messageId ↔
      (ofId C c.messageId).length + 1 = c.sequenceCount := by
  have hc : c ∈ ofId (C ++ [c]) c.messageId := by simp
  rw [complete_iff_length h hc, ofId_snoc_self, List.length_append, List.length_singleton]

/-- A chunk that completes nothing changes neither the complete ids nor their
messages. -/
theorem completeIds_map_snoc (h : WellFormed (C ++ [c]))
    (hinc : ¬Complete (C ++ [c]) c.messageId) :
    (completeIds (C ++ [c])).val.map (message (C ++ [c])) =
      (completeIds C).val.map (message C) := by
  have heq : completeIds (C ++ [c]) = completeIds C := by
    ext id
    rw [mem_completeIds, mem_completeIds]
    by_cases hid : c.messageId = id
    · subst hid
      exact iff_of_false hinc h.not_complete
    · exact complete_snoc_of_ne hid
  rw [heq]
  refine Multiset.map_congr rfl fun id hid => message_snoc_of_ne fun hc => ?_
  exact h.not_complete (hc ▸ mem_completeIds.mp hid)

/-- A chunk that completes its id adds that id's message and nothing else. -/
theorem completeIds_map_snoc_of_complete (h : WellFormed (C ++ [c]))
    (hcomp : Complete (C ++ [c]) c.messageId) :
    (completeIds (C ++ [c])).val.map (message (C ++ [c])) =
      message (C ++ [c]) c.messageId ::ₘ (completeIds C).val.map (message C) := by
  have hnew : c.messageId ∉ completeIds C := fun hc => h.not_complete (mem_completeIds.mp hc)
  have heq : completeIds (C ++ [c]) = insert c.messageId (completeIds C) := by
    ext id
    rw [Finset.mem_insert, mem_completeIds, mem_completeIds]
    by_cases hid : c.messageId = id
    · subst hid
      exact iff_of_true hcomp (Or.inl rfl)
    · rw [complete_snoc_of_ne hid]
      exact ⟨Or.inr, fun h => h.resolve_left fun he => hid he.symm⟩
  rw [heq, Finset.insert_val_of_notMem hnew, Multiset.map_cons]
  refine congrArg _ (Multiset.map_congr rfl fun id hid => message_snoc_of_ne fun hc => ?_)
  exact hnew (hc ▸ hid)

/-- **Only the group of the chunk's id has to be looked at**: a state that
differs from a reassembling one in that group, and in the records enqueued for
the chunk, reassembles the collection with the chunk added. -/
theorem Reassembled.snoc {s' : ChunkLoop} (hs : Reassembled C s)
    (henq : (s'.enqueued.map InputRecord.data : Multiset Bytes) =
      (completeIds (C ++ [c])).val.map (message (C ++ [c])))
    (hother : ∀ id, id ≠ c.messageId → s'.chunkMap.lookup id = s.chunkMap.lookup id)
    (hsome : (s'.chunkMap.lookup c.messageId).isSome ↔ ¬Complete (C ++ [c]) c.messageId)
    (hholds : ∀ g, s'.chunkMap.lookup c.messageId = some g →
      g.Holds (ofId (C ++ [c]) c.messageId)) :
    Reassembled (C ++ [c]) s' where
  enqueued := henq
  isSome_iff id := by
    by_cases hid : c.messageId = id
    · subst hid
      simpa using hsome
    · rw [hother id (Ne.symm hid), ofId_snoc_of_ne hid, complete_snoc_of_ne hid]
      exact hs.isSome_iff id
  holds id g hg := by
    by_cases hid : c.messageId = id
    · subst hid
      exact hholds g hg
    · rw [hother id (Ne.symm hid)] at hg
      rw [ofId_snoc_of_ne hid]
      exact hs.holds id g hg

/-- The first chunk of an id: it opens a group, and with a count of at least 2
it completes nothing. -/
theorem Reassembled.open_group (hs : Reassembled C s) (h : WellFormed (C ++ [c]))
    (hlook : s.chunkMap.lookup c.messageId = none) (now : TimePoint) :
    Reassembled (C ++ [c]) { s with
      chunkMap := s.chunkMap.insert c.messageId
        ⟨OrderedMap.empty.set c.sequenceNumber c, c.sequenceCount, now⟩ } := by
  have hnil : ofId C c.messageId = [] := by
    -- with a chunk before, the id would have an open group, as it cannot be complete
    by_contra hcon
    have hsome := (hs.isSome_iff c.messageId).mpr ⟨hcon, h.not_complete⟩
    rw [hlook] at hsome
    simp at hsome
  have hinc : ¬Complete (C ++ [c]) c.messageId := by
    have hn2 := h.snoc.1
    rw [h.complete_snoc_iff, hnil, List.length_nil]
    omega
  have hempty : ChunkedMessage.Holds ⟨OrderedMap.empty, c.sequenceCount, now⟩ [] := by
    simp [ChunkedMessage.Holds]
  refine hs.snoc ?_ (fun id hid => AList.lookup_insert_ne hid) ?_ fun g hg => ?_
  · rw [completeIds_map_snoc h hinc]
    exact hs.enqueued
  · simpa using hinc
  · rw [AList.lookup_insert, Option.some_inj] at hg
    rw [← hg, ofId_snoc_self, hnil]
    exact hempty.set (by simp) rfl

/-- **One chunk is reassembled**: the body of the loop over a bulk keeps the
invariant, with the chunk added to the collection. -/
theorem Reassembled.handleChunk (hs : Reassembled C s) (h : WellFormed (C ++ [c]))
    (now : TimePoint) : Reassembled (C ++ [c]) (s.handleChunk name now c) := by
  obtain ⟨-, hn127, hlt, hnew⟩ := h.snoc
  rw [ChunkLoop.handleChunk, if_neg (by omega), if_neg (by omega)]
  cases hlook : s.chunkMap.lookup c.messageId with
  | none => exact hs.open_group h hlook now
  | some g =>
    have hg := hs.holds _ g hlook
    obtain ⟨d, hd⟩ : ∃ d, d ∈ ofId C c.messageId := by
      refine List.exists_mem_of_ne_nil _ ?_
      exact ((hs.isSome_iff c.messageId).mp (by rw [hlook]; rfl)).1
    have hsize : g.size = c.sequenceCount :=
      (hg.2 d hd).trans (h.count_eq d (List.mem_append_left _ (mem_ofId.mp hd).1) c (by simp)
        (mem_ofId.mp hd).2)
    have hset := hg.set hnew hsize
    rw [← ofId_snoc_self] at hset
    have hvalues := hset.values_eq h
    have hfull : (g.chunks.set c.sequenceNumber c).size = g.size ↔
        Complete (C ++ [c]) c.messageId := by
      rw [h.complete_snoc_iff, hsize, ← OrderedMap.length_values, hvalues, length_inOrder,
        ofId_snoc_self, List.length_append, List.length_singleton]
    dsimp only
    rw [if_neg (not_not.mpr hsize)]
    split_ifs with hcase
    · -- the group is full: its message is enqueued and the group closed
      have hcomp := hfull.mp hcase
      obtain ⟨first, hfirst⟩ :
        ∃ first, (g.chunks.set c.sequenceNumber c).values.head? = some first :=
        Option.isSome_iff_exists.mp
          (by rw [List.isSome_head?, hvalues]; simp [← List.length_pos_iff])
      refine hs.snoc ?_ (fun id hid => AList.lookup_erase_ne hid) ?_ fun g' hg' => ?_
      · rw [completeIds_map_snoc_of_complete h hcomp, ← hs.enqueued, hfirst]
        simp [totalMessage, hvalues, message]
      · rw [AList.lookup_erase]
        exact iff_of_false (by simp) fun hc => hc hcomp
      · rw [AList.lookup_erase] at hg'
        simp at hg'
    · -- the group stays open, with the chunk in it
      have hinc : ¬Complete (C ++ [c]) c.messageId := fun hc => hcase (hfull.mpr hc)
      refine hs.snoc ?_ (fun id hid => AList.lookup_insert_ne hid) ?_ fun g' hg' => ?_
      · rw [completeIds_map_snoc h hinc]
        exact hs.enqueued
      · simpa using hinc
      · rw [AList.lookup_insert, Option.some_inj] at hg'
        rwa [← hg']

end Step

/-! ### Executions -/

section Run

variable {s : ChunkLoop} {name : String} {ttl : ℕ}

/-- A bulk of chunks is reassembled. -/
theorem Reassembled.handleBulk : ∀ (bulk : List (GelfChunk × TimePoint)) {C : List GelfChunk}
    {s : ChunkLoop}, Reassembled C s → WellFormed (C ++ bulk.map Prod.fst) →
    Reassembled (C ++ bulk.map Prod.fst) (s.handleBulk name bulk)
  | [], C, s, hs, _ => by simpa [ChunkLoop.handleBulk] using hs
  | c :: bulk, C, s, hs, h => by
    rw [List.map_cons, List.append_cons] at h ⊢
    exact Reassembled.handleBulk bulk (hs.handleChunk h.of_append c.2) h

/-- A sweep that finds no expired group does nothing. -/
theorem sweep_eq_self {now : TimePoint}
    (h : ∀ e ∈ s.chunkMap.entries, ¬ChunkLoop.Expired ttl now e.2) : s.sweep ttl now = s := by
  have hnil : (s.chunkMap.entries.filter fun e => ChunkLoop.Expired ttl now e.2) = [] := by
    rw [List.filter_eq_nil_iff]
    exact fun e he => by simpa using h e he
  simp [ChunkLoop.sweep, hnil]

theorem dequeued_eq_map (its : List Iteration) :
    dequeued its = (its.flatMap Iteration.bulk).map Prod.fst := by
  rw [dequeued, List.map_flatMap]

/-- Without expiry an execution is one bulk: its chunks, one after the other. -/
theorem run_eq_handleBulk : ∀ (its : List Iteration) {s : ChunkLoop},
    s.NoneExpires name ttl its →
    s.run name ttl its = s.handleBulk name (its.flatMap Iteration.bulk)
  | [], _, _ => rfl
  | it :: its, s, ⟨hnow, hrest⟩ => by
    have hstep : s.iterate name ttl it = s.handleBulk name it.bulk := sweep_eq_self hnow
    have hrun : s.run name ttl (it :: its) = (s.iterate name ttl it).run name ttl its := rfl
    rw [hrun, run_eq_handleBulk its hrest, hstep]
    simp [ChunkLoop.handleBulk]

/-- **Any execution without expiry is reassembled**, whatever the order of its
chunks and its division into bulks. -/
theorem reassembled_run {its : List Iteration} (h : WellFormed (dequeued its))
    (hexp : ChunkLoop.start.NoneExpires name ttl its) :
    Reassembled (dequeued its) (ChunkLoop.start.run name ttl its) := by
  have hmap : dequeued its = [] ++ (its.flatMap Iteration.bulk).map Prod.fst :=
    dequeued_eq_map its
  rw [run_eq_handleBulk its hexp, hmap]
  exact reassembled_start.handleBulk _ (hmap ▸ h)

/-- **Reassembly is exact and does not depend on the order of arrival.** Take a
well-formed collection of chunks and any execution of the chunk thread that
dequeues them, in whatever order and bulks, without a group reaching its TTL.
The enqueued payloads are the messages of the complete ids, one for each, and
`chunkMap` is left with the ids that are not complete, each holding its chunks
under their numbers. -/
theorem enqueued_eq_messages (name : String) (ttl : ℕ) {C : List GelfChunk} (hC : WellFormed C)
    {its : List Iteration} (hperm : (dequeued its).Perm C)
    (hexp : ChunkLoop.start.NoneExpires name ttl its) :
    ((ChunkLoop.start.run name ttl its).enqueued.map InputRecord.data : Multiset Bytes) =
        (completeIds C).val.map (message C) ∧
      (∀ id, ((ChunkLoop.start.run name ttl its).chunkMap.lookup id).isSome ↔
        (∃ c ∈ C, c.messageId = id) ∧ ¬Complete C id) ∧
      ∀ id g, (ChunkLoop.start.run name ttl its).chunkMap.lookup id = some g →
        g.chunks.entries = (inOrder C id).map fun c => (c.sequenceNumber, c) := by
  have hD : WellFormed (dequeued its) := hC.perm hperm.symm
  have hrun : Reassembled (dequeued its) (ChunkLoop.start.run name ttl its) :=
    reassembled_run hD hexp
  refine ⟨?_, fun id => ?_, fun id g hg => ?_⟩
  · rw [hrun.enqueued, completeIds_perm hperm]
    exact Multiset.map_congr rfl fun id _ => message_perm hD hperm id
  · rw [hrun.isSome_iff, complete_perm hperm]
    have hof : ofId (dequeued its) id ≠ [] ↔ ∃ c ∈ C, c.messageId = id := by
      simp [List.eq_nil_iff_forall_not_mem, hperm.mem_iff]
    rw [hof]
  · have hholds := hrun.holds id g hg
    rw [← inOrder_perm hD hperm, ← hholds.values_eq hD, OrderedMap.values, List.map_map]
    refine (List.map_id _).symm.trans (List.map_congr_left fun e he => ?_)
    exact Prod.ext ((hholds.1 e).mp he).2 rfl

/-- Two ids interleaved over two bulks, one of them arriving backwards and the
other never complete. -/
theorem enqueued_eq_messages_backwards :
    let chunk := fun id k piece => (⟨[id], k, 2, [piece], ⟨"127.0.0.1", 12201⟩⟩ : GelfChunk)
    let its : List Iteration :=
      [⟨[(chunk 1 1 20, 0), (chunk 2 0 30, 1)], 2⟩, ⟨[(chunk 1 0 10, 3)], 4⟩]
    ((ChunkLoop.start.run "udp" 5 its).enqueued.map InputRecord.data : Multiset Bytes) =
        (completeIds [chunk 1 0 10, chunk 1 1 20, chunk 2 0 30]).val.map
          (message [chunk 1 0 10, chunk 1 1 20, chunk 2 0 30]) ∧
      ((ChunkLoop.start.run "udp" 5 its).chunkMap.lookup [2]).isSome := by
  intro chunk its
  have hC : WellFormed [chunk 1 0 10, chunk 1 1 20, chunk 2 0 30] :=
    ⟨by decide, by decide, by decide, by decide⟩
  have hperm : (dequeued its).Perm [chunk 1 0 10, chunk 1 1 20, chunk 2 0 30] := by decide
  have h := enqueued_eq_messages "udp" 5 hC hperm (by decide)
  exact ⟨h.1, (h.2.1 [2]).mpr (by decide)⟩

end Run

end Gelf

end IqLogger
