import IqLogger.Formats.Gelf.Dump
import IqLogger.Inputs.Gelf.Import
import IqLogger.Outputs.Gelf.Tcp

/-!
# Relays

The GELF output of one instance of the program is what the GELF input of another one listens
to, and messages may go through any number of instances. On each hop (`IqLogger.Gelf.Hop`) a
message is dumped, a thread of the output sends it on one of its connections, possibly more than
once and in pieces, a connection of the input cuts the stream into records again, and these are
imported in batches.

Each part was shown to be faithful for itself: a dump of a message that was parsed is parsed to
the same message, and what is delivered on the connections are the records that were sent. Here
they are put together (`IqLogger.Gelf.relayed`): after any number of hops there are the messages
that were there at the beginning, each at least once and none of them changed, and no import has
failed on the way. What has to be kept from hop to hop is that the messages could have been
parsed (`IqLogger.Gelf.GelfData.Parsed`) and can be written
(`IqLogger.Gelf.GelfData.Finite`).
-/

namespace IqLogger

/-! ### Importing all there is -/

namespace Inputs

variable {R M : Type} (exportMessage : R → Except Throwable M)

/-- An import thread, over any number of batches. -/
def importAll : ℕ → List (List R) → Except Throwable (List M)
  | _, [] => pure []
  | receiveCounter, batch :: batches => do
    let result ← importMessages exportMessage receiveCounter batch
    let messages ← importAll result.receiveCounter batches
    pure (result.messages ++ messages)

variable {exportMessage}

/-- **Batches without a loss**: when all failures are caught, the messages are those of all the
records. -/
theorem importAll_of_failsOnly {receiveCounter : ℕ} {batches : List (List R)}
    (h : ∀ record ∈ batches.flatten, (exportMessage record).FailsOnly fun e => e.isException) :
    importAll exportMessage receiveCounter batches =
      .ok (exported exportMessage batches.flatten) := by
  induction batches generalizing receiveCounter with
  | nil => rfl
  | cons batch batches ih =>
    rw [List.flatten_cons] at h
    obtain ⟨result, hresult, hmessages⟩ := imports_all_iff.mpr fun record hrecord =>
      h record (List.mem_append_left _ hrecord)
    have hrest := @ih result.receiveCounter fun record hrecord =>
      h record (List.mem_append_right _ hrecord)
    refine Except.bind_eq_ok.mpr ⟨result, hresult, Except.bind_eq_ok.mpr ⟨_, hrest, ?_⟩⟩
    rw [hmessages, exported, exported, exported, List.flatten_cons, List.filterMap_append]
    rfl

end Inputs

/-! ### At least once -/

/-- **What arrives is what was sent**, up to a relation between the two: nothing else, and each
thing at least once. -/
structure AtLeastOnce {α β : Type*} (R : α → β → Prop) (sent : List α) (arrived : List β) :
    Prop where
  only : ∀ b ∈ arrived, ∃ a ∈ sent, R a b
  each : ∀ a ∈ sent, ∃ b ∈ arrived, R a b

namespace AtLeastOnce

variable {α β γ : Type*} {R : α → β → Prop} {S : β → γ → Prop} {T : α → γ → Prop}
  {as : List α} {bs : List β} {cs : List γ}

theorem refl {R : α → α → Prop} (h : ∀ a, R a a) (as : List α) : AtLeastOnce R as as :=
  ⟨fun a ha => ⟨a, ha, h a⟩, fun a ha => ⟨a, ha, h a⟩⟩

theorem trans (hT : ∀ a b c, R a b → S b c → T a c) (h : AtLeastOnce R as bs)
    (h' : AtLeastOnce S bs cs) : AtLeastOnce T as cs where
  only c hc := by
    obtain ⟨b, hb, hbc⟩ := h'.only c hc
    obtain ⟨a, ha, hab⟩ := h.only b hb
    exact ⟨a, ha, hT a b c hab hbc⟩
  each a ha := by
    obtain ⟨b, hb, hab⟩ := h.each a ha
    obtain ⟨c, hc, hbc⟩ := h'.each b hb
    exact ⟨c, hc, hT a b c hab hbc⟩

end AtLeastOnce

namespace Gelf

open Rapidjson Inputs

/-! ### What makes two messages the same -/

/-- The fields of the system are the same, and the additional fields are the same map. -/
structure Same (g g' : GelfData) : Prop where
  version : g'.version = g.version
  host : g'.host = g.host
  shortMessage : g'.shortMessage = g.shortMessage
  fullMessage : g'.fullMessage = g.fullMessage
  timestamp : g'.timestamp = g.timestamp
  level : g'.level = g.level
  additionalFields : ∀ key, g'.additionalFields.lookup key = g.additionalFields.lookup key

theorem Same.refl (g : GelfData) : Same g g := ⟨rfl, rfl, rfl, rfl, rfl, rfl, fun _ => rfl⟩

theorem Same.trans {g g' g'' : GelfData} (h : Same g g') (h' : Same g' g'') : Same g g'' :=
  ⟨h'.version.trans h.version, h'.host.trans h.host, h'.shortMessage.trans h.shortMessage,
    h'.fullMessage.trans h.fullMessage, h'.timestamp.trans h.timestamp, h'.level.trans h.level,
    fun key => (h'.additionalFields key).trans (h.additionalFields key)⟩

/-- A message that can be relayed: it could have been parsed, and it can be written. -/
structure GelfData.Relayable (g : GelfData) : Prop where
  parsed : g.Parsed
  finite : g.Finite

/-- What is the same as a message that can be relayed can be relayed. -/
theorem GelfData.Relayable.of_same {g g' : GelfData} (h : g.Relayable) (hsame : Same g g') :
    g'.Relayable where
  parsed :=
    { version := hsame.version.trans h.parsed.version
      host := by rw [hsame.host]; exact h.parsed.host
      shortMessage := by rw [hsame.shortMessage]; exact h.parsed.shortMessage
      fullMessage := by rw [hsame.fullMessage]; exact h.parsed.fullMessage
      timestamp := by rw [hsame.timestamp]; exact h.parsed.timestamp
      level := by rw [hsame.level]; exact h.parsed.level
      additionalFields := fun key value hvalue =>
        h.parsed.additionalFields key value ((hsame.additionalFields key).symm.trans hvalue) }
  finite :=
    { timestamp := by rw [hsame.timestamp]; exact h.finite.timestamp
      additionalFields := fun key value hvalue =>
        h.finite.additionalFields key value ((hsame.additionalFields key).symm.trans hvalue) }

/-- What is parsed of a text can be relayed, if its timestamp is finite. -/
theorem relayable_of_gelf {write : Fields → Bytes} {parse : Bytes → Except ParseResult Value}
    (hjson : Lossless write parse) {currentTime : Float} (hnow : ¬currentTime < minTimestamp)
    {message : Bytes} {g : GelfData} (h : gelf parse currentTime message = .ok g)
    (hfinite : g.timestamp.isFinite) : g.Relayable := by
  have hg := parsed_of_gelf hjson hnow h
  exact ⟨hg, hfinite, fun key value hvalue => (hg.additionalFields key value hvalue).finite⟩

/-- **A message is reread as it was.** -/
theorem same_reread {order : IterationOrder} {g : GelfData} (hg : g.Parsed) :
    Same g (g.reread order) where
  version := by
    rw [GelfData.reread, hg.version]
    rfl
  host := hg.host.2
  shortMessage := hg.shortMessage.2
  fullMessage := hg.fullMessage
  timestamp := rfl
  level := by
    refine if_neg fun hzero => ?_
    have hone := hg.level.1
    rw [hzero] at hone
    exact absurd hone (by decide)
  additionalFields := lookup_readFields hg

/-! ### From a dump to a message -/

variable {write : Fields → Bytes} {parse : Bytes → Except ParseResult Value}

/-- **The text of an object** that is not empty begins with a brace and the quotation mark of its
first name, and does not end there. -/
def WritesObjects (write : Fields → Bytes) : Prop :=
  ∀ fields ≠ [], ∃ b rest, b ≠ 0 ∧ write fields = 123 :: 34 :: b :: rest

section Dump

variable (hobject : WritesObjects write) (order : IterationOrder) (g : GelfData)

include hobject

/-- A dump begins as an object does. -/
theorem exists_dump_eq : ∃ b rest, dump write order g = 123 :: 34 :: b :: rest := by
  obtain ⟨b, rest, hb, htext⟩ := hobject (dumpFields order g) (by simp [dumpFields, systemFields])
  refine ⟨b, cString rest, ?_⟩
  rw [dump, htext]
  simp [cString, hb]

/-- A dump can be sent: it is not empty, and it has no NUL. -/
theorem sendable_dump : dump write order g ≠ [] ∧ 0 ∉ dump write order g := by
  obtain ⟨b, rest, heq⟩ := exists_dump_eq hobject order g
  refine ⟨by simp [heq], ?_⟩
  intro hzero
  rw [dump, cString] at hzero
  simpa using List.mem_takeWhile_imp hzero

/-- Nobody takes a dump for compressed data. -/
theorem decompress_dump (boost : Decompressors) :
    decompress boost (dump write order g) = .ok (dump write order g) := by
  obtain ⟨b, rest, heq⟩ := exists_dump_eq hobject order g
  rw [heq, decompress, if_neg (by simp), if_neg (by simp [isGzip]), if_neg (by simp [isZlib])]
  rfl

/-- **A dump of a message that passes the checks is imported.** -/
theorem construct_dump (hjson : Lossless write parse) {g : GelfData} (hg : g.Underscored)
    (hfinite : g.Finite) (hacceptable : g.Acceptable)
    (boost : Decompressors) (currentTime : Float) (input : Bytes) (endpoint : Endpoint) :
    GelfMessage.construct parse currentTime boost input (dump write order g) endpoint =
      .ok ⟨input, g.reread order, endpoint⟩ := by
  have hgelf : gelf parse currentTime (dump write order g) = .ok (g.reread order) :=
    (gelf_dump_eq_ok hjson hg hfinite).mpr ⟨hacceptable, rfl⟩
  exact Except.bind_eq_ok.mpr ⟨_, decompress_dump hobject order g boost,
    Except.bind_eq_ok.mpr ⟨_, hgelf, rfl⟩⟩

end Dump

/-! ### Hops -/

/-- **One hop**, with all that is left open on it: how the threads of the output share the records
and what they take at a time, what the network makes of their attempts to write, in which pieces
the bytes of a connection arrive, and in which batches and at what time the records of all
connections are imported; and what the two instances go through maps and undo compressions with.
Every flush ends with success, and nothing is lost at the queues. -/
structure Hop where
  share : List Bytes → List (List (List Bytes))
  share_perm : ∀ records, (share records).flatten.flatten.Perm records
  schedule : ℕ → ℕ → List Tcp.Attempt
  succeeds : ∀ thread k, Tcp.Succeeds (schedule thread k)
  arrive : Bytes → List Bytes
  arrive_flatten : ∀ bytes, (arrive bytes).flatten = bytes
  imports : List Bytes → List (List (Record × Float))
  imports_perm : ∀ data, ((imports data).flatten.map fun record => record.1.data).Perm data
  order : IterationOrder
  boost : Decompressors

namespace Hop

variable (hop : Hop)

/-- The connections of the threads, when they have sent some records. -/
def connections (texts : List Bytes) : List Bytes :=
  (hop.share texts).zipIdx.flatMap fun x =>
    (Tcp.Export.start.run (hop.schedule x.2) x.1).socket.connections

/-- The records the input takes from these connections. -/
def received (texts : List Bytes) : List Bytes :=
  (hop.connections texts).flatMap fun bytes => Tcp.received (hop.arrive bytes)

variable (parse) in
/-- What the input of the next instance makes of the texts that were sent. -/
def imported (texts : List Bytes) : Except Throwable (List GelfData) := do
  let messages ← importAll (exportMessage hop.boost parse) 0 (hop.imports (hop.received texts))
  pure (messages.map fun m => m.gelf)

variable (write parse) in
/-- **What one instance has and the next one gets.** -/
def relay (gs : List GelfData) : Except Throwable (List GelfData) :=
  hop.imported parse (gs.map (dump write hop.order))

/-- **What is received is what was sent.** -/
theorem mem_received {texts : List Bytes} (htexts : ∀ r ∈ texts, r ≠ [] ∧ 0 ∉ r) (r : Bytes) :
    r ∈ hop.received texts ↔ r ∈ texts := by
  have hmem : ∀ r, (∃ batches ∈ hop.share texts, r ∈ batches.flatten) ↔ r ∈ texts := fun r => by
    rw [← (hop.share_perm texts).mem_iff, List.mem_flatten (L := (hop.share texts).flatten)]
    simp only [List.mem_flatten]
    constructor
    · rintro ⟨batches, hbatches, batch, hbatch, hr⟩
      exact ⟨batch, ⟨batches, hbatches, hbatch⟩, hr⟩
    · rintro ⟨batch, ⟨batches, hbatches, hbatch⟩, hr⟩
      exact ⟨batches, hbatches, batch, hbatch, hr⟩
  have hthread : ∀ batches ∈ hop.share texts, ∀ thread, Tcp.Delivered batches.flatten
      (Tcp.Export.start.run (hop.schedule thread) batches).socket := fun batches hb thread =>
    Tcp.Delivered.run (hop.succeeds thread) batches Tcp.delivered_start fun r hr =>
      htexts r ((hmem r).mp ⟨batches, hb, hr⟩)
  rw [received, ← hmem]
  simp only [List.mem_flatMap, connections, Tcp.received_eq_frames, hop.arrive_flatten]
  constructor
  · rintro ⟨bytes, ⟨⟨batches, thread⟩, hthreads, hbytes⟩, hr⟩
    have hb := List.fst_mem_of_mem_zipIdx hthreads
    exact ⟨batches, hb, (hthread batches hb thread).only bytes hbytes r hr⟩
  · rintro ⟨batches, hb, hr⟩
    obtain ⟨thread, hlt, rfl⟩ := List.getElem_of_mem hb
    obtain ⟨bytes, hbytes, hframe⟩ := (hthread _ hb thread).each r hr
    exact ⟨bytes, ⟨(_, thread), List.mem_zipIdx_iff_getElem?.mpr (by simp [hlt]), hbytes⟩, hframe⟩

variable (parse) in
/-- A text that is imported as this message, whenever and from whomever it comes. -/
def ImportedAs (text : Bytes) (g : GelfData) : Prop :=
  ∀ currentTime input endpoint,
    GelfMessage.construct parse currentTime hop.boost input text endpoint =
      .ok ⟨input, g, endpoint⟩

/-- **Texts that can be imported** are, each at least once. -/
theorem imported_ok {texts : List Bytes} (hsend : ∀ r ∈ texts, r ≠ [] ∧ 0 ∉ r)
    (hread : ∀ r ∈ texts, ∃ g, hop.ImportedAs parse r g) :
    ∃ gs, hop.imported parse texts = .ok gs ∧ AtLeastOnce (hop.ImportedAs parse) texts gs := by
  have hrecords : ∀ r, (∃ record ∈ (hop.imports (hop.received texts)).flatten,
      record.1.data = r) ↔ r ∈ texts := by
    intro r
    rw [← List.mem_map, (hop.imports_perm _).mem_iff, hop.mem_received hsend]
  have hexport : ∀ {record : Record × Float} {g : GelfData},
      hop.ImportedAs parse record.1.data g →
      exportMessage hop.boost parse record = .ok ⟨record.1.input, g, record.1.source⟩ :=
    fun h => h _ _ _
  have hall : ∀ record ∈ (hop.imports (hop.received texts)).flatten,
      (exportMessage hop.boost parse record).FailsOnly fun e => e.isException := by
    intro record hrecord
    obtain ⟨g, hg⟩ := hread _ ((hrecords _).mp ⟨record, hrecord, rfl⟩)
    rw [hexport hg]
    exact Except.failsOnly_ok _
  refine ⟨_, Except.bind_eq_ok.mpr ⟨_, importAll_of_failsOnly hall, rfl⟩, ?_, ?_⟩
  · intro g' hg'
    obtain ⟨m, hm, rfl⟩ := List.mem_map.mp hg'
    obtain ⟨record, hrecord, hmessage⟩ := List.mem_filterMap.mp hm
    have htext := (hrecords _).mp ⟨record, hrecord, rfl⟩
    obtain ⟨g, hg⟩ := hread _ htext
    rw [hexport hg] at hmessage
    cases hmessage
    exact ⟨_, htext, hg⟩
  · intro r hr
    obtain ⟨record, hrecord, rfl⟩ := (hrecords _).mpr hr
    obtain ⟨g, hg⟩ := hread _ hr
    refine ⟨g, List.mem_map.mpr ⟨⟨record.1.input, g, record.1.source⟩,
      List.mem_filterMap.mpr ⟨record, hrecord, ?_⟩, rfl⟩, hg⟩
    rw [hexport hg]
    rfl

/-- **One hop**: all that is received is imported, and it is what was sent. -/
theorem relay_ok (hjson : Lossless write parse) (hobject : WritesObjects write)
    {gs : List GelfData} (hgs : ∀ g ∈ gs, g.Relayable) :
    ∃ gs', hop.relay write parse gs = .ok gs' ∧ AtLeastOnce Same gs gs' := by
  have hdump : ∀ g ∈ gs, hop.ImportedAs parse (dump write hop.order g) (g.reread hop.order) :=
    fun g hg => construct_dump hobject hop.order hjson (hgs g hg).parsed.underscored
      (hgs g hg).finite (hgs g hg).parsed.acceptable hop.boost
  have hsend : ∀ r ∈ gs.map (dump write hop.order), r ≠ [] ∧ 0 ∉ r := by
    rw [List.forall_mem_map]
    exact fun g _ => sendable_dump hobject hop.order g
  have hread : ∀ r ∈ gs.map (dump write hop.order), ∃ g, hop.ImportedAs parse r g := by
    rw [List.forall_mem_map]
    exact fun g hg => ⟨_, hdump g hg⟩
  obtain ⟨gs', himported, honce⟩ := hop.imported_ok hsend hread
  refine ⟨gs', himported, ?_, ?_⟩
  · intro g' hg'
    obtain ⟨r, hr, himport⟩ := honce.only g' hg'
    obtain ⟨g, hg, rfl⟩ := List.mem_map.mp hr
    have heq := (hdump g hg 0 [] sender).symm.trans (himport 0 [] sender)
    cases heq
    exact ⟨g, hg, same_reread (hgs g hg).parsed⟩
  · intro g hg
    obtain ⟨g', hg', himport⟩ := honce.each _ (List.mem_map_of_mem hg)
    have heq := (hdump g hg 0 [] sender).symm.trans (himport 0 [] sender)
    cases heq
    exact ⟨_, hg', same_reread (hgs g hg).parsed⟩

end Hop

/-- Any number of hops, from messages that can be relayed. -/
theorem foldlM_relay (hjson : Lossless write parse) (hobject : WritesObjects write)
    (hops : List Hop) {gs : List GelfData} (hgs : ∀ g ∈ gs, g.Relayable) :
    ∃ gs', hops.foldlM (fun gs hop => hop.relay write parse gs) gs = .ok gs' ∧
      AtLeastOnce Same gs gs' := by
  induction hops generalizing gs with
  | nil => exact ⟨gs, rfl, .refl Same.refl gs⟩
  | cons hop hops ih =>
    obtain ⟨gs₁, hrelay, hsame⟩ := hop.relay_ok hjson hobject hgs
    -- what has come through can be relayed again
    have hgs₁ : ∀ g ∈ gs₁, g.Relayable := fun g hg => by
      obtain ⟨g₀, hg₀, hg₀g⟩ := hsame.only g hg
      exact (hgs g₀ hg₀).of_same hg₀g
    obtain ⟨gs₂, hrest, hsame₂⟩ := ih hgs₁
    refine ⟨gs₂, ?_, hsame.trans (fun _ _ _ h h' => h.trans h') hsame₂⟩
    rw [List.foldlM_cons, Except.bind_eq_ok]
    exact ⟨gs₁, hrelay, hrest⟩

section Example

/-- A library that writes a brace and a quotation mark first: some fields as their text, and
numbers for all others. -/
def objectWrite (known : Fields) (text : Bytes) (fields : Fields) : Bytes :=
  if fields = known then text else 123 :: 34 :: libraryWrite known text fields

/-- It reads what it has written. -/
def objectParse (known : Fields) (text : Bytes) (s : Bytes) : Except ParseResult Value :=
  libraryParse known text (if s = text then s else s.drop 2)

section Library

variable {known : Fields} {text rest : Bytes} (htext : text = 123 :: 34 :: 118 :: rest)

include htext

/-- What the library writes of other fields is another text. -/
theorem cString_objectWrite {fields : Fields} (hfields : fields ≠ known) :
    cString (objectWrite known text fields) =
        123 :: 34 :: cString (libraryWrite known text fields) ∧
      cString (objectWrite known text fields) ≠ text := by
  have heq : cString (objectWrite known text fields) =
      123 :: 34 :: cString (libraryWrite known text fields) := by
    simp [objectWrite, if_neg hfields, cString]
  refine ⟨heq, fun hsame => ?_⟩
  rw [heq, libraryWrite, if_neg hfields, htext] at hsame
  have hthird := congrArg (fun l : Bytes => l[2]?) hsame
  -- the third byte of the text is a letter, and no other text has one there
  cases hn : Encodable.encode fields with
  | zero =>
    rw [hn] at hthird
    exact absurd (Eq.trans (b := none) rfl hthird) (by simp)
  | succ n =>
    rw [hn, List.replicate_succ] at hthird
    have hone : (1 : UInt8) = 118 := Option.some.inj hthird
    exact absurd hone (by decide)

variable (hknown : known.all fun field => field.2.isFinite)

include hknown

theorem lossless_object (hend : cString text = text) :
    Lossless (objectWrite known text) (objectParse known text) := by
  have hlibrary : Lossless (libraryWrite known text) (libraryParse known text) :=
    lossless_library hknown (by rw [htext]; rfl) hend
  refine ⟨fun fields hfinite => ?_, fun s => hlibrary.finite _⟩
  by_cases hfields : fields = known
  · rw [objectParse, objectWrite, if_pos hfields]
    have hreads := hlibrary.reads fields hfinite
    rw [libraryWrite, if_pos hfields] at hreads
    rw [hend] at hreads ⊢
    rw [if_pos rfl]
    exact hreads
  · obtain ⟨heq, hne⟩ := cString_objectWrite htext hfields
    rw [objectParse, if_neg hne, heq]
    exact hlibrary.reads fields hfinite

omit hknown in
theorem writesObjects_object : WritesObjects (objectWrite known text) := by
  intro fields hne
  by_cases hfields : fields = known
  · exact ⟨118, rest, by decide, by rw [objectWrite, if_pos hfields, htext]⟩
  · rw [objectWrite, if_neg hfields, libraryWrite, if_neg hfields]
    obtain ⟨field, rest, rfl⟩ := List.exists_cons_of_ne_nil hne
    rw [Encodable.encode_list_cons, Nat.succ_eq_add_one, List.replicate_succ]
    exact ⟨1, _, by decide, rfl⟩

end Library

/-- A hop with one thread, which sends one record at a time and needs two attempts for each. -/
def sampleHop : Hop where
  share records := [records.map fun r => [r]]
  share_perm records := by
    rw [List.flatten_singleton, ← List.flatMap_def, List.flatMap_singleton']
  schedule _ _ := [⟨true, 5, true⟩, ⟨false, 0, true⟩]
  succeeds _ _ := ⟨[⟨true, 5, true⟩], ⟨false, 0, true⟩, rfl, by simp, by simp⟩
  arrive bytes := [bytes]
  arrive_flatten _ := List.flatten_singleton
  imports data := [data.map fun d => (⟨ascii "gelf", d, sender⟩, 1700000000)]
  imports_perm data := by
    rw [List.flatten_singleton, List.map_map]
    exact .of_eq (List.map_id data)
  order := .default
  boost := notCompressed

end Example

end Gelf

end IqLogger
