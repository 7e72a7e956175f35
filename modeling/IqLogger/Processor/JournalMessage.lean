import IqLogger.Outputs.Gelf.Acceptance
import Mathlib.Data.List.Sort

/-!
# The JSON of a journal message

A message of the journal goes through the processor as a text: `exportMessage2Json`
writes it with one JSON library, and a constructor reads it with the other. Both
libraries are parameters of the model, `rapidjson` as the text it writes for a document
(`IqLogger.Journal.Document`) and `nlohmann::json` as the value it reads;
`IqLogger.Journal.Lossless` says how the two agree.

A document and what is read of it differ in two ways. The members of an object are read
in the order of their names, and the kind of an integer is lost: it is read as signed
when it is below zero, and as unsigned otherwise. Neither does any harm
(`IqLogger.Journal.journalMessage_export`). The fields are a map; an integer of a field
is cast to `int` from either kind; and a timestamp that is written as a negative number,
because it does not fit a signed integer, is cast back to what it was.
-/

namespace IqLogger

namespace Journal

open Gelf (IterationOrder isUtf8)
open Nlohmann (Value)

/-! ### Documents -/

/-- A value the writer is given, by the function it is given to. -/
inductive Scalar
  | string (s : Bytes)
  | int (n : Int32)
  | int64 (n : Int64)
  | double (d : Float)
  | bool (b : Bool)
  deriving DecidableEq

/-- What the writer is given under a name: a value, or an object of values. -/
inductive Part
  | scalar (value : Scalar)
  | object (members : List (Bytes × Scalar))
  deriving DecidableEq

/-- The members of the object the writer is given, in the order they are written in. -/
abbrev Document := List (Bytes × Part)

namespace Scalar

/-- The value of an integer is read from its digits, and only one below zero is kept as
a signed one. -/
def readInteger (n : Int64) : Value :=
  if n < 0 then .integer n else .unsigned n.toUInt64

/-- The value that is read. -/
def read : Scalar → Value
  | string s => .string s
  | int n => readInteger n.toInt64
  | int64 n => readInteger n
  | double d => .float d
  | bool b => .boolean b

/-- A value there is JSON for: a text has to be encoded in UTF-8, and a number has to be
finite. -/
def writable : Scalar → Bool
  | string s => isUtf8 s
  | double d => d.isFinite
  | _ => true

end Scalar

/-- The members of an object as they are kept when it is read. -/
def readObject (members : List (Bytes × Value)) : Value :=
  .object (members.insertionSort fun a b => a.1 ≤ b.1)

namespace Part

def read : Part → Value
  | scalar value => value.read
  | object members => readObject (members.map fun member => (member.1, member.2.read))

/-- The members of an object need different names, too. -/
def Writable : Part → Prop
  | scalar value => value.writable
  | object members => (members.map Prod.fst).Nodup ∧
    ∀ member ∈ members, isUtf8 member.1 ∧ member.2.writable

end Part

/-- The value that is read for a document. -/
def Document.read (document : Document) : Value :=
  readObject (document.map fun member => (member.1, member.2.read))

/-- A document there is JSON for. -/
structure Document.Writable (document : Document) : Prop where
  nodup : (document.map Prod.fst).Nodup
  members : ∀ member ∈ document, isUtf8 member.1 ∧ member.2.Writable

/-! ### There -/

/-- `JournalMessage`, with what it has from `Message`: the name of its input. -/
structure JournalMessage extends Gelf.JournalMessage where
  input : Bytes

/-- `writeValue`. -/
def writeValue : ObjectVariants → Scalar
  | .string s => .string s
  | .int n => .int n
  | .double d => .double d
  | .bool b => .bool b

namespace JournalMessage

/-- What `exportMessage2Json` hands to the writer. A name is passed on as a
`const char*`, and the timestamp as a signed integer. -/
def document (order : IterationOrder) (m : JournalMessage) : Document :=
  [(ascii "data", .object
      ((order.entries m.data).map fun field => (cString field.1, writeValue field.2))),
    (ascii "timestamp", .scalar (.int64 m.timestamp.toInt64)),
    (ascii "input", .scalar (.string m.input))]

variable (write : Document → Bytes)

/-- `exportMessage2Json`. The text is returned as a `const char*`. -/
def exportMessage2Json (order : IterationOrder) (m : JournalMessage) : Bytes :=
  cString (write (m.document order))

end JournalMessage

/-! ### And back -/

/-- `get<JournalRecord>`: the members of an object, each converted, are inserted one by
one. -/
def getRecord : Value → Except Nlohmann.Exception Object
  | .object members => members.foldlM (fun record member => do
      let value ← ObjectVariants.ofJson member.2
      pure (record.emplace member.1 value)) ∅
  | _ => throw .typeError

variable (parse : Bytes → Except Nlohmann.Exception Value) (toUint64 : Float → UInt64)

/-- What the constructor does inside of its `try`. -/
def readMessage (json : Bytes) : Except Nlohmann.Exception Gelf.JournalMessage := do
  let j ← parse json
  let data ← j.atKey "data"
  let data ← getRecord data
  let timestamp ← j.atKey "timestamp"
  let timestamp ← timestamp.getUint64 toUint64
  pure ⟨data, timestamp⟩

/-- The text of an exception of the library is a parameter, too: it depends on the
text that is read. -/
def constructError (what : Bytes → Nlohmann.Exception → Bytes) (json : Bytes)
    (e : Nlohmann.Exception) : Throwable where
  kind := .exception
  what := ascii "Coudn't construct Journal message from " ++ json ++ ascii ":" ++ what json e ++
    ascii "\n"

/-- The constructor of a `JournalMessage` from a text. -/
def JournalMessage.ofJson (what : Bytes → Nlohmann.Exception → Bytes) (input json : Bytes) :
    Except Throwable JournalMessage :=
  match readMessage parse toUint64 json with
  | .ok message => pure ⟨message, input⟩
  | .error e => throw (constructError what json e)

/-- **What `rapidjson` writes `nlohmann::json` reads back**, each value as it was
written. -/
def Lossless (write : Document → Bytes) (parse : Bytes → Except Nlohmann.Exception Value) : Prop :=
  ∀ document : Document, document.Writable → parse (cString (write document)) = .ok document.read

/-! ### What the reader finds -/

/-- The members of an object are found under their names, whatever order they are kept
in. -/
theorem lookup_insertionSort {members : List (Bytes × Value)}
    (hnodup : (members.map Prod.fst).Nodup) (key : Bytes) :
    (members.insertionSort fun a b => a.1 ≤ b.1).lookup key = members.lookup key :=
  ((List.perm_insertionSort _ members).symm.lookup_eq hnodup key).symm

/-- A member of a document. -/
theorem atKey_read {document : Document} (hnodup : (document.map Prod.fst).Nodup)
    {name : String} {part : Part} (hpart : document.lookup (ascii name) = some part) :
    document.read.atKey name = .ok part.read := by
  have hnames : ((document.map fun member => (member.1, member.2.read)).map Prod.fst).Nodup := by
    rw [List.map_map]
    exact hnodup
  refine Value.atKey_object ?_
  rw [lookup_insertionSort hnames, List.lookup_map_snd, hpart]
  rfl

/-- The digits of an integer that is not below zero. -/
theorem toNat_toUInt64 {n : Int64} (h : ¬n < 0) : (n.toUInt64.toNat : ℤ) = n.toInt := by
  have hnonneg : 0 ≤ n.toInt := by
    rw [Int64.lt_iff_toInt_lt] at h
    exact Int.not_lt.mp h
  rw [Int64.toNat_toUInt64_of_le (Int64.le_iff_toInt_le.mpr hnonneg)]
  exact Int.toNat_of_nonneg hnonneg

/-- The cast to an unsigned integer. -/
theorem ofInt_toInt (n : Int64) : UInt64.ofInt n.toInt = n.toUInt64 := by
  have hmod : n.toInt % (2 ^ 64 : ℕ) = n.toUInt64.toNat := by
    show n.toBitVec.toInt % (2 ^ 64 : ℕ) = (n.toBitVec.toNat : ℤ)
    rw [BitVec.toInt_eq_toNat_bmod, Int.bmod_emod]
    exact Int.emod_eq_of_lt (Int.natCast_nonneg _) (Int.ofNat_lt.mpr n.toBitVec.isLt)
  show UInt64.ofNat (n.toInt % (2 ^ 64 : ℕ)).toNat = n.toUInt64
  rw [hmod, Int.toNat_natCast, UInt64.ofNat_toNat]

/-- An `int` is cast from the kind it is read as to what it was. -/
theorem ofJson_readInteger (n : Int32) :
    ObjectVariants.ofJson (Scalar.readInteger n.toInt64) = .ok (.int n) := by
  rw [Scalar.readInteger]
  split_ifs with hneg
  · show Except.ok (ObjectVariants.int (Int32.ofInt n.toInt64.toInt)) = _
    rw [Int32.toInt_toInt64, Int32.ofInt_toInt]
  · show Except.ok (ObjectVariants.int (Int32.ofNat n.toInt64.toUInt64.toNat)) = _
    rw [← Int32.ofInt_eq_ofNat, toNat_toUInt64 hneg, Int32.toInt_toInt64, Int32.ofInt_toInt]

/-- **The value of a field is read back**, with its kind. -/
theorem ofJson_read (value : ObjectVariants) :
    ObjectVariants.ofJson (writeValue value).read = .ok value := by
  cases value with
  | string s => rfl
  | int n => exact ofJson_readInteger n
  | double d => rfl
  | bool b => rfl

/-- **A timestamp is read back**, also from the upper half of its range. -/
theorem getUint64_readInteger (timestamp : UInt64) :
    (Scalar.readInteger timestamp.toInt64).getUint64 toUint64 = .ok timestamp := by
  rw [Scalar.readInteger]
  split_ifs with hneg
  · show Except.ok (UInt64.ofInt timestamp.toInt64.toInt) = _
    rw [ofInt_toInt, UInt64.toUInt64_toInt64]
  · show Except.ok timestamp.toInt64.toUInt64 = _
    rw [UInt64.toUInt64_toInt64]

/-- **The fields of an object are read back**, in the order of their names. -/
theorem getRecord_read (fields : List (Bytes × ObjectVariants)) :
    getRecord (Part.object (fields.map fun field => (field.1, writeValue field.2))).read =
      .ok ((fields.insertionSort fun a b => a.1 ≤ b.1).foldl
        (fun record field => record.emplace field.1 field.2) ∅) := by
  have hsort : ((fields.map fun field => (field.1, (writeValue field.2).read)).insertionSort
        fun a b => a.1 ≤ b.1) =
      (fields.insertionSort fun a b => a.1 ≤ b.1).map
        fun field => (field.1, (writeValue field.2).read) :=
    (List.map_insertionSort _ _ (fun field : Bytes × ObjectVariants =>
      (field.1, (writeValue field.2).read)) fields fun _ _ _ _ => Iff.rfl).symm
  -- each value converts to the one that was written
  have hfold : ∀ (fields : List (Bytes × ObjectVariants)) (record : Object),
      (fields.map fun field => (field.1, (writeValue field.2).read)).foldlM
          (fun (record : Object) member => do
            let value ← ObjectVariants.ofJson member.2
            pure (record.emplace member.1 value)) record =
        .ok (fields.foldl (fun record field => record.emplace field.1 field.2) record) := by
    intro fields
    induction fields with
    | nil => exact fun _ => rfl
    | cons field fields ih =>
      intro record
      rw [List.map_cons, List.foldlM_cons, List.foldl_cons, ofJson_read]
      exact ih _
  rw [Part.read, List.map_map]
  show getRecord (.object (List.insertionSort _ (fields.map fun field =>
    (field.1, (writeValue field.2).read)))) = _
  rw [hsort]
  exact hfold _ ∅

/-! ### The messages of the journal -/

/-- The texts of a message are encoded in UTF-8, its names have no NUL, and its numbers
are finite. The name of an input is a text of the configuration, which the library has
read, so it is encoded in UTF-8. -/
structure JournalMessage.Valid (m : JournalMessage) : Prop where
  input : isUtf8 m.input
  name : ∀ key ∈ m.data, 0 ∉ key ∧ isUtf8 key
  value : ∀ key value, m.data.lookup key = some value → (writeValue value).writable

section Export

variable {m : JournalMessage} {order : IterationOrder}

/-- The entries of the map. -/
theorem JournalMessage.Valid.entries (hm : m.Valid) {entry : Sigma fun _ : Bytes => ObjectVariants}
    (hentry : entry ∈ order.entries m.data) :
    0 ∉ entry.1 ∧ isUtf8 entry.1 ∧ (writeValue entry.2).writable := by
  have hmem : entry ∈ m.data.entries := (order.perm _).mem_iff.mp hentry
  have hname := hm.name entry.1 (List.mem_map_of_mem hmem)
  exact ⟨hname.1, hname.2, hm.value entry.1 entry.2 (AList.mem_lookup_iff.mpr hmem)⟩

/-- No name is cut. -/
theorem document_eq (hm : m.Valid) : m.document order =
    [(ascii "data", .object (((order.entries m.data).map fun entry => (entry.1, entry.2)).map
        fun field => (field.1, writeValue field.2))),
      (ascii "timestamp", .scalar (.int64 m.timestamp.toInt64)),
      (ascii "input", .scalar (.string m.input))] := by
  have hcut : ((order.entries m.data).map fun entry => (cString entry.1, writeValue entry.2)) =
      ((order.entries m.data).map fun entry => (entry.1, entry.2)).map
        fun field => (field.1, writeValue field.2) := by
    rw [List.map_map]
    refine List.map_congr_left fun entry hentry => ?_
    rw [cString_eq_self (hm.entries hentry).1]
    rfl
  rw [JournalMessage.document, hcut]

/-- The names of the entries are different. -/
theorem nodup_entries (order : IterationOrder) (object : Object) :
    (((order.entries object).map fun entry => (entry.1, entry.2)).map Prod.fst).Nodup := by
  rw [List.map_map]
  exact order.nodupKeys object

/-- There is JSON for what is handed to the writer. -/
theorem writable_document (hm : m.Valid) : (m.document order).Writable where
  nodup := by
    show [ascii "data", ascii "timestamp", ascii "input"].Nodup
    decide
  members := by
    rw [document_eq hm]
    simp only [List.forall_mem_cons]
    refine ⟨⟨by decide, ?_, ?_⟩, ⟨by decide, rfl⟩, ⟨by decide, hm.input⟩, by simp⟩
    · rw [List.map_map]
      exact nodup_entries order m.data
    · intro member hmember
      obtain ⟨field, hfield, rfl⟩ := List.mem_map.mp hmember
      obtain ⟨entry, hentry, rfl⟩ := List.mem_map.mp hfield
      exact (hm.entries hentry).2

/-- The record as it is read. -/
def readRecord (order : IterationOrder) (record : Object) : Object :=
  (((order.entries record).map fun entry => (entry.1, entry.2)).insertionSort
    fun a b => a.1 ≤ b.1).foldl (fun record field => record.emplace field.1 field.2) ∅

/-- **It is the same map.** -/
theorem lookup_readRecord (order : IterationOrder) (record : Object) (key : Bytes) :
    (readRecord order record).lookup key = record.lookup key := by
  have hsort := (List.perm_insertionSort (fun a b : Bytes × ObjectVariants => a.1 ≤ b.1)
    ((order.entries record).map fun entry => (entry.1, entry.2))).symm.lookup_eq
    (nodup_entries order record) key
  rw [readRecord, Object.lookup_foldl_emplace, AList.lookup_empty, Option.none_or, ← hsort,
    Object.lookup_map_entries, order.dlookup_entries]

end Export

/-- **The JSON of a journal message can be read back.** Let the texts of a message be
encoded in UTF-8, its names without NUL, and its numbers finite. In whatever order the
map is gone through, constructing a message from the text succeeds. The fields are the
same, each with the kind of value it had, and so is the timestamp. -/
theorem journalMessage_export {write : Document → Bytes}
    {parse : Bytes → Except Nlohmann.Exception Value} (hjson : Lossless write parse)
    (toUint64 : Float → UInt64) (what : Bytes → Nlohmann.Exception → Bytes)
    (order : IterationOrder) (m : JournalMessage) (hm : m.Valid) (input : Bytes) :
    ∃ m', JournalMessage.ofJson parse toUint64 what input (m.exportMessage2Json write order) =
        .ok m' ∧
      m'.input = input ∧ (∀ key, m'.data.lookup key = m.data.lookup key) ∧
      m'.timestamp = m.timestamp := by
  have hwritable : (m.document order).Writable := writable_document hm
  have hdata : (m.document order).read.atKey "data" =
      .ok (Part.object (((order.entries m.data).map fun entry => (entry.1, entry.2)).map
        fun field => (field.1, writeValue field.2))).read :=
    atKey_read hwritable.nodup (by rw [document_eq hm]; rfl)
  have htimestamp : (m.document order).read.atKey "timestamp" =
      .ok (Part.scalar (.int64 m.timestamp.toInt64)).read :=
    atKey_read hwritable.nodup (by rw [document_eq hm]; rfl)
  have hread : readMessage parse toUint64 (m.exportMessage2Json write order) =
      .ok ⟨readRecord order m.data, m.timestamp⟩ := by
    refine Except.bind_eq_ok.mpr ⟨_, hjson _ hwritable, ?_⟩
    refine Except.bind_eq_ok.mpr ⟨_, hdata, ?_⟩
    refine Except.bind_eq_ok.mpr ⟨_, getRecord_read _, ?_⟩
    refine Except.bind_eq_ok.mpr ⟨_, htimestamp, ?_⟩
    exact Except.bind_eq_ok.mpr ⟨_, getUint64_readInteger toUint64 _, rfl⟩
  refine ⟨⟨⟨readRecord order m.data, m.timestamp⟩, input⟩, ?_, rfl,
    lookup_readRecord order m.data, rfl⟩
  rw [JournalMessage.ofJson, hread]
  rfl

/-! ### Libraries that agree -/

instance encodableInt64 : Encodable Int64 :=
  .ofLeftInverse Int64.toInt Int64.ofInt Int64.ofInt_toInt

deriving instance Encodable for Scalar

deriving instance Encodable for Part

section Library

variable (known : Document) (text : Bytes)

/-- A library that writes one document as its text, and numbers all the others. -/
def libraryWrite (document : Document) : Bytes :=
  if document = known then text else List.replicate (Encodable.encode document) 1

/-- The library that reads what that one has written. -/
def libraryParse (s : Bytes) : Except Nlohmann.Exception Value :=
  if s = text then .ok known.read
  else
    match (Encodable.decode s.length : Option Document) with
    | some document => .ok document.read
    | none => .error .parseError

theorem lossless_library (htext : 0 ∉ text) (hbrace : text.head? = some 123) :
    Lossless (libraryWrite known text) (libraryParse known text) := by
  intro document _
  rw [libraryWrite, libraryParse]
  by_cases hknown : document = known
  · rw [if_pos hknown, cString_eq_self htext, if_pos rfl, hknown]
  · have hnum : cString (List.replicate (Encodable.encode document) 1) =
        List.replicate (Encodable.encode document) 1 := by
      refine cString_eq_self fun hmem => ?_
      exact absurd (List.eq_of_mem_replicate hmem) (by decide)
    have hne : List.replicate (Encodable.encode document) 1 ≠ text := by
      rintro rfl
      have hmem := List.mem_of_mem_head? (Option.mem_def.mpr hbrace)
      exact absurd (List.eq_of_mem_replicate hmem) (by decide)
    rw [if_neg hknown, hnum, if_neg hne, List.length_replicate, Encodable.encodek]

end Library

/-- A message with a field and a time in the upper half of the range. -/
def sampleMessage : JournalMessage :=
  ⟨⟨(∅ : Object).insert (ascii "PRIORITY") (.int (-6)), 18446744073709551615⟩, ascii "journal"⟩

/-- What is handed to the writer for it. -/
def sampleDocument : Document :=
  [(ascii "data", .object [(ascii "PRIORITY", .int (-6))]),
    (ascii "timestamp", .scalar (.int64 (-1))),
    (ascii "input", .scalar (.string (ascii "journal")))]

example : sampleMessage.document .default = sampleDocument := rfl

/-- Its text. -/
def sampleText : Bytes :=
  ascii "\x7b\"data\":\x7b\"PRIORITY\":-6\x7d,\"timestamp\":-1,\"input\":\"journal\"\x7d"

theorem journalMessage_export_sample :
    ∃ m', JournalMessage.ofJson (libraryParse sampleDocument sampleText) Float.toUInt64
        (fun _ _ => []) (ascii "journal")
        (sampleMessage.exportMessage2Json (libraryWrite sampleDocument sampleText) .default) =
          .ok m' ∧
      m'.input = ascii "journal" ∧
      (∀ key, m'.data.lookup key = sampleMessage.data.lookup key) ∧
      m'.timestamp = 18446744073709551615 := by
  have hdata : ∀ key value, sampleMessage.data.lookup key = some value →
      key = ascii "PRIORITY" ∧ value = .int (-6) := by
    intro key value h
    rcases AList.lookup_insert_eq_some.mp h with ⟨rfl, rfl⟩ | ⟨-, h⟩
    · exact ⟨rfl, rfl⟩
    · exact absurd h (by simp)
  have hvalid : sampleMessage.Valid := by
    refine ⟨by decide, fun key hkey => ?_, fun key value h => ?_⟩
    · obtain ⟨value, hvalue⟩ := Option.isSome_iff_exists.mp (AList.lookup_isSome.mpr hkey)
      rw [(hdata key value hvalue).1]
      decide
    · rw [(hdata key value h).2]
      rfl
  exact journalMessage_export (lossless_library sampleDocument sampleText (by decide) rfl)
    Float.toUInt64 (fun _ _ => []) .default sampleMessage hvalid (ascii "journal")

end Journal

end IqLogger
