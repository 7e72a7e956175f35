import IqLogger.Formats.Gelf.Failures
import Mathlib.Data.List.TakeWhile
import Mathlib.Logic.Equiv.List
import Mathlib.Tactic.DeriveEncodable

/-!
# Dumping GELF messages

The way from a `gelf` back to a text. `dump` writes the fields in a fixed order, an
empty full message and a level of 0 left out, and then the additional fields, in
whatever order the map goes through them (`IqLogger.Gelf.IterationOrder`). What the
JSON library writes is a parameter of the model, like what it reads;
`IqLogger.Gelf.Lossless` says that it reads back what it has written.

So the parser finds in a dump exactly the fields that were written, each cut at its
first NUL. It accepts the dump if and only if these fields pass its checks, which is a
condition on the message alone (`IqLogger.Gelf.GelfData.Acceptable`,
`IqLogger.Gelf.gelf_dump_eq_ok`). A message that was parsed passes them, up to its
timestamp, which need not be finite, and nothing of it is cut
(`IqLogger.Gelf.parsed_of_gelf`). So a dump of it is parsed to the same message again:
`IqLogger.Gelf.gelf_dump`.
-/

namespace IqLogger

/-- A value the JSON library can write: there is no text for a number that is not
finite. -/
def ObjectVariants.isFinite : ObjectVariants → Bool
  | double d => d.isFinite
  | _ => true

/-- The value that is read for a value that was written. -/
def ObjectVariants.toValue : ObjectVariants → Rapidjson.Value
  | string s => .string s
  | int n => .int ⟨n.toInt, by have := n.le_toInt; have := n.toInt_lt; omega⟩
  | double d => .double d
  | bool b => .bool b

/-- The value as a handler of `const char*` sees it: a text ends at its first NUL. -/
def ObjectVariants.cut : ObjectVariants → ObjectVariants
  | string s => .string (cString s)
  | value => value

namespace Gelf

open Rapidjson

/-! ### The text -/

/-- The members of an object, as they are written. -/
abbrev Fields := List (Bytes × ObjectVariants)

/-- An order in which maps are gone through. -/
structure IterationOrder where
  entries : Object → List (Sigma fun _ : Bytes => ObjectVariants)
  perm : ∀ object, (entries object).Perm object.entries

namespace IterationOrder

variable (order : IterationOrder) (object : Object)

theorem nodupKeys : (order.entries object).NodupKeys :=
  (List.perm_nodupKeys (order.perm object)).mpr object.nodupKeys

theorem dlookup_entries (key : Bytes) : (order.entries object).dlookup key = object.lookup key :=
  List.perm_dlookup key (order.nodupKeys object) (order.perm object)

end IterationOrder

/-- The fields `dump` writes before the additional ones. -/
def systemFields (g : GelfData) : Fields :=
  [(ascii "version", .string g.version), (ascii "host", .string g.host),
      (ascii "short_message", .string g.shortMessage)] ++
    (if g.fullMessage = [] then [] else [(ascii "full_message", .string g.fullMessage)]) ++
    [(ascii "timestamp", .double g.timestamp)] ++
    if g.level = 0 then [] else [(ascii "level", .int (Int32.ofNat g.level.toNat))]

/-- All the fields `dump` writes. A name is passed on as a `const char*`. -/
def dumpFields (order : IterationOrder) (g : GelfData) : Fields :=
  systemFields g ++ (order.entries g.additionalFields).map fun field => (cString field.1, field.2)

variable (write : Fields → Bytes)

/-- `dump`. -/
def dump (order : IterationOrder) (g : GelfData) : Bytes := cString (write (dumpFields order g))

variable (parse : Bytes → Except ParseResult Value)

/-- **What the JSON library writes it reads back**, and it reads finite numbers
only. -/
structure Lossless : Prop where
  reads : ∀ fields : Fields, (∀ field ∈ fields, field.2.isFinite) →
    parse (cString (write fields)) =
      .ok (.object (fields.map fun field => (field.1, field.2.toValue)))
  finite : ∀ text members, parse text = .ok (.object members) →
    ∀ key d, (key, .double d) ∈ members → d.isFinite

/-! ### What the parser finds -/

/-- The members of a dump. -/
def dumpMembers (order : IterationOrder) (g : GelfData) : Members :=
  (dumpFields order g).map fun field => (field.1, field.2.toValue)

/-- The names of the additional fields begin with an underscore. -/
def GelfData.Underscored (g : GelfData) : Prop := ∀ key ∈ g.additionalFields, key.head? = some 95

/-- A name with an underscore keeps it when it is cut. -/
theorem head?_cString {key : Bytes} (h : key.head? = some 95) : (cString key).head? = some 95 := by
  rw [cString, List.head?_takeWhile, h]
  rfl

/-- No field of the system has a name with an underscore in front. -/
theorem isSystemField_eq_false {key : Bytes} (h : key.head? = some 95) :
    isSystemField key = false := by
  rw [isSystemField]
  simp only [Bool.or_eq_false_iff, decide_eq_false_iff_not]
  refine ⟨⟨⟨⟨⟨?_, ?_⟩, ?_⟩, ?_⟩, ?_⟩, ?_⟩
  all_goals
    rintro rfl
    exact absurd h (by decide)

/-- The additional fields as they are read from a dump. -/
def readFields (order : IterationOrder) (g : GelfData) : Object :=
  ((order.entries g.additionalFields).map fun field => (cString field.1, field.2.cut)).foldl
    (fun object field => object.emplace field.1 field.2) ∅

section Members

variable {order : IterationOrder} {g : GelfData}

/-- A field of the system is none of the additional fields. -/
theorem lookup_additionalFields (order : IterationOrder) (hg : g.Underscored) (name : Bytes)
    (hname : isSystemField name) :
    (((order.entries g.additionalFields).map fun field => (cString field.1, field.2)).map
      fun field => (field.1, field.2.toValue)).lookup name = none := by
  refine List.lookup_eq_none_iff.mpr fun member hmember => ?_
  obtain ⟨field, hfield, rfl⟩ := List.mem_map.mp hmember
  obtain ⟨entry, hentry, rfl⟩ := List.mem_map.mp hfield
  have hhead := head?_cString (hg entry.1 (List.mem_map_of_mem ((order.perm _).mem_iff.mp hentry)))
  have hne : name ≠ cString entry.1 := by
    rintro rfl
    rw [isSystemField_eq_false hhead] at hname
    exact absurd hname (by decide)
  simpa using hne

theorem findMember_fullMessage (hg : g.Underscored) :
    findMember "full_message" (dumpMembers order g) =
      if g.fullMessage = [] then none else some (.string g.fullMessage) := by
  have hrest := lookup_additionalFields order hg (ascii "full_message") (by decide)
  rw [findMember, dumpMembers, dumpFields, systemFields]
  split_ifs
  · exact hrest
  · exact hrest
  · rfl
  · rfl

theorem findMember_timestamp :
    findMember "timestamp" (dumpMembers order g) = some (.double g.timestamp) := by
  rw [findMember, dumpMembers, dumpFields, systemFields]
  split_ifs <;> rfl

theorem findMember_level (hg : g.Underscored) :
    findMember "level" (dumpMembers order g) =
      if g.level = 0 then none
      else some (ObjectVariants.int (Int32.ofNat g.level.toNat)).toValue := by
  have hrest := lookup_additionalFields order hg (ascii "level") (by decide)
  rw [findMember, dumpMembers, dumpFields, systemFields]
  split_ifs
  · exact hrest
  · rfl
  · exact hrest
  · rfl

/-! ### What the checks make of it -/

/-- An integer of the dump is read as an `int`. -/
theorem getInt_toValue (n : Int32) (h : -2 ^ 63 ≤ n.toInt ∧ n.toInt < 2 ^ 64) :
    Integer.isInt ⟨n.toInt, h⟩ = true ∧ Integer.getInt ⟨n.toInt, h⟩ = n := by
  have hle := n.le_toInt
  have hlt := n.toInt_lt
  refine ⟨?_, Int32.ofInt_toInt n⟩
  show (decide (-2 ^ 31 ≤ n.toInt) && decide (n.toInt < 2 ^ 31)) = true
  rw [Bool.and_eq_true, decide_eq_true_iff, decide_eq_true_iff]
  omega

theorem requiredString_dump {name notString incorrect notPresent : String} {accepts : Bytes → Bool}
    {s value : Bytes} (hfind : findMember name (dumpMembers order g) = some (.string s)) :
    requiredString (dumpMembers order g) name notString incorrect notPresent accepts = .ok value ↔
      accepts (cString s) ∧ cString s = value := by
  rw [requiredString_eq_ok, hfind]
  simp [getString]

theorem version_dump {value : Bytes} :
    version (dumpMembers order g) = .ok value ↔
      cString g.version = ascii "1.1" ∧ cString g.version = value := by
  rw [version, requiredString_dump rfl, decide_eq_true_iff]

theorem host_dump {value : Bytes} :
    host (dumpMembers order g) = .ok value ↔ cString g.host ≠ [] ∧ cString g.host = value := by
  rw [host, requiredString_dump rfl, decide_eq_true_iff]

theorem shortMessage_dump {value : Bytes} :
    shortMessage (dumpMembers order g) = .ok value ↔
      cString g.shortMessage ≠ [] ∧ cString g.shortMessage = value := by
  rw [shortMessage, requiredString_dump rfl, decide_eq_true_iff]

/-- A full message that is left out is read as an empty one. -/
theorem fullMessage_dump (hg : g.Underscored) :
    fullMessage (dumpMembers order g) = .ok (cString g.fullMessage) := by
  rw [fullMessage, findMember_fullMessage hg]
  by_cases hfull : g.fullMessage = []
  · rw [if_pos hfull, hfull]
    rfl
  · rw [if_neg hfull]
    rfl

theorem timestamp_dump {currentTime value : Float} :
    timestamp (dumpMembers order g) currentTime = .ok value ↔
      ¬g.timestamp < minTimestamp ∧ g.timestamp = value := by
  rw [timestamp, findMember_timestamp]
  show checkTimestamp g.timestamp = .ok value ↔ _
  rw [checkTimestamp]
  split_ifs with hmin
  · simp [hmin, parseError, throw, throwThe, MonadExceptOf.throw]
  · simp [hmin, pure, Except.pure]

/-- A level is read as it was written. -/
theorem readLevel_toValue (level : UInt8) :
    readLevel (ObjectVariants.int (Int32.ofNat level.toNat)).toValue = .ok level := by
  obtain ⟨hint, hget⟩ := getInt_toValue (Int32.ofNat level.toNat)
    (by have := (Int32.ofNat level.toNat).le_toInt
        have := (Int32.ofNat level.toNat).toInt_lt
        omega)
  have hlt := level.toNat_lt
  have hlevel : UInt8.ofInt (Int32.ofNat level.toNat).toInt = level := by
    rw [Int32.toInt_ofNat_of_lt (by omega), UInt8.ofInt, ← UInt8.toNat_inj]
    simp
    omega
  show (if Integer.isInt _ then pure (UInt8.ofInt (Integer.getInt _).toInt) else _) = _
  rw [if_pos hint, hget, hlevel]
  rfl

/-- A level of 0 is left out, and read as 1. -/
theorem level_dump (hg : g.Underscored) {value : UInt8} :
    level (dumpMembers order g) = .ok value ↔
      g.level < 10 ∧ (if g.level = 0 then 1 else g.level) = value := by
  rw [level, findMember_level hg]
  by_cases hzero : g.level = 0
  · rw [if_pos hzero, if_pos hzero, hzero]
    simp [pure, Except.pure]
  · rw [if_neg hzero, if_neg hzero]
    show (readLevel _ >>= checkLevel) = .ok value ↔ _
    rw [readLevel_toValue]
    show checkLevel g.level = .ok value ↔ _
    have hpos : ¬g.level < 1 := by
      rw [UInt8.lt_iff_toNat_lt]
      intro hlt
      exact hzero (UInt8.toNat_inj.mp (by simpa using hlt))
    rw [checkLevel]
    split_ifs with hlevel
    · have hten : ¬g.level < 10 := UInt8.not_lt.mpr (hlevel.resolve_left hpos)
      simp [hten, parseError, throw, throwThe, MonadExceptOf.throw]
    · have hten : g.level < 10 := UInt8.not_le.mp fun hc => hlevel (Or.inr hc)
      simp [hten, pure, Except.pure]

/-- A value is read as it was written, a text up to its first NUL. -/
theorem fieldValue_toValue (name : Bytes) (value : ObjectVariants) :
    fieldValue name value.toValue = .ok value.cut := by
  cases value with
  | string s => rfl
  | int n =>
    obtain ⟨hint, hget⟩ := getInt_toValue n (by have := n.le_toInt; have := n.toInt_lt; omega)
    show (if Integer.isInt _ then pure (ObjectVariants.int (Integer.getInt _)) else _) = _
    rw [if_pos hint, hget]
    rfl
  | double d => rfl
  | bool b => rfl

/-- The loop body, for an additional field of the dump. -/
theorem addField_toValue {key : Bytes} (hkey : key.head? = some 95) (value : ObjectVariants)
    (fields : Object) :
    addField fields (cString key, value.toValue) =
      .ok (fields.emplace (cString key) value.cut) := by
  have hhead := head?_cString hkey
  have hname : getString (cString key) = cString key := cString_idem key
  rw [addField]
  dsimp only
  rw [hname, isSystemField_eq_false hhead, fieldValue_toValue, withUnderscore, if_pos hhead]
  rfl

/-- The system's fields are skipped. -/
theorem foldlM_addField_system (members : Members)
    (hsystem : ∀ member ∈ members, isSystemField (getString member.1)) (fields : Object) :
    members.foldlM addField fields = .ok fields := by
  induction members with
  | nil => rfl
  | cons member members ih =>
    rw [List.foldlM_cons, addField, if_pos (hsystem member List.mem_cons_self)]
    exact ih fun m hm => hsystem m (List.mem_cons_of_mem _ hm)

theorem isSystemField_systemFields (g : GelfData) (field : Bytes × ObjectVariants)
    (hfield : field ∈ systemFields g) : isSystemField (getString field.1) := by
  have hnames : (systemFields g).map Prod.fst ⊆ [ascii "version", ascii "host",
      ascii "short_message", ascii "full_message", ascii "timestamp", ascii "level"] := by
    rw [systemFields]
    split_ifs <;> simp
  have hsystem : ∀ name ∈ [ascii "version", ascii "host", ascii "short_message",
      ascii "full_message", ascii "timestamp", ascii "level"], isSystemField (getString name) := by
    decide
  exact hsystem field.1 (hnames (List.mem_map_of_mem hfield))

/-- **The additional fields of a dump are all read.** -/
theorem additionalFields_dump (hg : g.Underscored) :
    additionalFields (dumpMembers order g) = .ok (readFields order g) := by
  have hrest : ∀ (entries : List (Sigma fun _ : Bytes => ObjectVariants)) (fields : Object),
      (∀ entry ∈ entries, entry.1.head? = some 95) →
      ((entries.map fun entry => (cString entry.1, entry.2)).map
          fun field => (field.1, field.2.toValue)).foldlM addField fields =
        .ok ((entries.map fun entry => (cString entry.1, entry.2.cut)).foldl
          (fun object field => object.emplace field.1 field.2) fields) := by
    intro entries
    induction entries with
    | nil => exact fun _ _ => rfl
    | cons entry entries ih =>
      intro fields hhead
      -- a name with an underscore is taken as it is, whatever was read before
      rw [List.map_cons, List.map_cons, List.map_cons, List.foldlM_cons, List.foldl_cons,
        addField_toValue (hhead entry List.mem_cons_self)]
      exact ih _ fun e he => hhead e (List.mem_cons_of_mem _ he)
  -- the fields of the system are skipped, and the others have an underscore
  rw [additionalFields, dumpMembers, dumpFields, List.map_append, List.foldlM_append,
    foldlM_addField_system]
  · exact hrest _ _ fun entry hentry =>
      hg entry.1 (List.mem_map_of_mem ((order.perm _).mem_iff.mp hentry))
  · rintro member hmember
    obtain ⟨field, hfield, rfl⟩ := List.mem_map.mp hmember
    exact isSystemField_systemFields g field hfield

/-! ### When a dump is accepted -/

/-- The fields pass the checks of the parser when they are written and read back. -/
structure GelfData.Acceptable (g : GelfData) : Prop where
  version : cString g.version = ascii "1.1"
  host : cString g.host ≠ []
  shortMessage : cString g.shortMessage ≠ []
  timestamp : ¬g.timestamp < minTimestamp
  level : g.level < 10

/-- Every number can be written. -/
structure GelfData.Finite (g : GelfData) : Prop where
  timestamp : g.timestamp.isFinite
  additionalFields : ∀ key value, g.additionalFields.lookup key = some value → value.isFinite

/-- The message as it is read from its dump. -/
def GelfData.reread (order : IterationOrder) (g : GelfData) : GelfData where
  version := cString g.version
  host := cString g.host
  shortMessage := cString g.shortMessage
  fullMessage := cString g.fullMessage
  timestamp := g.timestamp
  level := if g.level = 0 then 1 else g.level
  additionalFields := readFields order g

/-- The checks on the members of a dump. -/
theorem gelfOfMembers_dump (hg : g.Underscored) {currentTime : Float} {g' : GelfData} :
    gelfOfMembers (dumpMembers order g) currentTime = .ok g' ↔
      g.Acceptable ∧ g.reread order = g' := by
  rw [gelfOfMembers]
  simp only [Except.bind_eq_ok, version_dump, host_dump, shortMessage_dump, fullMessage_dump hg,
    timestamp_dump, level_dump hg, additionalFields_dump hg]
  constructor
  · rintro ⟨_, ⟨hversion, rfl⟩, _, ⟨hhost, rfl⟩, _, ⟨hshort, rfl⟩, _, ⟨⟩, _, ⟨htime, rfl⟩, _,
      ⟨hlevel, rfl⟩, _, ⟨⟩, ⟨⟩⟩
    exact ⟨⟨hversion, hhost, hshort, htime, hlevel⟩, rfl⟩
  · rintro ⟨h, rfl⟩
    exact ⟨_, ⟨h.version, rfl⟩, _, ⟨h.host, rfl⟩, _, ⟨h.shortMessage, rfl⟩, _, rfl, _,
      ⟨h.timestamp, rfl⟩, _, ⟨h.level, rfl⟩, _, rfl, rfl⟩

/-- All the values of a dump can be written. -/
theorem isFinite_dumpFields (hfinite : g.Finite) :
    ∀ field ∈ dumpFields order g, field.2.isFinite := by
  intro field hfield
  rw [dumpFields, List.mem_append] at hfield
  rcases hfield with hfield | hfield
  · have hsystem : ((systemFields g).all fun field => field.2.isFinite) = true := by
      rw [systemFields]
      split_ifs <;> simp [ObjectVariants.isFinite, hfinite.timestamp]
    exact List.all_eq_true.mp hsystem field hfield
  · obtain ⟨entry, hentry, rfl⟩ := List.mem_map.mp hfield
    have hmem : entry ∈ g.additionalFields.entries := (order.perm _).mem_iff.mp hentry
    exact hfinite.additionalFields entry.1 entry.2 (AList.mem_lookup_iff.mpr hmem)

end Members

variable {write : Fields → Bytes} {parse : Bytes → Except ParseResult Value}

/-- **When a dump is accepted, and what is read from it.** -/
theorem gelf_dump_eq_ok (hjson : Lossless write parse) {order : IterationOrder} {g g' : GelfData}
    (hg : g.Underscored) (hfinite : g.Finite) {currentTime : Float} :
    gelf parse currentTime (dump write order g) = .ok g' ↔
      g.Acceptable ∧ g.reread order = g' := by
  rw [gelf, dump, cString_idem, hjson.reads _ (isFinite_dumpFields hfinite)]
  exact gelfOfMembers_dump hg

/-! ### What was parsed is not changed -/

/-- An additional field as the parser leaves it. -/
structure ParsedField (key : Bytes) (value : ObjectVariants) : Prop where
  head : key.head? = some 95
  keyCut : cString key = key
  valueCut : value.cut = value
  finite : value.isFinite

/-- What the parser makes sure of: the fields pass its checks, and none of them holds a
NUL. -/
structure GelfData.Parsed (g : GelfData) : Prop where
  version : g.version = ascii "1.1"
  host : g.host ≠ [] ∧ cString g.host = g.host
  shortMessage : g.shortMessage ≠ [] ∧ cString g.shortMessage = g.shortMessage
  fullMessage : cString g.fullMessage = g.fullMessage
  timestamp : ¬g.timestamp < minTimestamp
  level : 1 ≤ g.level ∧ g.level < 10
  additionalFields : ∀ key value, g.additionalFields.lookup key = some value → ParsedField key value

theorem withUnderscore_cString (key : Bytes) :
    (withUnderscore (cString key)).head? = some 95 ∧
      cString (withUnderscore (cString key)) = withUnderscore (cString key) := by
  rw [withUnderscore]
  split_ifs with hhead
  · exact ⟨hhead, cString_idem key⟩
  · -- the name was cut before the underscore is put in front
    refine ⟨rfl, ?_⟩
    rw [cString, List.takeWhile_cons_of_pos (by decide)]
    exact congrArg _ (cString_idem key)

/-- The texts of the document are cut when they are read. -/
theorem fieldValue_parsed {name : Bytes} {value : Value} {v : ObjectVariants}
    (hfinite : ∀ d, value = .double d → d.isFinite) (h : fieldValue name value = .ok v) :
    v.cut = v ∧ v.isFinite := by
  cases value with
  | string s =>
    cases h
    exact ⟨congrArg _ (cString_idem s), rfl⟩
  | int n =>
    rw [fieldValue] at h
    split_ifs at h
    cases h
    exact ⟨rfl, rfl⟩
  | double d =>
    cases h
    exact ⟨rfl, hfinite d rfl⟩
  | bool b =>
    cases h
    exact ⟨rfl, rfl⟩
  | null => cases h
  | array elements => cases h
  | object members => cases h

/-- The loop body keeps the additional fields as they should be. -/
theorem addField_parsed {fields fields' : Object} {member : Bytes × Value}
    (hfinite : ∀ d, member.2 = .double d → d.isFinite)
    (hfields : ∀ key value, fields.lookup key = some value → ParsedField key value)
    (hadd : addField fields member = .ok fields') :
    ∀ key value, fields'.lookup key = some value → ParsedField key value := by
  rw [addField] at hadd
  split_ifs at hadd
  · cases hadd
    exact hfields
  · obtain ⟨v, hv, hadd⟩ := Except.bind_eq_ok.mp hadd
    cases hadd
    intro key value hlookup
    rw [Object.lookup_emplace] at hlookup
    rcases Option.or_eq_some_iff.mp hlookup with hold | ⟨-, hnew⟩
    · exact hfields key value hold
    · split_ifs at hnew with hkey
      cases hnew
      subst hkey
      obtain ⟨hhead, hcut⟩ := withUnderscore_cString member.1
      obtain ⟨hvalue, hvfinite⟩ := fieldValue_parsed hfinite hv
      exact ⟨hhead, hcut, hvalue, hvfinite⟩

theorem additionalFields_parsed (members : Members)
    (hfinite : ∀ key d, (key, Value.double d) ∈ members → d.isFinite) {fields : Object}
    (h : additionalFields members = .ok fields) :
    ∀ key value, fields.lookup key = some value → ParsedField key value := by
  have hfold : ∀ (members : Members) (before : Object),
      (∀ key d, (key, Value.double d) ∈ members → d.isFinite) →
      (∀ key value, before.lookup key = some value → ParsedField key value) →
      members.foldlM addField before = .ok fields →
      ∀ key value, fields.lookup key = some value → ParsedField key value := by
    intro members
    induction members with
    | nil =>
      rintro before - hbefore ⟨⟩
      exact hbefore
    | cons member members ih =>
      intro before hfinite hbefore h
      rw [List.foldlM_cons] at h
      obtain ⟨after, hadd, h⟩ := Except.bind_eq_ok.mp h
      refine ih after (fun key d hd => hfinite key d (List.mem_cons_of_mem _ hd)) ?_ h
      refine addField_parsed (fun d hd => hfinite member.1 d ?_) hbefore hadd
      rw [← hd]
      exact List.mem_cons_self
  exact hfold members ∅ hfinite (fun key value hlookup => by simp at hlookup) h

/-- A level that passed the check. -/
theorem level_parsed {members : Members} {value : UInt8} (h : level members = .ok value) :
    1 ≤ value ∧ value < 10 := by
  rw [level] at h
  split at h
  · obtain ⟨v, -, hcheck⟩ := Except.bind_eq_ok.mp h
    rw [checkLevel] at hcheck
    split_ifs at hcheck with hlevel
    · cases hcheck
    · cases hcheck
      exact ⟨UInt8.not_lt.mp fun hc => hlevel (Or.inl hc),
        UInt8.not_le.mp fun hc => hlevel (Or.inr hc)⟩
  · cases h
    decide

/-- A timestamp that passed the check, or was not checked. -/
theorem timestamp_parsed {members : Members} {currentTime t : Float}
    (hnow : ¬currentTime < minTimestamp) (h : timestamp members currentTime = .ok t) :
    ¬t < minTimestamp := by
  rw [timestamp] at h
  split at h
  · obtain ⟨v, -, hcheck⟩ := Except.bind_eq_ok.mp h
    rw [checkTimestamp] at hcheck
    split_ifs at hcheck with hmin
    · cases hcheck
    · cases hcheck
      exact hmin
  · cases h
    exact hnow

theorem requiredString_parsed {members : Members} {name notString incorrect notPresent : String}
    {accepts : Bytes → Bool} {value : Bytes}
    (h : requiredString members name notString incorrect notPresent accepts = .ok value) :
    accepts value ∧ cString value = value := by
  obtain ⟨s, -, haccepts, rfl⟩ := requiredString_eq_ok.mp h
  exact ⟨haccepts, cString_idem s⟩

theorem fullMessage_parsed {members : Members} {value : Bytes}
    (h : fullMessage members = .ok value) : cString value = value := by
  rw [fullMessage] at h
  split at h
  · cases h
    exact cString_idem _
  · cases h
  · cases h
    rfl

/-- **What the parser makes sure of.** -/
theorem parsed_of_gelf (hjson : Lossless write parse) {currentTime : Float}
    (hnow : ¬currentTime < minTimestamp) {message : Bytes} {g : GelfData}
    (h : gelf parse currentTime message = .ok g) : g.Parsed := by
  obtain ⟨members, hparse, hmembers⟩ := gelf_eq_ok.mp h
  obtain ⟨hversion, hhost, hshort, hfull, htime, hlevel, hfields⟩ :=
    gelfOfMembers_eq_ok.mp hmembers
  obtain ⟨hversion, -⟩ := requiredString_parsed hversion
  obtain ⟨hhost, hhostcut⟩ := requiredString_parsed hhost
  obtain ⟨hshort, hshortcut⟩ := requiredString_parsed hshort
  exact ⟨by simpa using hversion, ⟨by simpa using hhost, hhostcut⟩,
    ⟨by simpa using hshort, hshortcut⟩, fullMessage_parsed hfull, timestamp_parsed hnow htime,
    level_parsed hlevel, additionalFields_parsed members (hjson.finite _ _ hparse) hfields⟩

namespace GelfData.Parsed

variable {g : GelfData} (hg : g.Parsed)

include hg

theorem underscored : g.Underscored := by
  intro key hkey
  obtain ⟨value, hvalue⟩ := Option.isSome_iff_exists.mp (AList.lookup_isSome.mpr hkey)
  exact (hg.additionalFields key value hvalue).head

/-- A parsed message passes the checks again. -/
theorem acceptable : g.Acceptable where
  version := by
    rw [hg.version]
    decide
  host := by
    rw [hg.host.2]
    exact hg.host.1
  shortMessage := by
    rw [hg.shortMessage.2]
    exact hg.shortMessage.1
  timestamp := hg.timestamp
  level := hg.level.2

end GelfData.Parsed

/-! ### There and back -/

/-- The additional fields are read back as they were, in whatever order they were
written. -/
theorem lookup_readFields {order : IterationOrder} {g : GelfData} (hg : g.Parsed) (key : Bytes) :
    (readFields order g).lookup key = g.additionalFields.lookup key := by
  have hentry : ∀ entry ∈ order.entries g.additionalFields,
      (cString entry.1, entry.2.cut) = (entry.1, entry.2) := by
    intro entry hentry
    have hmem : entry ∈ g.additionalFields.entries := (order.perm _).mem_iff.mp hentry
    have hfield := hg.additionalFields entry.1 entry.2 (AList.mem_lookup_iff.mpr hmem)
    rw [hfield.keyCut, hfield.valueCut]
  -- no name and no text changes, so the fields come back in the order of the dump
  rw [readFields, List.map_congr_left hentry, Object.lookup_foldl_emplace, AList.lookup_empty,
    Option.none_or, Object.lookup_map_entries, order.dlookup_entries]

/-- **Parsing undoes dumping.** Let a text be parsed to a message with a finite
timestamp, at a time that is not before 2019. Whatever the order in which the dump goes
through the additional fields, and whatever the time at which the dump is parsed, the
parser accepts it, and what it finds is the message: the fields of the system are the
same, and the additional fields are the same map. -/
theorem gelf_dump (hjson : Lossless write parse) (order : IterationOrder)
    {currentTime : Float} (hnow : ¬currentTime < minTimestamp) {message : Bytes} {g : GelfData}
    (h : gelf parse currentTime message = .ok g) (hfinite : g.timestamp.isFinite)
    (laterTime : Float) :
    ∃ g', gelf parse laterTime (dump write order g) = .ok g' ∧ g'.version = g.version ∧
      g'.host = g.host ∧ g'.shortMessage = g.shortMessage ∧ g'.fullMessage = g.fullMessage ∧
      g'.timestamp = g.timestamp ∧ g'.level = g.level ∧
      ∀ key, g'.additionalFields.lookup key = g.additionalFields.lookup key := by
  have hg := parsed_of_gelf hjson hnow h
  have hnumbers : g.Finite :=
    ⟨hfinite, fun key value hvalue => (hg.additionalFields key value hvalue).finite⟩
  have hversion : cString g.version = g.version := by
    rw [hg.version]
    decide
  -- a level of 0 would be left out of the dump, and read as 1
  have hlevel : ¬g.level = 0 := by
    rintro hzero
    have hone := hg.level.1
    rw [hzero] at hone
    exact absurd hone (by decide)
  exact ⟨g.reread order, (gelf_dump_eq_ok hjson hg.underscored hnumbers).mpr ⟨hg.acceptable, rfl⟩,
    hversion, hg.host.2, hg.shortMessage.2, hg.fullMessage, rfl, if_neg hlevel,
    lookup_readFields hg⟩

/-! ### A lossless library -/

instance encodableUInt8 : Encodable UInt8 :=
  .ofLeftInverse UInt8.toNat UInt8.ofNat fun _ => UInt8.ofNat_toNat

instance encodableInt32 : Encodable Int32 :=
  .ofLeftInverse Int32.toInt Int32.ofInt Int32.ofInt_toInt

instance decidableValid (b : BitVec Float.Model.Format.binary64.numBits) :
    Decidable (Float.Model.Format.binary64.Valid b) :=
  decidable_of_iff
    (Float.Model.UnpackedFloat.unpackExponent b = (-1#_) →
      Float.Model.UnpackedFloat.unpackMantissa b ≠ 0#_ →
      b = Float.Model.UnpackedFloat.packedNaN Float.Model.Format.binary64)
    ⟨fun h => ⟨h⟩, fun h => h.eq_packedNaN⟩

/-- A number is encoded by its bits. -/
instance encodableFloat : Encodable Float :=
  .ofLeftInjection (fun d => d.toModel.toBits.toNat)
    (fun n =>
      if h : Float.Model.Format.binary64.Valid (UInt64.ofNat n).toBitVec then
        some ⟨⟨UInt64.ofNat n, h⟩⟩
      else none)
    fun d => by
      generalize hbits : UInt64.ofNat d.toModel.toBits.toNat = bits
      rw [UInt64.ofNat_toNat] at hbits
      subst hbits
      exact dif_pos d.toModel.valid

deriving instance Encodable for ObjectVariants

section Library

variable (known : Fields) (text : Bytes)

/-- A library that writes some fields as their text, and numbers all other lists of
fields. -/
def libraryWrite (fields : Fields) : Bytes :=
  if fields = known then text else List.replicate (Encodable.encode fields) 1

/-- It reads what it has written, unless a number in it is not finite. -/
def libraryParse (s : Bytes) : Except ParseResult Value :=
  if s = text then .ok (.object (known.map fun field => (field.1, field.2.toValue)))
  else
    match (Encodable.decode s.length : Option Fields) with
    | some fields =>
      if fields.all fun field => field.2.isFinite then
        .ok (.object (fields.map fun field => (field.1, field.2.toValue)))
      else .error ⟨3, 0, ascii "Invalid value."⟩
    | none => .error ⟨3, 0, ascii "Invalid value."⟩

variable {known text} (hknown : known.all fun field => field.2.isFinite)
  (hbrace : text.head? = some 123)

include hbrace in
/-- What is read of the fields that have no text of their own. -/
theorem libraryParse_libraryWrite {fields : Fields} (hfields : fields ≠ known) :
    libraryParse known text (cString (libraryWrite known text fields)) =
      if fields.all fun field => field.2.isFinite then
        .ok (.object (fields.map fun field => (field.1, field.2.toValue)))
      else .error ⟨3, 0, ascii "Invalid value."⟩ := by
  have hcut : cString (List.replicate (Encodable.encode fields) 1) =
      List.replicate (Encodable.encode fields) 1 := by
    rw [cString, List.takeWhile_replicate]
    rfl
  have hne : List.replicate (Encodable.encode fields) 1 ≠ text := by
    rintro rfl
    have hmem := List.mem_of_mem_head? (Option.mem_def.mpr hbrace)
    exact absurd (List.eq_of_mem_replicate hmem) (by decide)
  rw [libraryWrite, if_neg hfields, hcut, libraryParse, if_neg hne, List.length_replicate,
    Encodable.encodek]

include hknown hbrace in
theorem lossless_library (htext : cString text = text) :
    Lossless (libraryWrite known text) (libraryParse known text) where
  reads fields hfinite := by
    by_cases hfields : fields = known
    · rw [libraryWrite, if_pos hfields, htext, libraryParse, if_pos rfl, hfields]
    · rw [libraryParse_libraryWrite hbrace hfields]
      exact if_pos (List.all_eq_true.mpr hfinite)
  finite s members hparse key d hd := by
    have hall : ∀ fields : Fields, (fields.all fun field => field.2.isFinite) = true →
        (key, Value.double d) ∈ fields.map (fun field => (field.1, field.2.toValue)) →
        d.isFinite := by
      intro fields hfinite hmem
      obtain ⟨⟨name, value⟩, hfield, heq⟩ := List.mem_map.mp hmem
      cases value with
      | double e =>
        obtain ⟨-, ⟨⟩⟩ := Prod.mk.inj heq
        exact List.all_eq_true.mp hfinite _ hfield
      | string s => exact absurd (Prod.mk.inj heq).2 (by simp [ObjectVariants.toValue])
      | int n => exact absurd (Prod.mk.inj heq).2 (by simp [ObjectVariants.toValue])
      | bool b => exact absurd (Prod.mk.inj heq).2 (by simp [ObjectVariants.toValue])
    rw [libraryParse] at hparse
    split_ifs at hparse
    · cases hparse
      exact hall known hknown hd
    · split at hparse
      · split_ifs at hparse with hfinite
        cases hparse
        exact hall _ hfinite hd
      · cases hparse

include hknown hbrace in
/-- What the library writes for a number that is not finite it does not read. -/
theorem libraryParse_error {fields : Fields} (hfields : ∃ field ∈ fields, ¬field.2.isFinite) :
    ∃ e, libraryParse known text (cString (libraryWrite known text fields)) = .error e := by
  obtain ⟨field, hfield, hinfinite⟩ := hfields
  have hne : fields ≠ known := by
    rintro rfl
    exact hinfinite (List.all_eq_true.mp hknown field hfield)
  have hnot : ¬(fields.all fun field => field.2.isFinite) = true := fun hall =>
    hinfinite (List.all_eq_true.mp hall field hfield)
  exact ⟨_, (libraryParse_libraryWrite hbrace hne).trans (if_neg hnot)⟩

end Library

/-- The order of the entries themselves. -/
def IterationOrder.default : IterationOrder := ⟨AList.entries, fun _ => .refl _⟩

/-- A message with an additional field. -/
def sampleMessage : GelfData :=
  ⟨ascii "1.1", ascii "web", ascii "hi", [], 1600000000.5, 3,
    (∅ : Object).insert (ascii "_user") (.string (ascii "u"))⟩

/-- Its text. -/
def sampleText : Bytes :=
  ascii "\x7b\"version\":\"1.1\",\"host\":\"web\",\"short_message\":\"hi\"," ++
    ascii "\"timestamp\":1600000000.5,\"level\":3,\"_user\":\"u\"\x7d"

/-- The fields of that text, in the order of the text. -/
def sampleFields : Fields :=
  [(ascii "version", .string (ascii "1.1")), (ascii "host", .string (ascii "web")),
    (ascii "short_message", .string (ascii "hi")), (ascii "timestamp", .double 1600000000.5),
    (ascii "level", .int 3), (ascii "_user", .string (ascii "u"))]

theorem gelf_dump_sample :
    ∃ g', gelf (libraryParse sampleFields sampleText) 1800000000
        (dump (libraryWrite sampleFields sampleText) .default sampleMessage) = .ok g' ∧
      g'.version = ascii "1.1" ∧ g'.host = ascii "web" ∧ g'.shortMessage = ascii "hi" ∧
      g'.fullMessage = [] ∧ g'.timestamp = 1600000000.5 ∧ g'.level = 3 ∧
      ∀ key, g'.additionalFields.lookup key = sampleMessage.additionalFields.lookup key :=
  @gelf_dump _ _ (lossless_library (by decide) rfl rfl) .default 1700000000
    (by decide) sampleText sampleMessage rfl (by decide) 1800000000

end Gelf

end IqLogger
