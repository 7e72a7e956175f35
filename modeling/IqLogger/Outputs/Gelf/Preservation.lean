import IqLogger.Formats.Gelf.Soundness
import IqLogger.Outputs.Gelf.Escape

/-!
# What a JSON document keeps as GELF

The members of a JSON object become additional fields with an underscore in front of their
names. Two members of different names can come to the same field, as `a` and `_a` do, and then
the first one stays; a member without a name is no field at all; and a name ends at its first
NUL when the message is dumped. The values are those of `ObjectVariants`, where an integer has
32 bits, and the JSON library keeps the lowest of 64.

So not every scalar member is found in the text that is sent
(`IqLogger.Gelf.Preserved`). The objects where they all are have a description of their own,
`IqLogger.Gelf.Preservable`, and it is exact: `IqLogger.Gelf.preserved_iff`.
-/

namespace IqLogger

namespace Gelf

open Rapidjson

/-! ### Values in the two libraries -/

/-- The value of the other library for a scalar. -/
def written : Nlohmann.Value → Option Value
  | .string s => some (.string s)
  | .integer n => some (.int ⟨n.toInt, by have := n.le_toInt; have := n.toInt_lt; omega⟩)
  | .unsigned n => some (.int ⟨n.toNat, by have := n.toNat_lt; omega⟩)
  | .float d => some (.double d)
  | .boolean b => some (.bool b)
  | _ => none

theorem isField_iff_written {value : Nlohmann.Value} :
    Record.isField value ↔ ∃ v, written value = some v := by
  cases value <;> simp [Record.isField, Nlohmann.Value.isString, Nlohmann.Value.isNumber,
    Nlohmann.Value.isBoolean, written]

/-- An integer of 32 bits, or no integer. -/
def FitsInt : Nlohmann.Value → Prop
  | .integer n => -2 ^ 31 ≤ n.toInt ∧ n.toInt < 2 ^ 31
  | .unsigned n => n.toNat < 2 ^ 31
  | _ => True

/-- What a field holds has 32 bits. -/
theorem fitsInt_of_written {value : Nlohmann.Value} {v : ObjectVariants}
    (h : written value = some v.toValue) : FitsInt value := by
  have hint : ∀ {n : Integer}, Value.int n = v.toValue → -2 ^ 31 ≤ n.1 ∧ n.1 < 2 ^ 31 := by
    intro n hn
    cases v with
    | int k =>
      have hk : n.1 = k.toInt := by
        cases hn
        rfl
      rw [hk]
      exact ⟨k.le_toInt, k.toInt_lt⟩
    | string s => cases hn
    | double d => cases hn
    | bool b => cases hn
  cases value with
  | integer n => exact hint (Option.some.inj h)
  | unsigned n =>
    have hn := (hint (Option.some.inj h)).2
    change (n.toNat : ℤ) < 2 ^ 31 at hn
    change n.toNat < 2 ^ 31
    omega
  | null | boolean _ | float _ | string _ | array _ | object _ => trivial

/-- **A conversion keeps a value** when an integer has 32 bits. -/
theorem written_of_ofJson {value : Nlohmann.Value} {v : ObjectVariants}
    (h : ObjectVariants.ofJson value = .ok v) (hfits : FitsInt value) :
    written value = some v.toValue := by
  cases value with
  | integer n =>
    cases h
    have hn : (Int32.ofInt n.toInt).toInt = n.toInt := toInt_ofInt hfits
    exact congrArg (fun k => some (Value.int k)) (Subtype.ext hn.symm)
  | unsigned n =>
    cases h
    have hn : (Int32.ofNat n.toNat).toInt = n.toNat := Int32.toInt_ofNat_of_lt hfits
    exact congrArg (fun k => some (Value.int k)) (Subtype.ext hn.symm)
  | float d =>
    cases h
    rfl
  | boolean b =>
    cases h
    rfl
  | string s =>
    cases h
    rfl
  | null => cases h
  | array elements => cases h
  | object members => cases h

/-! ### The condition -/

/-- A member that should become an additional field. -/
structure Additional (members : List (Bytes × Nlohmann.Value)) (member : Bytes × Nlohmann.Value) :
    Prop where
  mem : member ∈ members
  isField : Record.isField member.2
  name : isSystemField member.1 = false

/-- **Every scalar member is found in the text**, under its name with an underscore and with
its value. -/
def Preserved (env : Environment) (members : List (Bytes × Nlohmann.Value)) : Prop :=
  ∃ text fields, Record.ofJson env (.object members) = .ok text ∧
    env.parse text = .ok (.object fields) ∧
    ∀ member, Additional members member →
      ∀ value, written member.2 = some value → (withUnderscore member.1, value) ∈ fields

/-- The objects that are kept: the fields of the system have their types, no name has a NUL
in it, the field of a member without a name is there by another member, members that come to
one field have one value, and integers have 32 bits. -/
structure Preservable (members : List (Bytes × Nlohmann.Value)) : Prop where
  settable : ∀ member ∈ members, Record.isField member.2 → Settable member
  names : ∀ member, Additional members member → 0 ∉ member.1
  unnamed : ∀ member, Additional members member → member.1 = [] →
    ∃ other, Additional members other ∧ other.1 = ascii "_"
  distinct : ∀ member other, Additional members member → Additional members other →
    withUnderscore member.1 = withUnderscore other.1 → written member.2 = written other.2
  integers : ∀ member, Additional members member → FitsInt member.2

/-! ### The text -/

/-- A field with an underscore in a dump is an additional field. -/
theorem mem_dumpMembers {order : IterationOrder} {g : GelfData} {key : Bytes} {value : Value}
    (hkey : key.head? = some 95) :
    (key, value) ∈ dumpMembers order g ↔
      ∃ key' v, g.additionalFields.lookup key' = some v ∧ cString key' = key ∧
        v.toValue = value := by
  have hentry : ∀ key' v, g.additionalFields.lookup key' = some v ↔
      ⟨key', v⟩ ∈ order.entries g.additionalFields := fun key' v => by
    rw [(order.perm _).mem_iff]
    exact AList.mem_lookup_iff
  rw [dumpMembers, List.mem_map]
  constructor
  · rintro ⟨field, hfield, heq⟩
    obtain ⟨rfl, rfl⟩ := Prod.mk.inj heq
    rw [dumpFields, List.mem_append] at hfield
    rcases hfield with hsystem | hfield
    · -- the fields of the system have no underscore
      have hname := isSystemField_systemFields g field hsystem
      rw [getString, isSystemField_eq_false (head?_cString hkey)] at hname
      cases hname
    · obtain ⟨entry, hmem, rfl⟩ := List.mem_map.mp hfield
      exact ⟨entry.1, entry.2, (hentry _ _).mpr hmem, rfl, rfl⟩
  · rintro ⟨key', v, hlookup, rfl, rfl⟩
    refine ⟨(cString key', v), ?_, rfl⟩
    rw [dumpFields, List.mem_append]
    exact Or.inr (List.mem_map.mpr ⟨⟨key', v⟩, (hentry _ _).mp hlookup, rfl⟩)

section Text

variable {env : Environment} {members : List (Bytes × Nlohmann.Value)}

/-- A number of a document is a finite time. -/
theorem finite_time {value : Nlohmann.Value} (hvalue : value.WellFormed) {t : Float}
    (h : env.jsonValues.time value = some t) : t.isFinite := by
  cases hvalue with
  | integer n =>
    cases h
    have hle := n.le_toInt
    have hlt := n.toInt_lt
    exact Float.isFinite_ofInt ⟨by omega, by omega⟩
  | unsigned n =>
    cases h
    have hlt := n.toNat_lt
    exact Float.isFinite_ofInt (n := n.toNat) ⟨by omega, by omega⟩
  | float d hfinite =>
    cases h
    exact hfinite
  | null => cases h
  | boolean b => cases h
  | string s => cases h
  | array elements _ => cases h
  | object fields _ _ => cases h

/-- The message that is made of a document can be written. -/
theorem finite_setMembers (hmembers : (Nlohmann.Value.object members).WellFormed)
    (hnow : env.currentTime.isFinite) : (Record.setMembers env env.gelf members).1.Finite := by
  refine ⟨?_, fun key value h => (sound_setMembers hmembers key value h).2⟩
  have htime : (Record.setMembers env env.gelf members).1.timestamp =
      ((env.jsonValues.given (jsonFields members) "timestamp").bind env.jsonValues.time).getD
        env.gelf.timestamp := setFields_timestamp (nodup_jsonFields hmembers)
  rw [htime]
  refine (getD_iff (P := fun t : Float => t.isFinite) hnow).mpr fun t ht => ?_
  obtain ⟨value, hgiven, ht⟩ := Option.bind_eq_some_iff.mp ht
  rw [FieldType.given] at hgiven
  have hmem : (ascii "timestamp", value) ∈ (jsonFields members).takeWhile env.jsonValues.accepts :=
    List.mem_of_lookup_eq_some hgiven
  exact finite_time (hmembers.of_mem (List.mem_of_mem_filter (List.takeWhile_subset _ hmem))) ht

/-- **The text of a document**, when its fields have their types. -/
theorem ofJson_eq_ok (hjson : Lossless env.write env.parse) (hnow : env.currentTime.isFinite)
    (hmembers : (Nlohmann.Value.object members).WellFormed)
    (hall : ∀ field ∈ jsonFields members, env.jsonValues.accepts field) :
    ∃ text, Record.ofJson env (.object members) = .ok text ∧
      env.parse text =
        .ok (.object (dumpMembers env.order (Record.setMembers env env.gelf members).1)) := by
  have hnone : (Record.setMembers env env.gelf members).2 = none :=
    decided_setField.loop_eq_none_iff.mpr hall
  refine ⟨env.exportMessage (Record.setMembers env env.gelf members).1, ?_, ?_⟩
  · change Record.finishLoop env (Record.setMembers env env.gelf members) = _
    rcases hresult : Record.setMembers env env.gelf members with ⟨g, _ | e⟩
    · rfl
    · rw [hresult] at hnone
      cases hnone
  · exact hjson.reads _ (isFinite_dumpFields (finite_setMembers hmembers hnow))

/-- The fields have their types if the members can be set. -/
theorem accepts_of_settable
    (hsettable : ∀ member ∈ members, Record.isField member.2 → Settable member) :
    ∀ field ∈ jsonFields members, env.jsonValues.accepts field := by
  intro field hfield
  obtain ⟨hmem, hscalar⟩ := List.mem_filter.mp hfield
  exact (accepts_iff_settable hscalar).mpr (hsettable field hmem hscalar)

/-- The additional fields come from the members that have a name. -/
theorem lookup_setMembers (hall : ∀ field ∈ jsonFields members, env.jsonValues.accepts field)
    (key : Bytes) :
    (Record.setMembers env env.gelf members).1.additionalFields.lookup key =
      (env.jsonValues.added (jsonFields members)).lookup key := by
  have h := @lookup_setFields _ env.jsonValues env.gelf _ hall key
  rwa [Environment.gelf, GelfData.default, AList.lookup_empty, Option.none_or] at h

theorem mem_added_jsonFields {key : Bytes} {v : ObjectVariants} :
    (key, v) ∈ env.jsonValues.added (jsonFields members) ↔
      ∃ member, Additional members member ∧ member.1 ≠ [] ∧
        ObjectVariants.ofJson member.2 = .ok v ∧ withUnderscore member.1 = key := by
  rw [FieldType.mem_added]
  constructor
  · rintro ⟨member, hmem, hne, hname, hvalue, hkey⟩
    obtain ⟨hmem, hfield⟩ := List.mem_filter.mp hmem
    exact ⟨member, ⟨hmem, hfield, hname⟩, hne, Except.mapError_eq_ok.mp hvalue, hkey⟩
  · rintro ⟨member, hmember, hne, hvalue, hkey⟩
    exact ⟨member, List.mem_filter.mpr ⟨hmember.mem, hmember.isField⟩, hne, hmember.name,
      Except.mapError_eq_ok.mpr hvalue, hkey⟩

end Text

/-! ### What is kept -/

theorem head?_withUnderscore (name : Bytes) : (withUnderscore name).head? = some 95 := by
  rw [withUnderscore]
  split_ifs with hhead
  · exact hhead
  · rfl

/-- The name of the field of a member without a name. -/
theorem eq_underscore {name : Bytes} (hne : name ≠ []) (h : withUnderscore name = ascii "_") :
    name = ascii "_" := by
  rw [withUnderscore] at h
  split_ifs at h with hhead
  · exact h
  · exact absurd (List.cons.inj h).2 hne

section Kept

variable {env : Environment} {members : List (Bytes × Nlohmann.Value)}
  (hjson : Lossless env.write env.parse) (hnow : env.currentTime.isFinite)
  (hmembers : (Nlohmann.Value.object members).WellFormed)

include hjson hnow hmembers

/-- **What is kept of an object meets the condition.** -/
theorem Preserved.preservable (h : Preserved env members) : Preservable members := by
  obtain ⟨text, fields, htext, hfields, hkept⟩ := h
  have hsettable : ∀ member ∈ members, Record.isField member.2 → Settable member :=
    (ofJson_iff (.object members)).mp ⟨text, htext⟩
  have hall : ∀ field ∈ jsonFields members, env.jsonValues.accepts field :=
    accepts_of_settable hsettable
  obtain ⟨text', htext', hfields'⟩ := ofJson_eq_ok hjson hnow hmembers hall
  cases htext.symm.trans htext'
  cases hfields.symm.trans hfields'
  -- every member has a field that was added, and its name is cut to that of the member
  have hstored : ∀ member, Additional members member → ∃ key v,
      (key, v) ∈ env.jsonValues.added (jsonFields members) ∧
      (Record.setMembers env env.gelf members).1.additionalFields.lookup key = some v ∧
      cString key = withUnderscore member.1 ∧ written member.2 = some v.toValue := by
    intro member hmember
    obtain ⟨value, hvalue⟩ := isField_iff_written.mp hmember.isField
    obtain ⟨key, v, hlookup, hkey, rfl⟩ :=
      (mem_dumpMembers (head?_withUnderscore _)).mp (hkept member hmember value hvalue)
    refine ⟨key, v, ?_, hlookup, hkey, hvalue⟩
    rw [lookup_setMembers hall] at hlookup
    exact List.mem_of_lookup_eq_some hlookup
  have hnames : ∀ member, Additional members member → 0 ∉ member.1 := by
    intro member hmember
    obtain ⟨key, v, -, -, hkey, -⟩ := hstored member hmember
    rw [← zero_mem_withUnderscore, ← hkey]
    exact zero_notMem_cString key
  have hcut : ∀ key v, (key, v) ∈ env.jsonValues.added (jsonFields members) →
      cString key = key := by
    intro key v hadded
    obtain ⟨member, hmember, -, -, rfl⟩ := mem_added_jsonFields.mp hadded
    exact cString_eq_self (zero_mem_withUnderscore.not.mpr (hnames member hmember))
  refine ⟨hsettable, hnames, ?_, ?_, ?_⟩
  · intro member hmember hempty
    obtain ⟨key, v, hadded, -, hkey, -⟩ := hstored member hmember
    obtain ⟨other, hother, hne, -, hname⟩ := mem_added_jsonFields.mp hadded
    rw [hcut key v hadded, hempty] at hkey
    exact ⟨other, hother, eq_underscore hne (hname.trans hkey)⟩
  · intro member other hmember hother hname
    obtain ⟨key, v, hadded, hlookup, hkey, hvalue⟩ := hstored member hmember
    obtain ⟨key', v', hadded', hlookup', hkey', hvalue'⟩ := hstored other hother
    rw [hcut key v hadded] at hkey
    rw [hcut key' v' hadded'] at hkey'
    have hsame : key = key' := hkey.trans (hname.trans hkey'.symm)
    subst hsame
    cases hlookup.symm.trans hlookup'
    exact hvalue.trans hvalue'.symm
  · intro member hmember
    obtain ⟨key, v, -, -, -, hvalue⟩ := hstored member hmember
    exact fitsInt_of_written hvalue

/-- **An object that meets the condition is kept.** -/
theorem Preservable.preserved (h : Preservable members) : Preserved env members := by
  have hall : ∀ field ∈ jsonFields members, env.jsonValues.accepts field :=
    accepts_of_settable h.settable
  obtain ⟨text, htext, hfields⟩ := ofJson_eq_ok hjson hnow hmembers hall
  refine ⟨text, _, htext, hfields, fun member hmember value hvalue => ?_⟩
  -- a member without a name counts on the one that has its field
  have hnamed : ∃ other, Additional members other ∧ other.1 ≠ [] ∧
      withUnderscore other.1 = withUnderscore member.1 := by
    by_cases hempty : member.1 = []
    · obtain ⟨other, hother, hname⟩ := h.unnamed member hmember hempty
      refine ⟨other, hother, ?_, ?_⟩
      · rw [hname]
        decide
      · rw [hname, hempty]
        decide
    · exact ⟨member, hmember, hempty, rfl⟩
  obtain ⟨other, hother, hne, hname⟩ := hnamed
  have hlookup : ∃ v, (env.jsonValues.added (jsonFields members)).lookup
      (withUnderscore member.1) = some v := by
    obtain ⟨v, hv⟩ : ∃ v, ObjectVariants.ofJson other.2 = .ok v := by
      obtain ⟨v, hv⟩ := Option.isSome_iff_exists.mp (@isSome_variant env _ hother.isField)
      cases hvariant : env.jsonValues.toVariant other.2 with
      | error e =>
        rw [hvariant] at hv
        cases hv
      | ok v => exact ⟨v, Except.mapError_eq_ok.mp hvariant⟩
    exact List.exists_lookup_of_mem
      (mem_added_jsonFields.mpr ⟨other, hother, hne, hv, hname⟩)
  obtain ⟨v, hv⟩ := hlookup
  -- the field that stays is that of a member with the same value
  have hadded : (withUnderscore member.1, v) ∈ env.jsonValues.added (jsonFields members) :=
    List.mem_of_lookup_eq_some hv
  obtain ⟨first, hfirst, -, hconvert, hname'⟩ := mem_added_jsonFields.mp hadded
  have hwritten := written_of_ofJson hconvert (h.integers first hfirst)
  rw [h.distinct first member hfirst hmember hname', hvalue] at hwritten
  refine (mem_dumpMembers (head?_withUnderscore _)).mpr ⟨withUnderscore member.1, v, ?_, ?_, ?_⟩
  · exact (lookup_setMembers hall _).trans hv
  · exact cString_eq_self (zero_mem_withUnderscore.not.mpr (h.names member hmember))
  · exact (Option.some.inj hwritten).symm

/-- **Which JSON objects keep their scalar members as GELF.** -/
theorem preserved_iff : Preserved env members ↔ Preservable members :=
  ⟨fun h => h.preservable hjson hnow hmembers, fun h => h.preserved hjson hnow hmembers⟩

end Kept

/-! ### Two documents -/

/-- The fields of a message with a number, and their text. -/
def fieldsWithNumber (n : Int32) : Fields :=
  [(ascii "version", .string (ascii "1.1")), (ascii "host", .string (ascii "web")),
    (ascii "short_message", .string (ascii "hi")), (ascii "timestamp", .double 1700000000),
    (ascii "level", .int 1), (ascii "_n", .int n)]

def textWithNumber (n : String) : Bytes :=
  ascii "\x7b\"version\":\"1.1\",\"host\":\"web\",\"short_message\":\"hi\"," ++
    ascii "\"timestamp\":1700000000.0,\"level\":1,\"_n\":" ++ ascii n ++ ascii "\x7d"

/-- An environment that writes such a text. -/
abbrev numberEnvironment (n : Int32) (text : String) : Environment :=
  sampleEnvironment (fieldsWithNumber n) (textWithNumber text)

/-- A document with a number. -/
def membersWithNumber (n : UInt64) : List (Bytes × Nlohmann.Value) :=
  [(ascii "n", .unsigned n), (ascii "short_message", .string (ascii "hi"))]

theorem wellFormed_membersWithNumber (n : UInt64) :
    (Nlohmann.Value.object (membersWithNumber n)).WellFormed := by
  have hnames : [ascii "n", ascii "short_message"].Pairwise (· < ·) := by decide
  refine .object _ hnames ?_
  simp [membersWithNumber, Nlohmann.Value.WellFormed.unsigned, Nlohmann.Value.WellFormed.string]

/-- The one member that is no field of the system. -/
theorem additional_membersWithNumber {n : UInt64} {member : Bytes × Nlohmann.Value} :
    Additional (membersWithNumber n) member ↔ member = (ascii "n", .unsigned n) := by
  constructor
  · rintro ⟨hmem, -, hname⟩
    rcases List.mem_cons.mp hmem with rfl | hmem
    · rfl
    · obtain rfl := List.mem_singleton.mp hmem
      exact absurd hname (by decide)
  · rintro rfl
    have hname : isSystemField (ascii "n") = false := by decide
    exact ⟨List.mem_cons_self, rfl, hname⟩

/-- A number of 31 bits is kept. -/
theorem preserved_iff_small :
    Preserved (numberEnvironment 2147483647 "2147483647") (membersWithNumber 2147483647) := by
  refine (preserved_iff (lossless_library (by decide) rfl (by decide)) (by decide)
    (wellFormed_membersWithNumber _)).mpr ⟨?_, ?_, ?_, ?_, ?_⟩
  · intro member hmem _
    rcases List.mem_cons.mp hmem with rfl | hmem
    · exact ⟨fun h => absurd h (by decide), fun h => absurd h (by decide),
        fun h => absurd h (by decide)⟩
    · obtain rfl := List.mem_singleton.mp hmem
      exact ⟨fun _ => rfl, fun h => absurd h (by decide), fun h => absurd h (by decide)⟩
  · rintro member hmember
    rw [additional_membersWithNumber.mp hmember]
    decide
  · rintro member hmember hempty
    rw [additional_membersWithNumber.mp hmember] at hempty
    cases hempty
  · rintro member other hmember hother -
    rw [additional_membersWithNumber.mp hmember, additional_membersWithNumber.mp hother]
  · rintro member hmember
    rw [additional_membersWithNumber.mp hmember]
    change (2147483647 : UInt64).toNat < 2 ^ 31
    decide

/-- A number of 32 bits is sent as a negative one. -/
theorem preserved_not_three_billion :
    ∃ fields, (Nlohmann.Value.object (membersWithNumber 3000000000)).WellFormed ∧
      Record.ofJson (numberEnvironment (-1294967296) "-1294967296")
        (.object (membersWithNumber 3000000000)) = .ok (textWithNumber "-1294967296") ∧
      (numberEnvironment (-1294967296) "-1294967296").parse (textWithNumber "-1294967296") =
        .ok (.object fields) ∧
      fields.lookup (ascii "_n") = some (.int ⟨-1294967296, by decide⟩) ∧
      ¬Preserved (numberEnvironment (-1294967296) "-1294967296")
        (membersWithNumber 3000000000) := by
  refine ⟨_, wellFormed_membersWithNumber _, rfl, rfl, rfl, ?_⟩
  intro hkept
  have hfits := (hkept.preservable (lossless_library (by decide) rfl (by decide)) (by decide)
    (wellFormed_membersWithNumber _)).integers _ (additional_membersWithNumber.mpr rfl)
  change (3000000000 : UInt64).toNat < 2 ^ 31 at hfits
  exact absurd hfits (by decide)

end Gelf

end IqLogger
