import IqLogger.Outputs.Gelf.Preservation

/-!
# What a record of the journal keeps as GELF

The journal has two kinds of fields: those that a process gives, and those that the journal adds
itself, whose names begin with an underscore so that no process can give them. GELF has an
underscore in front of the names of all additional fields, and `setField` adds it where there is
none. So a field that a process gives can come to the name of a field of the journal, as `PID` comes
to `_PID`, and then the one that the map has first stays.

Nothing else is lost: the text that is sent has the message, the host, the time, and every other
field under its name with its value, if and only if no two fields of different values come to
one name (`IqLogger.Gelf.journal_kept_iff`).
-/

namespace IqLogger

namespace Gelf

open Rapidjson

/-! ### Records as the journal has them -/

/-- The letters of the name of a field: capital letters, digits and the underscore. -/
def IsNameLetter (b : UInt8) : Prop := (65 ≤ b ∧ b ≤ 90) ∨ (48 ≤ b ∧ b ≤ 57) ∨ b = 95

instance : DecidablePred IsNameLetter := fun _ => inferInstanceAs (Decidable (_ ∨ _))

/-- A record that comes from the journal: its names have letters only, and its values are texts. -/
structure FromJournal (m : JournalMessage) : Prop where
  nonempty : ∀ name ∈ m.data, name ≠ []
  letters : ∀ name ∈ m.data, ∀ b ∈ name, IsNameLetter b
  texts : ∀ name value, m.data.lookup name = some value → ∃ s, value = .string s

/-- A field that should become an additional one. -/
def Ordinary (name : Bytes) : Prop := name ≠ ascii "MESSAGE" ∧ name ≠ ascii "_HOSTNAME"

/-- **Everything in the record is found in the text**: its message and its host as such, its time in
seconds, and every other field under its name with an underscore. -/
def JournalKept (env : Environment) (m : JournalMessage) : Prop :=
  ∃ text fields, Record.ofJournal env m = .ok text ∧ env.parse text = .ok (.object fields) ∧
    (ascii "timestamp", .double (Record.seconds m.timestamp)) ∈ fields ∧
    (∀ s, m.data.lookup (ascii "MESSAGE") = some (.string s) →
      (ascii "short_message", .string s) ∈ fields) ∧
    (∀ s, m.data.lookup (ascii "_HOSTNAME") = some (.string s) →
      (ascii "host", .string s) ∈ fields) ∧
    ∀ name s, Ordinary name → m.data.lookup name = some (.string s) →
      (withUnderscore name, .string s) ∈ fields

/-- Where a field comes to the name of another, both have the same value. The field of the host is
not in the way, since it is not among the additional ones, and neither is the message. -/
def NoClash (m : JournalMessage) : Prop :=
  ∀ name value other, name.head? ≠ some 95 → name ≠ ascii "MESSAGE" → name ≠ ascii "HOSTNAME" →
    m.data.lookup name = some value → m.data.lookup (95 :: name) = some other → value = other

/-! ### Names -/

section Names

/-- A text with a letter that is none of a name. -/
theorem ne_ascii {name : Bytes} (h : ∀ b ∈ name, IsNameLetter b) {s : String}
    (hs : ∃ b ∈ ascii s, ¬IsNameLetter b) : name ≠ ascii s := by
  rintro rfl
  obtain ⟨b, hb, hnot⟩ := hs
  exact hnot (h b hb)

/-- No field of the journal is one of the system. -/
theorem isSystemField_of_letters {name : Bytes} (h : ∀ b ∈ name, IsNameLetter b) :
    isSystemField name = false := by
  have hne := fun {s : String} (hs : ∃ b ∈ ascii s, ¬IsNameLetter b) => ne_ascii h hs
  rw [isSystemField]
  simp only [hne (s := "version") (by decide), hne (s := "host") (by decide),
    hne (s := "short_message") (by decide), hne (s := "full_message") (by decide),
    hne (s := "timestamp") (by decide), hne (s := "level") (by decide), decide_false,
    Bool.or_self]

theorem zero_notMem_of_letters {name : Bytes} (h : ∀ b ∈ name, IsNameLetter b) : 0 ∉ name :=
  fun hzero => absurd (h 0 hzero) (by decide)

end Names

/-! ### The fields that are added -/

section Fields

variable {env : Environment} {m : JournalMessage} (hm : FromJournal m)

theorem mem_journalFields_iff {name : Bytes} {value : ObjectVariants} :
    (name, value) ∈ Record.journalFields env m ↔
      Ordinary name ∧ m.data.lookup name = some value := by
  rw [Record.journalFields, List.mem_filter, List.mem_map]
  constructor
  · rintro ⟨⟨entry, hentry, heq⟩, hname⟩
    obtain ⟨rfl, rfl⟩ := Prod.mk.inj heq
    refine ⟨by simpa [Ordinary] using hname, ?_⟩
    exact AList.mem_lookup_iff.mpr ((env.order.perm _).mem_iff.mp hentry)
  · rintro ⟨hname, hvalue⟩
    refine ⟨⟨⟨name, value⟩, ?_, rfl⟩, by simpa [Ordinary] using hname⟩
    exact (env.order.perm _).mem_iff.mpr (AList.mem_lookup_iff.mp hvalue)

include hm

theorem FromJournal.letters_of_lookup {name : Bytes} {value : ObjectVariants}
    (h : m.data.lookup name = some value) : ∀ b ∈ name, IsNameLetter b :=
  hm.letters name (AList.lookup_isSome.mp (by simp [h]))

/-- All fields can be set. -/
theorem FromJournal.accepts :
    ∀ field ∈ Record.journalFields env m, env.variants.accepts field := by
  rintro ⟨name, value⟩ hfield
  have hletters := hm.letters_of_lookup (mem_journalFields_iff.mp hfield).2
  refine accepts_variantField.mpr ⟨fun hname => ?_, fun hname => ?_⟩
  · exact absurd hname (ne_ascii hletters (by decide))
  · exact absurd hname (ne_ascii hletters (by decide))

/-- All of them are additional ones. -/
theorem FromJournal.added_eq : env.variants.added (Record.journalFields env m) =
    (Record.journalFields env m).map fun field => (withUnderscore field.1, field.2) := by
  rw [FieldType.added, ← List.filterMap_eq_map]
  refine List.filterMap_congr fun field hfield => ?_
  have hlookup := (mem_journalFields_iff.mp hfield).2
  have hmem : field.1 ∈ m.data := AList.lookup_isSome.mp (by simp [hlookup])
  have hname : ¬(field.1 = [] ∨ isSystemField field.1) := by
    rw [isSystemField_of_letters (hm.letters_of_lookup hlookup)]
    simp [hm.nonempty _ hmem]
  rw [if_neg hname]
  rfl

/-- No field of the record is one of the system. -/
theorem FromJournal.given_eq {name : String} (hname : ∃ b ∈ ascii name, ¬IsNameLetter b) :
    env.variants.given (Record.journalFields env m) name = none := by
  rw [FieldType.given, List.lookup_eq_none_iff]
  intro field hfield
  have hmem := List.takeWhile_subset _ hfield
  have hletters := hm.letters_of_lookup (mem_journalFields_iff.mp hmem).2
  exact bne_iff_ne.mpr (Ne.symm (ne_ascii hletters hname))

end Fields

/-! ### The text -/

/-- **The time of a record is finite**, whatever it is. -/
theorem isFinite_seconds (timestamp : UInt64) : (Record.seconds timestamp).isFinite := by
  have hlt := timestamp.toNat_lt
  have hfinite : (Float.ofModel (.ofNat timestamp.toNat)).isFinite :=
    Float.isFinite_ofInt (n := timestamp.toNat) ⟨by omega, by omega⟩
  have hmillion : (1000000 : Float).toModel.unpack =
      .finite .positive (1000000 * 2 ^ 33) (-33) (by decide) := rfl
  exact Float.isFinite_div hfinite hmillion (by decide) (by decide)

section Text

variable {env : Environment} {m : JournalMessage} (hm : FromJournal m)

include hm

/-- **The text of a record** whose message is known, and what is read from it. -/
theorem FromJournal.ofJournal_eq_ok (hjson : Lossless env.write env.parse)
    {message : ObjectVariants} (hmessage : Record.journalMessage env m = .ok message) :
    ∃ g : GelfData, Record.ofJournal env m = .ok (env.exportMessage g) ∧
      env.parse (env.exportMessage g) = .ok (.object (dumpMembers env.order g)) ∧
      g.shortMessage = (env.variants.text message).getD [] ∧
      g.host = ((m.data.lookup (ascii "_HOSTNAME")).bind env.variants.text).getD env.hostname ∧
      g.timestamp = Record.seconds m.timestamp ∧
      ∀ key, g.additionalFields.lookup key =
        ((Record.journalFields env m).map fun field => (withUnderscore field.1, field.2)).lookup
          key := by
  have hnodup := @nodup_journalFields env m
  set g := (setFields env.variants (journalBase env m message) (Record.journalFields env m)).1
    with hg
  have hnone : (setFields env.variants (journalBase env m message)
      (Record.journalFields env m)).2 = none := decided_setField.loop_eq_none_iff.mpr hm.accepts
  have hresult : setFields env.variants (journalBase env m message)
      (Record.journalFields env m) = (g, none) := Prod.ext rfl hnone
  have hshort := @setFields_shortMessage _ env.variants (journalBase env m message) _ hnodup
  have hhost := @setFields_host _ env.variants (journalBase env m message) _ hnodup
  have htime := @setFields_timestamp _ env.variants (journalBase env m message) _ hnodup
  rw [hm.given_eq (by decide)] at hshort hhost htime
  have hlookup : ∀ key, g.additionalFields.lookup key =
      ((Record.journalFields env m).map fun field => (withUnderscore field.1, field.2)).lookup
        key := by
    intro key
    rw [hg, lookup_setFields hm.accepts, hm.added_eq, journalBase, Environment.gelf,
      GelfData.default, AList.lookup_empty, Option.none_or]
  have hfinite : g.Finite := by
    refine ⟨?_, fun key value hvalue => ?_⟩
    · exact htime ▸ isFinite_seconds m.timestamp
    · rw [hlookup] at hvalue
      obtain ⟨field, hfield, heq⟩ := List.mem_map.mp (List.mem_of_lookup_eq_some hvalue)
      obtain ⟨s, hs⟩ := hm.texts _ _ (mem_journalFields_iff.mp hfield).2
      rw [← (Prod.mk.inj heq).2, hs]
      rfl
  refine ⟨g, ?_, hjson.reads _ (isFinite_dumpFields hfinite), hshort, hhost, htime, hlookup⟩
  rw [ofJournal_eq, hmessage]
  change Record.finishLoop env _ = _
  rw [hresult]
  rfl

/-- **What is kept of the fields**, in terms of the map they come to. -/
theorem FromJournal.mem_dumpMembers_iff {g : GelfData} (hlookup : ∀ key,
      g.additionalFields.lookup key =
        ((Record.journalFields env m).map fun field => (withUnderscore field.1, field.2)).lookup
          key) {name : Bytes} (hname : ∀ b ∈ name, IsNameLetter b) {s : Bytes} :
    (withUnderscore name, Value.string s) ∈ dumpMembers env.order g ↔
      ((Record.journalFields env m).map fun field => (withUnderscore field.1, field.2)).lookup
        (withUnderscore name) = some (.string s) := by
  rw [mem_dumpMembers (head?_withUnderscore name)]
  constructor
  · rintro ⟨key, value, hvalue, hkey, htext⟩
    rw [hlookup] at hvalue
    obtain ⟨field, hfield, heq⟩ := List.mem_map.mp (List.mem_of_lookup_eq_some hvalue)
    obtain ⟨rfl, rfl⟩ := Prod.mk.inj heq
    have hletters := hm.letters_of_lookup (mem_journalFields_iff.mp hfield).2
    have hzero : 0 ∉ withUnderscore field.1 :=
      zero_mem_withUnderscore.not.mpr (zero_notMem_of_letters hletters)
    rw [cString_eq_self hzero] at hkey
    obtain ⟨s', hs'⟩ := hm.texts _ _ (mem_journalFields_iff.mp hfield).2
    rw [hs'] at htext hvalue
    cases htext
    rw [← hkey, hvalue]
  · intro hvalue
    refine ⟨withUnderscore name, .string s, (hlookup _).trans hvalue, ?_, rfl⟩
    exact cString_eq_self (zero_mem_withUnderscore.not.mpr (zero_notMem_of_letters hname))

omit hm in
/-- **Two fields that come to one name** are one with an underscore, and one without. -/
theorem noClash_iff : NoClash m ↔ ∀ field ∈ Record.journalFields env m,
    ∀ other ∈ Record.journalFields env m, withUnderscore field.1 = withUnderscore other.1 →
      field.2 = other.2 := by
  constructor
  · rintro h ⟨name, value⟩ hfield ⟨name', value'⟩ hother hname
    obtain ⟨⟨hmessage, hhost⟩, hvalue⟩ := mem_journalFields_iff.mp hfield
    obtain ⟨⟨hmessage', hhost'⟩, hvalue'⟩ := mem_journalFields_iff.mp hother
    dsimp only [withUnderscore] at hname
    split_ifs at hname with hhead hhead' hhead'
    · subst hname
      exact Option.some.inj (hvalue.symm.trans hvalue')
    · subst hname
      exact (h name' value' value hhead' hmessage' (fun hc => hhost (by rw [hc]; rfl)) hvalue'
        hvalue).symm
    · subst hname
      exact h name value value' hhead hmessage (fun hc => hhost' (by rw [hc]; rfl)) hvalue hvalue'
    · cases hname
      exact Option.some.inj (hvalue.symm.trans hvalue')
  · intro h name value other hhead hmessage hhost hvalue hother
    refine h (name, value) (mem_journalFields_iff.mpr ⟨⟨hmessage, ?_⟩, hvalue⟩) (95 :: name, other)
      (mem_journalFields_iff.mpr ⟨⟨?_, ?_⟩, hother⟩) ?_
    · rintro rfl
      exact hhead rfl
    · intro hc
      cases hc
    · intro hc
      exact hhost (List.cons.inj hc).2
    · dsimp only [withUnderscore]
      rw [if_neg hhead]
      rfl

omit hm in
/-- The message of a record, if there is one, or else the record as JSON. -/
theorem exists_journalMessage_iff : (∃ message, Record.journalMessage env m = .ok message) ↔
    ascii "MESSAGE" ∈ m.data ∨ ∃ text, env.jsonDump m.data = .ok text := by
  rw [Record.journalMessage]
  rcases hmessage : m.data.lookup (ascii "MESSAGE") with _ | value
  · have hmem : ascii "MESSAGE" ∉ m.data := AList.lookup_eq_none.mp hmessage
    rcases hdump : env.jsonDump m.data with e | text
    · refine iff_of_false ?_ ?_
      · rintro ⟨message, hok⟩
        cases hok
      · rintro (hc | ⟨text, htext⟩)
        · exact hmem hc
        · cases htext
    · exact iff_of_true ⟨_, rfl⟩ (Or.inr ⟨text, rfl⟩)
  · exact iff_of_true ⟨value, rfl⟩ (Or.inl (AList.lookup_isSome.mp (by simp [hmessage])))

omit hm in
/-- The fields of the system that are always there. -/
theorem mem_dumpMembers_system (g : GelfData) :
    (ascii "host", Value.string g.host) ∈ dumpMembers env.order g ∧
      (ascii "short_message", Value.string g.shortMessage) ∈ dumpMembers env.order g ∧
      (ascii "timestamp", Value.double g.timestamp) ∈ dumpMembers env.order g := by
  simp [dumpMembers, dumpFields, systemFields, ObjectVariants.toValue]

/-- **Which records of the journal are kept as GELF**: those where no two fields of different values
come to one name, if they have a message or can be written as JSON instead. -/
theorem journal_kept_iff (hjson : Lossless env.write env.parse) :
    JournalKept env m ↔
      (ascii "MESSAGE" ∈ m.data ∨ ∃ text, env.jsonDump m.data = .ok text) ∧ NoClash m := by
  rw [← exists_journalMessage_iff, noClash_iff,
    ← List.forall_lookup_map_fst_iff withUnderscore]
  constructor
  · rintro ⟨text, fields, htext, hfields, -, -, -, hkept⟩
    have hmessage : ∃ message, Record.journalMessage env m = .ok message := by
      rw [ofJournal_eq] at htext
      cases hmessage : Record.journalMessage env m with
      | ok message => exact ⟨message, rfl⟩
      | error e =>
        rw [hmessage] at htext
        cases htext
    refine ⟨hmessage, ?_⟩
    obtain ⟨message, hmessage⟩ := hmessage
    obtain ⟨g, htext', hfields', -, -, -, hlookup⟩ := hm.ofJournal_eq_ok hjson hmessage
    cases htext.symm.trans htext'
    cases hfields.symm.trans hfields'
    rintro ⟨name, value⟩ hfield
    obtain ⟨hordinary, hvalue⟩ := mem_journalFields_iff.mp hfield
    obtain ⟨s, rfl⟩ := hm.texts name value hvalue
    exact (hm.mem_dumpMembers_iff hlookup (hm.letters_of_lookup hvalue)).mp
      (hkept name s hordinary hvalue)
  · rintro ⟨⟨message, hmessage⟩, hfirst⟩
    obtain ⟨g, htext, hfields, hshort, hhost, htime, hlookup⟩ :=
      hm.ofJournal_eq_ok hjson hmessage
    refine ⟨_, _, htext, hfields, ?_, fun s hs => ?_, fun s hs => ?_, fun name s hordinary hs => ?_⟩
    · rw [← htime]
      exact (mem_dumpMembers_system g).2.2
    · have hstring : message = .string s := by
        rw [Record.journalMessage, hs] at hmessage
        exact (Except.ok.inj hmessage).symm
      rw [hstring] at hshort
      rw [show s = g.shortMessage from hshort.symm]
      exact (mem_dumpMembers_system g).2.1
    · rw [hs] at hhost
      rw [show s = g.host from hhost.symm]
      exact (mem_dumpMembers_system g).1
    · exact (hm.mem_dumpMembers_iff hlookup (hm.letters_of_lookup hs)).mpr
        (hfirst (name, .string s) (mem_journalFields_iff.mpr ⟨hordinary, hs⟩))

end Text

/-! ### A record that is not kept -/

/-- A process has given a field `PID` that is not its number. -/
def pidRecord : JournalMessage where
  data := ⟨[⟨ascii "MESSAGE", .string (ascii "hi")⟩, ⟨ascii "PID", .string (ascii "1")⟩,
    ⟨ascii "_PID", .string (ascii "712")⟩], by rw [List.NodupKeys]; decide⟩
  timestamp := 1700000000000000

/-- What is written of it, and the text. -/
def pidFields : Fields :=
  [(ascii "version", .string (ascii "1.1")), (ascii "host", .string (ascii "web")),
    (ascii "short_message", .string (ascii "hi")), (ascii "timestamp", .double 1700000000),
    (ascii "level", .int 1), (ascii "_PID", .string (ascii "1"))]

def pidText : Bytes :=
  ascii "\x7b\"version\":\"1.1\",\"host\":\"web\",\"short_message\":\"hi\"," ++
    ascii "\"timestamp\":1700000000.0,\"level\":1,\"_PID\":\"1\"\x7d"

theorem fromJournal_pidRecord : FromJournal pidRecord := by
  have hkeys : ∀ name ∈ pidRecord.data, name = ascii "MESSAGE" ∨ name = ascii "PID" ∨
      name = ascii "_PID" := by
    intro name hname
    simpa [pidRecord, AList.mem_keys, AList.keys, List.keys] using hname
  refine ⟨fun name hname => ?_, fun name hname b hb => ?_, fun name value hvalue => ?_⟩
  · rcases hkeys name hname with rfl | rfl | rfl <;> decide
  · have hall : name.all (fun b => decide (IsNameLetter b)) = true := by
      rcases hkeys name hname with rfl | rfl | rfl <;> decide
    exact of_decide_eq_true (List.all_eq_true.mp hall b hb)
  · have hentry := AList.mem_lookup_iff.mp hvalue
    simp only [pidRecord, List.mem_cons, Sigma.mk.injEq, heq_eq_eq, List.not_mem_nil,
      or_false] at hentry
    rcases hentry with ⟨-, rfl⟩ | ⟨-, rfl⟩ | ⟨-, rfl⟩ <;> exact ⟨_, rfl⟩

/-- What the process says stands for what the journal knows. -/
theorem journal_not_kept_pid :
    Record.ofJournal (sampleEnvironment pidFields pidText) pidRecord = .ok pidText ∧
      ¬JournalKept (sampleEnvironment pidFields pidText) pidRecord := by
  refine ⟨rfl, fun h => ?_⟩
  have hclash := ((journal_kept_iff fromJournal_pidRecord
    (lossless_library (by decide) rfl rfl)).mp h).2
  have hsame := hclash (ascii "PID") (.string (ascii "1")) (.string (ascii "712")) (by decide)
    (by decide) (by decide) rfl rfl
  exact absurd hsame (by decide)

end Gelf

end IqLogger
