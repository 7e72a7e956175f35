import IqLogger.Outputs.Gelf.Record

/-!
# Which exported messages are GELF

The texts of the output are not all accepted by the program's own parser, because none
of its rules is checked where fields are set. Here is the condition, kind by kind, under
which a message is dropped with an exception of the program or becomes a text that the
parser accepts (`IqLogger.Gelf.Exportable`). It is exact:
`IqLogger.Gelf.exported_iff`.

The fields of the system count as they are given, as far as they are set before a
conversion throws (`IqLogger.Gelf.FieldType.given`), and what is not given is the
default, which passes its check; all but the short message, which has none. Everything
comes down to one fact about dumps (`IqLogger.Gelf.accepted_iff`).
-/

namespace IqLogger

namespace Gelf

open Rapidjson

/-! ### Results -/

/-- A time that can be written and passes the check. -/
def TimeAccepted (t : Float) : Prop := t.isFinite ∧ ¬t < minTimestamp

instance (t : Float) : Decidable (TimeAccepted t) := inferInstanceAs (Decidable (_ ∧ _))

/-- A text that is encoded in UTF-8. -/
def isUtf8 (s : Bytes) : Bool := (ByteArray.mk s.toArray).validateUTF8

/-- The texts of an object, its names included, are encoded in UTF-8. -/
def objectUtf8 (object : Object) : Bool :=
  object.entries.all fun entry =>
    isUtf8 entry.1 && (match entry.2 with
      | .string s => isUtf8 s
      | _ => true)

namespace Environment

variable (env : Environment)

/-- What the program relies on. The host name is not empty, the clock shows a time
after 2019. The library that writes GELF is lossless, and what it writes for an object
with a number that is not finite is no JSON, since it leaves the number out. The other
library reads objects whose members are in order, and dumps an object, from its opening
brace on, unless a text in it is not encoded in UTF-8. -/
structure Reliable : Prop where
  hostname : cString env.hostname ≠ []
  currentTime : TimeAccepted env.currentTime
  lossless : Lossless env.write env.parse
  refuses : ∀ fields : Fields, (∃ field ∈ fields, ¬field.2.isFinite) →
    ∃ e, env.parse (cString (env.write fields)) = .error e
  wellFormed : ∀ text value, env.jsonParse text = .ok value → value.WellFormed
  jsonDump : ∀ object, (∃ text, env.jsonDump object = .ok text) ↔ objectUtf8 object
  dumped : ∀ object text, env.jsonDump object = .ok text → text.head? = some 123

/-- The result of a conversion is as it should be: an exception of the program, or a
text the parser accepts. -/
def Fine (laterTime : Float) : Except Thrown Bytes → Prop
  | .ok text => ∃ g, Gelf.gelf env.parse laterTime text = .ok g
  | .error e => e.isException

end Environment

section Accepted

variable {env : Environment} (henv : env.Reliable)

include henv

/-- **When a dump is accepted.** -/
theorem accepted_iff {g : GelfData} (hg : g.Sound) (laterTime : Float) :
    env.Fine laterTime (.ok (env.exportMessage g)) ↔ g.Acceptable ∧ g.timestamp.isFinite := by
  by_cases htime : g.timestamp.isFinite
  · have hfinite : g.Finite := ⟨htime, fun key value h => (hg key value h).2⟩
    rw [and_iff_left htime]
    show (∃ g', _ = _) ↔ _
    rw [Environment.exportMessage]
    simp only [gelf_dump_eq_ok henv.lossless hg.underscored hfinite]
    simp
  · have hnot : ∃ field ∈ dumpFields env.order g, ¬field.2.isFinite := by
      refine ⟨(ascii "timestamp", .double g.timestamp), ?_, htime⟩
      rw [dumpFields, systemFields]
      simp
    obtain ⟨e, he⟩ := henv.refuses _ hnot
    constructor
    · rintro ⟨g', hg'⟩
      rw [Environment.exportMessage, gelf, dump, cString_idem, he] at hg'
      cases hg'
    · exact fun h => absurd h.2 htime

end Accepted

/-! ### The condition -/

/-- The fields of the system that are set pass the checks of the parser, except for the
short message, which is another matter. -/
structure GivenAccepted {α : Type} (t : FieldType α) (fields : List (Bytes × α)) : Prop where
  version : ∀ s ∈ (t.given fields "version").bind t.text, cString s = ascii "1.1"
  host : ∀ s ∈ (t.given fields "host").bind t.text, cString s ≠ []
  timestamp : ∀ d ∈ (t.given fields "timestamp").bind t.time, TimeAccepted d
  level : ∀ n ∈ (t.given fields "level").bind t.level, n < 10

/-- A short message is given, and it is not empty. -/
def ShortMessageGiven {α : Type} (t : FieldType α) (fields : List (Bytes × α)) : Prop :=
  ∃ s ∈ (t.given fields "short_message").bind t.text, cString s ≠ []

section Conditions

variable (env : Environment)

/-- The fields of a JSON object. -/
def jsonFields (members : List (Bytes × Nlohmann.Value)) : List (Bytes × Nlohmann.Value) :=
  members.filter fun member => Record.isField member.2

/-- A JSON message has to be an object whose fields convert and are accepted, a short
message among them. -/
def JsonExportable (value : Nlohmann.Value) : Prop :=
  ∃ members, value = .object members ∧
    (∀ field ∈ jsonFields members, env.jsonValues.accepts field) ∧
    GivenAccepted env.jsonValues (jsonFields members) ∧
    ShortMessageGiven env.jsonValues (jsonFields members)

/-- A record of the journal, with what `t` makes of its fields. A field that is given as
a text converts; the host name may be given in two ways, and so may the time and the
message. -/
structure JournalExportable (m : JournalMessage) (t : FieldType ObjectVariants) : Prop where
  timestampConverts : ∀ value ∈ m.data.lookup (ascii "timestamp"), (t.time value).isSome
  levelConverts : ∀ value ∈ m.data.lookup (ascii "level"), (t.level value).isSome
  dumped : ascii "MESSAGE" ∉ m.data → objectUtf8 m.data
  version : ∀ s ∈ (m.data.lookup (ascii "version")).bind t.text, cString s = ascii "1.1"
  host : ∀ s ∈ ((m.data.lookup (ascii "host")).bind t.text).or
    ((m.data.lookup (ascii "_HOSTNAME")).bind t.text), cString s ≠ []
  shortMessage : ∀ s ∈ ((m.data.lookup (ascii "short_message")).bind t.text).or
    ((m.data.lookup (ascii "MESSAGE")).bind t.text), cString s ≠ []
  message : ascii "MESSAGE" ∈ m.data →
    (((m.data.lookup (ascii "short_message")).bind t.text).or
      ((m.data.lookup (ascii "MESSAGE")).bind t.text)).isSome
  timestamp : TimeAccepted
    (((m.data.lookup (ascii "timestamp")).bind t.time).getD (Record.seconds m.timestamp))
  level : ∀ n ∈ (m.data.lookup (ascii "level")).bind t.level, n < 10

/-- A line that is no JSON, or a JSON object with a field of a wrong type, must not be
empty; of the fields that were set before that one, and of all fields otherwise, the
condition is that for JSON. A line that is JSON without `data` is parsed as GELF, and
then its numbers have to convert, to a finite time. A line whose `data` is no object is
dropped. -/
def TailExportable (m : TailMessage) : Prop :=
  match env.jsonParse m.data with
  | .error _ => cString m.data ≠ []
  | .ok json =>
    match json.member "data" with
    | none =>
      Convertible env.boost env.parse m.data ∧
        ∀ g, env.decode m.data = .ok g → g.timestamp.isFinite
    | some (.object members) =>
      GivenAccepted env.jsonValues (jsonFields members) ∧
        if ∀ field ∈ jsonFields members, env.jsonValues.accepts field then
          ShortMessageGiven env.jsonValues (jsonFields members)
        else cString m.data ≠ []
    | some _ => True

/-- **The condition** for a message of any kind. -/
def Exportable : Message → Prop
  | .journal m => JournalExportable m env.variants
  | .tail m => TailExportable env m
  | .gelf m => m.gelf.timestamp.isFinite
  | .json value => JsonExportable env value
  | .dummy data => cString data ≠ []

/-- The messages that can reach the output: what the parsers have made, and records of
the journal without numbers that are not finite. -/
def CanEnter : Message → Prop
  | .journal m => ∀ key value, m.data.lookup key = some value → value.isFinite
  | .tail _ => True
  | .gelf m => ∃ currentTime message endpoint, ¬currentTime < minTimestamp ∧
      GelfMessage.construct env.parse currentTime env.boost m.input message endpoint = .ok m
  | .json value => value.WellFormed
  | .dummy _ => True

end Conditions

/-! ### Every kind of message -/

theorem getD_iff {β : Type} {P : β → Prop} {given : Option β} {default : β} (h : P default) :
    P (given.getD default) ↔ ∀ b ∈ given, P b := by
  cases given with
  | none => simp [h]
  | some b => simp

theorem cString_getD_iff {given : Option Bytes} :
    cString (given.getD []) ≠ [] ↔ (∀ s ∈ given, cString s ≠ []) ∧ given.isSome := by
  cases given with
  | none => simp [cString]
  | some s => simp

theorem cString_version : cString (ascii "1.1") = ascii "1.1" := by decide

theorem level_lt : (1 : UInt8) < 10 := by decide

theorem Environment.sound_gelf (env : Environment) : env.gelf.Sound := GelfData.sound_default _ _

section Members

variable {env : Environment} {members : List (Bytes × Nlohmann.Value)}
  (hmembers : (Nlohmann.Value.object members).WellFormed)

include hmembers

theorem nodup_jsonFields : ((jsonFields members).map Prod.fst).Nodup :=
  hmembers.nodup.sublist (List.filter_sublist.map Prod.fst)

theorem finite_jsonFields : ∀ field ∈ jsonFields members,
    env.jsonValues.Finite field.2 := by
  intro field hfield v hv
  have hwell := hmembers.of_mem (List.mem_of_mem_filter hfield)
  have hjson := Except.mapError_eq_ok.mp hv
  cases hvalue : field.2 with
  | float d =>
    rw [hvalue] at hwell hjson
    cases hwell with
    | float _ hfinite =>
      cases hjson
      exact hfinite
  | integer _ | unsigned _ | boolean _ | string _ =>
    rw [hvalue] at hjson
    cases hjson
    rfl
  | null | array _ | object _ =>
    rw [hvalue] at hjson
    cases hjson

/-- After the loop over the members. -/
theorem sound_setMembers : (Record.setMembers env env.gelf members).1.Sound :=
  (env.sound_gelf).setFields (finite_jsonFields hmembers)

end Members

section Kinds

variable {env : Environment} (henv : env.Reliable)

include henv

/-- The default message passes all checks but that of the short message. -/
theorem acceptable_gelf {short : Bytes} :
    GelfData.Acceptable { env.gelf with shortMessage := short } ↔ cString short ≠ [] := by
  constructor
  · exact fun h => h.shortMessage
  · exact fun h => ⟨cString_version, henv.hostname, h, henv.currentTime.2, level_lt⟩

/-- **After a loop of `setField`** that began with the default message, whatever the
short message is after it. -/
theorem acceptable_setFields {α : Type} {t : FieldType α} {fields : List (Bytes × α)}
    (hnodup : (fields.map Prod.fst).Nodup) (short : Bytes) :
    (GelfData.Acceptable { (setFields t env.gelf fields).1 with shortMessage := short } ∧
        (setFields t env.gelf fields).1.timestamp.isFinite) ↔
      GivenAccepted t fields ∧ cString short ≠ [] := by
  have hversion := @setFields_version _ t env.gelf _ hnodup
  have hhost := @setFields_host _ t env.gelf _ hnodup
  have htime := @setFields_timestamp _ t env.gelf _ hnodup
  have hlevel := @setFields_level _ t env.gelf _ hnodup
  -- what is not given is the default, which passes the check
  have hv : cString env.gelf.version = ascii "1.1" := cString_version
  have hl : env.gelf.level < 10 := level_lt
  constructor
  · rintro ⟨h, hfinite⟩
    refine ⟨⟨?_, ?_, ?_, ?_⟩, h.shortMessage⟩
    · exact (getD_iff (P := fun s => cString s = ascii "1.1") hv).mp (hversion ▸ h.version)
    · exact (getD_iff (P := fun s => cString s ≠ []) henv.hostname).mp (hhost ▸ h.host)
    · exact (getD_iff (P := TimeAccepted) henv.currentTime).mp (htime ▸ ⟨hfinite, h.timestamp⟩)
    · exact (getD_iff (P := fun n => n < 10) hl).mp (hlevel ▸ h.level)
  · rintro ⟨h, hshort⟩
    have ht : TimeAccepted (setFields t env.gelf fields).1.timestamp :=
      htime ▸ (getD_iff (P := TimeAccepted) henv.currentTime).mpr h.timestamp
    refine ⟨⟨?_, ?_, hshort, ht.2, ?_⟩, ht.1⟩
    · exact hversion ▸ (getD_iff (P := fun s => cString s = ascii "1.1") hv).mpr h.version
    · exact hhost ▸ (getD_iff (P := fun s => cString s ≠ []) henv.hostname).mpr h.host
    · exact hlevel ▸ (getD_iff (P := fun n => n < 10) hl).mpr h.level

/-- After the loop itself, a short message has to be given: the default one is empty. -/
theorem acceptable_setFields_iff {α : Type} {t : FieldType α} {fields : List (Bytes × α)}
    (hnodup : (fields.map Prod.fst).Nodup) :
    ((setFields t env.gelf fields).1.Acceptable ∧
        (setFields t env.gelf fields).1.timestamp.isFinite) ↔
      GivenAccepted t fields ∧ ShortMessageGiven t fields := by
  have hshort : cString (setFields t env.gelf fields).1.shortMessage ≠ [] ↔
      ShortMessageGiven t fields := by
    rw [setFields_shortMessage hnodup, ShortMessageGiven]
    -- the default short message is empty, so it is the one field that has to be given
    cases (t.given fields "short_message").bind t.text with
    | none => simp [Environment.gelf, GelfData.default, cString]
    | some s => simp
  exact (acceptable_setFields henv hnodup _).trans (and_congr_right fun _ => hshort)

/-- **The loop over the members** gets to its end when all fields convert, and is left
by an exception of the JSON library otherwise. In both cases the message counts as
acceptable by the fields that are given; if the loop is left, with any short message. -/
theorem setMembers_cases {members : List (Bytes × Nlohmann.Value)}
    (hmembers : (Nlohmann.Value.object members).WellFormed) :
    (∃ g, Record.setMembers env env.gelf members = (g, none) ∧ g.Sound ∧
      (∀ field ∈ jsonFields members, env.jsonValues.accepts field) ∧
      (g.Acceptable ∧ g.timestamp.isFinite ↔
        GivenAccepted env.jsonValues (jsonFields members) ∧
          ShortMessageGiven env.jsonValues (jsonFields members))) ∨
    ∃ g x, Record.setMembers env env.gelf members = (g, some (.json x)) ∧ g.Sound ∧
      (¬∀ field ∈ jsonFields members, env.jsonValues.accepts field) ∧
      ∀ short, GelfData.Acceptable { g with shortMessage := short } ∧ g.timestamp.isFinite ↔
        GivenAccepted env.jsonValues (jsonFields members) ∧ cString short ≠ [] := by
  have hnone : (Record.setMembers env env.gelf members).2 = none ↔
      ∀ field ∈ jsonFields members, env.jsonValues.accepts field :=
    decided_setField.loop_eq_none_iff
  have hsound := @sound_setMembers env _ hmembers
  have hgiven := @acceptable_setFields_iff env henv _ env.jsonValues _ (nodup_jsonFields hmembers)
  have hline := @acceptable_setFields env henv _ env.jsonValues _ (nodup_jsonFields hmembers)
  rcases hresult : Record.setMembers env env.gelf members with ⟨g, _ | e⟩
  · obtain rfl : (setFields env.jsonValues env.gelf (jsonFields members)).1 = g :=
      congrArg Prod.fst hresult
    exact Or.inl ⟨_, rfl, hsound, hnone.mp (congrArg Prod.snd hresult), hgiven⟩
  · obtain ⟨x, rfl⟩ := (throwsOnly_jsonField env.toUnsignedChar).setFields
      (congrArg Prod.snd hresult)
    obtain rfl : (setFields env.jsonValues env.gelf (jsonFields members)).1 = g :=
      congrArg Prod.fst hresult
    -- the message is the one before the field that throws
    refine Or.inr ⟨_, x, rfl, hsound, fun hall => ?_, hline⟩
    rw [← hnone, hresult] at hall
    cases hall

/-- A message that is not accepted is no exception of the program, either. -/
theorem not_fine_gelf (laterTime : Float) :
    ¬env.Fine laterTime (.ok (env.exportMessage env.gelf)) := by
  rw [accepted_iff henv env.sound_gelf]
  rintro ⟨h, -⟩
  exact h.shortMessage rfl

/-- **JSON messages.** -/
theorem json_iff {value : Nlohmann.Value} (hvalue : value.WellFormed) (laterTime : Float) :
    env.Fine laterTime (Record.ofJson env value) ↔ JsonExportable env value := by
  have hscalar : ∀ field : Bool, ¬env.Fine laterTime (Record.finishLoop env
      (env.gelf, if field then some (.json .invalidIterator) else none)) := by
    intro field
    cases field with
    | false => exact not_fine_gelf henv laterTime
    | true => exact Bool.false_ne_true
  cases value with
  | object members =>
    show env.Fine laterTime (Record.finishLoop env (Record.setMembers env env.gelf members)) ↔ _
    rcases setMembers_cases henv hvalue with
      ⟨g, hresult, hsound, hall, hgiven⟩ | ⟨g, x, hresult, -, hnot, -⟩
    · rw [hresult]
      refine (accepted_iff henv hsound laterTime).trans (hgiven.trans ?_)
      constructor
      · exact fun h => ⟨members, rfl, hall, h⟩
      · rintro ⟨_, ⟨⟩, -, h⟩
        exact h
    · rw [hresult]
      refine iff_of_false Bool.false_ne_true ?_
      rintro ⟨_, ⟨⟩, hall, -⟩
      exact hnot hall
  | null => exact iff_of_false (hscalar false) (by rintro ⟨_, ⟨⟩, -⟩)
  | boolean b => exact iff_of_false (hscalar true) (by rintro ⟨_, ⟨⟩, -⟩)
  | integer n => exact iff_of_false (hscalar true) (by rintro ⟨_, ⟨⟩, -⟩)
  | unsigned n => exact iff_of_false (hscalar true) (by rintro ⟨_, ⟨⟩, -⟩)
  | float d => exact iff_of_false (hscalar true) (by rintro ⟨_, ⟨⟩, -⟩)
  | string s => exact iff_of_false (hscalar true) (by rintro ⟨_, ⟨⟩, -⟩)
  -- the loop runs over elements without names, and throws at the first it would set
  | array elements =>
    exact iff_of_false (hscalar (elements.any Record.isField)) (by rintro ⟨_, ⟨⟩, -⟩)

/-- **Dummy messages.** -/
theorem dummy_iff (data : Bytes) (laterTime : Float) :
    env.Fine laterTime (Record.ofDummy env data) ↔ cString data ≠ [] := by
  refine (accepted_iff henv (g := { env.gelf with shortMessage := data }) env.sound_gelf
    laterTime).trans ?_
  rw [acceptable_gelf henv]
  exact and_iff_left henv.currentTime.1

/-- **GELF messages.** -/
theorem gelf_iff {m : GelfMessage} {currentTime : Float} (hnow : ¬currentTime < minTimestamp)
    {message : Bytes} {endpoint : Endpoint}
    (hm : GelfMessage.construct env.parse currentTime env.boost m.input message endpoint = .ok m)
    (laterTime : Float) :
    env.Fine laterTime (Record.ofGelf env m) ↔ m.gelf.timestamp.isFinite := by
  obtain ⟨text, -, hm⟩ := Except.bind_eq_ok.mp hm
  obtain ⟨g, hg, hm⟩ := Except.bind_eq_ok.mp hm
  obtain rfl : g = m.gelf := congrArg GelfMessage.gelf (Except.ok.inj hm)
  -- the text was parsed once, so its fields pass the checks; only the time has to be finite
  have hparsed := parsed_of_gelf henv.lossless hnow hg
  exact (accepted_iff henv hparsed.sound laterTime).trans (and_iff_right hparsed.acceptable)

/-! ### Lines of files -/

/-- The file a line comes from is an additional field. -/
theorem finishTail_iff {g : GelfData} (hg : g.Sound) (m : TailMessage) (laterTime : Float) :
    env.Fine laterTime (Record.finishTail env m g) ↔ g.Acceptable ∧ g.timestamp.isFinite := by
  have hset : env.setVariant g "file" (.string m.filename) = .ok { g with
      additionalFields := g.additionalFields.emplace (ascii "_file") (.string m.filename) } := rfl
  have hsound := hg.setField (fun v hv => by cases hv; rfl) hset
  rw [Record.finishTail, hset]
  refine (accepted_iff henv hsound laterTime).trans (and_congr_left fun _ => ?_)
  exact ⟨fun h => ⟨h.version, h.host, h.shortMessage, h.timestamp, h.level⟩,
    fun h => ⟨h.version, h.host, h.shortMessage, h.timestamp, h.level⟩⟩

theorem lineTail_iff {g : GelfData} (hg : g.Sound) (m : TailMessage) (laterTime : Float) :
    env.Fine laterTime (Record.lineTail env m g) ↔
      GelfData.Acceptable { g with shortMessage := m.data } ∧ g.timestamp.isFinite :=
  finishTail_iff henv (g := { g with shortMessage := m.data }) hg m laterTime

/-- A line that is parsed as GELF. -/
theorem decode_iff (m : TailMessage) (laterTime : Float) :
    env.Fine laterTime (match env.decode m.data with
      | .ok gelf => Record.finishTail env m gelf
      | .error e => throw (.throwable (Record.handleGelf m.data e))) ↔
      Convertible env.boost env.parse m.data ∧
        ∀ g, env.decode m.data = .ok g → g.timestamp.isFinite := by
  have hconvert : (env.decode m.data).FailsOnly (fun e => e.isException) ↔
      Convertible env.boost env.parse m.data := by
    rw [Environment.decode, Except.failsOnly_bind, Convertible]
    simp only [handler_isException.decompress, true_and, handler_isException.gelf_iff,
      decompress_eq_ok]
  rw [← hconvert]
  cases hdecode : env.decode m.data with
  | ok g =>
    obtain ⟨text, -, hg⟩ := Except.bind_eq_ok.mp hdecode
    have hparsed := parsed_of_gelf henv.lossless henv.currentTime.2 hg
    refine (finishTail_iff henv hparsed.sound m laterTime).trans ?_
    simp [hparsed.acceptable]
  | error e =>
    -- the handler turns one exception of the program into another
    have hhandle : (Record.handleGelf m.data e).isException ↔ e.isException := by
      rw [Record.handleGelf]
      split_ifs with hgelf
      · exact iff_of_true rfl (Throwable.isException_of_isGelfException hgelf)
      · exact Iff.rfl
    show (Record.handleGelf m.data e).isException ↔ _
    simp [hhandle]

/-- **Lines of files.** -/
theorem tail_iff (m : TailMessage) (laterTime : Float) :
    env.Fine laterTime (Record.ofTail env m) ↔ TailExportable env m := by
  rw [Record.ofTail, TailExportable]
  rcases hparse : env.jsonParse m.data with e | json
  · refine (lineTail_iff henv env.sound_gelf m laterTime).trans ?_
    rw [acceptable_gelf henv]
    exact and_iff_left henv.currentTime.1
  · dsimp only
    rcases hdata : json.member "data" with _ | value
    · exact decode_iff henv m laterTime
    · cases value with
      | object members =>
        dsimp only
        have hmembers : (Nlohmann.Value.object members).WellFormed := by
          have hjson := henv.wellFormed _ _ hparse
          cases json with
          | object all =>
            -- `data` is a member of an object in order, so its members are in order, too
            exact hjson.of_mem (List.mem_of_lookup_eq_some hdata)
          | _ => cases hdata
        rcases setMembers_cases henv hmembers with
          ⟨g, hresult, hsound, hall, hgiven⟩ | ⟨g, x, hresult, hsound, hnot, hline⟩
        · rw [hresult, if_pos hall]
          exact (finishTail_iff henv hsound m laterTime).trans hgiven
        · -- the fields before the one that throws stay, and the line is the short message
          rw [hresult, if_neg hnot]
          exact (lineTail_iff henv hsound m laterTime).trans (hline m.data)
      | _ => exact iff_of_true rfl trivial

/-! ### Records of the journal -/

omit henv in
/-- The fields of a record convert when a time and a level that are given as a text
do. -/
theorem accepts_variantField {name : Bytes} {value : ObjectVariants} :
    env.variants.accepts (name, value) ↔
      (name = ascii "timestamp" → (env.variants.time value).isSome) ∧
        (name = ascii "level" → (env.variants.level value).isSome) := by
  have htext : ((env.variants.toText value).isNone ||
      (env.variants.text value).isSome) = true := by
    cases value <;> rfl
  have hvariant : ((env.variants.toVariant value).toOption.isSome) = true :=
    rfl
  rw [FieldType.accepts]
  dsimp only
  split_ifs with hempty htime hlevel
  · subst hempty
    simp +decide
  · subst htime
    simp +decide
  · subst hlevel
    simp +decide
  · simp [htext, htime, hlevel]
  · simp [hvariant, htime, hlevel]

section Journal

variable (m : JournalMessage)

omit henv

theorem nodup_journalFields : ((Record.journalFields env m).map Prod.fst).Nodup := by
  have hkeys : ((env.order.entries m.data).map fun entry => entry.1).Nodup :=
    env.order.nodupKeys m.data
  refine List.Nodup.sublist (List.filter_sublist.map Prod.fst) ?_
  rw [List.map_map]
  exact hkeys

theorem lookup_journalFields (name : String)
    (hname : ascii name ≠ ascii "MESSAGE" ∧ ascii name ≠ ascii "_HOSTNAME") :
    (Record.journalFields env m).lookup (ascii name) = m.data.lookup (ascii name) := by
  have hfilter : ∀ fields : Fields, (fields.filter fun field =>
      field.1 ≠ ascii "MESSAGE" && field.1 ≠ ascii "_HOSTNAME").lookup (ascii name) =
        fields.lookup (ascii name) := by
    intro fields
    induction fields with
    | nil => rfl
    | cons field fields ih =>
      rw [List.filter_cons, List.lookup_cons]
      by_cases hfield : ascii name = field.1
      · rw [if_pos (by simp [← hfield, hname]), List.lookup_cons, beq_iff_eq.mpr hfield]
      · rw [beq_false_of_ne hfield]
        split_ifs
        · rw [List.lookup_cons, beq_false_of_ne hfield, ih]
        · exact ih
  rw [Record.journalFields, hfilter, Object.lookup_map_entries, env.order.dlookup_entries]

theorem mem_journalFields {field : Bytes × ObjectVariants}
    (hfield : field ∈ Record.journalFields env m) : m.data.lookup field.1 = some field.2 := by
  obtain ⟨entry, hentry, rfl⟩ := List.mem_map.mp (List.mem_of_mem_filter hfield)
  exact AList.mem_lookup_iff.mpr ((env.order.perm _).mem_iff.mp hentry)

theorem accepts_journalFields :
    (∀ field ∈ Record.journalFields env m, env.variants.accepts field) ↔
      (∀ value ∈ m.data.lookup (ascii "timestamp"),
        (env.variants.time value).isSome) ∧
      ∀ value ∈ m.data.lookup (ascii "level"),
        (env.variants.level value).isSome := by
  have hmem : ∀ name value, ascii name ≠ ascii "MESSAGE" ∧ ascii name ≠ ascii "_HOSTNAME" →
      m.data.lookup (ascii name) = some value →
      (ascii name, value) ∈ Record.journalFields env m := by
    intro name value hname hvalue
    rw [← lookup_journalFields m name hname] at hvalue
    exact List.mem_of_lookup_eq_some hvalue
  constructor
  · intro h
    refine ⟨fun value hvalue => ?_, fun value hvalue => ?_⟩
    · exact (accepts_variantField.mp (h _ (hmem "timestamp" value (by decide) hvalue))).1 rfl
    · exact (accepts_variantField.mp (h _ (hmem "level" value (by decide) hvalue))).2 rfl
  · -- only these two fields can throw for a record
    rintro ⟨htime, hlevel⟩ ⟨name, value⟩ hfield
    have hlookup := mem_journalFields m hfield
    refine accepts_variantField.mpr ⟨?_, ?_⟩
    · rintro rfl
      exact htime value hlookup
    · rintro rfl
      exact hlevel value hlookup

/-- The message before the loop. -/
def journalBase (env : Environment) (m : JournalMessage) (message : ObjectVariants) : GelfData :=
  { env.gelf with
    shortMessage := (env.variants.text message).getD []
    timestamp := Record.seconds m.timestamp
    host := ((m.data.lookup (ascii "_HOSTNAME")).bind env.variants.text).getD
      env.hostname }

theorem setHostname_eq (g : GelfData) :
    Record.setHostname env m g = .ok { g with
      host := ((m.data.lookup (ascii "_HOSTNAME")).bind
        env.variants.text).getD g.host } := by
  rw [Record.setHostname]
  cases m.data.lookup (ascii "_HOSTNAME") with
  | none => rfl
  | some value => cases value <;> rfl

/-- The conversion comes down to the loop. -/
theorem ofJournal_eq :
    Record.ofJournal env m = Record.journalMessage env m >>= fun message =>
      Record.finishLoop env (setFields env.variants
        (journalBase env m message) (Record.journalFields env m)) := by
  rw [Record.ofJournal]
  refine congrArg _ (funext fun message => ?_)
  have hshort : env.setVariant env.gelf "short_message" message = .ok { env.gelf with
      shortMessage := (env.variants.text message).getD [] } := by
    cases message <;> rfl
  rw [hshort]
  show (Record.setHostname env m _ >>= _) = _
  rw [setHostname_eq]
  rfl

end Journal

variable {m : JournalMessage}
  (hm : ∀ key value, m.data.lookup key = some value → value.isFinite)

include hm

omit henv in
theorem sound_journal (message : ObjectVariants) :
    (setFields env.variants (journalBase env m message)
      (Record.journalFields env m)).1.Sound := by
  have hbase : (journalBase env m message).Sound := env.sound_gelf
  refine hbase.setFields fun field hfield v hv => ?_
  cases hv
  exact hm field.1 field.2 (mem_journalFields m hfield)

omit henv hm in
/-- When all fields convert, what is given is what the record holds. -/
theorem given_journalFields
    (hall : ∀ field ∈ Record.journalFields env m, env.variants.accepts field)
    (name : String) (hname : ascii name ≠ ascii "MESSAGE" ∧ ascii name ≠ ascii "_HOSTNAME") :
    env.variants.given (Record.journalFields env m) name =
      m.data.lookup (ascii name) := by
  rw [FieldType.given, List.takeWhile_eq_self_iff.mpr hall, lookup_journalFields m name hname]

/-- The conversion after the short message is known. -/
theorem journalLoop_iff (message : ObjectVariants) (laterTime : Float) :
    env.Fine laterTime (Record.finishLoop env (setFields env.variants
        (journalBase env m message) (Record.journalFields env m))) ↔
      ((∀ value ∈ m.data.lookup (ascii "timestamp"),
          (env.variants.time value).isSome) ∧
        ∀ value ∈ m.data.lookup (ascii "level"),
          (env.variants.level value).isSome) ∧
      (∀ s ∈ (m.data.lookup (ascii "version")).bind env.variants.text,
        cString s = ascii "1.1") ∧
      (∀ s ∈ ((m.data.lookup (ascii "host")).bind env.variants.text).or
        ((m.data.lookup (ascii "_HOSTNAME")).bind env.variants.text),
        cString s ≠ []) ∧
      TimeAccepted (((m.data.lookup (ascii "timestamp")).bind
        env.variants.time).getD (Record.seconds m.timestamp)) ∧
      (∀ n ∈ (m.data.lookup (ascii "level")).bind env.variants.level,
        n < 10) ∧
      cString (((m.data.lookup (ascii "short_message")).bind
        env.variants.text).getD
          ((env.variants.text message).getD [])) ≠ [] := by
  have hsound := @sound_journal env m hm message
  have hnodup := @nodup_journalFields env m
  have hnone : (setFields env.variants (journalBase env m message)
      (Record.journalFields env m)).2 = none ↔ _ := decided_setField.loop_eq_none_iff
  rw [← accepts_journalFields m]
  have hversion := @setFields_version _ env.variants
    (journalBase env m message) _ hnodup
  have hhost := @setFields_host _ env.variants
    (journalBase env m message) _ hnodup
  have hshort := @setFields_shortMessage _ env.variants
    (journalBase env m message) _ hnodup
  have htime := @setFields_timestamp _ env.variants
    (journalBase env m message) _ hnodup
  have hlevel := @setFields_level _ env.variants
    (journalBase env m message) _ hnodup
  rcases hresult : setFields env.variants (journalBase env m message)
    (Record.journalFields env m) with ⟨g, _ | e⟩
  · rw [hresult] at hnone hsound hversion hhost hshort htime hlevel
    have hall := hnone.mp rfl
    rw [given_journalFields hall _ (by decide)] at hversion hhost hshort htime hlevel
    have hv : cString g.version = ascii "1.1" ↔
        ∀ s ∈ (m.data.lookup (ascii "version")).bind env.variants.text,
          cString s = ascii "1.1" := by
      rw [hversion]
      exact getD_iff (P := fun s => cString s = ascii "1.1") cString_version
    have hh : cString g.host ≠ [] ↔ ∀ s ∈ ((m.data.lookup (ascii "host")).bind env.variants.text).or
        ((m.data.lookup (ascii "_HOSTNAME")).bind env.variants.text), cString s ≠ [] := by
      rw [hhost, journalBase, ← Option.getD_or]
      exact getD_iff (P := fun s => cString s ≠ []) henv.hostname
    have hl : g.level < 10 ↔
        ∀ n ∈ (m.data.lookup (ascii "level")).bind env.variants.level, n < 10 := by
      rw [hlevel]
      exact getD_iff (P := fun n => n < 10) level_lt
    dsimp only [journalBase] at htime hshort
    rw [← htime, ← hshort]
    refine (accepted_iff henv hsound laterTime).trans ?_
    constructor
    · rintro ⟨h, hfinite⟩
      exact ⟨hall, hv.mp h.version, hh.mp h.host, ⟨hfinite, h.timestamp⟩, hl.mp h.level,
        h.shortMessage⟩
    · rintro ⟨-, h₁, h₂, h₃, h₄, h₅⟩
      exact ⟨⟨hv.mpr h₁, hh.mpr h₂, h₅, h₃.2, hl.mpr h₄⟩, h₃.1⟩
  · rw [hresult] at hnone
    refine iff_of_false ?_ fun h => absurd (hnone.mpr h.1) (by simp)
    exact (throwsOnly_variantField env.toUnsignedChar).setFields (congrArg Prod.snd hresult)

/-- **Records of the journal.** -/
theorem journal_iff (laterTime : Float) :
    env.Fine laterTime (Record.ofJournal env m) ↔
      JournalExportable m env.variants := by
  rw [ofJournal_eq, Record.journalMessage]
  cases hmessage : m.data.lookup (ascii "MESSAGE") with
  | some value =>
    have hmem : ascii "MESSAGE" ∈ m.data := AList.lookup_isSome.mp (by simp [hmessage])
    have htext : (m.data.lookup (ascii "MESSAGE")).bind env.variants.text =
        env.variants.text value := by rw [hmessage]; rfl
    refine (journalLoop_iff henv hm value laterTime).trans ?_
    rw [← Option.getD_or, cString_getD_iff]
    constructor
    · rintro ⟨⟨h₁, h₂⟩, h₃, h₄, h₅, h₆, h₇, h₈⟩
      exact ⟨h₁, h₂, fun hc => absurd hmem hc, h₃, h₄, htext ▸ h₇, fun _ => htext ▸ h₈, h₅, h₆⟩
    · intro h
      exact ⟨⟨h.timestampConverts, h.levelConverts⟩, h.version, h.host, h.timestamp, h.level,
        htext ▸ h.shortMessage, htext ▸ h.message hmem⟩
  | none =>
    have hmem : ascii "MESSAGE" ∉ m.data := AList.lookup_eq_none.mp hmessage
    cases hdump : env.jsonDump m.data with
    | error e =>
      refine iff_of_false Bool.false_ne_true fun h => ?_
      obtain ⟨text, htext⟩ := (henv.jsonDump m.data).mpr (h.dumped hmem)
      rw [hdump] at htext
      cases htext
    | ok text =>
      have hhead := henv.dumped m.data text hdump
      -- the record as JSON begins with a brace, so it is a short message
      have hne : cString text ≠ [] := by
        obtain ⟨rest, rfl⟩ := List.head?_eq_some_iff.mp hhead
        simp [cString]
      have htext : (m.data.lookup (ascii "MESSAGE")).bind env.variants.text = none := by
        rw [hmessage]
        rfl
      refine (journalLoop_iff henv hm (.string text) laterTime).trans ?_
      have hdefault : (env.variants.text (.string text)).getD [] = text := rfl
      rw [hdefault, getD_iff (P := fun s => cString s ≠ []) hne]
      constructor
      · rintro ⟨⟨h₁, h₂⟩, h₃, h₄, h₅, h₆, h₇⟩
        refine ⟨h₁, h₂, fun _ => (henv.jsonDump m.data).mp ⟨text, hdump⟩, h₃, h₄, ?_,
          fun hc => absurd hc hmem, h₅, h₆⟩
        rw [htext, Option.or_none]
        exact h₇
      · intro h
        have hshort := h.shortMessage
        rw [htext, Option.or_none] at hshort
        exact ⟨⟨h.timestampConverts, h.levelConverts⟩, h.version, h.host, h.timestamp, h.level,
          hshort⟩

omit hm in
/-- **Exported messages.** For every message that can reach the output, its conversion
throws an exception of the program or returns a text that the parser accepts, if and
only if the message meets the condition of its kind. -/
theorem exported_iff (message : Message) (hmessage : CanEnter env message) (laterTime : Float) :
    env.Fine laterTime (Record.ofMessage env message) ↔ Exportable env message := by
  cases message with
  | journal m => exact journal_iff henv hmessage laterTime
  | tail m => exact tail_iff henv m laterTime
  | gelf m =>
    obtain ⟨currentTime, message, endpoint, hnow, hm⟩ := hmessage
    exact gelf_iff henv hnow hm laterTime
  | json value => exact json_iff henv hmessage laterTime
  | dummy data => exact dummy_iff henv data laterTime

end Kinds

/-! ### An environment -/

/-- A dump that keeps the brackets of an object only. -/
def bracketDump (object : Object) : Except Nlohmann.Exception Bytes :=
  if objectUtf8 object then pure (ascii "\x7b\x7d") else throw .typeError

/-- An environment whose library writes some fields as their text. -/
def sampleEnvironment (known : Fields) (text : Bytes) : Environment where
  hostname := ascii "web"
  currentTime := 1700000000
  write := libraryWrite known text
  parse := libraryParse known text
  order := .default
  boost := ⟨fun _ => .error ⟨ascii "gzip error", 0, 0⟩, fun _ => .error ⟨ascii "zlib error", 0⟩⟩
  jsonParse _ := .error .parseError
  jsonDump := bracketDump
  toUnsignedChar := Float.toUInt8

theorem reliable_sample {known : Fields} {text : Bytes}
    (hknown : known.all fun field => field.2.isFinite) (hbrace : text.head? = some 123)
    (htext : cString text = text) : (sampleEnvironment known text).Reliable where
  hostname := by
    show cString (ascii "web") ≠ []
    decide
  currentTime := by
    show (1700000000 : Float).isFinite ∧ ¬(1700000000 : Float) < minTimestamp
    decide
  lossless := lossless_library hknown hbrace htext
  refuses _ hfields := libraryParse_error hknown hbrace hfields
  wellFormed _ _ h := by cases h
  jsonDump object := by
    show (∃ text, bracketDump object = .ok text) ↔ _
    rw [bracketDump]
    split_ifs with hutf8
    · simp [hutf8, pure, Except.pure]
    · simp [hutf8]
  dumped object text h := by
    have hdump : bracketDump object = .ok text := h
    rw [bracketDump] at hdump
    split_ifs at hdump
    cases hdump
    decide

/-- What becomes of a JSON object with a short message, and its text. -/
def greetingFields : Fields :=
  [(ascii "version", .string (ascii "1.1")), (ascii "host", .string (ascii "web")),
    (ascii "short_message", .string (ascii "hi")), (ascii "timestamp", .double 1700000000),
    (ascii "level", .int 1)]

def greetingText : Bytes :=
  ascii "\x7b\"version\":\"1.1\",\"host\":\"web\",\"short_message\":\"hi\"," ++
    ascii "\"timestamp\":1700000000.0,\"level\":1\x7d"

/-- A JSON object with a short message. -/
theorem exported_iff_greeting :
    (sampleEnvironment greetingFields greetingText).Fine 1700000001
      (Record.ofMessage (sampleEnvironment greetingFields greetingText)
        (.json (.object [(ascii "short_message", .string (ascii "hi"))]))) := by
  have henter : CanEnter (sampleEnvironment greetingFields greetingText)
      (.json (.object [(ascii "short_message", .string (ascii "hi"))])) :=
    Nlohmann.Value.WellFormed.object _ (by decide) (by simp [Nlohmann.Value.WellFormed.string])
  refine (exported_iff (reliable_sample (by decide) rfl rfl) _ henter _).mpr ?_
  -- only the short message is given, so nothing is asked of the other fields
  have hgiven : GivenAccepted (sampleEnvironment greetingFields greetingText).jsonValues
      (jsonFields [(ascii "short_message", .string (ascii "hi"))]) := by
    constructor <;> rintro _ ⟨⟩
  exact ⟨_, rfl, by decide, hgiven, ascii "hi", by decide, by decide⟩

/-- What becomes of a JSON object without a short message, and its text. -/
def countFields : Fields :=
  [(ascii "version", .string (ascii "1.1")), (ascii "host", .string (ascii "web")),
    (ascii "short_message", .string []), (ascii "timestamp", .double 1700000000),
    (ascii "level", .int 1), (ascii "_a", .int 1)]

def countText : Bytes :=
  ascii "\x7b\"version\":\"1.1\",\"host\":\"web\",\"short_message\":\"\"," ++
    ascii "\"timestamp\":1700000000.0,\"level\":1,\"_a\":1\x7d"

/-- A JSON object without a short message: its text is sent, and not accepted. -/
theorem not_exported_count :
    let env := sampleEnvironment countFields countText
    let message := Message.json (.object [(ascii "a", .integer 1)])
    env.Reliable ∧ CanEnter env message ∧ Record.ofMessage env message = .ok countText ∧
      gelf env.parse 1700000001 countText =
        parseError "Short message in GELF must not be empty" ∧
      ¬env.Fine 1700000001 (Record.ofMessage env message) := by
  intro env message
  have hreliable : env.Reliable := reliable_sample (by decide) rfl rfl
  have henter : CanEnter env message := Nlohmann.Value.WellFormed.object _ (by decide)
    (by simp [Nlohmann.Value.WellFormed.integer])
  refine ⟨hreliable, henter, rfl, rfl, ?_⟩
  rintro ⟨g, hg⟩
  cases hg

end Gelf

end IqLogger
