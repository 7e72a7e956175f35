import IqLogger.Formats.Gelf.Dump
import IqLogger.Lib.Attempt
import IqLogger.Lib.Nlohmann

/-!
# Setting the fields of a GELF message

A `GelfMessage` that is not parsed begins as the default one
(`IqLogger.Gelf.GelfData.default`), and its fields are set one by one
(`IqLogger.Gelf.setField`): a name of the system's sets that field, and any other name
adds a field. `setField` is a template, and what it does with a value depends on the
conversions the type of the value has (`IqLogger.Gelf.FieldType`). A type that is not
converted to a text only causes a warning where a text is wanted; a conversion that is
there can throw. None of the rules of the parser is checked.

Which exceptions a conversion throws depends on the value alone
(`IqLogger.Gelf.FieldType.accepts`), so after a loop of `setField` each field is what
the value of its name was converted to (`IqLogger.Gelf.setFields_version` and the ones
after it).
-/

namespace IqLogger

/-- What a conversion of messages throws: an exception of the program or of the standard
library, or one of the JSON library `nlohmann`. -/
inductive Thrown
  | throwable (e : Throwable)
  | json (e : Nlohmann.Exception)
  deriving DecidableEq, Repr

namespace Thrown

/-- What `catch (const Exception&)` catches. -/
def isException : Thrown → Bool
  | throwable e => e.isException
  | json _ => false

end Thrown

/-- `from_json`. -/
def ObjectVariants.ofJson : Nlohmann.Value → Except Nlohmann.Exception ObjectVariants
  | .integer n => pure (.int (Int32.ofInt n.toInt))
  | .unsigned n => pure (.int (Int32.ofNat n.toNat))
  | .float d => pure (.double d)
  | .boolean b => pure (.bool b)
  | .string s => pure (.string s)
  | _ => throw .typeError

namespace Gelf

/-- `gelf()`. -/
def GelfData.default (hostname : Bytes) (currentTime : Float) : GelfData where
  version := ascii "1.1"
  host := hostname
  shortMessage := []
  fullMessage := []
  timestamp := currentTime
  level := 1
  additionalFields := ∅

/-! ### Types of values -/

/-- The conversions of the values `setField` is called with. A value whose type is not
converted to a text has no `toText`. -/
structure FieldType (α : Type) where
  toText : α → Option (Except Thrown Bytes)
  toTime : α → Except Thrown Float
  toLevel : α → Except Thrown UInt8
  toVariant : α → Except Thrown ObjectVariants

variable (toUnsignedChar : Float → UInt8)

/-- The values of a record of the journal, each with the type it has. A text is
converted to a number by `std::stod` and `std::stoi`. -/
def variantField : FieldType ObjectVariants where
  toText
    | .string s => some (pure s)
    | _ => none
  toTime
    | .string s => (stod s).mapError .throwable
    | .int n => pure (.ofModel (.ofInt n.toInt))
    | .double d => pure d
    | .bool b => pure (if b then 1 else 0)
  toLevel
    | .string s => do
      let level ← (stoi s).mapError .throwable
      pure (UInt8.ofInt level.toInt)
    | .int n => pure (UInt8.ofInt n.toInt)
    | .double d => pure (toUnsignedChar d)
    | .bool b => pure (if b then 1 else 0)
  toVariant value := pure value

/-- JSON values, which convert to everything, or throw. -/
def jsonField : FieldType Nlohmann.Value where
  toText value := some (value.getString.mapError .json)
  toTime value := value.getDouble.mapError .json
  toLevel value := (value.getUnsignedChar toUnsignedChar).mapError .json
  toVariant value := (ObjectVariants.ofJson value).mapError .json

/-! ### Setting a field -/

section SetField

variable {α : Type} (t : FieldType α)

/-- A field that is a text is set, or a warning is logged. -/
def setText (value : α) (g : GelfData) (set : Bytes → GelfData) : Except Thrown GelfData :=
  match t.toText value with
  | some text => do
    let s ← text
    pure (set s)
  | none => pure g

/-- `setField`. -/
def setField (g : GelfData) (field : Bytes × α) : Except Thrown GelfData :=
  if field.1 = [] then pure g
  else if field.1 = ascii "version" then setText t field.2 g fun s => { g with version := s }
  else if field.1 = ascii "host" then setText t field.2 g fun s => { g with host := s }
  else if field.1 = ascii "short_message" then
    setText t field.2 g fun s => { g with shortMessage := s }
  else if field.1 = ascii "full_message" then
    setText t field.2 g fun s => { g with fullMessage := s }
  else if field.1 = ascii "timestamp" then do
    -- `std::stod`, for a text
    let timestamp ← t.toTime field.2
    pure { g with timestamp := timestamp }
  else if field.1 = ascii "level" then do
    -- `std::stoi`, for a text; the level is what fits into an `unsigned char` of it
    let level ← t.toLevel field.2
    pure { g with level := level }
  else do
    let value ← t.toVariant field.2
    -- `emplace` keeps a field of the same name
    pure { g with additionalFields := g.additionalFields.emplace (withUnderscore field.1) value }

/-- A loop of `setField`. -/
def setFields (g : GelfData) (fields : List (Bytes × α)) : GelfData × Option Thrown :=
  Attempt.loop (setField t) g fields

/-! ### What a call can do -/

/-- The text a value is converted to, if there is one. -/
def FieldType.text (value : α) : Option Bytes := (t.toText value).bind Except.toOption

/-- The time a value is converted to. -/
def FieldType.time (value : α) : Option Float := (t.toTime value).toOption

/-- The level a value is converted to. -/
def FieldType.level (value : α) : Option UInt8 := (t.toLevel value).toOption

/-- A call that sets a field to this value does not throw. -/
def FieldType.accepts (field : Bytes × α) : Bool :=
  if field.1 = [] then true
  else if field.1 = ascii "timestamp" then (t.time field.2).isSome
  else if field.1 = ascii "level" then (t.level field.2).isSome
  else if isSystemField field.1 then (t.toText field.2).isNone || (t.text field.2).isSome
  else (t.toVariant field.2).toOption.isSome

/-- The message after the call, if the call does not throw: the field of the name is
what the value is converted to. -/
def FieldType.assign (g : GelfData) (field : Bytes × α) : GelfData where
  version := if field.1 = ascii "version" then (t.text field.2).getD g.version else g.version
  host := if field.1 = ascii "host" then (t.text field.2).getD g.host else g.host
  shortMessage :=
    if field.1 = ascii "short_message" then (t.text field.2).getD g.shortMessage else g.shortMessage
  fullMessage :=
    if field.1 = ascii "full_message" then (t.text field.2).getD g.fullMessage else g.fullMessage
  timestamp :=
    if field.1 = ascii "timestamp" then (t.time field.2).getD g.timestamp else g.timestamp
  level := if field.1 = ascii "level" then (t.level field.2).getD g.level else g.level
  additionalFields :=
    if field.1 = [] ∨ isSystemField field.1 then g.additionalFields
    else ((t.toVariant field.2).toOption.map fun value =>
      g.additionalFields.emplace (withUnderscore field.1) value).getD g.additionalFields

variable {t} {g g' : GelfData}

theorem setText_eq_ok {value : α} {set : Bytes → GelfData} :
    setText t value g set = .ok g' ↔
      ((t.toText value).isNone || (t.text value).isSome) ∧
        ((t.text value).map set).getD g = g' := by
  rw [setText, FieldType.text]
  rcases t.toText value with _ | e | s
  · simp [pure, Except.pure]
  · simp [Bind.bind, Except.bind, Except.toOption]
  · simp [Bind.bind, Except.bind, Except.toOption, pure, Except.pure]

theorem bind_pure_eq_ok (g : GelfData) {β : Type} {x : Except Thrown β} {set : β → GelfData} :
    (do let b ← x; pure (set b)) = .ok g' ↔
      x.toOption.isSome ∧ (x.toOption.map set).getD g = g' := by
  rcases x with e | b
  · simp [Bind.bind, Except.bind, Except.toOption]
  · simp [Bind.bind, Except.bind, Except.toOption, pure, Except.pure]

/-- **What a call does.** -/
theorem setField_eq_ok {field : Bytes × α} :
    setField t g field = .ok g' ↔ t.accepts field ∧ t.assign g field = g' := by
  obtain ⟨name, value⟩ := field
  by_cases hempty : name = []
  · subst hempty
    simp +decide [setField, FieldType.accepts, FieldType.assign, pure, Except.pure]
  -- one case for each name; in each of them both sides come down to one conversion
  by_cases hversion : name = ascii "version"
  · subst hversion
    simp +decide only [setField, FieldType.accepts, FieldType.assign, setText_eq_ok, if_true,
      if_false]
    cases t.text value <;> rfl
  by_cases hhost : name = ascii "host"
  · subst hhost
    simp +decide only [setField, FieldType.accepts, FieldType.assign, setText_eq_ok, if_true,
      if_false]
    cases t.text value <;> rfl
  by_cases hshort : name = ascii "short_message"
  · subst hshort
    simp +decide only [setField, FieldType.accepts, FieldType.assign, setText_eq_ok, if_true,
      if_false]
    cases t.text value <;> rfl
  by_cases hfull : name = ascii "full_message"
  · subst hfull
    simp +decide only [setField, FieldType.accepts, FieldType.assign, setText_eq_ok, if_true,
      if_false]
    cases t.text value <;> rfl
  by_cases htimestamp : name = ascii "timestamp"
  · subst htimestamp
    simp +decide only [setField, FieldType.accepts, FieldType.assign, bind_pure_eq_ok g, if_true,
      if_false, FieldType.time]
    cases (t.toTime value).toOption <;> rfl
  by_cases hlevel : name = ascii "level"
  · subst hlevel
    simp +decide only [setField, FieldType.accepts, FieldType.assign, bind_pure_eq_ok g, if_true,
      if_false, FieldType.level]
    cases (t.toLevel value).toOption <;> rfl
  · have hsystem : isSystemField name = false := by
      simp [isSystemField, hversion, hhost, hshort, hfull, htimestamp, hlevel]
    simp only [setField, FieldType.accepts, FieldType.assign, bind_pure_eq_ok g, hempty, hversion,
      hhost, hshort, hfull, htimestamp, hlevel, hsystem, if_false, or_false, Bool.false_eq_true]
    cases (t.toVariant value).toOption <;> rfl

/-- Whether a call throws depends on the field alone. -/
theorem decided_setField : Attempt.Decided (setField t) t.accepts := by
  intro g field
  constructor
  · exact fun h => ⟨t.assign g field, setField_eq_ok.mpr ⟨h, rfl⟩⟩
  · rintro ⟨g', h⟩
    exact (setField_eq_ok.mp h).1

/-- All exceptions of the conversions have a property. -/
structure FieldType.ThrowsOnly (t : FieldType α) (P : Thrown → Prop) : Prop where
  text : ∀ value x, t.toText value = some x → x.FailsOnly P
  time : ∀ value, (t.toTime value).FailsOnly P
  level : ∀ value, (t.toLevel value).FailsOnly P
  variant : ∀ value, (t.toVariant value).FailsOnly P

/-- A call throws what the conversions throw. -/
theorem FieldType.ThrowsOnly.setField {P : Thrown → Prop} (h : t.ThrowsOnly P) (g : GelfData)
    (field : Bytes × α) : (setField t g field).FailsOnly P := by
  have htext : ∀ set, (setText t field.2 g set).FailsOnly P := by
    intro set
    rw [setText]
    split
    · -- nothing throws after the conversion
      exact (h.text _ _ ‹_›).bind fun s => Except.failsOnly_pure _
    · exact Except.failsOnly_pure _
  rw [Gelf.setField]
  split_ifs
  · exact Except.failsOnly_pure _
  · exact htext _
  · exact htext _
  · exact htext _
  · exact htext _
  · exact (h.time _).bind fun d => Except.failsOnly_pure _
  · exact (h.level _).bind fun n => Except.failsOnly_pure _
  · exact (h.variant _).bind fun v => Except.failsOnly_pure _

theorem throwsOnly_jsonField :
    (jsonField toUnsignedChar).ThrowsOnly fun e => ∃ x, e = .json x := by
  have hjson : ∀ {β : Type} (x : Except Nlohmann.Exception β),
      (x.mapError Thrown.json).FailsOnly fun e => ∃ x, e = .json x := fun x =>
    Except.failsOnly_mapError.mpr fun e _ => ⟨e, rfl⟩
  refine ⟨?_, fun value => hjson _, fun value => hjson _, fun value => hjson _⟩
  rintro value x ⟨⟩
  exact hjson _

theorem throwsOnly_variantField :
    (variantField toUnsignedChar).ThrowsOnly fun e => ¬e.isException := by
  have hconversion : ∀ {β : Type} (name : String) (x : Except Strto.ConversionError β),
      ((x.mapError (.ofConversion name)).mapError Thrown.throwable).FailsOnly
        fun e => ¬e.isException := by
    intro β name x
    refine Except.failsOnly_mapError.mpr (Except.failsOnly_mapError.mpr fun e _ => ?_)
    show ¬(Throwable.ofConversion name e).isException
    rw [Throwable.isException_ofConversion]
    exact Bool.false_ne_true
  refine ⟨?_, ?_, ?_, fun value => Except.failsOnly_pure _⟩
  · intro value x hx
    cases value with
    | string s =>
      cases hx
      exact Except.failsOnly_pure _
    | int n => cases hx
    | double d => cases hx
    | bool b => cases hx
  · intro value
    cases value with
    | string s => exact hconversion _ _
    | int n => exact Except.failsOnly_pure _
    | double d => exact Except.failsOnly_pure _
    | bool b => exact Except.failsOnly_pure _
  · intro value
    cases value with
    | string s => exact (hconversion _ _).bind fun level => Except.failsOnly_pure _
    | int n => exact Except.failsOnly_pure _
    | double d => exact Except.failsOnly_pure _
    | bool b => exact Except.failsOnly_pure _

/-! ### Loops of calls -/

/-- What leaves a loop was thrown by a conversion. -/
theorem FieldType.ThrowsOnly.setFields {P : Thrown → Prop} (h : t.ThrowsOnly P)
    {fields : List (Bytes × α)} {e : Thrown} (he : (setFields t g fields).2 = some e) : P e := by
  obtain ⟨g', field, -, herror⟩ := Attempt.loop_error he
  exact h.setField g' field e herror

/-- The field of a name, among those that are set before a call throws. -/
def FieldType.given (t : FieldType α) (fields : List (Bytes × α)) (name : String) : Option α :=
  (fields.takeWhile t.accepts).lookup (ascii name)

section Loop

variable {fields : List (Bytes × α)} (hnodup : (fields.map Prod.fst).Nodup)

include hnodup

/-- A part of the message that only the field of one name assigns. -/
theorem setFields_slot {γ : Type} (part : GelfData → γ) {name : String} {value : α → Option γ}
    (hassign : ∀ g field, part (t.assign g field) =
      if field.1 = ascii name then (value field.2).getD (part g) else part g) :
    part (setFields t g fields).1 = ((t.given fields name).bind value).getD (part g) := by
  have hslot : Attempt.Slot (setField t) part (ascii name) value := by
    intro s s' field h
    rw [← (setField_eq_ok.mp h).2, hassign]
  exact decided_setField.slot_loop hslot g fields hnodup

theorem setFields_version :
    (setFields t g fields).1.version =
      ((t.given fields "version").bind t.text).getD g.version :=
  setFields_slot hnodup GelfData.version fun _ _ => rfl

theorem setFields_host :
    (setFields t g fields).1.host = ((t.given fields "host").bind t.text).getD g.host :=
  setFields_slot hnodup GelfData.host fun _ _ => rfl

theorem setFields_shortMessage :
    (setFields t g fields).1.shortMessage =
      ((t.given fields "short_message").bind t.text).getD g.shortMessage :=
  setFields_slot hnodup GelfData.shortMessage fun _ _ => rfl

theorem setFields_timestamp :
    (setFields t g fields).1.timestamp =
      ((t.given fields "timestamp").bind t.time).getD g.timestamp :=
  setFields_slot hnodup GelfData.timestamp fun _ _ => rfl

theorem setFields_level :
    (setFields t g fields).1.level = ((t.given fields "level").bind t.level).getD g.level :=
  setFields_slot hnodup GelfData.level fun _ _ => rfl

end Loop

/-- The additional fields that a loop adds, those of one name after each other. -/
def FieldType.added (t : FieldType α) (fields : List (Bytes × α)) : Fields :=
  fields.filterMap fun field =>
    if field.1 = [] ∨ isSystemField field.1 then none
    else (t.toVariant field.2).toOption.map fun value => (withUnderscore field.1, value)

theorem FieldType.mem_added {fields : List (Bytes × α)} {key : Bytes} {value : ObjectVariants} :
    (key, value) ∈ t.added fields ↔
      ∃ field ∈ fields, field.1 ≠ [] ∧ isSystemField field.1 = false ∧
        t.toVariant field.2 = .ok value ∧ withUnderscore field.1 = key := by
  rw [FieldType.added, List.mem_filterMap]
  refine exists_congr fun field => and_congr_right fun _ => ?_
  by_cases hname : field.1 = [] ∨ isSystemField field.1
  · rw [if_pos hname]
    rcases hname with hempty | hsystem
    · simp [hempty]
    · simp [hsystem]
  · rw [if_neg hname]
    rw [not_or, Bool.not_eq_true] at hname
    cases hvalue : t.toVariant field.2 <;> simp [Except.toOption, hname, and_comm]

/-- After a loop that no exception leaves, **of the fields that were added under one name the
first one counts**. -/
theorem lookup_setFields {fields : List (Bytes × α)} (hall : ∀ field ∈ fields, t.accepts field)
    (key : Bytes) :
    (setFields t g fields).1.additionalFields.lookup key =
      (g.additionalFields.lookup key).or ((t.added fields).lookup key) := by
  rw [setFields]
  induction fields generalizing g with
  | nil => rw [FieldType.added, List.filterMap_nil, List.lookup_nil, Option.or_none, Attempt.loop]
  | cons field fields ih =>
    rw [List.forall_mem_cons] at hall
    rw [Attempt.loop_cons_ok (setField_eq_ok.mpr ⟨hall.1, rfl⟩), ih hall.2]
    by_cases hname : field.1 = [] ∨ isSystemField field.1
    · have hadded : t.added (field :: fields) = t.added fields := by
        rw [FieldType.added, List.filterMap_cons, if_pos hname]
        rfl
      have hassign : (t.assign g field).additionalFields = g.additionalFields := if_pos hname
      rw [hadded, hassign]
    · cases hvalue : t.toVariant field.2 with
      | error e =>
        have hadded : t.added (field :: fields) = t.added fields := by
          rw [FieldType.added, List.filterMap_cons, if_neg hname, hvalue]
          rfl
        have hassign : (t.assign g field).additionalFields = g.additionalFields := by
          rw [FieldType.assign, if_neg hname, hvalue]
          rfl
        rw [hadded, hassign]
      | ok value =>
        have hadded : t.added (field :: fields) =
            (withUnderscore field.1, value) :: t.added fields := by
          rw [FieldType.added, List.filterMap_cons, if_neg hname, hvalue]
          rfl
        have hassign : (t.assign g field).additionalFields =
            g.additionalFields.emplace (withUnderscore field.1) value := by
          rw [FieldType.assign, if_neg hname, hvalue]
          rfl
        -- a field of the name that is there already stays
        rw [hadded, hassign, Object.lookup_emplace, Option.or_assoc, List.lookup_cons]
        by_cases hkey : key = withUnderscore field.1
        · rw [if_pos hkey, beq_iff_eq.mpr hkey]
          rfl
        · rw [if_neg hkey, beq_false_of_ne hkey]
          rfl

/-- The additional fields have an underscore in front, and their numbers can be
written. -/
def GelfData.Sound (g : GelfData) : Prop :=
  ∀ key value, g.additionalFields.lookup key = some value → key.head? = some 95 ∧ value.isFinite

theorem GelfData.Sound.underscored (hg : g.Sound) : g.Underscored := by
  intro key hkey
  obtain ⟨value, hlookup⟩ := Option.isSome_iff_exists.mp (AList.lookup_isSome.mpr hkey)
  exact (hg key value hlookup).1

theorem GelfData.Parsed.sound (hg : g.Parsed) : g.Sound := fun key value h =>
  ⟨(hg.additionalFields key value h).head, (hg.additionalFields key value h).finite⟩

theorem GelfData.sound_default (hostname : Bytes) (currentTime : Float) :
    (GelfData.default hostname currentTime).Sound := by
  intro key value h
  simp [GelfData.default] at h

/-- A field whose value converts to a number that can be written, or to no number. -/
def FieldType.Finite (t : FieldType α) (value : α) : Prop :=
  ∀ v, t.toVariant value = .ok v → v.isFinite

theorem GelfData.Sound.setField (hg : g.Sound) {field : Bytes × α} (hfield : t.Finite field.2)
    (h : setField t g field = .ok g') : g'.Sound := by
  obtain ⟨-, rfl⟩ := setField_eq_ok.mp h
  intro key value hlookup
  rw [FieldType.assign] at hlookup
  dsimp only at hlookup
  split_ifs at hlookup with hname
  · exact hg key value hlookup
  · cases hvalue : t.toVariant field.2 with
    | error e =>
      rw [hvalue] at hlookup
      exact hg key value hlookup
    | ok v =>
      rw [hvalue] at hlookup
      have hnew : (g.additionalFields.emplace (withUnderscore field.1) v).lookup key =
        some value := hlookup
      rw [Object.lookup_emplace] at hnew
      -- a field that was there before stays, so the new value counts only where none was
      rcases Option.or_eq_some_iff.mp hnew with hold | ⟨-, hnew⟩
      · exact hg key value hold
      · split_ifs at hnew with hkey
        cases hnew
        refine ⟨?_, hfield value hvalue⟩
        rw [hkey, withUnderscore]
        split_ifs with hhead
        · exact hhead
        · rfl

theorem GelfData.Sound.setFields (hg : g.Sound) {fields : List (Bytes × α)}
    (hfields : ∀ field ∈ fields, t.Finite field.2) : (setFields t g fields).1.Sound :=
  Attempt.loop_invariant fields (fun field hfield _ _ hs h => hs.setField (hfields field hfield) h)
    hg

end SetField

end Gelf

end IqLogger
