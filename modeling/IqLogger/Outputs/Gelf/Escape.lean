import IqLogger.Outputs.Gelf.Acceptance
import IqLogger.Pipeline.Stages

/-!
# JSON documents in the output stage

The input takes any JSON document, and the output goes through it as through an object
whose system fields are of the right types. Where it is not, the JSON library throws: an
iterator over anything but an object has no key, and a value of the wrong type does not
convert. `Output::importMessages` catches the exceptions of the program only, so that
these leave it, and with them goes the whole batch.

Which documents do so is `IqLogger.Gelf.ConvertibleDocument`, and that a batch is lost with
exactly these is `IqLogger.Gelf.output_unbroken_iff`.
-/

namespace IqLogger

namespace Gelf

open Pipeline (Batch ThreadState exporting importRecords max_queue_bulk_size forward_spec)
open ReusedBuffer (Stop converted)

/-- The texts among the system fields. -/
def textNames : List Bytes :=
  [ascii "version", ascii "host", ascii "short_message", ascii "full_message"]

/-- A value that can be set as the field of this name: the system fields have types. -/
def Settable (member : Bytes × Nlohmann.Value) : Prop :=
  (member.1 ∈ textNames → member.2.isString) ∧
    (member.1 = ascii "timestamp" → member.2.isNumber) ∧
    (member.1 = ascii "level" → member.2.isNumber ∨ member.2.isBoolean)

/-- A document the output can convert: every value that is set has a name and can be set
under it. -/
def ConvertibleDocument : Nlohmann.Value → Prop
  | .null => True
  | .object members => ∀ member ∈ members, Record.isField member.2 → Settable member
  | .array elements => ∀ element ∈ elements, ¬Record.isField element
  | _ => False

section Convert

variable {env : Environment}

theorem isSome_text (value : Nlohmann.Value) :
    (env.jsonValues.text value).isSome ↔ value.isString := by
  cases value <;> simp [FieldType.text, jsonField, Nlohmann.Value.getString,
    Nlohmann.Value.isString, Except.mapError, Except.toOption, pure, Except.pure, throw, throwThe,
    MonadExceptOf.throw]

theorem isSome_time (value : Nlohmann.Value) :
    (env.jsonValues.time value).isSome ↔ value.isNumber := by
  cases value <;> simp [FieldType.time, jsonField, Nlohmann.Value.getDouble,
    Nlohmann.Value.isNumber, Except.mapError, Except.toOption, pure, Except.pure, throw, throwThe,
    MonadExceptOf.throw]

theorem isSome_level (value : Nlohmann.Value) :
    (env.jsonValues.level value).isSome ↔ value.isNumber ∨ value.isBoolean := by
  cases value <;> simp [FieldType.level, jsonField, Nlohmann.Value.getUnsignedChar,
    Nlohmann.Value.isNumber, Nlohmann.Value.isBoolean, Except.mapError, Except.toOption, pure,
    Except.pure, throw, throwThe, MonadExceptOf.throw]

theorem isSome_variant {value : Nlohmann.Value} (hfield : Record.isField value) :
    (env.jsonValues.toVariant value).toOption.isSome := by
  cases value with
  | null => cases hfield
  | array elements => cases hfield
  | object members => cases hfield
  | boolean b => rfl
  | integer n => rfl
  | unsigned n => rfl
  | float d => rfl
  | string s => rfl

/-- A field is set when its value has the type of the field. -/
theorem accepts_iff_settable {member : Bytes × Nlohmann.Value} (hfield : Record.isField member.2) :
    env.jsonValues.accepts member ↔ Settable member := by
  obtain ⟨name, value⟩ := member
  by_cases htimestamp : name = ascii "timestamp"
  · subst htimestamp
    simp +decide [FieldType.accepts, Settable, isSome_time, textNames]
  by_cases hlevel : name = ascii "level"
  · subst hlevel
    simp +decide [FieldType.accepts, Settable, isSome_level, textNames]
  by_cases htext : name ∈ textNames
  · have hempty : name ≠ [] := by
      rintro rfl
      revert htext
      decide
    have hsystem : isSystemField name := by
      simp only [textNames, List.mem_cons, List.not_mem_nil, or_false] at htext
      rcases htext with rfl | rfl | rfl | rfl <;> decide
    have htotext : (env.jsonValues.toText value).isNone = false := rfl
    simp [FieldType.accepts, Settable, hempty, htimestamp, hlevel, htext, hsystem, htotext,
      isSome_text]
  · -- any other name takes any value
    refine iff_of_true ?_ ⟨fun h => absurd h htext, fun h => absurd h htimestamp,
      fun h => absurd h hlevel⟩
    have hsystem : isSystemField name = false := by
      simp only [textNames, List.mem_cons, List.not_mem_nil, or_false, not_or] at htext
      simp [isSystemField, htext, htimestamp, hlevel]
    by_cases hempty : name = []
    · simp [FieldType.accepts, hempty]
    · simp [FieldType.accepts, hempty, htimestamp, hlevel, hsystem, isSome_variant hfield]

/-- After a loop, a message is converted when the loop got to its end. -/
theorem finishLoop_iff {out : GelfData × Option Thrown} :
    (∃ text, Record.finishLoop env out = .ok text) ↔ out.2 = none := by
  obtain ⟨g, _ | e⟩ := out
  · exact iff_of_true ⟨_, rfl⟩ rfl
  · exact iff_of_false (by rintro ⟨_, ⟨⟩⟩) (by rintro ⟨⟩)

/-- **A JSON message is converted exactly when the document is convertible.** -/
theorem ofJson_iff (value : Nlohmann.Value) :
    (∃ text, Record.ofJson env value = .ok text) ↔ ConvertibleDocument value := by
  rw [Record.ofJson, finishLoop_iff]
  cases value with
  | null => exact iff_of_true rfl trivial
  | boolean b => exact iff_of_false (by rintro ⟨⟩) id
  | integer n => exact iff_of_false (by rintro ⟨⟩) id
  | unsigned n => exact iff_of_false (by rintro ⟨⟩) id
  | float d => exact iff_of_false (by rintro ⟨⟩) id
  | string s => exact iff_of_false (by rintro ⟨⟩) id
  | array elements =>
    change (if elements.any Record.isField then some _ else none) = none ↔ _
    rw [ite_eq_right_iff]
    simp [ConvertibleDocument]
  | object members =>
    have hloop : (Record.setMembers env env.gelf members).2 = none ↔
        ∀ field ∈ jsonFields members, env.jsonValues.accepts field :=
      decided_setField.loop_eq_none_iff
    refine hloop.trans ?_
    constructor
    · intro h member hmember hfield
      exact (accepts_iff_settable hfield).mp (h member (List.mem_filter.mpr ⟨hmember, hfield⟩))
    · intro h field hfield
      obtain ⟨hmember, hscalar⟩ := List.mem_filter.mp hfield
      exact (accepts_iff_settable hscalar).mpr (h field hmember hscalar)

/-- The exceptions of a document are those of the JSON library. -/
theorem not_isException_of_ofJson {value : Nlohmann.Value} {e : Thrown}
    (h : Record.ofJson env value = .error e) : e.isException = false := by
  have hthrown : ∀ {out : GelfData × Option Thrown}, Record.finishLoop env out = .error e →
      out.2 = some e := by
    rintro ⟨g, _ | e'⟩ h
    · cases h
    · cases h
      rfl
  have hthrown := hthrown h
  have hscalar : ∀ field : Bool, (if field then some (.json .invalidIterator) else none) = some e →
      e.isException = false := by
    intro field hfield
    split_ifs at hfield
    cases hfield
    rfl
  cases value with
  | object members =>
    obtain ⟨x, rfl⟩ := (throwsOnly_jsonField env.toUnsignedChar).setFields hthrown
    rfl
  | array elements => exact hscalar (elements.any Record.isField) hthrown
  | null => exact hscalar false hthrown
  | boolean b => exact hscalar true hthrown
  | integer n => exact hscalar true hthrown
  | unsigned n => exact hscalar true hthrown
  | float d => exact hscalar true hthrown
  | string s => exact hscalar true hthrown

end Convert

/-! ### The batch -/

section Batch

variable {env : Environment}

/-- The import of a batch returns exactly when what its records throw is caught, and then
all records that could be made are enqueued. -/
theorem importRecords_iff {s : ThreadState Message Bytes} (hs : s.Sized) {messages : List Message}
    (hfit : messages.length ≤ max_queue_bulk_size) :
    (∃ t, importRecords Thrown.isException (Record.ofMessage env) s ⟨messages, true⟩ = .ok t ∧
        t.queue = s.queue ++ (converted (exporting (Record.ofMessage env)) messages).map .to) ↔
      ∀ message ∈ messages, (Record.ofMessage env message).FailsOnly fun e => e.isException := by
  constructor
  · rintro ⟨t, ht, -⟩ message hmessage
    obtain ⟨loop, hloop, -⟩ := Except.bind_eq_ok.mp ht
    have hall := (ReusedBuffer.batch_ok_iff .to (hfit.trans_eq hs.1.symm)
      (hfit.trans_eq hs.2.symm)).mp ⟨loop, hloop⟩
    exact Pipeline.failsOnly_exporting.mp (hall message hmessage)
  · intro h
    obtain ⟨loop, t, hloop, ht, -, hqueue⟩ := forward_spec (b := ⟨messages, true⟩) .to hs
      ⟨hfit, fun message hmessage => Pipeline.failsOnly_exporting.mpr (h message hmessage)⟩
    refine ⟨t, Except.bind_eq_ok.mpr ⟨loop, hloop, ht⟩, ?_⟩
    rw [hqueue, Pipeline.forwarded, List.flatMap_singleton, if_pos rfl]

/-- **Which documents the output stage survives.** A JSON document in a batch of messages
whose exceptions are caught: its conversion yields a record or throws what is caught, and
the import enqueues the records of all messages and returns, if and only if the document
is convertible. -/
theorem output_unbroken_iff (env : Environment) (value : Nlohmann.Value)
    {before after : List Message}
    {s : ThreadState Message Bytes} (hs : s.Sized)
    (hfit : (before ++ .json value :: after).length ≤ max_queue_bulk_size)
    (hothers : ∀ message ∈ before ++ after,
      (Record.ofMessage env message).FailsOnly fun e => e.isException) :
    (((∃ text, Record.ofMessage env (.json value) = .ok text) ∨
          ∃ e, Record.ofMessage env (.json value) = .error e ∧ e.isException) ∧
        ∃ t, importRecords Thrown.isException (Record.ofMessage env) s
            ⟨before ++ .json value :: after, true⟩ = .ok t ∧
          t.queue = s.queue ++
            (converted (exporting (Record.ofMessage env)) (before ++ .json value :: after)).map
              .to) ↔
      ConvertibleDocument value := by
  have hjson : (Record.ofMessage env (.json value)).FailsOnly (fun e => e.isException) ↔
      ConvertibleDocument value := by
    rw [← @ofJson_iff env]
    constructor
    · intro h
      cases hvalue : Record.ofJson env value with
      | ok text => exact ⟨text, rfl⟩
      | error e =>
        have hcaught : e.isException = true := h e hvalue
        rw [not_isException_of_ofJson hvalue] at hcaught
        cases hcaught
    · rintro ⟨text, htext⟩ e he
      cases htext.symm.trans he
  rw [importRecords_iff hs hfit]
  constructor
  · rintro ⟨-, hall⟩
    exact hjson.mp (hall _ (List.mem_append_right _ List.mem_cons_self))
  · intro hconvertible
    refine ⟨.inl ((ofJson_iff value).mpr hconvertible), fun message hmessage => ?_⟩
    rcases List.mem_append.mp hmessage with hbefore | hrest
    · exact hothers message (List.mem_append_left _ hbefore)
    · rcases List.mem_cons.mp hrest with rfl | hafter
      · exact hjson.mpr hconvertible
      · exact hothers message (List.mem_append_right _ hafter)

/-- A thread of the output server before its first batch. -/
theorem output_unbroken_iff_greeting :
    let env := sampleEnvironment greetingFields greetingText
    let value := Nlohmann.Value.object [(ascii "short_message", .string (ascii "hi"))]
    (((∃ text, Record.ofMessage env (.json value) = .ok text) ∨
          ∃ e, Record.ofMessage env (.json value) = .error e ∧ e.isException) ∧
        ∃ t, importRecords Thrown.isException (Record.ofMessage env) .start
            ⟨[.dummy (ascii "hi")] ++ .json value :: [], true⟩ = .ok t ∧
          t.queue = [] ++ (converted (exporting (Record.ofMessage env))
            ([.dummy (ascii "hi")] ++ .json value :: [])).map .to) ↔
      ConvertibleDocument value :=
  output_unbroken_iff _ _ ThreadState.sized_start (by decide) (by
    intro message hmessage
    obtain rfl := List.mem_singleton.mp hmessage
    exact Except.failsOnly_ok _)

/-- **An array with a number in it ends the output thread**, and the batch is lost: the
message before it would have been sent. -/
theorem output_broken_by_array :
    let env := sampleEnvironment greetingFields greetingText
    let value := Nlohmann.Value.array [.unsigned 1]
    value.WellFormed ∧
      Record.ofMessage env (.json value) = .error (.json .invalidIterator) ∧
      (∃ text, Record.ofMessage env (.dummy (ascii "hi")) = .ok text) ∧
      importRecords Thrown.isException (Record.ofMessage env) .start
        ⟨[.dummy (ascii "hi"), .json value], true⟩ =
          .error (.escaped (.json .invalidIterator)) := by
  intro env value
  have hsized := (ThreadState.sized_start : (ThreadState.start : ThreadState Message Bytes).Sized)
  have htwo : 2 ≤ max_queue_bulk_size := by decide
  have hescapes : ReusedBuffer.batch .to (exporting (Record.ofMessage env)) Thrown.isException
      (ThreadState.start : ThreadState Message Bytes).input ThreadState.start.output
      [.dummy (ascii "hi"), .json value] = .error (.escaped (.json .invalidIterator)) :=
    ReusedBuffer.batch_escapes .to
      (rfl : _ = [Message.dummy (ascii "hi")] ++ .json value :: [])
      (htwo.trans_eq hsized.1.symm) (htwo.trans_eq hsized.2.symm)
      (fun message hmessage => by
        obtain rfl := List.mem_singleton.mp hmessage
        exact Pipeline.failsOnly_exporting.mpr (Except.failsOnly_ok _)) rfl rfl
  refine ⟨.array _ ?_, rfl, ⟨_, rfl⟩, ?_⟩
  · simp [Nlohmann.Value.WellFormed.unsigned]
  · rw [importRecords]
    change (ReusedBuffer.batch .to (exporting (Record.ofMessage env)) Thrown.isException
      (ThreadState.start : ThreadState Message Bytes).input ThreadState.start.output
      [.dummy (ascii "hi"), .json value] >>= _) = _
    rw [hescapes]
    rfl

end Batch

end Gelf

end IqLogger
