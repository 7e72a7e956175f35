import IqLogger.Formats.Gelf.Message
import IqLogger.Lib.Fails

/-!
# How GELF messages fail to parse

What the constructors of `GelfMessage` throw. Nearly everything is a `GelfException`:
the checks of the parser throw one, and the errors of the decompressors are turned into
one. What is left are the two places where a text is converted to a number, for the
timestamp and for the level, and `std::stod` and `std::stoi` throw exceptions of their
own for a text that they cannot convert.

A handler that catches the former and not the latter (`IqLogger.Gelf.Handler`) catches
all failures of a step of the parser, except for these two
(`IqLogger.Gelf.Handler.timestamp_iff`, `IqLogger.Gelf.Handler.level_iff`). A step is
reached when all before it return, so a level is converted only when the timestamp
passes its check; the condition that comes out for a whole buffer is
`IqLogger.Gelf.Convertible`, and `IqLogger.Gelf.Handler.construct_iff` says that it is
exact.
-/

namespace IqLogger

namespace Gelf

open Rapidjson

/-! ### Handlers -/

/-- A handler that catches the exceptions of the parser and none of a conversion. -/
structure Handler (P : Throwable → Prop) : Prop where
  gelf : ∀ e, e.isGelfException → P e
  conversion : ∀ name e, ¬P (.ofConversion name e)

/-- `catch (const GelfException&)`. -/
theorem handler_isGelfException : Handler (fun e => e.isGelfException) where
  gelf _ h := h
  conversion name e := by simp

/-- `catch (const Exception&)`. -/
theorem handler_isException : Handler (fun e => e.isException) where
  gelf _ h := Throwable.isException_of_isGelfException h
  conversion name e := by simp

/-! ### What the parser accepts, up to the level -/

section Conditions

variable (members : Members)

/-- The fields before the timestamp pass their checks. -/
structure HeaderAccepted : Prop where
  version : ∃ s, findMember "version" members = some (.string s) ∧ getString s = ascii "1.1"
  host : ∃ s, findMember "host" members = some (.string s) ∧ getString s ≠ []
  shortMessage : ∃ s, findMember "short_message" members = some (.string s) ∧ getString s ≠ []
  fullMessage : ∀ value, findMember "full_message" members = some value → ∃ s, value = .string s

/-- A value the parser takes for a time after the start of 2019: a number, or a text
with a number at its head. -/
inductive AcceptableTime : Value → Prop
  | int (n : Integer) (hlossless : n.isLosslessDouble) (hmin : ¬n.getDouble < minTimestamp) :
    AcceptableTime (.int n)
  | double (d : Float) (hmin : ¬d < minTimestamp) : AcceptableTime (.double d)
  | string (s : Bytes) (t : Float) (hconvert : Strto.stod (getString s) = .ok t)
    (hmin : ¬t < minTimestamp) : AcceptableTime (.string s)

/-- The timestamp passes its check, if there is one. -/
def TimestampAccepted : Prop :=
  ∀ value, findMember "timestamp" members = some value → AcceptableTime value

/-- A timestamp that is given as a text can be converted. -/
def TimestampConverts : Prop :=
  ∀ s, findMember "timestamp" members = some (.string s) → ∃ t, Strto.stod (getString s) = .ok t

/-- A level that is given as a text can be converted. -/
def LevelConverts : Prop :=
  ∀ s, findMember "level" members = some (.string s) → ∃ n, Strto.stoi (getString s) = .ok n

/-- The texts that the parser comes to convert are numbers. -/
def NumbersConvert : Prop :=
  HeaderAccepted members →
    TimestampConverts members ∧ (TimestampAccepted members → LevelConverts members)

/-- The text in a buffer: a buffer that begins as compressed data does stands for what
it is decompressed to. -/
inductive TextOf (boost : Decompressors) (buffer : Bytes) : Bytes → Prop
  | gzip (text : Bytes) (hlen : 2 < buffer.length) (hgzip : isGzip buffer)
    (htext : boost.gzip buffer = .ok text) : TextOf boost buffer text
  | zlib (text : Bytes) (hlen : 2 < buffer.length) (hgzip : ¬isGzip buffer) (hzlib : isZlib buffer)
    (htext : boost.zlib buffer = .ok text) : TextOf boost buffer text
  | plain (hlen : 2 < buffer.length) (hgzip : ¬isGzip buffer) (hzlib : ¬isZlib buffer) :
    TextOf boost buffer buffer

/-- The texts that the parser comes to convert, for the text in a buffer, are numbers. -/
def Convertible (boost : Decompressors) (parse : Bytes → Except ParseResult Value)
    (buffer : Bytes) :
    Prop :=
  ∀ text, TextOf boost buffer text →
    ∀ members, parse (cString text) = .ok (.object members) → NumbersConvert members

end Conditions

variable {members : Members} {currentTime : Float}

/-! ### What each step returns -/

section Returns

theorem decompress_eq_ok {boost : Decompressors} {buffer text : Bytes} :
    decompress boost buffer = .ok text ↔ TextOf boost buffer text := by
  rw [decompress]
  split_ifs with hlen hgzip hzlib
  · constructor
    · rintro ⟨⟩
    · intro h
      cases h <;> omega
  · rw [Except.mapError_eq_ok]
    constructor
    · exact .gzip text (by omega) hgzip
    · intro h
      cases h with
      | gzip _ _ _ htext => exact htext
      | zlib _ _ hgzip' => exact absurd hgzip hgzip'
      | plain _ hgzip' => exact absurd hgzip hgzip'
  · rw [Except.mapError_eq_ok]
    constructor
    · exact .zlib text (by omega) hgzip hzlib
    · intro h
      cases h with
      | gzip _ _ hgzip' => exact absurd hgzip' hgzip
      | zlib _ _ _ _ htext => exact htext
      | plain _ _ hzlib' => exact absurd hzlib hzlib'
  · constructor
    · rintro ⟨⟩
      exact .plain (by omega) hgzip hzlib
    · intro h
      cases h with
      | gzip _ _ hgzip' => exact absurd hgzip' hgzip
      | zlib _ _ _ hzlib' => exact absurd hzlib' hzlib
      | plain => rfl

theorem requiredString_eq_ok {name notString incorrect notPresent : String} {accepts : Bytes → Bool}
    {value : Bytes} :
    requiredString members name notString incorrect notPresent accepts = .ok value ↔
      ∃ s, findMember name members = some (.string s) ∧ accepts (getString s) ∧
        getString s = value := by
  rw [requiredString]
  rcases hfind : findMember name members with _ | ⟨_ | _ | _ | _ | s | _ | _⟩
  case some.string =>
    by_cases haccepts : accepts (getString s)
    · simp [haccepts, pure, Except.pure]
    · simp [haccepts, parseError, throw, throwThe, MonadExceptOf.throw]
  all_goals simp [parseError, throw, throwThe, MonadExceptOf.throw]

theorem fullMessage_isOk_iff :
    (∃ value, fullMessage members = .ok value) ↔
      ∀ value, findMember "full_message" members = some value → ∃ s, value = .string s := by
  rw [fullMessage]
  rcases hfind : findMember "full_message" members with _ | ⟨_ | _ | _ | _ | s | _ | _⟩
  all_goals simp [parseError, throw, throwThe, MonadExceptOf.throw, pure, Except.pure]

/-- The header is accepted when its four steps return. -/
theorem headerAccepted_iff :
    HeaderAccepted members ↔ (∃ value, version members = .ok value) ∧
      (∃ value, host members = .ok value) ∧ (∃ value, shortMessage members = .ok value) ∧
      ∃ value, fullMessage members = .ok value := by
  have hrequired : ∀ {name notString incorrect notPresent : String} {accepts : Bytes → Bool},
      (∃ value, requiredString members name notString incorrect notPresent accepts = .ok value) ↔
        ∃ s, findMember name members = some (.string s) ∧ accepts (getString s) := by
    intro name notString incorrect notPresent accepts
    constructor
    · rintro ⟨value, h⟩
      obtain ⟨s, hfind, haccepts, -⟩ := requiredString_eq_ok.mp h
      exact ⟨s, hfind, haccepts⟩
    · rintro ⟨s, hfind, haccepts⟩
      exact ⟨getString s, requiredString_eq_ok.mpr ⟨s, hfind, haccepts, rfl⟩⟩
  rw [version, host, shortMessage, hrequired, hrequired, hrequired, fullMessage_isOk_iff]
  constructor
  · intro h
    exact ⟨by simpa using h.version, by simpa using h.host, by simpa using h.shortMessage,
      h.fullMessage⟩
  · rintro ⟨hversion, hhost, hshort, hfull⟩
    exact ⟨by simpa using hversion, by simpa using hhost, by simpa using hshort, hfull⟩

/-- A time is acceptable when it is read and passes the check. -/
theorem acceptableTime_iff {value : Value} :
    AcceptableTime value ↔ ∃ t, readTimestamp value = .ok t ∧ ¬t < minTimestamp := by
  constructor
  · intro h
    cases h with
    | int n hlossless hmin =>
      exact ⟨n.getDouble, by rw [readTimestamp, if_pos hlossless]; rfl, hmin⟩
    | double d hmin => exact ⟨d, rfl, hmin⟩
    | string s t hconvert hmin => exact ⟨t, Except.mapError_eq_ok.mpr hconvert, hmin⟩
  · rintro ⟨t, hread, hmin⟩
    cases value with
    | int n =>
      rw [readTimestamp] at hread
      split_ifs at hread with hlossless
      · cases hread
        exact .int n hlossless hmin
      · cases hread
    | double d =>
      cases hread
      exact .double t hmin
    | string s => exact .string s t (Except.mapError_eq_ok.mp hread) hmin
    | null => cases hread
    | bool b => cases hread
    | array elements => cases hread
    | object members => cases hread

/-- The step for the timestamp returns when the timestamp is accepted. -/
theorem timestamp_isOk_iff :
    (∃ t, timestamp members currentTime = .ok t) ↔ TimestampAccepted members := by
  rw [timestamp, TimestampAccepted]
  cases hfind : findMember "timestamp" members with
  | none => simp [pure, Except.pure]
  | some value =>
    have hcheck : ∀ t u, checkTimestamp t = .ok u ↔ ¬t < minTimestamp ∧ t = u := by
      intro t u
      rw [checkTimestamp]
      split_ifs with hmin
      · simp [hmin, parseError, throw, throwThe, MonadExceptOf.throw]
      · simp [hmin, pure, Except.pure]
    simp [Except.bind_eq_ok, hcheck, acceptableTime_iff]

/-- **What the parser returns**: what each of its steps returns. -/
theorem gelfOfMembers_eq_ok {g : GelfData} :
    gelfOfMembers members currentTime = .ok g ↔
      version members = .ok g.version ∧ host members = .ok g.host ∧
        shortMessage members = .ok g.shortMessage ∧ fullMessage members = .ok g.fullMessage ∧
        timestamp members currentTime = .ok g.timestamp ∧ level members = .ok g.level ∧
        additionalFields members = .ok g.additionalFields := by
  rw [gelfOfMembers]
  simp only [Except.bind_eq_ok]
  constructor
  · rintro ⟨_, hversion, _, hhost, _, hshort, _, hfull, _, htime, _, hlevel, _, hfields, ⟨⟩⟩
    exact ⟨hversion, hhost, hshort, hfull, htime, hlevel, hfields⟩
  · rintro ⟨hversion, hhost, hshort, hfull, htime, hlevel, hfields⟩
    exact ⟨_, hversion, _, hhost, _, hshort, _, hfull, _, htime, _, hlevel, _, hfields, rfl⟩

theorem gelf_eq_ok {parse : Bytes → Except ParseResult Value} {message : Bytes} {g : GelfData} :
    gelf parse currentTime message = .ok g ↔
      ∃ members, parse (cString message) = .ok (.object members) ∧
        gelfOfMembers members currentTime = .ok g := by
  rw [gelf]
  constructor
  · intro h
    split at h
    · cases h
    · exact ⟨_, ‹_›, h⟩
    · cases h
  · rintro ⟨members, hparse, h⟩
    rw [hparse]
    exact h

/-- The parser returns when all of its steps do. -/
theorem gelfOfMembers_isOk_iff :
    (∃ g, gelfOfMembers members currentTime = .ok g) ↔
      HeaderAccepted members ∧ TimestampAccepted members ∧ (∃ n, level members = .ok n) ∧
        ∃ fields, additionalFields members = .ok fields := by
  rw [headerAccepted_iff, ← @timestamp_isOk_iff _ currentTime]
  simp only [gelfOfMembers_eq_ok]
  constructor
  · rintro ⟨g, hversion, hhost, hshort, hfull, htime, hlevel, hfields⟩
    exact ⟨⟨⟨_, hversion⟩, ⟨_, hhost⟩, ⟨_, hshort⟩, _, hfull⟩, ⟨_, htime⟩, ⟨_, hlevel⟩, _, hfields⟩
  · rintro ⟨⟨⟨version, hversion⟩, ⟨host, hhost⟩, ⟨short, hshort⟩, full, hfull⟩, ⟨time, htime⟩,
      ⟨level, hlevel⟩, fields, hfields⟩
    exact ⟨⟨version, host, short, full, time, level, fields⟩, hversion, hhost, hshort, hfull,
      htime, hlevel, hfields⟩

/-- A timestamp that is given is read and passes the check. -/
theorem timestamp_eq_ok {value : Value} (hfind : findMember "timestamp" members = some value)
    {t : Float} :
    timestamp members currentTime = .ok t ↔ readTimestamp value = .ok t ∧ ¬t < minTimestamp := by
  rw [timestamp, hfind]
  dsimp only
  rw [Except.bind_eq_ok]
  constructor
  · rintro ⟨u, hread, hcheck⟩
    rw [checkTimestamp] at hcheck
    split_ifs at hcheck with hmin
    · cases hcheck
    · cases hcheck
      exact ⟨hread, hmin⟩
  · rintro ⟨hread, hmin⟩
    exact ⟨t, hread, if_neg hmin⟩

/-- A level that is given is read and passes the check. -/
theorem level_eq_ok {value : Value} (hfind : findMember "level" members = some value) {n : UInt8} :
    level members = .ok n ↔ readLevel value = .ok n ∧ 1 ≤ n ∧ n < 10 := by
  rw [level, hfind]
  dsimp only
  rw [Except.bind_eq_ok]
  constructor
  · rintro ⟨m, hread, hcheck⟩
    rw [checkLevel] at hcheck
    split_ifs at hcheck with hlevel
    · cases hcheck
    · cases hcheck
      rw [not_or, UInt8.not_lt, UInt8.not_le] at hlevel
      exact ⟨hread, hlevel⟩
  · rintro ⟨hread, hlevel⟩
    refine ⟨n, hread, if_neg ?_⟩
    rw [not_or, UInt8.not_lt, UInt8.not_le]
    exact hlevel

end Returns

/-! ### What each step throws -/

section Fails

variable {P : Throwable → Prop} (hP : Handler P)

include hP

theorem Handler.parseError {α : Type} (what : String) :
    (Gelf.parseError (α := α) what).FailsOnly P :=
  Except.failsOnly_throw.mpr (hP.gelf _ rfl)

/-- A conversion has to return. -/
theorem Handler.conversion_iff {α : Type} {name : String} {x : Except Strto.ConversionError α} :
    (x.mapError (.ofConversion name)).FailsOnly P ↔ ∃ a, x = .ok a := by
  rw [Except.failsOnly_mapError, ← Except.failsOnly_false]
  simp only [hP.conversion]

/-- **All errors of the decompressors are translated.** -/
theorem Handler.decompress (boost : Decompressors) (buffer : Bytes) :
    (Gelf.decompress boost buffer).FailsOnly P := by
  rw [Gelf.decompress]
  split_ifs
  · exact Except.failsOnly_throw.mpr (hP.gelf _ rfl)
  · exact Except.failsOnly_mapError.mpr fun e _ => hP.gelf _ rfl
  · exact Except.failsOnly_mapError.mpr fun e _ => hP.gelf _ rfl
  · exact Except.failsOnly_pure _

theorem Handler.requiredString (name notString incorrect notPresent : String)
    (accepts : Bytes → Bool) :
    (Gelf.requiredString members name notString incorrect notPresent accepts).FailsOnly P := by
  rw [Gelf.requiredString]
  split
  · split_ifs
    · exact Except.failsOnly_pure _
    · exact hP.parseError _
  · exact hP.parseError _
  · exact hP.parseError _

theorem Handler.fullMessage : (Gelf.fullMessage members).FailsOnly P := by
  rw [Gelf.fullMessage]
  split
  · exact Except.failsOnly_pure _
  · exact hP.parseError _
  · exact Except.failsOnly_pure _

/-- **The step for the timestamp fails as it should when a text converts.** -/
theorem Handler.timestamp_iff :
    (Gelf.timestamp members currentTime).FailsOnly P ↔ TimestampConverts members := by
  rw [Gelf.timestamp, TimestampConverts]
  cases hfind : findMember "timestamp" members with
  | none => simp
  | some value =>
    have hcheck : ∀ t, (checkTimestamp t).FailsOnly P := by
      intro t
      rw [checkTimestamp]
      split_ifs
      · exact hP.parseError _
      · exact Except.failsOnly_pure _
    simp only [Except.failsOnly_bind, hcheck, implies_true, and_true]
    -- of all values, only a text is converted
    cases value with
    | string s => simpa [readTimestamp, stod] using hP.conversion_iff
    | int n =>
      rw [readTimestamp]
      split_ifs
      · simp
      · simpa using hP.parseError _
    | double d => simp [readTimestamp]
    | null => simpa [readTimestamp] using hP.parseError _
    | bool b => simpa [readTimestamp] using hP.parseError _
    | array elements => simpa [readTimestamp] using hP.parseError _
    | object members => simpa [readTimestamp] using hP.parseError _

/-- **The step for the level fails as it should when a text converts.** -/
theorem Handler.level_iff : (Gelf.level members).FailsOnly P ↔ LevelConverts members := by
  rw [Gelf.level, LevelConverts]
  cases hfind : findMember "level" members with
  | none => simp
  | some value =>
    have hcheck : ∀ n, (checkLevel n).FailsOnly P := by
      intro n
      rw [checkLevel]
      split_ifs
      · exact hP.parseError _
      · exact Except.failsOnly_pure _
    simp only [Except.failsOnly_bind, hcheck, implies_true, and_true]
    cases value with
    | string s =>
      have hread : (readLevel (.string s)).FailsOnly P ↔ ∃ n, Strto.stoi (getString s) = .ok n := by
        rw [readLevel, Except.failsOnly_bind]
        simp [stoi, hP.conversion_iff]
      simpa using hread
    | int n =>
      rw [readLevel]
      split_ifs
      · simp
      · simpa using hP.parseError _
    | double d => simpa [readLevel] using hP.parseError _
    | null => simpa [readLevel] using hP.parseError _
    | bool b => simpa [readLevel] using hP.parseError _
    | array elements => simpa [readLevel] using hP.parseError _
    | object members => simpa [readLevel] using hP.parseError _

theorem Handler.fieldValue (name : Bytes) (value : Value) :
    (Gelf.fieldValue name value).FailsOnly P := by
  have hthrow : (throw ⟨.gelfParseError, ascii "Incorrect type in GELF: " ++ getString name⟩ :
      Except Throwable ObjectVariants).FailsOnly P := Except.failsOnly_throw.mpr (hP.gelf _ rfl)
  cases value with
  | string s => exact Except.failsOnly_pure _
  | int n =>
    rw [Gelf.fieldValue]
    split_ifs
    · exact Except.failsOnly_pure _
    · exact hthrow
  | double d => exact Except.failsOnly_pure _
  | bool b => exact Except.failsOnly_pure _
  | null => exact hthrow
  | array elements => exact hthrow
  | object members => exact hthrow

theorem Handler.additionalFields : (Gelf.additionalFields members).FailsOnly P := by
  refine Except.FailsOnly.foldlM (fun fields member => ?_) ∅ members
  rw [addField]
  split_ifs
  · exact Except.failsOnly_pure _
  · exact (hP.fieldValue _ _).bind fun value => Except.failsOnly_pure _

/-! ### The whole parser -/

/-- The checks of an object fail as they should when the texts that they come to
convert are numbers. -/
theorem Handler.gelfOfMembers_iff :
    (gelfOfMembers members currentTime).FailsOnly P ↔ NumbersConvert members := by
  have hfields : ∀ version host shortMessage fullMessage timestamp level,
      (do
        let additionalFields ← Gelf.additionalFields members
        pure ⟨version, host, shortMessage, fullMessage, timestamp, level, additionalFields⟩ :
        Except Throwable GelfData).FailsOnly P := fun _ _ _ _ _ _ =>
    hP.additionalFields.bind fun fields => Except.failsOnly_pure _
  have hversion : (version members).FailsOnly P := hP.requiredString _ _ _ _ _
  have hhost : (host members).FailsOnly P := hP.requiredString _ _ _ _ _
  have hshort : (shortMessage members).FailsOnly P := hP.requiredString _ _ _ _ _
  rw [gelfOfMembers, NumbersConvert, headerAccepted_iff,
    ← @Handler.timestamp_iff _ currentTime _ hP,
    ← hP.level_iff, ← @timestamp_isOk_iff _ currentTime]
  -- the steps that only throw exceptions of the parser count by what they return
  simp only [Except.failsOnly_bind, hversion, hhost, hshort, hP.fullMessage, hfields, true_and,
    implies_true, and_true]
  constructor
  · rintro h ⟨⟨v, hv⟩, ⟨name, hname⟩, ⟨short, hshort⟩, full, hfull⟩
    obtain ⟨htime, hlevel⟩ := h v hv name hname short hshort full hfull
    exact ⟨htime, fun ⟨t, ht⟩ => hlevel t ht⟩
  · intro h v hv name hname short hshort full hfull
    obtain ⟨htime, hlevel⟩ := h ⟨⟨v, hv⟩, ⟨name, hname⟩, ⟨short, hshort⟩, full, hfull⟩
    exact ⟨htime, fun t ht => hlevel ⟨t, ht⟩⟩

variable {parse : Bytes → Except ParseResult Value}

/-- A text fails as it should when it is no JSON object, or one whose numbers convert. -/
theorem Handler.gelf_iff {message : Bytes} :
    (Gelf.gelf parse currentTime message).FailsOnly P ↔
      ∀ members, parse (cString message) = .ok (.object members) → NumbersConvert members := by
  rw [Gelf.gelf]
  rcases hparse : parse (cString message) with result | ⟨_ | _ | _ | _ | _ | _ | members⟩
  case error => simpa using hP.gelf (notParsed message result) rfl
  case ok.object => simpa using hP.gelfOfMembers_iff
  all_goals simpa using hP.parseError _

/-- **What the constructors throw is caught exactly when the numbers in the buffer
convert.** -/
theorem Handler.construct_iff {boost : Decompressors} {input message : Bytes}
    {endpoint : Endpoint} :
    (GelfMessage.construct parse currentTime boost input message endpoint).FailsOnly P ↔
      Convertible boost parse message := by
  rw [GelfMessage.construct, Except.failsOnly_bind, Convertible]
  simp only [hP.decompress, true_and, Except.failsOnly_bind, Except.failsOnly_pure, implies_true,
    and_true, hP.gelf_iff, decompress_eq_ok]

end Fails

end Gelf

end IqLogger
