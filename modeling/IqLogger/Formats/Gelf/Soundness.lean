import IqLogger.Formats.Gelf.Failures
import Mathlib.Data.List.TakeWhile

/-!
# What the parser lets through

A text that is parsed without an exception has the fields GELF asks for, up to three
conversions that come before the checks. A text is a `const char*` on the way, so what stands
behind a NUL is not looked at, neither in the whole text nor in the version; a level is put
into an `unsigned char` before it is compared, so that one of 257 is stored as 1; and
`std::stoi` and `std::stod` read the number at the head of a text, whatever comes after it,
and the latter reads words for numbers that are not finite, too.

What should hold of a text that is let through is `IqLogger.Gelf.Faithful`, and where none of
the three matters it does (`IqLogger.Gelf.Unambiguous`); that there are no other exceptions is
`IqLogger.Gelf.gelf_faithful_iff`.
-/

namespace IqLogger

namespace Gelf

open Rapidjson

/-- What the program relies on: the JSON library reads no text with a NUL in it, and finite
numbers only. -/
structure Strict (parse : Bytes → Except ParseResult Value) : Prop where
  noNul : ∀ text value, parse text = .ok value → 0 ∉ text
  finite : ∀ text members, parse text = .ok (.object members) →
    ∀ key d, (key, .double d) ∈ members → d.isFinite

/-- The integer a level stands for: it is an integer, or a text that is a decimal
numeral. -/
inductive Denotes : Value → ℤ → Prop
  | int (n : Integer) : Denotes (.int n) n.1
  | string (s : Bytes) (n : ℤ) (h : Strto.Decimal s n) : Denotes (.string s) n

/-- **What GELF asks for**: the fields that have to be there, a level from 1 to 9 that is
stored as it is given, and a time after the start of 2019. -/
structure Faithful (members : Members) (g : GelfData) : Prop where
  version : findMember "version" members = some (.string (ascii "1.1"))
  host : ∃ s, findMember "host" members = some (.string s) ∧ s ≠ []
  shortMessage : ∃ s, findMember "short_message" members = some (.string s) ∧ s ≠ []
  level : ∀ value, findMember "level" members = some value →
    ∃ n, Denotes value n ∧ 1 ≤ n ∧ n ≤ 9 ∧ g.level.toNat = n
  timestamp : g.timestamp.isFinite ∧ minTimestamp ≤ g.timestamp

/-- The conversions change nothing: no NUL is in the version, the level is an integer that
fits an `unsigned char`, a time that is given as a text is no word, and the clock, if it is
asked, is right. -/
structure Unambiguous (members : Members) (currentTime : Float) : Prop where
  version : ∀ s, findMember "version" members = some (.string s) → 0 ∉ s
  level : ∀ value, findMember "level" members = some value →
    ∃ n, Denotes value n ∧ 0 ≤ n ∧ n < 256
  timestamp : ∀ s, findMember "timestamp" members = some (.string s) →
    ¬Strto.beginsWithWord (getString s)
  clock : findMember "timestamp" members = none →
    currentTime.isFinite ∧ minTimestamp ≤ currentTime

/-! ### Texts -/

theorem zero_mem_withUnderscore {name : Bytes} : 0 ∈ withUnderscore name ↔ 0 ∈ name := by
  rw [withUnderscore]
  split_ifs
  · exact Iff.rfl
  · simp

/-- A numeral has no NUL in it. -/
theorem zero_notMem_of_decimal {s : Bytes} {n : ℤ} (h : Strto.Decimal s n) : 0 ∉ s := by
  have hdigits : ∀ ds : List (Fin 10), 0 ∉ ds.map Strto.digit := by
    intro ds hmem
    obtain ⟨d, -, hd⟩ := List.mem_map.mp hmem
    revert d
    decide
  cases h with
  | unsigned ds hds => exact hdigits ds
  | plus ds hds => exact List.not_mem_cons_of_ne_of_not_mem (by decide) (hdigits ds)
  | minus ds hds => exact List.not_mem_cons_of_ne_of_not_mem (by decide) (hdigits ds)

/-! ### The level -/

/-- An integer in the range of an `int`. -/
theorem toInt_ofInt {n : ℤ} (h : -2 ^ 31 ≤ n ∧ n < 2 ^ 31) : (Int32.ofInt n).toInt = n :=
  Int32.toInt_ofInt_of_le h.1 h.2

/-- **What a level is read as**: the lowest eight bits of the integer it stands for. -/
theorem readLevel_of_denotes {value : Value} {n : ℤ} {level : UInt8} (hvalue : Denotes value n)
    (h : readLevel value = .ok level) : level = UInt8.ofInt n := by
  cases hvalue with
  | int n =>
    rw [readLevel] at h
    split_ifs at h with hint
    · cases h
      rw [Integer.isInt, Bool.and_eq_true, decide_eq_true_iff, decide_eq_true_iff] at hint
      rw [Integer.getInt, toInt_ofInt hint]
    · cases h
  | string s n hdecimal =>
    rw [readLevel, getString, cString_eq_self (zero_notMem_of_decimal hdecimal)] at h
    obtain ⟨k, hk, h⟩ := Except.bind_eq_ok.mp h
    cases h
    have hstoi := Except.mapError_eq_ok.mp hk
    rw [Strto.stoi, hdecimal.strtol_eq] at hstoi
    dsimp only at hstoi
    split_ifs at hstoi with hrange
    cases hstoi
    rw [toInt_ofInt hrange]

/-- An integer that fits is stored as it is. -/
theorem toNat_ofInt {n : ℤ} (h : 0 ≤ n ∧ n < 256) : ((UInt8.ofInt n).toNat : ℤ) = n := by
  obtain ⟨m, rfl⟩ := Int.eq_ofNat_of_zero_le h.1
  have hm : m < 256 := by omega
  rw [UInt8.ofInt]
  simp
  omega

/-- **A level that is accepted is stored as it is exactly when it fits.** -/
theorem level_iff {members : Members} {stored : UInt8} (h : level members = .ok stored) :
    (∀ value, findMember "level" members = some value →
        ∃ n, Denotes value n ∧ 1 ≤ n ∧ n ≤ 9 ∧ stored.toNat = n) ↔
      ∀ value, findMember "level" members = some value →
        ∃ n, Denotes value n ∧ 0 ≤ n ∧ n < 256 := by
  constructor
  · intro hlevel value hfind
    obtain ⟨n, hvalue, hlow, hhigh, -⟩ := hlevel value hfind
    exact ⟨n, hvalue, by omega, by omega⟩
  · intro hlevel value hfind
    obtain ⟨n, hvalue, hfits⟩ := hlevel value hfind
    obtain ⟨hread, hlow, hhigh⟩ := (level_eq_ok hfind).mp h
    have hstored : (stored.toNat : ℤ) = n := by
      rw [readLevel_of_denotes hvalue hread]
      exact toNat_ofInt hfits
    rw [UInt8.le_iff_toNat_le] at hlow
    rw [UInt8.lt_iff_toNat_lt] at hhigh
    change 1 ≤ stored.toNat at hlow
    change stored.toNat < 10 at hhigh
    exact ⟨n, hvalue, by omega, by omega, hstored⟩

/-! ### The timestamp -/

theorem isFinite_minTimestamp : minTimestamp.isFinite := by decide

/-- A finite time that passes the check is after the start of 2019. -/
theorem minTimestamp_le_iff {t : Float} (h : t.isFinite) : minTimestamp ≤ t ↔ ¬t < minTimestamp :=
  Float.le_iff_not_lt (Float.isFinite_iff.mp isFinite_minTimestamp).1 (Float.isFinite_iff.mp h).1

/-- An integer that a `double` can hold is finite as a `double`. -/
theorem isFinite_getDouble {n : Integer} (h : n.isLosslessDouble) : n.getDouble.isFinite := by
  rw [Integer.isLosslessDouble] at h
  split_ifs at h
  · simp only [Bool.and_eq_true, decide_eq_true_iff] at h
    exact Float.isFinite_of_le_of_lt (by decide) h.1.1 h.1.2
  · simp only [Bool.and_eq_true, decide_eq_true_iff] at h
    exact Float.isFinite_of_le_of_lt (by decide) h.1.1 h.1.2

theorem mem_of_findMember {name : String} {members : Members} {value : Value}
    (h : findMember name members = some value) : (ascii name, value) ∈ members :=
  List.mem_of_lookup_eq_some h

/-- **A time that is accepted is finite** unless it is a word or the clock's. -/
theorem timestamp_iff {members : Members} {currentTime t : Float}
    (hfinite : ∀ key d, (key, .double d) ∈ members → d.isFinite)
    (h : timestamp members currentTime = .ok t) :
    (t.isFinite ∧ minTimestamp ≤ t) ↔
      (∀ s, findMember "timestamp" members = some (.string s) →
        ¬Strto.beginsWithWord (getString s)) ∧
      (findMember "timestamp" members = none →
        currentTime.isFinite ∧ minTimestamp ≤ currentTime) := by
  rcases hfind : findMember "timestamp" members with _ | value
  · have htime : currentTime = t := by
      rw [timestamp, hfind] at h
      exact Except.ok.inj h
    subst htime
    simp
  · obtain ⟨hread, hmin⟩ := (timestamp_eq_ok hfind).mp h
    have hmin : t.isFinite ∧ minTimestamp ≤ t ↔ t.isFinite :=
      and_iff_left_of_imp fun hfin => (minTimestamp_le_iff hfin).mpr hmin
    rw [hmin]
    cases value with
    | int n =>
      rw [readTimestamp] at hread
      split_ifs at hread with hlossless
      · cases hread
        simp [isFinite_getDouble hlossless]
      · cases hread
    | double d =>
      cases hread
      simp [hfinite _ _ (mem_of_findMember hfind)]
    | string s =>
      rw [Strto.isFinite_iff_of_stod (Except.mapError_eq_ok.mp hread)]
      simp
    | null => cases hread
    | bool b => cases hread
    | array elements => cases hread
    | object fields => cases hread

/-! ### The whole object -/

variable {parse : Bytes → Except ParseResult Value} {currentTime : Float}

/-- **Which objects are let through as they should be.** -/
theorem faithful_iff {members : Members} {g : GelfData}
    (hfinite : ∀ key d, (key, .double d) ∈ members → d.isFinite)
    (h : gelfOfMembers members currentTime = .ok g) :
    Faithful members g ↔ Unambiguous members currentTime := by
  obtain ⟨hversion, hhost, hshort, -, htime, hlevel, -⟩ := gelfOfMembers_eq_ok.mp h
  have hrequired : ∀ {name s}, findMember name members = some (.string s) → getString s ≠ [] →
      ∃ s, findMember name members = some (.string s) ∧ s ≠ [] := by
    intro name s hfind hne
    exact ⟨s, hfind, fun hs => hne (by rw [hs]; rfl)⟩
  obtain ⟨v, hv, hcut, -⟩ := requiredString_eq_ok.mp hversion
  obtain ⟨s, hs, hhost, -⟩ := requiredString_eq_ok.mp hhost
  obtain ⟨u, hu, hshort, -⟩ := requiredString_eq_ok.mp hshort
  rw [decide_eq_true_iff] at hcut hhost hshort
  -- a version without a NUL is the one it is compared to
  have hversion : findMember "version" members = some (.string (ascii "1.1")) ↔
      ∀ s, findMember "version" members = some (.string s) → 0 ∉ s := by
    rw [hv]
    constructor
    · rintro ⟨⟩ s ⟨⟩
      decide
    · intro hnul
      rw [← hcut, getString, cString_eq_self (hnul v rfl)]
  constructor
  · intro hg
    obtain ⟨hword, hclock⟩ := (timestamp_iff hfinite htime).mp hg.timestamp
    exact ⟨hversion.mp hg.version, (level_iff hlevel).mp hg.level, hword, hclock⟩
  · intro hm
    exact ⟨hversion.mpr hm.version, hrequired hs hhost, hrequired hu hshort,
      (level_iff hlevel).mpr hm.level, (timestamp_iff hfinite htime).mpr ⟨hm.timestamp, hm.clock⟩⟩

/-- **Which texts are let through as they should be.** Let the parser return from a text
without an exception. Then the text is a JSON object with the fields GELF asks for, the
level stored as it is given and the time finite and after the start of 2019, if and only if
no NUL is in the text and the conversions change nothing. -/
theorem gelf_faithful_iff (hparse : Strict parse) {text : Bytes} {g : GelfData}
    (h : gelf parse currentTime text = .ok g) :
    (∃ members, parse text = .ok (.object members) ∧ Faithful members g) ↔
      0 ∉ text ∧ ∀ members, parse (cString text) = .ok (.object members) →
        Unambiguous members currentTime := by
  obtain ⟨members, hmembers, hg⟩ := gelf_eq_ok.mp h
  have hiff := faithful_iff (hparse.finite _ _ hmembers) hg
  constructor
  · rintro ⟨members', htext, hfaithful⟩
    have hnul := hparse.noNul _ _ htext
    refine ⟨hnul, fun members'' hmembers'' => ?_⟩
    rw [cString_eq_self hnul] at hmembers hmembers''
    cases hmembers.symm.trans htext
    cases hmembers.symm.trans hmembers''
    exact hiff.mp hfaithful
  · rintro ⟨hnul, hunambiguous⟩
    refine ⟨members, ?_, hiff.mpr (hunambiguous members hmembers)⟩
    rwa [cString_eq_self hnul] at hmembers

/-! ### Two texts -/

/-- A library that reads one text only. -/
def readsOnly (text : Bytes) (value : Value) (s : Bytes) : Except ParseResult Value :=
  if s = text then .ok value else .error ⟨3, 0, ascii "Invalid value."⟩

theorem strict_readsOnly {text : Bytes} {members : Members} (hnul : 0 ∉ text)
    (hfinite : ∀ member ∈ members, ∀ d, member.2 = .double d → d.isFinite) :
    Strict (readsOnly text (.object members)) where
  noNul s value h := by
    rw [readsOnly] at h
    split_ifs at h with hs
    rwa [hs]
  finite s members' h key d hmem := by
    rw [readsOnly] at h
    split_ifs at h
    cases h
    exact hfinite _ hmem d rfl

/-- The fields that have to be there, and a level. -/
def membersWithLevel (level : Value) : Members :=
  [(ascii "version", .string (ascii "1.1")), (ascii "host", .string (ascii "web")),
    (ascii "short_message", .string (ascii "hi")), (ascii "level", level)]

/-- The texts of such objects. -/
def textWithLevel (level : String) : Bytes :=
  ascii "\x7b\"version\":\"1.1\",\"host\":\"web\",\"short_message\":\"hi\",\"level\":" ++
    ascii level ++ ascii "\x7d"

/-- A level that is given as the text `+7` is stored as 7. -/
theorem gelf_faithful_iff_seven :
    ∃ g, gelf (readsOnly (textWithLevel "\"+7\"")
        (.object (membersWithLevel (.string (ascii "+7")))))
        1700000000 (textWithLevel "\"+7\"") = .ok g ∧
      ∃ members, readsOnly (textWithLevel "\"+7\"")
          (.object (membersWithLevel (.string (ascii "+7")))) (textWithLevel "\"+7\"") =
            .ok (.object members) ∧ Faithful members g := by
  have hstrict : Strict (readsOnly (textWithLevel "\"+7\"")
      (.object (membersWithLevel (.string (ascii "+7"))))) := by
    refine strict_readsOnly (by decide) ?_
    rintro member hmember d hd
    simp only [membersWithLevel, List.mem_cons, List.not_mem_nil, or_false] at hmember
    rcases hmember with rfl | rfl | rfl | rfl <;> cases hd
  refine ⟨_, rfl, (gelf_faithful_iff hstrict rfl).mpr ⟨by decide, ?_⟩⟩
  rintro members ⟨⟩
  refine ⟨?_, ?_, ?_, ?_⟩
  · rintro s ⟨⟩
    decide
  · rintro value ⟨⟩
    exact ⟨7, .string _ _ (.plus [7] (by decide)), by decide, by decide⟩
  · rintro s ⟨⟩
  · intro _
    decide

/-- A level of 257 is stored as 1. -/
theorem gelf_accepts_257 :
    ∃ parse g, Strict parse ∧ gelf parse 1700000000 (textWithLevel "257") = .ok g ∧
      findMember "level" (membersWithLevel (.int ⟨257, by decide⟩)) = some (.int ⟨257, by decide⟩) ∧
      g.level = 1 ∧
      ¬∃ members, parse (textWithLevel "257") = .ok (.object members) ∧ Faithful members g := by
  have hstrict : Strict (readsOnly (textWithLevel "257")
      (.object (membersWithLevel (.int ⟨257, by decide⟩)))) := by
    refine strict_readsOnly (by decide) ?_
    rintro member hmember d hd
    simp only [membersWithLevel, List.mem_cons, List.not_mem_nil, or_false] at hmember
    rcases hmember with rfl | rfl | rfl | rfl <;> cases hd
  refine ⟨_, _, hstrict, rfl, rfl, rfl, ?_⟩
  rintro ⟨members, ⟨⟩, hg⟩
  obtain ⟨n, hn, -, hhigh, -⟩ := hg.level _ rfl
  cases hn
  exact absurd hhigh (by decide)

end Gelf

end IqLogger
