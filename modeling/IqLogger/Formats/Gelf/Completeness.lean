import IqLogger.Formats.Gelf.Soundness

/-!
# What the parser refuses

GELF has two types of values, texts and numbers, and it has no bounds for numbers. The
parser has bounds, those of an `int`: an integer outside of them is kept as an integer by the
JSON library if it fits 64 bits, and then the parser has no type for it and refuses the whole
message. Integers that do not even fit 64 bits are numbers of type `double` for the library,
and accepted again, up to the largest `double`.

Objects are given here as they are written (`IqLogger.Gelf.Document`), with numbers of any
magnitude, and so is what makes an object GELF (`IqLogger.Gelf.Document.Valid`). Which of
these are accepted with all their fields is `IqLogger.Gelf.Document.Representable`: besides
the integers, it is a matter of NULs, at which names and values end, and of times that a
`double` cannot hold. There are no other exceptions (`IqLogger.Gelf.complete_iff`).
-/

namespace IqLogger

namespace Gelf

open Rapidjson

/-! ### Objects as they are written -/

/-- A number: an integer, or one with a fraction or an exponent. -/
inductive Numeral
  | integer (n : ℤ)
  | real (mantissa exponent : ℤ)
  deriving DecidableEq

/-- The values of GELF. -/
inductive Scalar
  | string (s : Bytes)
  | number (x : Numeral)
  deriving DecidableEq

/-- An object of texts and numbers. -/
abbrev Document := List (Bytes × Scalar)

/-- An integer that the library keeps as an integer. -/
def Wide (n : ℤ) : Prop := -2 ^ 63 ≤ n ∧ n < 2 ^ 64

instance (n : ℤ) : Decidable (Wide n) := inferInstanceAs (Decidable (_ ∧ _))

section Read

variable (toDouble : Numeral → Option Float)

/-- The value the library makes of a number. A number that is too large for a `double` has
none. -/
def Numeral.read (x : Numeral) : Option Value :=
  match x with
  | integer n => if h : Wide n then some (.int ⟨n, h⟩) else (toDouble x).map .double
  | real _ _ => (toDouble x).map .double

def Scalar.read : Scalar → Option Value
  | string s => some (.string s)
  | number x => x.read toDouble

/-- The object the library makes of an object. -/
def Document.read : Document → Option Members
  | [] => some []
  | (name, value) :: document => do
    let value ← value.read toDouble
    let members ← Document.read document
    pure ((name, value) :: members)

/-- The library reads a text as the object; with a number that is too large it refuses
it. -/
def Reads (parse : Bytes → Except ParseResult Value) (text : Bytes) (document : Document) : Prop :=
  match document.read toDouble with
  | some members => parse text = .ok (.object members)
  | none => ∃ e, parse text = .error e

/-- The number of a time after the start of 2019, as the library keeps it. -/
inductive AfterStart : Value → Prop
  | int (n : Integer) (h : 1546300800 ≤ n.1) : AfterStart (.int n)
  | double (d : Float) (h : minTimestamp ≤ d) : AfterStart (.double d)

namespace Document

variable (document : Document)

/-- The member of a name. -/
def find (name : String) : Option Scalar := document.lookup (ascii name)

/-- **A GELF object.** -/
structure Valid : Prop where
  version : document.find "version" = some (.string (ascii "1.1"))
  host : ∃ s, document.find "host" = some (.string s) ∧ s ≠ []
  shortMessage : ∃ s, document.find "short_message" = some (.string s) ∧ s ≠ []
  fullMessage : ∀ value, document.find "full_message" = some value → ∃ s, value = .string s
  timestamp : ∀ value, document.find "timestamp" = some value →
    ∃ x, value = .number x ∧ ∀ v, x.read toDouble = some v → AfterStart v
  level : ∀ value, document.find "level" = some value →
    ∃ n, value = .number (.integer n) ∧ 1 ≤ n ∧ n ≤ 9
  names : ((document.filter fun member => !isSystemField member.1).map
    fun member => withUnderscore member.1).Nodup

/-- **The objects the parser has a place for**: no number is too large for a `double`, no
integer is of more than 32 and at most 64 bits, no NUL is where a text is cut, and a time that
is an integer is one of a `double`. -/
structure Representable : Prop where
  numbers : ∀ member ∈ document, ∀ x, member.2 = .number x → x.read toDouble ≠ none
  host : ∀ s, document.find "host" = some (.string s) → s.head? ≠ some 0
  shortMessage : ∀ s, document.find "short_message" = some (.string s) → s.head? ≠ some 0
  timestamp : ∀ n : Integer, document.find "timestamp" = some (.number (.integer n.1)) →
    n.isLosslessDouble
  names : ∀ member ∈ document, isSystemField member.1 = false → 0 ∉ member.1
  texts : ∀ member ∈ document, isSystemField member.1 = false →
    ∀ s, member.2 = .string s → 0 ∉ s
  integers : ∀ member ∈ document, isSystemField member.1 = false →
    ∀ n : Integer, member.2 = .number (.integer n.1) → n.isInt

end Document

/-- A field holds a value: the text or the integer itself, or the `double` of a number. -/
inductive Holds : ObjectVariants → Scalar → Prop
  | string (s : Bytes) : Holds (.string s) (.string s)
  | int (n : Int32) : Holds (.int n) (.number (.integer n.toInt))
  | double (x : Numeral) (d : Float) (h : toDouble x = some d) : Holds (.double d) (.number x)

/-- **The object is accepted**, and all its members that are no fields of the system are
there. -/
def Accepted (parse : Bytes → Except ParseResult Value) (currentTime : Float) (text : Bytes)
    (document : Document) : Prop :=
  ∃ g, gelf parse currentTime text = .ok g ∧
    ∀ member ∈ document, isSystemField member.1 = false →
      ∃ v, g.additionalFields.lookup (withUnderscore member.1) = some v ∧ Holds toDouble v member.2

end Read

/-! ### The additional fields -/

/-- The additional fields an object gives, up to a value without a type. -/
def storedFields (members : Members) : List (Bytes × ObjectVariants) :=
  members.filterMap fun member =>
    if isSystemField (getString member.1) then none
    else (fieldValue member.1 member.2).toOption.map
      fun value => (withUnderscore (getString member.1), value)

theorem mem_storedFields {members : Members} {key : Bytes} {value : ObjectVariants} :
    (key, value) ∈ storedFields members ↔
      ∃ member ∈ members, isSystemField (getString member.1) = false ∧
        fieldValue member.1 member.2 = .ok value ∧ withUnderscore (getString member.1) = key := by
  rw [storedFields, List.mem_filterMap]
  refine exists_congr fun member => and_congr_right fun _ => ?_
  cases hsystem : isSystemField (getString member.1)
  · cases hvalue : fieldValue member.1 member.2 <;> simp [Except.toOption, and_comm]
  · simp

/-- The field a member gives, and the loop body for it. -/
theorem addField_eq_ok {before after : Object} {member : Bytes × Value} :
    addField before member = .ok after ↔
      (isSystemField (getString member.1) = true ∧ before = after) ∨
        isSystemField (getString member.1) = false ∧
          ∃ value, fieldValue member.1 member.2 = .ok value ∧
          before.emplace (withUnderscore (getString member.1)) value = after := by
  rw [addField]
  cases isSystemField (getString member.1) with
  | true => simp [pure, Except.pure]
  | false => simp [Except.bind_eq_ok, pure, Except.pure]

/-- **The loop over the members** gets to its end when every value has a type. -/
theorem foldlM_addField_isOk_iff {members : Members} {before : Object} :
    (∃ fields, members.foldlM addField before = .ok fields) ↔
      ∀ member ∈ members, isSystemField (getString member.1) = false →
        ∃ value, fieldValue member.1 member.2 = .ok value := by
  induction members generalizing before with
  | nil => simp [pure, Except.pure]
  | cons member members ih =>
    rw [List.foldlM_cons, List.forall_mem_cons]
    simp only [Except.bind_eq_ok]
    constructor
    · rintro ⟨fields, after, hadd, hrest⟩
      refine ⟨fun hname => ?_, ih.mp ⟨fields, hrest⟩⟩
      rcases addField_eq_ok.mp hadd with ⟨hsystem, -⟩ | ⟨-, value, hvalue, -⟩
      · rw [hsystem] at hname
        cases hname
      · exact ⟨value, hvalue⟩
    · rintro ⟨hmember, hmembers⟩
      have hadd : ∃ after, addField before member = .ok after := by
        cases hsystem : isSystemField (getString member.1) with
        | true => exact ⟨before, addField_eq_ok.mpr (Or.inl ⟨hsystem, rfl⟩)⟩
        | false =>
          obtain ⟨value, hvalue⟩ := hmember hsystem
          exact ⟨_, addField_eq_ok.mpr (Or.inr ⟨hsystem, value, hvalue, rfl⟩)⟩
      obtain ⟨after, hadd⟩ := hadd
      obtain ⟨fields, hrest⟩ := (@ih after).mpr hmembers
      exact ⟨fields, after, hadd, hrest⟩

/-- After the loop, the first field of a name counts. -/
theorem lookup_foldlM_addField {members : Members} {before fields : Object}
    (h : members.foldlM addField before = .ok fields) (key : Bytes) :
    fields.lookup key = (before.lookup key).or ((storedFields members).lookup key) := by
  induction members generalizing before with
  | nil =>
    cases h
    rw [storedFields, List.filterMap_nil, List.lookup_nil, Option.or_none]
  | cons member members ih =>
    rw [List.foldlM_cons] at h
    obtain ⟨after, hadd, hrest⟩ := Except.bind_eq_ok.mp h
    rw [ih hrest]
    rcases addField_eq_ok.mp hadd with ⟨hsystem, rfl⟩ | ⟨hsystem, value, hvalue, rfl⟩
    · have hstored : storedFields (member :: members) = storedFields members := by
        rw [storedFields, List.filterMap_cons, if_pos hsystem]
        rfl
      rw [hstored]
    · have hstored : storedFields (member :: members) =
          (withUnderscore (getString member.1), value) :: storedFields members := by
        rw [storedFields, List.filterMap_cons, hsystem, hvalue]
        rfl
      rw [hstored, Object.lookup_emplace, List.lookup_cons, Option.or_assoc]
      by_cases hkey : key = withUnderscore (getString member.1)
      · rw [if_pos hkey, beq_iff_eq.mpr hkey]
        rfl
      · rw [if_neg hkey, beq_false_of_ne hkey]
        rfl

/-! ### What is read of an object -/

section Members

variable {toDouble : Numeral → Option Float}

/-- A number is read as the integer it is, or as a `double`. -/
theorem numeral_read_cases {x : Numeral} {value : Value} (h : x.read toDouble = some value) :
    (∃ n : Integer, x = .integer n.1 ∧ value = .int n) ∨
      ∃ d, toDouble x = some d ∧ value = .double d ∧ ∀ n : Integer, x ≠ .integer n.1 := by
  have hmap : (toDouble x).map Value.double = some value →
      ∃ d, toDouble x = some d ∧ value = .double d := by
    intro hvalue
    obtain ⟨d, hd, rfl⟩ := Option.map_eq_some_iff.mp hvalue
    exact ⟨d, hd, rfl⟩
  cases x with
  | integer n =>
    rw [Numeral.read] at h
    split_ifs at h with hwide
    · exact Or.inl ⟨⟨n, hwide⟩, rfl, (Option.some.inj h).symm⟩
    · obtain ⟨d, hd, hvalue⟩ := hmap h
      refine Or.inr ⟨d, hd, hvalue, fun k hk => hwide ?_⟩
      rw [Numeral.integer.inj hk]
      exact k.2
  | real m e =>
    obtain ⟨d, hd, hvalue⟩ := hmap h
    exact Or.inr ⟨d, hd, hvalue, fun n => Numeral.noConfusion⟩

theorem read_cons_eq_some {name : Bytes} {scalar : Scalar} {document : Document}
    {members : Members} :
    Document.read toDouble ((name, scalar) :: document) = some members ↔
      ∃ value rest, scalar.read toDouble = some value ∧ document.read toDouble = some rest ∧
        (name, value) :: rest = members := by
  rw [Document.read]
  simp [Option.bind_eq_some_iff]

/-- The members that are read are those that are written. -/
theorem mem_read {document : Document} {members : Members}
    (h : document.read toDouble = some members) {name : Bytes} {value : Value} :
    (name, value) ∈ members ↔
      ∃ scalar, (name, scalar) ∈ document ∧ scalar.read toDouble = some value := by
  induction document generalizing members with
  | nil =>
    cases h
    simp
  | cons member document ih =>
    obtain ⟨name', scalar⟩ := member
    obtain ⟨value', rest, hvalue, hrest, rfl⟩ := read_cons_eq_some.mp h
    rw [List.mem_cons, ih hrest]
    constructor
    · rintro (hmember | ⟨scalar', hmem, hread⟩)
      · obtain ⟨rfl, rfl⟩ := Prod.mk.inj hmember
        exact ⟨scalar, List.mem_cons_self, hvalue⟩
      · exact ⟨scalar', List.mem_cons_of_mem _ hmem, hread⟩
    · rintro ⟨scalar', hmem, hread⟩
      rcases List.mem_cons.mp hmem with hmember | hmem
      · obtain ⟨rfl, rfl⟩ := Prod.mk.inj hmember
        rw [hvalue] at hread
        cases hread
        exact Or.inl rfl
      · exact Or.inr ⟨scalar', hmem, hread⟩

/-- The member of a name is read as what is written under the name. -/
theorem findMember_read {document : Document} {members : Members}
    (h : document.read toDouble = some members) (name : String) :
    findMember name members = (document.find name).bind (Scalar.read toDouble) := by
  rw [findMember, Document.find]
  induction document generalizing members with
  | nil =>
    cases h
    rfl
  | cons member document ih =>
    obtain ⟨name', scalar⟩ := member
    obtain ⟨value', rest, hvalue, hrest, rfl⟩ := read_cons_eq_some.mp h
    rw [List.lookup_cons, List.lookup_cons, ih hrest]
    cases ascii name == name' with
    | true => exact hvalue.symm
    | false => rfl

/-- A number that is too large is the one thing that is not read. -/
theorem exists_read_iff {document : Document} :
    (∃ members, document.read toDouble = some members) ↔
      ∀ member ∈ document, ∀ x, member.2 = .number x → x.read toDouble ≠ none := by
  induction document with
  | nil => simp [Document.read]
  | cons member document ih =>
    obtain ⟨name, scalar⟩ := member
    have hscalar : (∃ value, scalar.read toDouble = some value) ↔
        ∀ x, scalar = .number x → x.read toDouble ≠ none := by
      cases scalar with
      | string s => simp [Scalar.read]
      | number x => simp [Scalar.read, Option.ne_none_iff_exists']
    rw [List.forall_mem_cons, ← ih, ← hscalar]
    simp only [read_cons_eq_some]
    constructor
    · rintro ⟨_, value, rest, hvalue, hrest, rfl⟩
      exact ⟨⟨value, hvalue⟩, rest, hrest⟩
    · rintro ⟨⟨value, hvalue⟩, rest, hrest⟩
      exact ⟨_, value, rest, hvalue, hrest, rfl⟩

end Members

/-! ### The steps of the parser -/

section Steps

variable {toDouble : Numeral → Option Float} {document : Document} {members : Members}
  (hread : document.read toDouble = some members)

include hread

/-- A text is found as it is written. -/
theorem findMember_string {name : String} {s : Bytes}
    (h : document.find name = some (.string s)) : findMember name members = some (.string s) := by
  rw [findMember_read hread, h]
  rfl

/-- **The header of a GELF object** is accepted when something is left of its texts. -/
theorem headerAccepted_read_iff (hvalid : document.Valid toDouble) :
    HeaderAccepted members ↔
      (∀ s, document.find "host" = some (.string s) → s.head? ≠ some 0) ∧
        ∀ s, document.find "short_message" = some (.string s) → s.head? ≠ some 0 := by
  have hcut : ∀ s : Bytes, s ≠ [] → (getString s ≠ [] ↔ s.head? ≠ some 0) := by
    intro s hs
    cases s with
    | nil => exact absurd rfl hs
    | cons c s =>
      rw [getString, cString, List.takeWhile_cons]
      by_cases hc : c = 0 <;> simp [hc]
  obtain ⟨host, hhost, hhostNe⟩ := hvalid.host
  obtain ⟨short, hshort, hshortNe⟩ := hvalid.shortMessage
  constructor
  · intro h
    obtain ⟨s, hs, hsNe⟩ := h.host
    obtain ⟨t, ht, htNe⟩ := h.shortMessage
    cases (findMember_string hread hhost).symm.trans hs
    cases (findMember_string hread hshort).symm.trans ht
    refine ⟨fun s hs => ?_, fun s hs => ?_⟩
    · cases hhost.symm.trans hs
      exact (hcut _ hhostNe).mp hsNe
    · cases hshort.symm.trans hs
      exact (hcut _ hshortNe).mp htNe
  · rintro ⟨h, h'⟩
    refine ⟨⟨_, findMember_string hread hvalid.version, by decide⟩,
      ⟨host, findMember_string hread hhost, (hcut _ hhostNe).mpr (h _ hhost)⟩,
      ⟨short, findMember_string hread hshort, (hcut _ hshortNe).mpr (h' _ hshort)⟩, ?_⟩
    intro value hvalue
    rw [findMember_read hread, Option.bind_eq_some_iff] at hvalue
    obtain ⟨scalar, hfull, hvalue⟩ := hvalue
    obtain ⟨s, rfl⟩ := hvalid.fullMessage _ hfull
    cases hvalue
    exact ⟨s, rfl⟩

omit hread in
/-- An integer that a `double` can hold is compared as the integer it is. -/
theorem not_getDouble_lt {n : Integer} (hlossless : n.isLosslessDouble) (h : 1546300800 ≤ n.1) :
    ¬n.getDouble < minTimestamp := by
  intro hlt
  have htrunc : n.getDouble.toUInt64.toNat < 1546300800 :=
    Float.toUInt64_lt (k := 22) hlt rfl (by decide) (by decide)
  have hunsigned : n.isUint64 := by
    rw [Integer.isUint64, decide_eq_true_iff]
    omega
  rw [Integer.isLosslessDouble, if_pos hunsigned, Bool.and_eq_true, decide_eq_true_iff] at hlossless
  have heq := hlossless.2
  omega

omit hread in
theorem mem_of_find {name : String} {scalar : Scalar} (h : document.find name = some scalar) :
    (ascii name, scalar) ∈ document :=
  List.mem_of_lookup_eq_some h

/-- **The timestamp of a GELF object** is accepted when it is no integer a `double` cannot
hold. -/
theorem timestampAccepted_read_iff (hvalid : document.Valid toDouble) :
    TimestampAccepted members ↔
      ∀ n : Integer, document.find "timestamp" = some (.number (.integer n.1)) →
        n.isLosslessDouble := by
  rw [TimestampAccepted, findMember_read hread]
  cases hfind : document.find "timestamp" with
  | none => simp
  | some value =>
    obtain ⟨x, rfl, hafter⟩ := hvalid.timestamp _ hfind
    obtain ⟨v, hv⟩ := Option.ne_none_iff_exists'.mp
      (exists_read_iff.mp ⟨members, hread⟩ _ (mem_of_find hfind) x rfl)
    have hbind : (some (Scalar.number x)).bind (Scalar.read toDouble) = some v := hv
    rw [hbind]
    have hstart := hafter v hv
    rcases numeral_read_cases hv with ⟨n, rfl, rfl⟩ | ⟨d, -, rfl, hreal⟩
    · constructor
      · rintro h k hk
        obtain rfl : n = k := Subtype.ext (by simpa using hk)
        cases h _ rfl with
        | int _ hlossless _ => exact hlossless
      · rintro h _ ⟨⟩
        cases hstart with
        | int _ hmin => exact .int n (h n rfl) (not_getDouble_lt (h n rfl) hmin)
    · constructor
      · rintro - n hn
        exact absurd (Scalar.number.inj (Option.some.inj hn)) (hreal n)
      · rintro - _ ⟨⟩
        cases hstart with
        | double _ hmin => exact .double d (Float.not_lt_of_le hmin)

/-- The level of a GELF object is accepted. -/
theorem level_read (hvalid : document.Valid toDouble) : ∃ n, level members = .ok n := by
  have hfind := findMember_read hread "level"
  cases hlevel : document.find "level" with
  | none =>
    rw [hlevel] at hfind
    refine ⟨1, ?_⟩
    rw [level, hfind]
    rfl
  | some value =>
    obtain ⟨n, rfl, hlow, hhigh⟩ := hvalid.level _ hlevel
    have hwide : Wide n := ⟨by omega, by omega⟩
    have hv : Numeral.read toDouble (.integer n) = some (.int ⟨n, hwide⟩) := dif_pos hwide
    rw [hlevel] at hfind
    have hfind := hfind.trans hv
    have hint : Integer.isInt ⟨n, hwide⟩ := by
      change (decide (-2 ^ 31 ≤ n) && decide (n < 2 ^ 31)) = true
      rw [Bool.and_eq_true, decide_eq_true_iff, decide_eq_true_iff]
      exact ⟨by omega, by omega⟩
    have hread' : readLevel (.int ⟨n, hwide⟩) =
        .ok (UInt8.ofInt (Integer.getInt ⟨n, hwide⟩).toInt) :=
      if_pos hint
    have hstored := toNat_ofInt (n := n) ⟨by omega, by omega⟩
    rw [← readLevel_of_denotes (.int ⟨n, hwide⟩) hread'] at hstored
    refine ⟨_, (level_eq_ok hfind).mpr ⟨hread', ?_, ?_⟩⟩
    · rw [UInt8.le_iff_toNat_le]
      change 1 ≤ _
      omega
    · rw [UInt8.lt_iff_toNat_lt]
      change _ < 10
      omega

/-! ### The members that are no fields of the system -/

omit hread in
/-- A name with a NUL in it is none of the system's. -/
theorem zero_notMem_of_isSystemField {name : Bytes} (h : isSystemField name) : 0 ∉ name := by
  simp only [isSystemField, Bool.or_eq_true, decide_eq_true_iff] at h
  rcases h with ((((rfl | rfl) | rfl) | rfl) | rfl) | rfl <;> decide

omit hread in
/-- A name is none of the system's if it is none when it is cut. -/
theorem isSystemField_of_getString {name : Bytes} (h : isSystemField (getString name) = false) :
    isSystemField name = false := by
  rw [Bool.eq_false_iff]
  intro hsystem
  rw [getString, cString_eq_self (zero_notMem_of_isSystemField hsystem), hsystem] at h
  cases h

omit hread in
/-- **What an additional field holds**, if its value has a type: the value as it is written, a
text up to its first NUL. -/
theorem holds_iff {name : Bytes} {scalar : Scalar} {value : Value} {v : ObjectVariants}
    (hscalar : scalar.read toDouble = some value) (h : fieldValue name value = .ok v) :
    Holds toDouble v scalar ↔ ∀ s, scalar = .string s → 0 ∉ s := by
  cases scalar with
  | string s =>
    cases hscalar
    cases h
    rw [getString]
    constructor
    · rintro hholds t ⟨⟩
      have hcut : cString s = s := by
        generalize cString s = t at hholds
        cases hholds
        rfl
      exact cString_eq_self_iff.mp hcut
    · intro hnul
      rw [cString_eq_self (hnul s rfl)]
      exact .string s
  | number x =>
    refine iff_of_true ?_ (by rintro s ⟨⟩)
    rcases numeral_read_cases hscalar with ⟨n, rfl, rfl⟩ | ⟨d, hd, rfl, -⟩
    · rw [fieldValue] at h
      split_ifs at h with hint
      cases h
      rw [Integer.isInt, Bool.and_eq_true, decide_eq_true_iff, decide_eq_true_iff] at hint
      have hholds := @Holds.int toDouble n.getInt
      rwa [Integer.getInt, toInt_ofInt hint] at hholds
    · cases h
      exact .double x d hd

omit hread in
/-- A value has a type unless it is an integer of more than 32 bits. -/
theorem fieldValue_isOk_iff {name : Bytes} {scalar : Scalar} {value : Value}
    (hscalar : scalar.read toDouble = some value) :
    (∃ v, fieldValue name value = .ok v) ↔
      ∀ n : Integer, scalar = .number (.integer n.1) → n.isInt := by
  cases scalar with
  | string s =>
    cases hscalar
    exact iff_of_true ⟨_, rfl⟩ (by rintro n ⟨⟩)
  | number x =>
    rcases numeral_read_cases hscalar with ⟨n, rfl, rfl⟩ | ⟨d, hd, rfl, hreal⟩
    · rw [fieldValue]
      constructor
      · rintro ⟨v, hv⟩ k hk
        obtain rfl : n = k := Subtype.ext (by simpa using hk)
        split_ifs at hv with hint
        exact hint
      · intro h
        rw [if_pos (h n rfl)]
        exact ⟨_, rfl⟩
    · refine iff_of_true ⟨_, rfl⟩ fun n hn => ?_
      exact absurd (Scalar.number.inj hn) (hreal n)

/-- A field comes from the member whose name it has, if the names are not cut. -/
theorem fieldValue_of_mem (hvalid : document.Valid toDouble)
    (hnames : ∀ member ∈ document, isSystemField member.1 = false → 0 ∉ member.1)
    {name : Bytes} {scalar : Scalar} (hmem : (name, scalar) ∈ document)
    (hname : isSystemField name = false) {v : ObjectVariants}
    (hv : (withUnderscore name, v) ∈ storedFields members) :
    ∃ value, scalar.read toDouble = some value ∧ fieldValue name value = .ok v := by
  obtain ⟨⟨name', value⟩, hmember, hname', hvalue, hkey⟩ := mem_storedFields.mp hv
  obtain ⟨scalar', hmem', hscalar⟩ := (mem_read hread).mp hmember
  dsimp only at hname' hvalue hkey
  have hsystem := isSystemField_of_getString hname'
  rw [getString, cString_eq_self (hnames _ hmem' hsystem)] at hkey
  have hfilter : ∀ {name : Bytes} {scalar : Scalar}, (name, scalar) ∈ document →
      isSystemField name = false →
        (name, scalar) ∈ document.filter fun member => !isSystemField member.1 := by
    intro name scalar hmem hname
    rw [List.mem_filter, hname]
    exact ⟨hmem, rfl⟩
  have heq := List.inj_on_of_nodup_map hvalid.names (hfilter hmem' hsystem)
    (hfilter hmem hname) hkey
  cases heq
  exact ⟨value, hscalar, hvalue⟩

end Steps

/-! ### The whole object -/

section Complete

variable {toDouble : Numeral → Option Float} {parse : Bytes → Except ParseResult Value}
  {currentTime : Float} {text : Bytes} {document : Document}

/-- An object is accepted only when the parser has a place for it. -/
theorem Accepted.representable (hreads : Reads toDouble parse (cString text) document)
    (hvalid : document.Valid toDouble)
    (h : Accepted toDouble parse currentTime text document) : document.Representable toDouble := by
  obtain ⟨g, hg, hfields⟩ := h
  obtain ⟨members, hmembers, hg⟩ := gelf_eq_ok.mp hg
  have hread : document.read toDouble = some members := by
    rw [Reads] at hreads
    cases hdocument : document.read toDouble with
    | none =>
      rw [hdocument] at hreads
      obtain ⟨e, he⟩ := hreads
      cases he.symm.trans hmembers
    | some members' =>
      rw [hdocument] at hreads
      cases hreads.symm.trans hmembers
      rfl
  obtain ⟨hheader, htime, -, fields, hadditional⟩ := gelfOfMembers_isOk_iff.mp ⟨g, hg⟩
  obtain ⟨hhost, hshort⟩ := (headerAccepted_read_iff hread hvalid).mp hheader
  obtain ⟨-, -, -, -, -, -, hloop⟩ := gelfOfMembers_eq_ok.mp hg
  -- each member has a field, and the field is one that was stored
  have hstored : ∀ member ∈ document, isSystemField member.1 = false →
      ∃ v, (withUnderscore member.1, v) ∈ storedFields members ∧ Holds toDouble v member.2 := by
    intro member hmember hname
    obtain ⟨v, hlookup, hholds⟩ := hfields member hmember hname
    rw [lookup_foldlM_addField hloop, AList.lookup_empty, Option.none_or] at hlookup
    exact ⟨v, List.mem_of_lookup_eq_some hlookup, hholds⟩
  have hnames : ∀ member ∈ document, isSystemField member.1 = false → 0 ∉ member.1 := by
    intro member hmember hname
    obtain ⟨v, hv, -⟩ := hstored member hmember hname
    obtain ⟨member', -, -, -, hkey⟩ := mem_storedFields.mp hv
    rw [← zero_mem_withUnderscore, ← hkey, zero_mem_withUnderscore]
    exact zero_notMem_cString _
  refine ⟨exists_read_iff.mp ⟨members, hread⟩, hhost, hshort,
    (timestampAccepted_read_iff hread hvalid).mp htime, hnames, ?_, ?_⟩
  · intro member hmember hname s hs
    obtain ⟨v, hv, hholds⟩ := hstored member hmember hname
    obtain ⟨value, hscalar, hvalue⟩ := fieldValue_of_mem hread hvalid hnames hmember hname hv
    exact (holds_iff hscalar hvalue).mp hholds s hs
  · intro member hmember hname n hn
    obtain ⟨v, hv, -⟩ := hstored member hmember hname
    obtain ⟨value, hscalar, hvalue⟩ := fieldValue_of_mem hread hvalid hnames hmember hname hv
    exact (fieldValue_isOk_iff hscalar).mp ⟨v, hvalue⟩ n hn

/-- An object the parser has a place for is accepted, with all its members. -/
theorem Document.Representable.accepted (hreads : Reads toDouble parse (cString text) document)
    (hvalid : document.Valid toDouble) (h : document.Representable toDouble) :
    Accepted toDouble parse currentTime text document := by
  obtain ⟨members, hread⟩ := exists_read_iff.mpr h.numbers
  rw [Reads, hread] at hreads
  -- a member the parser does not skip is no field of the system, and its name is not cut
  have hmember : ∀ name value, (name, value) ∈ members → isSystemField (getString name) = false →
      ∃ scalar, (name, scalar) ∈ document ∧ isSystemField name = false ∧
        scalar.read toDouble = some value := by
    intro name value hmem hname
    obtain ⟨scalar, hmem, hscalar⟩ := (mem_read hread).mp hmem
    exact ⟨scalar, hmem, isSystemField_of_getString hname, hscalar⟩
  have hadditional : ∃ fields, additionalFields members = .ok fields := by
    refine foldlM_addField_isOk_iff.mpr fun member hmem hname => ?_
    obtain ⟨scalar, hdocument, hsystem, hscalar⟩ := hmember member.1 member.2 hmem hname
    exact (fieldValue_isOk_iff hscalar).mpr (h.integers _ hdocument hsystem)
  obtain ⟨g, hg⟩ := (@gelfOfMembers_isOk_iff members currentTime).mpr
    ⟨(headerAccepted_read_iff hread hvalid).mpr ⟨h.host, h.shortMessage⟩,
      (timestampAccepted_read_iff hread hvalid).mpr h.timestamp,
      level_read hread hvalid, hadditional⟩
  refine ⟨g, gelf_eq_ok.mpr ⟨members, hreads, hg⟩, fun member hmem hname => ?_⟩
  obtain ⟨-, -, -, -, -, -, hloop⟩ := gelfOfMembers_eq_ok.mp hg
  obtain ⟨name, scalar⟩ := member
  dsimp only at hname
  have hlookup : g.additionalFields.lookup (withUnderscore name) =
      (storedFields members).lookup (withUnderscore name) := by
    rw [lookup_foldlM_addField hloop, AList.lookup_empty, Option.none_or]
  -- the member itself is stored, so a field of its name is there
  have hsome : ∃ v, (storedFields members).lookup (withUnderscore name) = some v := by
    have hvalue : ∃ value, scalar.read toDouble = some value := by
      cases scalar with
      | string s => exact ⟨_, rfl⟩
      | number x => exact Option.ne_none_iff_exists'.mp (h.numbers _ hmem x rfl)
    obtain ⟨value, hscalar⟩ := hvalue
    obtain ⟨v, hv⟩ := (@fieldValue_isOk_iff toDouble name _ _ hscalar).mpr (h.integers _ hmem hname)
    have hstored : (withUnderscore name, v) ∈ storedFields members := by
      have hcut : getString name = name := cString_eq_self (h.names _ hmem hname)
      refine mem_storedFields.mpr ⟨(name, value), (mem_read hread).mpr ⟨scalar, hmem, hscalar⟩, ?_⟩
      rw [hcut]
      exact ⟨hname, hv, rfl⟩
    exact List.exists_lookup_of_mem hstored
  obtain ⟨v, hv⟩ := hsome
  have hmemv : (withUnderscore name, v) ∈ storedFields members := List.mem_of_lookup_eq_some hv
  obtain ⟨value, hscalar, hvalue⟩ := fieldValue_of_mem hread hvalid h.names hmem hname hmemv
  exact ⟨v, hlookup.trans hv, (holds_iff hscalar hvalue).mpr (h.texts _ hmem hname)⟩

/-- **Which GELF objects are accepted**, with each of their members under its name and with
its value: those the parser has a place for. -/
theorem complete_iff (hreads : Reads toDouble parse (cString text) document)
    (hvalid : document.Valid toDouble) :
    Accepted toDouble parse currentTime text document ↔ document.Representable toDouble :=
  ⟨fun h => h.representable hreads hvalid, fun h => h.accepted hreads hvalid⟩

end Complete

/-! ### Two numbers -/

/-- Numbers that are not too large, as far as the following objects have any. -/
def sampleDouble (x : Numeral) : Option Float :=
  if x = .integer 18446744073709551616 then some 18446744073709551616 else none

/-- The fields that have to be there, and a number. -/
def documentWith (n : ℤ) : Document :=
  [(ascii "version", .string (ascii "1.1")), (ascii "host", .string (ascii "web")),
    (ascii "short_message", .string (ascii "hi")), (ascii "x", .number (.integer n))]

theorem valid_documentWith (n : ℤ) : (documentWith n).Valid sampleDouble where
  version := rfl
  host := ⟨_, rfl, by decide⟩
  shortMessage := ⟨_, rfl, by decide⟩
  fullMessage := by rintro _ ⟨⟩
  timestamp := by rintro _ ⟨⟩
  level := by rintro _ ⟨⟩
  names := List.nodup_singleton _

/-- The text of such an object. -/
def textWith (n : String) : Bytes :=
  ascii "\x7b\"version\":\"1.1\",\"host\":\"web\",\"short_message\":\"hi\",\"x\":" ++
    ascii n ++ ascii "\x7d"

/-- A number of more than 64 bits is accepted. -/
theorem complete_iff_large :
    ∃ members, (documentWith 18446744073709551616).read sampleDouble = some members ∧
      Accepted sampleDouble (readsOnly (textWith "18446744073709551616") (.object members))
        1700000000
        (textWith "18446744073709551616") (documentWith 18446744073709551616) := by
  refine ⟨_, rfl, (complete_iff (by rfl) (valid_documentWith _)).mpr ?_⟩
  have hmembers : ∀ member ∈ documentWith 18446744073709551616, member.2 =
      .number (.integer 18446744073709551616) ∨ ∃ s, member.2 = .string s ∧ 0 ∉ s := by
    rintro member hmember
    simp only [documentWith, List.mem_cons, List.not_mem_nil, or_false] at hmember
    rcases hmember with rfl | rfl | rfl | rfl
    · exact Or.inr ⟨_, rfl, by decide⟩
    · exact Or.inr ⟨_, rfl, by decide⟩
    · exact Or.inr ⟨_, rfl, by decide⟩
    · exact Or.inl rfl
  refine ⟨?_, ?_, ?_, ?_, by decide, ?_, ?_⟩
  · rintro member hmember x hx
    rcases hmembers member hmember with h | ⟨s, h, -⟩
    · cases h.symm.trans hx
      decide
    · cases h.symm.trans hx
  · rintro s ⟨⟩
    decide
  · rintro s ⟨⟩
    decide
  · rintro n ⟨⟩
  · rintro member hmember - s hs
    rcases hmembers member hmember with h | ⟨s, h, hnul⟩
    · cases h.symm.trans hs
    · cases h.symm.trans hs
      exact hnul
  · rintro member hmember - n hn
    rcases hmembers member hmember with h | ⟨s, h, -⟩
    · have hlarge : 18446744073709551616 = n.1 := by simpa using h.symm.trans hn
      have := n.2.2
      omega
    · cases h.symm.trans hn

/-- A number of 32 bits without a sign is not. -/
theorem gelf_refuses_three_billion :
    ∃ members, (documentWith 3000000000).Valid sampleDouble ∧
      Reads sampleDouble (readsOnly (textWith "3000000000") (.object members))
        (cString (textWith "3000000000")) (documentWith 3000000000) ∧
      gelf (readsOnly (textWith "3000000000") (.object members)) 1700000000
        (textWith "3000000000") =
        .error ⟨.gelfParseError, ascii "Incorrect type in GELF: x"⟩ ∧
      ¬Accepted sampleDouble (readsOnly (textWith "3000000000") (.object members)) 1700000000
        (textWith "3000000000") (documentWith 3000000000) := by
  have hread : ∃ members, (documentWith 3000000000).read sampleDouble = some members ∧
      gelf (readsOnly (textWith "3000000000") (.object members)) 1700000000
        (textWith "3000000000") =
        .error ⟨.gelfParseError, ascii "Incorrect type in GELF: x"⟩ ∧
      Reads sampleDouble (readsOnly (textWith "3000000000") (.object members))
        (cString (textWith "3000000000")) (documentWith 3000000000) := ⟨_, rfl, rfl, rfl⟩
  obtain ⟨members, -, hgelf, hreads⟩ := hread
  refine ⟨members, valid_documentWith _, hreads, hgelf, ?_⟩
  rintro ⟨g, hg, -⟩
  rw [hgelf] at hg
  cases hg

end Gelf

end IqLogger
