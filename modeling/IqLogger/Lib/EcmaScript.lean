import Mathlib.Data.List.Basic

/-!
# Regular expressions of ECMAScript

The grammar and the matching that `std::regex` has by default: the patterns of
ECMAScript, of narrow characters in the classic locale. Where the library of GNU reads
more than the language has, so does this: a closing bracket or brace that closes
nothing stands for itself, a quantifier may follow another one, and a backslash may
stand before any letter.

A pattern is read into a tree (`EcmaScript.Node`) by recursive descent over the
grammar (`EcmaScript.parse`); what is no pattern has no tree, and makes the constructor
of `std::regex` throw (`EcmaScript.regex`). A tree is matched by backtracking
(`EcmaScript.Node.run`): a matcher is given a state and a continuation, and tries its
possibilities in order until the continuation succeeds. `EcmaScript.regexMatch` asks for
a match of the whole text.
-/

namespace EcmaScript

/-! ### Characters -/

/-- `LineTerminator`. -/
def isLineTerminator (c : Char) : Bool := c == '\n' || c == '\r'

/-- What stands for itself only behind a backslash. The brackets and braces that close
are not among them: where nothing is to be closed they stand for themselves. -/
def isSyntaxCharacter (c : Char) : Bool :=
  ['^', '$', '\\', '.', '*', '+', '?', '(', ')', '[', '{', '|'].contains c

/-- `IsWordChar`. -/
def isWordChar (c : Char) : Bool := c.isAlphanum || c == '_'

/-- The class `\s`. -/
def isSpace (c : Char) : Bool := [' ', '\t', '\n', '\x0b', '\x0c', '\r'].contains c

/-! ### Trees -/

/-- A regular expression. -/
inductive Node where
  | empty : Node
  | char (c : Char) : Node
  | any : Node
  | set (accepts : Char → Bool) : Node
  | seq (a b : Node) : Node
  | alt (a b : Node) : Node
  | group (index : ℕ) (a : Node) : Node
  | backref (index : ℕ) : Node
  | lineBegin : Node
  | lineEnd : Node
  | wordBound (negated : Bool) : Node
  | lookahead (negated : Bool) (a : Node) : Node
  | quantified (min : ℕ) (max : Option ℕ) (greedy : Bool) (a : Node) : Node

/-- The groups that are closed behind a tree, if it refers only to groups that are closed
by then. -/
def Node.closed : Node → List ℕ → Option (List ℕ)
  | .backref index, groups => if index ∈ groups then some groups else none
  | .seq a b, groups | .alt a b, groups => (a.closed groups).bind b.closed
  | .group index a, groups => (a.closed groups).map (index :: ·)
  | .lookahead _ a, groups | .quantified _ _ _ a, groups => a.closed groups
  | _, groups => some groups

/-! ### Matching -/

/-- Where a match is: the character before, the text to come, and the text of each
group that has matched. -/
structure State where
  before : Option Char
  rest : List Char
  captures : ℕ → Option (List Char)

/-- What a matcher goes on with. -/
abbrev Cont := State → Option State

/-- A matcher tries its possibilities from a state until it can go on from one. -/
abbrev Matcher := State → Cont → Option State

/-- One character that is accepted. -/
def consume (accepts : Char → Bool) : Matcher := fun x k =>
  match x.rest with
  | [] => none
  | c :: rest => if accepts c then k ⟨some c, rest, x.captures⟩ else none

/-- The text of a group once more. -/
def consumeText (text : List Char) : Matcher := fun x k =>
  if text.isPrefixOf x.rest then
    k ⟨text.getLast?.or x.before, x.rest.drop text.length, x.captures⟩
  else none

/-- What lies between two states is the text of a group. -/
def State.capture (x : State) (index : ℕ) (y : State) : State :=
  let text := x.rest.take (x.rest.length - y.rest.length)
  { y with captures := Function.update y.captures index (some text) }

/-- Rounds that need not be: each has to consume something, so that there are at
most as many of them as there are characters to come. -/
def optionalRounds (m : Matcher) (greedy : Bool) : ℕ → Option ℕ → Matcher
  | 0, _, x, k => k x
  | fuel + 1, max, x, k =>
    if max = some 0 then k x
    else
      let once := fun _ : Unit => m x fun y =>
        if y.rest.length < x.rest.length then
          optionalRounds m greedy fuel (max.map (· - 1)) y k
        else none
      if greedy then (once ()).orElse fun _ => k x else (k x).orElse once

/-- `RepeatMatcher`: the rounds that have to be, and those that need not be. -/
def rounds (m : Matcher) (greedy : Bool) : ℕ → Option ℕ → Matcher
  | 0, max, x, k => optionalRounds m greedy x.rest.length max x k
  | min + 1, max, x, k => m x fun y => rounds m greedy min (max.map (· - 1)) y k

/-- **A tree is matched by backtracking.** -/
def Node.run : Node → Matcher
  | .empty, x, k => k x
  | .char c, x, k => consume (· == c) x k
  | .any, x, k => consume (fun c => !isLineTerminator c) x k
  | .set accepts, x, k => consume accepts x k
  | .seq a b, x, k => a.run x fun y => b.run y k
  | .alt a b, x, k => (a.run x k).orElse fun _ => b.run x k
  | .group index a, x, k => a.run x fun y => k (x.capture index y)
  | .backref index, x, k =>
    match x.captures index with
    | none => none
    | some text => consumeText text x k
  | .lineBegin, x, k => if x.before = none then k x else none
  | .lineEnd, x, k => if x.rest = [] then k x else none
  | .wordBound negated, x, k =>
    if (x.before.any isWordChar != x.rest.head?.any isWordChar) != negated then k x else none
  | .lookahead negated a, x, k =>
    match a.run x some with
    | some y => if negated then none else k { x with captures := y.captures }
    | none => if negated then k x else none
  | .quantified min max greedy a, x, k => rounds a.run greedy min max x k

/-- The whole text is matched. -/
def Node.fullMatch (a : Node) (text : List Char) : Bool :=
  (a.run ⟨none, text, fun _ => none⟩ fun y => if y.rest = [] then some y else none).isSome

/-! ### The grammar -/

/-- `DecimalDigits`. -/
def decimalDigits (s : List Char) : Option (ℕ × List Char) :=
  let digits := s.takeWhile Char.isDigit
  if digits = [] then none
  else some (digits.foldl (fun n c => 10 * n + (c.toNat - '0'.toNat)) 0, s.dropWhile Char.isDigit)

/-- `HexDigit`. -/
def hexDigit (c : Char) : Option ℕ :=
  if c.isDigit then some (c.toNat - '0'.toNat)
  else if 'a' ≤ c ∧ c ≤ 'f' then some (c.toNat - 'a'.toNat + 10)
  else if 'A' ≤ c ∧ c ≤ 'F' then some (c.toNat - 'A'.toNat + 10)
  else none

/-- So many hexadecimal digits. -/
def hexDigits : ℕ → ℕ → List Char → Option (Char × List Char)
  | 0, value, s => some (Char.ofNat (value % 256), s)
  | _ + 1, _, [] => none
  | count + 1, value, c :: s => do
    let digit ← hexDigit c
    hexDigits count (16 * value + digit) s

/-- `CharacterEscape`. A letter without a meaning of its own stands for itself, and so does
the one behind `c`. -/
def characterEscape : List Char → Option (Char × List Char)
  | '0' :: s => some ('\x00', s)
  | 'f' :: s => some ('\x0c', s)
  | 'n' :: s => some ('\n', s)
  | 'r' :: s => some ('\r', s)
  | 't' :: s => some ('\t', s)
  | 'v' :: s => some ('\x0b', s)
  | 'c' :: c :: s => some (c, s)
  | 'c' :: [] => none
  | 'x' :: s => hexDigits 2 0 s
  | 'u' :: s => hexDigits 4 0 s
  | c :: s => some (c, s)
  | [] => none

/-- `CharacterClassEscape`. -/
def classEscape : Char → Option (Char → Bool)
  | 'd' => some Char.isDigit
  | 'D' => some fun c => !c.isDigit
  | 's' => some isSpace
  | 'S' => some fun c => !isSpace c
  | 'w' => some isWordChar
  | 'W' => some fun c => !isWordChar c
  | _ => none

/-- `AtomEscape`. -/
def atomEscape (s : List Char) : Option (Node × List Char) :=
  match s with
  | [] => none
  | c :: rest =>
    match classEscape c with
    | some accepts => some (.set accepts, rest)
    | none =>
      if c.isDigit ∧ c ≠ '0' then (decimalDigits s).map fun (index, rest) => (.backref index, rest)
      else (characterEscape s).map fun (c, rest) => (.char c, rest)

/-- The classes that have a name. -/
def namedClass : List (String × (Char → Bool)) :=
  [("alnum", Char.isAlphanum), ("alpha", Char.isAlpha), ("blank", fun c => c == ' ' || c == '\t'),
    ("cntrl", fun c => c.toNat < 32 || c.toNat == 127), ("digit", Char.isDigit),
    ("d", Char.isDigit), ("graph", fun c => 32 < c.toNat && c.toNat < 127),
    ("lower", Char.isLower), ("print", fun c => 32 ≤ c.toNat && c.toNat < 127),
    ("punct", fun c => 32 < c.toNat && c.toNat < 127 && !c.isAlphanum), ("space", isSpace),
    ("s", isSpace), ("upper", Char.isUpper), ("w", isWordChar),
    ("xdigit", fun c => (hexDigit c).isSome)]

/-- The text up to a mark and a bracket. -/
def upToBracket (mark : Char) : List Char → Option (List Char × List Char)
  | [] => none
  | [_] => none
  | c :: d :: s =>
    if c = mark ∧ d = ']' then some ([], s)
    else (upToBracket mark (d :: s)).map fun (name, rest) => (c :: name, rest)

/-- `ClassAtom`: one character, or a class of them. -/
def classAtom : List Char → Option ((Char ⊕ (Char → Bool)) × List Char)
  | [] => none
  | '[' :: ':' :: s => do
    let (name, rest) ← upToBracket ':' s
    let accepts ← namedClass.lookup (String.ofList name)
    some (.inr accepts, rest)
  | '[' :: '.' :: s => do
    let (name, rest) ← upToBracket '.' s
    let c ← if name.length = 1 then name.head? else none
    some (.inl c, rest)
  | '[' :: '=' :: s => do
    let (name, rest) ← upToBracket '=' s
    let c ← if name.length = 1 then name.head? else none
    some (.inr (· == c), rest)
  | '\\' :: 'b' :: s => some (.inl '\x08', s)
  | '\\' :: c :: s =>
    match classEscape c with
    | some accepts => some (.inr accepts, s)
    | none =>
      -- a reference, or the bound of a word, has no place in a class
      if (c.isDigit ∧ c ≠ '0') ∨ c = 'B' then none
      else (characterEscape (c :: s)).map fun (c, rest) => (.inl c, rest)
  | '\\' :: [] => none
  | c :: s => some (.inl c, s)

/-- A member of a class. -/
def accepted : Char ⊕ (Char → Bool) → Char → Bool
  | .inl c => (· == c)
  | .inr accepts => accepts

/-- `ClassRanges`, up to the bracket that closes the class. -/
def classRanges : ℕ → List Char → Option ((Char → Bool) × List Char)
  | 0, _ => none
  | _ + 1, ']' :: s => some (fun _ => false, s)
  | fuel + 1, s => do
    let (first, s) ← classAtom s
    match s with
    | '-' :: ']' :: s => some (fun c => accepted first c || c == '-', s)
    | '-' :: s => do
      let (last, s) ← classAtom s
      match first, last with
      | .inl a, .inl b =>
        if a ≤ b then do
          let (accepts, s) ← classRanges fuel s
          some (fun c => (a ≤ c && c ≤ b) || accepts c, s)
        else none
      | _, _ => none
    | s => do
      let (accepts, s) ← classRanges fuel s
      some (fun c => accepted first c || accepts c, s)

/-- `QuantifierPrefix`, in braces: so many, so many or more, or from so many to so
many. -/
def interval (s : List Char) : Option ((ℕ × Option ℕ) × List Char) := do
  let (min, s) ← decimalDigits s
  match s with
  | '}' :: s => some ((min, some min), s)
  | ',' :: '}' :: s => some ((min, none), s)
  | ',' :: s => do
    let (max, s) ← decimalDigits s
    match s with
    | '}' :: s => if min ≤ max then some ((min, some max), s) else none
    | _ => none
  | _ => none

/-- A question mark behind a quantifier makes it reluctant. -/
def greediness (bounds : ℕ × Option ℕ) : List Char →
    Option (ℕ × Option ℕ × Bool) × List Char
  | '?' :: s => (some (bounds.1, bounds.2, false), s)
  | s => (some (bounds.1, bounds.2, true), s)

/-- `Quantifier`, if there is one. -/
def quantifier : List Char → Option (Option (ℕ × Option ℕ × Bool) × List Char)
  | '*' :: s => some (greediness (0, none) s)
  | '+' :: s => some (greediness (1, none) s)
  | '?' :: s => some (greediness (0, some 1) s)
  | '{' :: s => do
    let (bounds, s) ← interval s
    some (greediness bounds s)
  | s => some (none, s)

/-- The quantifiers of an atom, one after the other. -/
def quantifiers : ℕ → Node → List Char → Option (Node × List Char)
  | 0, a, s => some (a, s)
  | fuel + 1, a, s => do
    let (bounds, s) ← quantifier s
    match bounds with
    | none => some (a, s)
    | some (min, max, greedy) => quantifiers fuel (.quantified min max greedy a) s

/-- A parenthesis that closes what has been opened. -/
def closing : List Char → Option (List Char)
  | ')' :: s => some s
  | _ => none

mutual

/-- `Disjunction`. The numbers are the fuel and the groups opened so far. -/
def disjunction : ℕ → ℕ → List Char → Option (Node × ℕ × List Char)
  | 0, _, _ => none
  | fuel + 1, groups, s => do
    let (a, groups, s) ← alternative fuel groups s
    match s with
    | '|' :: s => do
      let (b, groups, s) ← disjunction fuel groups s
      some (.alt a b, groups, s)
    | s => some (a, groups, s)
termination_by structural fuel => fuel

/-- `Alternative`. -/
def alternative : ℕ → ℕ → List Char → Option (Node × ℕ × List Char)
  | 0, _, _ => none
  | _ + 1, groups, [] => some (.empty, groups, [])
  | _ + 1, groups, '|' :: s => some (.empty, groups, '|' :: s)
  | _ + 1, groups, ')' :: s => some (.empty, groups, ')' :: s)
  | fuel + 1, groups, s => do
    let (a, groups, s) ← term fuel groups s
    let (b, groups, s) ← alternative fuel groups s
    some (.seq a b, groups, s)
termination_by structural fuel => fuel

/-- `Term`: an assertion, or an atom with its quantifiers. -/
def term : ℕ → ℕ → List Char → Option (Node × ℕ × List Char)
  | 0, _, _ => none
  | _ + 1, groups, '^' :: s => some (.lineBegin, groups, s)
  | _ + 1, groups, '$' :: s => some (.lineEnd, groups, s)
  | _ + 1, groups, '\\' :: 'b' :: s => some (.wordBound false, groups, s)
  | _ + 1, groups, '\\' :: 'B' :: s => some (.wordBound true, groups, s)
  | fuel + 1, groups, '(' :: '?' :: '=' :: s => do
    let (a, groups, s) ← disjunction fuel groups s
    let s ← closing s
    some (.lookahead false a, groups, s)
  | fuel + 1, groups, '(' :: '?' :: '!' :: s => do
    let (a, groups, s) ← disjunction fuel groups s
    let s ← closing s
    some (.lookahead true a, groups, s)
  | fuel + 1, groups, s => do
    let (a, groups, s) ← atom fuel groups s
    let (a, s) ← quantifiers s.length a s
    some (a, groups, s)
termination_by structural fuel => fuel

/-- `Atom`. -/
def atom : ℕ → ℕ → List Char → Option (Node × ℕ × List Char)
  | 0, _, _ => none
  | _ + 1, _, [] => none
  | _ + 1, groups, '.' :: s => some (.any, groups, s)
  | _ + 1, groups, '\\' :: s => do
    let (a, s) ← atomEscape s
    some (a, groups, s)
  | _ + 1, groups, '[' :: '^' :: s => do
    let (accepts, s) ← classRanges (s.length + 1) s
    some (.set fun c => !accepts c, groups, s)
  | _ + 1, groups, '[' :: s => do
    let (accepts, s) ← classRanges (s.length + 1) s
    some (.set accepts, groups, s)
  | fuel + 1, groups, '(' :: '?' :: ':' :: s => do
    let (a, groups, s) ← disjunction fuel groups s
    let s ← closing s
    some (a, groups, s)
  | fuel + 1, groups, '(' :: s => do
    let (a, last, s) ← disjunction fuel (groups + 1) s
    let s ← closing s
    some (.group (groups + 1) a, last, s)
  | _ + 1, groups, c :: s => if isSyntaxCharacter c then none else some (.char c, groups, s)
termination_by structural fuel => fuel

end

/-- **A pattern is read.** No call goes deeper than four levels for a character. -/
def parse (s : List Char) : Option Node := do
  let (a, _, s) ← disjunction (4 * s.length + 4) 0 s
  if s = [] ∧ (a.closed []).isSome then some a else none

/-- **`std::regex`**, and what it matches; `none` where the constructor throws. -/
def regex (pattern : String) : Option (String → Bool) :=
  (parse pattern.toList).map fun a text => a.fullMatch text.toList

/-- **`std::regex_match`**, with a pattern to be read first. What is no pattern matches
nothing. -/
def regexMatch (pattern text : String) : Bool :=
  match regex pattern with
  | some accepts => accepts text
  | none => false

example : regexMatch "(a|b)*?c{2,3}[^x-z\\d]\\1.]" "abacc-a!]" = true := by decide +kernel

end EcmaScript
