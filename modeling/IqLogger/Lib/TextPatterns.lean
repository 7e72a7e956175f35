import IqLogger.Lib.EcmaScript
import Mathlib.Data.List.Chain

/-!
# Texts taken for patterns

A text that is used as a pattern as it stands means itself only if none of its
characters has a meaning of its own. What such a pattern matches, with `(.*)` behind
it, is told here from both sides.

A text of literal characters (`EcmaScript.isLiteral`), dots among them, matches
itself, with anything behind it on the same line
(`EcmaScript.regexMatch_literals`). For the other direction, a tree that has neither
alternatives nor classes is read as a list of leaves (`EcmaScript.Node.leaves`), one
for each character of the pattern that stands for something (`EcmaScript.lex`), and
what it matches is a text for each of them, in order (`EcmaScript.run_reads`). Only
a dot can stand for a character with a meaning of its own, and each does so once at
most, unless it has a quantifier; so there are no more such characters in the text
than there are dots in the pattern (`EcmaScript.exists_split`).
-/

namespace EcmaScript

/-! ### Literal characters -/

/-- A character that is among those it matches when it stands in a pattern. -/
def isLiteral (c : Char) : Bool := !isSyntaxCharacter c || c == '.'

/-- A character that makes a quantifier of the one before. -/
def isQuantifier (c : Char) : Bool := ['*', '+', '?', '{'].contains c

/-- What a literal character is read as. -/
def literal (c : Char) : Node := if c = '.' then .any else .char c

/-- A text of literal characters, and what follows it. -/
def literals (u : List Char) (a : Node) : Node := u.foldr (fun c b => .seq (literal c) b) a

/-- `(.*)`, as the last of a pattern. -/
def anyRest (index : ℕ) : Node :=
  .seq (.group index (.seq (.quantified 0 none true .any) .empty)) .empty

theorem isQuantifier_of_isLiteral {c : Char} (hc : isLiteral c = true) :
    isQuantifier c = false := by
  rw [isQuantifier, List.contains_eq_mem, decide_eq_false_iff_not]
  intro h
  simp only [List.mem_cons, List.not_mem_nil, or_false] at h
  rcases h with rfl | rfl | rfl | rfl <;> simp [isLiteral, isSyntaxCharacter] at hc

theorem quantifier_eq_none {s : List Char} (h : ∀ c ∈ s.head?, isQuantifier c = false) :
    quantifier s = some (none, s) := by
  unfold quantifier
  split <;> simp [isQuantifier] at h ⊢

/-- Where no quantifier follows, an atom stays as it is. -/
theorem quantifiers_eq_self {s : List Char} (h : ∀ c ∈ s.head?, isQuantifier c = false)
    (fuel : ℕ) (a : Node) : quantifiers fuel a s = some (a, s) := by
  cases fuel with
  | zero => rfl
  | succ fuel =>
    rw [quantifiers, quantifier_eq_none h]
    rfl

theorem atom_literal {c : Char} (hc : isLiteral c = true) (fuel groups : ℕ) (s : List Char) :
    atom (fuel + 1) groups (c :: s) = some (literal c, groups, s) := by
  unfold atom
  split <;> simp_all [isLiteral, isSyntaxCharacter, literal]

theorem term_literal {c : Char} (hc : isLiteral c = true) {s : List Char}
    (hs : ∀ d ∈ s.head?, isQuantifier d = false) (fuel groups : ℕ) :
    term (fuel + 2) groups (c :: s) = some (literal c, groups, s) := by
  have hne : c ≠ '^' ∧ c ≠ '$' ∧ c ≠ '\\' ∧ c ≠ '(' := by
    refine ⟨?_, ?_, ?_, ?_⟩ <;> rintro rfl <;> simp [isLiteral, isSyntaxCharacter] at hc
  obtain ⟨hbegin, hend, hescape, hparen⟩ := hne
  rw [term]
  · rw [atom_literal hc]
    dsimp only [Option.bind_eq_bind, Option.bind_some]
    rw [quantifiers_eq_self hs]
    rfl
  all_goals simp [hbegin, hend, hescape, hparen]

/-- **A text of literal characters is read character by character.** -/
theorem alternative_literals {u : List Char} (hu : ∀ c ∈ u, isLiteral c = true) {t : List Char}
    (ht : ∀ d ∈ t.head?, isQuantifier d = false) (fuel groups : ℕ) :
    alternative (fuel + 2 + u.length) groups (u ++ t) =
      (alternative (fuel + 2) groups t).map fun r => (literals u r.1, r.2) := by
  induction u with
  | nil => simp [literals]
  | cons c u ih =>
    have hc := hu c List.mem_cons_self
    have hrest : ∀ d ∈ (u ++ t).head?, isQuantifier d = false := by
      rcases u with _ | ⟨d, u⟩
      · exact ht
      · rintro d ⟨⟩
        exact isQuantifier_of_isLiteral (hu d (by simp))
    have hne : c ≠ '|' ∧ c ≠ ')' := by
      refine ⟨?_, ?_⟩ <;> rintro rfl <;> simp [isLiteral, isSyntaxCharacter] at hc
    obtain ⟨halt, hparen⟩ := hne
    have hterm := term_literal hc hrest (fuel + u.length) groups
    rw [List.length_cons, ← Nat.add_assoc, List.cons_append, alternative]
    · rw [show fuel + 2 + u.length = fuel + u.length + 2 by omega, hterm]
      dsimp only [Option.bind_eq_bind, Option.bind_some]
      rw [show fuel + u.length + 2 = fuel + 2 + u.length by omega,
        ih fun d hd => hu d (List.mem_cons_of_mem c hd)]
      cases alternative (fuel + 2) groups t <;> rfl
    all_goals simp [halt, hparen]

theorem alternative_anyRest (fuel groups : ℕ) :
    alternative (fuel + 7) groups ['(', '.', '*', ')'] =
      some (anyRest (groups + 1), groups + 1, []) := by
  simp [alternative, term, atom, disjunction, quantifiers, quantifier, closing, greediness, anyRest]

theorem closed_literals (u : List Char) (a : Node) (groups : List ℕ) :
    (literals u a).closed groups = a.closed groups := by
  induction u with
  | nil => rfl
  | cons c u ih =>
    have hliteral : (literal c).closed groups = some groups := by
      rw [literal]
      split_ifs <;> rfl
    rw [literals, List.foldr_cons, Node.closed, hliteral]
    exact ih

theorem parse_literals {u : List Char} (hu : ∀ c ∈ u, isLiteral c = true) :
    parse (u ++ ['(', '.', '*', ')']) = some (literals u (anyRest 1)) := by
  have ht : ∀ d ∈ ['(', '.', '*', ')'].head?, isQuantifier d = false := by
    rintro d ⟨⟩
    rfl
  have hfuel : 4 * (u ++ ['(', '.', '*', ')']).length + 4 =
      (3 * u.length + 12 + 5 + 2 + u.length) + 1 := by
    rw [List.length_append, List.length_cons, List.length_cons, List.length_cons, List.length_cons,
      List.length_nil]
    omega
  rw [parse, hfuel, disjunction, alternative_literals hu ht, alternative_anyRest]
  dsimp only [Option.bind_eq_bind, Option.bind_some, Option.map_some]
  rw [closed_literals]
  rfl

/-! ### What a literal text matches -/

theorem consume_cons {accepts : Char → Bool} {x : State} {c : Char} {rest : List Char}
    (hx : x.rest = c :: rest) (hc : accepts c = true) (k : Cont) :
    consume accepts x k = k ⟨some c, rest, x.captures⟩ := by
  rw [consume, hx]
  exact if_pos hc

/-- A literal character matches itself. -/
theorem run_literal {x : State} {c : Char} {rest : List Char} (hx : x.rest = c :: rest) (k : Cont) :
    (literal c).run x k = k ⟨some c, rest, x.captures⟩ := by
  rw [literal]
  split_ifs with hdot
  · subst hdot
    exact consume_cons hx rfl k
  · exact @consume_cons (fun d => d == c) x c rest hx (beq_self_eq_true c) k

/-- **A text of literal characters matches itself.** -/
theorem run_literals (u : List Char) (a : Node) {x : State} {rest : List Char}
    (hx : x.rest = u ++ rest) (k : Cont) :
    ∃ y : State, y.rest = rest ∧ (literals u a).run x k = a.run y k := by
  induction u generalizing x with
  | nil => exact ⟨x, hx, rfl⟩
  | cons c u ih =>
    have hnext : (⟨some c, u ++ rest, x.captures⟩ : State).rest = u ++ rest := rfl
    obtain ⟨y, hy, hrun⟩ := ih hnext
    refine ⟨y, hy, ?_⟩
    rw [← hrun, literals, List.foldr_cons, Node.run, run_literal hx]
    rfl

/-- Rounds of dots take a line to its end. -/
theorem isSome_optionalRounds {k : Cont} (hk : ∀ y : State, y.rest = [] → (k y).isSome)
    (fuel : ℕ) {x : State} (hfuel : x.rest.length ≤ fuel)
    (hline : ∀ c ∈ x.rest, isLineTerminator c = false) :
    (optionalRounds Node.any.run true fuel none x k).isSome := by
  induction fuel generalizing x with
  | zero => exact hk x (List.length_eq_zero_iff.mp (Nat.le_zero.mp hfuel))
  | succ fuel ih =>
    rw [optionalRounds, if_neg (by simp)]
    dsimp only
    rw [if_pos rfl, Option.orElse_eq_or, Option.isSome_or, Bool.or_eq_true]
    cases hrest : x.rest with
    | nil => exact Or.inr (hk x hrest)
    | cons c rest =>
      left
      rw [hrest, List.length_cons] at hfuel
      rw [hrest] at hline
      have hc : (!isLineTerminator c) = true := by
        rw [hline c List.mem_cons_self, Bool.not_false]
      rw [Node.run, consume_cons hrest hc, if_pos (by simp)]
      exact ih (Nat.le_of_succ_le_succ hfuel) fun d hd => hline d (List.mem_cons_of_mem c hd)

/-- **What a literal text with `(.*)` behind it matches**: the text itself, and
anything behind it on the same line. -/
theorem regexMatch_literals {u v : List Char} (hu : ∀ c ∈ u, isLiteral c = true)
    (hv : ∀ c ∈ v, isLineTerminator c = false) :
    regexMatch (String.ofList (u ++ ['(', '.', '*', ')'])) (String.ofList (u ++ v)) = true := by
  rw [regexMatch, regex, String.toList_ofList, parse_literals hu, Option.map_some]
  dsimp only
  rw [String.toList_ofList, Node.fullMatch]
  obtain ⟨y, hy, hrun⟩ := run_literals u (anyRest 1)
    (x := ⟨none, u ++ v, fun _ => none⟩) rfl fun y => if y.rest = [] then some y else none
  rw [hrun, anyRest, Node.run, Node.run, Node.run, Node.run, rounds]
  refine isSome_optionalRounds ?_ _ le_rfl (hy ▸ hv)
  intro z hz
  simp [Node.run, State.capture, hz]

/-! ### Leaves -/

/-- What one character of a pattern stands for: itself, or any character (`none`);
once, or any number of times. -/
structure Leaf where
  char : Option Char
  many : Bool
  deriving DecidableEq, Repr

/-- A leaf stands for a character. -/
def Leaf.Accepts (l : Leaf) (c : Char) : Prop :=
  match l.char with
  | some d => c = d
  | none => isLineTerminator c = false

/-- A leaf stands for a text. -/
def Leaf.Reads (l : Leaf) (u : List Char) : Prop :=
  (∀ c ∈ u, l.Accepts c) ∧ (l.many = false → u.length = 1)

/-- Leaves stand for a text, one after the other. -/
def Reads : List Leaf → List Char → Prop
  | [], w => w = []
  | l :: ls, w => ∃ u v, w = u ++ v ∧ l.Reads u ∧ Reads ls v

theorem reads_append {ls ls' : List Leaf} {w : List Char} :
    Reads (ls ++ ls') w ↔ ∃ u v, w = u ++ v ∧ Reads ls u ∧ Reads ls' v := by
  induction ls generalizing w with
  | nil =>
    constructor
    · intro h
      exact ⟨[], w, rfl, rfl, h⟩
    · rintro ⟨u, v, rfl, rfl, h⟩
      exact h
  | cons l ls ih =>
    constructor
    · rintro ⟨u, v, rfl, hl, hrest⟩
      obtain ⟨u', v', rfl, hls, hls'⟩ := ih.mp hrest
      exact ⟨u ++ u', v', (List.append_assoc u u' v').symm, ⟨u, u', rfl, hl, hls⟩, hls'⟩
    · rintro ⟨_, v', rfl, ⟨u, u', rfl, hl, hls⟩, hls'⟩
      exact ⟨u, u' ++ v', List.append_assoc u u' v', hl, ih.mpr ⟨u', v', rfl, hls, hls'⟩⟩

theorem reads_singleton {l : Leaf} {w : List Char} : Reads [l] w ↔ l.Reads w := by
  constructor
  · rintro ⟨u, v, rfl, hl, rfl⟩
    rwa [List.append_nil]
  · intro hl
    exact ⟨w, [], (List.append_nil w).symm, hl, rfl⟩

/-- The leaves of a tree without alternatives and classes, in which no more than one
character has a quantifier of its own. -/
def Node.leaves : Node → Option (List Leaf)
  | .empty => some []
  | .char c => some [⟨some c, false⟩]
  | .any => some [⟨none, false⟩]
  | .seq a b => a.leaves.bind fun ls => b.leaves.map (ls ++ ·)
  | .group _ a => a.leaves
  | .lineBegin => some []
  | .lineEnd => some []
  | .quantified _ _ _ a => a.leaves.bind fun
    | [l] => some [⟨l.char, true⟩]
    | _ => none
  | _ => none

/-- A matcher that consumes texts of a kind and goes on. -/
def Consumes (m : Matcher) (P : List Char → Prop) : Prop :=
  ∀ x k z, m x k = some z → ∃ u y, x.rest = u ++ y.rest ∧ P u ∧ k y = some z

theorem consumes_consume {accepts : Char → Bool} {P : List Char → Prop}
    (hP : ∀ c, accepts c = true → P [c]) : Consumes (consume accepts) P := by
  intro x k z h
  rw [consume] at h
  split at h
  · exact absurd h.symm (Option.some_ne_none z)
  · rename_i c rest hrest
    split_ifs at h with hc
    exact ⟨[c], ⟨some c, rest, x.captures⟩, hrest, hP c hc, h⟩

section Rounds

variable {m : Matcher} {P : List Char → Prop}

theorem consumes_optionalRounds (hnil : P []) (happend : ∀ u v, P u → P v → P (u ++ v))
    (hm : Consumes m P) (greedy : Bool) (fuel : ℕ) (max : Option ℕ) :
    Consumes (optionalRounds m greedy fuel max) P := by
  induction fuel generalizing max with
  | zero =>
    intro x k z h
    exact ⟨[], x, rfl, hnil, h⟩
  | succ fuel ih =>
    intro x k z h
    -- no round, or one and then others
    have hzero : k x = some z → ∃ u y, x.rest = u ++ y.rest ∧ P u ∧ k y = some z :=
      fun h => ⟨[], x, rfl, hnil, h⟩
    have honce : (m x fun y => if y.rest.length < x.rest.length then
          optionalRounds m greedy fuel (max.map (· - 1)) y k else none) = some z →
        ∃ u y, x.rest = u ++ y.rest ∧ P u ∧ k y = some z := by
      intro h
      obtain ⟨u, y, hy, hu, h⟩ := hm x _ z h
      split_ifs at h with hlt
      obtain ⟨v, y', hy', hv, hk⟩ := ih (max.map (· - 1)) y k z h
      exact ⟨u ++ v, y', by rw [hy, hy', List.append_assoc], happend u v hu hv, hk⟩
    rw [optionalRounds] at h
    split_ifs at h with hmax hgreedy
    · exact hzero h
    · rw [Option.orElse_eq_or, Option.or_eq_some_iff] at h
      exact h.elim honce fun h => hzero h.2
    · rw [Option.orElse_eq_or, Option.or_eq_some_iff] at h
      exact h.elim hzero fun h => honce h.2

theorem consumes_rounds (hnil : P []) (happend : ∀ u v, P u → P v → P (u ++ v))
    (hm : Consumes m P) (greedy : Bool) (min : ℕ) (max : Option ℕ) :
    Consumes (rounds m greedy min max) P := by
  induction min generalizing max with
  | zero =>
    intro x k z h
    exact consumes_optionalRounds hnil happend hm greedy x.rest.length max x k z h
  | succ min ih =>
    intro x k z h
    obtain ⟨u, y, hy, hu, h⟩ := hm x _ z h
    obtain ⟨v, y', hy', hv, hk⟩ := ih (max.map (· - 1)) y k z h
    exact ⟨u ++ v, y', by rw [hy, hy', List.append_assoc], happend u v hu hv, hk⟩

end Rounds

/-- What a leaf with a quantifier stands for. -/
theorem consumes_quantified {l : Leaf} {m : Matcher} (hm : Consumes m (Reads [l])) (min : ℕ)
    (max : Option ℕ) (greedy : Bool) :
    Consumes (rounds m greedy min max) (Reads [⟨l.char, true⟩]) := by
  have hreads : ∀ u, Reads [⟨l.char, true⟩] u ↔ ∀ c ∈ u, l.Accepts c := by
    intro u
    rw [reads_singleton, Leaf.Reads]
    simp [Leaf.Accepts]
  refine consumes_rounds ?_ ?_ ?_ greedy min max
  · simp [hreads]
  · intro u v hu hv
    rw [hreads] at hu hv ⊢
    intro c hc
    exact (List.mem_append.mp hc).elim (hu c) (hv c)
  · intro x k z h
    obtain ⟨u, y, hy, hu, hk⟩ := hm x k z h
    exact ⟨u, y, hy, (hreads u).mpr (reads_singleton.mp hu).1, hk⟩

/-- **What a tree of leaves matches** is what they stand for, in order. -/
theorem run_reads {a : Node} {ls : List Leaf} (h : a.leaves = some ls) :
    Consumes a.run (Reads ls) := by
  induction a generalizing ls with
  | empty =>
    obtain rfl := Option.some.inj h
    intro x k z hz
    exact ⟨[], x, rfl, rfl, hz⟩
  | char c =>
    obtain rfl := Option.some.inj h
    refine consumes_consume fun d hd => reads_singleton.mpr ⟨?_, fun _ => rfl⟩
    simpa [Leaf.Accepts] using hd
  | any =>
    obtain rfl := Option.some.inj h
    refine consumes_consume fun d hd => reads_singleton.mpr ⟨?_, fun _ => rfl⟩
    simpa [Leaf.Accepts] using hd
  | set accepts => exact absurd h.symm (Option.some_ne_none ls)
  | seq a b iha ihb =>
    obtain ⟨ls, hls, hrest⟩ := Option.bind_eq_some_iff.mp h
    obtain ⟨ls', hls', rfl⟩ := Option.map_eq_some_iff.mp hrest
    intro x k z hz
    obtain ⟨u, y, hy, hu, hz⟩ := iha hls x _ z hz
    obtain ⟨v, y', hy', hv, hk⟩ := ihb hls' y k z hz
    exact ⟨u ++ v, y', by rw [hy, hy', List.append_assoc],
      reads_append.mpr ⟨u, v, rfl, hu, hv⟩, hk⟩
  | alt a b => exact absurd h.symm (Option.some_ne_none ls)
  | group index a ih =>
    intro x k z hz
    obtain ⟨u, y, hy, hu, hz⟩ := ih h x _ z hz
    exact ⟨u, x.capture index y, hy, hu, hz⟩
  | backref index => exact absurd h.symm (Option.some_ne_none ls)
  | lineBegin =>
    obtain rfl := Option.some.inj h
    intro x k z hz
    rw [Node.run] at hz
    split_ifs at hz
    exact ⟨[], x, rfl, rfl, hz⟩
  | lineEnd =>
    obtain rfl := Option.some.inj h
    intro x k z hz
    rw [Node.run] at hz
    split_ifs at hz
    exact ⟨[], x, rfl, rfl, hz⟩
  | wordBound negated => exact absurd h.symm (Option.some_ne_none ls)
  | lookahead negated a => exact absurd h.symm (Option.some_ne_none ls)
  | quantified min max greedy a ih =>
    obtain ⟨as, has, h⟩ := Option.bind_eq_some_iff.mp h
    split at h
    · next l =>
      obtain rfl := Option.some.inj h
      exact consumes_quantified (ih has) min max greedy
    · exact absurd h.symm (Option.some_ne_none ls)

/-! ### The leaves of a pattern -/

/-- What one character of a pattern is read as, and whether it has a quantifier. An
operator stands for nothing. -/
def lexeme (c : Char) (many : Bool) : List Leaf :=
  if ['^', '$', '*', '+', '?', '(', ')'].contains c then []
  else [⟨if c = '.' then none else some c, many⟩]

theorem lexeme_eq_nil {c : Char} (hc : ['^', '$', '*', '+', '?', '(', ')'].contains c = true)
    (many : Bool) : lexeme c many = [] :=
  if_pos hc

theorem lexeme_of_isLiteral {c : Char} (hc : isLiteral c = true) (many : Bool) :
    lexeme c many = [⟨if c = '.' then none else some c, many⟩] := by
  refine if_neg ?_
  intro hmem
  simp only [List.contains_eq_mem, decide_eq_true_eq, List.mem_cons, List.not_mem_nil,
    or_false] at hmem
  rcases hmem with rfl | rfl | rfl | rfl | rfl | rfl | rfl <;>
    simp [isLiteral, isSyntaxCharacter] at hc

/-- What a character is that is no operator. -/
theorem isLiteral_of_not_operator {c : Char} (hc : c ∉ ['\\', '[', '{', '|'])
    (hop : ['^', '$', '*', '+', '?', '(', ')'].contains c = false) : isLiteral c = true := by
  simp only [List.mem_cons, List.not_mem_nil, or_false, not_or] at hc
  simp only [List.contains_eq_mem, List.mem_cons, List.not_mem_nil, or_false,
    decide_eq_false_iff_not, not_or] at hop
  simp [isLiteral, isSyntaxCharacter, hc, hop, ne_or_eq c '.']

/-- A literal character is the leaf it is read as. -/
theorem leaves_literal {c : Char} (hc : isLiteral c = true) :
    (literal c).leaves = some (lexeme c false) := by
  rw [lexeme_of_isLiteral hc, literal]
  split_ifs <;> rfl

/-- What the characters of a pattern are read as. -/
def lex : List Char → List Leaf
  | [] => []
  | c :: s => lexeme c (s.head?.any isQuantifier) ++ lex s

/-- A pattern without escapes, classes, braces and alternatives, in which no
parenthesis has a quantifier. -/
structure Simple (s : List Char) : Prop where
  chars : ∀ c ∈ s, c ∉ ['\\', '[', '{', '|']
  parens : s.IsChain fun a b => a ∈ ['(', ')'] → isQuantifier b = false

theorem Simple.suffix {s t : List Char} (h : Simple s) (hst : t <:+ s) : Simple t :=
  ⟨fun c hc => h.chars c (hst.subset hc), h.parens.suffix hst⟩

theorem Simple.tail {c : Char} {s : List Char} (h : Simple (c :: s)) : Simple s :=
  h.suffix (List.suffix_cons c s)

/-- Nothing that is left behind a parenthesis makes a quantifier of it. -/
theorem Simple.head {c : Char} {s : List Char} (h : Simple (c :: s)) (hc : c ∈ ['(', ')']) :
    ∀ d ∈ s.head?, isQuantifier d = false := by
  rcases s with _ | ⟨d, s⟩
  · simp
  · rintro d ⟨⟩
    exact (List.isChain_cons_cons.mp h.parens).1 hc

theorem lex_greediness (bounds : ℕ × Option ℕ) (s : List Char) :
    lex s = lex (greediness bounds s).2 ∧ (greediness bounds s).2 <:+ s ∧
      (greediness bounds s).1.isSome = true := by
  unfold greediness
  split
  · exact ⟨rfl, List.suffix_cons _ _, rfl⟩
  · exact ⟨rfl, List.suffix_refl _, rfl⟩

/-- A quantifier stands for nothing of its own. -/
theorem lex_quantifier {s s' : List Char} {bounds : Option (ℕ × Option ℕ × Bool)}
    (hs : Simple s) (h : quantifier s = some (bounds, s')) :
    lex s = lex s' ∧ s' <:+ s ∧ bounds.isSome = s.head?.any isQuantifier := by
  unfold quantifier at h
  split at h
  · obtain ⟨hlex, hsuffix, hsome⟩ := lex_greediness (0, none) ‹_›
    rw [Option.some.inj h] at hlex hsuffix hsome
    exact ⟨hlex, hsuffix.trans (List.suffix_cons _ _), hsome⟩
  · obtain ⟨hlex, hsuffix, hsome⟩ := lex_greediness (1, none) ‹_›
    rw [Option.some.inj h] at hlex hsuffix hsome
    exact ⟨hlex, hsuffix.trans (List.suffix_cons _ _), hsome⟩
  · obtain ⟨hlex, hsuffix, hsome⟩ := lex_greediness (0, some 1) ‹_›
    rw [Option.some.inj h] at hlex hsuffix hsome
    exact ⟨hlex, hsuffix.trans (List.suffix_cons _ _), hsome⟩
  · -- a brace is excluded
    exact absurd (hs.chars '{' List.mem_cons_self) (by simp)
  · rename_i hstar hplus hquestion hbrace
    obtain ⟨rfl, rfl⟩ := Prod.mk.inj (Option.some.inj h)
    refine ⟨rfl, List.suffix_refl _, ?_⟩
    cases s with
    | nil => rfl
    | cons c s =>
      rw [Option.isSome_none, List.head?_cons, Option.any_some, isQuantifier,
        List.contains_eq_mem, eq_comm, decide_eq_false_iff_not]
      intro hmem
      simp only [List.mem_cons, List.not_mem_nil, or_false] at hmem
      rcases hmem with rfl | rfl | rfl | rfl
      · exact hstar s rfl
      · exact hplus s rfl
      · exact hquestion s rfl
      · exact hbrace s rfl

/-- A quantifier is not empty. -/
theorem length_quantifier {s s' : List Char} {bounds : ℕ × Option ℕ × Bool} (hs : Simple s)
    (h : quantifier s = some (some bounds, s')) : s'.length < s.length := by
  have hgreediness : ∀ (bounds' : ℕ × Option ℕ) (rest : List Char),
      some (greediness bounds' rest) = some (some bounds, s') → s'.length ≤ rest.length := by
    intro bounds' rest heq
    have hle := (lex_greediness bounds' rest).2.1.length_le
    rwa [Option.some.inj heq] at hle
  unfold quantifier at h
  split at h
  · exact Nat.lt_succ_of_le (hgreediness _ _ h)
  · exact Nat.lt_succ_of_le (hgreediness _ _ h)
  · exact Nat.lt_succ_of_le (hgreediness _ _ h)
  · exact absurd (hs.chars '{' List.mem_cons_self) (by simp)
  · cases h

/-- An atom of one leaf, with the quantifiers that follow. -/
theorem lex_quantifiers {fuel : ℕ} {a a' : Node} {s s' : List Char} {char : Option Char}
    {many : Bool} (hs : Simple s) (hfuel : s.length ≤ fuel)
    (ha : a.leaves = some [⟨char, many⟩]) (h : quantifiers fuel a s = some (a', s')) :
    lex s = lex s' ∧ s' <:+ s ∧
      a'.leaves = some [⟨char, many || s.head?.any isQuantifier⟩] := by
  induction fuel generalizing a s many with
  | zero =>
    obtain rfl := List.length_eq_zero_iff.mp (Nat.le_zero.mp hfuel)
    obtain ⟨rfl, rfl⟩ := Prod.mk.inj (Option.some.inj h)
    exact ⟨rfl, List.suffix_refl _, by simpa using ha⟩
  | succ fuel ih =>
    rw [quantifiers] at h
    obtain ⟨⟨bounds, rest⟩, hbounds, h⟩ := Option.bind_eq_some_iff.mp h
    obtain ⟨hlex, hsuffix, hsome⟩ := lex_quantifier hs hbounds
    dsimp only at h
    rcases bounds with _ | ⟨min, max, greedy⟩
    · obtain ⟨rfl, rfl⟩ := Prod.mk.inj (Option.some.inj h)
      refine ⟨hlex, hsuffix, ?_⟩
      rw [← hsome, Option.isSome_none, Bool.or_false, ha]
    · have hleaves : (Node.quantified min max greedy a).leaves = some [⟨char, true⟩] := by
        rw [Node.leaves, ha]
        rfl
      have hlt : rest.length ≤ fuel :=
        Nat.le_of_lt_succ ((length_quantifier hs hbounds).trans_le hfuel)
      obtain ⟨hlex', hsuffix', hleaves'⟩ := ih (hs.suffix hsuffix) hlt hleaves h
      refine ⟨hlex.trans hlex', hsuffix'.trans hsuffix, ?_⟩
      rw [hleaves', ← hsome]
      simp

/-- **A part of a pattern is read as the leaves of its characters.** -/
def Reading (s : List Char) (r : Node × ℕ × List Char) : Prop :=
  r.2.2 <:+ s ∧ ∃ ls, r.1.leaves = some ls ∧ lex s = ls ++ lex r.2.2

section Grammar

variable {fuel : ℕ}

theorem reading_disjunction
    (halternative : ∀ groups s r, Simple s → alternative fuel groups s = some r → Reading s r)
    {groups : ℕ} {s : List Char} {r : Node × ℕ × List Char} (hs : Simple s)
    (h : disjunction (fuel + 1) groups s = some r) : Reading s r := by
  rw [disjunction] at h
  obtain ⟨⟨a, groups', s'⟩, ha, h⟩ := Option.bind_eq_some_iff.mp h
  have hreading := halternative groups s _ hs ha
  dsimp only at h
  split at h
  · -- there are no alternatives
    exact absurd (hs.chars '|' (hreading.1.subset List.mem_cons_self)) (by simp)
  · obtain rfl := Option.some.inj h
    exact hreading

theorem reading_alternative
    (hterm : ∀ groups s r, Simple s → term fuel groups s = some r → Reading s r)
    (halternative : ∀ groups s r, Simple s → alternative fuel groups s = some r → Reading s r)
    {groups : ℕ} {s : List Char} {r : Node × ℕ × List Char} (hs : Simple s)
    (h : alternative (fuel + 1) groups s = some r) : Reading s r := by
  cases s with
  | nil =>
    obtain rfl := Option.some.inj h
    exact ⟨List.suffix_refl _, [], rfl, rfl⟩
  | cons c s =>
    have halt : c ≠ '|' := by
      rintro rfl
      exact absurd (hs.chars '|' List.mem_cons_self) (by simp)
    by_cases hparen : c = ')'
    · subst hparen
      obtain rfl := Option.some.inj h
      exact ⟨List.suffix_refl _, [], rfl, rfl⟩
    · rw [alternative] at h
      · obtain ⟨⟨a, groups', s'⟩, ha, h⟩ := Option.bind_eq_some_iff.mp h
        obtain ⟨⟨b, groups'', s''⟩, hb, h⟩ := Option.bind_eq_some_iff.mp h
        obtain rfl := Option.some.inj h
        obtain ⟨hsuffix, ls, hls, hlex⟩ := hterm groups _ _ hs ha
        obtain ⟨hsuffix', ls', hls', hlex'⟩ := halternative groups' s' _ (hs.suffix hsuffix) hb
        refine ⟨hsuffix'.trans hsuffix, ls ++ ls', ?_, ?_⟩
        · rw [Node.leaves, hls, hls']
          rfl
        · rw [hlex, hlex', List.append_assoc]
      all_goals simp [halt, hparen]

/-- An atom is a character, or something that has no quantifier. -/
theorem reading_atom
    (hdisjunction : ∀ groups s r, Simple s → disjunction fuel groups s = some r → Reading s r)
    {groups : ℕ} {s : List Char} {r : Node × ℕ × List Char} (hs : Simple s)
    (h : atom (fuel + 1) groups s = some r) :
    (∃ c, s = c :: r.2.2 ∧ isLiteral c = true ∧ r.1 = literal c) ∨
      (Reading s r ∧ ∀ d ∈ r.2.2.head?, isQuantifier d = false) := by
  cases s with
  | nil => exact absurd h.symm (Option.some_ne_none r)
  | cons c s =>
    by_cases hliteral : isLiteral c = true
    · rw [atom_literal hliteral] at h
      obtain rfl := Option.some.inj h
      exact Or.inl ⟨c, rfl, hliteral, rfl⟩
    · by_cases hparen : c = '('
      · subst hparen
        right
        have hhead := hs.head (by simp)
        rw [atom] at h
        · obtain ⟨⟨a, groups', s'⟩, ha, h⟩ := Option.bind_eq_some_iff.mp h
          obtain ⟨s'', hclosing, h⟩ := Option.bind_eq_some_iff.mp h
          obtain rfl := Option.some.inj h
          obtain ⟨hsuffix, ls, hls, hlex⟩ := hdisjunction _ s _ hs.tail ha
          dsimp only at hsuffix hls hlex
          obtain rfl : s' = ')' :: s'' := by
            unfold closing at hclosing
            split at hclosing
            · rw [Option.some.inj hclosing]
            · contradiction
          refine ⟨⟨?_, ls, hls, ?_⟩, (hs.tail.suffix hsuffix).head (by simp)⟩
          · exact ((List.suffix_cons _ _).trans hsuffix).trans (List.suffix_cons _ _)
          · rw [lex, lexeme_eq_nil rfl, List.nil_append, hlex, lex, lexeme_eq_nil rfl,
              List.nil_append]
        · rintro s rfl
          exact absurd (hhead '?' rfl) (by simp [isQuantifier])
      · exfalso
        have hchars := hs.chars c List.mem_cons_self
        have hne : c ≠ '.' ∧ c ≠ '\\' ∧ c ≠ '[' := by
          refine ⟨?_, ?_, ?_⟩ <;> rintro rfl
          · exact hliteral rfl
          · simp at hchars
          · simp at hchars
        obtain ⟨hdot, hescape, hbracket⟩ := hne
        have hsyntax : isSyntaxCharacter c = true := by
          simp only [isLiteral, Bool.or_eq_true, Bool.not_eq_true', not_or,
            Bool.not_eq_false] at hliteral
          exact hliteral.1
        have hnone : atom (fuel + 1) groups (c :: s) = none := by
          rw [atom]
          · exact if_pos hsyntax
          all_goals simp [hdot, hescape, hbracket, hparen]
        rw [hnone] at h
        exact Option.some_ne_none r h.symm

theorem reading_term
    (hatom : ∀ groups s r, Simple s → atom fuel groups s = some r →
      (∃ c, s = c :: r.2.2 ∧ isLiteral c = true ∧ r.1 = literal c) ∨
        (Reading s r ∧ ∀ d ∈ r.2.2.head?, isQuantifier d = false))
    {groups : ℕ} {s : List Char} {r : Node × ℕ × List Char} (hs : Simple s)
    (h : term (fuel + 1) groups s = some r) : Reading s r := by
  by_cases hbegin : ∃ s', s = '^' :: s'
  · obtain ⟨s', rfl⟩ := hbegin
    obtain rfl := Option.some.inj h
    exact ⟨List.suffix_cons _ _, [], rfl, rfl⟩
  by_cases hend : ∃ s', s = '$' :: s'
  · obtain ⟨s', rfl⟩ := hend
    obtain rfl := Option.some.inj h
    exact ⟨List.suffix_cons _ _, [], rfl, rfl⟩
  have hescape : ∀ s', s ≠ '\\' :: s' := by
    rintro s' rfl
    exact absurd (hs.chars '\\' List.mem_cons_self) (by simp)
  have hparen : ∀ s', s ≠ '(' :: '?' :: s' := by
    rintro s' rfl
    exact absurd (hs.head (by simp) '?' rfl) (by simp [isQuantifier])
  rw [term] at h
  · obtain ⟨⟨a, last, s'⟩, ha, h⟩ := Option.bind_eq_some_iff.mp h
    obtain ⟨⟨a', s''⟩, hquantifiers, h⟩ := Option.bind_eq_some_iff.mp h
    obtain rfl := Option.some.inj h
    rcases hatom groups s _ hs ha with ⟨c, rfl, hc, rfl⟩ | ⟨⟨hsuffix, ls, hls, hlex⟩, hhead⟩
    · -- a character, with or without quantifiers
      have hleaf := leaves_literal hc
      rw [lexeme_of_isLiteral hc] at hleaf
      obtain ⟨hlex, hsuffix, hleaves⟩ := lex_quantifiers hs.tail le_rfl hleaf hquantifiers
      refine ⟨hsuffix.trans (List.suffix_cons _ _), _, hleaves, ?_⟩
      rw [lex, lexeme_of_isLiteral hc, hlex, Bool.false_or]
    · rw [quantifiers_eq_self hhead] at hquantifiers
      obtain ⟨rfl, rfl⟩ := Prod.mk.inj (Option.some.inj hquantifiers)
      exact ⟨hsuffix, ls, hls, hlex⟩
  · exact fun s' heq => hbegin ⟨s', heq⟩
  · exact fun s' heq => hend ⟨s', heq⟩
  · exact fun s' heq => hescape _ heq
  · exact fun s' heq => hescape _ heq
  · exact fun s' heq => hparen _ heq
  · exact fun s' heq => hparen _ heq

/-- **A simple pattern is read as the leaves of its characters.** -/
theorem reading (fuel : ℕ) :
    (∀ groups s r, Simple s → disjunction fuel groups s = some r → Reading s r) ∧
    (∀ groups s r, Simple s → alternative fuel groups s = some r → Reading s r) ∧
    (∀ groups s r, Simple s → term fuel groups s = some r → Reading s r) ∧
    ∀ groups s r, Simple s → atom fuel groups s = some r →
      (∃ c, s = c :: r.2.2 ∧ isLiteral c = true ∧ r.1 = literal c) ∨
        (Reading s r ∧ ∀ d ∈ r.2.2.head?, isQuantifier d = false) := by
  induction fuel with
  | zero =>
    refine ⟨?_, ?_, ?_, ?_⟩ <;> intro groups s r _ h <;> exact absurd h.symm (Option.some_ne_none r)
  | succ fuel ih =>
    obtain ⟨hdisjunction, halternative, hterm, hatom⟩ := ih
    exact ⟨fun _ _ _ => reading_disjunction halternative,
      fun _ _ _ => reading_alternative hterm halternative, fun _ _ _ => reading_term hatom,
      fun _ _ _ => reading_atom hdisjunction⟩

theorem leaves_of_parse {s : List Char} (hs : Simple s) {a : Node} (h : parse s = some a) :
    a.leaves = some (lex s) := by
  obtain ⟨⟨a, groups, rest⟩, hdisjunction, h⟩ := Option.bind_eq_some_iff.mp h
  obtain ⟨-, ls, hls, hlex⟩ := (reading _).1 _ _ _ hs hdisjunction
  dsimp only at h hls hlex
  split_ifs at h with hrest
  obtain rfl := Option.some.inj h
  rw [hls, hlex, hrest.1, lex, List.append_nil]

end Grammar

/-! ### What is in a text that is matched -/

theorem lex_append (p : List Char) {s : List Char}
    (hs : ∀ c ∈ s.head?, isQuantifier c = false) : lex (p ++ s) = lex p ++ lex s := by
  induction p with
  | nil => rfl
  | cons c p ih =>
    have hhead : (p ++ s).head?.any isQuantifier = p.head?.any isQuantifier := by
      rcases p with _ | ⟨d, p⟩
      · rcases s with _ | ⟨d, s⟩
        · rfl
        · exact hs d rfl
      · rfl
    rw [List.cons_append, lex, lex, hhead, ih, List.append_assoc]

/-- A text without escapes, classes, braces and alternatives, in which no dot, no
parenthesis and no separator has a quantifier. -/
structure Rigid (separator : Char) (p : List Char) : Prop where
  chars : ∀ c ∈ p, c ∉ ['\\', '[', '{', '|']
  bare : p.IsChain fun a b => a ∈ ['.', '(', ')', separator] → isQuantifier b = false

/-- What one character of a rigid text can match. -/
theorem count_of_lexeme {d : Char} (hd : isSyntaxCharacter d = false) {c : Char}
    (hc : c ∉ ['\\', '[', '{', '|']) {many : Bool}
    (hbare : c ∈ ['.', '(', ')', d] → many = false) {u : List Char}
    (hu : Reads (lexeme c many) u) :
    (if c = d then 1 else 0) ≤ u.count d ∧
      u.countP isSyntaxCharacter ≤ if c = '.' then 1 else 0 := by
  by_cases hop : ['^', '$', '*', '+', '?', '(', ')'].contains c = true
  · -- an operator matches nothing
    have hne : c ≠ d := by
      rintro rfl
      simp only [List.contains_eq_mem, decide_eq_true_eq, List.mem_cons, List.not_mem_nil,
        or_false] at hop
      rcases hop with rfl | rfl | rfl | rfl | rfl | rfl | rfl <;>
        simp [isSyntaxCharacter] at hd
    rw [lexeme_eq_nil hop] at hu
    obtain rfl := hu
    simp [hne]
  · have hliteral := isLiteral_of_not_operator hc ((Bool.not_eq_true _).mp hop)
    rw [lexeme_of_isLiteral hliteral, reads_singleton] at hu
    obtain ⟨haccepts, hlength⟩ := hu
    by_cases hdot : c = '.'
    · -- a dot matches one character, whatever it is
      have hlength := hlength (hbare (by simp [hdot]))
      have hne : c ≠ d := by
        rintro rfl
        rw [hdot] at hd
        simp [isSyntaxCharacter] at hd
      rw [if_neg hne, if_pos hdot, ← hlength]
      exact ⟨Nat.zero_le _, List.countP_le_length⟩
    · -- another character matches itself
      have hsame : ∀ e ∈ u, e = c := by
        simpa [Leaf.Accepts, hdot] using haccepts
      have hplain : isSyntaxCharacter c = false := by
        simpa [isLiteral, hdot] using hliteral
      constructor
      · split_ifs with hcd
        · have hlength := hlength (hbare (by simp [hcd]))
          obtain ⟨e, rfl⟩ := List.length_eq_one_iff.mp hlength
          have he : e = d := (hsame e List.mem_cons_self).trans hcd
          rw [he]
          simp
        · exact Nat.zero_le _
      · rw [if_neg hdot, Nat.le_zero, List.countP_eq_zero]
        intro e he
        rw [hsame e he, hplain]
        exact Bool.false_ne_true

/-- **What a rigid text can match**: all its separators, and for each character with
a meaning of its own there is a dot. -/
theorem count_of_reads {d : Char} (hd : isSyntaxCharacter d = false) {p z : List Char}
    (hp : Rigid d p) (h : Reads (lex p) z) :
    p.count d ≤ z.count d ∧ z.countP isSyntaxCharacter ≤ p.count '.' := by
  induction p generalizing z with
  | nil =>
    obtain rfl := h
    exact ⟨le_rfl, le_rfl⟩
  | cons c p ih =>
    obtain ⟨u, v, rfl, hu, hv⟩ := reads_append.mp h
    have htail : Rigid d p :=
      ⟨fun e he => hp.chars e (List.mem_cons_of_mem c he), hp.bare.tail⟩
    have hbare : c ∈ ['.', '(', ')', d] → p.head?.any isQuantifier = false := by
      intro hc
      rcases p with _ | ⟨e, p⟩
      · rfl
      · exact (List.isChain_cons_cons.mp hp.bare).1 hc
    obtain ⟨hcount, hsyntax⟩ := ih htail hv
    obtain ⟨hcount', hsyntax'⟩ := count_of_lexeme hd (hp.chars c List.mem_cons_self) hbare hu
    rw [List.count_append, List.countP_append, List.count_cons, List.count_cons]
    simp only [beq_iff_eq]
    omega

/-- A rigid text is simple, and stays so with a separator and `(.*)` behind it. -/
theorem Rigid.simple {d : Char} (hd : isLiteral d = true) {p : List Char} (hp : Rigid d p) :
    Simple (p ++ d :: ['(', '.', '*', ')']) := by
  have hne : d ∉ ['\\', '[', '{', '|'] := by
    intro hmem
    simp only [List.mem_cons, List.not_mem_nil, or_false] at hmem
    rcases hmem with rfl | rfl | rfl | rfl | rfl | rfl <;>
      simp [isLiteral, isSyntaxCharacter] at hd
  refine ⟨fun c hc => ?_, List.IsChain.append ?_ ?_ ?_⟩
  · rcases List.mem_append.mp hc with hc | hc
    · exact hp.chars c hc
    · simp only [List.mem_cons, List.not_mem_nil, or_false] at hc
      rcases hc with rfl | rfl | rfl | rfl | rfl
      · exact hne
      all_goals simp
  · refine hp.bare.imp fun a b h ha => h ?_
    simp only [List.mem_cons, List.not_mem_nil, or_false] at ha ⊢
    tauto
  · simp [isQuantifier]
  · rintro a - b ⟨⟩ -
    exact isQuantifier_of_isLiteral hd

/-- **What a rigid text matches** with a separator and `(.*)` behind it. -/
theorem exists_split {d : Char} (hd : isSyntaxCharacter d = false) {p w : List Char}
    (hp : Rigid d p)
    (h : regexMatch (String.ofList (p ++ d :: ['(', '.', '*', ')'])) (String.ofList w) = true) :
    ∃ z v, w = z ++ d :: v ∧ p.count d ≤ z.count d ∧
      z.countP isSyntaxCharacter ≤ p.count '.' ∧ ∀ c ∈ v, isLineTerminator c = false := by
  have hliteral : isLiteral d = true := by
    rw [isLiteral, hd]
    rfl
  have hdot : d ≠ '.' := by
    rintro rfl
    simp [isSyntaxCharacter] at hd
  have hlex : lex (p ++ d :: ['(', '.', '*', ')']) =
      lex p ++ ([⟨some d, false⟩] ++ [⟨none, true⟩]) := by
    rw [lex_append p (by simpa using isQuantifier_of_isLiteral hliteral), lex,
      lexeme_of_isLiteral hliteral, if_neg hdot]
    rfl
  rw [regexMatch, regex, String.toList_ofList] at h
  cases hparse : parse (p ++ d :: ['(', '.', '*', ')']) with
  | none => simp [hparse] at h
  | some a =>
    rw [hparse, Option.map_some] at h
    dsimp only at h
    rw [String.toList_ofList, Node.fullMatch] at h
    obtain ⟨x, hx⟩ := Option.isSome_iff_exists.mp h
    have hleaves := leaves_of_parse (hp.simple hliteral) hparse
    obtain ⟨u, y, hu, hreads, hy⟩ := run_reads hleaves _ _ x hx
    dsimp only at hu
    split_ifs at hy with hrest
    rw [hrest, List.append_nil] at hu
    rw [hlex] at hreads
    obtain ⟨z, _, rfl, hz, hreads⟩ := reads_append.mp hreads
    obtain ⟨s, v, rfl, hs, hv⟩ := reads_append.mp hreads
    obtain ⟨haccepts, hlength⟩ := reads_singleton.mp hs
    obtain ⟨e, rfl⟩ := List.length_eq_one_iff.mp (hlength rfl)
    obtain rfl : e = d := haccepts e List.mem_cons_self
    obtain ⟨hcount, hsyntax⟩ := count_of_reads hd hp hz
    exact ⟨z, v, hu, hcount, hsyntax, (reads_singleton.mp hv).1⟩

end EcmaScript
