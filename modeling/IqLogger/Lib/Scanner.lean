import Mathlib.Data.List.Induction

/-!
# Scanners

A scanner reads a word one element after the other and says after each of them
whether the word is complete (`good`), cannot be completed (`bad`), or neither so
far (`indeterminate`). It stops at the first verdict (`Scanner.scan`); a word that
arrives in chunks is scanned chunk after chunk, from the state the last one ended in
(`Scanner.scanChunks`), and where the cuts are makes no difference
(`Scanner.scanChunks_eq`). The steps it makes on the way are `Scanner.steps`.

What a scanner says is characterised through three facts about it
(`Scanner.Recognizes`): it accepts every word of a language at its end, it accepts
no others, and whatever it has not judged yet can still be completed. From these,
`Scanner.good_iff` and `Scanner.bad_iff` say exactly when either verdict is given.
-/

namespace Scanner

/-- What a scanner says of what it has read so far. -/
inductive Verdict
  /-- A complete word. -/
  | good
  /-- Not the beginning of any word. -/
  | bad
  /-- More elements are needed. -/
  | indeterminate
  deriving DecidableEq, Repr

variable {σ α β : Type*} (step : σ → α → Verdict × σ)

/-- Read elements up to the first verdict: the verdict, the state, and what was not
read. -/
def scan : σ → List α → Verdict × σ × List α
  | s, [] => (.indeterminate, s, [])
  | s, a :: as =>
    match step s a with
    | (.indeterminate, s') => scan s' as
    | (v, s') => (v, s', as)

/-- Read chunks up to the first verdict: the verdict, the state, and what was not
read of all chunks. -/
def scanChunks : σ → List (List α) → Verdict × σ × List α
  | s, [] => (.indeterminate, s, [])
  | s, c :: cs =>
    match scan step s c with
    | (.indeterminate, s', _) => scanChunks s' cs
    | (v, s', rest) => (v, s', rest ++ cs.flatten)

variable {step}

@[simp] theorem scan_nil (s : σ) : scan step s [] = (.indeterminate, s, []) := rfl

theorem scan_cons_of_indeterminate {s s' : σ} {a : α} (as : List α)
    (h : step s a = (.indeterminate, s')) : scan step s (a :: as) = scan step s' as := by
  rw [scan, h]

theorem scan_cons_of_verdict {s s' : σ} {a : α} {v : Verdict} (as : List α)
    (h : step s a = (v, s')) (hv : v ≠ .indeterminate) :
    scan step s (a :: as) = (v, s', as) := by
  rw [scan, h]
  cases v with
  | indeterminate => exact absurd rfl hv
  | good => rfl
  | bad => rfl

/-- A scanner without a verdict has read everything. -/
theorem eq_nil_of_scan {s s' : σ} {as rest : List α}
    (h : scan step s as = (.indeterminate, s', rest)) : rest = [] := by
  induction as generalizing s with
  | nil => exact (congrArg (fun out => out.2.2) h).symm
  | cons a as ih =>
    rcases hstep : step s a with ⟨v, t⟩
    by_cases hv : v = .indeterminate
    · subst hv
      rw [scan_cons_of_indeterminate as hstep] at h
      exact ih h
    · rw [scan_cons_of_verdict as hstep hv] at h
      exact absurd (congrArg Prod.fst h) hv

/-- **Scanning in two goes**: the second begins where the first has ended, unless there
was a verdict already. -/
theorem scan_append (s : σ) (as bs : List α) :
    scan step s (as ++ bs) =
      match scan step s as with
      | (.indeterminate, s', _) => scan step s' bs
      | (v, s', rest) => (v, s', rest ++ bs) := by
  induction as generalizing s with
  | nil => rfl
  | cons a as ih =>
    rcases hstep : step s a with ⟨v, t⟩
    by_cases hv : v = .indeterminate
    · subst hv
      rw [List.cons_append, scan_cons_of_indeterminate _ hstep,
        scan_cons_of_indeterminate _ hstep, ih]
    · rw [List.cons_append, scan_cons_of_verdict _ hstep hv, scan_cons_of_verdict _ hstep hv]
      cases v with
      | indeterminate => exact absurd rfl hv
      | good => rfl
      | bad => rfl

theorem scan_append_of_indeterminate {s s' : σ} {as rest : List α} (bs : List α)
    (h : scan step s as = (.indeterminate, s', rest)) :
    scan step s (as ++ bs) = scan step s' bs := by
  rw [scan_append, h]

theorem scan_append_of_verdict {s s' : σ} {as rest : List α} {v : Verdict} (bs : List α)
    (h : scan step s as = (v, s', rest)) (hv : v ≠ .indeterminate) :
    scan step s (as ++ bs) = (v, s', rest ++ bs) := by
  rw [scan_append, h]
  cases v with
  | indeterminate => exact absurd rfl hv
  | good => rfl
  | bad => rfl

/-- **Where a word is cut makes no difference.** -/
theorem scanChunks_eq (s : σ) (cs : List (List α)) :
    scanChunks step s cs = scan step s cs.flatten := by
  induction cs generalizing s with
  | nil => rfl
  | cons c cs ih =>
    rw [scanChunks, List.flatten_cons, scan_append]
    rcases scan step s c with ⟨v, t, rest⟩
    cases v with
    | indeterminate => exact ih t
    | good => rfl
    | bad => rfl

/-- **Reading elements of one kind**: where the state is a function `f` of the elements of
this kind read so far, all of them are read. -/
theorem scan_family {f : List α → σ} {P : α → Prop}
    (hstep : ∀ w a, P a → step (f w) a = (.indeterminate, f (w ++ [a])))
    {as : List α} (has : ∀ a ∈ as, P a) (w bs : List α) :
    scan step (f w) (as ++ bs) = scan step (f (w ++ as)) bs := by
  induction as generalizing w with
  | nil => rw [List.nil_append, List.append_nil]
  | cons a as ih =>
    obtain ⟨ha, has⟩ := List.forall_mem_cons.mp has
    rw [List.cons_append, scan_cons_of_indeterminate _ (hstep w a ha), ih has, List.append_assoc,
      List.singleton_append]

/-- **The last step of a scan that is not over**: everything before it was not judged
either. -/
theorem scan_snoc_of_indeterminate {s t : σ} {as : List α} {a : α}
    (h : scan step s (as ++ [a]) = (.indeterminate, t, [])) :
    ∃ s', scan step s as = (.indeterminate, s', []) ∧ step s' a = (.indeterminate, t) := by
  rcases hscan : scan step s as with ⟨v, s', rest⟩
  by_cases hv : v = .indeterminate
  · subst hv
    obtain rfl := eq_nil_of_scan hscan
    refine ⟨s', rfl, ?_⟩
    rw [scan_append_of_indeterminate [a] hscan] at h
    rcases hstep : step s' a with ⟨w, u⟩
    by_cases hw : w = .indeterminate
    · subst hw
      rw [scan_cons_of_indeterminate [] hstep, scan_nil] at h
      obtain rfl : u = t := congrArg (fun out => out.2.1) h
      rfl
    · rw [scan_cons_of_verdict [] hstep hw] at h
      exact absurd (congrArg Prod.fst h) hw
  · rw [scan_append_of_verdict [a] hscan hv] at h
    exact absurd (congrArg Prod.fst h) hv

/-- **The invariant of a scan**: what holds of nothing and is kept by every step without a
verdict holds of whatever has been read without one. -/
theorem scan_invariant {P : List α → σ → Prop} {s : σ} (hstart : P [] s)
    (hstep : ∀ as t a u, P as t → step t a = (.indeterminate, u) → P (as ++ [a]) u)
    {as : List α} {t : σ} (h : scan step s as = (.indeterminate, t, [])) : P as t := by
  induction as using List.reverseRecOn generalizing t with
  | nil =>
    obtain rfl : s = t := congrArg (fun out => out.2.1) h
    exact hstart
  | append_singleton as a ih =>
    obtain ⟨s', hscan, ha⟩ := scan_snoc_of_indeterminate h
    exact hstep as s' a t (ih hscan) ha

/-- **What a verdict is given on**: the elements before the one that brought it, and the
state they led to. -/
theorem exists_of_scan {s t : σ} {as rest : List α} {v : Verdict}
    (h : scan step s as = (v, t, rest)) (hv : v ≠ .indeterminate) :
    ∃ before a s', as = before ++ a :: rest ∧
      scan step s before = (.indeterminate, s', []) ∧ step s' a = (v, t) := by
  induction as generalizing s with
  | nil => exact absurd (congrArg Prod.fst h).symm hv
  | cons a as ih =>
    rcases hstep : step s a with ⟨w, u⟩
    by_cases hw : w = .indeterminate
    · subst hw
      rw [scan_cons_of_indeterminate as hstep] at h
      obtain ⟨before, b, s', rfl, hscan, hb⟩ := ih h
      refine ⟨a :: before, b, s', rfl, ?_, hb⟩
      rw [scan_cons_of_indeterminate before hstep, hscan]
    · rw [scan_cons_of_verdict as hstep hw] at h
      obtain ⟨rfl, rfl, rfl⟩ : w = v ∧ u = t ∧ as = rest := by simpa using h
      exact ⟨[], a, s, rfl, rfl, hstep⟩

/-! ### The steps of a scan -/

/-- The steps a scan makes: each element that is read, and the state it is read in. -/
def steps (step : σ → α → Verdict × σ) : σ → List α → List (σ × α)
  | _, [] => []
  | s, a :: as => (s, a) ::
    match step s a with
    | (.indeterminate, s') => steps step s' as
    | _ => []

/-- The steps made on chunks. -/
def stepsChunks (step : σ → α → Verdict × σ) : σ → List (List α) → List (σ × α)
  | _, [] => []
  | s, c :: cs => steps step s c ++
    match scan step s c with
    | (.indeterminate, s', _) => stepsChunks step s' cs
    | _ => []

theorem steps_append (s : σ) (as bs : List α) :
    steps step s (as ++ bs) = steps step s as ++
      match scan step s as with
      | (.indeterminate, s', _) => steps step s' bs
      | _ => [] := by
  induction as generalizing s with
  | nil => rfl
  | cons a as ih =>
    rcases hstep : step s a with ⟨v, t⟩
    cases v with
    | indeterminate =>
      rw [List.cons_append, scan_cons_of_indeterminate _ hstep]
      simp only [steps, hstep, List.cons_append, ih]
    | good =>
      rw [List.cons_append, scan_cons_of_verdict _ hstep (by simp)]
      simp [steps, hstep]
    | bad =>
      rw [List.cons_append, scan_cons_of_verdict _ hstep (by simp)]
      simp [steps, hstep]

/-- **Where a word is cut makes no difference to the steps either.** -/
theorem stepsChunks_eq (s : σ) (cs : List (List α)) :
    stepsChunks step s cs = steps step s cs.flatten := by
  induction cs generalizing s with
  | nil => rfl
  | cons c cs ih =>
    rw [stepsChunks, List.flatten_cons, steps_append]
    rcases scan step s c with ⟨v, t, rest⟩
    cases v with
    | indeterminate => exact congrArg (steps step s c ++ ·) (ih t)
    | good => rfl
    | bad => rfl

/-- **The steps of a scan**: an element is read in the state that what is before it leads to,
if there is no verdict on that. -/
theorem mem_steps_iff {s t : σ} {as : List α} {a : α} :
    (t, a) ∈ steps step s as ↔
      ∃ before, before ++ [a] <+: as ∧ scan step s before = (.indeterminate, t, []) := by
  induction as generalizing s with
  | nil => simp [steps]
  | cons b as ih =>
    rw [steps, List.mem_cons, Prod.mk.injEq]
    rcases hstep : step s b with ⟨v, u⟩
    constructor
    · rintro (⟨rfl, rfl⟩ | hmem)
      · exact ⟨[], by simp, rfl⟩
      · cases v with
        | indeterminate =>
          obtain ⟨before, hpre, hscan⟩ := ih.mp hmem
          refine ⟨b :: before, by simpa using hpre, ?_⟩
          rw [scan_cons_of_indeterminate _ hstep, hscan]
        | good => simp at hmem
        | bad => simp at hmem
    · rintro ⟨before, hpre, hscan⟩
      cases before with
      | nil =>
        obtain rfl : s = t := congrArg (fun out => out.2.1) hscan
        exact Or.inl ⟨rfl, by simpa using hpre⟩
      | cons c before =>
        obtain ⟨rfl, hrest⟩ := List.cons_prefix_cons.mp hpre
        right
        by_cases hv : v = .indeterminate
        · subst hv
          rw [scan_cons_of_indeterminate _ hstep] at hscan
          exact ih.mpr ⟨before, hrest, hscan⟩
        · rw [scan_cons_of_verdict _ hstep hv] at hscan
          exact absurd (congrArg Prod.fst hscan) hv

/-! ### What a scanner recognizes -/

/-- **A scanner recognizes a language** of words that each stand for a value: it accepts a
word at its end, it accepts nothing else, and whatever it has not judged yet is the
beginning of a word. -/
structure Recognizes (step : σ → α → Verdict × σ) (start : σ) (Word : List α → β → Prop)
    (value : σ → β) : Prop where
  complete : ∀ w b, Word w b → ∀ t, ∃ s, scan step start (w ++ t) = (.good, s, t) ∧ value s = b
  sound : ∀ w s, scan step start w = (.good, s, []) → Word w (value s)
  live : ∀ p s, scan step start p = (.indeterminate, s, []) → ∃ t b, Word (p ++ t) b

variable {start : σ} {Word : List α → β → Prop} {value : σ → β}

/-- **When a scanner says `good`**: exactly behind the first word of the input. -/
theorem good_iff (h : Recognizes step start Word value) (input rest : List α) (b : β) :
    (∃ s, scan step start input = (.good, s, rest) ∧ value s = b) ↔
      ∃ w, Word w b ∧ input = w ++ rest := by
  constructor
  · rintro ⟨s, hscan, rfl⟩
    obtain ⟨before, a, s', rfl, hbefore, ha⟩ := exists_of_scan hscan (by simp)
    refine ⟨before ++ [a], h.sound _ _ ?_, by simp⟩
    rw [scan_append_of_indeterminate [a] hbefore, scan_cons_of_verdict [] ha (by simp)]
  · rintro ⟨w, hw, rfl⟩
    exact h.complete w b hw rest

/-- **When a scanner says `bad`**: exactly if, without a complete word before it, there is
a beginning of the input that is not the beginning of any word. -/
theorem bad_iff (h : Recognizes step start Word value) (input : List α) :
    (scan step start input).1 = .bad ↔
      ∃ p, p <+: input ∧ (∀ w b, Word w b → ¬w <+: p) ∧ ∀ w b, Word w b → ¬p <+: w := by
  constructor
  · intro hbad
    rcases hscan : scan step start input with ⟨v, s, rest⟩
    obtain rfl : v = .bad := by rw [← hbad, hscan]
    obtain ⟨before, a, s', rfl, hbefore, ha⟩ := exists_of_scan hscan (by simp)
    have hp : scan step start (before ++ [a]) = (.bad, s, []) := by
      rw [scan_append_of_indeterminate [a] hbefore, scan_cons_of_verdict [] ha (by simp)]
    refine ⟨before ++ [a], ⟨rest, by simp⟩, ?_, ?_⟩
    · rintro w b hw ⟨t, ht⟩
      obtain ⟨u, hu, -⟩ := h.complete w b hw t
      rw [ht, hp] at hu
      simp at hu
    · rintro w b hw ⟨t, rfl⟩
      obtain ⟨u, hu, -⟩ := h.complete _ b hw []
      rw [List.append_nil, scan_append_of_verdict t hp (by simp)] at hu
      simp at hu
  · rintro ⟨p, ⟨t, rfl⟩, hno, hdead⟩
    rcases hscan : scan step start p with ⟨v, s, rest⟩
    cases v with
    | indeterminate =>
      obtain rfl := eq_nil_of_scan hscan
      obtain ⟨u, b, hw⟩ := h.live p s hscan
      exact absurd ⟨u, rfl⟩ (hdead _ b hw)
    | good =>
      obtain ⟨w, hw, hpw⟩ := (good_iff h p rest _).mp ⟨s, hscan, rfl⟩
      exact absurd ⟨rest, hpw.symm⟩ (hno w _ hw)
    | bad => rw [scan_append_of_verdict t hscan (by simp)]

/-- **When a scanner waits for more**: exactly if the input is the beginning of a word, and
no word is the beginning of it. -/
theorem indeterminate_iff (h : Recognizes step start Word value) (input : List α) :
    (scan step start input).1 = .indeterminate ↔
      (∀ w b, Word w b → ¬w <+: input) ∧ ∃ w b, Word w b ∧ input <+: w := by
  rcases hscan : scan step start input with ⟨v, s, rest⟩
  cases v with
  | indeterminate =>
    obtain rfl := eq_nil_of_scan hscan
    refine iff_of_true rfl ⟨?_, ?_⟩
    · rintro w b hw ⟨t, rfl⟩
      obtain ⟨u, hu, -⟩ := h.complete w b hw t
      rw [hu] at hscan
      cases hscan
    · obtain ⟨t, b, hw⟩ := h.live input s hscan
      exact ⟨input ++ t, b, hw, List.prefix_append input t⟩
  | good =>
    obtain ⟨w, hw, rfl⟩ := (good_iff h input rest _).mp ⟨s, hscan, rfl⟩
    exact iff_of_false (by simp) fun hno => hno.1 w _ hw (List.prefix_append w rest)
  | bad =>
    obtain ⟨p, hp, -, hdead⟩ := (bad_iff h input).mp (by rw [hscan])
    refine iff_of_false (by simp) fun hno => ?_
    obtain ⟨-, w, b, hw, hinput⟩ := hno
    exact hdead w b hw (hp.trans hinput)

end Scanner
