import IqLogger.Inputs.Tail.Watch
import IqLogger.Lib.TextPatterns

/-!
# Patterns of directories

To watch all files of a directory, `makeWatchPath` makes a pattern of the path: the
path as it stands, a separator, and `(.*)`. Every file name is then matched as a
whole, against this pattern, as a regular expression of ECMAScript
(`EcmaScript.regexMatch`).

The path means itself in the pattern only if none of its characters is an operator
of regular expressions. The main result, `IqLogger.Tail.InotifyServer.accepts_iff`,
says that this is enough, for an entry that is one line, in a path that does not end
with a separator, and that it is also needed, unless an operator of the path gets the
chance to stand for another one: a quantifier behind a dot, a parenthesis or a
separator, an escape, a class, a number in braces, an alternative.
-/

namespace IqLogger

namespace Tail

namespace InotifyServer

open EcmaScript

/-- **A watch accepts an entry** of its directory: `Watch::notify` finds it to match,
and so does the scan. A pattern that is no regular expression makes no watch, and
matches nothing here. -/
def Accepts (watch : Watch) (name : String) : Prop :=
  watch.Matches regexMatch name ∧
    regexMatch watch.pattern (joinPath watch.directory name) = true

/-- A path that means itself in a pattern: without operators, and without a
separator at its end. -/
structure Plain (path : String) : Prop where
  nonempty : path ≠ ""
  chars : ∀ c ∈ path.toList, isLiteral c = true
  last : path.toList.getLast? ≠ some '/'

/-- A name that is one line. -/
def OneLine (name : String) : Prop := ∀ c ∈ name.toList, isLineTerminator c = false

theorem watchOf_directory {fs : FileTree} {path : String} (hdirectory : fs.isDirectory path = true)
    (watchDescriptor : ℕ) (notifier : Notifier) :
    watchOf fs path watchDescriptor notifier =
      ⟨watchDescriptor, path, path ++ "/(.*)", notifier⟩ := by
  rw [watchOf, makeWatchPath, if_pos hdirectory]

/-- The pattern of a path, character by character. -/
theorem append_pattern (path : String) :
    path ++ "/(.*)" = String.ofList (path.toList ++ '/' :: ['(', '.', '*', ')']) := by
  rw [← String.toList_inj]
  simp

theorem append_name (path name : String) :
    path ++ "/" ++ name = String.ofList (path.toList ++ '/' :: name.toList) := by
  rw [← String.toList_inj]
  simp

/-- **A plain path matches its entries.** -/
theorem regexMatch_plain {path name : String} (hpath : ∀ c ∈ path.toList, isLiteral c = true)
    (hname : OneLine name) : regexMatch (path ++ "/(.*)") (path ++ "/" ++ name) = true := by
  have hliteral : ∀ c ∈ path.toList ++ ['/'], isLiteral c = true := by
    intro c hc
    rcases List.mem_append.mp hc with hc | hc
    · exact hpath c hc
    · obtain rfl := List.mem_singleton.mp hc
      rfl
  have hmatch := regexMatch_literals hliteral hname
  rw [List.append_assoc, List.append_assoc] at hmatch
  rwa [append_pattern, append_name]

/-- The last separator is where the name begins. -/
theorem append_cons_inj {z p v n : List Char} (h : z ++ '/' :: v = p ++ '/' :: n)
    (hv : '/' ∉ v) (hn : '/' ∉ n) : z = p ∧ v = n := by
  rcases List.append_eq_append_iff.mp h with ⟨u, rfl, hrest⟩ | ⟨u, rfl, hrest⟩
  · rcases u with _ | ⟨c, u⟩
    · exact ⟨(List.append_nil z).symm, (List.cons.inj hrest).2⟩
    · exact absurd (by simp [(List.cons.inj hrest).2]) hv
  · rcases u with _ | ⟨c, u⟩
    · exact ⟨List.append_nil p, (List.cons.inj hrest).2.symm⟩
    · exact absurd (by simp [(List.cons.inj hrest).2]) hn

/-- No operator is among the characters if each of them that has a meaning of its own
is a dot. -/
theorem isLiteral_of_count {p : List Char} (h : p.countP isSyntaxCharacter ≤ p.count '.') :
    ∀ c ∈ p, isLiteral c = true := by
  have hsplit : p.countP isSyntaxCharacter =
      p.count '.' + p.countP fun c => !isLiteral c := by
    clear h
    induction p with
    | nil => rfl
    | cons c p ih =>
      rw [List.countP_cons, List.countP_cons, List.count_cons, ih]
      by_cases hdot : c = '.'
      · subst hdot
        simp [isSyntaxCharacter, isLiteral]
        omega
      · cases hsyntax : isSyntaxCharacter c with
        | false => simp [isLiteral, hsyntax, hdot]
        | true =>
          simp [isLiteral, hsyntax, hdot]
          omega
  have hzero : (p.countP fun c => !isLiteral c) = 0 := by omega
  intro c hc
  simpa using List.countP_eq_zero.mp hzero c hc

/-- What a rigid path accepts: the path has no operators, the name is one line. -/
theorem plain_of_regexMatch {path name : String} (hpath : Rigid '/' path.toList)
    (hname : '/' ∉ name.toList)
    (h : regexMatch (path ++ "/(.*)") (path ++ "/" ++ name) = true) :
    (∀ c ∈ path.toList, isLiteral c = true) ∧ OneLine name := by
  rw [append_pattern, append_name] at h
  obtain ⟨z, v, hsplit, hcount, hsyntax, hline⟩ := exists_split rfl hpath h
  -- all separators but the last are needed for the path itself
  have hseparators := congrArg (List.count '/') hsplit
  rw [List.count_append, List.count_append, List.count_cons_self, List.count_cons_self,
    List.count_eq_zero_of_not_mem hname] at hseparators
  have hv : '/' ∉ v := List.count_eq_zero.mp (by omega)
  obtain ⟨hz, rfl⟩ := append_cons_inj hsplit hname hv
  rw [← hz] at hsyntax
  exact ⟨isLiteral_of_count hsyntax, hline⟩

/-- The scan of a path with a separator at its end finds no entry to match: the
pattern has one separator too many. -/
theorem joinPath_of_regexMatch {path name : String} (hpath : Rigid '/' path.toList)
    (hname : '/' ∉ name.toList)
    (h : regexMatch (path ++ "/(.*)") (joinPath path name) = true) :
    path ≠ "" ∧ path.toList.getLast? ≠ some '/' := by
  by_contra hnot
  have hjoin : joinPath path name = String.ofList (path.toList ++ name.toList) := by
    rw [joinPath, if_pos (by tauto), ← String.toList_inj]
    simp
  rw [append_pattern, hjoin] at h
  obtain ⟨z, v, hsplit, hcount, -, -⟩ := exists_split rfl hpath h
  have hseparators := congrArg (List.count '/') hsplit
  rw [List.count_append, List.count_append, List.count_cons_self,
    List.count_eq_zero_of_not_mem hname] at hseparators
  omega

/-- **When a watched directory accepts an entry**: when its path is plain and the name
of the entry is one line; and only then, if no operator of the path can stand for
another one. -/
theorem accepts_iff (fs : FileTree) (path : String) (hdirectory : fs.isDirectory path = true)
    (watchDescriptor : ℕ) (notifier : Notifier) (name : String) (hname : '/' ∉ name.toList) :
    (Plain path ∧ OneLine name → Accepts (watchOf fs path watchDescriptor notifier) name) ∧
      (Rigid '/' path.toList →
        (Accepts (watchOf fs path watchDescriptor notifier) name ↔ Plain path ∧ OneLine name)) := by
  rw [watchOf_directory hdirectory]
  have hplain : Plain path ∧ OneLine name →
      Accepts ⟨watchDescriptor, path, path ++ "/(.*)", notifier⟩ name := by
    rintro ⟨hpath, hline⟩
    have hmatch := regexMatch_plain hpath.chars hline
    refine ⟨hmatch, ?_⟩
    dsimp only
    rwa [joinPath, if_neg (not_or.mpr ⟨hpath.nonempty, hpath.last⟩)]
  refine ⟨hplain, fun hrigid => ⟨?_, hplain⟩⟩
  rintro ⟨hnotify, hscan⟩
  obtain ⟨hchars, hline⟩ := plain_of_regexMatch hrigid hname hnotify
  obtain ⟨hnonempty, hlast⟩ := joinPath_of_regexMatch hrigid hname hscan
  exact ⟨⟨hnonempty, hchars, hlast⟩, hline⟩

section Example

/-- A directory with a plain path accepts an entry. -/
theorem accepts_plain :
    Accepts (watchOf ⟨fun path => path == "/var/log", fun _ => none, fun _ => some ["sys.log"]⟩
      "/var/log" 1 (.monitor 1)) "sys.log" := by
  have hchars : "/var/log".toList.all isLiteral = true := rfl
  have hline : ("sys.log".toList.all fun c => !isLineTerminator c) = true := rfl
  refine (accepts_iff _ "/var/log" rfl 1 (.monitor 1) "sys.log" (by decide)).1
    ⟨⟨by decide, List.all_eq_true.mp hchars, by decide⟩, fun c hc => ?_⟩
  simpa using List.all_eq_true.mp hline c hc

/-- **A directory does not accept its entry**: in a pattern, `a+` matches the letter
and not the sign behind it. -/
theorem operator_in_path_refuses :
    ¬∀ (fs : FileTree) (path : String) (watchDescriptor : ℕ) (notifier : Notifier) (name : String),
      fs.isDirectory path = true → '\n' ∉ path.toList → '\n' ∉ name.toList → '/' ∉ name.toList →
      (watchOf fs path watchDescriptor notifier).Matches regexMatch name := by
  intro h
  have h := h ⟨fun path => path == "/a+b", fun _ => none, fun _ => some ["f"]⟩ "/a+b" 1
    (.monitor 1) "f" rfl (by decide) (by decide) (by decide)
  have hrefused : regexMatch "/a+b/(.*)" "/a+b/f" = false := by decide +kernel
  exact absurd (h.symm.trans hrefused) (by decide)

end Example

end InotifyServer

end Tail

end IqLogger
