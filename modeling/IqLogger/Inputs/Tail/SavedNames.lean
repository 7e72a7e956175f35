import IqLogger.Inputs.Tail.Positions

/-!
# The names of saved positions

The position of a file is kept in a file of its own, and the name of that file is
the path with its separators made dashes. A dash of the path stays a dash, so two
paths get one name when they differ in nothing but separators here and dashes
there (`IqLogger.Tail.getSavedPathByFileName_eq_iff`). Otherwise the calls for one
path do not touch the file of the other: the position found for a path after a
restart is the one last saved for it, for every sequence of calls, exactly when
the two paths get different names
(`IqLogger.Tail.SavePositionServer.positions_independent_iff`).

A restart moves the directory into the table as it is
(`IqLogger.Tail.SavePositionServer.lookup_init`), so all that matters is what the
directory holds under a name.
-/

namespace IqLogger

namespace Tail

/-! ### Paths with one name -/

/-- The two characters a name does not tell apart. -/
def SameInName (c d : Char) : Prop := c = d ∨ (c = '/' ∨ c = '-') ∧ (d = '/' ∨ d = '-')

instance (c d : Char) : Decidable (SameInName c d) := inferInstanceAs (Decidable (_ ∨ _))

/-- Two paths that differ in separators and dashes only. -/
def Twins (f g : String) : Prop := List.Forall₂ SameInName f.toList g.toList

instance (f g : String) : Decidable (Twins f g) := inferInstanceAs (Decidable (List.Forall₂ _ _ _))

/-- A path that begins with a separator. -/
def Absolute (f : String) : Prop := f.toList.head? = some '/'

instance (f : String) : Decidable (Absolute f) := inferInstanceAs (Decidable (_ = _))

theorem dash_eq_iff (c d : Char) :
    ((if c = '/' then '-' else c) = if d = '/' then '-' else d) ↔ SameInName c d := by
  rw [SameInName]
  split_ifs with hc hd hd
  · simp [hc, hd]
  · have hne : d ≠ '/' := hd
    constructor
    · rintro rfl
      exact Or.inr ⟨Or.inl hc, Or.inr rfl⟩
    · rintro (h | ⟨-, h | h⟩)
      · exact absurd (h.symm.trans hc) hne
      · exact absurd h hne
      · exact h.symm
  · constructor
    · rintro rfl
      exact Or.inr ⟨Or.inr rfl, Or.inl hd⟩
    · rintro (h | ⟨h | h, -⟩)
      · exact absurd (h.trans hd) hc
      · exact absurd h hc
      · exact h
  · constructor
    · exact Or.inl
    · rintro (h | ⟨h | h, h' | h'⟩)
      · exact h
      · exact absurd h hc
      · exact absurd h hc
      · exact absurd h' hd
      · exact h.trans h'.symm

/-- **When two paths get one name.** -/
theorem getSavedPathByFileName_eq_iff {f g : String} (hf : Absolute f) (hg : Absolute g) :
    getSavedPathByFileName f = getSavedPathByFileName g ↔ Twins f g := by
  obtain ⟨l, hl⟩ := List.head?_eq_some_iff.mp hf
  obtain ⟨k, hk⟩ := List.head?_eq_some_iff.mp hg
  have hmap : ∀ l k : List Char, (l.map fun c => if c = '/' then '-' else c) =
      (k.map fun c => if c = '/' then '-' else c) ↔ List.Forall₂ SameInName l k := by
    intro l
    induction l with
    | nil => intro k; cases k <;> simp
    | cons c l ih =>
      intro k
      cases k with
      | nil => simp
      | cons d k => rw [List.map_cons, List.map_cons, List.cons.injEq, dash_eq_iff, ih,
          List.forall₂_cons]
  -- both paths begin with a separator, which the name is without
  rw [getSavedPathByFileName, getSavedPathByFileName, String.ofList_inj, Twins, hl, hk]
  show (l.map _ = k.map _) ↔ _
  rw [hmap, List.forall₂_cons]
  exact ⟨fun h => ⟨Or.inl rfl, h⟩, And.right⟩

namespace SavePositionServer

/-! ### What a restart finds -/

variable (s : SavePositionServer)

/-- Loading the files of some names. -/
theorem lookup_foldl_loadFile : ∀ (names : List String), names.Nodup → ∀ (s : SavePositionServer),
    (∀ k ∈ names, k ∉ s.savedPointersTable ∧ k ∈ s.dataDir) → ∀ k,
    ((names.foldl loadFile s).savedPointersTable.lookup k =
        if k ∈ names then s.dataDir.lookup k else s.savedPointersTable.lookup k) ∧
      (names.foldl loadFile s).dataDir.lookup k =
        if k ∈ names then none else s.dataDir.lookup k
  | [], _, s, _, k => by simp
  | name :: names, hnodup, s, h, k => by
    obtain ⟨hname, hnodup⟩ := List.nodup_cons.mp hnodup
    obtain ⟨htable, hdir⟩ := h name List.mem_cons_self
    have hload : s.loadFile name = ⟨s.savedPointersTable.insert name
        ((s.dataDir.lookup name).getD 0), s.dataDir.erase name⟩ := by
      rw [loadFile, if_neg htable]
    obtain ⟨v, hv⟩ := Option.isSome_iff_exists.mp (AList.lookup_isSome.mpr hdir)
    obtain ⟨hrest, hrest'⟩ := lookup_foldl_loadFile names hnodup (s.loadFile name)
      (fun j hj => by
        have hne : j ≠ name := fun hc => hname (hc ▸ hj)
        obtain ⟨hj1, hj2⟩ := h j (List.mem_cons_of_mem _ hj)
        rw [hload]
        exact ⟨by simp [hne, hj1], by simp [hne, hj2]⟩) k
    rw [List.foldl_cons, hrest, hrest', hload]
    by_cases hk : k = name
    · subst hk
      simp [hname, AList.lookup_insert, hv]
    · simp [hk, AList.lookup_insert_ne hk, AList.lookup_erase_ne hk]

/-- **A start loads the directory**, all of it, and empties it. -/
theorem lookup_init (dataDir : AList fun _ : String => Int) (k : String) :
    (init dataDir).savedPointersTable.lookup k = dataDir.lookup k ∧
      (init dataDir).dataDir.lookup k = none := by
  have h := lookup_foldl_loadFile dataDir.keys dataDir.keys_nodup ⟨∅, dataDir⟩
    (fun j hj => ⟨AList.notMem_empty j, AList.mem_keys.mpr hj⟩) k
  rw [init, h.1, h.2]
  by_cases hk : k ∈ dataDir.keys
  · rw [if_pos hk, if_pos hk]
    exact ⟨rfl, rfl⟩
  · have hnone : dataDir.lookup k = none :=
      AList.lookup_eq_none.mpr fun hc => hk (AList.mem_keys.mp hc)
    rw [if_neg hk, if_neg hk, hnone]
    exact ⟨rfl, rfl⟩

/-- The position a restart finds for a path is what the directory holds under its
name. -/
theorem getSavedPosition_init (dataDir : AList fun _ : String => Int) (f : String) :
    (init dataDir).getSavedPosition f =
      (dataDir.lookup (getSavedPathByFileName f)).getD 0 := by
  rw [getSavedPosition, (lookup_init dataDir _).1]

end SavePositionServer

/-! ### Calls for two paths -/

/-- A call that changes the directory. -/
inductive PositionOp where
  | save (filename : String) (position : Int) : PositionOp
  | erase (filename : String) : PositionOp
  deriving DecidableEq, Repr

namespace PositionOp

/-- The path a call is for. -/
def filename : PositionOp → String
  | save f _ => f
  | erase f => f

/-- The call. -/
def apply (s : SavePositionServer) : PositionOp → SavePositionServer
  | save f position => s.savePosition f position
  | erase f => s.erasePosition f

/-- What a call says about the path `f`, given what was said before. -/
def effectOn (f : String) (before : Int) : PositionOp → Int
  | save g position => if g = f then position else before
  | erase g => if g = f then 0 else before

end PositionOp

/-- The position last saved for `f`, or 0 if none was, or if it was erased last. -/
def lastSaved (f : String) (calls : List PositionOp) : Int :=
  calls.foldl (PositionOp.effectOn f) 0

namespace SavePositionServer

/-- One call: what the directory holds under the name of `f`, if the call is for
`f` or for a path with another name. -/
theorem lookup_apply {f : String} {s : SavePositionServer} {before : Int} (op : PositionOp)
    (hop : op.filename = f ∨
      getSavedPathByFileName op.filename ≠ getSavedPathByFileName f)
    (h : (s.dataDir.lookup (getSavedPathByFileName f)).getD 0 = before) :
    ((op.apply s).dataDir.lookup (getSavedPathByFileName f)).getD 0 = op.effectOn f before := by
  have hne : ∀ g, getSavedPathByFileName g ≠ getSavedPathByFileName f → g ≠ f :=
    fun _ h hc => h (congrArg _ hc)
  cases op with
  | save g position =>
    rcases hop with rfl | hname
    · simp [PositionOp.apply, savePosition, PositionOp.effectOn, PositionOp.filename,
        AList.lookup_insert]
    · rw [PositionOp.effectOn, if_neg (hne g hname), ← h]
      exact congrArg (fun p : Option Int => p.getD 0) (AList.lookup_insert_ne (Ne.symm hname))
  | erase g =>
    rcases hop with rfl | hname
    · simp [PositionOp.apply, erasePosition, PositionOp.effectOn, PositionOp.filename,
        AList.lookup_erase]
    · rw [PositionOp.effectOn, if_neg (hne g hname), ← h]
      exact congrArg (fun p : Option Int => p.getD 0) (AList.lookup_erase_ne (Ne.symm hname))

/-- **Saved positions are independent exactly when the names differ.** Let `f` and
`g` be distinct absolute paths. After every sequence of calls for the two, on a
server that was started on any directory, and a restart, the position found for
`f` is the one last saved for it, or 0 if there is none or it was erased last; if
and only if `f` and `g` differ in more than separators and dashes. -/
theorem positions_independent_iff {f g : String} (hf : Absolute f) (hg : Absolute g)
    (hne : f ≠ g) :
    (∀ (dataDir : AList fun _ : String => Int) (calls : List PositionOp),
        (∀ op ∈ calls, op.filename = f ∨ op.filename = g) →
        (init (calls.foldl PositionOp.apply (init dataDir)).dataDir).getSavedPosition f =
          lastSaved f calls) ↔
      ¬Twins f g := by
  rw [← getSavedPathByFileName_eq_iff hf hg]
  constructor
  · intro h heq
    -- what is saved for `g` last is found for `f`
    have hcalls := h ∅ [.save f 1, .save g 2] (by simp [PositionOp.filename])
    rw [getSavedPosition_init] at hcalls
    simp only [List.foldl_cons, List.foldl_nil, PositionOp.apply, savePosition, lastSaved,
      PositionOp.effectOn, if_true, if_neg (Ne.symm hne)] at hcalls
    rw [heq, AList.lookup_insert, Option.getD_some] at hcalls
    omega
  · intro hname dataDir calls hcalls
    rw [getSavedPosition_init, lastSaved]
    -- every call is for `f` or for another name, so the entry of `f` follows the calls for `f`
    have hfold : ∀ (calls : List PositionOp) {s : SavePositionServer} {before : Int},
        (∀ op ∈ calls, op.filename = f ∨ op.filename = g) →
        (s.dataDir.lookup (getSavedPathByFileName f)).getD 0 = before →
        ((calls.foldl PositionOp.apply s).dataDir.lookup (getSavedPathByFileName f)).getD 0 =
          calls.foldl (PositionOp.effectOn f) before := by
      intro calls
      induction calls with
      | nil => exact fun _ h => h
      | cons op calls ih =>
        intro s before hcalls h
        refine ih (fun o ho => hcalls o (List.mem_cons_of_mem _ ho)) (lookup_apply op ?_ h)
        rcases hcalls op List.mem_cons_self with hop | hop
        · exact Or.inl hop
        · exact Or.inr fun hc => hname (hop ▸ hc.symm)
    refine hfold calls hcalls ?_
    rw [(lookup_init dataDir _).2]
    rfl

/-- Two paths with different names. -/
theorem positions_independent_iff_logs :
    (init ([.save "/var/log/a" 7, .save "/var/log/b" 9, .erase "/var/log/b"].foldl
      PositionOp.apply (init ∅)).dataDir).getSavedPosition "/var/log/a" = 7 :=
  (positions_independent_iff (f := "/var/log/a") (g := "/var/log/b") (by decide) (by decide)
    (by decide)).mpr (by decide) ∅ _ (by decide)

/-- A directory and a dash: the position of one file is found for the other. -/
theorem positions_of_twins :
    (init ([.save "/logs/a" 7, .save "/logs-a" 9].foldl PositionOp.apply
        (init ∅)).dataDir).getSavedPosition "/logs/a" ≠
      lastSaved "/logs/a" [.save "/logs/a" 7, .save "/logs-a" 9] := by
  decide

end SavePositionServer

end Tail

end IqLogger
