import IqLogger.Inputs.Tail.SavedNames

/-!
# Saved positions and runs that end anywhere

A run of the program can end at any moment, and the directory with the saved
positions is then left as it is. So a run is described here by the steps it makes
on the directory, each of which happens as a whole (`IqLogger.Tail.DirStep`): the
start reads every file of the directory and removes it, and a save first empties
the file and then writes the position. A run that is stopped or killed has made the
first of these steps (`IqLogger.Tail.Run.steps`), however many; when it gets to its
end, the steps add up to the calls of the server
(`IqLogger.Tail.represents_startUp`, `IqLogger.Tail.represents_apply`).

What a start finds for a file depends on the last step that touched its state file
alone (`IqLogger.Tail.lookup_foldl_apply`). If that was a removal or the emptying
of the file, the position is lost; the start itself removes, and only a later
`process` of the file saves again. The main result
(`IqLogger.Tail.resumes_iff`) says exactly when a file is resumed where it was.
-/

namespace IqLogger

namespace Tail

/-! ### Steps -/

/-- The directory with the saved positions. A file that was emptied and not yet
written holds none. -/
abbrev StateDir := AList fun _ : String => Option Int

/-- A step on the directory. -/
inductive DirStep where
  /-- `initImpl` reads a file and puts its position in the table. -/
  | load (name : String) : DirStep
  /-- `initImpl` removes a file. -/
  | remove (name : String) : DirStep
  /-- `savePosition` opens the file, which empties it. -/
  | openFile (filename : String) : DirStep
  /-- `savePosition` writes the position. -/
  | write (filename : String) (position : Int) : DirStep
  /-- `erasePosition` removes the file. -/
  | erase (filename : String) : DirStep
  deriving DecidableEq, Repr

/-- The table of a run, and the directory. -/
structure RunState where
  table : AList fun _ : String => Int
  dir : StateDir

/-- `getSavedPosition`. -/
def RunState.getSavedPosition (s : RunState) (filename : String) : Int :=
  (s.table.lookup (getSavedPathByFileName filename)).getD 0

/-- What a step does. Of a file without a position nothing is read, and the
position stays 0. -/
def DirStep.apply (s : RunState) : DirStep → RunState
  | load name =>
    -- `insert` keeps an entry of the same name
    if name ∈ s.table then s
    else { s with table := s.table.insert name ((s.dir.lookup name).join.getD 0) }
  | remove name => { s with dir := s.dir.erase name }
  | openFile filename => { s with dir := s.dir.insert (getSavedPathByFileName filename) none }
  | write filename position =>
    { s with dir := s.dir.insert (getSavedPathByFileName filename) (some position) }
  | erase filename => { s with dir := s.dir.erase (getSavedPathByFileName filename) }

/-- The steps of `initImpl`. -/
def initSteps (dir : StateDir) : List DirStep :=
  dir.keys.flatMap fun name => [.load name, .remove name]

/-- The steps of a call. -/
def PositionOp.steps : PositionOp → List DirStep
  | .save f position => [.openFile f, .write f position]
  | .erase f => [.erase f]

/-- `initImpl`, to its end. -/
def startUp (dir : StateDir) : RunState := (initSteps dir).foldl DirStep.apply ⟨∅, dir⟩

/-- A run of the program: the calls it would make after the start, and after how
many steps it ends. -/
structure Run where
  calls : List PositionOp
  length : ℕ

/-- The steps a run makes. -/
def Run.steps (dir : StateDir) (r : Run) : List DirStep :=
  (initSteps dir ++ r.calls.flatMap PositionOp.steps).take r.length

/-- The directory a run leaves. -/
def Run.finish (dir : StateDir) (r : Run) : StateDir :=
  ((r.steps dir).foldl DirStep.apply ⟨∅, dir⟩).dir

/-- The steps of all runs, one run after the other. -/
def history : StateDir → List Run → List DirStep
  | _, [] => []
  | dir, r :: runs => r.steps dir ++ history (r.finish dir) runs

/-! ### Complete starts and calls -/

/-- A state of a run in which every file holds a position is one of the server. -/
structure Represents (s : RunState) (server : SavePositionServer) : Prop where
  table : ∀ k, s.table.lookup k = server.savedPointersTable.lookup k
  dir : ∀ k, s.dir.lookup k = (server.dataDir.lookup k).map some

/-- The steps of `initImpl` for some names. -/
theorem foldl_initSteps : ∀ (names : List String), names.Nodup → ∀ (s : RunState),
    (∀ k ∈ names, k ∉ s.table) → ∀ k,
    (((names.flatMap fun name => [DirStep.load name, .remove name]).foldl DirStep.apply
          s).table.lookup k =
        if k ∈ names then some ((s.dir.lookup k).join.getD 0) else s.table.lookup k) ∧
      ((names.flatMap fun name => [DirStep.load name, .remove name]).foldl DirStep.apply
          s).dir.lookup k =
        if k ∈ names then none else s.dir.lookup k
  | [], _, s, _, k => by simp
  | name :: names, hnodup, s, h, k => by
    obtain ⟨hname, hnodup⟩ := List.nodup_cons.mp hnodup
    have hload : DirStep.apply (DirStep.apply s (.load name)) (.remove name) =
        ⟨s.table.insert name ((s.dir.lookup name).join.getD 0), s.dir.erase name⟩ := by
      simp [DirStep.apply, h name]
    obtain ⟨hrest, hrest'⟩ := foldl_initSteps names hnodup
      ⟨s.table.insert name ((s.dir.lookup name).join.getD 0), s.dir.erase name⟩
      (fun j hj => by
        have hne : j ≠ name := fun hc => hname (hc ▸ hj)
        simp [hne, h j (List.mem_cons_of_mem _ hj)]) k
    rw [List.flatMap_cons, List.foldl_append, List.foldl_cons, List.foldl_cons, List.foldl_nil,
      hload, hrest, hrest']
    by_cases hk : k = name
    · subst hk
      simp [hname, AList.lookup_insert]
    · simp [hk, AList.lookup_insert_ne hk, AList.lookup_erase_ne hk]

/-- **What a start finds**: the positions in the directory, which it leaves
empty. -/
theorem startUp_spec (dir : StateDir) (k : String) :
    ((startUp dir).table.lookup k).getD 0 = (dir.lookup k).join.getD 0 ∧
      (startUp dir).dir.lookup k = none := by
  have h := foldl_initSteps dir.keys dir.keys_nodup ⟨∅, dir⟩ (fun j _ => AList.notMem_empty j) k
  rw [startUp, initSteps, h.1, h.2]
  by_cases hk : k ∈ dir.keys
  · rw [if_pos hk, if_pos hk]
    exact ⟨rfl, rfl⟩
  · have hnone : dir.lookup k = none :=
      AList.lookup_eq_none.mpr fun hc => hk (AList.mem_keys.mp hc)
    rw [if_neg hk, if_neg hk, hnone]
    exact ⟨rfl, rfl⟩

/-- **A start that gets to its end is that of the server.** -/
theorem represents_startUp {dir : StateDir} {dataDir : AList fun _ : String => Int}
    (h : ∀ k, dir.lookup k = (dataDir.lookup k).map some) :
    Represents (startUp dir) (SavePositionServer.init dataDir) where
  table k := by
    have hfold := foldl_initSteps dir.keys dir.keys_nodup ⟨∅, dir⟩
      (fun j _ => AList.notMem_empty j) k
    rw [startUp, initSteps, hfold.1, (SavePositionServer.lookup_init dataDir k).1]
    by_cases hk : k ∈ dir.keys
    · obtain ⟨v, hv⟩ := Option.isSome_iff_exists.mp
        (AList.lookup_isSome.mpr (AList.mem_keys.mpr hk))
      have hdata := h k
      rw [hv] at hdata
      obtain ⟨p, hp, rfl⟩ := Option.map_eq_some_iff.mp hdata.symm
      simp [hk, hv, hp]
    · have hnone : dir.lookup k = none :=
        AList.lookup_eq_none.mpr fun hc => hk (AList.mem_keys.mp hc)
      have hdata := h k
      rw [hnone] at hdata
      rw [if_neg hk, Option.map_eq_none_iff.mp hdata.symm]
      rfl
  dir k := by rw [(startUp_spec dir k).2, (SavePositionServer.lookup_init dataDir k).2]; rfl

/-- **A call that gets to its end is that of the server.** -/
theorem represents_apply {s : RunState} {server : SavePositionServer} (h : Represents s server)
    (op : PositionOp) : Represents (op.steps.foldl DirStep.apply s) (op.apply server) := by
  cases op with
  | save f position =>
    refine ⟨h.table, fun k => ?_⟩
    simp only [PositionOp.steps, List.foldl_cons, List.foldl_nil, DirStep.apply, PositionOp.apply,
      SavePositionServer.savePosition, AList.insert_insert]
    rw [AList.lookup_insert_apply, AList.lookup_insert_apply, h.dir k]
    split_ifs <;> rfl
  | erase f =>
    refine ⟨h.table, fun k => ?_⟩
    simp only [PositionOp.steps, List.foldl_cons, List.foldl_nil, DirStep.apply, PositionOp.apply,
      SavePositionServer.erasePosition]
    rw [AList.lookup_erase_apply, AList.lookup_erase_apply, h.dir k]
    split_ifs <;> rfl

/-! ### The last step on a state file -/

/-- The state file a step changes. -/
def DirStep.stateFile : DirStep → Option String
  | load _ => none
  | remove name => some name
  | openFile f => some (getSavedPathByFileName f)
  | write f _ => some (getSavedPathByFileName f)
  | erase f => some (getSavedPathByFileName f)

/-- The position a step leaves in the state file it touches. -/
def DirStep.left : DirStep → Option Int
  | write _ position => some position
  | _ => none

/-- The last of some steps on the state file of `f`. -/
def lastTouch (f : String) (steps : List DirStep) : Option DirStep :=
  (steps.filter fun step => step.stateFile = some (getSavedPathByFileName f)).getLast?

/-- The position last saved for `f` by some steps. -/
def lastWritten (f : String) (steps : List DirStep) : Option Int :=
  (steps.filterMap fun | .write g position => if g = f then some position else none
                       | _ => none).getLast?

/-- A step, on the state file of a name. -/
theorem lookup_apply_step (s : RunState) (step : DirStep) (name : String) :
    ((step.apply s).dir.lookup name).join =
      if step.stateFile = some name then step.left else (s.dir.lookup name).join := by
  have hinsert : ∀ (f : String) (v : Option Int),
      ((s.dir.insert (getSavedPathByFileName f) v).lookup name).join =
        if some (getSavedPathByFileName f) = some name then v
        else (s.dir.lookup name).join := by
    intro f v
    rw [AList.lookup_insert_apply]
    simp only [Option.some_inj, eq_comm (a := name)]
    split_ifs <;> rfl
  have herase : ∀ n : String, ((s.dir.erase n).lookup name).join =
      if some n = some name then none else (s.dir.lookup name).join := by
    intro n
    rw [AList.lookup_erase_apply]
    simp only [Option.some_inj, eq_comm (a := name)]
    split_ifs <;> rfl
  cases step with
  | load n =>
    have hnot : ¬DirStep.stateFile (.load n) = some name := by
      rintro ⟨⟩
    rw [if_neg hnot, DirStep.apply]
    split_ifs <;> rfl
  | remove n => exact herase n
  | openFile f => exact hinsert f none
  | write f position => exact hinsert f (some position)
  | erase f => exact herase _

/-- **Only the last step on a state file matters.** -/
theorem lookup_foldl_apply (f : String) (steps : List DirStep) (s : RunState) :
    ((steps.foldl DirStep.apply s).dir.lookup (getSavedPathByFileName f)).join =
      match lastTouch f steps with
      | some step => step.left
      | none => (s.dir.lookup (getSavedPathByFileName f)).join := by
  induction steps using List.reverseRecOn with
  | nil => rfl
  | append_singleton steps step ih =>
    rw [List.foldl_append, List.foldl_cons, List.foldl_nil, lookup_apply_step, lastTouch,
      List.filter_append]
    split_ifs with h
    · simp [h]
    · rw [ih]
      simp [h, lastTouch]

theorem lastTouch_append (f : String) (steps more : List DirStep) :
    lastTouch f (steps ++ more) = (lastTouch f more).or (lastTouch f steps) := by
  rw [lastTouch, List.filter_append, List.getLast?_append, lastTouch, lastTouch]

theorem lastWritten_append (f : String) (steps more : List DirStep) :
    lastWritten f (steps ++ more) = (lastWritten f more).or (lastWritten f steps) := by
  rw [lastWritten, List.filterMap_append, List.getLast?_append, lastWritten, lastWritten]

/-- A save of `f` touches the state file, and if it is the last to do so, it is
the last save. -/
theorem lastWritten_of_lastTouch (f : String) (steps : List DirStep) :
    (lastTouch f steps = none → lastWritten f steps = none) ∧
      ∀ p, lastTouch f steps = some (.write f p) → lastWritten f steps = some p := by
  induction steps using List.reverseRecOn with
  | nil => exact ⟨fun _ => rfl, fun p h => by simp [lastTouch] at h⟩
  | append_singleton steps step ih =>
    rw [lastTouch_append, lastWritten_append]
    -- a step on the state file hides all before it; another one is no save of `f`
    by_cases htouch : step.stateFile = some (getSavedPathByFileName f)
    · have hlast : lastTouch f [step] = some step := by simp [lastTouch, htouch]
      rw [hlast, Option.some_or]
      refine ⟨fun h => by simp at h, fun p h => ?_⟩
      rw [Option.some_inj.mp h]
      simp [lastWritten]
    · have hlast : lastTouch f [step] = none := by simp [lastTouch, htouch]
      have hwritten : lastWritten f [step] = none := by
        cases step with
        | write g p =>
          have hne : g ≠ f := fun hc => htouch (by rw [hc]; rfl)
          simp [lastWritten, hne]
        | _ => rfl
      rw [hlast, hwritten, Option.none_or, Option.none_or]
      exact ih

/-- The directory after some runs, under the name of `f`. -/
theorem lookup_foldl_finish (f : String) : ∀ (runs : List Run) (dir : StateDir),
    ((runs.foldl Run.finish dir).lookup (getSavedPathByFileName f)).join =
      match lastTouch f (history dir runs) with
      | some step => step.left
      | none => (dir.lookup (getSavedPathByFileName f)).join
  | [], _ => rfl
  | r :: runs, dir => by
    have hrun : ((r.finish dir).lookup (getSavedPathByFileName f)).join =
        match lastTouch f (r.steps dir) with
        | some step => step.left
        | none => (dir.lookup (getSavedPathByFileName f)).join :=
      lookup_foldl_apply f (r.steps dir) ⟨∅, dir⟩
    rw [List.foldl_cons, lookup_foldl_finish f runs, hrun, history, lastTouch_append]
    cases lastTouch f (history (r.finish dir) runs) <;> rfl

/-! ### Where a file is resumed -/

/-- **A run that keeps the position of `f`**: if it touches the state file at all,
the last thing it does to it is to write a position of `f`. -/
def Run.Keeps (f : String) (dir : StateDir) (r : Run) : Prop :=
  ∀ step, lastTouch f (r.steps dir) = some step → ∃ p, step = .write f p

/-- After runs that keep the position, the last step on the state file is the
last save of `f`. -/
theorem lastTouch_history (f : String) : ∀ (runs : List Run) (dir : StateDir),
    Machine.Along Run.finish (Run.Keeps f) dir runs →
    ∀ step, lastTouch f (history dir runs) = some step → ∃ p, step = .write f p
  | [], _, _, step, h => by simp [history, lastTouch] at h
  | r :: runs, dir, ⟨hr, hruns⟩, step, h => by
    rw [history, lastTouch_append] at h
    rcases Option.or_eq_some_iff.mp h with h | ⟨-, h⟩
    · exact lastTouch_history f runs _ hruns step h
    · exact hr step h

/-- **Where a file is resumed after any runs.** Whatever is in the directory at
first, and however many steps each of the runs makes before it ends: let `p` be the
position last saved for a file. If each run keeps the position, that is, if it ends
before the start has removed the state file, or if the last thing it does to it is
a complete save of the file, then the record the next start makes for the file
begins at `p`. More exactly, it does so if and only if the last step on the state
file in all of these runs has written `p`, or it has written nothing and `p` is
0. -/
theorem resumes_iff (dir : StateDir) (runs : List Run) (source : TailSource) (fileDescriptor : ℕ)
    (re : Option DelimiterRegex) (mode : StateMode) (hmode : mode.saveState = true)
    (symlinkPath : Option String) {p : Int}
    (hsaved : lastWritten source.filename (history dir runs) = some p) :
    let resumed := (PointersTableInternalRecord.create source fileDescriptor re mode symlinkPath
      ((startUp (runs.foldl Run.finish dir)).getSavedPosition
        source.filename)).fileCurrentPosition
    (Machine.Along Run.finish (Run.Keeps source.filename) dir runs → resumed = p) ∧
      (resumed = p ↔ ∃ step, lastTouch source.filename (history dir runs) = some step ∧
        (step.left = some p ∨ step.left = none ∧ p = 0)) := by
  intro resumed
  obtain ⟨step, hstep⟩ : ∃ step, lastTouch source.filename (history dir runs) = some step := by
    refine Option.ne_none_iff_exists'.mp fun hnone => ?_
    rw [(lastWritten_of_lastTouch _ _).1 hnone] at hsaved
    simp at hsaved
  -- what the last step on the state file has left is what the start loads
  have hresumed : resumed = step.left.getD 0 := by
    have hfound := lookup_foldl_finish source.filename runs dir
    rw [hstep] at hfound
    dsimp only at hfound
    rw [← hfound, ← (startUp_spec _ _).1]
    exact if_pos hmode
  have hiff : resumed = p ↔ step.left = some p ∨ step.left = none ∧ p = 0 := by
    rw [hresumed]
    cases step.left with
    | none => simp [eq_comm]
    | some q => simp
  refine ⟨fun hkeeps => ?_, ?_⟩
  · -- the last step on the state file writes a position of the file, and so the last one saved
    obtain ⟨q, rfl⟩ := lastTouch_history _ _ _ hkeeps step hstep
    have heq := (lastWritten_of_lastTouch _ _).2 q hstep
    rw [hsaved] at heq
    rw [hresumed, Option.some_inj.mp heq]
    rfl
  · rw [hiff]
    constructor
    · exact fun h => ⟨step, hstep, h⟩
    · rintro ⟨step', hstep', h⟩
      obtain rfl : step = step' := Option.some_inj.mp (hstep.symm.trans hstep')
      exact h

/-- A run that saves twice, one that ends before it has removed the file, and one
that saves again. -/
theorem resumes_iff_saved_again :
    (PointersTableInternalRecord.create ⟨"/v/a", none⟩ 3 none ⟨false, true, by decide⟩ none
      ((startUp (([⟨[.save "/v/a" 3, .save "/v/a" 5], 4⟩, ⟨[], 1⟩, ⟨[.save "/v/a" 8], 4⟩] :
        List Run).foldl Run.finish ∅)).getSavedPosition "/v/a")).fileCurrentPosition = 8 :=
  (resumes_iff ∅ _ ⟨"/v/a", none⟩ 3 none ⟨false, true, by decide⟩ rfl none
    (by decide)).2.mpr ⟨.write "/v/a" 8, by decide, Or.inl rfl⟩

/-- A run that saves, and one that ends after its start, before the file is
processed: the next start begins at 0. -/
theorem position_lost_after_start :
    let runs : List Run := [⟨[.save "/v/a" 5], 2⟩, ⟨[], 2⟩]
    lastWritten "/v/a" (history ∅ runs) = some 5 ∧
      (PointersTableInternalRecord.create ⟨"/v/a", none⟩ 3 none ⟨false, true, by decide⟩ none
        ((startUp (runs.foldl Run.finish ∅)).getSavedPosition "/v/a")).fileCurrentPosition ≠ 5 := by
  decide

end Tail

end IqLogger
