import IqLogger.Inputs.Tail.Watch
import IqLogger.Lib.Run

/-!
# Watches and exceptions

The file system need not answer what it is asked: a path that loops, or that must not
be searched, makes `is_directory` throw. And a pattern need not be a regular
expression: then the constructor of the watch throws. `addWatch` catches the
exceptions of the file system while it scans a directory, but not before, and those
of patterns nowhere; `Watch::notify` catches none. The exception of an event ends
the only thread of the server, which handles no event any more then
(`IqLogger.Tail.InotifyThread`).

Otherwise all is as in `IqLogger.Inputs.Tail.Watch`
(`IqLogger.Tail.InotifyThread.addWatch_ofTree`): an event reaches the first watch on its
descriptor only. The main result, `IqLogger.Tail.InotifyThread.notified_iff`, says when
that is enough for all watches that match the event.
-/

namespace IqLogger

namespace Tail

/-- What the file system answers; `none` where the question throws. -/
structure FileAnswers where
  isDirectory : String → Option Bool
  /-- `is_symlink`, and the target if it is one. -/
  readSymlink : String → Option (Option String)
  /-- The names that `directory_iterator` comes to, unless it throws at once. -/
  entries : String → Option (List String)

/-- A file system that answers everything but what the entries of a file are. -/
def FileTree.answers (fs : FileTree) : FileAnswers where
  isDirectory path := some (fs.isDirectory path)
  readSymlink path := some (fs.readSymlink path)
  entries := fs.entries

/-- The exceptions. -/
inductive WatchException where
  | filesystemError : WatchException
  | regexError : WatchException
  deriving DecidableEq, Repr

/-- How a call ends: the server it leaves, and the exception that leaves it. -/
structure WatchOutcome where
  server : InotifyServer
  thrown : Option WatchException

namespace WatchOutcome

/-- What comes next, unless there is an exception. -/
def andThen (out : WatchOutcome) (next : InotifyServer → Option WatchOutcome) :
    Option WatchOutcome :=
  match out.thrown with
  | none => next out.server
  | some _ => some out

/-- The handler around the scan. -/
def caught (out : WatchOutcome) : WatchOutcome :=
  match out.thrown with
  | some .filesystemError => ⟨out.server, none⟩
  | _ => out

end WatchOutcome

/-- The server, and whether its thread still runs. -/
structure InotifyThread where
  server : InotifyServer
  running : Bool

namespace InotifyThread

open InotifyServer (Registry Scans)

/-- `makeWatchPath`. -/
def makeWatchPath (fs : FileAnswers) (path : String) : Option (String × String) :=
  (fs.isDirectory path).map fun directory =>
    if directory then (path, path ++ "/(.*)") else (parentPath path, path)

/-- What `addWatch` is, for the functions that call it. -/
abbrev AddWatch := String → Notifier → InotifyServer → Option WatchOutcome

section Server

variable (inotifyAddWatch : String → Option ℕ) (regex : String → Option (String → Bool))

/-- `std::regex_match`, with a pattern that has been compiled before. -/
def regexMatch (pattern filename : String) : Bool :=
  match regex pattern with
  | some accepts => accepts filename
  | none => false

/-- `Watch::notify`. -/
def watchNotify (addWatch : AddWatch) (fs : FileAnswers) (watch : Watch) (event : Event)
    (s : InotifyServer) : Option WatchOutcome :=
  let filename := watch.directory ++ "/" ++ event.source.filename
  if regexMatch regex watch.pattern filename then
    match fs.isDirectory filename with
    | none => some ⟨s, some .filesystemError⟩
    | some true => addWatch filename watch.notifier s
    | some false =>
      let found : Event := ⟨event.watchDescriptor, event.eventType, ⟨filename, none⟩⟩
      match fs.readSymlink filename with
      | none => some ⟨s, some .filesystemError⟩
      | some (some linked) =>
        (addWatch linked (.eventChanger watch.notifier filename) s).bind fun out =>
          out.andThen fun s => some ⟨s.call watch.notifier found, none⟩
      | some none => some ⟨s.call watch.notifier found, none⟩
  else some ⟨s, none⟩

/-- `InotifyServer::notify`. -/
def notify (addWatch : AddWatch) (fs : FileAnswers) (watchDescriptor : ℕ) (event : Event)
    (s : InotifyServer) : Option WatchOutcome :=
  match s.watchDescriptorsMap.findByWatchDescriptor watchDescriptor with
  | some watch => watchNotify regex addWatch fs watch event s
  | none => some ⟨s, none⟩

/-- The loop body of the scan. -/
def scanEntry (addWatch : AddWatch) (fs : FileAnswers) (watch : Watch) (s : InotifyServer)
    (name : String) : Option WatchOutcome :=
  let filename := joinPath watch.directory name
  let event : Event := ⟨watch.watchDescriptor, .init, ⟨name, none⟩⟩
  if regexMatch regex watch.pattern filename then
    match fs.isDirectory filename with
    | none => some ⟨s, some .filesystemError⟩
    | some true => addWatch filename watch.notifier s
    | some false =>
      match fs.readSymlink filename with
      | none => some ⟨s, some .filesystemError⟩
      | some (some linked) =>
        (addWatch linked (.eventChanger watch.notifier filename) s).bind fun out =>
          out.andThen (notify regex addWatch fs watch.watchDescriptor event)
      | some none => notify regex addWatch fs watch.watchDescriptor event s
  else some ⟨s, none⟩

/-- The scan. An exception ends it. -/
def scan (addWatch : AddWatch) (fs : FileAnswers) (watch : Watch) (s : InotifyServer)
    (names : List String) : Option WatchOutcome :=
  names.foldlM (fun out name => out.andThen fun s => scanEntry regex addWatch fs watch s name)
    ⟨s, none⟩

/-- `addWatch`. -/
def addWatch : ℕ → FileAnswers → AddWatch
  | 0, _, _, _, _ => none
  | fuel + 1, fs, path, notifier, s =>
    match makeWatchPath fs path with
    | none => some ⟨s, some .filesystemError⟩
    | some watchPath =>
      match inotifyAddWatch watchPath.1 with
      | none => some ⟨s, none⟩
      | some watchDescriptor =>
        -- the constructor of `Watch` compiles the pattern
        if (regex watchPath.2).isSome then
          let watch : Watch := ⟨watchDescriptor, watchPath.1, watchPath.2, notifier⟩
          let s := s.register watch
          match fs.entries watchPath.1 with
          | none => some ⟨s, none⟩
          | some names => (scan regex (addWatch fuel fs) fs watch s names).map .caught
        else some ⟨s, some .regexError⟩

end Server

/-! ### A file system that answers everything -/

section Tree

variable {inotifyAddWatch : String → Option ℕ} {accepts : String → String → Bool}
  {addWatch : InotifyServer.AddWatch} {addWatch' : AddWatch} {fs : FileTree}

/-- The outcome without an exception. -/
def returned (s : InotifyServer) : WatchOutcome := ⟨s, none⟩

@[simp] theorem returned_andThen (s : InotifyServer) (next : InotifyServer → Option WatchOutcome) :
    (returned s).andThen next = next s := rfl

theorem watchNotify_ofTree
    (hadd : ∀ path notifier s, addWatch' path notifier s = (addWatch path notifier s).map returned)
    (watch : Watch) (event : Event) (s : InotifyServer) :
    watchNotify (fun pattern => some (accepts pattern)) addWatch' fs.answers watch event s =
      (InotifyServer.watchNotify accepts addWatch fs watch event s).map returned := by
  simp only [watchNotify, InotifyServer.watchNotify, regexMatch, FileTree.answers, hadd]
  split_ifs with hmatch hdirectory
  · rw [hdirectory]
  · rw [Bool.not_eq_true] at hdirectory
    simp only [hdirectory]
    cases fs.readSymlink (watch.directory ++ "/" ++ event.source.filename) with
    | none => rfl
    | some linked =>
      dsimp only
      cases addWatch linked (.eventChanger watch.notifier
        (watch.directory ++ "/" ++ event.source.filename)) s <;> rfl
  · rfl

theorem notify_ofTree
    (hadd : ∀ path notifier s, addWatch' path notifier s = (addWatch path notifier s).map returned)
    (wd : ℕ) (event : Event) (s : InotifyServer) :
    notify (fun pattern => some (accepts pattern)) addWatch' fs.answers wd event s =
      (InotifyServer.notify accepts addWatch fs wd event s).map returned := by
  rw [notify, InotifyServer.notify]
  cases s.watchDescriptorsMap.findByWatchDescriptor wd with
  | none => rfl
  | some watch => exact watchNotify_ofTree hadd watch event s

theorem scanEntry_ofTree
    (hadd : ∀ path notifier s, addWatch' path notifier s = (addWatch path notifier s).map returned)
    (watch : Watch) (s : InotifyServer) (name : String) :
    scanEntry (fun pattern => some (accepts pattern)) addWatch' fs.answers watch s name =
      (InotifyServer.scanEntry accepts addWatch fs watch s name).map returned := by
  simp only [scanEntry, InotifyServer.scanEntry, regexMatch, hadd, notify_ofTree hadd]
  split_ifs with hmatch hdirectory
  · simp only [FileTree.answers, hdirectory]
  · rw [Bool.not_eq_true] at hdirectory
    simp only [FileTree.answers, hdirectory]
    cases fs.readSymlink (joinPath watch.directory name) with
    | none => rfl
    | some linked =>
      dsimp only
      cases addWatch linked (.eventChanger watch.notifier (joinPath watch.directory name)) s with
      | none => rfl
      | some t => exact notify_ofTree hadd _ _ t
  · rfl

theorem scan_ofTree
    (hadd : ∀ path notifier s, addWatch' path notifier s = (addWatch path notifier s).map returned)
    (watch : Watch) (s : InotifyServer) (names : List String) :
    scan (fun pattern => some (accepts pattern)) addWatch' fs.answers watch s names =
      (names.foldlM (InotifyServer.scanEntry accepts addWatch fs watch) s).map returned := by
  induction names generalizing s with
  | nil => rfl
  | cons name names ih =>
    rw [scan, List.foldlM_cons, List.foldlM_cons]
    change ((returned s).andThen _).bind _ = _
    rw [returned_andThen, scanEntry_ofTree hadd]
    cases InotifyServer.scanEntry accepts addWatch fs watch s name with
    | none => rfl
    | some t => exact ih t

/-- **A file system that answers everything** is watched as in `IqLogger.Inputs.Tail.Watch`, if
every pattern is a regular expression. -/
theorem addWatch_ofTree (fuel : ℕ) (path : String) (notifier : Notifier) (s : InotifyServer) :
    InotifyThread.addWatch inotifyAddWatch (fun pattern => some (accepts pattern)) fuel fs.answers
        path notifier s =
      (InotifyServer.addWatch inotifyAddWatch accepts fuel fs path notifier s).map returned := by
  induction fuel generalizing path notifier s with
  | zero => rfl
  | succ fuel ih =>
    have hpath : makeWatchPath fs.answers path = some (InotifyServer.makeWatchPath fs path) := rfl
    rw [InotifyThread.addWatch, InotifyServer.addWatch, hpath]
    dsimp only
    cases inotifyAddWatch (InotifyServer.makeWatchPath fs path).1 with
    | none => rfl
    | some wd =>
      simp only [Option.isSome_some, if_true, scan_ofTree ih]
      have hentries : fs.answers.entries = fs.entries := rfl
      rw [hentries]
      cases fs.entries (InotifyServer.makeWatchPath fs path).1 with
      | none => rfl
      | some names =>
        dsimp only
        rw [Option.map_map]
        rfl

end Tree

/-! ### Runs of the server -/

/-- A path is watched, or the kernel reports an event of a directory. -/
inductive Op where
  | addWatch (fuel : ℕ) (fs : FileAnswers) (path : String) (notifier : Notifier) : Op
  | event (fuel : ℕ) (fs : FileAnswers) (watchDescriptor : ℕ) (mask : Mask) (name : String) : Op

/-- The server when it starts. -/
def start : InotifyThread := ⟨.start, true⟩

section Run

variable (inotifyAddWatch : String → Option ℕ) (regex : String → Option (String → Bool))

/-- One operation, if it comes to an end: a call of `addWatch` that succeeds, or an event,
which is lost if the thread has ended. -/
def step (t : InotifyThread) : Op → Option InotifyThread
  | .addWatch fuel fs path notifier =>
    (addWatch inotifyAddWatch regex fuel fs path notifier t.server).bind fun out =>
      if out.thrown.isNone then some { t with server := out.server } else none
  | .event fuel fs wd mask name =>
    if t.running then
      match mask.eventType with
      | some eventType =>
        (notify regex (addWatch inotifyAddWatch regex fuel fs) fs wd
          ⟨wd, eventType, ⟨name, none⟩⟩ t.server).map fun out => ⟨out.server, out.thrown.isNone⟩
      | none => some t
    else some t

/-- A list of operations, if each of them comes to an end. -/
def run (t : InotifyThread) (ops : List Op) : Option InotifyThread :=
  ops.foldlM (step inotifyAddWatch regex) t

end Run

/-! ### What a call does -/

variable {inotifyAddWatch : String → Option ℕ} {regex : String → Option (String → Bool)}

/-- **What a call of `addWatch` does**: it scans, and an exception of the file system leaves
it exactly if it cannot be told whether the path is a directory. -/
structure Lawful (inotifyAddWatch : String → Option ℕ) (addWatch : AddWatch) (fs : FileAnswers) :
    Prop where
  scans : ∀ {path notifier s out}, addWatch path notifier s = some out →
    Scans inotifyAddWatch s out.server
  filesystemError : ∀ {path notifier s out}, addWatch path notifier s = some out →
    (out.thrown = some .filesystemError ↔ fs.isDirectory path = none)

/-- **Before the notifier is called**: it can be told whether the file is a symbolic link, and
if it is one, whether its target is a directory, and no pattern that is made when the target
is watched is malformed. -/
def TargetWatched (addWatch : AddWatch) (fs : FileAnswers) (watch : Watch) (filename : String)
    (s : InotifyServer) : Prop :=
  ∃ link, fs.readSymlink filename = some link ∧ ∀ linked, link = some linked →
    fs.isDirectory linked ≠ none ∧
      ∀ out, addWatch linked (.eventChanger watch.notifier filename) s = some out →
        out.thrown ≠ some .regexError

section Step

variable {addWatch : AddWatch} {fs : FileAnswers} {watch : Watch} {event : Event}
  {s : InotifyServer} {out : WatchOutcome}

/-- The notifier is called for a file that is no directory. -/
def Calls (regex : String → Option (String → Bool)) (addWatch : AddWatch) (fs : FileAnswers)
    (watch : Watch) (filename : String) (s : InotifyServer) : Prop :=
  regexMatch regex watch.pattern filename = true ∧ fs.isDirectory filename = some false ∧
    TargetWatched addWatch fs watch filename s

/-- **What `Watch::notify` can do**: it scans, and calls the notifier of the watch after that or
not at all. -/
theorem watchNotify_cases (hadd : Lawful inotifyAddWatch addWatch fs)
    (h : watchNotify regex addWatch fs watch event s = some out) :
    (¬Calls regex addWatch fs watch (watch.directory ++ "/" ++ event.source.filename) s ∧
        Scans inotifyAddWatch s out.server) ∨
      (Calls regex addWatch fs watch (watch.directory ++ "/" ++ event.source.filename) s ∧
        ∃ t, Scans inotifyAddWatch s t ∧ out = ⟨t.call watch.notifier ⟨event.watchDescriptor,
          event.eventType, ⟨watch.directory ++ "/" ++ event.source.filename, none⟩⟩, none⟩) := by
  rw [watchNotify] at h
  generalize watch.directory ++ "/" ++ event.source.filename = filename at h ⊢
  dsimp only at h
  split at h
  · next hmatch =>
    split at h
    · next hdirectory =>
      cases h
      refine Or.inl ⟨fun hcalls => ?_, .refl s⟩
      have hfile := hcalls.2.1
      rw [hdirectory] at hfile
      cases hfile
    · next hdirectory =>
      refine Or.inl ⟨fun hcalls => ?_, hadd.scans h⟩
      have hfile := hcalls.2.1
      rw [hdirectory] at hfile
      cases hfile
    · next hfile =>
      split at h
      · next hlink =>
        cases h
        refine Or.inl ⟨fun hcalls => ?_, .refl s⟩
        obtain ⟨link, hlink', -⟩ := hcalls.2.2
        rw [hlink] at hlink'
        cases hlink'
      · next linked hlink =>
        obtain ⟨target, htarget, hrest⟩ := Option.bind_eq_some_iff.mp h
        cases hthrown : target.thrown with
        | none =>
          -- the target is watched, and the notifier is called
          rw [WatchOutcome.andThen, hthrown] at hrest
          cases hrest
          refine Or.inr ⟨⟨hmatch, hfile, _, hlink, fun linked' hlinked' => ?_⟩, target.server,
            hadd.scans htarget, rfl⟩
          cases hlinked'
          refine ⟨fun hnone => ?_, fun target' htarget' => ?_⟩
          · rw [(hadd.filesystemError htarget).mpr hnone] at hthrown
            cases hthrown
          · cases htarget.symm.trans htarget'
            simp [hthrown]
        | some e =>
          rw [WatchOutcome.andThen, hthrown] at hrest
          cases hrest
          refine Or.inl ⟨fun hcalls => ?_, hadd.scans htarget⟩
          obtain ⟨link, hlink', hwatched⟩ := hcalls.2.2
          obtain ⟨hdirectory, hregex⟩ := hwatched linked (Option.some.inj (hlink'.symm.trans hlink))
          cases e with
          | filesystemError => exact hdirectory ((hadd.filesystemError htarget).mp hthrown)
          | regexError => exact hregex _ htarget hthrown
      · next hlink =>
        cases h
        exact Or.inr ⟨⟨hmatch, hfile, _, hlink, fun linked hlinked => by cases hlinked⟩, s,
          .refl s, rfl⟩
  · next hno =>
    cases h
    exact Or.inl ⟨fun hcalls => hno hcalls.1, .refl s⟩

/-- The `_INIT` event of a scan. -/
theorem notify_scans (hadd : Lawful inotifyAddWatch addWatch fs) {wd : ℕ}
    (hinit : event.eventType = .init) (h : notify regex addWatch fs wd event s = some out) :
    Scans inotifyAddWatch s out.server := by
  rw [notify] at h
  split at h
  · rcases watchNotify_cases hadd h with ⟨-, hscan⟩ | ⟨-, t, hscan, rfl⟩
    · exact hscan
    · exact hscan.trans (.call t _ hinit)
  · cases h
    exact .refl s

theorem scanEntry_scans (hadd : Lawful inotifyAddWatch addWatch fs) {name : String}
    (h : scanEntry regex addWatch fs watch s name = some out) :
    Scans inotifyAddWatch s out.server := by
  simp only [scanEntry] at h
  split at h
  · split at h
    · cases h
      exact .refl s
    · exact hadd.scans h
    · split at h
      · cases h
        exact .refl s
      · obtain ⟨target, htarget, hrest⟩ := Option.bind_eq_some_iff.mp h
        have htrans := hadd.scans htarget
        rw [WatchOutcome.andThen] at hrest
        split at hrest
        · exact htrans.trans (notify_scans hadd rfl hrest)
        · cases hrest
          exact htrans
      · exact notify_scans hadd rfl h
  · cases h
    exact .refl s

theorem scan_scans (hadd : Lawful inotifyAddWatch addWatch fs) {names : List String}
    (h : scan regex addWatch fs watch s names = some out) :
    Scans inotifyAddWatch s out.server := by
  refine Machine.interleaving_induction
    (P := fun _ (out : WatchOutcome) => Scans inotifyAddWatch s out.server) (.refl s) ?_ names out h
  intro _ before name after hbefore hnext
  rw [WatchOutcome.andThen] at hnext
  split at hnext
  · exact hbefore.trans (scanEntry_scans hadd hnext)
  · cases hnext
    exact hbefore

end Step

theorem thrown_caught (out : WatchOutcome) : out.caught.thrown ≠ some .filesystemError := by
  rw [WatchOutcome.caught]
  split
  · simp
  · assumption

theorem server_caught (out : WatchOutcome) : out.caught.server = out.server := by
  rw [WatchOutcome.caught]
  split <;> rfl

/-- One more level of the recursion. -/
theorem addWatch_succ {fuel : ℕ} {fs : FileAnswers}
    (ih : Lawful inotifyAddWatch (addWatch inotifyAddWatch regex fuel fs) fs) {path : String}
    {notifier : Notifier} {s : InotifyServer} {out : WatchOutcome}
    (h : addWatch inotifyAddWatch regex (fuel + 1) fs path notifier s = some out) :
    Scans inotifyAddWatch s out.server ∧
      (out.thrown = some .filesystemError ↔ fs.isDirectory path = none) := by
  simp only [addWatch] at h
  split at h
  · next hpath =>
    cases h
    exact ⟨.refl s, iff_of_true rfl (Option.map_eq_none_iff.mp hpath)⟩
  · next watchPath hpath =>
    have hanswer : fs.isDirectory path ≠ none := by
      intro hnone
      rw [makeWatchPath, hnone] at hpath
      cases hpath
    split at h
    · cases h
      exact ⟨.refl s, iff_of_false (by simp) hanswer⟩
    · next wd hwd =>
      split_ifs at h
      · have hregister : Scans inotifyAddWatch s
            (s.register ⟨wd, watchPath.1, watchPath.2, notifier⟩) := .register s hwd
        split at h
        · cases h
          exact ⟨hregister, iff_of_false (by simp) hanswer⟩
        · obtain ⟨scanned, hscan, rfl⟩ := Option.map_eq_some_iff.mp h
          rw [server_caught]
          exact ⟨hregister.trans (scan_scans ih hscan),
            iff_of_false (thrown_caught scanned) hanswer⟩
      · cases h
        exact ⟨.refl s, iff_of_false (by simp) hanswer⟩

theorem addWatch_lawful (fuel : ℕ) (fs : FileAnswers) :
    Lawful inotifyAddWatch (addWatch inotifyAddWatch regex fuel fs) fs := by
  induction fuel with
  | zero =>
    constructor
    · intro path notifier s out h
      cases h
    · intro path notifier s out h
      cases h
  | succ fuel ih => exact ⟨fun h => (addWatch_succ ih h).1, fun h => (addWatch_succ ih h).2⟩

/-! ### Who is notified of an event -/

/-- **An event goes to the first watch on its descriptor**, unless the thread has ended: its
notifier is called, or there is only a scan. -/
theorem event_cases {t t' : InotifyThread} (h : Registry inotifyAddWatch t.server) {fuel : ℕ}
    {fs : FileAnswers} {wd : ℕ} {mask : Mask} {name : String} {eventType : EventType}
    (hmask : mask.eventType = some eventType)
    (hstep : step inotifyAddWatch regex t (.event fuel fs wd mask name) = some t') :
    let reached (watch : Watch) := t.running = true ∧
      (t.server.registered.find? fun watch => watch.watchDescriptor = wd) = some watch ∧
        Calls regex (addWatch inotifyAddWatch regex fuel fs) fs watch
          (watch.directory ++ "/" ++ name) t.server
    ((∀ watch, ¬reached watch) ∧ Scans inotifyAddWatch t.server t'.server) ∨
      ∃ watch u, reached watch ∧ Scans inotifyAddWatch t.server u ∧ t' = ⟨u.call watch.notifier
        ⟨wd, eventType, ⟨watch.directory ++ "/" ++ name, none⟩⟩, true⟩ := by
  intro reached
  simp only [step, hmask] at hstep
  split_ifs at hstep with hrunning
  · obtain ⟨out, hnotify, rfl⟩ := Option.map_eq_some_iff.mp hstep
    rw [notify, h.first wd] at hnotify
    split at hnotify
    · next watch hfirst =>
      rcases watchNotify_cases (addWatch_lawful fuel fs) hnotify with
        ⟨hno, hscan⟩ | ⟨hcalls, u, hscan, rfl⟩
      · refine Or.inl ⟨fun watch' hreached => hno ?_, hscan⟩
        obtain ⟨-, hfirst', hcalls⟩ := hreached
        cases hfirst.symm.trans hfirst'
        exact hcalls
      · exact Or.inr ⟨watch, u, ⟨hrunning, hfirst, hcalls⟩, hscan, rfl⟩
    · next hnone =>
      cases hnotify
      refine Or.inl ⟨fun watch hreached => ?_, .refl _⟩
      cases hnone.symm.trans hreached.2.1
  · cases hstep
    exact Or.inl ⟨fun watch hreached => hrunning hreached.1, .refl _⟩

/-- **The invariant survives an operation.** -/
theorem registry_step {t t' : InotifyThread} (h : Registry inotifyAddWatch t.server) {op : Op}
    (hstep : step inotifyAddWatch regex t op = some t') : Registry inotifyAddWatch t'.server := by
  cases op with
  | addWatch fuel fs path notifier =>
    obtain ⟨out, hadd, hsucceeds⟩ := Option.bind_eq_some_iff.mp hstep
    obtain ⟨-, ht'⟩ := Option.ite_none_right_eq_some.mp hsucceeds
    cases ht'
    exact ((addWatch_lawful fuel fs).scans hadd).registry h
  | event fuel fs wd mask name =>
    cases hmask : mask.eventType with
    | none =>
      simp only [step, hmask, ite_self, Option.some.injEq] at hstep
      exact hstep ▸ h
    | some eventType =>
      rcases event_cases h hmask hstep with ⟨-, hscan⟩ | ⟨watch, u, -, hscan, rfl⟩
      · exact hscan.registry h
      · exact (hscan.registry h).call _ _

theorem registry_run {ops : List Op} {t : InotifyThread}
    (hrun : run inotifyAddWatch regex start ops = some t) : Registry inotifyAddWatch t.server :=
  Machine.interleaving_induction
    (P := fun _ (t : InotifyThread) => Registry inotifyAddWatch t.server) .start
    (fun _ _ _ _ h hstep => registry_step h hstep) ops t hrun

/-- The notifier of a watch is called for an event in the step from `s` to `s'`, with the file
in the directory of the event. -/
def Notified (inotifyAddWatch : String → Option ℕ) (s s' : InotifyServer) (watch : Watch) (wd : ℕ)
    (eventType : EventType) (name : String) : Prop :=
  ∃ directory, inotifyAddWatch directory = some wd ∧
    .notifier watch.notifier ⟨wd, eventType, ⟨directory ++ "/" ++ name, none⟩⟩ ∈
      s'.calls.drop s.calls.length

/-- A scan alone notifies nobody of an event of the kernel. -/
theorem Scans.not_notified {s s' : InotifyServer} (h : Scans inotifyAddWatch s s') {wd : ℕ}
    {eventType : EventType} (hne : eventType ≠ .init) (watch : Watch) (name : String) :
    ¬Notified inotifyAddWatch s s' watch wd eventType name := by
  obtain ⟨new, hnew, hinit⟩ := h.calls
  rintro ⟨directory, -, hmem⟩
  rw [hnew, List.drop_left] at hmem
  exact hne (hinit _ _ hmem)

/-- **Who is notified of an event**: the watches with the notifier of the first watch on the
descriptor, if that notifier is called. -/
theorem notified_iff_first {t t' : InotifyThread} (h : Registry inotifyAddWatch t.server)
    {fuel : ℕ} {fs : FileAnswers} {wd : ℕ} {mask : Mask} {name : String} {eventType : EventType}
    (hmask : mask.eventType = some eventType)
    (hstep : step inotifyAddWatch regex t (.event fuel fs wd mask name) = some t') (watch : Watch) :
    Notified inotifyAddWatch t.server t'.server watch wd eventType name ↔
      t.running = true ∧ ∃ first,
        (t.server.registered.find? fun watch => watch.watchDescriptor = wd) = some first ∧
          Calls regex (addWatch inotifyAddWatch regex fuel fs) fs first
            (first.directory ++ "/" ++ name) t.server ∧ watch.notifier = first.notifier := by
  have hne : eventType ≠ .init := by
    rintro rfl
    cases mask <;> simp [Mask.eventType] at hmask
  rcases event_cases h hmask hstep with ⟨hno, hscan⟩ | ⟨first, u, hreached, hscan, rfl⟩
  · refine iff_of_false (Scans.not_notified hscan hne watch name) ?_
    rintro ⟨hrunning, first, hfirst, hcalls, -⟩
    exact hno first ⟨hrunning, hfirst, hcalls⟩
  · obtain ⟨new, hnew, hinit⟩ := hscan.calls
    constructor
    · -- an event of this type is no call of the scan, so it is the call after it
      rintro ⟨directory, -, hmem⟩
      dsimp only [InotifyServer.call] at hmem
      rw [hnew, List.append_assoc, List.drop_left, List.mem_append, List.mem_singleton] at hmem
      rcases hmem with hmem | hmem
      · exact absurd (hinit _ _ hmem) hne
      · exact ⟨hreached.1, first, hreached.2.1, hreached.2.2, (WatchCall.notifier.inj hmem).1⟩
    · rintro ⟨-, first', hfirst', -, hnotifier⟩
      cases hreached.2.1.symm.trans hfirst'
      have hfound := List.find?_some hreached.2.1
      refine ⟨first.directory, ?_, ?_⟩
      · rw [h.descriptor first (List.mem_of_find?_eq_some hreached.2.1), of_decide_eq_true hfound]
      · dsimp only [InotifyServer.call]
        rw [hnew, List.append_assoc, List.drop_left, hnotifier]
        exact List.mem_append_right _ (List.mem_singleton_self _)

/-- **When every watch that matches an event is notified**: when there is none; or when the
thread still runs, the notifier of the first watch registered on the descriptor is called, and
all watches that match the event have that notifier. -/
theorem notified_iff (inotifyAddWatch : String → Option ℕ)
    (regex : String → Option (String → Bool)) (ops : List Op) (t t' : InotifyThread)
    (hrun : run inotifyAddWatch regex start ops = some t) (fuel : ℕ) (fs : FileAnswers) (wd : ℕ)
    (mask : Mask) (name : String) (eventType : EventType)
    (hmask : mask.eventType = some eventType)
    (hstep : step inotifyAddWatch regex t (.event fuel fs wd mask name) = some t') :
    (∀ watch ∈ t.server.registered, watch.watchDescriptor = wd →
      watch.Matches (regexMatch regex) name →
        Notified inotifyAddWatch t.server t'.server watch wd eventType name) ↔
    (∀ watch ∈ t.server.registered, watch.watchDescriptor = wd →
      ¬watch.Matches (regexMatch regex) name) ∨
      t.running = true ∧ ∃ first,
        (t.server.registered.find? fun watch => watch.watchDescriptor = wd) = some first ∧
          Calls regex (addWatch inotifyAddWatch regex fuel fs) fs first
            (first.directory ++ "/" ++ name) t.server ∧
          ∀ watch ∈ t.server.registered, watch.watchDescriptor = wd →
            watch.Matches (regexMatch regex) name → watch.notifier = first.notifier := by
  have h : Registry inotifyAddWatch t.server := registry_run hrun
  constructor
  · intro hall
    refine or_iff_not_imp_left.mpr fun hsome => ?_
    -- a watch that matches is notified, so the first one on the descriptor is as required
    push Not at hsome
    obtain ⟨watch, hmem, hwd, hmatch⟩ := hsome
    obtain ⟨hrunning, first, hfirst, hcalls, -⟩ :=
      (notified_iff_first h hmask hstep watch).mp (hall watch hmem hwd hmatch)
    refine ⟨hrunning, first, hfirst, hcalls, fun other hother hotherwd hothermatch => ?_⟩
    obtain ⟨-, first', hfirst', -, hnotifier⟩ :=
      (notified_iff_first h hmask hstep other).mp (hall other hother hotherwd hothermatch)
    rwa [Option.some.inj (hfirst.symm.trans hfirst')]
  · rintro (hnone | ⟨hrunning, first, hfirst, hcalls, hsame⟩) watch hmem hwd hmatch
    · exact absurd hmatch (hnone watch hmem hwd)
    · exact (notified_iff_first h hmask hstep watch).mpr
        ⟨hrunning, first, hfirst, hcalls, hsame watch hmem hwd hmatch⟩

section Example

/-- A kernel with one directory. -/
def oneDirectory (directory : String) : Option ℕ := if directory = "/v" then some 1 else none

/-- A directory without files as yet; `a` will be a link to a file in another one. -/
def linkTree : FileAnswers where
  isDirectory path := some (path = "/v")
  readSymlink path := some (if path = "/v/a" then some "/w/a" else none)
  entries _ := some []

/-- Patterns without special characters. -/
def literal (pattern : String) : Option (String → Bool) := some fun filename => pattern = filename

/-- The watches of two inputs for two files of the directory. -/
def firstWatch : Watch := ⟨1, "/v", "/v/a", .monitor 1⟩

def secondWatch : Watch := ⟨1, "/v", "/v/b", .monitor 2⟩

/-- The server with these watches. -/
def twoWatches : InotifyThread :=
  ⟨(InotifyServer.start.register firstWatch).register secondWatch, true⟩

/-- The first input is notified of its file. -/
theorem notified_first_watch :
    Notified oneDirectory twoWatches.server
      (twoWatches.server.call (.monitor 1) ⟨1, .create, ⟨"/v/a", none⟩⟩) firstWatch 1 .create
      "a" := by
  refine (notified_iff oneDirectory literal
    [.addWatch 1 linkTree "/v/a" (.monitor 1), .addWatch 1 linkTree "/v/b" (.monitor 2)] twoWatches
    ⟨_, true⟩ rfl 2 linkTree 1 .create "a" .create rfl rfl).mpr
    (Or.inr ⟨rfl, firstWatch, rfl, ⟨rfl, rfl, _, rfl, ?_⟩, ?_⟩) firstWatch
    List.mem_cons_self rfl rfl
  · rintro linked hlinked
    cases hlinked
    refine ⟨by decide, fun out hout => ?_⟩
    cases hout
    decide
  · intro watch hmem _ hmatch
    rcases List.mem_cons.mp hmem with rfl | hmem
    · rfl
    · obtain rfl := List.mem_singleton.mp hmem
      exact absurd hmatch (by decide)

/-- **The second input is not notified of its file**: its watch is refused, as the first one has
the descriptor of the directory. -/
theorem second_watch_not_notified :
    ¬∀ (ops : List Op) (t t' : InotifyThread) (fuel : ℕ) (wd : ℕ) (mask : Mask)
      (name : String) (eventType : EventType),
      run oneDirectory literal start ops = some t → mask.eventType = some eventType →
      step oneDirectory literal t (.event fuel linkTree wd mask name) = some t' →
      ∀ watch ∈ t.server.registered, watch.watchDescriptor = wd →
        watch.Matches (regexMatch literal) name →
          Notified oneDirectory t.server t'.server watch wd eventType name := by
  intro h
  obtain ⟨directory, -, hmem⟩ := h
    [.addWatch 1 linkTree "/v/a" (.monitor 1), .addWatch 1 linkTree "/v/b" (.monitor 2)] twoWatches
    twoWatches 1 1 .create "b" .create rfl rfl rfl secondWatch
    (List.mem_cons_of_mem _ (List.mem_singleton_self _)) rfl rfl
  rw [List.drop_length] at hmem
  exact List.not_mem_nil hmem

end Example

end InotifyThread

end Tail

end IqLogger
