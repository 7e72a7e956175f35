import IqLogger.Inputs.Tail.Event
import Mathlib.Data.List.Nodup

/-!
# Watches

The inotify server watches directories. A watch pairs a directory with a pattern
for the names of its files, and with a notifier to call when a file matches; the
kernel knows the directory by a descriptor. Watching a path registers a watch and
scans the directory: matching files are reported, matching directories and the
targets of matching symbolic links are watched in turn.

Watches are kept in a container that finds them by descriptor and by path, and
takes no second watch for either key (`IqLogger.Tail.WatchDescriptorsMap`). But
all the patterns of one directory share its descriptor: of all watches ever
registered, an event reaches the *first* one on its descriptor, and no other
(`IqLogger.Tail.InotifyServer.Registry`).

What the server asks of the kernel (`inotify_add_watch`) and of regular
expressions (`std::regex_match`, of a pattern and a file name) are parameters, and
so is the file system at the time of each call. A scan can meet symbolic links
that lead back, so it is given fuel; without enough of it there is no result.

Here the file system answers whatever it is asked, and every pattern is a regular
expression. What an exception does where it does not is in
`IqLogger.Inputs.Tail.WatchExceptions`.
-/

namespace IqLogger

namespace Tail

/-- `notifier_t`: the notifier of a monitor, or one that adds the symbolic link a
file was reached by. -/
inductive Notifier where
  | monitor (id : ℕ) : Notifier
  | eventChanger (notifier : Notifier) (filename : String) : Notifier
  deriving DecidableEq, Repr

/-- The monitor a notifier passes an event to, and the event it passes. -/
def Notifier.notify : Notifier → Event → ℕ × Event
  | .monitor id, event => (id, event)
  | .eventChanger notifier filename, event =>
    notifier.notify ⟨event.watchDescriptor, event.eventType,
      ⟨event.source.filename, some filename⟩⟩

/-- `Watch`. -/
structure Watch where
  watchDescriptor : ℕ
  directory : String
  pattern : String
  notifier : Notifier
  deriving DecidableEq, Repr

/-- `Watch::getWatchPath`. -/
def Watch.path (watch : Watch) : String × String := (watch.directory, watch.pattern)

/-- The pattern of a watch matches a name in its directory. -/
def Watch.Matches (regexMatch : String → String → Bool) (watch : Watch) (name : String) : Prop :=
  regexMatch watch.pattern (watch.directory ++ "/" ++ name) = true

instance (regexMatch : String → String → Bool) (watch : Watch) (name : String) :
    Decidable (watch.Matches regexMatch name) :=
  inferInstanceAs (Decidable (_ = true))

/-! ### The container of watches -/

/-- `WatchDescriptorsMap`: watches with two unique keys. -/
structure WatchDescriptorsMap where
  watches : List Watch
  nodup_descriptors : (watches.map Watch.watchDescriptor).Nodup
  nodup_paths : (watches.map Watch.path).Nodup

namespace WatchDescriptorsMap

/-- The container of a new server. -/
def empty : WatchDescriptorsMap := ⟨[], List.nodup_nil, List.nodup_nil⟩

/-- `addWatch`: the container refuses a watch that has a key in common with one
it holds. -/
def addWatch (map : WatchDescriptorsMap) (watch : Watch) : WatchDescriptorsMap :=
  if h : watch.watchDescriptor ∈ map.watches.map Watch.watchDescriptor ∨
      watch.path ∈ map.watches.map Watch.path then map
  else
    { watches := map.watches ++ [watch]
      nodup_descriptors := by
        rw [List.map_append, List.map_singleton, ← List.concat_eq_append]
        exact List.Nodup.concat (fun hmem => h (Or.inl hmem)) map.nodup_descriptors
      nodup_paths := by
        rw [List.map_append, List.map_singleton, ← List.concat_eq_append]
        exact List.Nodup.concat (fun hmem => h (Or.inr hmem)) map.nodup_paths }

/-- `findByWatchDescriptor`. -/
def findByWatchDescriptor (map : WatchDescriptorsMap) (watchDescriptor : ℕ) : Option Watch :=
  map.watches.find? fun watch => watch.watchDescriptor = watchDescriptor

end WatchDescriptorsMap

/-! ### The server -/

/-- What a scan sees of the file system: which paths are directories, where
symbolic links lead, and the names in a directory, if it can be read. -/
structure FileTree where
  isDirectory : String → Bool
  readSymlink : String → Option String
  entries : String → Option (List String)

/-- What the server does besides changing its container. -/
inductive WatchCall where
  /-- A watch is registered. -/
  | addWatch (watch : Watch) : WatchCall
  /-- A notifier is called. -/
  | notifier (notifier : Notifier) (event : Event) : WatchCall
  deriving DecidableEq, Repr

/-- `InotifyServer`: its container of watches, and what it has done so far. -/
structure InotifyServer where
  watchDescriptorsMap : WatchDescriptorsMap
  calls : List WatchCall

/-- `std::filesystem::path::parent_path`: everything before the last separator,
or the root. -/
def parentPath (path : String) : String :=
  let parent := ((path.toList.reverse.dropWhile (· ≠ '/')).dropWhile (· = '/')).reverse
  if parent = [] ∧ path.toList.head? = some '/' then "/" else String.ofList parent

/-- `std::filesystem::path::operator/`, of a directory and a name. -/
def joinPath (directory name : String) : String :=
  if directory = "" ∨ directory.toList.getLast? = some '/' then directory ++ name
  else directory ++ "/" ++ name

namespace InotifyServer

/-- `makeWatchPath`. -/
def makeWatchPath (fs : FileTree) (path : String) : String × String :=
  if fs.isDirectory path then (path, path ++ "/(.*)") else (parentPath path, path)

/-- The server when it starts. -/
def start : InotifyServer := ⟨.empty, []⟩

/-- A watch is given to the container. -/
def register (s : InotifyServer) (watch : Watch) : InotifyServer where
  watchDescriptorsMap := s.watchDescriptorsMap.addWatch watch
  calls := s.calls ++ [.addWatch watch]

/-- A notifier is called. -/
def call (s : InotifyServer) (notifier : Notifier) (event : Event) : InotifyServer :=
  { s with calls := s.calls ++ [.notifier notifier event] }

section Server

variable (inotifyAddWatch : String → Option ℕ) (regexMatch : String → String → Bool)

/-- What `addWatch` is, for the functions that call it. -/
abbrev AddWatch := String → Notifier → InotifyServer → Option InotifyServer

/-- `Watch::notify`. -/
def watchNotify (addWatch : AddWatch) (fs : FileTree) (watch : Watch) (event : Event)
    (s : InotifyServer) : Option InotifyServer :=
  let filename := watch.directory ++ "/" ++ event.source.filename
  if regexMatch watch.pattern filename then
    if fs.isDirectory filename then
      addWatch filename watch.notifier s
    else
      let found : Event := ⟨event.watchDescriptor, event.eventType, ⟨filename, none⟩⟩
      match fs.readSymlink filename with
      | some linked => do
        let s ← addWatch linked (.eventChanger watch.notifier filename) s
        some (s.call watch.notifier found)
      | none => some (s.call watch.notifier found)
  else some s

/-- `InotifyServer::notify`. -/
def notify (addWatch : AddWatch) (fs : FileTree) (watchDescriptor : ℕ) (event : Event)
    (s : InotifyServer) : Option InotifyServer :=
  match s.watchDescriptorsMap.findByWatchDescriptor watchDescriptor with
  | some watch => watchNotify regexMatch addWatch fs watch event s
  | none => some s

/-- The loop body of the scan `addWatch` makes of a directory. -/
def scanEntry (addWatch : AddWatch) (fs : FileTree) (watch : Watch) (s : InotifyServer)
    (name : String) : Option InotifyServer :=
  let filename := joinPath watch.directory name
  let event : Event := ⟨watch.watchDescriptor, .init, ⟨name, none⟩⟩
  if regexMatch watch.pattern filename then
    if fs.isDirectory filename then
      addWatch filename watch.notifier s
    else
      match fs.readSymlink filename with
      | some linked => do
        let s ← addWatch linked (.eventChanger watch.notifier filename) s
        notify regexMatch addWatch fs watch.watchDescriptor event s
      | none => notify regexMatch addWatch fs watch.watchDescriptor event s
  else some s

/-- `addWatch`. -/
def addWatch : ℕ → FileTree → AddWatch
  | 0, _, _, _, _ => none
  | fuel + 1, fs, path, notifier, s =>
    let watchPath := makeWatchPath fs path
    match inotifyAddWatch watchPath.1 with
    | none => some s
    | some watchDescriptor =>
      let watch : Watch := ⟨watchDescriptor, watchPath.1, watchPath.2, notifier⟩
      let s := s.register watch
      match fs.entries watchPath.1 with
      | none => some s
      | some names => names.foldlM (scanEntry regexMatch (addWatch fuel fs) fs watch) s

/-- The watch that `addWatch` makes for a path. -/
def watchOf (fs : FileTree) (path : String) (watchDescriptor : ℕ) (notifier : Notifier) : Watch :=
  ⟨watchDescriptor, (makeWatchPath fs path).1, (makeWatchPath fs path).2, notifier⟩

/-- **What `addWatch` does for a directory of the kernel**: the watch is registered,
and the entries are scanned for it, if there are any. -/
theorem addWatch_eq {fs : FileTree} {path : String} {watchDescriptor : ℕ}
    (hdescriptor : inotifyAddWatch (makeWatchPath fs path).1 = some watchDescriptor) (fuel : ℕ)
    (notifier : Notifier) (s : InotifyServer) :
    addWatch inotifyAddWatch regexMatch (fuel + 1) fs path notifier s =
      ((fs.entries (makeWatchPath fs path).1).getD []).foldlM
        (scanEntry regexMatch (addWatch inotifyAddWatch regexMatch fuel fs) fs
          (watchOf fs path watchDescriptor notifier))
        (s.register (watchOf fs path watchDescriptor notifier)) := by
  simp only [addWatch, hdescriptor]
  cases hentries : fs.entries (makeWatchPath fs path).1 <;> rfl

end Server

/-! ### Which watch an event reaches -/

/-- All watches that were ever registered, in order. -/
def registered (s : InotifyServer) : List Watch :=
  s.calls.filterMap fun | .addWatch watch => some watch | .notifier _ _ => none

/-- **The invariant of the server**: of all watches ever registered, the
container holds the first one on each descriptor. -/
structure Registry (inotifyAddWatch : String → Option ℕ) (s : InotifyServer) : Prop where
  descriptor : ∀ watch ∈ s.registered,
    inotifyAddWatch watch.directory = some watch.watchDescriptor
  subset : ∀ watch ∈ s.watchDescriptorsMap.watches, watch ∈ s.registered
  first : ∀ wd, s.watchDescriptorsMap.findByWatchDescriptor wd =
    s.registered.find? fun watch => watch.watchDescriptor = wd

variable {inotifyAddWatch : String → Option ℕ} {regexMatch : String → String → Bool}

theorem registered_register (s : InotifyServer) (watch : Watch) :
    (s.register watch).registered = s.registered ++ [watch] := by
  simp [registered, register]

theorem registered_call (s : InotifyServer) (notifier : Notifier) (event : Event) :
    (s.call notifier event).registered = s.registered := by
  simp [registered, call]

theorem Registry.start : Registry inotifyAddWatch start where
  descriptor := by simp [InotifyServer.start, registered]
  subset := by simp [InotifyServer.start, WatchDescriptorsMap.empty]
  first _ := rfl

theorem Registry.call {s : InotifyServer} (h : Registry inotifyAddWatch s) (notifier : Notifier)
    (event : Event) : Registry inotifyAddWatch (s.call notifier event) where
  descriptor := by
    rw [registered_call]
    exact h.descriptor
  subset := by
    rw [registered_call]
    exact h.subset
  first := by
    rw [registered_call]
    exact h.first

/-- A watch whose path is taken has its descriptor taken as well: one directory
has one descriptor. -/
theorem Registry.descriptor_mem_of_path_mem {s : InotifyServer} (h : Registry inotifyAddWatch s)
    {watch : Watch} (hwatch : inotifyAddWatch watch.directory = some watch.watchDescriptor)
    (hpath : watch.path ∈ s.watchDescriptorsMap.watches.map Watch.path) :
    watch.watchDescriptor ∈ s.watchDescriptorsMap.watches.map Watch.watchDescriptor := by
  obtain ⟨other, hother, heq⟩ := List.mem_map.mp hpath
  have hdirectory : other.directory = watch.directory := congrArg Prod.fst heq
  have hdescriptor := h.descriptor other (h.subset other hother)
  rw [hdirectory, hwatch] at hdescriptor
  exact List.mem_map.mpr ⟨other, hother, (Option.some.inj hdescriptor).symm⟩

/-- **The invariant survives a registration**: a watch on a descriptor that is
taken is refused, and so is not the first on it; one on a free descriptor is
taken, and is the first. -/
theorem Registry.register {s : InotifyServer} (h : Registry inotifyAddWatch s) {watch : Watch}
    (hwatch : inotifyAddWatch watch.directory = some watch.watchDescriptor) :
    Registry inotifyAddWatch (s.register watch) where
  descriptor := by
    intro other hother
    rw [registered_register, List.mem_append, List.mem_singleton] at hother
    rcases hother with hother | rfl
    · exact h.descriptor other hother
    · exact hwatch
  subset := by
    intro other hother
    rw [registered_register, List.mem_append, List.mem_singleton]
    rw [InotifyServer.register, WatchDescriptorsMap.addWatch] at hother
    split_ifs at hother with hkey
    · exact Or.inl (h.subset other hother)
    · rcases List.mem_append.mp hother with hother | hother
      · exact Or.inl (h.subset other hother)
      · exact Or.inr (List.mem_singleton.mp hother)
  first := by
    intro wd
    have hfirst := h.first wd
    rw [WatchDescriptorsMap.findByWatchDescriptor] at hfirst
    rw [registered_register, List.find?_append, ← hfirst, InotifyServer.register,
      WatchDescriptorsMap.findByWatchDescriptor, WatchDescriptorsMap.addWatch]
    split_ifs with hkey
    · -- the descriptor is taken, by a watch that was registered before
      have htaken : watch.watchDescriptor ∈
          s.watchDescriptorsMap.watches.map Watch.watchDescriptor :=
        hkey.elim id (h.descriptor_mem_of_path_mem hwatch)
      by_cases hwd : watch.watchDescriptor = wd
      · obtain ⟨other, hother, heq⟩ := List.mem_map.mp htaken
        have hsome : (s.watchDescriptorsMap.watches.find?
            fun w => w.watchDescriptor = wd).isSome := by
          rw [List.find?_isSome]
          exact ⟨other, hother, by simpa using heq.trans hwd⟩
        rw [Option.or_of_isSome hsome]
      · simp [hwd]
    · -- the watch goes to the end of both lists
      rw [List.find?_append]

/-- **What a scan does**: it keeps the invariant, and calls notifiers with
`_INIT` events only. -/
structure Scans (inotifyAddWatch : String → Option ℕ) (s s' : InotifyServer) : Prop where
  registry : Registry inotifyAddWatch s → Registry inotifyAddWatch s'
  calls : ∃ new, s'.calls = s.calls ++ new ∧
    ∀ notifier event, .notifier notifier event ∈ new → event.eventType = .init

theorem Scans.refl (s : InotifyServer) : Scans inotifyAddWatch s s :=
  ⟨id, [], by simp, by simp⟩

theorem Scans.trans {s s' s'' : InotifyServer} (h : Scans inotifyAddWatch s s')
    (h' : Scans inotifyAddWatch s' s'') : Scans inotifyAddWatch s s'' := by
  obtain ⟨new, hnew, hinit⟩ := h.calls
  obtain ⟨new', hnew', hinit'⟩ := h'.calls
  refine ⟨h'.registry ∘ h.registry, new ++ new', by rw [hnew', hnew, List.append_assoc], ?_⟩
  intro notifier event hmem
  rcases List.mem_append.mp hmem with hmem | hmem
  · exact hinit notifier event hmem
  · exact hinit' notifier event hmem

theorem Scans.call (s : InotifyServer) (notifier : Notifier) {event : Event}
    (h : event.eventType = .init) : Scans inotifyAddWatch s (s.call notifier event) := by
  refine ⟨fun hs => hs.call notifier event, [.notifier notifier event], rfl, ?_⟩
  intro notifier' event' hmem
  rw [List.mem_singleton] at hmem
  obtain ⟨-, rfl⟩ := WatchCall.notifier.inj hmem
  exact h

theorem Scans.register (s : InotifyServer) {watch : Watch}
    (h : inotifyAddWatch watch.directory = some watch.watchDescriptor) :
    Scans inotifyAddWatch s (s.register watch) :=
  ⟨fun hs => hs.register h, [.addWatch watch], rfl, by simp⟩

section Step

variable {addWatch : AddWatch} {fs : FileTree}

/-- **What `Watch::notify` can do**: nothing, if the file does not match; watch
it, if it is a directory; and else call the notifier of the watch. -/
theorem watchNotify_cases
    (hadd : ∀ path notifier s s', addWatch path notifier s = some s' → Scans inotifyAddWatch s s')
    {watch : Watch} {event : Event} {s s' : InotifyServer}
    (h : watchNotify regexMatch addWatch fs watch event s = some s') :
    let filename := watch.directory ++ "/" ++ event.source.filename
    (regexMatch watch.pattern filename = false ∧ s' = s) ∨
      (regexMatch watch.pattern filename = true ∧ fs.isDirectory filename = true ∧
        Scans inotifyAddWatch s s') ∨
      (regexMatch watch.pattern filename = true ∧ fs.isDirectory filename = false ∧
        ∃ t, Scans inotifyAddWatch s t ∧ s' = t.call watch.notifier
          ⟨event.watchDescriptor, event.eventType, ⟨filename, none⟩⟩) := by
  intro filename
  rw [watchNotify] at h
  cases hmatch : regexMatch watch.pattern filename with
  | false =>
    simp only [filename] at hmatch
    simp only [hmatch, Bool.false_eq_true, if_false, Option.some.injEq] at h
    exact Or.inl ⟨rfl, h.symm⟩
  | true =>
    simp only [filename] at hmatch
    simp only [hmatch, if_true] at h
    cases hdirectory : fs.isDirectory filename with
    | true =>
      simp only [filename] at hdirectory
      simp only [hdirectory, if_true] at h
      exact Or.inr (Or.inl ⟨rfl, rfl, hadd _ _ _ _ h⟩)
    | false =>
      simp only [filename] at hdirectory
      simp only [hdirectory, Bool.false_eq_true, if_false] at h
      refine Or.inr (Or.inr ⟨rfl, rfl, ?_⟩)
      -- the target of a link is watched before the notifier is called
      split at h
      · obtain ⟨t, hlinked, hcall⟩ := Option.bind_eq_some_iff.mp h
        exact ⟨t, hadd _ _ _ _ hlinked, (Option.some.inj hcall).symm⟩
      · exact ⟨s, .refl s, (Option.some.inj h).symm⟩

/-- The `_INIT` event of a scan. -/
theorem notify_scans
    (hadd : ∀ path notifier s s', addWatch path notifier s = some s' → Scans inotifyAddWatch s s')
    {wd : ℕ} {event : Event} (hinit : event.eventType = .init) {s s' : InotifyServer}
    (h : notify regexMatch addWatch fs wd event s = some s') : Scans inotifyAddWatch s s' := by
  rw [notify] at h
  split at h
  · rcases watchNotify_cases hadd h with ⟨-, rfl⟩ | ⟨-, -, hscan⟩ | ⟨-, -, t, hscan, rfl⟩
    · exact .refl s'
    · exact hscan
    · exact hscan.trans (.call t _ hinit)
  · obtain rfl := Option.some.inj h
    exact .refl s

theorem scanEntry_scans
    (hadd : ∀ path notifier s s', addWatch path notifier s = some s' → Scans inotifyAddWatch s s')
    {watch : Watch} {name : String} {s s' : InotifyServer}
    (h : scanEntry regexMatch addWatch fs watch s name = some s') :
    Scans inotifyAddWatch s s' := by
  rw [scanEntry] at h
  split at h
  · split at h
    · exact hadd _ _ _ _ h
    · split at h
      · obtain ⟨t, hlinked, hnotify⟩ := Option.bind_eq_some_iff.mp h
        exact (hadd _ _ _ _ hlinked).trans (notify_scans hadd rfl hnotify)
      · exact notify_scans hadd rfl h
  · obtain rfl := Option.some.inj h
    exact .refl s

theorem foldlM_scanEntry_scans
    (hadd : ∀ path notifier s s', addWatch path notifier s = some s' → Scans inotifyAddWatch s s')
    {watch : Watch} {names : List String} {s s' : InotifyServer}
    (h : names.foldlM (scanEntry regexMatch addWatch fs watch) s = some s') :
    Scans inotifyAddWatch s s' := by
  induction names generalizing s with
  | nil =>
    obtain rfl := Option.some.inj h
    exact .refl s
  | cons name names ih =>
    rw [List.foldlM_cons] at h
    obtain ⟨t, hentry, hrest⟩ := Option.bind_eq_some_iff.mp h
    exact (scanEntry_scans hadd hentry).trans (ih hrest)

end Step

/-- **Watching a path scans.** -/
theorem addWatch_scans (fuel : ℕ) (fs : FileTree) (path : String) (notifier : Notifier)
    (s s' : InotifyServer)
    (h : addWatch inotifyAddWatch regexMatch fuel fs path notifier s = some s') :
    Scans inotifyAddWatch s s' := by
  induction fuel generalizing path notifier s s' with
  | zero => simp [addWatch] at h
  | succ fuel ih =>
    cases hdescriptor : inotifyAddWatch (makeWatchPath fs path).1 with
    | none =>
      simp only [addWatch, hdescriptor] at h
      obtain rfl := Option.some.inj h
      exact .refl s
    | some wd =>
      -- the path is registered first, and a directory is scanned then
      rw [addWatch_eq inotifyAddWatch regexMatch hdescriptor] at h
      have hregister : Scans inotifyAddWatch s (s.register (watchOf fs path wd notifier)) :=
        .register s hdescriptor
      exact hregister.trans (foldlM_scanEntry_scans ih h)

/-! ### Runs of the server -/

/-- What happens to the server: a path is watched, or the kernel reports an event
of a directory it watches. Each finds the file system in a state of its own. -/
inductive ServerOp where
  | addWatch (fuel : ℕ) (fs : FileTree) (path : String) (notifier : Notifier) : ServerOp
  | event (fuel : ℕ) (fs : FileTree) (watchDescriptor : ℕ) (mask : Mask) (name : String) : ServerOp

section Run

variable (inotifyAddWatch : String → Option ℕ) (regexMatch : String → String → Bool)

/-- One operation, if it comes to an end. -/
def step (s : InotifyServer) : ServerOp → Option InotifyServer
  | .addWatch fuel fs path notifier =>
    addWatch inotifyAddWatch regexMatch fuel fs path notifier s
  | .event fuel fs wd mask name =>
    match mask.eventType with
    | some eventType =>
      notify regexMatch (addWatch inotifyAddWatch regexMatch fuel fs) fs wd
        ⟨wd, eventType, ⟨name, none⟩⟩ s
    | none => some s

/-- A list of operations, if each of them comes to an end. -/
def run (s : InotifyServer) (ops : List ServerOp) : Option InotifyServer :=
  ops.foldlM (step inotifyAddWatch regexMatch) s

end Run

/-- **The invariant survives an operation.** -/
theorem Registry.step {s s' : InotifyServer} (h : Registry inotifyAddWatch s) {op : ServerOp}
    (hstep : InotifyServer.step inotifyAddWatch regexMatch s op = some s') :
    Registry inotifyAddWatch s' := by
  cases op with
  | addWatch fuel fs path notifier =>
    exact (addWatch_scans fuel fs path notifier s s' hstep).registry h
  | event fuel fs wd mask name =>
    cases hmask : mask.eventType with
    | none =>
      simp only [InotifyServer.step, hmask, Option.some.injEq] at hstep
      exact hstep ▸ h
    | some eventType =>
      simp only [InotifyServer.step, hmask, notify] at hstep
      split at hstep
      · rcases watchNotify_cases (addWatch_scans fuel fs) hstep with
          ⟨-, rfl⟩ | ⟨-, -, hscan⟩ | ⟨-, -, t, hscan, rfl⟩
        · exact h
        · exact hscan.registry h
        · exact (hscan.registry h).call _ _
      · obtain rfl := Option.some.inj hstep
        exact h

theorem registry_run {s s' : InotifyServer} (h : Registry inotifyAddWatch s)
    {ops : List ServerOp} (hrun : run inotifyAddWatch regexMatch s ops = some s') :
    Registry inotifyAddWatch s' := by
  induction ops generalizing s with
  | nil =>
    obtain rfl := Option.some.inj hrun
    exact h
  | cons op ops ih =>
    rw [run, List.foldlM_cons] at hrun
    obtain ⟨t, hstep, hrest⟩ := Option.bind_eq_some_iff.mp hrun
    exact ih (h.step hstep) hrest

end InotifyServer

end Tail

end IqLogger
