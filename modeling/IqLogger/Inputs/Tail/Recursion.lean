import IqLogger.Inputs.Tail.Patterns
import IqLogger.Lib.Descent

/-!
# Recursive watching

`addWatch` calls itself: for a directory in the directory it scans, for the target
of a symbolic link, and once more through `Watch::notify` for that target. It
never asks whether a directory is watched already; the container refuses the
second watch, but the scan goes on.

A real directory is known by the descriptor the kernel has for it. Which paths a
call of `addWatch` calls itself on can be read off the file system
(`IqLogger.Tail.InotifyServer.calledOn`), as long as no directory is entered twice:
until then, the first watch on a descriptor is one that was there before, or the
one of the scan itself. So a call agrees with a descent along these paths
(`IqLogger.Tail.InotifyServer.addWatch_agrees`), and the main result,
`IqLogger.Tail.InotifyServer.entersOnce_iff`, says exactly when it comes to an end
and enters each real directory at most once: when no real directory is reached in
two ways. A link to a directory above it is one way too many, and the recursion
has no end then; a link to a file is another, as its directory is entered by the
scan and again by `Watch::notify`.
-/

namespace IqLogger

namespace Tail

namespace InotifyServer

/-! ### What a call calls itself on -/

section Calls

variable (inotifyAddWatch : String → Option ℕ) (regexMatch : String → String → Bool)
  (fs : FileTree)

/-- The real directory that `addWatch` enters. -/
def entersDirectory (path : String) : Option ℕ := inotifyAddWatch (makeWatchPath fs path).1

/-- What `Watch::notify` watches in turn, for a watch of the given directory and
pattern. -/
def notifyPaths (directory pattern name : String) : List String :=
  let filename := directory ++ "/" ++ name
  if regexMatch pattern filename then
    if fs.isDirectory filename then [filename] else (fs.readSymlink filename).toList
  else []

/-- What the scan watches in turn for an entry: a directory once; the target of a
link, and then whatever `Watch::notify` makes of the entry. -/
def entryPaths (first : String × String) (directory pattern name : String) : List String :=
  let filename := joinPath directory name
  if regexMatch pattern filename then
    if fs.isDirectory filename then [filename]
    else (fs.readSymlink filename).toList ++ notifyPaths regexMatch fs first.1 first.2 name
  else []

/-- The path and the pattern of the watch that answers for a descriptor while a
path is scanned: the first one from before, or else the one of the scan. -/
def firstPath (s : InotifyServer) (watchDescriptor : ℕ) (watchPath : String × String) :
    String × String :=
  ((s.registered.find? fun watch => watch.watchDescriptor = watchDescriptor).map
    Watch.path).getD watchPath

/-- **What `addWatch` calls itself on**, one call after the other. -/
def calledOn (s : InotifyServer) (path : String) : List String :=
  let watchPath := makeWatchPath fs path
  match inotifyAddWatch watchPath.1 with
  | none => []
  | some watchDescriptor =>
    ((fs.entries watchPath.1).getD []).flatMap
      (entryPaths regexMatch fs (firstPath s watchDescriptor watchPath) watchPath.1 watchPath.2)

end Calls

/-- The real directories that were entered between two states, in order. -/
def entered (s s' : InotifyServer) : List ℕ :=
  (s'.registered.drop s.registered.length).map Watch.watchDescriptor

variable {inotifyAddWatch : String → Option ℕ} {regexMatch : String → String → Bool}

theorem entered_of_append {s s' : InotifyServer} {new : List Watch}
    (h : s'.registered = s.registered ++ new) : entered s s' = new.map Watch.watchDescriptor := by
  rw [entered, h, List.drop_left]

/-- A scan adds to the watches registered. -/
theorem Scans.registered {s s' : InotifyServer} (h : Scans inotifyAddWatch s s') :
    ∃ more, s'.registered = s.registered ++ more := by
  obtain ⟨new, hnew, -⟩ := h.calls
  exact ⟨_, by rw [InotifyServer.registered, hnew, List.filterMap_append]; rfl⟩

/-- **The watch that answers for a scan**: with no directory entered twice, the one
from before, or else its own. -/
theorem first_eq {s t : InotifyServer} {new : List Watch} (h : Registry inotifyAddWatch t)
    (ht : t.registered = s.registered ++ new) (hnodup : (new.map Watch.watchDescriptor).Nodup)
    {own : Watch} (hown : own ∈ new) :
    t.watchDescriptorsMap.findByWatchDescriptor own.watchDescriptor =
      some ((s.registered.find? fun watch => watch.watchDescriptor = own.watchDescriptor).getD
        own) := by
  rw [h.first, ht, List.find?_append]
  cases hbefore : s.registered.find? fun watch => watch.watchDescriptor = own.watchDescriptor with
  | some watch => rfl
  | none =>
    rw [Option.none_or, Option.getD_none]
    cases hfound : new.find? fun watch => watch.watchDescriptor = own.watchDescriptor with
    | none =>
      have hnone := List.find?_eq_none.mp hfound own hown
      simp at hnone
    | some watch =>
      have hsame : watch.watchDescriptor = own.watchDescriptor := by
        simpa using List.find?_some hfound
      rw [List.inj_on_of_nodup_map hnodup (List.mem_of_find?_eq_some hfound) hown hsame]

/-! ### Agreement of a call with a descent -/

/-- **A part of a scan agrees with a part of a descent** that started in `s`, in
states with some watches of its own: the one comes to an end if the other does,
and enters the directories that the other meets, as long as none is entered twice. -/
structure Agrees (inotifyAddWatch : String → Option ℕ) (s : InotifyServer) (own : List Watch)
    (f : InotifyServer → Option InotifyServer) (keys : Option (List ℕ)) : Prop where
  scans : ∀ t t', f t = some t' → Scans inotifyAddWatch t t'
  complete : ∀ t new ks, Registry inotifyAddWatch t → t.registered = s.registered ++ new →
    own ⊆ new → keys = some ks → (new.map Watch.watchDescriptor ++ ks).Nodup →
    ∃ t' more, f t = some t' ∧ t'.registered = s.registered ++ (new ++ more) ∧
      more.map Watch.watchDescriptor = ks
  sound : ∀ t t' new more, Registry inotifyAddWatch t → t.registered = s.registered ++ new →
    own ⊆ new → f t = some t' → t'.registered = s.registered ++ (new ++ more) →
    ((new ++ more).map Watch.watchDescriptor).Nodup →
    keys = some (more.map Watch.watchDescriptor)

namespace Agrees

variable {s : InotifyServer} {own : List Watch} {f g : InotifyServer → Option InotifyServer}
  {keys keys' : Option (List ℕ)}

/-- A part of a scan that registers nothing. -/
theorem of_registered {f : InotifyServer → InotifyServer}
    (hscans : ∀ t, Scans inotifyAddWatch t (f t)) (hf : ∀ t, (f t).registered = t.registered) :
    Agrees inotifyAddWatch s own (fun t => some (f t)) (some []) where
  scans := by
    intro t t' h
    obtain rfl := Option.some.inj h
    exact hscans t
  complete := by
    intro t new ks _ ht _ hks _
    obtain rfl := Option.some.inj hks
    exact ⟨f t, [], rfl, by rw [hf, ht, List.append_nil], rfl⟩
  sound := by
    intro t t' new more _ ht _ h ht' _
    obtain rfl := Option.some.inj h
    rw [hf, ht] at ht'
    have hmore : more = [] := by simpa using ht'
    rw [hmore, List.map_nil]

theorem refl : Agrees inotifyAddWatch s own some (some []) :=
  of_registered (f := fun t => t) .refl fun _ => rfl

theorem call (notifier : Notifier) {event : Event} (hinit : event.eventType = .init) :
    Agrees inotifyAddWatch s own (fun t => some (t.call notifier event)) (some []) :=
  of_registered (fun t => .call t notifier hinit) fun t => registered_call t notifier event

theorem mono {own' : List Watch} (h : Agrees inotifyAddWatch s own f keys) (hsub : own ⊆ own') :
    Agrees inotifyAddWatch s own' f keys where
  scans := h.scans
  complete t new ks hreg ht hown := h.complete t new ks hreg ht (List.Subset.trans hsub hown)
  sound t t' new more hreg ht hown := h.sound t t' new more hreg ht (List.Subset.trans hsub hown)

/-- Two parts of a scan, one after the other. -/
theorem bind (hf : Agrees inotifyAddWatch s own f keys)
    (hg : Agrees inotifyAddWatch s own g keys') :
    Agrees inotifyAddWatch s own (fun t => (f t).bind g)
      (keys.bind fun ks => keys'.map (ks ++ ·)) where
  scans := by
    intro t t' h
    obtain ⟨u, hu, ht'⟩ := Option.bind_eq_some_iff.mp h
    exact (hf.scans t u hu).trans (hg.scans u t' ht')
  complete := by
    intro t new ks hreg ht hown hks hnodup
    obtain ⟨first, rfl, hrest⟩ := Option.bind_eq_some_iff.mp hks
    obtain ⟨rest, rfl, rfl⟩ := Option.map_eq_some_iff.mp hrest
    rw [← List.append_assoc] at hnodup
    obtain ⟨u, more, hu, hureg, rfl⟩ :=
      hf.complete t new first hreg ht hown rfl (List.Nodup.of_append_left hnodup)
    rw [← List.map_append] at hnodup
    obtain ⟨t', more', ht', ht'reg, rfl⟩ := hg.complete u (new ++ more) rest
      ((hf.scans t u hu).registry hreg) hureg (List.subset_append_of_subset_left more hown) rfl
      hnodup
    refine ⟨t', more ++ more', ?_, ?_, List.map_append⟩
    · rw [hu, Option.bind_some, ht']
    · rw [ht'reg, List.append_assoc]
  sound := by
    intro t t' new more hreg ht hown h ht' hnodup
    obtain ⟨u, hu, hrest⟩ := Option.bind_eq_some_iff.mp h
    obtain ⟨first, hfirst⟩ := (hf.scans t u hu).registered
    obtain ⟨rest, hrestreg⟩ := (hg.scans u t' hrest).registered
    rw [ht, List.append_assoc] at hfirst
    rw [hfirst, ht', List.append_assoc, List.append_assoc] at hrestreg
    obtain rfl : more = first ++ rest := by simpa using hrestreg
    rw [← List.append_assoc new] at hnodup ht'
    have hfirstnodup : ((new ++ first).map Watch.watchDescriptor).Nodup := by
      rw [List.map_append] at hnodup
      exact List.Nodup.of_append_left hnodup
    rw [hf.sound t u new first hreg ht hown hu hfirst hfirstnodup,
      hg.sound u t' (new ++ first) rest ((hf.scans t u hu).registry hreg) hfirst
        (List.subset_append_of_subset_left first hown) hrest ht' hnodup,
      List.map_append]
    rfl

/-- A registration, and what comes after it. -/
theorem register {watch : Watch}
    (hwatch : inotifyAddWatch watch.directory = some watch.watchDescriptor)
    (h : Agrees inotifyAddWatch s (watch :: own) f keys) :
    Agrees inotifyAddWatch s own (fun t => f (t.register watch))
      (keys.map ([watch.watchDescriptor] ++ ·)) where
  scans t t' hf := (Scans.register t hwatch).trans (h.scans _ t' hf)
  complete := by
    intro t new ks hreg ht hown hks hnodup
    obtain ⟨rest, rfl, rfl⟩ := Option.map_eq_some_iff.mp hks
    have hreg' := hreg.register hwatch
    obtain ⟨t', more, hf, ht', rfl⟩ := h.complete (t.register watch) (new ++ [watch]) rest hreg'
      (by rw [registered_register, ht, List.append_assoc])
      (List.cons_subset.mpr ⟨by simp, List.subset_append_of_subset_left _ hown⟩) rfl
      (by rwa [List.map_append, List.append_assoc])
    exact ⟨t', watch :: more, hf, by rw [ht', List.append_assoc, List.singleton_append], rfl⟩
  sound := by
    intro t t' new more hreg ht hown hf ht' hnodup
    have hadded : (t.register watch).registered = s.registered ++ (new ++ [watch]) := by
      rw [registered_register, ht, List.append_assoc]
    obtain ⟨rest, hrest⟩ := (h.scans _ t' hf).registered
    rw [hadded, ht', List.append_assoc, List.append_assoc] at hrest
    obtain rfl : more = [watch] ++ rest := by simpa using hrest
    rw [← List.append_assoc new] at ht' hnodup
    rw [h.sound (t.register watch) t' (new ++ [watch]) rest (hreg.register hwatch) hadded
      (List.cons_subset.mpr ⟨by simp, List.subset_append_of_subset_left _ hown⟩) hf ht' hnodup]
    rfl

/-- What a part of a scan does need only be known while no directory is entered
twice. -/
theorem congr (h : Agrees inotifyAddWatch s own g keys)
    (hscans : ∀ t t', f t = some t' → Scans inotifyAddWatch t t')
    (heq : ∀ t new, Registry inotifyAddWatch t → t.registered = s.registered ++ new → own ⊆ new →
      (new.map Watch.watchDescriptor).Nodup → f t = g t) :
    Agrees inotifyAddWatch s own f keys where
  scans := hscans
  complete := by
    intro t new ks hreg ht hown hks hnodup
    rw [heq t new hreg ht hown (List.Nodup.of_append_left hnodup)]
    exact h.complete t new ks hreg ht hown hks hnodup
  sound := by
    intro t t' new more hreg ht hown hf ht' hnodup
    have hnew : (new.map Watch.watchDescriptor).Nodup := by
      rw [List.map_append] at hnodup
      exact List.Nodup.of_append_left hnodup
    rw [heq t new hreg ht hown hnew] at hf
    exact h.sound t t' new more hreg ht hown hf ht' hnodup

end Agrees

/-! ### The parts of a call -/

section Parts

open Descent

variable {addWatch : AddWatch} {fs : FileTree} {s : InotifyServer}
  {met : String → Option (List ℕ)}

theorem watchNotify_agrees
    (hadd : ∀ path notifier, Agrees inotifyAddWatch s [] (addWatch path notifier) (met path))
    (own : List Watch) (watch : Watch) {event : Event} (hinit : event.eventType = .init) :
    Agrees inotifyAddWatch s own (watchNotify regexMatch addWatch fs watch event)
      (inOrder ((notifyPaths regexMatch fs watch.directory watch.pattern
        event.source.filename).map met)) := by
  have hadd' : ∀ path notifier, Agrees inotifyAddWatch s own (addWatch path notifier) (met path) :=
    fun path notifier => (hadd path notifier).mono (List.nil_subset own)
  unfold watchNotify notifyPaths
  dsimp only
  split_ifs with hmatch hdirectory
  · -- a directory is watched, and no more is done
    rw [List.map_singleton, inOrder_cons, inOrder_nil]
    simpa using hadd' _ _
  · cases hlink : fs.readSymlink (watch.directory ++ "/" ++ event.source.filename) with
    | none => exact .call watch.notifier hinit
    | some linked =>
      rw [Option.toList_some, List.map_singleton, inOrder_cons]
      exact (hadd' linked _).bind (.call watch.notifier hinit)
  · exact .refl

theorem notify_agrees
    (hadd : ∀ path notifier, Agrees inotifyAddWatch s [] (addWatch path notifier) (met path))
    {own : List Watch} {watch : Watch} (hwatch : watch ∈ own) {event : Event}
    (hinit : event.eventType = .init) :
    Agrees inotifyAddWatch s own (notify regexMatch addWatch fs watch.watchDescriptor event)
      (inOrder ((notifyPaths regexMatch fs (firstPath s watch.watchDescriptor watch.path).1
        (firstPath s watch.watchDescriptor watch.path).2 event.source.filename).map met)) := by
  have hfirst : firstPath s watch.watchDescriptor watch.path =
      ((s.registered.find? fun w => w.watchDescriptor = watch.watchDescriptor).getD
        watch).path := by
    rw [firstPath]
    cases s.registered.find? fun w => w.watchDescriptor = watch.watchDescriptor <;> rfl
  rw [hfirst]
  refine (watchNotify_agrees hadd own _ hinit).congr ?_ ?_
  · intro t t'
    exact notify_scans (fun path notifier => (hadd path notifier).scans) hinit
  · intro t new hreg ht hown hnodup
    rw [notify, first_eq hreg ht hnodup (hown hwatch)]

theorem scanEntry_agrees
    (hadd : ∀ path notifier, Agrees inotifyAddWatch s [] (addWatch path notifier) (met path))
    {own : List Watch} {watch : Watch} (hwatch : watch ∈ own) (name : String) :
    Agrees inotifyAddWatch s own (fun t => scanEntry regexMatch addWatch fs watch t name)
      (inOrder ((entryPaths regexMatch fs (firstPath s watch.watchDescriptor watch.path)
        watch.directory watch.pattern name).map met)) := by
  have hadd' : ∀ path notifier, Agrees inotifyAddWatch s own (addWatch path notifier) (met path) :=
    fun path notifier => (hadd path notifier).mono (List.nil_subset own)
  let event : Event := ⟨watch.watchDescriptor, .init, ⟨name, none⟩⟩
  have hinit : event.eventType = .init := rfl
  have hnotify : Agrees inotifyAddWatch s own
      (notify regexMatch addWatch fs watch.watchDescriptor event)
      (inOrder ((notifyPaths regexMatch fs (firstPath s watch.watchDescriptor watch.path).1
        (firstPath s watch.watchDescriptor watch.path).2 name).map met)) :=
    notify_agrees hadd hwatch hinit
  unfold scanEntry entryPaths
  dsimp only
  split_ifs with hmatch hdirectory
  · rw [List.map_singleton, inOrder_cons, inOrder_nil]
    simpa using hadd' _ _
  · cases hlink : fs.readSymlink (joinPath watch.directory name) with
    | none => exact hnotify
    | some linked =>
      rw [Option.toList_some, List.singleton_append, List.map_cons, inOrder_cons]
      exact (hadd' linked _).bind hnotify
  · exact .refl

theorem foldlM_scanEntry_agrees
    (hadd : ∀ path notifier, Agrees inotifyAddWatch s [] (addWatch path notifier) (met path))
    {own : List Watch} {watch : Watch} (hwatch : watch ∈ own) (names : List String) :
    Agrees inotifyAddWatch s own
      (fun t => names.foldlM (scanEntry regexMatch addWatch fs watch) t)
      (inOrder ((names.flatMap (entryPaths regexMatch fs
        (firstPath s watch.watchDescriptor watch.path) watch.directory watch.pattern)).map
        met)) := by
  induction names with
  | nil => exact .refl
  | cons name names ih =>
    rw [List.flatMap_cons, List.map_append, inOrder_append]
    exact (scanEntry_agrees hadd hwatch name).bind ih

end Parts

/-- **A call of `addWatch` agrees with a descent** along the paths it calls itself
on. -/
theorem addWatch_agrees (fs : FileTree) (s : InotifyServer) (fuel : ℕ) (path : String)
    (notifier : Notifier) :
    Agrees inotifyAddWatch s [] (addWatch inotifyAddWatch regexMatch fuel fs path notifier)
      (Descent.descend (calledOn inotifyAddWatch regexMatch fs s)
        (entersDirectory inotifyAddWatch fs) fuel path) := by
  induction fuel generalizing path notifier with
  | zero =>
    constructor
    · intro t t' h
      simp [addWatch] at h
    · intro t new ks _ _ _ h
      simp [Descent.descend] at h
    · intro t t' new more _ _ _ h
      simp [addWatch] at h
  | succ fuel ih =>
    rw [Descent.descend, entersDirectory, calledOn]
    cases hdescriptor : inotifyAddWatch (makeWatchPath fs path).1 with
    | none =>
      have hcall : addWatch inotifyAddWatch regexMatch (fuel + 1) fs path notifier = some := by
        funext t
        simp only [addWatch, hdescriptor]
      rw [hcall]
      exact .refl
    | some wd =>
      let watch := watchOf fs path wd notifier
      have hcall : addWatch inotifyAddWatch regexMatch (fuel + 1) fs path notifier =
          fun t => ((fs.entries (makeWatchPath fs path).1).getD []).foldlM (scanEntry regexMatch
            (addWatch inotifyAddWatch regexMatch fuel fs) fs watch) (t.register watch) := by
        funext t
        exact addWatch_eq inotifyAddWatch regexMatch hdescriptor fuel notifier t
      have hwatch : watch ∈ [watch] := List.mem_cons_self
      rw [hcall]
      exact (foldlM_scanEntry_agrees ih hwatch _).register hdescriptor

/-! ### When each real directory is entered at most once -/

/-- **When watching a path comes to an end and enters each real directory at most
once**: when no real directory lies at the end of two different chains of calls
from the path, in a file system of finitely many directories. -/
theorem entersOnce_iff (inotifyAddWatch : String → Option ℕ)
    (regexMatch : String → String → Bool) (hfinite : (Set.range inotifyAddWatch).Finite)
    (ops : List ServerOp) (s : InotifyServer)
    (hrun : run inotifyAddWatch regexMatch start ops = some s) (fs : FileTree) (path : String)
    (notifier : Notifier) :
    (∃ fuel s', addWatch inotifyAddWatch regexMatch fuel fs path notifier s = some s' ∧
      (entered s s').Nodup) ↔
    Descent.OneWay (calledOn inotifyAddWatch regexMatch fs s) (entersDirectory inotifyAddWatch fs)
      path := by
  have hreg : Registry inotifyAddWatch s := registry_run .start hrun
  have hkeys : (Set.range (entersDirectory inotifyAddWatch fs)).Finite := by
    refine hfinite.subset ?_
    rintro _ ⟨p, rfl⟩
    exact ⟨(makeWatchPath fs p).1, rfl⟩
  have hleaf : ∀ p, entersDirectory inotifyAddWatch fs p = none →
      calledOn inotifyAddWatch regexMatch fs s p = [] := by
    intro p hp
    rw [entersDirectory] at hp
    simp only [calledOn, hp]
  rw [← Descent.descend_nodup_iff hkeys hleaf]
  constructor
  · rintro ⟨fuel, s', hadd, hnodup⟩
    obtain ⟨more, hmore⟩ := (addWatch_scans fuel fs path notifier s s' hadd).registered
    rw [entered_of_append hmore] at hnodup
    exact ⟨fuel, _, (addWatch_agrees fs s fuel path notifier).sound s s' [] more hreg
      (List.append_nil _).symm (List.Subset.refl []) hadd hmore hnodup, hnodup⟩
  · rintro ⟨fuel, keys, hdescend, hnodup⟩
    obtain ⟨s', more, hadd, hmore, rfl⟩ := (addWatch_agrees fs s fuel path notifier).complete s []
      keys hreg (List.append_nil _).symm (List.Subset.refl []) hdescend hnodup
    exact ⟨fuel, s', hadd, by rwa [entered_of_append hmore]⟩

section Example

/-- A kernel with a directory and one below it. -/
def nestedKernel (directory : String) : Option ℕ :=
  if directory = "/v" then some 1 else if directory = "/v/w" then some 2 else none

/-- A directory with one entry, which is an empty directory. -/
def nestedTree : FileTree where
  isDirectory path := path == "/v" || path == "/v/w"
  readSymlink _ := none
  entries path := if path = "/v" then some ["w"] else some []

/-- The two directories are entered once each. -/
theorem nested_oneWay :
    Descent.OneWay (calledOn nestedKernel EcmaScript.regexMatch nestedTree start)
      (entersDirectory nestedKernel nestedTree) "/v" := by
  have hfinite : (Set.range nestedKernel).Finite := by
    refine (Set.toFinite {some 1, some 2, none}).subset ?_
    rintro _ ⟨directory, rfl⟩
    rw [nestedKernel]
    split_ifs <;> simp
  -- the inner directory is empty, the outer one has the inner one for an entry
  have hinner : ∀ s, addWatch nestedKernel EcmaScript.regexMatch 1 nestedTree "/v/w" (.monitor 1)
      s = some (s.register ⟨2, "/v/w", "/v/w/(.*)", .monitor 1⟩) := fun _ => rfl
  have hpath : makeWatchPath nestedTree "/v" = ("/v", "/v/(.*)") := rfl
  have hkernel : nestedKernel "/v" = some 1 := rfl
  have hentries : nestedTree.entries "/v" = some ["w"] := rfl
  have hjoin : joinPath "/v" "w" = "/v/w" := rfl
  have hmatch : EcmaScript.regexMatch "/v/(.*)" "/v/w" = true := by decide +kernel
  have hdirectory : nestedTree.isDirectory "/v/w" = true := rfl
  have hadd : addWatch nestedKernel EcmaScript.regexMatch 2 nestedTree "/v" (.monitor 1) start =
      some ((start.register ⟨1, "/v", "/v/(.*)", .monitor 1⟩).register
        ⟨2, "/v/w", "/v/w/(.*)", .monitor 1⟩) := by
    rw [addWatch]
    simp only [hpath, hkernel, hentries, List.foldlM_cons, scanEntry, hjoin, hmatch, hdirectory,
      if_true, hinner]
    rfl
  refine (entersOnce_iff nestedKernel EcmaScript.regexMatch hfinite [] start rfl nestedTree "/v"
    (.monitor 1)).mp ⟨2, _, hadd, ?_⟩
  have hentered : entered start ((start.register ⟨1, "/v", "/v/(.*)", .monitor 1⟩).register
      ⟨2, "/v/w", "/v/w/(.*)", .monitor 1⟩) = [1, 2] := rfl
  rw [hentered]
  simp

/-- The ways to write a directory `/a` that has a link `l` to itself. -/
def linkPath (n : ℕ) : String :=
  String.ofList ('/' :: 'a' :: (List.replicate n ['/', 'l']).flatten)

/-- A path goes through the link, any number of times. -/
def throughLinks : List Char → Bool
  | '/' :: 'l' :: rest => throughLinks rest
  | rest => rest.isEmpty

/-- A path names the directory `/a`. -/
def isLinkPath (path : String) : Bool :=
  "/a".toList.isPrefixOf path.toList && throughLinks (path.toList.drop 2)

/-- A kernel with one directory `/a`. -/
def linkKernel (directory : String) : Option ℕ := if isLinkPath directory then some 1 else none

/-- A directory `/a` whose one entry `l` is a symbolic link to `/a`. -/
def linkTree : FileTree where
  isDirectory := isLinkPath
  readSymlink path := if isLinkPath path ∧ path ≠ "/a" then some "/a" else none
  entries path := if isLinkPath path then some ["l"] else none

theorem isLinkPath_linkPath (n : ℕ) : isLinkPath (linkPath n) = true := by
  have hthrough : throughLinks (List.replicate n ['/', 'l']).flatten = true := by
    induction n with
    | zero => rfl
    | succ n ih => exact ih
  rw [isLinkPath, linkPath, String.toList_ofList]
  simpa using hthrough

theorem linkPath_succ (n : ℕ) : linkPath (n + 1) = linkPath n ++ "/" ++ "l" := by
  rw [← String.toList_inj]
  simp [linkPath, List.replicate_succ']

theorem joinPath_linkPath (n : ℕ) : joinPath (linkPath n) "l" = linkPath (n + 1) := by
  have hne : linkPath n ≠ "" := by
    rw [ne_eq, ← String.toList_inj]
    simp [linkPath]
  have hlast : (linkPath n).toList.getLast? ≠ some '/' := by
    cases n with
    | zero => simp [linkPath]
    | succ n => simp [linkPath_succ]
  rw [joinPath, if_neg (not_or.mpr ⟨hne, hlast⟩), linkPath_succ]

/-- The pattern of a path matches the link in it. -/
theorem regexMatch_linkPath (n : ℕ) :
    EcmaScript.regexMatch (linkPath n ++ "/(.*)") (linkPath (n + 1)) = true := by
  have hliteral : ∀ c ∈ (linkPath n).toList, EcmaScript.isLiteral c = true := by
    intro c hc
    rw [linkPath, String.toList_ofList] at hc
    have hmem : c = '/' ∨ c = 'a' ∨ c = 'l' := by
      simp only [List.mem_cons, List.mem_flatten, List.mem_replicate] at hc
      aesop
    rcases hmem with rfl | rfl | rfl <;> rfl
  have hline : OneLine "l" := by
    intro c hc
    obtain rfl : c = 'l' := by simpa using hc
    rfl
  rw [linkPath_succ]
  exact regexMatch_plain hliteral hline

/-- **The recursion through the link has no end**: no amount of fuel is enough. -/
theorem addWatch_linkPath (fuel n : ℕ) (notifier : Notifier) (s : InotifyServer) :
    addWatch linkKernel EcmaScript.regexMatch fuel linkTree (linkPath n) notifier s = none := by
  induction fuel generalizing n notifier s with
  | zero => rfl
  | succ fuel ih =>
    have hdirectory : linkTree.isDirectory (linkPath n) = true := isLinkPath_linkPath n
    have hpath : makeWatchPath linkTree (linkPath n) = (linkPath n, linkPath n ++ "/(.*)") := by
      rw [makeWatchPath, if_pos hdirectory]
    have hkernel : linkKernel (linkPath n) = some 1 := if_pos (isLinkPath_linkPath n)
    have hentries : linkTree.entries (linkPath n) = some ["l"] := if_pos (isLinkPath_linkPath n)
    have hnext : linkTree.isDirectory (linkPath (n + 1)) = true := isLinkPath_linkPath (n + 1)
    simp only [addWatch, hpath, hkernel, hentries, List.foldlM_cons, scanEntry, joinPath_linkPath,
      regexMatch_linkPath, hnext, if_true, ih]
    rfl

/-- **Watching a directory need not come to an end**: `/a` with a link to itself,
one real directory under all its paths. -/
theorem link_has_no_end :
    ¬∀ (inotifyAddWatch : String → Option ℕ) (regexMatch : String → String → Bool) (fs : FileTree)
      (path : String) (notifier : Notifier), (Set.range inotifyAddWatch).Finite →
      fs.isDirectory path = true →
      ∃ fuel s', addWatch inotifyAddWatch regexMatch fuel fs path notifier start = some s' ∧
        (entered start s').Nodup := by
  intro h
  have hfinite : (Set.range linkKernel).Finite := by
    refine (Set.toFinite {some 1, none}).subset ?_
    rintro _ ⟨directory, rfl⟩
    rw [linkKernel]
    split_ifs <;> simp
  obtain ⟨fuel, s', hadd, -⟩ := h linkKernel EcmaScript.regexMatch linkTree (linkPath 0)
    (.monitor 1) hfinite (isLinkPath_linkPath 0)
  rw [addWatch_linkPath] at hadd
  exact absurd hadd.symm (Option.some_ne_none s')

end Example

end InotifyServer

end Tail

end IqLogger
