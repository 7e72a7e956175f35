import IqLogger.Inputs.Tail.Monitor
import Mathlib.Logic.Function.Basic

/-!
# A watched directory

Writers create, append to and rename the files of a watched directory, and one
monitor thread handles the events of it, in order and with any delay. A file is its
inode; the monitor has it open under the name the file had when the record was
made, or under the name `move` gave it since, and that name can be out of date. A
file loses its last name when another one is renamed over it.
-/

namespace IqLogger

namespace Tail

/-- A directory: the file under each name, and for each file its content and what
the link in `/proc/self/fd` of a descriptor of it reads. The files made so far are
those below `next`. -/
structure Directory where
  file : String → Option ℕ
  content : ℕ → Bytes
  path : ℕ → String
  next : ℕ

namespace Directory

variable (d : Directory)

/-- What a monitor sees of a directory of plain files. -/
def toFileSystem : FileSystem where
  openFile := d.file
  content := d.content
  readSymlink _ := none
  fdLink i := some (d.path i)

/-- The directory before any file. -/
def empty : Directory := ⟨fun _ => none, fun _ => [], fun _ => "", 0⟩

/-- A file is made. -/
def create (c : String) (bytes : Bytes) : Directory where
  file := Function.update d.file c (some d.next)
  content := Function.update d.content d.next bytes
  path := Function.update d.path d.next c
  next := d.next + 1

/-- Bytes are appended to a file. -/
def append (i : ℕ) (bytes : Bytes) : Directory :=
  { d with content := Function.update d.content i (d.content i ++ bytes) }

/-- A file is renamed. The file that had the name before, if there is one, loses it. -/
def rename (i : ℕ) (f g : String) : Directory where
  file := Function.update (Function.update d.file f none) g (some i)
  content := d.content
  path :=
    let path := match d.file g with
      | some j => Function.update d.path j (g ++ " (deleted)")
      | none => d.path
    Function.update path i g
  next := d.next

/-- The names after a rename. -/
theorem file_rename (i : ℕ) (f g c : String) :
    (d.rename i f g).file c =
      if c = g then some i else if c = f then none else d.file c := by
  rw [rename]
  simp only [Function.update_apply]

theorem path_rename_self (i : ℕ) (f g : String) : (d.rename i f g).path i = g :=
  Function.update_self ..

/-- The names the kernel shows after a rename. -/
theorem path_rename (i j : ℕ) (f g : String) (hj : j ≠ i) (hg : d.file g ≠ some j) :
    (d.rename i f g).path j = d.path j := by
  rw [rename]
  simp only [Function.update_of_ne hj]
  cases hg' : d.file g with
  | none => rfl
  | some j' => exact Function.update_of_ne (fun heq => hg (by rw [hg', heq])) ..

section Rename

variable {d} {i : ℕ} {f g : String}

/-- **What is found under a name has this name**, after a rename as before. -/
theorem name_rename (hname : ∀ c j, d.file c = some j → j < d.next ∧ d.path j = c ∧ c ≠ "")
    (hf : d.file f = some i) (hg : g ≠ "") (c : String) (j : ℕ)
    (hc : (d.rename i f g).file c = some j) :
    j < d.next ∧ (d.rename i f g).path j = c ∧ c ≠ "" := by
  rw [file_rename] at hc
  split_ifs at hc with hcg hcf
  · obtain rfl := Option.some.inj hc
    exact ⟨(hname f i hf).1, hcg ▸ d.path_rename_self i f g, hcg ▸ hg⟩
  · obtain ⟨hlt, hpath, hempty⟩ := hname c j hc
    have hj : j ≠ i := by
      rintro rfl
      exact hcf (hpath.symm.trans (hname f j hf).2.1)
    refine ⟨hlt, ?_, hempty⟩
    rw [d.path_rename i j f g hj fun hj' => hcg (hpath.symm.trans (hname g j hj').2.1)]
    exact hpath

/-- **Every file has a name**, after a rename to a free name as before. -/
theorem named_rename (hnamed : ∀ j < d.next, d.file (d.path j) = some j)
    (hf : d.file f = some i) (hfree : d.file g = none) (j : ℕ) (hj : j < d.next) :
    (d.rename i f g).file ((d.rename i f g).path j) = some j := by
  rw [file_rename]
  by_cases heq : j = i
  · rw [heq, if_pos (d.path_rename_self i f g)]
  · have hj' := hnamed j hj
    rw [d.path_rename i j f g heq (by simp [hfree]), if_neg, if_neg, hj']
    · rintro hjf
      rw [hjf, hf] at hj'
      exact heq (Option.some.inj hj').symm
    · rintro hjg
      rw [hjg, hfree] at hj'
      cases hj'

end Rename

/-- A file has lost its name. -/
def Nameless (i : ℕ) : Prop := ∀ c, d.file c ≠ some i

end Directory

/-- A watched directory and the monitor of it. The monitor thread runs until an
exception ends it. -/
structure System where
  directory : Directory
  queue : List (EventType × String)
  monitor : TailMonitor
  running : Bool

/-- What happens in a watched directory. -/
inductive SystemOp where
  | create (c : String) : SystemOp
  | append (c : String) (bytes : Bytes) : SystemOp
  | rename (f g : String) : SystemOp
  /-- The monitor thread handles an event. -/
  | handle : SystemOp
  deriving DecidableEq, Repr

/-- The event the inotify server makes of what the kernel reports. -/
def report (mask : Mask) (name : String) : List (EventType × String) :=
  (mask.eventType.map fun eventType => (eventType, name)).toList

namespace System

/-- A file is made, and reported. The empty text is no file name. -/
def addFile (s : System) (eventType : EventType) (c : String) (bytes : Bytes) : System :=
  if c ≠ "" ∧ s.directory.file c = none then
    { s with
      directory := s.directory.create c bytes
      queue := s.queue ++ [(eventType, c)] }
  else s

theorem addFile_running (s : System) (eventType : EventType) (c : String) (bytes : Bytes) :
    (s.addFile eventType c bytes).running = s.running := by
  rw [addFile]
  split_ifs <;> rfl

/-- The monitor thread handles the next event. -/
def handle (s : System) : System × List MonitorCall :=
  match s.running, s.queue with
  | true, (eventType, c) :: queue =>
    let out := s.monitor.handle s.directory.toFileSystem (fun _ => 0) ⟨0, eventType, ⟨c, none⟩⟩
    ({ s with queue := queue, monitor := out.monitor, running := out.outcome = .done }, out.calls)
  | _, _ => (s, [])

/-- One step of the system. -/
def step (s : System) : SystemOp → System × List MonitorCall
  | .create c => (s.addFile .create c [], [])
  | .append c bytes =>
    match s.directory.file c with
    | some i =>
      if bytes ≠ [] then
        ({ s with
            directory := s.directory.append i bytes
            queue := s.queue ++ report .modify c }, [])
      else (s, [])
    | none => (s, [])
  | .rename f g =>
    match s.directory.file f with
    | some i =>
      if g ≠ "" ∧ f ≠ g then
        ({ s with
            directory := s.directory.rename i f g
            queue := s.queue ++ (report .movedFrom f ++ report .movedTo g) }, [])
      else (s, [])
    | none => (s, [])
  | .handle => s.handle

/-- A system whose directory has some files when it is first scanned. -/
def start (startMsgRegEx : Option DelimiterRegex) (mode : StateMode)
    (files : List (String × Bytes)) : System :=
  files.foldl (fun s file => s.addFile .init file.1 file.2)
    ⟨.empty, [], .start startMsgRegEx mode, true⟩

end System

end Tail

end IqLogger
