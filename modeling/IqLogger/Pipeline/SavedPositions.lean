import IqLogger.Inputs.Tail.SharedTable
import IqLogger.Pipeline.Threads
import Mathlib.Data.List.DropRight

/-!
# The positions saved by the threads of the pipeline

A record of a file hands its messages on one after the other, and saves its position when it
has done so. Other threads make steps in between, and the file grows, but nobody else is
at the record. So the invariant of a file that is read by one thread
(`IqLogger.Tail.Checkpointed`) holds of a file that no thread is at, and of a file that a
thread is at it will hold when the calls that are left have been carried out
(`IqLogger.Pipeline.Positioned`).

At the moment a position is saved, what lies before it is what has been handed on: these
are the messages that are acknowledged (`IqLogger.Pipeline.acknowledged`).
-/

namespace IqLogger

namespace Pipeline

open Tail

variable {c : Config}

/-! ### The calls of a record -/

/-- The calls of the record of a file. -/
def callsOf (f : String) (history : List (String × Call)) : List Call :=
  history.filterMap fun x => if x.1 = f then some x.2 else none

/-- The messages of a record up to the position it saved last. -/
def acknowledged (calls : List Call) : List Bytes :=
  messages (calls.rdropWhile fun | .savePosition _ _ => false | _ => true)

section History

variable (h : List (String × Call)) (f : String) (calls : List Call)

theorem callsOf_append_self (call : Call) :
    callsOf f (h ++ [(f, call)]) = callsOf f h ++ [call] := by
  rw [callsOf, List.filterMap_append]
  simp [callsOf]

theorem callsOf_append_of_ne {g : String} (hg : g ≠ f) (call : Call) :
    callsOf f (h ++ [(g, call)]) = callsOf f h := by
  rw [callsOf, List.filterMap_append]
  simp [callsOf, hg]

/-- At a save all messages so far are acknowledged. -/
theorem acknowledged_savePosition (filename : String) (p : Int) :
    acknowledged (calls ++ [.savePosition filename p]) = messages calls := by
  rw [acknowledged, List.rdropWhile_concat_neg _ _ _ (by simp), messages_append]
  simp

theorem acknowledged_processBuffer (b : Bytes) :
    acknowledged (calls ++ [.processBuffer b]) = acknowledged calls := by
  rw [acknowledged, List.rdropWhile_concat_pos _ _ _ rfl]
  rfl

theorem acknowledged_processMessage (m : Bytes) :
    acknowledged (calls ++ [.processMessage m]) = acknowledged calls := by
  rw [acknowledged, List.rdropWhile_concat_pos _ _ _ rfl]
  rfl

end History

/-! ### The saved positions -/

/-- The calls that a thread of the input has still to carry out. -/
def Tailer.rest : Tailer → List Call
  | .reading _ calls => calls
  | .enqueueing _ m _ calls => .processMessage m :: calls
  | _ => []

open PointersTableInternalRecord (kept)

section Positions

variable {files : String → FileAtStart} {grown : Set String} {s t : System c}

/-- The files that only grow, and that were not truncated before the start. -/
def growing (files : String → FileAtStart) (events : List (Event c)) : Set String :=
  {f | (files f).position ≤ (files f).content.length ∧ ∀ content, .rewrite f content ∉ events}

/-- **What lies before a saved position was handed on**, if the file only grew. A file that
no thread is at is in the state that its record describes; and if a thread is at it,
then this will be so when the thread has carried out its calls, which save the position
in the end. -/
structure Positioned (files : String → FileAtStart) (grown : Set String) (s : System c) :
    Prop where
  name : ∀ f, (s.file f).record.source.filename = f
  alone : ∀ i j f, (s.tailer i).file = some f → (s.tailer j).file = some f → i = j
  own : ∀ i f, (s.tailer i).file = some f → ∀ save ∈ Tail.saved (s.tailer i).rest, save.1 = f
  idle : ∀ f ∈ grown, (∀ i, (s.tailer i).file ≠ some f) →
    Checkpointed c.startMsgRegEx (files f).position (s.file f) (callsOf f s.history)
  busy : ∀ f ∈ grown, ∀ i, (s.tailer i).file = some f → ∃ calls save,
    (s.tailer i).rest = calls ++ save ∧ Tail.saved calls = [] ∧
      (save = [] ∨ save = (s.file f).record.savePosition) ∧
      Checkpointed c.startMsgRegEx (files f).position (s.file f) (callsOf f s.history ++ calls)
  saved : ∀ f ∈ grown, ∀ p, s.saved f = some p → ∃ q : ℕ, p = q ∧ (files f).position ≤ q ∧
    q ≤ (s.file f).content.length ∧ (acknowledged (callsOf f s.history)).flatten =
      kept c.startMsgRegEx (between (s.file f).content (files f).position q)

theorem Positioned.mono (h : Positioned files grown s) {grown' : Set String}
    (hsub : grown' ⊆ grown) : Positioned files grown' s where
  name := h.name
  alone := h.alone
  own := h.own
  idle f hf := h.idle f (hsub hf)
  busy f hf := h.busy f (hsub hf)
  saved f hf := h.saved f (hsub hf)

/-- What does not change with a member of a family does not change with the family. -/
theorem apply_update_of_eq {κ α β : Type*} [DecidableEq κ] (p : α → β) {g : κ → α} {w : κ} {a : α}
    (h : p a = p (g w)) (v : κ) : p (Function.update g w a v) = p (g v) := by
  rw [Function.apply_update fun _ => p, h, Function.update_eq_self]

/-- A thread of the input changes, but not what it is at and has to do. -/
theorem Positioned.keep (h : Positioned files grown s) {i : c.Tailers} {next : Tailer}
    (hfile : next.file = (s.tailer i).file) (hrest : next.rest = (s.tailer i).rest)
    (input : MessageQueue TailRecord) :
    Positioned files grown { s with
      inputQueue := input
      tailer := Function.update s.tailer i next } := by
  have hfiles : ∀ j, (Function.update s.tailer i next j).file = (s.tailer j).file :=
    apply_update_of_eq Tailer.file hfile
  have hrests : ∀ j, (Function.update s.tailer i next j).rest = (s.tailer j).rest :=
    apply_update_of_eq Tailer.rest hrest
  refine ⟨h.name, ?_, ?_, ?_, ?_, h.saved⟩
  · simpa only [hfiles] using h.alone
  · simpa only [hfiles, hrests] using h.own
  · simpa only [hfiles] using h.idle
  · simpa only [hfiles, hrests] using h.busy

/-- A thread is done with a record. -/
theorem Positioned.finish (h : Positioned files grown s) {i : c.Tailers} {f : String}
    (hi : s.tailer i = .reading f []) :
    Positioned files grown { s with tailer := Function.update s.tailer i .running } := by
  have hfile : (s.tailer i).file = some f := by rw [hi, Tailer.file]
  have hself : Function.update s.tailer i .running i = .running := Function.update_self ..
  have hother : ∀ {j}, j ≠ i → Function.update s.tailer i .running j = s.tailer j :=
    fun hj => Function.update_of_ne hj ..
  refine ⟨h.name, fun j j' g hj hj' => ?_, fun j g hj => ?_, fun g hgrown hg => ?_,
    fun g hgrown j hj => ?_, h.saved⟩
  · dsimp only at hj hj'
    by_cases hji : j = i
    · rw [hji, hself] at hj
      cases hj
    · by_cases hji' : j' = i
      · rw [hji', hself] at hj'
        cases hj'
      · rw [hother hji] at hj
        rw [hother hji'] at hj'
        exact h.alone j j' g hj hj'
  · dsimp only at hj ⊢
    by_cases hji : j = i
    · rw [hji, hself] at hj
      cases hj
    · rw [hother hji] at hj ⊢
      exact h.own j g hj
  · by_cases hgf : g = f
    · subst hgf
      obtain ⟨calls, save, hrest, -, -, hcheck⟩ := h.busy g hgrown i hfile
      rw [hi, Tailer.rest] at hrest
      obtain ⟨rfl, -⟩ := List.append_eq_nil_iff.mp hrest.symm
      rwa [List.append_nil] at hcheck
    · refine h.idle g hgrown fun j hj => ?_
      by_cases hji : j = i
      · rw [hji, hfile] at hj
        exact hgf (Option.some.inj hj).symm
      · exact hg j (by dsimp only; rw [hother hji]; exact hj)
  · dsimp only at hj ⊢
    by_cases hji : j = i
    · rw [hji, hself] at hj
      cases hj
    · rw [hother hji] at hj ⊢
      exact h.busy g hgrown j hj

/-- What is known of the other files when a thread carries out a call of the record of `f`. -/
theorem Positioned.others (h : Positioned files grown s) {i : c.Tailers} {f : String}
    (hfile : (s.tailer i).file = some f) {call : Call} {calls : List Call}
    (hrest : (s.tailer i).rest = call :: calls)
    (saved : String → Option Int) (input : MessageQueue TailRecord)
    (hsaved : ∀ g, g ≠ f → saved g = s.saved g)
    (hbusy : f ∈ grown → ∃ calls' save, calls = calls' ++ save ∧ Tail.saved calls' = [] ∧
      (save = [] ∨ save = (s.file f).record.savePosition) ∧
      Checkpointed c.startMsgRegEx (files f).position (s.file f)
        (callsOf f s.history ++ [call] ++ calls'))
    (hack : f ∈ grown → ∀ p, saved f = some p → ∃ q : ℕ, p = q ∧ (files f).position ≤ q ∧
      q ≤ (s.file f).content.length ∧ (acknowledged (callsOf f s.history ++ [call])).flatten =
        kept c.startMsgRegEx (between (s.file f).content (files f).position q)) :
    Positioned files grown { s with
      saved := saved
      inputQueue := input
      tailer := Function.update s.tailer i (.reading f calls)
      history := s.history ++ [(f, call)] } := by
  have hfiles : ∀ j, (Function.update s.tailer i (.reading f calls) j).file =
      (s.tailer j).file := apply_update_of_eq Tailer.file hfile.symm
  refine ⟨h.name, ?_, fun j g hj save hsave => ?_, fun g hgrown hg => ?_,
    fun g hgrown j hj => ?_, fun g hgrown p hp => ?_⟩
  · simpa only [hfiles] using h.alone
  · simp only [hfiles] at hj
    dsimp only at hsave
    by_cases hji : j = i
    · subst hji
      rw [Function.update_self, Tailer.rest] at hsave
      refine h.own j g hj save ?_
      rw [hrest, ← List.singleton_append, saved_append]
      exact List.mem_append_right _ hsave
    · rw [Function.update_of_ne hji] at hsave
      exact h.own j g hj save hsave
  · simp only [hfiles] at hg
    have hgf : f ≠ g := by
      rintro rfl
      exact hg i hfile
    rw [callsOf_append_of_ne _ _ hgf]
    exact h.idle g hgrown hg
  · simp only [hfiles] at hj
    dsimp only
    by_cases hgf : g = f
    · subst hgf
      obtain rfl := h.alone i j g hfile hj
      rw [Function.update_self, callsOf_append_self]
      exact hbusy hgrown
    · have hji : j ≠ i := by
        rintro rfl
        rw [hfile] at hj
        exact hgf (Option.some.inj hj).symm
      rw [Function.update_of_ne hji, callsOf_append_of_ne _ _ (Ne.symm hgf)]
      exact h.busy g hgrown j hj
  · dsimp only at hp ⊢
    by_cases hgf : g = f
    · subst hgf
      rw [callsOf_append_self]
      exact hack hgrown p hp
    · rw [hsaved g hgf] at hp
      rw [callsOf_append_of_ne _ _ (Ne.symm hgf)]
      exact h.saved g hgrown p hp

/-- A thread carries out a call that saves no position. -/
theorem Positioned.carryOut (h : Positioned files grown s) {i : c.Tailers} {f : String}
    (hfile : (s.tailer i).file = some f) {call : Call} {calls : List Call}
    (hrest : (s.tailer i).rest = call :: calls)
    (hcall : ∀ filename p, call ≠ .savePosition filename p)
    (hack : ∀ cs, acknowledged (cs ++ [call]) = acknowledged cs)
    (input : MessageQueue TailRecord) :
    Positioned files grown { s with
      inputQueue := input
      tailer := Function.update s.tailer i (.reading f calls)
      history := s.history ++ [(f, call)] } := by
  refine h.others hfile hrest s.saved input (fun _ _ => rfl) (fun hgrown => ?_)
    fun hgrown p hp => ?_
  · obtain ⟨before, save, hcalls, hsaved, hsave, hcheck⟩ := h.busy f hgrown i hfile
    rw [hrest] at hcalls
    cases before with
    | nil =>
      -- the first call would be the one that saves the position
      rcases hsave with rfl | rfl
      · cases hcalls
      · rw [PointersTableInternalRecord.savePosition, if_pos hcheck.saveState] at hcalls
        exact absurd (List.cons.inj hcalls).1 (hcall _ _)
    | cons call' before =>
      obtain ⟨rfl, rfl⟩ := List.cons.inj hcalls
      refine ⟨before, save, rfl, ?_, hsave, by rwa [List.append_assoc]⟩
      have hsplit := saved_append [call] before
      rw [List.singleton_append, hsaved] at hsplit
      exact (List.append_eq_nil_iff.mp hsplit.symm).2
  · rw [hack]
    exact h.saved f hgrown p hp

/-- **A thread saves a position**: what lies before it has been handed on. -/
theorem Positioned.save (h : Positioned files grown s) {i : c.Tailers} {f : String}
    {filename : String} {p : Int} {calls : List Call}
    (hi : s.tailer i = .reading f (.savePosition filename p :: calls)) :
    Positioned files grown { s with
      saved := Function.update s.saved filename (some p)
      tailer := Function.update s.tailer i (.reading f calls)
      history := s.history ++ [(f, .savePosition filename p)] } := by
  have hfile : (s.tailer i).file = some f := by rw [hi, Tailer.file]
  have hrest : (s.tailer i).rest = .savePosition filename p :: calls := by rw [hi, Tailer.rest]
  obtain rfl : filename = f := h.own i f hfile (filename, p) (by simp [hrest])
  have hsaves : filename ∈ grown → ∃ q : ℕ, p = q ∧ calls = [] ∧
      Checkpointed c.startMsgRegEx (files filename).position (s.file filename)
        (callsOf filename s.history) ∧
      (files filename).position ≤ q ∧ q ≤ (s.file filename).content.length ∧
      (messages (callsOf filename s.history)).flatten =
        kept c.startMsgRegEx (between (s.file filename).content (files filename).position q) := by
    intro hgrown
    obtain ⟨before, save, hcalls, hsaved, hsave, hcheck⟩ := h.busy filename hgrown i hfile
    rw [hrest] at hcalls
    have hbefore : before = [] := by
      cases before with
      | nil => rfl
      | cons call' before =>
        obtain ⟨rfl, -⟩ := List.cons.inj hcalls
        simp at hsaved
    subst hbefore
    rw [List.append_nil] at hcheck
    rcases hsave with rfl | rfl
    · cases hcalls
    rw [PointersTableInternalRecord.savePosition, if_pos hcheck.saveState, h.name] at hcalls
    obtain ⟨hcall, rfl⟩ := List.cons.inj hcalls
    obtain ⟨-, rfl⟩ := Call.savePosition.inj hcall
    obtain ⟨q, hq, hsaved⟩ := hcheck.savePosition
    exact ⟨q, hq, rfl, hcheck, hsaved⟩
  refine h.others hfile hrest _ s.inputQueue (fun g hg => Function.update_of_ne hg ..)
    (fun hgrown => ?_) fun hgrown p' hp => ?_
  · obtain ⟨q, -, rfl, hcheck, -⟩ := hsaves hgrown
    exact ⟨[], [], rfl, rfl, Or.inl rfl,
      by rw [List.append_nil]; exact hcheck.append_of_messages rfl⟩
  · obtain ⟨q, hq, -, -, hp0, hsize, hmessages⟩ := hsaves hgrown
    rw [Function.update_self] at hp
    obtain rfl := Option.some.inj hp
    rw [acknowledged_savePosition]
    exact ⟨q, hq, hp0, hsize, hmessages⟩

/-- A thread of the input makes a step. -/
theorem Positioned.stepTailer (h : Positioned files grown s) {i : c.Tailers}
    (hstep : s.stepTailer i = some t) : Positioned files grown t := by
  simp only [System.stepTailer] at hstep
  split at hstep
  · next hi =>
    cases hstep
    refine h.keep ?_ ?_ s.inputQueue <;> rw [hi] <;> split_ifs <;> rfl
  · next hi =>
    cases hstep
    exact h.keep (by rw [hi]; rfl) (by rw [hi]; rfl) s.inputQueue
  · next f calls hi =>
    split at hstep
    · cases hstep
      exact h.finish hi
    · cases hstep
      exact h.keep (by rw [hi]; rfl) (by rw [hi]; rfl) s.inputQueue
    · cases hstep
      exact h.carryOut (by rw [hi]; rfl) (by rw [hi]; rfl) (by simp)
        (fun cs => acknowledged_processBuffer cs _) s.inputQueue
    · cases hstep
      exact h.save hi
  · next f m phase calls hi =>
    split at hstep
    · cases hstep
      exact h.keep (by rw [hi]; rfl) (by rw [hi]; rfl) _
    · cases hstep
      exact h.carryOut (by rw [hi]; rfl) (by rw [hi]; rfl) (by simp)
        (fun cs => acknowledged_processMessage cs _) _
  · cases hstep

/-- What a thread does to a record leaves its content and its name alone, and saves its
position under its name. -/
theorem step_work (i : c.Tailers) (file : TailedFile) :
    (file.step (work i)).1.content = file.content ∧
      (file.step (work i)).1.record.source = file.record.source ∧
      ∀ save ∈ saved (file.step (work i)).2, save.1 = file.record.source.filename := by
  cases i with
  | none => exact ⟨rfl, PointersTableInternalRecord.flush_source file.record⟩
  | some i => exact ⟨rfl, PointersTableInternalRecord.process_source file.record file.content⟩

/-- **A thread of the input turns to a record.** -/
theorem Positioned.turn (h : Positioned files grown s) {i : c.Tailers} {f : String}
    (hstep : s.turn i f = some t) : Positioned files grown t := by
  obtain ⟨⟨hrunning, hfree⟩, hstep⟩ := Option.ite_none_right_eq_some.mp hstep
  cases hstep
  obtain ⟨hcontent, hsource, hsaves⟩ := step_work i (s.file f)
  have hself : Function.update s.tailer i (.reading f ((s.file f).step (work i)).2) i =
      .reading f ((s.file f).step (work i)).2 := Function.update_self ..
  have hother : ∀ {j}, j ≠ i →
      Function.update s.tailer i (.reading f ((s.file f).step (work i)).2) j = s.tailer j :=
    fun hj => Function.update_of_ne hj ..
  refine ⟨?_, fun j j' g hj hj' => ?_, fun j g hj => ?_, fun g hgrown hg => ?_,
    fun g hgrown j hj => ?_, fun g hgrown p hp => ?_⟩
  · refine (Function.forall_update_iff s.file fun g file => file.record.source.filename = g).mpr
      ⟨?_, fun g _ => h.name g⟩
    rw [hsource, h.name]
  · dsimp only at hj hj'
    by_cases hji : j = i
    · rw [hji, hself] at hj
      obtain rfl := Option.some.inj hj
      by_cases hji' : j' = i
      · rw [hji, hji']
      · rw [hother hji'] at hj'
        exact absurd hj' (hfree j')
    · rw [hother hji] at hj
      by_cases hji' : j' = i
      · rw [hji', hself] at hj'
        obtain rfl := Option.some.inj hj'
        exact absurd hj (hfree j)
      · rw [hother hji'] at hj'
        exact h.alone j j' g hj hj'
  · dsimp only at hj ⊢
    by_cases hji : j = i
    · rw [hji, hself] at hj ⊢
      obtain rfl := Option.some.inj hj
      rwa [h.name] at hsaves
    · rw [hother hji] at hj ⊢
      exact h.own j g hj
  · dsimp only at hg ⊢
    have hgf : g ≠ f := by
      rintro rfl
      refine hg i ?_
      rw [hself, Tailer.file]
    rw [Function.update_of_ne hgf]
    refine h.idle g hgrown fun j hj => ?_
    by_cases hji : j = i
    · rw [hji, hrunning] at hj
      cases hj
    · refine hg j ?_
      rwa [hother hji]
  · dsimp only at hj ⊢
    by_cases hji : j = i
    · rw [hji, hself] at hj ⊢
      obtain rfl := Option.some.inj hj
      rw [Function.update_self]
      exact (h.idle f hgrown hfree).step (work i)
    · rw [hother hji] at hj ⊢
      have hgf : g ≠ f := by
        rintro rfl
        exact hfree j hj
      rw [Function.update_of_ne hgf]
      exact h.busy g hgrown j hj
  · dsimp only
    by_cases hgf : g = f
    · subst hgf
      rw [Function.update_self, hcontent]
      exact h.saved g hgrown p hp
    · rw [Function.update_of_ne hgf]
      exact h.saved g hgrown p hp

/-- **A file grows.** -/
theorem Positioned.append (h : Positioned files grown s) (f : String) (bytes : Bytes) :
    Positioned files grown { s with
      file := Function.update s.file f ((s.file f).step (.append bytes)).1 } := by
  have hself : Function.update s.file f ((s.file f).step (.append bytes)).1 f =
      { s.file f with content := (s.file f).content ++ bytes } := Function.update_self ..
  have hother : ∀ {g}, g ≠ f →
      Function.update s.file f ((s.file f).step (.append bytes)).1 g = s.file g :=
    fun hg => Function.update_of_ne hg ..
  refine ⟨?_, h.alone, h.own, fun g hgrown hg => ?_, fun g hgrown j hj => ?_,
    fun g hgrown p hp => ?_⟩
  · exact (Function.forall_update_iff s.file fun g file => file.record.source.filename = g).mpr
      ⟨h.name f, fun g _ => h.name g⟩
  · dsimp only
    by_cases hgf : g = f
    · subst hgf
      rw [hself]
      exact (h.idle g hgrown hg).append bytes
    · rw [hother hgf]
      exact h.idle g hgrown hg
  · dsimp only
    by_cases hgf : g = f
    · subst hgf
      obtain ⟨calls, save, hcalls, hsaved, hsave, hcheck⟩ := h.busy g hgrown j hj
      rw [hself]
      exact ⟨calls, save, hcalls, hsaved, hsave, hcheck.append bytes⟩
    · rw [hother hgf]
      exact h.busy g hgrown j hj
  · dsimp only
    obtain ⟨q, hq, hp0, hsize, hack⟩ := h.saved g hgrown p hp
    by_cases hgf : g = f
    · subst hgf
      rw [hself]
      refine ⟨q, hq, hp0, ?_, ?_⟩
      · rw [List.length_append]
        omega
      · rwa [between_append_left bytes hsize]
    · rw [hother hgf]
      exact ⟨q, hq, hp0, hsize, hack⟩

/-- A file that does not only grow is written anew. -/
theorem Positioned.rewrite (h : Positioned files grown s) {f : String} (hf : f ∉ grown)
    (content : Bytes) : Positioned files grown { s with
      file := Function.update s.file f { s.file f with content := content } } := by
  have hother : ∀ {g}, g ∈ grown →
      Function.update s.file f { s.file f with content := content } g = s.file g := by
    rintro g hgrown
    rw [Function.update_of_ne]
    rintro rfl
    exact hf hgrown
  refine ⟨?_, h.alone, h.own, fun g hgrown hg => ?_, fun g hgrown j hj => ?_,
    fun g hgrown p hp => ?_⟩
  · exact (Function.forall_update_iff s.file fun g file => file.record.source.filename = g).mpr
      ⟨h.name f, fun g _ => h.name g⟩
  · dsimp only
    rw [hother hgrown]
    exact h.idle g hgrown hg
  · dsimp only
    rw [hother hgrown]
    exact h.busy g hgrown j hj
  · dsimp only
    rw [hother hgrown]
    exact h.saved g hgrown p hp

theorem Positioned.downstream (h : Positioned files grown s) (hstep : Downstream s t) :
    Positioned files grown t := by
  cases hstep <;> exact ⟨h.name, h.alone, h.own, h.idle, h.busy, h.saved⟩

/-- **The invariant of the saved positions survives every step**, if it does not write anew
a file that only grows. -/
theorem Positioned.step (h : Positioned files grown s) {event : Event c}
    (hevent : ∀ f ∈ grown, ∀ content, event ≠ .rewrite f content)
    (hstep : s.step event = some t) : Positioned files grown t := by
  cases event with
  | append f bytes =>
    cases hstep
    exact h.append f bytes
  | rewrite f content =>
    cases hstep
    exact h.rewrite (fun hf => hevent f hf content rfl) content
  | tailer i => exact h.stepTailer hstep
  | turn i f => exact h.turn hstep
  | stop =>
    rw [System.step, System.stepStop] at hstep
    split at hstep
    · cases hstep
    · cases hstep
      exact ⟨h.name, h.alone, h.own, h.idle, h.busy, h.saved⟩
    · cases hstep
      exact ⟨h.name, h.alone, h.own, h.idle, h.busy, h.saved⟩
    · split_ifs at hstep
      cases hstep
      exact ⟨h.name, h.alone, h.own, h.idle, h.busy, h.saved⟩
    · cases hstep
  | _ => exact h.downstream (downstream_of_step hstep trivial)

/-- **The invariant holds in every run.** -/
theorem positioned_run (files : String → FileAtStart) (events : List (Event c))
    (s : System c) (hrun : events.foldlM System.step (System.start c files) = some s) :
    Positioned files (growing files events) s := by
  refine Machine.interleaving_induction
    (P := fun events s => Positioned files (growing files events) s) ?_ ?_ events s hrun
  · exact {
      name := fun f => rfl
      alone := fun i j f hi => by cases hi
      own := fun i f hi => by cases hi
      idle := fun f hf _ => checkpointed_run rfl hf.1 []
      busy := fun f hf i hi => by cases hi
      saved := fun f hf p hp => by cases hp }
  · rintro events s event t h hstep
    refine (h.mono fun f hf => ?_).step (fun f hf content heq => ?_) hstep
    · exact ⟨hf.1, fun content hmem => hf.2 content (List.mem_append_left _ hmem)⟩
    · exact hf.2 content (by simp [heq])

end Positions

end Pipeline

end IqLogger
