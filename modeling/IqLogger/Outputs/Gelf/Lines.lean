import IqLogger.Inputs.Gelf.Import
import IqLogger.Outputs.Gelf.Escape

/-!
# Lines of files in the output stage

A line of a file may be any text. The conversion takes it for GELF if it is a JSON object without
`data`, and has handlers for the exceptions of the JSON library and for those of the GELF parser.
The parser has no handler for the conversion of a number that is given as a text, and neither has
anything behind it, so whoever can write a line into a file that is watched can end a thread of the
output server with it.

Which lines do so is `IqLogger.Gelf.HarmlessLine`, and a thread gets through all of its batches
exactly if none of the lines does (`IqLogger.Gelf.lines_unbroken_iff`).
-/

namespace IqLogger

namespace Gelf

open Pipeline (Batch Fits ThreadState exporting forwardAll forwardAll_spec forward_spec forwarded
  importRecords max_queue_bulk_size)
open ReusedBuffer (converted)

/-- A line that ends no thread: if it may be GELF as it is, the numbers that are given as texts
convert. -/
def HarmlessLine (env : Environment) (line : Bytes) : Prop :=
  match env.jsonParse line with
  | .error _ => True
  | .ok json => json.member "data" = none → Convertible env.boost env.parse line

/-! ### One line -/

section Line

variable {env : Environment}

theorem decode_failsOnly_iff (text : Bytes) :
    (env.decode text).FailsOnly (fun e => e.isException) ↔
      Convertible env.boost env.parse text := by
  rw [Environment.decode, Except.failsOnly_bind, Convertible]
  simp only [handler_isException.decompress, true_and, handler_isException.gelf_iff,
    decompress_eq_ok]

/-- The handler of `GelfException` makes one exception of the program of another. -/
theorem isException_handleGelf (data : Bytes) (e : Throwable) :
    (Record.handleGelf data e).isException = e.isException := by
  rw [Record.handleGelf]
  split_ifs with h
  · exact (Throwable.isException_of_isGelfException h).symm
  · rfl

/-- **What the conversion of a line throws is caught, exactly if the line is harmless.** -/
theorem ofTail_failsOnly_iff (m : TailMessage) :
    (Record.ofTail env m).FailsOnly (fun e => e.isException) ↔ HarmlessLine env m.data := by
  rw [Record.ofTail, HarmlessLine]
  rcases env.jsonParse m.data with e | json
  · exact iff_of_true (Except.failsOnly_ok _) trivial
  · dsimp only
    rcases json.member "data" with _ | value
    · refine Iff.trans ?_ (forall_prop_of_true rfl).symm
      rw [← decode_failsOnly_iff]
      cases env.decode m.data with
      | ok g => exact iff_of_true (Except.failsOnly_ok _) (Except.failsOnly_ok _)
      | error e =>
        refine Except.failsOnly_error.trans (Iff.trans ?_ Except.failsOnly_error.symm)
        exact iff_of_eq (congrArg (· = true) (isException_handleGelf m.data e))
    · refine iff_of_true ?_ (by rintro ⟨⟩)
      cases value with
      | object members =>
        dsimp only
        rcases hloop : Record.setMembers env env.gelf members with ⟨g, _ | e⟩
        · exact Except.failsOnly_ok _
        · -- only the JSON library throws here, and for its exceptions there is a handler
          obtain ⟨x, rfl⟩ := (throwsOnly_jsonField env.toUnsignedChar).setFields
            (congrArg Prod.snd hloop)
          exact Except.failsOnly_ok _
      | null | boolean _ | integer _ | unsigned _ | float _ | string _ | array _ =>
        exact Except.failsOnly_error.mpr rfl

end Line

/-! ### A thread of the output server -/

section Thread

variable {env : Environment}

/-- A batch of lines. -/
def lineBatch (lines : List TailMessage) : Batch Message := ⟨lines.map .tail, true⟩

/-- A batch that fits is one of harmless lines. -/
theorem fits_lineBatch_iff {lines : List TailMessage}
    (hfit : lines.length ≤ max_queue_bulk_size) :
    Fits Thrown.isException (exporting (Record.ofMessage env)) (lineBatch lines) ↔
      ∀ m ∈ lines, HarmlessLine env m.data := by
  have hlength : (lineBatch lines).got.length ≤ max_queue_bulk_size :=
    (List.length_map _).trans_le hfit
  rw [Fits, and_iff_right hlength, lineBatch, List.forall_mem_map]
  exact forall₂_congr fun m _ => Pipeline.failsOnly_exporting.trans (ofTail_failsOnly_iff m)

/-- A batch with a line that is not harmless is the last one of its thread. -/
theorem harmless_of_importRecords {s t : ThreadState Message Bytes} (hs : s.Sized)
    {lines : List TailMessage} (hfit : lines.length ≤ max_queue_bulk_size)
    (h : importRecords Thrown.isException (Record.ofMessage env) s (lineBatch lines) = .ok t) :
    (∀ m ∈ lines, HarmlessLine env m.data) ∧ t.Sized := by
  have hlength : (lineBatch lines).got.length ≤ max_queue_bulk_size :=
    (List.length_map _).trans_le hfit
  have hfits : Fits Thrown.isException (exporting (Record.ofMessage env)) (lineBatch lines) := by
    obtain ⟨loop, hloop, -⟩ := Except.bind_eq_ok.mp h
    exact ⟨hlength, (ReusedBuffer.batch_ok_iff .to (hlength.trans_eq hs.1.symm)
      (hlength.trans_eq hs.2.symm)).mp ⟨loop, hloop⟩⟩
  obtain ⟨loop, t', hloop, ht', hsized, -⟩ := forward_spec .to hs hfits
  have ht : importRecords Thrown.isException (Record.ofMessage env) s (lineBatch lines) = .ok t' :=
    Except.bind_eq_ok.mpr ⟨loop, hloop, ht'⟩
  cases h.symm.trans ht
  exact ⟨(fits_lineBatch_iff hfit).mp hfits, hsized⟩

/-- What is forwarded of some batches are the records of their lines. -/
theorem forwarded_lineBatch (batches : List (List TailMessage)) :
    forwarded (exporting (Record.ofMessage env)) (batches.map lineBatch) =
      batches.flatten.filterMap fun m => (Record.ofTail env m).toOption := by
  induction batches with
  | nil => rfl
  | cons lines batches ih =>
    have hlines : converted (exporting (Record.ofMessage env)) (lines.map .tail) =
        lines.filterMap fun m => (Record.ofTail env m).toOption := by
      rw [converted, List.filterMap_map]
      refine List.filterMap_congr fun m _ => ?_
      rw [Function.comp, exporting, Record.ofMessage]
      cases Record.ofTail env m <;> rfl
    rw [List.flatten_cons, List.filterMap_append, ← ih, ← hlines]
    rfl

/-- **Which lines a thread survives.** It takes any batches of lines, one after the other, and gets
through all of them, with the records of all the lines that can be converted, if and only if every
line is harmless. -/
theorem lines_unbroken_iff (env : Environment) (batches : List (List TailMessage))
    (hfit : ∀ lines ∈ batches, lines.length ≤ max_queue_bulk_size) :
    (∃ t, forwardAll (importRecords Thrown.isException (Record.ofMessage env))
        (batches.map lineBatch) = .ok t ∧
      t.queue = (batches.flatten.filterMap fun m => (Record.ofTail env m).toOption).map .to) ↔
    ∀ m ∈ batches.flatten, HarmlessLine env m.data := by
  constructor
  · rintro ⟨t, ht, -⟩
    suffices h : ∀ s : ThreadState Message Bytes, s.Sized →
        (batches.map lineBatch).foldlM
          (importRecords Thrown.isException (Record.ofMessage env)) s = .ok t →
        ∀ m ∈ batches.flatten, HarmlessLine env m.data from h _ ThreadState.sized_start ht
    clear ht
    induction batches with
    | nil => exact fun s _ _ m hm => absurd hm List.not_mem_nil
    | cons lines batches ih =>
      intro s hs ht m hm
      obtain ⟨hlines, hbatches⟩ := List.forall_mem_cons.mp hfit
      rw [List.map_cons, List.foldlM_cons] at ht
      obtain ⟨u, hu, hrest⟩ := Except.bind_eq_ok.mp ht
      obtain ⟨hharmless, hsized⟩ := harmless_of_importRecords hs hlines hu
      rcases List.mem_append.mp (List.flatten_cons ▸ hm) with hfirst | hlater
      · exact hharmless m hfirst
      · exact ih hbatches u hsized hrest m hlater
  · intro h
    have hfits : ∀ b ∈ batches.map lineBatch,
        Fits Thrown.isException (exporting (Record.ofMessage env)) b := by
      rw [List.forall_mem_map]
      exact fun lines hlines => (fits_lineBatch_iff (hfit lines hlines)).mpr fun m hm =>
        h m (List.mem_flatten.mpr ⟨lines, hlines, hm⟩)
    obtain ⟨t, ht, hqueue⟩ := forwardAll_spec .to (fun _ _ => rfl) hfits
    exact ⟨t, ht, hqueue.trans (congrArg (List.map _) (forwarded_lineBatch batches))⟩

/-- A line that is GELF with a level that is no number: for one JSON library an object without
`data`, for the other one the members. -/
def levelEnvironment : Environment where
  __ := sampleEnvironment [] []
  parse := parseTexts
  jsonParse text :=
    if text = levelText then .ok (.object [(ascii "level", .string (ascii "abc"))])
    else .error .parseError

/-- **A line that ends its thread**, after another one that does not. -/
theorem lines_unbroken_iff_level :
    let batches : List (List TailMessage) :=
      [[⟨ascii "hi", ascii "/var/log/app"⟩], [⟨levelText, ascii "/var/log/app"⟩]]
    ¬∃ t, forwardAll (importRecords Thrown.isException (Record.ofMessage levelEnvironment))
        (batches.map lineBatch) = .ok t ∧
      t.queue = (batches.flatten.filterMap fun m =>
        (Record.ofTail levelEnvironment m).toOption).map .to := by
  intro batches hsurvives
  have hharmless := (lines_unbroken_iff levelEnvironment batches (by decide)).mp hsurvives
    ⟨levelText, ascii "/var/log/app"⟩ (by decide)
  have hdecode : levelEnvironment.decode levelText = .error ⟨.invalidArgument, ascii "stoi"⟩ := by
    decide +kernel
  have hconvertible : Convertible levelEnvironment.boost levelEnvironment.parse levelText :=
    hharmless rfl
  exact absurd ((decode_failsOnly_iff levelText).mpr hconvertible _ hdecode) (by decide)

end Thread

end Gelf

end IqLogger
