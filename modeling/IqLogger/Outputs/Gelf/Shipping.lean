import IqLogger.Inputs.Tail.WholeLines
import IqLogger.Outputs.Gelf.Acceptance
import IqLogger.Outputs.Gelf.Relay
import IqLogger.Pipeline.Stages

/-!
# From a file to other instances

What the program is mostly used for: a file is watched, its lines are converted to GELF and sent to
another instance, which may pass them on. On the way the lines go through the reads of the file, the
batches of the threads of the output server, the attempts of the output's threads to write, the
pieces in which the bytes arrive, and the batches in which they are imported.

The result (`IqLogger.Gelf.shipped`) says what of all that can be seen at the other end: the
messages there come from lines of the file, and every line that can be converted is there at least
once. A line that is no JSON is there as the short message of a message with the name of the host,
the name of the file and the time of its conversion, and nothing else (`IqLogger.Gelf.IsLine`).
-/

namespace IqLogger

namespace Gelf

open Rapidjson Inputs
open Pipeline (Batch Fits ThreadState exporting forwardAll forwardAll_spec forwarded importRecords
  max_queue_bulk_size)
open ReusedBuffer (Slot converted)

/-! ### The stages -/

/-- The objects a queue has pointers to. -/
def objects {β : Type} (queue : List (Slot β)) : List β :=
  queue.filterMap fun | .to b => some b | _ => none

theorem objects_map {β : Type} (l : List β) : objects (l.map .to) = l := by
  rw [objects, List.filterMap_map]
  exact List.filterMap_some

/-- The same instance at another time. -/
def Environment.at (env : Environment) (now : Float) : Environment :=
  { env with currentTime := now }

/-- How the threads of the output server share the lines: each of them takes batches, and each line
is converted at some time. -/
structure Sharing where
  share : List Bytes → List (List (List (Bytes × Float)))
  share_perm : ∀ lines, ((share lines).flatten.flatten.map Prod.fst).Perm lines
  fits : ∀ lines, ∀ batches ∈ share lines, ∀ batch ∈ batches, batch.length ≤ max_queue_bulk_size
  times : ∀ lines, ∀ x ∈ (share lines).flatten.flatten, TimeAccepted x.2

section Stages

variable (env : Environment) (filename : Bytes)

/-- The record of a line that is converted at a time. -/
def lineRecord (x : Bytes × Float) : Except Thrown Bytes :=
  Record.ofTail (env.at x.2) ⟨x.1, filename⟩

/-- What a thread of the output server enqueues, unless an exception ends it. -/
def threadTexts (batches : List (List (Bytes × Float))) : Option (List Bytes) := do
  let t ← (forwardAll (importRecords Thrown.isException (lineRecord env filename))
    (batches.map fun batch => ⟨batch, true⟩)).toOption
  pure (objects t.queue)

/-- **From the lines of a file to the last instance**, unless an exception ends a thread on the
way. -/
def ship (sharing : Sharing) (hop : Hop) (hops : List Hop) (lines : List Bytes) :
    Option (List GelfData) := do
  let texts ← (sharing.share lines).mapM (threadTexts env filename)
  let gs ← (hop.imported env.parse texts.flatten).toOption
  (hops.foldlM (fun gs (hop : Hop) => hop.relay env.write env.parse gs) gs).toOption

end Stages

/-! ### What arrives -/

section Arrived

variable (env : Environment) (filename line : Bytes)

/-- A line as it is. -/
structure IsLine (g : GelfData) : Prop where
  version : g.version = ascii "1.1"
  host : g.host = cString env.hostname
  shortMessage : g.shortMessage = cString line
  fullMessage : g.fullMessage = []
  timestamp : TimeAccepted g.timestamp
  level : g.level = 1
  additionalFields : ∀ key, g.additionalFields.lookup key =
    if key = ascii "_file" then some (.string (cString filename)) else none

/-- **The message of a line**: what is read of its record, and the line as it is if that is no
JSON. -/
structure Arrived (g : GelfData) : Prop where
  exported : ∃ now text g₀, TimeAccepted now ∧ lineRecord env filename (line, now) = .ok text ∧
    (∀ laterTime, gelf env.parse laterTime text = .ok g₀) ∧ Same g₀ g
  plain : (∃ e, env.jsonParse line = .error e) → IsLine env filename line g

end Arrived

/-! ### One line -/

section Line

variable {env : Environment} {filename line : Bytes}

theorem Environment.Reliable.at (henv : env.Reliable) {now : Float} (hnow : TimeAccepted now) :
    (env.at now).Reliable :=
  { henv with currentTime := hnow }

/-- With the file it comes from a message is as sound as before. -/
theorem sound_finishTail {g : GelfData} (hg : g.Sound) (m : TailMessage) (short : Bytes) :
    GelfData.Sound { g with
      shortMessage := short
      additionalFields := g.additionalFields.emplace (ascii "_file") (.string m.filename) } := by
  have hset : setField (variantField Float.toUInt8) { g with shortMessage := short }
      (ascii "file", .string m.filename) = .ok { g with
        shortMessage := short
        additionalFields := g.additionalFields.emplace (ascii "_file") (.string m.filename) } := rfl
  exact GelfData.Sound.setField (g := { g with shortMessage := short }) hg
    (fun v hv => by cases hv; rfl) hset

/-- **The record of a line is the dump of a message.** -/
theorem exists_message_of_ofTail (henv : env.Reliable) {m : TailMessage} {text : Bytes}
    (h : Record.ofTail env m = .ok text) : ∃ g, g.Sound ∧ text = env.exportMessage g := by
  have hfinish : ∀ g : GelfData, g.Sound → Record.finishTail env m g = .ok text →
      ∃ g, g.Sound ∧ text = env.exportMessage g := by
    intro g hg hfinish
    exact ⟨_, sound_finishTail hg m g.shortMessage, (Except.ok.inj hfinish).symm⟩
  have hline : ∀ g : GelfData, g.Sound → Record.lineTail env m g = .ok text →
      ∃ g, g.Sound ∧ text = env.exportMessage g := by
    intro g hg hline
    exact ⟨_, sound_finishTail hg m m.data, (Except.ok.inj hline).symm⟩
  rw [Record.ofTail] at h
  rcases hparse : env.jsonParse m.data with e | json
  · rw [hparse] at h
    exact hline _ env.sound_gelf h
  · rw [hparse] at h
    dsimp only at h
    rcases hdata : json.member "data" with _ | value
    · rw [hdata] at h
      dsimp only at h
      cases hdecode : env.decode m.data with
      | error e =>
        rw [hdecode] at h
        cases h
      | ok g =>
        rw [hdecode] at h
        obtain ⟨text', -, hg⟩ := Except.bind_eq_ok.mp hdecode
        exact hfinish g (parsed_of_gelf henv.lossless henv.currentTime.2 hg).sound h
    · rw [hdata] at h
      cases value with
      | object members =>
        have hmembers : (Nlohmann.Value.object members).WellFormed := by
          have hjson := henv.wellFormed _ _ hparse
          cases json with
          | object all => exact hjson.of_mem (List.mem_of_lookup_eq_some hdata)
          | _ => cases hdata
        dsimp only at h
        rcases setMembers_cases henv hmembers with
          ⟨g, hresult, hsound, -, -⟩ | ⟨g, x, hresult, hsound, -, -⟩
        · rw [hresult] at h
          exact hfinish g hsound h
        · rw [hresult] at h
          exact hline g hsound h
      | _ => cases h

/-- A message whose dump is accepted. -/
structure GelfData.Sendable (g : GelfData) : Prop where
  underscored : g.Underscored
  finite : g.Finite
  acceptable : g.Acceptable

theorem sendable_of_fine (henv : env.Reliable) {g : GelfData} (hg : g.Sound)
    (h : env.Fine 0 (.ok (env.exportMessage g))) : g.Sendable := by
  obtain ⟨hacceptable, hfinite⟩ := (accepted_iff henv hg 0).mp h
  exact ⟨hg.underscored, ⟨hfinite, fun key value hvalue => (hg key value hvalue).2⟩, hacceptable⟩

/-- What is read of its dump, at any time. -/
theorem GelfData.Sendable.read (henv : env.Reliable) {g : GelfData} (hg : g.Sendable)
    (laterTime : Float) :
    gelf env.parse laterTime (env.exportMessage g) = .ok (g.reread env.order) :=
  (gelf_dump_eq_ok henv.lossless hg.underscored hg.finite).mpr ⟨hg.acceptable, rfl⟩

/-- What is read of it can be relayed. -/
theorem GelfData.Sendable.relayable (henv : env.Reliable) {g : GelfData} (hg : g.Sendable) :
    (g.reread env.order).Relayable :=
  relayable_of_gelf henv.lossless henv.currentTime.2 (hg.read henv env.currentTime)
    hg.finite.timestamp

/-- The message of a line that is no JSON, before it is sent. -/
def lineMessage (env : Environment) (filename line : Bytes) (now : Float) : GelfData :=
  { (env.at now).gelf with
    shortMessage := line
    additionalFields := Object.emplace ∅ (ascii "_file") (.string filename) }

/-- **What is sent of a line that can be exported**: the dump of a message that is accepted. -/
theorem exists_message_of_lineRecord (henv : env.Reliable) {now : Float}
    (hnow : TimeAccepted now) (hline : TailExportable (env.at now) ⟨line, filename⟩) {text : Bytes}
    (h : lineRecord env filename (line, now) = .ok text) :
    ∃ g : GelfData, text = env.exportMessage g ∧ g.Sendable ∧
      ((∃ e, env.jsonParse line = .error e) → g = lineMessage env filename line now) := by
  have hfine := (tail_iff (henv.at hnow) ⟨line, filename⟩ 0).mpr hline
  rw [show Record.ofTail (env.at now) ⟨line, filename⟩ = _ from h] at hfine
  cases hparse : env.jsonParse line with
  | error e =>
    have hsound : (lineMessage env filename line now).Sound :=
      sound_finishTail (env.at now).sound_gelf ⟨line, filename⟩ line
    have htext : text = env.exportMessage (lineMessage env filename line now) := by
      rw [lineRecord, Record.ofTail, show (env.at now).jsonParse line = _ from hparse] at h
      exact (Except.ok.inj h).symm
    rw [htext] at hfine
    exact ⟨_, htext, sendable_of_fine (henv.at hnow) hsound hfine, fun _ => rfl⟩
  | ok json =>
    obtain ⟨g, hsound, rfl⟩ := exists_message_of_ofTail (henv.at hnow) h
    exact ⟨g, rfl, sendable_of_fine (henv.at hnow) hsound hfine, by rintro ⟨_, ⟨⟩⟩⟩

/-- What the conversion of a line that can be exported throws is caught. -/
theorem failsOnly_lineRecord (henv : env.Reliable) {now : Float} (hnow : TimeAccepted now)
    (hline : TailExportable (env.at now) ⟨line, filename⟩) :
    (lineRecord env filename (line, now)).FailsOnly fun e => e.isException := by
  intro e he
  have hfine := (tail_iff (henv.at hnow) ⟨line, filename⟩ 0).mpr hline
  rw [show Record.ofTail (env.at now) ⟨line, filename⟩ = _ from he] at hfine
  exact hfine

/-- **It is read as the line.** -/
theorem isLine_reread {now : Float} (hnow : TimeAccepted now) :
    IsLine env filename line ((lineMessage env filename line now).reread env.order) where
  version := cString_version
  host := rfl
  shortMessage := rfl
  fullMessage := rfl
  timestamp := hnow
  level := rfl
  additionalFields key := by
    have hentries : env.order.entries (lineMessage env filename line now).additionalFields =
        [⟨ascii "_file", .string filename⟩] := List.perm_singleton.mp (env.order.perm _)
    have hname : cString (ascii "_file") = ascii "_file" := by decide
    rw [GelfData.reread, readFields, hentries, List.map_cons, List.map_nil, List.foldl_cons,
      List.foldl_nil, Object.lookup_emplace, AList.lookup_empty, Option.none_or, hname]
    rfl

theorem IsLine.of_same {g g' : GelfData} (h : IsLine env filename line g) (hsame : Same g g') :
    IsLine env filename line g' where
  version := hsame.version.trans h.version
  host := hsame.host.trans h.host
  shortMessage := hsame.shortMessage.trans h.shortMessage
  fullMessage := hsame.fullMessage.trans h.fullMessage
  timestamp := by
    rw [hsame.timestamp]
    exact h.timestamp
  level := hsame.level.trans h.level
  additionalFields key := (hsame.additionalFields key).trans (h.additionalFields key)

/-- **What arrives of a line.** -/
theorem arrived_of_lineRecord (henv : env.Reliable) {now : Float} (hnow : TimeAccepted now)
    {text : Bytes} (h : lineRecord env filename (line, now) = .ok text) {g g' : GelfData}
    (htext : text = env.exportMessage g) (hg : g.Sendable)
    (hplain : (∃ e, env.jsonParse line = .error e) → g = lineMessage env filename line now)
    (hsame : Same (g.reread env.order) g') : Arrived env filename line g' where
  exported := ⟨now, text, g.reread env.order, hnow, h,
    fun laterTime => by rw [htext, hg.read henv], hsame⟩
  plain hparse := by
    obtain rfl := hplain hparse
    exact (isLine_reread hnow).of_same hsame

end Line

/-! ### All lines -/

section Lines

variable {env : Environment} {filename : Bytes}

/-- **A thread of the output server** enqueues the records of its lines. -/
theorem threadTexts_eq {batches : List (List (Bytes × Float))}
    (hfit : ∀ batch ∈ batches, batch.length ≤ max_queue_bulk_size)
    (hcaught : ∀ batch ∈ batches, ∀ x ∈ batch,
      (lineRecord env filename x).FailsOnly fun e => e.isException) :
    threadTexts env filename batches =
      some (batches.flatten.filterMap fun x => (lineRecord env filename x).toOption) := by
  have hfits : ∀ b ∈ batches.map fun batch => (⟨batch, true⟩ : Batch (Bytes × Float)),
      Fits Thrown.isException (exporting (lineRecord env filename)) b := by
    rw [List.forall_mem_map]
    exact fun batch hbatch => ⟨hfit batch hbatch, fun x hx =>
      Pipeline.failsOnly_exporting.mpr (hcaught batch hbatch x hx)⟩
  obtain ⟨t, ht, hqueue⟩ := forwardAll_spec .to (fun _ _ => rfl) hfits
  have hforwarded : forwarded (exporting (lineRecord env filename))
        (batches.map fun batch => ⟨batch, true⟩) =
      batches.flatten.filterMap fun x => (lineRecord env filename x).toOption := by
    rw [forwarded, List.flatMap_map, List.filterMap_flatten]
    refine congrArg List.flatten (List.map_congr_left fun batch _ => ?_)
    refine List.filterMap_congr fun x _ => ?_
    rw [exporting]
    cases lineRecord env filename x <;> rfl
  have htexts : threadTexts env filename batches = some (objects t.queue) := by
    rw [threadTexts, show forwardAll (importRecords Thrown.isException _) _ = _ from ht]
    rfl
  rw [htexts, hqueue, objects_map, hforwarded]

/-- A step that succeeds everywhere. -/
theorem mapM_of_forall {α β : Type} {f : α → Option β} {g : α → β} {l : List α}
    (h : ∀ a ∈ l, f a = some (g a)) : l.mapM f = some (l.map g) := by
  induction l with
  | nil => rfl
  | cons a l ih =>
    obtain ⟨ha, hl⟩ := List.forall_mem_cons.mp h
    rw [List.mapM_cons, ha, ih hl]
    rfl

/-- **Every text that is sent is imported as one message**, by whatever instance. -/
theorem GelfData.Sendable.importedAs_iff (henv : env.Reliable) (hobject : WritesObjects env.write)
    (hop : Hop) {g g' : GelfData} (hg : g.Sendable) :
    hop.ImportedAs env.parse (env.exportMessage g) g' ↔ g.reread env.order = g' := by
  have himport : hop.ImportedAs env.parse (env.exportMessage g) (g.reread env.order) :=
    construct_dump hobject env.order henv.lossless hg.underscored hg.finite hg.acceptable hop.boost
  constructor
  · intro h
    have heq := (himport 0 [] sender).symm.trans (h 0 [] sender)
    exact congrArg GelfMessage.gelf (Except.ok.inj heq)
  · rintro rfl
    exact himport

variable (henv : env.Reliable) {lines : List Bytes}
  (hlines : ∀ line ∈ lines, ∀ now, TimeAccepted now →
    TailExportable (env.at now) ⟨line, filename⟩) (sharing : Sharing)

omit henv hlines in
/-- A line that a thread has is one of the lines. -/
theorem Sharing.mem_lines {x : Bytes × Float} (hx : x ∈ (sharing.share lines).flatten.flatten) :
    x.1 ∈ lines ∧ TimeAccepted x.2 :=
  ⟨(sharing.share_perm lines).mem_iff.mp (List.mem_map_of_mem hx), sharing.times lines x hx⟩

include henv hlines

/-- **All threads of the output server**, on lines that can all be exported. -/
theorem mapM_threadTexts :
    ∃ texts, (sharing.share lines).mapM (threadTexts env filename) = some texts ∧
      ∀ r, r ∈ texts.flatten ↔
        ∃ x ∈ (sharing.share lines).flatten.flatten, lineRecord env filename x = .ok r := by
  have hshare : ∀ batches ∈ sharing.share lines, threadTexts env filename batches =
      some (batches.flatten.filterMap fun x => (lineRecord env filename x).toOption) := by
    intro batches hbatches
    refine threadTexts_eq (sharing.fits lines batches hbatches) fun batch hbatch x hx => ?_
    obtain ⟨hline, hnow⟩ := sharing.mem_lines (List.mem_flatten.mpr
      ⟨batch, List.mem_flatten.mpr ⟨batches, hbatches, hbatch⟩, hx⟩)
    exact failsOnly_lineRecord henv hnow (hlines x.1 hline x.2 hnow)
  refine ⟨_, mapM_of_forall hshare, fun r => ?_⟩
  have hflatten : ((sharing.share lines).map fun batches => batches.flatten.filterMap fun x =>
      (lineRecord env filename x).toOption).flatten =
        (sharing.share lines).flatten.flatten.filterMap fun x =>
          (lineRecord env filename x).toOption := by
    rw [List.flatten_flatten, List.filterMap_flatten, List.map_map]
    rfl
  rw [hflatten, List.mem_filterMap]
  refine exists_congr fun x => and_congr_right fun _ => ?_
  cases lineRecord env filename x <;> simp [Except.toOption]

/-- **What the last instance gets of some lines** that can all be exported. -/
theorem ship_spec (hobject : WritesObjects env.write) (hop : Hop) (hops : List Hop) :
    ∃ gs, ship env filename sharing hop hops lines = some gs ∧
      (∀ g ∈ gs, ∃ line ∈ lines, Arrived env filename line g) ∧
      ∀ line ∈ lines, (∀ now, TimeAccepted now →
        ∃ text, lineRecord env filename (line, now) = .ok text) →
          ∃ g ∈ gs, Arrived env filename line g := by
  obtain ⟨texts, htexts, htext⟩ := mapM_threadTexts henv hlines sharing
  have hmessage : ∀ x ∈ (sharing.share lines).flatten.flatten, ∀ r,
      lineRecord env filename x = .ok r → ∃ g : GelfData, r = env.exportMessage g ∧ g.Sendable ∧
        ((∃ e, env.jsonParse x.1 = .error e) → g = lineMessage env filename x.1 x.2) := by
    intro x hx r hrecord
    obtain ⟨hline, hnow⟩ := sharing.mem_lines hx
    exact exists_message_of_lineRecord henv hnow (hlines x.1 hline x.2 hnow) hrecord
  have hsend : ∀ r ∈ texts.flatten, r ≠ [] ∧ 0 ∉ r := by
    intro r hr
    obtain ⟨x, hx, hrecord⟩ := (htext r).mp hr
    obtain ⟨g, rfl, -⟩ := hmessage x hx r hrecord
    exact sendable_dump hobject env.order g
  have hread : ∀ r ∈ texts.flatten, ∃ g, hop.ImportedAs env.parse r g := by
    intro r hr
    obtain ⟨x, hx, hrecord⟩ := (htext r).mp hr
    obtain ⟨g, rfl, hg, -⟩ := hmessage x hx r hrecord
    exact ⟨_, (hg.importedAs_iff henv hobject hop).mpr rfl⟩
  -- the first instance gets what is read of the texts, and the others relay that
  obtain ⟨gs₁, himported, honce⟩ := hop.imported_ok hsend hread
  have hgs₁ : ∀ g' ∈ gs₁, g'.Relayable := by
    intro g' hg'
    obtain ⟨r, hr, himport⟩ := honce.only g' hg'
    obtain ⟨x, hx, hrecord⟩ := (htext r).mp hr
    obtain ⟨g, rfl, hg, -⟩ := hmessage x hx r hrecord
    obtain rfl := (hg.importedAs_iff henv hobject hop).mp himport
    exact hg.relayable henv
  obtain ⟨gs, hrelay, hsame⟩ := foldlM_relay henv.lossless hobject hops hgs₁
  have hship : ship env filename sharing hop hops lines = some gs := by
    rw [ship, htexts, Option.bind_eq_bind, Option.bind_some, himported]
    exact congrArg Except.toOption hrelay
  have harrived : ∀ x ∈ (sharing.share lines).flatten.flatten, ∀ r,
      lineRecord env filename x = .ok r → ∀ g' g'', hop.ImportedAs env.parse r g' → Same g' g'' →
        Arrived env filename x.1 g'' := by
    intro x hx r hrecord g' g'' himport hsame
    obtain ⟨g, rfl, hg, hplain⟩ := hmessage x hx r hrecord
    obtain rfl := (hg.importedAs_iff henv hobject hop).mp himport
    exact arrived_of_lineRecord henv (sharing.mem_lines hx).2 hrecord rfl hg hplain hsame
  refine ⟨gs, hship, fun g'' hg'' => ?_, fun line hline hexported => ?_⟩
  · obtain ⟨g', hg', hsame'⟩ := hsame.only g'' hg''
    obtain ⟨r, hr, himport⟩ := honce.only g' hg'
    obtain ⟨x, hx, hrecord⟩ := (htext r).mp hr
    exact ⟨x.1, (sharing.mem_lines hx).1, harrived x hx r hrecord g' g'' himport hsame'⟩
  · obtain ⟨⟨line, now⟩, hx, rfl⟩ :=
      List.mem_map.mp ((sharing.share_perm lines).mem_iff.mpr hline)
    obtain ⟨r, hrecord⟩ := hexported now (sharing.mem_lines hx).2
    obtain ⟨g', hg', himport⟩ := honce.each r ((htext r).mpr ⟨_, hx, hrecord⟩)
    obtain ⟨g'', hg'', hsame'⟩ := hsame.each g' hg'
    exact ⟨g'', hg'', harrived _ hx r hrecord g' g'' himport hsame'⟩

end Lines

/-! ### From a file -/

/-- What becomes of the line `up`, and its text. -/
def upFields : Fields :=
  [(ascii "version", .string (ascii "1.1")), (ascii "host", .string (ascii "web")),
    (ascii "short_message", .string (ascii "up")), (ascii "timestamp", .double 1700000000),
    (ascii "level", .int 1), (ascii "_file", .string (ascii "/var/log/app"))]

def upText : Bytes :=
  ascii "\x7b\"version\":\"1.1\",\"host\":\"web\",\"short_message\":\"up\"," ++
    ascii "\"timestamp\":1700000000.0,\"level\":1,\"_file\":\"/var/log/app\"\x7d"

/-- An environment for this line. -/
def upEnvironment : Environment where
  __ := sampleEnvironment upFields upText
  write := objectWrite upFields upText
  parse := objectParse upFields upText

theorem reliable_up : upEnvironment.Reliable where
  __ := @reliable_sample upFields upText (by decide) rfl rfl
  lossless := lossless_object rfl (by decide) rfl
  refuses fields hfields := by
    have hne : fields ≠ upFields := by
      rintro rfl
      obtain ⟨field, hfield, hnot⟩ := hfields
      exact hnot (List.all_eq_true.mp (by decide : upFields.all fun f => f.2.isFinite) field hfield)
    obtain ⟨heq, hother⟩ := cString_objectWrite (rfl : upText = 123 :: 34 :: 118 :: _) hne
    obtain ⟨e, he⟩ := @libraryParse_error upFields upText (by decide) rfl _ hfields
    refine ⟨e, ?_⟩
    show objectParse upFields upText (cString (objectWrite upFields upText fields)) = .error e
    rw [objectParse, if_neg hother, heq]
    exact he

theorem timeAccepted_up : TimeAccepted 1700000000 := by decide

theorem flatten_map_singleton (lines : List Bytes) :
    (lines.map fun line => [(line, (1700000000 : Float))]).flatten =
      lines.map fun line => (line, 1700000000) := by
  rw [← List.flatMap_def, List.map_eq_flatMap]

/-- One thread, which takes one line at a time. -/
def sampleSharing : Sharing where
  share lines := [lines.map fun line => [(line, 1700000000)]]
  share_perm lines := by
    rw [List.flatten_singleton, flatten_map_singleton, List.map_map]
    exact .of_eq (List.map_id lines)
  fits lines batches hbatches batch hbatch := by
    obtain rfl := List.mem_singleton.mp hbatches
    obtain ⟨line, -, rfl⟩ := List.mem_map.mp hbatch
    exact (List.length_singleton).trans_le (by decide)
  times lines x hx := by
    rw [List.flatten_singleton, flatten_map_singleton] at hx
    obtain ⟨line, -, rfl⟩ := List.mem_map.mp hx
    exact timeAccepted_up

end Gelf

end IqLogger
