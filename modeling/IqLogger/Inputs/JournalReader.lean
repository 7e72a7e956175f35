import IqLogger.Lib.Run
import IqLogger.Processor.JournalMessage

/-!
# Reading the journal

A `JournalReader` opens the journal of the system, goes to its end, and waits for its descriptor.
When something has happened it asks what (`handle_receive`), and if entries have been added it
reads on to the end (`read_journal`), making a message of every entry. Entries are added by others
at any time, also while it reads, and any call of `sd_journal_next` may fail.

The library it calls is a parameter (`SdJournal`); what its manual says of the functions, while
entries are only added to the files there are, is `SdJournal.Documented`. It says where the read
pointer stands after `sd_journal_seek_tail` and `sd_journal_previous` only when there is an entry
to stand at, so this is asked of the journal that is opened.

Then every entry that matches the units is read exactly once, in order, from the moment the
journal was opened on (`JournalReader.run_exact`). What has not been read yet is read when the
reader is told the next time that entries have been added; that the journal was invalidated, which
is ignored, delays entries but loses none. A field of an entry is what comes before and behind its
first equals sign, and of several fields with one name the first is kept.
-/

namespace IqLogger.Journal

/-! ### The journal -/

/-- An entry of the journal: its fields in the order they are enumerated in, and its time. -/
structure Entry where
  data : List Bytes
  realtime_usec : UInt64

/-- What `sd_journal_process` returns when entries have been added. -/
def SD_JOURNAL_APPEND : ℤ := 1

/-- The functions of the library, on a world that the handle and the journal are parts of. An
error is a number below zero. -/
structure SdJournal (W : Type) where
  sd_journal_open : W → ℤ × W
  sd_journal_get_fd : W → ℤ × W
  sd_journal_add_match : Bytes → W → ℤ × W
  sd_journal_add_disjunction : W → ℤ × W
  sd_journal_seek_tail : W → ℤ × W
  sd_journal_previous : W → ℤ × W
  sd_journal_next : W → ℤ × W
  sd_journal_process : W → ℤ × W
  /-- What `SD_JOURNAL_FOREACH_DATA` enumerates. -/
  sd_journal_enumerate_data : W → List Bytes
  sd_journal_get_realtime_usec : W → UInt64
  /-- Not a function of the library: an entry is added to the journal. -/
  append : Entry → W → W

/-- Where the read pointer is. -/
inductive Pointer
  /-- Where the manual does not say. -/
  | unspecified
  /-- Behind all entries. -/
  | tail
  /-- At an entry, with those behind it. -/
  | entry (entry : Entry) (behind : List Entry)

/-- What the manual speaks of: the entries, the matches that have been added, and the pointer. -/
structure View where
  entries : List Entry
  matched : List Bytes
  pointer : Pointer

/-- The entries that matches on one field let through: all of them where there is no match. -/
def shows (matched : List Bytes) (entry : Entry) : Bool :=
  matched.isEmpty || matched.any fun m => entry.data.contains m

/-- An entry is added. -/
def View.add (v : View) (added : Entry) : View where
  entries := v.entries ++ [added]
  matched := v.matched
  pointer :=
    match v.pointer with
    | .entry entry behind => .entry entry (behind ++ [added])
    | pointer => pointer

variable {W : Type}

/-- **What the manual says of the library**, as long as entries are only added, at the end. -/
structure SdJournal.Documented (lib : SdJournal W) (view : W → View) : Prop where
  opened w : 0 ≤ (lib.sd_journal_open w).1 →
    (view (lib.sd_journal_open w).2).entries = (view w).entries ∧
      (view (lib.sd_journal_open w).2).matched = []
  get_fd w : view (lib.sd_journal_get_fd w).2 = view w
  add_match m w : 0 ≤ (lib.sd_journal_add_match m w).1 →
    (view (lib.sd_journal_add_match m w).2).entries = (view w).entries ∧
      (view (lib.sd_journal_add_match m w).2).matched = (view w).matched ++ [m]
  /-- There are no matches behind the disjunction. -/
  add_disjunction w : 0 ≤ (lib.sd_journal_add_disjunction w).1 →
    (view (lib.sd_journal_add_disjunction w).2).entries = (view w).entries ∧
      (view (lib.sd_journal_add_disjunction w).2).matched = (view w).matched
  seek_tail w : 0 ≤ (lib.sd_journal_seek_tail w).1 →
    view (lib.sd_journal_seek_tail w).2 = { view w with pointer := .tail }
  /-- From the tail the pointer is set back to the last entry shown, where there is one. -/
  previous w : (view w).pointer = .tail → 0 ≤ (lib.sd_journal_previous w).1 →
    (∃ entry ∈ (view w).entries, shows (view w).matched entry) →
    ∃ before entry behind, (view w).entries = before ++ entry :: behind ∧
      behind.filter (shows (view w).matched) = [] ∧
      view (lib.sd_journal_previous w).2 = { view w with pointer := .entry entry behind }
  /-- The pointer is advanced to the next entry shown, or stays, at the end or on an error. -/
  next w entry behind : (view w).pointer = .entry entry behind →
    (lib.sd_journal_next w).1 < 0 ∧ view (lib.sd_journal_next w).2 = view w ∨
    (lib.sd_journal_next w).1 = 0 ∧ view (lib.sd_journal_next w).2 = view w ∧
      behind.filter (shows (view w).matched) = [] ∨
    (lib.sd_journal_next w).1 = 1 ∧ ∃ skipped entry' behind',
      behind = skipped ++ entry' :: behind' ∧ skipped.filter (shows (view w).matched) = [] ∧
      shows (view w).matched entry' ∧
      view (lib.sd_journal_next w).2 = { view w with pointer := .entry entry' behind' }
  process w : view (lib.sd_journal_process w).2 = view w
  /-- The data are those of the entry the pointer is at. -/
  data w entry behind : (view w).pointer = .entry entry behind →
    lib.sd_journal_enumerate_data w = entry.data ∧
      lib.sd_journal_get_realtime_usec w = entry.realtime_usec
  append entry w : view (lib.append entry w) = (view w).add entry

/-- The equals sign. -/
def equalSign : UInt8 := 61

/-- What the constructor throws: a text, and the error it is followed by. -/
structure Exception where
  what : Bytes
  error_code : ℤ

/-- `JournalReader`, with the world its handle is in, whether it is in the loop of `read_journal`,
what `sd_journal_next` returned last there, and what has been offered to its queue. -/
structure JournalReader (W : Type) where
  m_name : Bytes
  m_journal : W
  m_units : Option (List Bytes)
  reading : Bool
  error_code : ℤ
  offered : List JournalMessage

namespace JournalReader

/-! ### The program -/

section Program

variable (lib : SdJournal W)

/-- A call in the constructor. -/
def call (what : String) (function : W → ℤ × W) (w : W) : Except Exception W :=
  if (function w).1 < 0 then .error ⟨ascii what, (function w).1⟩ else .ok (function w).2

/-- The match for a unit, handed over as a `const char*`. -/
def filter (unit_name : Bytes) : Bytes := cString (ascii "_SYSTEMD_UNIT=" ++ unit_name)

/-- The filters the constructor adds. -/
def addFilters (m_units : Option (List Bytes)) (w : W) : Except Exception W :=
  match m_units with
  | none => .ok w
  | some units => do
    let w ← units.foldlM (fun w unit_name =>
      call "Failed add filter to journal: " (lib.sd_journal_add_match (filter unit_name)) w) w
    if 1 < units.length then
      call "Failed add filter to journal: " lib.sd_journal_add_disjunction w
    else
      .ok w

/-- The constructor. -/
def new (name : Bytes) (units_filter : Option (List Bytes)) (w : W) :
    Except Exception (JournalReader W) := do
  let w ← call "Failed to open journal: " lib.sd_journal_open w
  let w ← call "Failed to get journal FD: " lib.sd_journal_get_fd w
  let w ← addFilters lib units_filter w
  let w ← call "Failed to seek to tail of journal: " lib.sd_journal_seek_tail w
  let w ← call "Failed to get previous journal entry: " lib.sd_journal_previous w
  let w ← call "Failed to seek journal: " lib.sd_journal_next w
  .ok ⟨name, w, units_filter, false, 0, []⟩

/-- What is kept of a field: nothing where there is no equals sign. -/
def field (line : Bytes) : Option (Bytes × Bytes) :=
  if equalSign ∈ line then
    some (line.takeWhile (· ≠ equalSign), (line.dropWhile (· ≠ equalSign)).tail)
  else none

/-- The loop over the fields of an entry. -/
def values (data : List Bytes) : Object :=
  data.foldl (fun values line =>
    match field line with
    | none => values
    | some (key, value) => values.emplace key (.string value)) ∅

/-- The message of the entry the read pointer is at. -/
def message (m_name : Bytes) (w : W) : JournalMessage where
  data := values (lib.sd_journal_enumerate_data w)
  timestamp := lib.sd_journal_get_realtime_usec w
  input := m_name

/-- What can happen. -/
inductive Event
  /-- An entry is added to the journal. -/
  | appended (entry : Entry)
  /-- `handle_receive`, with or without an error of the descriptor. -/
  | handle_receive (error : Bool)
  /-- A turn of the loop in `read_journal`, from one call of `sd_journal_next` to the next. -/
  | round

/-- A step, where it is possible. -/
def step (r : JournalReader W) : Event → Option (JournalReader W)
  | .appended entry => some { r with m_journal := lib.append entry r.m_journal }
  | .handle_receive error =>
    if r.reading then none
    else if error then some r
    else
      -- In all other cases of the switch nothing is done.
      some { r with
        m_journal := (lib.sd_journal_process r.m_journal).2
        reading := (lib.sd_journal_process r.m_journal).1 = SD_JOURNAL_APPEND }
  | .round =>
    if !r.reading then none
    else if (lib.sd_journal_next r.m_journal).1 = 1 then
      some { r with
        m_journal := (lib.sd_journal_next r.m_journal).2
        error_code := 1
        offered := r.offered ++ [message lib r.m_name (lib.sd_journal_next r.m_journal).2] }
    else
      some { r with
        m_journal := (lib.sd_journal_next r.m_journal).2
        error_code := (lib.sd_journal_next r.m_journal).1
        reading := false }

end Program

/-! ### What it should do -/

/-- The matches for the units. -/
def matched (m_units : Option (List Bytes)) : List Bytes := (m_units.getD []).map filter

/-- The entries that are added in the course of some events. -/
def entries (events : List Event) : List Entry :=
  events.filterMap fun
    | .appended entry => some entry
    | _ => none

/-- **A message is that of an entry**: under each name it has the first field of this name. -/
structure IsOf (m_name : Bytes) (m : JournalMessage) (entry : Entry) : Prop where
  input : m.input = m_name
  timestamp : m.timestamp = entry.realtime_usec
  data : ∀ name, m.data.lookup name =
    ((entry.data.filterMap field).lookup name).map ObjectVariants.string

/-! ### The fields of an entry -/

/-- The loop over the fields inserts those with an equals sign. -/
theorem values_eq (data : List Bytes) :
    values data = ((data.filterMap field).map fun f => (f.1, ObjectVariants.string f.2)).foldl
      (fun object f => object.emplace f.1 f.2) ∅ := by
  have hfold : ∀ (data : List Bytes) (object : Object),
      data.foldl (fun values line =>
        match field line with
        | none => values
        | some (key, value) => values.emplace key (.string value)) object =
      ((data.filterMap field).map fun f => (f.1, ObjectVariants.string f.2)).foldl
        (fun object f => object.emplace f.1 f.2) object := by
    intro data
    induction data with
    | nil => exact fun object => rfl
    | cons line data ih =>
      intro object
      rw [List.foldl_cons, ih, List.filterMap_cons]
      rcases field line with _ | ⟨key, value⟩
      · rfl
      · rfl
  exact hfold data ∅

variable {lib : SdJournal W} {view : W → View}

/-- **The message of an entry.** -/
theorem isOf_message (hlib : lib.Documented view) (m_name : Bytes) {w : W} {entry : Entry}
    {behind : List Entry} (hw : (view w).pointer = .entry entry behind) :
    IsOf m_name (message lib m_name w) entry where
  input := rfl
  timestamp := (hlib.data w entry behind hw).2
  data name := by
    have hempty : (∅ : Object).lookup name = none := AList.lookup_empty name
    rw [message, (hlib.data w entry behind hw).1, values_eq, Object.lookup_foldl_emplace, hempty,
      Option.none_or, List.lookup_map_snd]

/-- Nothing that is shown is behind the read pointer. -/
def AtEnd (view : W → View) (shown : List Bytes) (r : JournalReader W) : Prop :=
  ∃ entry behind, (view r.m_journal).pointer = .entry entry behind ∧
    behind.filter (shows shown) = []

/-! ### Opening the journal -/

section Opening

/-- A call that does not throw. -/
theorem call_eq_ok {what : String} {function : W → ℤ × W} {w w' : W}
    (h : call what function w = .ok w') : 0 ≤ (function w).1 ∧ (function w).2 = w' := by
  rw [call] at h
  split_ifs at h with hcode
  exact ⟨not_lt.mp hcode, Except.ok.inj h⟩

/-- **The loop over the units adds a match for each.** -/
theorem foldlM_add_match (hlib : lib.Documented view) {units : List Bytes} {w w' : W}
    (h : units.foldlM (fun w unit_name =>
      call "Failed add filter to journal: " (lib.sd_journal_add_match (filter unit_name)) w) w =
      .ok w') :
    (view w').entries = (view w).entries ∧
      (view w').matched = (view w).matched ++ units.map filter := by
  induction units generalizing w with
  | nil =>
    obtain rfl := Except.ok.inj h
    exact ⟨rfl, (List.append_nil _).symm⟩
  | cons unit_name units ih =>
    rw [List.foldlM_cons] at h
    obtain ⟨t, hcall, hrest⟩ := Except.bind_eq_ok.mp h
    obtain ⟨hcode, rfl⟩ := call_eq_ok hcall
    obtain ⟨hentries, hmatched⟩ := hlib.add_match _ w hcode
    obtain ⟨hentries', hmatched'⟩ := ih hrest
    refine ⟨hentries'.trans hentries, ?_⟩
    rw [hmatched', hmatched, List.append_assoc]
    rfl

/-- **The filters are added.** -/
theorem addFilters_spec (hlib : lib.Documented view) {units : Option (List Bytes)} {w w' : W}
    (h : addFilters lib units w = .ok w') (hnone : (view w).matched = []) :
    (view w').entries = (view w).entries ∧ (view w').matched = matched units := by
  rcases units with _ | units
  · obtain rfl := Except.ok.inj h
    exact ⟨rfl, hnone⟩
  obtain ⟨t, hloop, hrest⟩ := Except.bind_eq_ok.mp h
  obtain ⟨hentries, hmatched⟩ := foldlM_add_match hlib hloop
  rw [hnone, List.nil_append] at hmatched
  split_ifs at hrest
  · obtain ⟨hcode, rfl⟩ := call_eq_ok hrest
    obtain ⟨hentries', hmatched'⟩ := hlib.add_disjunction t hcode
    exact ⟨hentries'.trans hentries, hmatched'.trans hmatched⟩
  · obtain rfl := Except.ok.inj hrest
    exact ⟨hentries, hmatched⟩

/-- **The constructor leaves the pointer at the last entry shown**, where there is one. -/
theorem new_spec (hlib : lib.Documented view) {name : Bytes} {units : Option (List Bytes)}
    {w : W} {r : JournalReader W} (h : new lib name units w = .ok r)
    (hentry : ∃ entry ∈ (view w).entries, shows (matched units) entry) :
    r.m_name = name ∧ r.reading = false ∧ r.offered = [] ∧
      (view r.m_journal).matched = matched units ∧ AtEnd view (matched units) r := by
  obtain ⟨opened, hopen, h⟩ := Except.bind_eq_ok.mp h
  obtain ⟨fd, hfd, h⟩ := Except.bind_eq_ok.mp h
  obtain ⟨filtered, hfilters, h⟩ := Except.bind_eq_ok.mp h
  obtain ⟨tail, htail, h⟩ := Except.bind_eq_ok.mp h
  obtain ⟨previous, hprevious, h⟩ := Except.bind_eq_ok.mp h
  obtain ⟨next, hnext, h⟩ := Except.bind_eq_ok.mp h
  obtain rfl := Except.ok.inj h
  obtain ⟨hcode, rfl⟩ := call_eq_ok hopen
  obtain ⟨hentries, hmatched⟩ := hlib.opened w hcode
  obtain ⟨-, rfl⟩ := call_eq_ok hfd
  rw [← hlib.get_fd] at hentries hmatched
  have hfiltered := addFilters_spec hlib hfilters hmatched
  rw [hentries] at hfiltered
  obtain ⟨hcode, rfl⟩ := call_eq_ok htail
  have hseek := hlib.seek_tail filtered hcode
  obtain ⟨hcode, rfl⟩ := call_eq_ok hprevious
  obtain ⟨before, entry, behind, -, hbehind, hview⟩ :=
    hlib.previous _ (by rw [hseek]) hcode (by rwa [hseek, hfiltered.1, hfiltered.2])
  rw [hseek, hfiltered.2] at hbehind
  rw [hseek] at hview
  obtain ⟨hcode, rfl⟩ := call_eq_ok hnext
  refine ⟨rfl, rfl, rfl, ?_⟩
  rcases hlib.next _ entry behind (by rw [hview]) with
    ⟨herror, -⟩ | ⟨-, hstays, -⟩ | ⟨-, skipped, entry', behind', heq, -, hshown, -⟩
  · exact absurd hcode (not_le.mpr herror)
  · rw [AtEnd, hstays, hview]
    exact ⟨hfiltered.2, entry, behind, rfl, hbehind⟩
  · -- Nothing shown is behind the last entry shown.
    rw [hview, hfiltered.2] at hshown
    rw [heq, List.filter_eq_nil_iff] at hbehind
    exact absurd hshown (hbehind entry' (by simp))

end Opening

/-! ### Runs -/

/-- **What holds at any moment**: the pointer is at an entry, of the matching entries that have
been added those that have been read are the first ones, the others are behind the pointer, and
the messages offered are those of the entries read. -/
structure Exact (view : W → View) (name : Bytes) (shown : List Bytes) (added : List Entry)
    (r : JournalReader W) : Prop where
  m_name : r.m_name = name
  matched : (view r.m_journal).matched = shown
  exact : ∃ entry behind read, (view r.m_journal).pointer = .entry entry behind ∧
    added.filter (shows shown) = read ++ behind.filter (shows shown) ∧
    List.Forall₂ (IsOf name) r.offered read

variable {name : Bytes} {shown : List Bytes} {added : List Entry} {r r' : JournalReader W}

/-- **A turn of the loop**: it ends, with an error or as there is nothing behind, or goes on with
the next entry shown. -/
theorem round_cases (hlib : lib.Documented view) {entry : Entry} {behind : List Entry}
    (hreading : r.reading = true) (hmatched : (view r.m_journal).matched = shown)
    (hpointer : (view r.m_journal).pointer = .entry entry behind) :
    (∃ w code, step lib r .round =
        some { r with m_journal := w, error_code := code, reading := false } ∧
      view w = view r.m_journal ∧ (0 ≤ code → behind.filter (shows shown) = [])) ∨
    ∃ w entry' behind', step lib r .round =
        some { r with
          m_journal := w, error_code := 1, offered := r.offered ++ [message lib r.m_name w] } ∧
      view w = { view r.m_journal with pointer := .entry entry' behind' } ∧
      behind.filter (shows shown) = entry' :: behind'.filter (shows shown) := by
  have hturn : ¬ (!r.reading) = true := by simp [hreading]
  rcases hlib.next r.m_journal entry behind hpointer with
    ⟨herror, hview⟩ | ⟨hend, hview, hnone⟩ |
      ⟨hfound, skipped, entry', behind', rfl, hskipped, hentry', hview⟩
  · refine .inl ⟨_, (lib.sd_journal_next r.m_journal).1, ?_, hview, fun hcode => ?_⟩
    · rw [step, if_neg hturn, if_neg (by omega)]
    · exact absurd herror (not_lt.mpr hcode)
  · refine .inl ⟨_, (lib.sd_journal_next r.m_journal).1, ?_, hview, fun _ => hmatched ▸ hnone⟩
    rw [step, if_neg hturn, if_neg (by omega)]
  · rw [hmatched] at hskipped hentry'
    refine .inr ⟨_, entry', behind', ?_, hview, ?_⟩
    · rw [step, if_neg hturn, if_pos hfound]
    · rw [List.filter_append, hskipped, List.nil_append, List.filter_cons_of_pos hentry']

/-- Turns are only made in the loop. -/
theorem reading_of_round (hstep : step lib r .round = some r') : r.reading = true := by
  by_contra hidle
  simp [step, hidle] at hstep

/-- **One step.** -/
theorem Exact.step (hlib : lib.Documented view) (h : Exact view name shown added r) {event : Event}
    (hstep : step lib r event = some r') :
    Exact view name shown (added ++ entries [event]) r' := by
  obtain ⟨hname, hmatched, entry, behind, read, hpointer, hread, hoffered⟩ := h
  rcases event with added' | error | _
  · obtain rfl := Option.some.inj hstep
    have hadded : entries [Event.appended added'] = [added'] := rfl
    refine ⟨hname, ?_, entry, behind ++ [added'], read, ?_, ?_, hoffered⟩
    · rw [hlib.append]
      exact hmatched
    · rw [hlib.append, View.add, hpointer]
    · rw [hadded, List.filter_append, List.filter_append, hread, List.append_assoc]
  · have hnone : entries [Event.handle_receive error] = [] := rfl
    rw [hnone, List.append_nil]
    rw [JournalReader.step] at hstep
    split_ifs at hstep
    · obtain rfl := Option.some.inj hstep
      exact ⟨hname, hmatched, entry, behind, read, hpointer, hread, hoffered⟩
    · obtain rfl := Option.some.inj hstep
      refine ⟨hname, ?_, entry, behind, read, ?_, hread, hoffered⟩
      · rw [hlib.process, hmatched]
      · rw [hlib.process, hpointer]
  · have hnone : entries [Event.round] = [] := rfl
    rw [hnone, List.append_nil]
    rcases round_cases hlib (reading_of_round hstep) hmatched hpointer with
      ⟨w, code, hround, hview, -⟩ | ⟨w, entry', behind', hround, hview, hfilter⟩
    · obtain rfl := Option.some.inj (hround.symm.trans hstep)
      exact ⟨hname, hview ▸ hmatched, entry, behind, read, hview ▸ hpointer, hread, hoffered⟩
    · obtain rfl := Option.some.inj (hround.symm.trans hstep)
      have hpointer' : (view w).pointer = .entry entry' behind' := by rw [hview]
      refine ⟨hname, by rw [hview, hmatched], entry', behind', read ++ [entry'], hpointer', ?_, ?_⟩
      · rw [hread, hfilter, List.append_assoc]
        rfl
      · exact List.rel_append hoffered
          (.cons (hname ▸ isOf_message hlib r.m_name hpointer') .nil)

/-- **A loop that ends without an error leaves nothing behind.** -/
theorem Exact.atEnd (hlib : lib.Documented view) (h : Exact view name shown added r)
    (hstep : JournalReader.step lib r .round = some r') (hended : r'.reading = false)
    (hcode : 0 ≤ r'.error_code) : AtEnd view shown r' := by
  obtain ⟨-, hmatched, entry, behind, -, hpointer, -, -⟩ := h
  have hreading := reading_of_round hstep
  rcases round_cases hlib hreading hmatched hpointer with
    ⟨w, code, hround, hview, hnone⟩ | ⟨w, entry', behind', hround, -, -⟩
  · obtain rfl := Option.some.inj (hround.symm.trans hstep)
    exact ⟨entry, behind, hview ▸ hpointer, hnone hcode⟩
  · obtain rfl := Option.some.inj (hround.symm.trans hstep)
    rw [hreading] at hended
    cases hended

theorem entries_append (events events' : List Event) :
    entries (events ++ events') = entries events ++ entries events' := List.filterMap_append

/-- Any steps. -/
theorem Exact.run (hlib : lib.Documented view) (h : Exact view name shown added r)
    {events : List Event} (hrun : events.foldlM (JournalReader.step lib) r = some r') :
    Exact view name shown (added ++ entries events) r' := by
  refine Machine.interleaving_induction
    (P := fun events r => Exact view name shown (added ++ entries events) r)
    ?_ (fun events t event u h hstep => ?_) events r' hrun
  · rwa [show entries [] = [] from rfl, List.append_nil]
  · rw [entries_append, ← List.append_assoc]
    exact h.step hlib hstep

/-- **The loop reads on to the end**, in at most as many turns as there are entries and one more,
unless it ends with an error. -/
theorem read_journal_spec (hlib : lib.Documented view) (n : ℕ) {added : List Entry}
    {r : JournalReader W} (h : Exact view name shown added r) (hreading : r.reading = true)
    {entry : Entry} {behind : List Entry}
    (hpointer : (view r.m_journal).pointer = .entry entry behind)
    (hn : (behind.filter (shows shown)).length = n) :
    ∃ rounds ≤ n + 1, ∃ r', (List.replicate rounds Event.round).foldlM (step lib) r = some r' ∧
      r'.reading = false ∧ (0 ≤ r'.error_code → AtEnd view shown r') := by
  induction n generalizing r added entry behind with
  | zero =>
    rcases round_cases hlib hreading h.matched hpointer with
      ⟨w, code, hround, hview, hnone⟩ | ⟨w, entry', behind', -, -, hfilter⟩
    · refine ⟨1, le_rfl, _, ?_, rfl, h.atEnd hlib hround rfl⟩
      rw [List.replicate_one, List.foldlM_cons, hround]
      rfl
    · rw [hfilter] at hn
      cases hn
  | succ n ih =>
    rcases round_cases hlib hreading h.matched hpointer with
      ⟨w, code, hround, hview, hnone⟩ | ⟨w, entry', behind', hround, hview, hfilter⟩
    · refine ⟨1, by omega, _, ?_, rfl, h.atEnd hlib hround rfl⟩
      rw [List.replicate_one, List.foldlM_cons, hround]
      rfl
    · rw [hfilter, List.length_cons] at hn
      obtain ⟨rounds, hrounds, r', hrun, hend⟩ := ih (h.step hlib hround) hreading
        (congrArg View.pointer hview) (Nat.succ.inj hn)
      refine ⟨rounds + 1, by omega, r', ?_, hend⟩
      rw [List.replicate_succ, List.foldlM_cons, hround]
      exact hrun

/-- **Every entry is read exactly once.** Let the library be as documented, and let an entry that
matches be in the journal when it is opened. After any events the messages offered are those of
the first matching entries that have been added since then, in order; of all of them when a loop
has just ended without an error; and whatever is pending, the next notice that entries have been
added makes it up, unless a call fails. -/
theorem run_exact (lib : SdJournal W) (view : W → View) (hlib : lib.Documented view)
    (name : Bytes) (units : Option (List Bytes)) (w : W) (opened : JournalReader W)
    (hopen : new lib name units w = .ok opened)
    (hentry : ∃ entry ∈ (view w).entries, shows (matched units) entry)
    (events : List Event) (r : JournalReader W)
    (hrun : events.foldlM (step lib) opened = some r) :
    ∃ read pending, (entries events).filter (shows (matched units)) = read ++ pending ∧
      List.Forall₂ (IsOf name) r.offered read ∧
      (events.getLast? = some .round → r.reading = false → 0 ≤ r.error_code → pending = []) ∧
      (r.reading = false → (lib.sd_journal_process r.m_journal).1 = SD_JOURNAL_APPEND →
        ∃ rounds ≤ pending.length + 1, ∃ r',
          (.handle_receive false :: List.replicate rounds .round).foldlM (step lib) r = some r' ∧
          r'.reading = false ∧
          (0 ≤ r'.error_code → List.Forall₂ (IsOf name) r'.offered (read ++ pending))) := by
  obtain ⟨hname, -, hoffered, hmatched, entry₀, behind₀, hpointer₀, hbehind₀⟩ :=
    new_spec hlib hopen hentry
  have hstart : Exact view name (matched units) [] opened :=
    ⟨hname, hmatched, entry₀, behind₀, [], hpointer₀, by rw [hbehind₀]; rfl, hoffered ▸ .nil⟩
  have hexact := hstart.run hlib hrun
  rw [List.nil_append] at hexact
  obtain ⟨-, -, entry, behind, read, hpointer, hread, hof⟩ := id hexact
  refine ⟨read, behind.filter (shows (matched units)), hread, hof, ?_, ?_⟩
  · intro hlast hended hcode
    rcases List.eq_nil_or_concat' events with hnil | ⟨before, event, hconcat⟩
    · rw [hnil] at hlast
      cases hlast
    · rw [hconcat, List.getLast?_concat] at hlast
      obtain rfl := Option.some.inj hlast
      rw [hconcat] at hrun
      obtain ⟨t, ht, hstep⟩ := Machine.foldlM_snoc_eq_some.mp hrun
      obtain ⟨entry', behind', hpointer', hnone⟩ :=
        (hstart.run hlib ht).atEnd hlib hstep hended hcode
      rw [hpointer] at hpointer'
      obtain ⟨-, rfl⟩ := Pointer.entry.inj hpointer'
      exact hnone
  · intro hidle hprocess
    have hnotice : step lib r (.handle_receive false) = some { r with
        m_journal := (lib.sd_journal_process r.m_journal).2, reading := true } := by
      simp [step, hidle, hprocess]
    have hnoticed := hexact.step hlib hnotice
    obtain ⟨rounds, hrounds, r', hloop, hended, hend⟩ := read_journal_spec hlib _ hnoticed rfl
      (by rw [hlib.process]; exact hpointer) rfl
    refine ⟨rounds, hrounds, r', ?_, hended, fun hcode => ?_⟩
    · rw [List.foldlM_cons, hnotice]
      exact hloop
    · obtain ⟨-, -, entry', behind', read', hpointer', hread', hof'⟩ := hnoticed.run hlib hloop
      obtain ⟨entry'', behind'', hpointer'', hnone⟩ := hend hcode
      rw [hpointer'] at hpointer''
      obtain ⟨-, rfl⟩ := Pointer.entry.inj hpointer''
      have hquiet : entries (List.replicate rounds Event.round) = [] := by
        rw [entries, List.filterMap_eq_nil_iff]
        intro event hevent
        rw [List.eq_of_mem_replicate hevent]
      rw [hquiet, List.append_nil, hnone, List.append_nil, List.filter_append, hread] at hread'
      rw [show (entries [Event.handle_receive false]).filter (shows (matched units)) = [] from rfl,
        List.append_nil] at hread'
      rwa [hread']

/-! ### A library -/

/-- A library whose world is what the manual speaks of: no call fails, notices come for new
entries only, and from the tail the pointer is not advanced. -/
def sampleLibrary : SdJournal View where
  sd_journal_open v := (0, { v with matched := [], pointer := .unspecified })
  sd_journal_get_fd v := (3, v)
  sd_journal_add_match m v := (0, { v with matched := v.matched ++ [m] })
  sd_journal_add_disjunction v := (0, v)
  sd_journal_seek_tail v := (0, { v with pointer := .tail })
  sd_journal_previous v :=
    match v.pointer, v.entries.reverse.dropWhile (fun entry => !shows v.matched entry) with
    | .tail, entry :: _ => (1, { v with
        pointer := .entry entry
          (v.entries.reverse.takeWhile fun entry => !shows v.matched entry).reverse })
    | _, _ => (0, v)
  sd_journal_next v :=
    match v.pointer with
    | .entry _ behind =>
      match behind.dropWhile (fun entry => !shows v.matched entry) with
      | [] => (0, v)
      | entry :: behind => (1, { v with pointer := .entry entry behind })
    | _ => (0, v)
  sd_journal_process v := (SD_JOURNAL_APPEND, v)
  sd_journal_enumerate_data v :=
    match v.pointer with
    | .entry entry _ => entry.data
    | _ => []
  sd_journal_get_realtime_usec v :=
    match v.pointer with
    | .entry entry _ => entry.realtime_usec
    | _ => 0
  append added v := v.add added

/-- What `dropWhile` stops at. -/
theorem filter_takeWhile_not {p : Entry → Bool} (l : List Entry) :
    (l.takeWhile fun entry => !p entry).filter p = [] := by
  rw [List.filter_eq_nil_iff]
  intro entry hentry
  simpa using List.mem_takeWhile_imp hentry

theorem of_dropWhile_not {p : Entry → Bool} {l rest : List Entry} {entry : Entry}
    (h : l.dropWhile (fun entry => !p entry) = entry :: rest) :
    l = (l.takeWhile fun entry => !p entry) ++ entry :: rest ∧ p entry = true := by
  refine ⟨by rw [← h, List.takeWhile_append_dropWhile], ?_⟩
  have hhead := List.head?_dropWhile_not (fun entry => !p entry) l
  rw [h] at hhead
  simpa using hhead

/-- **It is as documented.** -/
theorem documented_sampleLibrary : sampleLibrary.Documented id where
  opened _ _ := ⟨rfl, rfl⟩
  get_fd _ := rfl
  add_match _ _ _ := ⟨rfl, rfl⟩
  add_disjunction _ _ := ⟨rfl, rfl⟩
  seek_tail _ _ := rfl
  previous v htail _ hentry := by
    obtain ⟨shown, hmem, hshown⟩ := hentry
    rcases hdrop : v.entries.reverse.dropWhile (fun entry => !shows v.matched entry) with
      _ | ⟨entry, before⟩
    · have hnone := List.dropWhile_eq_nil_iff.mp hdrop shown (List.mem_reverse.mpr hmem)
      have hshown' : shows v.matched shown = true := hshown
      simp [hshown'] at hnone
    · obtain ⟨heq, -⟩ := of_dropWhile_not hdrop
      refine ⟨before.reverse, entry,
        (v.entries.reverse.takeWhile fun entry => !shows v.matched entry).reverse, ?_, ?_, ?_⟩
      · have hreverse := congrArg List.reverse heq
        simpa using hreverse
      · rw [List.filter_reverse, id_eq, filter_takeWhile_not]
        rfl
      · simp only [id_eq] at htail ⊢
        simp only [sampleLibrary, htail, hdrop]
  next v entry behind hpointer := by
    rcases hdrop : behind.dropWhile (fun entry => !shows v.matched entry) with
      _ | ⟨entry', behind'⟩
    · refine .inr (.inl ?_)
      simp only [id_eq] at hpointer ⊢
      simp only [sampleLibrary, hpointer, hdrop, true_and]
      rw [List.filter_eq_nil_iff]
      intro e he
      simpa using List.dropWhile_eq_nil_iff.mp hdrop e he
    · obtain ⟨heq, hshown⟩ := of_dropWhile_not hdrop
      refine .inr (.inr ⟨?_, _, entry', behind', heq, filter_takeWhile_not behind, hshown, ?_⟩)
      · simp only [id_eq] at hpointer
        simp only [sampleLibrary, hpointer, hdrop]
      · simp only [id_eq] at hpointer ⊢
        simp only [sampleLibrary, hpointer, hdrop]
  process _ := rfl
  data v entry behind hpointer := by
    simp only [id_eq] at hpointer
    simp only [sampleLibrary, hpointer, and_self]
  append _ _ := rfl

/-- A unit writes an entry. -/
def sampleEntry (unit_name message : String) (time : UInt64) : Entry where
  data := [ascii "_SYSTEMD_UNIT=" ++ ascii unit_name, ascii "MESSAGE=" ++ ascii message]
  realtime_usec := time

/-- The journal before it is opened: the last entry is of another unit. -/
def sampleJournal : View where
  entries := [sampleEntry "ssh.service" "up" 1, sampleEntry "cron.service" "up" 2]
  matched := []
  pointer := .unspecified

/-- An entry of another unit, and one of ours that is added while the first is looked at. -/
def sampleEvents : List Event :=
  [.appended (sampleEntry "cron.service" "no" 3), .handle_receive false,
    .appended (sampleEntry "ssh.service" "a=b" 4), .round]

/-- The reader, with its pointer at an entry of the journal. -/
def sampleReader (entries : List Entry) (entry : Entry) (behind : List Entry) :
    JournalReader View where
  m_name := ascii "journal"
  m_journal := ⟨entries, [ascii "_SYSTEMD_UNIT=ssh.service"], .entry entry behind⟩
  m_units := some [ascii "ssh.service"]
  reading := false
  error_code := 0
  offered := []

/-- The reader after these events. -/
def sampleEnd : JournalReader View :=
  { sampleReader (sampleJournal.entries ++ entries sampleEvents)
      (sampleEntry "ssh.service" "a=b" 4) [] with
    reading := true
    error_code := 1
    offered := [message sampleLibrary (ascii "journal")
      ⟨[], [], .entry (sampleEntry "ssh.service" "a=b" 4) []⟩] }

theorem run_exact_sample :
    ∃ read pending,
      (entries sampleEvents).filter (shows (matched (some [ascii "ssh.service"]))) =
        read ++ pending ∧
      List.Forall₂ (IsOf (ascii "journal")) sampleEnd.offered read ∧
      (sampleEvents.getLast? = some .round → sampleEnd.reading = false →
        0 ≤ sampleEnd.error_code → pending = []) ∧
      (sampleEnd.reading = false →
        (sampleLibrary.sd_journal_process sampleEnd.m_journal).1 = SD_JOURNAL_APPEND →
        ∃ rounds ≤ pending.length + 1, ∃ r',
          (.handle_receive false :: List.replicate rounds .round).foldlM (step sampleLibrary)
            sampleEnd = some r' ∧
          r'.reading = false ∧
          (0 ≤ r'.error_code →
            List.Forall₂ (IsOf (ascii "journal")) r'.offered (read ++ pending))) :=
  run_exact sampleLibrary id documented_sampleLibrary (ascii "journal")
    (some [ascii "ssh.service"]) sampleJournal
    (sampleReader sampleJournal.entries (sampleEntry "ssh.service" "up" 1)
      [sampleEntry "cron.service" "up" 2]) rfl
    ⟨_, List.mem_cons_self .., rfl⟩ sampleEvents sampleEnd rfl

end JournalReader

end IqLogger.Journal
