import IqLogger.Core.Base
import IqLogger.Inputs.Tail.Event
import IqLogger.Lib.LittleEndian
import IqLogger.Lib.Run
import Mathlib.Data.List.SplitLengths

/-!
# The stream of inotify events

The kernel hands its events over as a stream of bytes, each event a header of 16 bytes
(`wd`, `mask`, `cookie`, `len`) and then `len` bytes for a name. The inotify server
keeps what it has read in a buffer, and takes events off the front as long as there is
a header in it (`IqLogger.Tail.Inotify.end_read`).

Nobody asks whether the name is there, too. But as long as no read ends inside of a
name, what is in the buffer after a read is less than a header
(`IqLogger.Tail.Inotify.Buffered`). The name itself is a `const char*`, so it goes on
behind its `len` bytes if they hold no NUL. Therefore a stream of which no name is cut
is decoded as its events are whole if and only if every name that is passed on ends
before the event does, or where the bytes do that were read with it
(`IqLogger.Tail.Inotify.ReadAs.decodedWhole_iff_namesEnd`).
-/

namespace IqLogger

namespace Tail

namespace Inotify

/-! ### Events -/

/-- Four bytes of a number. -/
def wordBytes (n : UInt32) : Bytes := Nat.littleEndian 4 n.toNat

/-- The number at an offset. -/
def word (s : Bytes) (pos : ℕ) : UInt32 := UInt32.ofNat (substr s pos 4).readLittleEndian

/-- `inotify_event`. -/
structure InotifyEvent where
  wd : Int32
  mask : UInt32
  cookie : UInt32
  len : UInt32
  name : Bytes
  length_name : name.length = len.toNat

/-- The cases of the `switch`. -/
def maskOf (mask : UInt32) : Mask :=
  -- `IN_CREATE`, `IN_DELETE`, `IN_MOVED_FROM`, `IN_MOVED_TO`
  if mask = 0x100 then .create
  else if mask = 0x200 then .delete
  else if mask = 0x40 then .movedFrom
  else if mask = 0x80 then .movedTo
  -- `IN_CREATE | IN_ISDIR`, `IN_MODIFY`
  else if mask = 0x40000100 then .createDirectory
  else if mask = 0x2 then .modify
  else .other

/-- A call of `notify`. -/
structure Notification where
  watchDescriptor : Int32
  eventType : EventType
  filename : Bytes
  deriving DecidableEq, Repr

namespace InotifyEvent

/-- The bytes of the header. -/
def header (e : InotifyEvent) : Bytes :=
  wordBytes e.wd.toUInt32 ++ wordBytes e.mask ++ wordBytes e.cookie ++ wordBytes e.len

/-- The bytes of an event. -/
def encode (e : InotifyEvent) : Bytes := e.header ++ e.name

/-- The call that is made for an event, with some file name. -/
def notificationWith (e : InotifyEvent) (filename : Bytes) : Option Notification :=
  (maskOf e.mask).eventType.map fun eventType => ⟨e.wd, eventType, filename⟩

/-- The call that is made for an event when it is decoded whole. -/
def notification (e : InotifyEvent) : Option Notification := e.notificationWith (cString e.name)

end InotifyEvent

/-- The bytes of some events. -/
def stream (events : List InotifyEvent) : Bytes := events.flatMap InotifyEvent.encode

/-! ### Reading -/

/-- The call that is made for the event at the front of the buffer. The file name is a
`const char*` into the buffer. -/
def readEvent (buffer : Bytes) : Option Notification :=
  (maskOf (word buffer 4)).eventType.map fun eventType =>
    ⟨(word buffer 0).toInt32, eventType, cString (buffer.drop 16)⟩

/-- The loop of `end_read`: what is left in the buffer, and the calls of `notify`. -/
def takeEvents (pending : Bytes) : Bytes × List Notification :=
  if _h : 16 ≤ pending.length then
    -- `erase` stops at the end of the buffer
    let rest := takeEvents (pending.drop (16 + (word pending 12).toNat))
    (rest.1, (readEvent pending).toList ++ rest.2)
  else (pending, [])
termination_by pending.length
decreasing_by
  rw [List.length_drop]
  omega

/-- `end_read`, without an error. -/
def end_read (m_pending_read_buffer read : Bytes) : Bytes × List Notification :=
  takeEvents (m_pending_read_buffer ++ read)

/-- **The events are decoded as they are whole**, and nothing is left in the buffer. -/
def DecodedWhole (events : List InotifyEvent) (reads : List Bytes) : Prop :=
  Machine.run end_read [] reads = ([], events.filterMap InotifyEvent.notification)

/-! ### Ways of reading -/

/-- The number of bytes of some events, by the lengths of their names. -/
def streamLength (lens : List UInt32) : ℕ := (lens.map fun len => 16 + len.toNat).sum

/-- The first `n` bytes end behind the header of an event, but not behind its name. -/
def EndsInName (lens : List UInt32) (n : ℕ) : Prop :=
  ∃ before len after, lens = before ++ len :: after ∧ streamLength before + 16 ≤ n ∧
    n < streamLength before + 16 + len.toNat

/-- No read ends inside of a name. -/
def CutsNoName (lens : List UInt32) (sizes : List ℕ) : Prop :=
  ∀ first, first <+: sizes → ¬EndsInName lens first.sum

/-- Reads of some sizes make up the stream of some events. -/
structure ReadAs (lens : List UInt32) (sizes : List ℕ) (events : List InotifyEvent)
    (reads : List Bytes) : Prop where
  lens : events.map InotifyEvent.len = lens
  sizes : reads.map List.length = sizes
  flatten : reads.flatten = stream events

/-- How much has been read when there are at least `n` bytes. -/
def readEnd : List ℕ → ℕ → ℕ
  | [], _ => 0
  | size :: sizes, n => if n ≤ size then size else size + readEnd sizes (n - size)

/-- The bytes that were read before the header of an event was complete or with it, from
some place in it on. -/
def readWith (events : List InotifyEvent) (sizes : List ℕ) (before : List InotifyEvent)
    (place : ℕ) : Bytes :=
  let start := (stream before).length
  between (stream events) (start + place) (readEnd sizes (start + 16))

/-- Every name that is passed on holds a NUL, or what was read with it does so right
after it, or ends with it. -/
def NamesEnd (events : List InotifyEvent) (sizes : List ℕ) : Prop :=
  ∀ before e after, events = before ++ e :: after → e.notification.isSome →
    0 ∈ e.name ∨ ∀ c ∈ (readWith events sizes before (16 + e.len.toNat)).head?, c = 0

/-! ### An event at the front -/

@[simp] theorem length_wordBytes (n : UInt32) : (wordBytes n).length = 4 :=
  Nat.length_littleEndian 4 n.toNat

/-- A number is read back. -/
theorem word_wordBytes {s t : Bytes} {pos : ℕ} (hpos : s.length = pos) (n : UInt32) :
    word (s ++ (wordBytes n ++ t)) pos = n := by
  have hsub : substr (s ++ (wordBytes n ++ t)) pos 4 = wordBytes n := by
    rw [substr, ← hpos, List.drop_left]
    exact List.take_left' (length_wordBytes n)
  have hlt : n.toNat < 256 ^ 4 := n.toNat_lt
  rw [word, hsub, wordBytes, List.readLittleEndian_littleEndian, Nat.mod_eq_of_lt hlt,
    UInt32.ofNat_toNat]

namespace InotifyEvent

variable (e : InotifyEvent)

@[simp] theorem length_header : e.header.length = 16 := by simp [header]

@[simp] theorem length_encode : e.encode.length = 16 + e.len.toNat := by
  rw [encode, List.length_append, length_header, e.length_name]

theorem word_wd (t : Bytes) : word (e.header ++ t) 0 = e.wd.toUInt32 := by
  rw [header, List.append_assoc, List.append_assoc, List.append_assoc]
  exact word_wordBytes (s := []) rfl _

theorem word_mask (t : Bytes) : word (e.header ++ t) 4 = e.mask := by
  rw [header, List.append_assoc, List.append_assoc, List.append_assoc]
  exact word_wordBytes (length_wordBytes _) _

theorem word_len (t : Bytes) : word (e.header ++ t) 12 = e.len := by
  rw [header, List.append_assoc]
  exact word_wordBytes (by simp) _

/-- The call for an event whose header is at the front of the buffer. -/
theorem readEvent_header (t : Bytes) :
    readEvent (e.header ++ t) = e.notificationWith (cString t) := by
  have hdrop : (e.header ++ t).drop 16 = t := List.drop_left' e.length_header
  rw [readEvent, word_mask, word_wd, hdrop, notificationWith]
  rfl

/-- **Taking an event off.** -/
theorem takeEvents_header (t : Bytes) :
    takeEvents (e.header ++ t) =
      ((takeEvents (t.drop e.len.toNat)).1,
        (e.notificationWith (cString t)).toList ++ (takeEvents (t.drop e.len.toNat)).2) := by
  have hlen : 16 ≤ (e.header ++ t).length := by
    rw [List.length_append, length_header]
    omega
  have hdrop : (e.header ++ t).drop (16 + e.len.toNat) = t.drop e.len.toNat := by
    rw [← List.drop_drop, List.drop_left' e.length_header]
  rw [takeEvents, dif_pos hlen, readEvent_header, word_len, hdrop]

end InotifyEvent

/-! ### Events in a row -/

theorem stream_append (events events' : List InotifyEvent) :
    stream (events ++ events') = stream events ++ stream events' := List.flatMap_append

@[simp] theorem length_stream_nil : (stream []).length = 0 := rfl

@[simp] theorem length_stream_cons (e : InotifyEvent) (events : List InotifyEvent) :
    (stream (e :: events)).length = 16 + e.len.toNat + (stream events).length := by
  rw [stream, List.flatMap_cons, List.length_append, e.length_encode]
  rfl

theorem length_stream (events : List InotifyEvent) :
    (stream events).length = streamLength (events.map InotifyEvent.len) := by
  induction events with
  | nil => rfl
  | cons e events ih =>
    rw [length_stream_cons, ih]
    rfl

/-- A part of some bytes, up to an offset behind it. -/
theorem between_eq_append {bytes a b c : Bytes} {p n : ℕ} (hbytes : bytes = a ++ (b ++ c))
    (hp : a.length = p) (hn : p + b.length ≤ n) :
    between bytes p n = b ++ between bytes (p + b.length) n := by
  subst hbytes
  subst hp
  have htake : (a ++ (b ++ c)).take n = a ++ (b ++ c.take (n - a.length - b.length)) := by
    rw [List.take_append, List.take_of_length_le (by omega), List.take_append,
      List.take_of_length_le (by omega)]
  rw [between, between, htake, List.drop_left, ← List.drop_drop, List.drop_left, List.drop_left]

/-- The calls that are made for events of the stream, each with the name as far as it has
been read. -/
def callsFor (bytes : Bytes) (sizes : List ℕ) : ℕ → List InotifyEvent → List Notification
  | _, [] => []
  | start, e :: events =>
    (e.notificationWith
        (cString (between bytes (start + 16) (readEnd sizes (start + 16))))).toList ++
      callsFor bytes sizes (start + 16 + e.len.toNat) events

/-- **Taking off events that have been read whole**, of a stream that is known up to the
offset `n`. -/
theorem takeEvents_between {bytes : Bytes} {sizes : List ℕ} {n : ℕ} (events : List InotifyEvent) :
    ∀ before after : Bytes, bytes = before ++ (stream events ++ after) →
      before.length + (stream events).length ≤ n →
      (∀ m, before.length + 16 ≤ m → m ≤ n → readEnd sizes m = n) →
      takeEvents (between bytes before.length n) =
        let rest := takeEvents (between bytes (before.length + (stream events).length) n)
        (rest.1, callsFor bytes sizes before.length events ++ rest.2) := by
  induction events with
  | nil => exact fun _ _ _ _ _ => rfl
  | cons e events ih =>
    intro before after hbytes hn hread
    have hcons : stream (e :: events) = e.header ++ (e.name ++ stream events) := by
      rw [stream, List.flatMap_cons, InotifyEvent.encode, List.append_assoc]
      rfl
    have hlength := length_stream_cons e events
    rw [hcons, List.append_assoc, List.append_assoc] at hbytes
    rw [hlength] at hn ⊢
    -- the event is at the front, and the ones behind it follow its name
    have hheader : between bytes before.length n =
        e.header ++ between bytes (before.length + 16) n := by
      rw [← e.length_header]
      exact between_eq_append hbytes rfl (by rw [e.length_header]; omega)
    have hname : between bytes (before.length + 16) n =
        e.name ++ between bytes (before.length + 16 + e.len.toNat) n := by
      rw [← e.length_name]
      refine between_eq_append (a := before ++ e.header) (c := stream events ++ after) ?_ ?_ ?_
      · rw [hbytes, List.append_assoc]
      · rw [List.length_append, e.length_header]
      · rw [e.length_name]
        omega
    have hbefore : (before ++ e.encode).length = before.length + 16 + e.len.toNat := by
      rw [List.length_append, e.length_encode]
      omega
    have hrest := ih (before ++ e.encode) after
      (by rw [hbytes, InotifyEvent.encode, List.append_assoc, List.append_assoc])
      (by rw [hbefore]; omega) fun m hm hmn => hread m (by omega) hmn
    have hend : before.length + (16 + e.len.toNat + (stream events).length) =
        before.length + 16 + e.len.toNat + (stream events).length := by
      omega
    have hdrop : (between bytes (before.length + 16) n).drop e.len.toNat =
        between bytes (before.length + 16 + e.len.toNat) n := by
      rw [hname, List.drop_left' e.length_name]
    rw [hheader, e.takeEvents_header, hdrop, ← hbefore, hrest, callsFor,
      hread (before.length + 16) le_rfl (by omega), hbefore, hend]
    dsimp only
    rw [List.append_assoc]

/-! ### Reads that cut no name -/

/-- The read that makes up for the missing bytes. -/
theorem readEnd_append {first rest : List ℕ} {size n : ℕ} (hlt : first.sum < n)
    (hle : n ≤ first.sum + size) : readEnd (first ++ size :: rest) n = first.sum + size := by
  induction first generalizing n with
  | nil =>
    rw [List.sum_nil, Nat.zero_add] at hle ⊢
    exact if_pos hle
  | cons x first ih =>
    rw [List.sum_cons] at hlt hle ⊢
    rw [List.cons_append, readEnd, if_neg (by omega), ih (by omega) (by omega)]
    omega

/-- Bytes that do not end inside of a name are some events and less than a header. -/
theorem exists_split {events : List InotifyEvent} {n : ℕ} (hn : n ≤ (stream events).length)
    (hname : ¬EndsInName (events.map InotifyEvent.len) n) :
    ∀ rest done : List InotifyEvent, events = done ++ rest → (stream done).length ≤ n →
      ∃ mid rest', rest = mid ++ rest' ∧ (stream done).length + (stream mid).length ≤ n ∧
        n < (stream done).length + (stream mid).length + 16 := by
  intro rest
  induction rest with
  | nil =>
    rintro done hevents hdone
    rw [hevents, List.append_nil] at hn
    exact ⟨[], [], rfl, hdone, Nat.lt_add_right 15 (Nat.lt_succ_of_le hn)⟩
  | cons e rest ih =>
    intro done hevents hdone
    by_cases hheader : n < (stream done).length + 16
    · exact ⟨[], e :: rest, rfl, hdone, hheader⟩
    · have hwhole : (stream done).length + 16 + e.len.toNat ≤ n := by
        refine Nat.not_lt.mp fun hlt => hname ?_
        refine ⟨done.map InotifyEvent.len, e.len, rest.map InotifyEvent.len, ?_, ?_, ?_⟩
        · rw [hevents, List.map_append, List.map_cons]
        · rw [← length_stream]
          omega
        · rw [← length_stream]
          exact hlt
      have hnext : (stream (done ++ [e])).length = (stream done).length + 16 + e.len.toNat := by
        rw [stream_append, List.length_append, length_stream_cons, length_stream_nil]
        omega
      obtain ⟨mid, rest', hrest, hle, hlt⟩ := ih (done ++ [e]) (by rw [hevents]; simp)
        (by rw [hnext]; exact hwhole)
      have hmid := length_stream_cons e mid
      refine ⟨e :: mid, rest', by rw [hrest]; rfl, ?_, ?_⟩ <;> omega

/-- The calls for events in a row. -/
theorem callsFor_append {bytes : Bytes} {sizes : List ℕ} (events events' : List InotifyEvent)
    (start : ℕ) : callsFor bytes sizes start (events ++ events') =
      callsFor bytes sizes start events ++
        callsFor bytes sizes (start + (stream events).length) events' := by
  induction events generalizing start with
  | nil => rfl
  | cons e events ih =>
    have hlength : start + 16 + e.len.toNat + (stream events).length =
        start + (stream (e :: events)).length := by
      rw [length_stream_cons]
      omega
    rw [List.cons_append, callsFor, callsFor, ih, hlength, List.append_assoc]

/-- Less than a header is left where it is. -/
theorem takeEvents_of_lt {pending : Bytes} (h : pending.length < 16) :
    takeEvents pending = (pending, []) := by
  rw [takeEvents, dif_neg (Nat.not_le.mpr h)]

section Read

variable {events : List InotifyEvent} {first last : List Bytes} {b : Bytes}
  (hflatten : (first ++ b :: last).flatten = stream events)

include hflatten

/-- The buffer with the bytes of a read. -/
theorem between_append_read {p : ℕ} (hp : p ≤ first.flatten.length) :
    between (stream events) p first.flatten.length ++ b =
      between (stream events) p (first.flatten.length + b.length) := by
  have hstream : stream events = first.flatten ++ (b ++ last.flatten) := by
    rw [← hflatten, List.flatten_append, List.flatten_cons]
  have htake : (stream events).take first.flatten.length = first.flatten := by
    rw [hstream, List.take_left]
  have htake' : (stream events).take (first.flatten.length + b.length) = first.flatten ++ b := by
    rw [hstream, ← List.append_assoc, ← List.length_append, List.take_left]
  rw [between, between, htake, htake', List.drop_append_of_le_length hp]

/-- **A read**, of which some events are known that are in the buffer whole afterwards. -/
theorem end_read_between {done mid rest : List InotifyEvent}
    (hevents : events = done ++ (mid ++ rest))
    (hdone : (stream done).length ≤ first.flatten.length)
    (hdone' : first.flatten.length < (stream done).length + 16)
    (hmid : (stream done).length + (stream mid).length ≤ first.flatten.length + b.length) :
    end_read (between (stream events) (stream done).length first.flatten.length) b =
      let after := takeEvents (between (stream events) ((stream done).length + (stream mid).length)
        (first.flatten.length + b.length))
      (after.1, callsFor (stream events) ((first ++ b :: last).map List.length)
        (stream done).length mid ++ after.2) := by
  rw [end_read, between_append_read hflatten hdone]
  refine takeEvents_between mid (stream done) (stream rest) ?_ hmid fun m hm hmn => ?_
  · rw [hevents, stream_append, stream_append]
  · -- the header of each of these events is complete with this read, and not before
    rw [List.map_append, List.map_cons, readEnd_append, ← List.length_flatten]
    · rw [← List.length_flatten]
      omega
    · rw [← List.length_flatten]
      omega

end Read

/-! ### Runs -/

/-- **The invariant of the buffer**: as long as no read has ended inside of a name, it
holds less than a header, namely what has been read behind some whole events. -/
def Buffered (events : List InotifyEvent) (sizes : List ℕ) (m : ℕ) (pending : Bytes)
    (calls : List Notification) : Prop :=
  ∃ done rest, events = done ++ rest ∧ (stream done).length ≤ m ∧
    m < (stream done).length + 16 ∧ pending = between (stream events) (stream done).length m ∧
    calls = callsFor (stream events) sizes 0 done

section Run

variable {events : List InotifyEvent} {reads : List Bytes}
  (hflatten : reads.flatten = stream events)

include hflatten

/-- A read that does not end inside of a name keeps the invariant. -/
theorem Buffered.read {first last : List Bytes} {b pending : Bytes} {calls : List Notification}
    (hreads : reads = first ++ b :: last)
    (h : Buffered events (reads.map List.length) first.flatten.length pending calls)
    (hname : ¬EndsInName (events.map InotifyEvent.len) (first.flatten.length + b.length)) :
    Buffered events (reads.map List.length) (first.flatten.length + b.length)
      (end_read pending b).1 (calls ++ (end_read pending b).2) := by
  subst hreads
  obtain ⟨done, rest, hevents, hdone, hdone', rfl, rfl⟩ := h
  have hle : first.flatten.length + b.length ≤ (stream events).length := by
    rw [← hflatten, List.flatten_append, List.flatten_cons, List.length_append, List.length_append]
    omega
  obtain ⟨mid, rest', rfl, hmid, hmid'⟩ :=
    exists_split hle hname rest done hevents (hdone.trans (Nat.le_add_right _ _))
  have hshort : (between (stream events) ((stream done).length + (stream mid).length)
      (first.flatten.length + b.length)).length < 16 := by
    rw [length_between hle]
    omega
  have hlength : (stream (done ++ mid)).length = (stream done).length + (stream mid).length := by
    rw [stream_append, List.length_append]
  rw [end_read_between hflatten hevents hdone hdone' hmid, takeEvents_of_lt hshort]
  refine ⟨done ++ mid, rest', by rw [hevents, List.append_assoc], ?_, ?_, ?_, ?_⟩
  · rw [hlength]
    exact hmid
  · rw [hlength]
    exact hmid'
  · rw [hlength]
  · dsimp only
    rw [callsFor_append, Nat.zero_add, List.append_nil]

/-- The invariant holds as long as no read has ended inside of a name. -/
theorem buffered_run (first : List Bytes) (hfirst : first <+: reads)
    (hname : ∀ shorter, shorter <+: first →
      ¬EndsInName (events.map InotifyEvent.len) shorter.flatten.length) :
    Buffered events (reads.map List.length) first.flatten.length
      (Machine.run end_read [] first).1 (Machine.run end_read [] first).2 := by
  refine Machine.run_induction
    (P := fun first pending calls => first <+: reads →
      (∀ shorter, shorter <+: first →
        ¬EndsInName (events.map InotifyEvent.len) shorter.flatten.length) →
      Buffered events (reads.map List.length) first.flatten.length pending calls)
    ?_ ?_ first hfirst hname
  · exact fun _ _ => ⟨[], events, rfl, le_rfl, by decide, rfl, rfl⟩
  · intro first b pending calls ih hfirst hname
    obtain ⟨last, hlast⟩ := hfirst
    have hreads : reads = first ++ b :: last := by
      rw [← hlast, List.append_assoc, List.singleton_append]
    have hlength : (first ++ [b]).flatten.length = first.flatten.length + b.length := by
      simp
    have hbefore := ih ⟨b :: last, hreads.symm⟩ fun shorter hshorter =>
      hname shorter (hshorter.trans (List.prefix_append _ _))
    have hend := hname _ (List.prefix_refl _)
    rw [hlength] at hend ⊢
    exact hbefore.read hflatten hreads hend

end Run

/-! ### Where names end -/

theorem readEnd_spec {sizes : List ℕ} {n : ℕ} (hn : n ≤ sizes.sum) :
    ∃ first, first <+: sizes ∧ readEnd sizes n = first.sum ∧ n ≤ first.sum := by
  induction sizes generalizing n with
  | nil => exact ⟨[], List.prefix_refl _, rfl, hn⟩
  | cons size sizes ih =>
    rw [readEnd]
    split_ifs with hle
    · exact ⟨[size], by simp, by simp, by simpa using hle⟩
    · rw [List.sum_cons] at hn
      obtain ⟨first, hfirst, heq, hle'⟩ := ih (n := n - size) (by omega)
      refine ⟨size :: first, List.cons_prefix_cons.mpr ⟨rfl, hfirst⟩, ?_, ?_⟩
      · rw [heq, List.sum_cons]
      · rw [List.sum_cons]
        omega

/-- The name of an event is what has been read from there on. -/
def NameRead (events : List InotifyEvent) (sizes : List ℕ) (before : List InotifyEvent)
    (e : InotifyEvent) : Prop :=
  e.notification.isSome → cString (readWith events sizes before 16) = cString e.name

/-- The calls are the ones for the events decoded whole when all names are. -/
theorem callsFor_eq_iff {events : List InotifyEvent} {sizes : List ℕ} (rest : List InotifyEvent) :
    ∀ done, callsFor (stream events) sizes (stream done).length rest =
        rest.filterMap InotifyEvent.notification ↔
      ∀ before e after, rest = before ++ e :: after → NameRead events sizes (done ++ before) e := by
  induction rest with
  | nil => exact fun done => iff_of_true rfl fun before e after h => by simp at h
  | cons e rest ih =>
    intro done
    have hlength : (stream (done ++ [e])).length = (stream done).length + 16 + e.len.toNat := by
      rw [stream_append, List.length_append, length_stream_cons, length_stream_nil]
      omega
    have hrest := ih (done ++ [e])
    rw [hlength] at hrest
    -- the first event, and the others
    have hsplit : (∀ before e' after, e :: rest = before ++ e' :: after →
          NameRead events sizes (done ++ before) e') ↔
        NameRead events sizes done e ∧ ∀ before e' after, rest = before ++ e' :: after →
          NameRead events sizes (done ++ [e] ++ before) e' := by
      constructor
      · refine fun h => ⟨by simpa using h [] e rest rfl, fun before e' after heq => ?_⟩
        have hcons := h (e :: before) e' after (by rw [heq]; rfl)
        rwa [List.append_cons] at hcons
      · rintro ⟨hfirst, hothers⟩ before e' after heq
        cases before with
        | nil =>
          obtain ⟨rfl, -⟩ := List.cons.inj heq
          simpa using hfirst
        | cons e'' before =>
          obtain ⟨rfl, heq'⟩ := List.cons.inj heq
          have hother := hothers before e' after heq'
          rwa [← List.append_cons] at hother
    rw [hsplit, ← hrest, callsFor, List.filterMap_cons, NameRead, InotifyEvent.notification,
      InotifyEvent.notificationWith, InotifyEvent.notificationWith]
    cases (maskOf e.mask).eventType with
    | none => simp
    | some eventType => simp [readWith]

section Whole

variable {lens : List UInt32} {sizes : List ℕ} {events : List InotifyEvent} {reads : List Bytes}
  (h : ReadAs lens sizes events reads) (hcut : CutsNoName lens sizes)

include h hcut

/-- **What is made of a stream** none of whose names is cut. -/
theorem ReadAs.run_eq :
    Machine.run end_read [] reads = ([], callsFor (stream events) sizes 0 events) := by
  have hbuffered := buffered_run h.flatten reads (List.prefix_refl _) fun shorter hshorter => by
    rw [h.lens, List.length_flatten]
    refine hcut _ ?_
    rw [← h.sizes]
    exact hshorter.map List.length
  obtain ⟨done, rest, hevents, hle, hlt, hpending, hcalls⟩ := hbuffered
  rw [h.flatten, hevents, stream_append, List.length_append] at hlt
  -- no event is left, since a header would be
  have hrest : rest = [] := by
    cases rest with
    | nil => rfl
    | cons e rest =>
      rw [length_stream_cons] at hlt
      omega
  subst hrest
  rw [List.append_nil] at hevents
  subst hevents
  rw [h.flatten] at hpending
  rw [h.sizes] at hcalls
  refine Prod.ext ?_ hcalls
  rw [hpending, between_self]

/-- **When a stream none of whose names is cut is decoded whole.** -/
theorem ReadAs.decodedWhole_iff_namesEnd :
    DecodedWhole events reads ↔ NamesEnd events sizes := by
  have hcalls := @callsFor_eq_iff events sizes events []
  rw [length_stream_nil] at hcalls
  rw [DecodedWhole, h.run_eq hcut, Prod.mk.injEq, and_iff_right rfl, hcalls, NamesEnd]
  refine forall_congr' fun before => forall_congr' fun e => forall_congr' fun after =>
    forall_congr' fun heq => imp_congr_right fun _ => ?_
  -- the read that completes the header is behind the name, too
  have hlens : lens = before.map InotifyEvent.len ++ e.len :: after.map InotifyEvent.len := by
    rw [← h.lens, heq, List.map_append, List.map_cons]
  have hbytes : stream events = stream before ++ e.header ++ (e.name ++ stream after) := by
    rw [heq, stream_append, stream, stream, stream, List.flatMap_cons, InotifyEvent.encode]
    simp only [List.append_assoc]
  have hsum : sizes.sum = (stream events).length := by
    rw [← h.sizes, ← List.length_flatten, h.flatten]
  obtain ⟨first, hfirst, hend, hle⟩ := @readEnd_spec sizes
    ((stream before).length + 16) (by
      rw [hsum, hbytes, List.length_append, List.length_append, e.length_header]
      omega)
  have hwhole : (stream before).length + 16 + e.len.toNat ≤
      readEnd sizes ((stream before).length + 16) := by
    rw [hend]
    refine Nat.not_lt.mp fun hlt => hcut first hfirst ⟨_, _, _, hlens, ?_, ?_⟩
    · rw [← length_stream]
      exact hle
    · rw [← length_stream]
      exact hlt
  have hread : readWith events sizes before 16 =
      e.name ++ readWith events sizes before (16 + e.len.toNat) := by
    have hname := between_eq_append (n := readEnd sizes ((stream before).length + 16)) hbytes
      (by rw [List.length_append, e.length_header]) (by rw [e.length_name]; exact hwhole)
    rw [readWith, readWith, hname, e.length_name, Nat.add_assoc]
  rw [List.nil_append, hread, cString_append_eq_iff]

end Whole

end Inotify

end Tail

end IqLogger
