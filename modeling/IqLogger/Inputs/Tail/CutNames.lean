import IqLogger.Inputs.Tail.InotifyStream

/-!
# Names that are cut

If a read ends inside of the name of an inotify event, the event is taken off the buffer
with what there is of it, and the rest of its name is later on taken for a header
(`IqLogger.Tail.Inotify.run_cut`). So in every way of reading that cuts a name some
events are decoded wrong: a name that is as long as it can be loses its end, and when
only its NUL is missing, that NUL stays in the buffer, or shifts the header that follows.

Together with what holds of reads that cut no name, this is
`IqLogger.Tail.Inotify.decodedWhole_iff`.
-/

namespace IqLogger

namespace Tail

namespace Inotify

/-! ### A name that is cut -/

/-- The first of the prefixes of a list that are as asked. -/
theorem exists_first_prefix {α : Type*} {l : List α} : ∀ {P : List α → Prop}, ¬P [] →
    (∃ first, first <+: l ∧ P first) →
    ∃ before a after, l = before ++ a :: after ∧ (∀ shorter, shorter <+: before → ¬P shorter) ∧
      P (before ++ [a]) := by
  induction l with
  | nil =>
    rintro P hnil ⟨first, hfirst, hP⟩
    rw [List.prefix_nil.mp hfirst] at hP
    exact absurd hP hnil
  | cons a l ih =>
    rintro P hnil ⟨first, hfirst, hP⟩
    by_cases hone : P [a]
    · exact ⟨[], a, l, rfl, fun shorter h => by rwa [List.prefix_nil.mp h], hone⟩
    · rcases List.prefix_cons_iff.mp hfirst with rfl | ⟨first', rfl, hfirst'⟩
      · exact absurd hP hnil
      · obtain ⟨before, a', after, hl, hshorter, hP'⟩ :=
          ih (P := fun first => P (a :: first)) hone ⟨first', hfirst', hP⟩
        refine ⟨a :: before, a', after, by rw [hl]; rfl, fun shorter h => ?_, hP'⟩
        rcases List.prefix_cons_iff.mp h with rfl | ⟨shorter', rfl, h'⟩
        · exact hnil
        · exact hshorter shorter' h'

/-- Events that are not passed on. -/
theorem callsFor_eq_nil {bytes : Bytes} {sizes : List ℕ} {events : List InotifyEvent}
    (h : ∀ e ∈ events, (maskOf e.mask).eventType = none) (start : ℕ) :
    callsFor bytes sizes start events = [] := by
  induction events generalizing start with
  | nil => rfl
  | cons e events ih =>
    rw [callsFor, ih (fun e he => h e (List.mem_cons_of_mem _ he)), InotifyEvent.notificationWith,
      h e List.mem_cons_self]
    rfl

/-- **A read that ends inside of a name**: of the event whose name it is there is what has
been read of it, and the rest of the name is read as a header. -/
theorem run_cut {before after : List InotifyEvent} {e : InotifyEvent} {first last : List Bytes}
    {b : Bytes} (hflatten : (first ++ b :: last).flatten = stream (before ++ e :: after))
    (hquiet : ∀ e ∈ before, (maskOf e.mask).eventType = none)
    (hname : ∀ shorter, shorter <+: first →
      ¬EndsInName ((before ++ e :: after).map InotifyEvent.len) shorter.flatten.length)
    {q : ℕ} (hq : q < e.len.toNat)
    (hend : first.flatten.length + b.length = (stream before).length + 16 + q) :
    Machine.run end_read [] (first ++ b :: last) =
        ((Machine.run end_read [] last).1, (e.notificationWith (cString (e.name.take q))).toList ++
          (Machine.run end_read [] last).2) ∧
      last.flatten = e.name.drop q ++ stream after := by
  obtain ⟨done, rest, hevents, hdone, hdone', hpending, hcalls⟩ :=
    buffered_run hflatten first ⟨b :: last, rfl⟩ hname
  have hlen := e.length_name
  -- the event that is cut has not been taken off
  obtain ⟨mid, rfl, rfl⟩ : ∃ mid, before = done ++ mid ∧ rest = mid ++ e :: after := by
    rcases List.append_eq_append_iff.mp hevents with ⟨mid, rfl, hrest⟩ | ⟨mid, rfl, rfl⟩
    · cases mid with
      | nil => exact ⟨[], by simp, by simpa using hrest.symm⟩
      | cons e' mid =>
        obtain ⟨rfl, -⟩ := List.cons.inj hrest
        rw [stream_append, List.length_append, length_stream_cons] at hdone
        omega
    · exact ⟨mid, rfl, rfl⟩
  have hbefore : (stream (done ++ mid)).length = (stream done).length + (stream mid).length := by
    rw [stream_append, List.length_append]
  have hbytes : stream (done ++ mid ++ e :: after) =
      stream (done ++ mid) ++ ((e.header ++ e.name.take q) ++ (e.name.drop q ++ stream after)) := by
    rw [stream_append, List.append_assoc e.header, ← List.append_assoc (e.name.take q),
      List.take_append_drop, ← List.append_assoc e.header]
    rfl
  have htake : (e.name.take q).length = q := by
    rw [List.length_take]
    omega
  have hfront : between (stream (done ++ mid ++ e :: after))
      ((stream done).length + (stream mid).length) (first.flatten.length + b.length) =
        e.header ++ e.name.take q := by
    have hn : first.flatten.length + b.length =
        (stream done).length + (stream mid).length + (e.header ++ e.name.take q).length := by
      rw [hend, hbefore, List.length_append, e.length_header, htake, Nat.add_assoc]
    rw [between_eq_append hbytes hbefore hn.ge, hn, between_self, List.append_nil]
  have hgone : (e.name.take q).drop e.len.toNat = [] := List.drop_eq_nil_iff.mpr (by omega)
  have hnone : takeEvents [] = ([], []) := takeEvents_of_lt (by decide)
  have hread := end_read_between hflatten (hevents.trans rfl) hdone hdone' (by omega)
  rw [hfront, e.takeEvents_header, hgone, hnone, ← hpending] at hread
  constructor
  · rw [Machine.run_append, Machine.run_cons, hread, hcalls,
      callsFor_eq_nil fun e he => hquiet e (List.mem_append_left mid he),
      callsFor_eq_nil fun e he => hquiet e (List.mem_append_right done he)]
    simp
  · have hall : (first.flatten ++ b) ++ last.flatten =
        (stream (done ++ mid) ++ (e.header ++ e.name.take q)) ++
          (e.name.drop q ++ stream after) := by
      rw [List.append_assoc (stream (done ++ mid)), ← hbytes, ← hflatten, List.flatten_append,
        List.flatten_cons, List.append_assoc]
    refine (List.append_inj hall ?_).2
    rw [List.length_append, List.length_append, List.length_append, e.length_header, htake, hend,
      Nat.add_assoc]

/-- Reads that are less than a header stay in the buffer. -/
theorem run_of_lt {reads : List Bytes} {pending : Bytes}
    (h : (pending ++ reads.flatten).length < 16) :
    Machine.run end_read pending reads = (pending ++ reads.flatten, []) := by
  induction reads generalizing pending with
  | nil => rw [Machine.run_nil, List.flatten_nil, List.append_nil]
  | cons b reads ih =>
    rw [List.flatten_cons, ← List.append_assoc] at h ⊢
    have hb : (pending ++ b).length < 16 := by
      rw [List.length_append] at h
      omega
    rw [Machine.run_cons, end_read, takeEvents_of_lt hb, ih h]
    rfl

/-- As soon as there is a header, it is read. -/
theorem run_of_le {reads : List Bytes} {pending : Bytes} (hpending : pending.length < 16)
    (h : 16 ≤ (pending ++ reads.flatten).length) :
    ∃ n more, 16 ≤ n ∧ (Machine.run end_read pending reads).2 =
      (readEvent ((pending ++ reads.flatten).take n)).toList ++ more := by
  induction reads generalizing pending with
  | nil =>
    rw [List.flatten_nil, List.append_nil] at h
    omega
  | cons b reads ih =>
    rw [List.flatten_cons, ← List.append_assoc] at h ⊢
    rw [Machine.run_cons, end_read]
    by_cases hb : (pending ++ b).length < 16
    · rw [takeEvents_of_lt hb]
      exact ih hb h
    · have hb := Nat.not_lt.mp hb
      rw [takeEvents, dif_pos hb]
      dsimp only
      rw [List.append_assoc]
      exact ⟨(pending ++ b).length, _, hb, by rw [List.take_left]⟩

/-- The mask is in the header. -/
theorem word_take {s : Bytes} {n : ℕ} (hn : 16 ≤ n) : word (s.take n) 4 = word s 4 := by
  have hsub : substr (s.take n) 4 4 = substr s 4 4 := by
    rw [substr, substr, List.drop_take, List.take_take, Nat.min_eq_left (by omega)]
  rw [word, word, hsub]

/-- An event that is not passed on. -/
def quiet (wd : Int32) (len : UInt32) : InotifyEvent :=
  ⟨wd, 0, 0, len, List.replicate len.toNat 0, List.length_replicate⟩

/-- A name that is as long as it can be. -/
def longName (len : UInt32) (h : 0 < len.toNat) : InotifyEvent where
  wd := 0
  mask := 0x100
  cookie := 0
  len := len
  name := List.replicate (len.toNat - 1) 97 ++ [0]
  length_name := by
    rw [List.length_append, List.length_replicate, List.length_singleton]
    omega

theorem map_len_quiet (lens : List UInt32) :
    (lens.map (quiet 0)).map InotifyEvent.len = lens := by
  rw [List.map_map]
  exact List.map_id lens

theorem eventType_quiet {lens : List UInt32} {e : InotifyEvent} (he : e ∈ lens.map (quiet 0)) :
    (maskOf e.mask).eventType = none := by
  obtain ⟨len, -, rfl⟩ := List.mem_map.mp he
  rfl

theorem filterMap_quiet (lens : List UInt32) :
    (lens.map (quiet 0)).filterMap InotifyEvent.notification = [] := by
  rw [List.filterMap_map]
  exact List.filterMap_eq_nil_iff.mpr fun len _ => rfl

/-- A name of NULs ends before the event does. -/
theorem name_quiet (wd : Int32) (len : UInt32) :
    (quiet wd len).name = [] ∨ 0 ∈ (quiet wd len).name := by
  rcases Nat.eq_zero_or_pos len.toNat with hlen | hlen
  · exact Or.inl (List.length_eq_zero_iff.mp ((quiet wd len).length_name.trans hlen))
  · exact Or.inr (List.mem_replicate.mpr ⟨by omega, rfl⟩)

section Cut

variable {lens : List UInt32} {sizes : List ℕ} (hsum : sizes.sum = streamLength lens)
  (hcut : ¬CutsNoName lens sizes)

include hsum hcut

/-- **Where the first name is cut**, and what is then made of any events of this layout of which
the ones before are not passed on. -/
theorem exists_cut : ∃ before len after q, lens = before ++ len :: after ∧ q < len.toNat ∧
    ∀ (events events' : List InotifyEvent) (e : InotifyEvent),
      events.map InotifyEvent.len = before → e.len = len → events'.map InotifyEvent.len = after →
      (∀ e ∈ events, (maskOf e.mask).eventType = none) →
      ∃ reads last, ReadAs lens sizes (events ++ e :: events') reads ∧
        Machine.run end_read [] reads =
          ((Machine.run end_read [] last).1,
            (e.notificationWith (cString (e.name.take q))).toList ++
              (Machine.run end_read [] last).2) ∧
        last.flatten = e.name.drop q ++ stream events' := by
  have hfirst : ∃ first, first <+: sizes ∧ EndsInName lens first.sum := by
    by_contra hnone
    exact hcut fun first hfirst hends => hnone ⟨first, hfirst, hends⟩
  have hnil : ¬EndsInName lens ([] : List ℕ).sum := by
    rintro ⟨before, len, after, -, hle, -⟩
    simp at hle
  obtain ⟨first, size, last, rfl, hshorter, before, len, after, hlens, hle, hlt⟩ :=
    exists_first_prefix (P := fun first => EndsInName lens first.sum) hnil hfirst
  refine ⟨before, len, after, (first ++ [size]).sum - (streamLength before + 16), hlens, by omega,
    ?_⟩
  rintro events events' e rfl rfl rfl hquiet
  have hmap : (events ++ e :: events').map InotifyEvent.len = lens := by
    rw [hlens, List.map_append, List.map_cons]
  have hlength : (stream (events ++ e :: events')).length = (first ++ size :: last).sum := by
    rw [length_stream, hmap, hsum]
  -- the stream is cut into reads of these sizes
  have hread : ReadAs lens (first ++ size :: last) (events ++ e :: events')
      ((first ++ size :: last).splitLengths (stream (events ++ e :: events'))) :=
    ⟨hmap, List.map_splitLengths_length _ _ hlength.ge, List.flatten_splitLengths _ _ hlength.le⟩
  obtain ⟨firstReads, reads', hreads, hfirst, hrest⟩ := List.map_eq_append_iff.mp hread.sizes
  obtain ⟨b, lastReads, rfl, hb, -⟩ := List.map_eq_cons_iff.mp hrest
  have hsizes : firstReads.flatten.length = first.sum := by rw [List.length_flatten, hfirst]
  refine ⟨_, lastReads, hread, ?_⟩
  have hflatten := hread.flatten
  rw [hreads] at hflatten ⊢
  refine run_cut hflatten hquiet (fun shorter hshort => ?_) (by omega) ?_
  · rw [hmap, List.length_flatten]
    refine hshorter _ ?_
    rw [← hfirst]
    exact hshort.map List.length
  · rw [List.sum_append, List.sum_singleton] at hle ⊢
    rw [hsizes, hb, length_stream]
    omega

end Cut

/-- **A long name that is cut** before its NUL is passed on without its end. -/
theorem not_decodedWhole_of_long {before after : List UInt32} {len : UInt32} {q : ℕ}
    (hlong : q + 1 < len.toNat) {reads last : List Bytes}
    (hrun : Machine.run end_read [] reads = ((Machine.run end_read [] last).1,
      ((longName len (by omega)).notificationWith
        (cString ((longName len (by omega)).name.take q))).toList ++
          (Machine.run end_read [] last).2)) :
    ¬DecodedWhole (before.map (quiet 0) ++ longName len (by omega) :: after.map (quiet 0))
      reads := by
  intro hwhole
  have hcalls := (congrArg Prod.snd hrun).symm.trans (congrArg Prod.snd hwhole)
  rw [List.filterMap_append, List.filterMap_cons, filterMap_quiet, filterMap_quiet] at hcalls
  have hname : cString ((longName len (by omega)).name.take q) =
      cString (longName len (by omega)).name :=
    congrArg Notification.filename (List.cons.inj hcalls).1
  -- the name ends after `len - 1` bytes, and what has been read of it after `q`
  have htake : (longName len (by omega)).name.take q = List.replicate q 97 := by
    rw [longName, List.take_append_of_le_length (by rw [List.length_replicate]; omega),
      List.take_replicate, Nat.min_eq_left (by omega)]
  have hwholeName : cString (longName len (by omega)).name = List.replicate (len.toNat - 1) 97 := by
    rw [longName, cString_append_eq_iff.mpr (Or.inr (by simp))]
    exact cString_eq_self fun h => absurd (List.eq_of_mem_replicate h) (by decide)
  have hpart : cString (List.replicate q 97) = List.replicate q 97 :=
    cString_eq_self fun h => absurd (List.eq_of_mem_replicate h) (by decide)
  rw [htake, hwholeName, hpart] at hname
  have hlength := congrArg List.length hname
  rw [List.length_replicate, List.length_replicate] at hlength
  omega

/-- An event whose header begins one byte late is taken for a modification. -/
theorem eventType_late (len : UInt32) (t : Bytes) :
    (maskOf (word (0 :: ((quiet 0x02000000 len).header ++ t)) 4)).eventType = some .modify := by
  have hwd : wordBytes (0x02000000 : Int32).toUInt32 = [0, 0, 0, 2] := by decide
  have hzero : wordBytes 0 = [0, 0, 0, 0] := by decide
  have htwo : wordBytes 2 = [2, 0, 0, 0] := by decide
  have hlate : 0 :: ((quiet 0x02000000 len).header ++ t) =
      [0, 0, 0, 0] ++ (wordBytes 2 ++ (0 :: (wordBytes 0 ++ (wordBytes len ++ t)))) := by
    rw [quiet, InotifyEvent.header, hwd, hzero, htwo]
    simp
  have hpos : ([0, 0, 0, 0] : Bytes).length = 4 := rfl
  rw [hlate, word_wordBytes hpos]
  rfl

/-- **The last byte of a name that is taken for the first one of a header** makes an event of
the header behind it. -/
theorem not_decodedWhole_of_next {before after : List UInt32} {len next : UInt32}
    {reads last : List Bytes}
    (hrun : (Machine.run end_read [] reads).2 = (Machine.run end_read [] last).2)
    (hflatten : last.flatten = [0] ++ stream (quiet 0x02000000 next :: after.map (quiet 0))) :
    ¬DecodedWhole
      (before.map (quiet 0) ++ quiet 0 len :: quiet 0x02000000 next :: after.map (quiet 0))
      reads := by
  intro hwhole
  -- nothing is to be passed on
  have hcalls := hrun.symm.trans (congrArg Prod.snd hwhole)
  have hnone : ∀ wd len, (quiet wd len).notification = none := fun _ _ => rfl
  rw [List.filterMap_append, List.filterMap_cons, List.filterMap_cons, hnone, hnone,
    filterMap_quiet, filterMap_quiet] at hcalls
  -- but something is
  have hstream : last.flatten = 0 :: ((quiet 0x02000000 next).header ++
      ((quiet 0x02000000 next).name ++ stream (after.map (quiet 0)))) := by
    rw [hflatten, stream, List.flatMap_cons, InotifyEvent.encode, List.append_assoc]
    rfl
  have hheader : 16 ≤ ([] ++ last.flatten).length := by
    rw [List.nil_append, hstream, List.length_cons, List.length_append,
      InotifyEvent.length_header]
    omega
  obtain ⟨n, more, hn, hmore⟩ := @run_of_le last [] (by decide) hheader
  rw [List.nil_append, readEvent, word_take hn, hstream, eventType_late] at hmore
  rw [hmore] at hcalls
  cases hcalls

/-- **Every layout in which a name is cut fails for some events**, whose names all end before
they do. -/
theorem exists_not_decodedWhole {lens : List UInt32} {sizes : List ℕ}
    (hsum : sizes.sum = streamLength lens) (hcut : ¬CutsNoName lens sizes) :
    ∃ events reads, ReadAs lens sizes events reads ∧
      (∀ e ∈ events, e.name = [] ∨ 0 ∈ e.name) ∧ ¬DecodedWhole events reads := by
  obtain ⟨before, len, after, q, hlens, hq, hrun⟩ := exists_cut hsum hcut
  have hquiet : ∀ e ∈ before.map (quiet 0), (maskOf e.mask).eventType = none :=
    fun e he => eventType_quiet he
  have hnames : ∀ lens : List UInt32, ∀ e ∈ lens.map (quiet 0), e.name = [] ∨ 0 ∈ e.name := by
    rintro lens e he
    obtain ⟨len, -, rfl⟩ := List.mem_map.mp he
    exact name_quiet 0 len
  rcases Nat.lt_or_ge (q + 1) len.toNat with hlong | hshort
  · obtain ⟨reads, last, hread, hreads, -⟩ := hrun _ (after.map (quiet 0)) (longName len (by omega))
      (map_len_quiet before) rfl (map_len_quiet after) hquiet
    refine ⟨_, reads, hread, ?_, not_decodedWhole_of_long hlong hreads⟩
    simp only [List.forall_mem_append, List.forall_mem_cons]
    exact ⟨hnames before, Or.inr (by simp [longName]), hnames after⟩
  · -- the last byte of the name is taken for the first one of a header
    have hlast : (quiet 0 len).name.drop q = [0] := by
      rw [quiet, List.drop_replicate, show len.toNat - q = 1 by omega]
      rfl
    cases after with
    | nil =>
      -- there is none, and the byte stays in the buffer
      obtain ⟨reads, last, hread, hreads, hflatten⟩ := hrun _ [] (quiet 0 len)
        (map_len_quiet before) rfl rfl hquiet
      refine ⟨_, reads, hread, ?_, fun hwhole => ?_⟩
      · simp only [List.forall_mem_append, List.forall_mem_cons]
        exact ⟨hnames before, name_quiet 0 len, by simp⟩
      · have hpending := (congrArg Prod.fst hreads).symm.trans (congrArg Prod.fst hwhole)
        rw [hlast] at hflatten
        rw [run_of_lt (by rw [hflatten]; decide), hflatten] at hpending
        cases hpending
    | cons next after =>
      -- the header of the next event follows
      obtain ⟨reads, last, hread, hreads, hflatten⟩ :=
        hrun _ (quiet 0x02000000 next :: after.map (quiet 0)) (quiet 0 len) (map_len_quiet before)
          rfl (congrArg (next :: ·) (map_len_quiet after)) hquiet
      rw [hlast] at hflatten
      refine ⟨_, reads, hread, ?_, not_decodedWhole_of_next (congrArg Prod.snd hreads) hflatten⟩
      simp only [List.forall_mem_append, List.forall_mem_cons]
      exact ⟨hnames before, name_quiet 0 len, name_quiet _ next, hnames after⟩

/-- **When the stream is decoded independently of how it is read.** For a layout of events
and reads none of whose reads ends inside of a name, events and their reads are decoded as
the events are whole, and leave the buffer empty, if and only if every name that is passed on
holds a NUL, or nothing follows it in what has been read when its header is complete, or a
NUL. In every layout with a read that ends inside of a name this fails for some events, even
though all their names hold a NUL. -/
theorem decodedWhole_iff (lens : List UInt32) (sizes : List ℕ)
    (hsum : sizes.sum = streamLength lens) :
    (CutsNoName lens sizes → ∀ events reads, ReadAs lens sizes events reads →
      (DecodedWhole events reads ↔ NamesEnd events sizes)) ∧
    (¬CutsNoName lens sizes → ∃ events reads, ReadAs lens sizes events reads ∧
      (∀ e ∈ events, e.name = [] ∨ 0 ∈ e.name) ∧ ¬DecodedWhole events reads) :=
  ⟨fun hcut _ _ h => h.decodedWhole_iff_namesEnd hcut, exists_not_decodedWhole hsum⟩

/-! ### A file that is created -/

/-- The file `ab` is created. -/
def created : InotifyEvent := ⟨1, 0x100, 0, 4, [97, 98, 0, 0], rfl⟩

/-- The header of its event comes in two reads, which cut no name. -/
theorem cutsNoName_created : CutsNoName [4] [10, 10] := by
  rintro first hfirst ⟨before, len, after, heq, hheader, hname⟩
  obtain rfl : before = [] := by
    rcases before with _ | ⟨len', before⟩
    · rfl
    · simp at heq
  obtain ⟨rfl, -⟩ := List.cons.inj heq
  have hsum : first.sum = 0 ∨ first.sum = 10 ∨ first.sum = 20 := by
    rcases List.prefix_cons_iff.mp hfirst with rfl | ⟨rest, rfl, hrest⟩
    · exact .inl rfl
    rcases List.prefix_cons_iff.mp hrest with rfl | ⟨last, rfl, hlast⟩
    · exact .inr (.inl rfl)
    · obtain rfl := List.prefix_nil.mp hlast
      exact .inr (.inr rfl)
  have hlower : 16 ≤ first.sum := hheader
  have hupper : first.sum < 20 := hname
  omega

theorem decodedWhole_iff_created :
    DecodedWhole [created] [(stream [created]).take 10, (stream [created]).drop 10] :=
  (((decodedWhole_iff [4] [10, 10] (by decide)).1 cutsNoName_created [created] _
    ⟨rfl, rfl, by simp⟩).mpr fun before e after heq _ => by
      obtain rfl : e = created :=
        List.mem_singleton.mp (heq ▸ List.mem_append_right before (List.mem_cons_self ..))
      exact .inl (by decide))

/-- In two reads, the first of which ends inside of its name, its event is taken for one of a
file `a`, and the rest of the name stays in the buffer. -/
theorem cut_name_misread :
    let reads := [created.header ++ [97], [98, 0, 0]]
    ReadAs [4] [17, 3] [created] reads ∧
      Machine.run end_read [] reads = ([98, 0, 0], [⟨1, .create, [97]⟩]) ∧
      [created].filterMap InotifyEvent.notification = [⟨1, .create, [97, 98]⟩] ∧
      ¬DecodedWhole [created] reads := by
  intro reads
  have hnone : takeEvents [] = ([], []) := takeEvents_of_lt (by decide)
  have hrest : takeEvents [98, 0, 0] = ([98, 0, 0], []) := takeEvents_of_lt (by decide)
  have hfirst : takeEvents (created.header ++ [97]) = ([], [⟨1, .create, [97]⟩]) := by
    rw [created.takeEvents_header]
    show ((takeEvents []).1, _ ++ (takeEvents []).2) = _
    rw [hnone]
    rfl
  have hrun : Machine.run end_read [] reads = ([98, 0, 0], [⟨1, .create, [97]⟩]) := by
    rw [Machine.run_cons, end_read, List.nil_append, hfirst, Machine.run_cons, end_read,
      List.nil_append, hrest]
    rfl
  refine ⟨⟨rfl, rfl, rfl⟩, hrun, rfl, fun hwhole => ?_⟩
  have hpending := congrArg Prod.fst (hrun.symm.trans hwhole)
  cases hpending

end Inotify

end Tail

end IqLogger
