import Mathlib.Data.List.Basic

/-!
# The line protocol

A text of the line protocol is a sequence of lines. A line has a measurement with tags, fields
with their values, and a time: these three are separated by a space, the measurement and the tags
by commas, the fields by commas, and a tag or a field from its value by an equals sign.

`LineProtocol.render` writes lines, given how a value is written, and `LineProtocol.read` reads
them, given how one is read. Lines whose parts do not hold any of the separators are read back as
they were written (`LineProtocol.read_render`). Nothing is escaped here, so that without this
condition they need not be.
-/

namespace LineProtocol

/-- What separates tags from each other, and fields. -/
def comma : UInt8 := 44

/-- What separates a tag or a field from its value. -/
def equals : UInt8 := 61

/-- What separates the three parts of a line. -/
def space : UInt8 := 32

/-- What ends a line. -/
def newline : UInt8 := 10

/-- A line, with values of some type. -/
structure Line (ν : Type) where
  measurement : List UInt8
  tags : List (List UInt8 × List UInt8)
  fields : List (List UInt8 × ν)
  time : List UInt8
  deriving DecidableEq

variable {ν : Type}

section Render

/- How a value is written. -/
variable (text : ν → List UInt8)

/-- A tag or a field with its value. -/
def pair (key value : List UInt8) : List UInt8 := key ++ equals :: value

/-- The measurement and the tags of a line. -/
def Line.series (line : Line ν) : List UInt8 :=
  [comma].intercalate (line.measurement :: line.tags.map fun tag => pair tag.1 tag.2)

/-- The fields of a line. -/
def fieldSet (fields : List (List UInt8 × ν)) : List UInt8 :=
  [comma].intercalate (fields.map fun field => pair field.1 (text field.2))

/-- A line, without its end. -/
def Line.render (line : Line ν) : List UInt8 :=
  [space].intercalate [line.series, fieldSet text line.fields, line.time]

/-- The text of some lines. -/
def render (lines : List (Line ν)) : List UInt8 :=
  lines.flatMap fun line => line.render text ++ [newline]

@[simp] theorem render_nil : render text [] = [] := rfl

theorem render_cons (line : Line ν) (lines : List (Line ν)) :
    render text (line :: lines) = line.render text ++ newline :: render text lines := by
  rw [render, List.flatMap_cons, List.append_assoc]
  rfl

theorem render_append (lines lines' : List (Line ν)) :
    render text (lines ++ lines') = render text lines ++ render text lines' :=
  List.flatMap_append

end Render

section Read

/- How a value is read. -/
variable (value : List UInt8 → Option ν)

/-- A tag or a field and its value. -/
def readPair (s : List UInt8) : Option (List UInt8 × List UInt8) :=
  match s.splitOn equals with
  | [key, value] => some (key, value)
  | _ => none

/-- A field, with its value. -/
def readField (s : List UInt8) : Option (List UInt8 × ν) := do
  let (key, text) ← readPair s
  let v ← value text
  pure (key, v)

/-- A line. -/
def readLine (s : List UInt8) : Option (Line ν) :=
  match s.splitOn space with
  | [series, fields, time] =>
    match series.splitOn comma with
    | measurement :: tags => do
      let tags ← tags.mapM readPair
      let fields ← (fields.splitOn comma).mapM (readField value)
      pure ⟨measurement, tags, fields, time⟩
    | [] => none
  | _ => none

/-- A text: every line ends. -/
def read (s : List UInt8) : Option (List (Line ν)) :=
  if (s.splitOn newline).getLast? = some [] then (s.splitOn newline).dropLast.mapM (readLine value)
  else none

end Read

/-! ### What is written is read -/

/-- A text that holds no separator. -/
def Plain (s : List UInt8) : Prop := comma ∉ s ∧ equals ∉ s ∧ space ∉ s ∧ newline ∉ s

instance (s : List UInt8) : Decidable (Plain s) :=
  inferInstanceAs (Decidable (_ ∧ _ ∧ _ ∧ _))

/-- The parts of a plain text are plain. -/
theorem Plain.mono {s t : List UInt8} (h : Plain s) (hsub : t ⊆ s) : Plain t :=
  ⟨fun hm => h.1 (hsub hm), fun hm => h.2.1 (hsub hm), fun hm => h.2.2.1 (hsub hm),
    fun hm => h.2.2.2 (hsub hm)⟩

theorem Plain.append {s t : List UInt8} (hs : Plain s) (ht : Plain t) : Plain (s ++ t) := by
  refine ⟨?_, ?_, ?_, ?_⟩
  · exact List.not_mem_append hs.1 ht.1
  · exact List.not_mem_append hs.2.1 ht.2.1
  · exact List.not_mem_append hs.2.2.1 ht.2.2.1
  · exact List.not_mem_append hs.2.2.2 ht.2.2.2

/-- **A line that can be read back**: its parts hold no separator, and it has a field. -/
structure Line.Readable (text : ν → List UInt8) (value : List UInt8 → Option ν) (line : Line ν) :
    Prop where
  measurement : Plain line.measurement
  tags : ∀ tag ∈ line.tags, Plain tag.1 ∧ Plain tag.2
  fields : ∀ field ∈ line.fields, Plain field.1 ∧ Plain (text field.2) ∧
    value (text field.2) = some field.2
  fields_ne_nil : line.fields ≠ []
  time : Plain line.time

theorem splitOn_eq_singleton {s : List UInt8} {b : UInt8} (h : b ∉ s) : s.splitOn b = [s] := by
  have hsplit : ([b].intercalate [s]).splitOn b = [s] :=
    List.splitOn_intercalate b (by simpa using h) (by simp)
  rwa [List.intercalate_singleton] at hsplit

theorem splitOn_append_cons {s t : List UInt8} {b : UInt8} (h : b ∉ s) :
    (s ++ b :: t).splitOn b = s :: t.splitOn b :=
  List.splitOn_append_cons_self_of_not_mem h t

/-- The first of some texts, and the others behind separators. -/
theorem intercalate_cons (c : UInt8) (part : List UInt8) (parts : List (List UInt8)) :
    [c].intercalate (part :: parts) = part ++ parts.flatMap (c :: ·) := by
  induction parts generalizing part with
  | nil => simp
  | cons next parts ih =>
    rw [List.intercalate_cons_cons, ih, List.flatMap_cons]
    simp

/-- A separator that is in none of some texts, and is not the one between them, is not in what
they make up. -/
theorem not_mem_intercalate {b c : UInt8} (hbc : b ≠ c) {parts : List (List UInt8)}
    (h : ∀ part ∈ parts, b ∉ part) : b ∉ [c].intercalate parts := by
  induction parts with
  | nil => simp
  | cons part parts ih =>
    obtain ⟨hpart, hparts⟩ := List.forall_mem_cons.mp h
    cases parts with
    | nil => rwa [List.intercalate_singleton]
    | cons next parts =>
      rw [List.intercalate_cons_cons]
      refine List.not_mem_append (List.not_mem_append hpart ?_) (ih hparts)
      rwa [List.mem_singleton]

theorem not_mem_pair {b : UInt8} (hb : b ≠ equals) {key value : List UInt8} (hkey : b ∉ key)
    (hvalue : b ∉ value) : b ∉ pair key value := by
  rw [pair]
  refine List.not_mem_append hkey ?_
  exact List.not_mem_cons_of_ne_of_not_mem hb hvalue

theorem readPair_pair {key value : List UInt8} (hkey : equals ∉ key) (hvalue : equals ∉ value) :
    readPair (pair key value) = some (key, value) := by
  rw [readPair, pair, splitOn_append_cons hkey, splitOn_eq_singleton hvalue]

variable {text : ν → List UInt8} {value : List UInt8 → Option ν}

/-- Tags that are plain are read back. -/
theorem mapM_readPair {tags : List (List UInt8 × List UInt8)}
    (h : ∀ tag ∈ tags, Plain tag.1 ∧ Plain tag.2) :
    (tags.map fun tag => pair tag.1 tag.2).mapM readPair = some tags := by
  induction tags with
  | nil => rfl
  | cons tag tags ih =>
    obtain ⟨htag, htags⟩ := List.forall_mem_cons.mp h
    rw [List.map_cons, List.mapM_cons, readPair_pair htag.1.2.1 htag.2.2.1, ih htags]
    rfl

/-- Fields that are plain are read back. -/
theorem mapM_readField {fields : List (List UInt8 × ν)}
    (h : ∀ field ∈ fields, Plain field.1 ∧ Plain (text field.2) ∧
      value (text field.2) = some field.2) :
    (fields.map fun field => pair field.1 (text field.2)).mapM (readField value) = some fields := by
  induction fields with
  | nil => rfl
  | cons field fields ih =>
    obtain ⟨⟨hkey, htext, hvalue⟩, hfields⟩ := List.forall_mem_cons.mp h
    have hfield : readField value (pair field.1 (text field.2)) = some field := by
      rw [readField, readPair_pair hkey.2.1 htext.2.1]
      simp [hvalue]
    rw [List.map_cons, List.mapM_cons, hfield, ih hfields]
    rfl

namespace Line.Readable

variable {line : Line ν} (h : line.Readable text value)

include h

/-- In the measurement and the tags there is no separator but commas and equals signs. -/
theorem not_mem_series {b : UInt8} (hcomma : b ≠ comma) (hequals : b ≠ equals)
    (hb : ∀ s, Plain s → b ∉ s) : b ∉ line.series := by
  refine not_mem_intercalate hcomma fun part hpart => ?_
  rcases List.mem_cons.mp hpart with rfl | hpart
  · exact hb _ h.measurement
  · obtain ⟨tag, htag, rfl⟩ := List.mem_map.mp hpart
    exact not_mem_pair hequals (hb _ (h.tags tag htag).1) (hb _ (h.tags tag htag).2)

/-- In the fields there is no separator but commas and equals signs. -/
theorem not_mem_fieldSet {b : UInt8} (hcomma : b ≠ comma) (hequals : b ≠ equals)
    (hb : ∀ s, Plain s → b ∉ s) : b ∉ fieldSet text line.fields := by
  refine not_mem_intercalate hcomma fun part hpart => ?_
  obtain ⟨field, hfield, rfl⟩ := List.mem_map.mp hpart
  obtain ⟨hkey, htext, -⟩ := h.fields field hfield
  exact not_mem_pair hequals (hb _ hkey) (hb _ htext)

theorem newline_not_mem_render : newline ∉ line.render text := by
  refine not_mem_intercalate (by decide) fun part hpart => ?_
  simp only [List.mem_cons, List.not_mem_nil, or_false] at hpart
  rcases hpart with rfl | rfl | rfl
  · exact h.not_mem_series (by decide) (by decide) fun s hs => hs.2.2.2
  · exact h.not_mem_fieldSet (by decide) (by decide) fun s hs => hs.2.2.2
  · exact h.time.2.2.2

/-- The three parts of a line. -/
theorem splitOn_space :
    (line.render text).splitOn space = [line.series, fieldSet text line.fields, line.time] := by
  refine List.splitOn_intercalate space (fun part hpart => ?_) (by simp)
  simp only [List.mem_cons, List.not_mem_nil, or_false] at hpart
  rcases hpart with rfl | rfl | rfl
  · exact h.not_mem_series (by decide) (by decide) fun s hs => hs.2.2.1
  · exact h.not_mem_fieldSet (by decide) (by decide) fun s hs => hs.2.2.1
  · exact h.time.2.2.1

theorem splitOn_series :
    line.series.splitOn comma =
      line.measurement :: line.tags.map fun tag => pair tag.1 tag.2 := by
  refine List.splitOn_intercalate comma (fun part hpart => ?_) (by simp)
  rcases List.mem_cons.mp hpart with rfl | hpart
  · exact h.measurement.1
  · obtain ⟨tag, htag, rfl⟩ := List.mem_map.mp hpart
    exact not_mem_pair (by decide) (h.tags tag htag).1.1 (h.tags tag htag).2.1

theorem splitOn_fieldSet :
    (fieldSet text line.fields).splitOn comma =
      line.fields.map fun field => pair field.1 (text field.2) := by
  refine List.splitOn_intercalate comma (fun part hpart => ?_) (by simp [h.fields_ne_nil])
  obtain ⟨field, hfield, rfl⟩ := List.mem_map.mp hpart
  obtain ⟨hkey, htext, -⟩ := h.fields field hfield
  exact not_mem_pair (by decide) hkey.1 htext.1

/-- **A line is read back.** -/
theorem readLine_render : readLine value (line.render text) = some line := by
  rw [readLine, h.splitOn_space]
  dsimp only
  rw [h.splitOn_series, h.splitOn_fieldSet]
  dsimp only
  rw [mapM_readPair h.tags, mapM_readField h.fields]
  rfl

end Line.Readable

/-- The pieces of a text, and the empty one behind the last line end. -/
theorem splitOn_render {lines : List (Line ν)} (h : ∀ line ∈ lines, line.Readable text value) :
    (render text lines).splitOn newline = lines.map (Line.render text) ++ [[]] := by
  induction lines with
  | nil => rfl
  | cons line lines ih =>
    obtain ⟨hline, hlines⟩ := List.forall_mem_cons.mp h
    rw [render_cons, splitOn_append_cons hline.newline_not_mem_render, ih hlines, List.map_cons,
      List.cons_append]

/-- **What is written is read back.** -/
theorem read_render {lines : List (Line ν)} (h : ∀ line ∈ lines, line.Readable text value) :
    read value (render text lines) = some lines := by
  have hlines : (lines.map (Line.render text)).mapM (readLine value) = some lines := by
    induction lines with
    | nil => rfl
    | cons line lines ih =>
      obtain ⟨hline, hlines⟩ := List.forall_mem_cons.mp h
      rw [List.map_cons, List.mapM_cons, hline.readLine_render, ih hlines]
      rfl
  rw [read, splitOn_render h, List.getLast?_append, List.dropLast_concat, hlines]
  rfl

end LineProtocol
