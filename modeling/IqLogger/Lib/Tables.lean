import Mathlib.Data.List.AList

/-!
# What is found in a table

In a table whose values all have one type, an entry that is put in is found under its key
(`AList.lookup_insert_apply`), one that is taken out is not found any more
(`AList.lookup_erase_apply`), and nothing changes under the other keys. What is found
afterwards is therefore the new entry, or one that was there before
(`AList.lookup_insert_eq_some`, `AList.lookup_erase_eq_some`).

What is found in a list of fields whose names are all different does not depend on their
order (`List.Perm.lookup_eq`); and what is taken out of it name by name
(`List.filterMap_lookup_perm`), or collected key by key (`List.flatMap_filter_perm`), is what
there is, up to the order.
-/

/-- What is found in a list of fields is one of them. -/
theorem List.mem_of_lookup_eq_some {κ α : Type*} [BEq κ] [LawfulBEq κ] {fields : List (κ × α)}
    {key : κ} {value : α} (h : fields.lookup key = some value) : (key, value) ∈ fields := by
  obtain ⟨before, after, hfields, -⟩ := List.lookup_eq_some_iff.mp h
  rw [hfields]
  simp

/-- Under the name of a field something is found, if not this field then an earlier one. -/
theorem List.exists_lookup_of_mem {κ α : Type*} [BEq κ] [LawfulBEq κ] {fields : List (κ × α)}
    {key : κ} {value : α} (h : (key, value) ∈ fields) :
    ∃ first, fields.lookup key = some first := by
  refine Option.ne_none_iff_exists'.mp fun hnone => ?_
  simpa using List.lookup_eq_none_iff.mp hnone _ h

/-- **Which fields are found when they get new names**, and of several fields with one new name the
first one is kept: all of them if and only if fields that get one name have one value. -/
theorem List.forall_lookup_map_fst_iff {κ κ' α : Type*} [BEq κ'] [LawfulBEq κ'] (f : κ → κ')
    (fields : List (κ × α)) :
    (∀ field ∈ fields, (fields.map fun field => (f field.1, field.2)).lookup (f field.1) =
      some field.2) ↔
      ∀ field ∈ fields, ∀ other ∈ fields, f field.1 = f other.1 → field.2 = other.2 := by
  constructor
  · intro h field hfield other hother hname
    have hsame := h field hfield
    rw [hname, h other hother] at hsame
    exact (Option.some.inj hsame).symm
  · intro h field hfield
    have hmem : (f field.1, field.2) ∈ fields.map fun field => (f field.1, field.2) :=
      List.mem_map_of_mem (f := fun field : κ × α => (f field.1, field.2)) hfield
    obtain ⟨value, hvalue⟩ := List.exists_lookup_of_mem hmem
    obtain ⟨other, hother, heq⟩ := List.mem_map.mp (List.mem_of_lookup_eq_some hvalue)
    obtain ⟨hname, rfl⟩ := Prod.mk.inj heq
    rw [hvalue, h field hfield other hother hname.symm]

/-- Fields whose values are converted. -/
theorem List.lookup_map_snd {κ α β : Type*} [BEq κ] (f : α → β) (fields : List (κ × α)) (key : κ) :
    (fields.map fun field => (field.1, f field.2)).lookup key = (fields.lookup key).map f := by
  induction fields with
  | nil => rfl
  | cons field fields ih =>
    rw [List.map_cons, List.lookup_cons, List.lookup_cons, ih]
    cases key == field.1 with
    | true => rfl
    | false => rfl

/-- Fields of different names are found whatever their order is. -/
theorem List.Perm.lookup_eq {κ α : Type*} [BEq κ] [LawfulBEq κ] {fields fields' : List (κ × α)}
    (hperm : fields.Perm fields') (hnodup : (fields.map Prod.fst).Nodup) (key : κ) :
    fields.lookup key = fields'.lookup key := by
  have hunique : ∀ value ∈ fields.lookup key, ∀ value' ∈ fields'.lookup key, value = value' := by
    intro value hvalue value' hvalue'
    have hmem := hperm.mem_iff.mpr (List.mem_of_lookup_eq_some hvalue')
    exact congrArg Prod.snd
      (List.inj_on_of_nodup_map hnodup (List.mem_of_lookup_eq_some hvalue) hmem rfl)
  cases hfound : fields.lookup key with
  | some value =>
    obtain ⟨value', hvalue'⟩ :=
      List.exists_lookup_of_mem (hperm.mem_iff.mp (List.mem_of_lookup_eq_some hfound))
    rw [hvalue', hunique value hfound value' hvalue']
  | none =>
    refine (List.lookup_eq_none_iff.mpr fun field hfield => ?_).symm
    exact List.lookup_eq_none_iff.mp hfound field (hperm.mem_iff.mpr hfield)

/-- What is found under a key is the entry with this key, where all keys are different. -/
theorem List.lookup_eq_some_iff_mem {κ α : Type*} [BEq κ] [LawfulBEq κ] {fields : List (κ × α)}
    (hnodup : (fields.map Prod.fst).Nodup) {key : κ} {value : α} :
    fields.lookup key = some value ↔ (key, value) ∈ fields := by
  refine ⟨List.mem_of_lookup_eq_some, fun hmem => ?_⟩
  induction fields with
  | nil => simp at hmem
  | cons field fields ih =>
    obtain ⟨k, a⟩ := field
    rw [List.map_cons, List.nodup_cons] at hnodup
    rcases List.mem_cons.mp hmem with heq | hrest
    · obtain ⟨rfl, rfl⟩ := Prod.mk.inj heq
      exact List.lookup_cons_self
    · have hne : key ≠ k := by
        rintro rfl
        exact hnodup.1 (List.mem_map.mpr ⟨_, hrest, rfl⟩)
      rw [List.lookup_cons, beq_false_of_ne hne]
      exact ih hnodup.2 hrest

section Collecting

variable {α β κ : Type*}

theorem List.filter_append_filter_perm {p q : α → Bool}
    (hdisjoint : ∀ a, p a = true → q a = false) (l : List α) :
    (l.filter p ++ l.filter q).Perm (l.filter fun a => p a || q a) := by
  have hp : (l.filter fun a => p a || q a).filter p = l.filter p := by
    rw [List.filter_filter]
    refine List.filter_congr fun a _ => ?_
    cases p a <;> rfl
  have hq : (l.filter fun a => p a || q a).filter (fun a => !p a) = l.filter q := by
    rw [List.filter_filter]
    refine List.filter_congr fun a _ => ?_
    have ha := hdisjoint a
    cases hpa : p a with
    | false => simp
    | true => simp [ha hpa]
  have hperm := List.filter_append_perm p (l.filter fun a => p a || q a)
  rwa [hp, hq] at hperm

/-- What is collected key by key is what belongs to one of the keys. -/
theorem List.flatMap_filter_perm {keys : List κ} (hnodup : keys.Nodup) {p : κ → α → Bool}
    (hdisjoint : ∀ k k' a, p k a = true → p k' a = true → k = k') (l : List α) :
    (keys.flatMap fun k => l.filter (p k)).Perm (l.filter fun a => keys.any fun k => p k a) := by
  induction keys with
  | nil => simp
  | cons k keys ih =>
    obtain ⟨hk, hnodup⟩ := List.nodup_cons.mp hnodup
    rw [List.flatMap_cons]
    refine ((ih hnodup).append_left _).trans ?_
    refine (List.filter_append_filter_perm (fun a ha => ?_) l).trans (List.Perm.of_eq rfl)
    rw [List.any_eq_false]
    intro k' hk' ha'
    exact hk (hdisjoint k k' a ha ha' ▸ hk')

/-- **What is looked up name by name** is what there is, if no other entry counts. -/
theorem List.filterMap_lookup_perm [BEq κ] [LawfulBEq κ] {entries : List (κ × β)}
    (hnodup : (entries.map Prod.fst).Nodup) {names : List κ} (hnames : names.Nodup)
    {value : κ → β} (hvalue : ∀ name ∈ names, entries.lookup name = some (value name))
    {f : κ × β → Option α} (hf : ∀ entry ∈ entries, entry.1 ∉ names → f entry = none) :
    (names.filterMap fun name => f (name, value name)).Perm (entries.filterMap f) := by
  have hperm : (names.map fun name => (name, value name)).Perm
      (entries.filter fun entry => entry.1 ∈ names) := by
    refine (List.perm_ext_iff_of_nodup ?_ ?_).mpr ?_
    · refine List.Nodup.of_map Prod.fst ?_
      rw [List.map_map]
      exact (List.map_id names).symm ▸ hnames
    · exact (hnodup.of_map Prod.fst).filter _
    · rintro ⟨name, b⟩
      rw [List.mem_map, List.mem_filter, ← List.lookup_eq_some_iff_mem hnodup]
      constructor
      · rintro ⟨name', hname', heq⟩
        obtain ⟨rfl, rfl⟩ := Prod.mk.inj heq
        exact ⟨hvalue name' hname', by simpa using hname'⟩
      · rintro ⟨hlookup, hname⟩
        have hname' : name ∈ names := by simpa using hname
        rw [hvalue name hname'] at hlookup
        exact ⟨name, hname', by rw [Option.some.inj hlookup]⟩
  have hothers : (entries.filter fun entry => entry.1 ∈ names).filterMap f =
      entries.filterMap f := by
    rw [List.filterMap_filter]
    refine List.filterMap_congr fun entry hentry => ?_
    by_cases hname : entry.1 ∈ names
    · simp [hname]
    · simp [hname, hf entry hentry hname]
  rw [← hothers]
  have hmap := hperm.filterMap f
  rwa [List.filterMap_map] at hmap

end Collecting

namespace AList

variable {κ α : Type*} [DecidableEq κ] (table : AList fun _ : κ => α) (key k : κ) (value : α)

theorem lookup_insert_apply :
    (table.insert key value).lookup k = if k = key then some value else table.lookup k := by
  split_ifs with hk
  · rw [hk, lookup_insert]
  · rw [lookup_insert_ne hk]

/-- **An entry that is put in where there is none.** -/
theorem lookup_insert_if_none :
    (if table.lookup key = none then table.insert key value else table).lookup k =
      if k = key ∧ table.lookup k = none then some value else table.lookup k := by
  by_cases hfree : table.lookup key = none
  · rw [if_pos hfree, lookup_insert_apply]
    by_cases hk : k = key
    · rw [if_pos hk, if_pos ⟨hk, hk ▸ hfree⟩]
    · rw [if_neg hk, if_neg fun h => hk h.1]
  · rw [if_neg hfree, if_neg]
    rintro ⟨rfl, hnone⟩
    exact hfree hnone

theorem lookup_erase_apply :
    (table.erase key).lookup k = if k = key then none else table.lookup k := by
  split_ifs with hk
  · rw [hk, lookup_erase]
  · rw [lookup_erase_ne hk]

variable {table key k value} {found : α}

/-- **What is found after an insertion** is the new entry, or one under another key. -/
theorem lookup_insert_eq_some : (table.insert key value).lookup k = some found ↔
    k = key ∧ value = found ∨ k ≠ key ∧ table.lookup k = some found := by
  rw [lookup_insert_apply]
  split_ifs with hk
  · simp [hk]
  · simp [hk]

/-- **What is found after a removal** is an entry under another key. -/
theorem lookup_erase_eq_some :
    (table.erase key).lookup k = some found ↔ k ≠ key ∧ table.lookup k = some found := by
  rw [lookup_erase_apply]
  split_ifs with hk
  · simp [hk]
  · simp [hk]

/-- **What many insertions leave**: under the keys of the entries the new values, and what was
there under all others. -/
theorem lookup_foldl_insert {β : Type*} (f : κ → α → β) (entries : List (Sigma fun _ : κ => α))
    (hnodup : entries.NodupKeys) (table : AList fun _ : κ => β) (key : κ) :
    (entries.foldl (fun table entry => table.insert entry.1 (f entry.1 entry.2)) table).lookup key =
      ((entries.dlookup key).map (f key)).or (table.lookup key) := by
  induction entries generalizing table with
  | nil => simp
  | cons entry entries ih =>
    obtain ⟨k, a⟩ := entry
    rw [List.nodupKeys_cons] at hnodup
    rw [List.foldl_cons, ih hnodup.2, lookup_insert_apply]
    by_cases hk : key = k
    · subst hk
      rw [List.dlookup_eq_none.mpr hnodup.1, List.dlookup_cons_eq, if_pos rfl]
      rfl
    · rw [List.dlookup_cons_ne _ _ hk, if_neg hk]

end AList
