import IqLogger.Lib.Fails
import Mathlib.Data.List.Basic

/-!
# Loops over buffers that are used again

A thread takes a batch of objects from a queue into a buffer of pointers, converts them
one by one into another buffer, and hands the first pointers of that on. Neither buffer
is cleared: beyond the batch they hold what earlier batches have left there, pointers
that were moved from and pointers that were not (`ReusedBuffer.Slot`). A conversion may
yield nothing, or throw what the loop catches, and so the two indices drift apart.

Every access can go wrong (`ReusedBuffer.Stop`): an index can be out of bounds, and a
pointer can be null or lead to what was taken away already. `ReusedBuffer.batch_spec`
says that nothing goes wrong, and that what is handed on are the objects the batch was
converted to, in its order, whatever was in the buffers before; all that is thrown has to
be caught for it (`ReusedBuffer.batch_ok_iff`).
-/

namespace ReusedBuffer

universe u

variable {α β ε : Type u}

/-- A pointer of a buffer. -/
inductive Slot (α : Type u)
  /-- A null pointer: the object was never there, or was moved away with its pointer. -/
  | null : Slot α
  /-- A pointer to an object. -/
  | to (a : α) : Slot α
  /-- A pointer to an object whose content was moved away. -/
  | spent : Slot α
  deriving DecidableEq

/-- A buffer of a fixed length. -/
abbrev Buffer (α : Type u) := List (Slot α)

/-- How a batch can end early. -/
inductive Stop (ε : Type u)
  /-- An access that is not defined. -/
  | undefined : Stop ε
  /-- An exception that is not caught. -/
  | escaped (e : ε) : Stop ε
  deriving DecidableEq

section Access

variable (b : Buffer α)

/-- `try_dequeue_bulk` into a buffer. -/
def fill (got : List α) : Except (Stop ε) (Buffer α) :=
  if got.length ≤ b.length then pure (got.map .to ++ b.drop got.length) else throw .undefined

/-- The object a pointer of the buffer leads to. -/
def read (i : ℕ) : Except (Stop ε) α :=
  match b[i]? with
  | some (.to a) => pure a
  | _ => throw .undefined

/-- Assigning to a pointer of the buffer. -/
def write (i : ℕ) (slot : Slot α) : Except (Stop ε) (Buffer α) :=
  if i < b.length then pure (b.set i slot) else throw .undefined

/-- The first pointers of a buffer, when they are moved out of it: what they were, and
what is left. -/
def moveOut (count : ℕ) : Except (Stop ε) (List (Slot α) × Buffer α) :=
  if count ≤ b.length then pure (b.take count, List.replicate count .null ++ b.drop count)
  else throw .undefined

end Access

section Loop

/-- Where the loop is: both buffers, and the index into each. -/
structure State (α β : Type u) where
  input : Buffer α
  output : Buffer β
  j : ℕ
  k : ℕ

/-- What is left of a pointer when its object has been converted. -/
abbrev Left (α : Type u) := α → Slot α

variable (left : Left α) (convert : α → Except ε (Option β)) (caught : ε → Bool)

/-- What is done with the outcome of a conversion. -/
def store (s : State α β) : Except ε (Option β) → Except (Stop ε) (State α β)
  | .ok (some b) => do
    let output ← write s.output s.k (.to b)
    pure { s with output := output, j := s.j + 1, k := s.k + 1 }
  | .ok none => pure { s with j := s.j + 1 }
  | .error e => if caught e then pure { s with j := s.j + 1 } else throw (.escaped e)

/-- The body of the loop. -/
def body (s : State α β) : Except (Stop ε) (State α β) := do
  let a ← read s.input s.j
  let input ← write s.input s.j (left a)
  store caught { s with input := input } (convert a)

/-- The loop over the next `n` pointers. -/
def loop : ℕ → State α β → Except (Stop ε) (State α β)
  | 0, s => pure s
  | n + 1, s => do
    let s ← body left convert caught s
    loop n s

/-- What a list of objects is converted to. -/
def converted (convert : α → Except ε (Option β)) (l : List α) : List β :=
  l.filterMap fun a => (convert a).toOption.join

variable {convert caught}

@[simp] theorem converted_nil : converted convert [] = [] := rfl

theorem converted_cons (a : α) (l : List α) :
    converted convert (a :: l) = (convert a).toOption.join.toList ++ converted convert l := by
  rw [converted, List.filterMap_cons]
  cases (convert a).toOption.join <;> rfl

theorem converted_append (l l' : List α) :
    converted convert (l ++ l') = converted convert l ++ converted convert l' :=
  List.filterMap_append ..

/-- No more objects come out than went in. -/
theorem length_converted_le (l : List α) : (converted convert l).length ≤ l.length :=
  List.length_filterMap_le ..

/-- A pointer that was written is the last of the first ones. -/
theorem take_set_succ {γ : Type*} (l : List γ) {i : ℕ} (h : i < l.length) (c : γ) :
    (l.set i c).take (i + 1) = l.take i ++ [c] := by
  rw [List.take_add_one, List.take_set_of_le (Nat.le_refl i), List.getElem?_set_self h]
  rfl

/-- What the loop is about to meet: the next pointers lead to these objects. -/
def State.Meets (s : State α β) (l : List α) : Prop :=
  (s.input.drop s.j).take l.length = l.map .to

/-- The body, at a pointer that leads to an object. -/
theorem State.Meets.body_eq (convert : α → Except ε (Option β)) (caught : ε → Bool)
    {s : State α β} {a : α} {l : List α} (h : s.Meets (a :: l)) :
    body left convert caught s =
        store caught { s with input := s.input.set s.j (left a) } (convert a) ∧
      ∀ output k, State.Meets (β := β) ⟨s.input.set s.j (left a), output, s.j + 1, k⟩ l := by
  rw [State.Meets, List.length_cons] at h
  have hhead : s.input[s.j]? = some (.to a) := by
    have hget := congrArg (fun l => l[0]?) h
    simpa [List.getElem?_take, List.getElem?_drop] using hget
  have hlt : s.j < s.input.length := (List.getElem?_eq_some_iff.mp hhead).1
  have hread : (read s.input s.j : Except (Stop ε) α) = .ok a := by
    rw [read, hhead]
    rfl
  have hwrite : (write s.input s.j (left a) : Except (Stop ε) _) = .ok (s.input.set s.j (left a)) :=
    if_pos hlt
  constructor
  · rw [body, hread]
    change (write s.input s.j (left a) >>= fun input =>
      store caught { s with input := input } (convert a)) = _
    rw [hwrite]
    rfl
  · intro output k
    -- the pointers after this one are as before
    change ((s.input.set s.j (left a)).drop (s.j + 1)).take l.length = l.map .to
    rw [List.drop_set_of_lt (Nat.lt_succ_self _)]
    have htail := congrArg List.tail h
    rw [List.drop_eq_getElem_cons hlt, List.take_succ_cons] at htail
    simpa using htail

/-- **The body of the loop**: the object is converted to the next pointer of the other
buffer, if it is converted at all. -/
theorem body_spec {s : State α β} {a : α} {l : List α} (hinput : s.Meets (a :: l))
    (hroom : s.k < s.output.length) (hcaught : (convert a).FailsOnly fun e => caught e) :
    ∃ t, body left convert caught s = .ok t ∧ t.Meets l ∧ t.input.length = s.input.length ∧
      t.output.length = s.output.length ∧
      t.k = s.k + (converted convert [a]).length ∧
      t.output.take t.k = s.output.take s.k ++ (converted convert [a]).map .to := by
  obtain ⟨hbody, hrest⟩ := hinput.body_eq left convert caught
  rw [hbody, converted_cons, converted_nil, List.append_nil]
  cases hconvert : convert a with
  | error e =>
    refine ⟨_, if_pos (hcaught e hconvert), hrest _ _, List.length_set, rfl, rfl, ?_⟩
    exact (List.append_nil _).symm
  | ok result =>
    cases result with
    | none =>
      refine ⟨_, rfl, hrest _ _, List.length_set, rfl, rfl, ?_⟩
      exact (List.append_nil _).symm
    | some b =>
      have hwrite' : (write s.output s.k (.to b) : Except (Stop ε) _) =
          .ok (s.output.set s.k (.to b)) := if_pos hroom
      exact ⟨_, Except.bind_eq_ok.mpr ⟨_, hwrite', rfl⟩, hrest _ _, List.length_set,
        List.length_set, rfl, take_set_succ _ hroom _⟩

/-- **The loop**: the objects that are converted are in the other buffer, one after the
other, from the place where the loop began. -/
theorem loop_spec {s : State α β} {l : List α} (hinput : s.Meets l)
    (hroom : s.k + l.length ≤ s.output.length)
    (hcaught : ∀ a ∈ l, (convert a).FailsOnly fun e => caught e) :
    ∃ t, loop left convert caught l.length s = .ok t ∧ t.input.length = s.input.length ∧
      t.output.length = s.output.length ∧
      t.k = s.k + (converted convert l).length ∧
      t.output.take t.k = s.output.take s.k ++ (converted convert l).map .to := by
  induction l generalizing s with
  | nil => exact ⟨s, rfl, rfl, rfl, rfl, by simp⟩
  | cons a l ih =>
    obtain ⟨ha, hl⟩ := List.forall_mem_cons.mp hcaught
    rw [List.length_cons] at hroom
    obtain ⟨t, hbody, hmeets, hlen, hlen', hk, htake⟩ :=
      body_spec left hinput (by omega) ha
    have hone := @length_converted_le _ _ _ convert [a]
    rw [List.length_singleton] at hone
    obtain ⟨u, hloop, hulen, hulen', huk, hutake⟩ := ih hmeets (by omega) hl
    have hsplit : converted convert (a :: l) = converted convert [a] ++ converted convert l :=
      converted_append [a] l
    refine ⟨u, Except.bind_eq_ok.mpr ⟨t, hbody, hloop⟩, hulen.trans hlen,
      hulen'.trans hlen', ?_, ?_⟩
    · rw [huk, hk, hsplit, List.length_append, Nat.add_assoc]
    · rw [hutake, htake, hsplit, List.map_append, List.append_assoc]

/-- The loop is left by the first exception that is not caught. -/
theorem loop_escapes {s : State α β} {l l' : List α} {a : α} {e : ε}
    (hinput : s.Meets (l ++ a :: l')) (hroom : s.k + l.length ≤ s.output.length)
    (hcaught : ∀ b ∈ l, (convert b).FailsOnly fun e => caught e) (ha : convert a = .error e)
    (he : caught e = false) :
    loop left convert caught (l ++ a :: l').length s = .error (.escaped e) := by
  induction l generalizing s with
  | nil =>
    have hbody := (hinput.body_eq left convert caught).1
    rw [ha, store, if_neg (by simp [he])] at hbody
    rw [List.nil_append, List.length_cons, loop, hbody]
    rfl
  | cons b l ih =>
    obtain ⟨hb, hl⟩ := List.forall_mem_cons.mp hcaught
    rw [List.length_cons] at hroom
    obtain ⟨t, hbody, hmeets, -, hlen, hk, -⟩ := body_spec left hinput (by omega) hb
    have hone := @length_converted_le _ _ _ convert [b]
    rw [List.length_singleton] at hone
    rw [List.cons_append, List.length_cons, loop, hbody]
    exact ih hmeets (by omega) hl

/-- What the loop went through was caught. -/
theorem failsOnly_of_loop {s t : State α β} {l : List α} (hinput : s.Meets l)
    (hloop : loop left convert caught l.length s = .ok t) :
    ∀ a ∈ l, (convert a).FailsOnly fun e => caught e := by
  induction l generalizing s with
  | nil => simp
  | cons a l ih =>
    obtain ⟨u, hbody, hrest⟩ := Except.bind_eq_ok.mp hloop
    obtain ⟨hstore, hmeets⟩ := hinput.body_eq left convert caught
    rw [hstore] at hbody
    cases hconvert : convert a with
    | error e =>
      rw [hconvert, store] at hbody
      -- an exception that is not caught is what the body would throw
      have he : caught e := by
        by_contra hcaught
        cases (if_neg hcaught).symm.trans hbody
      rw [if_pos he] at hbody
      cases hbody
      exact List.forall_mem_cons.mpr
        ⟨by rw [hconvert]; exact Except.failsOnly_error.mpr he, ih (hmeets _ _) hrest⟩
    | ok result =>
      refine List.forall_mem_cons.mpr ⟨by rw [hconvert]; exact Except.failsOnly_ok _, ?_⟩
      rw [hconvert] at hbody
      cases result with
      | none =>
        cases hbody
        exact ih (hmeets _ _) hrest
      | some b =>
        obtain ⟨output, -, houtput⟩ := Except.bind_eq_ok.mp hbody
        cases houtput
        exact ih (hmeets _ _) hrest

end Loop

/-! ### A batch -/

section Batch

variable (left : Left α) (convert : α → Except ε (Option β)) (caught : ε → Bool)

/-- A batch is taken into the one buffer and converted into the other. -/
def batch (input : Buffer α) (output : Buffer β) (got : List α) :
    Except (Stop ε) (State α β) := do
  let input ← fill input got
  loop left convert caught got.length ⟨input, output, 0, 0⟩

variable {convert caught} {input : Buffer α} {output : Buffer β} {got : List α}

/-- The batch is what the loop meets, whatever the buffer held before. -/
theorem fill_meets (output : Buffer β) (h : got.length ≤ input.length) :
    (fill input got : Except (Stop ε) (Buffer α)) = .ok (got.map .to ++ input.drop got.length) ∧
      State.Meets ⟨got.map .to ++ input.drop got.length, output, 0, 0⟩ got ∧
      (got.map Slot.to ++ input.drop got.length).length = input.length := by
  refine ⟨if_pos h, ?_, ?_⟩
  · rw [State.Meets, List.drop_zero, List.take_left' (List.length_map _)]
  · rw [List.length_append, List.length_map, List.length_drop]
    omega

/-- **A batch is converted**: nothing goes wrong, the first pointers of the other buffer
lead to what the batch was converted to, in its order, and they can be handed on. What
was in the buffers before does not matter. -/
theorem batch_spec (hinput : got.length ≤ input.length) (houtput : got.length ≤ output.length)
    (hcaught : ∀ a ∈ got, (convert a).FailsOnly fun e => caught e) :
    ∃ s rest, batch left convert caught input output got = .ok s ∧
      s.k = (converted convert got).length ∧ s.input.length = input.length ∧
      s.output.length = output.length ∧ rest.length = output.length ∧
      (moveOut s.output s.k : Except (Stop ε) _) = .ok ((converted convert got).map .to, rest) := by
  obtain ⟨hfill, hmeets, hlen⟩ := fill_meets (ε := ε) output hinput
  obtain ⟨s, hloop, hslen, hslen', hk, htake⟩ := loop_spec left hmeets
    (by rw [Nat.zero_add]; exact houtput) hcaught
  rw [Nat.zero_add] at hk
  rw [List.take_zero, List.nil_append] at htake
  have hle : s.k ≤ s.output.length := by
    rw [hk, hslen']
    exact Nat.le_trans (length_converted_le got) houtput
  refine ⟨s, List.replicate s.k .null ++ s.output.drop s.k,
    Except.bind_eq_ok.mpr ⟨_, hfill, hloop⟩, hk, hslen.trans hlen, hslen', ?_, ?_⟩
  · rw [List.length_append, List.length_replicate, List.length_drop, ← hslen']
    omega
  · rw [moveOut, if_pos hle, htake]
    rfl

/-- An exception that is not caught leaves the batch. -/
theorem batch_escapes {l l' : List α} {a : α} {e : ε} (hgot : got = l ++ a :: l')
    (hinput : got.length ≤ input.length) (houtput : got.length ≤ output.length)
    (hcaught : ∀ b ∈ l, (convert b).FailsOnly fun e => caught e) (ha : convert a = .error e)
    (he : caught e = false) :
    batch left convert caught input output got = .error (.escaped e) := by
  obtain ⟨hfill, hmeets, -⟩ := fill_meets (ε := ε) output hinput
  subst hgot
  rw [List.length_append] at houtput
  rw [batch, hfill]
  refine loop_escapes left hmeets ?_ hcaught ha he
  change 0 + l.length ≤ output.length
  omega

/-- **A batch gets through exactly when all that is thrown is caught.** -/
theorem batch_ok_iff (hinput : got.length ≤ input.length) (houtput : got.length ≤ output.length) :
    (∃ s, batch left convert caught input output got = .ok s) ↔
      ∀ a ∈ got, (convert a).FailsOnly fun e => caught e := by
  constructor
  · rintro ⟨s, hs⟩
    obtain ⟨hfill, hmeets, -⟩ := fill_meets (ε := ε) output hinput
    obtain ⟨filled, hfilled, hloop⟩ := Except.bind_eq_ok.mp hs
    rw [hfill] at hfilled
    cases hfilled
    exact failsOnly_of_loop left hmeets hloop
  · intro hcaught
    obtain ⟨s, -, hs, -⟩ := batch_spec left hinput houtput hcaught
    exact ⟨s, hs⟩

end Batch

end ReusedBuffer
