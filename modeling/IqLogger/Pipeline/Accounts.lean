import IqLogger.Pipeline.Balance
import IqLogger.Pipeline.Flow

/-!
# Where the records are, and what is counted

For each output, every record that was offered to an input is in exactly one of three parts of the
pipeline: it has not become a message, it is a message up to the main queue, or it is behind the
main queue. Within each part it is in a queue, in the hands of a thread, or it has come to an end
there: refused, left out by a stage, written, or given up
(`IqLogger.Pipeline.Flow.Balanced.balance`). The counters that are shown as metrics count what
passes from the first part to the second, and what an output writes or gives up, but for what
threads have in hand of them.

It is enough to look at what moves from one part to the next when one thread changes
(`IqLogger.Pipeline.Flow.Balanced.of_moved`).
-/

namespace IqLogger.Pipeline.Flow

/-! ### Numbers -/

section Numbers

variable {α β : Type}

/-- The numbers of some items. -/
def numbers (items : List (Numbered α)) : Multiset ℕ := ↑(items.map Prod.fst)

@[simp] theorem numbers_nil : numbers ([] : List (Numbered α)) = 0 := rfl

@[simp] theorem numbers_append (items items' : List (Numbered α)) :
    numbers (items ++ items') = numbers items + numbers items' := by
  rw [numbers, List.map_append, ← Multiset.coe_add]
  rfl

@[simp] theorem card_numbers (items : List (Numbered α)) :
    Multiset.card (numbers items) = items.length := by
  rw [numbers, Multiset.coe_card, List.length_map]

theorem numbers_map (f : Numbered α → Numbered β) (h : ∀ x, (f x).1 = x.1)
    (items : List (Numbered α)) : numbers (items.map f) = numbers items := by
  rw [numbers, List.map_map]
  exact congrArg _ (List.map_congr_left fun x _ => h x)

/-- What is taken and what stays is what there was. -/
theorem numbers_take [DecidableEq α] (q : MessageQueue (Numbered α)) {got : List (Numbered α)}
    (hgot : got.Subperm q.items) :
    numbers q.items = numbers got + numbers (q.take got).items := by
  have hle : (↑got : Multiset (Numbered α)) ≤ ↑q.items := Multiset.coe_le.mpr hgot
  have hcoe : (↑q.items : Multiset (Numbered α)) = ↑got + ↑(q.take got).items := by
    rw [MessageQueue.take, ← Multiset.coe_sub, add_tsub_cancel_of_le hle]
  have hmap := congrArg (Multiset.map Prod.fst) hcoe
  rwa [Multiset.map_add] at hmap

/-- **A stage loses no number**: an item is converted or left out. -/
theorem numbers_converted {items : List (Numbered α)} {outcomes : List (Option β)}
    (h : outcomes.length = items.length) :
    numbers items = ↑(rejected items outcomes) + numbers (converted items outcomes) := by
  induction items generalizing outcomes with
  | nil => rfl
  | cons item items ih =>
    rcases outcomes with _ | ⟨outcome, outcomes⟩
    · simp at h
    · have hcons : numbers (item :: items) = item.1 ::ₘ numbers items := rfl
      rw [hcons, ih (Nat.succ.inj h)]
      rcases outcome with _ | y
      · exact (Multiset.cons_add ..).symm
      · exact (Multiset.add_cons ..).symm

end Numbers

variable {c : Setup} {R M O : Type}

/-! ### What the threads have in hand -/

/-- A call of a producer. -/
def Offer.inHand : Option (Offer c R) → Multiset ℕ
  | none => 0
  | some call => {call.record.1}

namespace Importer

/-- What an import thread has not read yet. -/
def unread : Importer c R M → Multiset ℕ
  | .converting _ _ records => numbers records
  | .top | .taking .. | .sending .. | .totalling _ | .ended => 0

/-- What it has read. -/
def read : Importer c R M → Multiset ℕ
  | .sending _ _ messages _ => numbers messages
  | .top | .taking .. | .converting .. | .totalling _ | .ended => 0

/-- What it has counted for the inputs in its round. -/
def counted : Importer c R M → ℕ
  | .taking _ counter => counter
  | .converting _ counter _ => counter
  | .sending _ counter messages _ => counter + messages.length
  | .totalling counter => counter
  | .top | .ended => 0

end Importer

/-- A processor thread. -/
def Processor.inHand : Processor M → Multiset ℕ
  | .converting records => numbers records
  | .sending messages _ => numbers messages
  | .top | .taking | .ended => 0

/-- What an export thread has in hand for an output. -/
def Exporter.inHand (o : Fin c.outputs) : Exporter c M O → Multiset ℕ
  | .converting messages o' => if o' ≤ o then numbers messages else 0
  | .sending messages o' records _ =>
    if o' < o then numbers messages else if o' = o then numbers records else 0
  | .top | .taking | .ended => 0

namespace OutputThread

/-- An output thread. -/
def inHand : OutputThread O → Multiset ℕ
  | .exporting records _ => numbers records
  | .top | .taking | .totalling _ | .ended => 0

/-- What it has flushed and not counted. -/
def uncounted : OutputThread O → ℕ
  | .exporting _ flushed => flushed
  | .top | .taking | .totalling _ | .ended => 0

/-- What it has counted for its output only. -/
def untotalled : OutputThread O → ℕ
  | .totalling count => count
  | .top | .taking | .exporting .. | .ended => 0

end OutputThread

/-! ### Where the numbers are -/

namespace System

variable (s : System c R M O)

/-- What has not become a message. -/
def before : Multiset ℕ :=
  ∑ p, Offer.inHand (s.producer p) + ∑ i, numbers (s.inputQueue i).items + ↑s.refused +
    ∑ t, (s.importer t).unread + ↑s.unread

/-- What has become a message, up to the main queue. -/
def within : Multiset ℕ :=
  ∑ t, (s.importer t).read + numbers s.processQueue.items + ∑ p, (s.processor p).inHand +
    ↑s.unprocessed + numbers s.mainQueue.items

/-- What is behind the main queue, for an output. -/
def behind (o : Fin c.outputs) : Multiset ℕ :=
  ∑ e, (s.exporter e).inHand o + ↑(s.unconverted o) + numbers (s.outputQueue o).items +
    (∑ w, if c.output w = o then (s.outputThread w).inHand else 0) + ↑(s.written o) +
    ↑(s.givenUp o)

end System

/-- **Every number is in one place, and the counters count.** -/
structure Balanced (s : System c R M O) : Prop where
  process : s.processQueue.overflow_strategy = .throttle
  main : s.mainQueue.overflow_strategy = .throttle
  outputs : ∀ o, (s.outputQueue o).overflow_strategy = .throttle
  balance : ∀ o, (↑(List.range s.next) : Multiset ℕ) = s.before + s.within + s.behind o
  received : ∀ o, ∑ i, s.receive_counter i = Multiset.card (s.within + s.behind o)
  total : ∑ i, s.receive_counter i = s.receive_total + ∑ t, (s.importer t).counted
  sent : ∀ o, (s.written o).length + (s.givenUp o).length =
    s.send_counter o + ∑ w, if c.output w = o then (s.outputThread w).uncounted else 0
  sentTotal : ∑ o, s.send_counter o = s.sent_total + ∑ w, (s.outputThread w).untotalled

theorem balanced_start : Balanced (System.start c R M O) where
  process := rfl
  main := rfl
  outputs _ := rfl
  balance o := by
    simp [System.start, System.before, System.within, System.behind, Offer.inHand, Importer.unread,
      Importer.read, Processor.inHand, Exporter.inHand, OutputThread.inHand, MessageQueue.new,
      MessageQueue.byName]
  received o := by
    simp [System.start, System.within, System.behind, Importer.read, Processor.inHand,
      Exporter.inHand, OutputThread.inHand, MessageQueue.new, MessageQueue.byName]
  total := by simp [System.start, Importer.counted]
  sent o := by simp [System.start, OutputThread.uncounted]
  sentTotal := by simp [System.start, OutputThread.untotalled]

/-! ### One thread changes -/

section Update

variable {s u : System c R M O}

/-- **What leaves one part comes to the next**: new numbers come to the first, and what moves on
from there is counted. -/
theorem Balanced.of_moved (h : Balanced s) (new moved : Multiset ℕ)
    (process : u.processQueue.overflow_strategy = .throttle)
    (main : u.mainQueue.overflow_strategy = .throttle)
    (outputs : ∀ o, (u.outputQueue o).overflow_strategy = .throttle)
    (hnext : (↑(List.range u.next) : Multiset ℕ) = ↑(List.range s.next) + new)
    (hbefore : u.before + moved = s.before + new)
    (hbehind : ∀ o, u.within + u.behind o = s.within + s.behind o + moved)
    (hreceived : ∑ i, u.receive_counter i = ∑ i, s.receive_counter i + Multiset.card moved)
    (total : ∑ i, u.receive_counter i = u.receive_total + ∑ t, (u.importer t).counted)
    (sent : ∀ o, (u.written o).length + (u.givenUp o).length =
      u.send_counter o + ∑ w, if c.output w = o then (u.outputThread w).uncounted else 0)
    (sentTotal : ∑ o, u.send_counter o = u.sent_total + ∑ w, (u.outputThread w).untotalled) :
    Balanced u := by
  refine ⟨process, main, outputs, fun o => ?_, fun o => ?_, total, sent, sentTotal⟩
  · calc (↑(List.range u.next) : Multiset ℕ)
      _ = s.before + new + s.within + s.behind o := by
          rw [hnext, h.balance o]
          abel
      _ = u.before + (s.within + s.behind o + moved) := by
          rw [← hbefore]
          abel
      _ = u.before + u.within + u.behind o := by rw [← hbehind o, add_assoc]
  · rw [hreceived, h.received o, hbehind o, Multiset.card_add _ moved]

variable (s)

namespace System

/-- **The call of one producer changes**, and the queue of an input. -/
theorem before_producer (p : Fin c.producers) (call : Option (Offer c R))
    (inputQueue : Fin c.inputs → MessageQueue (Numbered R)) (refused : List ℕ) {new : Multiset ℕ}
    (hnew : Offer.inHand call + ∑ i, numbers (inputQueue i).items + ↑refused =
      Offer.inHand (s.producer p) + ∑ i, numbers (s.inputQueue i).items + ↑s.refused + new) :
    ({ s with
      inputQueue := inputQueue
      refused := refused
      producer := Function.update s.producer p call } : System c R M O).before =
      s.before + new := by
  obtain ⟨rest, hold, hsum⟩ := Finset.sum_apply_update (fun _ => Offer.inHand) s.producer p call
  rw [before, before, hold, hsum]
  calc Offer.inHand call + rest + ∑ i, numbers (inputQueue i).items + ↑refused +
        ∑ t, (s.importer t).unread + ↑s.unread
    _ = Offer.inHand call + ∑ i, numbers (inputQueue i).items + ↑refused +
          (rest + ∑ t, (s.importer t).unread + ↑s.unread) := by abel
    _ = _ := by
        rw [hnew]
        abel

/-- **The hands of one import thread change**, and the queues of the inputs. -/
theorem before_importer (t : Fin c.importers) (next : Importer c R M)
    (inputQueue : Fin c.inputs → MessageQueue (Numbered R)) (unread : List ℕ)
    {moved : Multiset ℕ}
    (hmoved : ∑ i, numbers (inputQueue i).items + next.unread + ↑unread + moved =
      ∑ i, numbers (s.inputQueue i).items + (s.importer t).unread + ↑s.unread) :
    ({ s with
      inputQueue := inputQueue
      unread := unread
      importer := Function.update s.importer t next } : System c R M O).before + moved =
      s.before := by
  obtain ⟨rest, hold, hnew⟩ := Finset.sum_apply_update (fun _ => Importer.unread) s.importer t next
  rw [before, before, hold, hnew]
  calc ∑ p, Offer.inHand (s.producer p) + ∑ i, numbers (inputQueue i).items + ↑s.refused +
        (next.unread + rest) + ↑unread + moved
    _ = ∑ i, numbers (inputQueue i).items + next.unread + ↑unread + moved +
          (∑ p, Offer.inHand (s.producer p) + ↑s.refused + rest) := by abel
    _ = _ := by
        rw [hmoved]
        abel

/-- **The hands of one import thread change**, and the queues it sends to. -/
theorem within_importer (t : Fin c.importers) (next : Importer c R M)
    (process : MessageQueue (Numbered (M × UInt16))) (main : MessageQueue (Numbered M))
    {moved : Multiset ℕ}
    (hmoved : next.read + numbers process.items + numbers main.items =
      (s.importer t).read + numbers s.processQueue.items + numbers s.mainQueue.items + moved) :
    ({ s with
      processQueue := process
      mainQueue := main
      importer := Function.update s.importer t next } : System c R M O).within =
      s.within + moved := by
  obtain ⟨rest, hold, hnew⟩ := Finset.sum_apply_update (fun _ => Importer.read) s.importer t next
  rw [within, within, hold, hnew]
  calc next.read + rest + numbers process.items + ∑ p, (s.processor p).inHand +
        ↑s.unprocessed + numbers main.items
    _ = next.read + numbers process.items + numbers main.items +
          (rest + ∑ p, (s.processor p).inHand + ↑s.unprocessed) := by abel
    _ = _ := by
        rw [hmoved]
        abel

/-- **The hands of one processor thread change**, and the queues it works on. -/
theorem within_processor (p : Fin c.processors) (next : Processor M)
    (process : MessageQueue (Numbered (M × UInt16))) (main : MessageQueue (Numbered M))
    (unprocessed : List ℕ)
    (hkept : numbers process.items + next.inHand + ↑unprocessed + numbers main.items =
      numbers s.processQueue.items + (s.processor p).inHand + ↑s.unprocessed +
        numbers s.mainQueue.items) :
    ({ s with
      processQueue := process
      mainQueue := main
      unprocessed := unprocessed
      processor := Function.update s.processor p next } : System c R M O).within =
      s.within := by
  obtain ⟨rest, hold, hnew⟩ :=
    Finset.sum_apply_update (fun _ => Processor.inHand) s.processor p next
  rw [within, within, hold, hnew]
  calc ∑ t, (s.importer t).read + numbers process.items + (next.inHand + rest) +
        ↑unprocessed + numbers main.items
    _ = numbers process.items + next.inHand + ↑unprocessed + numbers main.items +
          (∑ t, (s.importer t).read + rest) := by abel
    _ = _ := by
        rw [hkept]
        abel

/-- **The hands of one export thread change**, and the queues it works on. -/
theorem behind_exporter (e : Fin c.exporters) (next : Exporter c M O)
    (main : MessageQueue (Numbered M)) (outputQueue : Fin c.outputs → MessageQueue (Numbered O))
    (unconverted : Fin c.outputs → List ℕ) (o : Fin c.outputs)
    (hkept : numbers main.items + next.inHand o + ↑(unconverted o) +
        numbers (outputQueue o).items =
      numbers s.mainQueue.items + (s.exporter e).inHand o + ↑(s.unconverted o) +
        numbers (s.outputQueue o).items) :
    ({ s with mainQueue := main } : System c R M O).within +
      ({ s with
        outputQueue := outputQueue
        unconverted := unconverted
        exporter := Function.update s.exporter e next } : System c R M O).behind o =
      s.within + s.behind o := by
  obtain ⟨rest, hold, hnew⟩ :=
    Finset.sum_apply_update (fun _ => Exporter.inHand o) s.exporter e next
  rw [within, within, behind, behind, hold, hnew]
  dsimp only
  generalize ∑ t, (s.importer t).read + numbers s.processQueue.items +
    ∑ p, (s.processor p).inHand + ↑s.unprocessed = upToMain
  generalize (∑ w, if c.output w = o then (s.outputThread w).inHand else 0) = outputs
  calc upToMain + numbers main.items + (next.inHand o + rest + ↑(unconverted o) +
        numbers (outputQueue o).items + outputs + ↑(s.written o) + ↑(s.givenUp o))
    _ = numbers main.items + next.inHand o + ↑(unconverted o) + numbers (outputQueue o).items +
          (upToMain + rest + outputs + ↑(s.written o) + ↑(s.givenUp o)) := by abel
    _ = _ := by
        rw [hkept]
        abel

/-- **The hands of one output thread change**, the queue it takes from, and what it has
written. -/
theorem behind_output (w : Fin c.outputThreads) (next : OutputThread O)
    (outputQueue : Fin c.outputs → MessageQueue (Numbered O))
    (written givenUp : Fin c.outputs → List ℕ) (o : Fin c.outputs)
    (hkept : numbers (outputQueue o).items + (if c.output w = o then next.inHand else 0) +
        ↑(written o) + ↑(givenUp o) =
      numbers (s.outputQueue o).items +
        (if c.output w = o then (s.outputThread w).inHand else 0) + ↑(s.written o) +
        ↑(s.givenUp o)) :
    ({ s with
      outputQueue := outputQueue
      written := written
      givenUp := givenUp
      outputThread := Function.update s.outputThread w next } : System c R M O).behind o =
      s.behind o := by
  obtain ⟨rest, hold, hnew⟩ := Finset.sum_apply_update
    (fun w thread => if c.output w = o then OutputThread.inHand thread else 0) s.outputThread w next
  rw [behind, behind, hold, hnew]
  dsimp only
  generalize ∑ e, (s.exporter e).inHand o + ↑(s.unconverted o) = upToQueue
  calc upToQueue + numbers (outputQueue o).items +
        ((if c.output w = o then next.inHand else 0) + rest) + ↑(written o) + ↑(givenUp o)
    _ = numbers (outputQueue o).items + (if c.output w = o then next.inHand else 0) +
          ↑(written o) + ↑(givenUp o) + (upToQueue + rest) := by abel
    _ = _ := by
        rw [hkept]
        abel

end System

variable {s} (h : Balanced s)

include h

/-- A call of a producer goes on, or is over. -/
theorem Balanced.producer (p : Fin c.producers) (call : Option (Offer c R))
    (inputQueue : Fin c.inputs → MessageQueue (Numbered R)) (refused : List ℕ)
    (hkept : Offer.inHand call + ∑ i, numbers (inputQueue i).items + ↑refused =
      Offer.inHand (s.producer p) + ∑ i, numbers (s.inputQueue i).items + ↑s.refused) :
    Balanced { s with
      inputQueue := inputQueue
      refused := refused
      producer := Function.update s.producer p call } := by
  have hbefore := s.before_producer p call inputQueue refused (hkept.trans (add_zero _).symm)
  exact h.of_moved 0 0 h.process h.main h.outputs (add_zero _).symm ((add_zero _).trans hbefore)
    (fun o => (add_zero _).symm) (add_zero _).symm h.total h.sent h.sentTotal

/-- **An import thread changes**, the queues it works on, and the counters of the inputs. What has
become messages is counted. -/
theorem Balanced.importer (i : Fin c.importers) (next : Importer c R M)
    (inputQueue : Fin c.inputs → MessageQueue (Numbered R))
    (process : MessageQueue (Numbered (M × UInt16))) (main : MessageQueue (Numbered M))
    (unread : List ℕ) (receive_counter : Fin c.inputs → ℕ) (receive_total : ℕ)
    (moved : Multiset ℕ) (hprocess : process.overflow_strategy = .throttle)
    (hmain : main.overflow_strategy = .throttle)
    (hbefore : ∑ i, numbers (inputQueue i).items + next.unread + ↑unread + moved =
      ∑ i, numbers (s.inputQueue i).items + (s.importer i).unread + ↑s.unread)
    (hwithin : next.read + numbers process.items + numbers main.items =
      (s.importer i).read + numbers s.processQueue.items + numbers s.mainQueue.items + moved)
    (hreceived : ∑ i, receive_counter i = ∑ i, s.receive_counter i + Multiset.card moved)
    (htotal : receive_total + next.counted =
      s.receive_total + (s.importer i).counted + Multiset.card moved) :
    Balanced { s with
      inputQueue := inputQueue
      processQueue := process
      mainQueue := main
      unread := unread
      receive_counter := receive_counter
      receive_total := receive_total
      importer := Function.update s.importer i next } := by
  have hleaves := s.before_importer i next inputQueue unread hbefore
  have hcomes := s.within_importer i next process main hwithin
  refine h.of_moved 0 moved hprocess hmain h.outputs (add_zero _).symm
    (hleaves.trans (add_zero _).symm) (fun o => ?_) hreceived ?_ h.sent h.sentTotal
  · refine (congrArg (· + s.behind o) hcomes).trans ?_
    abel
  · obtain ⟨rest, hold, hnew⟩ :=
      Finset.sum_apply_update (fun _ => Importer.counted) s.importer i next
    rw [hreceived, h.total, hold]
    dsimp only
    rw [hnew]
    omega

/-- **An import thread changes and reads nothing.** -/
theorem Balanced.importer_sends (i : Fin c.importers) (next : Importer c R M)
    (process : MessageQueue (Numbered (M × UInt16))) (main : MessageQueue (Numbered M))
    (receive_total : ℕ) (hprocess : process.overflow_strategy = .throttle)
    (hmain : main.overflow_strategy = .throttle) (hunread : next.unread = (s.importer i).unread)
    (hwithin : next.read + numbers process.items + numbers main.items =
      (s.importer i).read + numbers s.processQueue.items + numbers s.mainQueue.items)
    (htotal : receive_total + next.counted = s.receive_total + (s.importer i).counted) :
    Balanced { s with
      processQueue := process
      mainQueue := main
      receive_total := receive_total
      importer := Function.update s.importer i next } := by
  refine h.importer i next s.inputQueue process main s.unread s.receive_counter receive_total 0
    hprocess hmain ?_ ?_ rfl htotal
  · rw [hunread, add_zero]
  · rw [hwithin, add_zero]

/-- **A processor thread changes**, and the queues it works on. -/
theorem Balanced.processor (p : Fin c.processors) (next : Processor M)
    (process : MessageQueue (Numbered (M × UInt16))) (main : MessageQueue (Numbered M))
    (unprocessed : List ℕ) (hprocess : process.overflow_strategy = .throttle)
    (hmain : main.overflow_strategy = .throttle)
    (hkept : numbers process.items + next.inHand + ↑unprocessed + numbers main.items =
      numbers s.processQueue.items + (s.processor p).inHand + ↑s.unprocessed +
        numbers s.mainQueue.items) :
    Balanced { s with
      processQueue := process
      mainQueue := main
      unprocessed := unprocessed
      processor := Function.update s.processor p next } := by
  have hwithin := s.within_processor p next process main unprocessed hkept
  exact h.of_moved 0 0 hprocess hmain h.outputs (add_zero _).symm rfl
    (fun o => (congrArg (· + s.behind o) hwithin).trans (add_zero _).symm) (add_zero _).symm h.total
    h.sent h.sentTotal

/-- **An export thread changes**, and the queues it works on. -/
theorem Balanced.exporter (e : Fin c.exporters) (next : Exporter c M O)
    (main : MessageQueue (Numbered M)) (outputQueue : Fin c.outputs → MessageQueue (Numbered O))
    (unconverted : Fin c.outputs → List ℕ) (hmain : main.overflow_strategy = .throttle)
    (houtputs : ∀ o, (outputQueue o).overflow_strategy = .throttle)
    (hkept : ∀ o, numbers main.items + next.inHand o + ↑(unconverted o) +
        numbers (outputQueue o).items =
      numbers s.mainQueue.items + (s.exporter e).inHand o + ↑(s.unconverted o) +
        numbers (s.outputQueue o).items) :
    Balanced { s with
      mainQueue := main
      outputQueue := outputQueue
      unconverted := unconverted
      exporter := Function.update s.exporter e next } := by
  refine h.of_moved 0 0 h.process hmain houtputs (add_zero _).symm rfl (fun o => ?_)
    (add_zero _).symm h.total h.sent h.sentTotal
  exact (s.behind_exporter e next main outputQueue unconverted o (hkept o)).trans
    (add_zero _).symm

/-- **An output thread changes**, the queue it takes from, what it has written, and the counters of
the outputs. -/
theorem Balanced.output (w : Fin c.outputThreads) (next : OutputThread O)
    (outputQueue : Fin c.outputs → MessageQueue (Numbered O))
    (written givenUp : Fin c.outputs → List ℕ) (send_counter : Fin c.outputs → ℕ)
    (sent_total : ℕ) (houtputs : ∀ o, (outputQueue o).overflow_strategy = .throttle)
    (hkept : ∀ o, numbers (outputQueue o).items + (if c.output w = o then next.inHand else 0) +
        ↑(written o) + ↑(givenUp o) =
      numbers (s.outputQueue o).items +
        (if c.output w = o then (s.outputThread w).inHand else 0) + ↑(s.written o) +
        ↑(s.givenUp o))
    (hsent : ∀ o, (written o).length + (givenUp o).length + s.send_counter o +
        (if c.output w = o then (s.outputThread w).uncounted else 0) =
      (s.written o).length + (s.givenUp o).length + send_counter o +
        if c.output w = o then next.uncounted else 0)
    (htotal : ∑ o, send_counter o + s.sent_total + (s.outputThread w).untotalled =
      ∑ o, s.send_counter o + sent_total + next.untotalled) :
    Balanced { s with
      outputQueue := outputQueue
      written := written
      givenUp := givenUp
      send_counter := send_counter
      sent_total := sent_total
      outputThread := Function.update s.outputThread w next } := by
  refine h.of_moved 0 0 h.process h.main houtputs (add_zero _).symm rfl (fun o => ?_)
    (add_zero _).symm h.total (fun o => ?_) ?_
  · exact (congrArg (s.within + ·)
      (s.behind_output w next outputQueue written givenUp o (hkept o))).trans (add_zero _).symm
  · obtain ⟨rest, hold, hnew⟩ := Finset.sum_apply_update
      (fun w thread => if c.output w = o then OutputThread.uncounted thread else 0) s.outputThread w
      next
    have hsum := h.sent o
    have hchange := hsent o
    rw [hold] at hsum
    dsimp only
    rw [hnew]
    omega
  · obtain ⟨rest, hold, hnew⟩ :=
      Finset.sum_apply_update (fun _ => OutputThread.untotalled) s.outputThread w next
    have hsum := h.sentTotal
    rw [hold] at hsum
    dsimp only
    rw [hnew]
    omega

end Update

end IqLogger.Pipeline.Flow
