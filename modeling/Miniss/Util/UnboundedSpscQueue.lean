import Miniss.Lib.BoundedFifo

/-! `Unbounded_spsc_queue`: a ring of 1024 slots behind a local buffer of the producer. The
loop of `flush` is given by its rounds, since the consumer may pop between any two. -/
namespace Miniss

def ringSize : Nat := 1024

structure UnboundedSpscQueue (α : Type*) where
  queueBuffer : List α
  queue : BoundedFifo α ringSize

namespace UnboundedSpscQueue
variable {α : Type*}

def empty : UnboundedSpscQueue α := ⟨[], .empty⟩

/-- `push`, and whether it goes on to `flush`. -/
def push (q : UnboundedSpscQueue α) (item : α) : UnboundedSpscQueue α × Bool :=
  let buffer := q.queueBuffer ++ [item]
  ({ q with queueBuffer := buffer }, !decide (buffer.length < 8))

/-- One round of the loop in `flush`, or `none` where the loop ends. -/
def flushRound (q : UnboundedSpscQueue α) : Option (UnboundedSpscQueue α) :=
  match q.queueBuffer with
  | [] => none
  | item :: rest => if q.queue.writeAvailable = 0 then none else some ⟨rest, (q.queue.push item).1⟩

/-- `process` up to its loop: at most 8 items are popped. -/
def popBatch (q : UnboundedSpscQueue α) : List α × UnboundedSpscQueue α :=
  ((q.queue.pop 8).1, { q with queue := (q.queue.pop 8).2 })

/-- What the consumer will see, the oldest first. -/
def contents (q : UnboundedSpscQueue α) : List α := q.queue.items ++ q.queueBuffer

@[simp] theorem contents_empty : (empty : UnboundedSpscQueue α).contents = [] := rfl

@[simp] theorem contents_push (q : UnboundedSpscQueue α) (item : α) :
    (q.push item).1.contents = q.contents ++ [item] := by simp [push, contents]

theorem flushRound_eq_some {q q' : UnboundedSpscQueue α} (h : q.flushRound = some q') :
    ∃ item, q.queueBuffer = item :: q'.queueBuffer ∧
      q'.queue.items = q.queue.items ++ [item] := by
  unfold flushRound at h
  split at h
  case h_1 => cases h
  case h_2 item rest hb =>
    split at h
    case isTrue => cases h
    case isFalse hw =>
      cases h
      have hroom := (q.queue.writeAvailable_pos_iff).mp (Nat.pos_of_ne_zero hw)
      exact ⟨item, hb, (q.queue.push_of_lt item hroom).1⟩

/-- The loop of `flush` ends when the buffer is empty or the ring full. -/
theorem flushRound_eq_none_iff (q : UnboundedSpscQueue α) :
    q.flushRound = none ↔ q.queueBuffer = [] ∨ q.queue.items.length = ringSize := by
  unfold flushRound
  split
  case h_1 hb => simp [hb]
  case h_2 item rest hb =>
    rw [← q.queue.writeAvailable_eq_zero_iff]
    split <;> simp_all

theorem contents_flushRound {q q' : UnboundedSpscQueue α} (h : q.flushRound = some q') :
    q'.contents = q.contents := by
  obtain ⟨item, hb, hq⟩ := flushRound_eq_some h
  rw [contents, contents, hb, hq, List.append_assoc, List.singleton_append]

@[simp] theorem contents_popBatch (q : UnboundedSpscQueue α) :
    q.popBatch.1 ++ q.popBatch.2.contents = q.contents := by
  simp [popBatch, contents, BoundedFifo.pop, ← List.append_assoc]

theorem items_popBatch_of_nil {q : UnboundedSpscQueue α} (h : q.popBatch.1 = []) :
    q.popBatch.2.queue.items = [] := by
  have hq : q.queue.items = [] := by simpa [popBatch, BoundedFifo.pop] using h
  simp [popBatch, BoundedFifo.pop, hq]

theorem items_of_popBatch {q : UnboundedSpscQueue α} (h : q.popBatch.2.queue.items ≠ []) :
    q.queue.items ≠ [] := fun hq => h (by simp [popBatch, BoundedFifo.pop, hq])

end UnboundedSpscQueue
end Miniss
