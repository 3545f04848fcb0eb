import Miniss.Lib.Machine
import Miniss.Lib.Lists
import Miniss.Util.UnboundedSpscQueue
import Mathlib.Order.Basic

/-! `Unbounded_spsc_queue` between its producer and its consumer: the test of the loop in
`flush`, each insertion into the ring, the pop of `process` and each call of its function are
steps of their own. -/
namespace Miniss
variable {α : Type*}

inductive SpscCall where
  | push
  | flush

/-- Where the producer stands: outside, or in the loop of `flush` before its test or before an
insertion. It has counted `n` items; `before` went into the ring before the call. -/
inductive SpscProducerPc where
  | idle
  | test (call : SpscCall) (before n : Nat)
  | insert (call : SpscCall) (before n : Nat)

/-- Where the consumer stands: outside, or in the loop of `process` with the items left to be
passed. It has popped `nr` where `readable` were in the ring; `before` were passed before. -/
inductive SpscConsumerPc (α : Type*) where
  | idle
  | each (readable before nr : Nat) (todo : List α)

/-- What a call of `push` or `flush` has returned, how many items it has put into the ring, and
what it has left: in the buffer, and whether the ring was full. -/
structure SpscReturn where
  call : SpscCall
  flushed : Bool
  result : Bool
  moved : Nat
  buffered : Nat
  full : Bool

/-- What a call of `process` has returned, and how many items it found and passed on. -/
structure SpscProcess where
  readable : Nat
  handled : Nat
  result : Nat

/-- `pushed` and `passed` are the items of all pushes and those given to the consumer's
function, in order; `inserted` counts what the ring has taken. -/
structure SpscRun (α : Type*) where
  q : UnboundedSpscQueue α
  producer : SpscProducerPc
  consumer : SpscConsumerPc α
  pushed : List α
  passed : List α
  inserted : Nat
  returns : List SpscReturn
  processed : List SpscProcess

inductive SpscAct (α : Type*) where
  | push (item : α)
  | flush
  | produce
  | process
  | consume

namespace SpscConsumerPc

def todo : SpscConsumerPc α → List α
  | .idle => []
  | .each _ _ _ todo => todo

end SpscConsumerPc

namespace UnboundedSpscQueue

/-- The body of the loop in `flush` for the front of the buffer. -/
def insert (q : UnboundedSpscQueue α) (item : α) : UnboundedSpscQueue α × Bool :=
  ({ queueBuffer := q.queueBuffer.tail, queue := (q.queue.push item).1 }, (q.queue.push item).2)

theorem flushRound_of_cons {q : UnboundedSpscQueue α} {item : α} {rest : List α}
    (hb : q.queueBuffer = item :: rest) (hroom : q.queue.writeAvailable ≠ 0) :
    q.flushRound = some (q.insert item).1 := by
  simp only [flushRound, insert, hb, if_neg hroom, List.tail_cons]

theorem insert_accepted {q : UnboundedSpscQueue α} (hroom : q.queue.writeAvailable ≠ 0)
    (item : α) : (q.insert item).2 = true :=
  (q.queue.push_of_lt item
    (q.queue.writeAvailable_pos_iff.mp (Nat.pos_of_ne_zero hroom))).2

theorem writeAvailable_popBatch {q : UnboundedSpscQueue α} (h : q.queue.writeAvailable ≠ 0) :
    q.popBatch.2.queue.writeAvailable ≠ 0 := by
  simp only [popBatch, BoundedFifo.pop, BoundedFifo.writeAvailable, BoundedFifo.discard_items,
    List.length_drop] at h ⊢
  omega

end UnboundedSpscQueue

namespace SpscRun

def init : SpscRun α where
  q := .empty
  producer := .idle
  consumer := .idle
  pushed := []
  passed := []
  inserted := 0
  returns := []
  processed := []

def ret (s : SpscRun α) (call : SpscCall) (flushed : Bool) (before : Nat) (result : Bool) :
    SpscRun α :=
  { s with
    producer := .idle
    returns := s.returns ++
      [{ call := call
         flushed := flushed
         result := result
         moved := s.inserted - before
         buffered := s.q.queueBuffer.length
         full := s.q.queue.writeAvailable == 0 }] }

def push (s : SpscRun α) (item : α) : SpscRun α :=
  let r := s.q.push item
  let t := { s with q := r.1, pushed := s.pushed ++ [item] }
  if r.2 then { t with producer := .test .push s.inserted 0 }
  else t.ret .push false s.inserted false

def produce (s : SpscRun α) : Option (SpscRun α) :=
  match s.producer with
  | .idle => none
  | .test call before n =>
    if s.q.queue.writeAvailable ≠ 0 ∧ s.q.queueBuffer ≠ [] then
      some { s with producer := .insert call before n }
    else some (s.ret call true before (decide (0 < n)))
  | .insert call before n =>
    s.q.queueBuffer.head?.map fun item =>
      { s with
        q := (s.q.insert item).1
        inserted := s.inserted + (s.q.insert item).2.toNat
        producer := .test call before (n + 1) }

def process (s : SpscRun α) : SpscRun α :=
  let r := s.q.popBatch
  { s with
    q := r.2
    consumer := .each s.q.queue.items.length s.passed.length r.1.length r.1 }

def consume (s : SpscRun α) : Option (SpscRun α) :=
  match s.consumer with
  | .idle => none
  | .each readable before nr (item :: todo) =>
    some { s with passed := s.passed ++ [item], consumer := .each readable before nr todo }
  | .each readable before nr [] => some
      { s with
        consumer := .idle
        processed := s.processed ++ [⟨readable, s.passed.length - before, nr⟩] }

def step (s : SpscRun α) : SpscAct α → Option (SpscRun α)
  | .push item =>
    match s.producer with
    | .idle => some (s.push item)
    | _ => none
  | .flush =>
    match s.producer with
    | .idle => some { s with producer := .test .flush s.inserted 0 }
    | _ => none
  | .produce => s.produce
  | .process =>
    match s.consumer with
    | .idle => some s.process
    | _ => none
  | .consume => s.consume

end SpscRun

/-- A call returns true when it has moved something, and leaves items in the buffer only below
the threshold of `push` or with a full ring. -/
structure SpscReturn.Sound (r : SpscReturn) : Prop where
  moves : r.result = true ↔ 0 < r.moved
  leaves : r.buffered = 0 ∨ (r.call = .push ∧ r.flushed = false ∧ r.buffered < 8) ∨
    r.full = true

/-- `process` has passed on what it popped, at most 8 of what there was. -/
structure SpscProcess.Sound (p : SpscProcess) : Prop where
  handles : p.handled = min 8 p.readable
  returns : p.result = p.handled

/-- The count of `flush` is what the ring has taken since the call, and an insertion finds
room. -/
def SpscProducerPc.Counts (inserted room : Nat) : SpscProducerPc → Prop
  | .idle => True
  | .test _ before n => inserted = before + n
  | .insert _ before n => inserted = before + n ∧ room ≠ 0

def SpscConsumerPc.Counts (passed : Nat) : SpscConsumerPc α → Prop
  | .idle => True
  | .each readable before nr todo => passed + todo.length = before + nr ∧ nr = min 8 readable

namespace SpscRun

structure Fifo (s : SpscRun α) : Prop where
  order : s.pushed = s.passed ++ s.consumer.todo ++ s.q.contents
  producer : s.producer.Counts s.inserted s.q.queue.writeAvailable
  consumer : s.consumer.Counts s.passed.length
  returns : ∀ r ∈ s.returns, r.Sound
  processed : ∀ p ∈ s.processed, p.Sound

theorem Fifo.ret {s : SpscRun α} (h : s.Fifo) {call : SpscCall} {flushed result : Bool}
    {before : Nat} (hmoves : result = true ↔ 0 < s.inserted - before)
    (hleaves : s.q.queueBuffer = [] ∨
      (call = .push ∧ flushed = false ∧ s.q.queueBuffer.length < 8) ∨
      s.q.queue.writeAvailable = 0) :
    (s.ret call flushed before result).Fifo where
  order := h.order
  producer := trivial
  consumer := h.consumer
  returns := by
    refine forall_mem_concat h.returns ⟨hmoves, ?_⟩
    exact hleaves.imp List.length_eq_zero_iff.mpr (.imp_right beq_iff_eq.mpr)
  processed := h.processed

theorem Fifo.push {s : SpscRun α} (h : s.Fifo) (hidle : s.producer = .idle) (item : α) :
    (s.push item).Fifo := by
  have horder : s.pushed ++ [item] =
      s.passed ++ s.consumer.todo ++ (s.q.push item).1.contents := by
    rw [UnboundedSpscQueue.contents_push, h.order, List.append_assoc (_ ++ _)]
  unfold SpscRun.push
  dsimp only
  split
  case isTrue => exact ⟨horder, rfl, h.consumer, h.returns, h.processed⟩
  case isFalse hshort =>
    have hlen : (s.q.push item).1.queueBuffer.length < 8 := by
      simp only [UnboundedSpscQueue.push, Bool.not_eq_true', decide_eq_false_iff_not,
        not_not] at hshort
      exact hshort
    have ht : Fifo { s with q := (s.q.push item).1, pushed := s.pushed ++ [item] } := by
      refine ⟨horder, ?_, h.consumer, h.returns, h.processed⟩
      change s.producer.Counts _ _
      rw [hidle]
      trivial
    exact ht.ret (by simp) (.inr (.inl ⟨rfl, rfl, hlen⟩))

theorem Fifo.produce {s t : SpscRun α} (h : s.Fifo) (ht : s.produce = some t) : t.Fifo := by
  unfold SpscRun.produce at ht
  split at ht
  case h_1 => cases ht
  case h_2 call before n hpc =>
    have hcount : s.inserted = before + n := by
      have hp := h.producer
      rwa [hpc] at hp
    split at ht
    case isTrue hgo =>
      cases ht
      exact ⟨h.order, ⟨hcount, hgo.1⟩, h.consumer, h.returns, h.processed⟩
    case isFalse hstop =>
      cases ht
      refine h.ret (by simp [hcount]) ?_
      rw [not_and_or, not_not, not_not] at hstop
      exact hstop.elim (fun hfull => .inr (.inr hfull)) .inl
  case h_3 call before n hpc =>
    obtain ⟨item, hitem, rfl⟩ := Option.map_eq_some_iff.mp ht
    obtain ⟨hcount, hroom⟩ : s.inserted = before + n ∧ s.q.queue.writeAvailable ≠ 0 := by
      have hp := h.producer
      rwa [hpc] at hp
    obtain ⟨rest, hb⟩ := List.head?_eq_some_iff.mp hitem
    refine ⟨?_, ?_, h.consumer, h.returns, h.processed⟩
    · change s.pushed = _ ++ (s.q.insert item).1.contents
      rw [UnboundedSpscQueue.contents_flushRound
        (UnboundedSpscQueue.flushRound_of_cons hb hroom)]
      exact h.order
    · change s.inserted + (s.q.insert item).2.toNat = before + (n + 1)
      rw [UnboundedSpscQueue.insert_accepted hroom, hcount]
      rfl

/-- A pop of the consumer leaves the producer's count, and the room that it has seen. -/
theorem Fifo.process {s : SpscRun α} (h : s.Fifo) (hidle : s.consumer = .idle) :
    s.process.Fifo := by
  refine ⟨?_, ?_, ?_, h.returns, h.processed⟩
  · change s.pushed = s.passed ++ s.q.popBatch.1 ++ s.q.popBatch.2.contents
    rw [List.append_assoc, UnboundedSpscQueue.contents_popBatch, h.order, hidle,
      SpscConsumerPc.todo, List.append_nil]
  · have hp := h.producer
    change s.producer.Counts s.inserted s.q.popBatch.2.queue.writeAvailable
    cases hpc : s.producer with
    | idle => trivial
    | test call before n =>
      rw [hpc] at hp
      exact hp
    | insert call before n =>
      rw [hpc] at hp
      exact ⟨hp.1, UnboundedSpscQueue.writeAvailable_popBatch hp.2⟩
  · refine ⟨rfl, ?_⟩
    exact List.length_take

theorem Fifo.consume {s t : SpscRun α} (h : s.Fifo) (ht : s.consume = some t) : t.Fifo := by
  have horder := h.order
  have hcount := h.consumer
  unfold SpscRun.consume at ht
  split at ht
  case h_1 => cases ht
  case h_2 readable before nr item todo hpc =>
    cases ht
    rw [hpc] at horder hcount
    refine ⟨?_, h.producer, ⟨?_, hcount.2⟩, h.returns, h.processed⟩
    · rw [horder]
      simp [SpscConsumerPc.todo]
    · have hlen := hcount.1
      simp only [List.length_append, List.length_cons, List.length_nil] at hlen ⊢
      omega
  case h_3 readable before nr hpc =>
    cases ht
    rw [hpc] at horder hcount
    have hlen : s.passed.length = before + nr := hcount.1
    refine ⟨horder, h.producer, trivial, h.returns, forall_mem_concat h.processed ⟨?_, ?_⟩⟩
    · change s.passed.length - before = min 8 readable
      rw [hlen, Nat.add_sub_cancel_left, hcount.2]
    · change nr = s.passed.length - before
      rw [hlen, Nat.add_sub_cancel_left]

theorem Fifo.step {s t : SpscRun α} {a : SpscAct α} (h : s.Fifo) (ht : s.step a = some t) :
    t.Fifo := by
  cases a with
  | push item =>
    simp only [SpscRun.step] at ht
    split at ht
    case h_1 hidle =>
      cases ht
      exact h.push hidle item
    case h_2 => cases ht
  | flush =>
    simp only [SpscRun.step] at ht
    split at ht
    case h_1 hidle =>
      cases ht
      exact ⟨h.order, rfl, h.consumer, h.returns, h.processed⟩
    case h_2 => cases ht
  | produce => exact h.produce ht
  | process =>
    simp only [SpscRun.step] at ht
    split at ht
    case h_1 hidle =>
      cases ht
      exact h.process hidle
    case h_2 => cases ht
  | consume => exact h.consume ht

end SpscRun

open SpscRun

end Miniss
