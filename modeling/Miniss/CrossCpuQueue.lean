import Miniss.Lib.Machine
import Miniss.Util.UnboundedSpscQueue
import Miniss.Util.SystemError
import Mathlib.Logic.Function.Basic

/-! `Cross_cpu_queue`: calls from one CPU to another. Each step below is one access to
shared state by one of the two CPUs, or a step of the functions that were sent; a call goes up
to its loop, and each round of that is a step of its own. A work item is named by its rank in
the order of the `submit` calls. -/
namespace Miniss
variable {ν : Type*}

abbrev CallResult (ν : Type*) := Except Exn ν

/-- Continuations that a processed item has on a CPU: the one in `process`, which fills
`ret_`, and the one in `poll_tx`, which calls `respond_`. -/
inductive ItemTask (ν : Type*) where
  | fill (item : Nat) (r : CallResult ν)
  | respond (item : Nat)

/-- Where the submitting side stands: in the loop of `flush` for `tx_`, with the number of
items moved, or in the loop of `poll_rx` on the given CPU. -/
inductive FromPc where
  | idle
  | flush (n : Nat)
  | complete (cpu : Nat) (todo : List Nat)

/-- Where the processing side stands: in the loop of `flush` for `rx_`, or in the loop of
`poll_tx` on the given CPU. -/
inductive ToPc where
  | idle
  | flush (n : Nat)
  | process (cpu : Nat) (todo : List Nat)

/-- A queue with what its two CPUs do to it. `heap` gives the `ret_` of each allocated item.
`running` holds the items whose function has a future that is not resolved, and `tasks` the
continuations, each with its CPU. The fields from `submitted` on record the history: items
with the CPU they were started, completed or deleted on, the wake-ups of the two CPUs, and
what must not happen: a failed assertion about `this_cpu()`, `abort`, and a use of an item
that is not allocated. -/
structure CrossCpuQueue (ν : Type*) where
  from_ : Nat
  to_ : Nat
  tx : UnboundedSpscQueue Nat
  rx : UnboundedSpscQueue Nat
  heap : Nat → Option (Option (CallResult ν))
  fromPc : FromPc
  toPc : ToPc
  running : List Nat
  tasks : List (Nat × ItemTask ν)
  submitted : Nat
  started : List (Nat × Nat)
  filled : List (Nat × CallResult ν)
  completed : List (Nat × Nat)
  resolved : List (Nat × CallResult ν)
  deleted : List (Nat × Nat)
  wokenFrom : Nat
  wokenTo : Nat
  assertFailed : Bool
  aborted : Bool
  fault : Bool

namespace CrossCpuQueue

def init (from_ to_ : Nat) : CrossCpuQueue ν where
  from_ := from_
  to_ := to_
  tx := .empty
  rx := .empty
  heap := fun _ => none
  fromPc := .idle
  toPc := .idle
  running := []
  tasks := []
  submitted := 0
  started := []
  filled := []
  completed := []
  resolved := []
  deleted := []
  wokenFrom := 0
  wokenTo := 0
  assertFailed := false
  aborted := false
  fault := false

def assertFrom (q : CrossCpuQueue ν) (thisCpu : Nat) : CrossCpuQueue ν :=
  { q with assertFailed := q.assertFailed || thisCpu != q.from_ }

def assertTo (q : CrossCpuQueue ν) (thisCpu : Nat) : CrossCpuQueue ν :=
  { q with assertFailed := q.assertFailed || thisCpu != q.to_ }

/-- `submit_`, up to the loop of `flush`. -/
def submit_ (q : CrossCpuQueue ν) (thisCpu item : Nat) : CrossCpuQueue ν :=
  let q := q.assertFrom thisCpu
  let p := q.tx.push item
  { q with tx := p.1, fromPc := if p.2 then .flush 0 else .idle }

def submit (q : CrossCpuQueue ν) (thisCpu : Nat) : CrossCpuQueue ν :=
  submit_ { q with
    heap := Function.update q.heap q.submitted (some none)
    submitted := q.submitted + 1 } thisCpu q.submitted

/-- `respond_`, up to the loop of `flush`. -/
def respond_ (q : CrossCpuQueue ν) (thisCpu item : Nat) : CrossCpuQueue ν :=
  let q := q.assertTo thisCpu
  let p := q.rx.push item
  { q with rx := p.1, toPc := if p.2 then .flush 0 else .idle }

def flushTx (q : CrossCpuQueue ν) (thisCpu : Nat) : CrossCpuQueue ν :=
  { q.assertFrom thisCpu with fromPc := .flush 0 }

def flushRx (q : CrossCpuQueue ν) (thisCpu : Nat) : CrossCpuQueue ν :=
  { q.assertTo thisCpu with toPc := .flush 0 }

def pollTx (q : CrossCpuQueue ν) (thisCpu : Nat) : CrossCpuQueue ν :=
  let q := q.assertTo thisCpu
  { q with tx := q.tx.popBatch.2, toPc := .process thisCpu q.tx.popBatch.1 }

def pollRx (q : CrossCpuQueue ν) (thisCpu : Nat) : CrossCpuQueue ν :=
  let q := q.assertFrom thisCpu
  { q with rx := q.rx.popBatch.2, fromPc := .complete thisCpu q.rx.popBatch.1 }

/-- `process` of one item on the given CPU: the function runs, and its future is resolved
already or not. -/
def process (q : CrossCpuQueue ν) (thisCpu item : Nat) (ready : Option (CallResult ν)) :
    CrossCpuQueue ν :=
  match q.heap item with
  | none => { q with started := q.started ++ [(item, thisCpu)], fault := true }
  | some _ =>
    match ready with
    | some r =>
      { q with
        started := q.started ++ [(item, thisCpu)]
        tasks := q.tasks ++ [(thisCpu, .fill item r)] }
    | none => { q with started := q.started ++ [(item, thisCpu)], running := q.running ++ [item] }

/-- The continuation in `process`: `ret_` is filled, and the future that `poll_tx` waits for
is resolved. -/
def fill (q : CrossCpuQueue ν) (thisCpu item : Nat) (r : CallResult ν) : CrossCpuQueue ν :=
  match q.heap item with
  | none => { q with fault := true }
  | some _ =>
    { q with
      heap := Function.update q.heap item (some (some r))
      filled := q.filled ++ [(item, r)]
      tasks := q.tasks ++ [(thisCpu, .respond item)] }

/-- `complete` of one item and its deletion by the `unique_ptr`. -/
def complete (q : CrossCpuQueue ν) (thisCpu item : Nat) : CrossCpuQueue ν :=
  match q.heap item with
  | none => { q with completed := q.completed ++ [(item, thisCpu)], fault := true }
  | some none => { q with completed := q.completed ++ [(item, thisCpu)], aborted := true }
  | some (some r) =>
    { q with
      heap := Function.update q.heap item none
      completed := q.completed ++ [(item, thisCpu)]
      resolved := q.resolved ++ [(item, r)]
      deleted := q.deleted ++ [(item, thisCpu)] }

/-- The submitting side goes on: a round of `flush` or its end, where it wakes `to_` if anything was
moved, or a round of `poll_rx` or its end. -/
def fromStep (q : CrossCpuQueue ν) : Option (CrossCpuQueue ν) :=
  match q.fromPc with
  | .idle => none
  | .flush n =>
    match q.tx.flushRound with
    | some tx => some { q with tx := tx, fromPc := .flush (n + 1) }
    | none => some { q with fromPc := .idle, wokenTo := q.wokenTo + if 0 < n then 1 else 0 }
  | .complete cpu (item :: todo) =>
    some { q.complete cpu item with fromPc := .complete cpu todo }
  | .complete _ [] => some { q with fromPc := .idle }

/-- The processing side goes on in the same way; `ready` is for the function of the next item. -/
def toStep (q : CrossCpuQueue ν) (ready : Option (CallResult ν)) : Option (CrossCpuQueue ν) :=
  match q.toPc with
  | .idle => none
  | .flush n =>
    match q.rx.flushRound with
    | some rx => some { q with rx := rx, toPc := .flush (n + 1) }
    | none => some { q with toPc := .idle, wokenFrom := q.wokenFrom + if 0 < n then 1 else 0 }
  | .process cpu (item :: todo) =>
    some { q.process cpu item ready with toPc := .process cpu todo }
  | .process _ [] => some { q with toPc := .idle }

def runTask (q : CrossCpuQueue ν) : Nat × ItemTask ν → CrossCpuQueue ν
  | (cpu, .fill item r) => q.fill cpu item r
  | (cpu, .respond item) => q.respond_ cpu item

end CrossCpuQueue

inductive PollCall where
  | flushTx (i j : Nat)
  | pollRx (i j : Nat)
  | flushRx (i j : Nat)
  | pollTx (i j : Nat)
  deriving DecidableEq

/-- `OS::poll_queues` on CPU `current`: the calls it makes, with the indices of the queue. -/
def pollQueues (cpuCount current : Nat) : List PollCall :=
  ((List.range cpuCount).filter (· ≠ current)).flatMap fun i =>
    [.flushTx current i, .pollRx current i, .flushRx i current, .pollTx i current]

/-- `OS::submit_to` on CPU `current`: the queue that the function is submitted to, or none
where it is called at once. -/
def submitTo (current cpu : Nat) : Option (Nat × Nat) :=
  if current ≠ cpu then some (current, cpu) else none

/-- What the CPUs can do to one queue: `submit_to` and `poll_queues` on any CPU, the two sides
of the queue going on with what they are in the middle of, a function's future resolved on
some CPU, and a continuation. -/
inductive CrossCpuAct (ν : Type*) where
  | submitTo (current cpu : Nat)
  | poll (current : Nat) (call : PollCall)
  | from_
  | to_ (ready : Option (CallResult ν))
  | resolve (current k : Nat) (r : CallResult ν)
  | runTask (k : Nat)

namespace CrossCpuQueue

def poll (q : CrossCpuQueue ν) (current : Nat) : PollCall → Option (CrossCpuQueue ν)
  | .flushTx i j =>
    match q.fromPc with
    | .idle => if i = q.from_ ∧ j = q.to_ then some (q.flushTx current) else none
    | _ => none
  | .pollRx i j =>
    match q.fromPc with
    | .idle => if i = q.from_ ∧ j = q.to_ then some (q.pollRx current) else none
    | _ => none
  | .flushRx i j =>
    match q.toPc with
    | .idle => if i = q.from_ ∧ j = q.to_ then some (q.flushRx current) else none
    | _ => none
  | .pollTx i j =>
    match q.toPc with
    | .idle => if i = q.from_ ∧ j = q.to_ then some (q.pollTx current) else none
    | _ => none

/-- A function's future is resolved on `to_` only. Continuations run in any order. -/
def step (cpuCount : Nat) (q : CrossCpuQueue ν) : CrossCpuAct ν → Option (CrossCpuQueue ν)
  | .submitTo current cpu =>
    match q.fromPc with
    | .idle =>
      if Miniss.submitTo current cpu = some (q.from_, q.to_) then some (q.submit current)
      else none
    | _ => none
  | .poll current call =>
    if call ∈ pollQueues cpuCount current then q.poll current call else none
  | .from_ => q.fromStep
  | .to_ ready => q.toStep ready
  | .resolve current k r =>
    match q.running[k]? with
    | none => none
    | some item =>
      if current = q.to_ then some
        { q with
          running := q.running.eraseIdx k
          tasks := q.tasks ++ [(current, .fill item r)] }
      else none
  | .runTask k =>
    match q.toPc, q.tasks[k]? with
    | .idle, some t => some (runTask { q with tasks := q.tasks.eraseIdx k } t)
    | _, _ => none

end CrossCpuQueue

def crossCpuMachine (cpuCount i j : Nat) : Machine (CrossCpuQueue ν) (CrossCpuAct ν) where
  init := .init i j
  step := CrossCpuQueue.step cpuCount

end Miniss
