import Miniss.Lib.Machine
import Miniss.Lib.BoundedFifo
import Miniss.Util.Semaphore
import Miniss.Io.SyscallResult
import Mathlib.Logic.Function.Basic

/-! `Syscall_runner`: the CPU thread hands works to a worker thread through `call_queue_`
and takes them back through `result_queue_`. A step makes at most one access to the state that
the threads share (the two rings, the eventfd and the stop token), so the runs of the machine are
the interleavings of the two threads. A work item is named by its rank in the order of the
`submit` calls. -/
namespace Miniss
variable {ε : Type*}

def queueSize : Nat := 128

structure WorkItem (ε : Type*) where
  body : SyscallBody ε
  errno : Errno
  ret : ResultHolder ε

/-- Where the CPU thread stands in the code of the runner; in the destructor it is `stopping`
before it signals, and then joins the worker. -/
inductive CpuPc where
  | idle
  | signal
  | poll (todo : List Nat) (nr : Nat)
  | stopping
  | destroyed

/-- Where the worker thread stands in `worker_run_`: at the condition of the outer loop, in
`interrupter_.wait()`, at the test behind it, in the inner loop. In a batch of `consume_all`,
`done` was answered by `respond_` and `todo` was not yet given to the functor; the slots of both
stay taken until the batch ends. -/
inductive WorkerPc where
  | loop
  | wait
  | woken
  | drain
  | consume (done todo : List Nat)
  | respond (done : List Nat) (work : Nat) (todo : List Nat)
  | wake
  | exited

/-- The runner; the fields from `calls` on record the history of the run. -/
structure SyscallRunner (ε : Type*) where
  queueHasRoom : Semaphore Nat
  callQueue : BoundedFifo Nat queueSize
  resultQueue : BoundedFifo Nat queueSize
  interrupter : Nat
  stop : Bool
  heap : Nat → Option (WorkItem ε)
  cpu : CpuPc
  worker : WorkerPc
  calls : List (SyscallBody ε × Errno)
  executed : List Nat
  dropped : List Nat
  processed : List Nat
  lost : List Nat
  completed : List Nat
  resolved : List (Nat × FutureResult ε)
  freed : List Nat
  aborted : Bool
  fault : Bool

namespace SyscallRunner

def init : SyscallRunner ε where
  queueHasRoom := ⟨queueSize, []⟩
  callQueue := .empty
  resultQueue := .empty
  interrupter := 0
  stop := false
  heap := fun _ => none
  cpu := .idle
  worker := .loop
  calls := []
  executed := []
  dropped := []
  processed := []
  lost := []
  completed := []
  resolved := []
  freed := []
  aborted := false
  fault := false

/-- `submit_`: the continuation of `queue_has_room_.wait()` is queued on the CPU at once
when the future is ready, and when the token is released to it otherwise. -/
def submit_ (r : SyscallRunner ε) (work : Nat) : SyscallRunner ε × List Nat :=
  let w := r.queueHasRoom.wait 1 work
  ({ r with queueHasRoom := w.1 }, if w.2 then [work] else [])

def submit (r : SyscallRunner ε) (body : SyscallBody ε) (errno : Errno) :
    SyscallRunner ε × List Nat :=
  let work := r.calls.length
  let item : WorkItem ε := ⟨body, errno, (body.outcome errno).emptyHolder⟩
  submit_ { r with
    heap := Function.update r.heap work (some item)
    calls := r.calls ++ [(body, errno)] } work

/-- The continuation in `submit_`, up to `interrupter_.signal()`: the result of the push is
not looked at. -/
def pushWork (r : SyscallRunner ε) (work : Nat) : SyscallRunner ε :=
  let p := r.callQueue.push work
  { r with
    callQueue := p.1
    cpu := .signal
    executed := r.executed ++ [work]
    dropped := if p.2 then r.dropped else r.dropped ++ [work] }

/-- `poll_results` up to the loop over the popped works. -/
def pollResults (r : SyscallRunner ε) : SyscallRunner ε :=
  let p := r.resultQueue.pop queueSize
  { r with resultQueue := p.2, cpu := .poll p.1 p.1.length }

/-- One round of that loop: `complete`, then the deletion by the `unique_ptr`. -/
def completeWork (r : SyscallRunner ε) (work : Nat) : SyscallRunner ε :=
  match r.heap work with
  | none => { r with completed := r.completed ++ [work], fault := true }
  | some item =>
    match complete item.ret with
    | none => { r with completed := r.completed ++ [work], aborted := true }
    | some v =>
      { r with
        completed := r.completed ++ [work]
        resolved := r.resolved ++ [(work, v)]
        heap := Function.update r.heap work none
        freed := r.freed ++ [work] }

/-- `queue_has_room_.release(nr)` at the end of `poll_results`. -/
def releaseRoom (r : SyscallRunner ε) (nr : Nat) : SyscallRunner ε × List Nat :=
  let p := r.queueHasRoom.release nr
  ({ r with queueHasRoom := p.1, cpu := .idle }, p.2.toList)

def cpuStep (r : SyscallRunner ε) : Option (SyscallRunner ε × List Nat) :=
  match r.cpu with
  | .signal => some ({ r with interrupter := r.interrupter + 1, cpu := .idle }, [])
  | .poll (work :: todo) nr => some ({ r.completeWork work with cpu := .poll todo nr }, [])
  | .poll [] nr => some (r.releaseRoom nr)
  | .stopping => some ({ r with interrupter := r.interrupter + 1, cpu := .destroyed }, [])
  | _ => none

def processWork (r : SyscallRunner ε) (work : Nat) : SyscallRunner ε :=
  match r.heap work with
  | none => { r with processed := r.processed ++ [work], fault := true }
  | some item =>
    let item := { item with ret := process item.errno (item.body.outcome item.errno) }
    { r with
      heap := Function.update r.heap work (some item)
      processed := r.processed ++ [work] }

/-- `respond_`: the result of the push is not looked at. -/
def respond_ (r : SyscallRunner ε) (work : Nat) : SyscallRunner ε :=
  let p := r.resultQueue.push work
  { r with resultQueue := p.1, lost := if p.2 then r.lost else r.lost ++ [work] }

def workerStep (r : SyscallRunner ε) : Option (SyscallRunner ε) :=
  match r.worker with
  | .loop => some { r with worker := if r.stop then .exited else .wait }
  | .wait => if r.interrupter = 0 then none else some { r with interrupter := 0, worker := .woken }
  | .woken => some { r with worker := if r.stop then .exited else .drain }
  | .drain =>
    match r.callQueue.items with
    | [] => some { r with worker := .loop }
    | work :: rest => some { r with worker := .consume [] (work :: rest) }
  | .consume done (work :: todo) =>
    some { r.processWork work with worker := .respond done work todo }
  | .respond done work todo =>
    some { r.respond_ work with worker := .consume (done ++ [work]) todo }
  | .consume done [] =>
    some { r with callQueue := r.callQueue.discard done.length, worker := .wake }
  | .wake => some { r with worker := .drain }
  | .exited => none

/-- `~Syscall_runner`, up to `interrupter_.signal(1)`. -/
def destroy (r : SyscallRunner ε) : SyscallRunner ε := { r with stop := true, cpu := .stopping }

end SyscallRunner

/-- A runner together with the continuations of `submit_` on the CPU's `task_queue_`. -/
structure RunnerState (ε : Type*) where
  runner : SyscallRunner ε
  tasks : List Nat

/-- What the two threads can do next. The CPU thread starts something new only outside the
code of the runner. -/
inductive RunnerAct (ε : Type*) where
  | submit (body : SyscallBody ε) (errno : Errno)
  | runTask
  | pollResults
  | destroy
  | cpu
  | worker

namespace RunnerState

def step (s : RunnerState ε) : RunnerAct ε → Option (RunnerState ε)
  | .submit body errno =>
    match s.runner.cpu with
    | .idle => some ⟨(s.runner.submit body errno).1, s.tasks ++ (s.runner.submit body errno).2⟩
    | _ => none
  | .runTask =>
    match s.runner.cpu, s.tasks with
    | .idle, work :: rest => some ⟨s.runner.pushWork work, rest⟩
    | _, _ => none
  | .pollResults =>
    match s.runner.cpu with
    | .idle => some ⟨s.runner.pollResults, s.tasks⟩
    | _ => none
  | .destroy =>
    match s.runner.cpu with
    | .idle => some ⟨s.runner.destroy, s.tasks⟩
    | _ => none
  | .cpu => s.runner.cpuStep.map fun p => ⟨p.1, s.tasks ++ p.2⟩
  | .worker => s.runner.workerStep.map fun r => ⟨r, s.tasks⟩

end RunnerState

def runnerMachine : Machine (RunnerState ε) (RunnerAct ε) where
  init := ⟨.init, []⟩
  step := RunnerState.step

end Miniss
