import Miniss.CrossCpuQueue
import Miniss.Poller.SignalPoller

/-! The run loops of all CPUs, with the rings between them and their signals. Each step is
one access to shared state by one CPU, by a syscall worker or by the kernel. The functions
and tasks of the user are not modelled: they submit, respond and schedule as they like, and
the number of tasks that a poller queues is any. -/
namespace Miniss
variable {α : Type*}

/-- `tx_` or `rx_` of the queue from CPU `i` to CPU `j`. -/
inductive Ring where
  | tx (i j : Nat)
  | rx (i j : Nat)
  deriving DecidableEq

def Ring.producer : Ring → Nat
  | .tx i _ => i
  | .rx _ j => j

def Ring.consumer : Ring → Nat
  | .tx _ j => j
  | .rx i _ => i

/-- The pollers behind `Signal_poller`, with `Ipc_poller` by its calls. -/
inductive Poller where
  | ipc (call : PollCall)
  | syscalls
  | fileIo
  deriving DecidableEq

/-- `CPU::init_pollers_`, behind `Signal_poller`. -/
def pollers (cpuCount cpu : Nat) : List Poller :=
  (pollQueues cpuCount cpu).map .ipc ++ [.syscalls, .fileIo]

/-- What called the user's code: `poll_tx`, or the loop over the tasks of a batch. -/
inductive Caller (α : Type*) where
  | process (todo : List α) (ops : List Poller)
  | task (left : Nat)
  deriving DecidableEq

inductive Frame (α : Type*) where
  | poll (ops : List Poller)
  | user (k : Caller α)
  deriving DecidableEq

/-- Where a CPU stands in `run`: before `Signal_poller::poll` loads, before it clears, before
a poller, in the loop of `flush` with the number of items moved, before `maybe_wakeup`, in
the loop of `poll_tx`, in the user's code, in a batch of tasks, and in `run_idle_proc_`
before it masks the signals, before the test, in `epoll_pwait`, and before it unmasks. -/
inductive CpuLoc (α : Type*) where
  | load
  | clear (signals : BitVec 64)
  | poll (ops : List Poller)
  | flush (q : Ring) (n : Nat) (k : Frame α)
  | wakeup (q : Ring) (k : Frame α)
  | process (todo : List α) (ops : List Poller)
  | user (k : Caller α)
  | batch (left : Nat)
  | mask
  | test
  | blocked
  | unmask
  deriving DecidableEq

/-- A CPU. `sigalrm` says whether a `SIGALRM` is pending for its thread, `taskQueue` and
`results` count the entries of `task_queue_` and `result_queue_`, `unsignalled` that its
worker pushed results and has not called `maybe_wakeup`, and `stalled` that a `flush_tx` or
`flush_rx` of this pass of the loop found the ring full with items left. -/
structure Cpu (α : Type*) where
  loc : CpuLoc α
  active : Bool
  pendingSignals : BitVec 64
  sigalrm : Bool
  taskQueue : Nat
  results : Nat
  unsignalled : Bool
  stalled : Bool

structure Os (α : Type*) where
  cpus : Nat → Cpu α
  rings : Ring → UnboundedSpscQueue α

/-- What can happen next: a CPU goes on outside the user's code (with the number of tasks
that a poller queues, and whether `reap_io` reaped anything), the user's code submits to
CPU `j`, responds to CPU `i`, schedules a task or returns, a signal is delivered, a timer
fires, `epoll_pwait` returns an event, and the worker pushes a result or signals. -/
inductive OsAct (α : Type*) where
  | go (cpu tasks : Nat) (reaped : Bool)
  | submit (cpu j : Nat) (item : α)
  | respond (cpu i : Nat) (item : α)
  | schedule (cpu : Nat)
  | done (cpu : Nat)
  | deliver (cpu : Nat)
  | timer (cpu : Nat)
  | event (cpu : Nat)
  | pushResult (cpu : Nat)
  | signal (cpu : Nat)

def OsAct.cpu : OsAct α → Nat
  | .go cpu _ _ | .submit cpu _ _ | .respond cpu _ _ | .schedule cpu | .done cpu
  | .deliver cpu | .timer cpu | .event cpu | .pushResult cpu | .signal cpu => cpu

def Frame.resume : Frame α → CpuLoc α
  | .poll ops => .poll ops
  | .user k => .user k

def Frame.isPoll : Frame α → Bool
  | .poll _ => true
  | .user _ => false

/-- `SIGALRM` is masked in `run_idle_proc_`, except within `epoll_pwait`. -/
def CpuLoc.masked : CpuLoc α → Bool
  | .test | .unmask => true
  | _ => false

namespace Cpu

def init (tasks : Nat) : Cpu α where
  loc := .load
  active := false
  pendingSignals := 0
  sigalrm := false
  taskQueue := tasks
  results := 0
  unsignalled := false
  stalled := false

/-- A pending `SIGALRM` runs `dispatch_signal`, and ends `epoll_pwait`. -/
def deliver (cpu : Cpu α) : Cpu α :=
  { cpu with
    sigalrm := false
    pendingSignals := cpu.pendingSignals ||| sigalrmBit
    loc := match cpu.loc with
      | .blocked => .unmask
      | loc => loc }

/-- The end of `flush` that moved `n` items, with items left over or not. -/
def endFlush (cpu : Cpu α) (q : Ring) (n : Nat) (k : Frame α) (left : Bool) : Cpu α :=
  { cpu with
    loc := if 0 < n then .wakeup q k else k.resume
    stalled := cpu.stalled || (k.isPoll && left) }

/-- Behind `maybe_wakeup`: the flush returns true. -/
def endWakeup (cpu : Cpu α) (k : Frame α) : Cpu α :=
  { cpu with loc := k.resume, active := cpu.active || k.isPoll }

end Cpu

namespace Os

/-- CPU 0 starts with the task of the application. -/
def init : Os α where
  cpus cpu := if cpu = 0 then .init 1 else .init 0
  rings _ := .empty

def setCpu (s : Os α) (c : Nat) (cpu : Cpu α) : Os α :=
  { s with cpus := Function.update s.cpus c cpu }

def setRing (s : Os α) (r : Ring) (q : UnboundedSpscQueue α) : Os α :=
  { s with rings := Function.update s.rings r q }

def wakeup (s : Os α) (c : Nat) : Os α := s.setCpu c { s.cpus c with sigalrm := true }

/-- A CPU goes on with the given poller, and then with `ops`. -/
def pollStep (s : Os α) (c tasks : Nat) (reaped : Bool) (ops : List Poller) :
    Poller → Os α
  | .ipc (.flushTx i j) => s.setCpu c { s.cpus c with loc := .flush (.tx i j) 0 (.poll ops) }
  | .ipc (.pollRx i j) =>
    let p := (s.rings (.rx i j)).popBatch
    (s.setRing (.rx i j) p.2).setCpu c
      { s.cpus c with
        loc := .poll ops
        active := (s.cpus c).active || !p.1.isEmpty
        taskQueue := (s.cpus c).taskQueue + tasks }
  | .ipc (.flushRx i j) => s.setCpu c { s.cpus c with loc := .flush (.rx i j) 0 (.poll ops) }
  | .ipc (.pollTx i j) =>
    let p := (s.rings (.tx i j)).popBatch
    (s.setRing (.tx i j) p.2).setCpu c
      { s.cpus c with
        loc := .process p.1 ops
        active := (s.cpus c).active || !p.1.isEmpty }
  | .syscalls =>
    s.setCpu c
      { s.cpus c with
        loc := .poll ops
        active := (s.cpus c).active || decide (0 < (s.cpus c).results)
        results := 0
        taskQueue := (s.cpus c).taskQueue + tasks }
  | .fileIo =>
    s.setCpu c
      { s.cpus c with
        loc := .poll ops
        active := (s.cpus c).active || reaped
        taskQueue := (s.cpus c).taskQueue + tasks }

def go (cpuCount : Nat) (s : Os α) (c tasks : Nat) (reaped : Bool) : Option (Os α) :=
  match (s.cpus c).loc with
  | .load => some (s.setCpu c
      { s.cpus c with
        loc := if (s.cpus c).pendingSignals = 0 then .poll (pollers cpuCount c)
          else .clear (s.cpus c).pendingSignals
        active := false
        stalled := false })
  | .clear signals => some (s.setCpu c
      { s.cpus c with
        loc := .poll (pollers cpuCount c)
        active := true
        pendingSignals := (s.cpus c).pendingSignals &&& ~~~signals
        taskQueue := (s.cpus c).taskQueue + tasks })
  | .poll (op :: ops) => some (s.pollStep c tasks reaped ops op)
  | .poll [] => some (s.setCpu c
      { s.cpus c with
        loc := if (s.cpus c).taskQueue = 0 ∧ (s.cpus c).active = false then .mask
          else .batch 8 })
  | .flush q n k =>
    match (s.rings q).flushRound with
    | some r => some ((s.setRing q r).setCpu c { s.cpus c with loc := .flush q (n + 1) k })
    | none => some (s.setCpu c
        ((s.cpus c).endFlush q n k !(s.rings q).queueBuffer.isEmpty))
  | .wakeup q k => some ((s.setCpu c ((s.cpus c).endWakeup k)).wakeup q.consumer)
  | .process (_ :: todo) ops => some (s.setCpu c
      { s.cpus c with loc := .user (.process todo ops) })
  | .process [] ops => some (s.setCpu c { s.cpus c with loc := .poll ops })
  | .batch left => some (s.setCpu c
      (if 0 < left ∧ 0 < (s.cpus c).taskQueue then
        { s.cpus c with
          loc := .user (.task (left - 1))
          taskQueue := (s.cpus c).taskQueue - 1 }
      else { s.cpus c with loc := .load }))
  | .mask => some (s.setCpu c { s.cpus c with loc := .test })
  | .test => some (s.setCpu c
      { s.cpus c with loc := if (s.cpus c).pendingSignals = 0 then .blocked else .unmask })
  | .unmask => some (s.setCpu c { s.cpus c with loc := .load })
  | .user _ | .blocked => none

/-- `submit_` and `respond_` from the user's code, up to the loop of `flush`. -/
def push (s : Os α) (c : Nat) (k : Caller α) (r : Ring) (item : α) : Os α :=
  let p := (s.rings r).push item
  (s.setRing r p.1).setCpu c
    { s.cpus c with loc := if p.2 then .flush r 0 (.user k) else .user k }

/-- The user's code: `OS::submit_to`, the continuation that calls `respond_`, a task that is
queued, and the end. -/
def userStep (cpuCount : Nat) (s : Os α) (c : Nat) (k : Caller α) : OsAct α → Option (Os α)
  | .submit _ j item =>
    if submitTo c j = some (c, j) ∧ j < cpuCount then some (s.push c k (.tx c j) item) else none
  | .respond _ i item =>
    match k with
    | .task _ => if i ≠ c ∧ i < cpuCount then some (s.push c k (.rx i c) item) else none
    | .process _ _ => none
  | .schedule _ => some (s.setCpu c { s.cpus c with taskQueue := (s.cpus c).taskQueue + 1 })
  | .done _ => some (s.setCpu c
      { s.cpus c with
        loc := match k with
          | .process todo ops => .process todo ops
          | .task left => .batch left })
  | _ => none

def outerStep (s : Os α) (c : Nat) : OsAct α → Option (Os α)
  | .deliver _ =>
    if (s.cpus c).sigalrm ∧ (s.cpus c).loc.masked = false then
      some (s.setCpu c (s.cpus c).deliver)
    else none
  | .timer _ => some (s.wakeup c)
  | .event _ =>
    match (s.cpus c).loc with
    | .blocked => some (s.setCpu c { s.cpus c with loc := .unmask })
    | _ => none
  | .pushResult _ =>
    if (s.cpus c).results < 128 then
      some (s.setCpu c
        { s.cpus c with results := (s.cpus c).results + 1, unsignalled := true })
    else none
  | .signal _ =>
    if (s.cpus c).unsignalled then
      some (s.setCpu c { s.cpus c with sigalrm := true, unsignalled := false })
    else none
  | _ => none

def step (cpuCount : Nat) (s : Os α) (a : OsAct α) : Option (Os α) :=
  if a.cpu < cpuCount then
    match a with
    | .go c tasks reaped => s.go cpuCount c tasks reaped
    | .deliver _ | .timer _ | .event _ | .pushResult _ | .signal _ => s.outerStep a.cpu a
    | .submit _ _ _ | .respond _ _ _ | .schedule _ | .done _ =>
      match (s.cpus a.cpu).loc with
      | .user k => s.userStep cpuCount a.cpu k a
      | _ => none
  else none

end Os

def osMachine (cpuCount : Nat) : Machine (Os α) (OsAct α) where
  init := .init
  step := Os.step cpuCount

end Miniss
