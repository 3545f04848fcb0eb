import Miniss.Io.File
import Miniss.Io.Timer

/-! `CPU::run` of one CPU, with its timers, its syscall runner, its `File_io` and its
`task_queue_`. Each step is one step of the CPU thread, of its syscall worker, of the kernel,
or a signal from another thread. The other CPUs appear by what `poll_queues` finds, and the
user's code by what it asks of the CPU. -/
namespace Miniss
variable {ε : Type*}

/-- The two kinds of `task`: a `lambda_task`, and a `continuation` that `then` makes. -/
inductive TaskKind where
  | lambda
  | continuation
  deriving DecidableEq

inductive RunTask where
  | user (kind : TaskKind)
  | cpu (t : CpuTask)

/-- What called the user's code: `poll_tx`, or the loop of `run`, for the task with the given
rank, in a batch with `left` tasks to go. -/
inductive Body where
  | remote
  | task (kind : TaskKind) (rank left : Nat)
  deriving DecidableEq

/-- Where the CPU thread stands in `run`. In `Signal_poller::poll`: before it loads, before it
clears, in its loop over the handlers. In the other pollers: in `poll_queues`, before
`poll_results` and in it, in `io_getevents` and in `reap_io` behind it. Then: before the
emptiness test, in a batch, in the user's code, before `interrupter_.signal()` in a task of
`Syscall_runner`. In `run_idle_proc_`: before it masks the signals, before the test, in
`epoll_pwait`, before it unmasks. Last: an exception has left `run`, and `std::terminate` was
called. -/
inductive RunLoc where
  | signals
  | clear (signals : BitVec 64)
  | handlers (todo : List Nat)
  | ipc
  | syscalls
  | polling
  | getevents
  | reaping
  | test
  | batch (left : Nat)
  | body (k : Body)
  | signalling (left : Nat)
  | mask
  | pending
  | blocked
  | unmask
  | exited (e : Exn)
  | terminated

inductive RunEnd where
  | returned
  | threw (e : Exn)
  | terminated

/-- `lambda_task::run` and `continuation::run`, when the body ends as given. Both are
`noexcept`; in a continuation, `futurize::apply` has caught what the user's function throws. -/
def TaskKind.run : TaskKind → Except Exn Unit → RunEnd
  | _, .ok _ => .returned
  | .lambda, .error _ => .terminated
  | .continuation, .error _ => .returned

/-- The body's exception escapes it: a continuation turns that of the user's function into a
future. -/
def TaskKind.escapes : TaskKind → Except Exn Unit → Bool
  | .lambda, .error _ => true
  | _, _ => false

def eintr : Errno := ⟨4, by decide⟩

namespace RunLoc

def unmasked : RunLoc → Bool
  | .pending | .unmask | .exited _ | .terminated => false
  | _ => true

/-- Where a signal takes the thread that may interrupt the system call it is in. `epoll_pwait`
returns, and `run_idle_proc_` expects that. An `io_getevents` that is interrupted fails, and
`reap_io` throws; the pollers are called outside of the `try` of `run`. -/
def interrupted (loc : RunLoc) (interrupts : Bool) : RunLoc :=
  match loc with
  | .blocked => .unmask
  | .getevents =>
    match throwSystemErrorIf interrupts eintr with
    | some e => .exited e
    | none => .getevents
  | loc => loc

end RunLoc

def SyscallRunner.waking (r : SyscallRunner ε) : Bool :=
  match r.worker with
  | .wake => true
  | _ => false

/-- Tasks are named by their rank in the order they were appended to `task_queue_`. The fields
from `appended` on record the history: how many were appended, which were started, whose
bodies let an exception escape, and for which `run` logged one. -/
structure CpuRun (ε : Type*) where
  loc : RunLoc
  active : Bool
  pendingSignals : BitVec 64
  sigalrm : Bool
  clock : Int
  timers : TimerService RunTask
  runner : SyscallRunner ε
  io : FileIo
  taskQueue : List (RunTask × Nat)
  appended : Nat
  started : List Nat
  threw : List Nat
  logged : List Nat

/-- What can happen next. The CPU thread goes on (`attached` tells whether a promise that it
resolves has a continuation); a task calls `io_submit`; `poll_queues` calls a function, moves
items, or completes one; `io_getevents` returns. The user's code schedules, adds a timer, makes
a system call or an I/O request, and ends. A signal is delivered, and may interrupt a system
call; another thread sends one, time passes, the physical timer expires, `epoll_pwait`
returns an event, the worker makes a step, and the kernel completes an iocb. -/
inductive RunAct (ε : Type*) where
  | go (attached : Bool)
  | issue (pr : Nat) (res : SubmitRes)
  | remote
  | moved
  | answered (attached : Bool)
  | getevents (n : Nat)
  | schedule (kind : TaskKind)
  | addTimer (interval : Int) (kind : TaskKind)
  | syscall (body : SyscallBody ε) (errno : Errno)
  | dma (opcode : AioOpcode) (fd : Int) (pos : Nat) (bytes : Span)
  | finish (r : Except Exn Unit)
  | deliver (interrupts : Bool)
  | alarm
  | tick (clock : Int)
  | expire
  | event
  | worker
  | completeIocb (k : Nat) (res : KernelRes)

namespace CpuRun

def init (tasks : List RunTask) : CpuRun ε where
  loc := .signals
  active := false
  pendingSignals := 0
  sigalrm := false
  clock := 0
  timers := .init
  runner := .init
  io := .init
  taskQueue := tasks.zipIdx
  appended := tasks.length
  started := []
  threw := []
  logged := []

def schedule (s : CpuRun ε) (ts : List RunTask) : CpuRun ε :=
  { s with taskQueue := s.taskQueue ++ ts.zipIdx s.appended, appended := s.appended + ts.length }

def attach (attached : Bool) : List RunTask := if attached then [.user .continuation] else []

/-- The loop of `run` goes on behind `fn->run()`: what reaches its `catch` is logged. -/
def endTask (s : CpuRun ε) (rank left : Nat) : RunEnd → CpuRun ε
  | .returned => { s with loc := .batch left }
  | .threw _ => { s with loc := .batch left, logged := s.logged ++ [rank] }
  | .terminated => { s with loc := .terminated }

/-- A task is taken from the front of `task_queue_`. One that calls `io_submit` makes another
step. -/
def startTask (s : CpuRun ε) (attached : Bool) (left rank : Nat) : RunTask → Option (CpuRun ε)
  | .user kind => some { s with loc := .body (.task kind rank left) }
  | .cpu (.syscall work) =>
    some { s with runner := s.runner.pushWork work, loc := .signalling left }
  | .cpu (.aio (.finish id r)) =>
    some (schedule { s with io := s.io.finish id r, loc := .batch left } (attach attached))
  | .cpu (.aio (.submit _)) => none

def batchStep (s : CpuRun ε) (attached : Bool) : Nat → Option (CpuRun ε)
  | 0 => some { s with loc := .signals }
  | left + 1 =>
    match s.taskQueue with
    | [] => some { s with loc := .signals }
    | (t, rank) :: rest =>
      startTask { s with taskQueue := rest, started := s.started ++ [rank] } attached left rank t

/-- `poll_results` behind the pop. -/
def pollStep (s : CpuRun ε) (attached : Bool) : Option (CpuRun ε) :=
  match s.runner.cpu with
  | .poll (work :: todo) nr => some (schedule
      { s with runner := { s.runner.completeWork work with cpu := .poll todo nr } }
      (attach attached))
  | .poll [] nr => some (schedule
      { s with
        runner := (s.runner.releaseRoom nr).1
        active := s.active || decide (0 < nr)
        loc := .getevents }
      ((s.runner.releaseRoom nr).2.map fun work => .cpu (.syscall work)))
  | _ => none

/-- `reap_io` behind `io_getevents`. -/
def reapStep (s : CpuRun ε) : Option (CpuRun ε) :=
  match s.io.reap with
  | .events ((ev, id) :: todo) n => some (schedule
      { s with io := { (s.io.reapEvent ev id).1 with reap := .events todo n } }
      ((s.io.reapEvent ev id).2.map fun t => .cpu (.aio t)))
  | .events [] n => some (schedule
      { s with
        io := (s.io.releaseSlots n).1
        active := s.active || decide (0 < n)
        loc := .test }
      ((s.io.releaseSlots n).2.map fun t => .cpu (.aio t)))
  | .idle => none

def loopStep (s : CpuRun ε) (attached : Bool) : Option (CpuRun ε) :=
  match s.loc with
  | .signals => some
      { s with
        active := false
        loc := if s.pendingSignals = 0 then .ipc else .clear s.pendingSignals }
  | .clear signals => some
      { s with
        active := true
        pendingSignals := s.pendingSignals &&& ~~~signals
        loc := .handlers (handledSignals signals) }
  | .handlers (_ :: todo) => some
      { s with timers := { s.timers with pc := .complete s.clock }, loc := .handlers todo }
  | .handlers [] => some { s with loc := .ipc }
  | .ipc => some { s with loc := .syscalls }
  | .syscalls => some { s with runner := s.runner.pollResults, loc := .polling }
  | .polling => s.pollStep attached
  | .reaping => s.reapStep
  | .test => some
      { s with loc := if s.taskQueue.isEmpty ∧ s.active = false then .mask else .batch 8 }
  | .batch left => s.batchStep attached left
  | .signalling left =>
    some { s with runner := { s.runner with interrupter := s.runner.interrupter + 1, cpu := .idle },
                  loc := .batch left }
  | .mask => some { s with loc := .pending }
  | .pending => some { s with loc := if s.pendingSignals = 0 then .blocked else .unmask }
  | .unmask => some { s with loc := .signals }
  | .getevents | .body _ | .blocked | .exited _ | .terminated => none

/-- The CPU thread goes on in `Timer_service`, or else in the loop of `run`. -/
def go (s : CpuRun ε) (attached : Bool) : Option (CpuRun ε) :=
  match s.timers.pc with
  | .rearm => some
      { s with
        timers := (s.timers.rearmTimer_ s.clock).1
        sigalrm := s.sigalrm || (s.timers.rearmTimer_ s.clock).2
        loc := if (s.timers.rearmTimer_ s.clock).1.terminated then .terminated else s.loc }
  | .complete now => some
      (schedule { s with timers := (s.timers.completeTimers now).1 }
        (s.timers.completeTimers now).2)
  | .idle => s.loopStep attached

def issue (s : CpuRun ε) (pr : Nat) (res : SubmitRes) : Option (CpuRun ε) :=
  match s.loc, s.taskQueue, s.io.heap pr with
  | .batch (left + 1), (.cpu (.aio (.submit rq)), rank) :: rest, none => some (schedule
      { s with
        io := (s.io.submitIoImpl_ rq pr res).1
        taskQueue := rest
        started := s.started ++ [rank]
        loc := .batch left }
      ((s.io.submitIoImpl_ rq pr res).2.map fun t => .cpu (.aio t)))
  | _, _, _ => none

/-- `poll_queues` found something to do: it goes on there, or in the user's function. -/
def ipcStep (s : CpuRun ε) (loc : RunLoc) (ts : List RunTask) : Option (CpuRun ε) :=
  match s.loc with
  | .ipc => some (schedule { s with active := true, loc := loc } ts)
  | _ => none

def geteventsStep (s : CpuRun ε) (n : Nat) : Option (CpuRun ε) :=
  match s.loc with
  | .getevents =>
    if n ≤ maxIo ∧ n ≤ s.io.ready.length then
      some { s with io := s.io.getevents n, loc := .reaping }
    else none
  | _ => none

def inBody (s : CpuRun ε) : Bool :=
  match s.loc, s.timers.pc with
  | .body _, .idle => true
  | _, _ => false

/-- `CPU::schedule_after`, with a deadline that is positive and below `time_point::max()`. -/
def addTimer (s : CpuRun ε) (interval : Int) (kind : TaskKind) : Option (CpuRun ε) :=
  if s.inBody ∧ 0 < s.clock + interval ∧ s.clock + interval < timePointMax then
    some { s with timers := s.timers.addTimer s.clock interval (.user kind) }
  else none

def submitSyscall (s : CpuRun ε) (body : SyscallBody ε) (errno : Errno) : CpuRun ε :=
  schedule { s with runner := (s.runner.submit body errno).1 }
    ((s.runner.submit body errno).2.map fun work => .cpu (.syscall work))

/-- `submit_read` and `submit_write`. -/
def submitIo (s : CpuRun ε) (io : Iocb) : CpuRun ε :=
  schedule { s with io := (s.io.submitIo_ io).1 }
    ((s.io.submitIo_ io).2.map fun t => .cpu (.aio t))

/-- The user's code ends. `Work_item_impl::process` keeps the exception of a function that
`poll_tx` called. -/
def finish (s : CpuRun ε) (r : Except Exn Unit) : Option (CpuRun ε) :=
  match s.loc, s.timers.pc with
  | .body .remote, .idle => some { s with loc := .ipc }
  | .body (.task kind rank left), .idle => some
      (endTask { s with threw := if kind.escapes r then s.threw ++ [rank] else s.threw } rank left
        (kind.run r))
  | _, _ => none

def deliver (s : CpuRun ε) (interrupts : Bool) : Option (CpuRun ε) :=
  if s.sigalrm ∧ s.loc.unmasked then some
    { s with
      sigalrm := false
      pendingSignals := s.pendingSignals ||| sigalrmBit
      loc := s.loc.interrupted interrupts }
  else none

/-- `epoll_pwait` returns, since the eventfd of `File_io` can be read. -/
def event (s : CpuRun ε) : Option (CpuRun ε) :=
  match s.loc with
  | .blocked => if 0 < s.io.eventfd then some { s with loc := .unmask } else none
  | _ => none

/-- The worker's next step: before it drains again, it wakes the CPU up. -/
def workerStep (s : CpuRun ε) : Option (CpuRun ε) :=
  s.runner.workerStep.map fun r =>
    { s with runner := r, sigalrm := s.sigalrm || s.runner.waking }

def step (s : CpuRun ε) : RunAct ε → Option (CpuRun ε)
  | .go attached => s.go attached
  | .issue pr res => s.issue pr res
  | .remote => s.ipcStep (.body .remote) []
  | .moved => s.ipcStep .ipc []
  | .answered attached => s.ipcStep .ipc (attach attached)
  | .getevents n => s.geteventsStep n
  | .schedule kind => if s.inBody then some (s.schedule [.user kind]) else none
  | .addTimer interval kind => s.addTimer interval kind
  | .syscall body errno => if s.inBody then some (s.submitSyscall body errno) else none
  | .dma opcode fd pos bytes =>
    if s.inBody then some (s.submitIo (FileIo.newIocb opcode fd pos bytes)) else none
  | .finish r => s.finish r
  | .deliver interrupts => s.deliver interrupts
  | .alarm => some { s with sigalrm := true }
  | .tick clock => if s.clock ≤ clock then some { s with clock := clock } else none
  | .expire => (s.timers.expire s.clock).map fun v => { s with timers := v, sigalrm := true }
  | .event => s.event
  | .worker => s.workerStep
  | .completeIocb k res => (s.io.completeIocb k res).map fun f => { s with io := f }

end CpuRun

def cpuRunMachine (tasks : List RunTask) : Machine (CpuRun ε) (RunAct ε) where
  init := .init tasks
  step := CpuRun.step

end Miniss
