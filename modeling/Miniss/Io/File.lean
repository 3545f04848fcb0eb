import Miniss.Io.SyscallRunner
import Miniss.Io.FileIo

/-! Files of one CPU. A `File` issues its reads and writes through `File_io` and its close
through `Syscall_runner`; the continuations of both share the CPU's `task_queue_`. -/
namespace Miniss
variable {ε : Type*}

inductive CpuTask where
  | syscall (work : Nat)
  | aio (t : AioTask)

/-- What happened to the descriptor of a file: an iocb for it was passed to `io_submit`, or
the worker called `::close`. -/
inductive FileEvent where
  | issued (file : Nat)
  | closed (file : Nat)
  deriving DecidableEq

/-- `files` holds the `fd_` of each `File` that was opened. The history tells which file
each aio request is for, which file each system call closes, and the events in order. -/
structure IoCpu (ε : Type*) where
  runner : SyscallRunner ε
  io : FileIo
  taskQueue : List CpuTask
  files : List Int
  owners : List Nat
  closers : List (Option Nat)
  log : List FileEvent

/-- What the CPU thread, its worker and the kernel can do next. `close` and `destroy` carry
what `::close` will end with, `runTask` what a continuation of `File_io` gets from
`make_unique` and from `io_submit`. -/
inductive IoCpuAct (ε : Type*) where
  | opened (fd : Int)
  | dmaWrite (file pos : Nat) (bytes : Span)
  | dmaRead (file pos : Nat) (bytes : Span)
  | close (file : Nat) (ret : Int) (errno : Errno)
  | destroy (file : Nat) (ret : Int) (errno : Errno)
  | syscall (body : SyscallBody ε) (errno : Errno)
  | runTask (pr : Nat) (res : SubmitRes)
  | pollResults
  | getevents (n : Nat)
  | cpu
  | worker
  | completeIocb (k : Nat) (res : KernelRes)

namespace IoCpu

def init : IoCpu ε where
  runner := .init
  io := .init
  taskQueue := []
  files := []
  owners := []
  closers := []
  log := []

def atRest (s : IoCpu ε) : Bool :=
  match s.runner.cpu, s.io.reap with
  | .idle, .idle => true
  | _, _ => false

def withRunner (s : IoCpu ε) (p : SyscallRunner ε × List Nat) : IoCpu ε :=
  { s with runner := p.1, taskQueue := s.taskQueue ++ p.2.map .syscall }

def withIo (s : IoCpu ε) (p : FileIo × List AioTask) : IoCpu ε :=
  { s with io := p.1, taskQueue := s.taskQueue ++ p.2.map .aio }

/-- `CPU::submit_syscall`, for a call that closes the given file, or none. -/
def submitSyscall (s : IoCpu ε) (body : SyscallBody ε) (errno : Errno)
    (file : Option Nat) : IoCpu ε :=
  { s.withRunner (s.runner.submit body errno) with closers := s.closers ++ [file] }

/-- `submit_write` or `submit_read` for a file: both assert that it is open. -/
def dma (s : IoCpu ε) (file : Nat) (submit : Int → FileIo × List AioTask) :
    Option (IoCpu ε) :=
  match s.files[file]? with
  | none => none
  | some fd =>
    if 0 ≤ fd then some { s.withIo (submit fd) with owners := s.owners ++ [file] } else none

def dmaWrite (s : IoCpu ε) (file pos : Nat) (bytes : Span) : Option (IoCpu ε) :=
  s.dma file fun fd => s.io.submitWrite fd pos bytes

def dmaRead (s : IoCpu ε) (file pos : Nat) (bytes : Span) : Option (IoCpu ε) :=
  s.dma file fun fd => s.io.submitRead fd pos bytes

def close (s : IoCpu ε) (file : Nat) (ret : Int) (errno : Errno) : Option (IoCpu ε) :=
  match s.files[file]? with
  | none => none
  | some fd =>
    if fd = -1 then some s
    else some
      { s.submitSyscall (.int ret) errno (some file) with files := s.files.set file (-1) }

/-- `File::~File`; the handler it puts on the future of `close` only writes to the log. -/
def destroy (s : IoCpu ε) (file : Nat) (ret : Int) (errno : Errno) : Option (IoCpu ε) :=
  match s.files[file]? with
  | none => none
  | some fd => if fd = -1 then some s else s.close file ret errno

def runTask (s : IoCpu ε) (pr : Nat) (res : SubmitRes) : Option (IoCpu ε) :=
  match s.taskQueue with
  | [] => none
  | .syscall work :: rest =>
    some { s with runner := s.runner.pushWork work, taskQueue := rest }
  | .aio (.submit rq) :: rest =>
    match s.io.heap pr with
    | some _ => none
    | none => some
        { withIo { s with taskQueue := rest } (s.io.submitIoImpl_ rq pr res) with
          log := s.log ++ (s.owners[rq.id]?.map FileEvent.issued).toList }
  | .aio (.finish id r) :: rest =>
    some { s with io := s.io.finish id r, taskQueue := rest }

def cpuStep (s : IoCpu ε) : Option (IoCpu ε) :=
  match s.runner.cpuStep with
  | some p => some (s.withRunner p)
  | none => s.io.reapStep.map s.withIo

/-- The work that the worker's next step calls `process` on. -/
def processing (r : SyscallRunner ε) : Option Nat :=
  match r.worker with
  | .consume _ (work :: _) => some work
  | _ => none

/-- The worker's next step; `process` of a close calls `::close`. -/
def workerStep (s : IoCpu ε) : Option (IoCpu ε) :=
  s.runner.workerStep.map fun r =>
    { s with
      runner := r
      log := s.log ++ ((processing s.runner).bind fun work =>
        s.closers[work]?.join.map FileEvent.closed).toList }

def step (s : IoCpu ε) : IoCpuAct ε → Option (IoCpu ε)
  | .opened fd => if s.atRest ∧ 0 ≤ fd then some { s with files := s.files ++ [fd] } else none
  | .dmaWrite file pos bytes => if s.atRest then s.dmaWrite file pos bytes else none
  | .dmaRead file pos bytes => if s.atRest then s.dmaRead file pos bytes else none
  | .close file ret errno => if s.atRest then s.close file ret errno else none
  | .destroy file ret errno => if s.atRest then s.destroy file ret errno else none
  | .syscall body errno => if s.atRest then some (s.submitSyscall body errno none) else none
  | .runTask pr res => if s.atRest then s.runTask pr res else none
  | .pollResults =>
    if s.atRest then some { s with runner := s.runner.pollResults } else none
  | .getevents n =>
    if s.atRest ∧ n ≤ maxIo ∧ n ≤ s.io.ready.length then
      some { s with io := s.io.getevents n }
    else none
  | .cpu => s.cpuStep
  | .worker => s.workerStep
  | .completeIocb k res => (s.io.completeIocb k res).map fun f => { s with io := f }

end IoCpu

def ioCpuMachine : Machine (IoCpu ε) (IoCpuAct ε) where
  init := .init
  step := IoCpu.step

end Miniss
