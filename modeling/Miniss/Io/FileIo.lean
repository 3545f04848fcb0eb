import Miniss.Lib.Machine
import Miniss.Util.Semaphore
import Miniss.Util.SystemError
import Mathlib.Logic.Function.Basic

/-! `File_io`: reads and writes go to the kernel's aio context when `aio_available_` grants
a slot, and `reap_io` takes their events back. A promise travels through the kernel as the
address in `aio_data`; a request is named by its rank in the order of the `submit_read` and
`submit_write` calls, and that name rides along with its iocb and its event. -/
namespace Miniss

def maxIo : Nat := 128

inductive AioOpcode where
  | pread
  | pwrite
  deriving DecidableEq

/-- A `std::span` of bytes by its address and its size. -/
structure Span where
  data : Nat
  size : Nat

/-- The fields of an `iocb` that `File_io` sets. `resfd` is `IOCB_FLAG_RESFD`, with
`aio_resfd` the eventfd of this `File_io`. -/
structure Iocb where
  aioData : Nat
  opcode : AioOpcode
  fildes : Int
  buf : Nat
  nbytes : Nat
  offset : Nat
  resfd : Bool

/-- The result of an I/O: a count, or an error number negated. Error numbers of the kernel
are at most 4095. -/
abbrev KernelRes := { res : Int // -4095 ≤ res }

structure IoEvent where
  data : Nat
  res : KernelRes

inductive SubmitRes where
  | accepted
  | failed (errno : Errno)

structure Request where
  id : Nat
  io : Iocb

/-- Continuations of `File_io` on the CPU's `task_queue_`: the one of
`aio_available_.wait()`, and the one of `submit_io_`. -/
inductive AioTask where
  | submit (rq : Request)
  | finish (id : Nat) (r : Except Exn IoEvent)

/-- Where the CPU thread stands in `reap_io`: the events it has yet to deliver, and how many
`io_getevents` returned. -/
inductive ReapPc where
  | idle
  | events (todo : List (IoEvent × Nat)) (n : Nat)

/-- `heap` tells which request the promise at an address belongs to; the fields from
`executed` on record the history of the run. -/
structure FileIo where
  aioAvailable : Semaphore Request
  heap : Nat → Option Nat
  eventfd : Nat
  kernel : List (Iocb × Nat)
  ready : List (IoEvent × Nat)
  reap : ReapPc
  requests : List Iocb
  executed : List Nat
  accepted : List Nat
  failed : List (Nat × Errno)
  reaped : List (Nat × IoEvent)
  settled : List (Nat × IoEvent)
  resolved : List (Nat × Except Exn Nat)
  fault : Bool

namespace FileIo

def init : FileIo where
  aioAvailable := ⟨maxIo, []⟩
  heap := fun _ => none
  eventfd := 0
  kernel := []
  ready := []
  reap := .idle
  requests := []
  executed := []
  accepted := []
  failed := []
  reaped := []
  settled := []
  resolved := []
  fault := false

/-- `submit_io_`, with the continuation it queues on the CPU when a slot is granted at
once. -/
def submitIo_ (f : FileIo) (io : Iocb) : FileIo × List AioTask :=
  let rq : Request := ⟨f.requests.length, { io with resfd := true }⟩
  let w := f.aioAvailable.wait 1 rq
  ({ f with aioAvailable := w.1, requests := f.requests ++ [rq.io] },
    if w.2 then [.submit rq] else [])

def newIocb (opcode : AioOpcode) (fd : Int) (pos : Nat) (bytes : Span) : Iocb where
  aioData := 0
  opcode := opcode
  fildes := fd
  buf := bytes.data
  nbytes := bytes.size
  offset := pos
  resfd := false

def submitWrite (f : FileIo) (fd : Int) (pos : Nat) (bytes : Span) : FileIo × List AioTask :=
  f.submitIo_ (newIocb .pwrite fd pos bytes)

def submitRead (f : FileIo) (fd : Int) (pos : Nat) (bytes : Span) : FileIo × List AioTask :=
  f.submitIo_ (newIocb .pread fd pos bytes)

/-- `submit_io_impl_`, with the address that `make_unique` gives and the result of
`io_submit`. Where that fails, the `unique_ptr` frees the promise and the continuation of
`submit_io_` gets the exception. -/
def submitIoImpl_ (f : FileIo) (rq : Request) (pr : Nat) : SubmitRes → FileIo × List AioTask
  | .accepted =>
    ({ f with
      heap := Function.update f.heap pr (some rq.id)
      kernel := f.kernel ++ [({ rq.io with aioData := pr }, rq.id)]
      executed := f.executed ++ [rq.id]
      accepted := f.accepted ++ [rq.id] }, [])
  | .failed errno =>
    ({ f with
      heap := Function.update f.heap pr none
      executed := f.executed ++ [rq.id]
      failed := f.failed ++ [(rq.id, errno)] },
      [.finish rq.id (.error (.systemError errno.val))])

/-- The continuation in `submit_write` and `submit_read`. -/
def thenResult : Except Exn IoEvent → Except Exn Nat
  | .error e => .error e
  | .ok ev =>
    match throwKernelError ev.res.val with
    | some e => .error e
    | none => .ok ev.res.val.toNat

def finish (f : FileIo) (id : Nat) (r : Except Exn IoEvent) : FileIo :=
  { f with resolved := f.resolved ++ [(id, thenResult r)] }

/-- The kernel completes the accepted iocb at place `k`: its event carries its
`aio_data`. -/
def completeIocb (f : FileIo) (k : Nat) (res : KernelRes) : Option FileIo :=
  f.kernel[k]?.map fun io =>
    { f with
      kernel := f.kernel.eraseIdx k
      ready := f.ready ++ [(⟨io.1.aioData, res⟩, io.2)]
      eventfd := if io.1.resfd then f.eventfd + 1 else f.eventfd }

/-- `reap_io` up to its loop: `io_getevents` returned `n` events. -/
def getevents (f : FileIo) (n : Nat) : FileIo :=
  { f with ready := f.ready.drop n, reap := .events (f.ready.take n) n }

/-- One round of that loop: the promise at the event's address is resolved and deleted. -/
def reapEvent (f : FileIo) (ev : IoEvent) (id : Nat) : FileIo × List AioTask :=
  match f.heap ev.data with
  | none => ({ f with reaped := f.reaped ++ [(id, ev)], fault := true }, [])
  | some p =>
    ({ f with
      heap := Function.update f.heap ev.data none
      reaped := f.reaped ++ [(id, ev)]
      settled := f.settled ++ [(p, ev)] }, [.finish p (.ok ev)])

/-- `aio_available_.release(n)` at the end of `reap_io`. -/
def releaseSlots (f : FileIo) (n : Nat) : FileIo × List AioTask :=
  let p := f.aioAvailable.release n
  ({ f with aioAvailable := p.1, reap := .idle }, (p.2.map AioTask.submit).toList)

def reapStep (f : FileIo) : Option (FileIo × List AioTask) :=
  match f.reap with
  | .idle => none
  | .events ((ev, id) :: todo) n =>
    some ({ (f.reapEvent ev id).1 with reap := .events todo n }, (f.reapEvent ev id).2)
  | .events [] n => some (f.releaseSlots n)

end FileIo

/-- A `File_io` together with its continuations on the CPU's `task_queue_`. -/
structure FileIoState where
  io : FileIo
  tasks : List AioTask

/-- What can happen next: a call, the front continuation (with the address that
`make_unique` gives and the result of `io_submit`), a completion in the kernel, and
`reap_io`. -/
inductive FileIoAct where
  | submitWrite (fd : Int) (pos : Nat) (bytes : Span)
  | submitRead (fd : Int) (pos : Nat) (bytes : Span)
  | runSubmit (pr : Nat) (res : SubmitRes)
  | runFinish
  | completeIocb (k : Nat) (res : KernelRes)
  | getevents (n : Nat)
  | geteventsFails
  | reap

namespace FileIoState

/-- A call or a continuation runs only outside `reap_io`, and `make_unique` gives an address
that is not in use. An `io_getevents` that fails throws before anything changes. -/
def step (s : FileIoState) : FileIoAct → Option FileIoState
  | .submitWrite fd pos bytes =>
    match s.io.reap with
    | .idle => some ⟨(s.io.submitWrite fd pos bytes).1,
        s.tasks ++ (s.io.submitWrite fd pos bytes).2⟩
    | _ => none
  | .submitRead fd pos bytes =>
    match s.io.reap with
    | .idle => some ⟨(s.io.submitRead fd pos bytes).1,
        s.tasks ++ (s.io.submitRead fd pos bytes).2⟩
    | _ => none
  | .runSubmit pr res =>
    match s.io.reap, s.tasks, s.io.heap pr with
    | .idle, .submit rq :: rest, none => some ⟨(s.io.submitIoImpl_ rq pr res).1,
        rest ++ (s.io.submitIoImpl_ rq pr res).2⟩
    | _, _, _ => none
  | .runFinish =>
    match s.io.reap, s.tasks with
    | .idle, .finish id r :: rest => some ⟨s.io.finish id r, rest⟩
    | _, _ => none
  | .completeIocb k res => (s.io.completeIocb k res).map fun f => ⟨f, s.tasks⟩
  | .getevents n =>
    match s.io.reap with
    | .idle =>
      if n ≤ maxIo ∧ n ≤ s.io.ready.length then some ⟨s.io.getevents n, s.tasks⟩ else none
    | _ => none
  | .geteventsFails =>
    match s.io.reap with
    | .idle => some s
    | _ => none
  | .reap => s.io.reapStep.map fun p => ⟨p.1, s.tasks ++ p.2⟩

end FileIoState

def fileIoMachine : Machine FileIoState FileIoAct where
  init := ⟨.init, []⟩
  step := FileIoState.step

end Miniss
