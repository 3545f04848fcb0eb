import Miniss.Lib.Machine
import Miniss.Lib.SortedMap
import Miniss.Poller.SignalPoller
import Mathlib.Algebra.Order.Ring.Int

/-! `Timer_service`: tasks by their deadlines, and one physical timer of the thread that
raises `SIGALRM`. The clock, the kernel's timer and other threads go on between any two steps
of the CPU thread. Times are nanoseconds. -/
namespace Miniss
variable {τ : Type*}

structure Timespec where
  sec : Int
  nsec : Int

def toTimespec (t : Int) : Timespec := ⟨t.tdiv 1000000000, t.tmod 1000000000⟩

/-- `timer_settime` with `TIMER_ABSTIME` and no interval, at the given time: what the timer is
armed with, and whether it expires at once. It fails on a time that is no `timespec`, and a
zero disarms. -/
def timerSettime (clock : Int) (its : Timespec) : Option (Option Int × Bool) :=
  let t := its.sec * 1000000000 + its.nsec
  if its.sec < 0 ∨ its.nsec < 0 ∨ 1000000000 ≤ its.nsec then none
  else if t = 0 then some (none, false)
  else if t ≤ clock then some (none, true)
  else some (some t, false)

def timePointMax : Int := 2 ^ 63 - 1

/-- Where the CPU thread stands in `Timer_service`: before `rearm_timer_`, or in
`complete_timers` with the time it has read. -/
inductive TimerPc where
  | idle
  | rearm
  | complete (now : Int)
  deriving DecidableEq

/-- `physicalTimer` is the time it is armed with. -/
structure TimerService (τ : Type*) where
  timers : SortedMap Int τ
  physicalTimer : Option Int
  pc : TimerPc
  terminated : Bool

namespace TimerService

def init : TimerService τ := ⟨.empty, none, .idle, false⟩

/-- `add_timer` up to `rearm_timer_`, where it reads the given time. -/
def addTimer (s : TimerService τ) (now interval : Int) (t : τ) : TimerService τ :=
  let newDeadline := now + interval
  let oldDeadline := s.timers.firstKey?.getD timePointMax
  { s with
    timers := s.timers.pushBack newDeadline t
    pc := if newDeadline < oldDeadline then .rearm else .idle }

/-- `complete_timers` behind its reading of the clock, up to `rearm_timer_`: the service and
the tasks that are scheduled. -/
def completeTimers (s : TimerService τ) (now : Int) : TimerService τ × List τ :=
  let timers := s.timers.after now
  ({ s with timers := timers, pc := if timers.entries.isEmpty then .idle else .rearm },
    (s.timers.upTo now).flatMap Prod.snd)

/-- `rearm_timer_`, and whether the physical timer expires at once. -/
def rearmTimer_ (s : TimerService τ) (clock : Int) : TimerService τ × Bool :=
  match s.timers.firstKey? with
  | none => ({ s with terminated := true }, false)
  | some t =>
    match timerSettime clock (toTimespec t) with
    | none => ({ s with terminated := true }, false)
    | some (armed, expired) => ({ s with physicalTimer := armed, pc := .idle }, expired)

/-- The physical timer expires, once its time has come. -/
def expire (s : TimerService τ) (clock : Int) : Option (TimerService τ) :=
  match s.physicalTimer with
  | none => none
  | some t => if t ≤ clock then some { s with physicalTimer := none } else none

end TimerService

/-- Where the CPU thread stands in `Signal_poller::poll`: before it clears the signals it has
loaded, or in its loop over the handlers. -/
inductive PollerPc where
  | idle
  | clear (signals : BitVec 64)
  | handlers (todo : List Nat)
  deriving DecidableEq

inductive TimerEvent where
  | added (task : Nat) (deadline : Int)
  | completed (now : Int) (tasks : List Nat)

/-- A CPU with its timers. A task is named by its rank in the order of the `add_timer` calls.
`sigalrm` says whether a `SIGALRM` is pending for the thread, `taskQueue` holds all that was
appended to `task_queue_`, and the log tells what happened, in order. -/
structure TimerCpu where
  service : TimerService Nat
  clock : Int
  sigalrm : Bool
  pendingSignals : BitVec 64
  poller : PollerPc
  taskQueue : List Nat
  nextTask : Nat
  log : List TimerEvent

/-- What can happen next: the clock advances, a call of `add_timer` or `complete_timers`,
`Signal_poller::poll`, the CPU thread goes on, another thread sends `SIGALRM`, a pending one
is delivered, and the physical timer expires. -/
inductive TimerAct where
  | tick (clock : Int)
  | addTimer (interval : Int)
  | completeTimers
  | poll
  | go
  | alarm
  | deliver
  | expire

namespace TimerCpu

def init (clock : Int) : TimerCpu where
  service := .init
  clock := clock
  sigalrm := false
  pendingSignals := 0
  poller := .idle
  taskQueue := []
  nextTask := 0
  log := []

def atRest (s : TimerCpu) : Bool := s.service.pc == .idle && s.poller == .idle

/-- The CPU thread goes on in `Timer_service`, or else in `Signal_poller::poll`. -/
def go (s : TimerCpu) : Option TimerCpu :=
  match s.service.pc with
  | .rearm =>
    let r := s.service.rearmTimer_ s.clock
    some { s with service := r.1, sigalrm := s.sigalrm || r.2 }
  | .complete now =>
    let r := s.service.completeTimers now
    some
      { s with
        service := r.1
        taskQueue := s.taskQueue ++ r.2
        log := s.log ++ [.completed now r.2] }
  | .idle =>
    match s.poller with
    | .clear signals => some
        { s with
          pendingSignals := s.pendingSignals &&& ~~~signals
          poller := .handlers (handledSignals signals) }
    | .handlers (_ :: todo) => some
        { s with
          service := { s.service with pc := .complete s.clock }
          poller := .handlers todo }
    | .handlers [] => some { s with poller := .idle }
    | .idle => none

/-- `add_timer` is called with deadlines that are positive and below `time_point::max()`. -/
def step (s : TimerCpu) : TimerAct → Option TimerCpu
  | .tick clock => if s.clock ≤ clock then some { s with clock := clock } else none
  | .addTimer interval =>
    if s.atRest ∧ 0 < s.clock + interval ∧ s.clock + interval < timePointMax then some
      { s with
        service := s.service.addTimer s.clock interval s.nextTask
        nextTask := s.nextTask + 1
        log := s.log ++ [.added s.nextTask (s.clock + interval)] }
    else none
  | .completeTimers =>
    if s.atRest then some { s with service := { s.service with pc := .complete s.clock } }
    else none
  | .poll =>
    if s.atRest then some
      { s with
        poller := if s.pendingSignals = 0 then .idle else .clear s.pendingSignals }
    else none
  | .go => s.go
  | .alarm => some { s with sigalrm := true }
  | .deliver =>
    if s.sigalrm then some
      { s with sigalrm := false, pendingSignals := s.pendingSignals ||| sigalrmBit }
    else none
  | .expire => (s.service.expire s.clock).map fun v => { s with service := v, sigalrm := true }

end TimerCpu

def timerMachine (clock : Int) : Machine TimerCpu TimerAct where
  init := .init clock
  step := TimerCpu.step

end Miniss
