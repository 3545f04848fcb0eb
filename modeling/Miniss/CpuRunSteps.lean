import Miniss.CpuRun
import Miniss.Io.SyscallSteps
import Miniss.Io.FileIoSteps

/-! What one step of `CPU::run` can do, said once. -/
namespace Miniss
variable {ε : Type*}

/-- What the other threads, the kernel and the clock leave as it is. -/
structure CpuRun.Elsewhere (s t : CpuRun ε) : Prop where
  loc : t.loc = s.loc
  active : t.active = s.active
  timers : t.timers.timers = s.timers.timers
  pc : t.timers.pc = s.timers.pc
  running : t.timers.terminated = s.timers.terminated
  cpu : t.runner.cpu = s.runner.cpu
  room : t.runner.queueHasRoom = s.runner.queueHasRoom
  reap : t.io.reap = s.io.reap
  heap : t.io.heap = s.io.heap
  aio : t.io.aioAvailable = s.io.aioAvailable
  taskQueue : t.taskQueue = s.taskQueue
  appended : t.appended = s.appended
  started : t.started = s.started
  threw : t.threw = s.threw
  logged : t.logged = s.logged

/-- The steps of the other threads, the kernel and the clock, but for the delivery of a
signal. -/
def RunAct.elsewhere : RunAct ε → Bool
  | .alarm | .tick _ | .expire | .worker | .completeIocb .. => true
  | _ => false

/-- Where `poll_queues` goes on with what it found, and the tasks that are scheduled. -/
def RunAct.found : RunAct ε → Option (RunLoc × List RunTask)
  | .remote => some (.body .remote, [])
  | .moved => some (.ipc, [])
  | .answered attached => some (.ipc, CpuRun.attach attached)
  | _ => none

open CpuRun SyscallRunner

inductive CpuRunStep (s : CpuRun ε) : RunAct ε → CpuRun ε → Prop where
  | elsewhere (a : RunAct ε) (t : CpuRun ε) (ha : a.elsewhere = true) (h : s.Elsewhere t) :
      CpuRunStep s a t
  | delivered (interrupts : Bool) (hs : s.sigalrm = true) (hu : s.loc.unmasked = true) :
      CpuRunStep s (.deliver interrupts)
        { s with
          sigalrm := false
          pendingSignals := s.pendingSignals ||| sigalrmBit
          loc := s.loc.interrupted interrupts }
  | rearmed (attached : Bool) (hpc : s.timers.pc = .rearm) :
      CpuRunStep s (.go attached)
        { s with
          timers := (s.timers.rearmTimer_ s.clock).1
          sigalrm := s.sigalrm || (s.timers.rearmTimer_ s.clock).2
          loc := if (s.timers.rearmTimer_ s.clock).1.terminated then .terminated else s.loc }
  | completed (attached : Bool) (now : Int) (hpc : s.timers.pc = .complete now) :
      CpuRunStep s (.go attached)
        (schedule { s with timers := (s.timers.completeTimers now).1 }
          (s.timers.completeTimers now).2)
  | loaded (attached : Bool) (hpc : s.timers.pc = .idle) (hl : s.loc = .signals) :
      CpuRunStep s (.go attached)
        { s with
          active := false
          loc := if s.pendingSignals = 0 then .ipc else .clear s.pendingSignals }
  | cleared (attached : Bool) (signals : BitVec 64) (hpc : s.timers.pc = .idle)
      (hl : s.loc = .clear signals) :
      CpuRunStep s (.go attached)
        { s with
          active := true
          pendingSignals := s.pendingSignals &&& ~~~signals
          loc := .handlers (handledSignals signals) }
  | handling (attached : Bool) (i : Nat) (todo : List Nat) (hpc : s.timers.pc = .idle)
      (hl : s.loc = .handlers (i :: todo)) :
      CpuRunStep s (.go attached)
        { s with timers := { s.timers with pc := .complete s.clock }, loc := .handlers todo }
  | handled (attached : Bool) (hpc : s.timers.pc = .idle) (hl : s.loc = .handlers []) :
      CpuRunStep s (.go attached) { s with loc := .ipc }
  | found (a : RunAct ε) (loc : RunLoc) (ts : List RunTask) (ha : a.found = some (loc, ts))
      (hl : s.loc = .ipc) :
      CpuRunStep s a (schedule { s with active := true, loc := loc } ts)
  | polledQueues (attached : Bool) (hpc : s.timers.pc = .idle) (hl : s.loc = .ipc) :
      CpuRunStep s (.go attached) { s with loc := .syscalls }
  | popped (attached : Bool) (hpc : s.timers.pc = .idle) (hl : s.loc = .syscalls) :
      CpuRunStep s (.go attached) { s with runner := s.runner.pollResults, loc := .polling }
  | workCompleted (attached : Bool) (work : Nat) (todo : List Nat) (nr : Nat)
      (hpc : s.timers.pc = .idle) (hl : s.loc = .polling)
      (hr : s.runner.cpu = .poll (work :: todo) nr) :
      CpuRunStep s (.go attached)
        (schedule { s with runner := { s.runner.completeWork work with cpu := .poll todo nr } }
          (attach attached))
  | roomReleased (attached : Bool) (nr : Nat) (hpc : s.timers.pc = .idle)
      (hl : s.loc = .polling) (hr : s.runner.cpu = .poll [] nr) :
      CpuRunStep s (.go attached)
        (schedule
          { s with
            runner := (s.runner.releaseRoom nr).1
            active := s.active || decide (0 < nr)
            loc := .getevents }
          ((s.runner.releaseRoom nr).2.map fun work => .cpu (.syscall work)))
  | gotEvents (n : Nat) (hl : s.loc = .getevents) :
      CpuRunStep s (.getevents n) { s with io := s.io.getevents n, loc := .reaping }
  | eventReaped (attached : Bool) (ev : IoEvent) (id : Nat) (todo : List (IoEvent × Nat))
      (n : Nat) (hpc : s.timers.pc = .idle) (hl : s.loc = .reaping)
      (hr : s.io.reap = .events ((ev, id) :: todo) n) :
      CpuRunStep s (.go attached)
        (schedule { s with io := { (s.io.reapEvent ev id).1 with reap := .events todo n } }
          ((s.io.reapEvent ev id).2.map fun t => .cpu (.aio t)))
  | slotsReleased (attached : Bool) (n : Nat) (hpc : s.timers.pc = .idle)
      (hl : s.loc = .reaping) (hr : s.io.reap = .events [] n) :
      CpuRunStep s (.go attached)
        (schedule
          { s with
            io := (s.io.releaseSlots n).1
            active := s.active || decide (0 < n)
            loc := .test }
          ((s.io.releaseSlots n).2.map fun t => .cpu (.aio t)))
  | idled (attached : Bool) (hpc : s.timers.pc = .idle) (hl : s.loc = .test)
      (hq : s.taskQueue = []) :
      CpuRunStep s (.go attached) { s with loc := .mask }
  | batchBegun (attached : Bool) (hpc : s.timers.pc = .idle) (hl : s.loc = .test) :
      CpuRunStep s (.go attached) { s with loc := .batch 8 }
  | batchEnded (attached : Bool) (left : Nat) (hpc : s.timers.pc = .idle)
      (hl : s.loc = .batch left) :
      CpuRunStep s (.go attached) { s with loc := .signals }
  | bodyBegun (attached : Bool) (kind : TaskKind) (left rank : Nat)
      (rest : List (RunTask × Nat)) (hpc : s.timers.pc = .idle) (hl : s.loc = .batch (left + 1))
      (hq : s.taskQueue = (.user kind, rank) :: rest) :
      CpuRunStep s (.go attached)
        { s with
          taskQueue := rest
          started := s.started ++ [rank]
          loc := .body (.task kind rank left) }
  | pushed (attached : Bool) (work left rank : Nat) (rest : List (RunTask × Nat))
      (hpc : s.timers.pc = .idle) (hl : s.loc = .batch (left + 1))
      (hq : s.taskQueue = (.cpu (.syscall work), rank) :: rest) :
      CpuRunStep s (.go attached)
        { s with
          taskQueue := rest
          started := s.started ++ [rank]
          runner := s.runner.pushWork work
          loc := .signalling left }
  | finished (attached : Bool) (id : Nat) (r : Except Exn IoEvent) (left rank : Nat)
      (rest : List (RunTask × Nat)) (hpc : s.timers.pc = .idle) (hl : s.loc = .batch (left + 1))
      (hq : s.taskQueue = (.cpu (.aio (.finish id r)), rank) :: rest) :
      CpuRunStep s (.go attached)
        (schedule
          { s with
            taskQueue := rest
            started := s.started ++ [rank]
            io := s.io.finish id r
            loc := .batch left }
          (attach attached))
  | issued (pr : Nat) (res : SubmitRes) (rq : Request) (left rank : Nat)
      (rest : List (RunTask × Nat)) (hl : s.loc = .batch (left + 1))
      (hq : s.taskQueue = (.cpu (.aio (.submit rq)), rank) :: rest) :
      CpuRunStep s (.issue pr res)
        (schedule
          { s with
            io := (s.io.submitIoImpl_ rq pr res).1
            taskQueue := rest
            started := s.started ++ [rank]
            loc := .batch left }
          ((s.io.submitIoImpl_ rq pr res).2.map fun t => .cpu (.aio t)))
  | signalled (attached : Bool) (left : Nat) (hpc : s.timers.pc = .idle)
      (hl : s.loc = .signalling left) :
      CpuRunStep s (.go attached)
        { s with
          runner := { s.runner with interrupter := s.runner.interrupter + 1, cpu := .idle }
          loc := .batch left }
  | masked (attached : Bool) (hpc : s.timers.pc = .idle) (hl : s.loc = .mask) :
      CpuRunStep s (.go attached) { s with loc := .pending }
  | checked (attached : Bool) (hpc : s.timers.pc = .idle) (hl : s.loc = .pending) :
      CpuRunStep s (.go attached)
        { s with loc := if s.pendingSignals = 0 then .blocked else .unmask }
  | woken (hl : s.loc = .blocked) : CpuRunStep s .event { s with loc := .unmask }
  | unmasked (attached : Bool) (hpc : s.timers.pc = .idle) (hl : s.loc = .unmask) :
      CpuRunStep s (.go attached) { s with loc := .signals }
  | scheduled (kind : TaskKind) (k : Body) (hpc : s.timers.pc = .idle) (hl : s.loc = .body k) :
      CpuRunStep s (.schedule kind) (s.schedule [.user kind])
  | timerAdded (interval : Int) (kind : TaskKind) (k : Body) (hpc : s.timers.pc = .idle)
      (hl : s.loc = .body k) (hpos : 0 < s.clock + interval) :
      CpuRunStep s (.addTimer interval kind)
        { s with timers := s.timers.addTimer s.clock interval (.user kind) }
  | called (body : SyscallBody ε) (errno : Errno) (k : Body) (hpc : s.timers.pc = .idle)
      (hl : s.loc = .body k) :
      CpuRunStep s (.syscall body errno) (s.submitSyscall body errno)
  | requested (opcode : AioOpcode) (fd : Int) (pos : Nat) (bytes : Span) (k : Body)
      (hpc : s.timers.pc = .idle) (hl : s.loc = .body k) :
      CpuRunStep s (.dma opcode fd pos bytes)
        (s.submitIo (FileIo.newIocb opcode fd pos bytes))
  | returned (r : Except Exn Unit) (hpc : s.timers.pc = .idle) (hl : s.loc = .body .remote) :
      CpuRunStep s (.finish r) { s with loc := .ipc }
  | ended (r : Except Exn Unit) (kind : TaskKind) (rank left : Nat) (hpc : s.timers.pc = .idle)
      (hl : s.loc = .body (.task kind rank left)) :
      CpuRunStep s (.finish r)
        (endTask { s with threw := if kind.escapes r then s.threw ++ [rank] else s.threw } rank left
          (kind.run r))

namespace CpuRun

theorem elsewhere_of_worker {s : CpuRun ε} {r : SyscallRunner ε}
    (h : s.runner.workerStep = some r) (sigalrm : Bool) :
    s.Elsewhere { s with runner := r, sigalrm := sigalrm } := by
  have hr : r.cpu = s.runner.cpu ∧ r.queueHasRoom = s.runner.queueHasRoom := by
    cases workerStep_steps s.runner r [] h with
    | processed done work todo hw =>
      unfold processWork
      split <;> exact ⟨rfl, rfl⟩
    | _ => exact ⟨rfl, rfl⟩
  exact ⟨rfl, rfl, rfl, rfl, rfl, hr.1, hr.2, rfl, rfl, rfl, rfl, rfl, rfl, rfl, rfl⟩

theorem elsewhere_of_kernel {s : CpuRun ε} {f : FileIo} {k : Nat} {res : KernelRes}
    (h : s.io.completeIocb k res = some f) : s.Elsewhere { s with io := f } := by
  obtain ⟨io, -, rfl⟩ := Option.map_eq_some_iff.mp h
  constructor <;> rfl

theorem inBody_cases {s : CpuRun ε} (h : s.inBody = true) :
    ∃ k, s.timers.pc = .idle ∧ s.loc = .body k := by
  unfold inBody at h
  split at h
  case h_1 k hl hpc => exact ⟨k, hpc, hl⟩
  case h_2 => cases h

theorem elsewhere_of_timers {s : CpuRun ε} {v : TimerService RunTask}
    (h : s.timers.expire s.clock = some v) :
    s.Elsewhere { s with timers := v, sigalrm := true } := by
  unfold TimerService.expire at h
  split at h
  case h_1 => cases h
  case h_2 d hd =>
    obtain ⟨-, ht⟩ := Option.ite_none_right_eq_some.mp h
    cases ht
    constructor <;> rfl

theorem startTask_steps {s t : CpuRun ε} {attached : Bool} {left rank : Nat} {task : RunTask}
    {rest : List (RunTask × Nat)} (hpc : s.timers.pc = .idle) (hl : s.loc = .batch (left + 1))
    (hq : s.taskQueue = (task, rank) :: rest)
    (h : startTask { s with taskQueue := rest, started := s.started ++ [rank] } attached left rank
      task = some t) : CpuRunStep s (.go attached) t := by
  unfold startTask at h
  split at h
  case h_1 kind =>
    cases h
    exact .bodyBegun attached kind left rank rest hpc hl hq
  case h_2 work =>
    cases h
    exact .pushed attached work left rank rest hpc hl hq
  case h_3 id r =>
    cases h
    exact .finished attached id r left rank rest hpc hl hq
  case h_4 => cases h

theorem batchStep_steps {s t : CpuRun ε} {attached : Bool} {left : Nat}
    (hpc : s.timers.pc = .idle) (hl : s.loc = .batch left)
    (h : s.batchStep attached left = some t) : CpuRunStep s (.go attached) t := by
  unfold batchStep at h
  split at h
  case h_1 =>
    cases h
    exact .batchEnded attached 0 hpc hl
  case h_2 left =>
    split at h
    case h_1 =>
      cases h
      exact .batchEnded attached (left + 1) hpc hl
    case h_2 task rank rest hq => exact startTask_steps hpc hl hq h

theorem pollStep_steps {s t : CpuRun ε} {attached : Bool} (hpc : s.timers.pc = .idle)
    (hl : s.loc = .polling) (h : s.pollStep attached = some t) : CpuRunStep s (.go attached) t := by
  unfold pollStep at h
  split at h
  case h_1 work todo nr hr =>
    cases h
    exact .workCompleted attached work todo nr hpc hl hr
  case h_2 nr hr =>
    cases h
    exact .roomReleased attached nr hpc hl hr
  case h_3 => cases h

theorem reapStep_steps {s t : CpuRun ε} {attached : Bool} (hpc : s.timers.pc = .idle)
    (hl : s.loc = .reaping) (h : s.reapStep = some t) : CpuRunStep s (.go attached) t := by
  unfold CpuRun.reapStep at h
  split at h
  case h_1 ev id todo n hr =>
    cases h
    exact .eventReaped attached ev id todo n hpc hl hr
  case h_2 n hr =>
    cases h
    exact .slotsReleased attached n hpc hl hr
  case h_3 => cases h

theorem testStep_steps {s : CpuRun ε} {attached : Bool} (hpc : s.timers.pc = .idle)
    (hl : s.loc = .test) :
    CpuRunStep s (.go attached)
      { s with loc := if s.taskQueue.isEmpty ∧ s.active = false then .mask else .batch 8 } := by
  split
  case isTrue h => exact .idled attached hpc hl (List.isEmpty_iff.mp h.1)
  case isFalse => exact .batchBegun attached hpc hl

theorem loopStep_steps {s t : CpuRun ε} {attached : Bool} (hpc : s.timers.pc = .idle)
    (h : s.loopStep attached = some t) :
    CpuRunStep s (.go attached) t := by
  unfold loopStep at h
  split at h
  case h_1 hl =>
    cases h
    exact .loaded attached hpc hl
  case h_2 signals hl =>
    cases h
    exact .cleared attached signals hpc hl
  case h_3 i todo hl =>
    cases h
    exact .handling attached i todo hpc hl
  case h_4 hl =>
    cases h
    exact .handled attached hpc hl
  case h_5 hl =>
    cases h
    exact .polledQueues attached hpc hl
  case h_6 hl =>
    cases h
    exact .popped attached hpc hl
  case h_7 hl => exact pollStep_steps hpc hl h
  case h_8 hl => exact reapStep_steps hpc hl h
  case h_9 hl =>
    cases h
    exact testStep_steps hpc hl
  case h_10 left hl => exact batchStep_steps hpc hl h
  case h_11 left hl =>
    cases h
    exact .signalled attached left hpc hl
  case h_12 hl =>
    cases h
    exact .masked attached hpc hl
  case h_13 hl =>
    cases h
    exact .checked attached hpc hl
  case h_14 hl =>
    cases h
    exact .unmasked attached hpc hl
  all_goals cases h

theorem go_steps {s t : CpuRun ε} {attached : Bool} (h : s.go attached = some t) :
    CpuRunStep s (.go attached) t := by
  unfold CpuRun.go at h
  split at h
  case h_1 hpc =>
    cases h
    exact .rearmed attached hpc
  case h_2 now hpc =>
    cases h
    exact .completed attached now hpc
  case h_3 hpc => exact loopStep_steps hpc h

theorem issue_steps {s t : CpuRun ε} {pr : Nat} {res : SubmitRes} (h : s.issue pr res = some t) :
    CpuRunStep s (.issue pr res) t := by
  unfold issue at h
  split at h
  case h_1 left rq rank rest hl hq hpr =>
    cases h
    exact .issued pr res rq left rank rest hl hq
  case h_2 => cases h

theorem ipcStep_steps {s t : CpuRun ε} {a : RunAct ε} {loc : RunLoc} {ts : List RunTask}
    (ha : a.found = some (loc, ts)) (h : s.ipcStep loc ts = some t) :
    CpuRunStep s a t := by
  unfold ipcStep at h
  split at h
  case h_1 hl =>
    cases h
    exact .found a loc ts ha hl
  case h_2 => cases h

theorem finish_steps {s t : CpuRun ε} {r : Except Exn Unit} (h : s.finish r = some t) :
    CpuRunStep s (.finish r) t := by
  unfold CpuRun.finish at h
  split at h
  case h_1 hl hpc =>
    cases h
    exact .returned r hpc hl
  case h_2 kind rank left hl hpc =>
    cases h
    exact .ended r kind rank left hpc hl
  case h_3 => cases h

end CpuRun

theorem cpu_run_step_cases {tasks : List RunTask} {s t : CpuRun ε} {a : RunAct ε}
    (h : (cpuRunMachine tasks).step s a = some t) : CpuRunStep s a t := by
  change s.step a = some t at h
  cases a with
  | go attached => exact go_steps h
  | issue pr res => exact issue_steps h
  | remote => exact ipcStep_steps rfl h
  | moved => exact ipcStep_steps rfl h
  | answered attached => exact ipcStep_steps rfl h
  | getevents n =>
    change s.geteventsStep n = some t at h
    unfold geteventsStep at h
    split at h
    case h_1 hl =>
      obtain ⟨-, ht⟩ := Option.ite_none_right_eq_some.mp h
      cases ht
      exact .gotEvents n hl
    case h_2 => cases h
  | schedule kind =>
    obtain ⟨hb, ht⟩ := Option.ite_none_right_eq_some.mp h
    obtain ⟨k, hpc, hl⟩ := inBody_cases hb
    cases ht
    exact .scheduled kind k hpc hl
  | addTimer interval kind =>
    obtain ⟨⟨hb, hpos, -⟩, ht⟩ := Option.ite_none_right_eq_some.mp h
    obtain ⟨k, hpc, hl⟩ := inBody_cases hb
    cases ht
    exact .timerAdded interval kind k hpc hl hpos
  | syscall body errno =>
    obtain ⟨hb, ht⟩ := Option.ite_none_right_eq_some.mp h
    obtain ⟨k, hpc, hl⟩ := inBody_cases hb
    cases ht
    exact .called body errno k hpc hl
  | dma opcode fd pos bytes =>
    obtain ⟨hb, ht⟩ := Option.ite_none_right_eq_some.mp h
    obtain ⟨k, hpc, hl⟩ := inBody_cases hb
    cases ht
    exact .requested opcode fd pos bytes k hpc hl
  | finish r => exact finish_steps h
  | deliver interrupts =>
    obtain ⟨⟨hs, hu⟩, ht⟩ := Option.ite_none_right_eq_some.mp h
    cases ht
    exact .delivered interrupts hs hu
  | alarm =>
    cases h
    exact .elsewhere _ _ rfl (by constructor <;> rfl)
  | tick clock =>
    obtain ⟨-, ht⟩ := Option.ite_none_right_eq_some.mp h
    cases ht
    exact .elsewhere _ _ rfl (by constructor <;> rfl)
  | expire =>
    obtain ⟨v, hv, rfl⟩ := Option.map_eq_some_iff.mp h
    exact .elsewhere _ _ rfl (elsewhere_of_timers hv)
  | event =>
    change s.event = some t at h
    unfold event at h
    split at h
    case h_1 hl =>
      obtain ⟨-, ht⟩ := Option.ite_none_right_eq_some.mp h
      cases ht
      exact .woken hl
    case h_2 => cases h
  | worker =>
    obtain ⟨r, hr, rfl⟩ := Option.map_eq_some_iff.mp h
    exact .elsewhere _ _ rfl (elsewhere_of_worker hr _)
  | completeIocb k res =>
    obtain ⟨f, hf, rfl⟩ := Option.map_eq_some_iff.mp h
    exact .elsewhere _ _ rfl (elsewhere_of_kernel hf)

end Miniss
