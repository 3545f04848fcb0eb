import Miniss.Io.File
import Miniss.Io.SyscallOrder
import Miniss.Io.FileIoPath

/-! What one step of a CPU with files can do, and how it looks to the runner and to
`File_io`: each of them makes a step of its own machine or stays as it is. -/
namespace Miniss
variable {ε : Type*}

def CpuTask.syscall? : CpuTask → Option Nat
  | .syscall work => some work
  | .aio _ => none

def CpuTask.aio? : CpuTask → Option AioTask
  | .syscall _ => none
  | .aio t => some t

def syscallTasks (q : List CpuTask) : List Nat := q.filterMap CpuTask.syscall?

def aioTasks (q : List CpuTask) : List AioTask := q.filterMap CpuTask.aio?

@[simp] theorem syscallTasks_append (p q : List CpuTask) :
    syscallTasks (p ++ q) = syscallTasks p ++ syscallTasks q := List.filterMap_append

@[simp] theorem aioTasks_append (p q : List CpuTask) :
    aioTasks (p ++ q) = aioTasks p ++ aioTasks q := List.filterMap_append

@[simp] theorem syscallTasks_cons_syscall (work : Nat) (q : List CpuTask) :
    syscallTasks (.syscall work :: q) = work :: syscallTasks q := rfl

@[simp] theorem syscallTasks_cons_aio (t : AioTask) (q : List CpuTask) :
    syscallTasks (.aio t :: q) = syscallTasks q := rfl

@[simp] theorem aioTasks_cons_syscall (work : Nat) (q : List CpuTask) :
    aioTasks (.syscall work :: q) = aioTasks q := rfl

@[simp] theorem aioTasks_cons_aio (t : AioTask) (q : List CpuTask) :
    aioTasks (.aio t :: q) = t :: aioTasks q := rfl

@[simp] theorem syscallTasks_map_syscall (l : List Nat) :
    syscallTasks (l.map .syscall) = l := by
  induction l with
  | nil => rfl
  | cons work l ih => rw [List.map_cons, syscallTasks_cons_syscall, ih]

@[simp] theorem syscallTasks_map_aio (l : List AioTask) : syscallTasks (l.map .aio) = [] := by
  induction l with
  | nil => rfl
  | cons t l ih => rw [List.map_cons, syscallTasks_cons_aio, ih]

@[simp] theorem aioTasks_map_syscall (l : List Nat) : aioTasks (l.map .syscall) = [] := by
  induction l with
  | nil => rfl
  | cons work l ih => rw [List.map_cons, aioTasks_cons_syscall, ih]

@[simp] theorem aioTasks_map_aio (l : List AioTask) : aioTasks (l.map .aio) = l := by
  induction l with
  | nil => rfl
  | cons t l ih => rw [List.map_cons, aioTasks_cons_aio, ih]

/-- The file that a call is to close. -/
def IoCpuAct.closes? : IoCpuAct ε → Option Nat
  | .close file _ _ => some file
  | .destroy file _ _ => some file
  | _ => none

open IoCpu

inductive IoCpuStep (s : IoCpu ε) : IoCpuAct ε → IoCpu ε → Prop where
  | opened (fd : Int) : IoCpuStep s (.opened fd) { s with files := s.files ++ [fd] }
  | requested (a : IoCpuAct ε) (b : FileIoAct) (file : Nat) (fd : Int) (io : Iocb)
      (hb : b.call? = some io) (hr : s.io.reap = .idle) (hf : s.files[file]? = some fd)
      (hfd : 0 ≤ fd) :
      IoCpuStep s a { s.withIo (s.io.submitIo_ io) with owners := s.owners ++ [file] }
  | called (body : SyscallBody ε) (errno : Errno) (hr : s.runner.cpu = .idle) :
      IoCpuStep s (.syscall body errno) (s.submitSyscall body errno none)
  | closing (a : IoCpuAct ε) (file : Nat) (fd ret : Int) (errno : Errno)
      (ha : a.closes? = some file) (hr : s.runner.cpu = .idle)
      (hf : s.files[file]? = some fd) (hfd : fd ≠ -1) :
      IoCpuStep s a
        { s.submitSyscall (.int ret) errno (some file) with files := s.files.set file (-1) }
  | closedBefore (a : IoCpuAct ε) : IoCpuStep s a s
  | pushed (a : IoCpuAct ε) (work : Nat) (rest : List CpuTask) (hr : s.runner.cpu = .idle)
      (hq : s.taskQueue = .syscall work :: rest) :
      IoCpuStep s a { s with runner := s.runner.pushWork work, taskQueue := rest }
  | issued (pr : Nat) (res : SubmitRes) (rq : Request) (rest : List CpuTask)
      (hr : s.io.reap = .idle) (hq : s.taskQueue = .aio (.submit rq) :: rest)
      (hpr : s.io.heap pr = none) :
      IoCpuStep s (.runTask pr res)
        { withIo { s with taskQueue := rest } (s.io.submitIoImpl_ rq pr res) with
          log := s.log ++ (s.owners[rq.id]?.map FileEvent.issued).toList }
  | finished (a : IoCpuAct ε) (id : Nat) (r : Except Exn IoEvent) (rest : List CpuTask)
      (hr : s.io.reap = .idle) (hq : s.taskQueue = .aio (.finish id r) :: rest) :
      IoCpuStep s a { s with io := s.io.finish id r, taskQueue := rest }
  | polled (hr : s.runner.cpu = .idle) :
      IoCpuStep s .pollResults { s with runner := s.runner.pollResults }
  | gotEvents (n : Nat) (hr : s.io.reap = .idle) (hmax : n ≤ maxIo)
      (hn : n ≤ s.io.ready.length) :
      IoCpuStep s (.getevents n) { s with io := s.io.getevents n }
  | runnerWent (p : SyscallRunner ε × List Nat) (hp : s.runner.cpuStep = some p) :
      IoCpuStep s .cpu (s.withRunner p)
  | ioWent (p : FileIo × List AioTask) (hp : s.io.reapStep = some p) :
      IoCpuStep s .cpu (s.withIo p)
  | worked (r : SyscallRunner ε) (hr : s.runner.workerStep = some r) :
      IoCpuStep s .worker
        { s with
          runner := r
          log := s.log ++ ((processing s.runner).bind fun work =>
            s.closers[work]?.join.map FileEvent.closed).toList }
  | completed (k : Nat) (res : KernelRes) (f : FileIo) (hf : s.io.completeIocb k res = some f) :
      IoCpuStep s (.completeIocb k res) { s with io := f }

namespace IoCpu

theorem atRest_iff (s : IoCpu ε) :
    s.atRest = true ↔ s.runner.cpu = .idle ∧ s.io.reap = .idle := by
  unfold atRest
  split
  case h_1 hr hi => simp [hr, hi]
  case h_2 h => simpa using h

theorem dma_steps {s t : IoCpu ε} {file : Nat} {io : Int → Iocb} (a : IoCpuAct ε)
    (b : Int → FileIoAct) (hb : ∀ fd, (b fd).call? = some (io fd)) (hr : s.io.reap = .idle)
    (h : s.dma file (fun fd => s.io.submitIo_ (io fd)) = some t) : IoCpuStep s a t := by
  unfold dma at h
  split at h
  case h_1 => cases h
  case h_2 fd hf =>
    split at h
    case isTrue hfd =>
      cases h
      exact .requested a (b fd) file fd (io fd) (hb fd) hr hf hfd
    case isFalse => cases h

theorem close_steps {s t : IoCpu ε} {a : IoCpuAct ε} {file : Nat} {ret : Int} {errno : Errno}
    (ha : a.closes? = some file) (hr : s.runner.cpu = .idle)
    (h : s.close file ret errno = some t) : IoCpuStep s a t := by
  unfold close at h
  split at h
  case h_1 => cases h
  case h_2 fd hf =>
    split at h
    case isTrue =>
      cases h
      exact .closedBefore a
    case isFalse hfd =>
      cases h
      exact .closing a file fd ret errno ha hr hf hfd

theorem destroy_steps {s t : IoCpu ε} {a : IoCpuAct ε} {file : Nat} {ret : Int}
    {errno : Errno} (ha : a.closes? = some file) (hr : s.runner.cpu = .idle)
    (h : s.destroy file ret errno = some t) : IoCpuStep s a t := by
  unfold destroy at h
  split at h
  case h_1 => cases h
  case h_2 fd hf =>
    split at h
    case isTrue =>
      cases h
      exact .closedBefore a
    case isFalse => exact close_steps ha hr h

theorem runTask_steps {s t : IoCpu ε} {pr : Nat} {res : SubmitRes}
    (hr : s.runner.cpu = .idle ∧ s.io.reap = .idle) (h : s.runTask pr res = some t) :
    IoCpuStep s (.runTask pr res) t := by
  unfold runTask at h
  split at h
  case h_1 => cases h
  case h_2 work rest hq =>
    cases h
    exact .pushed _ work rest hr.1 hq
  case h_3 rq rest hq =>
    split at h
    case h_1 => cases h
    case h_2 hpr =>
      cases h
      exact .issued pr res rq rest hr.2 hq hpr
  case h_4 id r rest hq =>
    cases h
    exact .finished _ id r rest hr.2 hq

theorem cpuStep_steps {s t : IoCpu ε} (h : s.cpuStep = some t) : IoCpuStep s .cpu t := by
  unfold cpuStep at h
  split at h
  case h_1 p hp =>
    cases h
    exact .runnerWent p hp
  case h_2 =>
    obtain ⟨p, hp, rfl⟩ := Option.map_eq_some_iff.mp h
    exact .ioWent p hp

end IoCpu

theorem io_cpu_step_cases {s t : IoCpu ε} {a : IoCpuAct ε}
    (h : ioCpuMachine.step s a = some t) : IoCpuStep s a t := by
  change s.step a = some t at h
  cases a with
  | opened fd =>
    obtain ⟨-, h⟩ := Option.ite_none_right_eq_some.mp h
    cases h
    exact .opened fd
  | dmaWrite file pos bytes =>
    obtain ⟨hr, h⟩ := Option.ite_none_right_eq_some.mp h
    exact dma_steps _ (fun fd => .submitWrite fd pos bytes) (fun _ => rfl)
      (s.atRest_iff.mp hr).2 h
  | dmaRead file pos bytes =>
    obtain ⟨hr, h⟩ := Option.ite_none_right_eq_some.mp h
    exact dma_steps _ (fun fd => .submitRead fd pos bytes) (fun _ => rfl)
      (s.atRest_iff.mp hr).2 h
  | close file ret errno =>
    obtain ⟨hr, h⟩ := Option.ite_none_right_eq_some.mp h
    exact close_steps rfl (s.atRest_iff.mp hr).1 h
  | destroy file ret errno =>
    obtain ⟨hr, h⟩ := Option.ite_none_right_eq_some.mp h
    exact destroy_steps rfl (s.atRest_iff.mp hr).1 h
  | syscall body errno =>
    obtain ⟨hr, h⟩ := Option.ite_none_right_eq_some.mp h
    cases h
    exact .called body errno (s.atRest_iff.mp hr).1
  | runTask pr res =>
    obtain ⟨hr, h⟩ := Option.ite_none_right_eq_some.mp h
    exact runTask_steps (s.atRest_iff.mp hr) h
  | pollResults =>
    obtain ⟨hr, h⟩ := Option.ite_none_right_eq_some.mp h
    cases h
    exact .polled (s.atRest_iff.mp hr).1
  | getevents n =>
    obtain ⟨⟨hr, hmax, hn⟩, h⟩ := Option.ite_none_right_eq_some.mp h
    cases h
    exact .gotEvents n (s.atRest_iff.mp hr).2 hmax hn
  | cpu => exact IoCpu.cpuStep_steps h
  | worker =>
    obtain ⟨r, hr, rfl⟩ := Option.map_eq_some_iff.mp h
    exact .worked r hr
  | completeIocb k res =>
    obtain ⟨f, hf, rfl⟩ := Option.map_eq_some_iff.mp h
    exact .completed k res f hf

namespace IoCpu

/-- The runner with its share of the tasks. -/
def runnerPart (s : IoCpu ε) : RunnerState ε := ⟨s.runner, syscallTasks s.taskQueue⟩

/-- `File_io` with its share of the tasks. -/
def ioPart (s : IoCpu ε) : FileIoState := ⟨s.io, aioTasks s.taskQueue⟩

/-- To the runner, a run of the CPU is a run of its own. -/
theorem simulates_runner :
    Machine.Simulation (ioCpuMachine : Machine (IoCpu ε) _) runnerMachine runnerPart where
  init := rfl
  step s a t h := by
    cases io_cpu_step_cases h with
    | opened | closedBefore | gotEvents | completed => exact .inl rfl
    | requested _ b file fd io hb hr hf hfd => exact .inl (by simp [runnerPart, withIo])
    | called body errno hr =>
      exact .inr ⟨.submit body errno, by
        simp [runnerMachine, RunnerState.step, runnerPart, hr, submitSyscall, withRunner]⟩
    | closing _ file fd ret errno ha hr hf hfd =>
      exact .inr ⟨.submit (.int ret) errno, by
        simp [runnerMachine, RunnerState.step, runnerPart, hr, submitSyscall, withRunner]⟩
    | pushed _ work rest hr hq =>
      exact .inr ⟨.runTask, by simp [runnerMachine, RunnerState.step, runnerPart, hr, hq]⟩
    | issued pr res rq rest hr hq hpr => exact .inl (by simp [runnerPart, withIo, hq])
    | finished _ id r rest hr hq => exact .inl (by simp [runnerPart, hq])
    | polled hr =>
      exact .inr ⟨.pollResults, by simp [runnerMachine, RunnerState.step, runnerPart, hr]⟩
    | runnerWent p hp =>
      exact .inr ⟨.cpu, by simp [runnerMachine, RunnerState.step, runnerPart, hp, withRunner]⟩
    | ioWent p hp => exact .inl (by simp [runnerPart, withIo])
    | worked r hr =>
      exact .inr ⟨.worker, by simp [runnerMachine, RunnerState.step, runnerPart, hr]⟩

/-- To `File_io`, a run of the CPU is a run of its own. -/
theorem simulates_io :
    Machine.Simulation (ioCpuMachine : Machine (IoCpu ε) _) fileIoMachine ioPart where
  init := rfl
  step s a t h := by
    cases io_cpu_step_cases h with
    | opened | closedBefore | polled | worked => exact .inl rfl
    | requested _ b file fd io hb hr hf hfd =>
      refine .inr ⟨b, ?_⟩
      cases b with
      | submitWrite | submitRead =>
        obtain rfl := Option.some.inj hb
        simp [fileIoMachine, FileIoState.step, ioPart, hr, withIo, FileIo.submitWrite,
          FileIo.submitRead]
      | _ => cases hb
    | called body errno hr => exact .inl (by simp [ioPart, submitSyscall, withRunner])
    | closing _ file fd ret errno ha hr hf hfd =>
      exact .inl (by simp [ioPart, submitSyscall, withRunner])
    | pushed _ work rest hr hq => exact .inl (by simp [ioPart, hq])
    | issued pr res rq rest hr hq hpr =>
      exact .inr ⟨.runSubmit pr res, by
        simp [fileIoMachine, FileIoState.step, ioPart, hr, hq, hpr, withIo]⟩
    | finished _ id r rest hr hq =>
      exact .inr ⟨.runFinish, by simp [fileIoMachine, FileIoState.step, ioPart, hr, hq]⟩
    | gotEvents n hr hmax hn =>
      exact .inr ⟨.getevents n, by
        simp [fileIoMachine, FileIoState.step, ioPart, hr, hmax, hn]⟩
    | runnerWent p hp => exact .inl (by simp [ioPart, withRunner])
    | ioWent p hp =>
      exact .inr ⟨.reap, by simp [fileIoMachine, FileIoState.step, ioPart, hp, withIo]⟩
    | completed k res f hf =>
      exact .inr ⟨.completeIocb k res, by simp [fileIoMachine, FileIoState.step, ioPart, hf]⟩

/-- The invariants of the two components, on their shares of the tasks. -/
structure Sound (s : IoCpu ε) : Prop where
  runner : SyscallRunner.Inv s.runner (syscallTasks s.taskQueue)
  io : FileIo.Path s.io (aioTasks s.taskQueue)

theorem sound_reachable {as : List (IoCpuAct ε)} {s : IoCpu ε}
    (h : ioCpuMachine.Reaches as s) : Sound s := by
  obtain ⟨bs, hb⟩ := simulates_runner.reaches h
  obtain ⟨cs, hc⟩ := simulates_io.reaches h
  exact ⟨SyscallRunner.inv_reachable hb, FileIo.path_reachable hc⟩

end IoCpu
end Miniss
