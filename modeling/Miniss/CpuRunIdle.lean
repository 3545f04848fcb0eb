import Miniss.CpuRunSteps

/-! A CPU goes idle only with an empty `task_queue_`, and then no request that is parked at
one of its semaphores could be served. A `release` behind each poll grants at most one waiter,
but then the grant is a task, and the loop goes on. -/
namespace Miniss
variable {ε : Type*}

/-- After a release somebody was granted, or nobody can be served. -/
theorem Semaphore.release_serves {π : Type*} (s : Semaphore π) (n : Nat) :
    (s.release n).2.toList ≠ [] ∨ (s.release n).1.Settled := by
  obtain ⟨hno, hr⟩ | ⟨e, rest, -, -, hr⟩ := s.release_cases n
  · rw [hr]
    exact .inr hno
  · rw [hr]
    exact .inl (List.cons_ne_nil e.pr [])

namespace RunLoc

def inIdleProc : RunLoc → Bool
  | .mask | .pending | .blocked | .unmask => true
  | _ => false

/-- Behind `poll_results`, and no task was taken since. -/
def pastRoom : RunLoc → Bool
  | .getevents | .reaping | .test => true
  | loc => loc.inIdleProc

/-- Behind `reap_io`, and no task was taken since. -/
def pastSlots : RunLoc → Bool
  | .test => true
  | loc => loc.inIdleProc

def inTimers : RunLoc → Bool
  | .handlers _ | .body _ | .terminated => true
  | _ => false

theorem pastSlots_of_inIdleProc {loc : RunLoc} (h : loc.inIdleProc = true) :
    loc.pastSlots = true := by
  cases loc <;> first | rfl | exact h

theorem pastRoom_of_pastSlots {loc : RunLoc} (h : loc.pastSlots = true) :
    loc.pastRoom = true := by
  cases loc <;> first | rfl | exact h

theorem pastRoom_of_inTimers {loc : RunLoc} (h : loc.inTimers = true) :
    loc.pastRoom = false := by
  cases loc <;> first | rfl | cases h

/-- A signal moves the thread only within `run_idle_proc_`, or out of the loop. -/
theorem interrupted_cases (loc : RunLoc) (interrupts : Bool) :
    loc.interrupted interrupts = loc ∨
      loc = .blocked ∧ loc.interrupted interrupts = .unmask ∨
      loc = .getevents ∧ interrupts = true ∧
        loc.interrupted interrupts = .exited (.systemError eintr.val) := by
  cases loc with
  | blocked => exact .inr (.inl ⟨rfl, rfl⟩)
  | getevents =>
    cases interrupts
    · exact .inl rfl
    · exact .inr (.inr ⟨rfl, rfl, rfl⟩)
  | _ => exact .inl rfl

end RunLoc

namespace CpuRun
open RunLoc

@[simp] theorem schedule_loc (s : CpuRun ε) (ts : List RunTask) :
    (s.schedule ts).loc = s.loc := rfl

theorem schedule_queue_ne_nil {s : CpuRun ε} {ts : List RunTask}
    (h : s.taskQueue ≠ [] ∨ ts ≠ []) : (s.schedule ts).taskQueue ≠ [] := by
  intro he
  obtain ⟨hq, hz⟩ := List.append_eq_nil_iff.mp he
  obtain h | h := h
  · exact h hq
  · exact h (List.zipIdx_eq_nil_iff.mp hz)

/-- Within a round, each semaphore is settled behind its poller, or the loop will not go
idle. -/
structure Served (s : CpuRun ε) : Prop where
  timers : s.timers.pc = .idle ∨ s.loc.inTimers = true
  empty : s.loc.inIdleProc = true → s.taskQueue = []
  room : s.loc.pastRoom = true → s.taskQueue ≠ [] ∨ s.runner.queueHasRoom.Settled
  slots : s.loc.pastSlots = true → s.taskQueue ≠ [] ∨ s.io.aioAvailable.Settled

theorem served_of_busy {s : CpuRun ε} (ht : s.timers.pc = .idle ∨ s.loc.inTimers = true)
    (hl : s.loc.pastRoom = false) : s.Served where
  timers := ht
  empty h := by simp [pastRoom_of_pastSlots (pastSlots_of_inIdleProc h)] at hl
  room h := by simp [h] at hl
  slots h := by simp [pastRoom_of_pastSlots h] at hl

theorem Served.timers_idle {s : CpuRun ε} (h : s.Served) (hl : s.loc.inTimers = false) :
    s.timers.pc = .idle :=
  h.timers.resolve_right fun ht => by simp [ht] at hl

theorem Served.elsewhere {s t : CpuRun ε} (h : s.Served) (he : s.Elsewhere t) : t.Served where
  timers := by rw [he.pc, he.loc]; exact h.timers
  empty := by rw [he.loc, he.taskQueue]; exact h.empty
  room := by rw [he.loc, he.taskQueue, he.room]; exact h.room
  slots := by rw [he.loc, he.taskQueue, he.aio]; exact h.slots

theorem Served.delivered {s : CpuRun ε} (h : s.Served) (interrupts : Bool)
    (signals : BitVec 64) :
    Served
      { s with
        sigalrm := false
        pendingSignals := signals
        loc := s.loc.interrupted interrupts } := by
  obtain he | ⟨hl, he⟩ | ⟨hl, -, he⟩ := s.loc.interrupted_cases interrupts
  · rw [he]
    exact ⟨h.timers, h.empty, h.room, h.slots⟩
  · have hidle : s.loc.inIdleProc = true := congrArg inIdleProc hl
    have hslots := pastSlots_of_inIdleProc hidle
    rw [he]
    exact ⟨.inl (h.timers_idle (congrArg inTimers hl)), fun _ => h.empty hidle,
      fun _ => h.room (pastRoom_of_pastSlots hslots), fun _ => h.slots hslots⟩
  · rw [he]
    exact served_of_busy (.inl (h.timers_idle (congrArg inTimers hl))) rfl

/-- Between two places of `run_idle_proc_`. -/
theorem Served.idling {s : CpuRun ε} (h : s.Served) (hs : s.loc.inIdleProc = true)
    (loc : RunLoc) : Served { s with loc := loc } := by
  have hslots := pastSlots_of_inIdleProc hs
  refine ⟨.inl (h.timers_idle ?_), fun _ => h.empty hs,
    fun _ => h.room (pastRoom_of_pastSlots hslots), fun _ => h.slots hslots⟩
  by_contra ht
  have hr := pastRoom_of_inTimers (Bool.not_eq_false _ ▸ ht)
  simp [pastRoom_of_pastSlots hslots] at hr

theorem Served.roomReleased {s : CpuRun ε} (h : s.Served) (hl : s.loc = .polling) (nr : Nat)
    (active : Bool) :
    Served
      (schedule
        { s with runner := (s.runner.releaseRoom nr).1, active := active, loc := .getevents }
        ((s.runner.releaseRoom nr).2.map fun work => .cpu (.syscall work))) := by
  refine ⟨.inl (h.timers_idle (congrArg inTimers hl)), nofun, fun _ => ?_, nofun⟩
  obtain hne | hset := s.runner.queueHasRoom.release_serves nr
  · exact .inl (schedule_queue_ne_nil (.inr (mt List.map_eq_nil_iff.mp hne)))
  · exact .inr hset

theorem Served.reaping {s : CpuRun ε} (h : s.Served) (hl : s.loc = .reaping) (io : FileIo)
    (ts : List RunTask) : Served (schedule { s with io := io } ts) := by
  have hnot : ¬ (schedule { s with io := io } ts).loc.pastSlots = true := by
    rw [schedule_loc, hl]
    exact Bool.false_ne_true
  refine ⟨.inl (h.timers_idle (congrArg inTimers hl)),
    fun hi => absurd (pastSlots_of_inIdleProc hi) hnot, fun _ => ?_, fun hp => absurd hp hnot⟩
  refine (h.room (congrArg pastRoom hl)).imp_left fun hq => ?_
  exact schedule_queue_ne_nil (.inl hq)

theorem Served.slotsReleased {s : CpuRun ε} (h : s.Served) (hl : s.loc = .reaping) (n : Nat)
    (active : Bool) :
    Served
      (schedule { s with io := (s.io.releaseSlots n).1, active := active, loc := .test }
        ((s.io.releaseSlots n).2.map fun t => .cpu (.aio t))) := by
  refine ⟨.inl (h.timers_idle (congrArg inTimers hl)), nofun, fun _ => ?_, fun _ => ?_⟩
  · refine (h.room (congrArg pastRoom hl)).imp_left fun hq => ?_
    exact schedule_queue_ne_nil (.inl hq)
  · obtain hne | hset := s.io.aioAvailable.release_serves n
    · refine .inl (schedule_queue_ne_nil (.inr ?_))
      simpa [FileIo.releaseSlots] using hne
    · exact .inr hset

theorem Served.idled {s : CpuRun ε} (h : s.Served) (hl : s.loc = .test)
    (hq : s.taskQueue = []) : Served { s with loc := .mask } :=
  ⟨.inl (h.timers_idle (congrArg inTimers hl)), fun _ => hq,
    fun _ => h.room (congrArg pastRoom hl), fun _ => h.slots (congrArg pastSlots hl)⟩

theorem Served.step {s t : CpuRun ε} {a : RunAct ε} (h : s.Served) (hs : CpuRunStep s a t) :
    t.Served := by
  cases hs with
  | elsewhere a t ha he => exact h.elsewhere he
  | delivered interrupts hsig hu => exact h.delivered interrupts _
  | rearmed attached hpc =>
    have hin := h.timers.resolve_left (by simp [hpc])
    refine served_of_busy (.inr ?_) (pastRoom_of_inTimers ?_) <;> dsimp only <;> split
    all_goals first | rfl | exact hin
  | completed attached now hpc =>
    have hin := h.timers.resolve_left (by simp [hpc])
    exact served_of_busy (.inr hin) (pastRoom_of_inTimers hin)
  | loaded attached hpc hl =>
    refine served_of_busy (.inl hpc) ?_
    dsimp only
    split <;> rfl
  | handling attached i todo hpc hl => exact served_of_busy (.inr rfl) rfl
  | found a loc ts ha hl =>
    refine served_of_busy (.inl (h.timers_idle (congrArg inTimers hl))) ?_
    cases a <;> cases ha <;> rfl
  | workCompleted attached work todo nr hpc hl hr =>
    exact served_of_busy (.inl hpc) (congrArg pastRoom hl)
  | roomReleased attached nr hpc hl hr => exact h.roomReleased hl nr _
  | gotEvents n hl =>
    exact ⟨.inl (h.timers_idle (congrArg inTimers hl)), nofun,
      fun _ => h.room (congrArg pastRoom hl), nofun⟩
  | eventReaped attached ev id todo n hpc hl hr => exact h.reaping hl _ _
  | slotsReleased attached n hpc hl hr => exact h.slotsReleased hl n _
  | idled attached hpc hl hq => exact h.idled hl hq
  | issued pr res rq left rank rest hl hq =>
    exact served_of_busy (.inl (h.timers_idle (congrArg inTimers hl))) rfl
  | masked attached hpc hl => exact h.idling (congrArg inIdleProc hl) _
  | checked attached hpc hl => exact h.idling (congrArg inIdleProc hl) _
  | woken hl => exact h.idling (congrArg inIdleProc hl) _
  | scheduled kind k hpc hl => exact served_of_busy (.inl hpc) (congrArg pastRoom hl)
  | timerAdded interval kind k hpc hl hpos =>
    exact served_of_busy (.inr (congrArg inTimers hl)) (congrArg pastRoom hl)
  | called body errno k hpc hl => exact served_of_busy (.inl hpc) (congrArg pastRoom hl)
  | requested opcode fd pos bytes k hpc hl =>
    exact served_of_busy (.inl hpc) (congrArg pastRoom hl)
  | ended r kind rank left hpc hl =>
    cases kind.run r <;> exact served_of_busy (.inl hpc) rfl
  | _ => exact served_of_busy (.inl ‹s.timers.pc = .idle›) rfl

end CpuRun

open CpuRun

theorem cpu_run_served {tasks : List RunTask} {as : List (RunAct ε)} {s : CpuRun ε}
    (h : (cpuRunMachine tasks).Reaches as s) : s.Served :=
  h.invariant (served_of_busy (.inl rfl) rfl) fun _ _ _ hi hst => hi.step (cpu_run_step_cases hst)

theorem idle_queue_empty {tasks : List RunTask} {as : List (RunAct ε)} {s : CpuRun ε}
    (h : (cpuRunMachine tasks).Reaches as s) (hl : s.loc.inIdleProc = true) :
    s.taskQueue = [] := (cpu_run_served h).empty hl

/-- In every run, when the loop calls `run_idle_proc_`, and until that returns, the waiting
lists of `queue_has_room_` and `aio_available_` are empty, or the front waiter asks for more
than is free. -/
theorem idle_waiters_unservable {tasks : List RunTask} {as : List (RunAct ε)} {s : CpuRun ε}
    (h : (cpuRunMachine tasks).Reaches as s) (hl : s.loc.inIdleProc = true) :
    s.runner.queueHasRoom.Settled ∧ s.io.aioAvailable.Settled := by
  have hi := cpu_run_served h
  have hslots := RunLoc.pastSlots_of_inIdleProc hl
  have hq := not_not.mpr (hi.empty hl)
  exact ⟨(hi.room (RunLoc.pastRoom_of_pastSlots hslots)).resolve_left hq,
    (hi.slots hslots).resolve_left hq⟩

/-- One round of the pollers that finds nothing, and the emptiness test. -/
def pollRound : List (RunAct Unit) :=
  List.replicate 4 (.go false) ++ [.getevents 0, .go false, .go false]

/-- A task makes 129 system calls, and the worker does not come to any of them. The loop pushes 128
into `call_queue_`, eight in a round; the last call is parked when the CPU goes idle. -/
def parkedRun : List (RunAct Unit) :=
  pollRound ++ [.go false] ++ List.replicate 129 (.syscall (.int 0) ⟨1, Int.one_pos⟩) ++
  [.finish (.ok ())] ++ List.replicate 15 (.go false) ++
  (List.replicate 15 (pollRound ++ List.replicate 17 (.go false))).flatten ++
  pollRound ++ List.replicate 3 (.go false) ++ pollRound

theorem idle_waiters_unservable_parked : ∃ s : CpuRun Unit,
    (cpuRunMachine [.user .lambda]).Reaches parkedRun s ∧ s.loc.inIdleProc = true ∧
      s.runner.queueHasRoom.waitingList.map Entry.pr = [128] ∧
      s.runner.queueHasRoom.tokens = 0 ∧
      (s.runner.queueHasRoom.Settled ∧ s.io.aioAvailable.Settled) := by
  have hrun : (((cpuRunMachine [.user .lambda]).exec (.init [.user .lambda]) parkedRun).map
      fun s => (s.loc.inIdleProc, s.runner.queueHasRoom.waitingList.map Entry.pr,
        s.runner.queueHasRoom.tokens)) = some (true, [128], 0) := by decide +kernel
  obtain ⟨s, hs, he⟩ := Option.map_eq_some_iff.mp hrun
  simp only [Prod.mk.injEq] at he
  exact ⟨s, hs, he.1, he.2.1, he.2.2, idle_waiters_unservable hs he.1⟩

end Miniss
