import Miniss.CpuRunIdle
import Miniss.Io.TimerSteps

/-! The tasks of a CPU are started in the order in which they were appended to `task_queue_`,
each once. An exception that escapes a task does not reach the `catch` of `run`: `task::run`
is `noexcept`. -/
namespace Miniss
variable {ε : Type*}

namespace CpuRun
open RunLoc

/-- The tasks were started in order, all of them when the CPU goes idle, the loop goes on, and
each task that let an exception escape was logged. -/
structure RunsAll (s : CpuRun ε) : Prop where
  inOrder : s.started ++ s.taskQueue.map Prod.snd = List.range s.appended
  all : s.loc.inIdleProc = true → s.started = List.range s.appended
  goesOn : s.loc ≠ .terminated
  logged : s.logged = s.threw

def Escapes (s : CpuRun ε) (a : RunAct ε) : Prop :=
  ∃ rank left e, s.loc = .body (.task .lambda rank left) ∧ a = .finish (.error e)

/-- The tasks that were started and those that wait are all that were appended, in order. -/
structure Ordered (s : CpuRun ε) : Prop where
  order : s.started ++ s.taskQueue.map Prod.snd = List.range s.appended
  sound : s.timers.Sound

theorem init_ordered (tasks : List RunTask) : (init tasks : CpuRun ε).Ordered where
  order := by simp [init, List.range_eq_range']
  sound := TimerService.init_sound

theorem order_schedule {s : CpuRun ε} (ts : List RunTask)
    (h : s.started ++ s.taskQueue.map Prod.snd = List.range s.appended) :
    (s.schedule ts).started ++ (s.schedule ts).taskQueue.map Prod.snd =
      List.range (s.schedule ts).appended := by
  simp only [schedule, List.map_append, List.zipIdx_map_snd, ← List.append_assoc, h]
  rw [List.range_eq_range', List.range_eq_range', ← List.range'_append_1, Nat.zero_add]

theorem Ordered.schedule {s : CpuRun ε} (h : s.Ordered) (ts : List RunTask) :
    (s.schedule ts).Ordered := ⟨order_schedule ts h.order, h.sound⟩

theorem order_popped {s : CpuRun ε} {task : RunTask} {rank : Nat} {rest : List (RunTask × Nat)}
    (h : s.Ordered) (hq : s.taskQueue = (task, rank) :: rest) :
    (s.started ++ [rank]) ++ rest.map Prod.snd = List.range s.appended := by
  rw [← h.order, hq, List.append_assoc]
  rfl

theorem Ordered.step {s t : CpuRun ε} {a : RunAct ε} (h : s.Ordered) (hs : CpuRunStep s a t) :
    t.Ordered := by
  cases hs with
  | elsewhere a t ha he =>
    refine ⟨by rw [he.started, he.taskQueue, he.appended]; exact h.order, ?_⟩
    exact ⟨by rw [he.timers]; exact h.sound.keys, he.running.trans h.sound.running,
      by rw [he.pc, he.timers]; exact h.sound.rearm⟩
  | rearmed attached hpc => exact ⟨h.order, h.sound.rearmTimer_ hpc s.clock⟩
  | completed attached now hpc => exact ⟨order_schedule _ h.order, h.sound.completeTimers now⟩
  | handling attached i todo hpc hl =>
    exact ⟨h.order, h.sound.keys, h.sound.running, nofun⟩
  | found a loc ts ha hl => exact ⟨order_schedule ts h.order, h.sound⟩
  | workCompleted attached work todo nr hpc hl hr => exact ⟨order_schedule _ h.order, h.sound⟩
  | roomReleased attached nr hpc hl hr => exact ⟨order_schedule _ h.order, h.sound⟩
  | eventReaped attached ev id todo n hpc hl hr => exact ⟨order_schedule _ h.order, h.sound⟩
  | slotsReleased attached n hpc hl hr => exact ⟨order_schedule _ h.order, h.sound⟩
  | bodyBegun attached kind left rank rest hpc hl hq => exact ⟨order_popped h hq, h.sound⟩
  | pushed attached work left rank rest hpc hl hq => exact ⟨order_popped h hq, h.sound⟩
  | finished attached id r left rank rest hpc hl hq =>
    exact ⟨order_schedule _ (order_popped h hq), h.sound⟩
  | issued pr res rq left rank rest hl hq =>
    exact ⟨order_schedule _ (order_popped h hq), h.sound⟩
  | scheduled kind k hpc hl => exact h.schedule _
  | timerAdded interval kind k hpc hl hpos => exact ⟨h.order, h.sound.addTimer hpos _⟩
  | called body errno k hpc hl => exact ⟨order_schedule _ h.order, h.sound⟩
  | requested opcode fd pos bytes k hpc hl => exact ⟨order_schedule _ h.order, h.sound⟩
  | ended r kind rank left hpc hl =>
    cases kind.run r <;> exact ⟨h.order, h.sound⟩
  | _ => exact ⟨h.order, h.sound⟩

/-- `lambda_task::run` is `noexcept`. -/
theorem escape_terminates {s t : CpuRun ε} {a : RunAct ε} (hs : CpuRunStep s a t)
    (he : s.Escapes a) : t.loc = .terminated := by
  obtain ⟨rank, left, e, hloc, rfl⟩ := he
  cases hs with
  | elsewhere a t ha he => cases ha
  | found a loc ts ha hl => cases ha
  | returned r hpc hl => exact nomatch hloc.symm.trans hl
  | ended r kind rank left hpc hl =>
    obtain rfl : .lambda = kind := by
      injection hloc.symm.trans hl with hb
      injection hb
    rfl

theorem kept_unless_escapes {s t : CpuRun ε} {a : RunAct ε} (hs : CpuRunStep s a t)
    (hsound : s.timers.Sound) (hin : s.loc ≠ .terminated) (hlog : s.logged = s.threw)
    (hno : ¬ s.Escapes a) : t.loc ≠ .terminated ∧ t.logged = t.threw := by
  cases hs with
  | elsewhere a t ha he =>
    rw [he.loc, he.logged, he.threw]
    exact ⟨hin, hlog⟩
  | delivered interrupts hsig hu =>
    refine ⟨?_, hlog⟩
    obtain hi | ⟨-, hi⟩ | ⟨-, -, hi⟩ := s.loc.interrupted_cases interrupts <;> rw [hi]
    · exact hin
    · exact nofun
    · exact nofun
  | rearmed attached hpc =>
    have hrun := (hsound.rearmTimer_ hpc s.clock).running
    refine ⟨?_, hlog⟩
    rw [hrun]
    exact hin
  | completed attached now hpc => exact ⟨hin, hlog⟩
  | loaded attached hpc hl =>
    refine ⟨?_, hlog⟩
    dsimp only
    split <;> exact nofun
  | found a loc ts ha hl =>
    cases a <;> cases ha <;> exact ⟨nofun, hlog⟩
  | workCompleted attached work todo nr hpc hl hr => exact ⟨hin, hlog⟩
  | eventReaped attached ev id todo n hpc hl hr => exact ⟨hin, hlog⟩
  | checked attached hpc hl =>
    refine ⟨?_, hlog⟩
    dsimp only
    split <;> exact nofun
  | scheduled kind k hpc hl => exact ⟨hin, hlog⟩
  | timerAdded interval kind k hpc hl hpos => exact ⟨hin, hlog⟩
  | called body errno k hpc hl => exact ⟨hin, hlog⟩
  | requested opcode fd pos bytes k hpc hl => exact ⟨hin, hlog⟩
  | ended r kind rank left hpc hl =>
    cases r with
    | ok v => exact ⟨nofun, by simpa [endTask, TaskKind.run, TaskKind.escapes] using hlog⟩
    | error e =>
      cases kind with
      | lambda => exact absurd ⟨rank, left, e, hl, rfl⟩ hno
      | continuation => exact ⟨nofun, hlog⟩
  | _ => exact ⟨nofun, hlog⟩

theorem runsAll_of_kept {s : CpuRun ε} (ho : s.Ordered) (hs : s.Served)
    (hk : s.loc ≠ .terminated ∧ s.logged = s.threw) : s.RunsAll where
  inOrder := ho.order
  all hl := by rw [← ho.order, hs.empty hl, List.map_nil, List.append_nil]
  goesOn := hk.1
  logged := hk.2

end CpuRun

open CpuRun

theorem cpu_run_ordered {tasks : List RunTask} {as : List (RunAct ε)} {s : CpuRun ε}
    (h : (cpuRunMachine tasks).Reaches as s) : s.Ordered :=
  h.invariant (init_ordered tasks) fun _ _ _ hi hst => hi.step (cpu_run_step_cases hst)

/-- In every run, the tasks that were started are the first ones that were appended, in that
order and each once. -/
theorem tasks_started_in_order {tasks : List RunTask} {as : List (RunAct ε)} {s : CpuRun ε}
    (h : (cpuRunMachine tasks).Reaches as s) :
    s.started ++ s.taskQueue.map Prod.snd = List.range s.appended := (cpu_run_ordered h).order

/-- Along any run, the tasks are started in order, all of them, and what escapes from one is
logged and does not end the loop, if and only if nothing escapes from a `lambda_task`. -/
theorem runs_all_iff (tasks : List RunTask) (as : List (RunAct ε)) :
    (cpuRunMachine tasks).Throughout RunsAll (.init tasks) as ↔
      (cpuRunMachine tasks).Meets (fun s a => ¬ s.Escapes a) (.init tasks) as := by
  have hserved : (CpuRun.init tasks : CpuRun ε).Served := served_of_busy (.inl rfl) rfl
  refine Machine.throughout_iff_meets (J := fun s => s.Ordered ∧ s.Served) ?_ ?_
    ⟨init_ordered tasks, hserved⟩
    (runsAll_of_kept (init_ordered tasks) hserved ⟨nofun, rfl⟩)
  · rintro s a t ⟨ho, hsv⟩ hst
    exact ⟨ho.step (cpu_run_step_cases hst), hsv.step (cpu_run_step_cases hst)⟩
  · rintro s a t ⟨ho, hsv⟩ hr hst
    have hs := cpu_run_step_cases hst
    refine ⟨fun ht he => ht.goesOn (escape_terminates hs he), fun hno => ?_⟩
    exact runsAll_of_kept (ho.step hs) (hsv.step hs)
      (kept_unless_escapes hs ho.sound hr.goesOn hr.logged hno)

/-- The first of two tasks throws: the second one is never started. -/
theorem throwing_task_terminates :
    ¬ (cpuRunMachine [.user .lambda, .user .lambda]).Throughout RunsAll
      (.init [.user .lambda, .user .lambda] : CpuRun Unit)
      [.go false, .go false, .go false, .go false, .getevents 0, .go false, .go false, .go false,
        .finish (.error (.user 0))] := by
  intro h
  have hr := h [.go false, .go false, .go false, .go false, .getevents 0, .go false, .go false,
    .go false, .finish (.error (.user 0))] [] _ rfl rfl
  exact hr.goesOn rfl

end Miniss
