import Miniss.CpuRunIdle

/-! Signals and the loop of `run`. A signal that is delivered leaves the data of the CPU as it
was and the thread where it stood; `run_idle_proc_` expects to be interrupted, but `reap_io`
takes an interrupted `io_getevents` for a failure, and its exception leaves `run`. -/
namespace Miniss
variable {ε : Type*}

def RunAct.ofThread : RunAct ε → Bool
  | .go _ | .issue .. | .getevents _ | .finish _ => true
  | _ => false

def RunLoc.running : RunLoc → Bool
  | .blocked | .exited _ | .terminated => false
  | _ => true

theorem exists_support_update {h : Nat → Option Nat} (hs : ∃ n, ∀ q, n ≤ q → h q = none)
    (pr : Nat) (v : Option Nat) : ∃ n, ∀ q, n ≤ q → Function.update h pr v q = none := by
  obtain ⟨n, hn⟩ := hs
  refine ⟨max n (pr + 1), fun q hq => ?_⟩
  rw [Function.update_of_ne (by omega)]
  exact hn q (by omega)

namespace CpuRun
open RunLoc

def GoesOn (s : CpuRun ε) : Prop := ∃ a, a.ofThread = true ∧ (s.step a).isSome = true

/-- The thread is in the loop of a poller only with what that loop is over, and there are free
addresses. -/
structure Ready (s : CpuRun ε) : Prop where
  polling : s.loc = .polling → ∃ todo nr, s.runner.cpu = .poll todo nr
  reaping : s.loc = .reaping → ∃ todo n, s.io.reap = .events todo n
  heap : ∃ n, ∀ pr, n ≤ pr → s.io.heap pr = none

theorem Ready.elsewhere {s t : CpuRun ε} (h : s.Ready) (he : s.Elsewhere t) : t.Ready where
  polling := by rw [he.loc, he.cpu]; exact h.polling
  reaping := by rw [he.loc, he.reap]; exact h.reaping
  heap := by rw [he.heap]; exact h.heap

theorem Ready.delivered {s : CpuRun ε} (h : s.Ready) (interrupts : Bool)
    (signals : BitVec 64) :
    Ready
      { s with
        sigalrm := false
        pendingSignals := signals
        loc := s.loc.interrupted interrupts } := by
  obtain he | ⟨-, he⟩ | ⟨-, -, he⟩ := s.loc.interrupted_cases interrupts <;> rw [he]
  · exact ⟨h.polling, h.reaping, h.heap⟩
  · exact ⟨nofun, nofun, h.heap⟩
  · exact ⟨nofun, nofun, h.heap⟩

theorem Ready.inBody {s t : CpuRun ε} (h : s.Ready) {k : Body} (hl : t.loc = .body k)
    (he : t.io.heap = s.io.heap) : t.Ready where
  polling hp := nomatch hl.symm.trans hp
  reaping hp := nomatch hl.symm.trans hp
  heap := he ▸ h.heap

theorem reapEvent_heap {f : FileIo} (h : ∃ n, ∀ pr, n ≤ pr → f.heap pr = none) (ev : IoEvent)
    (id : Nat) : ∃ n, ∀ pr, n ≤ pr → (f.reapEvent ev id).1.heap pr = none := by
  unfold FileIo.reapEvent
  split
  · exact h
  · exact exists_support_update h ev.data none

theorem submitIoImpl_heap {f : FileIo} (h : ∃ n, ∀ pr, n ≤ pr → f.heap pr = none)
    (rq : Request) (pr : Nat) (res : SubmitRes) :
    ∃ n, ∀ q, n ≤ q → (f.submitIoImpl_ rq pr res).1.heap q = none := by
  cases res with
  | accepted => exact exists_support_update h pr (some rq.id)
  | failed errno => exact exists_support_update h pr none

theorem Ready.step {s t : CpuRun ε} {a : RunAct ε} (h : s.Ready) (hs : CpuRunStep s a t) :
    t.Ready := by
  cases hs with
  | elsewhere a t ha he => exact h.elsewhere he
  | delivered interrupts hsig hu => exact h.delivered interrupts _
  | rearmed attached hpc =>
    refine ⟨fun hl => ?_, fun hl => ?_, h.heap⟩ <;> dsimp only at hl <;> split at hl
    all_goals first | cases hl | exact h.polling hl | exact h.reaping hl
  | completed attached now hpc => exact ⟨h.polling, h.reaping, h.heap⟩
  | loaded attached hpc hl =>
    refine ⟨fun hl => ?_, fun hl => ?_, h.heap⟩ <;> dsimp only at hl <;> split at hl <;> cases hl
  | found a loc ts ha hl =>
    cases a <;> cases ha <;> exact ⟨nofun, nofun, h.heap⟩
  | popped attached hpc hl => exact ⟨fun _ => ⟨_, _, rfl⟩, nofun, h.heap⟩
  | workCompleted attached work todo nr hpc hl hr =>
    exact ⟨fun _ => ⟨todo, nr, rfl⟩, fun hl' => (nomatch hl.symm.trans hl'), h.heap⟩
  | gotEvents n hl => exact ⟨nofun, fun _ => ⟨_, _, rfl⟩, h.heap⟩
  | eventReaped attached ev id todo n hpc hl hr =>
    exact ⟨fun hl' => (nomatch hl.symm.trans hl'), fun _ => ⟨todo, n, rfl⟩,
      reapEvent_heap h.heap ev id⟩
  | issued pr res rq left rank rest hl hq =>
    exact ⟨nofun, nofun, submitIoImpl_heap h.heap rq pr res⟩
  | checked attached hpc hl =>
    refine ⟨fun hl => ?_, fun hl => ?_, h.heap⟩ <;> dsimp only at hl <;> split at hl <;> cases hl
  | scheduled kind k hpc hl => exact h.inBody hl rfl
  | timerAdded interval kind k hpc hl hpos => exact h.inBody hl rfl
  | called body errno k hpc hl => exact h.inBody hl rfl
  | requested opcode fd pos bytes k hpc hl => exact h.inBody hl rfl
  | ended r kind rank left hpc hl =>
    cases kind.run r <;> exact ⟨nofun, nofun, h.heap⟩
  | _ => exact ⟨nofun, nofun, h.heap⟩

theorem goesOn_of_go {s : CpuRun ε} (h : (s.go false).isSome = true) : s.GoesOn :=
  ⟨.go false, rfl, h⟩

theorem Ready.batch_goesOn {s : CpuRun ε} (h : s.Ready) (hpc : s.timers.pc = .idle) {left : Nat}
    (hl : s.loc = .batch left) : s.GoesOn := by
  have hgo : s.go false = s.batchStep false left := by simp only [CpuRun.go, hpc, loopStep, hl]
  cases left with
  | zero => exact goesOn_of_go (by rw [hgo]; rfl)
  | succ left =>
    cases hq : s.taskQueue with
    | nil => exact goesOn_of_go (by simp only [hgo, batchStep, hq, Option.isSome_some])
    | cons p rest =>
      rcases p with ⟨kind | work | rq | ⟨id, r⟩, rank⟩
      case succ.cons.cpu.aio.submit =>
        -- `make_unique` finds an address.
        obtain ⟨n, hn⟩ := h.heap
        refine ⟨.issue n .accepted, rfl, ?_⟩
        simp only [CpuRun.step, issue, hl, hq, hn n le_rfl, Option.isSome_some]
      all_goals
        exact goesOn_of_go (by simp only [hgo, batchStep, hq, startTask, Option.isSome_some])

theorem Ready.goesOn {s : CpuRun ε} (h : s.Ready) (hl : s.loc.running = true) : s.GoesOn := by
  cases hpc : s.timers.pc with
  | rearm => exact goesOn_of_go (by simp only [CpuRun.go, hpc, Option.isSome_some])
  | complete now => exact goesOn_of_go (by simp only [CpuRun.go, hpc, Option.isSome_some])
  | idle =>
    have hgo : s.go false = s.loopStep false := by simp only [CpuRun.go, hpc]
    unfold loopStep at hgo
    cases hloc : s.loc with
    | polling =>
      obtain ⟨todo, nr, hr⟩ := h.polling hloc
      refine goesOn_of_go ?_
      cases todo <;> simp only [hgo, hloc, pollStep, hr, Option.isSome_some]
    | reaping =>
      obtain ⟨todo, n, hr⟩ := h.reaping hloc
      refine goesOn_of_go ?_
      cases todo <;> simp only [hgo, hloc, CpuRun.reapStep, hr, Option.isSome_some]
    | getevents =>
      refine ⟨.getevents 0, rfl, ?_⟩
      simp only [CpuRun.step, geteventsStep, hloc, Nat.zero_le, and_self, if_true,
        Option.isSome_some]
    | batch left => exact h.batch_goesOn hpc hloc
    | body k =>
      refine ⟨.finish (.ok ()), rfl, ?_⟩
      cases k <;> simp only [CpuRun.step, CpuRun.finish, hloc, hpc, Option.isSome_some]
    | handlers todo =>
      refine goesOn_of_go ?_
      cases todo <;> simp only [hgo, hloc, Option.isSome_some]
    | blocked => simp [hloc, running] at hl
    | exited e => simp [hloc, running] at hl
    | terminated => simp [hloc, running] at hl
    | _ => exact goesOn_of_go (by simp only [hgo, hloc, Option.isSome_some])

/-- A signal came at `s`: the CPU's data is as it was, the thread stands where it stood or is
behind `epoll_pwait`, and it goes on. -/
structure Unharmed (s t : CpuRun ε) : Prop where
  loc : t.loc = s.loc ∨ s.loc = .blocked ∧ t.loc = .unmask
  runner : t.runner = s.runner
  io : t.io = s.io
  timers : t.timers = s.timers
  taskQueue : t.taskQueue = s.taskQueue
  goesOn : t.GoesOn

/-- No exception has left `run`, and a signal does no harm. -/
def Tolerates (s : CpuRun ε) (a : RunAct ε) (t : CpuRun ε) : Prop :=
  (∀ e, t.loc ≠ .exited e) ∧ ∀ interrupts, a = .deliver interrupts → s.Unharmed t

def InterruptsReap (s : CpuRun ε) (a : RunAct ε) : Prop :=
  a = .deliver true ∧ s.loc = .getevents

/-- Only an interrupted `io_getevents` takes the thread out of `run`. -/
theorem exits_only {s t : CpuRun ε} {a : RunAct ε} (hs : CpuRunStep s a t)
    (hin : ∀ e, s.loc ≠ .exited e) {e : Exn} (he : t.loc = .exited e) : s.InterruptsReap a := by
  cases hs with
  | elsewhere a t ha hw => exact absurd (hw.loc.symm.trans he) (hin e)
  | delivered interrupts hsig hu =>
    obtain hi | ⟨-, hi⟩ | ⟨hl, rfl, -⟩ := s.loc.interrupted_cases interrupts
    · exact absurd (hi.symm.trans he) (hin e)
    · exact nomatch hi.symm.trans he
    · exact ⟨rfl, hl⟩
  | rearmed attached hpc =>
    dsimp only at he
    split at he
    · cases he
    · exact absurd he (hin e)
  | completed attached now hpc => exact absurd he (hin e)
  | loaded attached hpc hl =>
    dsimp only at he
    split at he <;> cases he
  | found a loc ts ha hl =>
    cases a <;> cases ha <;> cases he
  | workCompleted attached work todo nr hpc hl hr => exact absurd he (hin e)
  | eventReaped attached ev id todo n hpc hl hr => exact absurd he (hin e)
  | checked attached hpc hl =>
    dsimp only at he
    split at he <;> cases he
  | scheduled kind k hpc hl => exact absurd he (hin e)
  | timerAdded interval kind k hpc hl hpos => exact absurd he (hin e)
  | called body errno k hpc hl => exact absurd he (hin e)
  | requested opcode fd pos bytes k hpc hl => exact absurd he (hin e)
  | ended r kind rank left hpc hl =>
    revert he
    cases kind.run r <;> exact nofun
  | _ => cases he

theorem Ready.unharmed {s : CpuRun ε} (h : s.Ready) {interrupts : Bool} (signals : BitVec 64)
    (hu : s.loc.unmasked = true) (hno : ¬ s.InterruptsReap (.deliver interrupts)) :
    Unharmed s
      { s with
        sigalrm := false
        pendingSignals := signals
        loc := s.loc.interrupted interrupts } := by
  have hready := h.delivered interrupts signals
  obtain hi | ⟨hl, hi⟩ | ⟨hl, rfl, -⟩ := s.loc.interrupted_cases interrupts
  · have hrun : s.loc.running = true := by
      cases hloc : s.loc with
      | blocked => simp [hloc, interrupted] at hi
      | exited e => simp [hloc, RunLoc.unmasked] at hu
      | terminated => simp [hloc, RunLoc.unmasked] at hu
      | _ => rfl
    exact ⟨.inl hi, rfl, rfl, rfl, rfl, hready.goesOn ((congrArg running hi).trans hrun)⟩
  · exact ⟨.inr ⟨hl, hi⟩, rfl, rfl, rfl, rfl, hready.goesOn (congrArg running hi)⟩
  · exact absurd ⟨rfl, hl⟩ hno

theorem tolerates_iff {s t : CpuRun ε} {a : RunAct ε} (h : s.Ready)
    (hin : ∀ e, s.loc ≠ .exited e) (hs : CpuRunStep s a t) :
    s.Tolerates a t ↔ ¬ s.InterruptsReap a := by
  constructor
  · rintro ⟨hout, hsig⟩ ⟨rfl, hl⟩
    obtain hloc | ⟨hb, -⟩ := (hsig true rfl).loc
    · cases hs with
      | elsewhere a t ha hw => cases ha
      | delivered interrupts hsig hu =>
        have hi : s.loc.interrupted true = .exited (.systemError eintr.val) := by rw [hl]; rfl
        exact hout _ hi
      | found a loc ts ha hl => cases ha
    · exact nomatch hl.symm.trans hb
  · intro hno
    refine ⟨fun e he => hno (exits_only hs hin he), ?_⟩
    rintro interrupts rfl
    cases hs with
    | elsewhere a t ha hw => cases ha
    | delivered interrupts hsig hu => exact h.unharmed _ hu hno
    | found a loc ts ha hl => cases ha

end CpuRun

open CpuRun

theorem init_ready (tasks : List RunTask) : (CpuRun.init tasks : CpuRun ε).Ready :=
  ⟨nofun, nofun, 0, fun _ _ => rfl⟩

/-- Along any run, no exception leaves `run` and signals do no harm, if and only if none of
them makes `io_getevents` fail. -/
theorem signals_tolerated_iff (tasks : List RunTask) (as : List (RunAct ε)) :
    (cpuRunMachine tasks).Along Tolerates (.init tasks) as ↔
      (cpuRunMachine tasks).Meets (fun s a => ¬ s.InterruptsReap a) (.init tasks) as := by
  refine Machine.along_iff_meets (J := fun s => s.Ready ∧ ∀ e, s.loc ≠ .exited e) ?_ ?_
    ⟨init_ready tasks, nofun⟩
  · rintro s a t ⟨hr, -⟩ hp hst
    exact ⟨hr.step (cpu_run_step_cases hst), hp.1⟩
  · rintro s a t ⟨hr, hin⟩ hst
    exact tolerates_iff hr hin (cpu_run_step_cases hst)

/-- Another CPU's wake-up ends the loop: `SIGALRM` comes while `reap_io` is in
`io_getevents`. -/
theorem wakeup_leaves_run :
    ¬ (cpuRunMachine []).Along Tolerates (.init [] : CpuRun Unit)
      [.go false, .go false, .go false, .go false, .alarm, .deliver true] := by
  intro h
  obtain ⟨-, h⟩ := h _ rfl
  obtain ⟨-, h⟩ := h _ rfl
  obtain ⟨-, h⟩ := h _ rfl
  obtain ⟨-, h⟩ := h _ rfl
  obtain ⟨-, h⟩ := h _ rfl
  obtain ⟨⟨hout, -⟩, -⟩ := h _ rfl
  exact hout (.systemError 4) rfl

end Miniss
