import Miniss.Io.SyscallOrder

/-! The end of a `Syscall_runner`: its destructor asks the worker to stop, signals it, and joins
it. The worker may be anywhere in `worker_run_` then. -/
namespace Miniss
variable {ε : Type*}

/-- The worker is in the inner loop, which it leaves only when `call_queue_` is empty. -/
def WorkerPc.draining : WorkerPc → Bool
  | .drain | .consume _ _ | .respond _ _ _ | .wake => true
  | _ => false

/-- The steps of a worker that is to stop and finds `n` works in `call_queue_`. -/
def drainSteps (n : Nat) : Nat := if n = 0 then 2 else 2 * n + 5

namespace SyscallRunner

/-- The steps of the worker to its end, when it is to stop. -/
def stepsToExit (r : SyscallRunner ε) : Nat :=
  match r.worker with
  | .loop | .woken => 1
  | .wait => 2
  | .drain => drainSteps r.callQueue.items.length
  | .consume done todo =>
    2 * todo.length + 2 + drainSteps (r.callQueue.items.length - done.length - todo.length)
  | .respond done _ todo =>
    2 * todo.length + 3 + drainSteps (r.callQueue.items.length - done.length - 1 - todo.length)
  | .wake => 1 + drainSteps r.callQueue.items.length
  | .exited => 0

/-- The steps of both threads until the destructor has joined the worker. -/
def stepsToJoin (r : SyscallRunner ε) : Nat :=
  match r.cpu with
  | .stopping => r.stepsToExit + 1
  | _ => r.stepsToExit

/-- The stop is requested, and the destructor has signalled it or is about to. -/
def Stopping (r : SyscallRunner ε) : Prop :=
  r.stop = true ∧
    (r.cpu = .stopping ∨ r.cpu = .destroyed ∧ (r.worker = .wait → r.interrupter ≠ 0))

theorem Stopping.cpu_cases {r : SyscallRunner ε} (h : r.Stopping) :
    r.cpu = .stopping ∨ r.cpu = .destroyed := h.2.imp_right And.left

/-- A step of the worker leaves what the destructor has done as it is. -/
theorem Stopping.worker {r r' : SyscallRunner ε} (h : r.Stopping) (hcpu : r'.cpu = r.cpu)
    (hstop : r'.stop = r.stop) (hwait : r'.worker ≠ .wait)
    (hsteps : r.stepsToExit = r'.stepsToExit + 1) :
    r'.Stopping ∧ r.stepsToJoin = r'.stepsToJoin + 1 := by
  refine ⟨⟨hstop.trans h.1, ?_⟩, ?_⟩
  · rw [hcpu]
    exact h.2.imp_right fun hd => ⟨hd.1, fun hw => absurd hw hwait⟩
  · obtain hc | hc := h.cpu_cases
    · rw [stepsToJoin, stepsToJoin, hcpu, hc, hsteps]
    · rw [stepsToJoin, stepsToJoin, hcpu, hc, hsteps]

/-- Once the stop is requested, nothing but the end of the destructor and of the worker is left
to do, and each step goes towards it. -/
theorem Stopping.step {r r' : SyscallRunner ε} {q q' : List Nat} {a : RunnerAct ε}
    (h : r.Stopping) (hs : RunnerStep r q a r' q') :
    r'.Stopping ∧ r.stepsToJoin = r'.stepsToJoin + 1 := by
  have hstop := h.1
  cases hs with
  | granted _ _ hother | parked _ _ hother | pushed _ _ hother | dropped _ _ hother
  | popped hother | destroyed hother | signalled hother | completed _ _ _ hother
  | released _ hother =>
    obtain hc | hc := h.cpu_cases <;> cases hc.symm.trans hother
  | joining hcpu =>
    refine ⟨⟨hstop, .inr ⟨rfl, fun _ => Nat.succ_ne_zero _⟩⟩, ?_⟩
    rw [stepsToJoin, hcpu]
    rfl
  | looped hw | tested hw =>
    exact h.worker rfl rfl (by simp [hstop]) (by simp [stepsToExit, hw, hstop])
  | awoken hw => exact h.worker rfl rfl (by simp) (by simp [stepsToExit, hw])
  | drained hw he => exact h.worker rfl rfl (by simp) (by simp [stepsToExit, hw, he, drainSteps])
  | batch hw hne =>
    have hlen : r.callQueue.items.length ≠ 0 := mt List.length_eq_zero_iff.mp hne
    refine h.worker rfl rfl (by simp) ?_
    simp only [stepsToExit, hw, drainSteps, hlen, if_false, List.length_nil, Nat.sub_zero,
      Nat.sub_self, if_true]
  | processed done work todo hw =>
    obtain ⟨heap, fault, he⟩ := r.processWork_frame work
    rw [he]
    refine h.worker rfl rfl (by simp) ?_
    have hleft : r.callQueue.items.length - done.length - (todo.length + 1) =
        r.callQueue.items.length - done.length - 1 - todo.length := by omega
    simp only [stepsToExit, hw, List.length_cons, hleft]
    omega
  | responded done work todo hw =>
    refine h.worker rfl rfl (by simp) ?_
    have hleft : r.callQueue.items.length - (done.length + 1) - todo.length =
        r.callQueue.items.length - done.length - 1 - todo.length := by omega
    simp only [stepsToExit, hw, respond_, List.length_append, List.length_singleton, hleft]
    omega
  | finished done hw =>
    refine h.worker rfl rfl (by simp) ?_
    simp only [stepsToExit, hw, BoundedFifo.discard_items, List.length_drop, List.length_nil,
      Nat.sub_zero]
    omega
  | restarted hw =>
    refine h.worker rfl rfl (by simp) ?_
    simp only [stepsToExit, hw]
    omega

theorem Stopping.workerStep_isSome {r : SyscallRunner ε} (h : r.Stopping)
    (hcpu : r.cpu = .destroyed) (hw : r.worker ≠ .exited) : r.workerStep.isSome := by
  have hwait : r.worker = .wait → r.interrupter ≠ 0 := by
    obtain hc | hd := h.2
    · cases hc.symm.trans hcpu
    · exact hd.2
  unfold workerStep
  split
  · rfl
  · rw [if_neg (hwait ‹_›)]
    rfl
  · rfl
  · split <;> rfl
  · rfl
  · rfl
  · rfl
  · rfl
  · exact absurd ‹_› hw

/-- The worker is in its inner loop, or it has left `call_queue_` empty. -/
def Emptying (r : SyscallRunner ε) : Prop :=
  r.worker.draining = true ∨
    r.callQueue.items = [] ∧ (r.worker = .loop ∨ r.worker = .exited)

/-- The worker comes to no more works: `items` stay in `call_queue_`. -/
def Leaving (items : List Nat) (r : SyscallRunner ε) : Prop :=
  r.worker.draining = false ∧ r.callQueue.items = items

theorem Emptying.step {r r' : SyscallRunner ε} {q q' : List Nat} {a : RunnerAct ε}
    (h : r.Emptying) (hr : r.Stopping) (hs : RunnerStep r q a r' q') : r'.Emptying := by
  have hstop := hr.1
  cases hs with
  | granted _ _ hother | parked _ _ hother | pushed _ _ hother | dropped _ _ hother
  | popped hother | destroyed hother | signalled hother | completed _ _ _ hother
  | released _ hother =>
    obtain hc | hc := hr.cpu_cases <;> cases hc.symm.trans hother
  | joining => exact h
  | looped hw =>
    obtain hd | ⟨he, -⟩ := h
    · rw [hw] at hd
      cases hd
    · exact .inr ⟨he, .inr (by rw [hstop]; rfl)⟩
  | awoken hw | tested hw =>
    obtain hd | ⟨-, hl | hx⟩ := h
    · rw [hw] at hd
      cases hd
    · cases hw.symm.trans hl
    · cases hw.symm.trans hx
  | drained hw he => exact .inr ⟨he, .inl rfl⟩
  | batch | processed | responded | finished | restarted => exact .inl rfl

theorem Leaving.step {r r' : SyscallRunner ε} {q q' items : List Nat} {a : RunnerAct ε}
    (h : Leaving items r) (hr : r.Stopping) (hs : RunnerStep r q a r' q') :
    Leaving items r' := by
  have hstop := hr.1
  cases hs with
  | granted _ _ hother | parked _ _ hother | pushed _ _ hother | dropped _ _ hother
  | popped hother | destroyed hother | signalled hother | completed _ _ _ hother
  | released _ hother =>
    obtain hc | hc := hr.cpu_cases <;> cases hc.symm.trans hother
  | joining => exact h
  | looped | tested => exact ⟨by rw [hstop]; rfl, h.2⟩
  | awoken => exact ⟨rfl, h.2⟩
  | drained hw | batch hw | processed _ _ _ hw | responded _ _ _ hw | finished _ hw
  | restarted hw =>
    have hd := h.1
    rw [hw] at hd
    cases hd

theorem Rooms.stepsToJoin_le {r : SyscallRunner ε} {q : List Nat} (h : Rooms r q) :
    r.stepsToJoin ≤ 2 * queueSize + 8 := by
  have hfits := r.callQueue.fits
  have hbatch := h.batch.length_le
  have hdrain (n : Nat) : drainSteps n ≤ 2 * n + 5 := by
    unfold drainSteps
    split <;> omega
  have hexit : r.stepsToExit ≤ 2 * queueSize + 7 := by
    unfold stepsToExit
    split
    · omega
    · omega
    · omega
    · have hn := hdrain r.callQueue.items.length
      omega
    · rename_i done todo hw
      have hn := hdrain (r.callQueue.items.length - done.length - todo.length)
      rw [hw, WorkerPc.batch, List.length_append] at hbatch
      omega
    · rename_i done work todo hw
      have hn := hdrain (r.callQueue.items.length - done.length - 1 - todo.length)
      rw [hw, WorkerPc.batch, List.length_append, List.length_cons] at hbatch
      omega
    · have hn := hdrain r.callQueue.items.length
      omega
    · omega
  unfold stepsToJoin
  split <;> omega

end SyscallRunner

open SyscallRunner

theorem RunnerStep.stopping {r r' : SyscallRunner ε} {q q' : List Nat} {a : RunnerAct ε}
    (hs : RunnerStep r q a r' q') (h : r.stop = true → r.Stopping) (hstop : r'.stop = true) :
    r'.Stopping := by
  by_cases hd : r.stop = true
  · exact ((h hd).step hs).1
  · cases hs with
    | destroyed => exact ⟨rfl, .inl rfl⟩
    | completed work =>
      obtain ⟨_, _, _, _, _, he⟩ := r.completeWork_frame work
      rw [he] at hstop
      exact absurd hstop hd
    | processed done work =>
      obtain ⟨_, _, he⟩ := r.processWork_frame work
      rw [he] at hstop
      exact absurd hstop hd
    | _ => exact absurd hstop hd

theorem stopping_of_stop {as : List (RunnerAct ε)} {s : RunnerState ε}
    (h : runnerMachine.Reaches as s) (hstop : s.runner.stop = true) : s.runner.Stopping :=
  h.invariant (I := fun s => s.runner.stop = true → s.runner.Stopping) nofun
    (fun _ _ _ hs hst => (runner_step_cases hst).stopping hs) hstop

theorem SyscallRunner.Stopping.exec {I : SyscallRunner ε → Prop} {bs : List (RunnerAct ε)}
    {s t : RunnerState ε} (h : s.runner.Stopping) (hi : I s.runner)
    (hstep : ∀ {r r' q q' a}, I r → r.Stopping → RunnerStep r q a r' q' → I r')
    (ht : runnerMachine.exec s bs = some t) : t.runner.Stopping ∧ I t.runner :=
  Machine.exec_invariant (I := fun s : RunnerState ε => s.runner.Stopping ∧ I s.runner)
    (fun _ _ _ hs hst => ⟨(hs.1.step (runner_step_cases hst)).1,
      hstep hs.2 hs.1 (runner_step_cases hst)⟩) ⟨h, hi⟩ ht

/-- When neither thread can go on, the destructor has signalled and the worker is at its end. -/
theorem SyscallRunner.Stopping.ended {t : RunnerState ε} (h : t.runner.Stopping)
    (hend : ∀ a, runnerMachine.step t a = none) :
    t.runner.cpu = .destroyed ∧ t.runner.worker = .exited := by
  have hcpu : t.runner.cpu = .destroyed := by
    refine h.cpu_cases.resolve_left fun hc => ?_
    have hstep := hend .cpu
    simp [runnerMachine, RunnerState.step, cpuStep, hc] at hstep
  refine ⟨hcpu, ?_⟩
  by_contra hne
  obtain ⟨r, hr⟩ := Option.isSome_iff_exists.mp (h.workerStep_isSome hcpu hne)
  have hstep : runnerMachine.step t .worker = some ⟨r, t.tasks⟩ := congrArg (Option.map _) hr
  cases (hend .worker).symm.trans hstep

/-- The destructor's join returns: wherever the worker is when the stop is requested, at most
`2 * queueSize + 8` steps follow, and nothing stops before the worker's end. A worker in its inner
loop leaves no work in `call_queue_`, and any other one leaves them all. -/
theorem destructor_joins {as bs : List (RunnerAct ε)} {s t : RunnerState ε}
    (h : runnerMachine.Reaches as s) (hstop : s.runner.stop = true)
    (ht : runnerMachine.exec s bs = some t) :
    bs.length ≤ 2 * queueSize + 8 ∧
      ((∀ a, runnerMachine.step t a = none) →
        t.runner.cpu = .destroyed ∧ t.runner.worker = .exited ∧
        t.runner.callQueue.items =
          if s.runner.worker.draining then [] else s.runner.callQueue.items) := by
  have hs := stopping_of_stop h hstop
  refine ⟨?_, fun hend => ?_⟩
  · have hmeasure := Machine.exec_measure (I := fun s : RunnerState ε => s.runner.Stopping)
      (μ := fun s => s.runner.stepsToJoin)
      (fun _ _ _ hs hst => hs.step (runner_step_cases hst)) hs ht
    have hle := (inv_reachable h).rooms.stepsToJoin_le
    omega
  · cases hd : s.runner.worker.draining with
    | true =>
      obtain ⟨hstopped, hempty⟩ := hs.exec (.inl hd : s.runner.Emptying) Emptying.step ht
      obtain ⟨hcpu, hexited⟩ := hstopped.ended hend
      refine ⟨hcpu, hexited, ?_⟩
      obtain hdrain | ⟨he, -⟩ := hempty
      · rw [hexited] at hdrain
        cases hdrain
      · exact he
    | false =>
      obtain ⟨hstopped, -, hitems⟩ := hs.exec (I := Leaving s.runner.callQueue.items) ⟨hd, rfl⟩
        Leaving.step ht
      obtain ⟨hcpu, hexited⟩ := hstopped.ended hend
      exact ⟨hcpu, hexited, hitems⟩

/-- The stop is requested when the worker is in its inner loop and has not yet looked into
`call_queue_`. -/
def destroyedRun : List (RunnerAct Unit) :=
  [.worker, .submit (.int 0) ⟨1, Int.one_pos⟩, .runTask, .cpu, .worker, .worker, .destroy]

theorem destructor_joins_draining : ∃ s t : RunnerState Unit,
    runnerMachine.Reaches destroyedRun s ∧
    runnerMachine.exec s (.cpu :: List.replicate 7 .worker) = some t ∧
    s.runner.callQueue.items = [0] ∧ t.runner.worker = .exited ∧
    t.runner.callQueue.items = [] := by
  have hreach : ∃ s : RunnerState Unit, runnerMachine.Reaches destroyedRun s ∧
      s.runner.stop = true ∧ s.runner.worker = .drain ∧ s.runner.callQueue.items = [0] :=
    ⟨_, rfl, rfl, rfl, rfl⟩
  obtain ⟨s, hs, hstop, hworker, hitems⟩ := hreach
  have hrun : ∃ t : RunnerState Unit,
      runnerMachine.Reaches (destroyedRun ++ .cpu :: List.replicate 7 .worker) t ∧
      t.runner.cpu = .destroyed ∧ t.runner.worker = .exited := ⟨_, rfl, rfl, rfl⟩
  obtain ⟨t, ht, hgone, hexited⟩ := hrun
  have hend (a : RunnerAct Unit) : runnerMachine.step t a = none := by
    cases a <;>
      simp [runnerMachine, RunnerState.step, cpuStep, workerStep, hgone, hexited]
  rw [Machine.Reaches, Machine.exec_append_of_eq hs] at ht
  obtain ⟨-, hexit, hempty⟩ := (destructor_joins hs hstop ht).2 hend
  rw [hworker] at hempty
  exact ⟨s, t, hs, ht, hitems, hexit, hempty⟩

end Miniss
