import Miniss.Io.SyscallRoom

/-! The worker of a `Syscall_runner` never sleeps on queued calls: a push is followed by a
signal, the eventfd keeps the signal, and the worker looks into the ring after it has read
the counter. -/
namespace Miniss
variable {ε : Type*}

/-- What a step makes of the number of results that the worker has pushed to `result_queue_`
since it last called `maybe_wakeup`. -/
def unannounced (r : SyscallRunner ε) : RunnerAct ε → Nat → Nat
  | .worker, n =>
    match r.worker with
    | .respond _ _ _ => n + 1
    | .wake => 0
    | _ => n
  | _, n => n

/-- A runner, with the number of results not yet announced to the CPU. -/
def announcingMachine : Machine (RunnerState ε × Nat) (RunnerAct ε) :=
  runnerMachine.recording 0 fun s => unannounced s.runner

def WorkerPc.answering : WorkerPc → Bool
  | .consume _ _ | .respond _ _ _ | .wake => true
  | _ => false

/-- The worker has left the inner loop, and goes to sleep unless it is to stop. -/
def WorkerPc.retiring : WorkerPc → Bool
  | .loop | .wait => true
  | _ => false

namespace SyscallRunner

/-- A worker that is to sleep has nothing to do, or a signal is there or about to come. -/
def Roused (r : SyscallRunner ε) : Prop :=
  r.worker.retiring = true → r.callQueue.items = [] ∨ r.interrupter ≠ 0 ∨ r.cpu = .signal

/-- Unless it is behind a push, the CPU thread leaves what rouses the worker as it is. -/
theorem Roused.of_cpu {r : SyscallRunner ε} (h : r.Roused)
    (hw : r.worker.retiring = true)
    (hcpu : r.cpu ≠ .signal) : r.callQueue.items = [] ∨ r.interrupter ≠ 0 :=
  or_assoc.mpr (h hw) |>.resolve_right hcpu

theorem Roused.step {r r' : SyscallRunner ε} {q q' : List Nat} {a : RunnerAct ε}
    (h : r.Roused) (hs : RunnerStep r q a r' q') : r'.Roused := by
  intro hw
  cases hs with
  | granted | parked => exact h hw
  | pushed | dropped => exact .inr (.inr rfl)
  | signalled | joining => exact .inr (.inl (Nat.succ_ne_zero _))
  | popped hcpu | destroyed hcpu => exact or_assoc.mp (.inl (h.of_cpu hw (by simp [hcpu])))
  | completed work todo nr hcpu =>
    obtain ⟨_, _, _, _, _, he⟩ := r.completeWork_frame work
    rw [he] at hw ⊢
    exact or_assoc.mp (.inl (h.of_cpu hw (by simp [hcpu])))
  | released nr hcpu => exact or_assoc.mp (.inl (h.of_cpu hw (by simp [hcpu])))
  | looped hl => exact h (by rw [hl]; rfl)
  | drained hd he => exact .inl he
  | tested => cases hstop : r.stop <;> simp [hstop, WorkerPc.retiring] at hw
  | awoken | batch | processed | responded | finished | restarted => cases hw

end SyscallRunner

open SyscallRunner

/-- What was pushed since the last `maybe_wakeup` was pushed in the batch the worker is in. -/
theorem RunnerStep.unannounced {r r' : SyscallRunner ε} {q q' : List Nat} {a : RunnerAct ε}
    {n : Nat} (hs : RunnerStep r q a r' q') (h : r.worker.answering = false → n = 0)
    (hw : r'.worker.answering = false) : unannounced r a n = 0 := by
  cases hs with
  | restarted hwake => simp [Miniss.unannounced, hwake]
  | looped hwait | awoken hwait | tested hwait | drained hwait =>
    rw [hwait] at h
    simpa [Miniss.unannounced, hwait] using h rfl
  | batch | processed | responded | finished => cases hw
  | completed work todo nr hcpu =>
    obtain ⟨_, _, _, _, _, he⟩ := r.completeWork_frame work
    rw [he] at hw
    exact h hw
  | _ => exact h hw

theorem announcing_inv {as : List (RunnerAct ε)} {s : RunnerState ε × Nat}
    (h : announcingMachine.Reaches as s) :
    s.1.runner.Roused ∧ (s.1.runner.worker.answering = false → s.2 = 0) := by
  refine h.invariant (I := fun s : RunnerState ε × Nat =>
    s.1.runner.Roused ∧ (s.1.runner.worker.answering = false → s.2 = 0)) ?_ ?_
  · exact ⟨fun _ => .inl rfl, fun _ => rfl⟩
  · rintro s a t ⟨hr, hn⟩ hst
    obtain ⟨hst, hf⟩ := Machine.recording_step.mp hst
    have hs := runner_step_cases hst
    exact ⟨hr.step hs, fun hw => hf ▸ hs.unannounced hn hw⟩

/-- In every interleaving, a worker that is blocked in `interrupter_.wait()` with the counter
at zero has an empty `call_queue_` or the CPU thread is between a push and its signal, and
whatever the worker has pushed to `result_queue_`, it has called `maybe_wakeup` since. -/
theorem worker_never_sleeps {as : List (RunnerAct ε)} {s : RunnerState ε} {n : Nat}
    (h : announcingMachine.Reaches as (s, n)) (hw : s.runner.worker = .wait)
    (hi : s.runner.interrupter = 0) :
    (s.runner.callQueue.items = [] ∨ s.runner.cpu = .signal) ∧ n = 0 := by
  obtain ⟨hr, hn⟩ := announcing_inv h
  refine ⟨?_, hn (by rw [hw]; rfl)⟩
  obtain he | hi' | hc := hr (by rw [hw]; rfl)
  · exact .inl he
  · exact absurd hi hi'
  · exact .inr hc

/-- The worker is asleep while the CPU thread has pushed one call and not signalled it. -/
theorem worker_never_sleeps_pushed : ∃ (s : RunnerState Unit) (n : Nat),
    announcingMachine.Reaches [.worker, .submit (.int 0) ⟨1, by decide⟩, .runTask] (s, n) ∧
      s.runner.callQueue.items = [0] ∧
      (s.runner.callQueue.items = [] ∨ s.runner.cpu = .signal) ∧ n = 0 := by
  refine ⟨_, _, rfl, rfl, ?_⟩
  exact worker_never_sleeps (ε := Unit) (rfl : announcingMachine.Reaches
    [.worker, .submit (.int 0) ⟨1, by decide⟩, .runTask] _) rfl rfl

end Miniss
