import Miniss.Io.SyscallRunner

/-! What one step of a runner can do, said once: every invariant of the runner is derived
from the cases below, and none unfolds the step function again. -/
namespace Miniss
variable {ε : Type*}

namespace SyscallRunner

/-- The runner after a `submit` has recorded its work item, before `submit_`. -/
def record (r : SyscallRunner ε) (body : SyscallBody ε) (errno : Errno) : SyscallRunner ε :=
  { r with
    heap := Function.update r.heap r.calls.length
      (some ⟨body, errno, (body.outcome errno).emptyHolder⟩)
    calls := r.calls ++ [(body, errno)] }

end SyscallRunner

open SyscallRunner

/-- The transitions of a runner, one constructor for each way a step can go. -/
inductive RunnerStep (r : SyscallRunner ε) (q : List Nat) :
    RunnerAct ε → SyscallRunner ε → List Nat → Prop where
  | granted (body : SyscallBody ε) (errno : Errno) (hcpu : r.cpu = .idle)
      (hlt : 1 < r.queueHasRoom.tokens) (he : r.queueHasRoom.waitingList = []) :
      RunnerStep r q (.submit body errno)
        { r.record body errno with queueHasRoom := ⟨r.queueHasRoom.tokens - 1, []⟩ }
        (q ++ [r.calls.length])
  | parked (body : SyscallBody ε) (errno : Errno) (hcpu : r.cpu = .idle) :
      RunnerStep r q (.submit body errno)
        { r.record body errno with
          queueHasRoom := ⟨r.queueHasRoom.tokens,
            r.queueHasRoom.waitingList ++ [⟨1, r.calls.length⟩]⟩ } q
  | pushed (work : Nat) (rest : List Nat) (hcpu : r.cpu = .idle) (hq : q = work :: rest)
      (hroom : r.callQueue.items.length < queueSize) :
      RunnerStep r q .runTask
        { r with
          callQueue := (r.callQueue.push work).1
          cpu := .signal
          executed := r.executed ++ [work] } rest
  | dropped (work : Nat) (rest : List Nat) (hcpu : r.cpu = .idle) (hq : q = work :: rest)
      (hfull : queueSize ≤ r.callQueue.items.length) :
      RunnerStep r q .runTask
        { r with
          cpu := .signal
          executed := r.executed ++ [work]
          dropped := r.dropped ++ [work] } rest
  | popped (hcpu : r.cpu = .idle) : RunnerStep r q .pollResults r.pollResults q
  | destroyed (hcpu : r.cpu = .idle) : RunnerStep r q .destroy r.destroy q
  | signalled (hcpu : r.cpu = .signal) :
      RunnerStep r q .cpu { r with interrupter := r.interrupter + 1, cpu := .idle } q
  | completed (work : Nat) (todo : List Nat) (nr : Nat)
      (hcpu : r.cpu = .poll (work :: todo) nr) :
      RunnerStep r q .cpu { r.completeWork work with cpu := .poll todo nr } q
  | released (nr : Nat) (hcpu : r.cpu = .poll [] nr) :
      RunnerStep r q .cpu (r.releaseRoom nr).1 (q ++ (r.releaseRoom nr).2)
  | joining (hcpu : r.cpu = .stopping) :
      RunnerStep r q .cpu { r with interrupter := r.interrupter + 1, cpu := .destroyed } q
  | looped (hw : r.worker = .loop) :
      RunnerStep r q .worker { r with worker := if r.stop then .exited else .wait } q
  | awoken (hw : r.worker = .wait) (hi : r.interrupter ≠ 0) :
      RunnerStep r q .worker { r with interrupter := 0, worker := .woken } q
  | tested (hw : r.worker = .woken) :
      RunnerStep r q .worker { r with worker := if r.stop then .exited else .drain } q
  | drained (hw : r.worker = .drain) (he : r.callQueue.items = []) :
      RunnerStep r q .worker { r with worker := .loop } q
  | batch (hw : r.worker = .drain) (hne : r.callQueue.items ≠ []) :
      RunnerStep r q .worker { r with worker := .consume [] r.callQueue.items } q
  | processed (done : List Nat) (work : Nat) (todo : List Nat)
      (hw : r.worker = .consume done (work :: todo)) :
      RunnerStep r q .worker { r.processWork work with worker := .respond done work todo } q
  | responded (done : List Nat) (work : Nat) (todo : List Nat)
      (hw : r.worker = .respond done work todo) :
      RunnerStep r q .worker
        { r.respond_ work with worker := .consume (done ++ [work]) todo } q
  | finished (done : List Nat) (hw : r.worker = .consume done []) :
      RunnerStep r q .worker
        { r with callQueue := r.callQueue.discard done.length, worker := .wake } q
  | restarted (hw : r.worker = .wake) :
      RunnerStep r q .worker { r with worker := .drain } q

theorem SyscallRunner.submit_cases (r : SyscallRunner ε) (body : SyscallBody ε) (errno : Errno) :
    (1 < r.queueHasRoom.tokens ∧ r.queueHasRoom.waitingList = [] ∧
      r.submit body errno =
        ({ r.record body errno with queueHasRoom := ⟨r.queueHasRoom.tokens - 1, []⟩ },
          [r.calls.length])) ∨
    r.submit body errno =
      ({ r.record body errno with
        queueHasRoom := ⟨r.queueHasRoom.tokens,
          r.queueHasRoom.waitingList ++ [⟨1, r.calls.length⟩]⟩ }, []) := by
  obtain ⟨hlt, he, hw⟩ | ⟨-, hw⟩ := r.queueHasRoom.wait_cases 1 r.calls.length
  · exact .inl ⟨hlt, he, by simp [SyscallRunner.submit, submit_, record, hw]⟩
  · exact .inr (by simp [SyscallRunner.submit, submit_, record, hw])

theorem submit_steps (r : SyscallRunner ε) (q : List Nat) (body : SyscallBody ε)
    (errno : Errno) (hcpu : r.cpu = .idle) :
    RunnerStep r q (.submit body errno) (r.submit body errno).1
      (q ++ (r.submit body errno).2) := by
  obtain ⟨hlt, he, hs⟩ | hs := r.submit_cases body errno
  · rw [hs]
    exact .granted body errno hcpu hlt he
  · rw [hs, List.append_nil]
    exact .parked body errno hcpu

theorem pushWork_steps (r : SyscallRunner ε) (work : Nat) (rest : List Nat)
    (hcpu : r.cpu = .idle) :
    RunnerStep r (work :: rest) .runTask (r.pushWork work) rest := by
  by_cases h : r.callQueue.items.length < queueSize
  · simpa [pushWork, (r.callQueue.push_of_lt work h).2] using
      RunnerStep.pushed work rest hcpu rfl h
  · have hf := Nat.not_lt.mp h
    simpa [pushWork, r.callQueue.push_of_le work hf] using
      RunnerStep.dropped work rest hcpu rfl hf

theorem cpuStep_steps (r r' : SyscallRunner ε) (q ts : List Nat)
    (h : r.cpuStep = some (r', ts)) : RunnerStep r q .cpu r' (q ++ ts) := by
  unfold cpuStep at h
  split at h
  case h_1 hcpu =>
    obtain ⟨rfl, rfl⟩ := Prod.mk.inj (Option.some.inj h)
    rw [List.append_nil]
    exact .signalled hcpu
  case h_2 work todo nr hcpu =>
    obtain ⟨rfl, rfl⟩ := Prod.mk.inj (Option.some.inj h)
    rw [List.append_nil]
    exact .completed work todo nr hcpu
  case h_3 nr hcpu =>
    obtain ⟨rfl, rfl⟩ := Prod.mk.inj (Option.some.inj h)
    exact .released nr hcpu
  case h_4 hcpu =>
    obtain ⟨rfl, rfl⟩ := Prod.mk.inj (Option.some.inj h)
    rw [List.append_nil]
    exact .joining hcpu
  case h_5 => cases h

theorem workerStep_steps (r r' : SyscallRunner ε) (q : List Nat)
    (h : r.workerStep = some r') : RunnerStep r q .worker r' q := by
  unfold workerStep at h
  split at h
  case h_1 hw =>
    cases h
    exact .looped hw
  case h_2 hw =>
    split at h
    case isTrue => cases h
    case isFalse hi =>
      cases h
      exact .awoken hw hi
  case h_3 hw =>
    cases h
    exact .tested hw
  case h_4 hw =>
    split at h
    case h_1 he =>
      cases h
      exact .drained hw he
    case h_2 work rest he =>
      cases h
      exact he ▸ .batch hw (by simp [he])
  case h_5 done work todo hw =>
    cases h
    exact .processed done work todo hw
  case h_6 done work todo hw =>
    cases h
    exact .responded done work todo hw
  case h_7 done hw =>
    cases h
    exact .finished done hw
  case h_8 hw =>
    cases h
    exact .restarted hw
  case h_9 => cases h

theorem runner_step_cases {s t : RunnerState ε} {a : RunnerAct ε}
    (h : runnerMachine.step s a = some t) :
    RunnerStep s.runner s.tasks a t.runner t.tasks := by
  change s.step a = some t at h
  unfold RunnerState.step at h
  cases a with
  | submit body errno =>
    simp only at h
    split at h
    case h_1 hcpu =>
      cases h
      exact submit_steps s.runner s.tasks body errno hcpu
    case h_2 => cases h
  | runTask =>
    simp only at h
    split at h
    case h_1 work rest hcpu hq =>
      cases h
      rw [hq]
      exact pushWork_steps s.runner work rest hcpu
    case h_2 => cases h
  | pollResults =>
    simp only at h
    split at h
    case h_1 hcpu =>
      cases h
      exact .popped hcpu
    case h_2 => cases h
  | destroy =>
    simp only at h
    split at h
    case h_1 hcpu =>
      cases h
      exact .destroyed hcpu
    case h_2 => cases h
  | cpu =>
    obtain ⟨⟨r', ts⟩, hr, rfl⟩ := Option.map_eq_some_iff.mp h
    exact cpuStep_steps s.runner r' s.tasks ts hr
  | worker =>
    obtain ⟨r', hr, rfl⟩ := Option.map_eq_some_iff.mp h
    exact workerStep_steps s.runner r' s.tasks hr

end Miniss
