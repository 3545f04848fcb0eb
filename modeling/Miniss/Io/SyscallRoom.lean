import Miniss.Io.SyscallSteps
import Miniss.Lib.Lists

/-! Room tokens of a `Syscall_runner`. A token is free, or held by a continuation that was
granted it, by a work waiting in `call_queue_`, by a result on its way back, or lost with a
work that was pushed into a full ring. The slots of a half-consumed batch are not counted by
the tokens, and that is where a push can fail. -/
namespace Miniss
variable {ε : Type*}

def WorkerPc.batch : WorkerPc → List Nat
  | .consume done todo => done ++ todo
  | .respond done work todo => done ++ work :: todo
  | _ => []

/-- Works of the batch that were answered while their slots are still taken. -/
def WorkerPc.answered : WorkerPc → Nat
  | .consume done _ => done.length
  | .respond done _ _ => done.length
  | _ => 0

/-- Tokens of popped results that `poll_results` has yet to release. -/
def CpuPc.held : CpuPc → Nat
  | .poll _ nr => nr
  | _ => 0

theorem WorkerPc.answered_le_batch (w : WorkerPc) : w.answered ≤ w.batch.length := by
  cases w <;> simp [answered, batch]

namespace SyscallRunner

/-- Tokens that no work waiting in `call_queue_` holds: the free ones, those of granted
continuations, and those of results that were not given back yet. -/
def tokensElsewhere (r : SyscallRunner ε) (q : List Nat) : Nat :=
  r.queueHasRoom.tokens + q.length + r.resultQueue.items.length + r.cpu.held

theorem completeWork_frame (r : SyscallRunner ε) (work : Nat) :
    ∃ resolved heap freed aborted fault, r.completeWork work =
      { r with
        completed := r.completed ++ [work]
        resolved := resolved
        heap := heap
        freed := freed
        aborted := aborted
        fault := fault } := by
  unfold completeWork
  split
  · exact ⟨_, _, _, _, _, rfl⟩
  · split <;> exact ⟨_, _, _, _, _, rfl⟩

theorem processWork_frame (r : SyscallRunner ε) (work : Nat) :
    ∃ heap fault, r.processWork work =
      { r with processed := r.processed ++ [work], heap := heap, fault := fault } := by
  unfold processWork
  split <;> exact ⟨_, _, rfl⟩

structure Rooms (r : SyscallRunner ε) (q : List Nat) : Prop where
  batch : r.worker.batch <+: r.callQueue.items
  entries : ∀ e ∈ r.queueHasRoom.waitingList, e.tokens = 1
  tokens : r.tokensElsewhere q + r.callQueue.items.length + r.dropped.length =
    queueSize + r.worker.answered
  lost : r.lost = []

theorem rooms_init : Rooms (init : SyscallRunner ε) [] where
  batch := List.nil_prefix
  entries := by simp [init]
  tokens := rfl
  lost := rfl

/-- Answered works are in the ring, so the tokens never exceed the ring's size. -/
theorem Rooms.tokens_le {r : SyscallRunner ε} {q : List Nat} (h : Rooms r q) :
    r.tokensElsewhere q + r.dropped.length ≤ queueSize := by
  have hb := h.batch.length_le
  have ha := r.worker.answered_le_batch
  have ht := h.tokens
  omega

/-- A work that is being answered still holds its token, so its result finds a slot. -/
theorem Rooms.result_room {r : SyscallRunner ε} {q done todo : List Nat} {work : Nat}
    (h : Rooms r q) (hw : r.worker = .respond done work todo) :
    r.resultQueue.items.length < queueSize := by
  have hb := h.batch.length_le
  have ht := h.tokens
  simp only [hw, WorkerPc.batch, WorkerPc.answered, List.length_append, List.length_cons,
    tokensElsewhere] at hb ht
  omega

theorem Rooms.release {r : SyscallRunner ε} {q : List Nat} {nr : Nat} (h : Rooms r q)
    (hcpu : r.cpu = .poll [] nr) :
    Rooms (r.releaseRoom nr).1 (q ++ (r.releaseRoom nr).2) := by
  have hle := h.tokens_le
  have ht := h.tokens
  simp only [tokensElsewhere, hcpu, CpuPc.held, queueSize] at hle ht
  have hadd : sizeAdd r.queueHasRoom.tokens nr = r.queueHasRoom.tokens + nr :=
    sizeAdd_of_lt (by omega)
  obtain ⟨-, hr⟩ | ⟨e, rest, hl, hge, hr⟩ := r.queueHasRoom.release_cases nr
  · refine ⟨?_, ?_, ?_, ?_⟩ <;> simp only [releaseRoom, hr]
    · exact h.batch
    · exact h.entries
    · simp [tokensElsewhere, CpuPc.held, hadd, queueSize]
      omega
    · exact h.lost
  · have he : e.tokens = 1 := h.entries e (by simp [hl])
    rw [hadd, he] at hge
    refine ⟨?_, ?_, ?_, ?_⟩ <;> simp only [releaseRoom, hr]
    · exact h.batch
    · exact fun e' he' => h.entries e' (by simp [hl, he'])
    · simp [tokensElsewhere, CpuPc.held, hadd, he, queueSize]
      omega
    · exact h.lost

theorem Rooms.step {r r' : SyscallRunner ε} {q q' : List Nat} {a : RunnerAct ε}
    (h : Rooms r q) (hs : RunnerStep r q a r' q') : Rooms r' q' := by
  have ht := h.tokens
  simp only [tokensElsewhere] at ht
  cases hs with
  | granted body errno hcpu hlt he =>
    refine ⟨h.batch, by simp, ?_, h.lost⟩
    simp [record, tokensElsewhere]
    omega
  | parked body errno hcpu =>
    exact ⟨h.batch, forall_mem_concat h.entries rfl, ht, h.lost⟩
  | pushed work rest hcpu hq hroom =>
    have hp := (r.callQueue.push_of_lt work hroom).1
    subst hq
    refine ⟨?_, h.entries, ?_, h.lost⟩
    · simp only [hp]
      exact h.batch.trans (List.prefix_append _ _)
    · simp [tokensElsewhere, hp, CpuPc.held, hcpu] at ht ⊢
      omega
  | dropped work rest hcpu hq hfull =>
    subst hq
    refine ⟨h.batch, h.entries, ?_, h.lost⟩
    simp [tokensElsewhere, CpuPc.held, hcpu] at ht ⊢
    omega
  | popped hcpu =>
    refine ⟨h.batch, h.entries, ?_, h.lost⟩
    have hf := r.resultQueue.fits
    simp [tokensElsewhere, pollResults, BoundedFifo.pop, CpuPc.held, hcpu] at ht ⊢
    omega
  | destroyed hcpu =>
    refine ⟨h.batch, h.entries, ?_, h.lost⟩
    simpa [tokensElsewhere, destroy, CpuPc.held, hcpu] using ht
  | signalled hcpu | joining hcpu =>
    refine ⟨h.batch, h.entries, ?_, h.lost⟩
    simpa [tokensElsewhere, CpuPc.held, hcpu] using ht
  | completed work todo nr hcpu =>
    obtain ⟨resolved, heap, freed, aborted, fault, hc⟩ := r.completeWork_frame work
    rw [hc]
    refine ⟨h.batch, h.entries, ?_, h.lost⟩
    simpa [tokensElsewhere, CpuPc.held, hcpu] using ht
  | released nr hcpu => exact h.release hcpu
  | looped hw | tested hw =>
    refine ⟨?_, h.entries, ?_, h.lost⟩
    · cases hstop : r.stop <;> simp [WorkerPc.batch]
    · cases hstop : r.stop <;>
        simpa [tokensElsewhere, WorkerPc.answered, hw] using ht
  | awoken hw | drained hw | restarted hw =>
    refine ⟨List.nil_prefix, h.entries, ?_, h.lost⟩
    simpa [tokensElsewhere, WorkerPc.answered, hw] using ht
  | batch hw hne =>
    refine ⟨List.prefix_refl _, h.entries, ?_, h.lost⟩
    simpa [tokensElsewhere, WorkerPc.answered, hw] using ht
  | processed done work todo hw =>
    obtain ⟨heap, fault, hp⟩ := r.processWork_frame work
    rw [hp]
    have hb := h.batch
    refine ⟨?_, h.entries, ?_, h.lost⟩
    · simpa only [hw, WorkerPc.batch] using hb
    · simpa [tokensElsewhere, WorkerPc.answered, hw] using ht
  | responded done work todo hw =>
    have hp := r.resultQueue.push_of_lt work (h.result_room hw)
    have hb := h.batch
    refine ⟨?_, h.entries, ?_, ?_⟩
    · simpa [respond_, hw, WorkerPc.batch] using hb
    · simp [tokensElsewhere, respond_, WorkerPc.answered, hw, hp.1] at ht ⊢
      omega
    · simp [respond_, hp.2, h.lost]
  | finished done hw =>
    have hb := h.batch.length_le
    simp only [hw, WorkerPc.batch, List.append_nil] at hb
    refine ⟨List.nil_prefix, h.entries, ?_, h.lost⟩
    simp [tokensElsewhere, WorkerPc.answered, hw] at ht ⊢
    omega

end SyscallRunner

open SyscallRunner

namespace RunnerState

/-- Every push so far found a free slot, and no token is gone: those that are not held by
an unanswered work in `call_queue_` are all elsewhere. -/
def Kept (s : RunnerState ε) : Prop :=
  s.runner.dropped = [] ∧
  s.runner.tokensElsewhere s.tasks + s.runner.callQueue.items.length =
    queueSize + s.runner.worker.answered

theorem kept_iff_dropped {s : RunnerState ε} (h : Rooms s.runner s.tasks) :
    s.Kept ↔ s.runner.dropped = [] := by
  refine ⟨fun hk => hk.1, fun hd => ⟨hd, ?_⟩⟩
  have ht := h.tokens
  rw [hd] at ht
  exact ht

/-- The works of the worker's current batch that are answered, and whose slots are still
taken, are fewer than the tokens that no unanswered work in `call_queue_` holds. -/
def PushFits (s : RunnerState ε) : RunnerAct ε → Prop
  | .runTask => s.runner.worker.answered < s.runner.tokensElsewhere s.tasks
  | _ => True

theorem pushFits_iff_room {s : RunnerState ε} (h : Rooms s.runner s.tasks) (hk : s.Kept) :
    s.PushFits .runTask ↔ s.runner.callQueue.items.length < queueSize := by
  have ht := h.tokens
  rw [hk.1] at ht
  simp only [PushFits, List.length_nil] at ht ⊢
  omega

theorem step_kept_iff {s t : RunnerState ε} {a : RunnerAct ε}
    (h : Rooms s.runner s.tasks) (hk : s.Kept) (hst : runnerMachine.step s a = some t) :
    t.Kept ↔ s.PushFits a := by
  have hs := runner_step_cases hst
  rw [kept_iff_dropped (h.step hs)]
  obtain ⟨r, q⟩ := t
  have hd := hk.1
  simp only at hs ⊢
  cases hs with
  | pushed work rest hcpu hq hroom =>
    simpa [hd] using (pushFits_iff_room h hk).mpr hroom
  | dropped work rest hcpu hq hfull =>
    simpa [pushFits_iff_room h hk] using hfull
  | completed work todo nr hcpu =>
    obtain ⟨_, _, _, _, _, hc⟩ := s.runner.completeWork_frame work
    simpa [hc, PushFits] using hd
  | processed done work todo hw =>
    obtain ⟨_, _, hp⟩ := s.runner.processWork_frame work
    simpa [hp, PushFits] using hd
  | _ => exact ⟨fun _ => trivial, fun _ => hd⟩

end RunnerState

/-- No submitted call is dropped, in any state of a run, if and only if every push of the
run is made while fewer works of the worker's batch are answered than tokens are elsewhere:
a token that came back from the current batch does not stand for a free slot. -/
theorem submits_kept_iff (as : List (RunnerAct ε)) :
    runnerMachine.Throughout RunnerState.Kept runnerMachine.init as ↔
      runnerMachine.Meets RunnerState.PushFits runnerMachine.init as :=
  Machine.throughout_iff_meets (J := fun s => Rooms s.runner s.tasks)
    (fun _ _ _ hi hst => hi.step (runner_step_cases hst))
    (fun _ _ _ hi hk hst => RunnerState.step_kept_iff hi hk hst) rooms_init
    ((RunnerState.kept_iff_dropped rooms_init).mpr rfl)

def runTasks (n : Nat) : List (RunnerAct Unit) :=
  (List.replicate n [RunnerAct.runTask, .cpu]).flatten

/-- One `poll_results` that finds `n` results. -/
def pollPass (n : Nat) : List (RunnerAct Unit) :=
  .pollResults :: List.replicate (n + 1) .cpu

/-- One task submits 129 calls. The worker takes the first as a batch of its own and has
answered it, but not left `consume_all`, when the CPU releases its token; the loop runs
eight tasks between two polls. -/
def overfullRun : List (RunnerAct Unit) :=
  List.replicate 129 (.submit (.int 0) ⟨1, by decide⟩) ++ pollPass 0 ++
  runTasks 1 ++ List.replicate 6 .worker ++ runTasks 7 ++ pollPass 1 ++
  (List.replicate 15 (runTasks 8 ++ pollPass 0)).flatten ++ [.runTask]

/-- The last of the 129 calls is pushed into a ring of 128 taken slots and discarded. -/
theorem overfullRun_drops :
    ¬ runnerMachine.Throughout RunnerState.Kept runnerMachine.init overfullRun := by
  have hrun : ((runnerMachine.exec runnerMachine.init overfullRun).map
      fun s => s.runner.dropped) = some [128] := by decide +kernel
  obtain ⟨s, hs, hd⟩ := Option.map_eq_some_iff.mp hrun
  intro h
  have hk := (h overfullRun [] s (List.append_nil _).symm hs).1
  rw [hd] at hk
  cases hk

end Miniss
