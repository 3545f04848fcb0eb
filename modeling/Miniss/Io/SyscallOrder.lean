import Miniss.Io.SyscallRoom
import Mathlib.Data.List.Nodup

/-! The way of a work through a `Syscall_runner`. The containers on its path, read from
the last to the first, spell the sequence of the `submit` calls, less the works that a full
ring discarded; each work is owned by one container at a time. -/
namespace Miniss
variable {ε : Type*}

/-- Works of the batch that were processed, answered or not. -/
def WorkerPc.handled : WorkerPc → Nat
  | .consume done _ => done.length
  | .respond done _ _ => done.length + 1
  | _ => 0

def WorkerPc.responding : WorkerPc → List Nat
  | .respond _ work _ => [work]
  | _ => []

def CpuPc.popped : CpuPc → List Nat
  | .poll todo _ => todo
  | _ => []

namespace SyscallRunner

def parked (r : SyscallRunner ε) : List Nat := r.queueHasRoom.waitingList.map Entry.pr

/-- Works in `call_queue_` that were not processed. -/
def unprocessed (r : SyscallRunner ε) : List Nat := r.callQueue.items.drop r.worker.handled

/-- Processed works that were not completed, the oldest first. -/
def unreported (r : SyscallRunner ε) : List Nat :=
  r.cpu.popped ++ (r.resultQueue.items ++ r.worker.responding)

/-- The containers of the path, and the histories they leave. -/
structure Path (r : SyscallRunner ε) (q : List Nat) : Prop where
  order : List.range r.calls.length = r.executed ++ (q ++ r.parked)
  accepted : (r.processed ++ r.unprocessed).Sublist r.executed
  reported : r.processed = r.completed ++ r.unreported

theorem path_init : Path (init : SyscallRunner ε) [] := by
  constructor <;> simp [init, parked, unprocessed, unreported, CpuPc.popped,
    WorkerPc.responding]

theorem record_parked (r : SyscallRunner ε) (body : SyscallBody ε) (errno : Errno) :
    (r.record body errno).parked = r.parked := rfl

/-- In front of the functor, the unprocessed works are the rest of the batch and what was
pushed behind it. -/
theorem Rooms.unprocessed_cons {r : SyscallRunner ε} {q done todo : List Nat} {work : Nat}
    (h : Rooms r q) (hw : r.worker = .consume done (work :: todo)) :
    r.unprocessed = work :: r.callQueue.items.drop (done.length + 1) := by
  obtain ⟨rest, hr⟩ := h.batch
  rw [hw, WorkerPc.batch] at hr
  simp [unprocessed, hw, WorkerPc.handled, ← hr, List.drop_append]

theorem Rooms.drop_pushed {r : SyscallRunner ε} {q : List Nat} (h : Rooms r q)
    (work : Nat) (hroom : r.callQueue.items.length < queueSize) :
    (r.callQueue.push work).1.items.drop r.worker.handled = r.unprocessed ++ [work] := by
  have hle : r.worker.handled ≤ r.callQueue.items.length := by
    refine le_trans ?_ h.batch.length_le
    cases r.worker <;> simp [WorkerPc.handled, WorkerPc.batch]
  rw [(r.callQueue.push_of_lt work hroom).1, List.drop_append_of_le_length hle, unprocessed]

theorem unreported_pollResults {r : SyscallRunner ε} (hcpu : r.cpu = .idle) :
    r.pollResults.unreported = r.unreported := by
  have hf : r.resultQueue.items.take queueSize = r.resultQueue.items :=
    List.take_of_length_le r.resultQueue.fits
  have hz : r.resultQueue.items.drop queueSize = [] :=
    List.drop_of_length_le r.resultQueue.fits
  simp [unreported, pollResults, BoundedFifo.pop, CpuPc.popped, hcpu, hf, hz]

theorem Rooms.unreported_respond {r : SyscallRunner ε} {q done todo : List Nat} {work : Nat}
    (h : Rooms r q) (hw : r.worker = .respond done work todo) :
    unreported { r.respond_ work with worker := .consume (done ++ [work]) todo } =
      r.unreported := by
  have hp := (r.resultQueue.push_of_lt work (h.result_room hw)).1
  simp [respond_, unreported, WorkerPc.responding, hw, hp]

/-- The worker moves between batches, or wakes up: no work moves. -/
theorem Path.idleMove {r : SyscallRunner ε} {q : List Nat} (h : Path r q) (i : Nat)
    (w : WorkerPc) (hh : w.handled = r.worker.handled)
    (hr : w.responding = r.worker.responding) :
    Path { r with interrupter := i, worker := w } q := by
  refine ⟨h.order, ?_, ?_⟩
  · simpa only [unprocessed, hh] using h.accepted
  · simpa only [unreported, hr] using h.reported

theorem Path.step {r r' : SyscallRunner ε} {q q' : List Nat} {a : RunnerAct ε}
    (h : Path r q) (hr : Rooms r q) (hs : RunnerStep r q a r' q') : Path r' q' := by
  have ho := h.order
  have ha := h.accepted
  have hc := h.reported
  cases hs with
  | granted body errno hcpu hlt he =>
    refine ⟨?_, ha, hc⟩
    simp only [parked, he, List.map_nil, List.append_nil] at ho
    simp [record, parked, List.range_succ, ho]
  | parked body errno hcpu =>
    refine ⟨?_, ha, hc⟩
    simp only [parked] at ho
    simp [record, parked, List.range_succ, ho]
  | pushed work rest hcpu hq hroom =>
    refine ⟨?_, ?_, ?_⟩
    · simpa [hq, parked] using ho
    · have hd := hr.drop_pushed work hroom
      simp only [unprocessed] at hd ha ⊢
      rw [hd, ← List.append_assoc]
      exact ha.append (List.Sublist.refl _)
    · simpa [unreported, CpuPc.popped, hcpu] using hc
  | dropped work rest hcpu hq hfull =>
    refine ⟨?_, ?_, ?_⟩
    · simpa [hq, parked] using ho
    · exact ha.trans (List.sublist_append_left _ _)
    · simpa [unreported, CpuPc.popped, hcpu] using hc
  | popped hcpu =>
    refine ⟨ho, ha, ?_⟩
    rw [unreported_pollResults hcpu]
    exact hc
  | destroyed hcpu =>
    refine ⟨ho, ha, ?_⟩
    simpa [unreported, destroy, CpuPc.popped, hcpu] using hc
  | signalled hcpu | joining hcpu =>
    refine ⟨ho, ha, ?_⟩
    simpa [unreported, CpuPc.popped, hcpu] using hc
  | completed work todo nr hcpu =>
    obtain ⟨_, _, _, _, _, he⟩ := r.completeWork_frame work
    rw [he]
    refine ⟨ho, ha, ?_⟩
    simpa [unreported, CpuPc.popped, hcpu] using hc
  | released nr hcpu =>
    obtain ⟨-, hrel⟩ | ⟨e, rest, hl, -, hrel⟩ := r.queueHasRoom.release_cases nr
    · refine ⟨?_, ha, ?_⟩
      · simpa [releaseRoom, hrel, parked] using ho
      · simpa [releaseRoom, unreported, CpuPc.popped, hcpu] using hc
    · refine ⟨?_, ha, ?_⟩
      · simpa [releaseRoom, hrel, parked, hl] using ho
      · simpa [releaseRoom, unreported, CpuPc.popped, hcpu] using hc
  | looped hw | tested hw =>
    refine h.idleMove r.interrupter _ ?_ ?_ <;> rw [hw] <;> cases r.stop <;> rfl
  | awoken hw hi => exact h.idleMove 0 _ (by rw [hw]; rfl) (by rw [hw]; rfl)
  | drained hw | batch hw =>
    exact h.idleMove r.interrupter _ (by rw [hw]; rfl) (by rw [hw]; rfl)
  | processed done work todo hw =>
    obtain ⟨_, _, he⟩ := r.processWork_frame work
    rw [he]
    refine ⟨ho, ?_, ?_⟩
    · rw [hr.unprocessed_cons hw] at ha
      simpa [unprocessed, WorkerPc.handled] using ha
    · simp [hc, unreported, WorkerPc.responding, hw]
  | responded done work todo hw =>
    refine ⟨ho, ?_, ?_⟩
    · simpa [respond_, unprocessed, WorkerPc.handled, hw] using ha
    · rw [hr.unreported_respond hw]
      exact hc
  | finished done hw =>
    refine ⟨ho, ?_, ?_⟩
    · simpa [unprocessed, WorkerPc.handled, hw] using ha
    · simpa [unreported, WorkerPc.responding, hw] using hc
  | restarted hw => exact h.idleMove r.interrupter _ (by rw [hw]; rfl) (by rw [hw]; rfl)

theorem Path.nodup {r : SyscallRunner ε} {q : List Nat} (h : Path r q) :
    (r.completed ++ (r.unreported ++ (r.unprocessed ++ (q ++ r.parked)))).Nodup := by
  have hs := h.accepted.append (List.Sublist.refl (q ++ r.parked))
  rw [h.reported, ← h.order] at hs
  simpa only [List.append_assoc] using List.nodup_range.sublist hs

theorem Path.lt_calls {r : SyscallRunner ε} {q : List Nat} {w : Nat} (h : Path r q)
    (hw : w ∈ r.completed ++ (r.unreported ++ (r.unprocessed ++ (q ++ r.parked)))) :
    w < r.calls.length := by
  have hs := h.accepted.append (List.Sublist.refl (q ++ r.parked))
  rw [h.reported, ← h.order] at hs
  refine List.mem_range.mp (hs.subset ?_)
  simpa only [List.append_assoc] using hw

/-- The work item is allocated and is the one that the call `w` made. -/
def Live (r : SyscallRunner ε) (w : Nat) (item : WorkItem ε) : Prop :=
  r.heap w = some item ∧ r.calls[w]? = some (item.body, item.errno)

/-- The work item holds the outcome of its own callable. -/
def Filled (item : WorkItem ε) : Prop :=
  item.ret = process item.errno (item.body.outcome item.errno)

structure Owned (r : SyscallRunner ε) (q : List Nat) : Prop where
  queued : ∀ w ∈ r.unprocessed ++ (q ++ r.parked), ∃ item, r.Live w item
  finished : ∀ w ∈ r.unreported, ∃ item, r.Live w item ∧ Filled item
  freed : r.freed = r.completed
  gone : ∀ w ∈ r.freed, r.heap w = none
  resolved : r.resolved.map Prod.fst = r.completed
  results : ∀ p ∈ r.resolved, ∃ body errno, r.calls[p.1]? = some (body, errno) ∧
    complete (process errno (body.outcome errno)) = some p.2
  aborted : r.aborted = false
  fault : r.fault = false

theorem owned_init : Owned (init : SyscallRunner ε) [] := by
  constructor <;> simp [init, unprocessed, unreported, parked, CpuPc.popped,
    WorkerPc.responding]

theorem Live.record {r : SyscallRunner ε} {w : Nat} {item : WorkItem ε} (h : r.Live w item)
    (body : SyscallBody ε) (errno : Errno) : (r.record body errno).Live w item := by
  have hlt : w < r.calls.length := (List.getElem?_eq_some_iff.mp h.2).1
  refine ⟨?_, ?_⟩
  · simpa [SyscallRunner.record, Function.update_of_ne (Nat.ne_of_lt hlt)] using h.1
  · simpa [SyscallRunner.record, List.getElem?_append_left hlt] using h.2

theorem live_record_new (r : SyscallRunner ε) (body : SyscallBody ε) (errno : Errno) :
    ∃ item, (r.record body errno).Live r.calls.length item :=
  ⟨⟨body, errno, (body.outcome errno).emptyHolder⟩, by simp [SyscallRunner.record],
    by simp [SyscallRunner.record]⟩

theorem Owned.record {r r' : SyscallRunner ε} {q q' : List Nat} (h : Owned r q)
    (hp : Path r q) (body : SyscallBody ε) (errno : Errno) {room : Semaphore Nat}
    (hr : r' = { r.record body errno with queueHasRoom := room })
    (hq : q' ++ r'.parked = q ++ (r.parked ++ [r.calls.length])) : Owned r' q' := by
  subst hr
  refine ⟨?_, ?_, h.freed, ?_, h.resolved, ?_, h.aborted, h.fault⟩
  · intro w hw
    rw [hq] at hw
    have hw' : w ∈ r.unprocessed ++ (q ++ r.parked) ∨ w = r.calls.length := by
      simp only [List.mem_append, List.mem_singleton] at hw ⊢
      tauto
    obtain hw' | rfl := hw'
    · obtain ⟨item, hl⟩ := h.queued w hw'
      exact ⟨item, hl.record body errno⟩
    · exact live_record_new r body errno
  · intro w hw
    obtain ⟨item, hl, hf⟩ := h.finished w hw
    exact ⟨item, hl.record body errno, hf⟩
  · intro w hw
    have hlt := hp.lt_calls (List.mem_append_left _ (h.freed ▸ hw))
    simpa [SyscallRunner.record, Function.update_of_ne (Nat.ne_of_lt hlt)] using h.gone w hw
  · intro p hpm
    obtain ⟨b, e, hc, hv⟩ := h.results p hpm
    have hlt : p.1 < r.calls.length := (List.getElem?_eq_some_iff.mp hc).1
    exact ⟨b, e, by simpa [SyscallRunner.record, List.getElem?_append_left hlt] using hc, hv⟩

/-- The part of the runner that only `submit`, `process` and `complete` touch. -/
def memory (r : SyscallRunner ε) :=
  (r.heap, r.calls, r.completed, r.resolved, r.freed, r.aborted, r.fault)

theorem Owned.move {r r' : SyscallRunner ε} {q q' : List Nat} (h : Owned r q)
    (hm : r'.memory = r.memory)
    (hq : r'.unprocessed ++ (q' ++ r'.parked) ⊆ r.unprocessed ++ (q ++ r.parked))
    (hu : r'.unreported ⊆ r.unreported) : Owned r' q' := by
  simp only [memory, Prod.mk.injEq] at hm
  obtain ⟨hheap, hcalls, hcompleted, hresolved, hfreed, haborted, hfault⟩ := hm
  refine ⟨?_, ?_, ?_, ?_, ?_, ?_, haborted.trans h.aborted, hfault.trans h.fault⟩
  · intro w hw
    simpa only [Live, hheap, hcalls] using h.queued w (hq hw)
  · intro w hw
    simpa only [Live, hheap, hcalls] using h.finished w (hu hw)
  · rw [hfreed, hcompleted, h.freed]
  · rw [hfreed, hheap]
    exact h.gone
  · rw [hresolved, hcompleted, h.resolved]
  · rw [hresolved, hcalls]
    exact h.results

theorem Owned.idleMove {r : SyscallRunner ε} {q : List Nat} (h : Owned r q) (i : Nat)
    (w : WorkerPc) (hh : w.handled = r.worker.handled)
    (hr : w.responding = r.worker.responding) :
    Owned { r with interrupter := i, worker := w } q := by
  refine h.move rfl ?_ ?_
  · simp only [unprocessed, hh]
    exact List.Subset.refl _
  · simp only [unreported, hr]
    exact List.Subset.refl _

theorem Live.update_ne {r : SyscallRunner ε} {w v : Nat} {item : WorkItem ε}
    (h : r.Live w item) (hne : w ≠ v) (x : Option (WorkItem ε)) :
    Function.update r.heap v x w = some item ∧
      r.calls[w]? = some (item.body, item.errno) :=
  ⟨(Function.update_of_ne hne x r.heap).trans h.1, h.2⟩

/-- `complete` finds a filled work item, resolves its promise and frees it. -/
theorem Owned.complete {r : SyscallRunner ε} {q todo : List Nat} {work nr : Nat}
    (h : Owned r q) (hp : Path r q) (hcpu : r.cpu = .poll (work :: todo) nr) :
    Owned { r.completeWork work with cpu := .poll todo nr } q := by
  have hu : r.unreported = work :: (todo ++ (r.resultQueue.items ++ r.worker.responding)) := by
    simp [unreported, CpuPc.popped, hcpu]
  have hnd := hp.nodup
  rw [hu, List.nodup_append] at hnd
  obtain ⟨-, hnd, hdisj⟩ := hnd
  have hnot : work ∉ (todo ++ (r.resultQueue.items ++ r.worker.responding)) ++
      (r.unprocessed ++ (q ++ r.parked)) := (List.nodup_cons.mp hnd).1
  obtain ⟨item, hl, hf⟩ := h.finished work (by rw [hu]; exact List.mem_cons_self)
  obtain ⟨v, hv⟩ := complete_process_isSome item.errno (item.body.outcome item.errno)
  have hc : r.completeWork work =
      { r with
        completed := r.completed ++ [work]
        resolved := r.resolved ++ [(work, v)]
        heap := Function.update r.heap work none
        freed := r.freed ++ [work] } := by
    simp [completeWork, hl.1, hf ▸ hv]
  rw [hc]
  refine ⟨?_, ?_, ?_, ?_, ?_, ?_, h.aborted, h.fault⟩
  · intro w hw
    obtain ⟨item', hl'⟩ := h.queued w hw
    have hne : w ≠ work := fun he => hnot (List.mem_append_right _ (he ▸ hw))
    exact ⟨item', hl'.update_ne hne none⟩
  · intro w hw
    have hw' : w ∈ todo ++ (r.resultQueue.items ++ r.worker.responding) := hw
    obtain ⟨item', hl', hf'⟩ := h.finished w (by rw [hu]; exact List.mem_cons_of_mem _ hw')
    have hne : w ≠ work := fun he => hnot (List.mem_append_left _ (he ▸ hw'))
    exact ⟨item', hl'.update_ne hne none, hf'⟩
  · simp [h.freed]
  · refine forall_mem_concat (fun w hw => ?_) (Function.update_self work none r.heap)
    have hne : w ≠ work := hdisj w (h.freed ▸ hw) work List.mem_cons_self
    exact (Function.update_of_ne hne none r.heap).trans (h.gone w hw)
  · simp [h.resolved]
  · exact forall_mem_concat h.results ⟨item.body, item.errno, hl.2, hv⟩

/-- `process` fills the work item that the worker holds, and no other. -/
theorem Owned.process {r : SyscallRunner ε} {q done todo : List Nat} {work : Nat}
    (h : Owned r q) (hp : Path r q) (hr : Rooms r q)
    (hw : r.worker = .consume done (work :: todo)) :
    Owned { r.processWork work with worker := .respond done work todo } q := by
  have hun := hr.unprocessed_cons hw
  have hnd := hp.nodup
  rw [hun, List.nodup_append] at hnd
  obtain ⟨-, hnd, hdisj⟩ := hnd
  rw [List.nodup_append] at hnd
  obtain ⟨-, hnd, hdisj'⟩ := hnd
  obtain ⟨item, hl⟩ := h.queued work (by rw [hun]; exact List.mem_cons_self)
  have he : r.processWork work =
      { r with
        heap := Function.update r.heap work
          (some { item with ret := Miniss.process item.errno (item.body.outcome item.errno) })
        processed := r.processed ++ [work] } := by
    simp [processWork, hl.1]
  rw [he]
  refine ⟨?_, ?_, h.freed, ?_, h.resolved, h.results, h.aborted, h.fault⟩
  · intro w hwm
    have hwm' : w ∈ r.callQueue.items.drop (done.length + 1) ++ (q ++ r.parked) := hwm
    obtain ⟨item', hl'⟩ := h.queued w (by rw [hun]; exact List.mem_cons_of_mem _ hwm')
    have hne : w ≠ work := fun he => (List.nodup_cons.mp hnd).1 (he ▸ hwm')
    exact ⟨item', hl'.update_ne hne _⟩
  · intro w hwm
    have hwm' : w ∈ r.unreported ∨ w = work := by
      simpa [unreported, WorkerPc.responding, hw, or_assoc] using hwm
    obtain hwm' | rfl := hwm'
    · obtain ⟨item', hl', hf'⟩ := h.finished w hwm'
      have hne : w ≠ work := hdisj' w hwm' work List.mem_cons_self
      exact ⟨item', hl'.update_ne hne _, hf'⟩
    · exact ⟨_, ⟨Function.update_self _ _ _, hl.2⟩, rfl⟩
  · intro w hwm
    have hne : w ≠ work := hdisj w (h.freed ▸ hwm) work
      (List.mem_append_right _ List.mem_cons_self)
    exact (Function.update_of_ne hne _ r.heap).trans (h.gone w hwm)

theorem Owned.step {r r' : SyscallRunner ε} {q q' : List Nat} {a : RunnerAct ε}
    (h : Owned r q) (hp : Path r q) (hr : Rooms r q) (hs : RunnerStep r q a r' q') :
    Owned r' q' := by
  cases hs with
  | granted body errno hcpu hlt he =>
    exact h.record hp body errno rfl (by simp [parked, he])
  | parked body errno hcpu =>
    exact h.record hp body errno rfl (by simp [parked])
  | pushed work rest hcpu hq hroom =>
    refine h.move rfl ?_ ?_
    · have hd := hr.drop_pushed work hroom
      simp only [unprocessed] at hd ⊢
      rw [hd, hq]
      simp [parked]
    · simp [unreported, CpuPc.popped, hcpu]
  | dropped work rest hcpu hq hfull =>
    refine h.move rfl ?_ ?_
    · rw [hq]
      exact List.append_subset.mpr ⟨List.subset_append_left _ _,
        List.Subset.trans (List.subset_cons_self _ _) (List.subset_append_right _ _)⟩
    · simp [unreported, CpuPc.popped, hcpu]
  | popped hcpu =>
    refine h.move rfl (List.Subset.refl _) ?_
    rw [unreported_pollResults hcpu]
    exact List.Subset.refl _
  | destroyed hcpu =>
    exact h.move rfl (List.Subset.refl _) (by simp [unreported, destroy, CpuPc.popped, hcpu])
  | signalled hcpu | joining hcpu =>
    exact h.move rfl (List.Subset.refl _) (by simp [unreported, CpuPc.popped, hcpu])
  | completed work todo nr hcpu => exact h.complete hp hcpu
  | released nr hcpu =>
    obtain ⟨-, hrel⟩ | ⟨e, rest, hl, -, hrel⟩ := r.queueHasRoom.release_cases nr
    · refine h.move rfl ?_ ?_
      · simp [releaseRoom, hrel, parked, unprocessed]
      · simp [releaseRoom, unreported, CpuPc.popped, hcpu]
    · refine h.move rfl ?_ ?_
      · simp [releaseRoom, hrel, parked, hl, unprocessed]
      · simp [releaseRoom, unreported, CpuPc.popped, hcpu]
  | looped hw | tested hw =>
    refine h.idleMove r.interrupter _ ?_ ?_ <;> rw [hw] <;> cases r.stop <;> rfl
  | awoken hw hi => exact h.idleMove 0 _ (by rw [hw]; rfl) (by rw [hw]; rfl)
  | drained hw | batch hw =>
    exact h.idleMove r.interrupter _ (by rw [hw]; rfl) (by rw [hw]; rfl)
  | processed done work todo hw => exact h.process hp hr hw
  | responded done work todo hw =>
    refine h.move rfl ?_ ?_
    · simp [respond_, unprocessed, parked, WorkerPc.handled, hw]
    · rw [hr.unreported_respond hw]
      exact List.Subset.refl _
  | finished done hw =>
    refine h.move rfl ?_ ?_ <;>
      simp [unprocessed, unreported, parked, WorkerPc.handled, WorkerPc.responding, hw]
  | restarted hw => exact h.idleMove r.interrupter _ (by rw [hw]; rfl) (by rw [hw]; rfl)

/-- A granted call holds one token until its work is completed, and `poll_results` holds the
tokens back until its loop is over. -/
def Repaid (r : SyscallRunner ε) (q : List Nat) : Prop :=
  r.queueHasRoom.tokens + r.executed.length + q.length + r.cpu.held =
    queueSize + r.completed.length + r.cpu.popped.length

/-- What `release` gives back is what the completed works had, less one token when it grants the
call at the front of the waiting list. -/
theorem Repaid.release {r : SyscallRunner ε} {q : List Nat} {nr : Nat} (h : Repaid r q)
    (hr : Rooms r q) (hcpu : r.cpu = .poll [] nr) :
    Repaid (r.releaseRoom nr).1 (q ++ (r.releaseRoom nr).2) := by
  have hle := hr.tokens_le
  simp only [tokensElsewhere, hcpu, CpuPc.held, queueSize] at hle
  have hadd : sizeAdd r.queueHasRoom.tokens nr = r.queueHasRoom.tokens + nr :=
    sizeAdd_of_lt (by omega)
  simp only [Repaid, hcpu, CpuPc.held, CpuPc.popped, List.length_nil] at h
  obtain ⟨-, hrel⟩ | ⟨e, rest, hl, hge, hrel⟩ := r.queueHasRoom.release_cases nr
  · simp [Repaid, releaseRoom, hrel, CpuPc.held, CpuPc.popped, hadd]
    omega
  · have he : e.tokens = 1 := hr.entries e (by simp [hl])
    rw [hadd, he] at hge
    simp [Repaid, releaseRoom, hrel, CpuPc.held, CpuPc.popped, hadd, he]
    omega

theorem Repaid.step {r r' : SyscallRunner ε} {q q' : List Nat} {a : RunnerAct ε}
    (h : Repaid r q) (hr : Rooms r q) (hs : RunnerStep r q a r' q') : Repaid r' q' := by
  cases hs with
  | granted body errno hcpu hlt he =>
    simp [Repaid, record] at h ⊢
    omega
  | pushed work rest hcpu hq hroom | dropped work rest hcpu hq hfull =>
    subst hq
    simp [Repaid, CpuPc.popped, CpuPc.held, hcpu] at h ⊢
    omega
  | popped hcpu =>
    simp [Repaid, pollResults, BoundedFifo.pop, CpuPc.popped, CpuPc.held, hcpu] at h ⊢
    omega
  | destroyed hcpu => simpa [Repaid, destroy, CpuPc.popped, CpuPc.held, hcpu] using h
  | signalled hcpu | joining hcpu => simpa [Repaid, CpuPc.popped, CpuPc.held, hcpu] using h
  | completed work todo nr hcpu =>
    obtain ⟨_, _, _, _, _, he⟩ := r.completeWork_frame work
    simp [Repaid, he, CpuPc.popped, CpuPc.held, hcpu] at h ⊢
    omega
  | released nr hcpu => exact h.release hr hcpu
  | processed done work todo hw =>
    obtain ⟨_, _, he⟩ := r.processWork_frame work
    rw [he]
    exact h
  | _ => exact h

structure Inv (r : SyscallRunner ε) (q : List Nat) : Prop where
  rooms : Rooms r q
  path : Path r q
  owned : Owned r q
  repaid : Repaid r q

theorem inv_init : Inv (init : SyscallRunner ε) [] :=
  ⟨rooms_init, path_init, owned_init, by simp [Repaid, init, CpuPc.popped, CpuPc.held]⟩

theorem Inv.step {r r' : SyscallRunner ε} {q q' : List Nat} {a : RunnerAct ε}
    (h : Inv r q) (hs : RunnerStep r q a r' q') : Inv r' q' where
  rooms := h.rooms.step hs
  path := h.path.step h.rooms hs
  owned := h.owned.step h.path h.rooms hs
  repaid := h.repaid.step h.rooms hs

theorem inv_reachable {as : List (RunnerAct ε)} {s : RunnerState ε}
    (h : runnerMachine.Reaches as s) : Inv s.runner s.tasks :=
  h.invariant (I := fun s => Inv s.runner s.tasks) inv_init
    fun _ _ _ hi hst => hi.step (runner_step_cases hst)

theorem Path.processed_sublist {r : SyscallRunner ε} {q : List Nat} (h : Path r q) :
    r.processed.Sublist (List.range r.calls.length) := by
  rw [h.order]
  exact ((List.sublist_append_left _ _).trans h.accepted).trans (List.sublist_append_left _ _)

end SyscallRunner

open SyscallRunner

/-- The calls are granted a token in the order of `submit`. Works are processed in that order and at
most once, completed in the order they were processed, and freed once each; the tokens that are
free, taken by a granted call or on their way back from a completed one are always
`queue_size`. No result finds `result_queue_` full, and `complete` never aborts. -/
theorem syscalls_in_order {as : List (RunnerAct ε)} {s : RunnerState ε}
    (h : runnerMachine.Reaches as s) :
    List.range s.runner.calls.length = s.runner.executed ++ (s.tasks ++ s.runner.parked) ∧
    s.runner.processed.Sublist (List.range s.runner.calls.length) ∧
    s.runner.processed.Nodup ∧
    s.runner.completed <+: s.runner.processed ∧
    (s.runner.freed = s.runner.completed ∧ ∀ w ∈ s.runner.freed, s.runner.heap w = none) ∧
    s.runner.queueHasRoom.tokens + s.runner.executed.length + s.tasks.length +
      s.runner.cpu.held =
        queueSize + s.runner.completed.length + s.runner.cpu.popped.length ∧
    s.runner.lost = [] ∧ s.runner.aborted = false ∧ s.runner.fault = false := by
  have hi := inv_reachable h
  have hsub := hi.path.processed_sublist
  refine ⟨hi.path.order, hsub, List.nodup_range.sublist hsub, ?_, ⟨hi.owned.freed, hi.owned.gone⟩,
    hi.repaid, hi.rooms.lost, hi.owned.aborted, hi.owned.fault⟩
  rw [hi.path.reported]
  exact List.prefix_append _ _

/-- Of 129 calls the last two are parked. The first two are completed, which lets the parked ones
in. -/
def exhaustingRun : List (RunnerAct Unit) :=
  List.replicate 129 (.submit (.int 0) ⟨1, Int.one_pos⟩) ++ runTasks 2 ++
  List.replicate 8 .worker ++ pollPass 2 ++ pollPass 0

theorem syscalls_in_order_exhausted : ∃ s, runnerMachine.Reaches exhaustingRun s ∧
    s.runner.completed = [0, 1] ∧ s.runner.parked = [] ∧ s.tasks.length = 127 ∧
    s.runner.queueHasRoom.tokens + s.runner.executed.length + s.tasks.length +
      s.runner.cpu.held =
        queueSize + s.runner.completed.length + s.runner.cpu.popped.length := by
  have hrun : ((runnerMachine.exec runnerMachine.init exhaustingRun).map fun s =>
      (s.runner.completed, s.runner.parked, s.tasks.length)) = some ([0, 1], [], 127) := by
    decide +kernel
  obtain ⟨s, hs, he⟩ := Option.map_eq_some_iff.mp hrun
  simp only [Prod.mk.injEq] at he
  obtain ⟨-, -, -, -, -, htokens, -⟩ := syscalls_in_order hs
  exact ⟨s, hs, he.1, he.2.1, he.2.2, htokens⟩

/-- What a caller gets is what its own callable ended with. -/
theorem resolved_own_outcome {as : List (RunnerAct ε)} {s : RunnerState ε}
    (h : runnerMachine.Reaches as s) {w : Nat} {v : FutureResult ε}
    (hv : (w, v) ∈ s.runner.resolved) :
    ∃ body errno, s.runner.calls[w]? = some (body, errno) ∧
      complete (process errno (body.outcome errno)) = some v :=
  (inv_reachable h).owned.results (w, v) hv

end Miniss
