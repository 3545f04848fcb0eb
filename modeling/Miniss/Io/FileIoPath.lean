import Miniss.Io.FileIoSteps
import Mathlib.Data.List.Nodup
import Mathlib.Data.List.Perm.Basic

/-! The way of a request through a `File_io`: granted or parked in the order of the calls,
then accepted or refused by `io_submit`, then reaped in the order of the completions. Each
request is in one place at a time. -/
namespace Miniss

/-- Events that `reap_io` has yet to deliver. -/
def ReapPc.todo : ReapPc → List (IoEvent × Nat)
  | .idle => []
  | .events todo _ => todo

def AioTask.submit? : AioTask → Option Request
  | .submit rq => some rq
  | .finish _ _ => none

/-- Requests that were granted a slot and whose continuation has not run. -/
def granted (q : List AioTask) : List Request := q.filterMap AioTask.submit?

@[simp] theorem granted_nil : granted [] = [] := rfl

@[simp] theorem granted_cons_submit (rq : Request) (q : List AioTask) :
    granted (.submit rq :: q) = rq :: granted q := rfl

@[simp] theorem granted_cons_finish (id : Nat) (r : Except Exn IoEvent) (q : List AioTask) :
    granted (.finish id r :: q) = granted q := rfl

@[simp] theorem granted_append (p q : List AioTask) :
    granted (p ++ q) = granted p ++ granted q := List.filterMap_append

namespace FileIo

def parked (f : FileIo) : List Request := f.aioAvailable.waitingList.map Entry.pr

def undelivered (f : FileIo) : List Nat :=
  f.kernel.map Prod.snd ++ (f.reap.todo ++ f.ready).map Prod.snd

structure Path (f : FileIo) (q : List AioTask) : Prop where
  order : List.range f.requests.length =
    f.executed ++ (granted q ++ f.parked).map Request.id
  outcome : (f.accepted ++ f.failed.map Prod.fst).Perm f.executed
  reported : (f.undelivered ++ f.reaped.map Prod.fst).Perm f.accepted

theorem path_init : Path init [] := by
  constructor <;> simp [init, parked, undelivered, ReapPc.todo]

@[simp] theorem record_parked (f : FileIo) (io : Iocb) (sem : Semaphore Request) :
    (f.record io sem).parked = sem.waitingList.map Entry.pr := rfl

/-- A call puts its request behind those that were granted or parked before. -/
theorem Path.record {f : FileIo} {q q' : List AioTask} {io : Iocb} {sem : Semaphore Request}
    (h : Path f q) (hq : granted q' ++ sem.waitingList.map Entry.pr =
      granted q ++ f.parked ++ [f.nextRequest io]) : Path (f.record io sem) q' := by
  refine ⟨?_, h.outcome, h.reported⟩
  rw [record_parked, hq, List.map_append, ← List.append_assoc, FileIo.record]
  simp [List.range_succ, h.order, nextRequest]

/-- Every transition moves requests along the path, and none past another up to
`io_submit`. -/
theorem Path.step {f f' : FileIo} {q q' : List AioTask} {a : FileIoAct}
    (h : Path f q) (hs : FileIoStep f q a f' q') : Path f' q' := by
  have ho := h.order
  have hc := h.outcome
  have hr' := h.reported
  cases hs with
  | granted a io ha hr hlt he => exact h.record (by simp [parked, he])
  | parked a io ha hr => exact h.record (by simp [parked])
  | accepted pr rq rest hr hq hpr =>
    refine ⟨?_, ?_, ?_⟩
    · simpa [hq, parked] using ho
    · refine List.perm_iff_count.mpr fun x => ?_
      have := hc.count_eq x
      simp only [List.count_append] at this ⊢
      omega
    · refine List.perm_iff_count.mpr fun x => ?_
      have := hr'.count_eq x
      simp only [undelivered, List.map_append, List.map_cons, List.map_nil,
        List.count_append] at this ⊢
      omega
  | refused pr errno rq rest hr hq hpr =>
    refine ⟨?_, ?_, hr'⟩
    · simpa [hq, parked] using ho
    · rw [List.map_append, ← List.append_assoc]
      exact hc.append_right _
  | finished id r rest hr hq => exact ⟨by simpa [hq, finish, parked] using ho, hc, hr'⟩
  | completed pre post io id eventfd res hk =>
    refine ⟨ho, hc, List.perm_iff_count.mpr fun x => ?_⟩
    have := hr'.count_eq x
    simp only [undelivered, hk, List.map_append, List.map_cons, List.map_nil,
      List.count_append, List.count_cons, List.count_nil] at this ⊢
    omega
  | gotEvents n hr hmax hn =>
    refine ⟨ho, hc, ?_⟩
    simpa [undelivered, getevents, hr, ReapPc.todo, ← List.map_take, ← List.map_drop]
      using hr'
  | gotNone hr => exact h
  | settled ev id p n todo hr hp =>
    refine ⟨by simpa [parked] using ho, hc, List.perm_iff_count.mpr fun x => ?_⟩
    have := hr'.count_eq x
    simp only [undelivered, hr, ReapPc.todo, List.map_append, List.map_cons, List.map_nil,
      List.count_append, List.count_cons, List.count_nil] at this ⊢
    omega
  | dangling ev id n todo hr hp =>
    refine ⟨ho, hc, List.perm_iff_count.mpr fun x => ?_⟩
    have := hr'.count_eq x
    simp only [undelivered, hr, ReapPc.todo, List.map_append, List.map_cons, List.map_nil,
      List.count_append, List.count_cons, List.count_nil] at this ⊢
    omega
  | returned n hr hno => exact ⟨ho, hc, by simpa [undelivered, hr, ReapPc.todo] using hr'⟩
  | handedOn n e waiting hr hw hle =>
    refine ⟨?_, hc, by simpa [undelivered, hr, ReapPc.todo] using hr'⟩
    simpa [parked, hw] using ho

theorem path_reachable {as : List FileIoAct} {s : FileIoState}
    (h : fileIoMachine.Reaches as s) : Path s.io s.tasks :=
  h.invariant (I := fun s => Path s.io s.tasks) path_init
    fun _ _ _ hi hst => hi.step (file_io_step_cases hst)

theorem Path.nodup {f : FileIo} {q : List AioTask} (h : Path f q) :
    ((f.undelivered ++ f.reaped.map Prod.fst ++ f.failed.map Prod.fst) ++
      (granted q ++ f.parked).map Request.id).Nodup := by
  have hp := ((h.reported.append_right (f.failed.map Prod.fst)).trans h.outcome).append_right
    ((granted q ++ f.parked).map Request.id)
  rw [hp.nodup_iff, ← h.order]
  exact List.nodup_range

theorem Path.lt_requests {f : FileIo} {q : List AioTask} {id : Nat} (h : Path f q)
    (hid : id ∈ f.executed ++ (granted q ++ f.parked).map Request.id) :
    id < f.requests.length := by
  rw [← h.order] at hid
  exact List.mem_range.mp hid

end FileIo
end Miniss
