import Miniss.Io.FileIoSlots
import Miniss.Lib.Tabulation

/-! Promises of a `File_io`. The promises that are allocated are those of the iocbs that the
kernel holds and of the events that were not delivered, at the addresses in their
`aio_data`; so an event finds the promise of its own request. -/
namespace Miniss

def AioTask.finish? : AioTask → Option (Nat × Except Exn IoEvent)
  | .submit _ => none
  | .finish id r => some (id, r)

/-- Results on their way to the continuation of `submit_read` or `submit_write`. -/
def finishing (q : List AioTask) : List (Nat × Except Exn IoEvent) :=
  q.filterMap AioTask.finish?

@[simp] theorem finishing_nil : finishing [] = [] := rfl

@[simp] theorem finishing_cons_submit (rq : Request) (q : List AioTask) :
    finishing (.submit rq :: q) = finishing q := rfl

@[simp] theorem finishing_cons_finish (id : Nat) (r : Except Exn IoEvent)
    (q : List AioTask) : finishing (.finish id r :: q) = (id, r) :: finishing q := rfl

@[simp] theorem finishing_append (p q : List AioTask) :
    finishing (p ++ q) = finishing p ++ finishing q := List.filterMap_append

namespace FileIo

/-- The addresses in flight, each with the request that its iocb was made for. -/
def addresses (f : FileIo) : List (Nat × Nat) :=
  f.kernel.map (fun p => (p.1.aioData, p.2)) ++
    (f.reap.todo ++ f.ready).map (fun p => (p.1.data, p.2))

theorem addresses_snd (f : FileIo) : f.addresses.map Prod.snd = f.undelivered := by
  simp [addresses, undelivered, Function.comp_def]

/-- The promises are those in flight, and every event settled the one of its own
request. -/
structure Registered (f : FileIo) : Prop where
  heap : Tabulates f.heap f.addresses
  settled : f.settled = f.reaped
  fault : f.fault = false

theorem registered_init : Registered init := by
  refine ⟨?_, rfl, rfl⟩
  simpa [init, addresses, ReapPc.todo] using Tabulates.empty

theorem addresses_reap {f : FileIo} {ev : IoEvent} {id n : Nat}
    {todo : List (IoEvent × Nat)} (hr : f.reap = .events ((ev, id) :: todo) n) :
    f.addresses.Perm ((ev.data, id) :: (f.kernel.map (fun p => (p.1.aioData, p.2)) ++
      (todo ++ f.ready).map (fun p => (p.1.data, p.2)))) := by
  simp only [addresses, hr, ReapPc.todo, List.cons_append, List.map_cons]
  exact List.perm_middle

theorem Registered.step {f f' : FileIo} {q q' : List AioTask} {a : FileIoAct}
    (h : Registered f) (hs : FileIoStep f q a f' q') : Registered f' := by
  have hh := h.heap
  cases hs with
  | granted a io ha hr hlt he => exact ⟨hh, h.settled, h.fault⟩
  | parked a io ha hr => exact ⟨hh, h.settled, h.fault⟩
  | accepted pr rq rest hr hq hpr =>
    refine ⟨(hh.insert hpr rq.id).perm ?_, h.settled, h.fault⟩
    simp only [addresses, List.map_append, List.map_cons, List.map_nil, List.append_assoc,
      List.cons_append, List.nil_append]
    exact List.perm_middle.symm
  | refused pr errno rq rest hr hq hpr => exact ⟨hh, h.settled, h.fault⟩
  | finished id r rest hr hq => exact ⟨hh, h.settled, h.fault⟩
  | completed pre post io id eventfd res hk =>
    refine ⟨hh.perm ?_, h.settled, h.fault⟩
    simp only [addresses, hk, List.map_append, List.map_cons, List.map_nil,
      List.append_assoc, List.cons_append]
    refine List.Perm.append_left _ ?_
    simpa only [List.map_append, List.append_assoc] using
      (List.perm_append_singleton (io.aioData, id) (post.map (fun p => (p.1.aioData, p.2)) ++
        (f.reap.todo ++ f.ready).map (fun p => (p.1.data, p.2)))).symm
  | gotEvents n hr hmax hn =>
    refine ⟨?_, h.settled, h.fault⟩
    simpa [addresses, getevents, hr, ReapPc.todo, ← List.map_take, ← List.map_drop] using hh
  | gotNone hr => exact h
  | settled ev id p n todo hr hp =>
    have he := hh.perm (addresses_reap hr)
    have hid := he.get List.mem_cons_self
    rw [hp, Option.some.injEq] at hid
    exact ⟨he.erase, by rw [h.settled, hid], h.fault⟩
  | dangling ev id n todo hr hp =>
    have hid := (hh.perm (addresses_reap hr)).get List.mem_cons_self
    rw [hp] at hid
    cases hid
  | returned n hr hno =>
    exact ⟨by simpa [addresses, hr, ReapPc.todo] using hh, h.settled, h.fault⟩
  | handedOn n e waiting hr hw hle =>
    exact ⟨by simpa [addresses, hr, ReapPc.todo] using hh, h.settled, h.fault⟩

/-- How request `id` ended: with the event that settled its promise, or with the `errno` of
its `io_submit`. -/
def Ended (f : FileIo) (id : Nat) (r : Except Exn IoEvent) : Prop :=
  (∃ ev, (id, ev) ∈ f.settled ∧ r = .ok ev) ∨
  ∃ errno, (id, errno) ∈ f.failed ∧ r = .error (.systemError errno.val)

/-- Every ended request is resolved once, with what it ended with. -/
structure Answered (f : FileIo) (q : List AioTask) : Prop where
  once : ((f.resolved.map Prod.fst ++ (finishing q).map Prod.fst)).Perm
    (f.settled.map Prod.fst ++ f.failed.map Prod.fst)
  coming : ∀ p ∈ finishing q, f.Ended p.1 p.2
  given : ∀ p ∈ f.resolved, ∃ r, f.Ended p.1 r ∧ p.2 = thenResult r

theorem answered_init : Answered init [] := by
  constructor <;> simp [init]

theorem Ended.mono {f f' : FileIo} {id : Nat} {r : Except Exn IoEvent} (h : f.Ended id r)
    (hs : f.settled ⊆ f'.settled) (hf : f.failed ⊆ f'.failed) : f'.Ended id r := by
  obtain ⟨ev, hm, hr⟩ | ⟨errno, hm, hr⟩ := h
  · exact .inl ⟨ev, hs hm, hr⟩
  · exact .inr ⟨errno, hf hm, hr⟩

/-- The part of a `File_io` that says how requests ended. -/
def answers (f : FileIo) := (f.settled, f.failed, f.resolved)

theorem Answered.frame {f f' : FileIo} {q q' : List AioTask} (h : Answered f q)
    (ha : f'.answers = f.answers) (hq : finishing q' = finishing q) : Answered f' q' := by
  simp only [answers, Prod.mk.injEq] at ha
  obtain ⟨hs, hf, hr⟩ := ha
  refine ⟨?_, ?_, ?_⟩
  · rw [hs, hf, hr, hq]
    exact h.once
  · rw [hq]
    exact fun p hp => (h.coming p hp).mono (by rw [hs]; exact List.Subset.refl _)
      (by rw [hf]; exact List.Subset.refl _)
  · rw [hr]
    intro p hp
    obtain ⟨r, hr, he⟩ := h.given p hp
    exact ⟨r, hr.mono (by rw [hs]; exact List.Subset.refl _)
      (by rw [hf]; exact List.Subset.refl _), he⟩

theorem Answered.end {f f' : FileIo} {q q' : List AioTask} (h : Answered f q) (id : Nat)
    (r : Except Exn IoEvent) (hs : f.settled ⊆ f'.settled)
    (hf : f.failed ⊆ f'.failed) (hr : f'.resolved = f.resolved) (he : f'.Ended id r)
    (hp : (f'.settled.map Prod.fst ++ f'.failed.map Prod.fst).Perm
      (id :: (f.settled.map Prod.fst ++ f.failed.map Prod.fst)))
    (hq : finishing q' = finishing q ++ [(id, r)]) : Answered f' q' := by
  refine ⟨?_, ?_, ?_⟩
  · rw [hr, hq, List.map_append, ← List.append_assoc]
    exact (List.perm_append_singleton _ _).trans ((h.once.cons id).trans hp.symm)
  · rw [hq]
    exact forall_mem_concat (fun p hm => (h.coming p hm).mono hs hf) he
  · rw [hr]
    intro p hm
    obtain ⟨r', hr', he'⟩ := h.given p hm
    exact ⟨r', hr'.mono hs hf, he'⟩

theorem Answered.step {f f' : FileIo} {q q' : List AioTask} {a : FileIoAct}
    (h : Answered f q) (hs : FileIoStep f q a f' q') : Answered f' q' := by
  cases hs with
  | granted a io ha hr hlt he => exact h.frame rfl (by simp)
  | parked a io ha hr => exact h.frame rfl rfl
  | accepted pr rq rest hr hq hpr => exact h.frame rfl (by simp [hq])
  | refused pr errno rq rest hr hq hpr =>
    refine h.end rq.id _ (List.Subset.refl _) (List.subset_append_left _ _) rfl
      (.inr ⟨errno, by simp, rfl⟩) ?_ (by simp [hq])
    rw [List.map_append, ← List.append_assoc]
    exact List.perm_append_singleton _ _
  | finished id r rest hr hq =>
    subst hq
    refine ⟨?_, fun p hm => h.coming p (List.mem_cons_of_mem _ hm), ?_⟩
    · simpa [finish] using h.once
    · exact forall_mem_concat h.given ⟨r, h.coming (id, r) List.mem_cons_self, rfl⟩
  | completed pre post io id eventfd res hk => exact h.frame rfl rfl
  | gotEvents n hr hmax hn => exact h.frame rfl rfl
  | gotNone hr => exact h
  | settled ev id p n todo hr hp =>
    refine h.end p _ (List.subset_append_left _ _) (List.Subset.refl _) rfl
      (.inl ⟨ev, by simp, rfl⟩) ?_ (by simp)
    rw [List.map_append, List.append_assoc]
    exact List.perm_middle
  | dangling ev id n todo hr hp => exact h.frame rfl rfl
  | returned n hr hno => exact h.frame rfl rfl
  | handedOn n e waiting hr hw hle => exact h.frame rfl (by simp)

structure Inv (f : FileIo) (q : List AioTask) : Prop where
  path : Path f q
  slots : Slots f q
  registered : Registered f
  answered : Answered f q

theorem inv_reachable {as : List FileIoAct} {s : FileIoState}
    (h : fileIoMachine.Reaches as s) : Inv s.io s.tasks :=
  h.invariant (I := fun s => Inv s.io s.tasks)
    ⟨path_init, slots_init, registered_init, answered_init⟩
    fun _ _ _ hi hst =>
      have hs := file_io_step_cases hst
      ⟨hi.path.step hs, hi.slots.step hs, hi.registered.step hs, hi.answered.step hs⟩

/-- A promise that is allocated belongs to a request in flight. -/
theorem Registered.mem_undelivered {f : FileIo} {pr id : Nat} (h : Registered f)
    (hp : f.heap pr = some id) : id ∈ f.undelivered := by
  rw [← addresses_snd]
  exact List.mem_map_of_mem ((h.heap.mem_iff pr id).mp hp)

theorem Path.undelivered_disjoint {f : FileIo} {q : List AioTask} {id : Nat} (h : Path f q)
    (hid : id ∈ f.undelivered) :
    id ∉ f.reaped.map Prod.fst ∧ id ∉ f.failed.map Prod.fst := by
  have hnd := h.nodup
  rw [List.nodup_append] at hnd
  have hnd := hnd.1
  rw [List.append_assoc, List.nodup_append] at hnd
  have hdisj := hnd.2.2 id hid
  exact ⟨fun hm => hdisj id (List.mem_append_left _ hm) rfl,
    fun hm => hdisj id (List.mem_append_right _ hm) rfl⟩

theorem Path.accepted_nodup {f : FileIo} {q : List AioTask} (h : Path f q) :
    f.accepted.Nodup := by
  have hnd := h.nodup
  rw [List.nodup_append] at hnd
  have hnd := hnd.1
  rw [List.nodup_append] at hnd
  exact h.reported.nodup_iff.mp hnd.1

/-- What the caller of `submit_read` or `submit_write` is owed for an event. -/
def owedResult (res : Int) : Except Exn Nat :=
  if res < 0 then .error (.systemError (-res)) else .ok res.toNat

/-- The code of a `long` error number survives the conversion to `int`. -/
theorem thenResult_ok (ev : IoEvent) : thenResult (.ok ev) = owedResult ev.res.val := by
  have hs := ev.res.property
  by_cases h : ev.res.val < 0
  · have hc : toCInt (-ev.res.val) = -ev.res.val := toCInt_of_small (by omega) (by omega)
    simp [thenResult, throwKernelError, owedResult, h, hc]
  · simp [thenResult, throwKernelError, owedResult, h]

end FileIo

open FileIo

structure FileIoState.Matched (s : FileIoState) : Prop where
  /-- The iocbs accepted and not yet reaped fit into the aio context. -/
  bounded : s.io.inFlight ≤ maxIo
  /-- An accepted request is on its way or was reaped, and once only. -/
  accepted : s.io.accepted.Nodup ∧
    (s.io.undelivered ++ s.io.reaped.map Prod.fst).Perm s.io.accepted
  /-- Each reaped event resolved the promise of its own request, and nothing else did. -/
  settled : s.io.settled = s.io.reaped ∧ s.io.fault = false
  /-- The promise of a reaped or refused request is deleted. -/
  deleted : ∀ id, id ∈ s.io.reaped.map Prod.fst ∨ id ∈ s.io.failed.map Prod.fst →
    ∀ pr, s.io.heap pr ≠ some id
  /-- The kernel holds the addresses of live promises only, none of a refused request. -/
  registered : ∀ pr id, (pr, id) ∈ s.io.addresses →
    s.io.heap pr = some id ∧ id ∉ s.io.failed.map Prod.fst
  /-- A caller's future is resolved once, after its request was reaped or refused. -/
  once : (s.io.resolved.map Prod.fst ++ (finishing s.tasks).map Prod.fst).Perm
    (s.io.settled.map Prod.fst ++ s.io.failed.map Prod.fst)
  /-- It yields what the event or the failed `io_submit` calls for. -/
  value : ∀ id v, (id, v) ∈ s.io.resolved →
    (∃ ev, (id, ev) ∈ s.io.settled ∧ v = owedResult ev.res.val) ∨
    ∃ errno, (id, errno) ∈ s.io.failed ∧ v = .error (.systemError errno.val)

theorem completions_matched {as : List FileIoAct} {s : FileIoState}
    (h : fileIoMachine.Reaches as s) : s.Matched := by
  have hi := inv_reachable h
  refine ⟨hi.slots.inFlight_le, ⟨hi.path.accepted_nodup, hi.path.reported⟩,
    ⟨hi.registered.settled, hi.registered.fault⟩, ?_, ?_, hi.answered.once, ?_⟩
  · intro id hid pr hp
    have hd := hi.path.undelivered_disjoint (hi.registered.mem_undelivered hp)
    exact hid.elim hd.1 hd.2
  · intro pr id hm
    have hp := hi.registered.heap.get hm
    exact ⟨hp, (hi.path.undelivered_disjoint (hi.registered.mem_undelivered hp)).2⟩
  · intro id v hm
    obtain ⟨r, ⟨ev, hs, rfl⟩ | ⟨errno, hf, rfl⟩, hv⟩ := hi.answered.given (id, v) hm
    · exact .inl ⟨ev, hs, hv.trans (thenResult_ok ev)⟩
    · exact .inr ⟨errno, hf, hv⟩

/-- A write and a read completed in the other order, and a read that `io_submit` refused. -/
def mixedRun : List FileIoAct :=
  [.submitWrite 3 0 ⟨1, 512⟩, .submitRead 3 512 ⟨2, 512⟩, .submitRead 3 1 ⟨3, 512⟩,
    .runSubmit 4096 .accepted, .runSubmit 8192 .accepted,
    .runSubmit 9000 (.failed ⟨11, by decide⟩),
    .completeIocb 1 ⟨512, by decide⟩, .completeIocb 0 ⟨-5, by decide⟩,
    .getevents 2, .reap, .reap, .reap, .runFinish, .runFinish, .runFinish]

theorem completions_matched_mixed : ∃ s : FileIoState,
    fileIoMachine.Reaches mixedRun s ∧
    s.io.resolved.map (fun p => (p.1, p.2.toOption)) = [(2, none), (1, some 512), (0, none)] ∧
    s.io.settled.map (fun p => (p.1, p.2.data)) = [(1, 8192), (0, 4096)] ∧ s.Matched := by
  have hrun : ((fileIoMachine.exec fileIoMachine.init mixedRun).map fun s =>
      (s.io.resolved.map (fun p => (p.1, p.2.toOption)),
        s.io.settled.map (fun p => (p.1, p.2.data)))) =
      some ([(2, none), (1, some 512), (0, none)], [(1, 8192), (0, 4096)]) := by
    decide +kernel
  obtain ⟨s, hs, he⟩ := Option.map_eq_some_iff.mp hrun
  simp only [Prod.mk.injEq] at he
  exact ⟨s, hs, he.1, he.2, completions_matched hs⟩

end Miniss
