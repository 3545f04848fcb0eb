import Miniss.Io.FileIoPromises

/-! The eventfd of a `File_io`. The kernel adds one for each iocb that it completes, and
nothing ever reads it. -/
namespace Miniss
namespace FileIo

/-- Every accepted iocb has completed and was reaped. -/
def AllReaped (f : FileIo) : Prop := ∀ id ∈ f.accepted, id ∈ f.reaped.map Prod.fst

/-- Completed iocbs that `reap_io` has not delivered. -/
def unreaped (f : FileIo) : List (IoEvent × Nat) := f.reap.todo ++ f.ready

/-- All iocbs ask for the eventfd, which counts those that have completed. -/
structure Notified (f : FileIo) (q : List AioTask) : Prop where
  asked : ∀ rq ∈ granted q ++ f.parked, rq.io.resfd = true
  kernel : ∀ k ∈ f.kernel, k.1.resfd = true
  eventfd : f.eventfd = f.unreaped.length + f.reaped.length

theorem notified_init : Notified init [] where
  asked := nofun
  kernel := nofun
  eventfd := rfl

theorem Notified.completeIocb {f f' : FileIo} {q : List AioTask} (h : Notified f q) {k : Nat}
    {res : KernelRes} (hf : f.completeIocb k res = some f') : Notified f' q := by
  obtain ⟨io, hk, rfl⟩ := Option.map_eq_some_iff.mp hf
  have hio : io.1.resfd = true := h.kernel io (List.mem_of_getElem? hk)
  refine ⟨h.asked, fun j hj => h.kernel j (List.mem_of_mem_eraseIdx hj), ?_⟩
  change (if io.1.resfd then f.eventfd + 1 else f.eventfd) = _
  rw [if_pos hio, h.eventfd]
  simp only [unreaped, List.length_append, List.length_singleton]
  omega

/-- A call asks for the eventfd, whether its request is granted or parked. -/
theorem Notified.record {f : FileIo} {q q' : List AioTask} {io : Iocb} {sem : Semaphore Request}
    (h : Notified f q) (hq : granted q' ++ sem.waitingList.map Entry.pr =
      granted q ++ f.parked ++ [f.nextRequest io]) : Notified (f.record io sem) q' := by
  refine ⟨?_, h.kernel, h.eventfd⟩
  rw [record_parked, hq]
  exact forall_mem_concat h.asked rfl

theorem Notified.step {f f' : FileIo} {q q' : List AioTask} {a : FileIoAct}
    (h : Notified f q) (ha : ∀ k res, a ≠ .completeIocb k res) (hs : FileIoStep f q a f' q') :
    Notified f' q' := by
  have hasked := h.asked
  have hcount := h.eventfd
  cases hs with
  | granted a io ha hr hlt he => exact h.record (by simp [parked, he])
  | parked a io ha hr => exact h.record (by simp [parked])
  | accepted pr rq rest hr hq hpr =>
    rw [hq, granted_cons_submit, List.cons_append, List.forall_mem_cons] at hasked
    exact ⟨hasked.2, forall_mem_concat h.kernel hasked.1, hcount⟩
  | refused pr errno rq rest hr hq hpr =>
    rw [hq, granted_cons_submit, List.cons_append, List.forall_mem_cons] at hasked
    refine ⟨?_, h.kernel, hcount⟩
    simpa [parked] using hasked.2
  | finished id r rest hr hq =>
    rw [hq, granted_cons_finish] at hasked
    exact ⟨hasked, h.kernel, hcount⟩
  | completed pre post io id eventfd res hk => exact absurd rfl (ha pre.length res)
  | gotEvents n hr hmax hn =>
    refine ⟨hasked, h.kernel, ?_⟩
    simpa [unreaped, getevents, hr, ReapPc.todo] using hcount
  | gotNone hr => exact h
  | settled ev id p n todo hr hp =>
    refine ⟨by simpa [parked] using hasked, h.kernel, ?_⟩
    simp only [unreaped, hr, ReapPc.todo, List.length_append, List.length_cons,
      List.length_nil] at hcount ⊢
    omega
  | dangling ev id n todo hr hp =>
    refine ⟨hasked, h.kernel, ?_⟩
    simp only [unreaped, hr, ReapPc.todo, List.length_append, List.length_cons,
      List.length_nil] at hcount ⊢
    omega
  | returned n hr hno =>
    refine ⟨hasked, h.kernel, ?_⟩
    simpa [unreaped, hr, ReapPc.todo] using hcount
  | handedOn n e waiting hr hw hle =>
    refine ⟨?_, h.kernel, ?_⟩
    · simpa [parked, hw] using hasked
    · simpa [unreaped, hr, ReapPc.todo] using hcount

theorem notified_step {s t : FileIoState} {a : FileIoAct} (h : Notified s.io s.tasks)
    (hst : fileIoMachine.step s a = some t) : Notified t.io t.tasks := by
  cases a with
  | completeIocb k res =>
    obtain ⟨f, hf, rfl⟩ := Option.map_eq_some_iff.mp hst
    exact h.completeIocb hf
  | _ => exact h.step (fun _ _ he => by cases he) (file_io_step_cases hst)

theorem notified_reachable {as : List FileIoAct} {s : FileIoState}
    (h : fileIoMachine.Reaches as s) : Notified s.io s.tasks :=
  h.invariant (I := fun s => Notified s.io s.tasks) notified_init fun _ _ _ => notified_step

/-- With everything reaped, the eventfd still counts all iocbs that were ever accepted. -/
theorem eventfd_of_allReaped {as : List FileIoAct} {s : FileIoState}
    (h : fileIoMachine.Reaches as s) (hall : s.io.AllReaped) :
    s.io.unreaped = [] ∧ s.io.eventfd = s.io.accepted.length := by
  have hpath := path_reachable h
  have hlen := hpath.reported.length_eq
  have hnone : s.io.undelivered = [] := by
    refine List.eq_nil_iff_forall_not_mem.mpr fun id hid => ?_
    have hacc := hpath.reported.mem_iff.mp (List.mem_append_left _ hid)
    have hnodup := hpath.reported.nodup_iff.mpr hpath.accepted_nodup
    exact (List.nodup_append.mp hnodup).2.2 id hid id (hall id hacc) rfl
  obtain ⟨-, hun⟩ := List.append_eq_nil_iff.mp hnone
  have hun : s.io.unreaped = [] := List.map_eq_nil_iff.mp hun
  refine ⟨hun, ?_⟩
  rw [hnone, List.nil_append, List.length_map] at hlen
  rw [(notified_reachable h).eventfd, hun, List.length_nil, Nat.zero_add, hlen]

end FileIo
end Miniss
