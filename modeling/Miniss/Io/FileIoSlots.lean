import Miniss.Io.FileIoPath

/-! Slots of a `File_io`. A slot is free, or held by a granted request, or by an iocb that
the kernel accepted; a request that `io_submit` refuses keeps its slot for ever. -/
namespace Miniss

/-- Events that `reap_io` took and has yet to return the slots of. -/
def ReapPc.held : ReapPc → Nat
  | .idle => 0
  | .events _ n => n

namespace FileIo

/-- Iocbs accepted by the kernel and not yet reaped; within `reap_io` these are also the
events whose slots it still holds. -/
def inFlight (f : FileIo) : Nat := f.kernel.length + f.ready.length + f.reap.held

structure Slots (f : FileIo) (q : List AioTask) : Prop where
  entries : ∀ e ∈ f.aioAvailable.waitingList, e.tokens = 1
  slots : f.aioAvailable.tokens + (granted q).length + f.inFlight + f.failed.length = maxIo

theorem slots_init : Slots init [] := ⟨by simp [init], rfl⟩

theorem Slots.inFlight_le {f : FileIo} {q : List AioTask} (h : Slots f q) :
    f.inFlight ≤ maxIo := by
  have := h.slots
  omega

theorem Slots.sizeAdd_eq {f : FileIo} {q : List AioTask} {n : Nat} (h : Slots f q)
    (hr : f.reap = .events [] n) :
    sizeAdd f.aioAvailable.tokens n = f.aioAvailable.tokens + n := by
  have := h.slots
  simp only [inFlight, hr, ReapPc.held, maxIo] at this
  exact sizeAdd_of_lt (by omega)

theorem Slots.step {f f' : FileIo} {q q' : List AioTask} {a : FileIoAct}
    (h : Slots f q) (hs : FileIoStep f q a f' q') : Slots f' q' := by
  have ht := h.slots
  simp only [inFlight] at ht
  cases hs with
  | granted a io ha hr hlt he =>
    refine ⟨by simp [record], ?_⟩
    simp [record, inFlight]
    omega
  | parked a io ha hr =>
    exact ⟨forall_mem_concat h.entries rfl, ht⟩
  | accepted pr rq rest hr hq hpr =>
    refine ⟨h.entries, ?_⟩
    simp [hq, inFlight] at ht ⊢
    omega
  | refused pr errno rq rest hr hq hpr =>
    refine ⟨h.entries, ?_⟩
    simp [hq, inFlight] at ht ⊢
    omega
  | finished id r rest hr hq =>
    refine ⟨h.entries, ?_⟩
    simpa [hq, finish, inFlight] using ht
  | completed pre post io id eventfd res hk =>
    refine ⟨h.entries, ?_⟩
    simp [hk, inFlight] at ht ⊢
    omega
  | gotEvents n hr hmax hn =>
    refine ⟨h.entries, ?_⟩
    simp [getevents, inFlight, hr, ReapPc.held] at ht ⊢
    omega
  | gotNone hr => exact h
  | settled ev id p n todo hr hp =>
    refine ⟨h.entries, ?_⟩
    simpa [inFlight, hr, ReapPc.held] using ht
  | dangling ev id n todo hr hp =>
    refine ⟨h.entries, ?_⟩
    simpa [inFlight, hr, ReapPc.held] using ht
  | returned n hr hno =>
    have hadd := h.sizeAdd_eq hr
    refine ⟨h.entries, ?_⟩
    simp [inFlight, hr, ReapPc.held, hadd] at ht ⊢
    omega
  | handedOn n e waiting hr hw hle =>
    have hadd := h.sizeAdd_eq hr
    have he := h.entries e (by simp [hw])
    refine ⟨fun e' hm => h.entries e' (by simp [hw, hm]), ?_⟩
    rw [hadd, he] at hle
    simp [inFlight, hr, ReapPc.held, hadd, he] at ht ⊢
    omega

/-- Every request so far was reaped, or refused by `io_submit`. -/
def AllDone (f : FileIo) : Prop :=
  ∀ id < f.requests.length, id ∈ f.reaped.map Prod.fst ∨ id ∈ f.failed.map Prod.fst

theorem Path.idle_of_allDone {f : FileIo} {q : List AioTask} (h : Path f q)
    (hd : f.AllDone) : f.undelivered = [] ∧ granted q = [] := by
  have hnd := h.nodup
  rw [List.nodup_append] at hnd
  obtain ⟨hnd, -, hdisj⟩ := hnd
  have hdone : ∀ id < f.requests.length,
      id ∈ f.reaped.map Prod.fst ++ f.failed.map Prod.fst :=
    fun id hid => List.mem_append.mpr (hd id hid)
  constructor
  · refine List.eq_nil_iff_forall_not_mem.mpr fun id hid => ?_
    have hmem : id ∈ f.accepted := h.reported.subset (List.mem_append_left _ hid)
    have hlt := h.lt_requests
      (List.mem_append_left _ (h.outcome.subset (List.mem_append_left _ hmem)))
    rw [List.append_assoc, List.nodup_append] at hnd
    exact hnd.2.2 id hid id (hdone id hlt) rfl
  · refine List.eq_nil_iff_forall_not_mem.mpr fun rq hrq => ?_
    have hmem : rq.id ∈ (granted q ++ f.parked).map Request.id :=
      List.mem_map_of_mem (List.mem_append_left _ hrq)
    have hlt := h.lt_requests (List.mem_append_right _ hmem)
    refine hdisj rq.id ?_ rq.id hmem rfl
    rw [List.append_assoc]
    exact List.mem_append_right _ (hdone rq.id hlt)

end FileIo

open FileIo

namespace FileIoState

/-- No slot is lost: free slots, granted requests and requests in flight make up `max_io`,
and when every request is done and `reap_io` is not under way all slots are free. -/
def SlotsKept (s : FileIoState) : Prop :=
  s.io.aioAvailable.tokens + (granted s.tasks).length + s.io.inFlight = maxIo ∧
  (s.io.reap = .idle → s.io.AllDone → s.io.aioAvailable.tokens = maxIo)

theorem slotsKept_iff_failed {s : FileIoState} (h : Slots s.io s.tasks)
    (hp : Path s.io s.tasks) : s.SlotsKept ↔ s.io.failed = [] := by
  have ht := h.slots
  constructor
  · rintro ⟨hk, -⟩
    refine List.eq_nil_of_length_eq_zero ?_
    omega
  · intro hf
    rw [hf, List.length_nil] at ht
    refine ⟨ht, fun hr hd => ?_⟩
    obtain ⟨hu, hg⟩ := hp.idle_of_allDone hd
    have hl := congrArg List.length hu
    simp only [undelivered, List.length_append, List.length_map, hr, ReapPc.todo,
      List.length_nil] at hl
    simp only [inFlight, hr, ReapPc.held, hg, List.length_nil] at ht
    omega

end FileIoState

def FileIoAct.Accepted : FileIoAct → Prop
  | .runSubmit _ (.failed _) => False
  | _ => True

theorem FileIoAct.accepted_of_call {a : FileIoAct} {io : Iocb} (h : a.call? = some io) :
    a.Accepted := by
  cases a with
  | runSubmit pr res => cases h
  | _ => trivial

theorem step_slotsKept_iff {s t : FileIoState} {a : FileIoAct}
    (h : Slots s.io s.tasks ∧ Path s.io s.tasks) (hk : s.SlotsKept)
    (hst : fileIoMachine.step s a = some t) : t.SlotsKept ↔ a.Accepted := by
  have hs := file_io_step_cases hst
  have hf := (FileIoState.slotsKept_iff_failed h.1 h.2).mp hk
  rw [FileIoState.slotsKept_iff_failed (h.1.step hs) (h.2.step hs)]
  obtain ⟨f, q⟩ := t
  simp only at hs ⊢
  cases hs with
  | granted a io ha hr hlt he => exact ⟨fun _ => FileIoAct.accepted_of_call ha, fun _ => hf⟩
  | parked a io ha hr => exact ⟨fun _ => FileIoAct.accepted_of_call ha, fun _ => hf⟩
  | refused pr errno rq rest hr hq hpr => simp [FileIoAct.Accepted]
  | _ => exact ⟨fun _ => trivial, fun _ => hf⟩

/-- In every state of a run no slot is lost, if and only if every `io_submit` of the run is
accepted. -/
theorem slots_kept_iff (as : List FileIoAct) :
    fileIoMachine.Throughout FileIoState.SlotsKept fileIoMachine.init as ↔
      fileIoMachine.Meets (fun _ a => a.Accepted) fileIoMachine.init as :=
  Machine.throughout_iff_meets (J := fun s => Slots s.io s.tasks ∧ Path s.io s.tasks)
    (fun _ _ _ hi hst =>
      ⟨hi.1.step (file_io_step_cases hst), hi.2.step (file_io_step_cases hst)⟩)
    (fun _ _ _ hi hk hst => step_slotsKept_iff hi hk hst) ⟨slots_init, path_init⟩
    ((FileIoState.slotsKept_iff_failed slots_init path_init).mpr rfl)

/-- One read of a descriptor that is closed: `io_submit` fails with `EBADF` (9), so does the
future, and the slot stays taken. -/
def refusedRun : List FileIoAct :=
  [.submitRead 3 0 ⟨1, 512⟩, .runSubmit 4096 (.failed ⟨9, by decide⟩), .runFinish]

theorem refusedRun_loses_slot :
    ¬ fileIoMachine.Throughout FileIoState.SlotsKept fileIoMachine.init refusedRun := by
  have hrun : ((fileIoMachine.exec fileIoMachine.init refusedRun).map
      fun s => (s.io.aioAvailable.tokens, (granted s.tasks).length, s.io.inFlight)) =
      some (127, 0, 0) := by decide +kernel
  obtain ⟨s, hs, he⟩ := Option.map_eq_some_iff.mp hrun
  simp only [Prod.mk.injEq] at he
  intro h
  have hk := (h refusedRun [] s (List.append_nil _).symm hs).1
  rw [he.1, he.2.1, he.2.2] at hk
  exact absurd hk (by decide)

end Miniss
