import Miniss.Io.FileIo
import Miniss.Lib.Lists

/-! What one step of a `File_io` can do, said once. -/
namespace Miniss

/-- The iocb that a call starts from. -/
def FileIoAct.call? : FileIoAct → Option Iocb
  | .submitWrite fd pos bytes => some (FileIo.newIocb .pwrite fd pos bytes)
  | .submitRead fd pos bytes => some (FileIo.newIocb .pread fd pos bytes)
  | _ => none

namespace FileIo

def nextRequest (f : FileIo) (io : Iocb) : Request :=
  ⟨f.requests.length, { io with resfd := true }⟩

/-- A call has recorded its request and left the semaphore as given. -/
def record (f : FileIo) (io : Iocb) (sem : Semaphore Request) : FileIo :=
  { f with aioAvailable := sem, requests := f.requests ++ [(f.nextRequest io).io] }

end FileIo

open FileIo

/-- The transitions of a `File_io`, one constructor for each way a step can go. -/
inductive FileIoStep (f : FileIo) (q : List AioTask) :
    FileIoAct → FileIo → List AioTask → Prop where
  | granted (a : FileIoAct) (io : Iocb) (ha : a.call? = some io) (hr : f.reap = .idle)
      (hlt : 1 < f.aioAvailable.tokens) (he : f.aioAvailable.waitingList = []) :
      FileIoStep f q a (f.record io ⟨f.aioAvailable.tokens - 1, []⟩)
        (q ++ [.submit (f.nextRequest io)])
  | parked (a : FileIoAct) (io : Iocb) (ha : a.call? = some io) (hr : f.reap = .idle) :
      FileIoStep f q a
        (f.record io ⟨f.aioAvailable.tokens,
          f.aioAvailable.waitingList ++ [⟨1, f.nextRequest io⟩]⟩) q
  | accepted (pr : Nat) (rq : Request) (rest : List AioTask) (hr : f.reap = .idle)
      (hq : q = .submit rq :: rest) (hpr : f.heap pr = none) :
      FileIoStep f q (.runSubmit pr .accepted)
        { f with
          heap := Function.update f.heap pr (some rq.id)
          kernel := f.kernel ++ [({ rq.io with aioData := pr }, rq.id)]
          executed := f.executed ++ [rq.id]
          accepted := f.accepted ++ [rq.id] } rest
  | refused (pr : Nat) (errno : Errno) (rq : Request) (rest : List AioTask)
      (hr : f.reap = .idle) (hq : q = .submit rq :: rest) (hpr : f.heap pr = none) :
      FileIoStep f q (.runSubmit pr (.failed errno))
        { f with
          executed := f.executed ++ [rq.id]
          failed := f.failed ++ [(rq.id, errno)] }
        (rest ++ [.finish rq.id (.error (.systemError errno.val))])
  | finished (id : Nat) (r : Except Exn IoEvent) (rest : List AioTask) (hr : f.reap = .idle)
      (hq : q = .finish id r :: rest) : FileIoStep f q .runFinish (f.finish id r) rest
  | completed (pre post : List (Iocb × Nat)) (io : Iocb) (id eventfd : Nat) (res : KernelRes)
      (hk : f.kernel = pre ++ (io, id) :: post) :
      FileIoStep f q (.completeIocb pre.length res)
        { f with
          kernel := pre ++ post
          ready := f.ready ++ [(⟨io.aioData, res⟩, id)]
          eventfd := eventfd } q
  | gotEvents (n : Nat) (hr : f.reap = .idle) (hmax : n ≤ maxIo) (hn : n ≤ f.ready.length) :
      FileIoStep f q (.getevents n) (f.getevents n) q
  | gotNone (hr : f.reap = .idle) : FileIoStep f q .geteventsFails f q
  | settled (ev : IoEvent) (id p n : Nat) (todo : List (IoEvent × Nat))
      (hr : f.reap = .events ((ev, id) :: todo) n) (hp : f.heap ev.data = some p) :
      FileIoStep f q .reap
        { f with
          heap := Function.update f.heap ev.data none
          reap := .events todo n
          reaped := f.reaped ++ [(id, ev)]
          settled := f.settled ++ [(p, ev)] } (q ++ [.finish p (.ok ev)])
  | dangling (ev : IoEvent) (id n : Nat) (todo : List (IoEvent × Nat))
      (hr : f.reap = .events ((ev, id) :: todo) n) (hp : f.heap ev.data = none) :
      FileIoStep f q .reap
        { f with
          reap := .events todo n
          reaped := f.reaped ++ [(id, ev)]
          fault := true } q
  | returned (n : Nat) (hr : f.reap = .events [] n)
      (hno : ∀ e rest, f.aioAvailable.waitingList = e :: rest →
        sizeAdd f.aioAvailable.tokens n < e.tokens) :
      FileIoStep f q .reap
        { f with
          aioAvailable :=
            ⟨sizeAdd f.aioAvailable.tokens n, f.aioAvailable.waitingList⟩
          reap := .idle } q
  | handedOn (n : Nat) (e : Entry Request) (waiting : List (Entry Request))
      (hr : f.reap = .events [] n) (hw : f.aioAvailable.waitingList = e :: waiting)
      (hle : e.tokens ≤ sizeAdd f.aioAvailable.tokens n) :
      FileIoStep f q .reap
        { f with
          aioAvailable := ⟨sizeAdd f.aioAvailable.tokens n - e.tokens, waiting⟩
          reap := .idle } (q ++ [.submit e.pr])

theorem FileIo.submitIo_cases (f : FileIo) (io : Iocb) :
    (1 < f.aioAvailable.tokens ∧ f.aioAvailable.waitingList = [] ∧
      f.submitIo_ io = (f.record io ⟨f.aioAvailable.tokens - 1, []⟩,
        [.submit (f.nextRequest io)])) ∨
    f.submitIo_ io = (f.record io ⟨f.aioAvailable.tokens,
      f.aioAvailable.waitingList ++ [⟨1, f.nextRequest io⟩]⟩, []) := by
  have heq : f.submitIo_ io = (f.record io (f.aioAvailable.wait 1 (f.nextRequest io)).1,
      if (f.aioAvailable.wait 1 (f.nextRequest io)).2 then [.submit (f.nextRequest io)]
      else []) := rfl
  obtain ⟨hlt, he, hw⟩ | ⟨-, hw⟩ := f.aioAvailable.wait_cases 1 (f.nextRequest io)
  · exact .inl ⟨hlt, he, by simp [heq, hw]⟩
  · exact .inr (by simp [heq, hw])

theorem submitIo_steps (f : FileIo) (q : List AioTask) (a : FileIoAct) (io : Iocb)
    (ha : a.call? = some io) (hr : f.reap = .idle) :
    FileIoStep f q a (f.submitIo_ io).1 (q ++ (f.submitIo_ io).2) := by
  obtain ⟨hlt, he, hs⟩ | hs := f.submitIo_cases io
  · rw [hs]
    exact .granted a io ha hr hlt he
  · rw [hs, List.append_nil]
    exact .parked a io ha hr

theorem submitIoImpl_steps (f : FileIo) (pr : Nat) (res : SubmitRes) (rq : Request)
    (rest : List AioTask) (hr : f.reap = .idle) (hpr : f.heap pr = none) :
    FileIoStep f (.submit rq :: rest) (.runSubmit pr res) (f.submitIoImpl_ rq pr res).1
      (rest ++ (f.submitIoImpl_ rq pr res).2) := by
  cases res with
  | accepted =>
    rw [submitIoImpl_, List.append_nil]
    exact .accepted pr rq rest hr rfl hpr
  | failed errno =>
    have hu : Function.update f.heap pr none = f.heap := by
      rw [← hpr, Function.update_eq_self]
    rw [submitIoImpl_, hu]
    exact .refused pr errno rq rest hr rfl hpr

theorem completeIocb_steps (f f' : FileIo) (q : List AioTask) (k : Nat) (res : KernelRes)
    (h : f.completeIocb k res = some f') : FileIoStep f q (.completeIocb k res) f' q := by
  obtain ⟨⟨io, id⟩, hk, rfl⟩ := Option.map_eq_some_iff.mp h
  obtain ⟨pre, post, hsplit, he, rfl⟩ := exists_split_of_getElem? hk
  rw [he]
  exact .completed pre post io id _ res hsplit

theorem reapStep_steps (f f' : FileIo) (q ts : List AioTask)
    (h : f.reapStep = some (f', ts)) : FileIoStep f q .reap f' (q ++ ts) := by
  unfold reapStep at h
  split at h
  case h_1 => cases h
  case h_2 ev id todo n hr =>
    obtain ⟨rfl, rfl⟩ := Prod.mk.inj (Option.some.inj h)
    cases hp : f.heap ev.data with
    | none => simpa [reapEvent, hp] using FileIoStep.dangling (q := q) ev id n todo hr hp
    | some p => simpa [reapEvent, hp] using FileIoStep.settled (q := q) ev id p n todo hr hp
  case h_3 n hr =>
    obtain ⟨rfl, rfl⟩ := Prod.mk.inj (Option.some.inj h)
    obtain ⟨hno, hrel⟩ | ⟨e, rest, hl, hle, hrel⟩ := f.aioAvailable.release_cases n
    · simpa [releaseSlots, hrel] using FileIoStep.returned (q := q) n hr hno
    · simpa [releaseSlots, hrel] using FileIoStep.handedOn (q := q) n e rest hr hl hle

theorem file_io_step_cases {s t : FileIoState} {a : FileIoAct}
    (h : fileIoMachine.step s a = some t) : FileIoStep s.io s.tasks a t.io t.tasks := by
  change s.step a = some t at h
  unfold FileIoState.step at h
  cases a with
  | submitWrite fd pos bytes =>
    simp only at h
    split at h
    case h_1 hr =>
      cases h
      exact submitIo_steps s.io s.tasks _ _ rfl hr
    case h_2 => cases h
  | submitRead fd pos bytes =>
    simp only at h
    split at h
    case h_1 hr =>
      cases h
      exact submitIo_steps s.io s.tasks _ _ rfl hr
    case h_2 => cases h
  | runSubmit pr res =>
    simp only at h
    split at h
    case h_1 rq rest hr hq hpr =>
      cases h
      rw [hq]
      exact submitIoImpl_steps s.io pr res rq rest hr hpr
    case h_2 => cases h
  | runFinish =>
    simp only at h
    split at h
    case h_1 id r rest hr hq =>
      cases h
      exact .finished id r rest hr hq
    case h_2 => cases h
  | completeIocb k res =>
    obtain ⟨f', hf, rfl⟩ := Option.map_eq_some_iff.mp h
    exact completeIocb_steps s.io f' s.tasks k res hf
  | getevents n =>
    simp only at h
    split at h
    case h_1 hr =>
      split at h
      case isTrue hn =>
        cases h
        exact .gotEvents n hr hn.1 hn.2
      case isFalse => cases h
    case h_2 => cases h
  | geteventsFails =>
    simp only at h
    split at h
    case h_1 hr =>
      cases h
      exact .gotNone hr
    case h_2 => cases h
  | reap =>
    obtain ⟨⟨f', ts⟩, hf, rfl⟩ := Option.map_eq_some_iff.mp h
    exact reapStep_steps s.io f' s.tasks ts hf

end Miniss
