import Miniss.CpuRunIdle
import Miniss.Io.FileIoEventfd
import Miniss.Io.TimerSteps

/-! A run of `CPU::run` is a run of its `File_io`: what holds of every run of a `File_io` holds
of the one of a CPU. -/
namespace Miniss
variable {ε : Type*}

def RunTask.aio? : RunTask → Option AioTask
  | .cpu (.aio t) => some t
  | _ => none

namespace CpuRun

/-- The `File_io` of a CPU, with its continuations on `task_queue_`. -/
def fileIo (s : CpuRun ε) : FileIoState := ⟨s.io, s.taskQueue.filterMap fun p => p.1.aio?⟩

theorem aio_zipIdx {ts : List RunTask} (h : ∀ t ∈ ts, t.aio? = none) (n : Nat) :
    (ts.zipIdx n).filterMap (fun p => p.1.aio?) = [] := by
  refine List.filterMap_eq_nil_iff.mpr fun p hp => h p.1 ?_
  exact List.fst_mem_of_mem_zipIdx hp

theorem fileIo_schedule (s : CpuRun ε) {ts : List RunTask} (h : ∀ t ∈ ts, t.aio? = none) :
    (s.schedule ts).fileIo = s.fileIo := by
  simp only [fileIo, schedule, List.filterMap_append, aio_zipIdx h, List.append_nil]

theorem aio_zipIdx_aio (ts : List AioTask) (n : Nat) :
    ((ts.map fun t => RunTask.cpu (.aio t)).zipIdx n).filterMap (fun p => p.1.aio?) = ts := by
  induction ts generalizing n with
  | nil => rfl
  | cons t ts ih => exact congrArg (t :: ·) (ih (n + 1))

theorem fileIo_schedule_aio (s : CpuRun ε) (ts : List AioTask) :
    (s.schedule (ts.map fun t => .cpu (.aio t))).fileIo = ⟨s.io, s.fileIo.tasks ++ ts⟩ := by
  simp only [fileIo, schedule, List.filterMap_append, aio_zipIdx_aio]

theorem aio_attach (attached : Bool) : ∀ t ∈ attach attached, t.aio? = none := by
  cases attached <;> simp [attach, RunTask.aio?]

theorem aio_found {a : RunAct ε} {loc : RunLoc} {ts : List RunTask}
    (ha : a.found = some (loc, ts)) : ∀ t ∈ ts, t.aio? = none := by
  cases a with
  | answered attached =>
    cases ha
    exact aio_attach attached
  | remote | moved =>
    cases ha
    exact fun _ ht => absurd ht List.not_mem_nil
  | _ => cases ha

/-- `reap_io` is only under way where the loop has called it, and timers only hold tasks of
the user. -/
structure Apart (s : CpuRun ε) : Prop where
  reap : s.loc ≠ .reaping → s.io.reap = .idle
  timers : ∀ p ∈ s.timers.timers.listing, p.2.aio? = none

theorem init_apart (kinds : List TaskKind) :
    (CpuRun.init (kinds.map .user) : CpuRun ε).Apart where
  reap _ := rfl
  timers _ hp := absurd hp List.not_mem_nil

theorem init_fileIo (kinds : List TaskKind) :
    (CpuRun.init (kinds.map .user) : CpuRun ε).fileIo = fileIoMachine.init := by
  have hnone : ∀ t ∈ kinds.map RunTask.user, t.aio? = none := by simp [RunTask.aio?]
  simp only [fileIo, CpuRun.init, aio_zipIdx hnone]
  rfl

theorem listing_addTimer {v : TimerService RunTask} (h : ∀ p ∈ v.timers.listing, p.2.aio? = none)
    (now interval : Int) (kind : TaskKind) :
    ∀ p ∈ (v.addTimer now interval (.user kind)).timers.listing, p.2.aio? = none := by
  obtain ⟨pre, post, hl, hp, -⟩ := v.timers.listing_pushBack (now + interval) (.user kind)
  intro p hmem
  change p ∈ (v.timers.pushBack (now + interval) (.user kind)).listing at hmem
  rw [hp, List.mem_append, List.mem_cons] at hmem
  obtain hmem | rfl | hmem := hmem
  · exact h p (hl ▸ List.mem_append_left _ hmem)
  · rfl
  · exact h p (hl ▸ List.mem_append_right _ hmem)

theorem listing_completeTimers {v : TimerService RunTask}
    (h : ∀ p ∈ v.timers.listing, p.2.aio? = none) (now : Int) :
    (∀ p ∈ (v.completeTimers now).1.timers.listing, p.2.aio? = none) ∧
      ∀ t ∈ (v.completeTimers now).2, t.aio? = none := by
  have hall := v.timers.listing_upTo_after now
  refine ⟨fun p hp => h p (hall ▸ List.mem_append_right _ hp), fun t ht => ?_⟩
  change t ∈ (v.timers.upTo now).flatMap Prod.snd at ht
  rw [← SortedMap.map_snd_elements] at ht
  obtain ⟨p, hp, rfl⟩ := List.mem_map.mp ht
  exact h p (hall ▸ List.mem_append_left _ hp)

theorem Apart.elsewhere {s t : CpuRun ε} (h : s.Apart) (he : s.Elsewhere t) : t.Apart where
  reap := by rw [he.loc, he.reap]; exact h.reap
  timers := by rw [he.timers]; exact h.timers

/-- The thread moves on, and neither `reap_io` nor the timers do. -/
theorem Apart.moved {s t : CpuRun ε} (h : s.Apart) (hl : s.loc ≠ .reaping)
    (hreap : t.io.reap = s.io.reap) (ht : t.timers.timers = s.timers.timers) : t.Apart where
  reap _ := hreap.trans (h.reap hl)
  timers := by rw [ht]; exact h.timers

theorem submitIoImpl_reap (f : FileIo) (rq : Request) (pr : Nat) (res : SubmitRes) :
    (f.submitIoImpl_ rq pr res).1.reap = f.reap := by
  cases res <;> rfl

theorem Served.not_reaping {s : CpuRun ε} (h : s.Served) (hpc : s.timers.pc ≠ .idle) :
    s.loc ≠ .reaping := by
  intro hl
  have ht := h.timers.resolve_left hpc
  rw [hl] at ht
  cases ht

theorem Apart.step {s t : CpuRun ε} {a : RunAct ε} (h : s.Apart) (hserved : s.Served)
    (hs : CpuRunStep s a t) : t.Apart := by
  cases hs with
  | elsewhere a t ha he => exact h.elsewhere he
  | delivered interrupts hsig hu =>
    refine ⟨fun hne => h.reap fun hl => hne ?_, h.timers⟩
    change s.loc.interrupted interrupts = .reaping
    rw [hl]
    rfl
  | rearmed attached hpc =>
    refine h.moved (hserved.not_reaping ?_) rfl (TimerService.rearmTimer_timers ..)
    simp [hpc]
  | completed attached now hpc =>
    have hl : s.loc ≠ .reaping := hserved.not_reaping (by simp [hpc])
    exact ⟨fun _ => h.reap hl, (listing_completeTimers h.timers now).1⟩
  | gotEvents n hl => exact ⟨fun hne => absurd rfl hne, h.timers⟩
  | eventReaped attached ev id todo n hpc hl hr =>
    exact ⟨fun hne => absurd hl hne, h.timers⟩
  | slotsReleased attached n hpc hl hr => exact ⟨fun _ => rfl, h.timers⟩
  | timerAdded interval kind k hpc hl hpos =>
    exact ⟨fun _ => h.reap (by simp [hl]), listing_addTimer h.timers s.clock interval kind⟩
  | issued pr res rq left rank rest hl hq =>
    exact h.moved (by simp [hl]) (submitIoImpl_reap ..) rfl
  | ended r kind rank left hpc hl =>
    cases kind.run r <;> exact h.moved (by simp [hl]) rfl rfl
  | _ => exact h.moved (by simp [*]) rfl rfl

theorem fileIo_kernel {s t : CpuRun ε} {k : Nat} {res : KernelRes}
    (h : s.step (.completeIocb k res) = some t) :
    fileIoMachine.step s.fileIo (.completeIocb k res) = some t.fileIo := by
  obtain ⟨f, hf, rfl⟩ := Option.map_eq_some_iff.mp h
  change (s.io.completeIocb k res).map _ = _
  rw [hf]
  rfl

theorem fileIo_getevents {s t : CpuRun ε} (hs : s.Apart) {n : Nat}
    (h : s.step (.getevents n) = some t) :
    fileIoMachine.step s.fileIo (.getevents n) = some t.fileIo := by
  change s.geteventsStep n = some t at h
  unfold geteventsStep at h
  split at h
  case h_2 => cases h
  case h_1 hl =>
    obtain ⟨hn, ht⟩ := Option.ite_none_right_eq_some.mp h
    cases ht
    have hr : s.io.reap = .idle := hs.reap (by simp [hl])
    simp only [fileIoMachine, FileIoState.step, fileIo, hr, if_pos hn]

theorem fileIo_issue {s t : CpuRun ε} (hs : s.Apart) {pr : Nat} {res : SubmitRes}
    (h : s.step (.issue pr res) = some t) :
    fileIoMachine.step s.fileIo (.runSubmit pr res) = some t.fileIo := by
  change s.issue pr res = some t at h
  unfold issue at h
  split at h
  case h_2 => cases h
  case h_1 left rq rank rest hl hq hpr =>
    cases h
    have hr : s.io.reap = .idle := hs.reap (by simp [hl])
    rw [fileIo_schedule_aio]
    simp only [fileIoMachine, FileIoState.step, fileIo, hr, hq, hpr, RunTask.aio?,
      List.filterMap_cons]

theorem fileIo_reap {s : CpuRun ε} {f : FileIo} {ts : List AioTask}
    (h : s.io.reapStep = some (f, ts)) :
    fileIoMachine.step s.fileIo .reap = some ⟨f, s.fileIo.tasks ++ ts⟩ := by
  change s.io.reapStep.map _ = _
  rw [h]
  rfl

theorem fileIo_requested {s : CpuRun ε} (hr : s.io.reap = .idle) (opcode : AioOpcode) (fd : Int)
    (pos : Nat) (bytes : Span) :
    ∃ b, fileIoMachine.step s.fileIo b =
      some (s.submitIo (FileIo.newIocb opcode fd pos bytes)).fileIo := by
  have hsub : (s.submitIo (FileIo.newIocb opcode fd pos bytes)).fileIo =
      ⟨(s.io.submitIo_ (FileIo.newIocb opcode fd pos bytes)).1, s.fileIo.tasks ++
        (s.io.submitIo_ (FileIo.newIocb opcode fd pos bytes)).2⟩ := fileIo_schedule_aio ..
  rw [hsub]
  cases opcode with
  | pread =>
    refine ⟨.submitRead fd pos bytes, ?_⟩
    simp only [fileIoMachine, FileIoState.step, fileIo, hr]
    rfl
  | pwrite =>
    refine ⟨.submitWrite fd pos bytes, ?_⟩
    simp only [fileIoMachine, FileIoState.step, fileIo, hr]
    rfl

/-- What happens elsewhere leaves the I/O alone, or the kernel completes an iocb. -/
theorem elsewhere_io {s t : CpuRun ε} {a : RunAct ε} (ha : a.elsewhere = true)
    (h : s.step a = some t) : t.pendingSignals = s.pendingSignals ∧
      (t.io = s.io ∧ t.fileIo = s.fileIo ∨
        ∃ k res, a = .completeIocb k res ∧
          ∃ f, s.io.completeIocb k res = some f ∧ t = { s with io := f }) := by
  cases a with
  | completeIocb k res =>
    obtain ⟨f, hf, rfl⟩ := Option.map_eq_some_iff.mp h
    exact ⟨rfl, .inr ⟨k, res, rfl, f, hf, rfl⟩⟩
  | alarm =>
    cases h
    exact ⟨rfl, .inl ⟨rfl, rfl⟩⟩
  | tick clock =>
    obtain ⟨-, ht⟩ := Option.ite_none_right_eq_some.mp h
    cases ht
    exact ⟨rfl, .inl ⟨rfl, rfl⟩⟩
  | expire =>
    obtain ⟨v, -, rfl⟩ := Option.map_eq_some_iff.mp h
    exact ⟨rfl, .inl ⟨rfl, rfl⟩⟩
  | worker =>
    obtain ⟨r, -, rfl⟩ := Option.map_eq_some_iff.mp h
    exact ⟨rfl, .inl ⟨rfl, rfl⟩⟩
  | _ => cases ha

theorem fileIo_elsewhere {s t : CpuRun ε} {a : RunAct ε} (ha : a.elsewhere = true)
    (h : s.step a = some t) :
    t.fileIo = s.fileIo ∨ ∃ b, fileIoMachine.step s.fileIo b = some t.fileIo := by
  obtain ⟨-, ⟨-, he⟩ | ⟨k, res, rfl, -⟩⟩ := elsewhere_io ha h
  · exact .inl he
  · exact .inr ⟨_, fileIo_kernel h⟩

theorem fileIo_step {s t : CpuRun ε} {a : RunAct ε} (h : s.Apart)
    (hst : s.step a = some t) (hs : CpuRunStep s a t) :
    t.fileIo = s.fileIo ∨ ∃ b, fileIoMachine.step s.fileIo b = some t.fileIo := by
  cases hs with
  | elsewhere a t ha he => exact fileIo_elsewhere ha hst
  | gotEvents n hl => exact .inr ⟨_, fileIo_getevents h hst⟩
  | issued pr res rq left rank rest hl hq => exact .inr ⟨_, fileIo_issue h hst⟩
  | completed attached now hpc =>
    exact .inl (fileIo_schedule _ (listing_completeTimers h.timers now).2)
  | found a loc ts ha hl => exact .inl (fileIo_schedule _ (aio_found ha))
  | workCompleted attached work todo nr hpc hl hr =>
    exact .inl (fileIo_schedule _ (aio_attach attached))
  | roomReleased attached nr hpc hl hr =>
    refine .inl (fileIo_schedule _ fun t ht => ?_)
    obtain ⟨work, -, rfl⟩ := List.mem_map.mp ht
    rfl
  | eventReaped attached ev id todo n hpc hl hr =>
    refine .inr ⟨.reap, ?_⟩
    rw [fileIo_schedule_aio]
    exact fileIo_reap (by simp only [FileIo.reapStep, hr])
  | slotsReleased attached n hpc hl hr =>
    refine .inr ⟨.reap, ?_⟩
    rw [fileIo_schedule_aio]
    exact fileIo_reap (by simp only [FileIo.reapStep, hr])
  | bodyBegun attached kind left rank rest hpc hl hq =>
    refine .inl ?_
    simp only [fileIo, hq, List.filterMap_cons, RunTask.aio?]
  | pushed attached work left rank rest hpc hl hq =>
    refine .inl ?_
    simp only [fileIo, hq, List.filterMap_cons, RunTask.aio?]
  | finished attached id r left rank rest hpc hl hq =>
    refine .inr ⟨.runFinish, ?_⟩
    have hr : s.io.reap = .idle := h.reap (by simp [hl])
    rw [fileIo_schedule _ (aio_attach attached)]
    simp only [fileIoMachine, FileIoState.step, fileIo, hr, hq, List.filterMap_cons, RunTask.aio?]
  | scheduled kind k hpc hl =>
    refine .inl (fileIo_schedule _ fun t ht => ?_)
    cases List.mem_singleton.mp ht
    rfl
  | called body errno k hpc hl =>
    refine .inl (fileIo_schedule _ fun t ht => ?_)
    obtain ⟨work, -, rfl⟩ := List.mem_map.mp ht
    rfl
  | requested opcode fd pos bytes k hpc hl =>
    exact .inr (fileIo_requested (h.reap (by simp [hl])) opcode fd pos bytes)
  | ended r kind rank left hpc hl =>
    cases kind.run r <;> exact .inl rfl
  | _ => exact .inl rfl

end CpuRun

open CpuRun

theorem cpu_run_apart {kinds : List TaskKind} {as : List (RunAct ε)} {s : CpuRun ε}
    (h : (cpuRunMachine (kinds.map .user)).Reaches as s) : s.Apart :=
  h.invariant_of (fun _ _ => cpu_run_served) (init_apart kinds) fun _ _ _ hserved ha hst =>
    ha.step hserved (cpu_run_step_cases hst)

/-- The `File_io` of a CPU that was given tasks of the user runs as a `File_io` of its own. -/
theorem cpu_run_fileIo {kinds : List TaskKind} {as : List (RunAct ε)} {s : CpuRun ε}
    (h : (cpuRunMachine (kinds.map .user)).Reaches as s) :
    ∃ bs, fileIoMachine.Reaches bs s.fileIo :=
  h.simulated (fun _ _ => cpu_run_apart) (init_fileIo kinds)
    fun _ _ _ ha hst => fileIo_step ha hst (cpu_run_step_cases hst)

end Miniss
