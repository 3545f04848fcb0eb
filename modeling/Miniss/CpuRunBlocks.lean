import Miniss.CpuRunFileIo

/-! `run_idle_proc_` and the eventfd of `File_io`, which stands in epoll for as long as it can
be read. -/
namespace Miniss
variable {ε : Type*}

/-- In `run_idle_proc_`, up to the return of `epoll_pwait`. -/
def RunLoc.beforeWait : RunLoc → Bool
  | .mask | .pending | .blocked => true
  | _ => false

namespace CpuRun

/-- An idle CPU whose I/O is drained does not find the eventfd readable, and one with a
completed iocb that it has not reaped does. -/
structure IdleBlocks (s : CpuRun ε) : Prop where
  blocks : s.io.AllReaped → s.loc.beforeWait = true → s.pendingSignals = 0 → s.io.eventfd = 0
  wakes : s.io.unreaped ≠ [] → 0 < s.io.eventfd

/-- When the loop calls `run_idle_proc_` with its I/O drained and no signal pending, no iocb
was accepted so far. -/
def IdlesUnused (s : CpuRun ε) (a : RunAct ε) : Prop :=
  (∃ attached, a = .go attached) → s.loc = .test → s.taskQueue = [] → s.active = false →
    s.pendingSignals = 0 → s.io.AllReaped → s.io.accepted = []

/-- What is known of the I/O of every reachable state. -/
structure IoSound (s : CpuRun ε) : Prop where
  served : s.Served
  apart : s.Apart
  fileIo : ∃ bs, fileIoMachine.Reaches bs s.fileIo

theorem IoSound.step {s t : CpuRun ε} {a : RunAct ε} (h : s.IoSound) (hst : s.step a = some t)
    (hs : CpuRunStep s a t) : t.IoSound := by
  refine ⟨h.served.step hs, h.apart.step h.served hs, ?_⟩
  obtain ⟨bs, hb⟩ := h.fileIo
  obtain he | ⟨b, hstep⟩ := fileIo_step h.apart hst hs
  · exact ⟨bs, he ▸ hb⟩
  · exact ⟨bs ++ [b], hb.snoc hstep⟩

theorem init_ioSound (kinds : List TaskKind) :
    (CpuRun.init (kinds.map .user) : CpuRun ε).IoSound :=
  ⟨served_of_busy (.inl rfl) rfl, init_apart kinds, [], congrArg some (init_fileIo kinds).symm⟩

theorem IoSound.eventfd_of_allReaped {s : CpuRun ε} (h : s.IoSound) (hall : s.io.AllReaped) :
    s.io.eventfd = s.io.accepted.length := by
  obtain ⟨bs, hb⟩ := h.fileIo
  exact (FileIo.eventfd_of_allReaped hb hall).2

theorem IoSound.wakes {s : CpuRun ε} (h : s.IoSound) (hun : s.io.unreaped ≠ []) :
    0 < s.io.eventfd := by
  obtain ⟨bs, hb⟩ := h.fileIo
  have hcount : s.io.eventfd = s.io.unreaped.length + s.io.reaped.length :=
    (FileIo.notified_reachable hb).eventfd
  have hpos := List.length_pos_iff.mpr hun
  omega

theorem elsewhere_kept {s t : CpuRun ε} {a : RunAct ε} (ha : a.elsewhere = true)
    (h : s.step a = some t) : t.io.accepted = s.io.accepted ∧ t.io.reaped = s.io.reaped ∧
      t.pendingSignals = s.pendingSignals := by
  obtain ⟨hsig, ⟨hio, -⟩ | ⟨k, res, -, f, hf, rfl⟩⟩ := elsewhere_io ha h
  · exact ⟨by rw [hio], by rw [hio], hsig⟩
  · obtain ⟨io, -, rfl⟩ := Option.map_eq_some_iff.mp hf
    exact ⟨rfl, rfl, rfl⟩

theorem go_test {s : CpuRun ε} (hpc : s.timers.pc = .idle) (hl : s.loc = .test)
    (hq : s.taskQueue = []) (ha : s.active = false) (attached : Bool) :
    s.step (.go attached) = some { s with loc := .mask } := by
  change s.go attached = _
  simp [go, loopStep, hpc, hl, hq, ha]

/-- How the thread comes to be before the wait: the loop has called `run_idle_proc_`, or it was
there, with the same requests accepted and reaped and no signal taken back. -/
theorem beforeWait_cases {s t : CpuRun ε} {a : RunAct ε} (hst : s.step a = some t)
    (hs : CpuRunStep s a t) (ht : t.loc.beforeWait = true) :
    ((∃ attached, a = .go attached) ∧ s.loc = .test ∧ s.taskQueue = [] ∧ s.active = false ∧
      t = { s with loc := .mask }) ∨
    (s.loc.beforeWait = true ∧ t.io.accepted = s.io.accepted ∧ t.io.reaped = s.io.reaped ∧
      (t.pendingSignals = 0 → s.pendingSignals = 0)) := by
  cases hs with
  | elsewhere a t ha he =>
    obtain ⟨hacc, hreap, hsig⟩ := elsewhere_kept ha hst
    exact .inr ⟨he.loc ▸ ht, hacc, hreap, fun h => hsig ▸ h⟩
  | delivered interrupts hsig hu =>
    refine .inr ⟨?_, rfl, rfl, fun h => absurd h (or_sigalrmBit_ne_zero _)⟩
    obtain he | ⟨-, he⟩ | ⟨-, -, he⟩ := s.loc.interrupted_cases interrupts
    · exact he ▸ ht
    all_goals
      change (s.loc.interrupted interrupts).beforeWait = true at ht
      rw [he] at ht
      cases ht
  | rearmed attached hpc =>
    dsimp only at ht
    split at ht
    · cases ht
    · exact .inr ⟨ht, rfl, rfl, id⟩
  | completed attached now hpc => exact .inr ⟨ht, rfl, rfl, id⟩
  | idled attached hpc hl hq =>
    refine .inl ⟨⟨attached, rfl⟩, hl, hq, ?_, rfl⟩
    by_contra hact
    change s.go attached = _ at hst
    simp [go, loopStep, hpc, hl, hact] at hst
  | masked attached hpc hl => exact .inr ⟨by rw [hl]; rfl, rfl, rfl, id⟩
  | checked attached hpc hl => exact .inr ⟨by rw [hl]; rfl, rfl, rfl, id⟩
  | found a loc ts ha hl =>
    cases a <;> cases ha <;> cases ht
  | loaded attached hpc hl =>
    dsimp only at ht
    split at ht <;> cases ht
  | ended r kind rank left hpc hl =>
    cases hr : kind.run r <;> simp [endTask, hr, RunLoc.beforeWait] at ht
  | _ => exact absurd ht (by simp [*, RunLoc.beforeWait, submitSyscall, submitIo])

theorem idleBlocks_iff {s t : CpuRun ε} {a : RunAct ε} (h : s.IoSound) (hi : s.IdleBlocks)
    (hst : s.step a = some t) (hs : CpuRunStep s a t) : t.IdleBlocks ↔ s.IdlesUnused a := by
  have ht := h.step hst hs
  constructor
  · rintro hb ⟨attached, rfl⟩ hl hq hact hsig hall
    have hpc := h.served.timers_idle (congrArg RunLoc.inTimers hl)
    obtain rfl := Option.some.inj ((go_test hpc hl hq hact attached).symm.trans hst)
    have hzero : s.io.eventfd = 0 := hb.blocks hall rfl hsig
    rw [h.eventfd_of_allReaped hall] at hzero
    exact List.length_eq_zero_iff.mp hzero
  · refine fun hc => ⟨fun hall hw hsig => ?_, ht.wakes⟩
    rw [ht.eventfd_of_allReaped hall]
    obtain ⟨hgo, hl, hq, hact, rfl⟩ | ⟨hw', hacc, hreap, hback⟩ := beforeWait_cases hst hs hw
    · exact List.length_eq_zero_iff.mpr (hc hgo hl hq hact hsig hall)
    · have hall' : s.io.AllReaped := by
        intro id hid
        rw [← hreap]
        exact hall id (hacc ▸ hid)
      rw [hacc, ← h.eventfd_of_allReaped hall']
      exact hi.blocks hall' hw' (hback hsig)

end CpuRun

open CpuRun

/-- In a run, an idle CPU blocks whenever its I/O is drained, exactly when the loop does not
call `run_idle_proc_` with drained I/O and no signal pending once an iocb was accepted. -/
theorem idle_blocks_iff (kinds : List TaskKind) (as : List (RunAct ε)) :
    (cpuRunMachine (kinds.map .user)).Throughout IdleBlocks (.init (kinds.map .user)) as ↔
      (cpuRunMachine (kinds.map .user)).Meets IdlesUnused (.init (kinds.map .user)) as :=
  Machine.throughout_iff_meets (J := IoSound)
    (fun _ _ _ hj hst => hj.step hst (cpu_run_step_cases hst))
    (fun _ _ _ hj hi hst => idleBlocks_iff hj hi hst (cpu_run_step_cases hst))
    (init_ioSound kinds) ⟨fun _ hw => absurd hw Bool.false_ne_true, fun hun => absurd rfl hun⟩

/-- One read: its task runs, the iocb is accepted, completes and is reaped, the continuation
runs, and the loop goes idle. -/
def oneReadRun : List (RunAct Unit) :=
  let round : List (RunAct Unit) := [.go false, .go false, .go false, .go false]
  round ++ [.getevents 0, .go false, .go false, .go false, .dma .pread 3 0 ⟨0, 1024⟩,
    .finish (.ok ()), .issue 0 .accepted, .completeIocb 0 ⟨1024, by decide⟩, .go false] ++
  round ++ [.getevents 1, .go false, .go false, .go false, .go false, .go false] ++
  round ++ [.getevents 0, .go false, .go false]

/-- Behind a single read, `epoll_pwait` returns at once, although there is nothing to do. -/
theorem idle_spins_after_read :
    (¬(cpuRunMachine [.user .lambda]).Throughout IdleBlocks (.init [.user .lambda]) oneReadRun) ∧
    ∃ s : CpuRun Unit,
      (cpuRunMachine [.user .lambda]).Reaches (oneReadRun ++ [.go false, .go false, .event]) s ∧
        s.pendingSignals = 0 ∧ s.io.accepted = [0] ∧ s.io.reaped.map Prod.fst = [0] := by
  refine ⟨fun h => ?_, _, rfl, rfl, rfl, rfl⟩
  have hs := h oneReadRun [] _ (List.append_nil _).symm rfl
  exact absurd (hs.blocks (fun _ hid => hid) rfl rfl) (by decide)

end Miniss
