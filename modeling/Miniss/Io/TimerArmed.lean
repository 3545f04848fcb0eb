import Miniss.Io.TimerSteps

/-! No timer is forgotten: between two operations, a `SIGALRM` is pending or the physical
timer is armed with the earliest deadline. -/
namespace Miniss

/-- `Signal_poller::poll` is on its way to `complete_timers`. -/
def PollerPc.willComplete : PollerPc → Prop
  | .idle => False
  | .clear signals => signals.getLsbD 14 = true
  | .handlers todo => 14 ∈ todo

namespace TimerCpu

/-- A `SIGALRM` is pending for the thread, or noted in `pending_signals_`. -/
def AlarmPending (s : TimerCpu) : Prop :=
  s.sigalrm = true ∨ s.pendingSignals.getLsbD 14 = true

/-- The earliest deadline will be looked at. -/
def Awaited (s : TimerCpu) : Prop :=
  ∀ d, s.service.timers.firstKey? = some d →
    s.AlarmPending ∨ s.service.physicalTimer = some d

/-- What holds in all states, also within an operation. -/
structure Watched (s : TimerCpu) : Prop where
  sound : s.service.Sound
  awaited : s.service.pc = .idle → s.Awaited ∨ s.poller.willComplete

theorem init_watched (clock : Int) : (init clock).Watched where
  sound := TimerService.init_sound
  awaited _ := .inl fun d hd => by cases hd

theorem awaited_of_sigalrm {s : TimerCpu} (h : s.sigalrm = true) : s.Awaited :=
  fun _ _ => .inl (.inl h)

/-- Clearing takes the bit away only if it was loaded, and then the timers are completed. -/
theorem Awaited.clear {s : TimerCpu} {signals : BitVec 64} (h : s.Awaited)
    (hs : signals.getLsbD 14 = false) (poller : PollerPc) :
    Awaited { s with pendingSignals := s.pendingSignals &&& ~~~signals, poller := poller } := by
  intro d hd
  refine (h d hd).imp_left fun hp => hp.imp_right fun hp => ?_
  rw [BitVec.getLsbD_and, BitVec.getLsbD_not, hp, hs]
  rfl

theorem Watched.added {s : TimerCpu} (h : s.Watched) {interval : Int}
    (hpc : s.service.pc = .idle) (hp : s.poller = .idle) (hpos : 0 < s.clock + interval)
    (hmax : s.clock + interval < timePointMax) (log : List TimerEvent) :
    Watched
      { s with
        service := s.service.addTimer s.clock interval s.nextTask
        nextTask := s.nextTask + 1
        log := log } := by
  refine ⟨h.sound.addTimer hpos _, fun hidle => .inl ?_⟩
  -- Without a rearming the new deadline is not the earliest one.
  have hge : s.service.timers.firstKey?.getD timePointMax ≤ s.clock + interval := by
    by_contra hlt
    simp [TimerService.addTimer, not_le.mp hlt] at hidle
  obtain hf | ⟨j, hf⟩ := Option.eq_none_or_eq_some s.service.timers.firstKey?
  · rw [hf, Option.getD_none] at hge
    omega
  · rw [hf, Option.getD_some] at hge
    have hfirst := SortedMap.firstKey_pushBack_of_le hf hge s.nextTask
    intro d hd
    obtain rfl : j = d := Option.some.inj (hfirst.symm.trans hd)
    obtain hw | hw := h.awaited hpc
    · exact hw j hf
    · rw [hp] at hw
      exact hw.elim

theorem Watched.rearmed {s : TimerCpu} (h : s.Watched) (hpc : s.service.pc = .rearm) :
    Watched
      { s with
        service := (s.service.rearmTimer_ s.clock).1
        sigalrm := s.sigalrm || (s.service.rearmTimer_ s.clock).2 } := by
  have hsound := h.sound.rearmTimer_ hpc s.clock
  obtain ⟨d, hd, hr | hr⟩ := h.sound.rearmTimer_cases hpc s.clock <;> rw [hr] at hsound ⊢
  · exact ⟨hsound, fun _ => .inl (awaited_of_sigalrm (Bool.or_true _))⟩
  · refine ⟨hsound, fun _ => .inl fun e he => .inr ?_⟩
    exact hd.symm.trans he

theorem Watched.completed {s : TimerCpu} (h : s.Watched) (now : Int) (queue : List Nat)
    (log : List TimerEvent) :
    Watched
      { s with
        service := (s.service.completeTimers now).1
        taskQueue := queue
        log := log } := by
  refine ⟨h.sound.completeTimers now, ?_⟩
  cases hl : (s.service.timers.after now).entries <;>
    simp [TimerService.completeTimers, Awaited, SortedMap.firstKey?, hl]

theorem Watched.polled {s : TimerCpu} (h : s.Watched) (hpc : s.service.pc = .idle)
    (hp : s.poller = .idle) (poller : PollerPc) : Watched { s with poller := poller } := by
  refine ⟨h.sound, fun _ => .inl ?_⟩
  have hw := h.awaited hpc
  rw [hp] at hw
  exact hw.resolve_right id

theorem Watched.cleared {s : TimerCpu} (h : s.Watched) {signals : BitVec 64}
    (hpc : s.service.pc = .idle) (hp : s.poller = .clear signals) :
    Watched
      { s with
        pendingSignals := s.pendingSignals &&& ~~~signals
        poller := .handlers (handledSignals signals) } := by
  refine ⟨h.sound, fun _ => ?_⟩
  cases hs : signals.getLsbD 14 with
  | true => exact .inr (mem_handledSignals.mpr hs)
  | false =>
    obtain hw | hw := h.awaited hpc
    · exact .inl (hw.clear hs _)
    · rw [hp] at hw
      exact absurd (hs.symm.trans hw) Bool.false_ne_true

theorem Watched.step {s t : TimerCpu} {a : TimerAct} (h : s.Watched) (hs : TimerStep s a t) :
    t.Watched := by
  cases hs with
  | ticked clock hle => exact ⟨h.sound, h.awaited⟩
  | added interval hpc hp hpos hmax => exact h.added hpc hp hpos hmax _
  | called a poller hpc => exact ⟨⟨h.sound.keys, h.sound.running, nofun⟩, nofun⟩
  | polled hpc hp => exact h.polled hpc hp _
  | rearmed hpc => exact h.rearmed hpc
  | completed now hpc => exact h.completed now _ _
  | cleared signals hpc hp => exact h.cleared hpc hp
  | handled hpc hp =>
    refine ⟨h.sound, fun _ => .inl ?_⟩
    obtain hw | hw := h.awaited hpc
    · exact hw
    · rw [hp] at hw
      exact absurd hw List.not_mem_nil
  | alarmed =>
    exact ⟨h.sound, fun _ => .inl (awaited_of_sigalrm rfl)⟩
  | delivered hsig =>
    refine ⟨h.sound, fun _ => .inl fun d hd => .inl (.inr ?_)⟩
    rw [BitVec.getLsbD_or, sigalrmBit_getLsbD, Bool.or_true]
  | expired d hd hle =>
    exact ⟨⟨h.sound.keys, h.sound.running, h.sound.rearm⟩, fun _ => .inl (awaited_of_sigalrm rfl)⟩

end TimerCpu

open TimerCpu

theorem timers_watched {clock : Int} {as : List TimerAct} {s : TimerCpu}
    (h : (timerMachine clock).Reaches as s) : s.Watched :=
  h.invariant (init_watched clock) fun _ _ _ hw hst => hw.step (timer_step_cases hst)

/-- In every interleaving, when the CPU thread is between two operations and there is a timer,
a `SIGALRM` is pending or the physical timer is armed with the earliest deadline. -/
theorem no_timer_forgotten {clock : Int} {as : List TimerAct} {s : TimerCpu}
    (h : (timerMachine clock).Reaches as s) (hrest : s.atRest = true) {d : Int}
    (hd : s.service.timers.firstKey? = some d) :
    s.AlarmPending ∨ s.service.physicalTimer = some d := by
  obtain ⟨hpc, hp⟩ := s.atRest_iff.mp hrest
  have hw := (timers_watched h).awaited hpc
  rw [hp] at hw
  exact hw.resolve_right id d hd

/-- Of two timers the earlier one arms the physical timer, although it was added later. -/
theorem no_timer_forgotten_earlier : ∃ s : TimerCpu,
    (timerMachine 5).Reaches [.addTimer 10, .go, .addTimer 3, .go] s ∧
      s.service.physicalTimer = some 8 ∧
      (s.AlarmPending ∨ s.service.physicalTimer = some 8) := by
  refine ⟨_, rfl, rfl, ?_⟩
  exact no_timer_forgotten (rfl : (timerMachine 5).Reaches
    [.addTimer 10, .go, .addTimer 3, .go] _) rfl rfl

/-- `rearm_timer_` never comes to `std::terminate`, nor to its failed assertion. -/
theorem timers_never_terminate {clock : Int} {as : List TimerAct} {s : TimerCpu}
    (h : (timerMachine clock).Reaches as s) : s.service.terminated = false :=
  (timers_watched h).sound.running

end Miniss
