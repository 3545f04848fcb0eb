import Miniss.Io.TimerSteps
import Mathlib.Data.Multiset.ZeroCons

/-! The timers with the arithmetic of their 64-bit clock, for every delay that a task can be
given. -/
namespace Miniss
variable {τ : Type*}

/-- The sum of a `time_point` and a `duration`, signed counts of 64 bits. -/
def wrapAdd (a b : Int) : Int := (a + b).bmod (2 ^ 64)

theorem wrapAdd_of_le {a b : Int} (ha : 0 ≤ a) (hb : 0 ≤ b) (h : a + b ≤ timePointMax) :
    wrapAdd a b = a + b := by
  unfold timePointMax at h
  exact Int.bmod_eq_of_le (by omega) (by omega)

/-- Beyond the last time point the sum is before its first summand. -/
theorem wrapAdd_lt {a b : Int} (ha : 0 ≤ a) (hmax : a ≤ timePointMax) (hb : b ≤ timePointMax)
    (h : timePointMax < a + b) : wrapAdd a b < a := by
  unfold timePointMax at hmax hb h
  simp only [wrapAdd, Int.bmod]
  omega

theorem le_wrapAdd_iff {a b : Int} (ha : 0 ≤ a) (hmax : a ≤ timePointMax) (hb : 0 ≤ b)
    (hbmax : b ≤ timePointMax) : a ≤ wrapAdd a b ↔ a + b ≤ timePointMax := by
  constructor
  · intro h
    by_contra hlt
    exact absurd (wrapAdd_lt ha hmax hbmax (not_le.mp hlt)) (not_lt.mpr h)
  · intro h
    rw [wrapAdd_of_le ha hb h]
    omega

/-- `add_timer` in that arithmetic. -/
def TimerService.addTimerWrap (s : TimerService τ) (now interval : Int) (t : τ) :
    TimerService τ :=
  let newDeadline := wrapAdd now interval
  let oldDeadline := s.timers.firstKey?.getD timePointMax
  { s with
    timers := s.timers.pushBack newDeadline t
    pc := if newDeadline < oldDeadline then .rearm else .idle }

theorem TimerService.addTimerWrap_eq (s : TimerService τ) (now interval : Int) (t : τ) :
    s.addTimerWrap now interval t = s.addTimer 0 (wrapAdd now interval) t := by
  simp only [addTimerWrap, addTimer, zero_add]

namespace TimerCpu

/-- The steps of a CPU with timers, for a clock of 64 bits and every delay that is not
negative. -/
def stepWrap (s : TimerCpu) : TimerAct → Option TimerCpu
  | .tick clock => if clock ≤ timePointMax then s.step (.tick clock) else none
  | .addTimer interval =>
    if s.atRest ∧ 0 ≤ interval ∧ interval ≤ timePointMax then some
      { s with
        service := s.service.addTimerWrap s.clock interval s.nextTask
        nextTask := s.nextTask + 1
        log := s.log ++ [.added s.nextTask (wrapAdd s.clock interval)] }
    else none
  | a => s.step a

end TimerCpu

def timerWrapMachine (clock : Int) : Machine TimerCpu TimerAct where
  init := .init clock
  step := TimerCpu.stepWrap

/-- `timer_settime` accepts the time, and arms the timer with it. -/
structure Timespec.Armable (its : Timespec) : Prop where
  sec : 0 ≤ its.sec
  nsec : 0 ≤ its.nsec ∧ its.nsec < 1000000000
  nonzero : ¬(its.sec = 0 ∧ its.nsec = 0)

theorem toTimespec_armable {t : Int} (ht : 0 < t) : (toTimespec t).Armable := by
  have hsec : t.tdiv 1000000000 = t / 1000000000 := Int.tdiv_eq_ediv_of_nonneg ht.le
  have hnsec : t.tmod 1000000000 = t % 1000000000 := Int.tmod_eq_emod_of_nonneg ht.le
  constructor <;> simp only [toTimespec, hsec, hnsec] <;> omega

/-- What the arithmetic owes a step: a deadline that it stores is not before the clock,
`rearm_timer_` builds a time that the timer accepts, and the program goes on. -/
structure SafeTimerStep (s : TimerCpu) (a : TimerAct) (t : TimerCpu) : Prop where
  stored : ∀ interval, a = .addTimer interval → ∃ deadline, s.clock ≤ deadline ∧
    t.service.timers.listing.Perm ((deadline, s.nextTask) :: s.service.timers.listing)
  rearmed : a = .go → s.service.pc = .rearm →
    ∃ deadline, s.service.timers.firstKey? = some deadline ∧ (toTimespec deadline).Armable
  running : t.service.terminated = false

/-- A delay does not lead beyond the last time point. -/
def InClockRange (s : TimerCpu) : TimerAct → Prop
  | .addTimer interval => s.clock + interval ≤ timePointMax
  | _ => True

instance (s : TimerCpu) : DecidablePred (InClockRange s)
  | .addTimer _ => inferInstanceAs (Decidable (_ ≤ _))
  | .tick _ | .completeTimers | .poll | .go | .alarm | .deliver | .expire => isTrue trivial

/-- The clock is one of its positive readings, and the service is sound so far. -/
structure ClockSound (s : TimerCpu) : Prop where
  pos : 0 < s.clock
  le : s.clock ≤ timePointMax
  sound : s.service.Sound

theorem step_of_stepWrap {s t : TimerCpu} {a : TimerAct} (h : s.stepWrap a = some t)
    (ha : ∀ interval, a ≠ .addTimer interval) : TimerStep s a t := by
  have hstep : s.step a = some t := by
    cases a with
    | addTimer interval => exact absurd rfl (ha interval)
    | tick c => exact (Option.ite_none_right_eq_some.mp h).2
    | _ => exact h
  exact timer_step_cases (show (timerMachine s.clock).step s a = some t from hstep)

theorem timer_wrap_step_cases {clock : Int} {s t : TimerCpu} {a : TimerAct}
    (h : (timerWrapMachine clock).step s a = some t) :
    (∃ interval, a = .addTimer interval ∧ 0 ≤ interval ∧ interval ≤ timePointMax ∧
      t =
        { s with
          service := s.service.addTimerWrap s.clock interval s.nextTask
          nextTask := s.nextTask + 1
          log := s.log ++ [.added s.nextTask (wrapAdd s.clock interval)] }) ∨
    ((∀ interval, a ≠ .addTimer interval) ∧ TimerStep s a t ∧
      (t.clock = s.clock ∨ t.clock ≤ timePointMax)) := by
  change s.stepWrap a = some t at h
  cases a with
  | addTimer interval =>
    obtain ⟨⟨-, h0, hmax⟩, ht⟩ := Option.ite_none_right_eq_some.mp h
    cases ht
    exact .inl ⟨interval, rfl, h0, hmax, rfl⟩
  | tick c =>
    have hst := step_of_stepWrap h nofun
    refine .inr ⟨nofun, hst, ?_⟩
    obtain ⟨hc, -⟩ := Option.ite_none_right_eq_some.mp h
    cases hst with
    | ticked => exact .inr hc
    | called => exact .inl rfl
  | _ =>
    have hst := step_of_stepWrap h nofun
    refine .inr ⟨nofun, hst, .inl ?_⟩
    cases hst <;> rfl

namespace ClockSound

/-- What a step other than `add_timer` owes, and that it keeps the service sound. -/
theorem step {s t : TimerCpu} {a : TimerAct} (h : ClockSound s)
    (ha : ∀ interval, a ≠ .addTimer interval) (hst : TimerStep s a t) :
    t.service.Sound := by
  cases hst with
  | added interval => exact absurd rfl (ha interval)
  | called => exact ⟨h.sound.keys, h.sound.running, nofun⟩
  | rearmed hpc => exact h.sound.rearmTimer_ hpc s.clock
  | completed now => exact h.sound.completeTimers now
  | expired => exact ⟨h.sound.keys, h.sound.running, h.sound.rearm⟩
  | _ => exact h.sound

theorem rearms {s : TimerCpu} (h : ClockSound s) (hpc : s.service.pc = .rearm) :
    ∃ deadline, s.service.timers.firstKey? = some deadline ∧ (toTimespec deadline).Armable := by
  obtain ⟨d, hd⟩ := h.sound.rearm hpc
  exact ⟨d, hd, toTimespec_armable (h.sound.keys d (SortedMap.firstKey_mem hd))⟩

end ClockSound

theorem stored_iff {s : TimerService τ} {now interval : Int} {t : τ} :
    (∃ deadline, now ≤ deadline ∧
      (s.addTimerWrap now interval t).timers.listing.Perm
        ((deadline, t) :: s.timers.listing)) ↔
      now ≤ wrapAdd now interval := by
  obtain ⟨pre, post, hl, hp, -⟩ := s.timers.listing_pushBack (wrapAdd now interval) t
  have hperm : (s.addTimerWrap now interval t).timers.listing.Perm
      ((wrapAdd now interval, t) :: s.timers.listing) := by
    change (s.timers.pushBack (wrapAdd now interval) t).listing.Perm _
    rw [hl, hp]
    exact List.perm_middle
  constructor
  · rintro ⟨d, hle, hd⟩
    have he := Multiset.coe_eq_coe.mpr (hd.symm.trans hperm)
    rw [← Multiset.cons_coe, ← Multiset.cons_coe, Multiset.cons_inj_left] at he
    exact (Prod.mk.inj he).1 ▸ hle
  · exact fun hle => ⟨_, hle, hperm⟩

theorem safe_step_iff {clock : Int} {s t : TimerCpu} {a : TimerAct} (h : ClockSound s)
    (hst : (timerWrapMachine clock).step s a = some t) :
    SafeTimerStep s a t ↔ InClockRange s a := by
  obtain ⟨interval, rfl, h0, hmax, rfl⟩ | ⟨ha, hst, -⟩ := timer_wrap_step_cases hst
  · refine Iff.trans ⟨fun hs => ?_, fun hle => ?_⟩ (le_wrapAdd_iff h.pos.le h.le h0 hmax)
    · exact stored_iff.mp (hs.stored interval rfl)
    · refine ⟨fun i hi => ?_, nofun, h.sound.running⟩
      cases hi
      exact stored_iff.mpr hle
  · constructor
    · intro _
      cases a with
      | addTimer interval => exact absurd rfl (ha interval)
      | _ => trivial
    · intro _
      exact ⟨fun i hi => absurd hi (ha i), fun _ hpc => h.rearms hpc, (h.step ha hst).running⟩

theorem clock_sound_step {clock : Int} {s t : TimerCpu} {a : TimerAct} (h : ClockSound s)
    (hsafe : SafeTimerStep s a t) (hst : (timerWrapMachine clock).step s a = some t) :
    ClockSound t := by
  obtain ⟨interval, rfl, h0, hmax, rfl⟩ | ⟨ha, hst, hclock⟩ := timer_wrap_step_cases hst
  · have hle := stored_iff.mp (hsafe.stored interval rfl)
    refine ⟨h.pos, h.le, ?_⟩
    rw [TimerService.addTimerWrap_eq]
    exact h.sound.addTimer (by rw [zero_add]; exact h.pos.trans_le hle) s.nextTask
  · have hge : s.clock ≤ t.clock := by
      cases hst with
      | ticked c hle => exact hle
      | _ => exact le_rfl
    refine ⟨h.pos.trans_le hge, ?_, h.step ha hst⟩
    obtain he | hc := hclock
    · exact he ▸ h.le
    · exact hc

/-- The timers are safe in a run exactly when no delay that is added in it leads beyond the
last time point. -/
theorem timers_safe_iff {clock : Int} (hpos : 0 < clock) (hle : clock ≤ timePointMax)
    (as : List TimerAct) :
    (timerWrapMachine clock).Along SafeTimerStep (.init clock) as ↔
      (timerWrapMachine clock).Meets InClockRange (.init clock) as :=
  Machine.along_iff_meets
    (fun _ _ _ hj hp hst => clock_sound_step hj hp hst)
    (fun _ _ _ hj hst => safe_step_iff hj hst)
    (⟨hpos, hle, TimerService.init_sound⟩ : ClockSound (.init clock))

/-- The longest delay that still has a deadline is safe, at any later time it is not. -/
theorem timers_safe_iff_longest :
    (timerWrapMachine 1).Along SafeTimerStep (.init 1) [.addTimer (timePointMax - 1), .go] ∧
    ¬(timerWrapMachine 1).Along SafeTimerStep (.init 1)
      [.tick 2, .addTimer (timePointMax - 1)] := by
  constructor
  · exact (timers_safe_iff (by decide) (by decide) _).mpr (by decide)
  · exact fun h => absurd ((timers_safe_iff (by decide) (by decide) _).mp h) (by decide)

/-- A delay of `duration::max()` is stored under the first of all time points, and to arm the
timer with that ends the program. -/
theorem longest_delay_terminates :
    (¬(timerWrapMachine 1).Along SafeTimerStep (.init 1) [.addTimer timePointMax]) ∧
    ∃ s : TimerCpu, (timerWrapMachine 1).Reaches [.addTimer timePointMax, .go] s ∧
      s.service.timers.firstKey? = some (-2 ^ 63) ∧ s.service.terminated = true := by
  refine ⟨fun h => ?_, _, rfl, by decide, by decide⟩
  have hs := (h _ rfl).1.stored timePointMax rfl
  exact absurd (stored_iff.mp hs) (by decide)

end Miniss
