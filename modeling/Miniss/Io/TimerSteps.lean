import Miniss.Io.Timer

/-! What one step of a CPU with timers can do, said once, and what `timer_settime` makes of a
deadline. -/
namespace Miniss

open TimerCpu

inductive TimerStep (s : TimerCpu) : TimerAct → TimerCpu → Prop where
  | ticked (clock : Int) (hle : s.clock ≤ clock) :
      TimerStep s (.tick clock) { s with clock := clock }
  | added (interval : Int) (hpc : s.service.pc = .idle) (hp : s.poller = .idle)
      (hpos : 0 < s.clock + interval) (hmax : s.clock + interval < timePointMax) :
      TimerStep s (.addTimer interval)
        { s with
          service := s.service.addTimer s.clock interval s.nextTask
          nextTask := s.nextTask + 1
          log := s.log ++ [.added s.nextTask (s.clock + interval)] }
  | called (a : TimerAct) (poller : PollerPc) (hpc : s.service.pc = .idle) :
      TimerStep s a
        { s with service := { s.service with pc := .complete s.clock }, poller := poller }
  | polled (hpc : s.service.pc = .idle) (hp : s.poller = .idle) :
      TimerStep s .poll
        { s with poller := if s.pendingSignals = 0 then .idle else .clear s.pendingSignals }
  | rearmed (hpc : s.service.pc = .rearm) :
      TimerStep s .go
        { s with
          service := (s.service.rearmTimer_ s.clock).1
          sigalrm := s.sigalrm || (s.service.rearmTimer_ s.clock).2 }
  | completed (now : Int) (hpc : s.service.pc = .complete now) :
      TimerStep s .go
        { s with
          service := (s.service.completeTimers now).1
          taskQueue := s.taskQueue ++ (s.service.completeTimers now).2
          log := s.log ++ [.completed now (s.service.completeTimers now).2] }
  | cleared (signals : BitVec 64) (hpc : s.service.pc = .idle) (hp : s.poller = .clear signals) :
      TimerStep s .go
        { s with
          pendingSignals := s.pendingSignals &&& ~~~signals
          poller := .handlers (handledSignals signals) }
  | handled (hpc : s.service.pc = .idle) (hp : s.poller = .handlers []) :
      TimerStep s .go { s with poller := .idle }
  | alarmed : TimerStep s .alarm { s with sigalrm := true }
  | delivered (hs : s.sigalrm = true) :
      TimerStep s .deliver
        { s with sigalrm := false, pendingSignals := s.pendingSignals ||| sigalrmBit }
  | expired (t : Int) (ht : s.service.physicalTimer = some t) (hle : t ≤ s.clock) :
      TimerStep s .expire
        { s with service := { s.service with physicalTimer := none }, sigalrm := true }

theorem TimerCpu.atRest_iff (s : TimerCpu) :
    s.atRest = true ↔ s.service.pc = .idle ∧ s.poller = .idle := by
  simp [atRest]

theorem timer_go_steps {s t : TimerCpu} (h : s.go = some t) : TimerStep s .go t := by
  unfold go at h
  split at h
  case h_1 hpc =>
    cases h
    exact .rearmed hpc
  case h_2 now hpc =>
    cases h
    exact .completed now hpc
  case h_3 hpc =>
    split at h
    case h_1 signals hp =>
      cases h
      exact .cleared signals hpc hp
    case h_2 i todo hp =>
      cases h
      exact .called .go (.handlers todo) hpc
    case h_3 hp =>
      cases h
      exact .handled hpc hp
    case h_4 => cases h

theorem timer_step_cases {clock : Int} {s t : TimerCpu} {a : TimerAct}
    (h : (timerMachine clock).step s a = some t) : TimerStep s a t := by
  change s.step a = some t at h
  cases a with
  | tick clock =>
    obtain ⟨hle, ht⟩ := Option.ite_none_right_eq_some.mp h
    cases ht
    exact .ticked clock hle
  | addTimer interval =>
    obtain ⟨⟨hrest, hpos, hmax⟩, ht⟩ := Option.ite_none_right_eq_some.mp h
    obtain ⟨hpc, hp⟩ := s.atRest_iff.mp hrest
    cases ht
    exact .added interval hpc hp hpos hmax
  | completeTimers =>
    obtain ⟨hrest, ht⟩ := Option.ite_none_right_eq_some.mp h
    cases ht
    exact .called .completeTimers s.poller (s.atRest_iff.mp hrest).1
  | poll =>
    obtain ⟨hrest, ht⟩ := Option.ite_none_right_eq_some.mp h
    obtain ⟨hpc, hp⟩ := s.atRest_iff.mp hrest
    cases ht
    exact .polled hpc hp
  | go => exact timer_go_steps h
  | alarm =>
    cases h
    exact .alarmed
  | deliver =>
    obtain ⟨hs, ht⟩ := Option.ite_none_right_eq_some.mp h
    cases ht
    exact .delivered hs
  | expire =>
    obtain ⟨v, hv, rfl⟩ := Option.map_eq_some_iff.mp h
    unfold TimerService.expire at hv
    split at hv
    case h_1 => cases hv
    case h_2 d hd =>
      obtain ⟨hle, hv⟩ := Option.ite_none_right_eq_some.mp hv
      cases hv
      exact .expired d hd hle

theorem TimerService.rearmTimer_timers {τ : Type*} (s : TimerService τ) (clock : Int) :
    (s.rearmTimer_ clock).1.timers = s.timers := by
  unfold rearmTimer_
  split
  · rfl
  · split <;> rfl

/-- A positive deadline arms the physical timer with that very time, or is over already. -/
theorem timerSettime_toTimespec {clock t : Int} (ht : 0 < t) :
    timerSettime clock (toTimespec t) =
      if t ≤ clock then some (none, true) else some (some t, false) := by
  have hsec : t.tdiv 1000000000 = t / 1000000000 := Int.tdiv_eq_ediv_of_nonneg ht.le
  have hnsec : t.tmod 1000000000 = t % 1000000000 := Int.tmod_eq_emod_of_nonneg ht.le
  have hval : t / 1000000000 * 1000000000 + t % 1000000000 = t := Int.ediv_mul_add_emod t _
  simp only [timerSettime, toTimespec, hsec, hnsec, hval]
  rw [if_neg (by omega), if_neg (by omega)]

namespace TimerService
variable {τ : Type*}

/-- All deadlines are positive, `rearm_timer_` is called with a timer at hand, and so it never
comes to `std::terminate` or to its failed assertion. -/
structure Sound (s : TimerService τ) : Prop where
  keys : ∀ d ∈ s.timers.entries.map Prod.fst, 0 < d
  running : s.terminated = false
  rearm : s.pc = .rearm → ∃ d, s.timers.firstKey? = some d

theorem init_sound : (init : TimerService τ).Sound where
  keys := by simp [init, SortedMap.empty]
  running := rfl
  rearm h := by cases h

theorem Sound.addTimer {s : TimerService τ} (h : s.Sound) {now interval : Int}
    (hpos : 0 < now + interval) (t : τ) : (s.addTimer now interval t).Sound where
  keys d hd := by
    obtain rfl | hd := SortedMap.mem_keys_pushEntry hd
    · exact hpos
    · exact h.keys d hd
  running := h.running
  rearm _ := SortedMap.firstKey_pushBack_isSome ..

theorem Sound.completeTimers {s : TimerService τ} (h : s.Sound) (now : Int) :
    (s.completeTimers now).1.Sound where
  keys d hd := h.keys d (SortedMap.mem_keys_after hd)
  running := h.running
  rearm := by
    cases hl : (s.timers.after now).entries <;>
      simp [TimerService.completeTimers, SortedMap.firstKey?, hl]

/-- What `rearm_timer_` does: the deadline is over and the timer expires at once, or the timer
is armed with it. -/
theorem Sound.rearmTimer_cases {s : TimerService τ} (h : s.Sound) (hpc : s.pc = .rearm)
    (clock : Int) :
    ∃ d, s.timers.firstKey? = some d ∧
      (s.rearmTimer_ clock = ({ s with physicalTimer := none, pc := .idle }, true) ∨
        s.rearmTimer_ clock = ({ s with physicalTimer := some d, pc := .idle }, false)) := by
  obtain ⟨d, hd⟩ := h.rearm hpc
  have hset : timerSettime clock (toTimespec d) = _ :=
    timerSettime_toTimespec (h.keys d (SortedMap.firstKey_mem hd))
  refine ⟨d, hd, ?_⟩
  by_cases hle : d ≤ clock
  · exact .inl (by simp [rearmTimer_, hd, hset, hle])
  · exact .inr (by simp [rearmTimer_, hd, hset, hle])

theorem Sound.rearmTimer_ {s : TimerService τ} (h : s.Sound) (hpc : s.pc = .rearm)
    (clock : Int) : (s.rearmTimer_ clock).1.Sound := by
  obtain ⟨d, -, hr | hr⟩ := h.rearmTimer_cases hpc clock <;> rw [hr]
  · exact ⟨h.keys, h.running, nofun⟩
  · exact ⟨h.keys, h.running, nofun⟩

end TimerService
end Miniss
