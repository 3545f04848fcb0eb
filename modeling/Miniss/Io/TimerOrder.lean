import Miniss.Io.TimerSteps
import Miniss.Lib.Lists
import Mathlib.Data.List.Nodup

/-! Timers fire once, never early, and in order. Each call of `complete_timers` is judged by
the history before it: it schedules what was added, is due and was not scheduled yet, by
deadline and then in the order of the `add_timer` calls. -/
namespace Miniss

/-- The tasks that an event adds, each with its deadline. -/
def TimerEvent.adds : TimerEvent → List (Int × Nat)
  | .added task deadline => [(deadline, task)]
  | .completed _ _ => []

def TimerEvent.schedules : TimerEvent → List Nat
  | .added _ _ => []
  | .completed _ tasks => tasks

def addedIn (log : List TimerEvent) : List (Int × Nat) := log.flatMap TimerEvent.adds

def scheduledIn (log : List TimerEvent) : List Nat := log.flatMap TimerEvent.schedules

@[simp] theorem addedIn_append (l m : List TimerEvent) :
    addedIn (l ++ m) = addedIn l ++ addedIn m := List.flatMap_append

@[simp] theorem scheduledIn_append (l m : List TimerEvent) :
    scheduledIn (l ++ m) = scheduledIn l ++ scheduledIn m := List.flatMap_append

@[simp] theorem addedIn_added (task : Nat) (deadline : Int) :
    addedIn [.added task deadline] = [(deadline, task)] := rfl

@[simp] theorem addedIn_cons_added (task : Nat) (deadline : Int) (log : List TimerEvent) :
    addedIn (.added task deadline :: log) = (deadline, task) :: addedIn log := rfl

@[simp] theorem addedIn_completed (now : Int) (tasks : List Nat) :
    addedIn [.completed now tasks] = [] := rfl

@[simp] theorem scheduledIn_added (task : Nat) (deadline : Int) :
    scheduledIn [.added task deadline] = [] := rfl

@[simp] theorem scheduledIn_completed (now : Int) (tasks : List Nat) :
    scheduledIn [.completed now tasks] = tasks := by simp [scheduledIn, TimerEvent.schedules]

def Earlier (p q : Int × Nat) : Prop := p.1 < q.1 ∨ p.1 = q.1 ∧ p.2 < q.2

/-- `complete_timers` schedules exactly the due tasks that were not scheduled before, in
order. -/
def CompletesDue (pre : List TimerEvent) : TimerEvent → Prop
  | .added _ _ => True
  | .completed now tasks => ∃ due : List (Int × Nat), tasks = due.map Prod.snd ∧
      due.Pairwise Earlier ∧
      ∀ p, p ∈ due ↔ p ∈ addedIn pre ∧ p.1 ≤ now ∧ p.2 ∉ scheduledIn pre

namespace TimerCpu

/-- The map holds what was added and not scheduled, in order, and the history is right. -/
structure Filed (s : TimerCpu) : Prop where
  ranks : (addedIn s.log).map Prod.snd = List.range s.nextTask
  order : s.service.timers.listing.Pairwise Earlier
  mem : ∀ p, p ∈ s.service.timers.listing ↔ p ∈ addedIn s.log ∧ p.2 ∉ scheduledIn s.log
  scheduled : s.taskQueue = scheduledIn s.log
  past : ∀ i ∈ s.taskQueue, i < s.nextTask
  once : s.taskQueue.Nodup
  events : EachAfter CompletesDue s.log

theorem init_filed (clock : Int) : (init clock).Filed where
  ranks := rfl
  order := List.Pairwise.nil
  mem p := by simp [init, TimerService.init, SortedMap.listing, SortedMap.empty, addedIn]
  scheduled := rfl
  past i hi := by cases hi
  once := List.nodup_nil
  events := eachAfter_nil

theorem Filed.rank_lt {s : TimerCpu} (h : s.Filed) {p : Int × Nat} (hp : p ∈ addedIn s.log) :
    p.2 < s.nextTask := by
  rw [← List.mem_range, ← h.ranks]
  exact List.mem_map_of_mem hp

theorem Filed.eq_of_rank {s : TimerCpu} (h : s.Filed) {p q : Int × Nat} (hp : p ∈ addedIn s.log)
    (hq : q ∈ addedIn s.log) (he : p.2 = q.2) : p = q :=
  List.inj_on_of_nodup_map (h.ranks ▸ List.nodup_range) hp hq he

theorem Filed.not_scheduled {s : TimerCpu} (h : s.Filed) : s.nextTask ∉ scheduledIn s.log :=
  fun hi => (h.past _ (h.scheduled ▸ hi)).false

theorem Filed.added {s : TimerCpu} (h : s.Filed) (interval : Int) :
    Filed
      { s with
        service := s.service.addTimer s.clock interval s.nextTask
        nextTask := s.nextTask + 1
        log := s.log ++ [.added s.nextTask (s.clock + interval)] } := by
  obtain ⟨pre, post, hl, hl', hpre, hpost⟩ :=
    s.service.timers.listing_pushBack (s.clock + interval) s.nextTask
  have hadded : ∀ p ∈ pre ++ post, p ∈ addedIn s.log := fun p hp => ((h.mem p).mp (hl ▸ hp)).1
  refine ⟨?_, ?_, fun p => ?_, ?_, fun i hi => (h.past i hi).trans (Nat.lt_succ_self _), h.once,
    h.events.concat trivial⟩
  · rw [addedIn_append, List.map_append, h.ranks, addedIn_added, List.range_succ]
    rfl
  · have ho := h.order
    rw [hl, List.pairwise_append] at ho
    obtain ⟨hopre, hopost, hcross⟩ := ho
    refine (congrArg (List.Pairwise Earlier) hl').mpr (List.pairwise_append.mpr
      ⟨hopre, List.pairwise_cons.mpr ⟨fun q hq => .inl (hpost q hq), hopost⟩, fun p hp q hq => ?_⟩)
    obtain rfl | hq := List.mem_cons.mp hq
    · have hlt := h.rank_lt (hadded p (List.mem_append_left _ hp))
      exact (hpre p hp).lt_or_eq.imp id fun he => ⟨he, hlt⟩
    · exact hcross p hp q hq
  · have hmem : p ∈ (s.service.timers.pushBack (s.clock + interval) s.nextTask).listing ↔
        p ∈ s.service.timers.listing ∨ p = (s.clock + interval, s.nextTask) := by
      rw [hl', hl]
      simp only [List.mem_append, List.mem_cons]
      tauto
    refine hmem.trans ?_
    rw [h.mem, addedIn_append, scheduledIn_append, addedIn_added, scheduledIn_added,
      List.append_nil, List.mem_append, List.mem_singleton]
    constructor
    · rintro (⟨ha, hs⟩ | rfl)
      · exact ⟨.inl ha, hs⟩
      · exact ⟨.inr rfl, h.not_scheduled⟩
    · rintro ⟨ha | rfl, hs⟩
      · exact .inl ⟨ha, hs⟩
      · exact .inr rfl
  · rw [scheduledIn_append, scheduledIn_added, List.append_nil]
    exact h.scheduled

theorem earlier_irrefl (p : Int × Nat) : ¬ Earlier p p := by
  rintro (h | ⟨-, h⟩)
  · exact h.false
  · exact h.false

/-- What is due is taken off the front of the listing, and the rest stays. -/
theorem Filed.due {s : TimerCpu} (h : s.Filed) (now : Int) :
    ∃ due : List (Int × Nat), (s.service.completeTimers now).2 = due.map Prod.snd ∧
      due.Pairwise Earlier ∧
      (∀ p, p ∈ due ↔ p ∈ addedIn s.log ∧ p.1 ≤ now ∧ p.2 ∉ scheduledIn s.log) ∧
      (s.service.timers.after now).listing.Pairwise Earlier ∧
      ∀ p, p ∈ (s.service.timers.after now).listing ↔
        p ∈ addedIn s.log ∧ now < p.1 ∧ p.2 ∉ scheduledIn s.log := by
  have hl := s.service.timers.listing_upTo_after now
  have ho := h.order
  rw [← hl, List.pairwise_append] at ho
  have hmem : ∀ p, p ∈ SortedMap.elements (s.service.timers.upTo now) ∨
      p ∈ (s.service.timers.after now).listing ↔ p ∈ addedIn s.log ∧ p.2 ∉ scheduledIn s.log := by
    intro p
    rw [← h.mem, ← hl, List.mem_append]
  refine ⟨SortedMap.elements (s.service.timers.upTo now), ?_, ho.1, fun p => ?_, ho.2.1,
    fun p => ?_⟩
  · exact (SortedMap.map_snd_elements _).symm
  · constructor
    · intro hp
      obtain ⟨ha, hs⟩ := (hmem p).mp (.inl hp)
      exact ⟨ha, SortedMap.key_le_of_mem_upTo hp, hs⟩
    · rintro ⟨ha, hle, hs⟩
      exact ((hmem p).mpr ⟨ha, hs⟩).resolve_right fun hp =>
        (SortedMap.lt_key_of_mem_listing_after hp).not_ge hle
  · constructor
    · intro hp
      obtain ⟨ha, hs⟩ := (hmem p).mp (.inr hp)
      exact ⟨ha, SortedMap.lt_key_of_mem_listing_after hp, hs⟩
    · rintro ⟨ha, hlt, hs⟩
      exact ((hmem p).mpr ⟨ha, hs⟩).resolve_left fun hp =>
        (SortedMap.key_le_of_mem_upTo hp).not_gt hlt

theorem Filed.completed {s : TimerCpu} (h : s.Filed) (now : Int) :
    Filed
      { s with
        service := (s.service.completeTimers now).1
        taskQueue := s.taskQueue ++ (s.service.completeTimers now).2
        log := s.log ++ [.completed now (s.service.completeTimers now).2] } := by
  obtain ⟨due, htasks, hdue, hin, hrest, hleft⟩ := h.due now
  rw [htasks]
  refine ⟨?_, hrest, fun p => ?_, ?_, fun i hi => ?_, ?_, h.events.concat ⟨due, rfl, hdue, hin⟩⟩
  · rw [addedIn_append, addedIn_completed, List.append_nil]
    exact h.ranks
  · refine (hleft p).trans ?_
    rw [addedIn_append, scheduledIn_append, addedIn_completed, scheduledIn_completed,
      List.append_nil, List.mem_append, not_or]
    constructor
    · rintro ⟨ha, hlt, hs⟩
      refine ⟨ha, hs, fun hd => ?_⟩
      obtain ⟨q, hq, he⟩ := List.mem_map.mp hd
      obtain ⟨hqa, hqle, -⟩ := (hin q).mp hq
      rw [h.eq_of_rank hqa ha he] at hqle
      exact hlt.not_ge hqle
    · rintro ⟨ha, hs, hd⟩
      refine ⟨ha, lt_of_not_ge fun hle => hd ?_, hs⟩
      exact List.mem_map_of_mem ((hin p).mpr ⟨ha, hle, hs⟩)
  · rw [scheduledIn_append, scheduledIn_completed, ← h.scheduled]
  · obtain hi | hi := List.mem_append.mp hi
    · exact h.past i hi
    · obtain ⟨p, hp, rfl⟩ := List.mem_map.mp hi
      exact h.rank_lt ((hin p).mp hp).1
  · refine List.nodup_append.mpr ⟨h.once, ?_, fun i hi j hj => ?_⟩
    · refine List.Nodup.map_on (fun p hp q hq => ?_) (hdue.imp fun hpq he => ?_)
      · exact h.eq_of_rank ((hin p).mp hp).1 ((hin q).mp hq).1
      · exact earlier_irrefl _ (he ▸ hpq)
    · obtain ⟨p, hp, rfl⟩ := List.mem_map.mp hj
      rintro rfl
      exact ((hin p).mp hp).2.2 (h.scheduled ▸ hi)

theorem Filed.step {s t : TimerCpu} {a : TimerAct} (h : s.Filed) (hs : TimerStep s a t) :
    t.Filed := by
  cases hs with
  | added interval hpc hp hpos hmax => exact h.added interval
  | completed now hpc => exact h.completed now
  | rearmed hpc =>
    have ht := s.service.rearmTimer_timers s.clock
    exact ⟨h.ranks, by rw [ht]; exact h.order, by rw [ht]; exact h.mem, h.scheduled, h.past,
      h.once, h.events⟩
  | _ => exact ⟨h.ranks, h.order, h.mem, h.scheduled, h.past, h.once, h.events⟩

end TimerCpu

open TimerCpu

theorem timers_filed {clock : Int} {as : List TimerAct} {s : TimerCpu}
    (h : (timerMachine clock).Reaches as s) : s.Filed :=
  h.invariant (init_filed clock) fun _ _ _ hf hst => hf.step (timer_step_cases hst)

/-- What is scheduled was added before, and was due. -/
theorem completed_of_scheduled {log : List TimerEvent} (h : EachAfter CompletesDue log) {i : Nat}
    (hi : i ∈ scheduledIn log) : ∃ pre now tasks post d,
      log = pre ++ .completed now tasks :: post ∧ (d, i) ∈ addedIn pre ∧ d ≤ now := by
  obtain ⟨e, he, hie⟩ := List.mem_flatMap.mp hi
  obtain ⟨pre, post, hl⟩ := List.append_of_mem he
  cases e with
  | added task deadline => cases hie
  | completed now tasks =>
    obtain ⟨due, htasks, -, hin⟩ := h pre _ post hl
    obtain ⟨p, hp, rfl⟩ := List.mem_map.mp (htasks ▸ hie)
    obtain ⟨ha, hle, -⟩ := (hin p).mp hp
    exact ⟨pre, now, tasks, post, p.1, hl, ha, hle⟩

theorem TimerCpu.Filed.not_scheduled_before {s : TimerCpu} (h : s.Filed)
    {pre mid post : List TimerEvent} {i : Nat} {d : Int}
    (hl : s.log = (pre ++ .added i d :: mid) ++ post)
    (hmid : ∀ now tasks, .completed now tasks ∈ mid → now < d) :
    i ∉ scheduledIn (pre ++ .added i d :: mid) := by
  intro hi
  have hnd : ((addedIn s.log).map Prod.snd).Nodup := h.ranks ▸ List.nodup_range
  have hev : EachAfter CompletesDue ((pre ++ .added i d :: mid) ++ post) := hl ▸ h.events
  obtain ⟨a, now, tasks, b, d', he, hd', hle⟩ := completed_of_scheduled hev.of_append hi
  have hlog : s.log = pre ++ .added i d :: (mid ++ post) := by simp [hl]
  have hadded : (d, i) ∈ addedIn s.log := by simp [hlog]
  have heq : (d', i) = (d, i) := by
    refine h.eq_of_rank ?_ hadded rfl
    rw [hl, he, List.append_assoc, addedIn_append]
    exact List.mem_append_left _ hd'
  obtain rfl : d' = d := congrArg Prod.fst heq
  obtain ⟨x, ha, hx⟩ | ⟨x, ha, hx⟩ := List.append_eq_append_iff.mp he
  · -- The call is behind the `add_timer`, so its time is before the deadline.
    cases x with
    | nil => cases hx
    | cons e x =>
      obtain ⟨-, rfl⟩ := List.cons.inj hx
      exact (hmid now tasks (List.mem_append_right _ List.mem_cons_self)).not_ge hle
  · -- The call is before the `add_timer`, but the rank is new there.
    rw [hlog, ha, addedIn_append, addedIn_append, List.map_append, List.nodup_append] at hnd
    exact hnd.2.2 i (List.mem_map.mpr ⟨_, List.mem_append_left _ hd', rfl⟩) i (by simp) rfl

theorem TimerCpu.Filed.first_call {s : TimerCpu} (h : s.Filed) {pre mid post : List TimerEvent}
    {i : Nat} {d now : Int} {tasks : List Nat}
    (hl : s.log = (pre ++ .added i d :: mid) ++ .completed now tasks :: post)
    (hmid : ∀ now tasks, .completed now tasks ∈ mid → now < d) : i ∈ tasks ↔ d ≤ now := by
  have hadded : (d, i) ∈ addedIn (pre ++ .added i d :: mid) := by simp
  obtain ⟨due, htasks, -, hin⟩ := h.events _ _ post hl
  rw [htasks]
  constructor
  · intro hi
    obtain ⟨p, hp, rfl⟩ := List.mem_map.mp hi
    obtain ⟨ha, hle, -⟩ := (hin p).mp hp
    have hsub : ∀ q ∈ addedIn (pre ++ .added p.2 d :: mid), q ∈ addedIn s.log := by
      intro q hq
      rw [hl, addedIn_append]
      exact List.mem_append_left _ hq
    rwa [h.eq_of_rank (hsub p ha) (hsub _ hadded) rfl] at hle
  · intro hle
    have hnot := h.not_scheduled_before hl hmid
    exact List.mem_map.mpr ⟨(d, i), (hin _).mpr ⟨hadded, hle, hnot⟩, rfl⟩

/-- In every run, each call of `complete_timers` appends to `task_queue_` exactly the tasks
that are due and were not appended before, by deadline and in the order they were added; the
others stay in `timers_` with their deadlines. A task is appended at most once, by the first
call at or after its deadline that follows its `add_timer`. -/
theorem timers_fire_in_order {clock : Int} {as : List TimerAct} {s : TimerCpu}
    (h : (timerMachine clock).Reaches as s) :
    EachAfter CompletesDue s.log ∧
    (∀ p, p ∈ s.service.timers.listing ↔ p ∈ addedIn s.log ∧ p.2 ∉ scheduledIn s.log) ∧
    s.taskQueue = scheduledIn s.log ∧ s.taskQueue.Nodup ∧
    ∀ pre mid post i d now tasks,
      s.log = (pre ++ .added i d :: mid) ++ .completed now tasks :: post →
      (∀ now tasks, .completed now tasks ∈ mid → now < d) → (i ∈ tasks ↔ d ≤ now) := by
  have hf := timers_filed h
  exact ⟨hf.events, hf.mem, hf.scheduled, hf.once,
    fun _ _ _ _ _ _ _ hl hmid => hf.first_call hl hmid⟩

/-- Three timers, two of them with one deadline: the call at time 8 schedules these two in the
order they were added, and the third one stays. -/
theorem timers_fire_in_order_three : ∃ s : TimerCpu,
    (timerMachine 5).Reaches
      [.addTimer 10, .go, .addTimer 3, .go, .addTimer 3, .tick 8, .completeTimers, .go, .go] s ∧
      s.taskQueue = [1, 2] ∧ s.taskQueue.Nodup := by
  refine ⟨_, rfl, rfl, ?_⟩
  exact (timers_fire_in_order (rfl : (timerMachine 5).Reaches
    [.addTimer 10, .go, .addTimer 3, .go, .addTimer 3, .tick 8, .completeTimers, .go, .go]
    _)).2.2.2.1

end Miniss
