import Miniss.FutureUtilSlots
import Miniss.Lib.Lists

/-! `when_all` in whole runs: the state of a call before `when_all` and behind it, and what the
returned future has when it is available. -/
namespace Miniss
variable {ν : Type*}

/-- The continuations that `wait` schedules at once, from place `k` on. -/
def collectTasks (k : Nat) :
    List (Option (Except Exn ν)) → List (Continuation ν (WhenAllFunc ν))
  | [] => []
  | o :: rest => (o.map (collectTask k)).toList ++ collectTasks (k + 1) rest

def places (ts : List (Continuation ν (WhenAllFunc ν))) : List Nat := ts.map fun c => c.func.index

theorem mem_collectTasks {k : Nat} {l : List (Option (Except Exn ν))}
    {c : Continuation ν (WhenAllFunc ν)} :
    c ∈ collectTasks k l ↔ ∃ j r, l[j]? = some (some r) ∧ c = collectTask (k + j) r := by
  induction l generalizing k with
  | nil => simp [collectTasks]
  | cons o rest ih =>
    simp only [collectTasks, List.mem_append, Option.mem_toList, Option.map_eq_some_iff, ih]
    constructor
    · rintro (⟨r, rfl, rfl⟩ | ⟨j, r, hj, rfl⟩)
      · exact ⟨0, r, rfl, rfl⟩
      · exact ⟨j + 1, r, hj, by rw [Nat.add_assoc, Nat.add_comm 1 j]⟩
    · rintro ⟨j, r, hj, rfl⟩
      cases j with
      | zero => exact .inl ⟨r, Option.some.inj hj, rfl⟩
      | succ j => exact .inr ⟨j, r, hj, by rw [Nat.add_assoc, Nat.add_comm 1 j]⟩

theorem mem_places {ts : List (Continuation ν (WhenAllFunc ν))} {i : Nat} :
    i ∈ places ts ↔ ∃ c ∈ ts, c.func.index = i := List.mem_map

theorem mem_places_collectTasks {k j : Nat} {l : List (Option (Except Exn ν))} :
    k + j ∈ places (collectTasks k l) ↔ ∃ r, l[j]? = some (some r) := by
  rw [mem_places]
  constructor
  · rintro ⟨c, hc, hi⟩
    obtain ⟨j', r, hj, rfl⟩ := mem_collectTasks.mp hc
    obtain rfl : j' = j := Nat.add_left_cancel hi
    exact ⟨r, hj⟩
  · rintro ⟨r, hj⟩
    exact ⟨_, mem_collectTasks.mpr ⟨j, r, hj, rfl⟩, rfl⟩

theorem le_of_mem_places {k i : Nat} {l : List (Option (Except Exn ν))}
    (h : i ∈ places (collectTasks k l)) : k ≤ i := by
  obtain ⟨c, hc, rfl⟩ := mem_places.mp h
  obtain ⟨j, r, -, rfl⟩ := mem_collectTasks.mp hc
  exact Nat.le_add_right k j

theorem places_nodup (k : Nat) (l : List (Option (Except Exn ν))) :
    (places (collectTasks k l)).Nodup := by
  induction l generalizing k with
  | nil => exact List.nodup_nil
  | cons o rest ih =>
    cases o with
    | none => exact ih (k + 1)
    | some r =>
      refine List.nodup_cons.mpr ⟨fun h => ?_, ih (k + 1)⟩
      exact Nat.not_succ_le_self k (le_of_mem_places h)

/-- The loop in `wait` gives every place a continuation, if no future is dead. -/
theorem waitLoop_eq {l : List (WhenAllSlot ν)} (hb : ∀ s ∈ l, s.Before)
    (ha : ∀ s ∈ l, s.abandoned = false) (k : Nat) :
    ∃ l', waitLoop k l = some (l', collectTasks k (l.map WhenAllSlot.outcome)) ∧
      l'.map WhenAllSlot.outcome = l.map WhenAllSlot.outcome ∧
      ∀ (j : Nat) (s : WhenAllSlot ν), l'[j]? = some s →
        s.future.promise = true ∧ s.After (k + j) (s.outcome.isSome = true) := by
  induction l generalizing k with
  | nil => exact ⟨[], rfl, rfl, by simp⟩
  | cons s rest ih =>
    obtain ⟨t, ht, ho, -, hp, hafter⟩ :=
      (hb s List.mem_cons_self).thenWrapped k (ha s List.mem_cons_self)
    obtain ⟨rest', hrest, hos, hslots⟩ := ih (fun s hs => hb s (List.mem_cons_of_mem _ hs))
      (fun s hs => ha s (List.mem_cons_of_mem _ hs)) (k + 1)
    refine ⟨t :: rest', ?_, ?_, ?_⟩
    · simp only [waitLoop, ht, hrest, List.map_cons, collectTasks]
    · rw [List.map_cons, List.map_cons, ho, hos]
    · intro j s' hj
      cases j with
      | zero =>
        obtain rfl := Option.some.inj hj
        exact ⟨hp, ho ▸ hafter⟩
      | succ j =>
        have := hslots j s' hj
        rwa [Nat.add_assoc, Nat.add_comm 1 j] at this

/-- A dead future fails the assertion in `schedule`. -/
theorem waitLoop_dead {l : List (WhenAllSlot ν)} (hb : ∀ s ∈ l, s.Before)
    {s : WhenAllSlot ν} (hs : s ∈ l) (ha : s.abandoned = true) (k : Nat) :
    waitLoop k l = none := by
  induction l generalizing k with
  | nil => cases hs
  | cons t rest ih =>
    obtain rfl | hs := List.mem_cons.mp hs
    · simp only [waitLoop, (hb s List.mem_cons_self).thenWrapped_dead k ha]
    · simp only [waitLoop, ih (fun s hs => hb s (List.mem_cons_of_mem _ hs)) hs]
      split
      · next h => cases h
      · rfl

/-- The promise of the input is gone, and was never set. -/
def WhenAllSlot.orphan (s : WhenAllSlot ν) : WhenAllSlot ν :=
  { s with
    promise := none
    abandoned := true }

namespace WhenAll

theorem resolve_cases {s t : WhenAll ν} {i : Nat} {r : Except Exn ν}
    (h : s.resolve i r = some t) :
    ∃ slot p d, s.slots[i]? = some slot ∧ slot.promise = some p ∧ p.set r = some d ∧ t =
      { s with
        slots := s.slots.set i { slot with promise := some d.1, outcome := some r }
        tasks := s.tasks ++ d.2.toList } := by
  unfold WhenAll.resolve at h
  split at h
  case h_1 => cases h
  case h_2 slot hi =>
    split at h
    case h_1 => cases h
    case h_2 p hp =>
      obtain ⟨d, hd, rfl⟩ := Option.map_eq_some_iff.mp h
      exact ⟨slot, p, d, hi, hp, hd, rfl⟩

/-- The promise of an input is destroyed, and with it the continuation that waits for it. -/
theorem destroy_cases {s t : WhenAll ν} {i : Nat} (h : s.destroy i = some t) :
    ∃ slot p f c, s.slots[i]? = some slot ∧ slot.promise = some p ∧
      p.destroy slot.future = some (f, c) ∧
      (c.elim some fun c u => u.destroyFunc c.func)
        { s with
          slots := s.slots.set i
            { slot with promise := none, future := f, abandoned := slot.outcome.isNone } } =
        some t := by
  unfold WhenAll.destroy at h
  split at h
  case h_1 => cases h
  case h_2 slot hi =>
    split at h
    case h_1 => cases h
    case h_2 p hp =>
      split at h
      case h_1 => cases h
      case h_2 f c hd =>
        refine ⟨slot, p, f, c, hi, hp, hd, ?_⟩
        cases c <;> exact h

/-- The `When_all_state` is there, and the returned future waits for it, or what the caller has
attached to that. -/
inductive Unfulfilled (s : WhenAll ν) : Prop where
  | held (x : FutureState Unit) (hp : s.promise_ = some ⟨true, .future, .localState, none⟩)
      (hf : s.future = ⟨true, x⟩) (hx : x.available = false) (hs : s.scheduled = [])
      (hn : s.fulfilled = 0)
  | attached (x y : FutureState Unit)
      (hp : s.promise_ = some ⟨false, x, .task, some ⟨.future, ()⟩⟩)
      (hf : s.future = ⟨false, y⟩) (hy : y.available = false) (hs : s.scheduled = [])
      (hn : s.fulfilled = 0)

/-- The vector was handed out: the returned future has it, or what the caller has attached. -/
inductive Fulfilled (s : WhenAll ν) : Prop where
  | ready (hp : s.promise_ = none) (hf : s.future = ⟨false, .result ()⟩) (hs : s.scheduled = [])
      (hn : s.fulfilled = 1)
  | taken (y : FutureState Unit) (hp : s.promise_ = none) (hf : s.future = ⟨false, y⟩)
      (hy : y.available = false) (hs : s.scheduled = [⟨.result (), ()⟩]) (hn : s.fulfilled = 1)

theorem Unfulfilled.keep {s t : WhenAll ν} (h : s.Unfulfilled) (hp : t.promise_ = s.promise_)
    (hf : t.future = s.future) (hs : t.scheduled = s.scheduled)
    (hn : t.fulfilled = s.fulfilled) : t.Unfulfilled := by
  cases h with
  | held x p f hx e n => exact .held x (hp.trans p) (hf.trans f) hx (hs.trans e) (hn.trans n)
  | attached x y p f hy e n =>
    exact .attached x y (hp.trans p) (hf.trans f) hy (hs.trans e) (hn.trans n)

theorem Fulfilled.keep {s t : WhenAll ν} (h : s.Fulfilled) (hp : t.promise_ = s.promise_)
    (hf : t.future = s.future) (hs : t.scheduled = s.scheduled)
    (hn : t.fulfilled = s.fulfilled) : t.Fulfilled := by
  cases h with
  | ready p f e n => exact .ready (hp.trans p) (hf.trans f) (hs.trans e) (hn.trans n)
  | taken y p f hy e n => exact .taken y (hp.trans p) (hf.trans f) hy (hs.trans e) (hn.trans n)

theorem Unfulfilled.not_available {s : WhenAll ν} (h : s.Unfulfilled) : s.available = false := by
  cases h with
  | held x hp hf hx hs hn => simp [available, value, hs, hf, hp, Future.deref, Promise.deref]; rfl
  | attached x y hp hf hy hs hn => simpa [available, value, hs, hf, Future.deref] using hy

theorem Fulfilled.value_eq {s : WhenAll ν} (h : s.Fulfilled) : s.value = .result () := by
  cases h with
  | ready hp hf hs hn => simp [value, hs, hf, Future.deref]
  | taken y hp hf hy hs hn => simp [value, hs]

/-- `promise_` was set and is gone. -/
def handedOut (s : WhenAll ν) (future : Future Unit)
    (scheduled : List (Continuation Unit Unit)) : WhenAll ν :=
  { s with
    promise_ := none
    future := future
    scheduled := scheduled
    fulfilled := 1 }

theorem Unfulfilled.destroyState {s : WhenAll ν} (h : s.Unfulfilled) :
    ∃ f c, s.destroyState = some (s.handedOut f c) ∧ (s.handedOut f c).Fulfilled := by
  cases h with
  | held x hp hf hx hs hn =>
    refine ⟨⟨false, .result ()⟩, [], ?_, .ready rfl rfl rfl rfl⟩
    simp [WhenAll.destroyState, hp, hs, hn]
    rfl
  | attached x y hp hf hy hs hn =>
    refine ⟨s.future, [⟨.result (), ()⟩], ?_, .taken y rfl hf hy rfl rfl⟩
    simp [WhenAll.destroyState, hp, hs, hn]
    rfl

/-- The state of a call by the number of references. -/
structure Shared (s : WhenAll ν) : Prop where
  held : s.useCount ≠ 0 → s.Unfulfilled
  gone : s.useCount = 0 → s.Fulfilled

theorem Shared.keep {s t : WhenAll ν} (h : s.Shared) (hu : t.useCount = s.useCount)
    (hp : t.promise_ = s.promise_) (hf : t.future = s.future) (hs : t.scheduled = s.scheduled)
    (hn : t.fulfilled = s.fulfilled) : t.Shared where
  held h0 := (h.held (hu ▸ h0)).keep hp hf hs hn
  gone h0 := (h.gone (hu ▸ h0)).keep hp hf hs hn

theorem release_eq {s : WhenAll ν} (h : s.Unfulfilled) {n : Nat} (hn : s.useCount = n + 1) :
    ∃ t, s.release = some t ∧ t.Shared ∧ t.useCount = n ∧ t.slots = s.slots ∧
      t.tasks = s.tasks ∧ t.called = s.called := by
  have hs : ({ s with useCount := n } : WhenAll ν).Unfulfilled := h.keep rfl rfl rfl rfl
  cases n with
  | zero =>
    obtain ⟨f, c, heq, hf⟩ := hs.destroyState
    refine ⟨_, ?_, ⟨fun h0 => absurd rfl h0, fun _ => hf⟩, rfl, rfl, rfl, rfl⟩
    simp only [release, hn, heq]
  | succ n =>
    refine ⟨{ s with useCount := n + 1 }, ?_, ⟨fun _ => hs, nofun⟩, rfl, rfl, rfl, rfl⟩
    simp only [release, hn]

/-- The function of a continuation is destroyed: its future gets what `pr` was set to. -/
theorem destroyFunc_eq {s : WhenAll ν} (h : s.Unfulfilled) {n : Nat} (hn : s.useCount = n + 1)
    {i : Nat} {slot : WhenAllSlot ν} (hi : s.slots[i]? = some slot) (st : FutureState ν) :
    ∃ t, s.destroyFunc ⟨⟨true, st, .localState, none⟩, i⟩ = some t ∧ t.Shared ∧ t.useCount = n ∧
      t.slots = s.slots.set i { slot with future := ⟨false, st⟩ } ∧
      t.tasks = s.tasks ∧ t.called = s.called := by
  obtain ⟨t, ht, hsh, hu, hsl, hts, hc⟩ := release_eq h hn
  refine ⟨{ t with slots := t.slots.set i { slot with future := ⟨false, st⟩ } }, ?_,
    hsh.keep rfl rfl rfl rfl rfl, hu, by rw [hsl], hts, hc⟩
  simp [destroyFunc, ht, hsl, hi, Promise.destroy, Promise.deref]

structure Fresh (s : WhenAll ν) : Prop where
  called : s.called = false
  slots : ∀ slot ∈ s.slots, slot.Before
  tasks : s.tasks = []
  promise_ : s.promise_ = none
  future : s.future = ⟨false, .invalid⟩
  scheduled : s.scheduled = []
  fulfilled : s.fulfilled = 0

/-- Behind the call: each continuation that is not destroyed holds a reference, and its future
is the one that is still linked. -/
structure Collecting (s : WhenAll ν) : Prop where
  called : s.called = true
  slots : ∀ (i : Nat) (slot : WhenAllSlot ν), s.slots[i]? = some slot →
    slot.After i (i ∈ places s.tasks)
  tasks : ∀ c ∈ s.tasks, ∃ (i : Nat) (slot : WhenAllSlot ν) (r : Except Exn ν),
    s.slots[i]? = some slot ∧ slot.outcome = some r ∧ c = collectTask i r
  nodup : (places s.tasks).Nodup
  count : s.useCount = s.slots.countP fun slot => slot.future.promise
  shared : s.Shared

theorem init_fresh (inputs : List (Option (Except Exn ν))) : (init inputs).Fresh where
  called := rfl
  slots slot h := by
    obtain ⟨o, -, rfl⟩ := List.mem_map.mp h
    exact WhenAllSlot.input_before o
  tasks := rfl
  promise_ := rfl
  future := rfl
  scheduled := rfl
  fulfilled := rfl

theorem Fresh.set {s : WhenAll ν} (h : s.Fresh) {slot : WhenAllSlot ν} (hs : slot.Before)
    (i : Nat) : Fresh { s with slots := s.slots.set i slot } := by
  refine ⟨h.called, fun t ht => ?_, h.tasks, h.promise_, h.future, h.scheduled, h.fulfilled⟩
  obtain ht | rfl := List.mem_or_eq_of_mem_set ht
  · exact h.slots t ht
  · exact hs

theorem Fresh.resolve {s t : WhenAll ν} (h : s.Fresh) {i : Nat} {r : Except Exn ν}
    (ht : s.resolve i r = some t) : t.Fresh := by
  obtain ⟨slot, p, d, hi, hp, hd, rfl⟩ := resolve_cases ht
  obtain ⟨hb, hnone⟩ := (h.slots slot (List.mem_of_getElem? hi)).resolve hp hd
  simpa [hnone] using h.set hb i

theorem Fresh.destroy {s t : WhenAll ν} (h : s.Fresh) {i : Nat} (ht : s.destroy i = some t) :
    t.Fresh := by
  obtain ⟨slot, p, f, c, hi, hp, hd, ht⟩ := destroy_cases ht
  obtain ⟨hb, rfl⟩ := (h.slots slot (List.mem_of_getElem? hi)).destroy hp hd
  cases ht
  exact h.set hb i

/-- `wait` has been through its loop, and the call still has its own reference. -/
def waiting (s : WhenAll ν) (slots : List (WhenAllSlot ν)) : WhenAll ν :=
  { s with
    slots := slots
    tasks := s.tasks ++ collectTasks 0 (s.slots.map WhenAllSlot.outcome)
    called := true
    useCount := slots.length + 1
    promise_ := some ⟨true, .future, .localState, none⟩
    future := ⟨true, .future⟩ }

theorem Fresh.waiting_unfulfilled {s : WhenAll ν} (h : s.Fresh) (l : List (WhenAllSlot ν)) :
    (s.waiting l).Unfulfilled :=
  .held _ rfl rfl rfl h.scheduled h.fulfilled

theorem Fresh.waiting_tasks {s : WhenAll ν} (h : s.Fresh) (l : List (WhenAllSlot ν)) :
    (s.waiting l).tasks = collectTasks 0 (s.slots.map WhenAllSlot.outcome) := by
  rw [waiting, h.tasks, List.nil_append]

/-- `when_all` returns, unless there is a dead future among the inputs. -/
theorem Fresh.call_eq {s : WhenAll ν} (h : s.Fresh)
    (ha : ∀ slot ∈ s.slots, slot.abandoned = false) : ∃ t, s.call = some t ∧ t.Collecting := by
  obtain ⟨l, hl, ho, hslots⟩ := waitLoop_eq h.slots ha 0
  obtain ⟨t, ht, hsh, hn, hsl, hts, hc⟩ :=
    release_eq (h.waiting_unfulfilled l) (n := l.length) rfl
  have htasks := hts.trans (h.waiting_tasks l)
  have hslot (j : Nat) : t.slots[j]? = l[j]? := by rw [hsl, waiting]
  have hout : ∀ (j : Nat) (r : Except Exn ν),
      (s.slots.map WhenAllSlot.outcome)[j]? = some (some r) ↔
        ∃ slot, l[j]? = some slot ∧ slot.outcome = some r := fun j r => by
    rw [← ho, List.getElem?_map, Option.map_eq_some_iff]
  refine ⟨t, ?_, hc, ?_, ?_, htasks ▸ places_nodup 0 _, ?_, hsh⟩
  · simp only [WhenAll.call, hl]
    exact ht
  · intro j slot hj
    rw [hslot] at hj
    refine Nat.zero_add j ▸ (hslots j slot hj).2.congr ?_
    rw [htasks, mem_places_collectTasks, Option.isSome_iff_exists]
    refine exists_congr fun r => ?_
    rw [hout, hj]
    simp
  · intro c hcm
    rw [htasks] at hcm
    obtain ⟨j, r, hj, rfl⟩ := mem_collectTasks.mp hcm
    obtain ⟨slot, hl, hr⟩ := (hout j r).mp hj
    exact ⟨j, slot, r, (hslot j).trans hl, hr, by rw [Nat.zero_add]⟩
  · rw [hn, hsl, waiting]
    refine (List.countP_eq_length.mpr fun slot hs => ?_).symm
    obtain ⟨j, hj⟩ := List.getElem?_of_mem hs
    exact (hslots j slot hj).1

theorem Fresh.call {s t : WhenAll ν} (h : s.Fresh) (ht : s.call = some t) : t.Collecting := by
  have ha : ∀ slot ∈ s.slots, slot.abandoned = false := by
    intro slot hs
    rw [← Bool.not_eq_true]
    intro ha
    simp [WhenAll.call, waitLoop_dead h.slots hs ha] at ht
  obtain ⟨t', ht', hc⟩ := h.call_eq ha
  obtain rfl := Option.some.inj (ht'.symm.trans ht)
  exact hc

/-- One place changes, and with it the number of references and the tasks. -/
theorem Collecting.update {s t : WhenAll ν} (h : s.Collecting) {i : Nat}
    {slot slot' : WhenAllSlot ν} (hi : s.slots[i]? = some slot) (hc : t.called = s.called)
    (hs : t.slots = s.slots.set i slot')
    (hplaces : ∀ j, j ≠ i → (j ∈ places t.tasks ↔ j ∈ places s.tasks))
    (hafter : slot'.After i (i ∈ places t.tasks))
    (htasks : ∀ c ∈ t.tasks, (c ∈ s.tasks ∧ (c.func.index = i → slot'.outcome = slot.outcome)) ∨
      ∃ r, slot'.outcome = some r ∧ c = collectTask i r)
    (hnodup : (places t.tasks).Nodup)
    (hcount : t.useCount + slot.future.promise.toNat = s.useCount + slot'.future.promise.toNat)
    (hsh : t.Shared) : t.Collecting := by
  obtain ⟨hlt, hget⟩ := List.getElem?_eq_some_iff.mp hi
  have hself : t.slots[i]? = some slot' := by rw [hs, List.getElem?_set_self hlt]
  have hother : ∀ j, j ≠ i → t.slots[j]? = s.slots[j]? := fun j hj => by
    rw [hs, List.getElem?_set_ne hj.symm]
  refine ⟨hc.trans h.called, ?_, ?_, hnodup, ?_, hsh⟩
  · intro j u hj
    by_cases hji : j = i
    · subst hji
      obtain rfl := Option.some.inj (hself.symm.trans hj)
      exact hafter
    · rw [hother j hji] at hj
      exact (h.slots j u hj).congr (hplaces j hji).symm
  · intro c hcm
    obtain ⟨hold, hsame⟩ | ⟨r, hr, rfl⟩ := htasks c hcm
    · obtain ⟨j, u, r, hj, hr, rfl⟩ := h.tasks c hold
      by_cases hji : j = i
      · subst hji
        obtain rfl := Option.some.inj (hi.symm.trans hj)
        exact ⟨j, slot', r, hself, (hsame rfl).trans hr, rfl⟩
      · exact ⟨j, u, r, (hother j hji).trans hj, hr, rfl⟩
    · exact ⟨i, slot', r, hself, hr, rfl⟩
  · have hset := List.countP_set (p := fun slot : WhenAllSlot ν => slot.future.promise)
      (a := slot') hlt
    have hle : (if slot.future.promise then 1 else 0) ≤
        s.slots.countP fun slot => slot.future.promise := by
      split
      case isTrue hp =>
        exact List.countP_pos_iff.mpr ⟨slot, List.mem_of_getElem? hi, hp⟩
      case isFalse => exact Nat.zero_le _
    have hcs := h.count
    rw [hget] at hset
    rw [hs, hset]
    cases hb : slot.future.promise <;> cases hb' : slot'.future.promise <;>
      simp only [hb, hb', Bool.toNat_true, Bool.toNat_false, if_true, Bool.false_eq_true,
        if_false] at hcount hle ⊢ <;> omega

theorem Collecting.resolve {s t : WhenAll ν} (h : s.Collecting) {i : Nat} {r : Except Exn ν}
    (ht : s.resolve i r = some t) : t.Collecting := by
  obtain ⟨slot, p, d, hi, hp, hd, rfl⟩ := resolve_cases ht
  obtain ⟨hq, ho, hd2, hafter⟩ := (h.slots i slot hi).resolve hp hd
  rw [hd2]
  have hpl : places (s.tasks ++ [collectTask i r]) = places s.tasks ++ [i] := List.map_append
  refine h.update hi rfl rfl ?_ (hafter.congr ?_) ?_ ?_ rfl (h.shared.keep rfl rfl rfl rfl rfl)
  · intro j hj
    change j ∈ places (s.tasks ++ [collectTask i r]) ↔ _
    rw [hpl]
    simp [hj]
  · change True ↔ i ∈ places (s.tasks ++ [collectTask i r])
    rw [hpl]
    simp
  · refine forall_mem_concat (fun c hc => ?_) (.inr ⟨r, rfl, rfl⟩)
    exact .inl ⟨hc, fun hci => absurd (mem_places.mpr ⟨c, hc, hci⟩) hq⟩
  · change (places (s.tasks ++ [collectTask i r])).Nodup
    rw [hpl]
    refine List.nodup_append.mpr ⟨h.nodup, List.pairwise_singleton _ i, fun a ha b hb hab => ?_⟩
    exact hq (List.mem_singleton.mp hb ▸ hab ▸ ha)

/-- A continuation that is not destroyed holds a reference. -/
theorem Collecting.referenced {s : WhenAll ν} (h : s.Collecting) {i : Nat}
    {slot : WhenAllSlot ν} (hi : s.slots[i]? = some slot) (hp : slot.future.promise = true) :
    ∃ n, s.useCount = n + 1 ∧ s.Unfulfilled := by
  have hpos : 0 < s.useCount := by
    rw [h.count]
    exact List.countP_pos_iff.mpr ⟨slot, List.mem_of_getElem? hi, hp⟩
  exact ⟨s.useCount - 1, by omega, h.shared.held (by omega)⟩

/-- The continuation that waited for a promise is destroyed with it. -/
theorem Collecting.abandon {s : WhenAll ν} (h : s.Collecting) {i : Nat} {slot : WhenAllSlot ν}
    (hi : s.slots[i]? = some slot) (hp : slot.future.promise = true) (ho : slot.outcome = none)
    (hq : i ∉ places s.tasks) :
    ∃ t, destroyFunc
        { s with slots := s.slots.set i slot.orphan } ⟨innerPromise, i⟩ = some t ∧
      t.Collecting := by
  obtain ⟨n, hn, hun⟩ := h.referenced hi hp
  have hun' : ({ s with slots := s.slots.set i slot.orphan } : WhenAll ν).Unfulfilled :=
    hun.keep rfl rfl rfl rfl
  have hi' : (s.slots.set i slot.orphan)[i]? = some slot.orphan :=
    List.getElem?_set_self (List.getElem?_eq_some_iff.mp hi).1
  obtain ⟨t, ht, hsh, hu, hsl, hts, hc⟩ := destroyFunc_eq hun' hn hi' .future
  have hslot : slot.orphan = ⟨none, slot.future, none, true⟩ := by rw [WhenAllSlot.orphan, ho]
  refine ⟨t, ht, h.update hi hc (hsl.trans (List.set_set ..)) ?_ ?_ ?_ ?_ ?_ hsh⟩
  · exact fun j _ => by rw [hts]
  · rw [hts, hslot]
    exact .dead hq
  · exact fun c hcm => .inl ⟨hts ▸ hcm, fun _ => rfl⟩
  · rw [hts]
    exact h.nodup
  · rw [hu, hp, hn]
    rfl

theorem Collecting.destroy {s t : WhenAll ν} (h : s.Collecting) {i : Nat}
    (ht : s.destroy i = some t) : t.Collecting := by
  obtain ⟨slot, p, f, c, hi, hp, hd, ht⟩ := destroy_cases ht
  obtain ⟨rfl, ⟨rfl, hafter⟩ | ⟨hq, rfl, ho, hlink⟩⟩ := (h.slots i slot hi).destroy hp hd
  · cases ht
    exact h.update hi rfl rfl (fun _ _ => Iff.rfl) hafter
      (fun c hc => .inl ⟨hc, fun _ => rfl⟩) h.nodup rfl (h.shared.keep rfl rfl rfl rfl rfl)
  · obtain ⟨t', ht', hc⟩ := h.abandon hi hlink ho hq
    have hnone : slot.outcome.isNone = true := by rw [ho]; rfl
    simp only [hnone] at ht
    obtain rfl := Option.some.inj (ht'.symm.trans ht)
    exact hc

/-- The front continuation runs: the future of its place gets what the input was resolved
with. -/
theorem Collecting.run_eq {s : WhenAll ν} (h : s.Collecting)
    {c : Continuation ν (WhenAllFunc ν)} {rest : List (Continuation ν (WhenAllFunc ν))}
    (hts : s.tasks = c :: rest) : ∃ t, s.run = some t ∧ t.Collecting := by
  obtain ⟨i, slot, r, hi, ho, rfl⟩ := h.tasks c (by rw [hts]; exact List.mem_cons_self)
  have hmem : i ∈ places s.tasks := by
    rw [hts]
    exact List.mem_cons_self
  have hnodup : i ∉ places rest ∧ (places rest).Nodup := by
    have := h.nodup
    rw [hts] at this
    exact List.nodup_cons.mp this
  cases h.slots i slot hi with
  | waiting x y hq => exact absurd hmem hq
  | done r' p hs hq => exact absurd hmem hq
  | dead hq => exact absurd hmem hq
  | queued r' p y hs hq =>
    obtain rfl := Option.some.inj ho
    obtain ⟨n, hn, hun⟩ := h.referenced hi rfl
    have hun' : ({ s with tasks := rest } : WhenAll ν).Unfulfilled := hun.keep rfl rfl rfl rfl
    obtain ⟨t, ht, hsh, hu, hsl, htt, hc⟩ := destroyFunc_eq hun' hn hi (.ofResult r')
    refine ⟨t, ?_, h.update hi hc hsl ?_ ?_ ?_ ?_ ?_ hsh⟩
    · simp only [WhenAll.run, hts]
      cases r' <;> exact ht
    · intro j hj
      rw [htt, hts]
      exact ⟨List.mem_cons_of_mem _, fun hm => (List.mem_cons.mp hm).resolve_left hj⟩
    · rw [htt]
      exact .done r' p hs hnodup.1
    · refine fun c hcm => .inl ⟨?_, fun _ => rfl⟩
      rw [htt] at hcm
      rw [hts]
      exact List.mem_cons_of_mem _ hcm
    · rw [htt]
      exact hnodup.2
    · rw [hu, hn]
      rfl

theorem Collecting.run {s t : WhenAll ν} (h : s.Collecting) (ht : s.run = some t) :
    t.Collecting := by
  cases hts : s.tasks with
  | nil => simp [WhenAll.run, hts] at ht
  | cons c rest =>
    obtain ⟨t', ht', hc⟩ := h.run_eq hts
    obtain rfl := Option.some.inj (ht'.symm.trans ht)
    exact hc

theorem Shared.attach {s t : WhenAll ν} (h : s.Shared) (ht : s.attach = some t) : t.Shared := by
  obtain ⟨d, hd, rfl⟩ := Option.map_eq_some_iff.mp ht
  constructor
  · intro h0
    cases h.held h0 with
    | held x hp hf hx hs hn =>
      rw [hf, hp] at hd
      cases hd
      exact .attached .future x rfl rfl hx (by rw [hs]; rfl) hn
    | attached x y hp hf hy hs hn =>
      rw [hf] at hd
      cases (Future.schedule_dead hy _ _).symm.trans hd
  · intro h0
    cases h.gone h0 with
    | ready hp hf hs hn =>
      rw [hf, hp] at hd
      cases hd
      exact .taken .invalid rfl rfl rfl (by rw [hs]; rfl) hn
    | taken y hp hf hy hs hn =>
      rw [hf] at hd
      cases (Future.schedule_dead hy _ _).symm.trans hd

theorem Collecting.attach {s t : WhenAll ν} (h : s.Collecting) (ht : s.attach = some t) :
    t.Collecting := by
  have hsh := h.shared.attach ht
  obtain ⟨d, hd, rfl⟩ := Option.map_eq_some_iff.mp ht
  exact ⟨h.called, h.slots, h.tasks, h.nodup, h.count, hsh⟩

def Inv (s : WhenAll ν) : Prop := s.Fresh ∨ s.Collecting

theorem Inv.step {s t : WhenAll ν} {a : WhenAllAct ν} (h : s.Inv) (ht : s.step a = some t) :
    t.Inv := by
  obtain h | h := h
  · cases a with
    | resolve i r => exact .inl (h.resolve ht)
    | destroy i => exact .inl (h.destroy ht)
    | call =>
      simp only [WhenAll.step, h.called, Bool.false_eq_true, if_false] at ht
      exact .inr (h.call ht)
    | run => simp [WhenAll.step, WhenAll.run, h.tasks] at ht
    | attach =>
      simp [WhenAll.step, WhenAll.attach, h.future, Future.schedule, Future.deref,
        FutureState.available] at ht
  · cases a with
    | resolve i r => exact .inr (h.resolve ht)
    | destroy i => exact .inr (h.destroy ht)
    | call => simp [WhenAll.step, h.called] at ht
    | run => exact .inr (h.run ht)
    | attach => exact .inr (h.attach ht)

/-- `when_all` returns and the continuations run, whatever comes, unless there is a dead future
among the inputs. -/
theorem Inv.runnable {s : WhenAll ν} (h : s.Inv) (hne : s.tasks ≠ []) :
    ∃ t, s.step .run = some t := by
  obtain h | h := h
  · exact absurd h.tasks hne
  · obtain ⟨c, rest, hts⟩ := List.exists_cons_of_ne_nil hne
    obtain ⟨t, ht, -⟩ := h.run_eq hts
    exact ⟨t, ht⟩

theorem Inv.callable {s : WhenAll ν} (h : s.Inv) (hc : s.called = false)
    (ha : ∀ slot ∈ s.slots, slot.abandoned = false) : ∃ t, s.step .call = some t := by
  obtain h | h := h
  · obtain ⟨t, ht, -⟩ := h.call_eq ha
    exact ⟨t, by simp only [WhenAll.step, hc, Bool.false_eq_true, if_false, ht]⟩
  · rw [h.called] at hc
    cases hc

theorem Inv.once {s : WhenAll ν} (h : s.Inv) : s.fulfilled ≤ 1 := by
  obtain h | h := h
  · exact h.fulfilled ▸ Nat.zero_le 1
  · by_cases h0 : s.useCount = 0
    · cases h.shared.gone h0 with
      | ready hp hf hs hn => exact hn.le
      | taken y hp hf hy hs hn => exact hn.le
    · cases h.shared.held h0 with
      | held x hp hf hx hs hn => exact hn ▸ Nat.zero_le 1
      | attached x y hp hf hy hs hn => exact hn ▸ Nat.zero_le 1

/-- The returned future is available when all continuations are destroyed. -/
theorem Collecting.available_iff {s : WhenAll ν} (h : s.Collecting) :
    s.available = true ↔ ∀ slot ∈ s.slots, slot.future.promise = false := by
  have hzero : s.useCount = 0 ↔ ∀ slot ∈ s.slots, slot.future.promise = false := by
    rw [h.count, List.countP_eq_zero]
    exact forall₂_congr fun _ _ => iff_of_eq (Bool.not_eq_true _)
  rw [← hzero]
  constructor
  · intro ha
    by_contra h0
    rw [(h.shared.held h0).not_available] at ha
    cases ha
  · intro h0
    rw [available, (h.shared.gone h0).value_eq]
    rfl

theorem Inv.collecting {s : WhenAll ν} (h : s.Inv) (ha : s.available = true) :
    s.Collecting := by
  obtain h | h := h
  · simp [available, value, h.scheduled, h.future, Future.deref, FutureState.available] at ha
  · exact h

end WhenAll
end Miniss
