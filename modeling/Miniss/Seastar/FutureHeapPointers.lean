import Miniss.Seastar.FutureHeapRefines

/-! What holds of the pointers in every reachable heap, and when an operation goes wrong. -/
namespace Miniss
variable {κ ι ν φ : Type*}

/-- No pointer dangles: a promise and its future point to each other, and a state that is pointed
to is the promise's own or that of a task that it owns. -/
structure PointersSound (h : FutureHeap κ ι ν φ) : Prop where
  ends : ∀ a f, (h.promises a).bind PromiseObject.future = some f ↔
    (h.futures f).bind FutureObject.promise = some a
  state : ∀ a p, h.promises a = some p →
    p.state = .promise a ∧ p.task = none ∨
      (∃ t, p.state = .task t ∧ p.task = some t ∧ (h.tasks t).isSome) ∨
        p.state = .nullptr ∧ p.task = none
  look : ∀ f, (h.futures f).isSome → (h.look f).isSome
  tasks : TasksOwned h

theorem Represents.pointersSound {h : FutureHeap κ ι ν φ} {s : FutureValues κ ι ν φ}
    (hR : Represents h s) : PointersSound h where
  ends a f := by
    have hfuture : (h.futures f).bind FutureObject.promise = some a ↔
        ∃ c, s.futures f = some c ∧ s.promises a = some c := by
      cases hR.future f with
      | vacant hn hx => simp [hn, hx]
      | linked c b hc hb hx =>
        simp only [hx, hc, Option.bind_some, Option.some.injEq]
        constructor
        · rintro rfl
          exact ⟨c, rfl, hb⟩
        · rintro ⟨d, rfl, ha⟩
          exact s.promises.inj hb ha
      | alone c hc hb hx =>
        simp only [hx, hc, Option.bind_some, reduceCtorEq, Option.some.injEq, false_iff]
        rintro ⟨d, rfl, ha⟩
        cases hb.symm.trans (s.promises.eq_some_iff.mpr ha)
    rw [hfuture]
    cases hR.promise a with
    | vacant hc hs hp => simp [hc, hp]
    | spent x hx hc hs hp => simp [hc, hp]
    | holds c hc hs hf hp => simp [hc, hp, s.futures.eq_some_iff]
    | waits c t x func hx hc hs hf hp ht =>
      have hn := hR.attached c (by simp [hf])
      simp only [hc, hp, Option.bind_some, reduceCtorEq, false_iff]
      rintro ⟨d, hd, hcd⟩
      cases hcd
      cases hn.symm.trans (s.futures.eq_some_iff.mpr hd)
  state a p hp := by
    cases hR.promise a with
    | vacant hc hs hp' => cases hp.symm.trans hp'
    | spent x hx hc hs hp' =>
      cases hp.symm.trans hp'
      exact .inr (.inr ⟨rfl, rfl⟩)
    | holds c hc hs hf hp' =>
      cases hp.symm.trans hp'
      exact .inl ⟨rfl, rfl⟩
    | waits c t x func hx hc hs hf hp' ht =>
      cases hp.symm.trans hp'
      exact .inr (.inl ⟨t, rfl, rfl, by simp [ht]⟩)
  look f hf := by
    cases hc : s.futures f with
    | none => simp [hR.future_vacant_iff.mpr hc] at hf
    | some c =>
      obtain ⟨hstate, hderef⟩ := hR.state_eq hc
      simp [FutureHeap.look, hstate, hderef]
  tasks := hR.tasks

namespace Represents
variable {s : FutureValues κ ι ν φ} {h : FutureHeap κ ι ν φ}

theorem settable_iff (hR : Represents h s) (a : κ) :
    (h.promises a).bind (fun p => h.deref p.state) = some .future ↔
      ∃ c, s.promises a = some c ∧ (s.values c).state = .future := by
  cases hR.promise a with
  | vacant hc hs hp => simp [hc, hp]
  | spent x hx hc hs hp => simp [hc, hp, FutureHeap.deref]
  | holds c hc hs hf hp => simp [hc, hp, FutureHeap.deref]
  | waits c t x func hx hc hs hf hp ht => simp [hc, hp, hf, ht, FutureHeap.deref]

theorem linked_iff (hR : Represents h s) (f : ι) :
    (h.futures f).bind FutureObject.promise ≠ none ↔
      ∃ c, s.futures f = some c ∧ s.promises.symm c ≠ none := by
  cases hR.future f with
  | vacant hn hx => simp [hn, hx]
  | linked c b hc hb hx => simp [hx, hc, s.promises.eq_some_iff.mpr hb]
  | alone c hc hb hx => simp [hx, hc, hb]

theorem gettable_iff (hR : Represents h s) (a : κ) :
    (∃ p, h.promises a = some p ∧ p.future = none ∧ p.state ≠ .nullptr ∧ p.task = none) ↔
      ∃ c, s.promises a = some c ∧ s.futures.symm c = none ∧ (s.values c).func = none := by
  cases hR.promise a with
  | vacant hc hs hp => simp [hc, hp]
  | spent x hx hc hs hp => simp [hc, hp]
  | holds c hc hs hf hp => simp [hc, hp, hf]
  | waits c t x func hx hc hs hf hp ht => simp [hc, hp, hf]

theorem taskQueue_eq_nil_iff (hR : Represents h s) : h.taskQueue = [] ↔ s.scheduled = [] := by
  have hlen := congrArg List.length hR.queue
  rw [List.length_map, List.length_map] at hlen
  rw [← List.length_eq_zero_iff, hlen, List.length_eq_zero_iff]

theorem spent_promise (hR : Represents h s) {a : κ} (ha : a ∈ s.spent) : s.promises a = none := by
  by_contra hne
  obtain ⟨c, hc⟩ := Option.ne_none_iff_exists'.mp hne
  exact hR.not_spent hc ha

end Represents

/-! When the operations on the values are defined. -/
namespace FutureValues
variable {s : FutureValues κ ι ν φ}

theorem look_isSome_iff {f : ι} : (s.look f).isSome ↔ s.futures f ≠ none := by
  simp [look, Option.isSome_iff_ne_none]

theorem ignore_isSome_iff {f : ι} :
    (s.ignore f).isSome ↔ ∃ x, s.look f = some x ∧ x ≠ .future := by
  unfold ignore look
  cases hc : s.futures f with
  | none => simp
  | some c => cases hst : (s.values c).state <;> simp [hst]

theorem run_isSome_iff : s.run.isSome ↔ s.scheduled ≠ [] := by
  unfold run
  cases s.scheduled <;> simp

section
variable [DecidableEq ι]

theorem getFuture_isSome_iff {a : κ} {f : ι} : (s.getFuture a f).isSome ↔ s.futures f = none ∧
    ∃ c, s.promises a = some c ∧ s.futures.symm c = none ∧ (s.values c).func = none := by
  unfold getFuture
  cases s.promises a <;> simp [apply_ite Option.isSome]

theorem readyFuture_isSome_iff {f : ι} {r : Except Exn ν} :
    (s.readyFuture f r).isSome ↔ s.futures f = none := by
  simp [readyFuture, apply_ite Option.isSome]

theorem moveFuture_isSome_iff {f x : ι} :
    (s.moveFuture f x).isSome ↔ s.futures f = none ∧ s.futures x ≠ none := by
  simp [moveFuture, apply_ite Option.isSome, Option.isSome_iff_ne_none]

theorem destroyFuture_isSome_iff {f : ι} : (s.destroyFuture f).isSome ↔ s.futures f ≠ none := by
  simp [destroyFuture, Option.isSome_iff_ne_none]

theorem assignFuture_isSome_iff {f x : ι} :
    (s.assignFuture f x).isSome ↔ s.futures f ≠ none ∧ s.futures x ≠ none := by
  unfold assignFuture
  by_cases hfx : f = x
  · subst hfx
    simp [Option.isSome_iff_ne_none]
  · rw [if_neg hfx]
    cases hc : s.futures f with
    | none => simp [destroyFuture, hc]
    | some c =>
      simp [destroyFuture, moveFuture_isSome_iff, PEquiv.unlink_apply, hc, Ne.symm hfx]

theorem schedule_isSome_iff {f : ι} {func : φ} : (s.schedule f func).isSome ↔
    ∃ c, s.futures f = some c ∧
      ((s.values c).state.available ∨ s.promises.symm c ≠ none) := by
  unfold schedule
  cases hc : s.futures f with
  | none => simp
  | some c =>
    cases hsym : s.promises.symm c <;> by_cases hav : (s.values c).state.available = true <;>
      simp [hsym, hav]

theorem get_isSome_iff {f : ι} :
    (s.get f).isSome ↔ ∃ x, s.look f = some x ∧ x.available := by
  unfold get look
  cases hc : s.futures f with
  | none => simp
  | some c =>
    cases hst : (s.values c).state <;> simp [hst, FutureState.result?, FutureState.available]

end

variable [DecidableEq κ]

theorem newPromise_isSome_iff {a : κ} : (s.newPromise a).isSome ↔ s.Vacant a := by
  simp [newPromise, apply_ite Option.isSome]

theorem set_isSome_iff {a : κ} {r : Except Exn ν} :
    (s.set a r).isSome ↔ ∃ c, s.promises a = some c ∧ (s.values c).state = .future := by
  unfold set
  cases hc : s.promises a with
  | none => simp
  | some c => cases hst : (s.values c).state <;> cases hf : (s.values c).func <;> simp [hst, hf]

theorem movePromise_isSome_iff {a x : κ} :
    (s.movePromise a x).isSome ↔ s.Vacant a ∧ ¬ s.Vacant x := by
  unfold movePromise
  by_cases hv : s.Vacant a
  · rw [if_pos hv]
    have hx : s.Vacant x ↔ s.promises x = none ∧ x ∉ s.spent := Iff.rfl
    cases hc : s.promises x with
    | none => by_cases hs : x ∈ s.spent <;> simp [hv, hs, hx, hc]
    | some c => simp [hv, hx, hc]
  · simp [hv]

theorem destroyPromise_isSome_iff {a : κ} : (s.destroyPromise a).isSome ↔ ¬ s.Vacant a := by
  unfold destroyPromise
  cases hc : s.promises a <;> by_cases hs : a ∈ s.spent <;> simp [hs, Vacant, hc]

theorem vacant_destroyPromise {a x : κ} {d : FutureValues κ ι ν φ × List (FutureOutput ν φ)}
    (hd : s.destroyPromise a = some d) (hs : a ∈ s.spent → s.promises a = none) :
    d.1.Vacant x ↔ x = a ∨ s.Vacant x := by
  unfold destroyPromise at hd
  split at hd
  · obtain rfl := Option.some.inj hd
    grind [Vacant]
  · split at hd
    · obtain rfl := Option.some.inj hd
      grind [Vacant]
    · cases hd

theorem assignPromise_isSome_iff {a x : κ} (hs : a ∈ s.spent → s.promises a = none) :
    (s.assignPromise a x).isSome ↔ ¬ s.Vacant a ∧ ¬ s.Vacant x := by
  unfold assignPromise
  by_cases hax : a = x
  · subst hax
    by_cases hv : s.Vacant a <;> simp [hv]
  · rw [if_neg hax]
    cases hd : s.destroyPromise a with
    | none =>
      have hv : s.Vacant a := by
        by_contra hv
        simpa [hd] using destroyPromise_isSome_iff.mpr hv
      simp [hv]
    | some d =>
      have hv : ¬ s.Vacant a := destroyPromise_isSome_iff.mp (by simp [hd])
      simp [movePromise_isSome_iff, vacant_destroyPromise hd hs, hv, Ne.symm hax]

theorem forwardTo_isSome_iff [DecidableEq ι] {f : ι} {a : κ}
    (hs : ∀ b ∈ s.spent, s.promises b = none) :
    (s.forwardTo f a).isSome ↔ ∃ c, s.futures f = some c ∧
      if (s.values c).state.available then
        ∃ d, s.promises a = some d ∧ (s.values d).state = .future
      else s.promises.symm c ≠ none ∧ ¬ s.Vacant a := by
  unfold forwardTo
  cases hc : s.futures f with
  | none => simp
  | some c =>
    cases hr : (s.values c).state.result? with
    | some r =>
      have hav : (s.values c).state.available = true := by
        cases hst : (s.values c).state <;> simp_all [FutureState.result?, FutureState.available]
      simp [hr, hav, set_isSome_iff]
    | none =>
      have hav : (s.values c).state.available = false := by
        cases hst : (s.values c).state <;> simp_all [FutureState.result?, FutureState.available]
      cases hsym : s.promises.symm c with
      | none => simp [hr, hav, hsym]
      | some b =>
        have hb : ¬ s.Vacant b := by simp [Vacant, s.promises.eq_some_iff.mp hsym]
        have hren (a : κ) : (s.renew f .future).Vacant a ↔ s.Vacant a := Iff.rfl
        have hassign := assignPromise_isSome_iff (s := s.renew f .future) (a := b) (x := a) (hs b)
        simp [hr, hav, hsym, hassign, hren, hb]

end FutureValues

variable [DecidableEq κ] [DecidableEq ι]

theorem FutureHeap.pointers_sound {ops : List (FutureOp κ ι ν φ)}
    {h : FutureHeap κ ι ν φ × List (FutureOutput ν φ)}
    (hh : FutureHeap.machine.Reaches ops h) : PointersSound h.1 := by
  obtain ⟨s, -, hR, -⟩ := heap_lockstep.reaches hh
  exact hR.pointersSound

/-- A promise moves after its future has got a function. -/
theorem FutureHeap.pointers_sound_moved : ∃ h : FutureHeap ℕ ℕ ℕ ℕ × List (FutureOutput ℕ ℕ),
    FutureHeap.machine.Reaches [.newPromise 0, .getFuture 0 0, .schedule 0 7, .movePromise 1 0] h ∧
      PointersSound h.1 := by
  refine ⟨_, rfl, ?_⟩
  exact FutureHeap.pointers_sound (rfl : FutureHeap.machine.Reaches
    [.newPromise 0, .getFuture 0 0, .schedule 0 7, .movePromise 1 0] _)

namespace FutureHeap

/-- What is asked of the caller of an operation: the objects are there, their new places are
free, and what the operation asserts of the state holds. -/
def Allowed (h : FutureHeap κ ι ν φ) : FutureOp κ ι ν φ → Prop
  | .newPromise a => h.promises a = none
  | .movePromise a x => h.promises a = none ∧ h.promises x ≠ none
  | .assignPromise a x => h.promises a ≠ none ∧ h.promises x ≠ none
  | .destroyPromise a => h.promises a ≠ none
  | .getFuture a f => h.futures f = none ∧
      ∃ p, h.promises a = some p ∧ p.future = none ∧ p.state ≠ .nullptr ∧ p.task = none
  | .set a _ => (h.promises a).bind (fun p => h.deref p.state) = some .future
  | .readyFuture f _ => h.futures f = none
  | .moveFuture f x => h.futures f = none ∧ h.futures x ≠ none
  | .assignFuture f x => h.futures f ≠ none ∧ h.futures x ≠ none
  | .destroyFuture f => h.futures f ≠ none
  | .available f => h.futures f ≠ none
  | .failed f => h.futures f ≠ none
  | .schedule f _ => ∃ x, h.look f = some x ∧
      (x.available ∨ (h.futures f).bind FutureObject.promise ≠ none)
  | .get f => ∃ x, h.look f = some x ∧ x.available
  | .ignore f => ∃ x, h.look f = some x ∧ x ≠ .future
  | .forwardTo f a => ∃ x, h.look f = some x ∧
      if x.available then (h.promises a).bind (fun p => h.deref p.state) = some .future
      else (h.futures f).bind FutureObject.promise ≠ none ∧ h.promises a ≠ none
  | .run => h.taskQueue ≠ []

end FutureHeap

theorem Represents.step_isSome_iff {s : FutureValues κ ι ν φ} {h : FutureHeap κ ι ν φ}
    (hR : Represents h s) (op : FutureOp κ ι ν φ) : (h.step op).isSome ↔ h.Allowed op := by
  rw [isSome_iff_of_rel (hR.step op)]
  have hvac := fun a => hR.promise_vacant_iff (a := a)
  have hfut := fun f => hR.future_vacant_iff (f := f)
  have hspent : ∀ a ∈ s.spent, s.promises a = none := fun a ha => hR.spent_promise ha
  cases op with
  | newPromise a =>
    simp [FutureValues.step, FutureHeap.Allowed, FutureValues.newPromise_isSome_iff, hvac]
  | movePromise a x =>
    simp [FutureValues.step, FutureHeap.Allowed, FutureValues.movePromise_isSome_iff, hvac]
  | assignPromise a x =>
    simp [FutureValues.step, FutureHeap.Allowed, FutureValues.assignPromise_isSome_iff (hspent a),
      hvac]
  | destroyPromise a =>
    simp [FutureValues.step, FutureHeap.Allowed, FutureValues.destroyPromise_isSome_iff, hvac]
  | getFuture a f =>
    rw [FutureHeap.Allowed, hfut, hR.gettable_iff]
    simp [FutureValues.step, FutureValues.getFuture_isSome_iff]
  | set a r =>
    rw [FutureHeap.Allowed, hR.settable_iff]
    simp [FutureValues.step, FutureValues.set_isSome_iff]
  | readyFuture f r =>
    simp [FutureValues.step, FutureHeap.Allowed, FutureValues.readyFuture_isSome_iff, hfut]
  | moveFuture f x =>
    simp [FutureValues.step, FutureHeap.Allowed, FutureValues.moveFuture_isSome_iff, hfut]
  | assignFuture f x =>
    simp [FutureValues.step, FutureHeap.Allowed, FutureValues.assignFuture_isSome_iff, hfut]
  | destroyFuture f =>
    simp [FutureValues.step, FutureHeap.Allowed, FutureValues.destroyFuture_isSome_iff, hfut]
  | available f =>
    simp [FutureValues.step, FutureHeap.Allowed, FutureValues.look_isSome_iff, hfut]
  | failed f =>
    simp [FutureValues.step, FutureHeap.Allowed, FutureValues.look_isSome_iff, hfut]
  | schedule f func =>
    rw [FutureHeap.Allowed, hR.look, hR.linked_iff]
    cases hc : s.futures f <;>
      simp [FutureValues.step, FutureValues.schedule_isSome_iff, FutureValues.look, hc]
  | get f =>
    rw [FutureHeap.Allowed, hR.look]
    simp [FutureValues.step, FutureValues.get_isSome_iff]
  | ignore f =>
    rw [FutureHeap.Allowed, hR.look]
    simp [FutureValues.step, FutureValues.ignore_isSome_iff]
  | forwardTo f a =>
    rw [FutureHeap.Allowed, hR.look, hR.settable_iff, hR.linked_iff, ne_eq, hvac]
    cases hc : s.futures f <;>
      simp [FutureValues.step, FutureValues.forwardTo_isSome_iff hspent, FutureValues.look, hc]
  | run =>
    rw [FutureHeap.Allowed, ne_eq, hR.taskQueue_eq_nil_iff]
    simp [FutureValues.step, FutureValues.run_isSome_iff]

/-- An operation goes wrong only where its caller has broken what is asked of it. -/
theorem FutureHeap.step_defined_iff {ops : List (FutureOp κ ι ν φ)}
    {h : FutureHeap κ ι ν φ × List (FutureOutput ν φ)}
    (hh : FutureHeap.machine.Reaches ops h) (op : FutureOp κ ι ν φ) :
    (h.1.step op).isSome ↔ h.1.Allowed op := by
  obtain ⟨s, -, hR, -⟩ := heap_lockstep.reaches hh
  exact hR.step_isSome_iff op

theorem FutureHeap.step_defined_iff_set :
    ∃ h : FutureHeap ℕ ℕ ℕ ℕ × List (FutureOutput ℕ ℕ),
      FutureHeap.machine.Reaches [.newPromise 0, .getFuture 0 0, .set 0 (.ok 5)] h ∧
        ((h.1.step (.set 0 (.ok 6))).isSome ↔ h.1.Allowed (.set 0 (.ok 6))) := by
  refine ⟨_, rfl, ?_⟩
  exact FutureHeap.step_defined_iff (rfl : FutureHeap.machine.Reaches
    [.newPromise 0, .getFuture 0 0, .set 0 (.ok 5)] _) (.set 0 (.ok 6))

end Miniss
