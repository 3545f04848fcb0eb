import Miniss.Seastar.Fibers

/-! A fiber that is not done waits for an answer or has its turn in the queue. -/
namespace Miniss

variable {ν ε ρ : Type*}

namespace Fibers

structure Turns (t : Fibers ν ε ρ) : Prop where
  queued : ∀ i x, t.fiber i = some x → x.runnable = true → i ∈ t.queue
  gone : ∀ i, i < t.journal.started.length → t.fiber i = none → ∃ r, (i, r) ∈ t.journal.results

variable {t t' : Fibers ν ε ρ}

theorem Turns.resume (ht : t.Turns) {i : ℕ} (x : Fiber ν ε ρ) (es : List (Event ν ε ρ)) :
    (t.resume i x es).Turns where
  queued j y hy hr := by
    rw [resume_fiber] at hy
    split at hy
    · next hj =>
      obtain rfl := Option.some.inj hy
      exact List.mem_append_right _ (by rw [if_pos hr, hj]; exact List.mem_singleton_self i)
    · exact List.mem_append_left _ (ht.queued j y hy hr)
  gone j hj hy := by
    rw [resume_fiber] at hy
    split at hy
    · cases hy
    · exact ht.gone j hj hy

theorem Turns.start (ht : t.Turns) (p : Computation ν ε ρ) : (t.start p).Turns where
  queued j y hy hr := by
    rw [Fibers.start, resume_fiber] at hy
    split at hy
    · next hj =>
      obtain rfl := Option.some.inj hy
      exact List.mem_append_right _ (by rw [if_pos hr, hj]; exact List.mem_singleton_self _)
    · exact List.mem_append_left _ (ht.queued j y hy hr)
  gone j hj hy := by
    rw [Fibers.start, resume_fiber] at hy
    split at hy
    · cases hy
    · next hne =>
      have hlen : j < t.journal.started.length + 1 := hj.trans_eq List.length_append
      exact ht.gone j (by omega) hy

theorem Turns.attach (ht : t.Turns) {i : ℕ} {k : Callback ν ε ρ} (h : t.attach i k = some t') :
    t'.Turns := by
  obtain ⟨x, hx, rfl⟩ := Option.map_eq_some_iff.mp h
  constructor
  · intro j y hy hr
    by_cases hj : j = i
    · subst hj
      simp only [Function.update_self, Option.some.injEq] at hy
      subst hy
      by_cases hxr : x.runnable = true
      · exact List.mem_append_left _ (ht.queued j x hx hxr)
      · rw [if_neg hxr, if_pos hr]
        exact List.mem_append_right _ (List.mem_singleton_self j)
    · simp only [Function.update_of_ne hj] at hy
      exact List.mem_append_left _ (ht.queued j y hy hr)
  · intro j hj hy
    by_cases hji : j = i
    · simp [hji] at hy
    · simp only [Function.update_of_ne hji] at hy
      exact ht.gone j (by simpa [Journal.attach] using hj) hy

theorem Turns.answer (ht : t.Turns) {i : ℕ} {r : Except Exn ν} (h : t.answer i r = some t') :
    t'.Turns := by
  unfold Fibers.answer at h
  split at h
  · rw [← Option.some.inj h]
    exact ht.resume _ _
  · cases h

theorem Turns.run (ht : t.Turns) (h : t.run = some t') : t'.Turns := by
  unfold Fibers.run at h
  split at h
  · cases h
  next i queue hq =>
    split at h
    · next r k ks hx =>
      rw [← Option.some.inj h]
      constructor
      · intro j y hy hr
        rw [resume_fiber] at hy
        split at hy
        · next hj =>
          obtain rfl := Option.some.inj hy
          exact List.mem_append_right _ (by rw [if_pos hr, hj]; exact List.mem_singleton_self i)
        · next hj =>
          have hmem := ht.queued j y hy hr
          rw [hq] at hmem
          exact List.mem_append_left _ (List.mem_of_ne_of_mem hj hmem)
      · intro j hj hy
        rw [resume_fiber] at hy
        split at hy
        · cases hy
        · exact ht.gone j hj hy
    · cases h

theorem Turns.take (ht : t.Turns) {i : ℕ} (h : t.take i = some t') : t'.Turns := by
  unfold Fibers.take at h
  split at h
  · next r hx =>
    rw [← Option.some.inj h]
    constructor
    · intro j y hy hr
      by_cases hj : j = i
      · simp [hj] at hy
      · simp only [Function.update_of_ne hj] at hy
        exact ht.queued j y hy hr
    · intro j hj hy
      by_cases hji : j = i
      · exact ⟨r, List.mem_append_right _ (by rw [hji]; exact List.mem_singleton_self _)⟩
      · simp only [Function.update_of_ne hji] at hy
        obtain ⟨r', hr'⟩ := ht.gone j hj hy
        exact ⟨r', List.mem_append_left _ hr'⟩
  · cases h

theorem turns {ls : List (FiberOp ν ε ρ)} (h : machine.Reaches ls t) : t.Turns := by
  refine h.invariant ⟨by simp [machine], by simp [machine]⟩ fun s op s' hs hstep => ?_
  cases op with
  | start p =>
    rw [← Option.some.inj hstep]
    exact hs.start p
  | attach i k => exact hs.attach hstep
  | answer i r => exact hs.answer hstep
  | run => exact hs.run hstep
  | take i => exact hs.take hstep

/-- With no task left and no request open, every fiber has its result. -/
theorem Turns.take_isSome (ht : t.Turns) (hq : t.queue = [])
    (ha : ∀ i q ks, t.fiber i ≠ some ⟨.request q, ks⟩) {i : ℕ} {x : Fiber ν ε ρ}
    (hx : t.fiber i = some x) : (t.take i).isSome := by
  obtain ⟨point, stack⟩ := x
  cases point with
  | request q => exact absurd hx (ha i q stack)
  | answer r =>
    cases stack with
    | nil =>
      rw [Fibers.take, hx]
      rfl
    | cons k ks =>
      have hmem := ht.queued i _ hx rfl
      rw [hq] at hmem
      cases hmem

end Fibers

end Miniss
