import Miniss.Seastar.FutureHeapTasks
import Miniss.Seastar.FutureValues

/-! The pointers of the heap lead to the values: a value that has a promise is in the promise or
in its task, and else it is in its future. -/
namespace Miniss
variable {κ ι ν φ : Type*}

inductive PromiseAt (tasks : ℕ → Option (Continuation ν φ)) (s : FutureValues κ ι ν φ) (a : κ)
    (p : Option (PromiseObject κ ι ν)) : Prop
  | vacant (hc : s.promises a = none) (hs : a ∉ s.spent) (hp : p = none)
  | spent (x : FutureState ν) (hx : x.available = false) (hc : s.promises a = none)
      (hs : a ∈ s.spent) (hp : p = some ⟨none, x, .nullptr, none⟩)
  | holds (c : ℕ) (hc : s.promises a = some c) (hs : a ∉ s.spent)
      (hf : (s.values c).func = none)
      (hp : p = some ⟨s.futures.symm c, (s.values c).state, .promise a, none⟩)
  | waits (c t : ℕ) (x : FutureState ν) (func : φ) (hx : x.available = false)
      (hc : s.promises a = some c) (hs : a ∉ s.spent) (hf : s.values c = ⟨.future, some func⟩)
      (hp : p = some ⟨none, x, .task t, some t⟩) (ht : tasks t = some ⟨.future, func⟩)

inductive FutureAt (s : FutureValues κ ι ν φ) (f : ι) (x : Option (FutureObject κ ν)) : Prop
  | vacant (hc : s.futures f = none) (hx : x = none)
  | linked (c : ℕ) (a : κ) (hc : s.futures f = some c) (ha : s.promises a = some c)
      (hx : x = some ⟨some a, .future⟩)
  | alone (c : ℕ) (hc : s.futures f = some c) (ha : s.promises.symm c = none)
      (hx : x = some ⟨none, (s.values c).state⟩)

def FutureValues.location (s : FutureValues κ ι ν φ) (f : ι) (c : ℕ) : StatePointer κ ι :=
  match s.promises.symm c with
  | some a => .promise a
  | none => .future f

structure Represents (h : FutureHeap κ ι ν φ) (s : FutureValues κ ι ν φ) : Prop where
  promise : ∀ a, PromiseAt h.tasks s a (h.promises a)
  future : ∀ f, FutureAt s f (h.futures f)
  queue : h.taskQueue.map h.tasks = s.scheduled.map some
  fresh : ∀ c, s.next ≤ c → s.promises.symm c = none ∧ s.futures.symm c = none
  attached : ∀ c, (s.values c).func ≠ none → s.futures.symm c = none
  tasks : TasksOwned h

variable {s s' : FutureValues κ ι ν φ} {h : FutureHeap κ ι ν φ}

theorem PromiseAt.frame {tasks tasks' : ℕ → Option (Continuation ν φ)} {a : κ}
    {p p' : Option (PromiseObject κ ι ν)} (hp : PromiseAt tasks s a p) (hp' : p' = p)
    (hc : s'.promises a = s.promises a) (hs : a ∈ s'.spent ↔ a ∈ s.spent)
    (hv : ∀ c, s.promises a = some c →
      s'.values c = s.values c ∧ s'.futures.symm c = s.futures.symm c)
    (ht : ∀ t, p.bind PromiseObject.task = some t → tasks' t = tasks t) :
    PromiseAt tasks' s' a p' := by
  subst hp'
  cases hp with
  | vacant hn hns hp => exact .vacant (hc.trans hn) (mt hs.mp hns) hp
  | spent x hx hn hns hp => exact .spent x hx (hc.trans hn) (hs.mpr hns) hp
  | holds c hn hns hf hp =>
    obtain ⟨hval, hfut⟩ := hv c hn
    exact .holds c (hc.trans hn) (mt hs.mp hns) (by rw [hval, hf]) (by rw [hp, hval, hfut])
  | waits c t x func hx hn hns hf hp hk =>
    obtain ⟨hval, -⟩ := hv c hn
    exact .waits c t x func hx (hc.trans hn) (mt hs.mp hns) (hval.trans hf) hp
      ((ht t (by rw [hp]; rfl)).trans hk)

theorem FutureAt.frame {f : ι} {x x' : Option (FutureObject κ ν)} (hx : FutureAt s f x)
    (hx' : x' = x) (hc : s'.futures f = s.futures f)
    (hv : ∀ c, s.futures f = some c →
      s'.promises.symm c = s.promises.symm c ∧ (s'.values c).state = (s.values c).state) :
    FutureAt s' f x' := by
  subst hx'
  cases hx with
  | vacant hn hx => exact .vacant (hc.trans hn) hx
  | linked c a hn ha hx =>
    refine .linked c a (hc.trans hn) ?_ hx
    rw [← s'.promises.eq_some_iff, (hv c hn).1, s.promises.eq_some_iff, ha]
  | alone c hn ha hx =>
    obtain ⟨hprom, hval⟩ := hv c hn
    exact .alone c (hc.trans hn) (hprom.trans ha) (by rw [hx, hval])

namespace Represents

/-- A future that has a value is linked with the promise of the value, or has it alone. -/
theorem future_cases (hR : Represents h s) {f : ι} {c : ℕ} (hf : s.futures f = some c) :
    (s.values c).func = none ∧
      ((∃ a, s.promises a = some c ∧ h.futures f = some ⟨some a, .future⟩ ∧
          h.promises a = some ⟨some f, (s.values c).state, .promise a, none⟩) ∨
        (s.promises.symm c = none ∧ h.futures f = some ⟨none, (s.values c).state⟩)) := by
  have hsym : s.futures.symm c = some f := s.futures.eq_some_iff.mpr hf
  have hfunc : (s.values c).func = none := by
    by_contra hne
    cases hsym.symm.trans (hR.attached c hne)
  refine ⟨hfunc, ?_⟩
  cases hR.future f with
  | vacant hn hx => cases hf.symm.trans hn
  | linked d a hd ha hx =>
    cases hf.symm.trans hd
    refine .inl ⟨a, ha, hx, ?_⟩
    cases hR.promise a with
    | vacant hn => cases ha.symm.trans hn
    | spent y hy hn => cases ha.symm.trans hn
    | holds e he hs hfe hp =>
      cases ha.symm.trans he
      rw [hp, hsym]
    | waits e t y func hy he hs hfe hp ht =>
      cases ha.symm.trans he
      rw [hfe] at hfunc
      cases hfunc
  | alone d hd ha hx =>
    cases hf.symm.trans hd
    exact .inr ⟨ha, hx⟩

/-- The future of a value that a promise holds. -/
theorem future_of_promise (hR : Represents h s) {a : κ} {f : ι} {c : ℕ}
    (ha : s.promises a = some c) (hf : s.futures.symm c = some f) :
    s.futures f = some c ∧ h.futures f = some ⟨some a, .future⟩ := by
  have hfc : s.futures f = some c := s.futures.eq_some_iff.mp hf
  refine ⟨hfc, ?_⟩
  obtain ⟨-, ⟨b, hb, hx, -⟩ | ⟨hn, -⟩⟩ := hR.future_cases hfc
  · rwa [s.promises.inj hb ha] at hx
  · cases hn.symm.trans (s.promises.eq_some_iff.mpr ha)

/-- The future finds its value, wherever it is. -/
theorem state_eq (hR : Represents h s) {f : ι} {c : ℕ} (hf : s.futures f = some c) :
    h.state f = some (s.location f c) ∧
      h.deref (s.location f c) = some (s.values c).state := by
  obtain ⟨-, ⟨a, ha, hx, hp⟩ | ⟨hn, hx⟩⟩ := hR.future_cases hf
  · have hsym : s.promises.symm c = some a := s.promises.eq_some_iff.mpr ha
    exact ⟨by simp [FutureHeap.state, hx, hp, FutureValues.location, hsym],
      by simp [FutureHeap.deref, hp, FutureValues.location, hsym]⟩
  · exact ⟨by simp [FutureHeap.state, hx, FutureValues.location, hn],
      by simp [FutureHeap.deref, hx, FutureValues.location, hn]⟩

theorem not_spent (hR : Represents h s) {a : κ} {c : ℕ} (ha : s.promises a = some c) :
    a ∉ s.spent := by
  cases hR.promise a with
  | vacant hc hs hp => exact hs
  | spent x hx hc hs hp => cases ha.symm.trans hc
  | holds d hc hs hf hp => exact hs
  | waits d t x func hx hc hs hf hp ht => exact hs

theorem future_vacant_iff (hR : Represents h s) {f : ι} :
    h.futures f = none ↔ s.futures f = none := by
  cases hR.future f with
  | vacant hn hx => simp [hn, hx]
  | linked d a hd ha hx => simp [hd, hx]
  | alone d hd ha hx => simp [hd, hx]

theorem look (hR : Represents h s) (f : ι) : h.look f = s.look f := by
  unfold FutureHeap.look FutureValues.look
  cases hc : s.futures f with
  | none => simp [FutureHeap.state, hR.future_vacant_iff.mpr hc]
  | some c =>
    obtain ⟨hstate, hderef⟩ := hR.state_eq hc
    rw [hstate, Option.bind_some, hderef]
    rfl

theorem promise_vacant_iff (hR : Represents h s) {a : κ} :
    h.promises a = none ↔ s.Vacant a := by
  unfold FutureValues.Vacant
  cases hR.promise a with
  | vacant hc hs hp => simp [hc, hs, hp]
  | spent x hx hc hs hp => simp [hs, hp]
  | holds c hc hs hf hp => simp [hc, hp]
  | waits c t x func hx hc hs hf hp ht => simp [hc, hp]

theorem task_lt_of_promise (hR : Represents h s) {a : κ} {t : ℕ} (ht : h.taskOf a = some t) :
    t < h.nextTask := by
  by_contra hlt
  have hnone := hR.tasks.fresh t (not_lt.mp hlt)
  unfold FutureHeap.taskOf at ht
  cases hR.promise a with
  | vacant hc hs hp => simp [hp] at ht
  | spent x hx hc hs hp => simp [hp] at ht
  | holds c hc hs hf hp => simp [hp] at ht
  | waits c u x func hx hc hs hf hp hu =>
    rw [hp, Option.bind_some, Option.some.injEq] at ht
    rw [← ht, hu] at hnone
    cases hnone

theorem task_lt_of_queue (hR : Represents h s) {t : ℕ} (ht : t ∈ h.taskQueue) :
    t < h.nextTask := by
  by_contra hlt
  have hmem := List.mem_map_of_mem (f := h.tasks) ht
  rw [hR.tasks.fresh t (not_lt.mp hlt), hR.queue] at hmem
  simp at hmem

end Represents

end Miniss
