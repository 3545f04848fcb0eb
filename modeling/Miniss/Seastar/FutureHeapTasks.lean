import Miniss.Seastar.FutureHeap

/-! Who owns the tasks of the heap: a task belongs to the promise that it was attached to until
it is scheduled, and to the queue from then on. -/
namespace Miniss
variable {κ ι ν φ : Type*}

namespace FutureHeap

def taskOf (h : FutureHeap κ ι ν φ) (a : κ) : Option ℕ :=
  (h.promises a).bind PromiseObject.task

end FutureHeap

/-- Each task that is there has exactly one owner, a promise or the queue. -/
structure TasksOwned (h : FutureHeap κ ι ν φ) : Prop where
  fresh : ∀ t, h.nextTask ≤ t → h.tasks t = none
  nodup : h.taskQueue.Nodup
  owner : ∀ a b t, h.taskOf a = some t → h.taskOf b = some t → a = b
  queued : ∀ a t, h.taskOf a = some t → t ∉ h.taskQueue
  owned : ∀ t, h.tasks t ≠ none → t ∈ h.taskQueue ∨ ∃ a, h.taskOf a = some t

namespace TasksOwned
variable {h h' : FutureHeap κ ι ν φ} {a x : κ} {t : ℕ}

theorem frame (hT : TasksOwned h) (hp : ∀ a, h'.taskOf a = h.taskOf a)
    (ht : h'.tasks = h.tasks) (hn : h'.nextTask = h.nextTask)
    (hq : h'.taskQueue = h.taskQueue) : TasksOwned h' := by
  obtain ⟨fresh, nodup, owner, queued, owned⟩ := hT
  refine ⟨by rwa [ht, hn], hq ▸ nodup, by simpa [hp] using owner, by simpa [hp, hq] using queued,
    by simpa [hp, hq, ht] using owned⟩

variable [DecidableEq κ]

/-- The task goes from the promise at `x` to the one at `a`. -/
theorem move (hT : TasksOwned h) (hx : h.taskOf x = some t) (ha : h.taskOf a = none)
    (hp : ∀ b, h'.taskOf b = if b = a then some t else if b = x then none else h.taskOf b)
    (ht : h'.tasks = h.tasks) (hn : h'.nextTask = h.nextTask)
    (hq : h'.taskQueue = h.taskQueue) : TasksOwned h' := by
  obtain ⟨fresh, nodup, owner, queued, owned⟩ := hT
  refine ⟨by rwa [ht, hn], hq ▸ nodup, by grind, by grind, fun u hu => ?_⟩
  rw [ht] at hu
  obtain hmem | ⟨b, hb⟩ := owned u hu
  · exact .inl (hq ▸ hmem)
  · by_cases hbx : b = x
    · exact .inr ⟨a, by grind⟩
    · exact .inr ⟨b, by grind⟩

theorem drop (hT : TasksOwned h) (ha : h.taskOf a = some t)
    (hp : ∀ b, h'.taskOf b = if b = a then none else h.taskOf b)
    (ht : ∀ u, h'.tasks u = if u = t then none else h.tasks u) (hn : h'.nextTask = h.nextTask)
    (hq : h'.taskQueue = h.taskQueue) : TasksOwned h' := by
  obtain ⟨fresh, nodup, owner, queued, owned⟩ := hT
  refine ⟨by grind, hq ▸ nodup, by grind, by grind, fun u hu => ?_⟩
  rw [ht] at hu
  obtain hmem | ⟨b, hb⟩ := owned u (by grind)
  · exact .inl (hq ▸ hmem)
  · exact .inr ⟨b, by grind⟩

theorem push (hT : TasksOwned h) (ha : h.taskOf a = some t)
    (hp : ∀ b, h'.taskOf b = if b = a then none else h.taskOf b)
    (ht : ∀ u, h'.tasks u = none ↔ h.tasks u = none) (hn : h'.nextTask = h.nextTask)
    (hq : h'.taskQueue = h.taskQueue ++ [t]) : TasksOwned h' := by
  obtain ⟨fresh, nodup, owner, queued, owned⟩ := hT
  refine ⟨by grind, by grind, by grind, by grind, fun u hu => ?_⟩
  obtain hmem | ⟨b, hb⟩ := owned u (by grind)
  · exact .inl (by grind)
  · by_cases hba : b = a
    · exact .inl (by grind)
    · exact .inr ⟨b, by grind⟩

theorem attach (hT : TasksOwned h) (hlt : ∀ b u, h.taskOf b = some u → u < h.nextTask)
    (hltq : ∀ u ∈ h.taskQueue, u < h.nextTask) {k : Continuation ν φ} (ha : h.taskOf a = none)
    (hp : ∀ b, h'.taskOf b = if b = a then some h.nextTask else h.taskOf b)
    (ht : ∀ u, h'.tasks u = if u = h.nextTask then some k else h.tasks u)
    (hn : h'.nextTask = h.nextTask + 1) (hq : h'.taskQueue = h.taskQueue) : TasksOwned h' := by
  obtain ⟨fresh, nodup, owner, queued, owned⟩ := hT
  refine ⟨by grind, hq ▸ nodup, by grind, by grind, fun u hu => ?_⟩
  rw [ht] at hu
  by_cases hun : u = h.nextTask
  · exact .inr ⟨a, by grind⟩
  · obtain hmem | ⟨b, hb⟩ := owned u (by grind)
    · exact .inl (hq ▸ hmem)
    · exact .inr ⟨b, by grind⟩

omit [DecidableEq κ] in
theorem enqueue (hT : TasksOwned h) (hlt : ∀ b u, h.taskOf b = some u → u < h.nextTask)
    (hltq : ∀ u ∈ h.taskQueue, u < h.nextTask) {k : Continuation ν φ}
    (hp : ∀ b, h'.taskOf b = h.taskOf b)
    (ht : ∀ u, h'.tasks u = if u = h.nextTask then some k else h.tasks u)
    (hn : h'.nextTask = h.nextTask + 1) (hq : h'.taskQueue = h.taskQueue ++ [h.nextTask]) :
    TasksOwned h' := by
  obtain ⟨fresh, nodup, owner, queued, owned⟩ := hT
  refine ⟨by grind, by grind, by grind, by grind, fun u hu => ?_⟩
  rw [ht] at hu
  by_cases hun : u = h.nextTask
  · exact .inl (by grind)
  · obtain hmem | ⟨b, hb⟩ := owned u (by grind)
    · exact .inl (by grind)
    · exact .inr ⟨b, by grind⟩

omit [DecidableEq κ] in
theorem pop (hT : TasksOwned h) {q : List ℕ} (hh : h.taskQueue = t :: q)
    (hp : ∀ b, h'.taskOf b = h.taskOf b) (ht : ∀ u, h'.tasks u = if u = t then none else h.tasks u)
    (hn : h'.nextTask = h.nextTask) (hq : h'.taskQueue = q) : TasksOwned h' := by
  obtain ⟨fresh, nodup, owner, queued, owned⟩ := hT
  refine ⟨by grind, by grind, by grind, by grind, fun u hu => ?_⟩
  rw [ht] at hu
  obtain hmem | ⟨b, hb⟩ := owned u (by grind)
  · exact .inl (by grind)
  · exact .inr ⟨b, by grind⟩

end TasksOwned

end Miniss
