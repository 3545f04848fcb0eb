import Miniss.SubmitTo

/-! What one step can do to the calls from one CPU to another, said once, and the queue that
these calls go through. -/
namespace Miniss
variable {ν : Type*}

namespace CrossCpuQueue

/-- The part of a queue that tells how far each call is. -/
def calls (q : CrossCpuQueue ν) := (q.submitted, q.heap, q.running, q.tasks, q.filled, q.resolved)

theorem poll_calls {q q' : CrossCpuQueue ν} {current : Nat} {call : PollCall}
    (h : q.poll current call = some q') : q'.calls = q.calls := by
  unfold poll at h
  cases call with
  | flushTx i j | pollRx i j | flushRx i j | pollTx i j =>
    simp only at h
    split at h
    case h_1 =>
      obtain ⟨-, h⟩ := Option.ite_none_right_eq_some.mp h
      cases h
      rfl
    case h_2 => cases h

end CrossCpuQueue

open SubmitTo

inductive SubmitToStep (fns : Nat → Fn ν) (s : SubmitTo ν) : SubmitTo ν → Prop where
  | submitted (hpc : s.queue.fromPc = .idle) :
      SubmitToStep fns s
        { s.submit (fns s.queue.submitted) with queue := s.queue.submit s.queue.from_ }
  | moved (q : CrossCpuQueue (Option ν)) (hq : q.calls = s.queue.calls) :
      SubmitToStep fns s { s with queue := q }
  | completed (cpu item : Nat) (todo : List Nat)
      (hpc : s.queue.fromPc = .complete cpu (item :: todo)) :
      SubmitToStep fns s { s.complete item with
        queue := { s.queue.complete cpu item with fromPc := .complete cpu todo } }
  | processed (cpu item : Nat) (todo : List Nat)
      (hpc : s.queue.toPc = .process cpu (item :: todo)) :
      SubmitToStep fns s { s with
        queue := { s.queue.process cpu item s.ready with toPc := .process cpu todo } }
  | happened (k : Nat) (hk : k ∉ s.queue.running) :
      SubmitToStep fns s { s with happened := k :: s.happened }
  | resolved (pre post : List Nat) (k : Nat) (hk : s.queue.running = pre ++ k :: post) :
      SubmitToStep fns s
        { s with
          queue := { s.queue with
            running := pre ++ post
            tasks := s.queue.tasks ++ [(s.queue.to_, .fill k (fns k).outcome)] }
          happened := k :: s.happened }
  | filled (pre post : List (Nat × ItemTask (Option ν))) (cpu item : Nat)
      (r : Except Exn (Option ν)) (ht : s.queue.tasks = pre ++ (cpu, .fill item r) :: post) :
      SubmitToStep fns s { s.fill item r with
        queue := CrossCpuQueue.fill { s.queue with tasks := pre ++ post } cpu item r }
  | responded (pre post : List (Nat × ItemTask (Option ν))) (cpu item : Nat)
      (ht : s.queue.tasks = pre ++ (cpu, .respond item) :: post) :
      SubmitToStep fns s { s with
        queue := CrossCpuQueue.respond_ { s.queue with tasks := pre ++ post } cpu item }
  | attached (k : Nat) (t : SubmitTo ν) (ht : s.attach k = some t) : SubmitToStep fns s t

theorem submit_call_steps {fns : Nat → Fn ν} {cpuCount current cpu : Nat} {s t : SubmitTo ν}
    (h : s.step fns cpuCount (.submitTo current cpu) = some t) : SubmitToStep fns s t := by
  obtain ⟨q, hq, rfl⟩ := Option.map_eq_some_iff.mp h
  simp only [CrossCpuQueue.step] at hq
  split at hq
  case h_1 hpc =>
    obtain ⟨hs, hq⟩ := Option.ite_none_right_eq_some.mp hq
    obtain ⟨-, hs⟩ := Option.ite_none_right_eq_some.mp hs
    obtain ⟨rfl, -⟩ := Prod.mk.inj (Option.some.inj hs)
    cases hq
    exact .submitted hpc
  case h_2 => cases hq

theorem from_side_steps {fns : Nat → Fn ν} {cpuCount : Nat} {s t : SubmitTo ν}
    (h : s.step fns cpuCount .from_ = some t) : SubmitToStep fns s t := by
  obtain ⟨q, hq, rfl⟩ := Option.map_eq_some_iff.mp h
  simp only [CrossCpuQueue.step, CrossCpuQueue.fromStep] at hq
  split at hq
  case h_1 => cases hq
  case h_2 n hpc =>
    have he : s.fromItem = s := by simp only [fromItem, hpc]
    rw [he]
    split at hq <;> cases hq <;> exact .moved _ rfl
  case h_3 cpu item todo hpc =>
    have he : s.fromItem = s.complete item := by simp only [fromItem, hpc]
    cases hq
    rw [he]
    exact .completed cpu item todo hpc
  case h_4 cpu hpc =>
    have he : s.fromItem = s := by simp only [fromItem, hpc]
    cases hq
    rw [he]
    exact .moved _ rfl

theorem to_side_steps {fns : Nat → Fn ν} {cpuCount : Nat} {s t : SubmitTo ν}
    (h : s.step fns cpuCount .to_ = some t) : SubmitToStep fns s t := by
  obtain ⟨q, hq, rfl⟩ := Option.map_eq_some_iff.mp h
  simp only [CrossCpuQueue.step, CrossCpuQueue.toStep] at hq
  split at hq
  case h_1 => cases hq
  case h_2 n hpc => split at hq <;> cases hq <;> exact .moved _ rfl
  case h_3 cpu item todo hpc =>
    cases hq
    exact .processed cpu item todo hpc
  case h_4 cpu hpc =>
    cases hq
    exact .moved _ rfl

theorem happen_steps {fns : Nat → Fn ν} {cpuCount k : Nat} {s t : SubmitTo ν}
    (h : s.happen fns cpuCount k = some t) : SubmitToStep fns s t := by
  unfold happen at h
  split at h
  case isTrue hk =>
    obtain ⟨q, hq, rfl⟩ := Option.map_eq_some_iff.mp h
    have hget := List.getElem?_idxOf hk
    obtain ⟨pre, post, hr, he, -⟩ := exists_split_of_getElem? hget
    simp only [CrossCpuQueue.step, hget, if_true, he, Option.some.injEq] at hq
    subst hq
    exact .resolved pre post k hr
  case isFalse hk =>
    cases h
    exact .happened k hk

theorem task_steps {fns : Nat → Fn ν} {cpuCount k : Nat} {s t : SubmitTo ν}
    (h : s.step fns cpuCount (.runTask k) = some t) : SubmitToStep fns s t := by
  obtain ⟨q, hq, rfl⟩ := Option.map_eq_some_iff.mp h
  simp only [CrossCpuQueue.step] at hq
  split at hq
  case h_1 u hpc hk =>
    obtain ⟨pre, post, ht, he, -⟩ := exists_split_of_getElem? hk
    rw [he] at hq
    cases hq
    obtain ⟨cpu, u⟩ := u
    cases u with
    | fill item r =>
      have hi : s.taskItem k = s.fill item r := by simp only [taskItem, hk]
      rw [hi]
      exact .filled pre post cpu item r ht
    | respond item =>
      have hi : s.taskItem k = s := by simp only [taskItem, hk]
      rw [hi]
      exact .responded pre post cpu item ht
  case h_2 => cases hq

theorem submit_to_step_cases {fns : Nat → Fn ν} {cpuCount i j : Nat} {s t : SubmitTo ν}
    {a : SubmitToAct} (h : (submitToMachine fns cpuCount i j).step s a = some t) :
    SubmitToStep fns s t := by
  change s.step fns cpuCount a = some t at h
  cases a with
  | submitTo current cpu => exact submit_call_steps h
  | poll current call =>
    obtain ⟨q, hq, rfl⟩ := Option.map_eq_some_iff.mp h
    obtain ⟨-, hq⟩ := Option.ite_none_right_eq_some.mp hq
    exact .moved q (CrossCpuQueue.poll_calls hq)
  | from_ => exact from_side_steps h
  | to_ => exact to_side_steps h
  | happen k => exact happen_steps h
  | runTask k => exact task_steps h
  | attach k =>
    simp only [SubmitTo.step] at h
    split at h
    case h_1 => exact .attached k t h
    case h_2 => cases h

theorem queue_step_of_map {cpuCount i j : Nat} {s t : SubmitTo ν} {b : CrossCpuAct (Option ν)}
    {f : CrossCpuQueue (Option ν) → SubmitTo ν} (hf : ∀ q, (f q).queue = q)
    (h : (s.queue.step cpuCount b).map f = some t) :
    ∃ b, (crossCpuMachine cpuCount i j).step s.queue b = some t.queue := by
  obtain ⟨q, hq, rfl⟩ := Option.map_eq_some_iff.mp h
  exact ⟨b, hq.trans (congrArg some (hf q).symm)⟩

/-- The calls go through the queue between the two CPUs. -/
theorem submit_to_simulates (fns : Nat → Fn ν) (cpuCount i j : Nat) :
    Machine.Simulation (submitToMachine fns cpuCount i j) (crossCpuMachine cpuCount i j)
      SubmitTo.queue where
  init := rfl
  step s a t h := by
    change s.step fns cpuCount a = some t at h
    cases a with
    | submitTo current cpu => exact .inr (queue_step_of_map (fun _ => rfl) h)
    | poll current call => exact .inr (queue_step_of_map (fun _ => rfl) h)
    | from_ => exact .inr (queue_step_of_map (fun _ => rfl) h)
    | to_ => exact .inr (queue_step_of_map (fun _ => rfl) h)
    | runTask k => exact .inr (queue_step_of_map (fun _ => rfl) h)
    | happen k =>
      simp only [SubmitTo.step, happen] at h
      split at h
      case isTrue => exact .inr (queue_step_of_map (fun _ => rfl) h)
      case isFalse =>
        cases h
        exact .inl rfl
    | attach k =>
      simp only [SubmitTo.step] at h
      split at h
      case h_1 =>
        obtain ⟨d, -, rfl⟩ := Option.map_eq_some_iff.mp h
        exact .inl rfl
      case h_2 => cases h

end Miniss
