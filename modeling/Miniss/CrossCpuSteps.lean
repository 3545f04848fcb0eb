import Miniss.CrossCpuQueue
import Miniss.Lib.Lists

/-! What one step can do to a `Cross_cpu_queue`, said once. -/
namespace Miniss
variable {ν : Type*}

open CrossCpuQueue

/-- The transitions of a queue. The calls come from the CPU that each of them asserts. -/
inductive CrossCpuStep (q : CrossCpuQueue ν) : CrossCpuQueue ν → Prop where
  | submitted (hpc : q.fromPc = .idle) : CrossCpuStep q (q.submit q.from_)
  | flushTx (hpc : q.fromPc = .idle) : CrossCpuStep q (q.flushTx q.from_)
  | pollRx (hpc : q.fromPc = .idle) : CrossCpuStep q (q.pollRx q.from_)
  | flushRx (hpc : q.toPc = .idle) : CrossCpuStep q (q.flushRx q.to_)
  | pollTx (hpc : q.toPc = .idle) : CrossCpuStep q (q.pollTx q.to_)
  | txMoved (n : Nat) (tx : UnboundedSpscQueue Nat) (hpc : q.fromPc = .flush n)
      (htx : q.tx.flushRound = some tx) :
      CrossCpuStep q { q with tx := tx, fromPc := .flush (n + 1) }
  | txFlushed (n woken : Nat) (hpc : q.fromPc = .flush n) :
      CrossCpuStep q { q with fromPc := .idle, wokenTo := woken }
  | rxMoved (n : Nat) (rx : UnboundedSpscQueue Nat) (hpc : q.toPc = .flush n)
      (hrx : q.rx.flushRound = some rx) :
      CrossCpuStep q { q with rx := rx, toPc := .flush (n + 1) }
  | rxFlushed (n woken : Nat) (hpc : q.toPc = .flush n) :
      CrossCpuStep q { q with toPc := .idle, wokenFrom := woken }
  | completed (cpu item : Nat) (todo : List Nat)
      (hpc : q.fromPc = .complete cpu (item :: todo)) :
      CrossCpuStep q { q.complete cpu item with fromPc := .complete cpu todo }
  | completedAll (cpu : Nat) (hpc : q.fromPc = .complete cpu []) :
      CrossCpuStep q { q with fromPc := .idle }
  | processed (cpu item : Nat) (todo : List Nat) (ready : Option (CallResult ν))
      (hpc : q.toPc = .process cpu (item :: todo)) :
      CrossCpuStep q { q.process cpu item ready with toPc := .process cpu todo }
  | processedAll (cpu : Nat) (hpc : q.toPc = .process cpu []) :
      CrossCpuStep q { q with toPc := .idle }
  | resolved (pre post : List Nat) (item : Nat) (r : CallResult ν)
      (hr : q.running = pre ++ item :: post) :
      CrossCpuStep q
        { q with running := pre ++ post, tasks := q.tasks ++ [(q.to_, .fill item r)] }
  | ran (pre post : List (Nat × ItemTask ν)) (t : Nat × ItemTask ν) (hpc : q.toPc = .idle)
      (ht : q.tasks = pre ++ t :: post) :
      CrossCpuStep q (runTask { q with tasks := pre ++ post } t)

theorem pollQueues_cpu {cpuCount current : Nat} {call : PollCall}
    (h : call ∈ pollQueues cpuCount current) :
    match call with
    | .flushTx i _ | .pollRx i _ => i = current
    | .flushRx _ j | .pollTx _ j => j = current := by
  obtain ⟨i, -, hi⟩ := List.mem_flatMap.mp h
  simp only [List.mem_cons, List.not_mem_nil, or_false] at hi
  obtain rfl | rfl | rfl | rfl := hi <;> rfl

theorem poll_steps {q q' : CrossCpuQueue ν} {cpuCount current : Nat} {call : PollCall}
    (hc : call ∈ pollQueues cpuCount current) (h : q.poll current call = some q') :
    CrossCpuStep q q' := by
  have hcpu := pollQueues_cpu hc
  unfold poll at h
  cases call with
  | flushTx i j =>
    simp only at h hcpu
    split at h
    case h_1 hpc =>
      obtain ⟨⟨hi, -⟩, h⟩ := Option.ite_none_right_eq_some.mp h
      obtain rfl := hi.symm.trans hcpu
      cases h
      exact .flushTx hpc
    case h_2 => cases h
  | pollRx i j =>
    simp only at h hcpu
    split at h
    case h_1 hpc =>
      obtain ⟨⟨hi, -⟩, h⟩ := Option.ite_none_right_eq_some.mp h
      obtain rfl := hi.symm.trans hcpu
      cases h
      exact .pollRx hpc
    case h_2 => cases h
  | flushRx i j =>
    simp only at h hcpu
    split at h
    case h_1 hpc =>
      obtain ⟨⟨-, hj⟩, h⟩ := Option.ite_none_right_eq_some.mp h
      obtain rfl := hj.symm.trans hcpu
      cases h
      exact .flushRx hpc
    case h_2 => cases h
  | pollTx i j =>
    simp only at h hcpu
    split at h
    case h_1 hpc =>
      obtain ⟨⟨-, hj⟩, h⟩ := Option.ite_none_right_eq_some.mp h
      obtain rfl := hj.symm.trans hcpu
      cases h
      exact .pollTx hpc
    case h_2 => cases h

theorem fromStep_steps {q q' : CrossCpuQueue ν} (h : q.fromStep = some q') :
    CrossCpuStep q q' := by
  unfold fromStep at h
  split at h
  case h_1 => cases h
  case h_2 n hpc =>
    split at h
    case h_1 tx htx =>
      cases h
      exact .txMoved n tx hpc htx
    case h_2 =>
      cases h
      exact .txFlushed n _ hpc
  case h_3 cpu item todo hpc =>
    cases h
    exact .completed cpu item todo hpc
  case h_4 cpu hpc =>
    cases h
    exact .completedAll cpu hpc

theorem toStep_steps {q q' : CrossCpuQueue ν} {ready : Option (CallResult ν)}
    (h : q.toStep ready = some q') : CrossCpuStep q q' := by
  unfold toStep at h
  split at h
  case h_1 => cases h
  case h_2 n hpc =>
    split at h
    case h_1 rx hrx =>
      cases h
      exact .rxMoved n rx hpc hrx
    case h_2 =>
      cases h
      exact .rxFlushed n _ hpc
  case h_3 cpu item todo hpc =>
    cases h
    exact .processed cpu item todo ready hpc
  case h_4 cpu hpc =>
    cases h
    exact .processedAll cpu hpc

theorem cross_cpu_step_cases {cpuCount i j : Nat} {q q' : CrossCpuQueue ν}
    {a : CrossCpuAct ν} (h : (crossCpuMachine cpuCount i j).step q a = some q') :
    CrossCpuStep q q' := by
  change q.step cpuCount a = some q' at h
  unfold CrossCpuQueue.step at h
  cases a with
  | submitTo current cpu =>
    simp only at h
    split at h
    case h_1 hpc =>
      obtain ⟨hs, h⟩ := Option.ite_none_right_eq_some.mp h
      obtain ⟨-, hs⟩ := Option.ite_none_right_eq_some.mp hs
      obtain ⟨rfl, -⟩ := Prod.mk.inj (Option.some.inj hs)
      cases h
      exact .submitted hpc
    case h_2 => cases h
  | poll current call =>
    obtain ⟨hc, h⟩ := Option.ite_none_right_eq_some.mp h
    exact poll_steps hc h
  | from_ => exact fromStep_steps h
  | to_ ready => exact toStep_steps h
  | resolve current k r =>
    simp only at h
    split at h
    case h_1 => cases h
    case h_2 item hk =>
      obtain ⟨rfl, h⟩ := Option.ite_none_right_eq_some.mp h
      obtain ⟨pre, post, hr, he, -⟩ := exists_split_of_getElem? hk
      cases h
      rw [he]
      exact .resolved pre post item r hr
  | runTask k =>
    simp only at h
    split at h
    case h_1 t hpc hk =>
      obtain ⟨pre, post, ht, he, -⟩ := exists_split_of_getElem? hk
      cases h
      rw [he]
      exact .ran pre post t hpc ht
    case h_2 => cases h

end Miniss
