import Miniss.Os
import Miniss.CrossCpuSteps

/-! What one step of the system can do, said once: most steps change one CPU and nothing
else, and the rest move items or wake another CPU. -/
namespace Miniss
variable {α : Type*}

namespace Os

@[simp] theorem setCpu_rings (s : Os α) (c : Nat) (cpu : Cpu α) :
    (s.setCpu c cpu).rings = s.rings := rfl

@[simp] theorem setCpu_self (s : Os α) (c : Nat) (cpu : Cpu α) :
    (s.setCpu c cpu).cpus c = cpu := Function.update_self ..

theorem setCpu_of_ne (s : Os α) {c d : Nat} (cpu : Cpu α) (h : d ≠ c) :
    (s.setCpu c cpu).cpus d = s.cpus d := Function.update_of_ne h ..

@[simp] theorem setRing_self (s : Os α) (r : Ring) (q : UnboundedSpscQueue α) :
    (s.setRing r q).rings r = q := Function.update_self ..

theorem setRing_of_ne (s : Os α) {r r' : Ring} (q : UnboundedSpscQueue α) (h : r' ≠ r) :
    (s.setRing r q).rings r' = s.rings r' := Function.update_of_ne h ..

/-- What holds of every CPU still does when it holds of the one that changes. -/
theorem forall_setCpu {P : Nat → Cpu α → Prop} {s : Os α} {c : Nat} {cpu : Cpu α}
    (hs : ∀ d, P d (s.cpus d)) (hc : P c cpu) (d : Nat) : P d ((s.setCpu c cpu).cpus d) := by
  by_cases hd : d = c
  · subst hd
    rw [setCpu_self]
    exact hc
  · rw [setCpu_of_ne s cpu hd]
    exact hs d

theorem forall_setRing {P : Ring → UnboundedSpscQueue α → Prop} {s : Os α} {r : Ring}
    {q : UnboundedSpscQueue α} (hs : ∀ r, P r (s.rings r)) (hr : P r q) (r' : Ring) :
    P r' ((s.setRing r q).rings r') := by
  by_cases hd : r' = r
  · subst hd
    rw [setRing_self]
    exact hr
  · rw [setRing_of_ne s q hd]
    exact hs r'

end Os

/-- The poller that pops from the ring, on its consumer. -/
def Ring.poller : Ring → Poller
  | .tx i j => .ipc (.pollTx i j)
  | .rx i j => .ipc (.pollRx i j)

/-- The poller that flushes into the ring, on its producer. -/
def Ring.flusher : Ring → Poller
  | .tx i j => .ipc (.flushTx i j)
  | .rx i j => .ipc (.flushRx i j)

/-- A ring between two different CPUs of the system. -/
def Ring.Valid (cpuCount : Nat) (r : Ring) : Prop :=
  r.producer < cpuCount ∧ r.consumer < cpuCount ∧ r.producer ≠ r.consumer

theorem mem_pollQueues {cpuCount c i : Nat} (hi : i < cpuCount) (hne : i ≠ c)
    {call : PollCall}
    (h : call ∈ [PollCall.flushTx c i, .pollRx c i, .flushRx i c, .pollTx i c]) :
    call ∈ pollQueues cpuCount c := by
  refine List.mem_flatMap.mpr ⟨i, ?_, h⟩
  simp [hi, hne]

theorem mem_pollers_of_call {cpuCount c : Nat} {call : PollCall}
    (h : call ∈ pollQueues cpuCount c) : .ipc call ∈ pollers cpuCount c :=
  List.mem_append_left _ (List.mem_map_of_mem h)

theorem call_of_mem_pollers {cpuCount c : Nat} {call : PollCall}
    (h : .ipc call ∈ pollers cpuCount c) : call ∈ pollQueues cpuCount c := by
  simpa [pollers] using h

/-- Each pass polls every ring that a CPU consumes. -/
theorem Ring.Valid.poller_mem {cpuCount : Nat} {r : Ring} (h : r.Valid cpuCount) :
    r.poller ∈ pollers cpuCount r.consumer := by
  obtain ⟨hp, hc, hne⟩ := h
  cases r with
  | tx i j =>
    exact mem_pollers_of_call
      (mem_pollQueues hp hne (by simp [Ring.consumer, Ring.producer]))
  | rx i j =>
    exact mem_pollers_of_call
      (mem_pollQueues hp hne (by simp [Ring.consumer, Ring.producer]))

theorem Ring.Valid.flusher_mem {cpuCount : Nat} {r : Ring} (h : r.Valid cpuCount) :
    r.flusher ∈ pollers cpuCount r.producer := by
  obtain ⟨hp, hc, hne⟩ := h
  cases r with
  | tx i j =>
    exact mem_pollers_of_call (mem_pollQueues hc hne.symm (by simp [Ring.consumer, Ring.producer]))
  | rx i j =>
    exact mem_pollers_of_call (mem_pollQueues hc hne.symm (by simp [Ring.consumer, Ring.producer]))

theorem producer_of_mem {cpuCount c : Nat} {r : Ring} (h : r.flusher ∈ pollers cpuCount c) :
    r.producer = c := by
  cases r with
  | tx i j => exact pollQueues_cpu (call_of_mem_pollers h)
  | rx i j => exact pollQueues_cpu (call_of_mem_pollers h)

def Caller.resume : Caller α → CpuLoc α
  | .process todo ops => .process todo ops
  | .task left => .batch left

/-- The steps that change CPU `c` and nothing else, apart from the ends of a flush and the
step into `epoll_pwait`. -/
inductive CpuStep (cpuCount c : Nat) (cpu : Cpu α) : Cpu α → Prop where
  | loaded (h : cpu.loc = .load) :
      CpuStep cpuCount c cpu
        { cpu with loc := .poll (pollers cpuCount c), active := false, stalled := false }
  | sawSignals (h : cpu.loc = .load) :
      CpuStep cpuCount c cpu
        { cpu with loc := .clear cpu.pendingSignals, active := false, stalled := false }
  | cleared (signals : BitVec 64) (tasks : Nat) (h : cpu.loc = .clear signals) :
      CpuStep cpuCount c cpu
        { cpu with
          loc := .poll (pollers cpuCount c)
          active := true
          pendingSignals := cpu.pendingSignals &&& ~~~signals
          taskQueue := cpu.taskQueue + tasks }
  | idle (h : cpu.loc = .poll []) (ht : cpu.taskQueue = 0) (ha : cpu.active = false) :
      CpuStep cpuCount c cpu { cpu with loc := .mask }
  | working (h : cpu.loc = .poll []) : CpuStep cpuCount c cpu { cpu with loc := .batch 8 }
  | flushing (r : Ring) (ops : List Poller) (h : cpu.loc = .poll (r.flusher :: ops)) :
      CpuStep cpuCount c cpu { cpu with loc := .flush r 0 (.poll ops) }
  | syscalls (ops : List Poller) (tasks : Nat) (h : cpu.loc = .poll (.syscalls :: ops)) :
      CpuStep cpuCount c cpu
        { cpu with
          loc := .poll ops
          active := cpu.active || decide (0 < cpu.results)
          results := 0
          taskQueue := cpu.taskQueue + tasks }
  | fileIo (ops : List Poller) (tasks : Nat) (reaped : Bool)
      (h : cpu.loc = .poll (.fileIo :: ops)) :
      CpuStep cpuCount c cpu
        { cpu with
          loc := .poll ops
          active := cpu.active || reaped
          taskQueue := cpu.taskQueue + tasks }
  | called (item : α) (todo : List α) (ops : List Poller)
      (h : cpu.loc = .process (item :: todo) ops) :
      CpuStep cpuCount c cpu { cpu with loc := .user (.process todo ops) }
  | processed (ops : List Poller) (h : cpu.loc = .process [] ops) :
      CpuStep cpuCount c cpu { cpu with loc := .poll ops }
  | began (left : Nat) (h : cpu.loc = .batch left) :
      CpuStep cpuCount c cpu
        { cpu with loc := .user (.task (left - 1)), taskQueue := cpu.taskQueue - 1 }
  | batchEnded (left : Nat) (h : cpu.loc = .batch left) :
      CpuStep cpuCount c cpu { cpu with loc := .load }
  | masked (h : cpu.loc = .mask) : CpuStep cpuCount c cpu { cpu with loc := .test }
  | interrupted (h : cpu.loc = .test) : CpuStep cpuCount c cpu { cpu with loc := .unmask }
  | unmasked (h : cpu.loc = .unmask) : CpuStep cpuCount c cpu { cpu with loc := .load }
  | scheduled (k : Caller α) (h : cpu.loc = .user k) :
      CpuStep cpuCount c cpu { cpu with taskQueue := cpu.taskQueue + 1 }
  | returned (k : Caller α) (h : cpu.loc = .user k) :
      CpuStep cpuCount c cpu { cpu with loc := k.resume }
  | delivered (h : cpu.loc.masked = false) : CpuStep cpuCount c cpu cpu.deliver
  | alarmed : CpuStep cpuCount c cpu { cpu with sigalrm := true }
  | event (h : cpu.loc = .blocked) : CpuStep cpuCount c cpu { cpu with loc := .unmask }
  | pushedResult :
      CpuStep cpuCount c cpu { cpu with results := cpu.results + 1, unsignalled := true }
  | signalled : CpuStep cpuCount c cpu { cpu with sigalrm := true, unsignalled := false }

open Os

inductive OsStep (cpuCount : Nat) (s : Os α) : OsAct α → Os α → Prop where
  | quiet (a : OsAct α) (c : Nat) (cpu : Cpu α) (h : CpuStep cpuCount c (s.cpus c) cpu) :
      OsStep cpuCount s a (s.setCpu c cpu)
  | fellAsleep (c tasks : Nat) (reaped : Bool) (h : (s.cpus c).loc = .test)
      (hp : (s.cpus c).pendingSignals = 0) :
      OsStep cpuCount s (.go c tasks reaped) (s.setCpu c { s.cpus c with loc := .blocked })
  | pushed (a : OsAct α) (c : Nat) (k : Caller α) (r : Ring) (item : α)
      (h : (s.cpus c).loc = .user k) (hr : r.producer = c) (hv : r.Valid cpuCount) :
      OsStep cpuCount s a (s.push c k r item)
  | moved (a : OsAct α) (c : Nat) (r : Ring) (n : Nat) (k : Frame α) (q : UnboundedSpscQueue α)
      (h : (s.cpus c).loc = .flush r n k) (hq : (s.rings r).flushRound = some q) :
      OsStep cpuCount s a
        ((s.setRing r q).setCpu c { s.cpus c with loc := .flush r (n + 1) k })
  | flushed (a : OsAct α) (c : Nat) (r : Ring) (n : Nat) (k : Frame α)
      (h : (s.cpus c).loc = .flush r n k) (hq : (s.rings r).flushRound = none) :
      OsStep cpuCount s a
        (s.setCpu c ((s.cpus c).endFlush r n k !(s.rings r).queueBuffer.isEmpty))
  | woke (a : OsAct α) (c : Nat) (r : Ring) (k : Frame α) (h : (s.cpus c).loc = .wakeup r k) :
      OsStep cpuCount s a ((s.setCpu c ((s.cpus c).endWakeup k)).wakeup r.consumer)
  | popped (a : OsAct α) (c : Nat) (r : Ring) (ops : List Poller) (loc : CpuLoc α)
      (tasks : Nat) (h : (s.cpus c).loc = .poll (r.poller :: ops))
      (hloc : loc = .poll ops ∨ loc = .process (s.rings r).popBatch.1 ops) :
      OsStep cpuCount s a
        ((s.setRing r (s.rings r).popBatch.2).setCpu c
          { s.cpus c with
            loc := loc
            active := (s.cpus c).active || !(s.rings r).popBatch.1.isEmpty
            taskQueue := tasks })

namespace Os

theorem pollStep_steps {cpuCount : Nat} {s : Os α} {a : OsAct α} {c : Nat} {op : Poller}
    {ops : List Poller} (tasks : Nat) (reaped : Bool)
    (h : (s.cpus c).loc = .poll (op :: ops)) :
    OsStep cpuCount s a (s.pollStep c tasks reaped ops op) := by
  cases op with
  | ipc call =>
    cases call with
    | flushTx i j => exact .quiet a c _ (.flushing (.tx i j) ops h)
    | pollRx i j => exact .popped a c (.rx i j) ops _ _ h (.inl rfl)
    | flushRx i j => exact .quiet a c _ (.flushing (.rx i j) ops h)
    | pollTx i j => exact .popped a c (.tx i j) ops _ _ h (.inr rfl)
  | syscalls => exact .quiet a c _ (.syscalls ops tasks h)
  | fileIo => exact .quiet a c _ (.fileIo ops tasks reaped h)

theorem go_steps {cpuCount : Nat} {s t : Os α} {c tasks : Nat} {reaped : Bool}
    (h : s.go cpuCount c tasks reaped = some t) :
    OsStep cpuCount s (.go c tasks reaped) t := by
  unfold go at h
  split at h
  case h_1 hl =>
    cases h
    split
    case isTrue => exact .quiet _ c _ (.loaded hl)
    case isFalse => exact .quiet _ c _ (.sawSignals hl)
  case h_2 signals hl =>
    cases h
    exact .quiet _ c _ (.cleared signals tasks hl)
  case h_3 op ops hl =>
    cases h
    exact pollStep_steps tasks reaped hl
  case h_4 hl =>
    cases h
    split
    case isTrue hi => exact .quiet _ c _ (.idle hl hi.1 hi.2)
    case isFalse => exact .quiet _ c _ (.working hl)
  case h_5 r n k hl =>
    split at h
    case h_1 q hq =>
      cases h
      exact .moved _ c r n k q hl hq
    case h_2 hq =>
      cases h
      exact .flushed _ c r n k hl hq
  case h_6 r k hl =>
    cases h
    exact .woke _ c r k hl
  case h_7 item todo ops hl =>
    cases h
    exact .quiet _ c _ (.called item todo ops hl)
  case h_8 ops hl =>
    cases h
    exact .quiet _ c _ (.processed ops hl)
  case h_9 left hl =>
    cases h
    split
    case isTrue => exact .quiet _ c _ (.began left hl)
    case isFalse => exact .quiet _ c _ (.batchEnded left hl)
  case h_10 hl =>
    cases h
    exact .quiet _ c _ (.masked hl)
  case h_11 hl =>
    cases h
    split
    case isTrue hp => exact .fellAsleep c tasks reaped hl hp
    case isFalse => exact .quiet _ c _ (.interrupted hl)
  case h_12 hl =>
    cases h
    exact .quiet _ c _ (.unmasked hl)
  case h_13 => cases h
  case h_14 => cases h

theorem userStep_steps {cpuCount : Nat} {s t : Os α} {a : OsAct α} {c : Nat} {k : Caller α}
    (hc : c < cpuCount) (hl : (s.cpus c).loc = .user k)
    (h : s.userStep cpuCount c k a = some t) : OsStep cpuCount s a t := by
  unfold userStep at h
  split at h
  case h_1 j item =>
    obtain ⟨⟨hs, hj⟩, h⟩ := Option.ite_none_right_eq_some.mp h
    obtain ⟨hne, -⟩ := Option.ite_none_right_eq_some.mp hs
    cases h
    exact .pushed _ c k (.tx c j) item hl rfl ⟨hc, hj, hne⟩
  case h_2 i item =>
    split at h
    case h_1 =>
      obtain ⟨⟨hne, hi⟩, h⟩ := Option.ite_none_right_eq_some.mp h
      cases h
      exact .pushed _ c _ (.rx i c) item hl rfl ⟨hc, hi, hne.symm⟩
    case h_2 => cases h
  case h_3 =>
    cases h
    exact .quiet _ c _ (.scheduled k hl)
  case h_4 =>
    cases h
    cases k with
    | process todo ops => exact .quiet _ c _ (.returned (.process todo ops) hl)
    | task left => exact .quiet _ c _ (.returned (.task left) hl)
  case h_5 => cases h

theorem outerStep_steps {cpuCount : Nat} {s t : Os α} {a : OsAct α} {c : Nat}
    (h : s.outerStep c a = some t) : OsStep cpuCount s a t := by
  unfold outerStep at h
  split at h
  case h_1 =>
    obtain ⟨⟨-, hm⟩, h⟩ := Option.ite_none_right_eq_some.mp h
    cases h
    exact .quiet _ c _ (.delivered hm)
  case h_2 =>
    cases h
    exact .quiet _ c _ .alarmed
  case h_3 =>
    split at h
    case h_1 hl =>
      cases h
      exact .quiet _ c _ (.event hl)
    case h_2 => cases h
  case h_4 =>
    obtain ⟨-, h⟩ := Option.ite_none_right_eq_some.mp h
    cases h
    exact .quiet _ c _ .pushedResult
  case h_5 =>
    obtain ⟨-, h⟩ := Option.ite_none_right_eq_some.mp h
    cases h
    exact .quiet _ c _ .signalled
  case h_6 => cases h

end Os

theorem os_step_cases {cpuCount : Nat} {s t : Os α} {a : OsAct α}
    (h : (osMachine cpuCount).step s a = some t) : OsStep cpuCount s a t := by
  obtain ⟨hc, h⟩ := Option.ite_none_right_eq_some.mp h
  split at h
  case h_1 => exact Os.go_steps h
  case h_2 | h_3 | h_4 | h_5 | h_6 => exact Os.outerStep_steps h
  case h_7 | h_8 | h_9 | h_10 =>
    split at h
    case h_1 k hl => exact Os.userStep_steps hc hl h
    case h_2 => cases h

end Miniss
