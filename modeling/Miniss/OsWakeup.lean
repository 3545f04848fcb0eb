import Miniss.OsPass

/-! A CPU never sleeps through work. Whoever puts an item into one of its rings owes it a
signal until `pthread_kill`, and from then on the CPU is alert: a signal is pending or seen,
or the poller of that ring is still ahead. -/
namespace Miniss
variable {α : Type*}

/-- The CPU has put items into the ring in a flush, and has not signalled its consumer. -/
def CpuLoc.owes (r : Ring) : CpuLoc α → Prop
  | .flush q n _ => q = r ∧ 0 < n
  | .wakeup q _ => q = r
  | _ => False

/-- The producer of the ring has pushed and not yet executed its `pthread_kill`. -/
def Os.Owes (s : Os α) (r : Ring) : Prop := (s.cpus r.producer).loc.owes r

/-- A `SIGALRM` is pending for the CPU, or `dispatch_signal` has seen one. -/
def Cpu.Signalled (cpu : Cpu α) : Prop := cpu.sigalrm = true ∨ cpu.pendingSignals ≠ 0

/-- The CPU does not sleep before it calls the poller again. -/
def Cpu.Alert (op : Poller) (cpu : Cpu α) : Prop := cpu.Signalled ∨ cpu.Due op

/-- `dispatch_signal` sets the bit that the next pass looks at. -/
theorem Cpu.deliver_signalled (cpu : Cpu α) : cpu.deliver.Signalled :=
  .inr (or_sigalrmBit_ne_zero cpu.pendingSignals)

theorem CpuStep.signal {cpuCount c : Nat} {cpu cpu' : Cpu α} (h : CpuStep cpuCount c cpu cpu')
    (hs : cpu.Signalled) : cpu'.Signalled ∨ cpu'.active = true := by
  cases h
  case cleared => exact .inr rfl
  case delivered => exact .inl cpu.deliver_signalled
  case alarmed | signalled => exact .inl (.inl rfl)
  all_goals exact .inl hs

theorem CpuLoc.owes.ring {r : Ring} {loc : CpuLoc α} (h : loc.owes r) : loc.ring? ≠ none := by
  cases loc <;> first | exact h.elim | exact Option.some_ne_none _

/-- Items in the ring are on their way to the consumer's attention. -/
def Os.Covered (s : Os α) (r : Ring) : Prop :=
  s.Owes r ∨ (s.cpus r.consumer).Alert r.poller

/-- Results in the ring of the syscall worker are on their way to the CPU's attention. -/
def Cpu.Answered (cpu : Cpu α) : Prop :=
  cpu.results = 0 ∨ cpu.unsignalled = true ∨ cpu.Alert .syscalls

structure Os.Watched (s : Os α) : Prop where
  rings : ∀ r, (s.rings r).queue.items ≠ [] → s.Covered r
  results : ∀ c, (s.cpus c).Answered

open Os

theorem os_init_watched {cpuCount : Nat} :
    (osMachine cpuCount : Machine (Os α) _).init.Watched := by
  refine ⟨fun r hr => absurd rfl hr, fun c => ?_⟩
  change (if c = 0 then Cpu.init 1 else Cpu.init 0 : Cpu α).Answered
  split <;> exact .inl rfl

theorem OsStep.signal {cpuCount : Nat} {s t : Os α} {a : OsAct α} (h : OsStep cpuCount s a t)
    {d : Nat} (hs : (s.cpus d).Signalled) : (t.cpus d).Signalled ∨ (t.cpus d).active = true := by
  let P : Nat → Cpu α → Prop := fun d cpu =>
    (s.cpus d).Signalled → cpu.Signalled ∨ cpu.active = true
  suffices hall : ∀ d, P d (t.cpus d) from hall d hs
  have hsame : ∀ d, P d (s.cpus d) := fun _ => .inl
  cases h
  case quiet c cpu hstep => exact forall_setCpu (P := P) hsame hstep.signal
  case woke c r k hl =>
    exact forall_setCpu (P := P) (forall_setCpu hsame .inl) fun _ => .inl (.inl rfl)
  all_goals exact forall_setCpu (P := P) hsame .inl

theorem OsStep.alert {cpuCount : Nat} {s t : Os α} {a : OsAct α} {op : Poller}
    (h : OsStep cpuCount s a t) {d : Nat} (hop : op ∈ pollers cpuCount d)
    (ha : (s.cpus d).Alert op) : (t.cpus d).Alert op ∨ (t.cpus d).Polled t.rings op := by
  obtain hs | hd := ha
  · exact .inl ((h.signal hs).imp id .inl)
  · exact (h.due hop hd).imp_left .inr

/-- What a CPU owes for a ring it still owes, or the signal is pending for the consumer. -/
theorem OsStep.owes {cpuCount : Nat} {s t : Os α} {a : OsAct α} {r : Ring}
    (h : OsStep cpuCount s a t) (ho : s.Owes r) :
    t.Owes r ∨ (t.cpus r.consumer).sigalrm = true := by
  let P : Nat → Cpu α → Prop := fun d cpu =>
    (s.cpus d).loc.owes r → cpu.loc.owes r ∨ (t.cpus r.consumer).sigalrm = true
  suffices hall : ∀ d, P d (t.cpus d) from hall r.producer ho
  have hsame : ∀ d, P d (s.cpus d) := fun _ => .inl
  cases h
  case quiet c cpu hstep =>
    refine forall_setCpu (P := P) hsame fun ho => .inl ?_
    rw [hstep.loc_of_ring ho.ring]
    exact ho
  case fellAsleep c tasks reaped hl hp =>
    refine forall_setCpu (P := P) hsame fun ho => ?_
    rw [hl] at ho
    exact ho.elim
  case pushed c k r' item hl _ _ =>
    refine forall_setCpu (P := P) (s := s.setRing r' _) hsame fun ho => ?_
    rw [hl] at ho
    exact ho.elim
  case moved c r' n k q hl hq =>
    refine forall_setCpu (P := P) (s := s.setRing r' _) hsame fun ho => ?_
    rw [hl] at ho
    exact .inl ⟨ho.1, Nat.succ_pos n⟩
  case flushed c r' n k hl hq =>
    refine forall_setCpu (P := P) hsame fun ho => .inl ?_
    rw [hl] at ho
    rw [Cpu.endFlush, if_pos ho.2]
    exact ho.1
  case woke c r' k hl =>
    have hw : P c ((s.cpus c).endWakeup k) := by
      intro ho
      rw [hl] at ho
      obtain rfl : r' = r := ho
      right
      rw [wakeup, setCpu_self]
    exact forall_setCpu (P := P) (forall_setCpu hsame hw) (forall_setCpu hsame hw r'.consumer)
  case popped c r' ops loc tasks hl hloc =>
    refine forall_setCpu (P := P) (s := s.setRing r' _) hsame fun ho => ?_
    rw [hl] at ho
    exact ho.elim

/-- Whoever puts an item into a ring owes its consumer a signal. -/
theorem OsStep.items {cpuCount : Nat} {s t : Os α} {a : OsAct α} {r : Ring}
    (h : OsStep cpuCount s a t) (hs : s.Sound cpuCount) (hi : (t.rings r).queue.items ≠ []) :
    (s.rings r).queue.items ≠ [] ∨ t.Owes r := by
  cases h
  case quiet | fellAsleep | flushed | woke => exact .inl hi
  case pushed c k r' item _ _ _ =>
    left
    exact forall_setRing (s := s) (q := ((s.rings r').push item).1)
      (P := fun r q => q.queue.items ≠ [] → (s.rings r).queue.items ≠ []) (fun _ => id) id r hi
  case moved c r' n k q hl hq =>
    by_cases hd : r = r'
    · subst hd
      have hprod : r.producer = c := (hs.cpus c).ring r (by rw [hl]; rfl)
      right
      rw [Owes, hprod, setCpu_self]
      exact ⟨rfl, Nat.succ_pos n⟩
    · rw [setCpu_rings, setRing_of_ne s q hd] at hi
      exact .inl hi
  case popped c r' ops loc tasks _ _ =>
    left
    exact forall_setRing (s := s)
      (P := fun r q => q.queue.items ≠ [] → (s.rings r).queue.items ≠ []) (fun _ => id)
      UnboundedSpscQueue.items_of_popBatch r hi

theorem CpuStep.answered {cpuCount c : Nat} {cpu cpu' : Cpu α} (h : CpuStep cpuCount c cpu cpu')
    (ha : cpu.results = 0 ∨ cpu.unsignalled = true) : cpu'.Answered := by
  cases h
  case syscalls => exact .inl rfl
  case pushedResult => exact .inr (.inl rfl)
  case signalled => exact .inr (.inr (.inl (.inl rfl)))
  all_goals exact ha.imp id .inl

theorem OsStep.answered {cpuCount : Nat} {s t : Os α} {a : OsAct α} (h : OsStep cpuCount s a t)
    {d : Nat} (ha : (s.cpus d).Answered) : (t.cpus d).Answered := by
  obtain ha | ha := or_assoc.mpr ha
  · let P : Nat → Cpu α → Prop := fun d cpu =>
      (s.cpus d).results = 0 ∨ (s.cpus d).unsignalled = true → cpu.Answered
    have hsame : ∀ d, P d (s.cpus d) := fun _ ha => ha.imp id .inl
    suffices hall : ∀ d, P d (t.cpus d) from hall d ha
    cases h
    case quiet c cpu hstep => exact forall_setCpu (P := P) hsame fun ha => hstep.answered ha
    case woke c r k hl =>
      exact forall_setCpu (P := P) (forall_setCpu hsame fun ha => ha.imp id .inl)
        fun _ => .inr (.inr (.inl (.inl rfl)))
    all_goals exact forall_setCpu (P := P) hsame fun ha => ha.imp id .inl
  · have hmem : Poller.syscalls ∈ pollers cpuCount d := by simp [pollers]
    obtain ha | hz := h.alert hmem ha
    · exact .inr (.inr ha)
    · exact .inl hz

theorem Os.Watched.step {cpuCount : Nat} {s t : Os α} {a : OsAct α} (h : OsStep cpuCount s a t)
    (hs : s.Sound cpuCount) (hw : s.Watched) : t.Watched := by
  refine ⟨fun r hi => ?_, fun c => h.answered (hw.results c)⟩
  obtain hsi | ho := h.items hs hi
  · obtain ho | ha := hw.rings r hsi
    · obtain ho | hsig := h.owes ho
      · exact .inl ho
      · exact .inr (.inl (.inl hsig))
    · have hv : r.Valid cpuCount := hs.rings r fun he => hsi (List.append_eq_nil_iff.mp he).1
      obtain ha | hnil := h.alert hv.poller_mem ha
      · exact .inr ha
      · exact absurd (Cpu.polled_poller.mp hnil) hi
  · exact .inl ho

theorem os_watched {cpuCount : Nat} {as : List (OsAct α)} {s : Os α}
    (h : (osMachine cpuCount).Reaches as s) : s.Watched := by
  refine h.invariant_of (fun _ _ => os_sound) os_init_watched ?_
  intro s a t hs hw hst
  exact hw.step (os_step_cases hst) hs

theorem Cpu.Sound.not_alert {cpuCount c : Nat} {cpu : Cpu α} (h : cpu.Sound cpuCount c)
    (hl : cpu.loc = .blocked) (hp : cpu.pendingSignals = 0) (hs : cpu.sigalrm = false)
    (op : Poller) : ¬cpu.Alert op := by
  have ha := (h.idle (by rw [hl]; rfl)).2
  simp [Cpu.Alert, Cpu.Signalled, Cpu.Due, hs, hp, ha, hl, CpuLoc.ahead, CpuLoc.ops,
    CpuLoc.restarts]

/-- In every interleaving, a CPU that is blocked in `epoll_pwait` with no signal seen or
pending has no task, and each of its inbound rings is empty or its producer has pushed and
not yet executed its `pthread_kill`. -/
theorem never_sleeps_through_work {cpuCount : Nat} {as : List (OsAct α)} {s : Os α}
    (h : (osMachine cpuCount).Reaches as s) {c : Nat} (hl : (s.cpus c).loc = .blocked)
    (hp : (s.cpus c).pendingSignals = 0) (hs : (s.cpus c).sigalrm = false) :
    (s.cpus c).taskQueue = 0 ∧
      (∀ i, (s.rings (.tx i c)).queue.items = [] ∨ s.Owes (.tx i c)) ∧
      (∀ j, (s.rings (.rx c j)).queue.items = [] ∨ s.Owes (.rx c j)) ∧
      ((s.cpus c).results = 0 ∨ (s.cpus c).unsignalled = true) := by
  have hsound := (os_sound h).cpus c
  have hdeaf := hsound.not_alert hl hp hs
  have hring : ∀ r : Ring, r.consumer = c → (s.rings r).queue.items = [] ∨ s.Owes r := by
    intro r hc
    by_cases hi : (s.rings r).queue.items = []
    · exact .inl hi
    · obtain ho | ha := (os_watched h).rings r hi
      · exact .inr ho
      · exact absurd (hc ▸ ha) (hdeaf r.poller)
  refine ⟨(hsound.idle (by rw [hl]; rfl)).1, fun i => hring _ rfl, fun j => hring _ rfl, ?_⟩
  obtain hz | hu | ha := (os_watched h).results c
  · exact .inl hz
  · exact .inr hu
  · exact absurd ha (hdeaf _)

/-- CPU 1 goes to sleep, and CPU 0 has moved the first of eight items into its ring. -/
def owedRun : List (OsAct Nat) :=
  List.replicate 13 (.go 1 0 false) ++ List.replicate 12 (.go 0 0 false) ++
    (List.range 8).map (.submit 0 1) ++ [.go 0 0 false]

theorem never_sleeps_through_work_owed : ∃ s : Os Nat,
    (osMachine 2).Reaches owedRun s ∧
      (s.cpus 1).loc = .blocked ∧ (s.rings (.tx 0 1)).queue.items = [0] ∧
      (s.cpus 1).taskQueue = 0 ∧ s.Owes (.tx 0 1) := by
  have hrun : (((osMachine 2).exec .init owedRun).map fun s =>
      ((s.cpus 1).loc, (s.cpus 1).pendingSignals, (s.cpus 1).sigalrm,
        (s.rings (.tx 0 1)).queue.items)) = some (.blocked, 0, false, [0]) := by
    decide +kernel
  obtain ⟨s, hs, he⟩ := Option.map_eq_some_iff.mp hrun
  simp only [Prod.mk.injEq] at he
  obtain ⟨hl, hp, hsig, hitems⟩ := he
  obtain ⟨ht, htx, -, -⟩ := never_sleeps_through_work hs hl hp hsig
  have hne : (s.rings (.tx 0 1)).queue.items ≠ [] := by simp [hitems]
  exact ⟨s, hs, hl, hitems, ht, (htx 0).resolve_left hne⟩

end Miniss
