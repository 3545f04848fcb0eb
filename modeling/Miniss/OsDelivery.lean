import Miniss.OsWakeup
import Miniss.OsRuns

/-! When all CPUs sleep, nothing is left to be sent between them, except behind a ring that
was full in the last flush: nobody signals the producer of a ring that drains. -/
namespace Miniss
variable {α : Type*}

/-- Every CPU is blocked in `run_idle_proc_` and no `SIGALRM` is pending. A thread that has
just flushed is not blocked, so that none is still to be sent. -/
def Os.Quiescent (cpuCount : Nat) (s : Os α) : Prop :=
  ∀ c < cpuCount, (s.cpus c).loc = .blocked ∧ (s.cpus c).sigalrm = false

/-- No item is left in a `queue_buffer`. -/
def Os.Delivered (s : Os α) : Prop := ∀ r, (s.rings r).queueBuffer = []

/-- A CPU does not go to sleep after a pass in which one of its flushes found the ring full
with items left over. -/
def SleepsFlushed (s : Os α) : OsAct α → Prop
  | .go c _ _ =>
    (s.cpus c).loc = .test → (s.cpus c).pendingSignals = 0 → (s.cpus c).stalled = false
  | _ => True

instance SleepsFlushed.decidable [DecidableEq α] (s : Os α) : ∀ a, Decidable (SleepsFlushed s a)
  | .go c _ _ => inferInstanceAs (Decidable ((s.cpus c).loc = .test →
      (s.cpus c).pendingSignals = 0 → (s.cpus c).stalled = false))
  | .submit _ _ _ | .respond _ _ _ | .schedule _ | .done _ | .deliver _ | .timer _ | .event _
  | .pushResult _ | .signal _ => isTrue trivial

/-- The CPU has found the ring full in this pass, is flushing it, or will flush it before it
can sleep. -/
def Cpu.Minds (r : Ring) (cpu : Cpu α) : Prop :=
  cpu.stalled = true ∨ cpu.loc.flushes r ∨ cpu.Due r.flusher

/-- Whatever user code a CPU runs, a pass follows. -/
theorem Cpu.Sound.busy_of_user {cpuCount c : Nat} {cpu : Cpu α} (h : cpu.Sound cpuCount c)
    {k : Caller α} (hl : cpu.loc = .user k) : cpu.active = true ∨ k.inBatch = true := by
  cases k with
  | process todo ops => exact .inl (h.serving (by rw [hl]; rfl))
  | task left => exact .inr rfl

theorem Cpu.Sound.due_of_user {cpuCount c : Nat} {cpu : Cpu α} (h : cpu.Sound cpuCount c)
    {k : Caller α} (hl : cpu.loc = .user k) (op : Poller) : cpu.Due op := by
  obtain ha | hk := h.busy_of_user hl
  · exact .inl ha
  · exact .of_restarts (by rw [hl]; exact hk)

/-- A flush ends with an empty buffer, or with the ring found full by the pass. -/
theorem Cpu.Sound.minds_endFlush {cpuCount c : Nat} {cpu : Cpu α} (h : cpu.Sound cpuCount c)
    {r : Ring} {n : Nat} {k : Frame α} (hl : cpu.loc = .flush r n k) :
    (cpu.endFlush r n k true).Minds r := by
  cases k with
  | poll ops => exact .inl (by simp [Cpu.endFlush, Frame.isPoll])
  | user k =>
    refine .inr (.inr ?_)
    cases k with
    | process todo ops => exact .inl (h.serving (by rw [hl]; rfl))
    | task left => exact .inr (Cpu.endFlush_ahead hl (.inr (by rw [hl]; rfl)))

open Os

theorem CpuStep.stalled {cpuCount c : Nat} {cpu cpu' : Cpu α} {op : Poller}
    (h : CpuStep cpuCount c cpu cpu') (hop : op ∈ pollers cpuCount c)
    (hs : cpu.stalled = true) : cpu'.stalled = true ∨ cpu'.Due op := by
  cases h
  case loaded => exact .inr (.inr (.inl hop))
  case sawSignals => exact .inr (.of_restarts rfl)
  all_goals exact .inl hs

theorem CpuLoc.flushes.ring {r : Ring} {loc : CpuLoc α} (h : loc.flushes r) :
    loc.ring? ≠ none := by
  cases loc <;> first | exact h.elim | exact Option.some_ne_none _

/-- A new pass flushes whatever the last one could not. -/
theorem OsStep.stalled {cpuCount : Nat} {s t : Os α} {a : OsAct α} {op : Poller}
    (h : OsStep cpuCount s a t) {d : Nat} (hop : op ∈ pollers cpuCount d)
    (hs : (s.cpus d).stalled = true) : (t.cpus d).stalled = true ∨ (t.cpus d).Due op := by
  let P : Nat → Cpu α → Prop := fun d cpu =>
    op ∈ pollers cpuCount d → (s.cpus d).stalled = true → cpu.stalled = true ∨ cpu.Due op
  suffices hall : ∀ d, P d (t.cpus d) from hall d hop hs
  have hsame : ∀ d, P d (s.cpus d) := fun _ _ => .inl
  cases h
  case quiet c cpu hstep => exact forall_setCpu (P := P) hsame hstep.stalled
  case flushed c r n k hl hq =>
    exact forall_setCpu (P := P) hsame fun _ hs => .inl (by simp [Cpu.endFlush, hs])
  case woke c r k hl =>
    have hw : P c ((s.cpus c).endWakeup k) := fun _ => .inl
    exact forall_setCpu (P := P) (forall_setCpu hsame hw) (forall_setCpu hsame hw r.consumer)
  all_goals exact forall_setCpu (P := P) hsame fun _ => .inl

/-- The loop of a flush goes on, or its end leaves nothing that is forgotten. -/
theorem OsStep.flushes {cpuCount : Nat} {s t : Os α} {a : OsAct α} {r : Ring}
    (h : OsStep cpuCount s a t) (hs : s.Sound cpuCount) (hb : (t.rings r).queueBuffer ≠ [])
    {d : Nat} (hf : (s.cpus d).loc.flushes r) : (t.cpus d).Minds r := by
  let P : Nat → Cpu α → Prop := fun d cpu => (s.cpus d).loc.flushes r → cpu.Minds r
  suffices hall : ∀ d, P d (t.cpus d) from hall d hf
  have hsame : ∀ d, P d (s.cpus d) := fun _ hf => .inr (.inl hf)
  cases h
  case quiet c cpu hstep =>
    refine forall_setCpu (P := P) hsame fun hf => .inr (.inl ?_)
    rw [hstep.loc_of_ring hf.ring]
    exact hf
  case moved c r' n k q hl hq =>
    refine forall_setCpu (P := P) (s := s.setRing r' q) hsame fun hf => .inr (.inl ?_)
    rw [hl] at hf
    exact hf
  case flushed c r' n k hl hq =>
    refine forall_setCpu (P := P) hsame fun hf => ?_
    rw [hl] at hf
    obtain rfl : r' = r := hf
    have hleft : (s.rings r').queueBuffer.isEmpty = false := by simpa using hb
    rw [hleft]
    exact (hs.cpus c).minds_endFlush hl
  case woke c r' k hl =>
    have hw : P c ((s.cpus c).endWakeup k) := fun hf => by rw [hl] at hf; exact hf.elim
    exact forall_setCpu (P := P) (forall_setCpu hsame hw) (forall_setCpu hsame hw r'.consumer)
  case fellAsleep c _ _ hl _ =>
    exact forall_setCpu (P := P) hsame fun hf => by rw [hl] at hf; exact hf.elim
  case pushed c k r' item hl _ _ =>
    exact forall_setCpu (P := P) (s := s.setRing r' _) hsame fun hf => by
      rw [hl] at hf
      exact hf.elim
  case popped c r' ops loc tasks hl hloc =>
    exact forall_setCpu (P := P) (s := s.setRing r' _) hsame fun hf => by
      rw [hl] at hf
      exact hf.elim

theorem OsStep.buffer {cpuCount : Nat} {s t : Os α} {a : OsAct α} {r : Ring}
    (h : OsStep cpuCount s a t) (hs : s.Sound cpuCount) (hb : (t.rings r).queueBuffer ≠ []) :
    (s.rings r).queueBuffer ≠ [] ∨ ∀ op, (s.cpus r.producer).Due op := by
  cases h
  case quiet | fellAsleep | flushed | woke => exact .inl hb
  case pushed c k r' item hl hp _ =>
    by_cases hd : r = r'
    · subst hd
      rw [hp]
      exact .inr ((hs.cpus c).due_of_user hl)
    · left
      rw [← setRing_of_ne s ((s.rings r').push item).1 hd]
      exact hb
  case moved c r' n k q hl hq =>
    left
    refine forall_setRing (s := s)
      (P := fun r q => q.queueBuffer ≠ [] → (s.rings r).queueBuffer ≠ []) (fun _ => id)
      (fun _ => ?_) r hb
    obtain ⟨item, hcons, -⟩ := UnboundedSpscQueue.flushRound_eq_some hq
    simp [hcons]
  case popped c r' ops loc tasks _ _ =>
    left
    exact forall_setRing (s := s) (q := (s.rings r').popBatch.2)
      (P := fun r q => q.queueBuffer ≠ [] → (s.rings r).queueBuffer ≠ []) (fun _ => id) id r hb

/-- Nothing that is left in a buffer is forgotten. -/
def Os.Minded (s : Os α) : Prop :=
  ∀ r, (s.rings r).queueBuffer ≠ [] → (s.cpus r.producer).Minds r

theorem Os.Minded.step {cpuCount : Nat} {s t : Os α} {a : OsAct α} (h : OsStep cpuCount s a t)
    (hs : s.Sound cpuCount) (hm : s.Minded) : t.Minded := by
  intro r hb
  have hne : (t.rings r).contents ≠ [] := fun he => hb (List.append_eq_nil_iff.mp he).2
  have hop := ((hs.step h).rings r hne).flusher_mem
  have hdue : (s.cpus r.producer).Due r.flusher → (t.cpus r.producer).Minds r := by
    intro hd
    obtain hd | hp := h.due hop hd
    · exact .inr (.inr hd)
    · exact .inr (.inl (Cpu.polled_flusher.mp hp))
  obtain hsb | hd := h.buffer hs hb
  · obtain hstalled | hf | hd := hm r hsb
    · obtain hstalled | hd := h.stalled hop hstalled
      · exact .inl hstalled
      · exact .inr (.inr hd)
    · exact h.flushes hs hb hf
    · exact hdue hd
  · exact hdue (hd _)

theorem Cpu.Minds.stalled {cpuCount c : Nat} {cpu : Cpu α} {r : Ring} (h : cpu.Minds r)
    (hs : cpu.Sound cpuCount c) (hl : cpu.loc = .blocked) : cpu.stalled = true := by
  have ha := (hs.idle (by rw [hl]; rfl)).2
  simpa [Cpu.Minds, Cpu.Due, ha, hl, CpuLoc.flushes, CpuLoc.ahead, CpuLoc.ops, CpuLoc.restarts]
    using h

/-- The CPU sleeps with all its rings flushed. -/
def Cpu.Rested (cpu : Cpu α) : Prop := cpu.loc = .blocked → cpu.stalled = false

theorem Cpu.Rested.of_not_idle {cpu : Cpu α} (h : cpu.loc.idle = false) : cpu.Rested :=
  fun hl => by rw [hl] at h; cases h

theorem CpuStep.rested {cpuCount c : Nat} {cpu cpu' : Cpu α} (h : CpuStep cpuCount c cpu cpu')
    (hr : cpu.Rested) : cpu'.Rested := by
  cases h
  case delivered =>
    by_cases hb : cpu.loc = .blocked
    · exact .of_not_idle (by simp [Cpu.deliver, hb, CpuLoc.idle])
    · exact fun hl => absurd (Cpu.deliver_loc hb ▸ hl) hb
  case alarmed | pushedResult | signalled | scheduled => exact hr
  case returned k hl => exact .of_not_idle (by simp)
  all_goals exact fun hl => by cases hl

theorem OsStep.rested {cpuCount : Nat} {s t : Os α} {a : OsAct α} (h : OsStep cpuCount s a t)
    (hc : SleepsFlushed s a) (hr : ∀ c, (s.cpus c).Rested) :
    ∀ c, (t.cpus c).Rested := by
  cases h
  case quiet c cpu hstep => exact forall_setCpu (P := fun _ => Cpu.Rested) hr (hstep.rested (hr c))
  case fellAsleep c tasks reaped hl hp =>
    exact forall_setCpu (P := fun _ => Cpu.Rested) hr fun _ => hc hl hp
  case pushed c k r item hl _ _ =>
    refine forall_setCpu (P := fun _ => Cpu.Rested) (s := s.setRing r _) hr (.of_not_idle ?_)
    split <;> rfl
  case moved c r n k q hl hq =>
    exact forall_setCpu (P := fun _ => Cpu.Rested) (s := s.setRing r _) hr (.of_not_idle rfl)
  case flushed c r n k hl hq =>
    exact forall_setCpu (P := fun _ => Cpu.Rested) hr (.of_not_idle (Cpu.endFlush_idle ..))
  case woke c r k hl =>
    have hw : ((s.cpus c).endWakeup k).Rested := .of_not_idle (by simp [Cpu.endWakeup])
    have hall := forall_setCpu (P := fun _ => Cpu.Rested) (c := c) hr hw
    exact forall_setCpu (P := fun _ => Cpu.Rested) hall (hall r.consumer)
  case popped c r ops loc tasks hl hloc =>
    refine forall_setCpu (P := fun _ => Cpu.Rested) (s := s.setRing r _) hr (.of_not_idle ?_)
    obtain rfl | rfl := hloc <;> rfl

theorem os_init_minded {cpuCount : Nat} : (osMachine cpuCount : Machine (Os α) _).init.Minded :=
  fun _ hb => absurd rfl hb

theorem os_init_rested (c : Nat) : ((Os.init : Os α).cpus c).Rested := by
  change (if c = 0 then Cpu.init 1 else Cpu.init 0 : Cpu α).Rested
  split <;> exact .of_not_idle rfl

theorem os_minded {cpuCount : Nat} {as : List (OsAct α)} {s : Os α}
    (h : (osMachine cpuCount).Reaches as s) : s.Minded := by
  refine h.invariant_of (fun _ _ => os_sound) os_init_minded ?_
  intro s a t hs hm hst
  exact hm.step (os_step_cases hst) hs

/-- In a quiescent state, items are left in buffers only behind CPUs that found a ring full. -/
theorem Os.Quiescent.delivered {cpuCount : Nat} {s : Os α} (hq : s.Quiescent cpuCount)
    (hs : s.Sound cpuCount) (hm : s.Minded) (hr : ∀ c < cpuCount, (s.cpus c).stalled = false) :
    s.Delivered := by
  intro r
  by_contra hb
  have hv := hs.rings r fun he => hb (List.append_eq_nil_iff.mp he).2
  have hst := (hm r hb).stalled (hs.cpus _) (hq _ hv.1).1
  rw [hr _ hv.1] at hst
  cases hst

/-- Quiescence implies delivery in every run in which no CPU goes to sleep after a pass
that found a ring full with items left over. -/
theorem quiescent_delivered {cpuCount : Nat} {as : List (OsAct α)}
    (h : (osMachine cpuCount).Meets SleepsFlushed .init as) :
    (osMachine cpuCount).Throughout (fun s => s.Quiescent cpuCount → s.Delivered) .init as := by
  have hI := Machine.throughout_of_meets (M := osMachine cpuCount) (C := SleepsFlushed)
    (I := fun s : Os α => s.Sound cpuCount ∧ s.Minded ∧ ∀ c, (s.cpus c).Rested) ?_
    ⟨os_init_sound, os_init_minded, os_init_rested⟩ h
  · intro pre suf s he hs hq
    obtain ⟨hsound, hm, hr⟩ := hI pre suf s he hs
    exact hq.delivered hsound hm fun c hc => hr c (hq c hc).1
  · rintro s a t ⟨hs, hm, hr⟩ hc hst
    have hstep := os_step_cases hst
    exact ⟨hs.step hstep, hm.step hstep hs, hstep.rested hc hr⟩

/-- CPU 0 sends one function to CPU 1, which sends its response back. -/
def callRun : List (OsAct Nat) :=
  List.replicate 12 (.go 0 0 false) ++ .submit 0 1 5 :: .done 0 ::
    List.replicate 28 (.go 0 0 false) ++ .deliver 1 :: List.replicate 9 (.go 1 0 false) ++
    .schedule 1 :: .done 1 :: List.replicate 5 (.go 1 0 false) ++ .respond 1 0 5 :: .done 1 ::
    List.replicate 28 (.go 1 0 false) ++ .deliver 0 :: List.replicate 27 (.go 0 0 false)

theorem quiescent_delivered_call : ∃ s : Os Nat,
    (osMachine 2).Reaches callRun s ∧ s.Quiescent 2 ∧ s.Delivered := by
  have hmeets : (osMachine 2).Meets SleepsFlushed .init callRun := by decide +kernel
  have hrun : (((osMachine 2).exec .init callRun).map fun s => ((s.cpus 0).loc,
      (s.cpus 0).sigalrm, (s.cpus 1).loc, (s.cpus 1).sigalrm)) =
      some (.blocked, false, .blocked, false) := by decide +kernel
  obtain ⟨s, hs, he⟩ := Option.map_eq_some_iff.mp hrun
  simp only [Prod.mk.injEq] at he
  obtain ⟨hl₀, hs₀, hl₁, hs₁⟩ := he
  have hq : s.Quiescent 2 := by
    intro c hc
    obtain rfl | rfl : c = 0 ∨ c = 1 := by omega
    · exact ⟨hl₀, hs₀⟩
    · exact ⟨hl₁, hs₁⟩
  exact ⟨s, hs, hq, quiescent_delivered hmeets callRun [] s (List.append_nil _).symm hs hq⟩

/-- The CPU has found something in this pass, will start a new one, or is about to signal. -/
def Cpu.Busy (cpu : Cpu α) : Prop :=
  cpu.active = true ∨ cpu.loc.restarts = true ∨ ∃ r, cpu.loc.owes r

def Os.Left (s : Os α) (c : Nat) : Prop := ∃ r : Ring, r.producer = c ∧ (s.rings r).queueBuffer ≠ []

/-- A CPU that has found a ring full in this pass will not sleep, or has items left. -/
def Os.Jammed (s : Os α) (c : Nat) (cpu : Cpu α) : Prop :=
  cpu.stalled = true → cpu.Busy ∨ s.Left c

theorem Cpu.Busy.active {cpu : Cpu α} (h : cpu.Busy) (hl : cpu.loc.restarts = false)
    (hr : cpu.loc.ring? = none) : cpu.active = true := by
  obtain ha | hl' | ⟨r, ho⟩ := h
  · exact ha
  · rw [hl] at hl'
    cases hl'
  · exact absurd hr ho.ring

theorem CpuStep.busy {cpuCount c : Nat} {cpu cpu' : Cpu α} (h : CpuStep cpuCount c cpu cpu')
    (hst : cpu'.stalled = true) (hb : cpu.Busy) : cpu'.Busy := by
  cases h
  case loaded | sawSignals => cases hst
  case cleared => exact .inl rfl
  case working | batchEnded | interrupted | unmasked | event | began => exact .inr (.inl rfl)
  case idle hl _ ha => exact absurd (hb.active (by rw [hl]; rfl) (by rw [hl]; rfl)) (by simp [ha])
  case masked hl | flushing hl | called hl | processed hl =>
    exact .inl (hb.active (by rw [hl]; rfl) (by rw [hl]; rfl))
  case syscalls hl =>
    exact .inl (by simp [hb.active (by rw [hl]; rfl) (by rw [hl]; rfl)])
  case fileIo hl =>
    exact .inl (by simp [hb.active (by rw [hl]; rfl) (by rw [hl]; rfl)])
  case returned k hl =>
    cases k with
    | process todo ops => exact .inl (hb.active (by rw [hl]; rfl) (by rw [hl]; rfl))
    | task left => exact .inr (.inl rfl)
  case delivered =>
    by_cases hblocked : cpu.loc = .blocked
    · exact .inr (.inl (by simp [Cpu.deliver, hblocked, CpuLoc.restarts]))
    · rw [Cpu.Busy, Cpu.deliver_loc hblocked]
      exact hb
  case scheduled | alarmed | pushedResult | signalled => exact hb

theorem CpuStep.stalled_of {cpuCount c : Nat} {cpu cpu' : Cpu α} (h : CpuStep cpuCount c cpu cpu')
    (hst : cpu'.stalled = true) : cpu.stalled = true := by
  cases h
  case loaded | sawSignals => cases hst
  all_goals exact hst

theorem Cpu.Busy.endFlush {cpu : Cpu α} {r : Ring} {n : Nat} {k : Frame α} (h : cpu.Busy)
    (hl : cpu.loc = .flush r n k) (left : Bool) : (cpu.endFlush r n k left).Busy := by
  rw [Cpu.Busy, hl] at h
  obtain ha | hk | ⟨r', ho⟩ := h
  · exact .inl ha
  · exact .inr (.inl (Cpu.endFlush_restarts hk))
  · refine .inr (.inr ⟨r', ?_⟩)
    rw [Cpu.endFlush, if_pos ho.2]
    exact ho.1

/-- A flush that has signalled makes the pass active. -/
theorem Cpu.Sound.busy_endWakeup {cpuCount c : Nat} {cpu : Cpu α} (h : cpu.Sound cpuCount c)
    {r : Ring} {k : Frame α} (hl : cpu.loc = .wakeup r k) : (cpu.endWakeup k).Busy := by
  cases k with
  | poll ops => exact .inl (by simp [Cpu.endWakeup, Frame.isPoll])
  | user k =>
    cases k with
    | process todo ops => exact .inl (by simp [Cpu.endWakeup, h.serving (by rw [hl]; rfl)])
    | task left => exact .inr (.inl rfl)

theorem OsStep.jammed {cpuCount : Nat} {s t : Os α} {a : OsAct α} (h : OsStep cpuCount s a t)
    (hs : s.Sound cpuCount) (hj : ∀ c, s.Jammed c (s.cpus c)) : ∀ c, t.Jammed c (t.cpus c) := by
  cases h
  case quiet c cpu hstep =>
    refine forall_setCpu (P := s.Jammed) hj fun hst => ?_
    exact (hj c (hstep.stalled_of hst)).imp_left (hstep.busy hst)
  case fellAsleep c tasks reaped hl hp =>
    refine forall_setCpu (P := s.Jammed) hj fun hst => (hj c hst).imp_left fun hb => ?_
    exact .inl (hb.active (by rw [hl]; rfl) (by rw [hl]; rfl))
  case pushed c k r item hl hp _ =>
    have hleft : ∀ d, s.Left d → (s.push c k r item).Left d := by
      rintro d ⟨r', hd, hne⟩
      refine ⟨r', hd, ?_⟩
      exact forall_setRing (s := s) (q := ((s.rings r).push item).1)
        (P := fun r q => (s.rings r).queueBuffer ≠ [] → q.queueBuffer ≠ []) (fun _ => id)
        (fun _ => by simp [UnboundedSpscQueue.push]) r' hne
    have hall : ∀ d, (s.push c k r item).Jammed d (s.cpus d) :=
      fun d hst => (hj d hst).imp_right (hleft d)
    refine forall_setCpu (P := (s.push c k r item).Jammed) (s := s.setRing r _) hall
      fun _ => .inl ?_
    obtain ha | hk := (hs.cpus c).busy_of_user hl
    · exact .inl ha
    · refine .inr (.inl ?_)
      split <;> exact hk
  case moved c r n k q hl hq =>
    have hp : r.producer = c := (hs.cpus c).ring r (by rw [hl]; rfl)
    intro d hst
    by_cases hd : d = c
    · subst hd
      refine .inl (.inr (.inr ⟨r, ?_⟩))
      rw [setCpu_self]
      exact ⟨rfl, Nat.succ_pos n⟩
    · rw [setCpu_of_ne _ _ hd] at hst ⊢
      refine (hj d hst).imp_right ?_
      rintro ⟨r', hr', hne⟩
      have hne' : r' ≠ r := fun he => hd (by rw [← hr', he, hp])
      refine ⟨r', hr', ?_⟩
      rw [setCpu_rings, setRing_of_ne s q hne']
      exact hne
  case flushed c r n k hl hq =>
    refine forall_setCpu (P := s.Jammed) hj fun hst => ?_
    by_cases he : (s.rings r).queueBuffer = []
    · have hst' : (s.cpus c).stalled = true := by simpa [Cpu.endFlush, he] using hst
      exact (hj c hst').imp_left fun hb => hb.endFlush hl _
    · exact .inr ⟨r, (hs.cpus c).ring r (by rw [hl]; rfl), he⟩
  case woke c r k hl =>
    have hw : ∀ d, s.Jammed d ((s.setCpu c ((s.cpus c).endWakeup k)).cpus d) :=
      forall_setCpu (P := s.Jammed) hj fun _ => .inl ((hs.cpus c).busy_endWakeup hl)
    exact forall_setCpu (P := s.Jammed) hw (hw r.consumer)
  case popped c r ops loc tasks hl hloc =>
    have hleft : ∀ d, s.Left d → (s.setRing r (s.rings r).popBatch.2).Left d := by
      rintro d ⟨r', hd, hne⟩
      refine ⟨r', hd, ?_⟩
      exact forall_setRing (s := s) (q := (s.rings r).popBatch.2)
        (P := fun r q => (s.rings r).queueBuffer ≠ [] → q.queueBuffer ≠ []) (fun _ => id) id r' hne
    have hall : ∀ d, (s.setRing r (s.rings r).popBatch.2).Jammed d (s.cpus d) :=
      fun d hst => (hj d hst).imp_right (hleft d)
    refine forall_setCpu (P := (s.setRing r (s.rings r).popBatch.2).Jammed)
      (s := s.setRing r _) hall fun hst => (hall c hst).imp_left fun hb => .inl ?_
    simp [hb.active (by rw [hl]; rfl) (by rw [hl]; rfl)]

theorem os_init_jammed (c : Nat) : (Os.init : Os α).Jammed c ((Os.init : Os α).cpus c) := by
  change (Os.init : Os α).Jammed c (if c = 0 then Cpu.init 1 else Cpu.init 0)
  split <;> exact fun hst => by cases hst

theorem os_jammed {cpuCount : Nat} {as : List (OsAct α)} {s : Os α}
    (h : (osMachine cpuCount).Reaches as s) : ∀ c, s.Jammed c (s.cpus c) := by
  refine h.invariant_of (I := fun s => ∀ c, s.Jammed c (s.cpus c)) (fun _ _ => os_sound)
    os_init_jammed ?_
  intro s a t hs hj hst
  exact (os_step_cases hst).jammed hs hj

/-- In a quiescent state, everything is delivered exactly when no CPU found a ring full in
its last pass. -/
theorem Os.Quiescent.delivered_iff {cpuCount : Nat} {as : List (OsAct α)} {s : Os α}
    (h : (osMachine cpuCount).Reaches as s) (hq : s.Quiescent cpuCount) :
    s.Delivered ↔ ∀ c < cpuCount, (s.cpus c).stalled = false := by
  refine ⟨fun hd c hc => ?_, hq.delivered (os_sound h) (os_minded h)⟩
  by_contra hst
  obtain hb | ⟨r, -, hr⟩ := os_jammed h c (by simpa using hst)
  · have ha := ((os_sound h).cpus c).idle (by rw [(hq c hc).1]; rfl)
    simp [Cpu.Busy, ha.2, (hq c hc).1, CpuLoc.restarts, CpuLoc.owes] at hb
  · exact hr (hd r)

/-! The condition is needed. CPU 0 sends 1032 functions whose futures stay unresolved and
goes to sleep on the last eight, since the ring is full; CPU 1 empties the ring and goes to
sleep as well. -/

def eightItems : List Unit := List.replicate 8 ()

def sentItems : List (List Unit) := List.replicate 128 eightItems

/-- CPU 0 starts its first task. -/
def startActs : List (OsAct Unit) :=
  .go 0 0 false :: ((pollers 2 0).flatMap (idleActs 0) ++ List.replicate 2 (.go 0 0 false))

/-- With the ring full, CPU 0 submits eight more items, ends its task and goes to sleep. -/
def jamActs : List (OsAct Unit) :=
  eightItems.map (.submit 0 1) ++ (.go 0 0 false :: .done 0 :: .go 0 0 false :: .go 0 0 false ::
    .go 0 0 false :: .go 0 0 false ::
      ((pollers 2 0).tail.flatMap (idleActs 0) ++ List.replicate 3 (.go 0 0 false)))

/-- CPU 1 takes its signal, empties the ring and goes to sleep. -/
def emptyActs : List (OsAct Unit) :=
  .deliver 1 :: .go 1 0 false :: .go 1 0 false ::
    (sentItems.flatMap (fun batch =>
        drainActs 1 ((pollers 2 1).take 3) batch ((pollers 2 1).drop 4)) ++
      ((pollers 2 1).flatMap (idleActs 1) ++ List.replicate 3 (.go 1 0 false)))

def overflowRun : List (OsAct Unit) :=
  startActs ++ (sentItems.flatMap (sendActs 0 1) ++ (jamActs ++ emptyActs))

theorem pollers_two_zero : pollers 2 0 =
    [.ipc (.flushTx 0 1), .ipc (.pollRx 0 1), .ipc (.flushRx 1 0), .ipc (.pollTx 1 0), .syscalls,
      .fileIo] := rfl

theorem pollers_two_one : pollers 2 1 =
    [.ipc (.flushTx 1 0), .ipc (.pollRx 1 0), .ipc (.flushRx 0 1), .ipc (.pollTx 0 1), .syscalls,
      .fileIo] := rfl

/-- The state with the given queue from CPU 0 to CPU 1 and no item in another. -/
def Os.linked (s : Os Unit) (q : UnboundedSpscQueue Unit) : Os Unit := s.setRing (.tx 0 1) q

theorem idle_linked {s : Os Unit} (hs : ∀ r, s.rings r = .empty) (q : UnboundedSpscQueue Unit)
    {op : Poller} (hf : op ≠ .ipc (.flushTx 0 1)) (hp : op ≠ .ipc (.pollTx 0 1)) :
    (s.linked q).Idle op := by
  have hother : ∀ r, r ≠ .tx 0 1 → (s.linked q).rings r = .empty :=
    fun r hr => (setRing_of_ne s q hr).trans (hs r)
  cases op with
  | ipc call => cases call <;> simp_all [Os.Idle, UnboundedSpscQueue.empty]
  | syscalls | fileIo => trivial

theorem exec_startActs : (osMachine 2).exec .init startActs =
    some ((Os.init.linked .empty).setCpu 0 ((Cpu.init 0).goto (.user (.task 7)))) := by
  have hidle : ∀ op ∈ pollers 2 0, (Os.init : Os Unit).Idle op := by
    simp [pollers_two_zero, Os.Idle, Os.init, UnboundedSpscQueue.empty]
  have hload : (Os.init : Os Unit).go 2 0 0 false =
      some (Os.init.setCpu 0 ((Cpu.init 1).goto (.poll (pollers 2 0)))) := rfl
  have hpolls := exec_idle_pass Nat.zero_lt_two (Cpu.init 1) rfl hidle
  have hbatch : (Os.init.setCpu 0 ((Cpu.init 1).goto (.poll [])) : Os Unit).go 2 0 0 false =
      some (Os.init.setCpu 0 ((Cpu.init 1).goto (.batch 8))) := by simp [Os.go, Cpu.goto, Cpu.init]
  have htask : (Os.init.setCpu 0 ((Cpu.init 1).goto (.batch 8)) : Os Unit).go 2 0 0 false =
      some (Os.init.setCpu 0 ((Cpu.init 0).goto (.user (.task 7)))) := by
    simp [Os.go, Cpu.goto, Cpu.init]
  have hlinked : (Os.init.linked .empty : Os Unit) = Os.init := setRing_rings Os.init (.tx 0 1)
  rw [startActs, exec_go (by decide) hload, Machine.exec_append, hpolls, Option.bind_some, hlinked]
  exact (exec_go (by decide) hbatch).trans (exec_go (by decide) htask)

theorem length_sentItems : sentItems.flatten.length = ringSize := by
  rw [List.length_flatten, sentItems, List.map_replicate, List.sum_replicate_nat]
  rfl

theorem length_of_sentItems : ∀ xs ∈ sentItems, xs.length = 8 :=
  fun _ hxs => List.eq_of_mem_replicate hxs ▸ List.length_replicate

def fullRing : BoundedFifo Unit ringSize := ⟨sentItems.flatten, length_sentItems.le⟩

/-- CPU 0 when it sleeps on the items that it could not flush. -/
def sleeper : Cpu Unit := { (Cpu.init 0 : Cpu Unit) with stalled := true }

/-- CPU 0 cannot flush the last items. -/
def Os.overfull (s : Os Unit) : Os Unit := s.linked ⟨eightItems, fullRing⟩

theorem exec_jamActs {s : Os Unit} (hs : ∀ r, s.rings r = .empty) :
    (osMachine 2).exec ((s.linked ⟨[], fullRing⟩).setCpu 0 ((Cpu.init 0).goto (.user (.task 7))))
      jamActs =
    some (s.overfull.setCpu 0 (sleeper.goto .blocked)) := by
  have hround : (s.overfull.rings (.tx 0 1)).flushRound = none := by
    rw [show s.overfull.rings (.tx 0 1) = ⟨eightItems, fullRing⟩ from setRing_self ..,
      UnboundedSpscQueue.flushRound_eq_none_iff]
    exact .inr length_sentItems
  have hleft : (s.overfull.rings (.tx 0 1)).queueBuffer.isEmpty = false := by
    rw [show s.overfull.rings (.tx 0 1) = ⟨eightItems, fullRing⟩ from setRing_self ..]
    rfl
  have hidle : ∀ op ∈ (pollers 2 0).tail, s.overfull.Idle op := by
    rw [pollers_two_zero]
    intro op hop
    exact idle_linked hs _ (by rintro rfl; simp at hop) (by rintro rfl; simp at hop)
  have hfull := exec_fill (s := s) Nat.zero_lt_two (Cpu.init 0) (.task 7) Nat.one_lt_two
    Nat.zero_ne_one fullRing (show eightItems.length = 8 from rfl)
  change _ = some (s.overfull.setCpu 0 _) at hfull
  have hstop : (s.overfull.setCpu 0
      ((Cpu.init 0).goto (.flush (.tx 0 1) 0 (.user (.task 7))))).go 2 0 0 false =
      some (s.overfull.setCpu 0 ((Cpu.init 0).goto (.user (.task 7)))) := by
    simp [Os.go, Cpu.goto, hround, Cpu.endFlush, Frame.isPoll, Frame.resume]
  have hdone : (osMachine 2).step
      (s.overfull.setCpu 0 ((Cpu.init 0).goto (.user (.task 7)))) (.done 0) =
      some (s.overfull.setCpu 0 ((Cpu.init 0).goto (.batch 7))) := by
    simp [osMachine, Os.step, OsAct.cpu, Cpu.goto, Os.userStep]
  have hend : (s.overfull.setCpu 0 ((Cpu.init 0).goto (.batch 7))).go 2 0 0 false =
      some (s.overfull.setCpu 0 ((Cpu.init 0).goto .load)) := by simp [Os.go, Cpu.goto, Cpu.init]
  have hload : (s.overfull.setCpu 0 ((Cpu.init 0).goto .load)).go 2 0 0 false =
      some (s.overfull.setCpu 0 ((Cpu.init 0).goto (.poll (pollers 2 0)))) := by
    simp [Os.go, Cpu.goto, Cpu.init]
  have hflush : (s.overfull.setCpu 0 ((Cpu.init 0).goto (.poll (pollers 2 0)))).go 2 0 0 false =
      some (s.overfull.setCpu 0
        ((Cpu.init 0).goto (.flush (.tx 0 1) 0 (.poll (pollers 2 0).tail)))) := by
    simp [Os.go, Cpu.goto, pollers_two_zero, Os.pollStep]
  have hstall : (s.overfull.setCpu 0
      ((Cpu.init 0).goto (.flush (.tx 0 1) 0 (.poll (pollers 2 0).tail)))).go 2 0 0 false =
      some (s.overfull.setCpu 0 (sleeper.goto (.poll (pollers 2 0).tail))) := by
    simp [Os.go, Cpu.goto, sleeper, hround, hleft, Cpu.endFlush, Frame.isPoll, Frame.resume]
  have hpolls := exec_idle_pass Nat.zero_lt_two sleeper rfl hidle
  have hsleep := exec_sleep (s := s.overfull) Nat.zero_lt_two sleeper rfl rfl rfl
  have hrest : (osMachine 2).exec (s.overfull.setCpu 0 (sleeper.goto (.poll (pollers 2 0).tail)))
      ((pollers 2 0).tail.flatMap (idleActs 0) ++ List.replicate 3 (.go 0 0 false)) =
      some (s.overfull.setCpu 0 (sleeper.goto .blocked)) := by
    rw [Machine.exec_append, hpolls, Option.bind_some, hsleep]
  change (osMachine 2).exec ((s.setRing (.tx 0 1) ⟨[], fullRing⟩).setCpu 0 _) _ = _
  rw [jamActs, Machine.exec_append, hfull, Option.bind_some, exec_go (by decide) hstop,
    Machine.exec_cons, hdone, Option.bind_some]
  exact (exec_go (by decide) hend).trans ((exec_go (by decide) hload).trans
    ((exec_go (by decide) hflush).trans ((exec_go (by decide) hstall).trans hrest)))

/-- CPU 1 when its signal has come. -/
def signalled : Cpu Unit := { (Cpu.init 0 : Cpu Unit) with pendingSignals := 0 ||| sigalrmBit }

theorem exec_emptyActs {s : Os Unit} (hs : ∀ r, s.rings r = .empty)
    (hcpu : s.cpus 1 = { (Cpu.init 0 : Cpu Unit) with sigalrm := true }) :
    (osMachine 2).exec s.overfull emptyActs =
    some ((s.linked ⟨eightItems, .empty⟩).setCpu 1 ((Cpu.init 0).goto .blocked)) := by
  have hdeliver : (osMachine 2).step s.overfull (.deliver 1) =
      some (s.overfull.setCpu 1 signalled) := by
    have hfull : s.overfull.cpus 1 = { (Cpu.init 0 : Cpu Unit) with sigalrm := true } := hcpu
    simp [osMachine, Os.step, OsAct.cpu, Os.outerStep, hfull, CpuLoc.masked, Cpu.deliver,
      Cpu.init, signalled]
  have hload : (s.overfull.setCpu 1 signalled).go 2 1 0 false =
      some (s.overfull.setCpu 1 (signalled.goto (.clear (0 ||| sigalrmBit)))) := by
    simp [Os.go, Cpu.goto, signalled, Cpu.init, sigalrmBit]
  have hclear : (s.overfull.setCpu 1 (signalled.goto (.clear (0 ||| sigalrmBit)))).go 2 1 0 false =
      some (s.overfull.setCpu 1 ((Cpu.init 0).found.goto (.poll (pollers 2 1)))) := by
    simp [Os.go, Cpu.goto, signalled, Cpu.found, Cpu.init, sigalrmBit]
  have hidle : ∀ op ∈ (pollers 2 1).take 3 ++ (pollers 2 1).drop 4, ∀ q,
      (s.setRing (.tx 0 1) q).Idle op := by
    rw [pollers_two_one]
    intro op hop q
    exact idle_linked hs q (by rintro rfl; simp at hop) (by rintro rfl; simp at hop)
  have hdrains := exec_drains Nat.one_lt_two pollers_two_one hidle eightItems length_of_sentItems
    (by decide) (Cpu.init 0).found length_sentItems.le rfl rfl rfl
  have hall : ∀ op ∈ pollers 2 1, (s.linked ⟨eightItems, .empty⟩).Idle op := by
    rw [pollers_two_one]
    intro op hop
    by_cases he : op = .ipc (.pollTx 0 1)
    · subst he
      simp [Os.Idle, linked, BoundedFifo.empty]
    · exact idle_linked hs _ (by rintro rfl; simp at hop) he
  have hpolls := exec_idle_pass Nat.one_lt_two (Cpu.init 0).found.fresh rfl hall
  have hsleep := exec_sleep (s := s.linked ⟨eightItems, .empty⟩) Nat.one_lt_two
    (Cpu.init 0).found.fresh rfl rfl rfl
  rw [emptyActs, Machine.exec_cons, hdeliver, Option.bind_some, exec_go (by decide) hload,
    exec_go (by decide) hclear, Machine.exec_append]
  change ((osMachine 2).exec ((s.setRing (.tx 0 1) _).setCpu 1 _) _).bind _ = _
  rw [fullRing, hdrains, Option.bind_some, Machine.exec_append]
  change ((osMachine 2).exec ((s.linked _).setCpu 1 _) _).bind _ = _
  rw [hpolls, Option.bind_some, hsleep]
  rfl

/-- CPU 0 sleeps on its items, and a signal for CPU 1 is on its way. -/
def Os.asleep : Os Unit := (Os.init.wakeup 1).setCpu 0 (sleeper.goto .blocked)

/-- All CPUs sleep without a signal, and eight items are never sent. -/
theorem overflowRun_undelivered : ∃ s : Os Unit, (osMachine 2).Reaches overflowRun s ∧
    s.Quiescent 2 ∧ (s.rings (.tx 0 1)).queueBuffer.length = 8 ∧ ¬s.Delivered := by
  have hinit : ∀ r, (Os.init.wakeup 1 : Os Unit).rings r = .empty := fun _ => rfl
  have hsends : (osMachine 2).exec
      ((Os.init.linked .empty).setCpu 0 ((Cpu.init 0).goto (.user (.task 7))))
      (sentItems.flatMap (sendActs 0 1)) =
      some (((Os.init.wakeup 1).linked ⟨[], fullRing⟩).setCpu 0
        ((Cpu.init 0).goto (.user (.task 7)))) :=
    exec_sends (by decide) (Cpu.init 0) (.task 7) (by decide) (by decide) length_of_sentItems
      (by decide) (List.nil_append _).symm
  have hempty : (osMachine 2).exec (Os.asleep.overfull) emptyActs =
      some ((Os.asleep.linked ⟨eightItems, .empty⟩).setCpu 1 ((Cpu.init 0).goto .blocked)) :=
    exec_emptyActs hinit rfl
  have hrun : (osMachine 2).Reaches overflowRun
      ((Os.asleep.linked ⟨eightItems, .empty⟩).setCpu 1 ((Cpu.init 0).goto .blocked)) := by
    refine Machine.exec_append_eq_some.mpr ⟨_, exec_startActs, ?_⟩
    refine Machine.exec_append_eq_some.mpr ⟨_, hsends, ?_⟩
    exact Machine.exec_append_eq_some.mpr ⟨_, exec_jamActs hinit, hempty⟩
  refine ⟨_, hrun, ?_, rfl, fun hd => ?_⟩
  · intro c hc
    obtain rfl | rfl : c = 0 ∨ c = 1 := by omega
    · exact ⟨rfl, rfl⟩
    · exact ⟨rfl, rfl⟩
  · cases hd (.tx 0 1)

end Miniss
