import Miniss.OsSteps

/-! A pass of the loop of `run`: which pollers a CPU has still to call, and what holds of
every CPU and of every ring in all states. -/
namespace Miniss
variable {α : Type*}

def Caller.ops : Caller α → List Poller
  | .process _ ops => ops
  | .task _ => []

def Frame.ops : Frame α → List Poller
  | .poll ops => ops
  | .user k => k.ops

/-- The pollers that the pass has still to call. -/
def CpuLoc.ops : CpuLoc α → List Poller
  | .poll ops | .process _ ops => ops
  | .flush _ _ k | .wakeup _ k => k.ops
  | .user k => k.ops
  | _ => []

def Caller.inBatch : Caller α → Bool
  | .process _ _ => false
  | .task _ => true

def Frame.inBatch : Frame α → Bool
  | .poll _ => false
  | .user k => k.inBatch

/-- The CPU starts a new pass before it can sleep. -/
def CpuLoc.restarts : CpuLoc α → Bool
  | .load | .clear _ | .batch _ | .unmask => true
  | .flush _ _ k | .wakeup _ k => k.inBatch
  | .user k => k.inBatch
  | _ => false

/-- The CPU calls the poller before it can sleep. -/
def CpuLoc.ahead (op : Poller) (loc : CpuLoc α) : Prop := op ∈ loc.ops ∨ loc.restarts = true

def CpuLoc.flushes (r : Ring) : CpuLoc α → Prop
  | .flush q _ _ => q = r
  | _ => False

/-- The loop has ended with nothing to do, and the CPU is in `run_idle_proc_`. -/
def CpuLoc.idle : CpuLoc α → Bool
  | .mask | .test | .blocked => true
  | _ => false

def CpuLoc.ring? : CpuLoc α → Option Ring
  | .flush r _ _ | .wakeup r _ => some r
  | _ => none

def Caller.serving : Caller α → Bool
  | .process _ _ => true
  | .task _ => false

def Frame.serving : Frame α → Bool
  | .poll _ => false
  | .user k => k.serving

/-- The CPU has an item from `poll_tx` to process, or is in the user's code that it called. -/
def CpuLoc.serving : CpuLoc α → Bool
  | .process (_ :: _) _ => true
  | .flush _ _ k | .wakeup _ k => k.serving
  | .user k => k.serving
  | _ => false

@[simp] theorem Caller.resume_ops (k : Caller α) : k.resume.ops = k.ops := by cases k <;> rfl

@[simp] theorem Frame.resume_ops (k : Frame α) : k.resume.ops = k.ops := by cases k <;> rfl

@[simp] theorem Caller.resume_restarts (k : Caller α) : k.resume.restarts = k.inBatch := by
  cases k <;> rfl

@[simp] theorem Frame.resume_restarts (k : Frame α) : k.resume.restarts = k.inBatch := by
  cases k <;> rfl

@[simp] theorem Caller.resume_idle (k : Caller α) : k.resume.idle = false := by cases k <;> rfl

@[simp] theorem Frame.resume_idle (k : Frame α) : k.resume.idle = false := by cases k <;> rfl

@[simp] theorem Caller.resume_ring (k : Caller α) : k.resume.ring? = none := by cases k <;> rfl

@[simp] theorem Frame.resume_ring (k : Frame α) : k.resume.ring? = none := by cases k <;> rfl

@[simp] theorem Frame.resume_serving (k : Frame α) : k.resume.serving = k.serving := by
  cases k <;> rfl

/-- The CPU has found something in this pass, or has still to call the poller. -/
def Cpu.Due (op : Poller) (cpu : Cpu α) : Prop := cpu.active = true ∨ cpu.loc.ahead op

/-- What a poller that finds nothing leaves behind, and what one that flushes begins with. -/
def Cpu.Polled (rings : Ring → UnboundedSpscQueue α) (cpu : Cpu α) : Poller → Prop
  | .ipc (.flushTx i j) => cpu.loc.flushes (.tx i j)
  | .ipc (.pollRx i j) => (rings (.rx i j)).queue.items = []
  | .ipc (.flushRx i j) => cpu.loc.flushes (.rx i j)
  | .ipc (.pollTx i j) => (rings (.tx i j)).queue.items = []
  | .syscalls => cpu.results = 0
  | .fileIo => True

theorem Cpu.polled_poller {rings : Ring → UnboundedSpscQueue α} {cpu : Cpu α} {r : Ring} :
    cpu.Polled rings r.poller ↔ (rings r).queue.items = [] := by cases r <;> exact Iff.rfl

theorem Cpu.polled_flusher {rings : Ring → UnboundedSpscQueue α} {cpu : Cpu α} {r : Ring} :
    cpu.Polled rings r.flusher ↔ cpu.loc.flushes r := by cases r <;> exact Iff.rfl

theorem Cpu.deliver_loc {cpu : Cpu α} (h : cpu.loc ≠ .blocked) : cpu.deliver.loc = cpu.loc := by
  unfold Cpu.deliver
  split
  case h_1 he => exact absurd he h
  case h_2 => rfl

namespace Cpu.Due
variable {op : Poller} {cpu cpu' : Cpu α}

theorem mono (h : cpu.Due op) (ha : cpu.active = true → cpu'.active = true)
    (hl : cpu.loc.ahead op → cpu'.loc.ahead op) : cpu'.Due op := h.imp ha hl

theorem goto (h : cpu.Due op) {loc : CpuLoc α} (hl : cpu.loc.ahead op → loc.ahead op) :
    Cpu.Due op { cpu with loc := loc } := h.mono id hl

theorem of_restarts (h : cpu.loc.restarts = true) : cpu.Due op := .inr (.inr h)

theorem deliver (h : cpu.Due op) : cpu.deliver.Due op := by
  by_cases hb : cpu.loc = .blocked
  · exact .of_restarts (by simp [Cpu.deliver, hb, CpuLoc.restarts])
  · refine h.mono id fun hl => ?_
    rw [deliver_loc hb]
    exact hl

end Cpu.Due

theorem CpuStep.due {cpuCount c : Nat} {cpu cpu' : Cpu α} {op : Poller}
    (rings : Ring → UnboundedSpscQueue α) (h : CpuStep cpuCount c cpu cpu')
    (hop : op ∈ pollers cpuCount c) (hd : cpu.Due op) : cpu'.Due op ∨ cpu'.Polled rings op := by
  cases h
  case loaded => exact .inl (.inr (.inl hop))
  case sawSignals | working | batchEnded | interrupted | unmasked | event =>
    exact .inl (.of_restarts rfl)
  case began => exact .inl (.of_restarts rfl)
  case cleared => exact .inl (.inl rfl)
  case idle hl _ _ =>
    exact .inl (hd.goto (by simp [hl, CpuLoc.ahead, CpuLoc.ops, CpuLoc.restarts]))
  case masked hl =>
    exact .inl (hd.goto (by simp [hl, CpuLoc.ahead, CpuLoc.ops, CpuLoc.restarts]))
  case flushing r ops hl =>
    by_cases he : op = r.flusher
    · subst he
      exact .inr (Cpu.polled_flusher.mpr rfl)
    · refine .inl (hd.goto ?_)
      simp [hl, CpuLoc.ahead, CpuLoc.ops, CpuLoc.restarts, Frame.ops, Frame.inBatch, he]
  case syscalls ops tasks hl =>
    by_cases he : op = .syscalls
    · subst he
      exact .inr rfl
    · refine .inl (hd.mono (fun h => by simp [h]) ?_)
      simp [hl, CpuLoc.ahead, CpuLoc.ops, CpuLoc.restarts, he]
  case fileIo ops tasks reaped hl =>
    by_cases he : op = .fileIo
    · subst he
      exact .inr trivial
    · refine .inl (hd.mono (fun h => by simp [h]) ?_)
      simp [hl, CpuLoc.ahead, CpuLoc.ops, CpuLoc.restarts, he]
  case called item todo ops hl =>
    refine .inl (hd.goto ?_)
    rw [hl]
    exact id
  case processed ops hl =>
    refine .inl (hd.goto ?_)
    rw [hl]
    exact id
  case returned k hl =>
    refine .inl (hd.goto ?_)
    rw [hl, CpuLoc.ahead, CpuLoc.ahead, Caller.resume_ops, Caller.resume_restarts]
    exact id
  case delivered => exact .inl hd.deliver
  case scheduled | alarmed | pushedResult | signalled => exact .inl hd

/-- What every CPU keeps: it calls its own pollers, flushes rings it produces for, is idle
only behind an empty pass, and counts a pass with a processed item as active. -/
structure Cpu.Sound (cpuCount c : Nat) (cpu : Cpu α) : Prop where
  ops : ∀ op ∈ cpu.loc.ops, op ∈ pollers cpuCount c
  ring : ∀ r ∈ cpu.loc.ring?, r.producer = c
  idle : cpu.loc.idle = true → cpu.taskQueue = 0 ∧ cpu.active = false
  serving : cpu.loc.serving = true → cpu.active = true

theorem CpuStep.loc_of_ring {cpuCount c : Nat} {cpu cpu' : Cpu α}
    (h : CpuStep cpuCount c cpu cpu') (hr : cpu.loc.ring? ≠ none) : cpu'.loc = cpu.loc := by
  cases h
  case delivered =>
    exact Cpu.deliver_loc fun hb => hr (by rw [hb]; rfl)
  case scheduled | alarmed | pushedResult | signalled => rfl
  all_goals
    rw [‹cpu.loc = _›] at hr
    exact absurd rfl hr

theorem Cpu.init_sound (cpuCount c tasks : Nat) : (Cpu.init tasks : Cpu α).Sound cpuCount c := by
  constructor <;> simp [Cpu.init, CpuLoc.ops, CpuLoc.ring?, CpuLoc.idle, CpuLoc.serving]

theorem Cpu.Sound.deliver {cpuCount c : Nat} {cpu : Cpu α} (h : cpu.Sound cpuCount c) :
    cpu.deliver.Sound cpuCount c := by
  obtain ⟨ho, hr, hi, hv⟩ := h
  by_cases hb : cpu.loc = .blocked
  · constructor <;> simp [Cpu.deliver, hb, CpuLoc.ops, CpuLoc.ring?, CpuLoc.idle, CpuLoc.serving]
  · have hl := Cpu.deliver_loc hb
    exact ⟨hl ▸ ho, hl ▸ hr, hl ▸ hi, hl ▸ hv⟩

/-- In a poll, or where the pass starts anew, only the pollers ahead count. -/
theorem Cpu.Sound.of_loc {cpuCount c : Nat} {cpu : Cpu α}
    (ho : ∀ op ∈ cpu.loc.ops, op ∈ pollers cpuCount c) (hr : cpu.loc.ring? = none)
    (hi : cpu.loc.idle = false) (hv : cpu.loc.serving = false) : cpu.Sound cpuCount c where
  ops := ho
  ring r hm := by
    rw [hr] at hm
    cases hm
  idle h := absurd (hi.symm.trans h) Bool.false_ne_true
  serving h := absurd (hv.symm.trans h) Bool.false_ne_true

/-- What else a CPU has does not count. -/
theorem Cpu.Sound.keep {cpuCount c : Nat} {cpu cpu' : Cpu α} (h : cpu.Sound cpuCount c)
    (hl : cpu'.loc = cpu.loc) (ha : cpu'.active = cpu.active)
    (hq : cpu.loc.idle = true → cpu'.taskQueue = cpu.taskQueue) : cpu'.Sound cpuCount c where
  ops := hl ▸ h.ops
  ring := hl ▸ h.ring
  idle hi := by
    rw [hl] at hi
    rw [hq hi, ha]
    exact h.idle hi
  serving hv := ha ▸ h.serving (hl ▸ hv)

theorem CpuStep.sound {cpuCount c : Nat} {cpu cpu' : Cpu α} (h : CpuStep cpuCount c cpu cpu')
    (hs : cpu.Sound cpuCount c) : cpu'.Sound cpuCount c := by
  have ho := hs.ops
  cases h
  case loaded | cleared => exact .of_loc (fun _ hop => hop) rfl rfl rfl
  case sawSignals | working | began | batchEnded | interrupted | unmasked | event =>
    exact .of_loc nofun rfl rfl rfl
  case idle hl ht ha => exact ⟨nofun, nofun, fun _ => ⟨ht, ha⟩, nofun⟩
  case masked hl => exact ⟨nofun, nofun, fun _ => hs.idle (by rw [hl]; rfl), nofun⟩
  case syscalls ops tasks hl | fileIo ops tasks reaped hl =>
    rw [hl] at ho
    exact .of_loc (fun op hop => ho op (List.mem_cons_of_mem _ hop)) rfl rfl rfl
  case processed ops hl =>
    rw [hl] at ho
    exact .of_loc ho rfl rfl rfl
  case flushing r ops hl =>
    rw [hl] at ho
    refine ⟨fun op hop => ho op (List.mem_cons_of_mem _ hop), ?_, nofun, nofun⟩
    rintro q ⟨⟩
    exact producer_of_mem (ho _ List.mem_cons_self)
  case called item todo ops hl =>
    rw [hl] at ho
    exact ⟨ho, nofun, nofun, fun _ => hs.serving (by rw [hl]; rfl)⟩
  case returned k hl =>
    rw [hl] at ho
    refine ⟨by rw [Caller.resume_ops]; exact ho, by simp, by simp, fun hk => ?_⟩
    cases k with
    | process todo ops => exact hs.serving (by rw [hl]; rfl)
    | task left => cases hk
  case scheduled k hl => exact hs.keep rfl rfl fun hi => by rw [hl] at hi; cases hi
  case alarmed | pushedResult | signalled => exact hs.keep rfl rfl fun _ => rfl
  case delivered => exact hs.deliver

theorem Cpu.Sound.endFlush {cpuCount c : Nat} {cpu : Cpu α} {r : Ring} {n : Nat} {k : Frame α}
    (h : cpu.Sound cpuCount c) (hl : cpu.loc = .flush r n k) (left : Bool) :
    (cpu.endFlush r n k left).Sound cpuCount c := by
  obtain ⟨ho, hr, -, hv⟩ := h
  rw [hl] at ho hr hv
  unfold Cpu.endFlush
  split
  case isTrue => exact ⟨ho, hr, by simp [CpuLoc.idle], hv⟩
  case isFalse =>
    refine ⟨by rw [Frame.resume_ops]; exact ho, by simp, by simp, ?_⟩
    rw [Frame.resume_serving]
    exact hv

theorem Cpu.Sound.endWakeup {cpuCount c : Nat} {cpu : Cpu α} {r : Ring} {k : Frame α}
    (h : cpu.Sound cpuCount c) (hl : cpu.loc = .wakeup r k) :
    (cpu.endWakeup k).Sound cpuCount c := by
  obtain ⟨ho, -, -, hv⟩ := h
  rw [hl] at ho hv
  refine ⟨?_, by simp [Cpu.endWakeup], by simp [Cpu.endWakeup], ?_⟩
  · rw [Cpu.endWakeup, Frame.resume_ops]
    exact ho
  · intro hk
    rw [Cpu.endWakeup, Frame.resume_serving] at hk
    simp [Cpu.endWakeup, hv hk]

theorem Cpu.endFlush_ahead {cpu : Cpu α} {r : Ring} {n : Nat} {k : Frame α} {left : Bool}
    (hl : cpu.loc = .flush r n k) {op : Poller} (h : cpu.loc.ahead op) :
    (cpu.endFlush r n k left).loc.ahead op := by
  rw [hl] at h
  unfold Cpu.endFlush
  split
  case isTrue => exact h
  case isFalse =>
    rw [CpuLoc.ahead, Frame.resume_ops, Frame.resume_restarts]
    exact h

theorem Cpu.endFlush_restarts {cpu : Cpu α} {r : Ring} {n : Nat} {k : Frame α} {left : Bool}
    (h : k.inBatch = true) : (cpu.endFlush r n k left).loc.restarts = true := by
  unfold Cpu.endFlush
  split
  case isTrue => exact h
  case isFalse => rw [Frame.resume_restarts, h]

theorem Cpu.endFlush_idle (cpu : Cpu α) (r : Ring) (n : Nat) (k : Frame α) (left : Bool) :
    (cpu.endFlush r n k left).loc.idle = false := by
  unfold Cpu.endFlush
  split
  case isTrue => rfl
  case isFalse => exact k.resume_idle

theorem Cpu.endWakeup_ahead {cpu : Cpu α} {r : Ring} {k : Frame α} (hl : cpu.loc = .wakeup r k)
    {op : Poller} (h : cpu.loc.ahead op) : (cpu.endWakeup k).loc.ahead op := by
  rw [hl] at h
  rw [Cpu.endWakeup, CpuLoc.ahead, Frame.resume_ops, Frame.resume_restarts]
  exact h

/-- What every state keeps: the CPUs are sound, and items only lie between two CPUs. -/
structure Os.Sound (cpuCount : Nat) (s : Os α) : Prop where
  cpus : ∀ c, (s.cpus c).Sound cpuCount c
  rings : ∀ r, (s.rings r).contents ≠ [] → r.Valid cpuCount

theorem os_init_sound {cpuCount : Nat} :
    (osMachine cpuCount : Machine (Os α) _).init.Sound cpuCount := by
  refine ⟨fun c => ?_, fun r hr => absurd rfl hr⟩
  change (if c = 0 then Cpu.init 1 else Cpu.init 0 : Cpu α).Sound cpuCount c
  split
  case isTrue => exact Cpu.init_sound cpuCount c 1
  case isFalse => exact Cpu.init_sound cpuCount c 0

open Os

theorem Os.Sound.step {cpuCount : Nat} {s t : Os α} {a : OsAct α} (h : OsStep cpuCount s a t)
    (hs : s.Sound cpuCount) : t.Sound cpuCount := by
  obtain ⟨hc, hr⟩ := hs
  cases h
  case quiet c cpu hstep => exact ⟨forall_setCpu hc (hstep.sound (hc c)), hr⟩
  case fellAsleep c tasks reaped hl hp =>
    have hi := (hc c).idle (by rw [hl]; rfl)
    exact ⟨forall_setCpu hc ⟨by simp [CpuLoc.ops], by simp [CpuLoc.ring?], fun _ => hi,
      by simp [CpuLoc.serving]⟩, hr⟩
  case pushed c k r item hl hp hv =>
    obtain ⟨ho, -, -, hk⟩ := hc c
    rw [hl] at ho hk
    refine ⟨forall_setCpu (s := s.setRing r _) hc ?_, ?_⟩
    · split
      case isTrue => exact ⟨ho, by simpa [CpuLoc.ring?] using hp, by simp [CpuLoc.idle], hk⟩
      case isFalse => exact ⟨ho, by simp [CpuLoc.ring?], by simp [CpuLoc.idle], hk⟩
    · exact forall_setRing (P := fun r q => q.contents ≠ [] → r.Valid cpuCount) hr fun _ => hv
  case moved c r n k q hl hq =>
    obtain ⟨ho, hp, -, hk⟩ := hc c
    rw [hl] at ho hp hk
    refine ⟨forall_setCpu (s := s.setRing r _) hc ⟨ho, hp, by simp [CpuLoc.idle], hk⟩, ?_⟩
    refine forall_setRing (P := fun r q => q.contents ≠ [] → r.Valid cpuCount) hr fun hne => ?_
    rw [UnboundedSpscQueue.contents_flushRound hq] at hne
    exact hr r hne
  case flushed c r n k hl hq => exact ⟨forall_setCpu hc ((hc c).endFlush hl _), hr⟩
  case woke c r k hl =>
    have hw := forall_setCpu hc ((hc c).endWakeup hl)
    obtain ⟨ho, hp, hi, hk⟩ := hw r.consumer
    exact ⟨forall_setCpu hw ⟨ho, hp, hi, hk⟩, hr⟩
  case popped c r ops loc tasks hl hloc =>
    obtain ⟨ho, -, -, -⟩ := hc c
    rw [hl] at ho
    have hops : ∀ op ∈ ops, op ∈ pollers cpuCount c :=
      fun op hop => ho op (List.mem_cons_of_mem _ hop)
    refine ⟨forall_setCpu (s := s.setRing r _) hc ?_, ?_⟩
    · obtain rfl | rfl := hloc
      · exact ⟨hops, by simp [CpuLoc.ring?], by simp [CpuLoc.idle], by simp [CpuLoc.serving]⟩
      · refine ⟨hops, by simp [CpuLoc.ring?], by simp [CpuLoc.idle], ?_⟩
        cases (s.rings r).popBatch.1 <;> simp [CpuLoc.serving]
    · refine forall_setRing (P := fun r q => q.contents ≠ [] → r.Valid cpuCount) hr fun hne => ?_
      refine hr r fun he => hne ?_
      rw [← UnboundedSpscQueue.contents_popBatch] at he
      exact (List.append_eq_nil_iff.mp he).2

theorem OsStep.due {cpuCount : Nat} {s t : Os α} {a : OsAct α} {op : Poller}
    (h : OsStep cpuCount s a t) {d : Nat} (hop : op ∈ pollers cpuCount d)
    (hd : (s.cpus d).Due op) : (t.cpus d).Due op ∨ (t.cpus d).Polled t.rings op := by
  let P : Nat → Cpu α → Prop := fun d cpu =>
    op ∈ pollers cpuCount d → (s.cpus d).Due op → cpu.Due op ∨ cpu.Polled t.rings op
  suffices hall : ∀ d, P d (t.cpus d) from hall d hop hd
  have hsame : ∀ d, P d (s.cpus d) := fun _ _ hd => .inl hd
  cases h
  case quiet c cpu hstep => exact forall_setCpu (P := P) hsame fun hop hd => hstep.due _ hop hd
  case fellAsleep c tasks reaped hl hp =>
    refine forall_setCpu (P := P) hsame fun hop hd => .inl (hd.goto ?_)
    simp [hl, CpuLoc.ahead, CpuLoc.ops, CpuLoc.restarts]
  case pushed c k r item hl _ _ =>
    refine forall_setCpu (P := P) (s := s.setRing r _) hsame fun hop hd => .inl (hd.goto ?_)
    rw [hl]
    split <;> exact id
  case moved c r n k q hl hq =>
    refine forall_setCpu (P := P) (s := s.setRing r _) hsame fun hop hd => .inl (hd.goto ?_)
    rw [hl]
    exact id
  case flushed c r n k hl hq =>
    refine forall_setCpu (P := P) hsame fun hop hd => .inl ?_
    exact hd.mono id (Cpu.endFlush_ahead hl)
  case woke c r k hl =>
    have hw : P c ((s.cpus c).endWakeup k) := fun hop hd =>
      .inl (hd.mono (fun h => by simp [Cpu.endWakeup, h]) (Cpu.endWakeup_ahead hl))
    exact forall_setCpu (P := P) (forall_setCpu hsame hw) (forall_setCpu hsame hw r.consumer)
  case popped c r ops loc tasks hl hloc =>
    refine forall_setCpu (P := P) (s := s.setRing r _) hsame fun hop hd => ?_
    by_cases he : op = r.poller
    · subst he
      by_cases hb : (s.rings r).popBatch.1 = []
      · refine .inr (Cpu.polled_poller.mpr ?_)
        rw [setCpu_rings, setRing_self]
        exact UnboundedSpscQueue.items_popBatch_of_nil hb
      · exact .inl (.inl (by simp [hb]))
    · refine .inl (hd.mono (fun h => by simp [h]) fun h => ?_)
      rw [hl] at h
      have hmem : op ∈ ops := by simpa [CpuLoc.ahead, CpuLoc.ops, CpuLoc.restarts, he] using h
      obtain rfl | rfl := hloc <;> exact .inl hmem

theorem os_sound {cpuCount : Nat} {as : List (OsAct α)} {s : Os α}
    (h : (osMachine cpuCount).Reaches as s) : s.Sound cpuCount :=
  h.invariant os_init_sound fun _ _ _ hs hst => hs.step (os_step_cases hst)

end Miniss
