import Miniss.OsPass

/-! What a CPU does when it goes on alone: pollers that find nothing, the loop of a flush,
the loop of `poll_tx`, and user code that submits. -/
namespace Miniss
variable {α : Type*} {cpuCount c : Nat} {s : Os α}

open Os

def Cpu.goto (cpu : Cpu α) (loc : CpuLoc α) : Cpu α := { cpu with loc := loc }

@[simp] theorem Os.setCpu_setCpu (s : Os α) (c : Nat) (a b : Cpu α) :
    (s.setCpu c a).setCpu c b = s.setCpu c b := by
  simp [setCpu]

@[simp] theorem Os.setRing_rings (s : Os α) (r : Ring) : s.setRing r (s.rings r) = s := by
  simp [setRing]

theorem Os.setRing_setCpu (s : Os α) (r : Ring) (q : UnboundedSpscQueue α) (c : Nat) (cpu : Cpu α) :
    (s.setCpu c cpu).setRing r q = (s.setRing r q).setCpu c cpu := rfl

@[simp] theorem Os.setRing_setRing (s : Os α) (r : Ring) (q q' : UnboundedSpscQueue α) :
    (s.setRing r q).setRing r q' = s.setRing r q' := by
  simp [setRing]

theorem exec_go (hc : c < cpuCount) {t : Os α} {tasks : Nat} {reaped : Bool}
    {as : List (OsAct α)} (h : s.go cpuCount c tasks reaped = some t) :
    (osMachine cpuCount).exec s (.go c tasks reaped :: as) = (osMachine cpuCount).exec t as := by
  have hstep : (osMachine cpuCount).step s (.go c tasks reaped) = some t := (if_pos hc).trans h
  rw [Machine.exec_cons, hstep, Option.bind_some]

/-- What a CPU does in a poller that finds nothing. -/
def idleActs (c : Nat) : Poller → List (OsAct α)
  | .ipc (.pollRx _ _) | .syscalls | .fileIo => [.go c 0 false]
  | .ipc (.flushTx _ _) | .ipc (.flushRx _ _) | .ipc (.pollTx _ _) => [.go c 0 false, .go c 0 false]

/-- There is nothing for the poller to flush, to pop or to reap. -/
def Os.Idle (s : Os α) : Poller → Prop
  | .ipc (.flushTx i j) => (s.rings (.tx i j)).queueBuffer = []
  | .ipc (.pollRx i j) => (s.rings (.rx i j)).queue.items = []
  | .ipc (.flushRx i j) => (s.rings (.rx i j)).queueBuffer = []
  | .ipc (.pollTx i j) => (s.rings (.tx i j)).queue.items = []
  | .syscalls | .fileIo => True

theorem UnboundedSpscQueue.popBatch_of_nil {q : UnboundedSpscQueue α} (h : q.queue.items = []) :
    q.popBatch = ([], q) := by
  obtain ⟨buffer, items, fits⟩ := q
  obtain rfl : items = [] := h
  rfl

theorem exec_idle_flush (hc : c < cpuCount) (cpu : Cpu α) {r : Ring} (ops : List Poller)
    (hb : (s.rings r).queueBuffer = []) :
    (osMachine cpuCount).exec (s.setCpu c (cpu.goto (.flush r 0 (.poll ops)))) [.go c 0 false] =
      some (s.setCpu c (cpu.goto (.poll ops))) := by
  have hround : (s.rings r).flushRound = none :=
    (UnboundedSpscQueue.flushRound_eq_none_iff _).mpr (.inl hb)
  refine exec_go hc ?_
  simp [Os.go, Cpu.goto, hround, hb, Cpu.endFlush, Frame.resume]

theorem exec_idle_poller (hc : c < cpuCount) (cpu : Cpu α) (hr : cpu.results = 0) {op : Poller}
    (ops : List Poller) (h : s.Idle op) :
    (osMachine cpuCount).exec (s.setCpu c (cpu.goto (.poll (op :: ops)))) (idleActs c op) =
      some (s.setCpu c (cpu.goto (.poll ops))) := by
  cases op with
  | ipc call =>
    cases call with
    | flushTx i j =>
      refine (exec_go hc (t := s.setCpu c (cpu.goto (.flush (.tx i j) 0 (.poll ops)))) ?_).trans
        (exec_idle_flush hc cpu ops h)
      simp [Os.go, Cpu.goto, Os.pollStep]
    | pollRx i j =>
      refine exec_go hc ?_
      simp [Os.go, Cpu.goto, Os.pollStep, UnboundedSpscQueue.popBatch_of_nil h, setRing_setCpu]
    | flushRx i j =>
      refine (exec_go hc (t := s.setCpu c (cpu.goto (.flush (.rx i j) 0 (.poll ops)))) ?_).trans
        (exec_idle_flush hc cpu ops h)
      simp [Os.go, Cpu.goto, Os.pollStep]
    | pollTx i j =>
      refine (exec_go hc (t := s.setCpu c (cpu.goto (.process [] ops))) ?_).trans (exec_go hc ?_)
      · simp [Os.go, Cpu.goto, Os.pollStep, UnboundedSpscQueue.popBatch_of_nil h, setRing_setCpu]
      · simp [Os.go, Cpu.goto]
  | syscalls =>
    refine exec_go hc ?_
    simp [Os.go, Cpu.goto, Os.pollStep, hr]
  | fileIo =>
    refine exec_go hc ?_
    simp [Os.go, Cpu.goto, Os.pollStep]

theorem exec_idle_pollers (hc : c < cpuCount) (cpu : Cpu α) (hr : cpu.results = 0)
    {ops : List Poller} (rest : List Poller) (h : ∀ op ∈ ops, s.Idle op) :
    (osMachine cpuCount).exec (s.setCpu c (cpu.goto (.poll (ops ++ rest))))
      (ops.flatMap (idleActs c)) = some (s.setCpu c (cpu.goto (.poll rest))) := by
  induction ops with
  | nil => rfl
  | cons op ops ih =>
    rw [List.flatMap_cons, List.cons_append, Machine.exec_append,
      exec_idle_poller hc cpu hr _ (h op List.mem_cons_self), Option.bind_some]
    exact ih fun op hop => h op (List.mem_cons_of_mem _ hop)

theorem exec_idle_pass (hc : c < cpuCount) (cpu : Cpu α) (hr : cpu.results = 0)
    {ops : List Poller} (h : ∀ op ∈ ops, s.Idle op) :
    (osMachine cpuCount).exec (s.setCpu c (cpu.goto (.poll ops))) (ops.flatMap (idleActs c)) =
      some (s.setCpu c (cpu.goto (.poll []))) := by
  have hpolls := exec_idle_pollers hc cpu hr [] h
  rw [List.append_nil] at hpolls
  exact hpolls

theorem exec_sleep (hc : c < cpuCount) (cpu : Cpu α) (ht : cpu.taskQueue = 0)
    (ha : cpu.active = false) (hp : cpu.pendingSignals = 0) :
    (osMachine cpuCount).exec (s.setCpu c (cpu.goto (.poll [])))
        (List.replicate 3 (.go c 0 false)) =
      some (s.setCpu c (cpu.goto .blocked)) := by
  have hmask : (s.setCpu c (cpu.goto (.poll []))).go cpuCount c 0 false =
      some (s.setCpu c (cpu.goto .mask)) := by simp [Os.go, Cpu.goto, ht, ha]
  have htest : (s.setCpu c (cpu.goto .mask)).go cpuCount c 0 false =
      some (s.setCpu c (cpu.goto .test)) := by simp [Os.go, Cpu.goto]
  have hsleep : (s.setCpu c (cpu.goto .test)).go cpuCount c 0 false =
      some (s.setCpu c (cpu.goto .blocked)) := by simp [Os.go, Cpu.goto, hp]
  exact (exec_go hc hmask).trans ((exec_go hc htest).trans (exec_go hc hsleep))

/-- The loop of a flush moves the whole buffer when the ring has room for it. -/
theorem exec_flush (hc : c < cpuCount) (cpu : Cpu α) (r : Ring) (k : Frame α) {xs : List α}
    {n : Nat} {ring ring' : BoundedFifo α ringSize} (h : ring'.items = ring.items ++ xs) :
    (osMachine cpuCount).exec
      ((s.setRing r ⟨xs, ring⟩).setCpu c (cpu.goto (.flush r n k)))
      (List.replicate xs.length (.go c 0 false)) =
    some ((s.setRing r ⟨[], ring'⟩).setCpu c (cpu.goto (.flush r (n + xs.length) k))) := by
  induction xs generalizing n ring with
  | nil =>
    obtain rfl : ring' = ring := BoundedFifo.ext (by simpa using h)
    rfl
  | cons x xs ih =>
    have hroom : ring.items.length < ringSize := by
      have hfits := ring'.fits
      rw [h, List.length_append, List.length_cons] at hfits
      omega
    obtain ⟨hpush, -⟩ := ring.push_of_lt x hroom
    have hround : (⟨x :: xs, ring⟩ : UnboundedSpscQueue α).flushRound =
        some ⟨xs, (ring.push x).1⟩ := by
      have hw : ring.writeAvailable ≠ 0 :=
        Nat.pos_iff_ne_zero.mp ((ring.writeAvailable_pos_iff).mpr hroom)
      simp [UnboundedSpscQueue.flushRound, hw]
    have hgo : ((s.setRing r ⟨x :: xs, ring⟩).setCpu c (cpu.goto (.flush r n k))).go
        cpuCount c 0 false =
        some ((s.setRing r ⟨xs, (ring.push x).1⟩).setCpu c (cpu.goto (.flush r (n + 1) k))) := by
      simp [Os.go, Cpu.goto, hround, setRing_setCpu]
    rw [List.length_cons, List.replicate_succ, exec_go hc hgo,
      ih (by rw [h, hpush, List.append_assoc, List.singleton_append]), Nat.add_right_comm,
      Nat.add_assoc]

/-- User code submits an item: the eighth in the buffer starts a flush. -/
theorem exec_submit (hc : c < cpuCount) (cpu : Cpu α) (k : Caller α) {j : Nat} (hj : j < cpuCount)
    (hne : c ≠ j) (ring : BoundedFifo α ringSize) (ys : List α) (x : α) (as : List (OsAct α)) :
    (osMachine cpuCount).exec
      ((s.setRing (.tx c j) ⟨ys, ring⟩).setCpu c (cpu.goto (.user k))) (.submit c j x :: as) =
    (osMachine cpuCount).exec ((s.setRing (.tx c j) ⟨ys ++ [x], ring⟩).setCpu c
      (cpu.goto (if ys.length < 7 then .user k else .flush (.tx c j) 0 (.user k)))) as := by
  have hstep : (osMachine cpuCount).step
      ((s.setRing (.tx c j) ⟨ys, ring⟩).setCpu c (cpu.goto (.user k))) (.submit c j x) =
      some ((s.setRing (.tx c j) ⟨ys ++ [x], ring⟩).setCpu c
        (cpu.goto (if ys.length < 7 then .user k else .flush (.tx c j) 0 (.user k)))) := by
    simp only [osMachine, Os.step, OsAct.cpu, hc, if_true, setCpu_self, Cpu.goto, Os.userStep,
      submitTo, ne_eq, hne, not_false_eq_true, hj, and_self, Os.push, setCpu_rings, setRing_self,
      UnboundedSpscQueue.push, List.length_append, List.length_singleton, setRing_setCpu,
      setRing_setRing, setCpu_setCpu]
    by_cases hlen : ys.length < 7
    · simp [hlen, Nat.not_le.mpr hlen]
    · simp [hlen, Nat.not_lt.mp hlen]
  rw [Machine.exec_cons, hstep, Option.bind_some]

theorem exec_submits (hc : c < cpuCount) (cpu : Cpu α) (k : Caller α) {j : Nat} (hj : j < cpuCount)
    (hne : c ≠ j) (ring : BoundedFifo α ringSize) (xs : List α) :
    ∀ ys : List α, (ys ++ xs).length < 8 →
      (osMachine cpuCount).exec
        ((s.setRing (.tx c j) ⟨ys, ring⟩).setCpu c (cpu.goto (.user k))) (xs.map (.submit c j)) =
      some ((s.setRing (.tx c j) ⟨ys ++ xs, ring⟩).setCpu c (cpu.goto (.user k))) := by
  induction xs with
  | nil => simp
  | cons x xs ih =>
    intro ys hlen
    have hshort : ys.length < 7 := by
      simp only [List.length_append, List.length_cons] at hlen
      omega
    rw [List.map_cons, exec_submit hc cpu k hj hne, if_pos hshort,
      ih (ys ++ [x]) (by simpa using hlen), List.append_assoc, List.singleton_append]

/-- The loop of `poll_tx` over functions that return at once. -/
theorem exec_process (hc : c < cpuCount) (cpu : Cpu α) (ops : List Poller) (todo : List α) :
    (osMachine cpuCount).exec (s.setCpu c (cpu.goto (.process todo ops)))
      (todo.flatMap fun _ => [.go c 0 false, .done c]) =
      some (s.setCpu c (cpu.goto (.process [] ops))) := by
  induction todo with
  | nil => rfl
  | cons x todo ih =>
    have hcall : (s.setCpu c (cpu.goto (.process (x :: todo) ops))).go cpuCount c 0 false =
        some (s.setCpu c (cpu.goto (.user (.process todo ops)))) := by simp [Os.go, Cpu.goto]
    have hdone : (osMachine cpuCount).step (s.setCpu c (cpu.goto (.user (.process todo ops))))
        (.done c) = some (s.setCpu c (cpu.goto (.process todo ops))) := by
      simp [osMachine, Os.step, OsAct.cpu, hc, Cpu.goto, Os.userStep]
    rw [List.flatMap_cons, List.cons_append, exec_go hc hcall, List.cons_append, Machine.exec_cons,
      hdone, Option.bind_some]
    exact ih

theorem Os.wakeup_wakeup (s : Os α) (j : Nat) : (s.wakeup j).wakeup j = s.wakeup j := by
  simp [Os.wakeup]

theorem Os.setCpu_comm (s : Os α) {c d : Nat} (h : c ≠ d) (a b : Cpu α) :
    (s.setCpu c a).setCpu d b = (s.setCpu d b).setCpu c a := by
  simp [setCpu, Function.update_comm h]

theorem Os.wakeup_setCpu (s : Os α) {c j : Nat} (h : c ≠ j) (cpu : Cpu α) :
    (s.setCpu c cpu).wakeup j = (s.wakeup j).setCpu c cpu := by
  rw [Os.wakeup, setCpu_of_ne s cpu h.symm, setCpu_comm s h, Os.wakeup]

theorem Os.wakeup_setRing (s : Os α) (r : Ring) (q : UnboundedSpscQueue α) (j : Nat) :
    (s.setRing r q).wakeup j = (s.wakeup j).setRing r q := rfl

theorem exec_fill (hc : c < cpuCount) (cpu : Cpu α) (k : Caller α) {j : Nat} (hj : j < cpuCount)
    (hne : c ≠ j) (ring : BoundedFifo α ringSize) {xs : List α} (hxs : xs.length = 8) :
    (osMachine cpuCount).exec
      ((s.setRing (.tx c j) ⟨[], ring⟩).setCpu c (cpu.goto (.user k))) (xs.map (.submit c j)) =
    some ((s.setRing (.tx c j) ⟨xs, ring⟩).setCpu c (cpu.goto (.flush (.tx c j) 0 (.user k)))) := by
  have hsubmit := exec_submits (s := s) hc cpu k hj hne ring xs.dropLast [] (by simp [hxs])
  have hlast : xs = xs.dropLast ++ [xs.getLast (by intro he; simp [he] at hxs)] :=
    (List.dropLast_append_getLast _).symm
  rw [hlast, List.map_append, Machine.exec_append, hsubmit, Option.bind_some, List.map_singleton,
    exec_submit hc cpu k hj hne, if_neg (by simp [hxs])]
  rfl

/-- The items are submitted and flushed, up to the wake-up of their consumer. -/
def sendActs (c j : Nat) (xs : List α) : List (OsAct α) :=
  xs.map (.submit c j) ++
    (List.replicate xs.length (.go c 0 false) ++ [.go c 0 false, .go c 0 false])

/-- With room in the ring, eight items that are submitted together go into the ring. -/
theorem exec_send (hc : c < cpuCount) (cpu : Cpu α) (k : Caller α) {j : Nat} (hj : j < cpuCount)
    (hne : c ≠ j) {xs : List α} (hxs : xs.length = 8) {ring ring' : BoundedFifo α ringSize}
    (h : ring'.items = ring.items ++ xs) :
    (osMachine cpuCount).exec
      ((s.setRing (.tx c j) ⟨[], ring⟩).setCpu c (cpu.goto (.user k))) (sendActs c j xs) =
    some (((s.wakeup j).setRing (.tx c j) ⟨[], ring'⟩).setCpu c (cpu.goto (.user k))) := by
  have hfull := exec_fill (s := s) hc cpu k hj hne ring hxs
  have hflush := exec_flush (s := s) (n := 0) hc cpu (.tx c j) (.user k) h
  have hnil : (⟨[], ring'⟩ : UnboundedSpscQueue α).flushRound = none := rfl
  have hend : ((s.setRing (.tx c j) ⟨[], ring'⟩).setCpu c
      (cpu.goto (.flush (.tx c j) (0 + xs.length) (.user k)))).go cpuCount c 0 false =
      some ((s.setRing (.tx c j) ⟨[], ring'⟩).setCpu c
        (cpu.goto (.wakeup (.tx c j) (.user k)))) := by
    simp [Os.go, Cpu.goto, hnil, hxs, Cpu.endFlush, Frame.isPoll]
  have hwake : ((s.setRing (.tx c j) ⟨[], ring'⟩).setCpu c
      (cpu.goto (.wakeup (.tx c j) (.user k)))).go cpuCount c 0 false =
      some (((s.wakeup j).setRing (.tx c j) ⟨[], ring'⟩).setCpu c (cpu.goto (.user k))) := by
    rw [← wakeup_setRing, ← wakeup_setCpu _ hne]
    simp [Os.go, Cpu.goto, Cpu.endWakeup, Frame.isPoll, Frame.resume, Ring.consumer]
  rw [sendActs, Machine.exec_append, hfull, Option.bind_some, Machine.exec_append, hflush,
    Option.bind_some]
  exact (exec_go hc hend).trans (exec_go hc hwake)

theorem exec_sends (hc : c < cpuCount) (cpu : Cpu α) (k : Caller α) {j : Nat} (hj : j < cpuCount)
    (hne : c ≠ j) {blocks : List (List α)} (hlen : ∀ xs ∈ blocks, xs.length = 8) (hb : blocks ≠ [])
    {ring ring' : BoundedFifo α ringSize} (h : ring'.items = ring.items ++ blocks.flatten) :
    (osMachine cpuCount).exec ((s.setRing (.tx c j) ⟨[], ring⟩).setCpu c (cpu.goto (.user k)))
      (blocks.flatMap (sendActs c j)) =
    some (((s.wakeup j).setRing (.tx c j) ⟨[], ring'⟩).setCpu c (cpu.goto (.user k))) := by
  induction blocks generalizing s ring with
  | nil => exact absurd rfl hb
  | cons xs blocks ih =>
    have hxs := hlen xs List.mem_cons_self
    rw [List.flatten_cons, ← List.append_assoc] at h
    have hfit : (ring.items ++ xs).length ≤ ringSize := by
      have hfits := ring'.fits
      rw [h, List.length_append] at hfits
      omega
    have hsend := exec_send (s := s) hc cpu k hj hne hxs
      (show (⟨ring.items ++ xs, hfit⟩ : BoundedFifo α ringSize).items = ring.items ++ xs from rfl)
    rw [List.flatMap_cons, Machine.exec_append, hsend, Option.bind_some]
    by_cases hnil : blocks = []
    · subst hnil
      obtain rfl : ring' = ⟨ring.items ++ xs, hfit⟩ := BoundedFifo.ext (by simpa using h)
      rfl
    · rw [ih (fun ys hys => hlen ys (List.mem_cons_of_mem _ hys)) hnil h, wakeup_wakeup]

/-- A CPU at the start of a pass. -/
def Cpu.fresh (cpu : Cpu α) : Cpu α := { cpu with active := false, stalled := false }

/-- A pass of a CPU that finds a batch of functions that return at once, and nothing else,
up to the load of the next pass. -/
def drainActs (c : Nat) (before : List Poller) (batch : List α) (after : List Poller) :
    List (OsAct α) :=
  before.flatMap (idleActs c) ++
    (.go c 0 false :: (batch.flatMap (fun _ => [.go c 0 false, .done c]) ++
      (.go c 0 false :: (after.flatMap (idleActs c) ++ List.replicate 3 (.go c 0 false)))))

/-- The CPU has found something in its pass. -/
def Cpu.found (cpu : Cpu α) : Cpu α := { cpu with active := true }

theorem exec_drain (hc : c < cpuCount) (cpu : Cpu α) (hr : cpu.results = 0) (ht : cpu.taskQueue = 0)
    (hp : cpu.pendingSignals = 0) {i : Nat} {before after : List Poller}
    (hops : pollers cpuCount c = before ++ .ipc (.pollTx i c) :: after)
    (hidle : ∀ op ∈ before ++ after, ∀ q, (s.setRing (.tx i c) q).Idle op)
    {q q' : UnboundedSpscQueue α} {batch : List α} (hpop : q.popBatch = (batch, q'))
    (hne : batch ≠ []) :
    (osMachine cpuCount).exec
        ((s.setRing (.tx i c) q).setCpu c (cpu.goto (.poll (pollers cpuCount c))))
        (drainActs c before batch after) =
    some ((s.setRing (.tx i c) q').setCpu c (cpu.fresh.goto (.poll (pollers cpuCount c)))) := by
  have hbefore : ∀ op ∈ before, (s.setRing (.tx i c) q).Idle op :=
    fun op hop => hidle op (List.mem_append_left _ hop) q
  have hafter : ∀ op ∈ after, (s.setRing (.tx i c) q').Idle op :=
    fun op hop => hidle op (List.mem_append_right _ hop) q'
  have hfound : batch.isEmpty = false := List.isEmpty_eq_false_iff.mpr hne
  have hpoll :
      ((s.setRing (.tx i c) q).setCpu c (cpu.goto (.poll (.ipc (.pollTx i c) :: after)))).go
        cpuCount c 0 false =
      some ((s.setRing (.tx i c) q').setCpu c (cpu.found.goto (.process batch after))) := by
    simp [Os.go, Os.pollStep, Cpu.goto, hpop, setRing_setCpu, hfound, Cpu.found]
  have hend : ((s.setRing (.tx i c) q').setCpu c (cpu.found.goto (.process [] after))).go
      cpuCount c 0 false =
      some ((s.setRing (.tx i c) q').setCpu c (cpu.found.goto (.poll after))) := by
    simp [Os.go, Cpu.goto]
  have hbatch : ((s.setRing (.tx i c) q').setCpu c (cpu.found.goto (.poll []))).go
      cpuCount c 0 false =
      some ((s.setRing (.tx i c) q').setCpu c (cpu.found.goto (.batch 8))) := by
    simp [Os.go, Cpu.goto, Cpu.found]
  have hload : ((s.setRing (.tx i c) q').setCpu c (cpu.found.goto (.batch 8))).go
      cpuCount c 0 false =
      some ((s.setRing (.tx i c) q').setCpu c (cpu.found.goto .load)) := by
    simp [Os.go, Cpu.goto, Cpu.found, ht]
  have hpass : ((s.setRing (.tx i c) q').setCpu c (cpu.found.goto .load)).go cpuCount c 0 false =
      some ((s.setRing (.tx i c) q').setCpu c (cpu.fresh.goto (.poll (pollers cpuCount c)))) := by
    simp [Os.go, Cpu.goto, Cpu.fresh, Cpu.found, hp]
  have hrest := exec_idle_pass (s := s.setRing (.tx i c) q') hc cpu.found hr hafter
  rw [drainActs, Machine.exec_append, hops, exec_idle_pollers hc cpu hr _ hbefore, Option.bind_some,
    exec_go hc hpoll, Machine.exec_append, exec_process hc, Option.bind_some, exec_go hc hend,
    Machine.exec_append, hrest, Option.bind_some, ← hops]
  exact (exec_go hc hbatch).trans ((exec_go hc hload).trans (exec_go hc hpass))

/-- The passes of a CPU that empty a ring, eight items at a time. -/
theorem exec_drains (hc : c < cpuCount) {i : Nat} {before after : List Poller}
    (hops : pollers cpuCount c = before ++ .ipc (.pollTx i c) :: after)
    (hidle : ∀ op ∈ before ++ after, ∀ q, (s.setRing (.tx i c) q).Idle op) (buffer : List α)
    {blocks : List (List α)} (hlen : ∀ xs ∈ blocks, xs.length = 8) (hb : blocks ≠ []) :
    ∀ (cpu : Cpu α) (h : blocks.flatten.length ≤ ringSize), cpu.results = 0 → cpu.taskQueue = 0 →
      cpu.pendingSignals = 0 →
      (osMachine cpuCount).exec ((s.setRing (.tx i c) ⟨buffer, ⟨blocks.flatten, h⟩⟩).setCpu c
        (cpu.goto (.poll (pollers cpuCount c))))
        (blocks.flatMap fun batch => drainActs c before batch after) =
      some ((s.setRing (.tx i c) ⟨buffer, .empty⟩).setCpu c
        (cpu.fresh.goto (.poll (pollers cpuCount c)))) := by
  induction blocks with
  | nil => exact absurd rfl hb
  | cons batch blocks ih =>
    intro cpu h hr ht hp
    have hbatch := hlen batch List.mem_cons_self
    have hfit : blocks.flatten.length ≤ ringSize := by
      rw [List.flatten_cons, List.length_append] at h
      omega
    have hpop : (⟨buffer, ⟨(batch :: blocks).flatten, h⟩⟩ : UnboundedSpscQueue α).popBatch =
        (batch, ⟨buffer, ⟨blocks.flatten, hfit⟩⟩) := by
      simp [UnboundedSpscQueue.popBatch, BoundedFifo.pop, BoundedFifo.discard, ← hbatch]
    have hne : batch ≠ [] := fun he => by simp [he] at hbatch
    rw [List.flatMap_cons, Machine.exec_append, exec_drain hc cpu hr ht hp hops hidle hpop hne,
      Option.bind_some]
    by_cases hnil : blocks = []
    · subst hnil
      rfl
    · exact ih (fun xs hxs => hlen xs (List.mem_cons_of_mem _ hxs)) hnil cpu.fresh hfit hr ht hp

end Miniss
