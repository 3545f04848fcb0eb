import Miniss.CrossCpuSteps
import Mathlib.Data.List.Nodup
import Mathlib.Data.List.Perm.Basic

/-! Calls between CPUs are made exactly once: a work item is in one place at a time on its
way from `submit` to its deletion, and only the CPU that owns the place touches it. -/
namespace Miniss
variable {ν : Type*}

def FromPc.todo : FromPc → List Nat
  | .complete _ todo => todo
  | _ => []

def ToPc.todo : ToPc → List Nat
  | .process _ todo => todo
  | _ => []

def ItemTask.item : ItemTask ν → Nat
  | .fill item _ => item
  | .respond item => item

def ItemTask.fill? : ItemTask ν → Option Nat
  | .fill item _ => some item
  | .respond _ => none

def ItemTask.respond? : ItemTask ν → Option Nat
  | .fill _ _ => none
  | .respond item => some item

/-- Items whose `ret_` a queued continuation will fill. -/
def fills (ts : List (Nat × ItemTask ν)) : List Nat := ts.filterMap fun t => t.2.fill?

/-- Items that a queued continuation will respond with. -/
def responds (ts : List (Nat × ItemTask ν)) : List Nat := ts.filterMap fun t => t.2.respond?

@[simp] theorem fills_append (ts us : List (Nat × ItemTask ν)) :
    fills (ts ++ us) = fills ts ++ fills us := List.filterMap_append

@[simp] theorem responds_append (ts us : List (Nat × ItemTask ν)) :
    responds (ts ++ us) = responds ts ++ responds us := List.filterMap_append

@[simp] theorem fills_nil : fills ([] : List (Nat × ItemTask ν)) = [] := rfl

@[simp] theorem responds_nil : responds ([] : List (Nat × ItemTask ν)) = [] := rfl

@[simp] theorem fills_fill (cpu item : Nat) (r : CallResult ν) (ts : List (Nat × ItemTask ν)) :
    fills ((cpu, .fill item r) :: ts) = item :: fills ts := rfl

@[simp] theorem fills_respond (cpu item : Nat) (ts : List (Nat × ItemTask ν)) :
    fills ((cpu, .respond item) :: ts) = fills ts := rfl

@[simp] theorem responds_fill (cpu item : Nat) (r : CallResult ν)
    (ts : List (Nat × ItemTask ν)) : responds ((cpu, .fill item r) :: ts) = responds ts := rfl

@[simp] theorem responds_respond (cpu item : Nat) (ts : List (Nat × ItemTask ν)) :
    responds ((cpu, .respond item) :: ts) = item :: responds ts := rfl

theorem tasks_perm (ts : List (Nat × ItemTask ν)) :
    (ts.map fun t => t.2.item).Perm (fills ts ++ responds ts) := by
  induction ts with
  | nil => exact List.Perm.nil
  | cons t ts ih =>
    obtain ⟨cpu, t⟩ := t
    cases t with
    | fill item r => exact ih.cons item
    | respond item => exact (ih.cons item).trans List.perm_middle.symm

namespace CrossCpuQueue

/-- Items whose `ret_` is not filled, from the sent ones to those whose function ended. -/
def unanswered (q : CrossCpuQueue ν) : List Nat :=
  q.toPc.todo ++ (q.tx.contents ++ (q.running ++ fills q.tasks))

/-- Items whose `ret_` is filled, on their way back. -/
def answered (q : CrossCpuQueue ν) : List Nat :=
  responds q.tasks ++ (q.fromPc.todo ++ q.rx.contents)

/-- The way of an item, up to its start in the order of the calls, and then in any order. -/
structure Path (q : CrossCpuQueue ν) : Prop where
  order : List.range q.submitted = q.started.map Prod.fst ++ (q.toPc.todo ++ q.tx.contents)
  flow : (q.running ++ (fills q.tasks ++ (q.answered ++ q.completed.map Prod.fst))).Perm
    (q.started.map Prod.fst)

/-- What the pointers on the way point to. -/
structure Owned (q : CrossCpuQueue ν) : Prop where
  live : ∀ w ∈ q.unanswered, ∃ ret, q.heap w = some ret
  ready : ∀ w ∈ q.answered, ∃ r, q.heap w = some (some r) ∧ (w, r) ∈ q.filled
  resolved : q.resolved.map Prod.fst = q.completed.map Prod.fst
  values : ∀ p ∈ q.resolved, p ∈ q.filled
  deleted : q.deleted = q.completed
  gone : ∀ w ∈ q.completed.map Prod.fst, q.heap w = none
  aborted : q.aborted = false
  fault : q.fault = false

structure Placed (q : CrossCpuQueue ν) : Prop where
  completing : ∀ cpu todo, q.fromPc = .complete cpu todo → cpu = q.from_
  processing : ∀ cpu todo, q.toPc = .process cpu todo → cpu = q.to_
  tasks : ∀ t ∈ q.tasks, t.1 = q.to_
  started : ∀ p ∈ q.started, p.2 = q.to_
  completed : ∀ p ∈ q.completed, p.2 = q.from_
  asserts : q.assertFailed = false

theorem path_init (i j : Nat) : Path (init i j : CrossCpuQueue ν) := by
  constructor <;> simp [init, answered, FromPc.todo, ToPc.todo]

theorem owned_init (i j : Nat) : Owned (init i j : CrossCpuQueue ν) := by
  constructor <;> simp [init, unanswered, answered, FromPc.todo, ToPc.todo]

theorem placed_init (i j : Nat) : Placed (init i j : CrossCpuQueue ν) := by
  constructor <;> simp [init]

theorem Path.all {q : CrossCpuQueue ν} (h : Path q) :
    (q.unanswered ++ (q.answered ++ q.completed.map Prod.fst)).Perm
      (List.range q.submitted) := by
  rw [h.order]
  refine List.perm_iff_count.mpr fun x => ?_
  have := h.flow.count_eq x
  simp only [unanswered, List.count_append] at this ⊢
  omega

theorem Path.nodup {q : CrossCpuQueue ν} (h : Path q) :
    (q.unanswered ++ (q.answered ++ q.completed.map Prod.fst)).Nodup :=
  h.all.nodup_iff.mpr List.nodup_range

theorem Path.running_nodup {q : CrossCpuQueue ν} (h : Path q) : q.running.Nodup := by
  have hp := h.nodup
  simp only [unanswered, List.nodup_append] at hp
  exact hp.1.2.1.2.1.1

theorem Path.not_mem_submitted {q : CrossCpuQueue ν} (h : Path q) :
    q.submitted ∉ q.unanswered ++ (q.answered ++ q.completed.map Prod.fst) := by
  intro hm
  exact List.not_mem_range_self (h.all.subset hm)

theorem process_of_live {q : CrossCpuQueue ν} {cpu item : Nat} {ret : Option (CallResult ν)}
    (h : q.heap item = some ret) (ready : Option (CallResult ν)) :
    (∃ r, ready = some r ∧ q.process cpu item ready =
      { q with
        started := q.started ++ [(item, cpu)]
        tasks := q.tasks ++ [(cpu, .fill item r)] }) ∨
    (ready = none ∧ q.process cpu item ready =
      { q with started := q.started ++ [(item, cpu)], running := q.running ++ [item] }) := by
  cases ready with
  | some r => exact .inl ⟨r, rfl, by simp [process, h]⟩
  | none => exact .inr ⟨rfl, by simp [process, h]⟩

theorem fill_of_live {q : CrossCpuQueue ν} {item : Nat} {ret : Option (CallResult ν)}
    (h : q.heap item = some ret) (cpu : Nat) (r : CallResult ν) (ts : List (Nat × ItemTask ν)) :
    fill { q with tasks := ts } cpu item r =
      { q with
        heap := Function.update q.heap item (some (some r))
        filled := q.filled ++ [(item, r)]
        tasks := ts ++ [(cpu, .respond item)] } := by
  simp [fill, h]

theorem complete_of_ready {q : CrossCpuQueue ν} {cpu item : Nat} {r : CallResult ν}
    (h : q.heap item = some (some r)) :
    q.complete cpu item =
      { q with
        heap := Function.update q.heap item none
        completed := q.completed ++ [(item, cpu)]
        resolved := q.resolved ++ [(item, r)]
        deleted := q.deleted ++ [(item, cpu)] } := by
  simp [complete, h]

theorem Path.complete {q : CrossCpuQueue ν} {cpu item : Nat} {todo : List Nat} (h : Path q)
    (ho : Owned q) (hpc : q.fromPc = .complete cpu (item :: todo)) :
    Path { q.complete cpu item with fromPc := .complete cpu todo } := by
  obtain ⟨r, hr, -⟩ := ho.ready item (by simp [answered, FromPc.todo, hpc])
  rw [complete_of_ready hr]
  refine ⟨h.order, List.perm_iff_count.mpr fun x => ?_⟩
  have := h.flow.count_eq x
  simp only [answered, FromPc.todo, hpc, List.map_append, List.map_cons, List.map_nil,
    List.count_append, List.count_cons, List.count_nil] at this ⊢
  omega

/-- The item leaves `tx_` for the functions that run, or for a continuation. -/
theorem Path.process {q : CrossCpuQueue ν} {cpu item : Nat} {todo : List Nat} (h : Path q)
    (ho : Owned q) (hpc : q.toPc = .process cpu (item :: todo))
    (ready : Option (CallResult ν)) :
    Path { q.process cpu item ready with toPc := .process cpu todo } := by
  have hord := h.order
  have hflow := h.flow
  obtain ⟨ret, hr⟩ := ho.live item (by simp [unanswered, ToPc.todo, hpc])
  obtain ⟨r, -, hp⟩ | ⟨-, hp⟩ := process_of_live hr ready
  · rw [hp]
    refine ⟨by simpa [ToPc.todo, hpc] using hord, List.perm_iff_count.mpr fun x => ?_⟩
    have := hflow.count_eq x
    simp only [answered, fills_append, fills_fill, fills_nil, responds_append,
      responds_fill, responds_nil, List.map_append, List.map_cons, List.map_nil,
      List.count_append, List.count_cons, List.count_nil] at this ⊢
    omega
  · rw [hp]
    refine ⟨by simpa [ToPc.todo, hpc] using hord, List.perm_iff_count.mpr fun x => ?_⟩
    have := hflow.count_eq x
    simp only [answered, List.map_append, List.map_cons, List.map_nil,
      List.count_append, List.count_cons, List.count_nil] at this ⊢
    omega

/-- A continuation fills `ret_` of its item and queues the next one, or puts the item into
`rx_`. -/
theorem Path.runTask {q : CrossCpuQueue ν} {pre post : List (Nat × ItemTask ν)}
    {t : Nat × ItemTask ν} (h : Path q) (ho : Owned q) (hpc : q.toPc = .idle)
    (ht : q.tasks = pre ++ t :: post) :
    Path (runTask { q with tasks := pre ++ post } t) := by
  have hord := h.order
  have hflow := h.flow
  obtain ⟨cpu, t⟩ := t
  cases t with
  | fill item r =>
    obtain ⟨ret, hr⟩ := ho.live item (by simp [unanswered, ht])
    rw [CrossCpuQueue.runTask, fill_of_live hr]
    refine ⟨hord, List.perm_iff_count.mpr fun x => ?_⟩
    have := hflow.count_eq x
    simp only [answered, ht, fills_append, fills_fill, fills_respond, fills_nil,
      responds_append, responds_fill, responds_respond, responds_nil, List.count_append,
      List.count_cons, List.count_nil] at this ⊢
    omega
  | respond item =>
    refine ⟨?_, List.perm_iff_count.mpr fun x => ?_⟩
    · cases hp : (q.rx.push item).2 <;>
        simpa [CrossCpuQueue.runTask, respond_, assertTo, ToPc.todo, hpc, hp] using hord
    · have := hflow.count_eq x
      simp only [CrossCpuQueue.runTask, respond_, assertTo, answered, ht, fills_append,
        fills_respond, responds_append, responds_respond, UnboundedSpscQueue.contents_push,
        List.count_append, List.count_cons, List.count_nil] at this ⊢
      omega

theorem Path.step {q q' : CrossCpuQueue ν} (h : Path q) (ho : Owned q)
    (hs : CrossCpuStep q q') : Path q' := by
  have hord := h.order
  have hflow := h.flow
  cases hs with
  | submitted hpc =>
    refine ⟨?_, ?_⟩
    · simp [submit, submit_, assertFrom, List.range_succ, hord]
    · cases hp : (q.tx.push q.submitted).2 <;>
        simpa [submit, submit_, assertFrom, answered, FromPc.todo, hpc, hp] using hflow
  | flushTx hpc =>
    exact ⟨hord, by simpa [CrossCpuQueue.flushTx, assertFrom, answered, FromPc.todo, hpc]
      using hflow⟩
  | pollRx hpc =>
    refine ⟨hord, ?_⟩
    simpa [CrossCpuQueue.pollRx, assertFrom, answered, FromPc.todo, hpc] using hflow
  | flushRx hpc =>
    exact ⟨by simpa [CrossCpuQueue.flushRx, assertTo, ToPc.todo, hpc] using hord, hflow⟩
  | pollTx hpc =>
    exact ⟨by simpa [CrossCpuQueue.pollTx, assertTo, ToPc.todo, hpc] using hord, hflow⟩
  | txMoved n tx hpc htx =>
    refine ⟨?_, ?_⟩
    · simpa [UnboundedSpscQueue.contents_flushRound htx] using hord
    · simpa [answered, FromPc.todo, hpc] using hflow
  | txFlushed n woken hpc => exact ⟨hord, by simpa [answered, FromPc.todo, hpc] using hflow⟩
  | rxMoved n rx hpc hrx =>
    refine ⟨by simpa [ToPc.todo, hpc] using hord, ?_⟩
    simpa [answered, UnboundedSpscQueue.contents_flushRound hrx] using hflow
  | rxFlushed n woken hpc => exact ⟨by simpa [ToPc.todo, hpc] using hord, hflow⟩
  | completed cpu item todo hpc => exact h.complete ho hpc
  | completedAll cpu hpc => exact ⟨hord, by simpa [answered, FromPc.todo, hpc] using hflow⟩
  | processed cpu item todo ready hpc => exact h.process ho hpc ready
  | processedAll cpu hpc => exact ⟨by simpa [ToPc.todo, hpc] using hord, hflow⟩
  | resolved pre post item r hr =>
    refine ⟨hord, List.perm_iff_count.mpr fun x => ?_⟩
    have := hflow.count_eq x
    simp only [answered, hr, fills_append, fills_fill, fills_nil, responds_append,
      responds_fill, responds_nil, List.count_append, List.count_cons, List.count_nil] at this ⊢
    omega
  | ran pre post t hpc ht => exact h.runTask ho hpc ht

/-- The part of a queue that only `submit`, the filling of `ret_` and `complete` touch. -/
def memory (q : CrossCpuQueue ν) :=
  (q.heap, q.filled, q.completed, q.resolved, q.deleted, q.aborted, q.fault)

theorem Owned.move {q q' : CrossCpuQueue ν} (h : Owned q) (hm : q'.memory = q.memory)
    (hu : q'.unanswered ⊆ q.unanswered) (ha : q'.answered ⊆ q.answered) : Owned q' := by
  simp only [memory, Prod.mk.injEq] at hm
  obtain ⟨hheap, hfilled, hcompleted, hresolved, hdeleted, haborted, hfault⟩ := hm
  constructor <;> simp only [hheap, hfilled, hcompleted, hresolved, hdeleted, haborted, hfault]
  · exact fun w hw => h.live w (hu hw)
  · exact fun w hw => h.ready w (ha hw)
  · exact h.resolved
  · exact h.values
  · exact h.deleted
  · exact h.gone
  · exact h.aborted
  · exact h.fault

theorem Owned.submit {q : CrossCpuQueue ν} (h : Owned q) (hp : Path q)
    (hpc : q.fromPc = .idle) (cpu : Nat) : Owned (q.submit cpu) := by
  have hnew := hp.not_mem_submitted
  have hne : ∀ w ∈ q.unanswered ++ (q.answered ++ q.completed.map Prod.fst),
      Function.update q.heap q.submitted (some none) w = q.heap w := by
    intro w hw
    exact Function.update_of_ne (ne_of_mem_of_not_mem hw hnew) _ _
  have hun : (q.submit cpu).unanswered ⊆ q.unanswered ++ [q.submitted] := by
    intro w hw
    simp [CrossCpuQueue.submit, submit_, assertFrom, unanswered] at hw ⊢
    tauto
  have han : (q.submit cpu).answered = q.answered := by
    cases hpu : (q.tx.push q.submitted).2 <;>
      simp [CrossCpuQueue.submit, submit_, assertFrom, answered, FromPc.todo, hpc, hpu]
  refine ⟨?_, ?_, h.resolved, h.values, h.deleted, ?_, h.aborted, h.fault⟩
  · intro w hw
    obtain hw | hw := List.mem_append.mp (hun hw)
    · obtain ⟨ret, hr⟩ := h.live w hw
      exact ⟨ret, (hne w (List.mem_append_left _ hw)).trans hr⟩
    · rw [List.mem_singleton.mp hw]
      exact ⟨none, Function.update_self _ _ _⟩
  · intro w hw
    rw [han] at hw
    obtain ⟨r, hr, hf⟩ := h.ready w hw
    exact ⟨r, (hne w (List.mem_append_right _ (List.mem_append_left _ hw))).trans hr, hf⟩
  · intro w hw
    exact (hne w (List.mem_append_right _ (List.mem_append_right _ hw))).trans (h.gone w hw)

theorem Owned.fill {q : CrossCpuQueue ν} (h : Owned q) (hp : Path q)
    {pre post : List (Nat × ItemTask ν)} {cpu item : Nat} {r : CallResult ν}
    (ht : q.tasks = pre ++ (cpu, .fill item r) :: post) :
    Owned (runTask { q with tasks := pre ++ post } (cpu, .fill item r)) := by
  obtain ⟨ret, hr⟩ := h.live item (by simp [unanswered, ht])
  have hnd := hp.nodup
  have hun : q.unanswered.Perm (item :: (q.toPc.todo ++ (q.tx.contents ++
      (q.running ++ fills (pre ++ post))))) := by
    refine List.perm_iff_count.mpr fun x => ?_
    simp only [unanswered, ht, fills_append, fills_fill, List.count_append, List.count_cons]
    omega
  rw [(hun.append_right _).nodup_iff, List.cons_append, List.nodup_cons] at hnd
  have hne : ∀ w, w ∈ (q.toPc.todo ++ (q.tx.contents ++ (q.running ++ fills (pre ++ post)))) ++
      (q.answered ++ q.completed.map Prod.fst) →
      Function.update q.heap item (some (some r)) w = q.heap w := by
    intro w hw
    exact Function.update_of_ne (ne_of_mem_of_not_mem hw hnd.1) _ _
  rw [runTask, fill_of_live hr]
  refine ⟨?_, ?_, h.resolved, ?_, h.deleted, ?_, h.aborted, h.fault⟩
  · intro w hw
    have hw' : w ∈ q.toPc.todo ++ (q.tx.contents ++ (q.running ++ fills (pre ++ post))) := by
      simpa [unanswered] using hw
    obtain ⟨ret', hr'⟩ := h.live w (hun.symm.subset (List.mem_cons_of_mem _ hw'))
    exact ⟨ret', (hne w (List.mem_append_left _ hw')).trans hr'⟩
  · intro w hw
    have hw' : w ∈ q.answered ∨ w = item := by
      simp [answered, ht] at hw ⊢
      tauto
    obtain hw' | rfl := hw'
    · obtain ⟨r', hr', hf⟩ := h.ready w hw'
      exact ⟨r', (hne w (List.mem_append_right _ (List.mem_append_left _ hw'))).trans hr',
        List.mem_append_left _ hf⟩
    · exact ⟨r, Function.update_self _ _ _, by simp⟩
  · exact fun p hp => List.mem_append_left _ (h.values p hp)
  · intro w hw
    exact (hne w (List.mem_append_right _ (List.mem_append_right _ hw))).trans (h.gone w hw)

/-- `complete` finds a filled item, resolves its promise and deletes it. -/
theorem Owned.complete {q : CrossCpuQueue ν} (h : Owned q) (hp : Path q) {cpu item : Nat}
    {todo : List Nat} (hpc : q.fromPc = .complete cpu (item :: todo)) :
    Owned { q.complete cpu item with fromPc := .complete cpu todo } := by
  obtain ⟨r, hr, hf⟩ := h.ready item (by simp [answered, FromPc.todo, hpc])
  have hnd := hp.nodup
  have han : q.answered.Perm (item :: (responds q.tasks ++ (todo ++ q.rx.contents))) := by
    simp only [answered, hpc, FromPc.todo, List.cons_append]
    exact List.perm_middle
  have hperm : (q.unanswered ++ (q.answered ++ q.completed.map Prod.fst)).Perm
      (item :: (q.unanswered ++ ((responds q.tasks ++ (todo ++ q.rx.contents)) ++
        q.completed.map Prod.fst))) := by
    refine List.perm_iff_count.mpr fun x => ?_
    have := han.count_eq x
    simp only [List.count_append, List.count_cons] at this ⊢
    omega
  rw [hperm.nodup_iff, List.nodup_cons] at hnd
  have hne : ∀ w, w ∈ q.unanswered ++ ((responds q.tasks ++ (todo ++ q.rx.contents)) ++
      q.completed.map Prod.fst) → Function.update q.heap item none w = q.heap w := by
    intro w hw
    exact Function.update_of_ne (ne_of_mem_of_not_mem hw hnd.1) _ _
  rw [complete_of_ready hr]
  refine ⟨?_, ?_, ?_, ?_, ?_, ?_, h.aborted, h.fault⟩
  · intro w hw
    obtain ⟨ret, hr'⟩ := h.live w hw
    exact ⟨ret, (hne w (List.mem_append_left _ hw)).trans hr'⟩
  · intro w hw
    have hw' : w ∈ responds q.tasks ++ (todo ++ q.rx.contents) := hw
    obtain ⟨r', hr', hf'⟩ := h.ready w (han.symm.subset (List.mem_cons_of_mem _ hw'))
    exact ⟨r', (hne w (List.mem_append_right _ (List.mem_append_left _ hw'))).trans hr', hf'⟩
  · simp [h.resolved]
  · exact forall_mem_concat h.values hf
  · rw [h.deleted]
  · intro w hw
    rw [List.map_append] at hw
    obtain hw | hw := List.mem_append.mp hw
    · exact (hne w (List.mem_append_right _ (List.mem_append_right _ hw))).trans (h.gone w hw)
    · rw [List.map_singleton, List.mem_singleton] at hw
      rw [hw]
      exact Function.update_self _ _ _

theorem Owned.process {q : CrossCpuQueue ν} (h : Owned q) {cpu item : Nat} {todo : List Nat}
    (hpc : q.toPc = .process cpu (item :: todo)) (ready : Option (CallResult ν)) :
    Owned { q.process cpu item ready with toPc := .process cpu todo } := by
  obtain ⟨ret, hr⟩ := h.live item (by simp [unanswered, ToPc.todo, hpc])
  obtain ⟨r, -, hpr⟩ | ⟨-, hpr⟩ := process_of_live hr ready
  · rw [hpr]
    refine h.move rfl ?_ (by simp [answered])
    intro w hw
    simp [unanswered, ToPc.todo, hpc] at hw ⊢
    tauto
  · rw [hpr]
    refine h.move rfl ?_ (by simp [answered])
    intro w hw
    simp [unanswered, ToPc.todo, hpc] at hw ⊢
    tauto

theorem Owned.step {q q' : CrossCpuQueue ν} (h : Owned q) (hp : Path q)
    (hs : CrossCpuStep q q') : Owned q' := by
  cases hs with
  | submitted hpc => exact h.submit hp hpc q.from_
  | flushTx hpc =>
    exact h.move rfl (List.Subset.refl _)
      (by simp [CrossCpuQueue.flushTx, assertFrom, answered, FromPc.todo, hpc])
  | pollRx hpc =>
    exact h.move rfl (List.Subset.refl _)
      (by simp [CrossCpuQueue.pollRx, assertFrom, answered, FromPc.todo, hpc])
  | flushRx hpc =>
    exact h.move rfl (by simp [CrossCpuQueue.flushRx, assertTo, unanswered, ToPc.todo, hpc])
      (List.Subset.refl _)
  | pollTx hpc =>
    refine h.move rfl ?_ (List.Subset.refl _)
    simp only [CrossCpuQueue.pollTx, assertTo, unanswered, ToPc.todo, hpc, List.nil_append]
    rw [← List.append_assoc, UnboundedSpscQueue.contents_popBatch]
    exact List.Subset.refl _
  | txMoved n tx hpc htx =>
    refine h.move rfl ?_ ?_
    · simp [unanswered, UnboundedSpscQueue.contents_flushRound htx]
    · simp [answered, FromPc.todo, hpc]
  | txFlushed n woken hpc =>
    exact h.move rfl (List.Subset.refl _) (by simp [answered, FromPc.todo, hpc])
  | rxMoved n rx hpc hrx =>
    refine h.move rfl ?_ ?_
    · simp [unanswered, ToPc.todo, hpc]
    · simp [answered, UnboundedSpscQueue.contents_flushRound hrx]
  | rxFlushed n woken hpc =>
    exact h.move rfl (by simp [unanswered, ToPc.todo, hpc]) (List.Subset.refl _)
  | completed cpu item todo hpc => exact h.complete hp hpc
  | completedAll cpu hpc =>
    exact h.move rfl (List.Subset.refl _) (by simp [answered, FromPc.todo, hpc])
  | processed cpu item todo ready hpc => exact h.process hpc ready
  | processedAll cpu hpc =>
    exact h.move rfl (by simp [unanswered, ToPc.todo, hpc]) (List.Subset.refl _)
  | resolved pre post item r hr =>
    refine h.move rfl ?_ (by simp [answered])
    intro w hw
    simp [unanswered, hr] at hw ⊢
    tauto
  | ran pre post t hpc ht =>
    obtain ⟨cpu, t⟩ := t
    cases t with
    | fill item r => exact h.fill hp ht
    | respond item =>
      refine h.move rfl ?_ ?_
      · cases hpu : (q.rx.push item).2 <;>
          simp [runTask, respond_, assertTo, unanswered, ToPc.todo, hpc, ht, hpu]
      · intro w hw
        simp [runTask, respond_, assertTo, answered, ht] at hw ⊢
        tauto

theorem Placed.process {q : CrossCpuQueue ν} (h : Placed q) (ho : Owned q) {cpu item : Nat}
    {todo : List Nat} (hpc : q.toPc = .process cpu (item :: todo))
    (ready : Option (CallResult ν)) :
    Placed { q.process cpu item ready with toPc := .process cpu todo } := by
  obtain rfl := h.processing cpu _ hpc
  obtain ⟨ret, hr⟩ := ho.live item (by simp [unanswered, ToPc.todo, hpc])
  have hst : ∀ p ∈ q.started ++ [(item, q.to_)], p.2 = q.to_ := forall_mem_concat h.started rfl
  obtain ⟨r, -, hpr⟩ | ⟨-, hpr⟩ := process_of_live hr ready
  · rw [hpr]
    exact ⟨h.completing, by simp, forall_mem_concat h.tasks rfl, hst, h.completed, h.asserts⟩
  · rw [hpr]
    exact ⟨h.completing, by simp, h.tasks, hst, h.completed, h.asserts⟩

/-- What a continuation queues or puts into `rx_` is on `to_`, as the continuation is. -/
theorem Placed.runTask {q : CrossCpuQueue ν} {pre post : List (Nat × ItemTask ν)}
    {t : Nat × ItemTask ν} (h : Placed q) (ho : Owned q) (ht : q.tasks = pre ++ t :: post) :
    Placed (runTask { q with tasks := pre ++ post } t) := by
  have hrest : ∀ u ∈ pre ++ post, u.1 = q.to_ := by
    intro u hm
    refine h.tasks u ?_
    rw [ht]
    simp only [List.mem_append, List.mem_cons] at hm ⊢
    tauto
  have hcpu : t.1 = q.to_ := h.tasks t (by simp [ht])
  obtain ⟨cpu, t⟩ := t
  simp only at hcpu
  subst hcpu
  cases t with
  | fill item r =>
    obtain ⟨ret, hr⟩ := ho.live item (by simp [unanswered, ht])
    rw [CrossCpuQueue.runTask, fill_of_live hr]
    exact ⟨h.completing, h.processing, forall_mem_concat hrest rfl, h.started, h.completed,
      h.asserts⟩
  | respond item =>
    refine ⟨h.completing, ?_, hrest, h.started, h.completed, ?_⟩
    · intro cpu todo he
      cases hpu : (q.rx.push item).2 <;>
        simp [CrossCpuQueue.runTask, respond_, assertTo, hpu] at he
    · simp [CrossCpuQueue.runTask, respond_, assertTo, h.asserts]

theorem Placed.step {q q' : CrossCpuQueue ν} (h : Placed q) (ho : Owned q)
    (hs : CrossCpuStep q q') : Placed q' := by
  have hc := h.completing
  have hp := h.processing
  cases hs with
  | submitted hpc =>
    refine ⟨?_, hp, h.tasks, h.started, h.completed, ?_⟩
    · intro cpu todo he
      cases hpu : (q.tx.push q.submitted).2 <;>
        simp [CrossCpuQueue.submit, submit_, assertFrom, hpu] at he
    · simp [CrossCpuQueue.submit, submit_, assertFrom, h.asserts]
  | flushTx hpc =>
    refine ⟨?_, hp, h.tasks, h.started, h.completed, ?_⟩
    · simp [CrossCpuQueue.flushTx]
    · simp [CrossCpuQueue.flushTx, assertFrom, h.asserts]
  | pollRx hpc =>
    refine ⟨?_, hp, h.tasks, h.started, h.completed, ?_⟩
    · simp [CrossCpuQueue.pollRx, assertFrom]
    · simp [CrossCpuQueue.pollRx, assertFrom, h.asserts]
  | flushRx hpc =>
    refine ⟨hc, ?_, h.tasks, h.started, h.completed, ?_⟩
    · simp [CrossCpuQueue.flushRx]
    · simp [CrossCpuQueue.flushRx, assertTo, h.asserts]
  | pollTx hpc =>
    refine ⟨hc, ?_, h.tasks, h.started, h.completed, ?_⟩
    · simp [CrossCpuQueue.pollTx, assertTo]
    · simp [CrossCpuQueue.pollTx, assertTo, h.asserts]
  | txMoved n tx hpc htx => exact ⟨by simp, hp, h.tasks, h.started, h.completed, h.asserts⟩
  | txFlushed n woken hpc => exact ⟨by simp, hp, h.tasks, h.started, h.completed, h.asserts⟩
  | rxMoved n rx hpc hrx => exact ⟨hc, by simp, h.tasks, h.started, h.completed, h.asserts⟩
  | rxFlushed n woken hpc => exact ⟨hc, by simp, h.tasks, h.started, h.completed, h.asserts⟩
  | completed cpu item todo hpc =>
    obtain rfl := hc cpu _ hpc
    obtain ⟨r, hr, -⟩ := ho.ready item (by simp [answered, FromPc.todo, hpc])
    rw [complete_of_ready hr]
    exact ⟨by simp, hp, h.tasks, h.started, forall_mem_concat h.completed rfl, h.asserts⟩
  | completedAll cpu hpc => exact ⟨by simp, hp, h.tasks, h.started, h.completed, h.asserts⟩
  | processed cpu item todo ready hpc => exact h.process ho hpc ready
  | processedAll cpu hpc => exact ⟨hc, by simp, h.tasks, h.started, h.completed, h.asserts⟩
  | resolved pre post item r hr =>
    exact ⟨hc, hp, forall_mem_concat h.tasks rfl, h.started, h.completed, h.asserts⟩
  | ran pre post t hpc ht => exact h.runTask ho ht

structure Inv (q : CrossCpuQueue ν) : Prop where
  path : Path q
  owned : Owned q
  placed : Placed q

theorem inv_reachable {cpuCount i j : Nat} {as : List (CrossCpuAct ν)} {q : CrossCpuQueue ν}
    (h : (crossCpuMachine cpuCount i j).Reaches as q) : Inv q :=
  h.invariant (I := Inv) ⟨path_init i j, owned_init i j, placed_init i j⟩
    fun _ _ _ hi hst =>
      have hs := cross_cpu_step_cases hst
      ⟨hi.path.step hi.owned hs, hi.owned.step hi.path hs, hi.placed.step hi.owned hs⟩

/-- Items being processed on `to_`: popped by `poll_tx`, or with an unresolved future, or
with a continuation queued. -/
def processing (q : CrossCpuQueue ν) : List Nat :=
  q.toPc.todo ++ (q.running ++ q.tasks.map fun t => t.2.item)

/-- The two buffers, the two rings, the items being processed and the deleted ones. -/
def places (q : CrossCpuQueue ν) : List Nat :=
  q.tx.queueBuffer ++ (q.tx.queue.items ++ (q.processing ++
    (q.rx.queueBuffer ++ (q.rx.queue.items ++ q.deleted.map Prod.fst))))

theorem Inv.places_perm {q : CrossCpuQueue ν} (h : Inv q) :
    (q.places ++ q.fromPc.todo).Perm (List.range q.submitted) := by
  refine List.Perm.trans ?_ h.path.all
  rw [places, h.owned.deleted]
  refine List.perm_iff_count.mpr fun x => ?_
  have := (tasks_perm q.tasks).count_eq x
  simp only [unanswered, answered, processing, UnboundedSpscQueue.contents,
    List.count_append] at this ⊢
  omega

structure ExactlyOnce (q : CrossCpuQueue ν) : Prop where
  /-- Each submitted item is in exactly one place, and in the midst of `poll_rx` in the batch
  it has popped. -/
  place : (q.places ++ q.fromPc.todo).Perm (List.range q.submitted)
  /-- Outside `poll_rx`, the six places are all. -/
  sixPlaces : (∀ cpu todo, q.fromPc ≠ .complete cpu todo) →
    q.places.Perm (List.range q.submitted)
  /-- Functions start on `to_`, in the order of the calls and once each. -/
  started : q.started.map Prod.fst <+: List.range q.submitted ∧ ∀ p ∈ q.started, p.2 = q.to_
  /-- Items are completed and deleted on `from_`, once each. -/
  completed : (q.completed.map Prod.fst).Nodup ∧ q.deleted = q.completed ∧
    ∀ p ∈ q.completed, p.2 = q.from_
  /-- Each completion hands on what `ret_` was filled with before, and none aborts. -/
  filled : q.resolved.map Prod.fst = q.completed.map Prod.fst ∧
    (∀ p ∈ q.resolved, p ∈ q.filled) ∧ q.aborted = false
  /-- No deleted item is touched, and no assertion about `this_cpu()` fails. -/
  safe : q.fault = false ∧ q.assertFailed = false

end CrossCpuQueue

open CrossCpuQueue

/-- In every reachable state of the queue between any two CPUs, each call is on its way once. -/
theorem calls_exactly_once {cpuCount i j : Nat} {as : List (CrossCpuAct ν)}
    {q : CrossCpuQueue ν} (h : (crossCpuMachine cpuCount i j).Reaches as q) :
    q.ExactlyOnce := by
  have hi := inv_reachable h
  refine ⟨hi.places_perm, ?_, ⟨?_, hi.placed.started⟩, ⟨?_, hi.owned.deleted,
    hi.placed.completed⟩, ⟨hi.owned.resolved, hi.owned.values, hi.owned.aborted⟩,
    hi.owned.fault, hi.placed.asserts⟩
  · intro hpc
    have htodo : q.fromPc.todo = [] := by
      cases hf : q.fromPc with
      | complete cpu todo => exact absurd hf (hpc cpu todo)
      | _ => rfl
    have hp := hi.places_perm
    rwa [htodo, List.append_nil] at hp
  · rw [hi.path.order]
    exact List.prefix_append _ _
  · have hnd := hi.path.nodup
    rw [List.nodup_append, List.nodup_append] at hnd
    exact hnd.2.1.2.1

/-- Two calls from CPU 0 to CPU 1; the function of the second ends first. -/
def twoCalls : List (CrossCpuAct Nat) :=
  [.submitTo 0 1, .submitTo 0 1, .poll 0 (.flushTx 0 1), .from_, .from_, .from_,
    .poll 1 (.pollTx 0 1), .to_ none, .to_ (some (.ok 8)), .to_ none, .runTask 0, .runTask 0,
    .poll 1 (.flushRx 0 1), .to_ none, .to_ none, .resolve 1 0 (.ok 7), .runTask 0, .runTask 0,
    .poll 0 (.pollRx 0 1), .from_, .from_, .poll 1 (.flushRx 0 1), .to_ none, .to_ none,
    .poll 0 (.pollRx 0 1), .from_, .from_]

theorem calls_exactly_once_two : ∃ q : CrossCpuQueue Nat,
    (crossCpuMachine 2 0 1).Reaches twoCalls q ∧
    q.started = [(0, 1), (1, 1)] ∧ q.deleted = [(1, 0), (0, 0)] ∧
    q.resolved.map (fun p => (p.1, p.2.toOption)) = [(1, some 8), (0, some 7)] ∧
    q.ExactlyOnce := by
  have hrun : (((crossCpuMachine 2 0 1).exec (crossCpuMachine 2 0 1).init twoCalls).map fun q =>
      (q.started, q.deleted, q.resolved.map (fun p => (p.1, p.2.toOption)))) =
      some ([(0, 1), (1, 1)], [(1, 0), (0, 0)], [(1, some 8), (0, some 7)]) := by
    decide +kernel
  obtain ⟨q, hq, he⟩ := Option.map_eq_some_iff.mp hrun
  simp only [Prod.mk.injEq] at he
  exact ⟨q, hq, he.1, he.2.1, he.2.2, calls_exactly_once hq⟩

end Miniss
