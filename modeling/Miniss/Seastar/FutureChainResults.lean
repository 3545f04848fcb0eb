import Miniss.Seastar.FutureChainRefines
import Miniss.Seastar.FiberResults
import Miniss.Seastar.FiberProgress

/-! What the chains of futures on the heap compute, and what they leave behind. -/
namespace Miniss

variable {ν ε ρ : Type*}

abbrev HeapChains (ν ε ρ : Type*) :=
  FutureChains.On (FutureHeap ℕ ℕ ν (Captured ν ε ρ)) ν ε ρ

namespace HeapChains

def machine : Machine (HeapChains ν ε ρ) (FiberOp ν ε ρ) :=
  FutureChains.machine FutureHeap.machine

theorem values_lockstep : Machine.Lockstep machine (FutureChains.machine FutureValues.machine)
    (FutureChains.Alike (ν := ν) (ε := ε) (ρ := ρ)
      fun x y => Represents x.1 y.1 ∧ x.2 = y.2) :=
  FutureChains.lockstep heap_lockstep fun _ _ h => h.2

theorem carried {ls : List (FiberOp ν ε ρ)} {m : HeapChains ν ε ρ} (h : machine.Reaches ls m) :
    ∃ (v : ValueChains ν ε ρ) (t : Fibers ν ε ρ), Fibers.machine.Reaches ls t ∧
      FutureChains.Alike (fun x y => Represents x.1 y.1 ∧ x.2 = y.2) m v ∧ Carries v t := by
  obtain ⟨v, hv, hmv⟩ := values_lockstep.reaches h
  obtain ⟨t, ht, hvt⟩ := chains_lockstep.reaches hv
  exact ⟨v, t, ht, hmv, hvt⟩

/-- Whatever the fibers do, the chains on the heap do, and stand where the fibers stand. -/
theorem carried_of_fibers {ls : List (FiberOp ν ε ρ)} {t : Fibers ν ε ρ}
    (h : Fibers.machine.Reaches ls t) : ∃ m : HeapChains ν ε ρ, machine.Reaches ls m ∧
      m.journal = t.journal ∧ m.store.1.taskQueue.length = t.queue.length ∧
        ∀ i, (∀ q ks, t.fiber i ≠ some ⟨.request q, ks⟩) → m.inputs i = none := by
  obtain ⟨v, hv, hvt⟩ := chains_lockstep.reached h
  obtain ⟨m, hm, hmv⟩ := values_lockstep.reached hv
  refine ⟨m, hm, hmv.journal.trans hvt.journal, ?_, fun i hi => ?_⟩
  · have hlen := congrArg List.length hmv.store.1.queue
    rw [List.length_map, List.length_map] at hlen
    rw [hlen, ← hvt.queue, List.length_map]
  · have hstands := hvt.stands i
    rw [hmv.inputs]
    cases hx : t.fiber i with
    | none =>
      rw [hx] at hstands
      exact hstands.of_none.2.2
    | some x =>
      rw [hx] at hstands
      obtain ⟨f, -, hholds⟩ := hstands.of_some
      exact hholds.input_eq_none fun q ks he => hi q ks (by rw [hx, he])

end HeapChains

/-- Continuations on the heap run exactly as fibers with stacks do. -/
theorem chains_agree (ls : List (FiberOp ν ε ρ)) :
    (HeapChains.machine.exec HeapChains.machine.init ls).map FutureChains.journal =
      (Fibers.machine.exec Fibers.machine.init ls).map Fibers.journal := by
  have hvalues := map_eq_of_rel (HeapChains.values_lockstep.exec HeapChains.values_lockstep.init ls)
    fun _ _ h => h.journal
  have hfibers := map_eq_of_rel (chains_lockstep.exec chains_lockstep.init ls)
    fun _ _ h => h.journal
  exact hvalues.trans hfibers

/-- The events of a chain whose result was taken are those of its computation, read from top to
bottom, and the result is the one that it ends with. -/
theorem HeapChains.result {ls : List (FiberOp ν ε ρ)} {m : HeapChains ν ε ρ}
    (h : machine.Reaches ls m) {i : ℕ} {r : Except Exn ν} (hr : (i, r) ∈ m.journal.results) :
    ∃ p, m.journal.started[i]? = some p ∧ p.Eval (m.journal.events i) r := by
  obtain ⟨v, t, ht, hmv, hvt⟩ := HeapChains.carried h
  rw [hmv.journal, hvt.journal] at hr ⊢
  exact ((Fibers.sound ht).taken i r hr).2

theorem HeapChains.evaluated {ls : List (FiberOp ν ε ρ)} {m : HeapChains ν ε ρ}
    (h : machine.Reaches ls m) {i : ℕ} {r : Except Exn ν} {p : Computation ν ε ρ}
    (hp : m.journal.started[i]? = some p) (hr : (i, r) ∈ m.journal.results) :
    p.Eval (m.journal.events i) r := by
  obtain ⟨p', hp', he⟩ := HeapChains.result h hr
  obtain rfl := Option.some.inj (hp.symm.trans hp')
  exact he

/-- At any time, what a chain has done is the beginning of what its computation does when it is
read from top to bottom, and all of it when the result is taken. -/
theorem chain_reads_downward {ls : List (FiberOp ν ε ρ)} {m : HeapChains ν ε ρ}
    (h : HeapChains.machine.Reaches ls m) {i : ℕ} {p : Computation ν ε ρ}
    (hp : m.journal.started[i]? = some p) :
    ∃ es r, p.Eval (m.journal.events i ++ es) r ∧
      ∀ r', (i, r') ∈ m.journal.results → es = [] ∧ r' = r := by
  by_cases hr : ∃ r, (i, r) ∈ m.journal.results
  · obtain ⟨r, hr⟩ := hr
    have he := HeapChains.evaluated h hp hr
    refine ⟨[], r, by rwa [List.append_nil], fun r' hr' => ⟨rfl, ?_⟩⟩
    exact ((HeapChains.evaluated h hp hr').determined he rfl).2
  · obtain ⟨v, t, ht, hmv, hvt⟩ := HeapChains.carried h
    rw [hmv.journal, hvt.journal] at hp hr ⊢
    obtain ⟨hlt, -⟩ := List.getElem?_eq_some_iff.mp hp
    cases hx : t.fiber i with
    | none => exact absurd ((Fibers.turns ht).gone i hlt hx) hr
    | some x =>
      obtain ⟨es, r, hes⟩ := x.exists_finishes
      exact ⟨es, r, (Fibers.sound ht).goes i x p hx hp es r hes, fun r' hr' => absurd ⟨r', hr'⟩ hr⟩

/-- A chain that asks once and emits the answer. -/
def asked : Computation ℕ ℕ Unit := (Computation.request ()).then_ fun v => .emit v (.ready (.ok 0))

theorem chain_reads_downward_asked : ∃ m, HeapChains.machine.Reaches
    [.start asked, .answer 0 (.ok 3), .run, .take 0] m ∧
    ∃ es r, asked.Eval (m.journal.events 0 ++ es) r ∧
      ∀ r', (0, r') ∈ m.journal.results → es = [] ∧ r' = r := by
  obtain ⟨m, hm, hj, -⟩ := HeapChains.carried_of_fibers (rfl : Fibers.machine.Reaches
    [.start asked, .answer 0 (.ok 3), .run, .take 0] _)
  exact ⟨m, hm, chain_reads_downward hm (by rw [hj]; rfl)⟩

/-- Two chains of the same computation that get the same answers do the same, whatever runs between
their tasks. -/
theorem chain_order_irrelevant {ls ls' : List (FiberOp ν ε ρ)} {m m' : HeapChains ν ε ρ}
    (h : HeapChains.machine.Reaches ls m) (h' : HeapChains.machine.Reaches ls' m') {i i' : ℕ}
    (hp : m.journal.started[i]? = m'.journal.started[i']?) {r r' : Except Exn ν}
    (hr : (i, r) ∈ m.journal.results) (hr' : (i', r') ∈ m'.journal.results)
    (ha : answers (m.journal.events i) = answers (m'.journal.events i')) :
    m.journal.events i = m'.journal.events i' ∧ r = r' := by
  obtain ⟨p, hpi, he⟩ := HeapChains.result h hr
  obtain ⟨p', hpi', he'⟩ := HeapChains.result h' hr'
  obtain rfl := Option.some.inj (hpi.symm.trans (hp.trans hpi'))
  exact he.determined he' ha

/-- The second run has another chain whose task comes first. -/
theorem chain_order_irrelevant_asked : ∃ m m', HeapChains.machine.Reaches
    [.start asked, .answer 0 (.ok 3), .run, .take 0] m ∧ HeapChains.machine.Reaches
    [.start asked, .start asked, .answer 0 (.ok 5), .answer 1 (.ok 3), .run, .run, .take 1] m' ∧
    m.journal.events 0 = m'.journal.events 1 ∧ (.ok 0 : Except Exn ℕ) = .ok 0 := by
  obtain ⟨m, hm, hj, -⟩ := HeapChains.carried_of_fibers (rfl : Fibers.machine.Reaches
    [.start asked, .answer 0 (.ok 3), .run, .take 0] _)
  obtain ⟨m', hm', hj', -⟩ := HeapChains.carried_of_fibers (rfl : Fibers.machine.Reaches
    [.start asked, .start asked, .answer 0 (.ok 5), .answer 1 (.ok 3), .run, .run, .take 1] _)
  refine ⟨m, m', hm, hm', chain_order_irrelevant hm hm' ?_ ?_ ?_ ?_⟩
  · rw [hj, hj']
    rfl
  · rw [hj]
    exact List.mem_singleton_self _
  · rw [hj']
    exact List.mem_singleton_self _
  · rw [hj, hj']
    rfl

/-- When no task is scheduled and no request is open, the result of every chain is there: none
waits for a promise that nobody will set. -/
theorem chain_not_stuck {ls : List (FiberOp ν ε ρ)} {m : HeapChains ν ε ρ}
    (h : HeapChains.machine.Reaches ls m) (hq : m.store.1.taskQueue = [])
    (ha : ∀ i, m.inputs i = none) {i : ℕ} (hi : i < m.journal.started.length) :
    (∃ r, (i, r) ∈ m.journal.results) ∨ (HeapChains.machine.step m (.take i)).isSome := by
  obtain ⟨v, t, ht, hmv, hvt⟩ := HeapChains.carried h
  have hturns := Fibers.turns ht
  rw [hmv.journal, hvt.journal] at hi ⊢
  cases hx : t.fiber i with
  | none => exact .inl (hturns.gone i hi hx)
  | some x =>
    right
    have hqueue : t.queue = [] := by
      have hmap := hmv.store.1.queue
      rw [hq] at hmap
      rw [← hvt.queue, List.map_eq_nil_iff.mp hmap.symm]
      rfl
    have hask : ∀ i q ks, t.fiber i ≠ some ⟨.request q, ks⟩ := by
      intro j q ks hj
      have hstands := hvt.stands j
      rw [hj, ← hmv.inputs, ha j] at hstands
      obtain ⟨f, -, hholds⟩ := hstands.of_some
      cases hholds.input_isSome
    have htake : (Fibers.machine.step t (.take i)).isSome := hturns.take_isSome hqueue hask hx
    rw [← isSome_iff_of_rel (chains_lockstep.step v t (.take i) hvt),
      ← isSome_iff_of_rel (HeapChains.values_lockstep.step m v (.take i) hmv)] at htake
    exact htake

theorem chain_not_stuck_asked : ∃ m, HeapChains.machine.Reaches
    [.start asked, .answer 0 (.ok 3), .run] m ∧
    ((∃ r, (0, r) ∈ m.journal.results) ∨ (HeapChains.machine.step m (.take 0)).isSome) := by
  obtain ⟨m, hm, hj, hq, ha⟩ := HeapChains.carried_of_fibers (rfl : Fibers.machine.Reaches
    [.start asked, .answer 0 (.ok 3), .run] _)
  refine ⟨m, hm, chain_not_stuck hm (List.eq_nil_of_length_eq_zero hq) (fun i => ha i ?_) ?_⟩
  · intro q ks hx
    cases i <;> cases hx
  · rw [hj]
    exact Nat.one_pos

/-- When the results of all chains are taken, no promise, no future and no task is left. -/
theorem chain_leaves_nothing {ls : List (FiberOp ν ε ρ)} {m : HeapChains ν ε ρ}
    (h : HeapChains.machine.Reaches ls m)
    (hall : ∀ i, i < m.journal.started.length → ∃ r, (i, r) ∈ m.journal.results) :
    (∀ a, m.store.1.promises a = none) ∧ (∀ f, m.store.1.futures f = none) ∧
      ∀ k, m.store.1.tasks k = none := by
  obtain ⟨v, t, ht, hmv, hvt⟩ := HeapChains.carried h
  rw [hmv.journal, hvt.journal] at hall
  have hgone (i : ℕ) : t.fiber i = none := by
    by_cases hi : i < t.journal.started.length
    · obtain ⟨r, hr⟩ := hall i hi
      exact ((Fibers.sound ht).taken i r hr).1
    · exact hvt.fresh i (not_lt.mp hi)
  have hstands (i : ℕ) : v.roots i = none ∧ tasksOf v.store.1 i = [] := by
    have hi := hvt.stands i
    rw [hgone i] at hi
    exact ⟨hi.of_none.1, hi.of_none.2.1⟩
  have hfutures (f : ℕ) : v.store.1.futures f = none := by
    by_contra hne
    obtain ⟨c, hc⟩ := Option.ne_none_iff_exists'.mp hne
    obtain ⟨i, hi⟩ := hvt.futures f c hc
    cases (hstands i).1.symm.trans hi
  have hpromises (a : ℕ) : m.store.1.promises a = none := by
    refine hmv.store.1.promise_vacant_iff.mpr ⟨?_, by rw [hvt.clean.spent]; exact nofun⟩
    by_contra hne
    obtain ⟨c, hc⟩ := Option.ne_none_iff_exists'.mp hne
    obtain ⟨ks, f, hw⟩ := hvt.clean.waits a c hc
    obtain ⟨d, hd, -⟩ := hw.future
    cases (hfutures f).symm.trans hd
  have hscheduled : v.store.1.scheduled = [] := by
    refine List.eq_nil_iff_forall_not_mem.mpr fun k hk => ?_
    have hmem : k ∈ tasksOf v.store.1 k.func.fiber := List.mem_filter.mpr ⟨hk, by simp⟩
    rw [(hstands _).2] at hmem
    cases hmem
  refine ⟨hpromises, fun f => hmv.store.1.future_vacant_iff.mpr (hfutures f), fun k => ?_⟩
  by_contra hne
  obtain hmem | ⟨a, ha⟩ := hmv.store.1.tasks.owned k hne
  · have hmap := hmv.store.1.queue
    rw [hscheduled] at hmap
    rw [List.map_eq_nil_iff.mp hmap] at hmem
    cases hmem
  · rw [FutureHeap.taskOf, hpromises] at ha
    cases ha

theorem chain_leaves_nothing_asked : ∃ m, HeapChains.machine.Reaches
    [.start asked, .answer 0 (.ok 3), .run, .take 0] m ∧
    (∀ a, m.store.1.promises a = none) ∧ (∀ f, m.store.1.futures f = none) ∧
      ∀ k, m.store.1.tasks k = none := by
  obtain ⟨m, hm, hj, -⟩ := HeapChains.carried_of_fibers (rfl : Fibers.machine.Reaches
    [.start asked, .answer 0 (.ok 3), .run, .take 0] _)
  refine ⟨m, hm, chain_leaves_nothing hm fun i hi => ?_⟩
  rw [hj] at hi ⊢
  obtain rfl : i = 0 := Nat.lt_one_iff.mp hi
  exact ⟨_, List.mem_singleton_self _⟩

end Miniss
