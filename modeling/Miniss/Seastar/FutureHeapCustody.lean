import Miniss.Seastar.FutureCustody

/-! A result is in one place of the heap at most, and it is handed out once at most. -/
namespace Miniss
variable {κ ι ν φ : Type*}

theorem mem_sum_map {α β : Type*} {f : α → Multiset β} {l : List α} {x : β} :
    x ∈ (l.map f).sum ↔ ∃ a ∈ l, x ∈ f a := by
  induction l with
  | nil => simp
  | cons a l ih => simp [ih]

/-- Two members of a list that hold the same are one. -/
theorem index_eq_of_nodup_sum {α β : Type*} {f : α → Multiset β} {l : List α}
    (hl : (l.map f).sum.Nodup) {i j : ℕ} {a b : α} {x : β} (hi : l[i]? = some a)
    (hj : l[j]? = some b) (ha : x ∈ f a) (hb : x ∈ f b) : i = j := by
  induction l generalizing i j with
  | nil => cases hi
  | cons c l ih =>
    rw [List.map_cons, List.sum_cons, Multiset.nodup_add] at hl
    obtain ⟨-, hnodup, hdisj⟩ := hl
    have hmem {k : ℕ} {d : α} (hk : l[k]? = some d) (hd : x ∈ f d) : x ∈ (l.map f).sum :=
      mem_sum_map.mpr ⟨d, List.mem_of_getElem? hk, hd⟩
    cases i with
    | zero =>
      cases j with
      | zero => rfl
      | succ j =>
        cases hi
        exact absurd (hmem hj hb) (Multiset.disjoint_left.mp hdisj ha)
    | succ i =>
      cases j with
      | zero =>
        cases hj
        exact absurd (hmem hi ha) (Multiset.disjoint_left.mp hdisj hb)
      | succ j => exact congrArg _ (ih hnodup hi hj)

namespace FutureValues

/-- The result of the value with a name, or of the scheduled continuation with an index. -/
def resultAt (s : FutureValues κ ι ν φ) : ℕ ⊕ ℕ → Option (Except Exn ν)
  | .inl c => if c < s.next then (s.values c).state.result? else none
  | .inr i => s.scheduled[i]?.bind fun k => k.state.result?

theorem mem_bag {x : FutureState ν} {r : Except Exn ν} : r ∈ x.bag ↔ x.result? = some r := by
  cases h : x.result? <;> simp [FutureState.bag, h, eq_comm]

theorem mem_held {s : FutureValues κ ι ν φ} {c : ℕ} {r : Except Exn ν}
    (hr : s.resultAt (.inl c) = some r) : r ∈ s.held := by
  simp only [resultAt] at hr
  split at hr
  · next hc => exact Multiset.mem_sum.mpr ⟨c, Finset.mem_range.mpr hc, mem_bag.mpr hr⟩
  · cases hr

theorem mem_queued {s : FutureValues κ ι ν φ} {i : ℕ} {r : Except Exn ν}
    (hr : s.resultAt (.inr i) = some r) : r ∈ (s.scheduled.map fun k => k.state.bag).sum := by
  obtain ⟨k, hk, hr⟩ := Option.bind_eq_some_iff.mp hr
  exact mem_sum_map.mpr ⟨k, List.mem_of_getElem? hk, mem_bag.mpr hr⟩

theorem mem_custody_of_resultAt {s : FutureValues κ ι ν φ} {x : ℕ ⊕ ℕ} {r : Except Exn ν}
    (hr : s.resultAt x = some r) : r ∈ s.custody := by
  cases x with
  | inl c => exact Multiset.mem_add.mpr (.inl (mem_held hr))
  | inr i => exact Multiset.mem_add.mpr (.inr (mem_queued hr))

/-- Of different results no two are the same. -/
theorem resultAt_injective {s : FutureValues κ ι ν φ} (hs : s.custody.Nodup) {x y : ℕ ⊕ ℕ}
    {r : Except Exn ν} (hx : s.resultAt x = some r) (hy : s.resultAt y = some r) : x = y := by
  obtain ⟨hheld, hqueued, hdisj⟩ := Multiset.nodup_add.mp hs
  cases x with
  | inl c =>
    cases y with
    | inl d =>
      by_contra hne
      have hcd : c ≠ d := fun hcd => hne (congrArg _ hcd)
      simp only [resultAt] at hx hy
      split at hx
      · next hc =>
        split at hy
        · next hd =>
          unfold held at hheld
          rw [← Finset.add_sum_erase _ _ (Finset.mem_range.mpr hc), Multiset.nodup_add] at hheld
          refine Multiset.disjoint_left.mp hheld.2.2 (mem_bag.mpr hx) (Multiset.mem_sum.mpr ?_)
          exact ⟨d, Finset.mem_erase.mpr ⟨hcd.symm, Finset.mem_range.mpr hd⟩, mem_bag.mpr hy⟩
        · cases hy
      · cases hx
    | inr j => exact absurd (mem_queued hy) (Multiset.disjoint_left.mp hdisj (mem_held hx))
  | inr i =>
    cases y with
    | inl d => exact absurd (mem_queued hx) (Multiset.disjoint_left.mp hdisj (mem_held hy))
    | inr j =>
      obtain ⟨k, hk, hx⟩ := Option.bind_eq_some_iff.mp hx
      obtain ⟨l, hl, hy⟩ := Option.bind_eq_some_iff.mp hy
      exact congrArg _ (index_eq_of_nodup_sum hqueued hk hl (mem_bag.mpr hx) (mem_bag.mpr hy))

end FutureValues

def FutureHeap.stored (h : FutureHeap κ ι ν φ) (p : StatePointer κ ι) : Option (Except Exn ν) :=
  (h.deref p).bind FutureState.result?

/-- The place of a value or of a scheduled continuation. -/
def FutureHeap.place (h : FutureHeap κ ι ν φ) (s : FutureValues κ ι ν φ) :
    ℕ ⊕ ℕ → Option (StatePointer κ ι)
  | .inl c =>
    match s.promises.symm c with
    | some a => some (.promise a)
    | none => (s.futures.symm c).map .future
  | .inr i => h.taskQueue[i]?.map .task

theorem FutureState.result_of_not_available {x : FutureState ν} (hx : x.available = false) :
    x.result? = none := by
  cases x with
  | invalid => rfl
  | future => rfl
  | result v => cases hx
  | exception e => cases hx

theorem Represents.resultAt_of_stored {s : FutureValues κ ι ν φ} {h : FutureHeap κ ι ν φ}
    (hR : Represents h s) {p : StatePointer κ ι} {r : Except Exn ν} (hp : h.stored p = some r) :
    ∃ x, h.place s x = some p ∧ s.resultAt x = some r := by
  obtain ⟨y, hy, hr⟩ := Option.bind_eq_some_iff.mp hp
  have hfresh : s.Fresh := hR.fresh
  cases p with
  | nullptr => cases hy
  | promise a =>
    obtain ⟨q, hq, rfl⟩ := Option.map_eq_some_iff.mp hy
    cases hR.promise a with
    | vacant hc hs hp => cases hq.symm.trans hp
    | spent x hx hc hs hp =>
      cases hq.symm.trans hp
      cases hr.symm.trans (FutureState.result_of_not_available hx)
    | holds c hc hs hf hp =>
      cases hq.symm.trans hp
      refine ⟨.inl c, by simp [FutureHeap.place, s.promises.eq_some_iff.mpr hc], ?_⟩
      simpa [FutureValues.resultAt, hfresh.promise_lt hc] using hr
    | waits c t x func hx hc hs hf hp ht =>
      cases hq.symm.trans hp
      cases hr.symm.trans (FutureState.result_of_not_available hx)
  | future f =>
    obtain ⟨q, hq, rfl⟩ := Option.map_eq_some_iff.mp hy
    cases hR.future f with
    | vacant hc hx => cases hq.symm.trans hx
    | linked c a hc ha hx =>
      cases hq.symm.trans hx
      cases hr
    | alone c hc ha hx =>
      cases hq.symm.trans hx
      refine ⟨.inl c, by simp [FutureHeap.place, ha, s.futures.eq_some_iff.mpr hc], ?_⟩
      simpa [FutureValues.resultAt, hfresh.future_lt hc] using hr
  | task t =>
    obtain ⟨k, hk, rfl⟩ := Option.map_eq_some_iff.mp hy
    obtain hmem | ⟨a, ha⟩ := hR.tasks.owned t (by simp [hk])
    · obtain ⟨i, hi⟩ := List.getElem?_of_mem hmem
      have hsched : s.scheduled[i]? = some k := by
        have hqueue := congrArg (fun l => l[i]?) hR.queue
        simpa [List.getElem?_map, hi, hk, eq_comm] using hqueue
      exact ⟨.inr i, by simp [FutureHeap.place, hi], by simp [FutureValues.resultAt, hsched, hr]⟩
    · obtain ⟨q, hq, hqt⟩ := Option.bind_eq_some_iff.mp ha
      cases hR.promise a with
      | vacant hc hs hp => cases hq.symm.trans hp
      | spent x hx hc hs hp =>
        cases hq.symm.trans hp
        cases hqt
      | holds c hc hs hf hp =>
        cases hq.symm.trans hp
        cases hqt
      | waits c u x func hx hc hs hf hp hu =>
        cases hq.symm.trans hp
        cases hqt
        cases hk.symm.trans hu
        cases hr

variable [DecidableEq κ] [DecidableEq ι]

theorem custody_exec {ops : List (FutureOp κ ι ν φ)}
    {x y : FutureValues κ ι ν φ × List (FutureOutput ν φ)} (hx : ∃ h, Represents h x.1)
    (hxy : FutureValues.machine.exec x ops = some y) : ∃ lost : Multiset (Except Exn ν),
      y.1.custody + (y.2.map FutureOutput.handed).sum + lost =
        x.1.custody + (x.2.map FutureOutput.handed).sum + (ops.map FutureOp.made).sum ∧
      ((∀ f, FutureOp.ignore f ∉ ops) → lost = 0) := by
  induction ops generalizing x with
  | nil =>
    rw [Machine.exec_nil, Option.some.injEq] at hxy
    subst hxy
    exact ⟨0, by simp, fun _ => rfl⟩
  | cons op ops ih =>
    obtain ⟨z, hz, hzy⟩ := Machine.exec_cons_eq_some.mp hxy
    obtain ⟨d, hd, rfl⟩ := Option.map_eq_some_iff.mp hz
    obtain ⟨h, hR⟩ := hx
    have hstep := FutureValues.custody_step hR.fresh hd
    have hnext : ∃ h, Represents h d.1 := by
      have hrel := hR.step op
      rw [hd] at hrel
      cases hh : h.step op with
      | none =>
        rw [hh] at hrel
        cases hrel
      | some e =>
        rw [hh, Option.rel_some_some] at hrel
        exact ⟨e.1, hrel.1⟩
    obtain ⟨lost, hlost, hzero⟩ := ih (x := (d.1, x.2 ++ d.2)) hnext hzy
    rw [List.map_append, List.sum_append] at hlost
    refine ⟨lost + x.1.ignored op, ?_, fun hops => ?_⟩
    · rw [List.map_cons, List.sum_cons, ← add_assoc, hlost]
      calc
        d.1.custody + ((x.2.map FutureOutput.handed).sum + (d.2.map FutureOutput.handed).sum) +
            (ops.map FutureOp.made).sum + x.1.ignored op
            = d.1.custody + (d.2.map FutureOutput.handed).sum + x.1.ignored op +
              (x.2.map FutureOutput.handed).sum + (ops.map FutureOp.made).sum := by abel
        _ = x.1.custody + op.made + (x.2.map FutureOutput.handed).sum +
              (ops.map FutureOp.made).sum := by rw [hstep]
        _ = x.1.custody + (x.2.map FutureOutput.handed).sum +
              (op.made + (ops.map FutureOp.made).sum) := by abel
    · rw [hzero fun f hf => hops f (List.mem_cons_of_mem _ hf), zero_add]
      cases op with
      | ignore f => exact absurd List.mem_cons_self (hops f)
      | _ => rfl

/-- The results that a run has made are with the values, scheduled, handed out or ignored. -/
theorem custody_of_reaches {ops : List (FutureOp κ ι ν φ)}
    {y : FutureValues κ ι ν φ × List (FutureOutput ν φ)}
    (hy : FutureValues.machine.Reaches ops y) : ∃ lost : Multiset (Except Exn ν),
      y.1.custody + (y.2.map FutureOutput.handed).sum + lost = (ops.map FutureOp.made).sum ∧
        ((∀ f, FutureOp.ignore f ∉ ops) → lost = 0) := by
  obtain ⟨lost, hlost, hzero⟩ := custody_exec ⟨_, heap_lockstep.init.1⟩ hy
  refine ⟨lost, ?_, hzero⟩
  simpa [FutureValues.machine, FutureValues.custody, FutureValues.held] using hlost

/-- Where the results of a run are all different, each is in one place of the heap at most, is
not there any more once it has been handed out, and is handed out once. -/
theorem result_in_one_place {ops : List (FutureOp κ ι ν φ)}
    {h : FutureHeap κ ι ν φ × List (FutureOutput ν φ)}
    (hh : FutureHeap.machine.Reaches ops h) (hops : (ops.map FutureOp.made).sum.Nodup) :
    (∀ p q r, h.1.stored p = some r → h.1.stored q = some r → p = q) ∧
      (∀ p r, h.1.stored p = some r →
        r ∈ (ops.map FutureOp.made).sum ∧ r ∉ (h.2.map FutureOutput.handed).sum) ∧
      (h.2.map FutureOutput.handed).sum.Nodup ∧
      (h.2.map FutureOutput.handed).sum ≤ (ops.map FutureOp.made).sum := by
  obtain ⟨y, hy, hR, hout⟩ := heap_lockstep.reaches hh
  obtain ⟨lost, hlost, -⟩ := custody_of_reaches hy
  rw [← hout] at hlost
  have hnodup := hlost ▸ hops
  obtain ⟨hcustody, hhanded, hdisj⟩ := Multiset.nodup_add.mp (Multiset.nodup_add.mp hnodup).1
  refine ⟨fun p q r hp hq => ?_, fun p r hp => ?_, hhanded, ?_⟩
  · obtain ⟨x, hx, hrx⟩ := hR.resultAt_of_stored hp
    obtain ⟨z, hz, hrz⟩ := hR.resultAt_of_stored hq
    obtain rfl := FutureValues.resultAt_injective hcustody hrx hrz
    exact Option.some.inj (hx.symm.trans hz)
  · obtain ⟨x, hx, hrx⟩ := hR.resultAt_of_stored hp
    have hmem := FutureValues.mem_custody_of_resultAt hrx
    refine ⟨?_, Multiset.disjoint_left.mp hdisj hmem⟩
    rw [← hlost]
    exact Multiset.mem_add.mpr (.inl (Multiset.mem_add.mpr (.inl hmem)))
  · rw [← hlost, add_right_comm]
    exact Multiset.le_add_left _ _

theorem result_in_one_place_called :
    ∃ h : FutureHeap ℕ ℕ ℕ ℕ × List (FutureOutput ℕ ℕ),
      FutureHeap.machine.Reaches
          [.newPromise 0, .getFuture 0 0, .schedule 0 7, .set 0 (.ok 5), .readyFuture 1 (.ok 6)] h ∧
        ∀ p q r, h.1.stored p = some r → h.1.stored q = some r → p = q := by
  refine ⟨_, rfl, ?_⟩
  exact (result_in_one_place (rfl : FutureHeap.machine.Reaches
    [.newPromise 0, .getFuture 0 0, .schedule 0 7, .set 0 (.ok 5), .readyFuture 1 (.ok 6)] _)
    (by decide)).1

end Miniss
