import Miniss.Seastar.FutureHeapPointers
import Mathlib.Algebra.BigOperators.Group.Finset.Basic
import Mathlib.Algebra.Order.Group.Multiset
import Mathlib.Tactic.Abel

/-! Where the results are that promises were given: with a value, with a scheduled continuation,
or handed out. -/
namespace Miniss
variable {κ ι ν φ : Type*}

/-- The result in a state, as a bag of one or none. -/
def FutureState.bag (x : FutureState ν) : Multiset (Except Exn ν) := ↑x.result?.toList

/-- The results that an operation gives to a promise or a future. -/
def FutureOp.made : FutureOp κ ι ν φ → Multiset (Except Exn ν)
  | .set _ r => {r}
  | .readyFuture _ r => {r}
  | _ => 0

def FutureOutput.handed : FutureOutput ν φ → Multiset (Except Exn ν)
  | .got r => {r}
  | .called k => k.state.bag
  | _ => 0

@[simp] theorem FutureState.bag_future : (FutureState.future : FutureState ν).bag = 0 := rfl

@[simp] theorem FutureState.bag_invalid : (FutureState.invalid : FutureState ν).bag = 0 := rfl

@[simp] theorem FutureState.bag_ofResult (r : Except Exn ν) : (ofResult r).bag = {r} := by
  simp [bag]

theorem FutureState.bag_of_not_available {x : FutureState ν} (hx : x.available = false) :
    x.bag = 0 := by
  cases x with
  | invalid => rfl
  | future => rfl
  | result v => cases hx
  | exception e => cases hx

theorem handed_report (x : FutureState ν) :
    ((x.report : List (FutureOutput ν φ)).map FutureOutput.handed).sum = 0 := by
  cases x <;> rfl

namespace FutureValues

/-- The results in the values that there are. -/
def held (s : FutureValues κ ι ν φ) : Multiset (Except Exn ν) :=
  ∑ c ∈ Finset.range s.next, (s.values c).state.bag

def custody (s : FutureValues κ ι ν φ) : Multiset (Except Exn ν) :=
  s.held + (s.scheduled.map fun k => k.state.bag).sum

theorem held_update {s t : FutureValues κ ι ν φ} {c : ℕ} {v : LogicalValue ν φ}
    (hc : c < s.next) (hv : t.values = Function.update s.values c v) (hn : t.next = s.next) :
    t.held + (s.values c).state.bag = s.held + v.state.bag := by
  have hmem : c ∈ Finset.range s.next := Finset.mem_range.mpr hc
  unfold held
  rw [hn, ← Finset.add_sum_erase _ _ hmem, ← Finset.add_sum_erase _ _ hmem, hv,
    Function.update_self]
  have hrest : ∑ d ∈ (Finset.range s.next).erase c, (Function.update s.values c v d).state.bag =
      ∑ d ∈ (Finset.range s.next).erase c, (s.values d).state.bag :=
    Finset.sum_congr rfl fun d hd => by rw [Function.update_of_ne (Finset.ne_of_mem_erase hd)]
  rw [hrest]
  abel

theorem held_fresh {s t : FutureValues κ ι ν φ} {v : LogicalValue ν φ}
    (hv : t.values = Function.update s.values s.next v) (hn : t.next = s.next + 1) :
    t.held = s.held + v.state.bag := by
  unfold held
  rw [hn, Finset.sum_range_succ, hv, Function.update_self]
  congr 1
  exact Finset.sum_congr rfl fun d hd => by
    rw [Function.update_of_ne (Nat.ne_of_lt (Finset.mem_range.mp hd))]

/-- The ends of a value are of one that there is. -/
def Fresh (s : FutureValues κ ι ν φ) : Prop :=
  ∀ c, s.next ≤ c → s.promises.symm c = none ∧ s.futures.symm c = none

variable {s s' : FutureValues κ ι ν φ}

theorem Fresh.promise_lt (hs : s.Fresh) {a : κ} {c : ℕ} (ha : s.promises a = some c) :
    c < s.next := by
  by_contra hlt
  cases (hs c (not_lt.mp hlt)).1.symm.trans (s.promises.eq_some_iff.mpr ha)

theorem Fresh.future_lt (hs : s.Fresh) {f : ι} {c : ℕ} (hf : s.futures f = some c) :
    c < s.next := by
  by_contra hlt
  cases (hs c (not_lt.mp hlt)).2.symm.trans (s.futures.eq_some_iff.mpr hf)

theorem Fresh.of_lt (hp : ∀ a c, s.promises a = some c → c < s.next)
    (hf : ∀ f c, s.futures f = some c → c < s.next) : s.Fresh := by
  intro c hc
  constructor
  · by_contra hne
    obtain ⟨a, ha⟩ := Option.ne_none_iff_exists'.mp hne
    exact absurd (hp a c (s.promises.eq_some_iff.mp ha)) (not_lt.mpr hc)
  · by_contra hne
    obtain ⟨f, hf'⟩ := Option.ne_none_iff_exists'.mp hne
    exact absurd (hf f c (s.futures.eq_some_iff.mp hf')) (not_lt.mpr hc)

theorem Fresh.grow (hs : s.Fresh) (hle : s.next ≤ s'.next)
    (hp : ∀ a c, s'.promises a = some c → s.promises a = some c ∨ c < s'.next)
    (hf : ∀ f c, s'.futures f = some c → s.futures f = some c ∨ c < s'.next) : s'.Fresh := by
  refine .of_lt (fun a c ha => ?_) fun f c hfc => ?_
  · obtain ha | hlt := hp a c ha
    · exact (hs.promise_lt ha).trans_le hle
    · exact hlt
  · obtain hfc | hlt := hf f c hfc
    · exact (hs.future_lt hfc).trans_le hle
    · exact hlt

theorem custody_fresh {v : LogicalValue ν φ}
    (hv : s'.values = Function.update s.values s.next v) (hn : s'.next = s.next + 1)
    (hq : s'.scheduled = s.scheduled) : s'.custody = s.custody + v.state.bag := by
  unfold custody
  rw [held_fresh hv hn, hq]
  abel

theorem custody_renew [DecidableEq ι] (f : ι) (x : FutureState ν) :
    (s.renew f x).custody = s.custody + x.bag :=
  custody_fresh (s := s) (v := ⟨x, none⟩) rfl rfl rfl

theorem custody_put {c : ℕ} {v : LogicalValue ν φ} (hc : c < s.next) :
    (s.put c v).custody + (s.values c).state.bag = s.custody + v.state.bag := by
  have hheld := held_update (t := s.put c v) hc rfl rfl
  unfold custody
  rw [put_scheduled, add_right_comm, hheld]
  abel

def ignored (s : FutureValues κ ι ν φ) : FutureOp κ ι ν φ → Multiset (Except Exn ν)
  | .ignore f => ((s.look f).map FutureState.bag).getD 0
  | _ => 0

theorem custody_ignore (hs : s.Fresh) {f : ι} (h : s.ignore f = some s') :
    s'.custody + s.ignored (.ignore f : FutureOp κ ι ν φ) = s.custody := by
  obtain ⟨c, hc, h⟩ := Option.bind_eq_some_iff.mp h
  have hlt := hs.future_lt hc
  have hput := custody_put (s := s) (v := ⟨.invalid, none⟩) hlt
  rw [FutureState.bag_invalid, add_zero] at hput
  have hign : s.ignored (.ignore f : FutureOp κ ι ν φ) = (s.values c).state.bag := by
    simp [ignored, look, hc]
  rw [hign]
  split at h
  · cases h
  · rwa [← Option.some.inj h]

theorem custody_run {d : FutureValues κ ι ν φ × Continuation ν φ} (h : s.run = some d) :
    d.1.custody + d.2.state.bag = s.custody := by
  unfold run at h
  split at h
  · cases h
  · next k q hq =>
    rw [← Option.some.inj h]
    simp only [custody, hq, List.map_cons, List.sum_cons, held]
    abel

section Futures

variable [DecidableEq ι]

theorem custody_getFuture {a : κ} {f : ι} (h : s.getFuture a f = some s') :
    s'.custody = s.custody := by
  obtain ⟨c, hc, h⟩ := Option.bind_eq_some_iff.mp h
  split at h
  · rw [← Option.some.inj h]
    rfl
  · cases h

theorem custody_readyFuture {f : ι} {r : Except Exn ν} (h : s.readyFuture f r = some s') :
    s'.custody = s.custody + {r} := by
  unfold readyFuture at h
  split at h
  · rw [← Option.some.inj h, custody_renew, FutureState.bag_ofResult]
  · cases h

theorem custody_destroyFuture {f : ι} {d : FutureValues κ ι ν φ × List (FutureOutput ν φ)}
    (h : s.destroyFuture f = some d) :
    d.1.custody = s.custody ∧ (d.2.map FutureOutput.handed).sum = 0 := by
  obtain ⟨c, hc, rfl⟩ := Option.map_eq_some_iff.mp h
  exact ⟨rfl, handed_report _⟩

theorem custody_moveFuture {f x : ι} (h : s.moveFuture f x = some s') :
    s'.custody = s.custody := by
  unfold moveFuture at h
  split at h
  · obtain ⟨c, hc, rfl⟩ := Option.map_eq_some_iff.mp h
    rw [custody_renew]
    have hrest : (s.rest c).bag = 0 := by
      unfold rest
      split <;> rfl
    rw [hrest, add_zero]
    rfl
  · cases h

theorem custody_assignFuture {f x : ι} {d : FutureValues κ ι ν φ × List (FutureOutput ν φ)}
    (h : s.assignFuture f x = some d) :
    d.1.custody = s.custody ∧ (d.2.map FutureOutput.handed).sum = 0 := by
  unfold assignFuture at h
  split at h
  · obtain ⟨c, hc, rfl⟩ := Option.map_eq_some_iff.mp h
    exact ⟨rfl, rfl⟩
  · obtain ⟨e, he, h⟩ := Option.bind_eq_some_iff.mp h
    obtain ⟨t, ht, rfl⟩ := Option.map_eq_some_iff.mp h
    obtain ⟨hcustody, hhanded⟩ := custody_destroyFuture he
    exact ⟨(custody_moveFuture ht).trans hcustody, hhanded⟩

theorem custody_schedule (hs : s.Fresh) {f : ι} {func : φ} (h : s.schedule f func = some s') :
    s'.custody = s.custody := by
  obtain ⟨c, hc, h⟩ := Option.bind_eq_some_iff.mp h
  have hlt := hs.future_lt hc
  split at h
  · have hput := custody_put (s := s) (v := ⟨.invalid, none⟩) hlt
    rw [FutureState.bag_invalid, add_zero] at hput
    rw [← Option.some.inj h, ← hput]
    simp only [custody, List.map_append, List.map_cons, List.map_nil, List.sum_append,
      List.sum_cons, List.sum_nil, held, put]
    abel
  · next hav =>
    split at h
    · have hput := custody_put (s := s.renew f .future) (c := c) (v := ⟨.future, some func⟩)
        (Nat.lt_succ_of_lt hlt)
      have hbag : ((s.renew f .future).values c).state.bag = 0 := by
        rw [renew_values, if_neg hlt.ne]
        exact FutureState.bag_of_not_available (by simpa using hav)
      rw [hbag, FutureState.bag_future, add_zero, add_zero, custody_renew,
        FutureState.bag_future, add_zero] at hput
      rw [← Option.some.inj h, hput]
    · cases h

theorem custody_get (hs : s.Fresh) {f : ι} {d : FutureValues κ ι ν φ × Except Exn ν}
    (h : s.get f = some d) : d.1.custody + {d.2} = s.custody := by
  obtain ⟨c, hc, h⟩ := Option.bind_eq_some_iff.mp h
  obtain ⟨r, hr, rfl⟩ := Option.map_eq_some_iff.mp h
  have hlt := hs.future_lt hc
  have hput := custody_put (s := s.renew f (s.rest c)) (c := c) (v := ⟨.invalid, none⟩)
    (Nat.lt_succ_of_lt hlt)
  have hrest : (s.rest c).bag = 0 := by
    unfold rest
    split <;> rfl
  have hbag : ((s.renew f (s.rest c)).values c).state.bag = {r} := by
    rw [renew_values, if_neg hlt.ne, FutureState.bag, hr]
    rfl
  rw [hbag, FutureState.bag_invalid, add_zero, custody_renew, hrest, add_zero] at hput
  exact hput

end Futures

variable [DecidableEq κ]

theorem custody_newPromise {a : κ} (h : s.newPromise a = some s') :
    s'.custody = s.custody := by
  unfold newPromise at h
  split at h
  · obtain rfl := Option.some.inj h
    refine (custody_fresh (s := s) (v := ⟨.future, none⟩) ?_ ?_ ?_).trans (add_zero _) <;> rfl
  · cases h

theorem custody_movePromise {a x : κ} (h : s.movePromise a x = some s') :
    s'.custody = s.custody := by
  unfold movePromise at h
  split at h
  · split at h
    · rw [← Option.some.inj h]
      rfl
    · split at h
      · rw [← Option.some.inj h]
        rfl
      · cases h
  · cases h

theorem custody_destroyPromise (hs : s.Fresh) {a : κ}
    {d : FutureValues κ ι ν φ × List (FutureOutput ν φ)} (h : s.destroyPromise a = some d) :
    d.1.custody = s.custody ∧ (d.2.map FutureOutput.handed).sum = 0 := by
  unfold destroyPromise at h
  split at h
  · next c hc =>
    rw [← Option.some.inj h]
    constructor
    · have hput := custody_put (s := s) (v := ⟨(s.values c).state, none⟩) (hs.promise_lt hc)
      exact add_right_cancel hput
    · unfold lastWords
      cases (s.values c).func <;> split <;> simp [handed_report, FutureOutput.handed]
  · split at h
    · rw [← Option.some.inj h]
      exact ⟨rfl, rfl⟩
    · cases h

theorem custody_set (hs : s.Fresh) {a : κ} {r : Except Exn ν} (h : s.set a r = some s') :
    s'.custody = s.custody + {r} := by
  unfold set at h
  obtain ⟨c, hc, h⟩ := Option.bind_eq_some_iff.mp h
  split at h
  · next hst hf =>
    have hput := custody_put (s := s) (v := ⟨.ofResult r, none⟩) (hs.promise_lt hc)
    rw [hst, FutureState.bag_future, add_zero, FutureState.bag_ofResult] at hput
    rw [← Option.some.inj h, hput]
  · rw [← Option.some.inj h]
    simp only [custody, List.map_append, List.map_cons, List.map_nil, List.sum_append,
      List.sum_cons, List.sum_nil, FutureState.bag_ofResult, held]
    abel
  · cases h

/-- Setting a value leaves those that are set. -/
theorem set_values {a : κ} {r q : Except Exn ν} (h : s.set a r = some s') {c : ℕ}
    (hq : (s.values c).state.result? = some q) : s'.values c = s.values c ∧ s'.next = s.next := by
  unfold set at h
  obtain ⟨d, hd, h⟩ := Option.bind_eq_some_iff.mp h
  split at h
  · next hst hf =>
    have hcd : c ≠ d := by
      rintro rfl
      rw [hst] at hq
      cases hq
    rw [← Option.some.inj h]
    exact ⟨Function.update_of_ne hcd .., rfl⟩
  · rw [← Option.some.inj h]
    exact ⟨rfl, rfl⟩
  · cases h

theorem custody_assignPromise (hs : s.Fresh) {a x : κ}
    {d : FutureValues κ ι ν φ × List (FutureOutput ν φ)} (h : s.assignPromise a x = some d) :
    d.1.custody = s.custody ∧ (d.2.map FutureOutput.handed).sum = 0 := by
  unfold assignPromise at h
  split at h
  · split at h
    · cases h
    · rw [← Option.some.inj h]
      exact ⟨rfl, rfl⟩
  · obtain ⟨e, he, h⟩ := Option.bind_eq_some_iff.mp h
    obtain ⟨t, ht, rfl⟩ := Option.map_eq_some_iff.mp h
    obtain ⟨hcustody, hhanded⟩ := custody_destroyPromise hs he
    exact ⟨(custody_movePromise ht).trans hcustody, hhanded⟩

variable [DecidableEq ι]

theorem custody_forwardTo (hs : s.Fresh) {f : ι} {a : κ}
    {d : FutureValues κ ι ν φ × List (FutureOutput ν φ)} (h : s.forwardTo f a = some d) :
    d.1.custody = s.custody ∧ (d.2.map FutureOutput.handed).sum = 0 := by
  obtain ⟨c, hc, h⟩ := Option.bind_eq_some_iff.mp h
  have hlt := hs.future_lt hc
  split at h
  · next r hr =>
    obtain ⟨t, ht, rfl⟩ := Option.map_eq_some_iff.mp h
    refine ⟨?_, rfl⟩
    obtain ⟨hval, hnext⟩ := set_values ht hr
    have hput := custody_put (s := t) (c := c) (v := ⟨.invalid, none⟩) (hnext ▸ hlt)
    have hbag : (s.values c).state.bag = {r} := by
      rw [FutureState.bag, hr]
      rfl
    rw [hval, hbag, FutureState.bag_invalid, add_zero, custody_set hs ht] at hput
    exact add_right_cancel hput
  · next hr =>
    obtain ⟨b, hb, h⟩ := Option.bind_eq_some_iff.mp h
    have hfresh : (s.renew f .future).Fresh := by
      intro e he
      have := hs e (by simp at he; omega)
      simp at he
      grind
    have := custody_assignPromise hfresh h
    rwa [custody_renew, FutureState.bag_future, add_zero] at this

/-- No operation loses a result or makes a second one of it. -/
theorem custody_step (hs : s.Fresh) {op : FutureOp κ ι ν φ}
    {d : FutureValues κ ι ν φ × List (FutureOutput ν φ)} (h : s.step op = some d) :
    d.1.custody + (d.2.map FutureOutput.handed).sum + s.ignored op = s.custody + op.made := by
  cases op with
  | newPromise a =>
    obtain ⟨t, ht, rfl⟩ := Option.map_eq_some_iff.mp h
    simp [custody_newPromise ht, ignored, FutureOp.made]
  | movePromise a x =>
    obtain ⟨t, ht, rfl⟩ := Option.map_eq_some_iff.mp h
    simp [custody_movePromise ht, ignored, FutureOp.made]
  | assignPromise a x => simp [custody_assignPromise hs h, ignored, FutureOp.made]
  | destroyPromise a => simp [custody_destroyPromise hs h, ignored, FutureOp.made]
  | getFuture a f =>
    obtain ⟨t, ht, rfl⟩ := Option.map_eq_some_iff.mp h
    simp [custody_getFuture ht, ignored, FutureOp.made]
  | set a r =>
    obtain ⟨t, ht, rfl⟩ := Option.map_eq_some_iff.mp h
    simp [custody_set hs ht, ignored, FutureOp.made]
  | readyFuture f r =>
    obtain ⟨t, ht, rfl⟩ := Option.map_eq_some_iff.mp h
    simp [custody_readyFuture ht, ignored, FutureOp.made]
  | moveFuture f x =>
    obtain ⟨t, ht, rfl⟩ := Option.map_eq_some_iff.mp h
    simp [custody_moveFuture ht, ignored, FutureOp.made]
  | assignFuture f x => simp [custody_assignFuture h, ignored, FutureOp.made]
  | destroyFuture f => simp [custody_destroyFuture h, ignored, FutureOp.made]
  | available f =>
    obtain ⟨x, hx, rfl⟩ := Option.map_eq_some_iff.mp h
    simp [FutureOutput.handed, ignored, FutureOp.made]
  | failed f =>
    obtain ⟨x, hx, rfl⟩ := Option.map_eq_some_iff.mp h
    simp [FutureOutput.handed, ignored, FutureOp.made]
  | schedule f func =>
    obtain ⟨t, ht, rfl⟩ := Option.map_eq_some_iff.mp h
    simp [custody_schedule hs ht, ignored, FutureOp.made]
  | get f =>
    obtain ⟨t, ht, rfl⟩ := Option.map_eq_some_iff.mp h
    simp [custody_get hs ht, FutureOutput.handed, ignored, FutureOp.made]
  | ignore f =>
    obtain ⟨t, ht, rfl⟩ := Option.map_eq_some_iff.mp h
    simp [custody_ignore hs ht, FutureOp.made]
  | forwardTo f a => simp [custody_forwardTo hs h, ignored, FutureOp.made]
  | run =>
    obtain ⟨t, ht, rfl⟩ := Option.map_eq_some_iff.mp h
    simp [custody_run ht, FutureOutput.handed, ignored, FutureOp.made]

end FutureValues

end Miniss
