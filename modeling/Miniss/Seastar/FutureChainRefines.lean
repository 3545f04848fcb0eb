import Miniss.Seastar.FutureChainTasks
import Miniss.Seastar.FutureHeapRefines

/-! Chains of futures and fibers with stacks take the same runs. -/
namespace Miniss
open FutureValues

variable {ν ε ρ : Type*} {s s' : ChainValues ν ε ρ}

def tasksOf (s : ChainValues ν ε ρ) (i : ℕ) : List (Continuation ν (Captured ν ε ρ)) :=
  s.scheduled.filter (·.func.fiber = i)

/-- The chain of fiber `i`, with its tasks and its request, when there is one. -/
inductive Stands (s : ChainValues ν ε ρ) (i : ℕ) : Option (Fiber ν ε ρ) → Option ℕ →
    List (Continuation ν (Captured ν ε ρ)) → Option (ℕ × ρ) → Prop
  | gone : Stands s i none none [] none
  | at {x f ts q} (h : Holds s i f x ts q) : Stands s i (some x) (some f) ts q

theorem Stands.of_none {i : ℕ} {r : Option ℕ} {ts : List (Continuation ν (Captured ν ε ρ))}
    {q : Option (ℕ × ρ)} (h : Stands s i none r ts q) : r = none ∧ ts = [] ∧ q = none := by
  cases h
  exact ⟨rfl, rfl, rfl⟩

theorem Stands.of_some {i : ℕ} {x : Fiber ν ε ρ} {r : Option ℕ}
    {ts : List (Continuation ν (Captured ν ε ρ))} {q : Option (ℕ × ρ)}
    (h : Stands s i (some x) r ts q) : ∃ f, r = some f ∧ Holds s i f x ts q := by
  cases h with | «at» h
  exact ⟨_, rfl, h⟩

abbrev ValueChains (ν ε ρ : Type*) := FutureChains.On (ChainValues ν ε ρ) ν ε ρ

/-- Every future is the one that the client holds of some fiber, and leads to where the fiber
stands. -/
structure Carries (m : ValueChains ν ε ρ) (t : Fibers ν ε ρ) : Prop where
  journal : m.journal = t.journal
  clean : Clean m.store.1 m.next
  stands : ∀ i, Stands m.store.1 i (t.fiber i) (m.roots i) (tasksOf m.store.1 i) (m.inputs i)
  roots : ∀ i j f, m.roots i = some f → m.roots j = some f → i = j
  futures : ∀ g c, m.store.1.futures g = some c → ∃ i, m.roots i = some g
  queue : m.store.1.scheduled.map (·.func.fiber) = t.queue
  fresh : ∀ i, t.journal.started.length ≤ i → t.fiber i = none

theorem Holds.tasks {i f : ℕ} {x : Fiber ν ε ρ} {ts : List (Continuation ν (Captured ν ε ρ))}
    {q : Option (ℕ × ρ)} (h : Holds s i f x ts q) :
    ts.map (·.func.fiber) = if x.runnable then [i] else [] := by
  cases h <;> rfl

theorem Holds.input_isSome {i f : ℕ} {q : ρ} {ks : List (Callback ν ε ρ)}
    {ts : List (Continuation ν (Captured ν ε ρ))} {a : Option (ℕ × ρ)}
    (h : Holds s i f ⟨.request q, ks⟩ ts a) : a.isSome := by
  cases h
  rfl

theorem Holds.input_eq_none {i f : ℕ} {x : Fiber ν ε ρ}
    {ts : List (Continuation ν (Captured ν ε ρ))} {a : Option (ℕ × ρ)}
    (h : Holds s i f x ts a) (hx : ∀ q ks, x ≠ ⟨.request q, ks⟩) : a = none := by
  cases h with
  | done _ => rfl
  | task _ => rfl
  | request _ => exact absurd rfl (hx _ _)

theorem Holds.of_mem {i f : ℕ} {x : Fiber ν ε ρ} {ts : List (Continuation ν (Captured ν ε ρ))}
    {q : Option (ℕ × ρ)} (h : Holds s i f x ts q) : ∀ k ∈ ts, k.func.fiber = i := by
  cases h <;> simp

theorem Holds.live {i f : ℕ} {x : Fiber ν ε ρ} {ts : List (Continuation ν (Captured ν ε ρ))}
    {q : Option (ℕ × ρ)} (h : Holds s i f x ts q) : ∃ c, s.futures f = some c := by
  cases h with
  | done h =>
    obtain ⟨c, hc, -⟩ := h
    exact ⟨c, hc⟩
  | task h =>
    obtain ⟨c, hc, -⟩ := h.waits.future
    exact ⟨c, hc⟩
  | request h =>
    obtain ⟨c, hc, -⟩ := h.waits.future
    exact ⟨c, hc⟩

theorem tasksOf_append {ts : List (Continuation ν (Captured ν ε ρ))} {i : ℕ}
    (hq : s'.scheduled = s.scheduled ++ ts) (hts : ∀ k ∈ ts, k.func.fiber = i) (j : ℕ) :
    tasksOf s' j = tasksOf s j ++ if j = i then ts else [] := by
  rw [tasksOf, hq, List.filter_append, tasksOf]
  congr 1
  split
  · next he => exact List.filter_eq_self.mpr fun k hk => by simp [hts k hk, he]
  · next he => exact List.filter_eq_nil_iff.mpr fun k hk => by simp [hts k hk, Ne.symm he]

namespace Carries
variable {m m' : ValueChains ν ε ρ} {t t' : Fibers ν ε ρ} {i : ℕ}

theorem root_lt (h : Carries m t) {f : ℕ} (hf : m.roots i = some f) : f < m.next := by
  have hi := h.stands i
  cases hx : t.fiber i with
  | none =>
    rw [hx] at hi
    cases hf.symm.trans hi.of_none.1
  | some x =>
  rw [hx] at hi
  obtain ⟨f', hf', hx⟩ := hi.of_some
  obtain rfl := Option.some.inj (hf.symm.trans hf')
  obtain ⟨c, hc⟩ := hx.live
  by_contra hge
  cases (h.clean.future f (not_lt.mp hge)).symm.trans hc

theorem fiber_lt (h : Carries m t) {x : Fiber ν ε ρ} (hx : t.fiber i = some x) :
    i < t.journal.started.length := by
  by_contra hge
  cases (h.fresh i (not_lt.mp hge)).symm.trans hx

/-- When one fiber goes on and the others stay, the relation is kept. -/
theorem update (h : Carries m t) {P : ℕ → Prop} {x : Option (Fiber ν ε ρ)}
    (hjournal : m'.journal = t'.journal) (hclean : Clean m'.store.1 m'.next)
    (hkept : Kept m.store.1 m'.store.1 P) (hP : ∀ j f, j ≠ i → m.roots j = some f → P f)
    (hfiber : t'.fiber = Function.update t.fiber i x)
    (hroots : ∀ j, j ≠ i → m'.roots j = m.roots j)
    (hinputs : ∀ j, j ≠ i → m'.inputs j = m.inputs j)
    (htasks : ∀ j, j ≠ i → tasksOf m'.store.1 j = tasksOf m.store.1 j)
    (hx : Stands m'.store.1 i x (m'.roots i) (tasksOf m'.store.1 i) (m'.inputs i))
    (hnew : ∀ j f, j ≠ i → m'.roots i = some f → m.roots j ≠ some f)
    (hfutures : ∀ g c, m'.store.1.futures g = some c → ∃ j, m'.roots j = some g)
    (hqueue : m'.store.1.scheduled.map (·.func.fiber) = t'.queue)
    (hi : i < t'.journal.started.length)
    (hlen : t.journal.started.length ≤ t'.journal.started.length) : Carries m' t' where
  journal := hjournal
  clean := hclean
  stands j := by
    by_cases hj : j = i
    · rw [hj, hfiber, Function.update_self]
      exact hx
    · rw [hfiber, Function.update_of_ne hj, hroots j hj, hinputs j hj, htasks j hj]
      have hstands := h.stands j
      generalize t.fiber j = y, hr : m.roots j = root, tasksOf m.store.1 j = ts,
        m.inputs j = q at hstands
      cases hstands with
      | gone => exact .gone
      | «at» hy => exact .at (hkept.holds (hP j _ hj hr) hy)
  roots j j' f hf hf' := by
    by_cases hj : j = i
    · by_cases hj' : j' = i
      · rw [hj, hj']
      · exact absurd (hroots j' hj' ▸ hf') (hnew j' f hj' (hj ▸ hf))
    · by_cases hj' : j' = i
      · exact absurd (hroots j hj ▸ hf) (hnew j f hj (hj' ▸ hf'))
      · exact h.roots j j' f (hroots j hj ▸ hf) (hroots j' hj' ▸ hf')
  futures := hfutures
  queue := hqueue
  fresh j hj := by
    have hji : j ≠ i := fun he => absurd hi (not_lt.mpr (he ▸ hj))
    rw [hfiber, Function.update_of_ne hji]
    exact h.fresh j (hlen.trans hj)

/-- Fiber `i` goes on to `x` and may schedule a task, from the tasks `u` that were left. -/
theorem goes (h : Carries m t) {P : ℕ → Prop} {x : Fiber ν ε ρ} {f : ℕ} {u : ChainValues ν ε ρ}
    {ts : List (Continuation ν (Captured ν ε ρ))} (hjournal : m'.journal = t'.journal)
    (hclean : Clean m'.store.1 m'.next) (hkept : Kept m.store.1 m'.store.1 P)
    (hP : ∀ j f, j ≠ i → m.roots j = some f → P f)
    (hfiber : t'.fiber = Function.update t.fiber i (some x))
    (hroots : m'.roots = Function.update m.roots i (some f))
    (hroot : m.roots i = some f ∨ m.next ≤ f)
    (hinputs : ∀ j, j ≠ i → m'.inputs j = m.inputs j)
    (htasks : ∀ j, j ≠ i → tasksOf u j = tasksOf m.store.1 j)
    (hsched : m'.store.1.scheduled = u.scheduled ++ ts)
    (hx : Holds m'.store.1 i f x (tasksOf u i ++ ts) (m'.inputs i))
    (hfutures : ∀ g c, m'.store.1.futures g = some c →
      g = f ∨ m.roots i ≠ some g ∧ m.store.1.futures g = some c)
    (hqueue : u.scheduled.map (·.func.fiber) ++ ts.map (·.func.fiber) = t'.queue)
    (hi : i < t'.journal.started.length)
    (hlen : t.journal.started.length ≤ t'.journal.started.length) : Carries m' t' := by
  have hof := tasksOf_append hsched fun k hk => hx.of_mem k (List.mem_append_right _ hk)
  refine h.update hjournal hclean hkept hP hfiber (fun j hj => ?_) hinputs (fun j hj => ?_) ?_
    (fun j g hj hg hg' => ?_) (fun g c hg => ?_) ?_ hi hlen
  · rw [hroots, Function.update_of_ne hj]
  · rw [hof, if_neg hj, List.append_nil, htasks j hj]
  · rw [hof, if_pos rfl, hroots, Function.update_self]
    exact .at hx
  · rw [hroots, Function.update_self] at hg
    obtain rfl := Option.some.inj hg
    obtain hr | hle := hroot
    · exact hj (h.roots j i f hg' hr)
    · exact absurd (h.root_lt hg') (not_lt.mpr hle)
  · obtain rfl | ⟨hne, hc⟩ := hfutures g c hg
    · exact ⟨i, by rw [hroots, Function.update_self]⟩
    · obtain ⟨j, hj⟩ := h.futures g c hc
      refine ⟨j, ?_⟩
      rw [hroots, Function.update_of_ne, hj]
      rintro rfl
      exact hne hj
  · rw [hsched, List.map_append, hqueue]

theorem start (h : Carries m t) (p : Computation ν ε ρ) :
    Option.Rel Carries (m.start FutureValues.machine p) (some (t.start p)) := by
  obtain ⟨⟨s, out⟩, n, inputs, roots, journal⟩ := m
  obtain rfl : journal = t.journal := h.journal
  have hgone := h.stands t.journal.started.length
  rw [h.fresh _ le_rfl] at hgone
  obtain ⟨hroot, htask, hinput⟩ := hgone.of_none
  obtain ⟨s', ts, hdoes, hst⟩ := start_does t.journal.started.length n p h.clean
  obtain ⟨out', hexec⟩ := does_iff.mp hdoes out
  rw [FutureChains.start, hexec]
  have hlen : (t.start p).journal.started.length = t.journal.started.length + 1 :=
    List.length_append
  refine .some (h.goes (u := s) (x := p.enter.2) ?_ hst.clean hst.kept
    (fun j f _ hf => h.root_lt hf) rfl rfl (.inr hst.le) (fun j hj => FutureChains.ask_of_ne hj _)
    (fun _ _ => rfl) hst.scheduled ?_ (fun g c hg => ?_) ?_ (by omega) (by omega))
  · simp only [FutureChains.hold, FutureChains.after, Fibers.start, Fibers.resume, start_events]
  · have hi : FutureChains.ask inputs t.journal.started.length
        (startScript t.journal.started.length n p).input t.journal.started.length =
        (startScript t.journal.started.length n p).input := FutureChains.ask_self hinput _
    change Holds s' _ _ _ (tasksOf s t.journal.started.length ++ ts) (FutureChains.ask inputs _ _ _)
    rw [hi, show tasksOf s t.journal.started.length = [] from htask]
    exact hst.holds
  · by_cases he : g = (startScript t.journal.started.length n p).fut
    · exact .inl he
    · exact .inr ⟨by rw [hroot]; exact nofun, (hst.futures g he) ▸ hg⟩
  · rw [hst.holds.tasks, h.queue]
    rfl

theorem attach (h : Carries m t) (i : ℕ) (k : Callback ν ε ρ) :
    Option.Rel Carries (m.attach FutureValues.machine i k) (t.attach i k) := by
  obtain ⟨⟨s, out⟩, n, inputs, roots, journal⟩ := m
  obtain rfl : journal = t.journal := h.journal
  have hi := h.stands i
  cases hx : t.fiber i with
  | none =>
    rw [hx] at hi
    rw [FutureChains.attach, Fibers.attach, hx, hi.of_none.1]
    exact .none
  | some x =>
    rw [hx] at hi
    obtain ⟨f, hf, hholds⟩ := hi.of_some
    obtain ⟨s', ts, hdoes, hext, hholds', hq⟩ := hholds.attach h.clean k
    obtain ⟨out', hexec⟩ := does_iff.mp hdoes out
    rw [FutureChains.attach, Fibers.attach, hx, hf, Option.bind_some, hexec]
    refine .some (h.goes (u := s) (x := x.under [k]) rfl hext.clean hext.kept
      (fun j g hj hg => ⟨h.root_lt hg, fun he => hj (h.roots j i f (he ▸ hg) hf)⟩) rfl rfl
      (.inr le_rfl) (fun _ _ => rfl) (fun _ _ => rfl) hq hholds' (fun g c hg => ?_) ?_ ?_ ?_)
    · by_cases he : g = n
      · exact .inl he
      · have hg : s'.futures g = some c := hg
        rw [hext.futures g he] at hg
        split at hg
        · cases hg
        · next hne => exact .inr ⟨fun hr => hne (Option.some.inj (hr.symm.trans hf)), hg⟩
    · have hts := hholds'.tasks
      rw [List.map_append, hholds.tasks] at hts
      rw [h.queue]
      congr 1
      split
      · next hr =>
        rw [if_pos hr, Fiber.runnable_under hr, if_pos rfl] at hts
        exact List.append_cancel_left hts
      · next hr => rwa [if_neg hr, List.nil_append] at hts
    · exact (h.fiber_lt hx).trans_le (List.length_modify ..).ge
    · exact (List.length_modify ..).ge

theorem answer (h : Carries m t) (i : ℕ) (r : Except Exn ν) :
    Option.Rel Carries (m.answer FutureValues.machine i r) (t.answer i r) := by
  obtain ⟨⟨s, out⟩, n, inputs, roots, journal⟩ := m
  obtain rfl : journal = t.journal := h.journal
  have hi := h.stands i
  cases hx : t.fiber i with
  | none =>
    rw [hx] at hi
    rw [FutureChains.answer, Fibers.answer, hx, hi.of_none.2.2]
    exact .none
  | some x =>
    rw [hx] at hi
    obtain ⟨f, hf, hholds⟩ := hi.of_some
    rw [FutureChains.answer, Fibers.answer, hx]
    replace hholds : Holds s i f x (tasksOf s i) (inputs i) := hholds
    generalize hts : tasksOf s i = ts, hin : inputs i = q at hholds
    cases hholds with
    | done hd =>
      simp only [hin]
      exact .none
    | task hw =>
      simp only [hin]
      exact .none
    | @request q a ks hw =>
      obtain ⟨s', ts, hdoes, hclean, hkept, hfut, hholds, hq, -⟩ := hw.settle h.clean r
      obtain ⟨out', hexec⟩ := does_iff.mp hdoes out
      simp only [hin, Option.bind_some, hexec]
      refine .some (h.goes (u := s) (x := ⟨.answer r, ks⟩) rfl hclean hkept
        (fun j g hj hg he => hj (h.roots j i f (he ▸ hg) hf)) rfl
        (Function.update_eq_self_iff.mpr hf.symm).symm (.inl hf)
        (fun j hj => Function.update_of_ne hj ..) (fun _ _ => rfl) hq ?_ (fun g c hg => ?_) ?_ ?_
        ?_)
      · change Holds s' _ _ _ (tasksOf s i ++ ts) (Function.update inputs i none i)
        rw [hts, Function.update_self]
        exact hholds
      · have hg : s.futures g = some c := hfut ▸ hg
        by_cases he : g = f
        · exact .inl he
        · exact .inr ⟨fun hr => he (Option.some.inj (hr.symm.trans hf)), hg⟩
      · rw [h.queue, hholds.tasks]
        rfl
      · exact h.fiber_lt hx
      · exact le_rfl

/-- A task that is taken off the queue is in no chain. -/
theorem popped {s : ChainValues ν ε ρ} {n : ℕ} (hs : Clean s n)
    (q : List (Continuation ν (Captured ν ε ρ))) :
    Clean { s with scheduled := q } n ∧ Kept s { s with scheduled := q } fun _ => True := by
  have hw {a f : ℕ} {ks : List (ℕ × Callback ν ε ρ)} (h : Waits s a ks f) :
      Waits { s with scheduled := q } a ks f :=
    h.keep (fun _ _ _ => rfl) (fun _ _ _ _ _ => rfl) fun _ hf => hf
  refine ⟨⟨hs.fresh, hs.spent, hs.promise, hs.future, fun a c ha => ?_, hs.once⟩,
    fun a ks g _ h => hw h, fun g c _ hc _ => ⟨hc, rfl⟩, fun a b ks g _ _ hn => ⟨a, hn⟩⟩
  obtain ⟨ks, f, h⟩ := hs.waits a c ha
  exact ⟨ks, f, hw h⟩

theorem run (h : Carries m t) : Option.Rel Carries (m.run FutureValues.machine) t.run := by
  obtain ⟨⟨s, out⟩, n, inputs, roots, journal⟩ := m
  obtain rfl : journal = t.journal := h.journal
  have hqueue : s.scheduled.map (·.func.fiber) = t.queue := h.queue
  cases hq : s.scheduled with
  | nil =>
    rw [hq] at hqueue
    rw [Fibers.run, ← hqueue]
    simp [FutureChains.run, machine, step, FutureValues.run, hq]
  | cons k queue =>
    obtain ⟨state, i, a, func⟩ := k
    have hi := h.stands i
    have htask : tasksOf s i = ⟨state, i, a, func⟩ :: queue.filter (·.func.fiber = i) := by
      rw [tasksOf, hq, List.filter_cons_of_pos (by simp)]
    rw [show tasksOf _ i = _ from htask] at hi
    cases hx : t.fiber i with
    | none =>
      rw [hx] at hi
      cases hi.of_none.2.1
    | some x =>
    rw [hx] at hi
    obtain ⟨f, hf, hholds⟩ := hi.of_some
    replace hholds : Holds s i f x (⟨state, i, a, func⟩ :: queue.filter (·.func.fiber = i))
      (inputs i) := hholds
    generalize hts : queue.filter (·.func.fiber = i) = ts, hin : inputs i = q at hholds
    cases hholds with | @task r a func ks hw
    obtain ⟨hclean₀, hkept₀⟩ := popped h.clean queue
    obtain ⟨s', ts, hdoes, hran⟩ := task_does hclean₀ (h.root_lt hf) (hkept₀.head trivial hw) func r
    obtain ⟨out', hexec⟩ := does_iff.mp hdoes (out ++ [.called ⟨.ofResult r, i, a, func⟩])
    rw [hq] at hqueue
    have hstep : machine.step (s, out) .run = some ({ s with scheduled := queue },
        out ++ [.called ⟨.ofResult r, i, a, func⟩]) := by
      simp [machine, step, FutureValues.run, hq]
    have hlast (o : ChainOutput ν ε ρ) : (out ++ [o]).getLast? = some o := List.getLast?_concat ..
    have hrun : t.run = some (({ t with queue := queue.map (·.func.fiber) } :
        Fibers ν ε ρ).resume i ((func.apply r).enter.2.under ks) (func.apply r).enter.1) := by
      rw [Fibers.run, ← hqueue]
      simp [hx]
    rw [hrun, FutureChains.run]
    simp only [hstep, Option.bind_some, hlast, FutureState.result_ofResult, hexec, Option.map_some]
    refine .some (h.goes (i := i) (u := { s with scheduled := queue })
      (x := (func.apply r).enter.2.under ks) ?_ hran.clean
      (.trans (hkept₀.mono fun _ _ => trivial) hran.kept)
      (fun j g hj hg => ⟨h.root_lt hg, fun he => hj (h.roots j i f (he ▸ hg) hf)⟩) rfl
      (Function.update_eq_self_iff.mpr hf.symm).symm (.inl hf)
      (fun j hj => FutureChains.ask_of_ne hj _) (fun j hj => ?_) hran.scheduled ?_
      (fun g c hg => ?_) ?_ ?_ ?_)
    · simp only [FutureChains.after, Fibers.resume, task_events]
    · rw [tasksOf, tasksOf, hq, List.filter_cons_of_neg]
      simpa using Ne.symm hj
    · change Holds s' _ _ _ (queue.filter (·.func.fiber = i) ++ ts) (FutureChains.ask inputs _ _ _)
      rw [hts, FutureChains.ask_self hin]
      exact hran.holds
    · have hg : s.futures g = some c := (hran.futures g).symm.trans hg
      by_cases he : g = f
      · exact .inl he
      · exact .inr ⟨fun hr => he (Option.some.inj (hr.symm.trans hf)), hg⟩
    · rw [hran.holds.tasks]
      rfl
    · exact h.fiber_lt hx
    · exact le_rfl

theorem get_pending {s : ChainValues ν ε ρ} {f c : ℕ} (hc : s.futures f = some c)
    (hv : s.values c = ⟨.future, none⟩) (out : List (ChainOutput ν ε ρ)) :
    machine.step (s, out) (.get f) = none := by
  simp [machine, step, FutureValues.get, hc, hv, FutureState.result?]

theorem take (h : Carries m t) (i : ℕ) :
    Option.Rel Carries (m.take FutureValues.machine i) (t.take i) := by
  obtain ⟨⟨s, out⟩, n, inputs, roots, journal⟩ := m
  obtain rfl : journal = t.journal := h.journal
  have hi := h.stands i
  cases hx : t.fiber i with
  | none =>
    rw [hx] at hi
    rw [FutureChains.take, Fibers.take, hx, hi.of_none.1]
    exact .none
  | some x =>
    rw [hx] at hi
    obtain ⟨f, hf, hholds⟩ := hi.of_some
    rw [FutureChains.take, Fibers.take, hx, hf, Option.bind_some]
    replace hholds : Holds s i f x (tasksOf s i) (inputs i) := hholds
    generalize hts : tasksOf s i = ts, hin : inputs i = q at hholds
    cases hholds with
    | task hw =>
      obtain ⟨c, hc, hv⟩ := hw.waits.future
      simp only [get_pending hc hv, Option.bind_none]
      exact .none
    | request hw =>
      obtain ⟨c, hc, hv⟩ := hw.waits.future
      simp only [get_pending hc hv, Option.bind_none]
      exact .none
    | @done r hd =>
      obtain ⟨s₁, c, hget, hdestroy, hc, hstate, hdrop⟩ := take_does h.clean hd
      have hstep : machine.step (s, out) (.get f) = some (s₁, out ++ [.got r]) := by
        simp [machine, hget]
      have hstep' : machine.step (s₁, out ++ [.got r]) (.destroyFuture f) =
          some (s.takeOut f c, out ++ [.got r]) := by
        simp [machine, hdestroy]
      have hlast (o : ChainOutput ν ε ρ) : (out ++ [o]).getLast? = some o :=
        List.getLast?_concat ..
      simp only [hstep, Option.bind_some, hlast, hstep', Option.map_some]
      have htasks (j : ℕ) : tasksOf (s.takeOut f c) j = tasksOf s j := by
        rw [tasksOf, hdrop.scheduled, tasksOf]
      refine .some (h.update (i := i) (x := none) rfl (hdrop.clean h.clean hc hstate)
        (hdrop.kept h.clean hc hstate) (fun j g hj hg he => hj (h.roots j i f (he ▸ hg) hf)) rfl
        (fun j hj => Function.update_of_ne hj ..) (fun _ _ => rfl) (fun j _ => htasks j) ?_
        (fun j g _ hg => ?_) (fun g d hg => ?_) ?_ (h.fiber_lt hx) le_rfl)
      · change Stands (s.takeOut f c) i none (Function.update roots i none i)
          (tasksOf (s.takeOut f c) i) (inputs i)
        rw [Function.update_self, htasks, hts, hin]
        exact .gone
      · have hg : Function.update roots i none i = some g := hg
        rw [Function.update_self] at hg
        cases hg
      · have hg : (s.takeOut f c).futures g = some d := hg
        rw [hdrop.futures] at hg
        split at hg
        · cases hg
        · next he =>
          obtain ⟨j, hj⟩ := h.futures g d hg
          refine ⟨j, (Function.update_of_ne ?_ ..).trans hj⟩
          rintro rfl
          exact he (Option.some.inj (hj.symm.trans hf))
      · rw [hdrop.scheduled]
        exact h.queue

end Carries

theorem chains_lockstep : Machine.Lockstep (FutureChains.machine FutureValues.machine)
    (Fibers.machine (ν := ν) (ε := ε) (ρ := ρ)) Carries where
  init := by
    refine ⟨rfl, ⟨fun c _ => ⟨rfl, rfl⟩, rfl, fun _ _ => rfl, fun _ _ => rfl, ?_, ?_⟩,
      fun i => .gone, ?_, ?_, rfl, fun _ _ => rfl⟩
    · exact fun a c h => nomatch h
    · rintro a a' b ⟨c, i, k, hc, -⟩
      cases hc
    · exact fun i j f h => nomatch h
    · exact fun g c h => nomatch h
  step m t op h := by
    cases op with
    | start p => exact h.start p
    | attach i k => exact h.attach i k
    | answer i r => exact h.answer i r
    | run => exact h.run
    | take i => exact h.take i

end Miniss
