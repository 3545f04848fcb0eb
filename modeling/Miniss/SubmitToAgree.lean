import Miniss.SubmitToSteps

/-! A call to another CPU ends as the same call on this CPU does: the functions give the queue
what `futurize` makes of them here, and the items and futures hand on what the queue carries. -/
namespace Miniss
variable {ν : Type*}

/-- What `ret_` is when the queue keeps the given result for the item. -/
def RetVariant.ofRet : Option (CallResult (Option ν)) → RetVariant ν
  | none => .monostate
  | some (.ok v) => .value v
  | some (.error e) => .exception e

theorem WorkItemImpl.fill_ofResult (w : WorkItemImpl ν) (r : Except Exn (Option ν)) :
    w.fill (.ofResult r) = { w with ret_ := .ofRet (some r) } := by
  cases r <;> rfl

theorem WorkItemImpl.complete_of_ret {w : WorkItemImpl ν} {r : Except Exn (Option ν)}
    (h : w.ret_ = .ofRet (some r)) : w.complete = w.promise_.set r := by
  cases r <;> simp [complete, h, RetVariant.ofRet]

theorem Fn.apply_of_result {fn : Fn ν} {happened : Bool} {r : Except Exn (Option ν)}
    (h : (fn.apply happened).result? = some r) : fn.apply happened = .ofResult r := by
  obtain ha | ⟨-, ha⟩ := fn.apply_eq happened
  · rw [ha, FutureState.result_ofResult, Option.some.injEq] at h
    rw [ha, h]
  · rw [ha] at h
    cases h

theorem Fn.apply_of_pending {fn : Fn ν} {happened : Bool}
    (h : (fn.apply happened).result? = none) : fn.apply happened = .future := by
  obtain ha | ⟨-, ha⟩ := fn.apply_eq happened
  · rw [ha, FutureState.result_ofResult] at h
    cases h
  · exact ha

theorem Fn.apply_stable {fn : Fn ν} {happened : Bool} {r : Except Exn (Option ν)}
    (h : fn.apply happened = .ofResult r) (later : Bool) (hl : happened = true → later = true) :
    fn.apply later = .ofResult r := by
  cases later with
  | false =>
    cases happened with
    | false => exact h
    | true => exact absurd (hl rfl) (by decide)
  | true =>
    obtain ha | ⟨-, ha⟩ := fn.apply_eq happened
    · rw [apply_true, ← ha, h]
    · rw [ha] at h
      cases r <;> cases h

namespace SubmitTo

/-- The promise of an item and the future of its call, before `complete`: they point to each
other, or the caller's continuation waits in the promise. -/
inductive Linked : Promise (Option ν) Unit → Future (Option ν) → Prop where
  | future : Linked { Promise.new with future := true } ⟨true, .future⟩
  | task : Linked ⟨false, .future, .task, some ⟨.future, ()⟩⟩ ⟨false, .future⟩

/-- The future of a call after `complete`, and the caller's continuation if it is scheduled. -/
inductive Resolved (r : Except Exn (Option ν)) :
    Future (Option ν) → Option (Continuation (Option ν) Unit) → Prop where
  | future : Resolved r ⟨false, .ofResult r⟩ none
  | scheduled (f : FutureState (Option ν)) (hf : f.available = false) :
      Resolved r ⟨false, f⟩ (some ⟨.ofResult r, ()⟩)

theorem Linked.complete {p : Promise (Option ν) Unit} {f : Future (Option ν)} (h : Linked p f)
    (r : Except Exn (Option ν)) :
    ∃ p' c f' c', p.set r = some (p', c) ∧ p'.destroy f = some (f', c') ∧ Resolved r f' c := by
  cases h with
  | future =>
    refine ⟨_, _, ⟨false, .ofResult r⟩, none, rfl, ?_, .future⟩
    simp [Promise.destroy, Promise.assign, Promise.deref, Promise.new]
  | task => exact ⟨_, _, _, _, rfl, rfl, .scheduled .future rfl⟩

theorem Linked.schedule {p : Promise (Option ν) Unit} {f f' : Future (Option ν)}
    {p' : Option (Promise (Option ν) Unit)} {c : Option (Continuation (Option ν) Unit)}
    (h : Linked p f) (hs : f.schedule (some p) () = some (f', p', c)) :
    Linked (p'.getD p) f' ∧ c = none := by
  cases h with
  | future =>
    cases hs
    exact ⟨.task, rfl⟩
  | task => cases hs

theorem Resolved.schedule {r : Except Exn (Option ν)} {f f' : Future (Option ν)}
    {p p' : Option (Promise (Option ν) Unit)} {c c' : Option (Continuation (Option ν) Unit)}
    (h : Resolved r f c) (hs : f.schedule p () = some (f', p', c')) : Resolved r f' c' := by
  cases h with
  | future =>
    cases r <;> cases hs <;> exact .scheduled .invalid rfl
  | scheduled f hf => cases (Future.schedule_dead hf _ _).symm.trans hs

/-- What the queue carries is what the functions give on their own CPU. -/
structure Right (fns : Nat → Fn ν) (s : SubmitTo ν) : Prop where
  tasks : ∀ cpu item r, (cpu, ItemTask.fill item r) ∈ s.queue.tasks →
    s.sameCpu fns item = .ofResult r
  running : ∀ k ∈ s.queue.running, s.sameCpu fns k = .future
  filled : ∀ p ∈ s.queue.filled, s.sameCpu fns p.1 = .ofResult p.2

/-- The items and the futures hold what the queue carries. -/
structure Carried (fns : Nat → Fn ν) (s : SubmitTo ν) : Prop where
  live : ∀ k ret, s.queue.heap k = some ret → ∃ w, s.items k = some w ∧ w.fn_ = fns k ∧
    w.ret_ = .ofRet ret ∧ Linked w.promise_ (s.futures k) ∧ s.scheduled k = none
  resolved : ∀ p ∈ s.queue.resolved, Resolved p.2 (s.futures p.1) (s.scheduled p.1)
  fresh : ∀ k, s.queue.submitted ≤ k → s.scheduled k = none ∧ s.futures k = ⟨false, .invalid⟩

theorem right_init (fns : Nat → Fn ν) (i j : Nat) : Right fns (init i j) := by
  constructor <;> simp [init, CrossCpuQueue.init]

theorem carried_init (fns : Nat → Fn ν) (i j : Nat) : Carried fns (init i j) := by
  constructor <;> simp [init, CrossCpuQueue.init]

@[simp] theorem complete_happened (s : SubmitTo ν) (item : Nat) :
    (s.complete item).happened = s.happened := by
  unfold complete
  repeat' split
  all_goals rfl

theorem attach_queue {s t : SubmitTo ν} {k : Nat} (h : s.attach k = some t) :
    t.queue = s.queue ∧ t.happened = s.happened := by
  obtain ⟨d, -, rfl⟩ := Option.map_eq_some_iff.mp h
  exact ⟨rfl, rfl⟩

theorem sameCpu_of_happened {fns : Nat → Fn ν} {s t : SubmitTo ν} (h : t.happened = s.happened)
    (k : Nat) : t.sameCpu fns k = s.sameCpu fns k := by
  simp only [sameCpu, h]

/-- What is there at once stays when something happens. -/
theorem sameCpu_of_happen {fns : Nat → Fn ν} {s t : SubmitTo ν} {k item : Nat}
    {r : Except Exn (Option ν)} (ht : t.happened = k :: s.happened)
    (h : s.sameCpu fns item = .ofResult r) : t.sameCpu fns item = .ofResult r := by
  refine Fn.apply_stable h _ fun hm => ?_
  rw [decide_eq_true_eq] at hm ⊢
  exact ht ▸ List.mem_cons_of_mem k hm

theorem Right.move {fns : Nat → Fn ν} {s t : SubmitTo ν} (h : Right fns s)
    (hh : t.happened = s.happened)
    (ht : ∀ cpu item r, (cpu, ItemTask.fill item r) ∈ t.queue.tasks →
      (cpu, ItemTask.fill item r) ∈ s.queue.tasks ∨ s.sameCpu fns item = .ofResult r)
    (hr : ∀ k ∈ t.queue.running, k ∈ s.queue.running ∨ s.sameCpu fns k = .future)
    (hf : ∀ p ∈ t.queue.filled, p ∈ s.queue.filled ∨ s.sameCpu fns p.1 = .ofResult p.2) :
    Right fns t := by
  refine ⟨fun cpu item r hm => ?_, fun k hk => ?_, fun p hp => ?_⟩
  · rw [sameCpu_of_happened hh]
    exact (ht cpu item r hm).elim (h.tasks cpu item r) id
  · rw [sameCpu_of_happened hh]
    exact (hr k hk).elim (h.running k) id
  · rw [sameCpu_of_happened hh]
    exact (hf p hp).elim (h.filled p) id

theorem Carried.ready_eq {fns : Nat → Fn ν} {s : SubmitTo ν} (h : Carried fns s)
    {cpu item : Nat} {todo : List Nat} (hpc : s.queue.toPc = .process cpu (item :: todo))
    {ret : Option (CallResult (Option ν))} (hl : s.queue.heap item = some ret) :
    s.ready = (s.sameCpu fns item).result? := by
  obtain ⟨w, hw, hfn, -⟩ := h.live item ret hl
  simp only [ready, hpc, hw, Option.bind_some, WorkItemImpl.process, hfn, sameCpu]

/-- The function of an item runs: it gives the queue what its future has, or goes on running. -/
theorem Right.process {fns : Nat → Fn ν} {s : SubmitTo ν} (h : Right fns s)
    (hc : Carried fns s) (hi : CrossCpuQueue.Inv s.queue) {cpu item : Nat} {todo : List Nat}
    (hpc : s.queue.toPc = .process cpu (item :: todo)) :
    Right fns { s with
      queue := { s.queue.process cpu item s.ready with toPc := .process cpu todo } } := by
  obtain ⟨ret, hl⟩ := hi.owned.live item (by simp [CrossCpuQueue.unanswered, ToPc.todo, hpc])
  have hready := hc.ready_eq hpc hl
  obtain ⟨r, hres, hp⟩ | ⟨hres, hp⟩ := CrossCpuQueue.process_of_live hl s.ready
  · have hsame := Fn.apply_of_result (hready.symm.trans hres)
    rw [hp]
    refine h.move rfl (fun c k r' hm => ?_) (fun _ hk => .inl hk) (fun _ hp => .inl hp)
    simp only [List.mem_append, List.mem_singleton, Prod.mk.injEq, ItemTask.fill.injEq] at hm
    obtain hm | ⟨-, rfl, rfl⟩ := hm
    · exact .inl hm
    · exact .inr hsame
  · have hsame := Fn.apply_of_pending (hready.symm.trans hres)
    rw [hp]
    exact h.move rfl (fun _ _ _ hm => .inl hm)
      (forall_mem_concat (fun _ hk => .inl hk) (.inr hsame)) (fun _ hp => .inl hp)

/-- What a function waits for happens: it is the only one whose future changes, and it does
not go on running. -/
theorem Right.happen {fns : Nat → Fn ν} {s t : SubmitTo ν} (h : Right fns s) {k : Nat}
    (ht : t.happened = k :: s.happened) (hf : t.queue.filled = s.queue.filled)
    (hr : ∀ k' ∈ t.queue.running, k' ∈ s.queue.running ∧ k' ≠ k)
    (hq : ∀ cpu item r, (cpu, ItemTask.fill item r) ∈ t.queue.tasks →
      (cpu, ItemTask.fill item r) ∈ s.queue.tasks ∨ item = k ∧ r = (fns k).outcome) :
    Right fns t := by
  refine ⟨fun cpu item r hm => ?_, fun k' hk' => ?_,
    fun p hp => sameCpu_of_happen ht (h.filled p (hf ▸ hp))⟩
  · obtain hm | ⟨rfl, rfl⟩ := hq cpu item r hm
    · exact sameCpu_of_happen ht (h.tasks cpu item r hm)
    · simp [sameCpu, ht]
  · obtain ⟨hk', hne⟩ := hr k' hk'
    simpa [sameCpu, ht, hne] using h.running k' hk'

/-- The continuation in `process` takes the result of a function to `ret_`. -/
theorem Right.fill {fns : Nat → Fn ν} {s : SubmitTo ν} (h : Right fns s)
    (hi : CrossCpuQueue.Inv s.queue) {pre post : List (Nat × ItemTask (Option ν))}
    {cpu item : Nat} {r : Except Exn (Option ν)}
    (ht : s.queue.tasks = pre ++ (cpu, .fill item r) :: post) :
    Right fns { s.fill item r with
      queue := CrossCpuQueue.fill { s.queue with tasks := pre ++ post } cpu item r } := by
  obtain ⟨ret, hl⟩ := hi.owned.live item (by simp [CrossCpuQueue.unanswered, ht])
  have hsame := h.tasks cpu item r (by simp [ht])
  rw [CrossCpuQueue.fill_of_live hl]
  refine h.move rfl (fun c k r' hm => .inl ?_) (fun _ hk => .inl hk)
    (forall_mem_concat (fun _ hp => .inl hp) (.inr hsame))
  rw [ht]
  simp only [List.mem_append, List.mem_cons, Prod.mk.injEq, reduceCtorEq, and_false,
    List.not_mem_nil] at hm ⊢
  tauto

theorem Right.step {fns : Nat → Fn ν} {s t : SubmitTo ν} (h : Right fns s) (hc : Carried fns s)
    (hi : CrossCpuQueue.Inv s.queue) (hs : SubmitToStep fns s t) : Right fns t := by
  cases hs with
  | submitted hpc =>
    exact h.move rfl (fun _ _ _ hm => .inl hm) (fun _ hk => .inl hk) (fun _ hp => .inl hp)
  | moved q hq =>
    simp only [CrossCpuQueue.calls, Prod.mk.injEq] at hq
    obtain ⟨-, -, hr, ht, hf, -⟩ := hq
    exact h.move rfl (fun _ _ _ hm => .inl (ht ▸ hm)) (fun _ hk => .inl (hr ▸ hk))
      (fun _ hp => .inl (hf ▸ hp))
  | completed cpu item todo hpc =>
    obtain ⟨r, hr, -⟩ := hi.owned.ready item
      (by simp [CrossCpuQueue.answered, FromPc.todo, hpc])
    rw [CrossCpuQueue.complete_of_ready hr]
    exact h.move (complete_happened s item) (fun _ _ _ hm => .inl hm) (fun _ hk => .inl hk)
      (fun _ hp => .inl hp)
  | processed cpu item todo hpc => exact h.process hc hi hpc
  | happened k hk =>
    exact h.happen rfl rfl (fun k' hk' => ⟨hk', ne_of_mem_of_not_mem hk' hk⟩)
      (fun _ _ _ hm => .inl hm)
  | resolved pre post k hk =>
    have hnd := hi.path.running_nodup
    rw [hk, List.nodup_middle, List.nodup_cons] at hnd
    refine h.happen rfl rfl (fun k' hk' => ⟨?_, ne_of_mem_of_not_mem hk' hnd.1⟩)
      (fun cpu item r hm => ?_)
    · rw [hk]
      exact List.perm_middle.symm.subset (List.mem_cons_of_mem k hk')
    · simp only [List.mem_append, List.mem_singleton, Prod.mk.injEq,
        ItemTask.fill.injEq] at hm
      exact hm.imp_right And.right
  | filled pre post cpu item r ht => exact h.fill hi ht
  | responded pre post cpu item ht =>
    refine h.move rfl (fun c k r hm => .inl ?_) (fun _ hk => .inl hk) (fun _ hp => .inl hp)
    rw [ht]
    exact List.perm_middle.symm.subset (List.mem_cons_of_mem _ hm)
  | attached k t ht =>
    obtain ⟨hq, hh⟩ := attach_queue ht
    exact h.move hh (fun _ _ _ hm => .inl (hq ▸ hm)) (fun _ hk => .inl (hq ▸ hk))
      (fun _ hp => .inl (hq ▸ hp))

/-- `complete` of an item whose `ret_` is filled resolves the future of the call. -/
theorem complete_eq {s : SubmitTo ν} {item : Nat} {w : WorkItemImpl ν}
    {r : Except Exn (Option ν)} (hw : s.items item = some w) (hret : w.ret_ = .ofRet (some r))
    (hl : Linked w.promise_ (s.futures item)) :
    ∃ f c, Resolved r f c ∧ s.complete item =
      { s with
        items := Function.update s.items item none
        futures := Function.update s.futures item f
        scheduled := Function.update s.scheduled item c } := by
  obtain ⟨p, c, f, c', hset, hdestroy, hr⟩ := hl.complete r
  refine ⟨f, c, hr, ?_⟩
  simp only [complete, hw, WorkItemImpl.complete_of_ret hret, hset, hdestroy]

/-- The items and futures of other calls, and what the queue says of them, are the same. -/
theorem Carried.other {fns : Nat → Fn ν} {s t : SubmitTo ν} (h : Carried fns s) (item : Nat)
    (hq : ∀ k, k ≠ item → t.queue.heap k = s.queue.heap k ∧ t.items k = s.items k ∧
      t.futures k = s.futures k ∧ t.scheduled k = s.scheduled k)
    (hlive : ∀ ret, t.queue.heap item = some ret → ∃ w, t.items item = some w ∧
      w.fn_ = fns item ∧ w.ret_ = .ofRet ret ∧ Linked w.promise_ (t.futures item) ∧
      t.scheduled item = none)
    (hres : ∀ p ∈ t.queue.resolved, p.1 ≠ item ∧ p ∈ s.queue.resolved ∨
      Resolved p.2 (t.futures p.1) (t.scheduled p.1))
    (hsub : s.queue.submitted ≤ t.queue.submitted)
    (hfresh : t.queue.submitted ≤ item → t.scheduled item = none ∧
      t.futures item = ⟨false, .invalid⟩) : Carried fns t := by
  refine ⟨fun k ret hk => ?_, fun p hp => ?_, fun k hk => ?_⟩
  · by_cases he : k = item
    · subst he
      exact hlive ret hk
    · obtain ⟨hh, hi, hf, hs⟩ := hq k he
      rw [hi, hf, hs]
      exact h.live k ret (hh ▸ hk)
  · obtain ⟨he, hp⟩ | hr := hres p hp
    · obtain ⟨-, -, hf, hs⟩ := hq p.1 he
      rw [hf, hs]
      exact h.resolved p hp
    · exact hr
  · by_cases he : k = item
    · subst he
      exact hfresh hk
    · obtain ⟨-, -, hf, hs⟩ := hq k he
      rw [hf, hs]
      exact h.fresh k (hsub.trans hk)

theorem Carried.move {fns : Nat → Fn ν} {s t : SubmitTo ν} (h : Carried fns s)
    (hq : (t.queue.submitted, t.queue.heap, t.queue.resolved) =
      (s.queue.submitted, s.queue.heap, s.queue.resolved))
    (hs : (t.items, t.futures, t.scheduled) = (s.items, s.futures, s.scheduled)) :
    Carried fns t := by
  simp only [Prod.mk.injEq] at hq hs
  obtain ⟨hsub, hh, hr⟩ := hq
  obtain ⟨hi, hf, hc⟩ := hs
  constructor <;> simp only [hsub, hh, hr, hi, hf, hc]
  · exact h.live
  · exact h.resolved
  · exact h.fresh

theorem Carried.submit {fns : Nat → Fn ν} {s : SubmitTo ν} (h : Carried fns s)
    (hi : CrossCpuQueue.Inv s.queue) (cpu : Nat) :
    Carried fns { s.submit (fns s.queue.submitted) with queue := s.queue.submit cpu } := by
  refine h.other s.queue.submitted (fun k hk => ⟨Function.update_of_ne hk _ _,
    Function.update_of_ne hk _ _, Function.update_of_ne hk _ _, rfl⟩) ?_ ?_ (Nat.le_succ _) ?_
  · intro ret hret
    change Function.update s.queue.heap s.queue.submitted (some none) s.queue.submitted = _ at hret
    rw [Function.update_self, Option.some.injEq] at hret
    subst hret
    refine ⟨_, Function.update_self _ _ _, rfl, rfl, ?_, (h.fresh _ (Nat.le_refl _)).1⟩
    change Linked _ (Function.update s.futures s.queue.submitted _ s.queue.submitted)
    rw [Function.update_self]
    exact .future
  · intro p hp
    have hm : p.1 ∈ s.queue.completed.map Prod.fst :=
      hi.owned.resolved ▸ List.mem_map_of_mem hp
    refine .inl ⟨?_, hp⟩
    intro he
    exact hi.path.not_mem_submitted
      (List.mem_append_right _ (List.mem_append_right _ (he ▸ hm)))
  · intro hle
    exact absurd hle (Nat.not_succ_le_self _)

theorem Carried.complete {fns : Nat → Fn ν} {s : SubmitTo ν} (h : Carried fns s)
    (hi : CrossCpuQueue.Inv s.queue) {cpu item : Nat} {todo : List Nat}
    (hpc : s.queue.fromPc = .complete cpu (item :: todo)) :
    Carried fns { s.complete item with
      queue := { s.queue.complete cpu item with fromPc := .complete cpu todo } } := by
  have hm : item ∈ s.queue.answered := by
    simp [CrossCpuQueue.answered, FromPc.todo, hpc]
  obtain ⟨r, hr, -⟩ := hi.owned.ready item hm
  obtain ⟨w, hw, -, hret, hl, -⟩ := h.live item _ hr
  obtain ⟨f, c, hres, he⟩ := complete_eq hw hret hl
  rw [he, CrossCpuQueue.complete_of_ready hr]
  refine h.other item (fun k hk => ⟨Function.update_of_ne hk _ _,
    Function.update_of_ne hk _ _, Function.update_of_ne hk _ _, Function.update_of_ne hk _ _⟩)
    ?_ ?_ (Nat.le_refl _) ?_
  · intro ret hret
    exact absurd ((Function.update_self _ _ _).symm.trans hret) (Option.some_ne_none _).symm
  · intro p hp
    obtain hp | hp := List.mem_append.mp hp
    · refine .inl ⟨?_, hp⟩
      intro he
      have hg := hi.owned.gone p.1 (hi.owned.resolved ▸ List.mem_map_of_mem hp)
      rw [he, hr] at hg
      cases hg
    · obtain rfl := List.mem_singleton.mp hp
      refine .inr ?_
      simpa only [Function.update_self] using hres
  · intro hle
    have hlt := List.mem_range.mp
      (hi.path.all.subset (List.mem_append_right _ (List.mem_append_left _ hm)))
    exact absurd hle (Nat.not_le.mpr hlt)

theorem Carried.fill {fns : Nat → Fn ν} {s : SubmitTo ν} (h : Carried fns s) {cpu item : Nat}
    {ret : Option (CallResult (Option ν))} (hl : s.queue.heap item = some ret)
    (r : Except Exn (Option ν)) (ts : List (Nat × ItemTask (Option ν))) :
    Carried fns { s.fill item r with
      queue := CrossCpuQueue.fill { s.queue with tasks := ts } cpu item r } := by
  obtain ⟨w, hw, hfn, -, hlink, hsched⟩ := h.live item ret hl
  rw [CrossCpuQueue.fill_of_live hl]
  refine h.other item (fun k hk => ⟨Function.update_of_ne hk _ _,
    Function.update_of_ne hk _ _, rfl, rfl⟩) ?_ ?_ (Nat.le_refl _) (h.fresh item)
  · intro ret' hret'
    change Function.update s.queue.heap item (some (some r)) item = _ at hret'
    rw [Function.update_self, Option.some.injEq] at hret'
    subst hret'
    refine ⟨{ w with ret_ := .ofRet (some r) }, ?_, hfn, rfl, hlink, hsched⟩
    simp only [SubmitTo.fill, Function.update_self, hw, Option.map_some,
      WorkItemImpl.fill_ofResult]
  · intro p hp
    exact .inr (h.resolved p hp)

theorem Carried.attach {fns : Nat → Fn ν} {s t : SubmitTo ν} (h : Carried fns s) {k : Nat}
    (ht : s.attach k = some t) : Carried fns t := by
  obtain ⟨⟨f, p, c⟩, hs, rfl⟩ := Option.map_eq_some_iff.mp ht
  refine h.other k (fun k' hk => ⟨rfl, Function.update_of_ne hk _ _,
    Function.update_of_ne hk _ _, Function.update_of_ne hk _ _⟩) ?_ ?_ (Nat.le_refl _) ?_
  · intro ret hret
    obtain ⟨w, hw, hfn, hr, hl, -⟩ := h.live k ret hret
    rw [hw, Option.map_some] at hs
    obtain ⟨hl, rfl⟩ := hl.schedule hs
    refine ⟨{ w with promise_ := p.getD w.promise_ }, ?_, hfn, hr, ?_, Function.update_self _ _ _⟩
    · simp only [Function.update_self, hw, Option.map_some]
    · simpa only [Function.update_self] using hl
  · intro q hq
    by_cases he : q.1 = k
    · refine .inr ?_
      subst he
      simpa only [Function.update_self] using (h.resolved q hq).schedule hs
    · exact .inl ⟨he, hq⟩
  · intro hle
    rw [(h.fresh k hle).2] at hs
    cases hs

theorem Carried.step {fns : Nat → Fn ν} {s t : SubmitTo ν} (h : Carried fns s)
    (hi : CrossCpuQueue.Inv s.queue) (hs : SubmitToStep fns s t) : Carried fns t := by
  cases hs with
  | submitted hpc => exact h.submit hi s.queue.from_
  | moved q hq =>
    simp only [CrossCpuQueue.calls, Prod.mk.injEq] at hq
    obtain ⟨hsub, hh, -, -, -, hr⟩ := hq
    exact h.move (by rw [hsub, hh, hr]) rfl
  | completed cpu item todo hpc => exact h.complete hi hpc
  | processed cpu item todo hpc =>
    obtain ⟨ret, hl⟩ := hi.owned.live item
      (by simp [CrossCpuQueue.unanswered, ToPc.todo, hpc])
    obtain ⟨r, -, hp⟩ | ⟨-, hp⟩ := CrossCpuQueue.process_of_live hl s.ready
    · exact h.move (by rw [hp]) rfl
    · exact h.move (by rw [hp]) rfl
  | happened k hk => exact h.move rfl rfl
  | resolved pre post k hk => exact h.move rfl rfl
  | filled pre post cpu item r ht =>
    obtain ⟨ret, hl⟩ := hi.owned.live item (by simp [CrossCpuQueue.unanswered, ht])
    exact h.fill hl r (pre ++ post)
  | responded pre post cpu item ht => exact h.move rfl rfl
  | attached k t ht => exact h.attach ht

theorem queue_inv {fns : Nat → Fn ν} {cpuCount i j : Nat} {as : List SubmitToAct}
    {s : SubmitTo ν} (h : (submitToMachine fns cpuCount i j).Reaches as s) :
    CrossCpuQueue.Inv s.queue := by
  obtain ⟨bs, hq⟩ := (submit_to_simulates fns cpuCount i j).reaches h
  exact CrossCpuQueue.inv_reachable hq

theorem right_carried {fns : Nat → Fn ν} {cpuCount i j : Nat} {as : List SubmitToAct}
    {s : SubmitTo ν} (h : (submitToMachine fns cpuCount i j).Reaches as s) :
    Right fns s ∧ Carried fns s := by
  refine h.invariant_of (I := fun s => Right fns s ∧ Carried fns s)
    (fun _ _ => queue_inv) ⟨right_init fns i j, carried_init fns i j⟩ ?_
  intro s a t hi hs hst
  have hst := submit_to_step_cases hst
  exact ⟨hs.1.step hs.2 hi hst, hs.2.step hi hst⟩

theorem Carried.crossCpu_live {fns : Nat → Fn ν} {s : SubmitTo ν} (h : Carried fns s) {k : Nat}
    {ret : Option (CallResult (Option ν))} (hk : s.queue.heap k = some ret) :
    s.crossCpu k = .future := by
  obtain ⟨w, hw, -, -, hl, hs⟩ := h.live k ret hk
  simp only [crossCpu, hs, hw, Option.map_some]
  generalize w.promise_ = p, s.futures k = f at hl
  cases hl <;> rfl

theorem Carried.crossCpu_completed {fns : Nat → Fn ν} {s : SubmitTo ν} (h : Carried fns s)
    (hr : Right fns s) (hi : CrossCpuQueue.Inv s.queue) {k : Nat}
    (hk : k ∈ s.queue.completed.map Prod.fst) : s.crossCpu k = s.sameCpu fns k := by
  rw [← hi.owned.resolved] at hk
  obtain ⟨⟨k, r⟩, hp, rfl⟩ := List.mem_map.mp hk
  rw [hr.filled _ (hi.owned.values _ hp)]
  have hres := h.resolved _ hp
  unfold crossCpu
  generalize s.futures k = f, s.scheduled k = c at hres
  cases hres <;> rfl

end SubmitTo

open SubmitTo

/-- The future of a call to another CPU resolves to nothing but what the future of the same
call on its own CPU resolves to, and when all queues are drained it is resolved if that is. -/
theorem submit_to_agrees {fns : Nat → Fn ν} {cpuCount i j : Nat} {as : List SubmitToAct}
    {s : SubmitTo ν} (h : (submitToMachine fns cpuCount i j).Reaches as s) {k : Nat}
    (hk : k < s.queue.submitted) :
    ((s.crossCpu k).available = true → s.sameCpu fns k = s.crossCpu k) ∧
    (s.Drained → ((s.crossCpu k).available = true ↔ (s.sameCpu fns k).available = true)) := by
  have hi := queue_inv h
  obtain ⟨hr, hc⟩ := right_carried h
  have hplace := hi.path.all.symm.subset (List.mem_range.mpr hk)
  simp only [List.mem_append] at hplace
  refine ⟨fun ha => ?_, fun hd => ?_⟩
  · have hpending : ∀ ret, s.queue.heap k = some ret → False := by
      intro ret hret
      rw [hc.crossCpu_live hret] at ha
      cases ha
    obtain hu | hs | hf := hplace
    · obtain ⟨ret, hret⟩ := hi.owned.live k hu
      exact absurd hret (hpending ret)
    · obtain ⟨r, hret, -⟩ := hi.owned.ready k hs
      exact absurd hret (hpending (some r))
    · exact (hc.crossCpu_completed hr hi hf).symm
  · obtain hu | hs | hf := hplace
    · have hrun : k ∈ s.queue.running := by
        simpa [CrossCpuQueue.unanswered, hd.tx, hd.toPc, hd.tasks] using hu
      obtain ⟨ret, hret⟩ := hi.owned.live k hu
      rw [hc.crossCpu_live hret, hr.running k hrun]
    · simp [CrossCpuQueue.answered, hd.rx, hd.fromPc, hd.tasks] at hs
    · rw [hc.crossCpu_completed hr hi hf]

/-- The first function waits for something and returns 7, the second throws. -/
def waitAndThrow : Nat → Fn Nat
  | 0 => .future (.ok (some 7)) true
  | _ => .throws (.user 3)

/-- Two calls from CPU 0 to CPU 1; a continuation is attached to the future of the second. -/
def waitAndThrowRun : List SubmitToAct :=
  [.submitTo 0 1, .submitTo 0 1, .attach 1, .poll 0 (.flushTx 0 1), .from_, .from_, .from_,
    .poll 1 (.pollTx 0 1), .to_, .to_, .to_, .runTask 0, .runTask 0, .poll 1 (.flushRx 0 1),
    .to_, .to_, .happen 0, .runTask 0, .runTask 0, .poll 0 (.pollRx 0 1), .from_, .from_,
    .poll 1 (.flushRx 0 1), .to_, .to_, .poll 0 (.pollRx 0 1), .from_, .from_]

theorem submit_to_agrees_two : ∃ s : SubmitTo Nat,
    (submitToMachine waitAndThrow 2 0 1).Reaches waitAndThrowRun s ∧
    s.crossCpu 0 = .result (some 7) ∧ s.crossCpu 1 = .exception (.user 3) ∧ s.Drained ∧
    ∀ k, k = 0 ∨ k = 1 →
      ((s.crossCpu k).available = true → s.sameCpu waitAndThrow k = s.crossCpu k) ∧
      (s.Drained →
        ((s.crossCpu k).available = true ↔ (s.sameCpu waitAndThrow k).available = true)) := by
  refine ⟨_, rfl, rfl, rfl, ⟨rfl, rfl, rfl, rfl, rfl⟩, ?_⟩
  have hrun : (submitToMachine waitAndThrow 2 0 1).Reaches waitAndThrowRun _ := rfl
  rintro k (rfl | rfl)
  · exact submit_to_agrees hrun (by decide)
  · exact submit_to_agrees hrun (by decide)

end Miniss
