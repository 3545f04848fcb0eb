import Miniss.Lib.Lockstep
import Miniss.Seastar.FutureHeapFutures

/-! The operations that read a value, attach a function to it or forward it, and the heap as a
machine in lockstep with the values. -/
namespace Miniss
variable {κ ι ν φ : Type*}
variable {s : FutureValues κ ι ν φ} {h : FutureHeap κ ι ν φ}

attribute [local grind =] Function.update_apply FutureHeap.taskOf

namespace Represents

theorem run (hR : Represents h s) :
    Option.Rel (fun x y => Represents x.1 y.1 ∧ x.2 = y.2) h.run s.run := by
  have hT := hR.tasks
  have hq := hR.queue
  unfold FutureHeap.run FutureValues.run
  cases hht : h.taskQueue with
  | nil =>
    rw [hht, List.map_nil, eq_comm, List.map_eq_nil_iff] at hq
    simp [hq]
  | cons t q =>
    cases hss : s.scheduled with
    | nil => simp [hht, hss] at hq
    | cons k ks =>
      rw [hht, hss, List.map_cons, List.map_cons, List.cons.injEq] at hq
      obtain ⟨hk, hq⟩ := hq
      have hnd : t ∉ q := (List.nodup_cons.mp (hht ▸ hT.nodup)).1
      have hown : ∀ a, h.taskOf a ≠ some t :=
        fun a ha => hT.queued a t ha (hht ▸ List.mem_cons_self)
      simp only [hk, Option.map_some]
      refine .some ⟨⟨fun b => ?_, fun g => ?_, ?_, hR.fresh, hR.attached,
        hT.pop hht (fun _ => rfl) (by grind) rfl rfl⟩, rfl⟩
      · refine (hR.promise b).frame rfl rfl .rfl (by simp) ?_
        exact fun u (hu : h.taskOf b = some u) => Function.update_of_ne (by grind) ..
      · exact (hR.future g).frame rfl rfl (by simp)
      · rw [← hq]
        exact List.map_congr_left fun u hu => Function.update_of_ne (by grind) ..

theorem enqueue (hR : Represents h s) (k : Continuation ν φ) :
    Represents { h with
        tasks := Function.update h.tasks h.nextTask (some k)
        nextTask := h.nextTask + 1
        taskQueue := h.taskQueue ++ [h.nextTask] }
      { s with scheduled := s.scheduled ++ [k] } := by
  have hT := hR.tasks
  have hown := fun a t => hR.task_lt_of_promise (a := a) (t := t)
  have hque := fun t => hR.task_lt_of_queue (t := t)
  refine ⟨fun b => ?_, fun g => ?_, ?_, hR.fresh, hR.attached,
    hT.enqueue (k := k) hown hque (fun _ => rfl) (by grind) rfl rfl⟩
  · refine (hR.promise b).frame rfl rfl .rfl (by simp) ?_
    exact fun u (hu : h.taskOf b = some u) => Function.update_of_ne (by grind) ..
  · exact (hR.future g).frame rfl rfl (by simp)
  · rw [List.map_append, List.map_append, ← hR.queue]
    congr 1
    · exact List.map_congr_left fun u hu => Function.update_of_ne (by grind) ..
    · simp

end Represents

variable [DecidableEq κ]

/-- A value that is set leaves the other values where they are. -/
theorem FutureValues.set_location {s s' : FutureValues κ ι ν φ} {a : κ} {r : Except Exn ν}
    (hs : s.set a r = some s') {f : ι} {c : ℕ} (hc : (s.values c).func = none) :
    s'.futures = s.futures ∧ s'.location f c = s.location f c := by
  unfold FutureValues.set at hs
  obtain ⟨d, hd, hs⟩ := Option.bind_eq_some_iff.mp hs
  split at hs
  · rw [← Option.some.inj hs]
    exact ⟨rfl, rfl⟩
  · have hsym : (s.promises.unlink a).symm c = s.promises.symm c := by grind
    rw [← Option.some.inj hs]
    exact ⟨rfl, by simp [location, hsym]⟩
  · cases hs

variable [DecidableEq ι]

namespace Represents

theorem schedule (hR : Represents h s) (f : ι) (func : φ) :
    Option.Rel Represents (h.schedule f func) (s.schedule f func) := by
  have hT := hR.tasks
  have hn := hR.fresh s.next (le_refl _)
  have hown := fun a t => hR.task_lt_of_promise (a := a) (t := t)
  have hque := fun t => hR.task_lt_of_queue (t := t)
  unfold FutureHeap.schedule FutureValues.schedule
  cases hc : s.futures f with
  | none => simp [hR.future_vacant_iff.mpr hc]
  | some c =>
    obtain ⟨hstate, hderef⟩ := hR.state_eq hc
    obtain ⟨hfn, hcase⟩ := hR.future_cases hc
    by_cases hav : (s.values c).state.available = true
    · obtain ⟨h', hassign, hR'⟩ := hR.assign_location hc .invalid
      obtain ⟨x, hx⟩ : ∃ x, h.futures f = some x := by grind
      simp only [hx, hstate, hderef, hav, hassign, Option.bind_some, if_true, Option.map_some]
      exact .some (hR'.enqueue _)
    · obtain ⟨a, ha, hx, hp⟩ | ⟨hna, hx⟩ := hcase
      · have hsym : s.promises.symm c = some a := s.promises.eq_some_iff.mpr ha
        simp only [hx, hstate, hderef, hav, hsym, hp, Option.bind_some, FutureHeap.attach,
          FutureHeap.detach, FutureHeap.modifyPromise, FutureHeap.modifyFuture, Option.map_some,
          Option.isSome_some, if_true, Function.update_self, Function.update_idem]
        refine .some ⟨fun b => ?_, fun g => ?_, ?_, by grind [hR.fresh],
          by grind [hR.attached], hT.attach (a := a) (k := ⟨.future, func⟩) hown hque (by grind)
            (by grind) (by grind) rfl rfl⟩
        · by_cases hb : b = a
          · subst hb
            exact .waits c h.nextTask (s.values c).state func (by simpa using hav) ha
              (hR.not_spent ha) (by grind) (by simp) (by simp)
          · refine (hR.promise b).frame (by simp [hb]) rfl .rfl (by grind) ?_
            exact fun u (hu : h.taskOf b = some u) => Function.update_of_ne (by grind) ..
        · by_cases hgf : g = f
          · subst hgf
            exact .alone s.next (by grind) hn.1 (by grind)
          · exact (hR.future g).frame (by simp [hgf]) (by grind) (by grind)
        · rw [FutureValues.put_scheduled, FutureValues.renew_scheduled, ← hR.queue]
          exact List.map_congr_left fun u hu => Function.update_of_ne (by grind) ..
      · simp [hx, hstate, hderef, hav, hna]

theorem get (hR : Represents h s) (f : ι) :
    Option.Rel (fun x y => Represents x.1 y.1 ∧ x.2 = y.2) (h.get f) (s.get f) := by
  have hT := hR.tasks
  have hn := hR.fresh s.next (le_refl _)
  unfold FutureHeap.get FutureValues.get
  cases hc : s.futures f with
  | none => simp [FutureHeap.state, hR.future_vacant_iff.mpr hc]
  | some c =>
    obtain ⟨hstate, hderef⟩ := hR.state_eq hc
    obtain ⟨hfn, ⟨a, ha, hx, hp⟩ | ⟨hna, hx⟩⟩ := hR.future_cases hc
    · have hsym : s.promises.symm c = some a := s.promises.eq_some_iff.mpr ha
      rw [show s.location f c = .promise a by simp [FutureValues.location, hsym]] at hstate hderef
      cases hr : (s.values c).state.result? with
      | none => simp [hstate, hderef, hr]
      | some r =>
        simp only [hstate, hderef, hr, hx, hp, Option.bind_some, FutureHeap.detach,
          FutureHeap.modifyPromise, FutureHeap.modifyFuture, FutureHeap.assign,
          FutureValues.rest, hsym, Option.map_some,
          Option.isSome_some, if_true, Function.update_self, Function.update_idem]
        refine .some ⟨⟨fun b => ?_, fun g => ?_, hR.queue, by grind [hR.fresh],
          by grind [hR.attached], hR.tasks.frame (by grind) rfl rfl rfl⟩, rfl⟩
        · by_cases hb : b = a
          · subst hb
            exact .holds c ha (hR.not_spent ha) (by grind) (by grind)
          · exact (hR.promise b).frame (by simp [hb]) rfl .rfl (by grind) (fun _ _ => rfl)
        · by_cases hgf : g = f
          · subst hgf
            exact .alone s.next (by grind) hn.1 (by grind)
          · exact (hR.future g).frame (by simp [hgf]) (by grind) (by grind)
    · rw [show s.location f c = .future f by simp [FutureValues.location, hna]] at hstate hderef
      cases hr : (s.values c).state.result? with
      | none => simp [hstate, hderef, hr]
      | some r =>
        simp only [hstate, hderef, hr, hx, Option.bind_some, FutureHeap.detach,
          FutureHeap.modifyFuture, FutureHeap.assign, FutureValues.rest, hna, Option.map_some,
          Option.isSome_none, Bool.false_eq_true, if_false, Function.update_self,
          Function.update_idem]
        refine .some ⟨⟨fun b => ?_, fun g => ?_, hR.queue, by grind [hR.fresh],
          by grind [hR.attached], hR.tasks.frame (by grind) rfl rfl rfl⟩, rfl⟩
        · exact (hR.promise b).frame rfl rfl .rfl (by grind) (fun _ _ => rfl)
        · by_cases hgf : g = f
          · subst hgf
            exact .alone s.next (by grind) hn.1 (by grind)
          · exact (hR.future g).frame (by simp [hgf]) (by grind) (by grind)

theorem ignore (hR : Represents h s) (f : ι) :
    Option.Rel Represents (h.ignore f) (s.ignore f) := by
  unfold FutureHeap.ignore FutureValues.ignore
  cases hc : s.futures f with
  | none => simp [FutureHeap.state, hR.future_vacant_iff.mpr hc]
  | some c =>
    obtain ⟨hstate, hderef⟩ := hR.state_eq hc
    obtain ⟨h', hassign, hR'⟩ := hR.assign_location hc .invalid
    simp only [hstate, hderef, Option.bind_some]
    cases hst : (s.values c).state with
    | future => exact .none
    | _ =>
      simp only [hassign]
      exact .some hR'

theorem assignPromise (hR : Represents h s) (a x : κ) :
    Option.Rel (fun x y => Represents x.1 y.1 ∧ x.2 = y.2) (h.assignPromise a x)
      (s.assignPromise a x) := by
  unfold FutureHeap.assignPromise FutureValues.assignPromise
  by_cases hax : a = x
  · rw [if_pos hax, if_pos hax]
    cases hp : h.promises a with
    | none =>
      rw [if_pos (hR.promise_vacant_iff.mp hp)]
      exact .none
    | some p =>
      have hv : ¬ s.Vacant a := fun hv => by simp [hR.promise_vacant_iff.mpr hv] at hp
      rw [if_neg hv]
      exact .some ⟨hR, rfl⟩
  · rw [if_neg hax, if_neg hax]
    refine rel_bind (hR.destroyPromise a) fun d e hd => ?_
    exact rel_map (hd.1.movePromise a x) fun _ _ hR' => ⟨hR', hd.2⟩

theorem assignFuture (hR : Represents h s) (f x : ι) :
    Option.Rel (fun x y => Represents x.1 y.1 ∧ x.2 = y.2) (h.assignFuture f x)
      (s.assignFuture f x) := by
  unfold FutureHeap.assignFuture FutureValues.assignFuture
  by_cases hfx : f = x
  · rw [if_pos hfx, if_pos hfx]
    cases hR.future f with
    | vacant hc hx => simp [hc, hx]
    | linked c a hc ha hx => simp [hc, hx, hR]
    | alone c hc ha hx => simp [hc, hx, hR]
  · rw [if_neg hfx, if_neg hfx]
    refine rel_bind (hR.destroyFuture f) fun d e hd => ?_
    exact rel_map (hd.1.moveFuture f x) fun _ _ hR' => ⟨hR', hd.2⟩

end Represents

namespace FutureHeap

/-- A promise that moves leaves the futures of other promises alone. -/
theorem movePromise_modifyFuture (h : FutureHeap κ ι ν φ) {a x : κ} {f : ι}
    {y : FutureObject κ ν} (k : FutureObject κ ν → FutureObject κ ν) (hf : h.futures f = some y)
    (hx : ∀ p, h.promises x = some p → p.future ≠ some f) :
    ((h.movePromise a x).bind fun h => h.modifyFuture f k) =
      (h.modifyFuture f k).bind fun h => h.movePromise a x := by
  simp only [modifyFuture, hf, movePromise, migrated, Option.map_some, Option.bind_some]
  cases h.promises a with
  | some p => rfl
  | none =>
    cases hp : h.promises x with
    | none => rfl
    | some p =>
      have hne := hx p hp
      obtain ⟨fut, st, ptr, task⟩ := p
      cases fut with
      | none => by_cases hq : ptr = .promise x <;> simp [hq, hf]
      | some g =>
        have hgf : g ≠ f := fun he => hne (congrArg some he)
        cases hg : h.futures g with
        | none => by_cases hq : ptr = .promise x <;> simp [hq, hgf, hg]
        | some z =>
          by_cases hq : ptr = .promise x <;>
            simp [hq, hgf, hg, hf, Ne.symm hgf, Function.update_comm hgf]

/-- A promise that no future has is assigned to before or after the future at `f` changes. -/
theorem assignPromise_modifyFuture (h : FutureHeap κ ι ν φ) {a b : κ} {f : ι}
    {y : FutureObject κ ν} {x : FutureState ν} (k : FutureObject κ ν → FutureObject κ ν)
    (hf : h.futures f = some y) (hb : h.promises b = some ⟨none, x, .promise b, none⟩)
    (ha : ∀ p, h.promises a = some p → p.future ≠ some f) :
    ((h.assignPromise b a).bind fun d => (d.1.modifyFuture f k).map fun h => (h, d.2)) =
      (h.modifyFuture f k).bind fun h => h.assignPromise b a := by
  by_cases hba : b = a
  · subst hba
    simp [assignPromise, modifyFuture, hb, hf]
  · have hdestroy : ∀ h : FutureHeap κ ι ν φ,
        h.promises b = some ⟨none, x, .promise b, none⟩ → h.destroyPromise b =
          some ({ h with promises := Function.update h.promises b none }, x.report) := by
      intro h hb
      simp [destroyPromise, abandoned, deref, hb]
    have hmove := movePromise_modifyFuture
      { h with promises := Function.update h.promises b none } (a := b) (x := a) k hf
      (by simpa [Ne.symm hba] using ha)
    simp only [modifyFuture, hf, Option.map_some, Option.bind_some] at hmove
    simp only [assignPromise, if_neg hba, hdestroy h hb, Option.bind_some, modifyFuture, hf,
      Option.map_some, hdestroy { h with futures := Function.update h.futures f (some (k y)) } hb]
    rw [← hmove]
    cases movePromise { h with promises := Function.update h.promises b none } b a with
    | none => rfl
    | some h₁ => cases h₁.futures f <;> rfl

end FutureHeap

namespace Represents

/-- A linked future is cut from its promise, and keeps a state of its own. -/
theorem release (hR : Represents h s) {f : ι} {c : ℕ} {b : κ} (hf : s.futures f = some c)
    (hb : s.promises b = some c) : ∃ h₁ h₂, h.detach f = some h₁ ∧
      h₁.modifyFuture f (fun x => { x with promise := none }) = some h₂ ∧
      h₁.promises b = some ⟨none, (s.values c).state, .promise b, none⟩ ∧
      (∀ a ≠ b, h₁.promises a = h.promises a) ∧ h₁.futures = h.futures ∧
      Represents h₂ (s.renew f .future) := by
  have hT := hR.tasks
  have hn := hR.fresh s.next (le_refl _)
  obtain ⟨hfn, ⟨a, ha, hx, hp⟩ | ⟨hna, -⟩⟩ := hR.future_cases hf
  · obtain rfl := s.promises.inj ha hb
    have hdetach : h.detach f = some { h with
        promises := Function.update h.promises a
          (some ⟨none, (s.values c).state, .promise a, none⟩) } := by
      simp [FutureHeap.detach, FutureHeap.modifyPromise, hx, hp]
    refine ⟨_, { h with
        promises := Function.update h.promises a
          (some ⟨none, (s.values c).state, .promise a, none⟩)
        futures := Function.update h.futures f (some ⟨none, .future⟩) }, hdetach,
      by simp [FutureHeap.modifyFuture, hx], by simp, fun b hba => by simp [hba], rfl,
      fun b => ?_, fun g => ?_, hR.queue, by grind [hR.fresh], by grind [hR.attached],
      hR.tasks.frame (by grind) rfl rfl rfl⟩
    · by_cases hba : b = a
      · subst hba
        exact .holds c ha (hR.not_spent ha) (by grind) (by grind)
      · exact (hR.promise b).frame (by simp [hba]) rfl .rfl (by grind) (fun _ _ => rfl)
    · by_cases hgf : g = f
      · subst hgf
        exact .alone s.next (by grind) hn.1 (by grind)
      · exact (hR.future g).frame (by simp [hgf]) (by grind) (by grind)
  · cases hna.symm.trans (s.promises.eq_some_iff.mpr hb)

theorem forwardTo (hR : Represents h s) (f : ι) (a : κ) :
    Option.Rel (fun x y => Represents x.1 y.1 ∧ x.2 = y.2) (h.forwardTo f a)
      (s.forwardTo f a) := by
  unfold FutureHeap.forwardTo FutureValues.forwardTo
  cases hc : s.futures f with
  | none => simp [hR.future_vacant_iff.mpr hc]
  | some c =>
    obtain ⟨hstate, hderef⟩ := hR.state_eq hc
    obtain ⟨hfn, hcase⟩ := hR.future_cases hc
    cases hr : (s.values c).state.result? with
    | some r =>
      obtain ⟨x, hx⟩ : ∃ x, h.futures f = some x := by grind
      simp only [hx, hstate, hderef, hr, Option.bind_some]
      have hset := hR.set a r
      cases hs : s.set a r with
      | none =>
        rw [hs] at hset
        cases hh : h.set a r with
        | none => exact .none
        | some h' =>
          rw [hh] at hset
          cases hset
      | some s' =>
        rw [hs] at hset
        cases hh : h.set a r with
        | none =>
          rw [hh] at hset
          cases hset
        | some h' =>
          rw [hh, Option.rel_some_some] at hset
          obtain ⟨hfut, hloc⟩ := FutureValues.set_location hs (f := f) hfn
          obtain ⟨h'', hassign, hR''⟩ := hset.assign_location (hfut ▸ hc) .invalid
          rw [hloc] at hassign
          simp only [Option.bind_some, hassign, Option.map_some]
          exact .some ⟨hR'', rfl⟩
    | none =>
      obtain ⟨b, hb, hx, hp⟩ | ⟨hna, hx⟩ := hcase
      · obtain ⟨h₁, h₂, hdetach, hmod, hb₁, hne, hfut, hR₂⟩ := hR.release hc hb
        have hf₁ : h₁.futures f = some ⟨some b, .future⟩ := by rw [hfut, hx]
        have hsym : s.promises.symm c = some b := s.promises.eq_some_iff.mpr hb
        have ha : ∀ p, h₁.promises a = some p → p.future ≠ some f := by
          intro p hpa hpf
          by_cases hab : a = b
          · subst hab
            cases hb₁.symm.trans hpa
            cases hpf
          · rw [hne a hab] at hpa
            cases hR.promise a with
            | vacant _ _ hp => cases hpa.symm.trans hp
            | spent y _ _ _ hp =>
              cases hpa.symm.trans hp
              cases hpf
            | holds d hd _ _ hp =>
              cases hpa.symm.trans hp
              cases hc.symm.trans (s.futures.eq_some_iff.mp hpf)
              exact hab (s.promises.inj hd hb)
            | waits d t y func _ _ _ _ hp _ =>
              cases hpa.symm.trans hp
              cases hpf
        have hcomm := h₁.assignPromise_modifyFuture (fun x => { x with promise := none })
          hf₁ hb₁ ha
        simp only [hx, hstate, hderef, hr, hdetach, Option.bind_some, hsym]
        rw [hcomm, hmod, Option.bind_some]
        exact hR₂.assignPromise b a
      · simp [hx, hstate, hderef, hr, hna]

theorem step (hR : Represents h s) (op : FutureOp κ ι ν φ) :
    Option.Rel (fun x y => Represents x.1 y.1 ∧ x.2 = y.2) (h.step op) (s.step op) := by
  cases op with
  | newPromise a => exact rel_map (hR.newPromise a) fun _ _ hR' => ⟨hR', rfl⟩
  | movePromise a x => exact rel_map (hR.movePromise a x) fun _ _ hR' => ⟨hR', rfl⟩
  | assignPromise a x => exact hR.assignPromise a x
  | destroyPromise a => exact hR.destroyPromise a
  | getFuture a f => exact rel_map (hR.getFuture a f) fun _ _ hR' => ⟨hR', rfl⟩
  | set a r => exact rel_map (hR.set a r) fun _ _ hR' => ⟨hR', rfl⟩
  | readyFuture f r => exact rel_map (hR.readyFuture f r) fun _ _ hR' => ⟨hR', rfl⟩
  | moveFuture f x => exact rel_map (hR.moveFuture f x) fun _ _ hR' => ⟨hR', rfl⟩
  | assignFuture f x => exact hR.assignFuture f x
  | destroyFuture f => exact hR.destroyFuture f
  | available f =>
    simp only [FutureHeap.step, FutureValues.step, hR.look f]
    cases s.look f with
    | none => exact .none
    | some x => exact .some ⟨hR, rfl⟩
  | failed f =>
    simp only [FutureHeap.step, FutureValues.step, hR.look f]
    cases s.look f with
    | none => exact .none
    | some x => exact .some ⟨hR, rfl⟩
  | schedule f func => exact rel_map (hR.schedule f func) fun _ _ hR' => ⟨hR', rfl⟩
  | get f =>
    exact rel_map (hR.get f) fun _ _ hd => ⟨hd.1, congrArg (fun r => [FutureOutput.got r]) hd.2⟩
  | ignore f => exact rel_map (hR.ignore f) fun _ _ hR' => ⟨hR', rfl⟩
  | forwardTo f a => exact hR.forwardTo f a
  | run =>
    exact rel_map hR.run fun _ _ hd =>
      ⟨hd.1, congrArg (fun k => [FutureOutput.called k]) hd.2⟩

end Represents

theorem heap_lockstep : Machine.Lockstep (FutureHeap.machine (κ := κ) (ι := ι) (ν := ν) (φ := φ))
    FutureValues.machine fun x y => Represents x.1 y.1 ∧ x.2 = y.2 where
  init := by
    refine ⟨⟨fun a => .vacant rfl (by simp [FutureValues.machine]) rfl, fun f => .vacant rfl rfl,
      rfl, fun c _ => ⟨rfl, rfl⟩, by simp [FutureValues.machine], ?_⟩, rfl⟩
    exact ⟨fun _ _ => rfl, List.nodup_nil, by simp [FutureHeap.taskOf, FutureHeap.machine],
      by simp [FutureHeap.taskOf, FutureHeap.machine], by simp [FutureHeap.machine]⟩
  step s t op hst := rel_map (hst.1.step op) fun _ _ hd => ⟨hd.1, by rw [hst.2, hd.2]⟩

/-- The heap and the values take the same runs, and these show the same. -/
theorem heap_agrees (ops : List (FutureOp κ ι ν φ)) :
    (FutureHeap.machine.exec FutureHeap.machine.init ops).map Prod.snd =
      (FutureValues.machine.exec FutureValues.machine.init ops).map Prod.snd := by
  exact map_eq_of_rel (heap_lockstep.exec heap_lockstep.init ops) fun _ _ hst => hst.2

end Miniss
