import Miniss.Seastar.FutureHeapValues

/-! Each operation of the heap does to the objects what the operation of its name does to the
values. -/
namespace Miniss
variable {κ ι ν φ : Type*} [DecidableEq κ]
variable {s : FutureValues κ ι ν φ} {h : FutureHeap κ ι ν φ}

attribute [local grind =] Function.update_apply FutureHeap.taskOf

namespace Represents

theorem newPromise (hR : Represents h s) (a : κ) :
    Option.Rel Represents (h.newPromise a) (s.newPromise a) := by
  have hn := hR.fresh s.next (le_refl _)
  unfold FutureHeap.newPromise FutureValues.newPromise
  by_cases hv : s.Vacant a
  · have hp : h.promises a = none := hR.promise_vacant_iff.mpr hv
    rw [hp, if_pos hv]
    obtain ⟨hc, hs⟩ := hv
    refine .some ⟨fun b => ?_, fun f => ?_, hR.queue, by grind [hR.fresh],
      by grind [hR.attached], hR.tasks.frame (by grind) rfl rfl rfl⟩
    · by_cases hb : b = a
      · subst hb
        exact .holds s.next (by grind) hs (by simp) (by simp [hn.2])
      · exact (hR.promise b).frame (Function.update_of_ne hb ..) (by grind) .rfl (by grind)
          (fun _ _ => rfl)
    · exact (hR.future f).frame rfl rfl (by grind)
  · obtain ⟨p, hp⟩ := Option.ne_none_iff_exists'.mp (mt hR.promise_vacant_iff.mp hv)
    rw [hp, if_neg hv]
    exact .none

variable [DecidableEq ι]

theorem getFuture (hR : Represents h s) (a : κ) (f : ι) :
    Option.Rel Represents (h.getFuture a f) (s.getFuture a f) := by
  unfold FutureHeap.getFuture FutureValues.getFuture
  cases hx : h.futures f with
  | some x =>
    have hf : s.futures f ≠ none := fun hf => by simp [hR.future_vacant_iff.mpr hf] at hx
    cases h.promises a <;> cases s.promises a <;> simp [hf]
  | none =>
    have hf : s.futures f = none := hR.future_vacant_iff.mp hx
    cases hR.promise a with
    | vacant hc hs hp => simp [hp, hc]
    | spent x hx hc hs hp => simp [hp, hc]
    | waits c t x func hx hc hs hfn hp ht => simp [hp, hc, hfn]
    | holds c hc hs hfn hp =>
      by_cases hg : s.futures.symm c = none
      · simp only [hp, hc, hg, hf, hfn, Option.bind_some]
        refine .some ⟨fun b => ?_, fun g => ?_, hR.queue, by grind [hR.fresh],
          by grind [hR.attached], hR.tasks.frame (by grind) rfl rfl rfl⟩
        · by_cases hb : b = a
          · subst hb
            exact .holds c hc hs hfn (by grind)
          · exact (hR.promise b).frame (Function.update_of_ne hb ..) rfl .rfl (by grind)
              (fun _ _ => rfl)
        · by_cases hgf : g = f
          · subst hgf
            exact .linked c a (by grind) hc (by grind)
          · exact (hR.future g).frame (Function.update_of_ne hgf ..) (by grind)
              (fun _ _ => ⟨rfl, rfl⟩)
      · simp [hp, hc, hg]

theorem movePromise (hR : Represents h s) (a x : κ) :
    Option.Rel Represents (h.movePromise a x) (s.movePromise a x) := by
  unfold FutureHeap.movePromise FutureValues.movePromise
  by_cases hv : s.Vacant a
  · have hp : h.promises a = none := hR.promise_vacant_iff.mpr hv
    have hvac : s.promises a = none ∧ a ∉ s.spent := hv
    rw [hp, if_pos hv]
    cases hR.promise x with
    | vacant hc hs hx => simp [hx, hc, hs]
    | spent y hy hc hs hx =>
      simp only [hx, hc, hs, if_true, FutureHeap.migrated, Function.update_self,
        Option.bind_some, reduceCtorEq, if_false]
      have hxa : x ≠ a := fun he => hvac.2 (he ▸ hs)
      refine .some ⟨fun b => ?_, fun f => ?_, hR.queue, hR.fresh, hR.attached,
        hR.tasks.frame (by grind) rfl rfl rfl⟩
      · by_cases hb : b = a
        · subst hb
          exact .spent .future rfl hvac.1 (by simp) (by simp)
        · by_cases hbx : b = x
          · subst hbx
            exact .spent y hy hc (by simp [hs]) (by simp [hb])
          · exact (hR.promise b).frame (by simp [hb, hbx]) rfl (by simp [hb]) (by simp)
              (fun _ _ => rfl)
      · exact (hR.future f).frame rfl rfl (by simp)
    | holds c hc hs hf hx =>
      have hxa : x ≠ a := by grind
      cases hg : s.futures.symm c with
      | none =>
        simp only [hx, hc, hg, if_true, FutureHeap.migrated, Function.update_self,
          Option.bind_some]
        refine .some ⟨fun b => ?_, fun f => ?_, hR.queue, by grind [hR.fresh], hR.attached,
          hR.tasks.frame (by grind) rfl rfl rfl⟩
        · by_cases hb : b = a
          · subst hb
            exact .holds c (by grind) (by grind) hf (by grind)
          · by_cases hbx : b = x
            · subst hbx
              exact .spent .invalid rfl (by grind) (by simp) (by simp [hb])
            · exact (hR.promise b).frame (by simp [hb, hbx]) (by grind) (by grind) (by simp)
                (fun _ _ => rfl)
        · exact (hR.future f).frame rfl rfl (by grind)
      | some g =>
        obtain ⟨hgc, hgx⟩ := hR.future_of_promise hc hg
        simp only [hx, hc, hg, hgx, if_true, FutureHeap.migrated, FutureHeap.modifyFuture,
          Function.update_self, Option.bind_some, Option.map_some]
        refine .some ⟨fun b => ?_, fun f => ?_, hR.queue, by grind [hR.fresh], hR.attached,
          hR.tasks.frame (by grind) rfl rfl rfl⟩
        · by_cases hb : b = a
          · subst hb
            exact .holds c (by grind) (by grind) hf (by grind)
          · by_cases hbx : b = x
            · subst hbx
              exact .spent .invalid rfl (by grind) (by simp) (by simp [hb])
            · exact (hR.promise b).frame (by simp [hb, hbx]) (by grind) (by grind) (by simp)
                (fun _ _ => rfl)
        · by_cases hfg : f = g
          · subst hfg
            exact .linked c a hgc (by grind) (by simp)
          · exact (hR.future f).frame (by simp [hfg]) rfl (by grind)
    | waits c t y func hy hc hs hf hx ht =>
      have hxa : x ≠ a := by grind
      have hfut := hR.attached c (by simp [hf])
      have hown : h.taskOf x = some t := by simp [FutureHeap.taskOf, hx]
      simp only [hx, hc, FutureHeap.migrated, Function.update_self, Option.bind_some,
        reduceCtorEq, if_false]
      refine .some ⟨fun b => ?_, fun f => ?_, hR.queue, by grind [hR.fresh], hR.attached,
        hR.tasks.move (a := a) hown (by grind) (by grind) rfl rfl rfl⟩
      · by_cases hb : b = a
        · subst hb
          exact .waits c t .future func rfl (by grind) (by grind) hf (by simp) ht
        · by_cases hbx : b = x
          · subst hbx
            exact .spent y hy (by grind) (by simp) (by simp [hb])
          · exact (hR.promise b).frame (by simp [hb, hbx]) (by grind) (by grind) (by simp)
              (fun _ _ => rfl)
      · exact (hR.future f).frame rfl rfl (by grind)
  · obtain ⟨p, hp⟩ := Option.ne_none_iff_exists'.mp (mt hR.promise_vacant_iff.mp hv)
    rw [hp, if_neg hv]
    exact .none

theorem destroyPromise (hR : Represents h s) (a : κ) :
    Option.Rel (fun x y => Represents x.1 y.1 ∧ x.2 = y.2) (h.destroyPromise a)
      (s.destroyPromise a) := by
  unfold FutureHeap.destroyPromise FutureValues.destroyPromise FutureHeap.abandoned
  cases hR.promise a with
  | vacant hc hs hp => simp [hp, hc, hs]
  | spent x hx hc hs hp =>
    simp only [hp, hc, hs, Option.bind_some, if_true]
    refine .some ⟨⟨fun b => ?_, fun f => ?_, hR.queue, hR.fresh, hR.attached,
      hR.tasks.frame (by grind) rfl rfl rfl⟩, rfl⟩
    · by_cases hb : b = a
      · subst hb
        exact .vacant hc (by simp) (by simp)
      · exact (hR.promise b).frame (by simp [hb]) rfl (by simp [hb]) (by simp)
          (fun _ _ => rfl)
    · exact (hR.future f).frame rfl rfl (by simp)
  | holds c hc hs hf hp =>
    cases hg : s.futures.symm c with
    | none =>
      simp only [hp, hc, hg, hf, Option.bind_some, FutureHeap.deref, Option.map_some,
        reduceCtorEq, if_false, FutureValues.lastWords, Option.map_none, Option.toList_none,
        List.append_nil, if_true]
      refine .some ⟨⟨fun b => ?_, fun f => ?_, hR.queue, by grind [hR.fresh],
        by grind [hR.attached], hR.tasks.frame (by grind) rfl rfl rfl⟩, rfl⟩
      · by_cases hb : b = a
        · subst hb
          exact .vacant (by grind) hs (by simp)
        · exact (hR.promise b).frame (by simp [hb]) (by grind) .rfl (by grind)
            (fun _ _ => rfl)
      · exact (hR.future f).frame rfl rfl (by grind)
    | some g =>
      obtain ⟨hgc, hgx⟩ := hR.future_of_promise hc hg
      simp only [hp, hc, hg, hgx, hf, Option.bind_some, FutureHeap.deref, FutureHeap.assign,
        FutureHeap.modifyPromise, FutureHeap.modifyFuture, Option.map_some, Option.isNone_none,
        or_true, if_true, Function.update_self, FutureValues.lastWords, reduceCtorEq, if_false,
        Option.map_none, Option.toList_none, List.append_nil]
      refine .some ⟨⟨fun b => ?_, fun f => ?_, hR.queue, by grind [hR.fresh],
        by grind [hR.attached], hR.tasks.frame (by grind) rfl rfl rfl⟩, rfl⟩
      · by_cases hb : b = a
        · subst hb
          exact .vacant (by grind) hs (by simp)
        · exact (hR.promise b).frame (by simp [hb]) (by grind) .rfl (by grind)
            (fun _ _ => rfl)
      · by_cases hfg : f = g
        · subst hfg
          exact .alone c hgc (by grind) (by simp)
        · exact (hR.future f).frame (by simp [hfg]) rfl (by grind)
  | waits c t x func hx hc hs hf hp ht =>
    have hfut := hR.attached c (by simp [hf])
    have hown : h.taskOf a = some t := by simp [FutureHeap.taskOf, hp]
    have howner := hR.tasks.owner
    have hqueued := hR.tasks.queued a t hown
    simp only [hp, hc, hf, ht, hfut, Option.bind_some, FutureHeap.deref, Option.map_some,
      reduceCtorEq, if_false, FutureValues.lastWords, if_true, Option.toList_some]
    refine .some ⟨⟨fun b => ?_, fun f => ?_, ?_, by grind [hR.fresh],
      by grind [hR.attached], hR.tasks.drop hown (by grind) (by grind) rfl rfl⟩, rfl⟩
    · by_cases hb : b = a
      · subst hb
        exact .vacant (by grind) hs (by simp)
      · refine (hR.promise b).frame (by simp [hb]) (by grind) .rfl (by grind) ?_
        exact fun u (hu : h.taskOf b = some u) => Function.update_of_ne (by grind) ..
    · exact (hR.future f).frame rfl rfl (by grind)
    · rw [← hR.queue]
      exact List.map_congr_left fun u hu => Function.update_of_ne (by grind) ..

theorem set (hR : Represents h s) (a : κ) (r : Except Exn ν) :
    Option.Rel Represents (h.set a r) (s.set a r) := by
  unfold FutureHeap.set FutureValues.set
  cases hR.promise a with
  | vacant hc hs hp => simp [hp, hc]
  | spent x hx hc hs hp => simp [hp, hc, FutureHeap.deref]
  | holds c hc hs hf hp =>
    cases hst : (s.values c).state with
    | future =>
      simp only [hp, hc, hf, hst, Option.bind_some, FutureHeap.deref, FutureHeap.assign,
        FutureHeap.modifyPromise, FutureHeap.makeReady, FutureState.set, Option.map_some,
        Function.update_self]
      refine .some ⟨fun b => ?_, fun f => ?_, hR.queue, by grind [hR.fresh],
        by grind [hR.attached], hR.tasks.frame (by grind) rfl rfl rfl⟩
      · by_cases hb : b = a
        · subst hb
          exact .holds c hc hs (by grind) (by grind)
        · exact (hR.promise b).frame (by simp [hb]) rfl .rfl (by grind) (fun _ _ => rfl)
      · cases hR.future f with
        | vacant hn hx => exact .vacant hn hx
        | linked d b hd hb hx => exact .linked d b hd hb hx
        | alone d hd hb hx => exact .alone d hd hb (by grind)
    | _ => simp [hp, hc, hf, hst, FutureHeap.deref, FutureState.set]
  | waits c t x func hx hc hs hf hp ht =>
    have hown : h.taskOf a = some t := by simp [FutureHeap.taskOf, hp]
    have howner := hR.tasks.owner
    have hqueued := hR.tasks.queued a t hown
    simp only [hp, hc, hf, ht, Option.bind_some, FutureHeap.deref, FutureHeap.assign,
      FutureHeap.makeReady, FutureState.set, Option.map_some]
    refine .some ⟨fun b => ?_, fun f => ?_, ?_, by grind [hR.fresh],
      hR.attached, hR.tasks.push hown (by grind) (by grind) rfl rfl⟩
    · by_cases hb : b = a
      · subst hb
        exact .spent x hx (by grind) (by simp) (by simp)
      · refine (hR.promise b).frame (by simp [hb]) (by grind) (by simp [hb]) (by simp) ?_
        exact fun u (hu : h.taskOf b = some u) => Function.update_of_ne (by grind) ..
    · have := hR.attached c (by simp [hf])
      exact (hR.future f).frame rfl rfl (by grind)
    · rw [List.map_append, List.map_append, ← hR.queue]
      congr 1
      · exact List.map_congr_left fun u hu => Function.update_of_ne (by grind) ..
      · simp

end Represents

end Miniss
