import Miniss.Seastar.FutureHeapSteps

/-! The operations of the heap that begin at a future. -/
namespace Miniss
variable {κ ι ν φ : Type*} [DecidableEq ι]
variable {s : FutureValues κ ι ν φ} {h : FutureHeap κ ι ν φ}

attribute [local grind =] Function.update_apply FutureHeap.taskOf

namespace Represents

theorem readyFuture (hR : Represents h s) (f : ι) (r : Except Exn ν) :
    Option.Rel Represents (h.readyFuture f r) (s.readyFuture f r) := by
  have hn := hR.fresh s.next (le_refl _)
  unfold FutureHeap.readyFuture FutureValues.readyFuture
  cases hx : h.futures f with
  | some x =>
    have hf : s.futures f ≠ none := fun hf => by simp [hR.future_vacant_iff.mpr hf] at hx
    simp [hf]
  | none =>
    have hf : s.futures f = none := hR.future_vacant_iff.mp hx
    rw [if_pos hf]
    refine .some ⟨fun b => ?_, fun g => ?_, hR.queue, by grind [hR.fresh],
      by grind [hR.attached], hR.tasks.frame (by grind) rfl rfl rfl⟩
    · exact (hR.promise b).frame rfl rfl .rfl (by grind) (fun _ _ => rfl)
    · by_cases hgf : g = f
      · subst hgf
        exact .alone s.next (by grind) hn.1 (by grind)
      · exact (hR.future g).frame (Function.update_of_ne hgf ..) (by grind) (by grind)

variable [DecidableEq κ]

/-- An assignment through the pointer that a future has to its state. -/
theorem assign_location (hR : Represents h s) {f : ι} {c : ℕ} (hf : s.futures f = some c)
    (x : FutureState ν) : ∃ h', h.assign (s.location f c) x = some h' ∧
      Represents h' (s.put c ⟨x, none⟩) := by
  have hsym : s.futures.symm c = some f := s.futures.eq_some_iff.mpr hf
  obtain ⟨hfn, ⟨a, ha, hx, hp⟩ | ⟨hn, hx⟩⟩ := hR.future_cases hf
  · have hloc : s.location f c = .promise a := by
      simp [FutureValues.location, s.promises.eq_some_iff.mpr ha]
    simp only [hloc, FutureHeap.assign, FutureHeap.modifyPromise, hp, Option.map_some]
    refine ⟨_, rfl, fun b => ?_, fun g => ?_, hR.queue, by grind [hR.fresh],
      by grind [hR.attached], hR.tasks.frame (by grind) rfl rfl rfl⟩
    · by_cases hb : b = a
      · subst hb
        exact .holds c ha (hR.not_spent ha) (by grind) (by grind)
      · exact (hR.promise b).frame (by simp [hb]) rfl .rfl (by grind) (fun _ _ => rfl)
    · cases hR.future g with
      | vacant hn hx => exact .vacant hn hx
      | linked d b hd hb hx => exact .linked d b hd hb hx
      | alone d hd hb hx => exact .alone d hd hb (by grind)
  · have hloc : s.location f c = .future f := by simp [FutureValues.location, hn]
    simp only [hloc, FutureHeap.assign, FutureHeap.modifyFuture, hx, Option.map_some]
    refine ⟨_, rfl, fun b => ?_, fun g => ?_, hR.queue, by grind [hR.fresh],
      by grind [hR.attached], hR.tasks.frame (by grind) rfl rfl rfl⟩
    · exact (hR.promise b).frame rfl rfl .rfl (by grind) (fun _ _ => rfl)
    · by_cases hgf : g = f
      · subst hgf
        exact .alone c hf hn (by grind)
      · exact (hR.future g).frame (by simp [hgf]) rfl (by grind)

theorem moveFuture (hR : Represents h s) (f x : ι) :
    Option.Rel Represents (h.moveFuture f x) (s.moveFuture f x) := by
  have hn := hR.fresh s.next (le_refl _)
  unfold FutureHeap.moveFuture FutureValues.moveFuture
  cases hx : h.futures f with
  | some y =>
    have hf : s.futures f ≠ none := fun hf => by simp [hR.future_vacant_iff.mpr hf] at hx
    simp [hf]
  | none =>
    have hf : s.futures f = none := hR.future_vacant_iff.mp hx
    rw [if_pos hf]
    cases hc : s.futures x with
    | none => simp [hR.future_vacant_iff.mpr hc]
    | some c =>
      have hxf : x ≠ f := by grind
      have hcn : c ≠ s.next := by grind
      obtain ⟨hfn, ⟨a, ha, hxa, hp⟩ | ⟨hna, hxa⟩⟩ := hR.future_cases hc
      · have hrest : s.rest c = .future := by
          simp [FutureValues.rest, s.promises.eq_some_iff.mpr ha]
        simp only [hxa, hrest, FutureHeap.modifyPromise, hp, Option.map_some]
        refine .some ⟨fun b => ?_, fun g => ?_, hR.queue, by grind [hR.fresh],
          by grind [hR.attached], hR.tasks.frame (by grind) rfl rfl rfl⟩
        · by_cases hb : b = a
          · subst hb
            exact .holds c ha (hR.not_spent ha) (by grind) (by grind)
          · exact (hR.promise b).frame (by simp [hb]) rfl .rfl (by grind) (fun _ _ => rfl)
        · by_cases hgf : g = f
          · subst hgf
            exact .linked c a (by grind) ha (by simp)
          · by_cases hgx : g = x
            · subst hgx
              exact .alone s.next (by grind) hn.1 (by grind)
            · exact (hR.future g).frame (by simp [hgf, hgx]) (by grind) (by grind)
      · have hrest : s.rest c = .invalid := by simp [FutureValues.rest, hna]
        simp only [hxa, hrest, Option.map_some]
        refine .some ⟨fun b => ?_, fun g => ?_, hR.queue, by grind [hR.fresh],
          by grind [hR.attached], hR.tasks.frame (by grind) rfl rfl rfl⟩
        · exact (hR.promise b).frame rfl rfl .rfl (by grind) (fun _ _ => rfl)
        · by_cases hgf : g = f
          · subst hgf
            exact .alone c (by grind) hna (by grind)
          · by_cases hgx : g = x
            · subst hgx
              exact .alone s.next (by grind) hn.1 (by grind)
            · exact (hR.future g).frame (by simp [hgf, hgx]) (by grind) (by grind)

theorem destroyFuture (hR : Represents h s) (f : ι) :
    Option.Rel (fun x y => Represents x.1 y.1 ∧ x.2 = y.2) (h.destroyFuture f)
      (s.destroyFuture f) := by
  unfold FutureHeap.destroyFuture FutureValues.destroyFuture FutureHeap.detach
  cases hc : s.futures f with
  | none => simp [hR.future_vacant_iff.mpr hc]
  | some c =>
    obtain ⟨hfn, ⟨a, ha, hx, hp⟩ | ⟨hna, hx⟩⟩ := hR.future_cases hc
    · simp only [hx, hp, Option.bind_some, FutureHeap.modifyPromise, Option.map_some,
        FutureHeap.look, FutureHeap.state, FutureHeap.deref, Function.update_self]
      refine .some ⟨⟨fun b => ?_, fun g => ?_, hR.queue, by grind [hR.fresh],
        by grind [hR.attached], hR.tasks.frame (by grind) rfl rfl rfl⟩, rfl⟩
      · by_cases hb : b = a
        · subst hb
          exact .holds c ha (hR.not_spent ha) hfn (by grind)
        · exact (hR.promise b).frame (by simp [hb]) rfl .rfl (by grind) (fun _ _ => rfl)
      · by_cases hgf : g = f
        · subst hgf
          exact .vacant (by grind) (by simp)
        · exact (hR.future g).frame (by simp [hgf]) (by grind) (by simp)
    · simp only [hx, Option.bind_some, Option.map_some, FutureHeap.look, FutureHeap.state,
        FutureHeap.deref]
      refine .some ⟨⟨fun b => ?_, fun g => ?_, hR.queue, by grind [hR.fresh],
        by grind [hR.attached], hR.tasks.frame (by grind) rfl rfl rfl⟩, rfl⟩
      · exact (hR.promise b).frame rfl rfl .rfl (by grind) (fun _ _ => rfl)
      · by_cases hgf : g = f
        · subst hgf
          exact .vacant (by grind) (by simp)
        · exact (hR.future g).frame (by simp [hgf]) (by grind) (by simp)

end Represents

end Miniss
