import Mathlib.Data.Fintype.BigOperators

/-! The places of a finite family that hold a value. -/
namespace Miniss
variable {ι α : Type*} [Fintype ι] [DecidableEq α] {f : ι → α} {y z : α}

def placesOf (f : ι → α) (y : α) : ℕ := (Finset.univ.filter fun i => f i = y).card

theorem placesOf_eq_zero : placesOf f y = 0 ↔ ∀ i, f i ≠ y := by
  simp [placesOf, Finset.filter_eq_empty_iff]

/-- The value that a place has had is held once less, and the one that it gets once more. -/
theorem placesOf_update [DecidableEq ι] (f : ι → α) (i : ι) (y z : α) :
    placesOf (Function.update f i y) z + (if f i = z then 1 else 0) =
      placesOf f z + (if y = z then 1 else 0) := by
  have hrest : (Finset.univ.erase i).filter (fun j => Function.update f i y j = z) =
      (Finset.univ.erase i).filter (fun j => f j = z) :=
    Finset.filter_congr fun j hj => by rw [Function.update_of_ne (Finset.ne_of_mem_erase hj)]
  unfold placesOf
  rw [← Finset.insert_erase (Finset.mem_univ i), Finset.filter_insert, Finset.filter_insert,
    hrest, Function.update_self]
  split_ifs <;> simp

end Miniss
