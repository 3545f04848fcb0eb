import Mathlib.Data.List.Basic

/-! A bounded first-in first-out ring, as a single producer and a single consumer see it:
a push into a full ring stores nothing, and a pop takes the oldest elements. -/

@[ext] structure BoundedFifo (α : Type*) (cap : Nat) where
  items : List α
  fits : items.length ≤ cap

namespace BoundedFifo
variable {α : Type*} {cap : Nat}

def empty : BoundedFifo α cap := ⟨[], Nat.zero_le cap⟩

def writeAvailable (r : BoundedFifo α cap) : Nat := cap - r.items.length

def push (r : BoundedFifo α cap) (a : α) : BoundedFifo α cap × Bool :=
  if h : r.items.length < cap then
    (⟨r.items ++ [a], by rw [List.length_append, List.length_singleton]; exact h⟩, true)
  else (r, false)

/-- Drops the `k` oldest elements, and with them their slots. -/
def discard (r : BoundedFifo α cap) (k : Nat) : BoundedFifo α cap :=
  ⟨r.items.drop k, by rw [List.length_drop]; exact Nat.le_trans (Nat.sub_le _ _) r.fits⟩

/-- Takes at most `k` elements out, the oldest first. -/
def pop (r : BoundedFifo α cap) (k : Nat) : List α × BoundedFifo α cap :=
  (r.items.take k, r.discard k)

@[simp] theorem empty_items : (empty : BoundedFifo α cap).items = [] := rfl

@[simp] theorem discard_items (r : BoundedFifo α cap) (k : Nat) :
    (r.discard k).items = r.items.drop k := rfl

theorem push_of_lt (r : BoundedFifo α cap) (a : α) (h : r.items.length < cap) :
    (r.push a).1.items = r.items ++ [a] ∧ (r.push a).2 = true := by
  simp [push, h]

theorem push_of_le (r : BoundedFifo α cap) (a : α) (h : cap ≤ r.items.length) :
    r.push a = (r, false) := by
  simp [push, Nat.not_lt.mpr h]

theorem writeAvailable_pos_iff (r : BoundedFifo α cap) :
    0 < r.writeAvailable ↔ r.items.length < cap := Nat.sub_pos_iff_lt

theorem writeAvailable_eq_zero_iff (r : BoundedFifo α cap) :
    r.writeAvailable = 0 ↔ r.items.length = cap := by
  have h := r.fits
  unfold writeAvailable
  omega

end BoundedFifo
