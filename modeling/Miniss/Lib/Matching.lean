import Mathlib.Data.PEquiv

/-! Partial equivalences as matchings that change: an element leaves its partner, two elements
are joined, or one takes the place of another one. -/
namespace PEquiv
variable {α β : Type*}

attribute [grind _=_] eq_some_iff

variable [DecidableEq α]

/-- `a` leaves its partner. -/
def unlink (e : α ≃. β) (a : α) : α ≃. β where
  toFun x := if x = a then none else e x
  invFun y := if e.symm y = some a then none else e.symm y
  inv x y := by
    have hmem : e.symm y = some x ↔ e x = some y := e.mem_iff_mem
    by_cases hx : x = a
    · simp only [hx, if_true]
      constructor
      · intro h
        split at h
        · cases h
        · contradiction
      · intro h
        cases h
    · rw [if_neg hx, ← hmem]
      constructor
      · intro h
        split at h
        · cases h
        · exact h
      · intro h
        rw [if_neg, h]
        rw [h]
        exact fun hxa => hx (Option.some.inj hxa)

@[grind =] theorem unlink_apply (e : α ≃. β) (a x : α) :
    e.unlink a x = if x = a then none else e x := rfl

@[grind =] theorem unlink_symm_apply (e : α ≃. β) (a : α) (y : β) :
    (e.unlink a).symm y = if e.symm y = some a then none else e.symm y := rfl

variable [DecidableEq β]

/-- `a` and `b` leave the partners that they have, and are joined. -/
def link (e : α ≃. β) (a : α) (b : β) : α ≃. β where
  toFun x := if x = a then some b else if e x = some b then none else e x
  invFun y := if y = b then some a else if e.symm y = some a then none else e.symm y
  inv x y := by
    have hmem : e.symm y = some x ↔ e x = some y := e.mem_iff_mem
    by_cases hx : x = a
    · by_cases hy : y = b
      · simp [hx, hy]
      · simp [hx, hy, Ne.symm hy]
    · by_cases hy : y = b
      · simp [hx, hy, Ne.symm hx]
      · rw [if_neg hx, if_neg hy]
        constructor
        · intro h
          split at h
          · cases h
          · rw [if_neg, hmem.mp h]
            rw [hmem.mp h]
            exact fun hyb => hy (Option.some.inj hyb)
        · intro h
          split at h
          · cases h
          · rw [if_neg, hmem.mpr h]
            rw [hmem.mpr h]
            exact fun hxa => hx (Option.some.inj hxa)

@[grind =] theorem link_apply (e : α ≃. β) (a x : α) (b : β) :
    e.link a b x = if x = a then some b else if e x = some b then none else e x := rfl

@[grind =] theorem link_symm_apply (e : α ≃. β) (a : α) (b y : β) :
    (e.link a b).symm y =
      if y = b then some a else if e.symm y = some a then none else e.symm y := rfl

/-- `b` takes the place of `a`, that had no partner before. -/
theorem link_link (e : α ≃. β) {a : α} (ha : e a = none) (b : α) (c : β) :
    (e.link a c).link b c = e.link b c := by
  ext x : 1
  by_cases hxa : x = a
  · simp [link_apply, hxa, ha]
  · have hx : e.link a c x = if e x = some c then none else e x := by rw [link_apply, if_neg hxa]
    by_cases hxc : e x = some c
    · simp [link_apply, hx, hxc]
    · simp [link_apply, hx, hxc]

end PEquiv
