import Miniss.Lib.Machine

/-! Machines in lockstep: under every label both have a successor or neither has one. -/
namespace Miniss
variable {σ τ α β γ δ : Type*}

theorem rel_bind {r : α → β → Prop} {q : γ → δ → Prop} {x : Option α} {y : Option β}
    {f : α → Option γ} {g : β → Option δ} (h : Option.Rel r x y)
    (hfg : ∀ a b, r a b → Option.Rel q (f a) (g b)) : Option.Rel q (x.bind f) (y.bind g) := by
  cases h with
  | none => exact .none
  | some hr => exact hfg _ _ hr

theorem rel_bind_same {q : γ → δ → Prop} {f : α → Option γ} {g : α → Option δ} (x : Option α)
    (hfg : ∀ a, Option.Rel q (f a) (g a)) : Option.Rel q (x.bind f) (x.bind g) := by
  cases x with
  | none => exact .none
  | some a => exact hfg a

theorem rel_map {r : α → β → Prop} {q : γ → δ → Prop} {x : Option α} {y : Option β}
    {f : α → γ} {g : β → δ} (h : Option.Rel r x y) (hfg : ∀ a b, r a b → q (f a) (g b)) :
    Option.Rel q (x.map f) (y.map g) := by
  cases h with
  | none => exact .none
  | some hr => exact .some (hfg _ _ hr)

theorem map_eq_of_rel {r : α → β → Prop} {x : Option α} {y : Option β} {f : α → γ} {g : β → γ}
    (h : Option.Rel r x y) (hfg : ∀ a b, r a b → f a = g b) : x.map f = y.map g := by
  cases h with
  | none => rfl
  | some hr => exact congrArg some (hfg _ _ hr)

theorem isSome_iff_of_rel {r : α → β → Prop} {x : Option α} {y : Option β}
    (h : Option.Rel r x y) : x.isSome ↔ y.isSome := by
  cases h <;> simp

namespace Machine

/-- When `N` follows each step of `M`, it follows each of its runs. -/
theorem exec_followed {M : Machine σ α} {N : Machine τ α} {R : σ → τ → Prop}
    (hstep : ∀ s t a u, R s t → M.step s a = some u → ∃ v, N.step t a = some v ∧ R u v)
    {as : List α} {s u : σ} {t : τ} (hst : R s t) (h : M.exec s as = some u) :
    ∃ v, N.exec t as = some v ∧ R u v := by
  induction as generalizing s t with
  | nil =>
    rw [Machine.exec_nil, Option.some.injEq] at h
    exact ⟨t, rfl, h ▸ hst⟩
  | cons a as ih =>
    obtain ⟨s', hs, hrun⟩ := Machine.exec_cons_eq_some.mp h
    obtain ⟨t', ht, hst'⟩ := hstep s t a s' hst hs
    obtain ⟨v, hv, huv⟩ := ih hst' hrun
    exact ⟨v, Machine.exec_cons_eq_some.mpr ⟨t', ht, hv⟩, huv⟩

structure Lockstep (M : Machine σ α) (N : Machine τ α) (R : σ → τ → Prop) : Prop where
  init : R M.init N.init
  step : ∀ s t a, R s t → Option.Rel R (M.step s a) (N.step t a)

theorem Lockstep.exec {M : Machine σ α} {N : Machine τ α} {R : σ → τ → Prop}
    (h : Lockstep M N R) {s : σ} {t : τ} (hst : R s t) (as : List α) :
    Option.Rel R (M.exec s as) (N.exec t as) := by
  induction as generalizing s t with
  | nil => exact .some hst
  | cons a as ih => exact rel_bind (h.step s t a hst) fun _ _ hst => ih hst

/-- The labels that one machine follows from its initial state, the other one follows. -/
theorem Lockstep.reaches {M : Machine σ α} {N : Machine τ α} {R : σ → τ → Prop}
    (h : Lockstep M N R) {as : List α} {s : σ} (hs : M.Reaches as s) :
    ∃ t, N.Reaches as t ∧ R s t := by
  have hrel := h.exec h.init as
  rw [show M.exec M.init as = some s from hs] at hrel
  cases ht : N.exec N.init as with
  | none =>
    rw [ht] at hrel
    cases hrel
  | some t =>
    rw [ht] at hrel
    exact ⟨t, ht, Option.rel_some_some.mp hrel⟩

/-- The labels that the other machine follows, the first one follows. -/
theorem Lockstep.reached {M : Machine σ α} {N : Machine τ α} {R : σ → τ → Prop}
    (h : Lockstep M N R) {as : List α} {t : τ} (ht : N.Reaches as t) :
    ∃ s, M.Reaches as s ∧ R s t := by
  have hrel := h.exec h.init as
  rw [show N.exec N.init as = some t from ht] at hrel
  cases hs : M.exec M.init as with
  | none =>
    rw [hs] at hrel
    cases hrel
  | some s =>
    rw [hs] at hrel
    exact ⟨s, hs, Option.rel_some_some.mp hrel⟩

end Machine
end Miniss
