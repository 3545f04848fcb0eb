import Mathlib.Data.List.Basic

/-! Executable labelled machines. A step is a partial function of a state and a label,
so that a run can be evaluated; the rules below carry a property of one step to every
run, and a run of one machine to a run of another. -/

/-- A label that is not enabled in a state has no successor there. -/
structure Machine (σ α : Type*) where
  init : σ
  step : σ → α → Option σ

namespace Machine
variable {σ α τ β : Type*}

def exec (M : Machine σ α) : σ → List α → Option σ
  | s, [] => some s
  | s, a :: as => (M.step s a).bind fun t => M.exec t as

/-- The labels `as` lead from the initial state to `s`. -/
def Reaches (M : Machine σ α) (as : List α) (s : σ) : Prop := M.exec M.init as = some s

@[simp] theorem exec_nil (M : Machine σ α) (s : σ) : M.exec s [] = some s := rfl

theorem exec_cons (M : Machine σ α) (s : σ) (a : α) (as : List α) :
    M.exec s (a :: as) = (M.step s a).bind fun t => M.exec t as := rfl

theorem exec_cons_eq_some {M : Machine σ α} {s t : σ} {a : α} {as : List α} :
    M.exec s (a :: as) = some t ↔ ∃ u, M.step s a = some u ∧ M.exec u as = some t := by
  rw [exec_cons, Option.bind_eq_some_iff]

theorem exec_append (M : Machine σ α) (s : σ) (as bs : List α) :
    M.exec s (as ++ bs) = (M.exec s as).bind fun t => M.exec t bs := by
  induction as generalizing s with
  | nil => rfl
  | cons a as ih =>
    rw [List.cons_append, exec_cons, exec_cons, Option.bind_assoc]
    congr 1
    funext t
    exact ih t

theorem exec_append_of_eq {M : Machine σ α} {s t : σ} {as bs : List α}
    (h : M.exec s as = some t) : M.exec s (as ++ bs) = M.exec t bs := by
  rw [exec_append, h, Option.bind_some]

theorem exec_append_eq_some {M : Machine σ α} {s t : σ} {as bs : List α} :
    M.exec s (as ++ bs) = some t ↔ ∃ u, M.exec s as = some u ∧ M.exec u bs = some t := by
  rw [exec_append, Option.bind_eq_some_iff]

theorem exec_invariant {M : Machine σ α} {I : σ → Prop}
    (hstep : ∀ s a t, I s → M.step s a = some t → I t)
    {as : List α} {s t : σ} (hs : I s) (h : M.exec s as = some t) : I t := by
  induction as generalizing s with
  | nil =>
    rw [exec_nil, Option.some.injEq] at h
    exact h ▸ hs
  | cons a as ih =>
    obtain ⟨u, hu, ht⟩ := exec_cons_eq_some.mp h
    exact ih (hstep s a u hs hu) ht

/-- When every step takes one away from a measure, the measure bounds the runs. -/
theorem exec_measure {M : Machine σ α} {I : σ → Prop} {μ : σ → Nat}
    (hstep : ∀ s a t, I s → M.step s a = some t → I t ∧ μ s = μ t + 1)
    {as : List α} {s t : σ} (hs : I s) (h : M.exec s as = some t) : as.length + μ t = μ s := by
  induction as generalizing s with
  | nil =>
    rw [exec_nil, Option.some.injEq] at h
    rw [h, List.length_nil, Nat.zero_add]
  | cons a as ih =>
    obtain ⟨u, hu, ht⟩ := exec_cons_eq_some.mp h
    obtain ⟨hi, hμ⟩ := hstep s a u hs hu
    rw [hμ, ← ih hi ht, List.length_cons, Nat.add_right_comm]

theorem Reaches.invariant {M : Machine σ α} {I : σ → Prop} (hinit : I M.init)
    (hstep : ∀ s a t, I s → M.step s a = some t → I t)
    {as : List α} {s : σ} (h : M.Reaches as s) : I s :=
  exec_invariant hstep hinit h

theorem Reaches.snoc {M : Machine σ α} {as : List α} {s t : σ} {a : α} (h : M.Reaches as s)
    (hst : M.step s a = some t) : M.Reaches (as ++ [a]) t := by
  rw [Reaches, exec_append_of_eq h, exec_cons, hst]
  rfl

/-- An invariant whose steps need what is known of every reachable state. -/
theorem Reaches.invariant_of {M : Machine σ α} {I J : σ → Prop}
    (hJ : ∀ as s, M.Reaches as s → J s) (hinit : I M.init)
    (hstep : ∀ s a t, J s → I s → M.step s a = some t → I t)
    {as : List α} {s : σ} (h : M.Reaches as s) : I s := by
  refine (h.invariant (I := fun s => (∃ as, M.Reaches as s) ∧ I s) ⟨⟨[], rfl⟩, hinit⟩ ?_).2
  rintro s a t ⟨⟨as, hs⟩, hi⟩ hst
  exact ⟨⟨as ++ [a], hs.snoc hst⟩, hstep s a t (hJ as s hs) hi hst⟩

/-- Every step that the run takes meets `C` in the state before it. -/
def Meets (M : Machine σ α) (C : σ → α → Prop) : σ → List α → Prop
  | _, [] => True
  | s, a :: as => ∀ t, M.step s a = some t → C s a ∧ M.Meets C t as

theorem meets_cons {M : Machine σ α} {C : σ → α → Prop} {s t : σ} {a : α} {as : List α}
    (h : M.step s a = some t) : M.Meets C s (a :: as) ↔ C s a ∧ M.Meets C t as := by
  simp only [Meets, h, Option.some.injEq, forall_eq']

instance Meets.decidable {M : Machine σ α} {C : σ → α → Prop} [∀ s a, Decidable (C s a)] :
    ∀ s as, Decidable (M.Meets C s as)
  | _, [] => isTrue trivial
  | s, a :: as =>
    match h : M.step s a with
    | none => isTrue fun t ht => by simp [h] at ht
    | some t =>
      have := Meets.decidable (M := M) (C := C) t as
      decidable_of_iff (C s a ∧ M.Meets C t as) (meets_cons h).symm

/-- `I` holds in every state that the run passes through, its first one included. -/
def Throughout (M : Machine σ α) (I : σ → Prop) (s : σ) (as : List α) : Prop :=
  ∀ pre suf t, as = pre ++ suf → M.exec s pre = some t → I t

theorem throughout_nil {M : Machine σ α} {I : σ → Prop} {s : σ} :
    M.Throughout I s [] ↔ I s := by
  constructor
  · intro h
    exact h [] [] s rfl rfl
  · intro hs pre suf t he ht
    obtain ⟨rfl, rfl⟩ := List.append_eq_nil_iff.mp he.symm
    rw [exec_nil, Option.some.injEq] at ht
    exact ht ▸ hs

theorem throughout_head {M : Machine σ α} {I : σ → Prop} {s : σ} {as : List α}
    (h : M.Throughout I s as) : I s := h [] as s rfl rfl

theorem throughout_cons {M : Machine σ α} {I : σ → Prop} {s : σ} {a : α} {as : List α} :
    M.Throughout I s (a :: as) ↔ I s ∧ ∀ u, M.step s a = some u → M.Throughout I u as := by
  constructor
  · intro h
    refine ⟨throughout_head h, fun u hu pre suf t he ht => ?_⟩
    exact h (a :: pre) suf t (by rw [he, List.cons_append])
      (exec_cons_eq_some.mpr ⟨u, hu, ht⟩)
  · rintro ⟨hs, h⟩ pre suf t he ht
    cases pre with
    | nil =>
      rw [exec_nil, Option.some.injEq] at ht
      exact ht ▸ hs
    | cons b pre =>
      rw [List.cons_append, List.cons.injEq] at he
      obtain ⟨rfl, he⟩ := he
      obtain ⟨u, hu, ht⟩ := exec_cons_eq_some.mp ht
      exact h u hu pre suf t he ht

/-- The invariant rule for every state of a run whose steps all meet a condition. -/
theorem throughout_of_meets {M : Machine σ α} {I : σ → Prop} {C : σ → α → Prop}
    (hstep : ∀ s a t, I s → C s a → M.step s a = some t → I t)
    {as : List α} {s : σ} (hs : I s) (hC : M.Meets C s as) : M.Throughout I s as := by
  induction as generalizing s with
  | nil => exact throughout_nil.mpr hs
  | cons a as ih =>
    refine throughout_cons.mpr ⟨hs, fun u hu => ?_⟩
    obtain ⟨hca, hCu⟩ := hC u hu
    exact ih (hstep s a u hs hca hu) hCu

/-- When `C` says exactly which steps keep `I`, a run keeps `I` exactly when all its steps
meet `C`. The supporting invariant `J` holds in any case. -/
theorem throughout_iff_meets {M : Machine σ α} {I J : σ → Prop} {C : σ → α → Prop}
    (hJ : ∀ s a t, J s → M.step s a = some t → J t)
    (hstep : ∀ s a t, J s → I s → M.step s a = some t → (I t ↔ C s a))
    {as : List α} {s : σ} (hjs : J s) (hs : I s) :
    M.Throughout I s as ↔ M.Meets C s as := by
  induction as generalizing s with
  | nil => simp [throughout_nil, Meets, hs]
  | cons a as ih =>
    rw [throughout_cons]
    constructor
    · rintro ⟨-, h⟩ u hu
      have hIu := throughout_head (h u hu)
      exact ⟨(hstep s a u hjs hs hu).mp hIu, (ih (hJ s a u hjs hu) hIu).mp (h u hu)⟩
    · refine fun h => ⟨hs, fun u hu => ?_⟩
      obtain ⟨hC, hm⟩ := h u hu
      exact (ih (hJ s a u hjs hu) ((hstep s a u hjs hs hu).mpr hC)).mpr hm

/-- Every step that the run takes meets a condition on the states before and behind it. -/
def Along (M : Machine σ α) (P : σ → α → σ → Prop) : σ → List α → Prop
  | _, [] => True
  | s, a :: as => ∀ t, M.step s a = some t → P s a t ∧ M.Along P t as

/-- When `C` says exactly which steps meet `P`, a run meets `P` exactly when all its steps
meet `C`. The supporting invariant `J` holds as long as the steps meet `P`. -/
theorem along_iff_meets {M : Machine σ α} {P : σ → α → σ → Prop} {J : σ → Prop}
    {C : σ → α → Prop} (hJ : ∀ s a t, J s → P s a t → M.step s a = some t → J t)
    (hstep : ∀ s a t, J s → M.step s a = some t → (P s a t ↔ C s a))
    {as : List α} {s : σ} (hs : J s) : M.Along P s as ↔ M.Meets C s as := by
  induction as generalizing s with
  | nil => simp [Along, Meets]
  | cons a as ih =>
    refine forall₂_congr fun t ht => ?_
    constructor
    · rintro ⟨hp, h⟩
      exact ⟨(hstep s a t hs ht).mp hp, (ih (hJ s a t hs hp ht)).mp h⟩
    · rintro ⟨hc, h⟩
      have hp := (hstep s a t hs ht).mpr hc
      exact ⟨hp, (ih (hJ s a t hs hp ht)).mpr h⟩

/-- Runs are taken to runs by a map that takes each step from a reachable state to a step of
`N` or leaves the state of `N` alone. -/
theorem Reaches.simulated {M : Machine σ α} {N : Machine τ β} {f : σ → τ} {J : σ → Prop}
    (hJ : ∀ as s, M.Reaches as s → J s) (hinit : f M.init = N.init)
    (hstep : ∀ s a t, J s → M.step s a = some t → f t = f s ∨ ∃ b, N.step (f s) b = some (f t))
    {as : List α} {s : σ} (h : M.Reaches as s) : ∃ bs, N.Reaches bs (f s) := by
  refine h.invariant_of (I := fun s => ∃ bs, N.Reaches bs (f s)) hJ
    ⟨[], congrArg some hinit.symm⟩ ?_
  rintro s a t hs ⟨bs, hb⟩ hst
  obtain he | ⟨b, hstep⟩ := hstep s a t hs hst
  · exact ⟨bs, he ▸ hb⟩
  · exact ⟨bs ++ [b], hb.snoc hstep⟩

/-- `f` takes every step of `M` to a step of `N` or leaves the state of `N` alone. -/
structure Simulation (M : Machine σ α) (N : Machine τ β) (f : σ → τ) : Prop where
  init : f M.init = N.init
  step : ∀ s a t, M.step s a = some t → f t = f s ∨ ∃ b, N.step (f s) b = some (f t)

theorem Simulation.reaches {M : Machine σ α} {N : Machine τ β} {f : σ → τ}
    (hf : Simulation M N f) {as : List α} {s : σ} (h : M.Reaches as s) :
    ∃ bs, N.Reaches bs (f s) :=
  h.simulated (J := fun _ => True) (fun _ _ _ => trivial) hf.init fun s a t _ => hf.step s a t

/-- The machine with a record that each of its steps brings up to date. -/
def recording (M : Machine σ α) (c : β) (f : σ → α → β → β) : Machine (σ × β) α where
  init := (M.init, c)
  step s a := (M.step s.1 a).map fun t => (t, f s.1 a s.2)

theorem recording_step {M : Machine σ α} {c : β} {f : σ → α → β → β} {s t : σ × β} {a : α} :
    (M.recording c f).step s a = some t ↔ M.step s.1 a = some t.1 ∧ f s.1 a s.2 = t.2 := by
  simp only [recording, Option.map_eq_some_iff, Prod.ext_iff]
  constructor
  · rintro ⟨u, hu, rfl, hf⟩
    exact ⟨hu, hf⟩
  · rintro ⟨hu, hf⟩
    exact ⟨t.1, hu, rfl, hf⟩

end Machine
