import Miniss.Seastar.Fibers

/-! What a fiber does is what its computation does when it is read from top to bottom. -/
namespace Miniss

variable {ν ε ρ : Type*}

theorem evalStack_append {r r' : Except Exn ν} {ks ks' : List (Callback ν ε ρ)}
    {es : List (Event ν ε ρ)} :
    EvalStack r (ks ++ ks') es r' ↔
      ∃ es₁ r₁ es₂, es = es₁ ++ es₂ ∧ EvalStack r ks es₁ r₁ ∧ EvalStack r₁ ks' es₂ r' := by
  induction ks generalizing r es with
  | nil =>
    constructor
    · intro h
      exact ⟨[], r, es, rfl, ⟨rfl, rfl⟩, h⟩
    · rintro ⟨_, _, es₂, rfl, ⟨rfl, rfl⟩, h⟩
      exact h
  | cons k ks ih =>
    constructor
    · rintro ⟨es₁, r₁, es₂, rfl, hk, h⟩
      obtain ⟨es₃, r₃, es₄, rfl, h₃, h₄⟩ := ih.mp h
      exact ⟨es₁ ++ es₃, r₃, es₄, (List.append_assoc ..).symm, ⟨es₁, r₁, es₃, rfl, hk, h₃⟩, h₄⟩
    · rintro ⟨_, r₃, es₄, rfl, ⟨es₁, r₁, es₂, rfl, hk, h⟩, h₄⟩
      exact ⟨es₁, r₁, es₂ ++ es₄, List.append_assoc .., hk, ih.mpr ⟨es₂, r₃, es₄, rfl, h, h₄⟩⟩

namespace Fiber

/-- The fiber can go on with these events and end with the result. -/
def Finishes (x : Fiber ν ε ρ) (es : List (Event ν ε ρ)) (r : Except Exn ν) : Prop :=
  match x.point with
  | .answer r₀ => EvalStack r₀ x.stack es r
  | .request q => ∃ r₀ es₀, es = .answered q r₀ :: es₀ ∧ EvalStack r₀ x.stack es₀ r

theorem finishes_under {x : Fiber ν ε ρ} {ks : List (Callback ν ε ρ)} {es : List (Event ν ε ρ)}
    {r : Except Exn ν} :
    (x.under ks).Finishes es r ↔
      ∃ es₁ r₁ es₂, es = es₁ ++ es₂ ∧ x.Finishes es₁ r₁ ∧ EvalStack r₁ ks es₂ r := by
  obtain ⟨point, stack⟩ := x
  cases point with
  | answer r₀ => exact evalStack_append
  | request q =>
    constructor
    · rintro ⟨r₀, es₀, rfl, h⟩
      obtain ⟨es₁, r₁, es₂, rfl, h₁, h₂⟩ := evalStack_append.mp h
      exact ⟨.answered q r₀ :: es₁, r₁, es₂, rfl, ⟨r₀, es₁, rfl, h₁⟩, h₂⟩
    · rintro ⟨_, r₁, es₂, rfl, ⟨r₀, es₁, rfl, h₁⟩, h₂⟩
      exact ⟨r₀, es₁ ++ es₂, rfl, evalStack_append.mpr ⟨es₁, r₁, es₂, rfl, h₁, h₂⟩⟩

end Fiber

theorem evalStack_single {r r' : Except Exn ν} {k : Callback ν ε ρ} {es : List (Event ν ε ρ)} :
    EvalStack r [k] es r' ↔ (k.apply r).Eval es r' := by
  constructor
  · rintro ⟨es₁, r₁, _, rfl, hk, rfl, rfl⟩
    rwa [List.append_nil]
  · intro h
    exact ⟨es, r', [], (List.append_nil es).symm, h, rfl, rfl⟩

namespace Computation

theorem eval_attach_iff_enter {p : Computation ν ε ρ} {k : Callback ν ε ρ}
    (ih : ∀ es r, p.Eval es r ↔ ∃ es', es = p.enter.1 ++ es' ∧ p.enter.2.Finishes es' r)
    (es : List (Event ν ε ρ)) (r : Except Exn ν) :
    (p.attach k).Eval es r ↔
      ∃ es', es = p.enter.1 ++ es' ∧ (p.enter.2.under [k]).Finishes es' r := by
  rw [eval_attach_iff]
  constructor
  · rintro ⟨es₁, r₁, es₂, rfl, hp, hk⟩
    obtain ⟨es', rfl, hx⟩ := (ih es₁ r₁).mp hp
    exact ⟨es' ++ es₂, List.append_assoc .., Fiber.finishes_under.mpr
      ⟨es', r₁, es₂, rfl, hx, evalStack_single.mpr hk⟩⟩
  · rintro ⟨_, rfl, h⟩
    obtain ⟨es', r₁, es₂, rfl, hx, hk⟩ := Fiber.finishes_under.mp h
    exact ⟨p.enter.1 ++ es', r₁, es₂, (List.append_assoc ..).symm,
      (ih _ r₁).mpr ⟨es', rfl, hx⟩, evalStack_single.mp hk⟩

/-- Entering a computation is the first part of what it does. -/
theorem eval_iff_enter (p : Computation ν ε ρ) (es : List (Event ν ε ρ)) (r : Except Exn ν) :
    p.Eval es r ↔ ∃ es', es = p.enter.1 ++ es' ∧ p.enter.2.Finishes es' r := by
  induction p generalizing es r with
  | ready r₀ =>
    rw [eval_ready]
    constructor
    · rintro ⟨rfl, rfl⟩
      exact ⟨[], rfl, rfl, rfl⟩
    · rintro ⟨_, rfl, rfl, rfl⟩
      exact ⟨rfl, rfl⟩
  | request q =>
    constructor
    · rintro ⟨⟩
      exact ⟨_, rfl, r, [], rfl, rfl, rfl⟩
    · rintro ⟨_, rfl, r₀, _, rfl, rfl, rfl⟩
      exact .request q r
  | emit e p ih =>
    rw [eval_emit]
    constructor
    · rintro ⟨es', rfl, h⟩
      obtain ⟨es₁, rfl, hx⟩ := (ih es' r).mp h
      exact ⟨es₁, rfl, hx⟩
    · rintro ⟨es₁, rfl, hx⟩
      exact ⟨_, rfl, (ih _ r).mpr ⟨es₁, rfl, hx⟩⟩
  | then_ p func ih _ => exact eval_attach_iff_enter (k := .value func) ih es r
  | thenWrapped p func ih _ => exact eval_attach_iff_enter (k := .wrapped func) ih es r

end Computation

namespace Fiber

/-- A task calls the innermost callback. -/
theorem finishes_run {r₀ r : Except Exn ν} {k : Callback ν ε ρ} {ks : List (Callback ν ε ρ)}
    {es : List (Event ν ε ρ)} (h : ((k.apply r₀).enter.2.under ks).Finishes es r) :
    Finishes ⟨.answer r₀, k :: ks⟩ ((k.apply r₀).enter.1 ++ es) r := by
  obtain ⟨es₁, r₁, es₂, rfl, hx, hks⟩ := finishes_under.mp h
  exact ⟨(k.apply r₀).enter.1 ++ es₁, r₁, es₂, (List.append_assoc ..).symm,
    (Computation.eval_iff_enter _ _ _).mpr ⟨es₁, rfl, hx⟩, hks⟩

end Fiber

theorem Computation.exists_eval (p : Computation ν ε ρ) : ∃ es r, p.Eval es r := by
  induction p with
  | ready r => exact ⟨[], r, .ready r⟩
  | request q => exact ⟨_, .error (.user 0), .request q _⟩
  | emit e p ih =>
    obtain ⟨es, r, h⟩ := ih
    exact ⟨_, r, .emit e h⟩
  | then_ p func ih ihf =>
    obtain ⟨es, r, h⟩ := ih
    cases r with
    | error e => exact ⟨es, .error e, .then_error h⟩
    | ok v =>
      obtain ⟨es', r, h'⟩ := ihf v
      exact ⟨_, r, .then_value h h'⟩
  | thenWrapped p func ih ihf =>
    obtain ⟨es, r, h⟩ := ih
    obtain ⟨es', r', h'⟩ := ihf r
    exact ⟨_, r', .thenWrapped h h'⟩

theorem exists_evalStack (r : Except Exn ν) (ks : List (Callback ν ε ρ)) :
    ∃ es r', EvalStack r ks es r' := by
  induction ks generalizing r with
  | nil => exact ⟨[], r, rfl, rfl⟩
  | cons k ks ih =>
    obtain ⟨es, r₁, h⟩ := (k.apply r).exists_eval
    obtain ⟨es', r', h'⟩ := ih r₁
    exact ⟨_, r', es, r₁, es', rfl, h, h'⟩

theorem Fiber.exists_finishes (x : Fiber ν ε ρ) : ∃ es r, x.Finishes es r := by
  obtain ⟨point, stack⟩ := x
  cases point with
  | answer r => exact exists_evalStack r stack
  | request q =>
    obtain ⟨es, r, h⟩ := exists_evalStack (.error (.user 0)) stack
    exact ⟨_, r, _, es, rfl, h⟩

namespace Fibers

/-- What each fiber has done so far is the first part of what its computation does, and the rest
of it is what the fiber goes on with. -/
structure Sound (t : Fibers ν ε ρ) : Prop where
  live : ∀ i x, t.fiber i = some x → i < t.journal.started.length
  goes : ∀ i x p, t.fiber i = some x → t.journal.started[i]? = some p →
    ∀ es r, x.Finishes es r → p.Eval (t.journal.events i ++ es) r
  quiet : ∀ i, t.journal.started.length ≤ i → t.journal.events i = []
  taken : ∀ i r, (i, r) ∈ t.journal.results → t.fiber i = none ∧
    ∃ p, t.journal.started[i]? = some p ∧ p.Eval (t.journal.events i) r

theorem Sound.init : Sound (machine (ν := ν) (ε := ε) (ρ := ρ)).init where
  live := by simp [machine]
  goes := by simp [machine]
  quiet := fun _ _ => rfl
  taken := by simp [machine]

variable {t t' : Fibers ν ε ρ}

theorem Sound.resume (ht : t.Sound) {i : ℕ} {x : Fiber ν ε ρ} {es₀ : List (Event ν ε ρ)}
    (hi : i < t.journal.started.length) (hr : ∀ r, (i, r) ∉ t.journal.results)
    (hx : ∀ p, t.journal.started[i]? = some p → ∀ es r, x.Finishes es r →
      p.Eval (t.journal.events i ++ (es₀ ++ es)) r) : (t.resume i x es₀).Sound where
  live i' x' h := by
    rw [resume_fiber] at h
    split at h
    · next hii => exact hii ▸ hi
    · exact ht.live i' x' h
  goes i' x' p h hp es r hes := by
    rw [resume_events]
    rw [resume_fiber] at h
    split at h
    · next hii =>
      subst hii
      obtain rfl := Option.some.inj h
      rw [if_pos rfl, List.append_assoc]
      exact hx p hp es r hes
    · next hii =>
      rw [if_neg hii, List.append_nil]
      exact ht.goes i' x' p h hp es r hes
  quiet i' hi' := by
    have hii : i' ≠ i := fun h => absurd hi (not_lt.mpr (h ▸ hi'))
    rw [resume_events, if_neg hii, List.append_nil]
    exact ht.quiet i' hi'
  taken i' r h := by
    have hii : i' ≠ i := fun he => hr r (he ▸ h)
    rw [resume_events, if_neg hii, List.append_nil, resume_fiber, if_neg hii]
    exact ht.taken i' r h

theorem Sound.not_taken (ht : t.Sound) {i : ℕ} {x : Fiber ν ε ρ} (hx : t.fiber i = some x)
    (r : Except Exn ν) : (i, r) ∉ t.journal.results := by
  intro h
  cases (ht.taken i r h).1.symm.trans hx

theorem Sound.start (ht : t.Sound) (p : Computation ν ε ρ) : (t.start p).Sound := by
  have hnew : Sound ({ t with journal := t.journal.start p } : Fibers ν ε ρ) := by
    refine ⟨fun i x h => ?_, fun i x p' h hp => ?_, fun i hi => ?_, fun i r h => ?_⟩
    · exact (ht.live i x h).trans_le (by simp [Journal.start])
    · rw [Journal.start, List.getElem?_append_left (ht.live i x h)] at hp
      exact ht.goes i x p' h hp
    · exact ht.quiet i (le_trans (by simp [Journal.start]) hi)
    · obtain ⟨hfiber, p', hp, he⟩ := ht.taken i r h
      obtain ⟨hlt, -⟩ := List.getElem?_eq_some_iff.mp hp
      exact ⟨hfiber, p', by rw [Journal.start, List.getElem?_append_left hlt, hp], he⟩
  refine hnew.resume (by simp [Journal.start]) (fun r h => ?_) fun p' hp es r hes => ?_
  · obtain ⟨-, p', hp, -⟩ := ht.taken _ r h
    simp at hp
  · obtain rfl : p = p' := by simpa [Journal.start] using hp
    have hquiet : (t.journal.start p).events t.journal.started.length = [] := ht.quiet _ le_rfl
    rw [hquiet]
    exact (p.eval_iff_enter _ r).mpr ⟨es, rfl, hes⟩

theorem Sound.attach (ht : t.Sound) {i : ℕ} {k : Callback ν ε ρ} (h : t.attach i k = some t') :
    t'.Sound := by
  obtain ⟨x, hx, rfl⟩ := Option.map_eq_some_iff.mp h
  refine ⟨fun i' x' h' => ?_, fun i' x' p h' hp es r hes => ?_, fun i' hi' => ?_,
    fun i' r h' => ?_⟩
  · simp only [Journal.attach, List.length_modify]
    by_cases hii : i' = i
    · exact hii ▸ ht.live i x hx
    · simp only [Function.update_of_ne hii] at h'
      exact ht.live i' x' h'
  · rw [Journal.started_attach] at hp
    by_cases hii : i' = i
    · subst hii
      simp only [Function.update_self, Option.some.injEq] at h'
      subst h'
      rw [if_pos rfl] at hp
      obtain ⟨p₀, hp₀, rfl⟩ := Option.map_eq_some_iff.mp hp
      obtain ⟨es₁, r₁, es₂, rfl, h₁, h₂⟩ := Fiber.finishes_under.mp hes
      rw [← List.append_assoc]
      exact Computation.eval_attach (ht.goes i' x p₀ hx hp₀ es₁ r₁ h₁) (evalStack_single.mp h₂)
    · simp only [Function.update_of_ne hii] at h'
      rw [if_neg hii] at hp
      exact ht.goes i' x' p h' hp es r hes
  · exact ht.quiet i' (by simpa [Journal.attach] using hi')
  · obtain ⟨hfiber, p, hp, he⟩ := ht.taken i' r h'
    have hii : i' ≠ i := fun hii => ht.not_taken hx r (hii ▸ h')
    refine ⟨by simpa only [Function.update_of_ne hii] using hfiber, p, ?_, he⟩
    rw [Journal.started_attach, if_neg hii, hp]

theorem Sound.answer (ht : t.Sound) {i : ℕ} {r : Except Exn ν} (h : t.answer i r = some t') :
    t'.Sound := by
  unfold Fibers.answer at h
  split at h
  · next q ks hx =>
    rw [← Option.some.inj h]
    refine ht.resume (ht.live i _ hx) (ht.not_taken hx) fun p hp es r' hes => ?_
    exact ht.goes i _ p hx hp _ r' ⟨r, es, rfl, hes⟩
  · cases h

theorem Sound.run (ht : t.Sound) (h : t.run = some t') : t'.Sound := by
  unfold Fibers.run at h
  split at h
  · cases h
  next i queue hq =>
    split at h
    · next r k ks hx =>
      rw [← Option.some.inj h]
      refine Sound.resume (t := { t with queue := queue }) ⟨ht.live, ht.goes, ht.quiet, ht.taken⟩
        (ht.live i _ hx) (ht.not_taken hx) fun p hp es r' hes => ?_
      exact ht.goes i _ p hx hp _ r' (Fiber.finishes_run hes)
    · cases h

theorem Sound.take (ht : t.Sound) {i : ℕ} (h : t.take i = some t') : t'.Sound := by
  unfold Fibers.take at h
  split at h
  · next r hx =>
    rw [← Option.some.inj h]
    refine ⟨fun i' x' h' => ?_, fun i' x' p h' hp => ?_, ht.quiet, fun i' r' h' => ?_⟩
    · by_cases hii : i' = i
      · exact hii ▸ ht.live i _ hx
      · simp only [Function.update_of_ne hii] at h'
        exact ht.live i' x' h'
    · by_cases hii : i' = i
      · subst hii
        simp at h'
      · simp only [Function.update_of_ne hii] at h'
        exact ht.goes i' x' p h' hp
    · obtain h' | h' := List.mem_append.mp h'
      · obtain ⟨hfiber, hp⟩ := ht.taken i' r' h'
        have hii : i' ≠ i := fun hii => ht.not_taken hx r' (hii ▸ h')
        exact ⟨by simpa only [Function.update_of_ne hii] using hfiber, hp⟩
      · obtain ⟨rfl, rfl⟩ := Prod.mk.inj (List.mem_singleton.mp h')
        have hp := List.getElem?_eq_getElem (ht.live i' _ hx)
        have he := ht.goes i' _ _ hx hp [] r' ⟨rfl, rfl⟩
        rw [List.append_nil] at he
        exact ⟨Function.update_self .., _, hp, he⟩
  · cases h

theorem sound {ls : List (FiberOp ν ε ρ)} (h : machine.Reaches ls t) : t.Sound := by
  refine h.invariant .init fun s op s' hs hstep => ?_
  cases op with
  | start p =>
    rw [← Option.some.inj hstep]
    exact hs.start p
  | attach i k => exact hs.attach hstep
  | answer i r => exact hs.answer hstep
  | run => exact hs.run hstep
  | take i => exact hs.take hstep

end Fibers

end Miniss
