import Miniss.Seastar.Future

/-! What a chain of futures computes, read as a program that runs from top to bottom: a
computation is the expression that makes a future, and its meaning is what happens and in which
order until the future has its result. -/
namespace Miniss

/-- An expression of type `future`. A computation may `emit` side effects and may return the
future of a `request` that is answered from outside. The continuation of `then_wrapped` takes its
result out of the future it is given. -/
inductive Computation (ν ε ρ : Type*)
  | ready (r : Except Exn ν)
  | request (q : ρ)
  | emit (e : ε) (p : Computation ν ε ρ)
  | then_ (p : Computation ν ε ρ) (func : ν → Computation ν ε ρ)
  | thenWrapped (p : Computation ν ε ρ) (func : Except Exn ν → Computation ν ε ρ)

/-- The function that `then` or `then_wrapped` is called with. -/
inductive Callback (ν ε ρ : Type*)
  | value (func : ν → Computation ν ε ρ)
  | wrapped (func : Except Exn ν → Computation ν ε ρ)

inductive Event (ν ε ρ : Type*)
  | emitted (e : ε)
  | answered (q : ρ) (r : Except Exn ν)
  deriving DecidableEq

variable {ν ε ρ : Type*}

namespace Computation

def attach (p : Computation ν ε ρ) : Callback ν ε ρ → Computation ν ε ρ
  | .value func => p.then_ func
  | .wrapped func => p.thenWrapped func

/-- `p` can do the events in this order and end with the result: each callback runs when the
future before it has its result, and `then` skips its callback when that is an exception. -/
inductive Eval : Computation ν ε ρ → List (Event ν ε ρ) → Except Exn ν → Prop
  | ready (r : Except Exn ν) : Eval (.ready r) [] r
  | request (q : ρ) (r : Except Exn ν) : Eval (.request q) [.answered q r] r
  | emit {p es r} (e : ε) (h : Eval p es r) : Eval (.emit e p) (.emitted e :: es) r
  | then_value {p func es es' v r} (hp : Eval p es (.ok v)) (hf : Eval (func v) es' r) :
      Eval (.then_ p func) (es ++ es') r
  | then_error {p func es x} (hp : Eval p es (.error x)) : Eval (.then_ p func) es (.error x)
  | thenWrapped {p func es es' r r'} (hp : Eval p es r) (hf : Eval (func r) es' r') :
      Eval (.thenWrapped p func) (es ++ es') r'

end Computation

/-- What the callback makes of a result, an exception included. -/
def Callback.apply : Callback ν ε ρ → Except Exn ν → Computation ν ε ρ
  | .value func, .ok v => func v
  | .value _, .error x => .ready (.error x)
  | .wrapped func, r => func r

namespace Computation

theorem eval_attach {p : Computation ν ε ρ} {k : Callback ν ε ρ} {es es' : List (Event ν ε ρ)}
    {r r' : Except Exn ν} (hp : Eval p es r) (hk : Eval (k.apply r) es' r') :
    Eval (p.attach k) (es ++ es') r' := by
  cases k with
  | wrapped func => exact .thenWrapped hp hk
  | value func =>
    cases r with
    | ok v => exact .then_value hp hk
    | error x =>
      cases hk
      rw [List.append_nil]
      exact .then_error hp

theorem eval_ready {r r' : Except Exn ν} {es : List (Event ν ε ρ)} :
    Eval (.ready r) es r' ↔ es = [] ∧ r' = r := by
  constructor
  · rintro ⟨⟩
    exact ⟨rfl, rfl⟩
  · rintro ⟨rfl, rfl⟩
    exact .ready r'

theorem eval_emit {e : ε} {p : Computation ν ε ρ} {es : List (Event ν ε ρ)} {r : Except Exn ν} :
    Eval (.emit e p) es r ↔ ∃ es', es = .emitted e :: es' ∧ Eval p es' r := by
  constructor
  · rintro ⟨⟩
    exact ⟨_, rfl, ‹_›⟩
  · rintro ⟨es', rfl, h⟩
    exact .emit e h

theorem eval_attach_iff {p : Computation ν ε ρ} {k : Callback ν ε ρ} {es : List (Event ν ε ρ)}
    {r : Except Exn ν} :
    Eval (p.attach k) es r ↔
      ∃ es₁ r₁ es₂, es = es₁ ++ es₂ ∧ Eval p es₁ r₁ ∧ Eval (k.apply r₁) es₂ r := by
  constructor
  · intro h
    cases k with
    | wrapped func =>
      cases h with
      | thenWrapped hp hf => exact ⟨_, _, _, rfl, hp, hf⟩
    | value func =>
      cases h with
      | then_value hp hf => exact ⟨_, _, _, rfl, hp, hf⟩
      | then_error hp => exact ⟨_, _, _, (List.append_nil es).symm, hp, .ready _⟩
  · rintro ⟨es₁, r₁, es₂, rfl, hp, hk⟩
    exact eval_attach hp hk

end Computation

/-- The answer that an event brings. -/
def Event.answer? : Event ν ε ρ → Option (ρ × Except Exn ν)
  | .emitted _ => none
  | .answered q r => some (q, r)

def answers (es : List (Event ν ε ρ)) : List (ρ × Except Exn ν) := es.filterMap Event.answer?

theorem answers_append (es es' : List (Event ν ε ρ)) :
    answers (es ++ es') = answers es ++ answers es' :=
  List.filterMap_append ..

/-- What a computation does is a function of the answers that it gets. -/
theorem Computation.Eval.unique {p : Computation ν ε ρ} {es es' : List (Event ν ε ρ)}
    {r r' : Except Exn ν} {l l' : List (ρ × Except Exn ν)} (h : p.Eval es r) (h' : p.Eval es' r')
    (hl : answers es ++ l = answers es' ++ l') : es = es' ∧ r = r' ∧ l = l' := by
  induction h generalizing es' r' l l' with
  | ready r =>
    cases h'
    exact ⟨rfl, rfl, hl⟩
  | request q r =>
    cases h'
    obtain ⟨hr, -⟩ := List.cons.inj hl
    obtain ⟨-, rfl⟩ := Prod.mk.inj hr
    exact ⟨rfl, rfl, List.append_cancel_left hl⟩
  | emit e _ ih =>
    cases h' with | emit _ h'
    obtain ⟨rfl, rfl, hl⟩ := ih h' hl
    exact ⟨rfl, rfl, hl⟩
  | then_value _ _ ihp ihf =>
    cases h' with
    | then_value hp' hf' =>
      rw [answers_append, answers_append, List.append_assoc, List.append_assoc] at hl
      obtain ⟨rfl, hv, hl⟩ := ihp hp' hl
      cases hv
      obtain ⟨rfl, rfl, hl⟩ := ihf hf' hl
      exact ⟨rfl, rfl, hl⟩
    | then_error hp' =>
      rw [answers_append, List.append_assoc] at hl
      obtain ⟨-, hv, -⟩ := ihp hp' hl
      cases hv
  | then_error _ ih =>
    cases h' with
    | then_value hp' hf' =>
      rw [answers_append, List.append_assoc] at hl
      obtain ⟨-, hv, -⟩ := ih hp' hl
      cases hv
    | then_error hp' =>
      obtain ⟨rfl, hv, hl⟩ := ih hp' hl
      cases hv
      exact ⟨rfl, rfl, hl⟩
  | thenWrapped _ _ ihp ihf =>
    cases h' with | thenWrapped hp' hf'
    rw [answers_append, answers_append, List.append_assoc, List.append_assoc] at hl
    obtain ⟨rfl, rfl, hl⟩ := ihp hp' hl
    obtain ⟨rfl, rfl, hl⟩ := ihf hf' hl
    exact ⟨rfl, rfl, hl⟩

theorem Computation.Eval.determined {p : Computation ν ε ρ} {es es' : List (Event ν ε ρ)}
    {r r' : Except Exn ν} (h : p.Eval es r) (h' : p.Eval es' r')
    (ha : answers es = answers es') : es = es' ∧ r = r' := by
  have hl : answers es ++ [] = answers es' ++ [] := by rw [ha]
  obtain ⟨hes, hr, -⟩ := h.unique h' hl
  exact ⟨hes, hr⟩

/-- The callbacks of the stack, innermost first, take the result on. -/
def EvalStack (r : Except Exn ν) : List (Callback ν ε ρ) → List (Event ν ε ρ) →
    Except Exn ν → Prop
  | [], es, r' => es = [] ∧ r' = r
  | k :: ks, es, r' => ∃ es₁ r₁ es₂, es = es₁ ++ es₂ ∧ (k.apply r).Eval es₁ r₁ ∧
      EvalStack r₁ ks es₂ r'

end Miniss
