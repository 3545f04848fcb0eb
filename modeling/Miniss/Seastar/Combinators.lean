import Miniss.Seastar.FutureChainResults

/-! The functions of `future` and of `do_with.h` that are made of `then` and `then_wrapped`, and
what they come to. -/
namespace Miniss

variable {ν ε ρ : Type*}

namespace Computation

/-- `rethrow_with_nested`, while the exception `e` is being handled. What it throws is a
`std::nested_exception` already, so that `std::throw_with_nested` throws it as it is: it holds `e`,
and the exception of the future that `get` throws is no part of it. -/
def rethrowWithNested (nested : Exn → Exn) (e : Exn) : Except Exn ν → Except Exn ν
  | .ok _ => .error e
  | .error _ => .error (nested e)

/-- The callback of `finally` has ended: with an exception, or not. -/
def finallyResult (nested : Exn → Exn) (result : Except Exn ν) : Except Exn ν → Except Exn ν
  | .ok _ => result
  | .error e => rethrowWithNested nested e result

/-- `finally` with a function that returns a future. -/
def finally_ (nested : Exn → Exn) (p func : Computation ν ε ρ) : Computation ν ε ρ :=
  p.thenWrapped fun result => func.thenWrapped fun f => .ready (finallyResult nested result f)

def discardResult (unit : ν) (p : Computation ν ε ρ) : Computation ν ε ρ :=
  p.then_ fun _ => .ready (.ok unit)

/-- `catches` tells which exceptions the parameter of `func` takes. -/
def handleExceptionType (catches : Exn → Bool) (p : Computation ν ε ρ)
    (func : Exn → Computation ν ε ρ) : Computation ν ε ρ :=
  p.thenWrapped fun
    | .ok v => .ready (.ok v)
    | .error e => if catches e then func e else .ready (.error e)

def handleException (p : Computation ν ε ρ) (func : Exn → Computation ν ε ρ) :
    Computation ν ε ρ :=
  p.thenWrapped fun
    | .ok v => .ready (.ok v)
    | .error e => func e

/-- `do_with`: the object goes with the callback that holds it. -/
def doWith (destroy : ε) (f : Computation ν ε ρ) : Computation ν ε ρ :=
  f.thenWrapped fun result => .emit destroy (.ready result)

def withLock (lock : Computation ν ε ρ) (unlock : ε) (func : Computation ν ε ρ) :
    Computation ν ε ρ :=
  (lock.then_ fun _ => func).thenWrapped fun result => .emit unlock (.ready result)

variable {p func : Computation ν ε ρ} {es : List (Event ν ε ρ)} {r : Except Exn ν}

theorem eval_then {g : ν → Computation ν ε ρ} :
    (p.then_ g).Eval es r ↔ ∃ es₁ r₁ es₂, es = es₁ ++ es₂ ∧ p.Eval es₁ r₁ ∧
      ((Callback.value g).apply r₁).Eval es₂ r :=
  eval_attach_iff (k := .value g)

theorem eval_thenWrapped {g : Except Exn ν → Computation ν ε ρ} :
    (p.thenWrapped g).Eval es r ↔
      ∃ es₁ r₁ es₂, es = es₁ ++ es₂ ∧ p.Eval es₁ r₁ ∧ (g r₁).Eval es₂ r :=
  eval_attach_iff (k := .wrapped g)

theorem eval_finally {nested : Exn → Exn} : (finally_ nested p func).Eval es r ↔
    ∃ es₁ r₁ es₂ r₂, es = es₁ ++ es₂ ∧ p.Eval es₁ r₁ ∧ func.Eval es₂ r₂ ∧
      r = finallyResult nested r₁ r₂ := by
  rw [finally_, eval_thenWrapped]
  constructor
  · rintro ⟨es₁, r₁, es₂, rfl, hp, h⟩
    obtain ⟨es₂, r₂, es₃, rfl, hf, h⟩ := eval_thenWrapped.mp h
    obtain ⟨rfl, rfl⟩ := eval_ready.mp h
    exact ⟨es₁, r₁, es₂, r₂, by rw [List.append_nil], hp, hf, rfl⟩
  · rintro ⟨es₁, r₁, es₂, r₂, rfl, hp, hf, rfl⟩
    exact ⟨es₁, r₁, es₂, rfl, hp, eval_thenWrapped.mpr
      ⟨es₂, r₂, [], (List.append_nil _).symm, hf, .ready _⟩⟩

theorem eval_emit_after {e : ε} : (p.thenWrapped fun result => .emit e (.ready result)).Eval es r ↔
    ∃ es', es = es' ++ [.emitted e] ∧ p.Eval es' r := by
  rw [eval_thenWrapped]
  constructor
  · rintro ⟨es₁, r₁, _, rfl, hp, h⟩
    obtain ⟨es₂, rfl, hready⟩ := eval_emit.mp h
    obtain ⟨rfl, rfl⟩ := eval_ready.mp hready
    exact ⟨es₁, rfl, hp⟩
  · rintro ⟨es', rfl, hp⟩
    exact ⟨es', r, _, rfl, hp, .emit e (.ready r)⟩

theorem eval_doWith {destroy : ε} : (doWith destroy p).Eval es r ↔
    ∃ es', es = es' ++ [.emitted destroy] ∧ p.Eval es' r :=
  eval_emit_after

theorem eval_discardResult {unit : ν} : (discardResult unit p).Eval es r ↔
    ∃ r₁, p.Eval es r₁ ∧ r = r₁.map fun _ => unit := by
  rw [discardResult, eval_then]
  constructor
  · rintro ⟨es₁, r₁, es₂, rfl, hp, h⟩
    refine ⟨r₁, ?_, ?_⟩
    · cases r₁ <;> rw [(eval_ready.mp h).1, List.append_nil] <;> exact hp
    · cases r₁ <;> exact (eval_ready.mp h).2
  · rintro ⟨r₁, hp, rfl⟩
    refine ⟨es, r₁, [], (List.append_nil es).symm, hp, ?_⟩
    cases r₁ <;> exact .ready _

theorem eval_handleExceptionType {catches : Exn → Bool} {g : Exn → Computation ν ε ρ} :
    (handleExceptionType catches p g).Eval es r ↔ ∃ es₁ r₁ es₂, es = es₁ ++ es₂ ∧ p.Eval es₁ r₁ ∧
      match r₁ with
      | .ok v => es₂ = [] ∧ r = .ok v
      | .error e => if catches e then (g e).Eval es₂ r else es₂ = [] ∧ r = .error e := by
  rw [handleExceptionType, eval_thenWrapped]
  refine exists_congr fun es₁ => exists_congr fun r₁ => exists_congr fun es₂ =>
    and_congr_right fun _ => and_congr_right fun _ => ?_
  cases r₁ with
  | ok v => exact eval_ready
  | error e =>
    dsimp only
    split
    · exact Iff.rfl
    · exact eval_ready

/-- `handle_exception` is `handle_exception_type` with a parameter that takes all exceptions. -/
theorem handleException_eq (g : Exn → Computation ν ε ρ) :
    handleException p g = handleExceptionType (fun _ => true) p g := rfl

/-- The lock is given back exactly once, after everything else, whatever comes of the rest. -/
theorem eval_withLock {lock : Computation ν ε ρ} {unlock : ε} :
    (withLock lock unlock func).Eval es r ↔ ∃ es₁ es₂, es = es₁ ++ es₂ ++ [.emitted unlock] ∧
      ((∃ v, lock.Eval es₁ (.ok v) ∧ func.Eval es₂ r) ∨
        ∃ e, lock.Eval es₁ (.error e) ∧ es₂ = [] ∧ r = .error e) := by
  rw [withLock, eval_emit_after]
  constructor
  · rintro ⟨es', rfl, h⟩
    obtain ⟨es₁, r₁, es₂, rfl, hl, h⟩ := eval_then.mp h
    refine ⟨es₁, es₂, rfl, ?_⟩
    cases r₁ with
    | ok v => exact .inl ⟨v, hl, h⟩
    | error e => exact .inr ⟨e, hl, eval_ready.mp h⟩
  · rintro ⟨es₁, es₂, rfl, ⟨v, hl, h⟩ | ⟨e, hl, h⟩⟩
    · exact ⟨es₁ ++ es₂, rfl, eval_then.mpr ⟨es₁, .ok v, es₂, rfl, hl, h⟩⟩
    · exact ⟨es₁ ++ es₂, rfl, eval_then.mpr ⟨es₁, .error e, es₂, rfl, hl, eval_ready.mpr h⟩⟩

end Computation

open Miniss.Computation

section Runs

variable {ls : List (FiberOp ν ε ρ)} {m : HeapChains ν ε ρ} {i : ℕ} {r : Except Exn ν}

/-- The function given to `finally` is run once and in every case, after the rest, and its result
counts only when it is an exception. -/
theorem finally_runs {nested : Exn → Exn} {p func : Computation ν ε ρ}
    (h : HeapChains.machine.Reaches ls m)
    (hp : m.journal.started[i]? = some (finally_ nested p func))
    (hr : (i, r) ∈ m.journal.results) :
    ∃ es₁ r₁ es₂ r₂, m.journal.events i = es₁ ++ es₂ ∧ p.Eval es₁ r₁ ∧ func.Eval es₂ r₂ ∧
      r = finallyResult nested r₁ r₂ :=
  eval_finally.mp (HeapChains.evaluated h hp hr)

theorem finally_runs_failed : ∃ m, HeapChains.machine.Reaches
    [.start (finally_ (fun _ => .user 9) (.ready (.error (.user 1))) (.emit 7 (.ready (.ok 2))) :
      Computation ℕ ℕ Unit), .run, .run, .take 0] m ∧
    ∃ es₁ r₁ es₂ r₂, m.journal.events 0 = es₁ ++ es₂ ∧
      (Computation.ready (.error (.user 1)) : Computation ℕ ℕ Unit).Eval es₁ r₁ ∧
      (Computation.emit 7 (.ready (.ok 2)) : Computation ℕ ℕ Unit).Eval es₂ r₂ ∧
      Except.error (.user 1) = finallyResult (fun _ => .user 9) r₁ r₂ := by
  obtain ⟨m, hm, hj, -⟩ := HeapChains.carried_of_fibers (rfl : Fibers.machine.Reaches
    [.start (finally_ (fun _ => .user 9) (.ready (.error (.user 1))) (.emit 7 (.ready (.ok 2))) :
      Computation ℕ ℕ Unit), .run, .run, .take 0] _)
  refine ⟨m, hm, finally_runs hm (by rw [hj]; rfl) ?_⟩
  rw [hj]
  exact List.mem_singleton_self _

/-- The lock is given back once and in every case, after everything else: after the function when
the lock was taken, and also when it could not be taken. -/
theorem lock_given_back {lock func : Computation ν ε ρ} {unlock : ε}
    (h : HeapChains.machine.Reaches ls m)
    (hp : m.journal.started[i]? = some (withLock lock unlock func))
    (hr : (i, r) ∈ m.journal.results) :
    ∃ es₁ es₂, m.journal.events i = es₁ ++ es₂ ++ [.emitted unlock] ∧
      ((∃ v, lock.Eval es₁ (.ok v) ∧ func.Eval es₂ r) ∨
        ∃ e, lock.Eval es₁ (.error e) ∧ es₂ = [] ∧ r = .error e) :=
  eval_withLock.mp (HeapChains.evaluated h hp hr)

theorem lock_given_back_failed : ∃ m, HeapChains.machine.Reaches
    [.start (withLock (.request ()) 5 (.emit 7 (.ready (.ok 2))) : Computation ℕ ℕ Unit),
      .answer 0 (.error (.user 1)), .run, .run, .take 0] m ∧
    ∃ es₁ es₂, m.journal.events 0 = es₁ ++ es₂ ++ [.emitted 5] ∧
      ((∃ v, (Computation.request () : Computation ℕ ℕ Unit).Eval es₁ (.ok v) ∧
          (Computation.emit 7 (.ready (.ok 2)) : Computation ℕ ℕ Unit).Eval es₂
            (.error (.user 1))) ∨
        ∃ e, (Computation.request () : Computation ℕ ℕ Unit).Eval es₁ (.error e) ∧ es₂ = [] ∧
          (.error (.user 1) : Except Exn ℕ) = .error e) := by
  obtain ⟨m, hm, hj, -⟩ := HeapChains.carried_of_fibers (rfl : Fibers.machine.Reaches
    [.start (withLock (.request ()) 5 (.emit 7 (.ready (.ok 2))) : Computation ℕ ℕ Unit),
      .answer 0 (.error (.user 1)), .run, .run, .take 0] _)
  have hp : m.journal.started[0]? = some (withLock (.request ()) 5 (.emit 7 (.ready (.ok 2)))) := by
    rw [hj]
    rfl
  refine ⟨m, hm, lock_given_back hm hp ?_⟩
  rw [hj]
  exact List.mem_singleton_self _

/-- `discard_result` adds nothing to what is done, and an exception passes through it. -/
theorem result_discarded {unit : ν} {p : Computation ν ε ρ}
    (h : HeapChains.machine.Reaches ls m)
    (hp : m.journal.started[i]? = some (discardResult unit p))
    (hr : (i, r) ∈ m.journal.results) :
    ∃ r₁, p.Eval (m.journal.events i) r₁ ∧ r = r₁.map fun _ => unit :=
  eval_discardResult.mp (HeapChains.evaluated h hp hr)

/-- The handler is called once for an exception that it takes, and its result counts. A value and
any other exception pass by it. -/
theorem exception_type_handled {catches : Exn → Bool} {p : Computation ν ε ρ}
    {func : Exn → Computation ν ε ρ} (h : HeapChains.machine.Reaches ls m)
    (hp : m.journal.started[i]? = some (handleExceptionType catches p func))
    (hr : (i, r) ∈ m.journal.results) :
    ∃ es₁ r₁ es₂, m.journal.events i = es₁ ++ es₂ ∧ p.Eval es₁ r₁ ∧
      match r₁ with
      | .ok v => es₂ = [] ∧ r = .ok v
      | .error e => if catches e then (func e).Eval es₂ r else es₂ = [] ∧ r = .error e :=
  eval_handleExceptionType.mp (HeapChains.evaluated h hp hr)

/-- No exception gets past `handle_exception`, except from the handler. -/
theorem exception_handled {p : Computation ν ε ρ} {func : Exn → Computation ν ε ρ} {e : Exn}
    (h : HeapChains.machine.Reaches ls m)
    (hp : m.journal.started[i]? = some (handleException p func))
    (hr : (i, .error e) ∈ m.journal.results) :
    ∃ es₁ e₁ es₂, m.journal.events i = es₁ ++ es₂ ∧ p.Eval es₁ (.error e₁) ∧
      (func e₁).Eval es₂ (.error e) := by
  rw [handleException_eq] at hp
  obtain ⟨es₁, r₁, es₂, hes, he, hfunc⟩ := exception_type_handled h hp hr
  cases r₁ with
  | ok v => cases hfunc.2
  | error e₁ => exact ⟨es₁, e₁, es₂, hes, he, hfunc⟩

/-- The object of `do_with` is destroyed once, after all that its function does. -/
theorem object_outlives {destroy : ε} {f : Computation ν ε ρ}
    (h : HeapChains.machine.Reaches ls m)
    (hp : m.journal.started[i]? = some (doWith destroy f))
    (hr : (i, r) ∈ m.journal.results) :
    ∃ es, m.journal.events i = es ++ [.emitted destroy] ∧ f.Eval es r :=
  eval_doWith.mp (HeapChains.evaluated h hp hr)

end Runs

end Miniss
