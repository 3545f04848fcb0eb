import Miniss.Seastar.FutureHeap
import Miniss.Seastar.Fibers
import Miniss.Lib.Lockstep

/-! What `then` and `then_wrapped` and the tasks that they schedule do with promises and futures,
operation by operation. New objects get addresses that were never used before. -/
namespace Miniss

/-- The function object that `then` schedules: the promise it has captured, and the callback. The
number tells which fiber it belongs to. -/
structure Captured (ν ε ρ : Type*) where
  fiber : ℕ
  pr : ℕ
  func : Callback ν ε ρ

abbrev ChainOp (ν ε ρ : Type*) := FutureOp ℕ ℕ ν (Captured ν ε ρ)
abbrev ChainOutput (ν ε ρ : Type*) := FutureOutput ν (Captured ν ε ρ)

structure Script (ν ε ρ : Type*) where
  ops : List (ChainOp ν ε ρ)
  next : ℕ
  fut : ℕ
  events : List (Event ν ε ρ)
  input : Option (ℕ × ρ)

variable {ν ε ρ : Type*}

/-- `then` and `then_wrapped` on the future `f`: the promise moves into the function object and
with that into the continuation. It is never asked whether the future is available, as
`need_preempt()` is always true. -/
def attachOps (i n f : ℕ) (k : Callback ν ε ρ) : List (ChainOp ν ε ρ) :=
  [.newPromise n, .getFuture n n, .movePromise (n + 1) n, .movePromise (n + 2) (n + 1),
    .schedule f ⟨i, n + 2, k⟩, .destroyPromise (n + 1), .destroyPromise n, .destroyFuture f]

def Script.attach (s : Script ν ε ρ) (i : ℕ) (k : Callback ν ε ρ) : Script ν ε ρ :=
  { s with ops := s.ops ++ attachOps i s.next s.fut k, next := s.next + 3, fut := s.next }

/-- The promise of a request is kept by whoever serves it. -/
def startScript (i n : ℕ) : Computation ν ε ρ → Script ν ε ρ
  | .ready r => ⟨[.readyFuture n r], n + 1, n, [], none⟩
  | .request q => ⟨[.newPromise n, .getFuture n n], n + 1, n, [], some (n, q)⟩
  | .emit e p => { startScript i n p with events := .emitted e :: (startScript i n p).events }
  | .then_ p func => (startScript i n p).attach i (.value func)
  | .thenWrapped p func => (startScript i n p).attach i (.wrapped func)

/-- `futurator::apply(func, ..).forward_to(std::move(pr))` -/
def Script.forward (s : Script ν ε ρ) (pr : ℕ) : Script ν ε ρ :=
  { s with ops := s.ops ++ [.forwardTo s.fut pr, .destroyFuture s.fut] }

/-- The function objects that `then` and `then_wrapped` schedule. The second one makes a future of
the state, that the callback takes the result from. The captured promise goes with the task. -/
def taskScript (n : ℕ) (k : Captured ν ε ρ) (r : Except Exn ν) : Script ν ε ρ :=
  match k.func, r with
  | .value _, .error x => ⟨[.set k.pr (.error x), .destroyPromise k.pr], n, n, [], none⟩
  | .value func, .ok v =>
    let s := (startScript k.fiber n (func v)).forward k.pr
    { s with ops := s.ops ++ [.destroyPromise k.pr] }
  | .wrapped func, r =>
    let s := (startScript k.fiber (n + 1) (func r)).forward k.pr
    { s with
      ops := [.readyFuture n r, .get n] ++ s.ops ++ [.destroyFuture n, .destroyPromise k.pr] }

/-- The store, the promises of the requests that are not answered and the futures that the client
holds, fiber by fiber. -/
structure FutureChains (σ ν ε ρ : Type*) where
  store : σ
  next : ℕ
  inputs : ℕ → Option (ℕ × ρ)
  roots : ℕ → Option ℕ
  journal : Journal ν ε ρ

namespace FutureChains
variable {σ τ : Type*}

/-- The client's future of fiber `i` is `f` from now on. -/
def hold (m : FutureChains σ ν ε ρ) (i f : ℕ) : FutureChains σ ν ε ρ :=
  { m with roots := Function.update m.roots i (some f) }

def ask (inputs : ℕ → Option (ℕ × ρ)) (i : ℕ) : Option (ℕ × ρ) → ℕ → Option (ℕ × ρ)
  | some a => Function.update inputs i (some a)
  | none => inputs

theorem ask_self {inputs : ℕ → Option (ℕ × ρ)} {i : ℕ} (hi : inputs i = none)
    (a : Option (ℕ × ρ)) : ask inputs i a i = a := by
  cases a with
  | none => exact hi
  | some a => exact Function.update_self ..

theorem ask_of_ne {inputs : ℕ → Option (ℕ × ρ)} {i j : ℕ} (hj : j ≠ i)
    (a : Option (ℕ × ρ)) : ask inputs i a j = inputs j := by
  cases a with
  | none => rfl
  | some a => exact Function.update_of_ne hj ..

/-- What fiber `i` has done when the operations of the script are done. -/
def after (m : FutureChains σ ν ε ρ) (i : ℕ) (s : Script ν ε ρ) (store : σ) :
    FutureChains σ ν ε ρ :=
  { m with
    store := store
    next := s.next
    inputs := ask m.inputs i s.input
    journal := m.journal.note i s.events }

variable (M : Machine (σ × List (ChainOutput ν ε ρ)) (ChainOp ν ε ρ))

abbrev On (σ ν ε ρ : Type*) := FutureChains (σ × List (ChainOutput ν ε ρ)) ν ε ρ

def start (m : On σ ν ε ρ) (p : Computation ν ε ρ) : Option (On σ ν ε ρ) :=
  let i := m.journal.started.length
  let s := startScript i m.next p
  (M.exec m.store s.ops).map fun store =>
    (({ m with journal := m.journal.start p } : On σ ν ε ρ).after i s store).hold i s.fut

def attach (m : On σ ν ε ρ) (i : ℕ) (k : Callback ν ε ρ) : Option (On σ ν ε ρ) :=
  (m.roots i).bind fun f =>
    (M.exec m.store (attachOps i m.next f k)).map fun store =>
      ({ m with store := store, next := m.next + 3, journal := m.journal.attach i k } :
        On σ ν ε ρ).hold i m.next

def answer (m : On σ ν ε ρ) (i : ℕ) (r : Except Exn ν) : Option (On σ ν ε ρ) :=
  (m.inputs i).bind fun a =>
    (M.exec m.store [.set a.1 r, .destroyPromise a.1]).map fun store =>
      { m with
        store := store
        inputs := Function.update m.inputs i none
        journal := m.journal.note i [.answered a.2 r] }

/-- One round of the loop over the scheduled tasks. -/
def run (m : On σ ν ε ρ) : Option (On σ ν ε ρ) :=
  (M.step m.store .run).bind fun store =>
    match store.2.getLast? with
    | some (.called ⟨state, k⟩) => state.result?.bind fun r =>
      (M.exec store (taskScript m.next k r).ops).map fun store =>
        m.after k.fiber (taskScript m.next k r) store
    | _ => none

/-- The client takes the result out of its future, which is gone then. -/
def take (m : On σ ν ε ρ) (i : ℕ) : Option (On σ ν ε ρ) :=
  (m.roots i).bind fun f => (M.step m.store (.get f)).bind fun store =>
    match store.2.getLast? with
    | some (.got r) => (M.step store (.destroyFuture f)).map fun store =>
      { m with
        store := store
        roots := Function.update m.roots i none
        journal := m.journal.take i r }
    | _ => none

def step (m : On σ ν ε ρ) : FiberOp ν ε ρ → Option (On σ ν ε ρ)
  | .start p => m.start M p
  | .attach i k => m.attach M i k
  | .answer i r => m.answer M i r
  | .run => m.run M
  | .take i => m.take M i

def machine : Machine (On σ ν ε ρ) (FiberOp ν ε ρ) where
  init := ⟨M.init, 0, fun _ => none, fun _ => none, ⟨[], [], []⟩⟩
  step := step M

/-- The same chains on two stores. -/
structure Alike (R : σ → τ → Prop) (m : FutureChains σ ν ε ρ) (n : FutureChains τ ν ε ρ) :
    Prop where
  store : R m.store n.store
  next : m.next = n.next
  inputs : m.inputs = n.inputs
  roots : m.roots = n.roots
  journal : m.journal = n.journal

variable {M} {N : Machine (τ × List (ChainOutput ν ε ρ)) (ChainOp ν ε ρ)}
  {R : σ × List (ChainOutput ν ε ρ) → τ × List (ChainOutput ν ε ρ) → Prop}

/-- The chains do the same on stores that are in lockstep and show the same. -/
theorem lockstep (h : Machine.Lockstep M N R) (hout : ∀ s t, R s t → s.2 = t.2) :
    Machine.Lockstep (machine M) (machine N) (Alike R) where
  init := ⟨h.init, rfl, rfl, rfl, rfl⟩
  step := by
    rintro ⟨store, next, inputs, roots, journal⟩ ⟨store', _, _, _, _⟩ op
      ⟨hstore, rfl, rfl, rfl, rfl⟩
    cases op with
    | start p =>
      exact rel_map (h.exec hstore _) fun _ _ hst => ⟨hst, rfl, rfl, rfl, rfl⟩
    | attach i k =>
      refine rel_bind_same (roots i) fun f => ?_
      exact rel_map (h.exec hstore _) fun _ _ hst => ⟨hst, rfl, rfl, rfl, rfl⟩
    | answer i r =>
      refine rel_bind_same (inputs i) fun a => ?_
      exact rel_map (h.exec hstore _) fun _ _ hst => ⟨hst, rfl, rfl, rfl, rfl⟩
    | run =>
      refine rel_bind (h.step _ _ .run hstore) fun s t hst => ?_
      rw [hout s t hst]
      split
      · refine rel_bind_same _ fun r => ?_
        exact rel_map (h.exec hst _) fun _ _ hst => ⟨hst, rfl, rfl, rfl, rfl⟩
      · exact .none
    | take i =>
      refine rel_bind_same (roots i) fun f => rel_bind (h.step _ _ (.get f) hstore) ?_
      intro s t hst
      rw [hout s t hst]
      split
      · exact rel_map (h.step _ _ _ hst) fun _ _ hst => ⟨hst, rfl, rfl, rfl, rfl⟩
      · exact .none

end FutureChains

end Miniss
