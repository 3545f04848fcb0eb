import Miniss.Seastar.Computation
import Miniss.Lib.Machine
import Mathlib.Logic.Function.Basic

/-! Chains of futures as cooperative threads: each fiber has a point where it stands and a stack
of callbacks, the innermost first. The fibers whose callback can be called take turns. -/
namespace Miniss

variable {ν ε ρ : Type*}

/-- What was asked for and what came of it, fiber by fiber. -/
structure Journal (ν ε ρ : Type*) where
  started : List (Computation ν ε ρ)
  log : List (ℕ × Event ν ε ρ)
  results : List (ℕ × Except Exn ν)

namespace Journal

def start (j : Journal ν ε ρ) (p : Computation ν ε ρ) : Journal ν ε ρ :=
  { j with started := j.started ++ [p] }

def attach (j : Journal ν ε ρ) (i : ℕ) (k : Callback ν ε ρ) : Journal ν ε ρ :=
  { j with started := j.started.modify i (·.attach k) }

def note (j : Journal ν ε ρ) (i : ℕ) (es : List (Event ν ε ρ)) : Journal ν ε ρ :=
  { j with log := j.log ++ es.map (i, ·) }

def take (j : Journal ν ε ρ) (i : ℕ) (r : Except Exn ν) : Journal ν ε ρ :=
  { j with results := j.results ++ [(i, r)] }

def events (j : Journal ν ε ρ) (i : ℕ) : List (Event ν ε ρ) :=
  j.log.filterMap fun e => if e.1 = i then some e.2 else none

theorem events_note (j : Journal ν ε ρ) (i i' : ℕ) (es : List (Event ν ε ρ)) :
    (j.note i es).events i' = j.events i' ++ if i' = i then es else [] := by
  rw [events, note, List.filterMap_append, List.filterMap_map]
  congr 1
  split
  · next h => simp [h]
  · next h => simp [Ne.symm h]

theorem started_attach (j : Journal ν ε ρ) (i i' : ℕ) (k : Callback ν ε ρ) :
    (j.attach i k).started[i']? =
      if i' = i then j.started[i']?.map (·.attach k) else j.started[i']? := by
  rw [attach, List.getElem?_modify]
  split
  · next h => rw [if_pos h.symm]; rfl
  · next h => rw [if_neg (Ne.symm h)]; exact Option.map_id'

end Journal

/-- What the client and the world around do: start a computation, attach a callback to the future
of a fiber, answer the request of a fiber, run the next task and take the result of a fiber. -/
inductive FiberOp (ν ε ρ : Type*)
  | start (p : Computation ν ε ρ)
  | attach (i : ℕ) (k : Callback ν ε ρ)
  | answer (i : ℕ) (r : Except Exn ν)
  | run
  | take (i : ℕ)

inductive Point (ν ρ : Type*)
  | answer (r : Except Exn ν)
  | request (q : ρ)

structure Fiber (ν ε ρ : Type*) where
  point : Point ν ρ
  stack : List (Callback ν ε ρ)

namespace Fiber

def under (x : Fiber ν ε ρ) (ks : List (Callback ν ε ρ)) : Fiber ν ε ρ :=
  { x with stack := x.stack ++ ks }

def runnable : Fiber ν ε ρ → Bool
  | ⟨.answer _, _ :: _⟩ => true
  | _ => false

theorem runnable_under {x : Fiber ν ε ρ} (hx : x.runnable) (ks : List (Callback ν ε ρ)) :
    (x.under ks).runnable = true := by
  obtain ⟨point, stack⟩ := x
  cases point with
  | request q => cases hx
  | answer r =>
    cases stack with
    | nil => cases hx
    | cons k stack => rfl

end Fiber

/-- What a computation does at once, and where it stands then. -/
def Computation.enter : Computation ν ε ρ → List (Event ν ε ρ) × Fiber ν ε ρ
  | .ready r => ([], ⟨.answer r, []⟩)
  | .request q => ([], ⟨.request q, []⟩)
  | .emit e p => (.emitted e :: p.enter.1, p.enter.2)
  | .then_ p func => (p.enter.1, p.enter.2.under [.value func])
  | .thenWrapped p func => (p.enter.1, p.enter.2.under [.wrapped func])

/-- A fiber is gone when its result is taken. -/
structure Fibers (ν ε ρ : Type*) where
  fiber : ℕ → Option (Fiber ν ε ρ)
  queue : List ℕ
  journal : Journal ν ε ρ

namespace Fibers

/-- Fiber `i` stands at `x` from now on, and is queued when it can run. -/
def resume (t : Fibers ν ε ρ) (i : ℕ) (x : Fiber ν ε ρ) (es : List (Event ν ε ρ)) :
    Fibers ν ε ρ where
  fiber := Function.update t.fiber i (some x)
  queue := t.queue ++ if x.runnable then [i] else []
  journal := t.journal.note i es

theorem resume_fiber (t : Fibers ν ε ρ) (i i' : ℕ) (x : Fiber ν ε ρ)
    (es : List (Event ν ε ρ)) :
    (t.resume i x es).fiber i' = if i' = i then some x else t.fiber i' :=
  Function.update_apply ..

theorem resume_events (t : Fibers ν ε ρ) (i i' : ℕ) (x : Fiber ν ε ρ)
    (es : List (Event ν ε ρ)) : (t.resume i x es).journal.events i' =
      t.journal.events i' ++ if i' = i then es else [] :=
  t.journal.events_note i i' es

def start (t : Fibers ν ε ρ) (p : Computation ν ε ρ) : Fibers ν ε ρ :=
  ({ t with journal := t.journal.start p } : Fibers ν ε ρ).resume t.journal.started.length
    p.enter.2 p.enter.1

/-- A fiber that can run has its turn in the queue. -/
def attach (t : Fibers ν ε ρ) (i : ℕ) (k : Callback ν ε ρ) : Option (Fibers ν ε ρ) :=
  (t.fiber i).map fun x =>
    { fiber := Function.update t.fiber i (some (x.under [k]))
      queue := t.queue ++ if x.runnable then [] else if (x.under [k]).runnable then [i] else []
      journal := t.journal.attach i k }

def answer (t : Fibers ν ε ρ) (i : ℕ) (r : Except Exn ν) : Option (Fibers ν ε ρ) :=
  match t.fiber i with
  | some ⟨.request q, ks⟩ => some (t.resume i ⟨.answer r, ks⟩ [.answered q r])
  | _ => none

def run (t : Fibers ν ε ρ) : Option (Fibers ν ε ρ) :=
  match t.queue with
  | [] => none
  | i :: queue =>
    match t.fiber i with
    | some ⟨.answer r, k :: ks⟩ => some (({ t with queue := queue } : Fibers ν ε ρ).resume i
        ((k.apply r).enter.2.under ks) (k.apply r).enter.1)
    | _ => none

def take (t : Fibers ν ε ρ) (i : ℕ) : Option (Fibers ν ε ρ) :=
  match t.fiber i with
  | some ⟨.answer r, []⟩ =>
    some { t with fiber := Function.update t.fiber i none, journal := t.journal.take i r }
  | _ => none

def step (t : Fibers ν ε ρ) : FiberOp ν ε ρ → Option (Fibers ν ε ρ)
  | .start p => some (t.start p)
  | .attach i k => t.attach i k
  | .answer i r => t.answer i r
  | .run => t.run
  | .take i => t.take i

def machine : Machine (Fibers ν ε ρ) (FiberOp ν ε ρ) where
  init := ⟨fun _ => none, [], ⟨[], [], []⟩⟩
  step := step

end Fibers

end Miniss
