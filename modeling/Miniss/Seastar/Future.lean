import Miniss.Util.SystemError

/-! `future` and `promise`. The two ends keep track of each other when they are moved, so they
are modelled by what they hold, and a pointer between them by whether it is null. An operation
whose assertion fails gives `none`. -/
namespace Miniss
variable {ν φ : Type*}

inductive FutureState (ν : Type*) where
  | invalid
  | future
  | result (v : ν)
  | exception (e : Exn)
  deriving DecidableEq

namespace FutureState

def available : FutureState ν → Bool
  | .result _ | .exception _ => true
  | _ => false

def ofResult : Except Exn ν → FutureState ν
  | .ok v => .result v
  | .error e => .exception e

def set (s : FutureState ν) (r : Except Exn ν) : Option (FutureState ν) :=
  match s with
  | .future => some (ofResult r)
  | _ => none

def result? : FutureState ν → Option (Except Exn ν)
  | .result v => some (.ok v)
  | .exception e => some (.error e)
  | _ => none

/-- The state that an input has given to its future. -/
def ofOutcome : Option (Except Exn ν) → FutureState ν
  | some r => .ofResult r
  | none => .future

@[simp] theorem available_ofResult (r : Except Exn ν) : (ofResult r).available = true := by
  cases r <;> rfl

@[simp] theorem result_ofResult (r : Except Exn ν) : (ofResult r).result? = some r := by
  cases r <;> rfl

end FutureState

/-- `continuation`, with its `_state` and `_func`. -/
structure Continuation (ν φ : Type*) where
  state : FutureState ν
  func : φ

/-- Where `_state` of a promise points: nowhere, to its `_local_state`, or to the state of its
`_task`. -/
inductive StatePtr where
  | null
  | localState
  | task
  deriving DecidableEq

/-- `future` tells whether `_future` is not null. -/
structure Promise (ν φ : Type*) where
  future : Bool
  localState : FutureState ν
  state : StatePtr
  task : Option (Continuation ν φ)

/-- `promise` tells whether `_promise` is not null. -/
structure Future (ν : Type*) where
  promise : Bool
  localState : FutureState ν

namespace Promise

def new : Promise ν φ := ⟨false, .future, .localState, none⟩

def deref (p : Promise ν φ) : Option (FutureState ν) :=
  match p.state with
  | .null => none
  | .localState => some p.localState
  | .task => p.task.map Continuation.state

def assign (p : Promise ν φ) (s : FutureState ν) : Promise ν φ :=
  match p.state with
  | .null => p
  | .localState => { p with localState := s }
  | .task => { p with task := p.task.map fun c => { c with state := s } }

def getFuture (p : Promise ν φ) : Option (Promise ν φ × Future ν) :=
  match p.future, p.state, p.task with
  | true, _, _ => none
  | _, .null, _ => none
  | _, _, some _ => none
  | false, _, none => some ({ p with future := true }, ⟨true, .future⟩)

/-- `make_ready`, with the continuation that is scheduled. -/
def makeReady (p : Promise ν φ) : Promise ν φ × Option (Continuation ν φ) :=
  match p.task with
  | some c => ({ p with state := .null, task := none }, some c)
  | none => (p, none)

def set (p : Promise ν φ) (r : Except Exn ν) :
    Option (Promise ν φ × Option (Continuation ν φ)) :=
  match p.deref with
  | none => none
  | some s => (s.set r).map fun s => (p.assign s).makeReady

/-- `~promise`, by `abandoned`: its future gets the state. A `_task` is destroyed with the
promise. -/
def destroy (p : Promise ν φ) (f : Future ν) : Option (Future ν × Option (Continuation ν φ)) :=
  match p.future, p.deref with
  | false, _ => some (f, p.task)
  | true, none => none
  | true, some s => if s.available ∨ p.task.isNone then some (⟨false, s⟩, p.task) else none

end Promise

namespace Future

/-- What `state` refers to, for a future with the given promise. -/
def deref (f : Future ν) (p : Option (Promise ν φ)) : Option (FutureState ν) :=
  if f.promise then p.bind Promise.deref else some f.localState

/-- `schedule`: the continuation is scheduled when the state is available, and else it becomes
the `_task` of the promise. -/
def schedule (f : Future ν) (p : Option (Promise ν φ)) (func : φ) :
    Option (Future ν × Option (Promise ν φ) × Option (Continuation ν φ)) :=
  match f.deref p with
  | none => none
  | some s =>
    if s.available then
      let moved : Future ν × Option (Promise ν φ) :=
        if f.promise then (f, p.map fun p => p.assign .invalid)
        else ({ f with localState := .invalid }, p)
      some (moved.1, moved.2, some ⟨s, func⟩)
    else
      match f.promise, p with
      | true, some p => some ({ f with promise := false },
          some { p with future := false, state := .task, task := some ⟨.future, func⟩ }, none)
      | _, _ => none

/-- A future that is not available and has no promise fails the assertion. -/
theorem schedule_dead {y : FutureState ν} (hy : y.available = false)
    (p : Option (Promise ν φ)) (fn : φ) : (mk false y).schedule p fn = none := by
  simp [schedule, deref, hy]

/-- `get`, of an available future: what it returns or throws, and what becomes of the future and
its promise. -/
def get (f : Future ν) (p : Option (Promise ν φ)) :
    Option (Except Exn ν × Future ν × Option (Promise ν φ)) :=
  ((f.deref p).bind FutureState.result?).map fun r =>
    if f.promise then
      (r, { f with promise := false }, p.map fun p => { p.assign .invalid with future := false })
    else (r, { f with localState := .invalid }, p)

/-- `~future`: its promise forgets it. -/
def destroy (f : Future ν) (p : Option (Promise ν φ)) : Option (Promise ν φ) :=
  if f.promise then p.map fun p => { p with future := false } else p

/-- `forward_to`, of an available future and a promise: the promise, and what it schedules. -/
def forwardTo (f : Future ν) (p : Option (Promise ν φ)) {ψ : Type*} (pr : Promise ν ψ) :
    Option (Promise ν ψ × Option (Continuation ν ψ)) :=
  ((f.deref p).bind FutureState.result?).bind pr.set

end Future

/-- A promise and its future, to which nothing is attached, is resolved at most once. -/
theorem Promise.set_linked {o : Option (Except Exn ν)} {r : Except Exn ν}
    {d : Promise ν φ × Option (Continuation ν φ)} :
    (Promise.mk true (.ofOutcome o) .localState none : Promise ν φ).set r = some d ↔
      o = none ∧ d = (⟨true, .ofResult r, .localState, none⟩, none) := by
  cases o with
  | none =>
    constructor
    · intro h
      cases h
      exact ⟨rfl, rfl⟩
    · rintro ⟨-, rfl⟩
      rfl
  | some q =>
    constructor
    · intro h
      cases q <;> cases h
    · rintro ⟨h, -⟩
      cases h

/-- The future keeps what the promise had. -/
theorem Promise.destroy_linked (o : Option (Except Exn ν)) (f : Future ν) :
    (Promise.mk true (.ofOutcome o) .localState none : Promise ν φ).destroy f =
      some (⟨false, .ofOutcome o⟩, none) := by
  cases o with
  | none => rfl
  | some q => cases q <;> rfl

/-- The promise of an input that nothing will come from any more: it is destroyed, its
continuation was scheduled, or its value was taken. -/
inductive Promise.Spent : Option (Promise ν φ) → Prop where
  | destroyed : Spent none
  | fired (x : FutureState ν) : Spent (some ⟨false, x, .null, none⟩)
  | taken : Spent (some ⟨false, .invalid, .localState, none⟩)

theorem Promise.Spent.set_eq_none {p : Promise ν φ} (h : Spent (some p))
    (r : Except Exn ν) : p.set r = none := by
  cases h <;> rfl

theorem Promise.Spent.destroy_eq {p : Promise ν φ} (h : Spent (some p))
    (f : Future ν) : p.destroy f = some (f, none) := by
  cases h <;> rfl

end Miniss
