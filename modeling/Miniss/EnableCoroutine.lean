import Mathlib.Logic.Function.Basic
import Miniss.Lib.Dialogue
import Miniss.Lib.Machine
import Miniss.Seastar.Future

/-! Coroutines over futures: the promise in the frame, the awaiter of a `co_await`, and the
continuation that resumes the body. The body is a dialogue: it asks for the results of the
futures it awaits, and in the end it gives what it `co_return`s or the exception that escapes.
The promises of the awaited futures belong to others, who resolve or destroy them in any order,
before the await or later. -/
namespace Miniss
variable {σ ι ν ρ : Type*}

/-- A body that stands at a `σ`, awaits `future<ν>`s with the names `ι` and returns a
`future<ρ>`. -/
abbrev CoroutineBody (σ ι ν ρ : Type*) := Dialogue σ ι (Except Exn ν) (Except Exn ρ)

/-- What `await_suspend` puts into its continuation: the promise of the future that
`then_wrapped` returns, and the function, with `this` and `handle`. `awaiter` names the future
that was moved into the awaiter. -/
structure AwaitFunc (ι : Type*) where
  pr : Promise Unit Empty
  awaiter : ι

/-- A future that the body may await: its promise, while there is one, and the future, which is
`fut_` of the awaiter once it was moved there. `outcome` records what it was resolved with. -/
structure CoroutineInput (ι ν : Type*) where
  promise : Option (Promise ν (AwaitFunc ι))
  future : Future ν
  outcome : Option (Except Exn ν)

/-- The frame, with `pr_` of its `promise_type`, the place of the body, and the awaiter that the
body is suspended in. -/
structure CoroutineFrame (σ ι ρ : Type*) where
  pr_ : Promise ρ Unit
  body : σ
  suspended : Option ι

/-- A call of a coroutine. `future` is the one that was returned. `tasks` holds the continuations
of `await_suspend` on `task_queue_`, `scheduled` what the caller attached and is scheduled,
`yielded` what each `await_resume` gave so far, and `resolved` how often `pr_` was. -/
structure Coroutine (σ ι ν ρ : Type*) where
  inputs : ι → CoroutineInput ι ν
  tasks : List (Continuation ν (AwaitFunc ι))
  called : Bool
  frame : Option (CoroutineFrame σ ι ρ)
  future : Future ρ
  scheduled : List (Continuation ρ Unit)
  yielded : List (ι × Except Exn ν)
  resolved : Nat

namespace CoroutineInput

/-- A future at first: it is ready and has no promise, or it has one. -/
def input : Option (Except Exn ν) → CoroutineInput ι ν
  | some r => ⟨none, ⟨false, .ofResult r⟩, some r⟩
  | none => ⟨some { Promise.new with future := true }, ⟨true, .future⟩, none⟩

/-- Its promise is destroyed and never resolved it. -/
def Abandoned (a : CoroutineInput ι ν) : Prop := a.promise = none ∧ a.outcome = none

def awaitReady (a : CoroutineInput ι ν) : Option Bool :=
  (a.future.deref a.promise).map FutureState.available

/-- `await_suspend`, with the continuation that is scheduled at once. The future that
`then_wrapped` returns is dropped. -/
def awaitSuspend (a : CoroutineInput ι ν) (i : ι) :
    Option (CoroutineInput ι ν × Option (Continuation ν (AwaitFunc ι))) :=
  match (Promise.new : Promise Unit Empty).getFuture with
  | none => none
  | some (pr, fut) =>
    match fut.destroy (some pr) with
    | none => none
    | some pr => (a.future.schedule a.promise ⟨pr, i⟩).map fun d =>
        ({ a with future := d.1, promise := d.2.1 }, d.2.2)

/-- `fut_ = std::move(f)`, for a ready future with the given state. -/
def refill (a : CoroutineInput ι ν) (st : FutureState ν) : CoroutineInput ι ν :=
  { a with promise := a.future.destroy a.promise, future := ⟨false, st⟩ }

def awaitResume (a : CoroutineInput ι ν) : Option (Except Exn ν × CoroutineInput ι ν) :=
  (a.future.get a.promise).map fun d => (d.1, { a with future := d.2.1, promise := d.2.2 })

end CoroutineInput

namespace CoroutineFrame

def returnValue (fr : CoroutineFrame σ ι ρ) (v : ρ) :
    Option (Promise ρ Unit × Option (Continuation ρ Unit)) := fr.pr_.set (.ok v)

def unhandledException (fr : CoroutineFrame σ ι ρ) (e : Exn) :
    Option (Promise ρ Unit × Option (Continuation ρ Unit)) := fr.pr_.set (.error e)

end CoroutineFrame

/-- What can happen next: the promise of an awaited future is resolved or destroyed, the coroutine
is called, its body goes on to the next `co_await` or to its end, the front continuation runs,
and the caller attaches one to the returned future. -/
inductive CoroutineAct (ι ν : Type*) where
  | resolve (i : ι) (r : Except Exn ν)
  | destroy (i : ι)
  | call
  | go
  | run
  | attach

namespace Coroutine
variable [DecidableEq ι]

def init (inputs : ι → Option (Except Exn ν)) : Coroutine σ ι ν ρ where
  inputs i := .input (inputs i)
  tasks := []
  called := false
  frame := none
  future := ⟨false, .invalid⟩
  scheduled := []
  yielded := []
  resolved := 0

/-- The frame is made, with `get_return_object`; `initial_suspend` never does. -/
def call (D : CoroutineBody σ ι ν ρ) (s : Coroutine σ ι ν ρ) : Option (Coroutine σ ι ν ρ) :=
  (Promise.new : Promise ρ Unit).getFuture.map fun d =>
    { s with called := true, frame := some ⟨d.1, D.start, none⟩, future := d.2 }

def resume (D : CoroutineBody σ ι ν ρ) (s : Coroutine σ ι ν ρ) (fr : CoroutineFrame σ ι ρ)
    (i : ι) : Option (Coroutine σ ι ν ρ) :=
  (s.inputs i).awaitResume.map fun d =>
    { s with
      inputs := Function.update s.inputs i d.2
      frame := some { fr with body := D.resume fr.body d.1, suspended := none }
      yielded := s.yielded ++ [(i, d.1)] }

/-- The body ends, with what became of `pr_`. As `final_suspend` never does, that is destroyed
with the frame. -/
def finish (s : Coroutine σ ι ν ρ)
    (set : Option (Promise ρ Unit × Option (Continuation ρ Unit))) :
    Option (Coroutine σ ι ν ρ) :=
  match set with
  | none => none
  | some (p, c) => (p.destroy s.future).map fun d =>
      { s with
        frame := none
        future := d.1
        scheduled := s.scheduled ++ c.toList
        resolved := s.resolved + 1 }

def go (D : CoroutineBody σ ι ν ρ) (s : Coroutine σ ι ν ρ) : Option (Coroutine σ ι ν ρ) :=
  match s.frame with
  | none => none
  | some fr =>
    match fr.suspended, D.point fr.body with
    | some _, _ => none
    | none, .done (.ok v) => s.finish (fr.returnValue v)
    | none, .done (.error e) => s.finish (fr.unhandledException e)
    | none, .ask i =>
      match (s.inputs i).awaitReady with
      | none => none
      | some true => s.resume D fr i
      | some false => ((s.inputs i).awaitSuspend i).map fun d =>
          { s with
            inputs := Function.update s.inputs i d.1
            tasks := s.tasks ++ d.2.toList
            frame := some { fr with suspended := some i } }

/-- `run` of the front continuation. The awaiter that `this` points to must still be there. The
promise of the continuation is resolved in the end. -/
def run (D : CoroutineBody σ ι ν ρ) (s : Coroutine σ ι ν ρ) : Option (Coroutine σ ι ν ρ) :=
  match s.tasks, s.frame with
  | c :: rest, some fr =>
    let i := c.func.awaiter
    if fr.suspended = some i then
      let t := { s with
        tasks := rest
        inputs := Function.update s.inputs i ((s.inputs i).refill c.state) }
      match t.resume D fr i,
        (Future.mk false (.result ())).forwardTo (none : Option (Promise Unit Empty)) c.func.pr with
      | some t, some _ => some t
      | _, _ => none
    else none
  | _, _ => none

def resolve (s : Coroutine σ ι ν ρ) (i : ι) (r : Except Exn ν) : Option (Coroutine σ ι ν ρ) :=
  match (s.inputs i).promise with
  | none => none
  | some p => (p.set r).map fun d =>
      { s with
        inputs := Function.update s.inputs i
          { s.inputs i with promise := some d.1, outcome := some r }
        tasks := s.tasks ++ d.2.toList }

/-- `~promise` of an awaited future, and the destruction of its `_task`. -/
def destroy (s : Coroutine σ ι ν ρ) (i : ι) : Option (Coroutine σ ι ν ρ) :=
  match (s.inputs i).promise with
  | none => none
  | some p => (p.destroy (s.inputs i).future).map fun d =>
      { s with
        inputs := Function.update s.inputs i { s.inputs i with promise := none, future := d.1 } }

def attach (s : Coroutine σ ι ν ρ) : Option (Coroutine σ ι ν ρ) :=
  (s.future.schedule (s.frame.map CoroutineFrame.pr_) ()).map fun d =>
    { s with
      future := d.1
      frame := s.frame.bind fun fr => d.2.1.map fun p => { fr with pr_ := p }
      scheduled := s.scheduled ++ d.2.2.toList }

/-- What the returned future has, or what the caller's continuation got from it. -/
def value (s : Coroutine σ ι ν ρ) : FutureState ρ :=
  match s.scheduled with
  | c :: _ => c.state
  | [] => (s.future.deref (s.frame.map CoroutineFrame.pr_)).getD .invalid

def Ended (s : Coroutine σ ι ν ρ) : Prop := s.called = true ∧ s.frame = none

/-- These answers are what the awaited futures were resolved with, as far as they were. -/
def Agrees (s : Coroutine σ ι ν ρ) (o : ι → Except Exn ν) : Prop :=
  ∀ i r, (s.inputs i).outcome = some r → o i = r

def step (D : CoroutineBody σ ι ν ρ) (s : Coroutine σ ι ν ρ) :
    CoroutineAct ι ν → Option (Coroutine σ ι ν ρ)
  | .resolve i r => s.resolve i r
  | .destroy i => s.destroy i
  | .call => if s.called then none else s.call D
  | .go => s.go D
  | .run => s.run D
  | .attach => s.attach

end Coroutine

def coroutineMachine [DecidableEq ι] (D : CoroutineBody σ ι ν ρ)
    (inputs : ι → Option (Except Exn ν)) :
    Machine (Coroutine σ ι ν ρ) (CoroutineAct ι ν) where
  init := .init inputs
  step := Coroutine.step D

end Miniss
