import Miniss.Seastar.Future
import Miniss.Lib.Machine
import Mathlib.Logic.Function.Basic

/-! `future` and `promise` as objects in memory, with the pointers between them. An operation
that follows a null pointer or one to an object that is gone, or whose assertion fails, gives
`none`. -/
namespace Miniss

/-- A pointer to a `future_state`: the `_local_state` of the promise or of the future at an
address, or the `_state` of a task. -/
inductive StatePointer (κ ι : Type*) where
  | nullptr
  | promise (a : κ)
  | future (f : ι)
  | task (t : ℕ)
  deriving DecidableEq

structure PromiseObject (κ ι ν : Type*) where
  future : Option ι
  localState : FutureState ν
  state : StatePointer κ ι
  task : Option ℕ

structure FutureObject (κ ν : Type*) where
  promise : Option κ
  localState : FutureState ν

/-- What an operation shows to the rest of the program: whether a future is available or failed,
what `get` returns or throws, the continuation that is run, an exception given to
`report_failed_future`, and the function of a continuation that is destroyed. -/
inductive FutureOutput (ν φ : Type*) where
  | available (b : Bool)
  | failed (b : Bool)
  | got (r : Except Exn ν)
  | called (k : Continuation ν φ)
  | reported (e : Exn)
  | dropped (func : φ)

def FutureState.failed {ν : Type*} : FutureState ν → Bool
  | .exception _ => true
  | _ => false

def FutureState.report {ν φ : Type*} : FutureState ν → List (FutureOutput ν φ)
  | .exception e => [.reported e]
  | _ => []

/-- The operations, with the addresses that the program chooses for new objects. -/
inductive FutureOp (κ ι ν φ : Type*) where
  | newPromise (a : κ)
  | movePromise (a x : κ)
  | assignPromise (a x : κ)
  | destroyPromise (a : κ)
  | getFuture (a : κ) (f : ι)
  | set (a : κ) (r : Except Exn ν)
  | readyFuture (f : ι) (r : Except Exn ν)
  | moveFuture (f x : ι)
  | assignFuture (f x : ι)
  | destroyFuture (f : ι)
  | available (f : ι)
  | failed (f : ι)
  | schedule (f : ι) (func : φ)
  | get (f : ι)
  | ignore (f : ι)
  | forwardTo (f : ι) (a : κ)
  | run

/-- The objects, by their addresses. Every task gets an address of its own. -/
structure FutureHeap (κ ι ν φ : Type*) where
  promises : κ → Option (PromiseObject κ ι ν)
  futures : ι → Option (FutureObject κ ν)
  tasks : ℕ → Option (Continuation ν φ)
  nextTask : ℕ
  taskQueue : List ℕ

namespace FutureHeap
variable {κ ι ν φ : Type*}

def state (h : FutureHeap κ ι ν φ) (f : ι) : Option (StatePointer κ ι) :=
  (h.futures f).bind fun x =>
    match x.promise with
    | none => some (.future f)
    | some a => (h.promises a).map PromiseObject.state

def deref (h : FutureHeap κ ι ν φ) : StatePointer κ ι → Option (FutureState ν)
  | .nullptr => none
  | .promise a => (h.promises a).map PromiseObject.localState
  | .future f => (h.futures f).map FutureObject.localState
  | .task t => (h.tasks t).map Continuation.state

def look (h : FutureHeap κ ι ν φ) (f : ι) : Option (FutureState ν) :=
  (h.state f).bind h.deref

variable [DecidableEq κ] [DecidableEq ι]

def modifyPromise (h : FutureHeap κ ι ν φ) (a : κ)
    (g : PromiseObject κ ι ν → PromiseObject κ ι ν) : Option (FutureHeap κ ι ν φ) :=
  (h.promises a).map fun p => { h with promises := Function.update h.promises a (some (g p)) }

def modifyFuture (h : FutureHeap κ ι ν φ) (f : ι) (g : FutureObject κ ν → FutureObject κ ν) :
    Option (FutureHeap κ ι ν φ) :=
  (h.futures f).map fun x => { h with futures := Function.update h.futures f (some (g x)) }

def assign (h : FutureHeap κ ι ν φ) (p : StatePointer κ ι) (s : FutureState ν) :
    Option (FutureHeap κ ι ν φ) :=
  match p with
  | .nullptr => none
  | .promise a => h.modifyPromise a fun p => { p with localState := s }
  | .future f => h.modifyFuture f fun x => { x with localState := s }
  | .task t => (h.tasks t).map fun c =>
      { h with tasks := Function.update h.tasks t (some { c with state := s }) }

/-- `promise()`, at an address where nothing is. -/
def newPromise (h : FutureHeap κ ι ν φ) (a : κ) : Option (FutureHeap κ ι ν φ) :=
  match h.promises a with
  | some _ => none
  | none => some { h with
      promises := Function.update h.promises a (some ⟨none, .future, .promise a, none⟩) }

def migrated (h : FutureHeap κ ι ν φ) (a : κ) : Option (FutureHeap κ ι ν φ) :=
  (h.promises a).bind fun p =>
    match p.future with
    | none => some h
    | some f => h.modifyFuture f fun x => { x with promise := some a }

/-- `promise(promise&& x)`, at an address where nothing is. -/
def movePromise (h : FutureHeap κ ι ν φ) (a x : κ) : Option (FutureHeap κ ι ν φ) :=
  match h.promises a, h.promises x with
  | none, some p =>
    let moved : PromiseObject κ ι ν × FutureState ν :=
      if p.state = .promise x then ({ p with state := .promise a }, .invalid)
      else ({ p with localState := .future }, p.localState)
    migrated { h with
      promises := Function.update (Function.update h.promises x
        (some ⟨none, moved.2, .nullptr, none⟩)) a (some moved.1) } a
  | _, _ => none

/-- `abandoned`. A failure that no future gets is reported. -/
def abandoned (h : FutureHeap κ ι ν φ) (a : κ) :
    Option (FutureHeap κ ι ν φ × List (FutureOutput ν φ)) :=
  (h.promises a).bind fun p =>
    match p.future with
    | some f => (h.deref p.state).bind fun s =>
        if s.available ∨ p.task.isNone then
          (h.assign p.state .invalid).bind fun h =>
            (h.modifyFuture f fun x => { x with localState := s, promise := none }).map
              fun h => (h, [])
        else none
    | none => if p.state = .nullptr then some (h, []) else
        (h.deref p.state).map fun s => (h, s.report)

/-- `~promise`. The continuation of the promise is destroyed with it. -/
def destroyPromise (h : FutureHeap κ ι ν φ) (a : κ) :
    Option (FutureHeap κ ι ν φ × List (FutureOutput ν φ)) :=
  (h.abandoned a).bind fun d => (d.1.promises a).bind fun p =>
    match p.task with
    | none => some ({ d.1 with promises := Function.update d.1.promises a none }, d.2)
    | some t => (d.1.tasks t).map fun k =>
        ({ d.1 with
            promises := Function.update d.1.promises a none
            tasks := Function.update d.1.tasks t none }, d.2 ++ [.dropped k.func])

def assignPromise (h : FutureHeap κ ι ν φ) (a x : κ) :
    Option (FutureHeap κ ι ν φ × List (FutureOutput ν φ)) :=
  if a = x then (h.promises a).map fun _ => (h, [])
  else (h.destroyPromise a).bind fun d => (d.1.movePromise a x).map fun h => (h, d.2)

def getFuture (h : FutureHeap κ ι ν φ) (a : κ) (f : ι) : Option (FutureHeap κ ι ν φ) :=
  match h.promises a, h.futures f with
  | some p, none =>
    if p.future = none ∧ p.state ≠ .nullptr ∧ p.task = none then
      some { h with
        promises := Function.update h.promises a (some { p with future := some f })
        futures := Function.update h.futures f (some ⟨some a, .future⟩) }
    else none
  | _, _ => none

/-- `make_ready`. There is always a need to preempt. -/
def makeReady (h : FutureHeap κ ι ν φ) (a : κ) : Option (FutureHeap κ ι ν φ) :=
  (h.promises a).map fun p =>
    match p.task with
    | none => h
    | some t => { h with
        promises := Function.update h.promises a (some { p with state := .nullptr, task := none })
        taskQueue := h.taskQueue ++ [t] }

def set (h : FutureHeap κ ι ν φ) (a : κ) (r : Except Exn ν) : Option (FutureHeap κ ι ν φ) :=
  (h.promises a).bind fun p => (h.deref p.state).bind fun s => (s.set r).bind fun s =>
    (h.assign p.state s).bind fun h => h.makeReady a

/-- `make_ready_future` and `make_exception_future`, at an address where nothing is. -/
def readyFuture (h : FutureHeap κ ι ν φ) (f : ι) (r : Except Exn ν) :
    Option (FutureHeap κ ι ν φ) :=
  match h.futures f with
  | some _ => none
  | none => some { h with
      futures := Function.update h.futures f (some ⟨none, .ofResult r⟩) }

/-- `future(future&& x)`, at an address where nothing is. -/
def moveFuture (h : FutureHeap κ ι ν φ) (f x : ι) : Option (FutureHeap κ ι ν φ) :=
  match h.futures f, h.futures x with
  | none, some o =>
    match o.promise with
    | none => some { h with
        futures := Function.update (Function.update h.futures x
          (some { o with localState := .invalid })) f (some o) }
    | some a => modifyPromise { h with
        futures := Function.update (Function.update h.futures x
          (some { o with promise := none })) f (some ⟨some a, .future⟩) } a
        fun p => { p with future := some f }
  | _, _ => none

def detach (h : FutureHeap κ ι ν φ) (f : ι) : Option (FutureHeap κ ι ν φ) :=
  (h.futures f).bind fun x =>
    match x.promise with
    | none => some h
    | some a => h.modifyPromise a fun p => { p with future := none }

/-- `~future`. A failure is reported. -/
def destroyFuture (h : FutureHeap κ ι ν φ) (f : ι) :
    Option (FutureHeap κ ι ν φ × List (FutureOutput ν φ)) :=
  (h.detach f).bind fun h => (h.look f).map fun s =>
    ({ h with futures := Function.update h.futures f none }, s.report)

def assignFuture (h : FutureHeap κ ι ν φ) (f x : ι) :
    Option (FutureHeap κ ι ν φ × List (FutureOutput ν φ)) :=
  if f = x then (h.futures f).map fun _ => (h, [])
  else (h.destroyFuture f).bind fun d => (d.1.moveFuture f x).map fun h => (h, d.2)

/-- `promise::schedule`. The task that the promise had is destroyed. -/
def attach (h : FutureHeap κ ι ν φ) (a : κ) (func : φ) : Option (FutureHeap κ ι ν φ) :=
  (h.promises a).map fun p =>
    let tasks := match p.task with
      | none => h.tasks
      | some t => Function.update h.tasks t none
    { h with
      promises := Function.update h.promises a
        (some { p with state := .task h.nextTask, task := some h.nextTask })
      tasks := Function.update tasks h.nextTask (some ⟨.future, func⟩)
      nextTask := h.nextTask + 1 }

def schedule (h : FutureHeap κ ι ν φ) (f : ι) (func : φ) : Option (FutureHeap κ ι ν φ) :=
  (h.futures f).bind fun x => (h.state f).bind fun p => (h.deref p).bind fun s =>
    if s.available then
      (h.assign p .invalid).map fun h => { h with
        tasks := Function.update h.tasks h.nextTask (some ⟨s, func⟩)
        nextTask := h.nextTask + 1
        taskQueue := h.taskQueue ++ [h.nextTask] }
    else x.promise.bind fun a => (h.attach a func).bind fun h =>
      (h.detach f).bind fun h => h.modifyFuture f fun x => { x with promise := none }

/-- `get`, with what it returns or throws. A future that is not available fails the assertion
of `future_state::get`, after `wait` has left it alone. -/
def get (h : FutureHeap κ ι ν φ) (f : ι) : Option (FutureHeap κ ι ν φ × Except Exn ν) :=
  (h.state f).bind fun p => (h.deref p).bind fun s => s.result?.bind fun r =>
    (h.detach f).bind fun h => (h.modifyFuture f fun x => { x with promise := none }).bind
      fun h => (h.assign p .invalid).map fun h => (h, r)

def ignore (h : FutureHeap κ ι ν φ) (f : ι) : Option (FutureHeap κ ι ν φ) :=
  (h.state f).bind fun p => (h.deref p).bind fun s =>
    match s with
    | .future => none
    | _ => h.assign p .invalid

/-- `forward_to`, of a future and the promise at an address. -/
def forwardTo (h : FutureHeap κ ι ν φ) (f : ι) (a : κ) :
    Option (FutureHeap κ ι ν φ × List (FutureOutput ν φ)) :=
  (h.futures f).bind fun x => (h.state f).bind fun p => (h.deref p).bind fun s =>
    match s.result? with
    | some r => (h.set a r).bind fun h => (h.assign p .invalid).map fun h => (h, [])
    | none => x.promise.bind fun b => (h.detach f).bind fun h =>
        (h.assignPromise b a).bind fun d =>
          (d.1.modifyFuture f fun x => { x with promise := none }).map fun h => (h, d.2)

/-- The first task of the queue is run: its function gets its state, and the task is
destroyed. -/
def run (h : FutureHeap κ ι ν φ) : Option (FutureHeap κ ι ν φ × Continuation ν φ) :=
  match h.taskQueue with
  | [] => none
  | t :: q => (h.tasks t).map fun c =>
      ({ h with tasks := Function.update h.tasks t none, taskQueue := q }, c)

def step (h : FutureHeap κ ι ν φ) :
    FutureOp κ ι ν φ → Option (FutureHeap κ ι ν φ × List (FutureOutput ν φ))
  | .newPromise a => (h.newPromise a).map fun h => (h, [])
  | .movePromise a x => (h.movePromise a x).map fun h => (h, [])
  | .assignPromise a x => h.assignPromise a x
  | .destroyPromise a => h.destroyPromise a
  | .getFuture a f => (h.getFuture a f).map fun h => (h, [])
  | .set a r => (h.set a r).map fun h => (h, [])
  | .readyFuture f r => (h.readyFuture f r).map fun h => (h, [])
  | .moveFuture f x => (h.moveFuture f x).map fun h => (h, [])
  | .assignFuture f x => h.assignFuture f x
  | .destroyFuture f => h.destroyFuture f
  | .available f => (h.look f).map fun s => (h, [.available s.available])
  | .failed f => (h.look f).map fun s => (h, [.failed s.failed])
  | .schedule f func => (h.schedule f func).map fun h => (h, [])
  | .get f => (h.get f).map fun d => (d.1, [.got d.2])
  | .ignore f => (h.ignore f).map fun h => (h, [])
  | .forwardTo f a => h.forwardTo f a
  | .run => h.run.map fun d => (d.1, [.called d.2])

/-- The program at work on its promises and futures, from nothing, with what it has seen. -/
def machine : Machine (FutureHeap κ ι ν φ × List (FutureOutput ν φ)) (FutureOp κ ι ν φ) where
  init := (⟨fun _ => none, fun _ => none, fun _ => none, 0, []⟩, [])
  step s op := (s.1.step op).map fun d => (d.1, s.2 ++ d.2)

end FutureHeap

end Miniss
