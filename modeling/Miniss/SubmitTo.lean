import Miniss.CrossCpuOnce
import Miniss.Seastar.Future

/-! `OS::submit_to`, with what a function returns, the work items that carry it, and the futures
that the caller gets. A tuple is modelled by `Option`, with `none` for the empty one. -/
namespace Miniss
variable {ν : Type*}

/-- What a call of a function does: it returns nothing, a value or a future, or it throws.
`later` tells whether the future is resolved by something that is still to happen. -/
inductive Fn (ν : Type*) where
  | void
  | value (v : ν)
  | throws (e : Exn)
  | future (r : Except Exn (Option ν)) (later : Bool)

namespace Fn

/-- `futurize<..>::apply`: what `state` of the future refers to, before or after what the
function waits for has happened. -/
def apply (fn : Fn ν) (happened : Bool) : FutureState (Option ν) :=
  match fn with
  | .void => .result none
  | .value v => .result (some v)
  | .throws e => .exception e
  | .future r later => if later && !happened then .future else .ofResult r

def outcome : Fn ν → Except Exn (Option ν)
  | .void => .ok none
  | .value v => .ok (some v)
  | .throws e => .error e
  | .future r _ => r

/-- The future is there at once, or it is resolved in the end. -/
theorem apply_eq (fn : Fn ν) (happened : Bool) :
    fn.apply happened = .ofResult fn.outcome ∨ happened = false ∧ fn.apply happened = .future := by
  cases fn with
  | future r later =>
    cases later <;> cases happened
    · exact .inl rfl
    · exact .inl rfl
    · exact .inr ⟨rfl, rfl⟩
    · exact .inl rfl
  | _ => exact .inl rfl

@[simp] theorem apply_true (fn : Fn ν) : fn.apply true = .ofResult fn.outcome := by
  obtain h | ⟨h, -⟩ := fn.apply_eq true
  · exact h
  · exact absurd h (by decide)

end Fn

inductive RetVariant (ν : Type*) where
  | monostate
  | value (v : Option ν)
  | exception (e : Exn)

/-- `Work_item_impl`. What the caller attaches to the future carries no data here. -/
structure WorkItemImpl (ν : Type*) where
  fn_ : Fn ν
  ret_ : RetVariant ν
  promise_ : Promise (Option ν) Unit

namespace WorkItemImpl

/-- `process`, up to its continuation: what the function's future has been resolved with. -/
def process (w : WorkItemImpl ν) (happened : Bool) : Option (Except Exn (Option ν)) :=
  (w.fn_.apply happened).result?

/-- The continuation in `process`: `get` returns the value, or it throws. -/
def fill (w : WorkItemImpl ν) (r : FutureState (Option ν)) : WorkItemImpl ν :=
  match r.result? with
  | some (.ok v) => { w with ret_ := .value v }
  | some (.error e) => { w with ret_ := .exception e }
  | none => w

/-- `complete`: the promise, and what it schedules. Without a `ret_` it aborts. -/
def complete (w : WorkItemImpl ν) :
    Option (Promise (Option ν) Unit × Option (Continuation (Option ν) Unit)) :=
  match w.ret_ with
  | .monostate => none
  | .value v => w.promise_.set (.ok v)
  | .exception e => w.promise_.set (.error e)

end WorkItemImpl

/-- The calls from one CPU to another: the queue, the item and the future of each call, and the
caller's continuation once it is scheduled. `happened` holds the calls for which that has
happened which their function waits for. -/
structure SubmitTo (ν : Type*) where
  queue : CrossCpuQueue (Option ν)
  items : Nat → Option (WorkItemImpl ν)
  futures : Nat → Future (Option ν)
  scheduled : Nat → Option (Continuation (Option ν) Unit)
  happened : List Nat

/-- What can happen next: the steps of the queue, where each function decides itself what it
ends with, and the caller attaches a continuation to one of its futures. -/
inductive SubmitToAct where
  | submitTo (current cpu : Nat)
  | poll (current : Nat) (call : PollCall)
  | from_
  | to_
  | happen (k : Nat)
  | runTask (k : Nat)
  | attach (k : Nat)

namespace SubmitTo

def init (i j : Nat) : SubmitTo ν where
  queue := .init i j
  items := fun _ => none
  futures := fun _ => ⟨false, .invalid⟩
  scheduled := fun _ => none
  happened := []

def submit (s : SubmitTo ν) (fn : Fn ν) : SubmitTo ν :=
  match (Promise.new : Promise (Option ν) Unit).getFuture with
  | none => s
  | some (pr, fut) =>
    { s with
      items := Function.update s.items s.queue.submitted (some ⟨fn, .monostate, pr⟩)
      futures := Function.update s.futures s.queue.submitted fut }

/-- What the function of the item that is processed next gives at once. -/
def ready (s : SubmitTo ν) : Option (Except Exn (Option ν)) :=
  match s.queue.toPc with
  | .process _ (item :: _) => (s.items item).bind fun w => w.process (item ∈ s.happened)
  | _ => none

def fill (s : SubmitTo ν) (item : Nat) (r : Except Exn (Option ν)) : SubmitTo ν :=
  { s with
    items := Function.update s.items item ((s.items item).map fun w => w.fill (.ofResult r)) }

def complete (s : SubmitTo ν) (item : Nat) : SubmitTo ν :=
  match s.items item with
  | none => s
  | some w =>
    match w.complete with
    | none => s
    | some (pr, c) =>
      match pr.destroy (s.futures item) with
      | none => s
      | some (f, _) =>
        { s with
          items := Function.update s.items item none
          futures := Function.update s.futures item f
          scheduled := Function.update s.scheduled item c }

/-- What the submitting side does to an item when it goes on. -/
def fromItem (s : SubmitTo ν) : SubmitTo ν :=
  match s.queue.fromPc with
  | .complete _ (item :: _) => s.complete item
  | _ => s

def taskItem (s : SubmitTo ν) (k : Nat) : SubmitTo ν :=
  match s.queue.tasks[k]? with
  | some (_, .fill item r) => s.fill item r
  | _ => s

def attach (s : SubmitTo ν) (k : Nat) : Option (SubmitTo ν) :=
  ((s.futures k).schedule ((s.items k).map WorkItemImpl.promise_) ()).map fun d =>
    { s with
      items := Function.update s.items k
        ((s.items k).map fun w => { w with promise_ := d.2.1.getD w.promise_ })
      futures := Function.update s.futures k d.1
      scheduled := Function.update s.scheduled k d.2.2 }

/-- What a function waits for happens; if the function has run, its future is resolved. -/
def happen (s : SubmitTo ν) (fns : Nat → Fn ν) (cpuCount k : Nat) : Option (SubmitTo ν) :=
  if k ∈ s.queue.running then
    (s.queue.step cpuCount
      (.resolve s.queue.to_ (s.queue.running.idxOf k) (fns k).outcome)).map fun q =>
        { s with queue := q, happened := k :: s.happened }
  else some { s with happened := k :: s.happened }

def step (fns : Nat → Fn ν) (cpuCount : Nat) (s : SubmitTo ν) : SubmitToAct → Option (SubmitTo ν)
  | .submitTo current cpu =>
    (s.queue.step cpuCount (.submitTo current cpu)).map fun q =>
      { s.submit (fns s.queue.submitted) with queue := q }
  | .poll current call =>
    (s.queue.step cpuCount (.poll current call)).map fun q => { s with queue := q }
  | .from_ => (s.queue.step cpuCount .from_).map fun q => { s.fromItem with queue := q }
  | .to_ => (s.queue.step cpuCount (.to_ s.ready)).map fun q => { s with queue := q }
  | .happen k => s.happen fns cpuCount k
  | .runTask k =>
    (s.queue.step cpuCount (.runTask k)).map fun q => { s.taskItem k with queue := q }
  | .attach k =>
    match s.queue.fromPc with
    | .idle => s.attach k
    | _ => none

/-- What the future of a call has, or what the caller's continuation got from it. -/
def crossCpu (s : SubmitTo ν) (k : Nat) : FutureState (Option ν) :=
  match s.scheduled k with
  | some c => c.state
  | none => ((s.futures k).deref ((s.items k).map WorkItemImpl.promise_)).getD .invalid

/-- What the future would have that `submit_to` returns for the same function on its own CPU. -/
def sameCpu (fns : Nat → Fn ν) (s : SubmitTo ν) (k : Nat) : FutureState (Option ν) :=
  (fns k).apply (k ∈ s.happened)

/-- Nothing is in the queue between the CPUs, popped from it or queued as a continuation. -/
structure Drained (s : SubmitTo ν) : Prop where
  tx : s.queue.tx.contents = []
  rx : s.queue.rx.contents = []
  fromPc : s.queue.fromPc.todo = []
  toPc : s.queue.toPc.todo = []
  tasks : s.queue.tasks = []

end SubmitTo

def submitToMachine (fns : Nat → Fn ν) (cpuCount i j : Nat) : Machine (SubmitTo ν) SubmitToAct where
  init := .init i j
  step := SubmitTo.step fns cpuCount

end Miniss
