import Miniss.Lib.Machine
import Miniss.Seastar.Future

/-! `when_all`: each future of a vector gets a continuation that holds a reference to the
`When_all_state`, and when the last of them is destroyed, the state's destructor hands the
vector out. The promises of the inputs belong to others, who resolve or destroy them in any
order, before the call or later. -/
namespace Miniss
variable {ν : Type*}

/-- What `then_wrapped` puts into its continuation in `wait`: the promise of the future that it
returns, and the function, which holds a reference to the state. `index` is the place in
`futures_` of the future that `pr` points to; a vector that is moved leaves its elements where
they are. -/
structure WhenAllFunc (ν : Type*) where
  pr : Promise ν Empty
  index : Nat

/-- One place of the vector: the promise of the input, while there is one, and the future that
stands there. The other two fields record the history: what the input was resolved with, and
whether its promise was destroyed before that. -/
structure WhenAllSlot (ν : Type*) where
  promise : Option (Promise ν (WhenAllFunc ν))
  future : Future ν
  outcome : Option (Except Exn ν)
  abandoned : Bool

/-- A call of `when_all`. `useCount` counts the references to the `When_all_state`, whose
`promise_` goes with it; `future` is the one that was returned. The value of these two stands
for the vector, with the elements in `slots`. `tasks` holds the continuations of `wait` on
`task_queue_`, `scheduled` what the caller attached and is scheduled, `fulfilled` how often
`promise_` was. -/
structure WhenAll (ν : Type*) where
  slots : List (WhenAllSlot ν)
  tasks : List (Continuation ν (WhenAllFunc ν))
  called : Bool
  useCount : Nat
  promise_ : Option (Promise Unit Unit)
  future : Future Unit
  scheduled : List (Continuation Unit Unit)
  fulfilled : Nat

namespace WhenAllSlot

/-- An input at first: a ready future without a promise, or a future and its promise. -/
def input : Option (Except Exn ν) → WhenAllSlot ν
  | some r => ⟨none, ⟨false, .ofResult r⟩, some r, false⟩
  | none => ⟨some { Promise.new with future := true }, ⟨true, .future⟩, none, false⟩

/-- One round of the loop in `wait`: `f = f.then_wrapped(..)`, with the continuation that is
scheduled at once. -/
def thenWrapped (s : WhenAllSlot ν) (index : Nat) :
    Option (WhenAllSlot ν × Option (Continuation ν (WhenAllFunc ν))) :=
  match (Promise.new : Promise ν Empty).getFuture with
  | none => none
  | some (pr, fut) =>
    match s.future.schedule s.promise ⟨pr, index⟩ with
    | none => none
    | some (f, p, c) => some ({ s with promise := f.destroy p, future := fut }, c)

end WhenAllSlot

def waitLoop (index : Nat) : List (WhenAllSlot ν) →
    Option (List (WhenAllSlot ν) × List (Continuation ν (WhenAllFunc ν)))
  | [] => some ([], [])
  | s :: rest =>
    match s.thenWrapped index, waitLoop (index + 1) rest with
    | some (s, c), some (rest, cs) => some (s :: rest, c.toList ++ cs)
    | _, _ => none

/-- What can happen next: the promise of an input is resolved or destroyed, `when_all` is
called, the front continuation runs, and the caller attaches one to the returned future. -/
inductive WhenAllAct (ν : Type*) where
  | resolve (i : Nat) (r : Except Exn ν)
  | destroy (i : Nat)
  | call
  | run
  | attach

namespace WhenAll

def init (inputs : List (Option (Except Exn ν))) : WhenAll ν where
  slots := inputs.map .input
  tasks := []
  called := false
  useCount := 0
  promise_ := none
  future := ⟨false, .invalid⟩
  scheduled := []
  fulfilled := 0

/-- `~When_all_state`: the promise is set to the vector and destroyed. -/
def destroyState (s : WhenAll ν) : Option (WhenAll ν) :=
  match s.promise_ with
  | none => none
  | some p =>
    match p.set (.ok ()) with
    | none => none
    | some (p, c) =>
      (p.destroy s.future).map fun d =>
        { s with
          promise_ := none
          future := d.1
          scheduled := s.scheduled ++ c.toList
          fulfilled := s.fulfilled + 1 }

def release (s : WhenAll ν) : Option (WhenAll ν) :=
  match s.useCount with
  | 0 => none
  | 1 => destroyState { s with useCount := 0 }
  | n + 2 => some { s with useCount := n + 1 }

/-- The function of a continuation is destroyed: first its reference to the state, then its
promise. -/
def destroyFunc (s : WhenAll ν) (fn : WhenAllFunc ν) : Option (WhenAll ν) :=
  match s.release with
  | none => none
  | some s =>
    match s.slots[fn.index]? with
    | none => none
    | some slot => (fn.pr.destroy slot.future).map fun d =>
        { s with slots := s.slots.set fn.index { slot with future := d.1 } }

/-- `when_all`. The local reference is dropped in the end. -/
def call (s : WhenAll ν) : Option (WhenAll ν) :=
  match waitLoop 0 s.slots, (Promise.new : Promise Unit Unit).getFuture with
  | some (slots, tasks), some (pr, fut) => release
      { s with
        slots := slots
        tasks := s.tasks ++ tasks
        called := true
        useCount := slots.length + 1
        promise_ := some pr
        future := fut }
  | _, _ => none

def run (s : WhenAll ν) : Option (WhenAll ν) :=
  match s.tasks with
  | [] => none
  | c :: rest =>
    match (Future.mk false c.state).forwardTo (none : Option (Promise ν Empty)) c.func.pr with
    | none => none
    | some (pr, _) => destroyFunc { s with tasks := rest } { c.func with pr := pr }

def resolve (s : WhenAll ν) (i : Nat) (r : Except Exn ν) : Option (WhenAll ν) :=
  match s.slots[i]? with
  | none => none
  | some slot =>
    match slot.promise with
    | none => none
    | some p => (p.set r).map fun d =>
        { s with
          slots := s.slots.set i { slot with promise := some d.1, outcome := some r }
          tasks := s.tasks ++ d.2.toList }

def destroy (s : WhenAll ν) (i : Nat) : Option (WhenAll ν) :=
  match s.slots[i]? with
  | none => none
  | some slot =>
    match slot.promise with
    | none => none
    | some p =>
      match p.destroy slot.future with
      | none => none
      | some (f, c) =>
        let slot := { slot with promise := none, future := f, abandoned := slot.outcome.isNone }
        let t := { s with slots := s.slots.set i slot }
        match c with
        | none => some t
        | some c => t.destroyFunc c.func

def attach (s : WhenAll ν) : Option (WhenAll ν) :=
  (s.future.schedule s.promise_ ()).map fun d =>
    { s with future := d.1, promise_ := d.2.1, scheduled := s.scheduled ++ d.2.2.toList }

/-- What the returned future has, or what the caller's continuation got from it. -/
def value (s : WhenAll ν) : FutureState Unit :=
  match s.scheduled with
  | c :: _ => c.state
  | [] => (s.future.deref s.promise_).getD .invalid

def available (s : WhenAll ν) : Bool := s.value.available

def step (s : WhenAll ν) : WhenAllAct ν → Option (WhenAll ν)
  | .resolve i r => s.resolve i r
  | .destroy i => s.destroy i
  | .call => if s.called then none else s.call
  | .run => s.run
  | .attach => s.attach

end WhenAll

def whenAllMachine (inputs : List (Option (Except Exn ν))) :
    Machine (WhenAll ν) (WhenAllAct ν) where
  init := .init inputs
  step := WhenAll.step

end Miniss
