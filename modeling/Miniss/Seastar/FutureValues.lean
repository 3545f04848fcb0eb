import Miniss.Seastar.FutureHeap
import Miniss.Lib.Matching
import Mathlib.Data.Finset.Basic

/-! A `future` and its `promise` as two ends of one logical value. A value has a name of its own
and stays where it is: it is the ends that move. Each value has one promise and one future at
most. -/
namespace Miniss

structure LogicalValue (ν φ : Type*) where
  state : FutureState ν
  func : Option φ

/-- The values by their names, the ends by their addresses, and the continuations that are
scheduled. A promise with no value is `spent`. -/
structure FutureValues (κ ι ν φ : Type*) where
  values : ℕ → LogicalValue ν φ
  next : ℕ
  promises : κ ≃. ℕ
  spent : Finset κ
  futures : ι ≃. ℕ
  scheduled : List (Continuation ν φ)

namespace FutureValues
variable {κ ι ν φ : Type*}

def put (s : FutureValues κ ι ν φ) (c : ℕ) (v : LogicalValue ν φ) : FutureValues κ ι ν φ :=
  { s with values := Function.update s.values c v }

@[grind =] theorem put_values (s : FutureValues κ ι ν φ) (c d : ℕ) (v : LogicalValue ν φ) :
    (s.put c v).values d = if d = c then v else s.values d :=
  Function.update_apply s.values c v d

@[simp, grind =] theorem put_next (s : FutureValues κ ι ν φ) (c : ℕ) (v : LogicalValue ν φ) :
    (s.put c v).next = s.next := rfl

@[simp, grind =] theorem put_promises (s : FutureValues κ ι ν φ) (c : ℕ)
    (v : LogicalValue ν φ) : (s.put c v).promises = s.promises := rfl

@[simp, grind =] theorem put_spent (s : FutureValues κ ι ν φ) (c : ℕ) (v : LogicalValue ν φ) :
    (s.put c v).spent = s.spent := rfl

@[simp, grind =] theorem put_futures (s : FutureValues κ ι ν φ) (c : ℕ)
    (v : LogicalValue ν φ) : (s.put c v).futures = s.futures := rfl

@[simp, grind =] theorem put_scheduled (s : FutureValues κ ι ν φ) (c : ℕ)
    (v : LogicalValue ν φ) : (s.put c v).scheduled = s.scheduled := rfl

def look (s : FutureValues κ ι ν φ) (f : ι) : Option (FutureState ν) :=
  (s.futures f).map fun c => (s.values c).state

def Vacant (s : FutureValues κ ι ν φ) (a : κ) : Prop := s.promises a = none ∧ a ∉ s.spent

/-- What is left in a future whose value has moved to another one. -/
def rest (s : FutureValues κ ι ν φ) (c : ℕ) : FutureState ν :=
  if (s.promises.symm c).isSome then .future else .invalid

variable [DecidableEq ι]

/-- The future gets a value of its own, that no promise will set. -/
def renew (s : FutureValues κ ι ν φ) (f : ι) (x : FutureState ν) : FutureValues κ ι ν φ :=
  { s with
    values := Function.update s.values s.next ⟨x, none⟩
    next := s.next + 1
    futures := s.futures.link f s.next }

@[grind =] theorem renew_values (s : FutureValues κ ι ν φ) (f : ι) (x : FutureState ν) (d : ℕ) :
    (s.renew f x).values d = if d = s.next then ⟨x, none⟩ else s.values d :=
  Function.update_apply s.values s.next _ d

@[simp, grind =] theorem renew_next (s : FutureValues κ ι ν φ) (f : ι) (x : FutureState ν) :
    (s.renew f x).next = s.next + 1 := rfl

@[simp, grind =] theorem renew_promises (s : FutureValues κ ι ν φ) (f : ι) (x : FutureState ν) :
    (s.renew f x).promises = s.promises := rfl

@[simp, grind =] theorem renew_spent (s : FutureValues κ ι ν φ) (f : ι) (x : FutureState ν) :
    (s.renew f x).spent = s.spent := rfl

@[simp, grind =] theorem renew_futures (s : FutureValues κ ι ν φ) (f : ι) (x : FutureState ν) :
    (s.renew f x).futures = s.futures.link f s.next := rfl

@[simp, grind =] theorem renew_scheduled (s : FutureValues κ ι ν φ) (f : ι)
    (x : FutureState ν) : (s.renew f x).scheduled = s.scheduled := rfl

variable [DecidableEq κ]

instance (s : FutureValues κ ι ν φ) (a : κ) : Decidable (s.Vacant a) :=
  inferInstanceAs (Decidable (_ ∧ _))

def newPromise (s : FutureValues κ ι ν φ) (a : κ) : Option (FutureValues κ ι ν φ) :=
  if s.Vacant a then
    some { s with
      values := Function.update s.values s.next ⟨.future, none⟩
      next := s.next + 1
      promises := s.promises.link a s.next }
  else none

def movePromise (s : FutureValues κ ι ν φ) (a x : κ) : Option (FutureValues κ ι ν φ) :=
  if s.Vacant a then
    match s.promises x with
    | some c => some { s with promises := s.promises.link a c, spent := insert x s.spent }
    | none => if x ∈ s.spent then some { s with spent := insert a s.spent } else none
  else none

/-- What is shown when the promise of a value is destroyed: the function that is attached to the
value goes with it. -/
def lastWords (s : FutureValues κ ι ν φ) (c : ℕ) : List (FutureOutput ν φ) :=
  (if s.futures.symm c = none then (s.values c).state.report else []) ++
    ((s.values c).func.map FutureOutput.dropped).toList

def destroyPromise (s : FutureValues κ ι ν φ) (a : κ) :
    Option (FutureValues κ ι ν φ × List (FutureOutput ν φ)) :=
  match s.promises a with
  | some c => some ({ s with
      values := Function.update s.values c ⟨(s.values c).state, none⟩
      promises := s.promises.unlink a }, s.lastWords c)
  | none => if a ∈ s.spent then some ({ s with spent := s.spent.erase a }, []) else none

def assignPromise (s : FutureValues κ ι ν φ) (a x : κ) :
    Option (FutureValues κ ι ν φ × List (FutureOutput ν φ)) :=
  if a = x then if s.Vacant a then none else some (s, [])
  else (s.destroyPromise a).bind fun d => (d.1.movePromise a x).map fun s => (s, d.2)

def getFuture (s : FutureValues κ ι ν φ) (a : κ) (f : ι) : Option (FutureValues κ ι ν φ) :=
  (s.promises a).bind fun c =>
    if s.futures f = none ∧ s.futures.symm c = none ∧ (s.values c).func.isNone then
      some { s with futures := s.futures.link f c }
    else none

/-- A value that is set goes to the function that is attached to it, if there is one. -/
def set (s : FutureValues κ ι ν φ) (a : κ) (r : Except Exn ν) :
    Option (FutureValues κ ι ν φ) :=
  (s.promises a).bind fun c =>
    match (s.values c).state, (s.values c).func with
    | .future, none => some (s.put c ⟨.ofResult r, none⟩)
    | .future, some func => some { s with
        promises := s.promises.unlink a
        spent := insert a s.spent
        scheduled := s.scheduled ++ [⟨.ofResult r, func⟩] }
    | _, _ => none

def readyFuture (s : FutureValues κ ι ν φ) (f : ι) (r : Except Exn ν) :
    Option (FutureValues κ ι ν φ) :=
  if s.futures f = none then some (s.renew f (.ofResult r)) else none

def moveFuture (s : FutureValues κ ι ν φ) (f x : ι) : Option (FutureValues κ ι ν φ) :=
  if s.futures f = none then
    (s.futures x).map fun c =>
      ({ s with futures := s.futures.link f c } : FutureValues κ ι ν φ).renew x (s.rest c)
  else none

def destroyFuture (s : FutureValues κ ι ν φ) (f : ι) :
    Option (FutureValues κ ι ν φ × List (FutureOutput ν φ)) :=
  (s.futures f).map fun c => ({ s with futures := s.futures.unlink f }, (s.values c).state.report)

def assignFuture (s : FutureValues κ ι ν φ) (f x : ι) :
    Option (FutureValues κ ι ν φ × List (FutureOutput ν φ)) :=
  if f = x then (s.futures f).map fun _ => (s, [])
  else (s.destroyFuture f).bind fun d => (d.1.moveFuture f x).map fun s => (s, d.2)

/-- A function is attached to a value that is to come, and is scheduled with one that has
come. -/
def schedule (s : FutureValues κ ι ν φ) (f : ι) (func : φ) : Option (FutureValues κ ι ν φ) :=
  (s.futures f).bind fun c =>
    if (s.values c).state.available then
      some { s with
        values := Function.update s.values c ⟨.invalid, none⟩
        scheduled := s.scheduled ++ [⟨(s.values c).state, func⟩] }
    else if (s.promises.symm c).isSome then some ((s.renew f .future).put c ⟨.future, some func⟩)
    else none

def get (s : FutureValues κ ι ν φ) (f : ι) : Option (FutureValues κ ι ν φ × Except Exn ν) :=
  (s.futures f).bind fun c => (s.values c).state.result?.map fun r =>
    ((s.renew f (s.rest c)).put c ⟨.invalid, none⟩, r)

def ignore (s : FutureValues κ ι ν φ) (f : ι) : Option (FutureValues κ ι ν φ) :=
  (s.futures f).bind fun c =>
    match (s.values c).state with
    | .future => none
    | _ => some (s.put c ⟨.invalid, none⟩)

/-- The promise of a value that is to come takes over the value of the given promise. -/
def forwardTo (s : FutureValues κ ι ν φ) (f : ι) (a : κ) :
    Option (FutureValues κ ι ν φ × List (FutureOutput ν φ)) :=
  (s.futures f).bind fun c =>
    match (s.values c).state.result? with
    | some r => (s.set a r).map fun s => (s.put c ⟨.invalid, none⟩, [])
    | none => (s.promises.symm c).bind fun b =>
        ((s.renew f .future).assignPromise b a)

def run (s : FutureValues κ ι ν φ) : Option (FutureValues κ ι ν φ × Continuation ν φ) :=
  match s.scheduled with
  | [] => none
  | k :: q => some ({ s with scheduled := q }, k)

def step (s : FutureValues κ ι ν φ) :
    FutureOp κ ι ν φ → Option (FutureValues κ ι ν φ × List (FutureOutput ν φ))
  | .newPromise a => (s.newPromise a).map fun s => (s, [])
  | .movePromise a x => (s.movePromise a x).map fun s => (s, [])
  | .assignPromise a x => s.assignPromise a x
  | .destroyPromise a => s.destroyPromise a
  | .getFuture a f => (s.getFuture a f).map fun s => (s, [])
  | .set a r => (s.set a r).map fun s => (s, [])
  | .readyFuture f r => (s.readyFuture f r).map fun s => (s, [])
  | .moveFuture f x => (s.moveFuture f x).map fun s => (s, [])
  | .assignFuture f x => s.assignFuture f x
  | .destroyFuture f => s.destroyFuture f
  | .available f => (s.look f).map fun x => (s, [.available x.available])
  | .failed f => (s.look f).map fun x => (s, [.failed x.failed])
  | .schedule f func => (s.schedule f func).map fun s => (s, [])
  | .get f => (s.get f).map fun d => (d.1, [.got d.2])
  | .ignore f => (s.ignore f).map fun s => (s, [])
  | .forwardTo f a => s.forwardTo f a
  | .run => s.run.map fun d => (d.1, [.called d.2])

def machine : Machine (FutureValues κ ι ν φ × List (FutureOutput ν φ)) (FutureOp κ ι ν φ) where
  init := (⟨fun _ => ⟨.future, none⟩, 0, ⊥, ∅, ⊥, []⟩, [])
  step s op := (s.1.step op).map fun d => (d.1, s.2 ++ d.2)

end FutureValues

end Miniss
