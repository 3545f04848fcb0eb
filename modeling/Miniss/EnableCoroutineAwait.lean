import Miniss.EnableCoroutine

/-! What a future goes through before the body awaits it, while the body is suspended in its
awaiter, and when its result was taken; and the two ends of the returned future. -/
namespace Miniss
variable {σ ι ν ρ : Type*}

def resumeTask (i : ι) (r : Except Exn ν) : Continuation ν (AwaitFunc ι) :=
  ⟨.ofResult r, ⟨.new, i⟩⟩

namespace CoroutineInput

inductive Fresh : CoroutineInput ι ν → Prop where
  | linked (o : Option (Except Exn ν)) (x : FutureState ν) (hx : x.available = false) :
      Fresh ⟨some ⟨true, .ofOutcome o, .localState, none⟩, ⟨true, x⟩, o⟩
  | ready (r : Except Exn ν) : Fresh ⟨none, ⟨false, .ofResult r⟩, some r⟩
  | dead : Fresh ⟨none, ⟨false, .future⟩, none⟩

/-- The body is suspended in its awaiter, and `tasks` is `task_queue_`. -/
inductive Suspended (i : ι) (tasks : List (Continuation ν (AwaitFunc ι))) :
    CoroutineInput ι ν → Prop where
  | waiting (x y : FutureState ν) (hy : y.available = false) (ht : tasks = []) :
      Suspended i tasks
        ⟨some ⟨false, x, .task, some ⟨.future, ⟨.new, i⟩⟩⟩, ⟨false, y⟩, none⟩
  | woken (r : Except Exn ν) (p : Option (Promise ν (AwaitFunc ι))) (y : FutureState ν)
      (hp : Promise.Spent p) (hy : y.available = false) (ht : tasks = [resumeTask i r]) :
      Suspended i tasks ⟨p, ⟨false, y⟩, some r⟩
  | lost (y : FutureState ν) (hy : y.available = false) (ht : tasks = []) :
      Suspended i tasks ⟨none, ⟨false, y⟩, none⟩

/-- `await_resume` has given its result to the body. -/
inductive Taken (r : Except Exn ν) : CoroutineInput ι ν → Prop where
  | mk (p : Option (Promise ν (AwaitFunc ι))) (y : FutureState ν) (hp : Promise.Spent p)
      (hy : y.available = false) : Taken r ⟨p, ⟨false, y⟩, some r⟩

theorem input_fresh (o : Option (Except Exn ν)) : (input o : CoroutineInput ι ν).Fresh := by
  cases o with
  | none => exact .linked none _ rfl
  | some r => exact .ready r

variable {a : CoroutineInput ι ν} {i : ι} {r : Except Exn ν}
  {tasks : List (Continuation ν (AwaitFunc ι))}

theorem Taken.outcome_eq (h : a.Taken r) : a.outcome = some r := by
  cases h
  rfl

theorem Fresh.awaitReady_eq (h : a.Fresh) : a.awaitReady = some a.outcome.isSome := by
  cases h with
  | linked o x hx =>
    cases o with
    | none => rfl
    | some r => exact congrArg some (FutureState.available_ofResult r)
  | ready r => exact congrArg some (FutureState.available_ofResult r)
  | dead => rfl

theorem Fresh.awaitResume_eq (h : a.Fresh) (hr : a.outcome = some r) :
    ∃ b, a.awaitResume = some (r, b) ∧ b.Taken r := by
  cases h with
  | linked o x hx =>
    cases hr
    refine ⟨_, ?_, .mk _ x .taken hx⟩
    simp [awaitResume, Future.get, Future.deref, Promise.deref, FutureState.ofOutcome,
      Promise.assign]
  | ready r' =>
    cases hr
    refine ⟨_, ?_, .mk none .invalid .destroyed rfl⟩
    simp [awaitResume, Future.get, Future.deref]
  | dead => cases hr

/-- The slow path, unless nobody is left to resolve the future. -/
theorem Fresh.awaitSuspend_eq (h : a.Fresh) (hr : a.outcome = none) (ha : ¬ a.Abandoned)
    (i : ι) : ∃ b, a.awaitSuspend i = some (b, none) ∧ b.Suspended i [] := by
  cases h with
  | linked o x hx =>
    cases hr
    exact ⟨_, rfl, .waiting _ x hx rfl⟩
  | ready r' => cases hr
  | dead => exact absurd ⟨rfl, rfl⟩ ha

theorem awaitSuspend_dead {p : Option (Promise ν (AwaitFunc ι))} {y : FutureState ν}
    {o : Option (Except Exn ν)} (hy : y.available = false) (i : ι) :
    awaitSuspend ⟨p, ⟨false, y⟩, o⟩ i = none := by
  simp [awaitSuspend, Promise.getFuture, Promise.new, Future.destroy, Future.schedule_dead hy]

theorem Fresh.not_abandoned (h : a.Fresh) {d} (hd : a.awaitSuspend i = some d) :
    ¬ a.Abandoned := by
  rintro ⟨hp, ho⟩
  cases h with
  | linked o x hx => cases hp
  | ready r' => cases ho
  | dead => cases (awaitSuspend_dead rfl i).symm.trans hd

theorem Taken.awaitReady_eq (h : a.Taken r) : a.awaitReady = some false := by
  cases h with
  | mk p y hp hy => exact congrArg some hy

theorem Taken.awaitSuspend_eq (h : a.Taken r) (i : ι) : a.awaitSuspend i = none := by
  cases h with
  | mk p y hp hy => exact awaitSuspend_dead hy i

/-- The continuation on `task_queue_` gives the body what the future was resolved with. -/
theorem Suspended.awaitResume_eq (h : a.Suspended i tasks)
    {c : Continuation ν (AwaitFunc ι)} {rest : List (Continuation ν (AwaitFunc ι))}
    (hc : tasks = c :: rest) :
    ∃ r b, c = resumeTask i r ∧ rest = [] ∧ a.outcome = some r ∧
      (a.refill c.state).awaitResume = some (r, b) ∧ b.Taken r := by
  cases h with
  | waiting x y hy ht => cases ht.symm.trans hc
  | woken r p y hp hy ht =>
    cases ht.symm.trans hc
    refine ⟨r, _, rfl, rfl, rfl, ?_, .mk p .invalid hp rfl⟩
    simp [awaitResume, refill, resumeTask, Future.get, Future.deref, Future.destroy]
  | lost y hy ht => cases ht.symm.trans hc

theorem Suspended.tasks_eq (h : a.Suspended i tasks) (hr : a.outcome = some r) :
    tasks = [resumeTask i r] := by
  cases h with
  | waiting x y hy ht => cases hr
  | woken r' p y hp hy ht =>
    cases hr
    exact ht
  | lost y hy ht => cases hr

section Promise
variable {p : Promise ν (AwaitFunc ι)}
  {d : Promise ν (AwaitFunc ι) × Option (Continuation ν (AwaitFunc ι))}
  {e : Future ν × Option (Continuation ν (AwaitFunc ι))}

theorem Fresh.resolve (h : a.Fresh) (hp : a.promise = some p) (hd : p.set r = some d) :
    a.outcome = none ∧ d.2 = none ∧ Fresh { a with promise := some d.1, outcome := some r } := by
  cases h with
  | linked o x hx =>
    cases hp
    obtain ⟨rfl, rfl⟩ := Promise.set_linked.mp hd
    exact ⟨rfl, rfl, .linked (some r) x hx⟩
  | ready => cases hp
  | dead => cases hp

theorem Suspended.resolve (h : a.Suspended i tasks) (hp : a.promise = some p)
    (hd : p.set r = some d) :
    a.outcome = none ∧ tasks = [] ∧ d.2 = some (resumeTask i r) ∧
      Suspended i [resumeTask i r] { a with promise := some d.1, outcome := some r } := by
  cases h with
  | waiting x y hy ht =>
    cases hp
    cases hd
    exact ⟨rfl, ht, rfl, .woken r _ y (.fired x) hy rfl⟩
  | woken r' p' y hs hy ht =>
    cases hp
    cases (hs.set_eq_none r).symm.trans hd
  | lost y hy ht => cases hp

theorem Taken.not_resolve {q : Except Exn ν} (h : a.Taken q) (hp : a.promise = some p)
    (hd : p.set r = some d) : False := by
  cases h with
  | mk p' y hs hy =>
    cases hp
    cases (hs.set_eq_none r).symm.trans hd

theorem Fresh.destroy (h : a.Fresh) (hp : a.promise = some p)
    (he : p.destroy a.future = some e) :
    Fresh ({ a with promise := none, future := e.1 } : CoroutineInput ι ν) := by
  cases h with
  | linked o x hx =>
    cases hp
    cases (Promise.destroy_linked o _).symm.trans he
    cases o with
    | none => exact .dead
    | some q => exact .ready q
  | ready => cases hp
  | dead => cases hp

theorem Suspended.destroy (h : a.Suspended i tasks) (hp : a.promise = some p)
    (he : p.destroy a.future = some e) :
    Suspended i tasks { a with promise := none, future := e.1 } := by
  cases h with
  | waiting x y hy ht =>
    cases hp
    cases he
    exact .lost y hy ht
  | woken r p' y hs hy ht =>
    cases hp
    cases (hs.destroy_eq _).symm.trans he
    exact .woken r none y .destroyed hy ht
  | lost y hy ht => cases hp

theorem Taken.destroy (h : a.Taken r) (hp : a.promise = some p)
    (he : p.destroy a.future = some e) :
    Taken r ({ a with promise := none, future := e.1 } : CoroutineInput ι ν) := by
  cases h with
  | mk p' y hs hy =>
    cases hp
    cases (hs.destroy_eq _).symm.trans he
    exact .mk none y .destroyed hy

end Promise

end CoroutineInput

/-- `pr_`, the returned future and what the caller attached to it, while the body runs. -/
inductive Owed : Promise ρ Unit → Future ρ → List (Continuation ρ Unit) → Prop where
  | held (x : FutureState ρ) (hx : x.available = false) :
      Owed ⟨true, .future, .localState, none⟩ ⟨true, x⟩ []
  | attached (x y : FutureState ρ) (hy : y.available = false) :
      Owed ⟨false, x, .task, some ⟨.future, ()⟩⟩ ⟨false, y⟩ []

/-- The returned future, or what the caller attached to it, once the body has ended and `pr_` is
gone. -/
inductive Paid (r : Except Exn ρ) : Future ρ → List (Continuation ρ Unit) → Prop where
  | ready : Paid r ⟨false, .ofResult r⟩ []
  | taken (y : FutureState ρ) (hy : y.available = false) :
      Paid r ⟨false, y⟩ [⟨.ofResult r, ()⟩]

section Returned
variable {p : Promise ρ Unit} {f : Future ρ} {cs : List (Continuation ρ Unit)} {r : Except Exn ρ}

theorem Owed.finish (h : Owed p f cs) (r : Except Exn ρ) :
    ∃ d g, p.set r = some d ∧ d.1.destroy f = some g ∧ Paid r g.1 (cs ++ d.2.toList) := by
  cases h with
  | held x hx =>
    refine ⟨_, (⟨false, .ofResult r⟩, none), rfl, ?_, .ready⟩
    simp [Promise.destroy, Promise.deref, Promise.assign, Promise.makeReady]
  | attached x y hy => exact ⟨_, _, rfl, rfl, .taken y hy⟩

theorem Owed.attach (h : Owed p f cs) {d} (hd : f.schedule (some p) () = some d) :
    ∃ q, d.2.1 = some q ∧ Owed q d.1 (cs ++ d.2.2.toList) := by
  cases h with
  | held x hx =>
    cases hd
    exact ⟨_, rfl, .attached _ x hx⟩
  | attached x y hy => cases (Future.schedule_dead hy _ _).symm.trans hd

theorem Owed.not_available (h : Owed p f cs) :
    cs = [] ∧ ∃ x, f.deref (some p) = some x ∧ x.available = false := by
  cases h with
  | held x hx => exact ⟨rfl, _, rfl, rfl⟩
  | attached x y hy => exact ⟨rfl, y, rfl, hy⟩

theorem Paid.attach (h : Paid r f cs) {d} (hd : f.schedule (none : Option (Promise ρ Unit)) () =
    some d) : d.2.1 = none ∧ Paid r d.1 (cs ++ d.2.2.toList) := by
  cases h with
  | ready =>
    simp [Future.schedule, Future.deref] at hd
    obtain rfl := hd
    exact ⟨rfl, .taken .invalid rfl⟩
  | taken y hy => cases (Future.schedule_dead hy _ _).symm.trans hd

theorem Paid.attach_eq (h : Paid r f []) :
    ∃ d c, f.schedule (none : Option (Promise ρ Unit)) () = some d ∧ d.2.2 = some c := by
  cases h with
  | ready => simp [Future.schedule, Future.deref]

end Returned

end Miniss
