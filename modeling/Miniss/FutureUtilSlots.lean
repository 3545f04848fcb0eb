import Miniss.FutureUtil

/-! What the places of a vector go through, before the call of `when_all` and behind it. -/
namespace Miniss
variable {ν : Type*}

/-- The promise that `then_wrapped` makes, when its future was given out. -/
def innerPromise : Promise ν Empty := { Promise.new with future := true }

def collectTask (i : Nat) (r : Except Exn ν) : Continuation ν (WhenAllFunc ν) :=
  ⟨.ofResult r, ⟨innerPromise, i⟩⟩

namespace WhenAllSlot

inductive Before : WhenAllSlot ν → Prop where
  | linked (o : Option (Except Exn ν)) (x : FutureState ν) :
      Before ⟨some ⟨true, .ofOutcome o, .localState, none⟩, ⟨true, x⟩, o, false⟩
  | ready (r : Except Exn ν) : Before ⟨none, ⟨false, .ofResult r⟩, some r, false⟩
  | dead : Before ⟨none, ⟨false, .future⟩, none, true⟩

/-- Place `i` behind the call, where `queued` tells whether its continuation is on
`task_queue_`. -/
inductive After (i : Nat) (queued : Prop) : WhenAllSlot ν → Prop where
  | waiting (x y : FutureState ν) (hq : ¬ queued) :
      After i queued
        ⟨some ⟨false, x, .task, some ⟨.future, ⟨innerPromise, i⟩⟩⟩, ⟨true, y⟩, none, false⟩
  | queued (r : Except Exn ν) (p : Option (Promise ν (WhenAllFunc ν))) (y : FutureState ν)
      (hp : Promise.Spent p) (hq : queued) : After i queued ⟨p, ⟨true, y⟩, some r, false⟩
  | done (r : Except Exn ν) (p : Option (Promise ν (WhenAllFunc ν))) (hp : Promise.Spent p)
      (hq : ¬ queued) : After i queued ⟨p, ⟨false, .ofResult r⟩, some r, false⟩
  | dead (hq : ¬ queued) : After i queued ⟨none, ⟨false, .future⟩, none, true⟩

theorem input_before (o : Option (Except Exn ν)) : (input o).Before := by
  cases o with
  | none => exact .linked none _
  | some r => exact .ready r

theorem Before.resolve {s : WhenAllSlot ν} (h : s.Before) {p : Promise ν (WhenAllFunc ν)}
    (hp : s.promise = some p) {r : Except Exn ν}
    {d : Promise ν (WhenAllFunc ν) × Option (Continuation ν (WhenAllFunc ν))}
    (hd : p.set r = some d) :
    Before { s with promise := some d.1, outcome := some r } ∧ d.2 = none := by
  cases h with
  | linked o x =>
    cases hp
    obtain ⟨rfl, rfl⟩ := Promise.set_linked.mp hd
    exact ⟨.linked (some r) x, rfl⟩
  | ready => cases hp
  | dead => cases hp

theorem Before.destroy {s : WhenAllSlot ν} (h : s.Before) {p : Promise ν (WhenAllFunc ν)}
    (hp : s.promise = some p) {f : Future ν} {c : Option (Continuation ν (WhenAllFunc ν))}
    (hd : p.destroy s.future = some (f, c)) :
    Before { s with promise := none, future := f, abandoned := s.outcome.isNone } ∧ c = none := by
  cases h with
  | linked o x =>
    cases hp
    cases (Promise.destroy_linked o _).symm.trans hd
    cases o with
    | none => exact ⟨.dead, rfl⟩
    | some q => exact ⟨.ready q, rfl⟩
  | ready => cases hp
  | dead => cases hp

/-- Only a future that is neither available nor has a promise fails the assertion. -/
theorem Before.thenWrapped {s : WhenAllSlot ν} (h : s.Before) (i : Nat)
    (ha : s.abandoned = false) :
    ∃ t, s.thenWrapped i = some (t, s.outcome.map (collectTask i)) ∧
      t.outcome = s.outcome ∧ t.abandoned = false ∧ t.future.promise = true ∧
      t.After i (s.outcome.isSome = true) := by
  cases h with
  | linked o x =>
    cases o with
    | none => exact ⟨_, rfl, rfl, rfl, rfl, .waiting _ _ nofun⟩
    | some r =>
      cases r <;> exact ⟨_, rfl, rfl, rfl, rfl, .queued _ _ _ .taken rfl⟩
  | ready r => cases r <;> exact ⟨_, rfl, rfl, rfl, rfl, .queued _ _ _ .destroyed rfl⟩
  | dead => cases ha

theorem Before.thenWrapped_dead {s : WhenAllSlot ν} (h : s.Before) (i : Nat)
    (ha : s.abandoned = true) : s.thenWrapped i = none := by
  cases h with
  | linked o x => cases ha
  | ready r => cases ha
  | dead => rfl

theorem After.congr {s : WhenAllSlot ν} {i : Nat} {q q' : Prop} (h : s.After i q)
    (hq : q ↔ q') : s.After i q' := propext hq ▸ h

/-- The promise of an input is resolved: the continuation was waiting for that. -/
theorem After.resolve {s : WhenAllSlot ν} {i : Nat} {q : Prop} (h : s.After i q)
    {p : Promise ν (WhenAllFunc ν)} (hp : s.promise = some p) {r : Except Exn ν}
    {d : Promise ν (WhenAllFunc ν) × Option (Continuation ν (WhenAllFunc ν))}
    (hd : p.set r = some d) :
    ¬ q ∧ s.outcome = none ∧ d.2 = some (collectTask i r) ∧
      After i True { s with promise := some d.1, outcome := some r } := by
  cases h with
  | waiting x y hq =>
    cases hp
    cases hd
    exact ⟨hq, rfl, rfl, .queued r _ y (.fired x) trivial⟩
  | queued r' p' y hs hq =>
    cases hp
    cases (hs.set_eq_none r).symm.trans hd
  | done r' p' hs hq =>
    cases hp
    cases (hs.set_eq_none r).symm.trans hd
  | dead hq => cases hp

/-- The promise of an input is destroyed: nothing more, or the continuation that was waiting
goes with it. -/
theorem After.destroy {s : WhenAllSlot ν} {i : Nat} {q : Prop} (h : s.After i q)
    {p : Promise ν (WhenAllFunc ν)} (hp : s.promise = some p) {f : Future ν}
    {c : Option (Continuation ν (WhenAllFunc ν))} (hd : p.destroy s.future = some (f, c)) :
    f = s.future ∧
      ((c = none ∧
          After i q { s with promise := none, abandoned := s.outcome.isNone }) ∨
        (¬ q ∧ c = some ⟨.future, ⟨innerPromise, i⟩⟩ ∧ s.outcome = none ∧
          s.future.promise = true)) := by
  cases h with
  | waiting x y hq =>
    cases hp
    cases hd
    exact ⟨rfl, .inr ⟨hq, rfl, rfl, rfl⟩⟩
  | queued r p' y hs hq =>
    cases hp
    cases (hs.destroy_eq _).symm.trans hd
    exact ⟨rfl, .inl ⟨rfl, .queued r none y .destroyed hq⟩⟩
  | done r p' hs hq =>
    cases hp
    cases (hs.destroy_eq _).symm.trans hd
    exact ⟨rfl, .inl ⟨rfl, .done r none .destroyed hq⟩⟩
  | dead hq => cases hp

theorem After.unlinked {s : WhenAllSlot ν} {i : Nat} {q : Prop} (h : s.After i q)
    (hf : s.future.promise = false) :
    s.future = ⟨false, .ofOutcome s.outcome⟩ ∧ s.abandoned = s.outcome.isNone := by
  cases h with
  | waiting x y hq => cases hf
  | queued r p y hs hq => cases hf
  | done r p hs hq => exact ⟨rfl, rfl⟩
  | dead hq => exact ⟨rfl, rfl⟩

end WhenAllSlot
end Miniss
