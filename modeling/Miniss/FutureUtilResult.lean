import Miniss.FutureUtilCollect

/-! What `when_all` gives: the results of the inputs, each in its place, as soon as all of them
are there, and a dead future in the place of each input that was abandoned. -/
namespace Miniss
variable {ν : Type*}

/-- What an input was resolved with, and whether its promise was destroyed before. -/
abbrev InputHistory (ν : Type*) := Option (Except Exn ν) × Bool

/-- What an event does to the inputs. -/
def inputStep (l : List (InputHistory ν)) : WhenAllAct ν → List (InputHistory ν)
  | .resolve i r => l.modify i fun o => (some r, o.2)
  | .destroy i => l.modify i fun o => (o.1, o.1.isNone)
  | _ => l

/-- What some events made of the inputs. -/
def inputHistory (inputs : List (Option (Except Exn ν))) (as : List (WhenAllAct ν)) :
    List (InputHistory ν) := as.foldl inputStep (inputs.map fun o => (o, false))

def WhenAllSlot.history (s : WhenAllSlot ν) : InputHistory ν := (s.outcome, s.abandoned)

theorem waitLoop_history {l l' : List (WhenAllSlot ν)} {k : Nat}
    {cs : List (Continuation ν (WhenAllFunc ν))} (h : waitLoop k l = some (l', cs)) :
    l'.map WhenAllSlot.history = l.map WhenAllSlot.history := by
  induction l generalizing k l' cs with
  | nil =>
    cases h
    rfl
  | cons s rest ih =>
    unfold waitLoop at h
    split at h
    case h_1 t c rest' cs' ht hrest =>
      cases h
      unfold WhenAllSlot.thenWrapped at ht
      split at ht
      case h_1 => cases ht
      case h_2 =>
        split at ht
        case h_1 => cases ht
        case h_2 =>
          cases ht
          rw [List.map_cons, List.map_cons, ih hrest]
          rfl
    case h_2 => cases h

namespace WhenAll

theorem destroyState_slots {s t : WhenAll ν} (h : s.destroyState = some t) :
    t.slots = s.slots := by
  unfold destroyState at h
  split at h
  case h_1 => cases h
  case h_2 =>
    split at h
    case h_1 => cases h
    case h_2 =>
      obtain ⟨d, -, rfl⟩ := Option.map_eq_some_iff.mp h
      rfl

theorem release_slots {s t : WhenAll ν} (h : s.release = some t) : t.slots = s.slots := by
  unfold release at h
  split at h
  case h_1 => cases h
  case h_2 =>
    have hslots := destroyState_slots h
    exact hslots
  case h_3 =>
    cases h
    rfl

theorem destroyFunc_history {s t : WhenAll ν} {fn : WhenAllFunc ν}
    (h : s.destroyFunc fn = some t) :
    t.slots.map WhenAllSlot.history = s.slots.map WhenAllSlot.history := by
  unfold destroyFunc at h
  split at h
  case h_1 => cases h
  case h_2 u hu =>
    split at h
    case h_1 => cases h
    case h_2 slot hi =>
      obtain ⟨d, -, rfl⟩ := Option.map_eq_some_iff.mp h
      rw [← release_slots hu]
      exact map_set_eq_self hi rfl

theorem destroy_history {s t : WhenAll ν} {i : Nat} (h : s.destroy i = some t) :
    t.slots.map WhenAllSlot.history = inputStep (s.slots.map WhenAllSlot.history) (.destroy i) := by
  obtain ⟨slot, p, f, c, hi, -, -, h⟩ := destroy_cases h
  have hset := map_set_eq_modify (f := WhenAllSlot.history)
    (g := fun o : InputHistory ν => (o.1, o.1.isNone)) hi
    (b := { slot with promise := none, future := f, abandoned := slot.outcome.isNone }) rfl
  cases c with
  | none =>
    cases h
    exact hset
  | some c => exact (destroyFunc_history h).trans hset

theorem step_history {s t : WhenAll ν} {a : WhenAllAct ν} (h : s.step a = some t) :
    t.slots.map WhenAllSlot.history = inputStep (s.slots.map WhenAllSlot.history) a := by
  cases a with
  | resolve i r =>
    obtain ⟨slot, p, d, hi, -, -, rfl⟩ := resolve_cases h
    exact map_set_eq_modify hi rfl
  | destroy i => exact destroy_history h
  | call =>
    obtain ⟨-, h⟩ := Option.ite_none_left_eq_some.mp h
    unfold WhenAll.call at h
    split at h
    case h_1 slots tasks pr fut hl hp =>
      rw [release_slots h]
      exact waitLoop_history hl
    case h_2 => cases h
  | run =>
    simp only [WhenAll.step] at h
    unfold WhenAll.run at h
    split at h
    case h_1 => cases h
    case h_2 =>
      split at h
      case h_1 => cases h
      case h_2 =>
        have hhist := destroyFunc_history h
        exact hhist
  | attach =>
    obtain ⟨d, -, rfl⟩ := Option.map_eq_some_iff.mp h
    rfl

end WhenAll

open WhenAll

theorem when_all_inv {inputs : List (Option (Except Exn ν))} {as : List (WhenAllAct ν)}
    {s : WhenAll ν} (h : (whenAllMachine inputs).Reaches as s) : s.Inv :=
  h.invariant (I := Inv) (.inl (init_fresh inputs)) fun _ _ _ hi hst => Inv.step hi hst

theorem exec_history {inputs : List (Option (Except Exn ν))} {as : List (WhenAllAct ν)}
    {s t : WhenAll ν} (h : (whenAllMachine inputs).exec s as = some t) :
    t.slots.map WhenAllSlot.history = as.foldl inputStep (s.slots.map WhenAllSlot.history) := by
  induction as generalizing s with
  | nil =>
    rw [Machine.exec_nil, Option.some.injEq] at h
    rw [h]
    rfl
  | cons a as ih =>
    obtain ⟨u, hu, ht⟩ := Machine.exec_cons_eq_some.mp h
    rw [ih ht, step_history hu]
    rfl

/-- The places of the vector know what became of the inputs. -/
theorem when_all_history {inputs : List (Option (Except Exn ν))} {as : List (WhenAllAct ν)}
    {s : WhenAll ν} (h : (whenAllMachine inputs).Reaches as s) :
    s.slots.map WhenAllSlot.history = inputHistory inputs as := by
  have hinit : (init inputs).slots.map WhenAllSlot.history = inputs.map fun o => (o, false) := by
    refine (List.map_map ..).trans (List.map_congr_left fun o _ => ?_)
    cases o <;> rfl
  rw [exec_history h, inputHistory, ← hinit]
  rfl

/-- The places behind the call whose continuation is gone. -/
theorem WhenAll.Collecting.futures {s : WhenAll ν} (h : s.Collecting)
    (ha : s.available = true) :
    s.slots.map WhenAllSlot.future =
        (s.slots.map WhenAllSlot.history).map (fun o => ⟨false, .ofOutcome o.1⟩) ∧
      ∀ o ∈ s.slots.map WhenAllSlot.history, o.2 = o.1.isNone := by
  have hgone : ∀ slot ∈ s.slots, slot.future = ⟨false, .ofOutcome slot.outcome⟩ ∧
      slot.abandoned = slot.outcome.isNone := fun slot hs => by
    obtain ⟨i, hi⟩ := List.getElem?_of_mem hs
    exact (h.slots i slot hi).unlinked (h.available_iff.mp ha slot hs)
  constructor
  · rw [List.map_map]
    exact List.map_congr_left fun slot hs => (hgone slot hs).1
  · intro o ho
    obtain ⟨slot, hs, rfl⟩ := List.mem_map.mp ho
    exact (hgone slot hs).2

/-- What `when_all` promises, for inputs that went through the given: its future is resolved at
most once, not before all inputs are, once all of them are and the continuations have run, and
with the results in their places. It never fails. -/
structure Collects (inputs : List (InputHistory ν)) (s : WhenAll ν) : Prop where
  once : s.fulfilled ≤ 1
  afterAll : s.available = true → ∀ o ∈ inputs, o.1 ≠ none
  complete : s.called = true → (∀ o ∈ inputs, o.1 ≠ none) → s.tasks = [] → s.available = true
  vector : s.available = true → s.value = .result () ∧
    s.slots.map WhenAllSlot.future = inputs.map fun o => ⟨false, .ofOutcome o.1⟩
  callable : s.called = false → ∃ t, s.step .call = some t
  runnable : s.tasks ≠ [] → ∃ t, s.step .run = some t

/-- In every run in which no promise of an input is destroyed before it was resolved,
`when_all` collects the results of the inputs. -/
theorem when_all_collects {inputs : List (Option (Except Exn ν))} {as : List (WhenAllAct ν)}
    {s : WhenAll ν} (h : (whenAllMachine inputs).Reaches as s)
    (hno : ∀ o ∈ inputHistory inputs as, o.2 = false) : Collects (inputHistory inputs as) s := by
  have hi := when_all_inv h
  have hh := when_all_history h
  refine ⟨hi.once, fun ha o ho => ?_, fun hc hall hts => ?_, fun ha => ?_, fun hc => ?_,
    hi.runnable⟩
  · rw [← hh] at ho hno
    intro hnone
    have := ((hi.collecting ha).futures ha).2 o ho
    rw [hno o ho, hnone] at this
    cases this
  · have hcol : s.Collecting := hi.resolve_left fun hf => by simp [hf.called] at hc
    refine hcol.available_iff.mpr fun slot hs => ?_
    obtain ⟨i, hget⟩ := List.getElem?_of_mem hs
    have ho := hall slot.history (hh ▸ List.mem_map_of_mem hs)
    have hq : i ∉ places s.tasks := by rw [hts]; exact List.not_mem_nil
    cases hcol.slots i slot hget with
    | waiting x y hw => exact absurd rfl ho
    | queued r p y hp hw => exact absurd hw hq
    | done r p hp hw => rfl
    | dead hw => rfl
  · have hcol := hi.collecting ha
    have hgone : s.useCount = 0 := by
      by_contra h0
      rw [(hcol.shared.held h0).not_available] at ha
      cases ha
    exact ⟨(hcol.shared.gone hgone).value_eq, hh ▸ (hcol.futures ha).1⟩
  · refine hi.callable hc fun slot hs => hno slot.history ?_
    rw [← hh]
    exact List.mem_map_of_mem hs

/-- One of two inputs fails, after the other one was ready at the call. -/
theorem when_all_collects_two : ∃ s : WhenAll Nat,
    (whenAllMachine [none, some (.ok 3)]).Reaches
        [.call, .run, .resolve 0 (.error (.user 1)), .run] s ∧
      s.available = true ∧
      Collects [(some (.error (.user 1)), false), (some (.ok 3), false)] s := by
  refine ⟨_, rfl, rfl, ?_⟩
  exact when_all_collects (rfl : (whenAllMachine [none, some (.ok 3)]).Reaches
    [.call, .run, .resolve 0 (.error (.user 1)), .run] _) (by decide)

/-- In every run, where the returned future is available, all futures of the vector are, if and
only if no promise of an input was destroyed before it was resolved. -/
theorem vector_available_iff {inputs : List (Option (Except Exn ν))}
    {as : List (WhenAllAct ν)} {s : WhenAll ν} (h : (whenAllMachine inputs).Reaches as s)
    (ha : s.available = true) :
    (∀ f ∈ s.slots.map WhenAllSlot.future, f.localState.available = true) ↔
      ∀ o ∈ inputHistory inputs as, o.2 = false := by
  obtain ⟨hfut, hab⟩ := ((when_all_inv h).collecting ha).futures ha
  rw [when_all_history h] at hfut hab
  rw [hfut, List.forall_mem_map]
  refine forall₂_congr fun o ho => ?_
  rw [hab o ho]
  cases o.1 with
  | none => simp [FutureState.ofOutcome, FutureState.available]
  | some r => simp [FutureState.ofOutcome]

/-- An input that was ready and one that failed, whose promise was destroyed after that. -/
theorem vector_available_iff_two : ∃ s : WhenAll Nat,
    (whenAllMachine [some (.ok 3), none]).Reaches
        [.resolve 1 (.error (.user 1)), .destroy 1, .call, .run, .run] s ∧
      s.available = true ∧
      ((∀ f ∈ s.slots.map WhenAllSlot.future, f.localState.available = true) ↔
        ∀ o ∈ inputHistory [some (.ok 3), none]
          [.resolve 1 (.error (.user 1)), .destroy 1, .call, .run, .run], o.2 = false) := by
  refine ⟨_, rfl, rfl, ?_⟩
  exact vector_available_iff (rfl : (whenAllMachine [some (.ok 3), none]).Reaches
    [.resolve 1 (.error (.user 1)), .destroy 1, .call, .run, .run] _) rfl

/-- The promise of the only input is destroyed unresolved: the returned future is available,
and its vector holds a future that is not, and on which `then` fails its assertion. -/
theorem when_all_hands_out_dead : ∃ (s : WhenAll Nat) (f : Future Nat),
    (whenAllMachine [none]).Reaches [.call, .destroy 0] s ∧ s.available = true ∧
      f ∈ s.slots.map WhenAllSlot.future ∧ f.localState.available = false ∧
      f.schedule none () = none :=
  ⟨_, ⟨false, .future⟩, rfl, rfl, List.mem_singleton_self _, rfl, rfl⟩

end Miniss
