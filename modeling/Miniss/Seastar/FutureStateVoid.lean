import Miniss.Lib.Places
import Miniss.Lib.Lockstep
import Miniss.Util.SystemError

/-! The specialization `future_state<>` keeps the state and the exception in one word, and the
exceptions are counted by their `exception_ptr`s. `κ` are the places of states, and `η` those of
the `exception_ptr`s that the callers have. -/
namespace Miniss
variable {κ η : Type*}

/-- What is done with the states. `moved` tells the two overloads of `get` and of
`get_exception` apart; `get` leaves the exception that it throws in `x`. -/
inductive StateAct (κ η : Type*) where
  | makeException (x : η) (address : ℕ) (e : Exn)
  | copyException (x y : η)
  | dropException (x : η)
  | construct (c : κ)
  | moveConstruct (c d : κ)
  | moveAssign (c d : κ)
  | destroy (c : κ)
  | set (c : κ)
  | setException (c : κ) (x : η)
  | get (moved : Bool) (c : κ) (x : η)
  | getException (moved : Bool) (c : κ) (x : η)
  | ignore (c : κ)
  deriving DecidableEq

/-- The state of a `future_state<T...>` with no `T`. The exception is a value; the `exception_ptr`
to it may be null. -/
inductive GenericState where
  | invalid
  | future
  | result
  | exception (ex : Option Exn)
  deriving DecidableEq

namespace GenericState

def available : GenericState → Bool
  | .result | .exception _ => true
  | _ => false

def failed : GenericState → Bool
  | .exception _ => true
  | _ => false

/-- The assertion of `set` and `set_exception`. -/
def set (st ready : GenericState) : Option GenericState :=
  match st with
  | .future => some ready
  | _ => none

end GenericState

structure GenericStates (κ η : Type*) where
  states : κ → Option GenericState
  pointers : η → Option Exn

namespace GenericStates
variable [DecidableEq κ] [DecidableEq η]

def init : GenericStates κ η := ⟨fun _ => none, fun _ => none⟩

def put (s : GenericStates κ η) (c : κ) (st : GenericState) : GenericStates κ η :=
  { s with states := Function.update s.states c (some st) }

def moveConstruct (s : GenericStates κ η) (c d : κ) : Option (GenericStates κ η) :=
  match s.states c, s.states d with
  | none, some st => some ((s.put c st).put d .invalid)
  | _, _ => none

/-- What is got from `c` is kept in `x`. -/
def caught (s : GenericStates κ η) (moved : Bool) (c : κ) (x : η) (ex : Option Exn) :
    Option (GenericStates κ η) :=
  if s.pointers x = none then
    some { (if moved then s.put c .invalid else s) with
      pointers := Function.update s.pointers x ex }
  else none

def step (s : GenericStates κ η) : StateAct κ η → Option (GenericStates κ η)
  | .makeException x _ e =>
    if s.pointers x = none then some { s with pointers := Function.update s.pointers x (some e) }
    else none
  | .copyException x y =>
    if s.pointers y = none then
      some { s with pointers := Function.update s.pointers y (s.pointers x) }
    else none
  | .dropException x => some { s with pointers := Function.update s.pointers x none }
  | .construct c => if s.states c = none then some (s.put c .future) else none
  | .moveConstruct c d => s.moveConstruct c d
  | .moveAssign c d =>
    if s.states c = none then none
    else if c = d then some s
    else { s with states := Function.update s.states c none }.moveConstruct c d
  | .destroy c =>
    if s.states c = none then none
    else some { s with states := Function.update s.states c none }
  | .set c => ((s.states c).bind (·.set .result)).map (s.put c)
  | .setException c x => ((s.states c).bind (·.set (.exception (s.pointers x)))).map (s.put c)
  | .get moved c x =>
    match s.states c with
    -- `std::rethrow_exception` is not for a null pointer
    | none | some .future | some (.exception none) => none
    | some (.exception (some e)) => s.caught moved c x (some e)
    | _ => some s
  | .getException moved c x =>
    match s.states c with
    | some (.exception ex) => s.caught moved c x ex
    | _ => none
  | .ignore c =>
    match s.states c with
    | none | some .future => none
    | _ => some (s.put c .invalid)

def machine : Machine (GenericStates κ η) (StateAct κ η) := ⟨init, step⟩

end GenericStates

def exceptionMin : ℕ := 3

theorem ne_of_lt_exceptionMin {w p : ℕ} (hw : w < exceptionMin) (hp : exceptionMin ≤ p) : w ≠ p :=
  (hw.trans_le hp).ne

theorem ne_of_null {w p : ℕ} (hw : w = 0) (hp : exceptionMin ≤ p) : w ≠ p :=
  ne_of_lt_exceptionMin (by rw [hw]; decide) hp

theorem lt_exceptionMin_cases {w : ℕ} (hw : ¬exceptionMin ≤ w) : w = 0 ∨ w = 1 ∨ w = 2 := by
  unfold exceptionMin at hw
  omega

/-- The words `_u` of the states that there are, the `exception_ptr`s of the callers (0 is the null
pointer), and at each address the exception and its reference count. -/
structure PackedStates (κ η : Type*) where
  words : κ → Option ℕ
  pointers : η → ℕ
  exceptions : ℕ → Exn
  refs : ℕ → ℕ

namespace PackedStates

def init (junk : Exn) : PackedStates κ η := ⟨fun _ => none, fun _ => 0, fun _ => junk, fun _ => 0⟩

/-- The copy constructor of `exception_ptr`: an object that is gone is not counted. -/
def acquire (s : PackedStates κ η) (p : ℕ) : Option (PackedStates κ η) :=
  if p = 0 then some s
  else if s.refs p = 0 then none
  else some { s with refs := Function.update s.refs p (s.refs p + 1) }

/-- `~exception_ptr`: with the last one the exception goes, and it does not go twice. -/
def release (s : PackedStates κ η) (p : ℕ) : Option (PackedStates κ η) :=
  if p = 0 then some s
  else if s.refs p = 0 then none
  else some { s with refs := Function.update s.refs p (s.refs p - 1) }

/-- `~future_state`, of the word `w`. -/
def releaseState (s : PackedStates κ η) (w : ℕ) : Option (PackedStates κ η) :=
  if exceptionMin ≤ w then s.release w else some s

/-- `acquire` counts one more pointer to an object that is there. -/
theorem acquire_eq {s : PackedStates κ η} {p : ℕ} (hp : p ≠ 0 → s.refs p ≠ 0) :
    ∃ refs, s.acquire p = some { s with refs := refs } ∧
      ∀ q, exceptionMin ≤ q → refs q = s.refs q + (if p = q then 1 else 0) := by
  by_cases hp0 : p = 0
  · refine ⟨s.refs, if_pos hp0, fun q hq => ?_⟩
    have hne : p ≠ q := ne_of_null hp0 hq
    rw [if_neg hne, Nat.add_zero]
  · refine ⟨_, by rw [acquire, if_neg hp0, if_neg (hp hp0)], fun q _ => ?_⟩
    grind

theorem release_eq {s : PackedStates κ η} {p : ℕ} (hp : p ≠ 0 → s.refs p ≠ 0) :
    ∃ refs, s.release p = some { s with refs := refs } ∧
      ∀ q, exceptionMin ≤ q → refs q + (if p = q then 1 else 0) = s.refs q := by
  by_cases hp0 : p = 0
  · refine ⟨s.refs, if_pos hp0, fun q hq => ?_⟩
    have hne : p ≠ q := ne_of_null hp0 hq
    rw [if_neg hne, Nat.add_zero]
  · have hrefs := hp hp0
    refine ⟨_, by rw [release, if_neg hp0, if_neg hrefs], fun q _ => ?_⟩
    grind

variable [DecidableEq κ] [DecidableEq η]

def put (s : PackedStates κ η) (c : κ) (w : ℕ) : PackedStates κ η :=
  { s with words := Function.update s.words c (some w) }

/-- The move constructor: a word that is a pointer is moved, and is not counted again. -/
def moveConstruct (s : PackedStates κ η) (c d : κ) : Option (PackedStates κ η) :=
  match s.words c, s.words d with
  | none, some w => some ((s.put c w).put d 0)
  | _, _ => none

/-- The exception in `c` gets to `x`: with its pointer, or as one more. -/
def caught (s : PackedStates κ η) (moved : Bool) (c : κ) (x : η) (p : ℕ) :
    Option (PackedStates κ η) :=
  if s.pointers x = 0 ∧ s.refs p ≠ 0 then
    (if moved then some (s.put c 0) else s.acquire p).map fun s =>
      { s with pointers := Function.update s.pointers x p }
  else none

def step (s : PackedStates κ η) : StateAct κ η → Option (PackedStates κ η)
  | .makeException x p e =>
    if s.pointers x = 0 ∧ exceptionMin ≤ p ∧ s.refs p = 0 then
      some { s with
        pointers := Function.update s.pointers x p
        exceptions := Function.update s.exceptions p e
        refs := Function.update s.refs p 1 }
    else none
  | .copyException x y =>
    if s.pointers y = 0 then
      (s.acquire (s.pointers x)).map fun s =>
        { s with pointers := Function.update s.pointers y (s.pointers x) }
    else none
  | .dropException x =>
    (s.release (s.pointers x)).map fun s =>
      { s with pointers := Function.update s.pointers x 0 }
  | .construct c => if s.words c = none then some (s.put c 1) else none
  | .moveConstruct c d => s.moveConstruct c d
  | .moveAssign c d =>
    (s.words c).bind fun w =>
      if c = d then some s
      else (s.releaseState w).bind fun s =>
        { s with words := Function.update s.words c none }.moveConstruct c d
  | .destroy c =>
    (s.words c).bind fun w => (s.releaseState w).map fun s =>
      { s with words := Function.update s.words c none }
  | .set c => if s.words c = some 1 then some (s.put c 2) else none
  | .setException c x =>
    if s.words c = some 1 ∧ exceptionMin ≤ s.pointers x then
      (s.acquire (s.pointers x)).map (·.put c (s.pointers x))
    else none
  | .get moved c x =>
    (s.words c).bind fun w =>
      if w = 1 then none else if exceptionMin ≤ w then s.caught moved c x w else some s
  | .getException moved c x =>
    (s.words c).bind fun w => if exceptionMin ≤ w then s.caught moved c x w else none
  | .ignore c =>
    (s.words c).bind fun w =>
      if w = 1 then none else (s.releaseState w).map (·.put c 0)

def machine (junk : Exn) : Machine (PackedStates κ η) (StateAct κ η) := ⟨init junk, step⟩

end PackedStates

/-- The state that a word stands for, and the exception that a pointer stands for. -/
def wordState (exceptions : ℕ → Exn) (w : ℕ) : GenericState :=
  if w = 0 then .invalid
  else if w = 1 then .future
  else if w = 2 then .result
  else .exception (some (exceptions w))

theorem wordState_of_le {exceptions : ℕ → Exn} {p : ℕ} (hp : exceptionMin ≤ p) :
    wordState exceptions p = .exception (some (exceptions p)) := by
  unfold exceptionMin at hp
  rw [wordState, if_neg (by omega), if_neg (by omega), if_neg (by omega)]

def pointee (exceptions : ℕ → Exn) (p : ℕ) : Option Exn :=
  if p = 0 then none else some (exceptions p)

def wordAvailable (w : ℕ) : Bool := w = 2 || exceptionMin ≤ w

def wordFailed (w : ℕ) : Bool := exceptionMin ≤ w

theorem observers_wordState {exceptions : ℕ → Exn} (w : ℕ) :
    (wordState exceptions w).available = wordAvailable w ∧
      (wordState exceptions w).failed = wordFailed w := by
  by_cases hw : exceptionMin ≤ w
  · simp [wordState_of_le hw, wordAvailable, wordFailed, hw, GenericState.available,
      GenericState.failed]
  · obtain rfl | rfl | rfl := lt_exceptionMin_cases hw
    all_goals exact ⟨rfl, rfl⟩

/-- The states and the exceptions are those of `t`, and each exception is counted by the words and
the `exception_ptr`s that point to it. -/
structure PackedStates.Represents [Fintype κ] [Fintype η] (s : PackedStates κ η)
    (t : GenericStates κ η) : Prop where
  states : ∀ c, (s.words c).map (wordState s.exceptions) = t.states c
  pointers : ∀ x, pointee s.exceptions (s.pointers x) = t.pointers x
  counted : ∀ p, exceptionMin ≤ p → s.refs p = placesOf s.words (some p) + placesOf s.pointers p
  valid : ∀ x, s.pointers x = 0 ∨ exceptionMin ≤ s.pointers x

/-- What the specialization asks for, and the generic `future_state` does not: an exception gets an
address that is free and is not one of the states, and `set_exception` no null pointer. -/
def StateAct.Fits (s : PackedStates κ η) : StateAct κ η → Prop
  | .makeException _ p _ => exceptionMin ≤ p ∧ s.refs p = 0
  | .setException _ x => s.pointers x ≠ 0
  | _ => True

namespace PackedStates.Represents
variable [Fintype κ] [Fintype η] {s : PackedStates κ η} {t : GenericStates κ η}

theorem refs_word (h : Represents s t) {c : κ} {p : ℕ} (hc : s.words c = some p)
    (hp : exceptionMin ≤ p) : s.refs p ≠ 0 := by
  have hheld : placesOf s.words (some p) ≠ 0 := fun h => placesOf_eq_zero.mp h c hc
  rw [h.counted p hp]
  omega

theorem refs_pointer (h : Represents s t) {x : η} (hx : s.pointers x ≠ 0) :
    s.refs (s.pointers x) ≠ 0 := by
  have hp := (h.valid x).resolve_left hx
  have hheld : placesOf s.pointers (s.pointers x) ≠ 0 := fun h => placesOf_eq_zero.mp h x rfl
  rw [h.counted _ hp]
  omega

theorem init (junk : Exn) : Represents (PackedStates.init junk : PackedStates κ η) .init where
  states _ := rfl
  pointers _ := rfl
  counted p hp := by
    have hp0 : 0 ≠ p := ne_of_null rfl hp
    simp [PackedStates.init, placesOf, hp0]
  valid _ := .inl rfl

/-- A word is written, and the counts follow it. -/
theorem word [DecidableEq κ] (h : Represents s t) (refs : ℕ → ℕ) {c : κ} {v : Option ℕ}
    (hrefs : ∀ p, exceptionMin ≤ p → refs p + (if s.words c = some p then 1 else 0) =
      s.refs p + (if v = some p then 1 else 0)) :
    Represents { s with words := Function.update s.words c v, refs := refs }
      { t with states := Function.update t.states c (v.map (wordState s.exceptions)) } where
  states a := by
    by_cases ha : a = c
    · subst ha
      simp only [Function.update_self]
    · simp only [Function.update_of_ne ha, h.states a]
  pointers := h.pointers
  counted p hp := by
    have hheld := placesOf_update s.words c v (some p)
    have hp' := hrefs p hp
    have hs := h.counted p hp
    dsimp only
    omega
  valid := h.valid

theorem pointer [DecidableEq η] (h : Represents s t) (refs : ℕ → ℕ) {x : η} {q : ℕ}
    (hq : q = 0 ∨ exceptionMin ≤ q)
    (hrefs : ∀ p, exceptionMin ≤ p → refs p + (if s.pointers x = p then 1 else 0) =
      s.refs p + (if q = p then 1 else 0)) :
    Represents { s with pointers := Function.update s.pointers x q, refs := refs }
      { t with pointers := Function.update t.pointers x (pointee s.exceptions q) } where
  states := h.states
  pointers y := by
    by_cases hy : y = x
    · subst hy
      simp only [Function.update_self]
    · simp only [Function.update_of_ne hy, h.pointers y]
  counted p hp := by
    have hheld := placesOf_update s.pointers x q p
    have hp' := hrefs p hp
    have hs := h.counted p hp
    dsimp only
    omega
  valid y := by
    by_cases hy : y = x
    · subst hy
      simpa only [Function.update_self] using hq
    · simpa only [Function.update_of_ne hy] using h.valid y

/-- Nobody sees the object at an address that nobody has. -/
theorem allocate (h : Represents s t) {p : ℕ} (hp : exceptionMin ≤ p) (hfree : s.refs p = 0)
    (e : Exn) : Represents { s with exceptions := Function.update s.exceptions p e } t where
  states c := by
    rw [← h.states c]
    cases hc : s.words c with
    | none => rfl
    | some w =>
      have hw : w ≠ p := by
        rintro rfl
        exact h.refs_word hc hp hfree
      simp only [Option.map_some, wordState, Function.update_of_ne hw]
  pointers x := by
    rw [← h.pointers x]
    by_cases hx : s.pointers x = 0
    · simp only [pointee, hx, if_true]
    · have hw : s.pointers x ≠ p := by
        intro he
        exact h.refs_pointer hx (he ▸ hfree)
      simp only [pointee, Function.update_of_ne hw]
  counted := h.counted
  valid := h.valid

theorem cell (h : Represents s t) (c : κ) : s.words c = none ∧ t.states c = none ∨
    ∃ w, s.words c = some w ∧ t.states c = some (wordState s.exceptions w) := by
  rw [← h.states c]
  cases s.words c with
  | none => exact .inl ⟨rfl, rfl⟩
  | some w => exact .inr ⟨w, rfl, rfl⟩

theorem settable (h : Represents s t) (c : κ) (ready : GenericState) :
    (s.words c = some 1 ∧ (t.states c).bind (·.set ready) = some ready) ∨
      (s.words c ≠ some 1 ∧ (t.states c).bind (·.set ready) = none) := by
  obtain ⟨hc, htc⟩ | ⟨w, hc, htc⟩ := h.cell c
  · exact .inr ⟨by simp [hc], by rw [htc]; rfl⟩
  · by_cases hw : w = 1
    · subst hw
      exact .inl ⟨hc, by rw [htc]; rfl⟩
    · refine .inr ⟨by simpa [hc] using hw, ?_⟩
      rw [htc, Option.bind_some, wordState]
      split_ifs <;> rfl

theorem pointer_null (h : Represents s t) (x : η) : s.pointers x = 0 ↔ t.pointers x = none := by
  rw [← h.pointers x, pointee]
  split_ifs with hx <;> simp [hx]

theorem releaseState_eq (h : Represents s t) {c : κ} {w : ℕ} (hc : s.words c = some w) :
    ∃ refs, s.releaseState w = some { s with refs := refs } ∧
      ∀ q, exceptionMin ≤ q → refs q + (if w = q then 1 else 0) = s.refs q := by
  by_cases hw : exceptionMin ≤ w
  · rw [releaseState, if_pos hw]
    exact release_eq fun _ => h.refs_word hc hw
  · refine ⟨s.refs, if_neg hw, fun q hq => ?_⟩
    have hne : w ≠ q := by omega
    rw [if_neg hne, Nat.add_zero]

variable [DecidableEq κ]

/-- A word that is no pointer takes the place of another one. -/
theorem put (h : Represents s t) {c : κ} {v : ℕ} (hv : v < exceptionMin)
    (hc : ∀ p, exceptionMin ≤ p → s.words c ≠ some p) :
    Represents (s.put c v) (t.put c (wordState s.exceptions v)) := by
  refine h.word s.refs (v := some v) fun p hp => ?_
  have hne : v ≠ p := by omega
  rw [if_neg (hc p hp), if_neg fun he => hne (Option.some.inj he)]

theorem moveConstruct (h : Represents s t) (c d : κ) :
    Option.Rel Represents (s.moveConstruct c d) (t.moveConstruct c d) := by
  unfold PackedStates.moveConstruct GenericStates.moveConstruct
  obtain ⟨hc, htc⟩ | ⟨w, hc, htc⟩ := h.cell c
  · obtain ⟨hd, htd⟩ | ⟨w, hd, htd⟩ := h.cell d
    · rw [hc, hd, htc, htd]
      exact .none
    · rw [hc, hd, htc, htd]
      have hne : d ≠ c := by
        rintro rfl
        cases hc.symm.trans hd
      have hone := h.word (fun p => s.refs p + (if some w = some p then 1 else 0)) (c := c)
        (v := some w) fun p _ => by simp [hc]
      refine .some (hone.word s.refs (c := d) (v := some 0) fun p hp => ?_)
      have hp0 : 0 ≠ p := ne_of_null rfl hp
      simp [Function.update_of_ne hne, hd, hp0]
  · rw [hc, htc]
    exact .none

variable [DecidableEq η]

theorem caught (h : Represents s t) {c : κ} {p : ℕ} (hc : s.words c = some p)
    (hp : exceptionMin ≤ p) (moved : Bool) (x : η) :
    Option.Rel Represents (s.caught moved c x p) (t.caught moved c x (some (s.exceptions p))) := by
  have hrefs := h.refs_word hc hp
  have hp0 : p ≠ 0 := (ne_of_null rfl hp).symm
  have hpoint : some (s.exceptions p) = pointee s.exceptions p := (if_neg hp0).symm
  unfold PackedStates.caught GenericStates.caught
  by_cases hx : s.pointers x = 0
  · rw [if_pos ⟨hx, hrefs⟩, if_pos ((h.pointer_null x).mp hx), hpoint]
    cases moved with
    | true =>
      have hone := h.word (Function.update s.refs p (s.refs p - 1)) (c := c) (v := some 0)
        fun q hq => by
          unfold exceptionMin at hq
          grind
      refine .some (hone.pointer s.refs (x := x) (q := p) (.inr hp) fun q hq => ?_)
      unfold exceptionMin at hq
      grind
    | false =>
      obtain ⟨refs, he, hcount⟩ := acquire_eq (s := s) fun _ => hrefs
      rw [if_neg Bool.false_ne_true, he]
      refine .some (h.pointer refs (.inr hp) fun q hq => ?_)
      have hq0 : s.pointers x ≠ q := ne_of_null hx hq
      rw [if_neg hq0, Nat.add_zero]
      exact hcount q hq
  · rw [if_neg fun h => hx h.1, if_neg (mt (h.pointer_null x).mpr hx)]
    exact .none

theorem makeException (h : Represents s t) {p : ℕ} (hp : exceptionMin ≤ p) (hfree : s.refs p = 0)
    (x : η) (e : Exn) : Option.Rel Represents (s.step (.makeException x p e))
      (t.step (.makeException x p e)) := by
  have hp0 : p ≠ 0 := (ne_of_null rfl hp).symm
  simp only [PackedStates.step, GenericStates.step]
  by_cases hx : s.pointers x = 0
  · rw [if_pos ⟨hx, hp, hfree⟩, if_pos ((h.pointer_null x).mp hx)]
    have hone := (h.allocate hp hfree e).pointer (Function.update s.refs p 1) (x := x)
      (q := p) (.inr hp) fun q hq => by
        unfold exceptionMin at hq
        grind
    have hpoint : pointee (Function.update s.exceptions p e) p = some e := by
      rw [pointee, if_neg hp0, Function.update_self]
    dsimp only at hone
    rw [hpoint] at hone
    exact .some hone
  · rw [if_neg fun h => hx h.1, if_neg (mt (h.pointer_null x).mpr hx)]
    exact .none

theorem copyException (h : Represents s t) (x y : η) :
    Option.Rel Represents (s.step (.copyException x y)) (t.step (.copyException x y)) := by
  simp only [PackedStates.step, GenericStates.step]
  by_cases hy : s.pointers y = 0
  · obtain ⟨refs, he, hcount⟩ := acquire_eq (s := s) (h.refs_pointer (x := x))
    rw [if_pos hy, if_pos ((h.pointer_null y).mp hy), he, ← h.pointers x]
    refine .some (h.pointer refs (h.valid x) fun q hq => ?_)
    have hq0 : s.pointers y ≠ q := ne_of_null hy hq
    rw [if_neg hq0, Nat.add_zero]
    exact hcount q hq
  · rw [if_neg hy, if_neg (mt (h.pointer_null y).mpr hy)]
    exact .none

theorem dropException (h : Represents s t) (x : η) :
    Option.Rel Represents (s.step (.dropException x)) (t.step (.dropException x)) := by
  obtain ⟨refs, he, hcount⟩ := release_eq (s := s) (h.refs_pointer (x := x))
  simp only [PackedStates.step, GenericStates.step]
  rw [he]
  refine .some (h.pointer refs (q := 0) (.inl rfl) fun q hq => ?_)
  have hq0 : 0 ≠ q := ne_of_null rfl hq
  rw [if_neg hq0, Nat.add_zero]
  exact hcount q hq

theorem construct (h : Represents s t) (c : κ) :
    Option.Rel Represents (s.step (.construct c)) (t.step (.construct c)) := by
  simp only [PackedStates.step, GenericStates.step]
  obtain ⟨hc, htc⟩ | ⟨w, hc, htc⟩ := h.cell c
  · rw [if_pos hc, if_pos htc]
    exact .some (h.put (v := 1) (by decide) (by simp [hc]))
  · rw [if_neg (by simp [hc]), if_neg (by simp [htc])]
    exact .none

theorem moveAssign (h : Represents s t) (c d : κ) :
    Option.Rel Represents (s.step (.moveAssign c d)) (t.step (.moveAssign c d)) := by
  simp only [PackedStates.step, GenericStates.step]
  obtain ⟨hc, htc⟩ | ⟨w, hc, htc⟩ := h.cell c
  · rw [hc, if_pos htc]
    exact .none
  · rw [hc, if_neg (by simp [htc]), Option.bind_some]
    by_cases hcd : c = d
    · rw [if_pos hcd, if_pos hcd]
      exact .some h
    · obtain ⟨refs, he, hcount⟩ := h.releaseState_eq hc
      rw [if_neg hcd, if_neg hcd, he]
      have hone := h.word refs (c := c) (v := none) fun q hq => by
        simpa [hc] using hcount q hq
      exact hone.moveConstruct c d

theorem destroy (h : Represents s t) (c : κ) :
    Option.Rel Represents (s.step (.destroy c)) (t.step (.destroy c)) := by
  simp only [PackedStates.step, GenericStates.step]
  obtain ⟨hc, htc⟩ | ⟨w, hc, htc⟩ := h.cell c
  · rw [hc, if_pos htc]
    exact .none
  · obtain ⟨refs, he, hcount⟩ := h.releaseState_eq hc
    rw [hc, if_neg (by simp [htc]), Option.bind_some, he]
    exact .some (h.word refs (v := none) fun q hq => by simpa [hc] using hcount q hq)

theorem set (h : Represents s t) (c : κ) :
    Option.Rel Represents (s.step (.set c)) (t.step (.set c)) := by
  simp only [PackedStates.step, GenericStates.step]
  obtain ⟨hc, htc⟩ | ⟨hc, htc⟩ := h.settable c .result
  · rw [if_pos hc, htc]
    refine .some (h.put (v := 2) (by decide) fun p hp hcp => ?_)
    exact ne_of_lt_exceptionMin (by decide) hp (Option.some.inj (hc.symm.trans hcp))
  · rw [if_neg hc, htc]
    exact .none

theorem setException (h : Represents s t) (c : κ) {x : η} (hx : s.pointers x ≠ 0) :
    Option.Rel Represents (s.step (.setException c x)) (t.step (.setException c x)) := by
  have hp := (h.valid x).resolve_left hx
  simp only [PackedStates.step, GenericStates.step]
  rw [← h.pointers x, pointee, if_neg hx]
  obtain ⟨hc, htc⟩ | ⟨hc, htc⟩ := h.settable c (.exception (some (s.exceptions (s.pointers x))))
  · obtain ⟨refs, he, hcount⟩ := acquire_eq (s := s) (h.refs_pointer (x := x))
    rw [if_pos ⟨hc, hp⟩, htc, he]
    have hone := h.word refs (c := c) (v := some (s.pointers x)) fun q hq => by
      have hq1 : 1 ≠ q := ne_of_lt_exceptionMin (by decide) hq
      simp [hcount q hq, hc, hq1]
    rw [Option.map_some, wordState_of_le hp] at hone
    exact .some hone
  · rw [if_neg fun h => hc h.1, htc]
    exact .none

theorem get (h : Represents s t) (moved : Bool) (c : κ) (x : η) :
    Option.Rel Represents (s.step (.get moved c x)) (t.step (.get moved c x)) := by
  simp only [PackedStates.step, GenericStates.step]
  obtain ⟨hc, htc⟩ | ⟨w, hc, htc⟩ := h.cell c
  · rw [hc, htc]
    exact .none
  · rw [hc, htc, Option.bind_some]
    by_cases hw : exceptionMin ≤ w
    · have hw1 : 1 ≠ w := ne_of_lt_exceptionMin (by decide) hw
      rw [if_neg hw1.symm, if_pos hw, wordState_of_le hw]
      exact h.caught hc hw moved x
    · rw [if_neg hw]
      obtain rfl | rfl | rfl := lt_exceptionMin_cases hw
      · exact .some h
      · exact .none
      · exact .some h

theorem getException (h : Represents s t) (moved : Bool) (c : κ) (x : η) :
    Option.Rel Represents (s.step (.getException moved c x))
      (t.step (.getException moved c x)) := by
  simp only [PackedStates.step, GenericStates.step]
  obtain ⟨hc, htc⟩ | ⟨w, hc, htc⟩ := h.cell c
  · rw [hc, htc]
    exact .none
  · rw [hc, htc, Option.bind_some]
    by_cases hw : exceptionMin ≤ w
    · rw [if_pos hw, wordState_of_le hw]
      exact h.caught hc hw moved x
    · rw [if_neg hw]
      obtain rfl | rfl | rfl := lt_exceptionMin_cases hw
      all_goals exact .none

theorem ignore (h : Represents s t) (c : κ) :
    Option.Rel Represents (s.step (.ignore c)) (t.step (.ignore c)) := by
  simp only [PackedStates.step, GenericStates.step]
  obtain ⟨hc, htc⟩ | ⟨w, hc, htc⟩ := h.cell c
  · rw [hc, htc]
    exact .none
  · obtain ⟨refs, he, hcount⟩ := h.releaseState_eq hc
    have hone := h.word refs (c := c) (v := some 0) fun q hq => by
      have hq0 : 0 ≠ q := ne_of_null rfl hq
      simpa [hc, hq0] using hcount q hq
    rw [hc, htc, Option.bind_some, he]
    by_cases hw : exceptionMin ≤ w
    · have hw1 : 1 ≠ w := ne_of_lt_exceptionMin (by decide) hw
      rw [if_neg hw1.symm, wordState_of_le hw]
      exact .some hone
    · obtain rfl | rfl | rfl := lt_exceptionMin_cases hw
      · exact .some hone
      · exact .none
      · exact .some hone

/-- The packed states go with the generic ones, where what the specialization asks for is met. -/
theorem step (h : Represents s t) {a : StateAct κ η} (ha : a.Fits s) :
    Option.Rel Represents (s.step a) (t.step a) := by
  cases a with
  | makeException x p e => exact h.makeException ha.1 ha.2 x e
  | copyException x y => exact h.copyException x y
  | dropException x => exact h.dropException x
  | construct c => exact h.construct c
  | moveConstruct c d => exact h.moveConstruct c d
  | moveAssign c d => exact h.moveAssign c d
  | destroy c => exact h.destroy c
  | set c => exact h.set c
  | setException c x => exact h.setException c ha
  | get moved c x => exact h.get moved c x
  | getException moved c x => exact h.getException moved c x
  | ignore c => exact h.ignore c

end PackedStates.Represents

variable [DecidableEq κ] [DecidableEq η] {junk : Exn} {as : List (StateAct κ η)}
  {s s' : PackedStates κ η}

theorem PackedStates.fits_of_step {a : StateAct κ η} (h : s.step a = some s') : a.Fits s := by
  cases a with
  | makeException x p e =>
    simp only [PackedStates.step] at h
    split_ifs at h with hx
    exact hx.2
  | setException c x =>
    simp only [PackedStates.step] at h
    split_ifs at h with hx
    exact (ne_of_null rfl hx.2).symm
  | _ => trivial

variable [Fintype κ] [Fintype η]

theorem packed_represents (h : (PackedStates.machine junk).Reaches as s) :
    ∃ t, GenericStates.machine.Reaches as t ∧ s.Represents t := by
  refine Machine.exec_followed (fun s t a u hst hu => ?_) (.init junk) h
  have hrel := hst.step (PackedStates.fits_of_step hu)
  rw [show s.step a = some u from hu] at hrel
  cases hrel' : t.step a with
  | none =>
    rw [hrel'] at hrel
    cases hrel
  | some v =>
    rw [hrel'] at hrel
    exact ⟨v, hrel', Option.rel_some_some.mp hrel⟩

/-- The packing does not show: the states and the exceptions of the callers are those of the
generic `future_state`, as `available` and `failed` tell, and so is what can be done next, but for
what the specialization asks for. In particular the word of an exception is never taken for another
state, and no exception is used or freed that is gone. -/
theorem packed_states_agree (h : (PackedStates.machine junk).Reaches as s) :
    ∃ t, GenericStates.machine.Reaches as t ∧
      (∀ c, (s.words c).map (wordState s.exceptions) = t.states c) ∧
      (∀ x, pointee s.exceptions (s.pointers x) = t.pointers x) ∧
      (∀ c w st, s.words c = some w → t.states c = some st →
        wordAvailable w = st.available ∧ wordFailed w = st.failed) ∧
      ∀ a, (s.step a).isSome ↔ a.Fits s ∧ (t.step a).isSome := by
  obtain ⟨t, ht, hst⟩ := packed_represents h
  refine ⟨t, ht, hst.states, hst.pointers, fun c w st hw hc => ?_, fun a => ?_⟩
  · have hstate : some (wordState s.exceptions w) = some st := by
      rw [← hc, ← hst.states c, hw, Option.map_some]
    rw [← Option.some.inj hstate]
    exact (observers_wordState w).imp Eq.symm Eq.symm
  constructor
  · intro ha
    obtain ⟨u, hu⟩ := Option.isSome_iff_exists.mp ha
    have hfits := PackedStates.fits_of_step hu
    exact ⟨hfits, (isSome_iff_of_rel (hst.step hfits)).mp ha⟩
  · rintro ⟨hfits, ha⟩
    exact (isSome_iff_of_rel (hst.step hfits)).mpr ha

/-- An exception is set, moved with its state, and caught; the address is used once more. -/
def movedExceptions : List (StateAct (Fin 2) (Fin 2)) :=
  [.makeException 0 3 (.user 1), .construct 0, .setException 0 0, .dropException 0,
    .moveConstruct 1 0, .get true 1 1, .dropException 1, .makeException 0 3 (.user 2),
    .moveAssign 0 1, .ignore 1]

theorem packed_states_agree_moved : ∃ s t,
    (PackedStates.machine (.user 0)).Reaches movedExceptions s ∧
    GenericStates.machine.Reaches movedExceptions t ∧
    t.states 0 = some .invalid ∧ t.pointers 0 = some (.user 2) ∧ t.pointers 1 = none := by
  have hrun : ∃ s, (PackedStates.machine (.user 0)).Reaches movedExceptions s ∧
    (s.words 0).map (wordState s.exceptions) = some .invalid ∧
    pointee s.exceptions (s.pointers 0) = some (.user 2) ∧
    pointee s.exceptions (s.pointers 1) = none := ⟨_, rfl, rfl, rfl, rfl⟩
  obtain ⟨s, hs, h0, hx0, hx1⟩ := hrun
  obtain ⟨t, ht, hstates, hpointers, -, -⟩ := packed_states_agree hs
  exact ⟨s, t, hs, ht, (hstates 0).symm.trans h0, (hpointers 0).symm.trans hx0,
    (hpointers 1).symm.trans hx1⟩

/-- An exception is counted exactly by what points to it, and it is there as long as something
does. -/
theorem exceptions_counted (h : (PackedStates.machine junk).Reaches as s) {p : ℕ}
    (hp : exceptionMin ≤ p) : s.refs p = placesOf s.words (some p) + placesOf s.pointers p ∧
      (s.refs p = 0 ↔ (∀ c, s.words c ≠ some p) ∧ ∀ x, s.pointers x ≠ p) := by
  obtain ⟨t, -, hst⟩ := packed_represents h
  have hcount := hst.counted p hp
  refine ⟨hcount, ?_⟩
  rw [hcount, Nat.add_eq_zero_iff, placesOf_eq_zero, placesOf_eq_zero]

theorem exceptions_counted_shared : ∃ s : PackedStates (Fin 2) (Fin 2),
    (PackedStates.machine (.user 0)).Reaches [.makeException 0 3 (.user 1), .construct 0,
      .setException 0 0, .getException false 0 1] s ∧
    placesOf s.words (some 3) + placesOf s.pointers 3 = 3 := by
  have hrun : ∃ s : PackedStates (Fin 2) (Fin 2),
      (PackedStates.machine (.user 0)).Reaches [.makeException 0 3 (.user 1), .construct 0,
        .setException 0 0, .getException false 0 1] s ∧ s.refs 3 = 3 := ⟨_, rfl, rfl⟩
  obtain ⟨s, hs, hrefs⟩ := hrun
  exact ⟨s, hs, (exceptions_counted hs le_rfl).1.symm.trans hrefs⟩

end Miniss
