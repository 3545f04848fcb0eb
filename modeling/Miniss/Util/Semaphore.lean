import Miniss.Lib.Machine
import Mathlib.Algebra.Order.Ring.Nat

/-! `Semaphore`: a token count and a list of parked waiters. A waiter is named by what its
promise resolves, so `wait` says whether its future is ready at once, and `release` which
parked promise it resolves. -/
namespace Miniss

def sizeAdd (a b : Nat) : Nat := (a + b) % 2 ^ 64

theorem sizeAdd_of_lt {a b : Nat} (h : a + b < 2 ^ 64) : sizeAdd a b = a + b :=
  Nat.mod_eq_of_lt h

structure Entry (π : Type*) where
  tokens : Nat
  pr : π

structure Semaphore (π : Type*) where
  tokens : Nat
  waitingList : List (Entry π)

namespace Semaphore
variable {π : Type*}

def wait (s : Semaphore π) (tokens : Nat) (pr : π) : Semaphore π × Bool :=
  if tokens < s.tokens ∧ s.waitingList.isEmpty then
    ({ s with tokens := s.tokens - tokens }, true)
  else ({ s with waitingList := s.waitingList ++ [⟨tokens, pr⟩] }, false)

def release (s : Semaphore π) (tokens : Nat) : Semaphore π × Option π :=
  let free := sizeAdd s.tokens tokens
  match s.waitingList with
  | [] => (⟨free, []⟩, none)
  | e :: rest =>
    if free < e.tokens then (⟨free, e :: rest⟩, none)
    else (⟨free - e.tokens, rest⟩, some e.pr)

theorem wait_of_lt (s : Semaphore π) (tokens : Nat) (pr : π)
    (h : tokens < s.tokens) (he : s.waitingList = []) :
    s.wait tokens pr = (⟨s.tokens - tokens, []⟩, true) := by
  simp [wait, h, he]

theorem wait_of_le (s : Semaphore π) (tokens : Nat) (pr : π) (h : s.tokens ≤ tokens) :
    s.wait tokens pr = (⟨s.tokens, s.waitingList ++ [⟨tokens, pr⟩]⟩, false) := by
  simp [wait, Nat.not_lt.mpr h]

theorem wait_of_parked (s : Semaphore π) (tokens : Nat) (pr : π) (h : s.waitingList ≠ []) :
    s.wait tokens pr = (⟨s.tokens, s.waitingList ++ [⟨tokens, pr⟩]⟩, false) := by
  simp [wait, h]

/-- What `wait` can do: take the tokens with nobody ahead, or park at the end. -/
theorem wait_cases (s : Semaphore π) (tokens : Nat) (pr : π) :
    (tokens < s.tokens ∧ s.waitingList = [] ∧
      s.wait tokens pr = (⟨s.tokens - tokens, []⟩, true)) ∨
    ((s.waitingList = [] → s.tokens ≤ tokens) ∧
      s.wait tokens pr = (⟨s.tokens, s.waitingList ++ [⟨tokens, pr⟩]⟩, false)) := by
  by_cases he : s.waitingList = []
  · by_cases h : tokens < s.tokens
    · exact .inl ⟨h, he, wait_of_lt s tokens pr h he⟩
    · exact .inr ⟨fun _ => Nat.not_lt.mp h, wait_of_le s tokens pr (Nat.not_lt.mp h)⟩
  · exact .inr ⟨fun h => absurd h he, wait_of_parked s tokens pr he⟩

/-- What `release` can do: wake nobody, or resolve the front waiter and no other. -/
theorem release_cases (s : Semaphore π) (tokens : Nat) :
    ((∀ e rest, s.waitingList = e :: rest → sizeAdd s.tokens tokens < e.tokens) ∧
      s.release tokens = (⟨sizeAdd s.tokens tokens, s.waitingList⟩, none)) ∨
    ∃ e rest, s.waitingList = e :: rest ∧ e.tokens ≤ sizeAdd s.tokens tokens ∧
      s.release tokens = (⟨sizeAdd s.tokens tokens - e.tokens, rest⟩, some e.pr) := by
  cases hw : s.waitingList with
  | nil => exact .inl ⟨by simp, by simp [release, hw]⟩
  | cons e rest =>
    by_cases h : sizeAdd s.tokens tokens < e.tokens
    · refine .inl ⟨?_, by simp [release, hw, h]⟩
      rintro e' rest' he
      obtain ⟨rfl, rfl⟩ := List.cons.inj he
      exact h
    · exact .inr ⟨e, rest, rfl, Nat.not_lt.mp h, by simp [release, hw, h]⟩

/-- A call on a semaphore, in the order the owner makes them. -/
inductive Call (π : Type*) where
  | wait (tokens : Nat) (pr : π)
  | release (tokens : Nat)

def apply (s : Semaphore π) : Call π → Semaphore π
  | .wait tokens pr => (s.wait tokens pr).1
  | .release tokens => (s.release tokens).1

/-- A semaphore of `n` tokens under arbitrary calls. -/
def calls (n : Nat) : Machine (Semaphore π) (Call π) where
  init := ⟨n, []⟩
  step s c := some (s.apply c)

/-- Nobody is parked, or the front waiter asks for more than is free. -/
def Settled (s : Semaphore π) : Prop :=
  ∀ e rest, s.waitingList = e :: rest → s.tokens < e.tokens

/-- The calls on which `wait` and `release` agree about who can be served: an unobstructed
`wait` does not ask for exactly the free tokens, and a `release` that serves the front
waiter does not free enough for the next one as well. -/
def Call.Agrees (s : Semaphore π) : Call π → Prop
  | .wait tokens _ => s.waitingList = [] → tokens ≠ s.tokens
  | .release tokens => ∀ e f rest, s.waitingList = e :: f :: rest →
      e.tokens ≤ sizeAdd s.tokens tokens → sizeAdd s.tokens tokens < e.tokens + f.tokens

theorem settled_of_empty {s : Semaphore π} (h : s.waitingList = []) : s.Settled := by
  intro e rest he
  rw [h] at he
  cases he

theorem settled_wait (s : Semaphore π) (tokens : Nat) (pr : π) (hs : s.Settled) :
    (s.wait tokens pr).1.Settled ↔ (Call.wait tokens pr).Agrees s := by
  obtain ⟨hlt, he, hw⟩ | ⟨hle, hw⟩ := wait_cases s tokens pr
  · rw [hw]
    exact ⟨fun _ _ => Nat.ne_of_lt hlt, fun _ => settled_of_empty rfl⟩
  · rw [hw]
    cases hl : s.waitingList with
    | nil =>
      have := hle hl
      simp only [Settled, hl, List.nil_append, List.cons.injEq, Call.Agrees, true_implies]
      constructor
      · intro h
        have hlt : s.tokens < tokens := h _ _ ⟨rfl, rfl⟩
        exact Nat.ne_of_gt hlt
      · rintro h e rest ⟨rfl, -⟩
        exact Nat.lt_of_le_of_ne this (Ne.symm h)
    | cons e rest =>
      have := hs e rest hl
      simp only [Settled, hl, List.cons_append, List.cons.injEq, Call.Agrees]
      constructor
      · intro _ h
        cases h
      · rintro - e' rest' ⟨rfl, -⟩
        exact this

theorem settled_release (s : Semaphore π) (tokens : Nat) :
    (s.release tokens).1.Settled ↔ (Call.release tokens : Call π).Agrees s := by
  obtain ⟨hall, hr⟩ | ⟨e, rest, hl, hle, hr⟩ := release_cases s tokens
  · rw [hr]
    refine ⟨fun _ e f rest hl he => ?_, fun _ => hall⟩
    have := hall e (f :: rest) hl
    omega
  · rw [hr]
    simp only [Settled, Call.Agrees, hl, List.cons.injEq]
    constructor
    · rintro h e' f rest' ⟨rfl, hf⟩ -
      have := h f rest' hf
      omega
    · intro h f rest' hf
      have := h e f rest' ⟨rfl, hf⟩ hle
      omega

theorem settled_apply (s : Semaphore π) (c : Call π) (hs : s.Settled) :
    (s.apply c).Settled ↔ c.Agrees s := by
  cases c with
  | wait tokens pr => exact settled_wait s tokens pr hs
  | release tokens => exact settled_release s tokens

/-- Along any calls, no waiter is ever left parked that could be served, if and only if
every call is one on which `wait` and `release` agree. -/
theorem settled_throughout_iff (n : Nat) (cs : List (Call π)) :
    (calls n).Throughout Settled (calls n).init cs ↔
      (calls n).Meets (fun s c => c.Agrees s) (calls n).init cs := by
  refine Machine.throughout_iff_meets (J := fun _ => True) (fun _ _ _ _ _ => trivial) ?_
    trivial (settled_of_empty rfl)
  intro s c t _ hs hst
  obtain rfl := Option.some.inj hst
  exact settled_apply s c hs

/-- Both comparisons go wrong at the boundary: with one token free and nobody waiting, a
`wait` for one token is parked, and a `release` of two tokens wakes only the first of two
waiters that ask for one each. -/
theorem servable_waiter_parked :
    ¬ (calls 1).Throughout Settled (calls 1).init [Call.wait 1 ()] ∧
    ¬ (calls 0).Throughout Settled (calls 0).init
      [Call.wait 1 0, Call.wait 1 1, Call.release 2] := by
  constructor
  · intro h
    have hs := h [.wait 1 ()] [] _ rfl rfl
    exact absurd (hs ⟨1, ()⟩ [] rfl) (by decide)
  · intro h
    have hs := h [.wait 1 0, .wait 1 1, .release 2] [] _ rfl rfl
    exact absurd (hs ⟨1, 1⟩ [] rfl) (by decide)

end Semaphore
end Miniss
