import Mathlib.Tactic.TypeStar

/-! Programs as dialogues: they ask for one thing after the other, and what they ask for next, or
give in the end, depends on the answers so far. With all answers at hand a dialogue is
straight-line code. -/

inductive Dialogue.Point (ι β : Type*) where
  | ask (i : ι)
  | done (b : β)

structure Dialogue (σ ι α β : Type*) where
  start : σ
  point : σ → Dialogue.Point ι β
  resume : σ → α → σ

namespace Dialogue
variable {σ ι α β : Type*} {D : Dialogue σ ι α β} {o : ι → α}

/-- Straight on, past `n` questions. -/
def straight (D : Dialogue σ ι α β) (o : ι → α) : Nat → σ
  | 0 => D.start
  | n + 1 =>
    match D.point (D.straight o n) with
    | .ask i => D.resume (D.straight o n) (o i)
    | .done _ => D.straight o n

/-- The first `n` questions and their answers. -/
def transcript (D : Dialogue σ ι α β) (o : ι → α) : Nat → List (ι × α)
  | 0 => []
  | n + 1 =>
    match D.point (D.straight o n) with
    | .ask i => D.transcript o n ++ [(i, o i)]
    | .done _ => D.transcript o n

/-- With these answers, the dialogue comes to an end with `b`. -/
def Gives (D : Dialogue σ ι α β) (o : ι → α) (b : β) : Prop :=
  ∃ n, D.point (D.straight o n) = .done b

theorem straight_succ_of_ask {n : Nat} {i : ι} (h : D.point (D.straight o n) = .ask i) :
    D.straight o (n + 1) = D.resume (D.straight o n) (o i) := by
  simp only [straight, h]

theorem transcript_succ_of_ask {n : Nat} {i : ι} (h : D.point (D.straight o n) = .ask i) :
    D.transcript o (n + 1) = D.transcript o n ++ [(i, o i)] := by
  simp only [transcript, h]

/-- Behind its end nothing changes. -/
theorem straight_of_done {n m : Nat} {b : β} (h : D.point (D.straight o n) = .done b)
    (hm : n ≤ m) : D.straight o m = D.straight o n ∧ D.transcript o m = D.transcript o n := by
  induction hm with
  | refl => exact ⟨rfl, rfl⟩
  | step hm ih =>
    obtain ⟨hs, ht⟩ := ih
    rw [← hs] at h
    constructor
    · simpa only [straight, h] using hs
    · simpa only [transcript, h] using ht

/-- Where two places of the same dialogue are both at the end, they are the same place. -/
theorem eq_of_done {n m : Nat} {b c : β} (hn : D.point (D.straight o n) = .done b)
    (hm : D.point (D.straight o m) = .done c) :
    b = c ∧ D.transcript o n = D.transcript o m := by
  obtain hle | hle := Nat.le_total n m
  · obtain ⟨hs, ht⟩ := straight_of_done hn hle
    rw [hs, hn] at hm
    exact ⟨Point.done.inj hm, ht.symm⟩
  · obtain ⟨hs, ht⟩ := straight_of_done hm hle
    rw [hs, hm] at hn
    exact ⟨(Point.done.inj hn).symm, ht⟩

end Dialogue
