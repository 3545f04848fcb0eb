import Miniss.Util.Semaphore
import Mathlib.Algebra.BigOperators.Group.List.Basic

/-! Conservation and fairness of a `Semaphore`. A wait is named by its rank in the order of
the `wait` calls; the waits that were granted are always the first ones, and what they took
is missing from the tokens. -/
namespace Miniss.Semaphore

/-- A semaphore with the history of its calls: what each wait asked for, whose futures are
resolved, in order, and how many tokens were released. -/
structure Usage where
  sem : Semaphore Nat
  demands : List Nat
  granted : List Nat
  released : Nat

inductive Use where
  | wait (tokens : Nat)
  | release (tokens : Nat)

namespace Usage

def step (s : Usage) : Use → Usage
  | .wait tokens =>
    let w := s.sem.wait tokens s.demands.length
    { s with
      sem := w.1
      demands := s.demands ++ [tokens]
      granted := s.granted ++ if w.2 then [s.demands.length] else [] }
  | .release tokens =>
    let p := s.sem.release tokens
    { s with
      sem := p.1
      granted := s.granted ++ p.2.toList
      released := s.released + tokens }

def taken (s : Usage) : Nat := (s.granted.map fun w => s.demands.getD w 0).sum

end Usage

def uses (n : Nat) : Machine Usage Use where
  init := ⟨⟨n, []⟩, [], [], 0⟩
  step s a := some (s.step a)

/-- The waits are the granted ones and then the parked ones, each with what it asked for. -/
structure Usage.Ordered (s : Usage) : Prop where
  order : s.granted ++ s.sem.waitingList.map Entry.pr = List.range s.demands.length
  parked : s.sem.waitingList.map Entry.tokens = s.demands.drop s.granted.length

/-- No token is made or lost, when the granted waits are the first ones. -/
def Usage.Balanced (n : Nat) (s : Usage) : Prop :=
  s.sem.tokens + (s.demands.take s.granted.length).sum = n + s.released

/-- What a call subtracts from the tokens is there. -/
def Covered {π : Type*} (s : Semaphore π) : Call π → Prop
  | .wait tokens pr => (s.wait tokens pr).2 = true → tokens ≤ s.tokens
  | .release tokens => ∀ e rest, s.waitingList = e :: rest →
      (s.release tokens).2 = some e.pr → e.tokens ≤ sizeAdd s.tokens tokens

theorem covered {π : Type*} (s : Semaphore π) (c : Call π) : s.Covered c := by
  cases c with
  | wait tokens pr =>
    intro hg
    obtain ⟨hlt, -, -⟩ | ⟨-, hw⟩ := s.wait_cases tokens pr
    · exact hlt.le
    · rw [hw] at hg
      cases hg
  | release tokens =>
    intro e rest hl hg
    obtain ⟨-, hr⟩ | ⟨e', rest', hl', hle, -⟩ := s.release_cases tokens
    · rw [hr] at hg
      cases hg
    · obtain ⟨rfl, -⟩ := List.cons.inj (hl.symm.trans hl')
      exact hle

namespace Usage
variable {n tokens : Nat} {s : Usage}

theorem Ordered.granted_le (h : s.Ordered) : s.granted.length ≤ s.demands.length := by
  have hl := congrArg List.length h.order
  rw [List.length_append, List.length_range] at hl
  exact Nat.le_of_add_right_le hl.le

theorem Ordered.wait (h : s.Ordered) (tokens : Nat) : (s.step (.wait tokens)).Ordered := by
  have hle := h.granted_le
  obtain ⟨-, he, hw⟩ | ⟨-, hw⟩ := s.sem.wait_cases tokens s.demands.length
  · have hg : s.granted = List.range s.demands.length := by simpa [he] using h.order
    constructor
    · simp [step, hw, hg, List.range_succ]
    · simp [step, hw, hg]
  · constructor
    · simp [step, hw, ← List.append_assoc, h.order, List.range_succ]
    · simp [step, hw, h.parked, List.drop_append_of_le_length hle]

theorem Ordered.release (h : s.Ordered) (tokens : Nat) : (s.step (.release tokens)).Ordered := by
  obtain ⟨-, hr⟩ | ⟨e, rest, hl, -, hr⟩ := s.sem.release_cases tokens
  · exact ⟨by simpa [step, hr] using h.order, by simpa [step, hr] using h.parked⟩
  · have ho := h.order
    have hp := h.parked
    rw [hl] at ho hp
    constructor
    · simpa [step, hr] using ho
    · have ht := congrArg List.tail hp
      simpa [step, hr] using ht

theorem Ordered.step (h : s.Ordered) (a : Use) : (s.step a).Ordered := by
  cases a with
  | wait tokens => exact h.wait tokens
  | release tokens => exact h.release tokens

/-- The front waiter is the first wait that is not granted. -/
theorem Ordered.taken_succ (h : s.Ordered) {e : Entry Nat} {rest : List (Entry Nat)}
    (hl : s.sem.waitingList = e :: rest) :
    (s.demands.take (s.granted.length + 1)).sum =
      (s.demands.take s.granted.length).sum + e.tokens := by
  have hp : some e.tokens = s.demands[s.granted.length]? := by
    rw [← List.head?_drop, ← h.parked, hl, List.map_cons, List.head?_cons]
  rw [List.take_add_one, ← hp, List.sum_append]
  simp

theorem Balanced.wait (h : s.Balanced n) (ho : s.Ordered) (tokens : Nat) :
    (s.step (.wait tokens)).Balanced n := by
  have hle := ho.granted_le
  unfold Balanced at h ⊢
  obtain ⟨hlt, he, hw⟩ | ⟨-, hw⟩ := s.sem.wait_cases tokens s.demands.length
  · have hg : s.granted.length = s.demands.length := by
      simpa [he] using congrArg List.length ho.order
    rw [hg, List.take_length] at h
    simp [step, hw, hg, List.take_of_length_le]
    omega
  · simpa [step, hw, List.take_append_of_le_length hle] using h

theorem Balanced.release (h : s.Balanced n) (ho : s.Ordered)
    (hlt : n + (s.released + tokens) < 2 ^ 64) : (s.step (.release tokens)).Balanced n := by
  unfold Balanced at h ⊢
  have hfree : sizeAdd s.sem.tokens tokens = s.sem.tokens + tokens := sizeAdd_of_lt (by omega)
  obtain ⟨-, hr⟩ | ⟨e, rest, hl, hle, hr⟩ := s.sem.release_cases tokens
  · simp [step, hr, hfree] at h ⊢
    omega
  · have ht := ho.taken_succ hl
    rw [hfree] at hle hr
    simp [step, hr] at h ht ⊢
    omega

/-- The number of released tokens only grows, so a bound at the end holds all along. -/
theorem Balanced.step (ho : s.Ordered) (h : n + s.released < 2 ^ 64 → s.Balanced n) (a : Use)
    (hlt : n + (s.step a).released < 2 ^ 64) : (s.step a).Balanced n := by
  cases a with
  | wait tokens => exact (h hlt).wait ho tokens
  | release tokens =>
    have hlt' : n + (s.released + tokens) < 2 ^ 64 := hlt
    exact (h (by omega)).release ho hlt'

theorem Ordered.granted_eq (h : s.Ordered) : s.granted = List.range s.granted.length := by
  have hp : s.granted <+: List.range s.demands.length := h.order ▸ List.prefix_append _ _
  have ht := List.prefix_iff_eq_take.mp hp
  rw [List.take_range, Nat.min_eq_left h.granted_le] at ht
  exact ht

theorem Ordered.taken_eq (h : s.Ordered) :
    s.taken = (s.demands.take s.granted.length).sum := by
  have hle := h.granted_le
  rw [taken, h.granted_eq, List.length_range]
  congr 1
  apply List.ext_getElem
  · simp [hle]
  · intro w hw hw'
    simp only [List.length_take, lt_inf_iff] at hw'
    simp [hw'.2]

end Usage

theorem uses_inv {n : Nat} {as : List Use} {s : Usage} (h : (uses n).Reaches as s) :
    s.Ordered ∧ (n + s.released < 2 ^ 64 → s.Balanced n) := by
  refine h.invariant (I := fun s => s.Ordered ∧ (n + s.released < 2 ^ 64 → s.Balanced n)) ?_ ?_
  · exact ⟨⟨rfl, rfl⟩, fun _ => rfl⟩
  · rintro s a t ⟨ho, hb⟩ hst
    obtain rfl := Option.some.inj hst
    exact ⟨ho.step a, Usage.Balanced.step ho hb a⟩

/-- Along any calls whose tokens fit into a `std::size_t`, the free tokens and those of the
granted waits are the initial and the released ones, no subtraction underflows, and each wait
is granted at most once: the granted ones are the first, in the order of the calls, and the
others are parked. -/
theorem grants_in_order {n : Nat} {as : List Use} {s : Usage} (h : (uses n).Reaches as s)
    (hlt : n + s.released < 2 ^ 64) :
    s.sem.tokens + s.taken = n + s.released ∧ (∀ c, s.sem.Covered c) ∧
      s.granted.Nodup ∧
      s.granted ++ s.sem.waitingList.map Entry.pr = List.range s.demands.length := by
  obtain ⟨ho, hb⟩ := uses_inv h
  refine ⟨?_, s.sem.covered, ho.granted_eq ▸ List.nodup_range, ho.order⟩
  rw [ho.taken_eq]
  exact hb hlt

/-- A small wait stays behind a large one, although it could be served. -/
theorem grants_in_order_no_barging : ∃ s : Usage,
    (uses 2).Reaches [.wait 1, .wait 5, .wait 0, .release 1] s ∧ s.granted = [0] ∧
      s.sem.tokens = 2 ∧ s.sem.tokens + s.taken = 2 + s.released := by
  refine ⟨_, rfl, rfl, rfl, ?_⟩
  exact (grants_in_order (n := 2) (rfl : (uses 2).Reaches
    [.wait 1, .wait 5, .wait 0, .release 1] _) (by decide)).1

end Miniss.Semaphore
