import Miniss.Lib.Machine
import Miniss.Poller.SignalPoller
import Mathlib.Order.Basic

/-! Runs of `Signal_poller::poll` between the signals that are raised: each atomic operation
on `pending_signals_` is a step, and so is each round of the loop over the bits. -/
namespace Miniss

/-- Where the thread stands in `poll`: outside, behind the load, in the loop before bit `i`, or
in the handler that it has called for bit `i`. -/
inductive SignalPollerPc where
  | idle
  | loaded (signals : BitVec 64)
  | scan (signals : BitVec 64) (i : Nat)
  | handler (signals : BitVec 64) (i : Nat)

/-- A signal was raised, `poll` has cleared a set of signals, or a handler was started. -/
inductive SignalEvent where
  | raised (n : Nat)
  | cleared (signals : BitVec 64)
  | started (n : Nat)

structure SignalPoller where
  pendingSignals : BitVec 64
  pc : SignalPollerPc
  log : List SignalEvent

inductive SignalAct where
  | dispatch (n : Nat)
  | poll
  | go

namespace SignalPoller

def init : SignalPoller := ⟨0, .idle, []⟩

def dispatch (s : SignalPoller) (n : Nat) : SignalPoller :=
  { s with pendingSignals := s.pendingSignals ||| 1#64 <<< n, log := s.log ++ [.raised n] }

def poll (s : SignalPoller) : SignalPoller :=
  if s.pendingSignals = 0 then s else { s with pc := .loaded s.pendingSignals }

/-- `poll` goes on; `handlers` are the signals that have one. -/
def go (handlers : Nat → Bool) (s : SignalPoller) : Option SignalPoller :=
  match s.pc with
  | .idle => none
  | .loaded signals => some
      { s with
        pendingSignals := s.pendingSignals &&& ~~~signals
        pc := .scan signals 0
        log := s.log ++ [.cleared signals] }
  | .scan signals i =>
    if i < 64 then
      if signals.getLsbD i && handlers i then some
        { s with pc := .handler signals i, log := s.log ++ [.started i] }
      else some { s with pc := .scan signals (i + 1) }
    else some { s with pc := .idle }
  | .handler signals i => some { s with pc := .scan signals (i + 1) }

def step (handlers : Nat → Bool) (s : SignalPoller) : SignalAct → Option SignalPoller
  | .dispatch n => if 1 ≤ n ∧ n ≤ 63 then some (s.dispatch n) else none
  | .poll =>
    match s.pc with
    | .idle => some s.poll
    | _ => none
  | .go => s.go handlers

end SignalPoller

/-- The handlers that a scan of `signals` from bit `i` on starts. -/
def handlersFrom (handlers : Nat → Bool) (signals : BitVec 64) (i : Nat) : List Nat :=
  (List.range' i (64 - i)).filter fun j => signals.getLsbD j && handlers j

/-- The handlers that the current poll still starts. -/
def SignalPollerPc.todo (handlers : Nat → Bool) : SignalPollerPc → List Nat
  | .idle => []
  | .loaded signals => handlersFrom handlers signals 0
  | .scan signals i => handlersFrom handlers signals i
  | .handler signals i => handlersFrom handlers signals (i + 1)

theorem mem_handlersFrom {handlers : Nat → Bool} {signals : BitVec 64} {i n : Nat} :
    n ∈ handlersFrom handlers signals i ↔
      i ≤ n ∧ signals.getLsbD n = true ∧ handlers n = true := by
  simp only [handlersFrom, List.mem_filter, List.mem_range'_1, Bool.and_eq_true]
  constructor
  · rintro ⟨⟨hle, -⟩, hn⟩
    exact ⟨hle, hn⟩
  · rintro ⟨hle, hn⟩
    have := BitVec.lt_of_getLsbD hn.1
    exact ⟨⟨hle, by omega⟩, hn⟩

/-- With `SIGALRM` alone registered, these are the signals that the CPU's poller handles. -/
theorem handlersFrom_sigalrm (signals : BitVec 64) :
    handlersFrom (· == 14) signals 0 = handledSignals signals := by
  rw [handledSignals, List.range_eq_range']
  rfl

inductive SignalStep (handlers : Nat → Bool) (s : SignalPoller) :
    SignalAct → SignalPoller → Prop where
  | raised (n : Nat) (hn : n < 64) : SignalStep handlers s (.dispatch n) (s.dispatch n)
  | none (hpc : s.pc = .idle) : SignalStep handlers s .poll s
  | loaded (hpc : s.pc = .idle) :
      SignalStep handlers s .poll { s with pc := .loaded s.pendingSignals }
  | cleared (signals : BitVec 64) (hpc : s.pc = .loaded signals) :
      SignalStep handlers s .go
        { s with
          pendingSignals := s.pendingSignals &&& ~~~signals
          pc := .scan signals 0
          log := s.log ++ [.cleared signals] }
  | started (signals : BitVec 64) (i : Nat) (hpc : s.pc = .scan signals i)
      (htodo : s.pc.todo handlers = i :: handlersFrom handlers signals (i + 1)) :
      SignalStep handlers s .go
        { s with pc := .handler signals i, log := s.log ++ [.started i] }
  | scanned (signals : BitVec 64) (i j : Nat) (hpc : s.pc = .scan signals i ∨
      s.pc = .handler signals i)
      (htodo : s.pc.todo handlers = handlersFrom handlers signals j) :
      SignalStep handlers s .go { s with pc := .scan signals j }
  | ended (signals : BitVec 64) (i : Nat) (hpc : s.pc = .scan signals i)
      (htodo : s.pc.todo handlers = []) :
      SignalStep handlers s .go { s with pc := .idle }

/-- What a poll has to start it starts in this step, or it still has to. -/
theorem SignalStep.todo {handlers : Nat → Bool} {s t : SignalPoller} {a : SignalAct}
    (h : SignalStep handlers s a t) : ∃ l, t.log = s.log ++ l ∧
      ∀ n ∈ s.pc.todo handlers, n ∈ t.pc.todo handlers ∨ .started n ∈ l := by
  cases h with
  | raised m => exact ⟨_, rfl, fun n hn => .inl hn⟩
  | none => exact ⟨[], (List.append_nil _).symm, fun n hn => .inl hn⟩
  | loaded hpc =>
    refine ⟨[], (List.append_nil _).symm, fun n hn => ?_⟩
    rw [hpc] at hn
    cases hn
  | cleared signals hpc =>
    refine ⟨_, rfl, fun n hn => .inl ?_⟩
    rw [hpc] at hn
    exact hn
  | started signals i hpc htodo =>
    refine ⟨_, rfl, fun n hn => ?_⟩
    rw [htodo] at hn
    obtain rfl | hn := List.mem_cons.mp hn
    · exact .inr List.mem_cons_self
    · exact .inl hn
  | scanned signals i j hpc htodo =>
    refine ⟨[], (List.append_nil _).symm, fun n hn => .inl ?_⟩
    rw [htodo] at hn
    exact hn
  | ended signals i hpc htodo =>
    refine ⟨[], (List.append_nil _).symm, fun n hn => .inl ?_⟩
    rw [htodo] at hn
    exact hn

end Miniss
