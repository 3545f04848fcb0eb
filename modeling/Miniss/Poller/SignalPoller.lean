import Mathlib.Data.List.Basic

/-! `Signal_poller`: signals are noted as bits by `dispatch_signal` and handled in a poll. -/
namespace Miniss

def sigalrmBit : BitVec 64 := 1#64 <<< 14

/-- The signals in `signals` that `poll` calls a handler for, in the order of its loop:
`SIGALRM` is the only one that is registered. -/
def handledSignals (signals : BitVec 64) : List Nat :=
  (List.range 64).filter fun i => signals.getLsbD i && i == 14

@[simp] theorem sigalrmBit_getLsbD : sigalrmBit.getLsbD 14 = true := rfl

/-- Once `dispatch_signal` has run, `pending_signals_` is not 0. -/
theorem or_sigalrmBit_ne_zero (signals : BitVec 64) : signals ||| sigalrmBit ≠ 0 := by
  intro h
  have hbit : (signals ||| sigalrmBit).getLsbD 14 = false := by
    rw [h]
    rfl
  rw [BitVec.getLsbD_or, sigalrmBit_getLsbD, Bool.or_true] at hbit
  cases hbit

theorem mem_handledSignals {signals : BitVec 64} :
    14 ∈ handledSignals signals ↔ signals.getLsbD 14 = true := by
  simp [handledSignals]

end Miniss
