import Mathlib.Algebra.Order.Ring.Int

/-! Exceptions as the runtime makes and forwards them, and the helpers that turn a failed
call into a `std::system_error`. -/
namespace Miniss

/-- What a `std::exception_ptr` holds: a `std::system_error` by its code, or an exception
of a callable that the runtime only passes on. -/
inductive Exn where
  | systemError (code : Int)
  | user (what : Nat)
  deriving DecidableEq, Repr

/-- The value of `errno` after a call that failed: failing calls set it to a positive
number. -/
structure Errno where
  val : Int
  pos : 0 < val
  deriving DecidableEq

/-- `throw_system_error_if`: the exception thrown, if any. -/
def throwSystemErrorIf (expr : Bool) (errno : Errno) : Option Exn :=
  if expr then some (.systemError errno.val) else none

/-- The conversion of a `long` to the `int` that `std::system_error` takes. -/
def toCInt (r : Int) : Int := r.bmod (2 ^ 32)

theorem toCInt_of_small {r : Int} (hl : -2 ^ 31 ≤ r) (hu : r < 2 ^ 31) : toCInt r = r :=
  Int.bmod_eq_of_le (by omega) (by omega)

def throwKernelError (r : Int) : Option Exn :=
  if r < 0 then some (.systemError (toCInt (-r))) else none

end Miniss
