import Miniss.Util.SystemError

/-! How the outcome of a callable travels from the worker thread into the caller's future:
`syscall_result`, `wrap_syscall`, and the work item that runs the callable and later
resolves the promise. -/
namespace Miniss
variable {ε : Type*}

structure SyscallResult (ε : Type*) where
  error : Int
  extra : ε
  deriving DecidableEq

/-- `syscall_result::throw_if_error`: the exception thrown, if any. -/
def SyscallResult.throwIfError (r : SyscallResult ε) : Option Exn :=
  if r.error = -1 then some (.systemError r.error) else none

def wrapSyscall (extra : ε) : SyscallResult ε := ⟨0, extra⟩

/-- `wrap_syscall(result, extra)`, called right after the system call that gave `result`. -/
def wrapSyscallOf (result : Int) (errno : Errno) (extra : ε) : SyscallResult ε :=
  ⟨if result < 0 then errno.val else 0, extra⟩

/-- What the call of `fn_` ends with, for the two result types a callable may have. -/
inductive Outcome (ε : Type*) where
  | int (r : Except Exn Int)
  | result (r : Except Exn (SyscallResult ε))

/-- `result_holder`: for a callable that returns `int` there is no payload, and the variant
is either empty or an exception; otherwise it is empty, a value or an exception. -/
inductive ResultHolder (ε : Type*) where
  | noPayload (ret : Option Exn)
  | payload (ret : Option (Except Exn ε))

/-- The value a future is resolved with: `none` is the unit value of `future<>`. -/
abbrev FutureResult (ε : Type*) := Except Exn (Option ε)

def Outcome.emptyHolder : Outcome ε → ResultHolder ε
  | .int _ => .noPayload none
  | .result _ => .payload none

/-- `Syscall_work_item::process`, on a callable that ends with the given outcome and leaves
the given `errno`. -/
def process (errno : Errno) : Outcome ε → ResultHolder ε
  | .int (.error e) => .noPayload (some e)
  | .int (.ok r) => .noPayload (throwSystemErrorIf (r < 0) errno)
  | .result (.error e) => .payload (some (.error e))
  | .result (.ok r) =>
    match throwSystemErrorIf (r.error < 0) errno with
    | some e => .payload (some (.error e))
    | none => .payload (some (.ok r.extra))

/-- `Syscall_work_item::complete`: what the promise is resolved with, or `none` where the
switch reaches `std::abort`. -/
def complete : ResultHolder ε → Option (FutureResult ε)
  | .noPayload none => some (.ok none)
  | .noPayload (some e) => some (.error e)
  | .payload none => none
  | .payload (some (.ok v)) => some (.ok (some v))
  | .payload (some (.error e)) => some (.error e)

/-- A processed work item never sends `complete` into its abort branch. -/
theorem complete_process_isSome (errno : Errno) (o : Outcome ε) :
    ∃ r, complete (process errno o) = some r := by
  cases o with
  | int r =>
    cases r with
    | error e => exact ⟨.error e, rfl⟩
    | ok r => by_cases h : r < 0 <;> simp [process, throwSystemErrorIf, complete, h]
  | result r =>
    cases r with
    | error e => exact ⟨.error e, rfl⟩
    | ok r => by_cases h : r.error < 0 <;> simp [process, throwSystemErrorIf, complete, h]

/-- The ways a callable given to `Syscall_runner::submit` comes to its outcome. -/
inductive SyscallBody (ε : Type*) where
  | int (r : Int)
  | intThrow (e : Exn)
  | wrapped (result : Int) (extra : ε)
  | value (extra : ε)
  | resultThrow (e : Exn)

def SyscallBody.outcome (errno : Errno) : SyscallBody ε → Outcome ε
  | .int r => .int (.ok r)
  | .intThrow e => .int (.error e)
  | .wrapped result extra => .result (.ok (wrapSyscallOf result errno extra))
  | .value extra => .result (.ok (wrapSyscall extra))
  | .resultThrow e => .result (.error e)

/-- The report a caller is owed: the value, or the failure with its own code. -/
def SyscallBody.owed (errno : Errno) : SyscallBody ε → FutureResult ε
  | .int r => if r < 0 then .error (.systemError errno.val) else .ok none
  | .intThrow e => .error e
  | .wrapped result extra =>
    if result < 0 then .error (.systemError errno.val) else .ok (some extra)
  | .value extra => .ok (some extra)
  | .resultThrow e => .error e

def failureOf : FutureResult ε → Option Exn
  | .ok _ => none
  | .error e => some e

/-- The caller's future is resolved with what the caller is owed, and `throw_if_error` on
the same `syscall_result` throws in the same cases and with the same code. -/
def SyscallBody.Reported (errno : Errno) (b : SyscallBody ε) : Prop :=
  complete (process errno (b.outcome errno)) = some (b.owed errno) ∧
  ∀ r, b.outcome errno = .result (.ok r) → r.throwIfError = failureOf (b.owed errno)

/-- The body hands a failed call to the two-argument `wrap_syscall`. -/
def SyscallBody.WrapsFailure : SyscallBody ε → Prop
  | .wrapped result _ => result < 0
  | _ => False

/-- An `errno` stored by `wrap_syscall` is positive, so neither test recognises it. -/
theorem wrapped_failure_succeeds (errno : Errno) (result : Int) (extra : ε)
    (h : result < 0) :
    complete (process errno ((SyscallBody.wrapped result extra).outcome errno)) =
        some (.ok (some extra)) ∧
      (wrapSyscallOf result errno extra).throwIfError = none := by
  have hp := errno.pos
  have hn : ¬ errno.val < 0 := by omega
  have hm : errno.val ≠ -1 := by omega
  simp [SyscallBody.outcome, wrapSyscallOf, process, throwSystemErrorIf, complete,
    SyscallResult.throwIfError, h, hn, hm]

theorem reported_of_not_wrapsFailure (errno : Errno) (b : SyscallBody ε)
    (h : ¬ b.WrapsFailure) : b.Reported errno := by
  cases b with
  | int r =>
    refine ⟨?_, fun r' hr => by cases hr⟩
    by_cases hr : r < 0 <;>
      simp [SyscallBody.outcome, SyscallBody.owed, process, throwSystemErrorIf, complete, hr]
  | intThrow e => exact ⟨rfl, fun r hr => by cases hr⟩
  | wrapped result extra =>
    have hr : ¬ result < 0 := h
    constructor
    · simp [SyscallBody.outcome, SyscallBody.owed, wrapSyscallOf, process,
        throwSystemErrorIf, complete, hr]
    · rintro r ⟨⟩
      simp [SyscallBody.owed, wrapSyscallOf, SyscallResult.throwIfError, failureOf, hr]
  | value extra =>
    refine ⟨rfl, ?_⟩
    rintro r ⟨⟩
    rfl
  | resultThrow e => exact ⟨rfl, fun r hr => by cases hr⟩

/-- A failed call is reported as the failure it is, unless it is the two-argument
`wrap_syscall` that was to report it. -/
theorem reported_iff (errno : Errno) (b : SyscallBody ε) :
    b.Reported errno ↔ ¬ b.WrapsFailure := by
  refine ⟨fun hr hw => ?_, reported_of_not_wrapsFailure errno b⟩
  cases b with
  | wrapped result extra =>
    have hlt : result < 0 := hw
    have hs := (wrapped_failure_succeeds errno result extra hlt).1
    have he := hr.1
    rw [hs] at he
    simp [SyscallBody.owed, hlt] at he
  | int r => exact hw
  | intThrow e => exact hw
  | value extra => exact hw
  | resultThrow e => exact hw

/-- `CPU::open_file`: the callable throws by itself, and wraps the descriptor otherwise. -/
def openBody (errno : Errno) (fd : Int) : SyscallBody Int :=
  match throwSystemErrorIf (fd < 0) errno with
  | some e => .resultThrow e
  | none => .value fd

def sizeBody (errno : Errno) (r : Int) : SyscallBody Int :=
  match throwSystemErrorIf (r < 0) errno with
  | some e => .resultThrow e
  | none => .value r

/-- `File::stat`; `st` is the `struct stat` on the worker's stack, filled or not. -/
def statBody (ret : Int) (st : ε) : SyscallBody ε := .wrapped ret st

def flushBody (r : Int) : SyscallBody ε := .int r

def closeBody (r : Int) : SyscallBody ε := .int r

/-- Of the callables that the file operations submit, only that of `File::stat` can lose a
failure. -/
theorem file_bodies_reported (errno : Errno) (r : Int) (st : ε) :
    (openBody errno r).Reported errno ∧ (sizeBody errno r).Reported errno ∧
    (flushBody r : SyscallBody ε).Reported errno ∧
    (closeBody r : SyscallBody ε).Reported errno ∧
    ((statBody r st).Reported errno ↔ 0 ≤ r) := by
  refine ⟨?_, ?_, (reported_iff _ _).mpr id, (reported_iff _ _).mpr id, ?_⟩
  · by_cases h : r < 0 <;>
      simp [reported_iff, openBody, throwSystemErrorIf, SyscallBody.WrapsFailure, h]
  · by_cases h : r < 0 <;>
      simp [reported_iff, sizeBody, throwSystemErrorIf, SyscallBody.WrapsFailure, h]
  · rw [reported_iff]
    exact Int.not_lt

/-- `File::stat` on a closed descriptor: `::fstat` fails with `EBADF` (9), and the future
succeeds with the contents of an uninitialised `struct stat`. -/
theorem failed_stat_not_reported :
    ¬ (statBody (-1) (0 : Nat)).Reported ⟨9, by decide⟩ := by
  intro h
  have he := h.1
  rw [statBody, (wrapped_failure_succeeds _ _ _ (by decide)).1] at he
  simp [SyscallBody.owed] at he

end Miniss
