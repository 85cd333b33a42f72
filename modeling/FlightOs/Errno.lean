/-
# Error numbers

The error numbers of `errno.h` as the kernel returns them: negated, and read back as a word
where a function returns an unsigned value (`include/kernel/err.h`).
-/
import FlightOs.Lib.Word

namespace FlightOs

def EPERM : Nat := 1
def ENOENT : Nat := 2
def ENOMEM : Nat := 12
def EBUSY : Nat := 16
def ENODEV : Nat := 19
def EINVAL : Nat := 22
def ENOSCHED : Nat := 134

def maxErrno : Nat := 4095

/-- `IS_ERR_VALUE`: the word is one of the negated error numbers. -/
def isErrValue (x : Nat) : Bool := decide (wsub 0 maxErrno ≤ x)

/-- A small value is no error. -/
theorem isErrValue_of_lt {k : Nat} (hk : k < 2 ^ 31) : isErrValue k = false := by
  have h : wsub 0 maxErrno = 2 ^ 32 - 4095 := by decide
  rw [isErrValue, h, decide_eq_false_iff_not]
  omega

/-- `-EINVAL`, returned as a word, is an error. -/
theorem isErrValue_neg_EINVAL : isErrValue (wsub 0 EINVAL) = true := by decide

end FlightOs
