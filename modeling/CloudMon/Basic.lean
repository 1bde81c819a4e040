import Mathlib.Data.List.TakeWhile
import Mathlib.Data.Rat.Floor

/-!
# Bytes, doubles and the ways a process can stop

Strings are byte strings throughout. A C++ `std::string`, a `char` buffer, a
ZeroMQ frame and a Python 2 `str` all hold the same bytes; what differs is where
each of them *ends*, and `cString` and `snprintf` are the two places where this
program cuts a string short.

A `double` is an exact number or one of the IEEE special values. Rounding of
single operations is left out; division by zero is not, because the code divides
by a clock difference that can be zero.
-/

namespace CloudMon

abbrev Bytes := List UInt8

/-- A source string literal. They are all ASCII. -/
def bytes (s : String) : Bytes := s.toList.map fun c => UInt8.ofNat c.toNat

/-- What a C string function sees of a buffer: everything before the first NUL. -/
def cString (b : Bytes) : Bytes := b.takeWhile (· != 0)

/-- `snprintf` into a buffer of `size` bytes: the text, less what does not fit before the NUL. -/
def snprintf (size : Nat) (text : Bytes) : Bytes := text.take (size - 1)

theorem cString_of_not_mem {b : Bytes} (h : (0 : UInt8) ∉ b) : cString b = b := by
  unfold cString
  rw [List.takeWhile_eq_self_iff]
  intro x hx
  rw [bne_iff_ne]
  intro heq
  subst heq
  exact h hx

/-- A terminated string reads back as itself. -/
theorem cString_terminated {b : Bytes} (h : (0 : UInt8) ∉ b) : cString (b ++ [0]) = b := by
  rw [cString, List.takeWhile_append_of_pos fun x hx => ?_]
  · simp
  · rw [bne_iff_ne]
    intro heq
    subst heq
    exact h hx

theorem zero_not_mem_cString (b : Bytes) : (0 : UInt8) ∉ cString b := by
  intro h
  have := List.mem_takeWhile_imp h
  exact absurd this (by decide)

theorem snprintf_of_fits {size : Nat} {text : Bytes} (h : text.length ≤ size - 1) :
    snprintf size text = text := List.take_of_length_le h

theorem snprintf_subset {size : Nat} {text : Bytes} {b : UInt8} (h : b ∈ snprintf size text) :
    b ∈ text := List.mem_of_mem_take h

/-- An IEEE double, exact where it is finite. -/
inductive Double where
  | fin (q : ℚ)
  | negZero
  | inf (neg : Bool)
  | nan (neg : Bool)
deriving DecidableEq

namespace Double

/-- The number a finite double stands for. -/
def toRat? : Double → Option ℚ
  | .fin q => some q
  | .negZero => some 0
  | _ => none

/-- The sign bit. -/
def isNeg : Double → Bool
  | .fin q => q < 0
  | .negZero => true
  | .inf neg => neg
  | .nan neg => neg

def zero (neg : Bool) : Double := if neg then .negZero else .fin 0

/-- Division of two finite numbers. The NaN that x86 makes of `0 / 0` has its sign bit set. -/
def divFinite (neg : Bool) (a b : ℚ) : Double :=
  if b = 0 then
    if a = 0 then .nan true else .inf neg
  else if a = 0 then zero neg else .fin (a / b)

/-- IEEE division. -/
def div (a b : Double) : Double :=
  match a, b with
  | .nan neg, _ => .nan neg
  | _, .nan neg => .nan neg
  | .inf _, .inf _ => .nan true
  | .inf neg, b => .inf (neg ^^ b.isNeg)
  | a, .inf neg => zero (a.isNeg ^^ neg)
  | a, b => divFinite (a.isNeg ^^ b.isNeg) (a.toRat?.getD 0) (b.toRat?.getD 0)

end Double

/-- What can end a call early: a C++ exception, or the process itself. -/
inductive Fault where
  /-- `std::runtime_error`, with its text. -/
  | runtimeError (what : String)
  /-- `std::bad_alloc`, or the `std::bad_array_new_length` derived from it. -/
  | badAlloc
  /-- A read through a null pointer. -/
  | nullDeref
  /-- A read through a pointer whose object is gone. -/
  | useAfterFree
deriving DecidableEq

end CloudMon
