import Mathlib.Algebra.Group.Nat.Defs
import Mathlib.Data.List.Basic
import Mathlib.Data.Nat.Basic
import Mathlib.Order.Basic
import Mathlib.Tactic.Common

/-!
# Bytes, error numbers, `size_t`

The vocabulary every module of the program shares. A pointer with its length is a list of bytes, a
function that returns `-1` and sets `errno` returns an `Except Errno`, and `size_t` arithmetic is
`Nat` arithmetic reduced modulo `2 ^ 64` wherever the program computes, so that a wrap-around would
be visible and its absence is a theorem.
-/

namespace WireCommand

/-- A byte string: a pointer and a length. -/
abbrev Bytes := List UInt8

/-- A pointer with a length that may be `NULL`, with whatever length came with it. -/
inductive Span where
  | null (size : Nat)
  | bytes (data : Bytes)
  deriving DecidableEq

/-- The length that came with the pointer. -/
def Span.size : Span → Nat
  | .null size => size
  | .bytes data => data.length

/-- What can be read through the pointer. -/
def Span.data : Span → Bytes
  | .null _ => []
  | .bytes data => data

/-- `pointer == NULL`. -/
def Span.isNull : Span → Bool
  | .null _ => true
  | .bytes _ => false

/-- The `errno` values the program sets or tests; `other` is any value the system reports that the
program does not distinguish. -/
inductive Errno where
  | einval
  | emsgsize
  | enomem
  | eoverflow
  | enoent
  | eproto
  | epipe
  | enobufs
  | eio
  | econnreset
  | emfile
  | other (code : Nat)
  deriving DecidableEq, Repr

/-- The result that is kept when a later call fails too. -/
def firstFailure : Except Errno Unit → Except Errno Unit → Except Errno Unit
  | .error e, _ => .error e
  | .ok (), later => later

/-! ## `size_t` -/

/-- `SIZE_MAX` on the 64-bit targets of the program. -/
def sizeMax : Nat := 2 ^ 64 - 1

/-- `UINT16_MAX`. -/
def uint16Max : Nat := 65535

theorem uint16Max_le_sizeMax : uint16Max ≤ sizeMax := by decide

/-- `a + b` in `size_t`. -/
@[irreducible] def sizeAdd (a b : Nat) : Nat := (a + b) % 2 ^ 64

/-- `a - b` in `size_t`: below zero it wraps around. -/
@[irreducible] def sizeSub (a b : Nat) : Nat := if b ≤ a then a - b else 2 ^ 64 - (b - a)

/-- `a * b` in `size_t`. -/
@[irreducible] def sizeMul (a b : Nat) : Nat := a * b % 2 ^ 64

theorem sizeAdd_eq {a b : Nat} (h : a + b ≤ sizeMax) : sizeAdd a b = a + b := by
  unfold sizeMax at h
  unfold sizeAdd
  exact Nat.mod_eq_of_lt (by omega)

theorem sizeSub_eq {a b : Nat} (hab : b ≤ a) : sizeSub a b = a - b := by
  unfold sizeSub
  exact if_pos hab

theorem sizeMul_eq {a b : Nat} (h : a * b ≤ sizeMax) : sizeMul a b = a * b := by
  unfold sizeMax at h
  unfold sizeMul
  exact Nat.mod_eq_of_lt (by omega)

end WireCommand
