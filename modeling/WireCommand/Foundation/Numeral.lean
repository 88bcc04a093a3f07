import Mathlib.Algebra.Group.Int.Defs
import Mathlib.Algebra.Group.Nat.Defs
import Mathlib.Data.Int.Basic
import Mathlib.Data.List.Basic
import Mathlib.Data.List.TakeWhile
import Mathlib.Tactic.Common

/-!
# Decimal numerals

Texts that stand for integers, as the C library reads them: blanks, a sign, digits.

`Denotes text z` is the grammar with its meaning, and says nothing about how a text is read. `scan`
is how it is read, from left to right, and `denotes_iff_scan` says that the two agree; in particular
a text denotes at most one integer.

`strtoul` is the conversion of the C standard for base 10. It converts what it can of a text and
reports where it stopped; a minus sign negates the converted value in the unsigned type, so the
value is the integer modulo `2 ^ w` (`strtoul_of_denotes`), and only a magnitude beyond the type is
an error.
-/

namespace Foundation.Numeral

/-- `isspace` in the C locale. -/
def isBlank (b : UInt8) : Bool := b == 32 || (9 ≤ b && b ≤ 13)

def isDigit (b : UInt8) : Bool := 48 ≤ b && b ≤ 57

inductive Sign where
  | none
  | plus
  | minus
  deriving DecidableEq, Repr

def Sign.text : Sign → List UInt8
  | .none => []
  | .plus => [43]
  | .minus => [45]

def Sign.apply (sign : Sign) (n : Nat) : Int := if sign = .minus then -n else n

/-- The number digits stand for. -/
def value (digits : List UInt8) : Nat := digits.foldl (fun n b => 10 * n + (b.toNat - 48)) 0

/-- **The integer a text denotes**, if it denotes one. -/
def Denotes (text : List UInt8) (z : Int) : Prop :=
  ∃ (blanks : List UInt8) (sign : Sign) (digits : List UInt8),
    text = blanks ++ (sign.text ++ digits) ∧ (∀ b ∈ blanks, isBlank b = true) ∧
      digits ≠ [] ∧ (∀ b ∈ digits, isDigit b = true) ∧ z = sign.apply (value digits)

/-! ## Reading -/

/-- What is found behind the blanks: a sign, as many digits as there are, and the rest. -/
structure Scan where
  sign : Sign
  digits : List UInt8
  rest : List UInt8

def readSign : List UInt8 → Sign × List UInt8
  | [] => (.none, [])
  | b :: rest => if b = 43 then (.plus, rest) else if b = 45 then (.minus, rest) else (.none, b :: rest)

def scan (text : List UInt8) : Scan :=
  let (sign, rest) := readSign (text.dropWhile isBlank)
  ⟨sign, rest.takeWhile isDigit, rest.dropWhile isDigit⟩

theorem readSign_eq (text : List UInt8) : text = (readSign text).1.text ++ (readSign text).2 := by
  cases text with
  | nil => rfl
  | cons b rest =>
      rw [readSign]
      split
      · next hplus => rw [hplus]; rfl
      · split
        · next hminus => rw [hminus]; rfl
        · rfl

/-- Digits are neither blanks nor signs. -/
theorem digit_ne {b : UInt8} (h : isDigit b = true) : isBlank b = false ∧ b ≠ 43 ∧ b ≠ 45 := by
  simp only [isDigit, Bool.and_eq_true, decide_eq_true_eq, UInt8.le_iff_toNat_le] at h
  refine ⟨?_, ?_, ?_⟩
  · simp only [isBlank, Bool.or_eq_false_iff, beq_eq_false_iff_ne, ne_eq, ← UInt8.toNat_inj,
      Bool.and_eq_false_iff, decide_eq_false_iff_not, UInt8.le_iff_toNat_le]
    have h48 : (48 : UInt8).toNat = 48 := rfl
    have h32 : (32 : UInt8).toNat = 32 := rfl
    have h13 : (13 : UInt8).toNat = 13 := rfl
    omega
  · rintro rfl
    exact absurd h.1 (by decide)
  · rintro rfl
    exact absurd h.1 (by decide)

/-- A sign in front of digits is read. -/
theorem readSign_digits (sign : Sign) {digits : List UInt8} (hne : digits ≠ [])
    (hdigits : ∀ b ∈ digits, isDigit b = true) :
    readSign (sign.text ++ digits) = (sign, digits) := by
  cases sign with
  | plus => rfl
  | minus => rfl
  | none =>
      cases digits with
      | nil => exact absurd rfl hne
      | cons b rest =>
          obtain ⟨-, hplus, hminus⟩ := digit_ne (hdigits b List.mem_cons_self)
          show readSign (b :: rest) = _
          rw [readSign, if_neg hplus, if_neg hminus]

/-- Blanks in front of a sign and digits are skipped. -/
theorem dropWhile_blanks {blanks : List UInt8} (sign : Sign) {digits : List UInt8}
    (hblanks : ∀ b ∈ blanks, isBlank b = true) (hne : digits ≠ [])
    (hdigits : ∀ b ∈ digits, isDigit b = true) :
    (blanks ++ (sign.text ++ digits)).dropWhile isBlank = sign.text ++ digits := by
  rw [List.dropWhile_append_of_pos hblanks]
  cases sign with
  | plus => rfl
  | minus => rfl
  | none =>
      cases digits with
      | nil => exact absurd rfl hne
      | cons b rest =>
          obtain ⟨hblank, -⟩ := digit_ne (hdigits b List.mem_cons_self)
          show (b :: rest).dropWhile isBlank = _
          rw [List.dropWhile_cons_of_neg (by rw [hblank]; decide)]
          rfl

/-- **The scan finds what a text denotes.** -/
theorem denotes_iff_scan {text : List UInt8} {z : Int} :
    Denotes text z ↔ (scan text).digits ≠ [] ∧ (scan text).rest = [] ∧
      z = (scan text).sign.apply (value (scan text).digits) := by
  constructor
  · rintro ⟨blanks, sign, digits, rfl, hblanks, hne, hdigits, rfl⟩
    have hscan : scan (blanks ++ (sign.text ++ digits)) = ⟨sign, digits, []⟩ := by
      unfold scan
      rw [dropWhile_blanks sign hblanks hne hdigits, readSign_digits sign hne hdigits]
      simp only [List.takeWhile_eq_self_iff.mpr hdigits, List.dropWhile_eq_nil_iff.mpr hdigits]
    rw [hscan]
    exact ⟨hne, rfl, rfl⟩
  · rintro ⟨hne, hrest, hz⟩
    have hsign := readSign_eq (text.dropWhile isBlank)
    have hdigits : (scan text).digits = (readSign (text.dropWhile isBlank)).2 := by
      have hsplit := List.takeWhile_append_dropWhile (p := isDigit)
        (l := (readSign (text.dropWhile isBlank)).2)
      have hrest : (readSign (text.dropWhile isBlank)).2.dropWhile isDigit = [] := hrest
      rwa [hrest, List.append_nil] at hsplit
    refine ⟨text.takeWhile isBlank, (scan text).sign, (scan text).digits, ?_, ?_, hne, ?_, hz⟩
    · rw [hdigits]
      have hblanks := List.takeWhile_append_dropWhile (p := isBlank) (l := text)
      rw [hsign] at hblanks
      exact hblanks.symm
    · intro b hb
      exact List.mem_takeWhile_imp hb
    · intro b hb
      exact List.mem_takeWhile_imp hb

/-- **A text denotes at most one integer.** -/
theorem Denotes.unique {text : List UInt8} {z z' : Int} (h : Denotes text z) (h' : Denotes text z') :
    z = z' := by
  obtain ⟨-, -, hz⟩ := denotes_iff_scan.mp h
  obtain ⟨-, -, hz'⟩ := denotes_iff_scan.mp h'
  exact hz.trans hz'.symm

theorem Sign.natAbs_apply (sign : Sign) (n : Nat) : (sign.apply n).natAbs = n := by
  unfold apply
  split
  · exact Int.natAbs_neg n
  · exact Int.natAbs_natCast n

/-! ## Conversion -/

/-- What `strtoul` returns, where it stopped, and whether it set `errno` to `ERANGE`. -/
structure Converted where
  value : Nat
  rest : List UInt8
  erange : Bool
  deriving DecidableEq

/-- `strtoul` with base 10 and an unsigned type of `w` bits. Without digits nothing is converted, and
it stops where it began. -/
def strtoul (w : Nat) (text : List UInt8) : Converted :=
  let scanned := scan text
  if scanned.digits = [] then
    ⟨0, text, false⟩
  else if value scanned.digits > 2 ^ w - 1 then
    ⟨2 ^ w - 1, scanned.rest, true⟩
  else if scanned.sign = .minus then
    ⟨(2 ^ w - value scanned.digits) % 2 ^ w, scanned.rest, false⟩
  else
    ⟨value scanned.digits, scanned.rest, false⟩

/-- A text that is read to its end denotes an integer. -/
theorem denotes_of_strtoul {w : Nat} {text : List UInt8} (hne : text ≠ [])
    (h : (strtoul w text).rest = []) : ∃ z, Denotes text z := by
  by_cases hdigits : (scan text).digits = []
  · rw [strtoul, if_pos hdigits] at h
    exact absurd h hne
  · have hrest : (scan text).rest = [] := by
      simp only [strtoul, hdigits, if_false] at h
      split at h
      · exact h
      · split at h <;> exact h
    exact ⟨_, denotes_iff_scan.mpr ⟨hdigits, hrest, rfl⟩⟩

/-- **What an integer is converted to**: itself modulo `2 ^ w`, unless its magnitude is beyond the
type. -/
theorem strtoul_of_denotes {w : Nat} {text : List UInt8} {z : Int} (h : Denotes text z) :
    strtoul w text =
      if z.natAbs > 2 ^ w - 1 then ⟨2 ^ w - 1, [], true⟩ else ⟨(z % 2 ^ w).toNat, [], false⟩ := by
  obtain ⟨hdigits, hrest, rfl⟩ := denotes_iff_scan.mp h
  simp only [strtoul, hdigits, hrest, if_false, Sign.natAbs_apply]
  generalize value (scan text).digits = n
  split
  · rfl
  · next hfits =>
      have hpow : 0 < 2 ^ w := Nat.two_pow_pos w
      have hlt : n < 2 ^ w := by omega
      unfold Sign.apply
      split
      · -- the negation in the unsigned type
        have hmod : ((2 ^ w - n : Nat) : Int) = -(n : Int) + 2 ^ w := by
          rw [Int.ofNat_sub (Nat.le_of_lt hlt)]
          push_cast
          omega
        have hcast : (-(n : Int) % 2 ^ w).toNat = (2 ^ w - n) % 2 ^ w := by
          rw [← Int.add_emod_right, ← hmod]
          norm_cast
        rw [hcast]
      · have hcast : ((n : Int) % 2 ^ w).toNat = n := by
          have hmod : (n : Int) % 2 ^ w = n := by
            norm_cast
            rw [Nat.mod_eq_of_lt hlt]
          rw [hmod]
          rfl
        rw [hcast]

end Foundation.Numeral
