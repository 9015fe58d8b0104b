import Mathlib.Data.Nat.Digits.Defs

/-!
# FlowTree.Proofs.Number.Decimal

Decimals: rows of ASCII digits and the numbers that they denote.

The value of a row is the sum of its digits, each times the power of ten of its place.
Numbers are read from left to right and written by division, and both agree with it.

* `Decimal.ofDigitChars_eq` — reading from left to right comes to the sum;
* `Decimal.value_toDigits` — a written number has itself for its value;
* `Decimal.Padded` — the decimal of a number with zeros in front, of a given width;
* `Decimal.padded_replicate_append` — zeros put in front fill the width up.
-/

namespace FlowTree

namespace Decimal

/-- Every character is one of the ten ASCII digits. -/
def AllDigits (token : List Char) : Prop := ∀ c ∈ token, c.isDigit = true

/-- The number that digits denote, the last of them counting ones. -/
def value (digits : List Char) : Nat :=
  Nat.ofDigits 10 (digits.reverse.map fun c => c.toNat - '0'.toNat)

@[simp] theorem value_nil : value [] = 0 := rfl

/-- The first digit counts as many tens as there are digits behind it. -/
theorem value_cons (c : Char) (rest : List Char) :
    value (c :: rest) = (c.toNat - '0'.toNat) * 10 ^ rest.length + value rest := by
  simp only [value, List.reverse_cons, List.map_append, List.map_singleton, Nat.ofDigits_append,
    Nat.ofDigits_singleton, List.length_map, List.length_reverse]
  ring

/-- Reading digits behind a number that was read before them. -/
theorem ofDigitChars_eq (digits : List Char) (n : Nat) :
    Nat.ofDigitChars 10 digits n = n * 10 ^ digits.length + value digits := by
  induction digits generalizing n with
  | nil => simp
  | cons c rest ih =>
      rw [Nat.ofDigitChars_cons, ih, value_cons, List.length_cons, Nat.pow_succ]
      ring

theorem ofDigitChars_zero (digits : List Char) : Nat.ofDigitChars 10 digits 0 = value digits := by
  rw [ofDigitChars_eq, Nat.zero_mul, Nat.zero_add]

/-- A written number has itself for its value. -/
theorem value_toDigits (n : Nat) : value (Nat.toDigits 10 n) = n := by
  rw [← ofDigitChars_zero, Nat.ofDigitChars_ten_toDigits]

theorem allDigits_toDigits (n : Nat) : AllDigits (Nat.toDigits 10 n) :=
  fun _ hc => Nat.isDigit_of_mem_toDigits (by decide) (by decide) hc

/-! ## zeros in front -/

/-- Zeros in front leave the value alone. -/
theorem value_replicate_append (k : Nat) (digits : List Char) :
    value (List.replicate k '0' ++ digits) = value digits := by
  induction k with
  | zero => simp
  | succ k ih =>
      rw [List.replicate_succ, List.cons_append, value_cons, ih]
      simp

/-- Digits that fill a width and denote a number. -/
structure Padded (width n : Nat) (digits : List Char) : Prop where
  length_eq : digits.length = width
  allDigits : AllDigits digits
  value_eq : value digits = n

/-- A number that fits fills the width once it has zeros in front. -/
theorem padded_replicate_append {width n : Nat} (hw : 0 < width) (h : n < 10 ^ width) :
    Padded width n
      (List.replicate (width - (Nat.toDigits 10 n).length) '0' ++ Nat.toDigits 10 n) := by
  have hlength : (Nat.toDigits 10 n).length ≤ width :=
    (Nat.length_toDigits_le_iff (by decide) hw).2 h
  refine ⟨?_, ?_, ?_⟩
  · rw [List.length_append, List.length_replicate]
    omega
  · intro c hc
    cases List.mem_append.1 hc with
    | inl hzero =>
        rw [List.eq_of_mem_replicate hzero]
        decide
    | inr hdigit => exact allDigits_toDigits n c hdigit
  · rw [value_replicate_append, value_toDigits]

end Decimal

end FlowTree
