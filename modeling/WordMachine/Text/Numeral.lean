/-
**Numerals.**

Numbers are written in two ways: in base ten, and in base sixteen after the mark `0x`.  Digits above
nine are lower-case letters, and there are no leading zeros.  In the other direction a text is a
decimal numeral when it has at least one digit and nothing but digits; leading zeros are allowed.

Main definitions:

* `WordMachine.Numeral.decimal`, `WordMachine.Numeral.hexadecimal` — the written forms of a number;
* `WordMachine.Numeral.ofDecimal?` — the number that a decimal numeral stands for.

Main results:

* `WordMachine.Numeral.ofDecimal?_decimal` — a number is read back from its decimal form;
* `WordMachine.Numeral.ofDecimal?_eq_some_iff` — which texts are numerals, and of what.
-/

set_option relaxedAutoImplicit false
set_option autoImplicit false

namespace WordMachine.Numeral

/-! ### Writing -/

/-- The form in base ten. -/
def decimal (n : Nat) : String :=
  String.ofList (Nat.toDigits 10 n)

/-- The form in base sixteen, marked by `0x`. -/
def hexadecimal (n : Nat) : String :=
  "0x" ++ String.ofList (Nat.toDigits 16 n)

@[simp] theorem decimal_toList (n : Nat) : (decimal n).toList = Nat.toDigits 10 n := by
  simp [decimal]

@[simp] theorem hexadecimal_toList (n : Nat) :
    (hexadecimal n).toList = '0' :: 'x' :: Nat.toDigits 16 n := by
  simp [hexadecimal]

/-! ### Reading -/

/-- The value of a non-empty list of decimal digits. -/
def ofDecimal? (digits : List Char) : Option Nat :=
  if digits ≠ [] ∧ digits.all Char.isDigit then some (Nat.ofDigitChars 10 digits 0) else none

theorem ofDecimal?_eq_some_iff {digits : List Char} {n : Nat} :
    ofDecimal? digits = some n ↔
      digits ≠ [] ∧ (∀ c ∈ digits, c.isDigit) ∧ Nat.ofDigitChars 10 digits 0 = n := by
  simp [ofDecimal?, and_assoc]

/-- A number is read back from its decimal form. -/
theorem ofDecimal?_decimal (n : Nat) : ofDecimal? (decimal n).toList = some n := by
  rw [ofDecimal?_eq_some_iff, decimal_toList]
  refine ⟨Nat.toDigits_ne_nil, fun c hc => ?_, Nat.ofDigitChars_ten_toDigits⟩
  exact Nat.isDigit_of_mem_toDigits (by decide) (by decide) hc

/-- Leading zeros do not count. -/
theorem ofDecimal?_zeros_append (k : Nat) {digits : List Char} {n : Nat}
    (h : ofDecimal? digits = some n) : ofDecimal? (List.replicate k '0' ++ digits) = some n := by
  rw [ofDecimal?_eq_some_iff] at h ⊢
  obtain ⟨hne, hall, hval⟩ := h
  refine ⟨by simp [hne], fun c hc => ?_, ?_⟩
  · rcases List.mem_append.1 hc with hc | hc
    · rw [(List.mem_replicate.1 hc).2]
      decide
    · exact hall c hc
  · simp [Nat.ofDigitChars_append, hval]

end WordMachine.Numeral
