/-
**The carries of an addition.**

Every bit of a sum is the exclusive or of the two bits above it and the carry into its position, so
a sum and its operands tell what was carried.  The carry out of a position is set when both operands
have the bit, or when one of them has it and the sum has not.  A single pattern holds the carries
out of all positions, and an addition at a width is tested by the bit of that pattern at the top of
the width.  What the operands and the sum hold above the width is never looked at.

Main definitions:

* `WordMachine.carries` — the pattern of all carries.

Main results:

* `WordMachine.testBit_carries_iff` — **each bit of the pattern is the carry out of its position**;
* `WordMachine.Width.carriesOut_iff` — the test at a width is right for every pattern that agrees
  with the sum inside the width;
* `WordMachine.Width.carriesOut_eq_of_sum_iff` — what the test needs of the sum is its top bit, and
  not even this where the operands agree in theirs;
* `WordMachine.Width.carriesOut_exact` — the test, on patterns of all kinds.
-/

import Mathlib.Data.Nat.Bitwise
import WordMachine.CheckedSum
import WordMachine.Proofs.Words

set_option relaxedAutoImplicit false
set_option autoImplicit false

namespace WordMachine

/-! ### All carries at once -/

/-- The carries of the addition of `l` and `r` that produced `s`, the one out of each position at
that position. -/
def carries (l r s : UInt64) : UInt64 :=
  (~~~s &&& l) ||| (~~~s &&& r) ||| (l &&& r)

/-- The carry out of a position is what at least two of the three say. -/
theorem testBit_carries {i : ℕ} (hi : i < 64) (l r s : UInt64) :
    (carries l r s).toNat.testBit i =
      Bool.atLeastTwo (!s.toNat.testBit i) (l.toNat.testBit i) (r.toNat.testBit i) := by
  simp only [carries, ← UInt64.toNat_toBitVec, BitVec.testBit_toNat, UInt64.toBitVec_or,
    UInt64.toBitVec_and, UInt64.toBitVec_not, BitVec.getLsbD_or, BitVec.getLsbD_and,
    BitVec.getLsbD_not, hi, decide_true, Bool.true_and]

/-- A full adder is undone by its sum: in place of the carry-in, the complement of the sum gives the
same carry-out.  Where the operands agree, any bit does. -/
theorem atLeastTwo_not_eq_iff (s x y c : Bool) :
    Bool.atLeastTwo (!s) x y = Bool.atLeastTwo x y c ↔ x = y ∨ s = (x ^^ (y ^^ c)) := by
  revert s x y c
  decide

/-- A bit of a sum, by the carry into its position. -/
theorem testBit_add {i : ℕ} (hi : i < 64) (l r : UInt64) :
    (l + r).toNat.testBit i =
      (l.toNat.testBit i ^^
        (r.toNat.testBit i ^^ BitVec.carry i l.toBitVec r.toBitVec false)) := by
  simp only [← UInt64.toNat_toBitVec, BitVec.testBit_toNat, UInt64.toBitVec_add]
  exact BitVec.getLsbD_add hi l.toBitVec r.toBitVec

/-- The bit of the pattern at a position is the carry out of it exactly when the sum is right at
that position, or the operands agree there. -/
theorem testBit_carries_eq_carry_iff {i : ℕ} (hi : i < 64) (l r s : UInt64) :
    (carries l r s).toNat.testBit i = BitVec.carry (i + 1) l.toBitVec r.toBitVec false ↔
      l.toNat.testBit i = r.toNat.testBit i ∨ s.toNat.testBit i = (l + r).toNat.testBit i := by
  rw [testBit_carries hi, BitVec.carry_succ, testBit_add hi]
  exact atLeastTwo_not_eq_iff _ _ _ _

/-- There is a carry into a position when the parts of the operands below it add up to the power of
two there, or more. -/
theorem carry_iff {i : ℕ} {l r : UInt64} :
    BitVec.carry i l.toBitVec r.toBitVec false = true ↔
      2 ^ i ≤ l.toNat % 2 ^ i + r.toNat % 2 ^ i := by
  simp [BitVec.carry]

/-- **Each bit of the pattern is the carry out of its position**, for every `s` that has the bit of
the sum there. -/
theorem testBit_carries_iff {i : ℕ} (hi : i < 64) {l r s : UInt64}
    (h : s.toNat.testBit i = (l + r).toNat.testBit i) :
    (carries l r s).toNat.testBit i = true ↔
      2 ^ (i + 1) ≤ l.toNat % 2 ^ (i + 1) + r.toNat % 2 ^ (i + 1) := by
  rw [(testBit_carries_eq_carry_iff hi l r s).2 (.inr h)]
  exact carry_iff

namespace Width

/-! ### The top of a width -/

theorem bits_sub_one_lt (w : Width) : w.bits - 1 < 64 := by cases w <;> decide

/-- Testing for the sign bit of a width is testing its top bit. -/
theorem and_signBit_ne_zero (w : Width) (v : UInt64) :
    (v &&& w.signBit != 0) = v.toNat.testBit (w.bits - 1) := by
  have hzero : (v &&& w.signBit = 0) ↔ (v.toNat &&& 2 ^ (w.bits - 1) = 0) := by
    rw [← UInt64.toNat_inj, UInt64.toNat_and, toNat_signBit]
    rfl
  rw [Bool.eq_iff_iff, bne_iff_ne, ne_eq, hzero, Nat.and_two_pow]
  cases v.toNat.testBit (w.bits - 1) <;> simp

/-- The test of an addition at a width reads the top carry. -/
theorem carriesOut_eq_testBit (w : Width) (l r s : UInt64) :
    w.carriesOut l r s = (carries l r s).toNat.testBit (w.bits - 1) :=
  and_signBit_ne_zero w _

/-- Patterns that agree inside a width have the same top bit. -/
theorem testBit_top_congr {w : Width} {m n : ℕ} (h : m % 2 ^ w.bits = n % 2 ^ w.bits) :
    m.testBit (w.bits - 1) = n.testBit (w.bits - 1) := by
  have hlt : w.bits - 1 < w.bits := Nat.sub_one_lt_of_lt w.bits_pos
  have hbit := congrArg (·.testBit (w.bits - 1)) h
  simpa only [Nat.testBit_mod_two_pow, hlt, decide_true, Bool.true_and] using hbit

/-- The wrapped sum of two patterns agrees with the exact one inside every width. -/
theorem toNat_add_mod (w : Width) (l r : UInt64) :
    (l + r).toNat % 2 ^ w.bits = (l.toNat + r.toNat) % 2 ^ w.bits := by
  rw [UInt64.toNat_add]
  exact Nat.mod_mod_of_dvd _ (Nat.pow_dvd_pow 2 w.bits_le)

/-- **The test of the top bits is right.**  It tells whether the parts of the operands inside the
width add up to `2 ^ bits` or more, for every `s` that agrees with their sum inside the width. -/
theorem carriesOut_iff {w : Width} {l r s : UInt64}
    (h : s.toNat % 2 ^ w.bits = (l.toNat + r.toNat) % 2 ^ w.bits) :
    w.carriesOut l r s = true ↔ 2 ^ w.bits ≤ l.toNat % 2 ^ w.bits + r.toNat % 2 ^ w.bits := by
  have htop : s.toNat.testBit (w.bits - 1) = (l + r).toNat.testBit (w.bits - 1) :=
    testBit_top_congr (h.trans (toNat_add_mod w l r).symm)
  have hcarry := testBit_carries_iff w.bits_sub_one_lt htop
  rwa [← carriesOut_eq_testBit, Nat.sub_add_cancel w.bits_pos] at hcarry

/-- What the test needs of the sum is its top bit, and not even this where the operands agree in
theirs: two top bits carry and none do not, whatever comes from below. -/
theorem carriesOut_eq_of_sum_iff (w : Width) (l r s : UInt64) :
    w.carriesOut l r s = w.carriesOut l r (l + r) ↔
      l.toNat.testBit (w.bits - 1) = r.toNat.testBit (w.bits - 1) ∨
        s.toNat.testBit (w.bits - 1) = (l + r).toNat.testBit (w.bits - 1) := by
  have hsum := (testBit_carries_eq_carry_iff w.bits_sub_one_lt l r (l + r)).2 (.inr rfl)
  rw [carriesOut_eq_testBit, carriesOut_eq_testBit, hsum]
  exact testBit_carries_eq_carry_iff w.bits_sub_one_lt l r s

/-- The test says the same of two patterns and their wrapped sum as of the patterns and the sum that
addition passes to it, which are all cut down to the width. -/
theorem carriesOut_truncate (w : Width) (l r : UInt64) :
    w.carriesOut (w.truncate l) (w.truncate r) (w.truncate (w.truncate l + w.truncate r)) =
      w.carriesOut l r (l + r) := by
  have hcut : (w.truncate (w.truncate l + w.truncate r)).toNat % 2 ^ w.bits =
      ((w.truncate l).toNat + (w.truncate r).toNat) % 2 ^ w.bits := by
    rw [toNat_truncate, Nat.mod_mod, toNat_add_mod]
  rw [Bool.eq_iff_iff, carriesOut_iff hcut, carriesOut_iff (toNat_add_mod w l r)]
  simp only [toNat_truncate, Nat.mod_mod]

/-- **The test of an addition, on patterns of all kinds.**  For every pattern that agrees with the
sum of the operands inside the width it tells whether the parts of the operands inside the width add
up to `2 ^ bits` or more, so the sum that wraps at 64 bits serves as well as the values cut down to
the width, for which addition uses the test.  A pattern that does not agree with the sum is given
the same answer as the sum just when it has the top bit of it, or when the operands have the same
top bit. -/
theorem carriesOut_exact (w : Width) (l r : UInt64) :
    (∀ s : UInt64, s.toNat % 2 ^ w.bits = (l.toNat + r.toNat) % 2 ^ w.bits →
        (w.carriesOut l r s = true ↔
          2 ^ w.bits ≤ l.toNat % 2 ^ w.bits + r.toNat % 2 ^ w.bits)) ∧
      w.carriesOut (w.truncate l) (w.truncate r) (w.truncate (w.truncate l + w.truncate r)) =
        w.carriesOut l r (l + r) ∧
      (w.add l r).overflow = w.carriesOut l r (l + r) ∧
      ∀ s : UInt64, w.carriesOut l r s = w.carriesOut l r (l + r) ↔
        l.toNat.testBit (w.bits - 1) = r.toNat.testBit (w.bits - 1) ∨
          s.toNat.testBit (w.bits - 1) = (l + r).toNat.testBit (w.bits - 1) := by
  refine ⟨?_, carriesOut_truncate w l r, carriesOut_truncate w l r, ?_⟩
  · intro s hs
    exact carriesOut_iff hs
  · intro s
    exact carriesOut_eq_of_sum_iff w l r s

/-- In eight bits `0xff` and `0x01` carry, also with other bits above them and with others again
above their sum. -/
theorem carriesOut_exact_bits_above :
    (0xdead00 : UInt64).toNat % 2 ^ w8.bits =
        ((0x1ff : UInt64).toNat + (0xabc01 : UInt64).toNat) % 2 ^ w8.bits ∧
      w8.carriesOut 0x1ff 0xabc01 0xdead00 = true := by
  have hsum : (0xdead00 : UInt64).toNat % 2 ^ w8.bits =
      ((0x1ff : UInt64).toNat + (0xabc01 : UInt64).toNat) % 2 ^ w8.bits := by decide
  exact ⟨hsum, ((carriesOut_exact w8 0x1ff 0xabc01).1 0xdead00 hsum).2 (by decide)⟩

end Width

end WordMachine
