/-
**The additions are exact.**

The additions of `WordMachine.CheckedSum` never leave 64 bits: whether they overflow is read off the
top bits of the operands and of the sum, and a carry-in enters by a second addition.  This module
compares them with the sum of the operands as numbers, where nothing can overflow.

Main definitions:

* `WordMachine.Width.exactSum` — the sum of some operands, each cut down to the width, as a number;
* `WordMachine.Width.checked` — the checked sum that a number stands for at a width.

Main results:

* `WordMachine.Width.add_eq`, `WordMachine.Width.addWithCarry_eq` — **the additions are exact**;
* `WordMachine.Width.checked_split` — nothing is lost: below `2 ^ (bits + 1)` the value and the
  overflow recover the number.
-/

import WordMachine.Proofs.Carries

set_option relaxedAutoImplicit false
set_option autoImplicit false

namespace WordMachine.Width

/-! ### Sums modulo the power of two -/

/-- The sum is the exact sum modulo the power of two. -/
@[simp] theorem toNat_add_value (w : Width) (l r : UInt64) :
    (w.add l r).value.toNat = (l.toNat % 2 ^ w.bits + r.toNat % 2 ^ w.bits) % 2 ^ w.bits := by
  rw [add, toNat_truncate, toNat_add_mod, toNat_truncate, toNat_truncate]

/-- The sum with a carry-in is the exact sum modulo the power of two. -/
@[simp] theorem toNat_addWithCarry_value (w : Width) (l r c : UInt64) :
    (w.addWithCarry l r c).value.toNat =
      (l.toNat % 2 ^ w.bits + r.toNat % 2 ^ w.bits + c.toNat % 2 ^ w.bits) % 2 ^ w.bits := by
  simp only [addWithCarry, toNat_add_value]
  rw [Nat.mod_mod, Nat.mod_add_mod]

theorem addWithCarry_overflow (w : Width) (l r c : UInt64) :
    (w.addWithCarry l r c).overflow =
      ((w.add l r).overflow || (w.add (w.add l r).value c).overflow) := rfl

/-! ### Exact sums -/

/-- The sum of operands, each cut down to the width. -/
def exactSum (w : Width) (operands : List UInt64) : ℕ :=
  (operands.map fun v => v.toNat % 2 ^ w.bits).sum

@[simp] theorem exactSum_pair (w : Width) (l r : UInt64) :
    w.exactSum [l, r] = l.toNat % 2 ^ w.bits + r.toNat % 2 ^ w.bits := by
  simp [exactSum]

@[simp] theorem exactSum_triple (w : Width) (l r c : UInt64) :
    w.exactSum [l, r, c] =
      l.toNat % 2 ^ w.bits + r.toNat % 2 ^ w.bits + c.toNat % 2 ^ w.bits := by
  simp [exactSum, Nat.add_assoc]

/-- Words are below the power of two, so cutting them down changes nothing. -/
theorem exactSum_zeroExtend (w : Width) (words : List w.Word) :
    w.exactSum (words.map w.zeroExtend) = (words.map BitVec.toNat).sum := by
  rw [exactSum, List.map_map]
  refine congrArg _ (List.map_congr_left fun v _ => ?_)
  rw [Function.comp_apply, toNat_zeroExtend, Nat.mod_eq_of_lt v.isLt]

/-- A number as a checked sum: its remainder, and whether it does not fit in the width. -/
def checked (w : Width) (n : ℕ) : CheckedSum :=
  ⟨UInt64.ofNat (n % 2 ^ w.bits), decide (2 ^ w.bits ≤ n)⟩

@[simp] theorem toNat_checked_value (w : Width) (n : ℕ) :
    (w.checked n).value.toNat = n % 2 ^ w.bits :=
  UInt64.toNat_ofNat_of_lt'
    (Nat.lt_of_lt_of_le (Nat.mod_lt _ (Nat.two_pow_pos _)) w.two_pow_bits_le)

/-- A remainder has no bits above the width. -/
theorem fits_checked_value (w : Width) (n : ℕ) : w.fits (w.checked n).value := by
  rw [fits_iff, toNat_checked_value]
  exact Nat.mod_lt _ (Nat.two_pow_pos _)

/-- Nothing is lost as long as the number wraps at most once. -/
theorem checked_split {w : Width} {n : ℕ} (h : n < 2 * 2 ^ w.bits) :
    (w.checked n).value.toNat + 2 ^ w.bits * (w.checked n).overflow.toNat = n := by
  rw [toNat_checked_value]
  by_cases hn : 2 ^ w.bits ≤ n
  · have hone : (w.checked n).overflow.toNat = 1 := by simp [checked, hn]
    rw [hone, Nat.mod_eq_sub_mod hn, Nat.mod_eq_of_lt (by omega)]
    omega
  · have hnone : (w.checked n).overflow.toNat = 0 := by simp [checked, hn]
    rw [hnone, Nat.mod_eq_of_lt (by omega)]
    omega

/-- A checked sum is the one of a number when it has its remainder and its overflow. -/
theorem eq_checked {w : Width} {n : ℕ} {s : CheckedSum} (hvalue : s.value.toNat = n % 2 ^ w.bits)
    (hoverflow : s.overflow = true ↔ 2 ^ w.bits ≤ n) : s = w.checked n := by
  obtain ⟨value, overflow⟩ := s
  have hv : value = (w.checked n).value := by
    rw [← UInt64.toNat_inj, toNat_checked_value]
    exact hvalue
  have ho : overflow = (w.checked n).overflow := by
    rw [Bool.eq_iff_iff]
    simpa [checked] using hoverflow
  rw [hv, ho]

theorem add_overflow_iff {w : Width} {l r : UInt64} :
    (w.add l r).overflow = true ↔ 2 ^ w.bits ≤ w.exactSum [l, r] := by
  have htest : (w.add l r).overflow = w.carriesOut l r (l + r) := carriesOut_truncate w l r
  rw [htest, exactSum_pair]
  exact carriesOut_iff (toNat_add_mod w l r)

/-- **Addition is exact.** -/
theorem add_eq (w : Width) (l r : UInt64) : w.add l r = w.checked (w.exactSum [l, r]) := by
  refine eq_checked ?_ add_overflow_iff
  rw [toNat_add_value, exactSum_pair]

/-- **Addition with a carry-in is exact**, for every carry-in and not only for zero and one. -/
theorem addWithCarry_eq (w : Width) (l r c : UInt64) :
    w.addWithCarry l r c = w.checked (w.exactSum [l, r, c]) := by
  refine eq_checked (by rw [toNat_addWithCarry_value, exactSum_triple]) ?_
  have hl := Nat.mod_lt l.toNat (Nat.two_pow_pos w.bits)
  have hr := Nat.mod_lt r.toNat (Nat.two_pow_pos w.bits)
  rw [addWithCarry_overflow, Bool.or_eq_true, add_overflow_iff, add_overflow_iff, exactSum_pair,
    exactSum_pair, exactSum_triple, toNat_add_value, Nat.mod_mod]
  -- when the operands wrap, the total does, whatever the carry-in adds to what is left
  rcases Nat.lt_or_ge (l.toNat % 2 ^ w.bits + r.toNat % 2 ^ w.bits) (2 ^ w.bits) with hlt | hge
  · rw [Nat.mod_eq_of_lt hlt]
    omega
  · constructor
    · intro _
      omega
    · intro _
      exact Or.inl hge

/-- With a carry-in of at most one, the value and the overflow of a sum recover the operands and the
carry-in. -/
theorem addWithCarry_split {w : Width} {c : UInt64} (l r : UInt64) (hc : c.toNat ≤ 1) :
    (w.addWithCarry l r c).value.toNat + 2 ^ w.bits * (w.addWithCarry l r c).overflow.toNat =
      l.toNat % 2 ^ w.bits + r.toNat % 2 ^ w.bits + c.toNat := by
  have hl := Nat.mod_lt l.toNat (Nat.two_pow_pos w.bits)
  have hr := Nat.mod_lt r.toNat (Nat.two_pow_pos w.bits)
  have hmod : c.toNat % 2 ^ w.bits = c.toNat :=
    Nat.mod_eq_of_lt (w.lt_two_pow_bits_of_le_one hc)
  rw [addWithCarry_eq, exactSum_triple, hmod, checked_split]
  omega

end WordMachine.Width
