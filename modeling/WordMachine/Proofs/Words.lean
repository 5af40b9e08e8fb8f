/-
**Words as numbers.**

The bits of a pattern that belong to a width are its remainder modulo a power of two.  This module
reads masks, words and patterns as numbers, so that what is proved about them is arithmetic.

Main results:

* `WordMachine.Width.toNat_truncate` — cutting down is the remainder modulo `2 ^ bits`;
* `WordMachine.Width.fits_iff` — the patterns that fit are those below `2 ^ bits`;
* `WordMachine.Width.zeroExtend_word` — the way to words and back is cutting down.
-/

import Mathlib.Algebra.Group.Nat.Defs
import WordMachine.Address
import WordMachine.Width

set_option relaxedAutoImplicit false
set_option autoImplicit false

namespace WordMachine

theorem Address.toNat_advance (a : Address) (n : UInt64) :
    (a.advance n).value.toNat = (a.value.toNat + n.toNat) % 2 ^ 64 :=
  UInt64.toNat_add _ _

/-- An address that is moved forward is the exact sum, as far as it fits in 64 bits. -/
theorem Address.advance_eq_ofNat (a : Address) (n : UInt64) :
    a.advance n = ⟨.ofNat (a.value.toNat + n.toNat)⟩ := by
  have h := toNat_advance a n
  rw [← UInt64.toNat_ofNat', UInt64.toNat_inj] at h
  exact congrArg Address.mk h

namespace Width

/-! ### Patterns -/

@[simp] theorem toNat_mask (w : Width) : w.mask.toNat = 2 ^ w.bits - 1 := by cases w <;> rfl

@[simp] theorem toNat_signBit (w : Width) : w.signBit.toNat = 2 ^ (w.bits - 1) := by
  cases w <;> rfl

/-- Cutting down to a width is the remainder modulo a power of two. -/
@[simp] theorem toNat_truncate (w : Width) (v : UInt64) :
    (w.truncate v).toNat = v.toNat % 2 ^ w.bits := by
  rw [truncate, UInt64.toNat_and, toNat_mask, Nat.and_two_pow_sub_one_eq_mod]

theorem truncate_eq_self_iff {w : Width} {v : UInt64} :
    w.truncate v = v ↔ v.toNat < 2 ^ w.bits := by
  rw [← UInt64.toNat_inj, toNat_truncate, Nat.mod_eq_iff_lt (Nat.ne_of_gt (Nat.two_pow_pos _))]

/-- A pattern is the part inside the width beside the part above it. -/
theorem truncate_or_above (w : Width) (v : UInt64) :
    w.truncate v ||| (v &&& ~~~w.mask) = v := by
  apply UInt64.eq_of_toBitVec_eq
  ext i
  cases h : v.toBitVec[i] <;> simp [truncate, h]

/-- The patterns that fit lose nothing when they are cut down. -/
theorem fits_iff_truncate_eq_self {w : Width} {v : UInt64} : w.fits v ↔ w.truncate v = v := by
  rw [fits, beq_iff_eq]
  constructor
  · intro h
    have := truncate_or_above w v
    rwa [h, UInt64.or_zero] at this
  · intro h
    rw [← h, truncate, UInt64.and_assoc]
    simp

/-- The patterns that fit are those below the power of two. -/
theorem fits_iff {w : Width} {v : UInt64} : w.fits v ↔ v.toNat < 2 ^ w.bits :=
  fits_iff_truncate_eq_self.trans truncate_eq_self_iff

/-- Zero and one fit in every width. -/
theorem lt_two_pow_bits_of_le_one (w : Width) {n : ℕ} (h : n ≤ 1) : n < 2 ^ w.bits :=
  Nat.lt_of_le_of_lt h (Nat.one_lt_two_pow (Nat.ne_of_gt w.bits_pos))

/-! ### Words -/

@[simp] theorem toNat_word (w : Width) (v : UInt64) :
    (w.word v).toNat = v.toNat % 2 ^ w.bits :=
  BitVec.toNat_ofNat _ _

theorem two_pow_bits_le (w : Width) : 2 ^ w.bits ≤ 2 ^ 64 :=
  Nat.pow_le_pow_right (by decide) w.bits_le

@[simp] theorem toNat_zeroExtend (w : Width) (v : w.Word) : (w.zeroExtend v).toNat = v.toNat :=
  UInt64.toNat_ofNat_of_lt' (Nat.lt_of_lt_of_le v.isLt w.two_pow_bits_le)

/-- The way from patterns to words and back is cutting down. -/
@[simp] theorem zeroExtend_word (w : Width) (v : UInt64) :
    w.zeroExtend (w.word v) = w.truncate v := by
  rw [← UInt64.toNat_inj, toNat_zeroExtend, toNat_word, toNat_truncate]

@[simp] theorem word_truncate (w : Width) (v : UInt64) : w.word (w.truncate v) = w.word v := by
  apply BitVec.eq_of_toNat_eq
  simp

/-- A flag is the word zero or one at every width. -/
theorem word_flag (w : Width) (flag : Bool) :
    w.word (w.truncate (if flag then 1 else 0)) = if flag then 1 else 0 := by
  cases flag <;> cases w <;> rfl

/-- A flag comes back from its word as zero or one. -/
theorem zeroExtend_flag (w : Width) (flag : Bool) :
    w.zeroExtend (if flag then 1 else 0) = flag.toUInt64 := by
  cases flag <;> cases w <;> rfl

/-- A word is zero when its pattern is. -/
theorem zeroExtend_bne_zero (w : Width) (v : w.Word) : (w.zeroExtend v != 0) = (v != 0) := by
  rw [Bool.eq_iff_iff, bne_iff_ne, bne_iff_ne, ne_eq, ne_eq, ← UInt64.toNat_inj,
    ← BitVec.toNat_inj, toNat_zeroExtend]
  simp

/-- A pattern that fits in the width comes back from its word. -/
theorem zeroExtend_word_of_fits {w : Width} {v : UInt64} (h : w.fits v) :
    w.zeroExtend (w.word v) = v := by
  rw [zeroExtend_word]
  exact fits_iff_truncate_eq_self.1 h

end Width

end WordMachine
