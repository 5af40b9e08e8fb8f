/-
**Cutting down is taking a remainder.**

A pattern is cut down in two ways.  A byte count shifts the bits that do not fit out at the top and
brings zeros back in their place; a width keeps the bits under its mask.  Both leave the remainder
modulo a power of two, so they agree wherever both apply, and cutting down twice is cutting down to
the smaller of the two sizes.

A pattern can only be shifted by fewer bits than it has.  No bytes would take a shift by all 64, and
more than eight bytes a shift by less than none; both are answered without shifting.  To see that no
such shift is left, the steps of cutting down are followed with other shifts in place of the usual
ones, which have no result unless they are by 1 to 63 bits.

Main definitions:

* `WordMachine.ByteCount.truncateVia` — the steps of cutting down, for any two shifts;
* `WordMachine.ByteCount.shiftWithin` — a shift by 1 to 63 bits, or none.

Main results:

* `WordMachine.ByteCount.toNat_truncate` — **shifting leaves the remainder**;
* `WordMachine.ByteCount.and_maxUnsigned` — **masking does the same as shifting**, at every size;
* `WordMachine.ByteCount.truncateVia_shiftWithin` — every shift is by 1 to 63 bits;
* `WordMachine.ByteCount.truncate_truncate` — the smaller size decides;
* `WordMachine.truncation_exact` — both ways of cutting down, at all sizes and widths.
-/

import Mathlib.Data.Nat.Bitwise
import Mathlib.Data.Set.Operations
import Mathlib.Order.Bounds.Basic
import WordMachine.Proofs.Words

set_option relaxedAutoImplicit false
set_option autoImplicit false

namespace WordMachine

/-! ### Remainders modulo powers of two -/

/-- Of two powers of two the smaller one decides what is left of a number. -/
theorem mod_two_pow_mod_two_pow (v i j : ℕ) : v % 2 ^ i % 2 ^ j = v % 2 ^ min i j := by
  apply Nat.eq_of_testBit_eq
  intro k
  simp only [Nat.testBit_mod_two_pow, Nat.lt_min, Bool.decide_and]
  rw [← Bool.and_assoc, Bool.and_comm (decide (k < j))]

namespace ByteCount

/-! ### Sizes in bits -/

/-- A size is eight times as large in bits as long as that takes 64 bits to write. -/
theorem toNat_bits_iff {n : ByteCount} :
    n.bits.toNat = 8 * n.bytes.toNat ↔ n.bytes.toNat < 2 ^ 61 := by
  have hbits : n.bits.toNat = n.bytes.toNat * 8 % 2 ^ 64 := UInt64.toNat_mul _ _
  have hbytes := n.bytes.toNat_lt
  omega

/-- The smaller of two sizes. -/
instance : Min ByteCount := ⟨fun m n => if (compare m n).isLE then m else n⟩

theorem toNat_min (m n : ByteCount) :
    (min m n).bytes.toNat = min m.bytes.toNat n.bytes.toNat := by
  have hcompare : (compare m.bytes n.bytes).isLE ↔ m.bytes ≤ n.bytes := Std.isLE_compare
  have hle : (compare m n).isLE ↔ m.bytes.toNat ≤ n.bytes.toNat :=
    hcompare.trans UInt64.le_iff_toNat_le
  have hmin : min m n = if (compare m n).isLE then m else n := rfl
  rw [hmin]
  split
  · next h => exact (Nat.min_eq_left (hle.1 h)).symm
  · next h => exact (Nat.min_eq_right (Nat.le_of_not_le (mt hle.2 h))).symm

/-! ### Shifting out -/

/-- Shifting up by `k` bits and down again leaves the low `64 - k` bits. -/
theorem toNat_shiftLeft_shiftRight {v k : UInt64} (hk : k.toNat < 64) :
    ((v <<< k) >>> k).toNat = v.toNat % 2 ^ (64 - k.toNat) := by
  have hpow : 2 ^ 64 = 2 ^ (64 - k.toNat) * 2 ^ k.toNat := by
    rw [← Nat.pow_add, Nat.sub_add_cancel (Nat.le_of_lt hk)]
  rw [UInt64.toNat_shiftRight, UInt64.toNat_shiftLeft, Nat.mod_eq_of_lt hk, Nat.shiftLeft_eq,
    Nat.shiftRight_eq_div_pow, hpow, Nat.mul_mod_mul_right,
    Nat.mul_div_cancel _ (Nat.two_pow_pos _)]

/-- Where bits are shifted out, some of the 64 are and some are not. -/
theorem toNat_sub_bits {n : ByteCount} (hsome : n.bits ≠ 0) (hall : ¬ 64 ≤ n.bits) :
    (64 - n.bits).toNat = 64 - n.bits.toNat ∧ 0 < n.bits.toNat ∧ n.bits.toNat < 64 := by
  have hlt : n.bits < 64 := UInt64.not_le.1 hall
  have hpos : 0 < n.bits := UInt64.pos_iff_ne_zero.2 hsome
  exact ⟨UInt64.toNat_sub_of_le _ _ (UInt64.le_of_lt hlt), UInt64.lt_iff_toNat_lt.1 hpos,
    UInt64.lt_iff_toNat_lt.1 hlt⟩

/-- Cutting down leaves the remainder modulo the power of two, in the number of bits. -/
theorem toNat_truncate_bits (n : ByteCount) (v : UInt64) :
    (n.truncate v).toNat = v.toNat % 2 ^ n.bits.toNat := by
  rw [truncate]
  split
  · next hnone =>
    rw [hnone]
    exact (Nat.mod_one _).symm
  split
  · next hall =>
    have hle : 2 ^ 64 ≤ 2 ^ n.bits.toNat :=
      Nat.pow_le_pow_right (by decide) (UInt64.le_iff_toNat_le.1 hall)
    rw [Nat.mod_eq_of_lt (Nat.lt_of_lt_of_le v.toNat_lt hle)]
  · next hsome hall =>
    obtain ⟨hsub, hpos, hlt⟩ := toNat_sub_bits hsome hall
    rw [toNat_shiftLeft_shiftRight (by omega), hsub, Nat.sub_sub_self (Nat.le_of_lt hlt)]

/-- **Shifting leaves the remainder** modulo `256 ^ bytes`. -/
theorem toNat_truncate {n : ByteCount} (h : n.bytes.toNat < 2 ^ 61) (v : UInt64) :
    (n.truncate v).toNat = v.toNat % 2 ^ (8 * n.bytes.toNat) := by
  rw [toNat_truncate_bits, toNat_bits_iff.2 h]

/-- Eight bytes and more keep the whole pattern. -/
theorem truncate_of_le {n : ByteCount} (h : n.bytes.toNat < 2 ^ 61)
    (hle : 64 ≤ 8 * n.bytes.toNat) (v : UInt64) : n.truncate v = v := by
  rw [← UInt64.toNat_inj, toNat_truncate h, Nat.mod_eq_of_lt]
  exact Nat.lt_of_lt_of_le v.toNat_lt (Nat.pow_le_pow_right (by decide) hle)

/-- **The smaller size decides** what is left after cutting down twice. -/
theorem truncate_truncate {m n : ByteCount} (hm : m.bytes.toNat < 2 ^ 61)
    (hn : n.bytes.toNat < 2 ^ 61) (v : UInt64) :
    m.truncate (n.truncate v) = (min m n).truncate v := by
  have hmin : (min m n).bytes.toNat < 2 ^ 61 := by
    rw [toNat_min]
    omega
  rw [← UInt64.toNat_inj, toNat_truncate hm, toNat_truncate hn, toNat_truncate hmin, toNat_min,
    mod_two_pow_mod_two_pow, Nat.mul_min_mul_left, Nat.min_comm]

/-! ### The largest pattern, and masking -/

/-- The largest pattern has all the bits that fit, of the 64 that there are. -/
theorem toNat_maxUnsigned (n : ByteCount) :
    n.maxUnsigned.toNat = 2 ^ min n.bits.toNat 64 - 1 := by
  have hones : (0 - 1 : UInt64).toNat = 2 ^ 64 - 1 := rfl
  rw [maxUnsigned, toNat_truncate_bits, hones]
  apply Nat.eq_of_testBit_eq
  intro k
  simp only [Nat.testBit_mod_two_pow, Nat.testBit_two_pow_sub_one, Nat.lt_min, Bool.decide_and]

/-- **Masking does the same as shifting.** -/
theorem and_maxUnsigned (n : ByteCount) (v : UInt64) : v &&& n.maxUnsigned = n.truncate v := by
  rw [← UInt64.toNat_inj, UInt64.toNat_and, toNat_maxUnsigned, Nat.and_two_pow_sub_one_eq_mod,
    toNat_truncate_bits, Nat.min_comm, ← mod_two_pow_mod_two_pow, Nat.mod_eq_of_lt v.toNat_lt]

/-- The largest pattern that fits is the largest that cutting down gives. -/
theorem isGreatest_maxUnsigned (n : ByteCount) :
    IsGreatest (Set.range n.truncate) n.maxUnsigned := by
  refine ⟨⟨0 - 1, rfl⟩, ?_⟩
  rintro _ ⟨v, rfl⟩
  rw [← and_maxUnsigned, UInt64.le_iff_toNat_le, UInt64.toNat_and]
  exact Nat.and_le_right

/-! ### The shifts that are made -/

/-- The steps of cutting down, with the shifts up and down left open. -/
def truncateVia {m : Type → Type} [Monad m] (up down : UInt64 → UInt64 → m UInt64) (n : ByteCount)
    (v : UInt64) : m UInt64 :=
  if n.bits = 0 then return 0
  else if 64 ≤ n.bits then return v
  else do
    let high ← up v (64 - n.bits)
    down high (64 - n.bits)

/-- With the shifts of patterns these are the steps of `truncate`. -/
theorem truncate_eq_truncateVia (n : ByteCount) (v : UInt64) :
    n.truncate v =
      Id.run (n.truncateVia (fun u k => pure (u <<< k)) (fun u k => pure (u >>> k)) v) := rfl

/-- A shift that is made by 1 to 63 bits, and has no result by any other number of bits. -/
def shiftWithin (shift : UInt64 → UInt64 → UInt64) (v k : UInt64) : Option UInt64 :=
  if 1 ≤ k ∧ k ≤ 63 then some (shift v k) else none

/-- **Every shift is by 1 to 63 bits.**  Whatever the shifts do, the steps lead to the same result
when they are made by 1 to 63 bits only. -/
theorem truncateVia_shiftWithin (up down : UInt64 → UInt64 → UInt64) (n : ByteCount)
    (v : UInt64) :
    n.truncateVia (shiftWithin up) (shiftWithin down) v =
      some (Id.run
        (n.truncateVia (fun u k => pure (up u k)) (fun u k => pure (down u k)) v)) := by
  rw [truncateVia, truncateVia]
  split
  · rfl
  split
  · rfl
  · next hsome hall =>
    obtain ⟨hsub, hpos, hlt⟩ := toNat_sub_bits hsome hall
    have hwithin : 1 ≤ 64 - n.bits ∧ 64 - n.bits ≤ 63 := by
      simp only [UInt64.le_iff_toNat_le, hsub, UInt64.reduceToNat]
      omega
    simp only [shiftWithin, if_pos hwithin, Option.bind_eq_bind, Option.bind_some]
    rfl

/-- Cutting down goes through when no shift can be made but by 1 to 63 bits. -/
theorem truncateVia_shiftWithin_eq_truncate (n : ByteCount) (v : UInt64) :
    n.truncateVia (shiftWithin (· <<< ·)) (shiftWithin (· >>> ·)) v = some (n.truncate v) := by
  rw [truncate_eq_truncateVia, truncateVia_shiftWithin]

end ByteCount

/-! ### Sizes and widths -/

/-- A width cuts down as its size does. -/
theorem Width.truncate_eq_byteCount (w : Width) (v : UInt64) :
    w.truncate v = w.byteCount.truncate v :=
  w.byteCount.and_maxUnsigned v

/-- **Cutting down, at every size and every width.**  At a size that can be written in bits, what is
left of a pattern is its remainder modulo the power of two when these are fewer than 64 bits, and
all of it otherwise; every shift is by 1 to 63 bits, masking does the same, and the largest pattern
of the size is the largest that can be left.  Of two sizes the smaller one decides.  A width cuts
down as its size does, and the patterns that fit in it are those that stay as they are, which are
those below the power of two. -/
theorem truncation_exact (w : Width) (v : UInt64) :
    (∀ n : ByteCount, n.bytes.toNat < 2 ^ 61 →
        n.bits.toNat = 8 * n.bytes.toNat ∧
        (8 * n.bytes.toNat < 64 → (n.truncate v).toNat = v.toNat % 2 ^ (8 * n.bytes.toNat)) ∧
        (64 ≤ 8 * n.bytes.toNat → n.truncate v = v) ∧
        n.truncateVia (ByteCount.shiftWithin (· <<< ·)) (ByteCount.shiftWithin (· >>> ·)) v =
          some (n.truncate v) ∧
        v &&& n.maxUnsigned = n.truncate v ∧
        IsGreatest (Set.range n.truncate) n.maxUnsigned) ∧
      (∀ m n : ByteCount, m.bytes.toNat < 2 ^ 61 → n.bytes.toNat < 2 ^ 61 →
        m.truncate (n.truncate v) = (min m n).truncate v) ∧
      w.truncate v = w.byteCount.truncate v ∧
      (w.truncate v).toNat = v.toNat % 2 ^ w.bits ∧
      (w.fits v = true ↔ w.truncate v = v) ∧
      (w.fits v = true ↔ v.toNat < 2 ^ w.bits) := by
  refine ⟨?_, ?_, w.truncate_eq_byteCount v, w.toNat_truncate v, Width.fits_iff_truncate_eq_self,
    Width.fits_iff⟩
  · intro n hn
    exact ⟨ByteCount.toNat_bits_iff.2 hn, fun _ => ByteCount.toNat_truncate hn v,
      fun hle => ByteCount.truncate_of_le hn hle v, n.truncateVia_shiftWithin_eq_truncate v,
      n.and_maxUnsigned v, n.isGreatest_maxUnsigned⟩
  · intro m n hm hn
    exact ByteCount.truncate_truncate hm hn v

/-- Three bytes are left of a pattern that is cut down to five bytes and then to three, or to three
bytes and then to five. -/
theorem truncation_exact_three_bytes :
    (3 : UInt64).toNat < 2 ^ 61 ∧ (5 : UInt64).toNat < 2 ^ 61 ∧
      (⟨5⟩ : ByteCount).truncate ((⟨3⟩ : ByteCount).truncate 0x0123456789abcdef) = 0xabcdef ∧
      ((⟨3⟩ : ByteCount).truncate ((⟨5⟩ : ByteCount).truncate 0x0123456789abcdef)).toNat =
        0x0123456789abcdef % 2 ^ 24 := by
  have hthree : (3 : UInt64).toNat < 2 ^ 61 := by decide
  have hfive : (5 : UInt64).toNat < 2 ^ 61 := by decide
  obtain ⟨hsize, htwice, -⟩ := truncation_exact .w8 0x0123456789abcdef
  obtain ⟨-, hlow, -⟩ := hsize ⟨3⟩ hthree
  refine ⟨hthree, hfive, ?_, ?_⟩
  · rw [htwice ⟨5⟩ ⟨3⟩ hfive hthree]
    rfl
  · rw [htwice ⟨3⟩ ⟨5⟩ hthree hfive]
    exact hlow (by decide)

end WordMachine
