/-
**Addition of 128-bit numbers.**

A 128-bit number has two limbs of 64 bits, which are its digits in base `2 ^ 64`.  Two such numbers
are added by their limbs, with the carry from the lower limb to the upper one in a cell of memory,
and the limbs of the sum are put together from the upper one down: what has been read is shifted up,
and the next limb takes the bits that this leaves free.  The sum and its carry are those of bit
vectors of 128 bits.

Main definitions:

* `WordMachine.limbPairs128` — the limbs of two numbers, side by side.

Main results:

* `WordMachine.ofDigits_limbs128` — the limbs of a number are its digits;
* `WordMachine.toNat_ofLimbs128` — limbs that are put together are the number with these digits, as
  far as it fits;
* `WordMachine.sum_limbPairs128` — with the carries passed on directly, the limbs and the carry are
  those of **the sum of bit vectors**;
* `WordMachine.add128_exact` — the addition on every flat memory, with the memory after it.
-/

import Mathlib.Data.Nat.Digits.Lemmas
import WordMachine.Proofs.CarryChain

set_option relaxedAutoImplicit false
set_option autoImplicit false

namespace WordMachine

/-! ### Limbs and numbers -/

/-- The limbs of a number are its digits. -/
theorem ofDigits_limbs128 (v : BitVec 128) :
    Nat.ofDigits (2 ^ 64) ((limbs128 v).map UInt64.toNat) = v.toNat := by
  have hlow : (⟨v.setWidth 64⟩ : UInt64).toNat = v.toNat % 2 ^ 64 := BitVec.toNat_setWidth _ _
  have hhigh : (⟨(v >>> 64).setWidth 64⟩ : UInt64).toNat = v.toNat / 2 ^ 64 := by
    have hv := v.isLt
    rw [UInt64.toNat_ofBitVec, BitVec.toNat_setWidth, BitVec.toNat_ushiftRight,
      Nat.shiftRight_eq_div_pow]
    omega
  rw [limbs128, List.map_cons, List.map_cons, List.map_nil, hlow, hhigh, Nat.ofDigits_cons,
    Nat.ofDigits_singleton, Nat.mod_add_div]

/-- A limb takes the bits that shifting a number up leaves free. -/
theorem toNat_shiftLeft_or_limb (v : BitVec 128) (limb : UInt64) :
    ((v <<< 64) ||| limb.toBitVec.setWidth 128).toNat =
      (limb.toNat + 2 ^ 64 * v.toNat) % 2 ^ 128 := by
  have hlimb : limb.toNat < 2 ^ 64 := limb.toNat_lt
  have hshift : v.toNat <<< 64 % 2 ^ 128 = 2 ^ 64 * (v.toNat % 2 ^ 64) := by
    rw [Nat.shiftLeft_eq]
    omega
  rw [BitVec.toNat_or, BitVec.toNat_shiftLeft, BitVec.toNat_setWidth, UInt64.toNat_toBitVec,
    Nat.mod_eq_of_lt (Nat.lt_trans hlimb (by decide)), hshift, ← Nat.two_pow_add_eq_or_of_lt hlimb]
  omega

/-- Limbs that are put together are the number with these digits, as far as it fits. -/
theorem toNat_ofLimbs128 (limbs : List UInt64) :
    (ofLimbs128 limbs).toNat = Nat.ofDigits (2 ^ 64) (limbs.map UInt64.toNat) % 2 ^ 128 := by
  induction limbs with
  | nil => rfl
  | cons limb limbs ih =>
      have hcons : ofLimbs128 (limb :: limbs) =
          (ofLimbs128 limbs <<< 64) ||| limb.toBitVec.setWidth 128 := rfl
      rw [hcons, toNat_shiftLeft_or_limb, ih, List.map_cons, Nat.ofDigits_cons]
      omega

/-! ### Sums -/

/-- The limbs of two numbers, side by side. -/
def limbPairs128 (left right : BitVec 128) : List (UInt64 × UInt64) :=
  limbPairs (limbs128 left) (limbs128 right)

theorem map_limbPairs128 (left right : BitVec 128) :
    (limbPairs128 left right).map (fun p => p.1.toNat % 2 ^ 64) =
        (limbs128 left).map UInt64.toNat ∧
      (limbPairs128 left right).map (fun p => p.2.toNat % 2 ^ 64) =
        (limbs128 right).map UInt64.toNat := by
  have hmod : ∀ v : UInt64, v.toNat % 2 ^ 64 = v.toNat := fun v => Nat.mod_eq_of_lt v.toNat_lt
  simp only [limbPairs128, limbs128, limbPairs, List.zipWithAll_cons_cons, hmod]
  exact ⟨rfl, rfl⟩

/-- The sum of two numbers by their limbs recovers the exact sum with its carry, and fits beside
it. -/
theorem chainSum_limbPairs128 (left right : BitVec 128) :
    let s := chainSum .w64 (limbPairs128 left right) 0
    let sum := Nat.ofDigits (2 ^ 64) (s.limbs.map UInt64.toNat)
    sum + s.carry.toNat * 2 ^ 128 = left.toNat + right.toNat ∧ sum < 2 ^ 128 := by
  intro s sum
  have hvalue : sum + s.carry.toNat * (2 ^ 64) ^ 2 =
      Nat.ofDigits (2 ^ 64) ((limbPairs128 left right).map fun p => p.1.toNat % 2 ^ 64) +
        Nat.ofDigits (2 ^ 64) ((limbPairs128 left right).map fun p => p.2.toNat % 2 ^ 64) + 0 :=
    chainSum_value (w := .w64) (limbPairs128 left right) (by decide)
  have hlt : sum < (2 ^ 64) ^ (s.limbs.map UInt64.toNat).length := by
    refine Nat.ofDigits_lt_base_pow_length (by decide) ?_
    intro d hd
    obtain ⟨v, -, rfl⟩ := List.mem_map.1 hd
    exact v.toNat_lt
  obtain ⟨hleft, hright⟩ := map_limbPairs128 left right
  rw [hleft, hright, ofDigits_limbs128, ofDigits_limbs128, ← Nat.pow_mul] at hvalue
  rw [List.length_map, length_chainSum, ← Nat.pow_mul] at hlt
  exact ⟨hvalue, hlt⟩

/-- The limbs of the sum of two numbers are those of their sum as bit vectors, and its carry tells
whether that wraps. -/
theorem sum_limbPairs128 (left right : BitVec 128) :
    let s := chainSum .w64 (limbPairs128 left right) 0
    ofLimbs128 s.limbs = left + right ∧
      s.carry = decide (2 ^ 128 ≤ left.toNat + right.toNat) := by
  intro s
  obtain ⟨hsplit, hlt⟩ := chainSum_limbPairs128 left right
  constructor
  · apply BitVec.eq_of_toNat_eq
    rw [toNat_ofLimbs128, BitVec.toNat_add, ← hsplit, Nat.add_mul_mod_self_right]
  · rw [← hsplit]
    cases s.carry with
    | false => simpa using hlt
    | true => simp

/-! ### The addition on a flat memory -/

section Flat

variable {m : Memory} {cell : Address}

theorem add128_of_inside (h : cell.value.toNat + Width.w64.octets ≤ m.size.bytes.toNat)
    (left right : BitVec 128) :
    add128 left right cell m =
      .ok ⟨left + right, decide (2 ^ 128 ≤ left.toNat + right.toNat)⟩
        (m.withCarry .w64 cell (decide (2 ^ 128 ≤ left.toNat + right.toNat))) := by
  obtain ⟨hsum, hcarry⟩ := sum_limbPairs128 left right
  have hne : limbPairs128 left right ≠ [] := List.cons_ne_nil _ _
  have hrun := addPairs_memory h (limbPairs128 left right) 0
  rw [if_neg hne] at hrun
  rw [← hsum, ← hcarry]
  exact bind_of_ok hrun _

theorem add128_of_not_inside (h : ¬ cell.value.toNat + Width.w64.octets ≤ m.size.bytes.toNat)
    (left right : BitVec 128) :
    add128 left right cell m = .error (.outOfBounds .store cell ⟨8⟩ m.size) m :=
  bind_of_error (addPairs_memory_of_not_inside h _ _ 0) _

end Flat

/-- **Addition of 128-bit numbers on a flat memory.**  It succeeds when its cell is inside the
memory: it gives the sum modulo `2 ^ 128` and whether the sum reaches `2 ^ 128`, the cell holds that
carry, and the rest of the memory is as it was.  Otherwise the first store fails, and nothing
changes. -/
theorem add128_exact (m : Memory) (left right : BitVec 128) (cell : Address) :
    let carry := decide (2 ^ 128 ≤ left.toNat + right.toNat)
    if cell.value.toNat + 8 ≤ m.size.bytes.toNat then
      ∃ m', add128 left right cell m = .ok ⟨left + right, carry⟩ m' ∧ m'.size = m.size ∧
        ∀ i, m'.byte i =
          if i = cell.value.toNat then (if carry then 1 else 0)
          else if cell.value.toNat < i ∧ i < cell.value.toNat + 8 then 0 else m.byte i
    else add128 left right cell m = .error (.outOfBounds .store cell ⟨8⟩ m.size) m := by
  intro carry
  by_cases h : cell.value.toNat + 8 ≤ m.size.bytes.toNat
  · rw [if_pos h]
    exact ⟨_, add128_of_inside h left right, size_withCarry carry, byte_withCarry h carry⟩
  · rw [if_neg h]
    exact add128_of_not_inside h left right

end WordMachine
