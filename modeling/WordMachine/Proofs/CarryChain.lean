/-
**Wide addition on a flat memory is exact.**

The carries of a wide addition travel through a cell of memory: each is encoded, stored and loaded
again before the next limb is added.  On a flat memory the cell gives back what was put there, so
the chain computes what it would compute with the carries passed on directly, and nothing but the
cell changes.  With the carries passed on directly the limbs and the last carry are the digits of
the sum, because a carry is never more than one and so no limb wraps twice.

Main definitions:

* `WordMachine.chainSum` — a wide sum with the carries passed on directly.

Main results:

* `WordMachine.addPairs_memory` — **the chain through the cell is the direct one**;
* `WordMachine.chainSum_value` — **the direct chain is exact**, by induction on the limbs with the
  carry as the part of the sum that is still to be placed;
* `WordMachine.addWide_exact` — wide addition on every flat memory, with the memory after it.
-/

import WordMachine.Proofs.ExactSum
import WordMachine.Proofs.IntegerAccess
import WordMachine.WideSum

set_option relaxedAutoImplicit false
set_option autoImplicit false

namespace WordMachine

open LittleEndian

/-! ### Carries in the cell -/

/-- The addition of pairs of limbs from a carry-in on, with the carries passed on directly. -/
def chainSum (w : Width) : List (UInt64 × UInt64) → UInt64 → WideSum
  | [], carry => ⟨[], carry != 0⟩
  | (l, r) :: pairs, carry =>
      let s := w.addWithCarry l r carry
      let rest := chainSum w pairs s.overflow.toUInt64
      ⟨s.value :: rest.limbs, rest.carry⟩

@[simp] theorem toNat_toUInt64 (b : Bool) : b.toUInt64.toNat = b.toNat := by cases b <;> rfl

/-- The memory with a carry in the cell. -/
def Memory.withCarry (m : Memory) (w : Width) (cell : Address) (carry : Bool) : Memory :=
  m.overwrite cell.value.toNat (encode w.octets carry.toNat)

section Cell

variable {m : Memory} {w : Width} {cell : Address}

@[simp] theorem size_withCarry (carry : Bool) : (m.withCarry w cell carry).size = m.size :=
  Memory.size_overwrite _ _ _

/-- A carry replaces the one that was in the cell before. -/
theorem withCarry_withCarry (h : cell.value.toNat + w.octets ≤ m.size.bytes.toNat)
    (carry carry' : Bool) :
    (m.withCarry w cell carry).withCarry w cell carry' = m.withCarry w cell carry' :=
  Memory.overwrite_overwrite (by simp) (by simpa using h)

/-- A carry lies in the first byte of the cell, and the others are zero. -/
theorem byte_withCarry (h : cell.value.toNat + w.octets ≤ m.size.bytes.toNat) (carry : Bool)
    (i : ℕ) :
    (m.withCarry w cell carry).byte i =
      if i = cell.value.toNat then carry.toUInt8
      else if cell.value.toNat < i ∧ i < cell.value.toNat + w.octets then 0 else m.byte i := by
  have hpos := w.octets_pos
  rw [Memory.withCarry, Memory.byte_overwrite_encode h]
  rcases Nat.lt_trichotomy i cell.value.toNat with hlt | rfl | hgt
  · rw [if_neg (by omega), if_neg (by omega), if_neg (by omega)]
  · rw [if_pos (by omega), if_pos rfl, Nat.sub_self]
    cases carry <;> rfl
  · rw [if_neg (Nat.ne_of_gt hgt)]
    by_cases hin : i < cell.value.toNat + w.octets
    · -- a carry is below 256, so every digit of it but the first is zero
      have hdigit : carry.toNat / 256 ^ (i - cell.value.toNat) = 0 := by
        refine Nat.div_eq_of_lt (Nat.lt_of_le_of_lt (Bool.toNat_le carry) ?_)
        exact Nat.one_lt_pow (by omega) (by decide)
      rw [if_pos ⟨by omega, hin⟩, if_pos ⟨hgt, hin⟩, hdigit]
      rfl
    · rw [if_neg (by omega), if_neg (by omega)]

/-- After a chain that started from the carry in the cell, the cell holds the last carry.  Without
limbs that is the carry it started from. -/
theorem withCarry_chainSum (h : cell.value.toNat + w.octets ≤ m.size.bytes.toNat) (carry : Bool)
    (pairs : List (UInt64 × UInt64)) :
    (if pairs = [] then m.withCarry w cell carry
      else (m.withCarry w cell carry).withCarry w cell (chainSum w pairs carry.toUInt64).carry) =
      m.withCarry w cell (chainSum w pairs carry.toUInt64).carry := by
  by_cases hnil : pairs = []
  · subst hnil
    have hlast : (chainSum w [] carry.toUInt64).carry = carry := by cases carry <;> rfl
    rw [if_pos rfl, hlast]
  · rw [if_neg hnil, withCarry_withCarry h]

/-- A carry addition leaves its carry-out in the cell. -/
theorem addCarry_memory (h : cell.value.toNat + w.octets ≤ m.size.bytes.toNat)
    (l r carry : UInt64) :
    addCarry w l r carry cell m =
      .ok (w.addWithCarry l r carry).value
        (m.withCarry w cell (w.addWithCarry l r carry).overflow) := by
  have hstore : (storeCarry w (w.addWithCarry l r carry) cell : MemoryM Memory Unit) m =
      .ok () (m.withCarry w cell (w.addWithCarry l r carry).overflow) := by
    change storeInt cell w (w.addWithCarry l r carry).overflow.toUInt64 m = _
    rw [Memory.storeInt_eq, if_pos h, toNat_toUInt64]
    rfl
  exact bind_of_ok hstore _

/-- The carry that is in the cell is loaded again. -/
theorem loadInt_withCarry (h : cell.value.toNat + w.octets ≤ m.size.bytes.toNat) (carry : Bool) :
    loadInt cell w (m.withCarry w cell carry) =
      .ok carry.toUInt64 (m.withCarry w cell carry) := by
  have hvalue : UInt64.ofNat carry.toNat = carry.toUInt64 := by cases carry <;> rfl
  have hlt : carry.toNat < 2 ^ w.bits := w.lt_two_pow_bits_of_le_one (Bool.toNat_le carry)
  rw [← hvalue]
  refine Memory.loadInt_of_digits (by rwa [size_withCarry]) hlt fun j hj => ?_
  rw [Memory.withCarry, Memory.byte_overwrite_encode h, if_pos (by omega), Nat.add_sub_cancel_left]

/-- No carry can be stored in a cell that is not inside the memory. -/
theorem addCarry_memory_of_not_inside
    (h : ¬ cell.value.toNat + w.octets ≤ m.size.bytes.toNat) (l r carry : UInt64) :
    addCarry w l r carry cell m = .error (.outOfBounds .store cell w.byteCount m.size) m := by
  have hstore : (storeCarry w (w.addWithCarry l r carry) cell : MemoryM Memory Unit) m =
      .error (.outOfBounds .store cell w.byteCount m.size) m := by
    rw [storeCarry, Memory.storeInt_eq, if_neg h]
  exact bind_of_error hstore _

/-- **The chain through the cell is the direct one**, and leaves its last carry in the cell. -/
theorem addPairs_memory (h : cell.value.toNat + w.octets ≤ m.size.bytes.toNat)
    (pairs : List (UInt64 × UInt64)) (carry : UInt64) :
    addPairs w cell pairs carry m =
      .ok (chainSum w pairs carry)
        (if pairs = [] then m else m.withCarry w cell (chainSum w pairs carry).carry) := by
  induction pairs generalizing m carry with
  | nil => rfl
  | cons p pairs ih =>
      obtain ⟨l, r⟩ := p
      have hload := loadInt_withCarry h (w.addWithCarry l r carry).overflow
      have hrest := ih (m := m.withCarry w cell (w.addWithCarry l r carry).overflow)
        (by rwa [size_withCarry]) (w.addWithCarry l r carry).overflow.toUInt64
      rw [addPairs, bind_of_ok (addCarry_memory h l r carry), bind_of_ok hload, bind_of_ok hrest,
        if_neg (List.cons_ne_nil _ _), withCarry_chainSum h]
      rfl

/-- A chain with a cell that is not inside the memory fails at its first limb. -/
theorem addPairs_memory_of_not_inside
    (h : ¬ cell.value.toNat + w.octets ≤ m.size.bytes.toNat) (p : UInt64 × UInt64)
    (pairs : List (UInt64 × UInt64)) (carry : UInt64) :
    addPairs w cell (p :: pairs) carry m =
      .error (.outOfBounds .store cell w.byteCount m.size) m :=
  bind_of_error (addCarry_memory_of_not_inside h p.1 p.2 carry) _

end Cell

/-! ### The value of the direct chain -/

theorem length_chainSum (w : Width) (pairs : List (UInt64 × UInt64)) (carry : UInt64) :
    (chainSum w pairs carry).limbs.length = pairs.length := by
  induction pairs generalizing carry with
  | nil => rfl
  | cons p pairs ih => simp [chainSum, ih]

theorem chainSum_lt {w : Width} {pairs : List (UInt64 × UInt64)} {carry v : UInt64}
    (hv : v ∈ (chainSum w pairs carry).limbs) : v.toNat < 2 ^ w.bits := by
  induction pairs generalizing carry with
  | nil => simp [chainSum] at hv
  | cons p pairs ih =>
      rcases List.mem_cons.1 hv with rfl | hv
      · rw [Width.toNat_addWithCarry_value]
        exact Nat.mod_lt _ (Nat.two_pow_pos _)
      · exact ih hv

/-- A digit of a sum in front of the others: what carries out of it goes into them, and their carry
is placed above them all. -/
theorem digit_in_front {b s o l r c rest carry left right p : ℕ} (hfirst : s + b * o = l + r + c)
    (hrest : rest + carry * p = left + right + o) :
    s + b * rest + carry * (b * p) = l + b * left + (r + b * right) + c := by
  calc s + b * rest + carry * (b * p) = s + b * (rest + carry * p) := by ring
    _ = s + b * o + b * (left + right) := by rw [hrest]; ring
    _ = l + b * left + (r + b * right) + c := by rw [hfirst]; ring

/-- **The direct chain is exact**: its limbs and its carry are the digits of the sum of the two
numbers and the carry-in. -/
theorem chainSum_value {w : Width} (pairs : List (UInt64 × UInt64)) {carry : UInt64}
    (hcarry : carry.toNat ≤ 1) :
    Nat.ofDigits (2 ^ w.bits) ((chainSum w pairs carry).limbs.map UInt64.toNat) +
        (chainSum w pairs carry).carry.toNat * (2 ^ w.bits) ^ pairs.length =
      Nat.ofDigits (2 ^ w.bits) (pairs.map fun p => p.1.toNat % 2 ^ w.bits) +
        Nat.ofDigits (2 ^ w.bits) (pairs.map fun p => p.2.toNat % 2 ^ w.bits) + carry.toNat := by
  induction pairs generalizing carry with
  | nil =>
      have hbit : carry = 0 ∨ carry = 1 := by
        rw [← UInt64.toNat_inj, ← UInt64.toNat_inj]
        change carry.toNat = 0 ∨ carry.toNat = 1
        omega
      rcases hbit with rfl | rfl <;> rfl
  | cons p pairs ih =>
      obtain ⟨l, r⟩ := p
      -- with a carry-in of at most one, the first limb wraps at most once
      have hfirst := Width.addWithCarry_split (w := w) l r hcarry
      have hbit : (w.addWithCarry l r carry).overflow.toUInt64.toNat ≤ 1 := by
        rw [toNat_toUInt64]
        exact Bool.toNat_le _
      have hrest := ih hbit
      rw [toNat_toUInt64] at hrest
      simp only [chainSum, List.map_cons, Nat.ofDigits_cons, List.length_cons, Nat.pow_succ']
      exact digit_in_front hfirst hrest

/-! ### The limbs of two numbers -/

theorem getD_limbPairs (left right : List UInt64) (i : ℕ) :
    (limbPairs left right).getD i (0, 0) = (left.getD i 0, right.getD i 0) := by
  rw [List.getD_eq_getElem?_getD, List.getD_eq_getElem?_getD, List.getD_eq_getElem?_getD,
    limbPairs, List.getElem?_zipWithAll]
  cases left[i]? <;> cases right[i]? <;> rfl

/-- The digits of one of two numbers side by side, with zeros where it has ended. -/
theorem ofDigits_limbPairs (w : Width) (left right : List UInt64) (f : UInt64 × UInt64 → UInt64) :
    Nat.ofDigits (2 ^ w.bits) ((limbPairs left right).map fun p => (f p).toNat % 2 ^ w.bits) =
      ∑ i ∈ Finset.range (max left.length right.length),
        (f (left.getD i 0, right.getD i 0)).toNat % 2 ^ w.bits * 2 ^ (w.bits * i) := by
  rw [ofDigits_map_eq_sum _ (fun p => (f p).toNat % 2 ^ w.bits) (0, 0), length_limbPairs]
  refine Finset.sum_congr rfl fun i _ => ?_
  rw [getD_limbPairs, Nat.pow_mul]

/-! ### Wide addition -/

/-- **Wide addition on a flat memory is exact.**  Without limbs it does nothing.  With limbs it
succeeds when its cell is inside the memory: the limbs and the carry are then the digits of the sum,
the cell holds the carry, and the rest of the memory is as it was.  Otherwise the first store fails,
and nothing changes. -/
theorem addWide_exact (m : Memory) (w : Width) (left right : List UInt64) (cell : Address) :
    let n := max left.length right.length
    if n = 0 then addWide w left right cell m = .ok ⟨[], false⟩ m
    else if cell.value.toNat + w.octets ≤ m.size.bytes.toNat then
      ∃ s m', addWide w left right cell m = .ok s m' ∧
        s.limbs.length = n ∧ (∀ v ∈ s.limbs, v.toNat < 2 ^ w.bits) ∧
        ∑ i ∈ Finset.range n, (s.limbs.getD i 0).toNat * 2 ^ (w.bits * i) +
            s.carry.toNat * 2 ^ (w.bits * n) =
          ∑ i ∈ Finset.range n, (left.getD i 0).toNat % 2 ^ w.bits * 2 ^ (w.bits * i) +
            ∑ i ∈ Finset.range n, (right.getD i 0).toNat % 2 ^ w.bits * 2 ^ (w.bits * i) ∧
        m'.size = m.size ∧
        ∀ i, m'.byte i =
          if i = cell.value.toNat then (if s.carry then 1 else 0)
          else if cell.value.toNat < i ∧ i < cell.value.toNat + w.octets then 0 else m.byte i
    else addWide w left right cell m = .error (.outOfBounds .store cell w.byteCount m.size) m := by
  intro n
  have hlen : (limbPairs left right).length = n := length_limbPairs left right
  by_cases hn : n = 0
  · rw [if_pos hn, addWide, List.length_eq_zero_iff.1 (hlen.trans hn)]
    rfl
  rw [if_neg hn]
  have hne : limbPairs left right ≠ [] := by
    intro hnil
    rw [hnil] at hlen
    exact hn hlen.symm
  by_cases h : cell.value.toNat + w.octets ≤ m.size.bytes.toNat
  · rw [if_pos h]
    have hrun := addPairs_memory h (limbPairs left right) 0
    rw [if_neg hne] at hrun
    refine ⟨_, _, hrun, ?_, fun v hv => chainSum_lt hv, ?_, size_withCarry _, byte_withCarry h _⟩
    · rw [length_chainSum, hlen]
    · have hzero : (0 : UInt64).toNat ≤ 1 := by decide
      have hvalue := chainSum_value (w := w) (limbPairs left right) hzero
      rw [ofDigits_limbPairs w left right Prod.fst, ofDigits_limbPairs w left right Prod.snd,
        ofDigits_map_eq_sum _ UInt64.toNat 0, length_chainSum, hlen, ← Nat.pow_mul] at hvalue
      simpa only [n, Nat.pow_mul, UInt64.toNat_zero, Nat.add_zero] using hvalue
  · rw [if_neg h]
    obtain ⟨p, pairs, hcons⟩ := List.exists_cons_of_ne_nil hne
    rw [addWide, hcons]
    exact bind_of_error (addCarry_memory_of_not_inside h p.1 p.2 0) _

end WordMachine
