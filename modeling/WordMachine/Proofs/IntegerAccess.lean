/-
**Integers in a flat memory.**

`WordMachine.Memory.Lemmas` says what the accesses do to regions of bytes.  This module reads them
as accesses to integers: a store inside the memory leaves the little-endian digits of its value in
its region, and a load gives the number whose digits in base 256 are the bytes of its region.

Main results:

* `WordMachine.ofDigits_map_eq_sum` — the value of a list of digits as a sum over its indices;
* `WordMachine.LittleEndian.getD_encode`, `WordMachine.LittleEndian.decode_eq_ofDigits` — the digits
  of a number, and the number of some digits;
* `WordMachine.Memory.storeInt_eq`, `WordMachine.Memory.loadInt_eq` — stores and loads of integers,
  inside the memory and outside;
* `WordMachine.Memory.storeBool_eq`, `WordMachine.Memory.loadBool_eq` — stores and loads of flags,
  inside the memory and outside;
* `WordMachine.Memory.decode_slice` — the number in a region, as the sum of its bytes;
* `WordMachine.Memory.slice_overwrite_encode` — what a write leaves in its region;
* `WordMachine.Memory.loadInt_of_digits` — a number is loaded from where its digits are;
* `WordMachine.Memory.overwrite_overwrite` — writing a region twice.
-/

import Mathlib.Algebra.BigOperators.Ring.Finset
import Mathlib.Data.List.GetD
import Mathlib.Data.Nat.Digits.Defs
import Mathlib.Tactic.Ring
import WordMachine.Memory.Lemmas
import WordMachine.Proofs.Words

set_option relaxedAutoImplicit false
set_option autoImplicit false

namespace WordMachine

/-! ### Digits -/

/-- The value of a list of digits in base `b` is the sum of the digits times the powers of `b`. -/
theorem ofDigits_map_eq_sum {α : Type} (b : ℕ) (f : α → ℕ) (d : α) (xs : List α) :
    Nat.ofDigits b (xs.map f) = ∑ i ∈ Finset.range xs.length, f (xs.getD i d) * b ^ i := by
  induction xs with
  | nil => rfl
  | cons x xs ih =>
      rw [List.map_cons, Nat.ofDigits_cons, ih, List.length_cons, Finset.sum_range_succ',
        Finset.mul_sum, Nat.add_comm]
      congr 1
      · refine Finset.sum_congr rfl fun i _ => ?_
        rw [List.getD_cons_succ]
        ring
      · simp

namespace LittleEndian

theorem decode_lt (bytes : List UInt8) : decode bytes < 256 ^ bytes.length := by
  induction bytes with
  | nil => simp
  | cons b bytes ih =>
      have hb : b.toNat < 256 := b.toNat_lt
      rw [decode_cons, List.length_cons, Nat.pow_succ]
      omega

/-- The number comes back as far as it fits into the bytes. -/
theorem decode_encode (n v : Nat) : decode (encode n v) = v % 256 ^ n := by
  induction n generalizing v with
  | zero => simp [Nat.mod_one]
  | succ n ih =>
      rw [encode_succ, decode_cons, ih, Nat.pow_succ, Nat.mul_comm (256 ^ n), Nat.mod_mul]
      simp

theorem decode_eq_ofDigits (bytes : List UInt8) :
    decode bytes = Nat.ofDigits 256 (bytes.map UInt8.toNat) := by
  induction bytes with
  | nil => rfl
  | cons b bytes ih => rw [decode_cons, List.map_cons, Nat.ofDigits_cons, ih]

/-- The byte at an index of the encoding is the digit of that index. -/
theorem getD_encode {n i : ℕ} (h : i < n) (v : ℕ) :
    (encode n v).getD i 0 = UInt8.ofNat (v / 256 ^ i) := by
  induction n generalizing i v with
  | zero => omega
  | succ n ih =>
      rw [encode_succ]
      cases i with
      | zero => simp
      | succ i =>
          rw [List.getD_cons_succ, ih (by omega), Nat.div_div_eq_div_mul, Nat.pow_succ']

/-- Only the digits that fit into the bytes are encoded. -/
theorem encode_mod (n v : ℕ) : encode n (v % 256 ^ n) = encode n v := by
  induction n generalizing v with
  | zero => rfl
  | succ n ih =>
      have hfirst : UInt8.ofNat (v % 256 ^ (n + 1)) = UInt8.ofNat v := by
        rw [← UInt8.toNat_inj, UInt8.toNat_ofNat', UInt8.toNat_ofNat', Nat.pow_succ']
        exact Nat.mod_mod_of_dvd _ (Nat.dvd_mul_right _ _)
      have hrest : v % 256 ^ (n + 1) / 256 = v / 256 % 256 ^ n := by
        rw [Nat.pow_succ', Nat.mod_mul_right_div_self]
      rw [encode_succ, encode_succ, hfirst, hrest, ih]

end LittleEndian

theorem Width.two_pow_bits (w : Width) : 2 ^ w.bits = 256 ^ w.octets := by cases w <;> rfl

theorem Width.zeroExtend_ofNat {w : Width} {n : ℕ} (h : n < 2 ^ w.bits) :
    w.zeroExtend (BitVec.ofNat w.bits n) = UInt64.ofNat n := by
  rw [Width.zeroExtend, BitVec.toNat_ofNat, Nat.mod_eq_of_lt h]

namespace Memory

open LittleEndian

/-! ### Regions -/

/-- What is written to a region covers what was written there before. -/
theorem overwrite_overwrite {m : Memory} {i : ℕ} {bytes bytes' : List UInt8}
    (hlen : bytes.length = bytes'.length) (h : i + bytes'.length ≤ m.size.bytes.toNat) :
    (m.overwrite i bytes).overwrite i bytes' = m.overwrite i bytes' := by
  refine ext_byte (by simp) fun j _ => ?_
  rw [byte_overwrite _ _ _ _ (by rwa [size_overwrite]), byte_overwrite _ _ _ _ h,
    byte_overwrite _ _ _ _ (by omega)]
  by_cases hj : i ≤ j ∧ j < i + bytes'.length
  · rw [if_pos hj, if_pos hj]
  · rw [if_neg hj, if_neg hj, if_neg (by omega)]

/-- The number in a region is the sum of its bytes times the powers of 256. -/
theorem decode_slice {m : Memory} {i n : ℕ} (h : i + n ≤ m.size.bytes.toNat) :
    decode (m.slice i (i + n)) =
      ∑ j ∈ Finset.range n, (m.byte (i + j)).toNat * 256 ^ j := by
  have hlen : (m.slice i (i + n)).length = n := by
    rw [length_slice _ h, Nat.add_sub_cancel_left]
  rw [decode_eq_ofDigits, ofDigits_map_eq_sum 256 UInt8.toNat 0, hlen]
  refine Finset.sum_congr rfl fun j hj => ?_
  have hj : j < n := Finset.mem_range.1 hj
  rw [List.getD_eq_getElem?_getD, getElem?_slice _ h, if_pos (by omega), Option.getD_some]

/-! ### Integers -/

/-- The region of an integer is inside a memory when its end, in exact arithmetic, is. -/
theorem inside_byteCount_iff {m : Memory} {a : Address} {w : Width} :
    m.Inside a w.byteCount ↔ a.value.toNat + w.octets ≤ m.size.bytes.toNat := by
  have hpos := w.octets_pos
  rw [Inside, Width.toNat_byteCount]
  omega

/-- Storing an integer leaves its digits in its region, and otherwise changes nothing. -/
theorem storeInt_eq (m : Memory) (a : Address) (w : Width) (v : UInt64) :
    (storeInt a w v : MemoryM Memory Unit) m =
      if a.value.toNat + w.octets ≤ m.size.bytes.toNat then
        .ok () (m.overwrite a.value.toNat (encode w.octets v.toNat))
      else .error (.outOfBounds .store a w.byteCount m.size) m := by
  rw [storeInt, store_eq]
  simp only [inside_byteCount_iff, Width.word_truncate, Width.toNat_word, Width.two_pow_bits,
    encode_mod]

/-- The number in the region of an integer fits in the width. -/
theorem decode_slice_lt {m : Memory} {i : ℕ} {w : Width}
    (h : i + w.octets ≤ m.size.bytes.toNat) :
    decode (m.slice i (i + w.octets)) < 2 ^ w.bits := by
  have hlt := decode_lt (m.slice i (i + w.octets))
  rwa [length_slice _ h, Nat.add_sub_cancel_left, ← Width.two_pow_bits] at hlt

/-- Loading an integer gives the number in its region, and changes nothing in either case. -/
theorem loadInt_eq (m : Memory) (a : Address) (w : Width) :
    (loadInt a w : MemoryM Memory UInt64) m =
      if a.value.toNat + w.octets ≤ m.size.bytes.toNat then
        .ok (UInt64.ofNat (decode (m.slice a.value.toNat (a.value.toNat + w.octets)))) m
      else .error (.outOfBounds .load a w.byteCount m.size) m := by
  refine (bind_pure_of_ite (load_eq m w a) w.zeroExtend).trans ?_
  by_cases h : a.value.toNat + w.octets ≤ m.size.bytes.toNat
  · rw [if_pos (inside_byteCount_iff.2 h), if_pos h]
    exact congrArg (EStateM.Result.ok · m) (Width.zeroExtend_ofNat (decode_slice_lt h))
  · rw [if_neg (by rwa [inside_byteCount_iff]), if_neg h]

/-- The digits of a number replace the bytes of their region. -/
theorem byte_overwrite_encode {m : Memory} {i : ℕ} {w : Width}
    (h : i + w.octets ≤ m.size.bytes.toNat) (n j : ℕ) :
    (m.overwrite i (encode w.octets n)).byte j =
      if i ≤ j ∧ j < i + w.octets then UInt8.ofNat (n / 256 ^ (j - i)) else m.byte j := by
  rw [byte_overwrite _ _ _ _ (by simpa using h), length_encode]
  by_cases hj : i ≤ j ∧ j < i + w.octets
  · rw [if_pos hj, if_pos hj, getD_encode (by omega)]
  · rw [if_neg hj, if_neg hj]

/-- A region that holds the digits of a number shows its encoding. -/
theorem slice_of_digits {m : Memory} {i : ℕ} {w : Width} {n : ℕ}
    (h : i + w.octets ≤ m.size.bytes.toNat)
    (hdigits : ∀ j < w.octets, m.byte (i + j) = UInt8.ofNat (n / 256 ^ j)) :
    m.slice i (i + w.octets) = encode w.octets n := by
  refine List.ext_getElem? fun j => ?_
  rw [getElem?_slice _ h, Nat.add_sub_cancel_left]
  by_cases hj : j < w.octets
  · rw [if_pos hj, hdigits j hj, ← getD_encode hj, List.getD_eq_getElem _ _ (by simpa using hj),
      List.getElem?_eq_getElem]
  · rw [if_neg hj, List.getElem?_eq_none (by simpa using hj)]

/-- The region that a number was written to shows its encoding. -/
theorem slice_overwrite_encode {m : Memory} {i n : ℕ} {w : Width}
    (h : i + w.octets ≤ m.size.bytes.toNat) :
    (m.overwrite i (encode w.octets n)).slice i (i + w.octets) = encode w.octets n := by
  refine slice_of_digits (by rwa [size_overwrite]) fun j hj => ?_
  rw [byte_overwrite_encode h, if_pos (by omega), Nat.add_sub_cancel_left]

/-- A number is loaded from where its digits are, however they came there. -/
theorem loadInt_of_digits {m : Memory} {a : Address} {w : Width} {n : ℕ}
    (h : a.value.toNat + w.octets ≤ m.size.bytes.toNat) (hn : n < 2 ^ w.bits)
    (hdigits : ∀ j < w.octets, m.byte (a.value.toNat + j) = UInt8.ofNat (n / 256 ^ j)) :
    loadInt a w m = .ok (UInt64.ofNat n) m := by
  rw [loadInt_eq, if_pos h, slice_of_digits h hdigits, decode_encode, ← Width.two_pow_bits,
    Nat.mod_eq_of_lt hn]

/-! ### Flags -/

/-- Storing a flag puts zero or one in its byte, and otherwise changes nothing. -/
theorem storeBool_eq (m : Memory) (a : Address) (flag : Bool) :
    (storeBool a flag : MemoryM Memory Unit) m =
      if a.value.toNat < m.size.bytes.toNat then .ok () (m.setByte a.value.toNat flag.toUInt8)
      else .error (.outOfBounds .store a ⟨1⟩ m.size) m := by
  have hinside : m.Inside a Width.w8.byteCount ↔ a.value.toNat < m.size.bytes.toNat :=
    inside_byteCount_iff
  rw [storeBool, store_eq]
  simp only [hinside]
  cases flag <;> rfl

/-- Loading a flag tells whether its byte is not zero, and changes nothing in either case. -/
theorem loadBool_eq (m : Memory) (a : Address) :
    (loadBool a : MemoryM Memory Bool) m =
      if a.value.toNat < m.size.bytes.toNat then .ok (m.byte a.value.toNat != 0) m
      else .error (.outOfBounds .load a ⟨1⟩ m.size) m := by
  have hinside : m.Inside a Width.w8.byteCount ↔ a.value.toNat < m.size.bytes.toNat :=
    inside_byteCount_iff
  have hload := load_eq m .w8 a
  by_cases h : a.value.toNat < m.size.bytes.toNat
  · have hbyte : decode (m.slice a.value.toNat (a.value.toNat + Width.w8.octets)) =
        (m.byte a.value.toNat).toNat := by
      rw [decode_slice h]
      simp [Width.octets]
    have hzero : (BitVec.ofNat Width.w8.bits (m.byte a.value.toNat).toNat != 0) =
        (m.byte a.value.toNat != 0) := by
      rw [Bool.eq_iff_iff, bne_iff_ne, bne_iff_ne, ne_eq, ne_eq, ← BitVec.toNat_inj,
        ← UInt8.toNat_inj, BitVec.toNat_ofNat]
      simp [Width.bits]
    rw [if_pos (hinside.2 h), hbyte] at hload
    rw [if_pos h, loadBool, bind_of_ok hload, hzero]
    rfl
  · rw [if_neg (by rwa [hinside])] at hload
    rw [if_neg h]
    exact bind_of_error hload _

end Memory

end WordMachine
