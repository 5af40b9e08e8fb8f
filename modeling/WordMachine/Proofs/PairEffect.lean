/-
**A pair addition on a flat memory.**

A pair addition makes two stores, of its sum and then of its flag, and each of them may leave the
memory.  When the sum does, nothing is written, even though the flag alone might have fitted.  When
only the flag does, the sum stays.  When both fit, the flag lies on top of the sum wherever the two
overlap: the offset of the flag may lead into the sum, and since it wraps round it may also lead to
before the sum.  So the flag can always be read back, and the sum can when the flag is not in it.

Main definitions:

* `WordMachine.Memory.withSum`, `WordMachine.Memory.withPair` — a memory with a sum in place, and
  with the flag on top of it.

Main results:

* `WordMachine.addPair_of_inside`, `WordMachine.addPair_of_flag_not_inside`,
  `WordMachine.addPair_of_sum_not_inside` — the three outcomes;
* `WordMachine.byte_withPair` — the bytes of the pair, where sum and flag overlap as well;
* `WordMachine.addPair_exact` — **a pair addition on every flat memory**, with the memory after it.
-/

import WordMachine.Intrinsic.Effect
import WordMachine.Proofs.ExactSum
import WordMachine.Proofs.IntegerAccess

set_option relaxedAutoImplicit false
set_option autoImplicit false

namespace WordMachine

open LittleEndian

/-- The memory with a sum in place. -/
def Memory.withSum (m : Memory) (w : Width) (target : Address) (sum : CheckedSum) : Memory :=
  m.overwrite target.value.toNat (encode w.octets sum.value.toNat)

/-- The memory with a sum in place, and its overflow as a flag on top. -/
def Memory.withPair (m : Memory) (w : Width) (target flag : Address) (sum : CheckedSum) : Memory :=
  (m.withSum w target sum).setByte flag.value.toNat sum.overflow.toUInt8

variable {m : Memory} {w : Width} {target flag : Address} {flagOffset : UInt64}

@[simp] theorem size_withSum (sum : CheckedSum) : (m.withSum w target sum).size = m.size :=
  Memory.size_overwrite _ _ _

@[simp] theorem size_withPair (sum : CheckedSum) : (m.withPair w target flag sum).size = m.size := by
  rw [Memory.withPair, Memory.size_setByte, size_withSum]

/-! ### The three outcomes -/

/-- The first store puts the sum in place when it fits into the memory. -/
theorem storeInt_sum (h : target.value.toNat + w.octets ≤ m.size.bytes.toNat) (sum : CheckedSum) :
    storeInt target w sum.value m = .ok () (m.withSum w target sum) := by
  rw [Memory.storeInt_eq, if_pos h]
  rfl

/-- A pair that fits into the memory is put in place. -/
theorem addPair_of_inside (h : target.value.toNat + w.octets ≤ m.size.bytes.toNat)
    (hflag : (target.advance flagOffset).value.toNat < m.size.bytes.toNat) (left right : UInt64) :
    addPair w left right target flagOffset m =
      .ok target (m.withPair w target (target.advance flagOffset) (w.add left right)) := by
  have hstore : storePair w (w.add left right) target flagOffset m =
      .ok () (m.withPair w target (target.advance flagOffset) (w.add left right)) := by
    rw [storePair, bind_of_ok (storeInt_sum h _), Memory.storeBool_eq, size_withSum, if_pos hflag]
    rfl
  exact bind_of_ok hstore _

/-- The sum stays when its flag does not fit into the memory. -/
theorem addPair_of_flag_not_inside (h : target.value.toNat + w.octets ≤ m.size.bytes.toNat)
    (hflag : ¬ (target.advance flagOffset).value.toNat < m.size.bytes.toNat)
    (left right : UInt64) :
    addPair w left right target flagOffset m =
      .error (.outOfBounds .store (target.advance flagOffset) ⟨1⟩ m.size)
        (m.withSum w target (w.add left right)) := by
  have hstore : storePair w (w.add left right) target flagOffset m =
      .error (.outOfBounds .store (target.advance flagOffset) ⟨1⟩ m.size)
        (m.withSum w target (w.add left right)) := by
    rw [storePair, bind_of_ok (storeInt_sum h _), Memory.storeBool_eq, size_withSum, if_neg hflag]
  exact bind_of_error hstore _

/-- Nothing is written when the sum does not fit into the memory. -/
theorem addPair_of_sum_not_inside (h : ¬ target.value.toNat + w.octets ≤ m.size.bytes.toNat)
    (left right flagOffset : UInt64) :
    addPair w left right target flagOffset m =
      .error (.outOfBounds .store target w.byteCount m.size) m := by
  have hstore : storePair w (w.add left right) target flagOffset m =
      .error (.outOfBounds .store target w.byteCount m.size) m := by
    have hsum := Memory.storeInt_eq m target w (w.add left right).value
    rw [if_neg h] at hsum
    exact bind_of_error hsum _
  exact bind_of_error hstore _

/-! ### What is read back -/

/-- The digits of a sum lie in its region, and the rest of the memory is as it was. -/
theorem byte_withSum (h : target.value.toNat + w.octets ≤ m.size.bytes.toNat) (sum : CheckedSum)
    (i : ℕ) :
    (m.withSum w target sum).byte i =
      if target.value.toNat ≤ i ∧ i < target.value.toNat + w.octets then
        UInt8.ofNat (sum.value.toNat / 256 ^ (i - target.value.toNat))
      else m.byte i :=
  Memory.byte_overwrite_encode h _ _

/-- The flag lies in its byte, and the rest of the memory is as the sum left it. -/
theorem byte_withPair (hflag : flag.value.toNat < m.size.bytes.toNat) (sum : CheckedSum) (i : ℕ) :
    (m.withPair w target flag sum).byte i =
      if i = flag.value.toNat then sum.overflow.toUInt8 else (m.withSum w target sum).byte i := by
  rw [Memory.withPair, Memory.byte_setByte, size_withSum]
  by_cases hi : i = flag.value.toNat
  · rw [if_pos ⟨hi.symm, by omega⟩, if_pos hi]
  · rw [if_neg (fun hand => hi hand.1.symm), if_neg hi]

/-- The flag of a pair is read back, wherever it is. -/
theorem loadBool_withPair (hflag : flag.value.toNat < m.size.bytes.toNat) (sum : CheckedSum) :
    loadBool flag (m.withPair w target flag sum) =
      .ok sum.overflow (m.withPair w target flag sum) := by
  rw [Memory.loadBool_eq, size_withPair, if_pos hflag, byte_withPair hflag, if_pos rfl]
  cases sum.overflow <;> rfl

/-- The sum of a pair is read back when the flag is not in it. -/
theorem loadInt_withPair (h : target.value.toNat + w.octets ≤ m.size.bytes.toNat)
    (hflag : flag.value.toNat < m.size.bytes.toNat)
    (hapart : flag.value.toNat < target.value.toNat ∨
      target.value.toNat + w.octets ≤ flag.value.toNat)
    {sum : CheckedSum} (hfits : sum.value.toNat < 2 ^ w.bits) :
    loadInt target w (m.withPair w target flag sum) =
      .ok (.ofNat sum.value.toNat) (m.withPair w target flag sum) := by
  refine Memory.loadInt_of_digits (by rwa [size_withPair]) hfits ?_
  intro j hj
  -- the flag is at none of these indices
  rw [byte_withPair hflag, if_neg (by omega), byte_withSum h, if_pos (by omega),
    Nat.add_sub_cancel_left]

/-! ### Pair additions -/

/-- **A pair addition on a flat memory.**  When its sum does not fit into the memory it fails, and
nothing changes.  When the sum fits and its flag does not it fails, and the digits of the sum have
replaced the bytes of their region.  Otherwise it gives its target; the flag has replaced its byte
and the digits of the sum the other bytes of their region.  Then the flag is read back, and the sum
is when the flag is outside of its region. -/
theorem addPair_exact (m : Memory) (w : Width) (left right flagOffset : UInt64)
    (target : Address) :
    let total := left.toNat % 2 ^ w.bits + right.toNat % 2 ^ w.bits
    let overflow := decide (2 ^ w.bits ≤ total)
    let first := target.value.toNat
    let place := (target.value.toNat + flagOffset.toNat) % 2 ^ 64
    let digit := fun i => UInt8.ofNat (total % 2 ^ w.bits / 256 ^ (i - first))
    if first + w.octets ≤ m.size.bytes.toNat then
      if place < m.size.bytes.toNat then
        ∃ m', addPair w left right target flagOffset m = .ok target m' ∧ m'.size = m.size ∧
          (∀ i, m'.byte i =
            if i = place then (if overflow then 1 else 0)
            else if first ≤ i ∧ i < first + w.octets then digit i else m.byte i) ∧
          loadBool ⟨.ofNat place⟩ m' = .ok overflow m' ∧
          (place < first ∨ first + w.octets ≤ place →
            loadInt target w m' = .ok (.ofNat (total % 2 ^ w.bits)) m')
      else
        ∃ m', addPair w left right target flagOffset m =
            .error (.outOfBounds .store ⟨.ofNat place⟩ ⟨1⟩ m.size) m' ∧ m'.size = m.size ∧
          ∀ i, m'.byte i = if first ≤ i ∧ i < first + w.octets then digit i else m.byte i
    else
      addPair w left right target flagOffset m =
        .error (.outOfBounds .store target w.byteCount m.size) m := by
  intro total overflow first place digit
  have hplace : (target.advance flagOffset).value.toNat = place :=
    Address.toNat_advance target flagOffset
  have hflag : (⟨.ofNat place⟩ : Address) = target.advance flagOffset := by
    rw [← hplace, UInt64.ofNat_toNat]
  have hvalue : (w.add left right).value.toNat = total % 2 ^ w.bits :=
    w.toNat_add_value left right
  have hfits : (w.add left right).value.toNat < 2 ^ w.bits := by
    rw [hvalue]
    exact Nat.mod_lt _ (Nat.two_pow_pos _)
  have hoverflow : (w.add left right).overflow = overflow := by
    rw [Width.add_eq, Width.exactSum_pair]
    rfl
  by_cases h : first + w.octets ≤ m.size.bytes.toNat
  · rw [if_pos h]
    have hsum := byte_withSum h (w.add left right)
    rw [hvalue] at hsum
    by_cases hin : place < m.size.bytes.toNat
    · rw [if_pos hin, hflag]
      rw [← hplace] at hin
      refine ⟨_, addPair_of_inside h hin left right, size_withPair _, ?_, ?_, ?_⟩
      · intro i
        rw [byte_withPair hin, hsum, hplace, hoverflow]
        rfl
      · rw [loadBool_withPair hin, hoverflow]
      · intro hapart
        rw [← hplace] at hapart
        rw [loadInt_withPair h hin hapart hfits, hvalue]
    · rw [if_neg hin, hflag]
      rw [← hplace] at hin
      exact ⟨_, addPair_of_flag_not_inside h hin left right, size_withSum _, hsum⟩
  · rw [if_neg h]
    exact addPair_of_sum_not_inside h left right flagOffset

/-- A flag one byte before its sum, which its offset reaches by wrapping round.  The sum of two
bytes is read back beside it. -/
theorem addPair_exact_flag_before :
    let m := Memory.zeroed ⟨8⟩
    (2 + (0 - 1 : UInt64).toNat) % 2 ^ 64 < 2 ∧
      ∃ m', addPair .w16 0xffff 0x0203 ⟨2⟩ (0 - 1) m = .ok ⟨2⟩ m' ∧
        loadBool ⟨1⟩ m' = .ok true m' ∧ loadInt ⟨2⟩ .w16 m' = .ok 0x0202 m' := by
  intro m
  have hbefore : (2 + (0 - 1 : UInt64).toNat) % 2 ^ 64 < 2 := by decide
  have h := addPair_exact m .w16 0xffff 0x0203 (0 - 1) ⟨2⟩
  rw [if_pos (by decide), if_pos (by decide)] at h
  obtain ⟨m', hrun, -, -, hflag, hsum⟩ := h
  exact ⟨hbefore, m', hrun, hflag, hsum (.inl hbefore)⟩

end WordMachine
