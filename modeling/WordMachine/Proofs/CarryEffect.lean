/-
**A carry addition on a flat memory.**

A carry addition makes one store, of its carry-out as an integer of its width, and gives its sum.  So
it succeeds when the cell of the carry is inside the memory, and what it gives does not depend on
what the memory holds.  The cell may have held the carry of a wider addition before.  Then the bytes
of that carry above the width are still there, and a load at the wider width sees the new carry in
their place only as far as the width goes.

Main results:

* `WordMachine.Width.addWithCarry_eq_mk` — the sum and its overflow in exact arithmetic;
* `WordMachine.loadInt_withCarry_wide` — the cell of a carry at a wider width;
* `WordMachine.addCarry_exact` — **a carry addition on every flat memory**, with the memory after it.
-/

import WordMachine.Proofs.ByteOrder
import WordMachine.Proofs.CarryChain

set_option relaxedAutoImplicit false
set_option autoImplicit false

namespace WordMachine

/-- The sum of the operands and the carry-in, and whether it does not fit in the width. -/
theorem Width.addWithCarry_eq_mk (w : Width) (l r c : UInt64) :
    let total := l.toNat % 2 ^ w.bits + r.toNat % 2 ^ w.bits + c.toNat % 2 ^ w.bits
    w.addWithCarry l r c = ⟨.ofNat (total % 2 ^ w.bits), decide (2 ^ w.bits ≤ total)⟩ := by
  intro total
  rw [addWithCarry_eq, exactSum_triple]
  rfl

section Cell

variable {m : Memory} {w : Width} {cell : Address}

/-- At a wider width a carry has taken the place of the lowest digits of what the cell held. -/
theorem loadInt_withCarry_wide (h : cell.value.toNat + w.octets ≤ m.size.bytes.toNat)
    (carry : Bool) {v : Width} (hwide : w.octets ≤ v.octets)
    (hv : cell.value.toNat + v.octets ≤ m.size.bytes.toNat) :
    ∃ n, loadInt cell v m = .ok n m ∧
      loadInt cell v (m.withCarry w cell carry) =
        .ok (.ofNat (carry.toNat + 2 ^ w.bits * (n.toNat / 2 ^ w.bits)))
          (m.withCarry w cell carry) := by
  obtain ⟨r, hr⟩ := Nat.exists_eq_add_of_le hwide
  have hcarry : carry.toNat % 2 ^ w.bits = carry.toNat :=
    Nat.mod_eq_of_lt (w.lt_two_pow_bits_of_le_one (Bool.toNat_le carry))
  have hnumber := Memory.number_overwrite_encode_low h carry.toNat r
  rw [← hr, hcarry] at hnumber
  refine ⟨_, Memory.loadInt_number hv, ?_⟩
  rw [Memory.loadInt_number (by rwa [size_withCarry]), Memory.toNat_ofNat_number, ← hnumber]
  rfl

end Cell

/-- **A carry addition on a flat memory.**  It succeeds when its cell is inside the memory: it gives
the sum of its operands and its carry-in modulo `2 ^ bits`, and the cell holds whether that sum
reaches `2 ^ bits`.  Exactly the bytes of the cell are replaced, and so what the cell held at a wider
width keeps its digits above.  Otherwise the store fails, and nothing changes. -/
theorem addCarry_exact (m : Memory) (w : Width) (left right carryIn : UInt64)
    (carryOut : Address) :
    let total := left.toNat % 2 ^ w.bits + right.toNat % 2 ^ w.bits + carryIn.toNat % 2 ^ w.bits
    let carry := decide (2 ^ w.bits ≤ total)
    let first := carryOut.value.toNat
    if first + w.octets ≤ m.size.bytes.toNat then
      ∃ m', addCarry w left right carryIn carryOut m = .ok (.ofNat (total % 2 ^ w.bits)) m' ∧
        loadInt carryOut w m' = .ok (if carry then 1 else 0) m' ∧
        m'.size = m.size ∧
        (∀ i, m'.byte i =
          if i = first then (if carry then 1 else 0)
          else if first < i ∧ i < first + w.octets then 0 else m.byte i) ∧
        ∀ v : Width, w.octets ≤ v.octets → first + v.octets ≤ m.size.bytes.toNat →
          ∃ n, loadInt carryOut v m = .ok n m ∧
            loadInt carryOut v m' =
              .ok (.ofNat (carry.toNat + 2 ^ w.bits * (n.toNat / 2 ^ w.bits))) m'
    else
      addCarry w left right carryIn carryOut m =
        .error (.outOfBounds .store carryOut w.byteCount m.size) m := by
  intro total carry first
  have hsum : w.addWithCarry left right carryIn = ⟨.ofNat (total % 2 ^ w.bits), carry⟩ :=
    w.addWithCarry_eq_mk left right carryIn
  by_cases h : first + w.octets ≤ m.size.bytes.toNat
  · rw [if_pos h]
    have hrun := addCarry_memory h left right carryIn
    rw [hsum] at hrun
    exact ⟨_, hrun, loadInt_withCarry h carry, size_withCarry carry, byte_withCarry h carry,
      fun v hwide hv => loadInt_withCarry_wide h carry hwide hv⟩
  · rw [if_neg h]
    exact addCarry_memory_of_not_inside h left right carryIn

end WordMachine
