/-
**Addresses.**

An address is a 64-bit offset into a memory space.  Moving an address forward wraps round at the top
of the address range; whether the bytes at an address exist is for the memory to say.  The end of a
region, on the other hand, is a number that may not wrap: a region whose end lies beyond the address
range has none.

Main definitions:

* `WordMachine.Address` — an offset into a memory space;
* `WordMachine.Address.advance` — the address so many bytes further on, modulo `2 ^ 64`;
* `WordMachine.Address.limit?` — the end of a region, when it does not wrap;
* `WordMachine.Address.text` — the address in base sixteen.

Main results:

* `WordMachine.Address.limit?_eq_some_iff` — the end of a region is the exact sum.
-/

import WordMachine.ByteCount

set_option relaxedAutoImplicit false
set_option autoImplicit false

namespace WordMachine

/-- An offset into a memory space. -/
structure Address where
  value : UInt64
deriving DecidableEq

namespace Address

/-- The address of the first byte. -/
def null : Address := ⟨0⟩

/-- Addresses are ordered as numbers. -/
instance : Ord Address := ⟨fun a b => compare a.value b.value⟩

/-- The address `n` bytes further on, which wraps round at the top of the range. -/
def advance (a : Address) (n : UInt64) : Address :=
  ⟨a.value + n⟩

/-- The end of the region of `n` bytes that begins at `a`, unless it lies beyond the range. -/
def limit? (a : Address) (n : ByteCount) : Option UInt64 :=
  if a.value + n.bytes < a.value then none else some (a.value + n.bytes)

/-- An address is written in base sixteen. -/
def text (a : Address) : String :=
  Numeral.hexadecimal a.value.toNat

/-- A region has an end when the sum of its beginning and its length does not wrap, and the end is
that sum. -/
theorem limit?_eq_some_iff {a : Address} {n : ByteCount} {e : UInt64} :
    a.limit? n = some e ↔ a.value.toNat + n.bytes.toNat = e.toNat := by
  have ha := a.value.toNat_lt
  have hn := n.bytes.toNat_lt
  have he := e.toNat_lt
  have hsum := UInt64.toNat_add a.value n.bytes
  unfold limit?
  split
  · rename_i h
    rw [UInt64.lt_iff_toNat_lt] at h
    simp only [reduceCtorEq, false_iff]
    omega
  · rename_i h
    rw [UInt64.lt_iff_toNat_lt] at h
    rw [Option.some.injEq, ← UInt64.toNat_inj]
    omega

end Address

end WordMachine
