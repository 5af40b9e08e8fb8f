/-
**Byte counts.**

The size of a value or of a region of memory is a number of bytes.  A byte count also cuts a 64-bit
pattern down to the bits that fit in it, by shifting the others out at the top; eight bytes and more
keep the whole pattern, and no bytes keep nothing of it.

Main definitions:

* `WordMachine.ByteCount` — a number of bytes;
* `WordMachine.ByteCount.truncate` — the low bits of a pattern that fit in so many bytes;
* `WordMachine.ByteCount.maxUnsigned` — the largest pattern that fits;
* `WordMachine.ByteCount.text` — the number with the unit `b`.
-/

import WordMachine.Text.Numeral

set_option relaxedAutoImplicit false
set_option autoImplicit false

namespace WordMachine

/-- A number of bytes. -/
structure ByteCount where
  bytes : UInt64
deriving DecidableEq

namespace ByteCount

/-- No bytes at all, the length of an empty region. -/
def zero : ByteCount := ⟨0⟩

/-- Byte counts are ordered as numbers. -/
instance : Ord ByteCount := ⟨fun m n => compare m.bytes n.bytes⟩

/-- The same size in bits, eight to the byte. -/
def bits (n : ByteCount) : UInt64 :=
  n.bytes * 8

/-- The low bits of `v` that fit in `n` bytes: the bits above them are shifted out at the top, and
zeros come back in their place. -/
def truncate (n : ByteCount) (v : UInt64) : UInt64 :=
  if n.bits = 0 then 0
  else if 64 ≤ n.bits then v
  else (v <<< (64 - n.bits)) >>> (64 - n.bits)

/-- The largest pattern that fits in `n` bytes. -/
def maxUnsigned (n : ByteCount) : UInt64 :=
  n.truncate (0 - 1)

/-- A byte count is written in base ten, with the unit `b`. -/
def text (n : ByteCount) : String :=
  Numeral.decimal n.bytes.toNat ++ "b"

example : (⟨2⟩ : ByteCount).truncate 0xdeadbeef = 0xbeef := by decide

example : (⟨4⟩ : ByteCount).maxUnsigned = 0xffffffff := by decide

end ByteCount

end WordMachine
