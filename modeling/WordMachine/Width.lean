/-
**Integer widths.**

Integers are 8, 16, 32 or 64 bits wide.  A width decides how many bytes an integer occupies, which
bits of a 64-bit pattern belong to it, and where its top bit is.  A word of a width is a bit vector
of that many bits; every 64-bit pattern is cut down to one, and every word is a pattern again when
zeros are put above it.

Main definitions:

* `WordMachine.Width` — the four widths;
* `WordMachine.Width.bits`, `WordMachine.Width.octets`, `WordMachine.Width.byteCount` — the size;
* `WordMachine.Width.mask`, `WordMachine.Width.signBit` — all bits of the width, and its top bit;
* `WordMachine.Width.truncate`, `WordMachine.Width.fits` — cutting a pattern down, and the patterns
  that lose nothing by it;
* `WordMachine.Width.Word`, `WordMachine.Width.word`, `WordMachine.Width.zeroExtend` — the integers
  of a width, and the two ways between them and patterns;
* `WordMachine.Width.ofBits` — the width with a given number of bits.
-/

import WordMachine.ByteCount

set_option relaxedAutoImplicit false
set_option autoImplicit false

namespace WordMachine

/-- The widths that integers have. -/
inductive Width
  | w8
  | w16
  | w32
  | w64
deriving DecidableEq

/-- The complaint that no width has the number of bits asked for. -/
structure UnknownWidth where
  bits : UInt8
deriving DecidableEq

/-- The wording of the complaint. -/
def UnknownWidth.message (e : UnknownWidth) : String :=
  "No discriminant in enum `IntWidth` matches the value `" ++ Numeral.decimal e.bits.toNat ++ "`"

namespace Width

/-! ### Size -/

/-- The widths, narrowest first. -/
def all : List Width := [w8, w16, w32, w64]

/-- The number of bytes that an integer of the width occupies. -/
def octets : Width → Nat
  | w8 => 1
  | w16 => 2
  | w32 => 4
  | w64 => 8

/-- The number of bits in the width. -/
def bits : Width → Nat
  | w8 => 8
  | w16 => 16
  | w32 => 32
  | w64 => 64

/-- The size of the width as a byte count. -/
def byteCount : Width → ByteCount
  | w8 => ⟨1⟩
  | w16 => ⟨2⟩
  | w32 => ⟨4⟩
  | w64 => ⟨8⟩

/-- The name of the integers of the width. -/
def name : Width → String
  | w8 => "i8"
  | w16 => "i16"
  | w32 => "i32"
  | w64 => "i64"

@[simp] theorem toNat_byteCount (w : Width) : w.byteCount.bytes.toNat = w.octets := by
  cases w <;> rfl

theorem octets_pos (w : Width) : 0 < w.octets := by cases w <;> decide

theorem bits_pos (w : Width) : 0 < w.bits := by cases w <;> decide

theorem bits_le (w : Width) : w.bits ≤ 64 := by cases w <;> decide

/-- The width with the given number of bits, when there is one. -/
def ofBits (n : UInt8) : Except UnknownWidth Width :=
  match all.find? fun w => w.bits == n.toNat with
  | some w => .ok w
  | none => .error ⟨n⟩

example : ofBits 32 = .ok w32 := rfl

example : ofBits 24 = .error ⟨24⟩ := rfl

/-! ### Patterns -/

/-- The pattern with every bit of the width set, and no other. -/
def mask (w : Width) : UInt64 :=
  w.byteCount.maxUnsigned

/-- The pattern with the top bit of the width set, and no other. -/
def signBit (w : Width) : UInt64 :=
  1 <<< UInt64.ofNat (w.bits - 1)

/-- The bits of `v` that belong to the width. -/
def truncate (w : Width) (v : UInt64) : UInt64 :=
  v &&& w.mask

/-- Whether `v` has no bits above the width. -/
def fits (w : Width) (v : UInt64) : Bool :=
  v &&& ~~~w.mask == 0

/-! ### Words -/

/-- The integers of a width. -/
abbrev Word (w : Width) := BitVec w.bits

/-- The word in the low bits of a pattern. -/
def word (w : Width) (v : UInt64) : w.Word :=
  BitVec.ofNat w.bits v.toNat

/-- The pattern with zeros above a word. -/
def zeroExtend (w : Width) (v : w.Word) : UInt64 :=
  UInt64.ofNat v.toNat

end Width

end WordMachine
