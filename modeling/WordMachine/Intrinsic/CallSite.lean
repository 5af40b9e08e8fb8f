/-
**Call sites.**

A call site of an addition is built from the number of bits of its operands.  A number of bits that
is no width cannot be computed with, and building the site fails.

Main definitions:

* `WordMachine.Intrinsic.addPairAt`, `WordMachine.Intrinsic.addCarryAt` — call sites of the
  additions at a number of bits.
-/

import WordMachine.Fault

set_option relaxedAutoImplicit false
set_option autoImplicit false

namespace WordMachine

/-- The width that arithmetic at so many bits uses. -/
def arithmeticWidth (bits : UInt8) : Except Fault Width :=
  match Width.ofBits bits with
  | .ok w => .ok w
  | .error e => .error (.unsupportedWidth e.bits)

namespace Intrinsic

/-- The call site of a pair addition of integers of so many bits. -/
def addPairAt (bits : UInt8) (flagOffset : UInt64) : Except Fault Intrinsic :=
  (arithmeticWidth bits).map fun w => addPair w flagOffset

/-- The call site of a carry addition of integers of so many bits. -/
def addCarryAt (bits : UInt8) : Except Fault Intrinsic :=
  (arithmeticWidth bits).map addCarry

example : addPairAt 16 2 = .ok (addPair .w16 2) := rfl

example : addCarryAt 24 = .error (.unsupportedWidth 24) := rfl

end Intrinsic

end WordMachine
