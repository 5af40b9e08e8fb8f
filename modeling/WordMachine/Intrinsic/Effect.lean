/-
**What intrinsics do.**

The effect of each intrinsic on a memory space.  A pair addition stores its sum, at the width of its
operands, and then its overflow flag, as one byte at an offset from the sum; the offset may wrap
round.  A carry addition stores its carry-out as an integer of the width and produces its sum.  The
flag is never stored before the sum, nor when storing the sum fails.

Main definitions:

* `WordMachine.addPair`, `WordMachine.addCarry`, `WordMachine.zeroFill` — the intrinsics;
* `WordMachine.addPairWord`, `WordMachine.addCarryWord` — the additions on words of a width;
* `WordMachine.Call.execute` — a call, which fails when its arguments are not those of its
  intrinsic.
-/

import WordMachine.CheckedSum
import WordMachine.MemorySpace

set_option relaxedAutoImplicit false
set_option autoImplicit false

namespace WordMachine

variable {σ : Type} [MemorySpace σ]

/-! ### The additions -/

/-- Storing a sum at a target and then its overflow flag at an offset from there. -/
def storePair (w : Width) (s : CheckedSum) (target : Address) (flagOffset : UInt64) :
    MemoryM σ Unit := do
  storeInt target w s.value
  storeBool (target.advance flagOffset) s.overflow

/-- Storing a carry-out as an integer of the width, zero or one. -/
def storeCarry (w : Width) (s : CheckedSum) (carryOut : Address) : MemoryM σ Unit :=
  storeInt carryOut w (if s.overflow then 1 else 0)

/-- The pair addition, which produces the place of its sum. -/
def addPair (w : Width) (left right : UInt64) (target : Address) (flagOffset : UInt64) :
    MemoryM σ Address := do
  storePair w (w.add left right) target flagOffset
  return target

/-- The carry addition, which produces its sum. -/
def addCarry (w : Width) (left right carryIn : UInt64) (carryOut : Address) : MemoryM σ UInt64 := do
  let s := w.addWithCarry left right carryIn
  storeCarry w s carryOut
  return s.value

/-- The pair addition of two words. -/
def addPairWord (w : Width) (left right : w.Word) (target : Address) (flagOffset : UInt64) :
    MemoryM σ Address :=
  addPair w (w.zeroExtend left) (w.zeroExtend right) target flagOffset

/-- The carry addition of three words, which produces a word. -/
def addCarryWord (w : Width) (left right carryIn : w.Word) (carryOut : Address) :
    MemoryM σ w.Word := do
  let sum ← addCarry w (w.zeroExtend left) (w.zeroExtend right) (w.zeroExtend carryIn) carryOut
  return w.word sum

/-! ### Clearing -/

/-- Clearing a region, which produces its beginning. -/
def zeroFill (address : Address) (length : ByteCount) : MemoryM σ Address := do
  MemorySpace.fillZero address length
  return address

/-! ### Calls -/

/-- Running a call. -/
def Call.execute (c : Call) : MemoryM σ Outcome :=
  match c.intrinsic, c.args with
  | .addPair w flagOffset, .pair left right target => do
      let s := w.add left right
      storePair w s target flagOffset
      return ⟨.address target, some s.overflow⟩
  | .addCarry w, .chain left right carryIn carryOut => do
      let s := w.addWithCarry left right carryIn
      storeCarry w s carryOut
      return ⟨.int s.value, some s.overflow⟩
  | .zeroFill length, .region address => do
      let a ← zeroFill address length
      return ⟨.address a, none⟩
  | i, _ => throw (.argumentMismatch i)

end WordMachine
