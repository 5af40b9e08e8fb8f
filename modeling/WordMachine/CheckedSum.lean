/-
**Checked addition.**

Unsigned addition at a width, together with whether the sum overflowed.  The operands are cut down
to the width first, and nothing wider than a 64-bit pattern is used, also for integers of 64 bits:
whether an addition carries out is read off the top bits of its operands and of its sum.  With a
carry-in the sum is formed by two additions, and overflows when either of them does.

Main definitions:

* `WordMachine.CheckedSum` — a sum and its overflow;
* `WordMachine.Width.carriesOut` — whether an addition carried out of the top bit;
* `WordMachine.Width.add`, `WordMachine.Width.addWithCarry` — the additions.
-/

import WordMachine.Width

set_option relaxedAutoImplicit false
set_option autoImplicit false

namespace WordMachine

/-- A sum at some width, and whether the exact sum did not fit in it. -/
structure CheckedSum where
  value : UInt64
  overflow : Bool
deriving DecidableEq

namespace Width

/-- Whether the addition of `l` and `r` that produced `s` carried out of the top bit of the width.
It did when both operands have that bit, or one of them has it and the sum has not. -/
def carriesOut (w : Width) (l r s : UInt64) : Bool :=
  ((~~~s &&& l) ||| (~~~s &&& r) ||| (l &&& r)) &&& w.signBit != 0

/-- The sum of two operands, each cut down to the width. -/
def add (w : Width) (l r : UInt64) : CheckedSum :=
  let l := w.truncate l
  let r := w.truncate r
  let s := w.truncate (l + r)
  ⟨s, w.carriesOut l r s⟩

/-- The sum of two operands and a carry-in, each cut down to the width.  The carry-in counts in
full, not only as zero or one. -/
def addWithCarry (w : Width) (l r c : UInt64) : CheckedSum :=
  let base := w.add l r
  let carried := w.add base.value c
  ⟨carried.value, base.overflow || carried.overflow⟩

example : w8.add 200 100 = ⟨44, true⟩ := by decide

example : w64.addWithCarry (0 - 1) (0 - 1) (0 - 1) = ⟨0 - 3, true⟩ := by decide

end Width

end WordMachine
