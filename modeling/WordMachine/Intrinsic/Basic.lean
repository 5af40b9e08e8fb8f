/-
**Intrinsics and their calls.**

An intrinsic is what a call site calls, with the constants that were fixed when the site was built:
an addition that stores its sum and its overflow flag as a pair, an addition that takes part in a
carry chain, or the clearing of a region.  A call supplies it with evaluated arguments.  Nothing in
the types keeps the arguments of one kind of intrinsic from being given to another.

Main definitions:

* `WordMachine.Intrinsic` — the intrinsics;
* `WordMachine.Args` — the evaluated arguments of a call;
* `WordMachine.Call` — an intrinsic with arguments;
* `WordMachine.Value`, `WordMachine.Outcome` — what a call evaluates to, and what it produces;
* `WordMachine.Intrinsic.text`, `WordMachine.Args.text`, `WordMachine.Call.text`,
  `WordMachine.Value.text` — the written forms.
-/

import WordMachine.Width
import WordMachine.Address

set_option relaxedAutoImplicit false
set_option autoImplicit false

namespace WordMachine

/-! ### The types -/

/-- An intrinsic with the constants of its call site. -/
inductive Intrinsic
  /-- The addition that stores its sum at a target, and its overflow flag in the byte at an offset
  from there. -/
  | addPair (w : Width) (flagOffset : UInt64)
  /-- The addition with a carry-in that stores its carry-out and produces its sum. -/
  | addCarry (w : Width)
  /-- The clearing of a region of a fixed length. -/
  | zeroFill (length : ByteCount)
deriving DecidableEq

/-- The evaluated arguments of a call. -/
inductive Args
  /-- Two operands, and the place of their sum. -/
  | pair (left right : UInt64) (target : Address)
  /-- Two operands, a carry-in, and the place of the carry-out. -/
  | chain (left right carryIn : UInt64) (carryOut : Address)
  /-- The beginning of a region. -/
  | region (address : Address)
deriving DecidableEq

/-- An intrinsic together with the arguments that it is called with. -/
structure Call where
  intrinsic : Intrinsic
  args : Args
deriving DecidableEq

/-- What a call evaluates to. -/
inductive Value
  | address (a : Address)
  | int (n : UInt64)
deriving DecidableEq

/-- What a call produces: its value and, when it did arithmetic, whether that overflowed. -/
structure Outcome where
  value : Value
  overflow : Option Bool
deriving DecidableEq

/-! ### Properties of an intrinsic -/

namespace Intrinsic

/-- The width that an intrinsic computes at, when it does arithmetic. -/
def width? : Intrinsic → Option Width
  | addPair w _ => some w
  | addCarry w => some w
  | zeroFill _ => none

/-- The wording for the arguments that an intrinsic takes. -/
def expectedArgs : Intrinsic → String
  | addPair _ _ => "`left, right, target`"
  | addCarry _ => "`left, right, carry_in, carry_out`"
  | zeroFill _ => "`address`"

/-- The written form of an intrinsic: its name, the name of its width, and its constants. -/
def text : Intrinsic → String
  | addPair w flagOffset =>
      "uadd.with.overflow." ++ w.name ++ " (flag +" ++ Numeral.decimal flagOffset.toNat ++ ")"
  | addCarry w => "uadd.with.overflow.carry." ++ w.name
  | zeroFill length => "zeroinit.aggregate " ++ length.text

end Intrinsic

/-! ### Arguments and values -/

/-- The operands among the arguments of an addition, in the order in which they are given. -/
def Args.operands : Args → List UInt64
  | pair left right _ => [left, right]
  | chain left right carryIn _ => [left, right, carryIn]
  | region _ => []

/-- The written form of a pattern, in base sixteen. -/
def patternText (v : UInt64) : String :=
  Numeral.hexadecimal v.toNat

/-- The written form of arguments: the operands, and an arrow to the place of the result. -/
def Args.text : Args → String
  | pair left right target =>
      patternText left ++ ", " ++ patternText right ++ " -> " ++ target.text
  | chain left right carryIn carryOut =>
      patternText left ++ ", " ++ patternText right ++ ", carry " ++ patternText carryIn ++
        " -> " ++ carryOut.text
  | region address => address.text

/-- The written form of a call: its intrinsic, and the arguments that it is called with. -/
def Call.text (c : Call) : String :=
  "call `" ++ c.intrinsic.text ++ "` with " ++ c.args.text

/-- The written form of a value, in base sixteen. -/
def Value.text : Value → String
  | address a => a.text
  | int n => patternText n

end WordMachine
