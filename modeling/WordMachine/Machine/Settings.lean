/-
**Settings of a machine.**

How large the memory of a machine is to be, and what the machine reports about the calls that it
runs: whether it announces each of them, and whether it warns of operands that are wider than the
integers they are added as.  Such operands are cut down in either case.

Main definitions:

* `WordMachine.Machine.OperandPolicy` — what happens to operands that are too wide;
* `WordMachine.Machine.Settings` — the settings, with their defaults.
-/

import WordMachine.ByteCount

set_option relaxedAutoImplicit false
set_option autoImplicit false

namespace WordMachine.Machine

/-- Operands that are too wide are cut down silently, or with a warning. -/
inductive OperandPolicy
  | mask
  | warn
deriving DecidableEq

/-- The name of a policy. -/
def OperandPolicy.name : OperandPolicy → String
  | mask => "mask"
  | warn => "warn"

namespace Settings

/-- The size that a memory has when no other is asked for, 64 KiB. -/
def defaultMemorySize : ByteCount := ⟨64 * 1024⟩

end Settings

/-- The settings of a machine. -/
structure Settings where
  memorySize : ByteCount := Settings.defaultMemorySize
  traceCalls : Bool := false
  operandPolicy : OperandPolicy := .mask
deriving DecidableEq

/-- The default settings with another size of memory. -/
def Settings.ofSize (n : ByteCount) : Settings :=
  { memorySize := n }

end WordMachine.Machine
