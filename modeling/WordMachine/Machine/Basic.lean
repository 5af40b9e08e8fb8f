/-
**The machine.**

A machine owns a flat memory and runs calls on it.  It keeps one flag, the overflow of the last
addition that completed; a call that fails leaves the flag as it was, and so does one that does no
arithmetic.  On the way it logs: the call itself and its operands that are wider than the width of
its intrinsic, both if its settings say so, and the sum and carry of a carry addition.  What is
logged has no influence on what is computed.

Main definitions:

* `WordMachine.Machine` — memory, settings and the overflow flag;
* `WordMachine.Machine.call` — running a call;
* `WordMachine.Machine.Request`, `WordMachine.Machine.answer` — the uses of a machine as data.
-/

import WordMachine.Log
import WordMachine.Machine.Settings
import WordMachine.Memory.Request

set_option relaxedAutoImplicit false
set_option autoImplicit false

namespace WordMachine

/-- A memory with settings, and the overflow of the last addition that completed. -/
structure Machine where
  memory : Memory
  settings : Machine.Settings
  overflow : Bool := false

namespace Machine

open Log (Record Console Logger)

/-- A machine whose memory is zero and of the size that the settings ask for. -/
def ofSettings (settings : Settings) : Machine :=
  { memory := .zeroed settings.memorySize, settings }

/-! ### What is logged -/

/-- The record that announces a call, when calls are announced. -/
def callRecords (settings : Settings) (c : Call) : List Record :=
  if settings.traceCalls then [⟨.trace, c.text⟩] else []

/-- The record of an operand that is too wide. -/
def wideOperandRecord (i : Intrinsic) (w : Width) (operand : UInt64) : Record :=
  ⟨.warn, "`" ++ i.text ++ "` received operand " ++ patternText operand ++ " wider than " ++
    w.name ++ ", masking it"⟩

/-- The records of the operands of a call that are too wide, when these are warned of.  Whether the
arguments are those of the intrinsic does not matter. -/
def operandRecords (settings : Settings) (c : Call) : List Record :=
  match settings.operandPolicy, c.intrinsic.width? with
  | .warn, some w =>
      (c.args.operands.filter fun operand => !w.fits operand).map (wideOperandRecord c.intrinsic w)
  | _, _ => []

/-- The record of the sum and the carry of a carry addition. -/
def carryRecords (i : Intrinsic) (v : Value) (carry : Bool) : List Record :=
  match i, v with
  | .addCarry _, .int sum =>
      [⟨.debug, "`" ++ i.text ++ "` produced " ++ patternText sum ++ ", carry " ++
        (if carry then "true" else "false")⟩]
  | _, _ => []

/-! ### Running calls -/

/-- The result of using a machine, the machine afterwards, and what was written. -/
structure Report (α : Type) where
  result : Except Fault α
  machine : Machine
  console : Console

/-- Running a call, with a logger to report to. -/
def call (logger : Logger) (m : Machine) (c : Call) : Report Value :=
  let before := logger.logAll (callRecords m.settings c ++ operandRecords m.settings c)
  match c.execute m.memory with
  | .ok o memory =>
      let overflow := o.overflow.getD m.overflow
      { result := .ok o.value
        machine := { m with memory, overflow }
        console := before ++ logger.logAll (carryRecords c.intrinsic o.value overflow) }
  | .error f memory =>
      { result := .error f
        machine := { m with memory }
        console := before }

/-! ### Requests -/

/-- The uses of a machine: calls, accesses to its memory past the calls, and setting its flag. -/
inductive Request
  | call (c : Call)
  | memory (r : Memory.Request)
  | setOverflow (b : Bool)

/-- Answering a request. -/
def answer (logger : Logger) (m : Machine) : Request → Report Reply
  | .call c =>
      let report := m.call logger c
      { report with result := report.result.map Reply.value }
  | .memory r =>
      match Memory.answer r m.memory with
      | .ok reply memory => ⟨.ok reply, { m with memory }, {}⟩
      | .error f memory => ⟨.error f, { m with memory }, {}⟩
  | .setOverflow b => ⟨.ok .done, { m with overflow := b }, {}⟩

end Machine

end WordMachine
