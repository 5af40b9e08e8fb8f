/-
**Log records and the logger.**

A record has a severity and a message.  A logger has a threshold and passes on the records whose
severity the threshold admits, each as one line: those of errors and warnings go to the stream for
errors, the others to the stream for output.  Installing a logger sets its threshold.  The first
installation registers it; a later one reports that there is a logger already, still under the
threshold that it replaces.  Records reach a logger only after it was registered, unless they are
given to it directly.

Main definitions:

* `WordMachine.Log.Severity`, `WordMachine.Log.Threshold` — how grave a record is, and which records
  are passed on;
* `WordMachine.Log.Record` — a message with its severity;
* `WordMachine.Log.Console` — the text on the two streams;
* `WordMachine.Log.Logger` — the logger, with `write`, `log` and `install`;
* `WordMachine.Log.Request`, `WordMachine.Log.Logger.answer` — the uses of a logger as data.
-/

set_option relaxedAutoImplicit false
set_option autoImplicit false

namespace WordMachine.Log

/-! ### Severities and thresholds -/

/-- How grave a record is. -/
inductive Severity
  | error
  | warn
  | info
  | debug
  | trace
deriving DecidableEq

namespace Severity

/-- The severities are numbered from the gravest on. -/
def rank : Severity → Nat
  | error => 1
  | warn => 2
  | info => 3
  | debug => 4
  | trace => 5

/-- The name of a severity. -/
def name : Severity → String
  | error => "error"
  | warn => "warn"
  | info => "info"
  | debug => "debug"
  | trace => "trace"

/-- The severities whose records belong to the stream for errors. -/
def isGrave (s : Severity) : Bool :=
  s.rank ≤ warn.rank

end Severity

/-- Which records are passed on: none, or those at least as grave as a severity. -/
inductive Threshold
  | off
  | upTo (s : Severity)
deriving DecidableEq

namespace Threshold

/-- Whether records of a severity are passed on. -/
def admits : Threshold → Severity → Bool
  | off, _ => false
  | upTo t, s => s.rank ≤ t.rank

/-- The name of a threshold. -/
def name : Threshold → String
  | off => "off"
  | upTo s => s.name

end Threshold

/-! ### Records and streams -/

/-- A message with its severity. -/
structure Record where
  severity : Severity
  message : String
deriving DecidableEq

/-- The line of a record: the name of its severity, and its message. -/
def Record.line (r : Record) : String :=
  r.severity.name ++ ": " ++ r.message ++ "\n"

/-- The text on the stream for output and on the stream for errors. -/
structure Console where
  output : String := ""
  errors : String := ""
deriving DecidableEq

namespace Console

/-- The text of one console followed by that of another, on each stream. -/
instance : Append Console :=
  ⟨fun c d => ⟨c.output ++ d.output, c.errors ++ d.errors⟩⟩

/-- The console with the line of one record, on the stream that its severity belongs to. -/
def ofRecord (r : Record) : Console :=
  if r.severity.isGrave then ⟨"", r.line⟩ else ⟨r.line, ""⟩

end Console

/-! ### The logger -/

/-- A logger with its threshold, and whether it was registered to receive records. -/
structure Logger where
  threshold : Threshold := .off
  registered : Bool := false
deriving DecidableEq

namespace Logger

/-- Whether a record of a severity would be written. -/
def enabled (l : Logger) (s : Severity) : Bool :=
  l.threshold.admits s

/-- Giving a record to the logger directly. -/
def write (l : Logger) (r : Record) : Console :=
  if l.enabled r.severity then .ofRecord r else {}

/-- Logging a record, which reaches a registered logger when its severity is admitted. -/
def log (l : Logger) (r : Record) : Console :=
  if l.threshold.admits r.severity && l.registered then l.write r else {}

/-- Logging a list of records in order. -/
def logAll (l : Logger) : List Record → Console
  | [] => {}
  | r :: records => l.log r ++ l.logAll records

/-- The report of an installation that finds a registered logger. -/
def alreadyInstalled : Record :=
  ⟨.trace, "a global logger is already installed, only updating the level"⟩

/-- Installing the logger at a threshold, with what is written on the occasion. -/
def install (l : Logger) (t : Threshold) : Logger × Console :=
  (⟨t, true⟩, if l.registered then l.log alreadyInstalled else {})

end Logger

/-! ### Requests -/

/-- The uses of a logger. -/
inductive Request
  | install (t : Threshold)
  | log (r : Record)
  | write (r : Record)
  | enabled (s : Severity)
  | threshold

/-- The answer of a logger to a request. -/
inductive Reply
  | done
  | flag (b : Bool)
  | threshold (t : Threshold)
deriving DecidableEq

/-- The answer to a request, the logger after it, and what was written. -/
structure Report where
  reply : Reply
  logger : Logger
  console : Console

/-- Answering a request. -/
def Logger.answer (l : Logger) : Request → Report
  | .install t => ⟨.done, (l.install t).1, (l.install t).2⟩
  | .log r => ⟨.done, l, l.log r⟩
  | .write r => ⟨.done, l, l.write r⟩
  | .enabled s => ⟨.flag (l.enabled s), l, {}⟩
  | .threshold => ⟨.threshold l.threshold, l, {}⟩

end WordMachine.Log
