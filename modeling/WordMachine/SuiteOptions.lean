/-
**Options of a test suite.**

Two settings steer the suites of the machine: a filter, which narrows a run to the cases whose names
contain it, and the number of samples drawn per width.  Both come as texts, when they are given at
all.  A number of samples is a decimal numeral with an optional plus sign, between blanks; it has to
be positive and below `2 ^ 64`, and any other text counts as none given.

Main definitions:

* `WordMachine.SuiteOptions` — the two settings;
* `WordMachine.SuiteOptions.sampleCount?` — the number of samples that a text stands for;
* `WordMachine.SuiteOptions.ofTexts`, `WordMachine.SuiteOptions.ofBytes` — the settings from texts,
  and from the bytes of texts;
* `WordMachine.SuiteOptions.runs` — whether a case is run.
-/

import WordMachine.Text.Blank
import WordMachine.Text.Numeral
import WordMachine.Text.Occurrence

set_option relaxedAutoImplicit false
set_option autoImplicit false

namespace WordMachine

namespace SuiteOptions

/-- The number of samples per width when no other is asked for. -/
def defaultSamples : UInt64 := 256

end SuiteOptions

/-- Which cases of a suite are run, and with how many samples per width. -/
structure SuiteOptions where
  filter : Option String := none
  samples : UInt64 := SuiteOptions.defaultSamples
deriving DecidableEq

namespace SuiteOptions

/-! ### Reading a number of samples -/

/-- The number that decimal digits stand for, when it is below `2 ^ 64`. -/
def count? (digits : List Char) : Option UInt64 :=
  match Numeral.ofDecimal? digits with
  | some n => if n < UInt64.size then some (UInt64.ofNat n) else none
  | none => none

/-- The number that decimal digits stand for, with at most one plus sign in front of them. -/
def signedCount? : List Char → Option UInt64
  | '+' :: digits => count? digits
  | digits => count? digits

/-- The number of samples that a text stands for; zero stands for none. -/
def sampleCount? (text : String) : Option UInt64 :=
  match signedCount? (Text.trim text.toList) with
  | some n => if n = 0 then none else some n
  | none => none

example : sampleCount? " +0010\t" = some 10 := by decide

example : sampleCount? "-1" = none ∧ sampleCount? "+" = none ∧ sampleCount? "1 0" = none := by
  decide

/-! ### The settings -/

/-- The settings from the texts that are given for them.  An empty filter is none. -/
def ofTexts (filter samples : Option String) : SuiteOptions where
  filter := filter.filter fun text => !text.isEmpty
  samples := (samples.bind sampleCount?).getD defaultSamples

/-- The settings from the bytes that are given for them.  Bytes that are no text in UTF-8 count as
not given. -/
def ofBytes (filter samples : Option ByteArray) : SuiteOptions :=
  ofTexts (filter.bind String.fromUTF8?) (samples.bind String.fromUTF8?)

/-- Whether the case of the given name is run: its name contains the filter, if there is one. -/
def runs (options : SuiteOptions) (name : String) : Bool :=
  match options.filter with
  | some text => Text.occursIn text.toList name.toList
  | none => true

end SuiteOptions

end WordMachine
