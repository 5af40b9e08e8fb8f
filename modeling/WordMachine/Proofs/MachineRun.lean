/-
**Runs of the machine.**

A machine is used again and again: it runs calls, which succeed or fail, and its memory is accessed
directly between them.  Its overflow flag is to tell of the last addition that completed, and of
nothing else.  This module says what one use does to the flag, the settings and the size of the
memory, and derives by induction what they are after every run.

Main definitions:

* `WordMachine.Call.carries?` — whether the exact sum of the operands of a call is too large for its
  width, when its intrinsic does arithmetic;
* `WordMachine.Machine.Use`, `WordMachine.Machine.Event` — the uses of a machine that leave its flag
  to its calls, and uses with their answers;
* `WordMachine.Machine.run` — the events of a run, and the machine after it.

Main results:

* `WordMachine.Call.execute_overflow` — a call that completes tells its overflow exactly;
* `WordMachine.Machine.answer_use` — **what one use does**;
* `WordMachine.Machine.run_from_start` — **what every run does**.
-/

import WordMachine.Machine.Basic
import WordMachine.Proofs.CallAccesses
import WordMachine.Proofs.MemorySize

set_option relaxedAutoImplicit false
set_option autoImplicit false

namespace WordMachine

/-! ### Calls that complete -/

/-- Whether the exact sum of the operands of a call is too large for its width, when its intrinsic
does arithmetic. -/
def Call.carries? (c : Call) : Option Bool :=
  c.intrinsic.width?.map fun w => decide (2 ^ w.bits ≤ w.exactSum c.args.operands)

/-- A call that completes tells whether its exact sum was too large, on every memory space. -/
theorem Call.execute_overflow {σ : Type} [MemorySpace σ] {c : Call} {s s' : σ} {o : Outcome}
    (h : c.execute s = .ok o s') : o.overflow = c.carries? := by
  obtain ⟨p, hplan, rfl, -⟩ := plan_of_ok h
  obtain ⟨i, args⟩ := c
  cases i <;> cases args <;> cases hplan <;> rfl

namespace Machine

open Log (Logger)

/-! ### Uses and runs -/

/-- The uses of a machine that leave its flag to its calls. -/
inductive Use
  | call (c : Call)
  | memory (r : Memory.Request)

/-- A use as a request. -/
def Use.request : Use → Request
  | call c => .call c
  | memory r => .memory r

/-- A use of a machine with its answer. -/
structure Event where
  use : Use
  result : Except Fault Reply

/-- What an event tells about overflow: something only when an addition completed. -/
def Event.overflow? : Event → Option Bool
  | ⟨.call c, .ok _⟩ => c.carries?
  | _ => none

/-- Using a machine again and again: the events in order, and the machine after them. -/
def run (logger : Logger) : List Use → Machine → List Event × Machine
  | [], m => ([], m)
  | u :: uses, m =>
      let report := m.answer logger u.request
      let rest := run logger uses report.machine
      (⟨u, report.result⟩ :: rest.1, rest.2)

variable (logger : Logger)

/-! ### One use -/

/-- A call answers what executing it on the memory does, and leaves the memory that this leaves. -/
theorem call_execute (m : Machine) (c : Call) :
    match c.execute m.memory with
    | .ok o memory =>
        (m.call logger c).result = .ok o.value ∧ (m.call logger c).machine.memory = memory
    | .error f memory =>
        (m.call logger c).result = .error f ∧ (m.call logger c).machine.memory = memory := by
  unfold call
  cases c.execute m.memory with
  | ok o memory => exact ⟨rfl, rfl⟩
  | error f memory => exact ⟨rfl, rfl⟩

theorem answer_call (m : Machine) (c : Call) :
    let report := m.answer logger (.call c)
    report.machine.overflow = (Event.overflow? ⟨.call c, report.result⟩).getD m.overflow ∧
      report.machine.settings = m.settings ∧
      report.machine.memory.size = m.memory.size := by
  have hkeeps := (Memory.simulation_sameSize m.memory.size).execute c
  simp only [answer, call]
  cases h : c.execute m.memory with
  | ok o memory =>
      -- the flag is set from the outcome, and stays when the outcome has none
      have hflag := Call.execute_overflow h
      exact ⟨congrArg (Option.getD · m.overflow) hflag, rfl, Memory.size_of_ok hkeeps h⟩
  | error f memory => exact ⟨rfl, rfl, Memory.size_of_error hkeeps h⟩

theorem answer_memory (m : Machine) (r : Memory.Request) :
    let report := m.answer logger (.memory r)
    report.machine.overflow = m.overflow ∧ report.machine.settings = m.settings ∧
      report.machine.memory.size = m.memory.size := by
  have hkeeps := Memory.agree_answer_sameSize m.memory.size r
  simp only [answer]
  cases h : Memory.answer r m.memory with
  | ok reply memory => exact ⟨rfl, rfl, Memory.size_of_ok hkeeps h⟩
  | error f memory => exact ⟨rfl, rfl, Memory.size_of_error hkeeps h⟩

/-- **What one use does**: the flag becomes what the event tells about overflow, and stays when it
tells nothing; the settings and the size of the memory stay. -/
theorem answer_use (m : Machine) (u : Use) :
    let report := m.answer logger u.request
    report.machine.overflow = (Event.overflow? ⟨u, report.result⟩).getD m.overflow ∧
      report.machine.settings = m.settings ∧
      report.machine.memory.size = m.memory.size := by
  cases u with
  | call c => exact answer_call logger m c
  | memory r => exact answer_memory logger m r

/-! ### Runs -/

/-- What a run does to a machine, whatever its flag was before. -/
theorem run_spec (uses : List Use) (m : Machine) :
    (run logger uses m).2.overflow =
        (((run logger uses m).1.reverse.findSome? Event.overflow?).getD m.overflow) ∧
      (run logger uses m).2.settings = m.settings ∧
      (run logger uses m).2.memory.size = m.memory.size := by
  induction uses generalizing m with
  | nil => exact ⟨rfl, rfl, rfl⟩
  | cons u uses ih =>
      obtain ⟨hflag, hsettings, hsize⟩ := answer_use logger m u
      obtain ⟨ihflag, ihsettings, ihsize⟩ := ih (m.answer logger u.request).machine
      refine ⟨?_, ihsettings.trans hsettings, ihsize.trans hsize⟩
      -- the first event counts only when no later one tells anything
      simp only [run]
      rw [ihflag, hflag, List.reverse_cons, List.findSome?_append, List.findSome?_singleton]
      cases (run logger uses (m.answer logger u.request).machine).1.reverse.findSome?
        Event.overflow? <;> rfl

/-- **What every run does**, from a machine as it is built: the flag tells whether the last addition
that completed had an exact sum too large for its width, and is off when none did; the settings and
the size of the memory are what they were; and a call at this point answers what executing it on the
memory does, and leaves the memory that this leaves. -/
theorem run_from_start (logger : Logger) (memory : Memory) (settings : Settings)
    (uses : List Use) :
    let after := run logger uses { memory, settings }
    after.2.overflow = (after.1.reverse.findSome? Event.overflow?).getD false ∧
      after.2.settings = settings ∧ after.2.memory.size = memory.size ∧
      ∀ c : Call,
        match c.execute after.2.memory with
        | .ok o memory' =>
            (after.2.call logger c).result = .ok o.value ∧
              (after.2.call logger c).machine.memory = memory'
        | .error f memory' =>
            (after.2.call logger c).result = .error f ∧
              (after.2.call logger c).machine.memory = memory' := by
  intro after
  obtain ⟨hflag, hsettings, hsize⟩ := run_spec logger uses { memory, settings }
  exact ⟨hflag, hsettings, hsize, call_execute logger after.2⟩

end Machine

end WordMachine
