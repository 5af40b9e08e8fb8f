/-
**What a call does to a flat memory.**

A call carries out its plan, and on a flat memory a plan is a patch and perhaps a fault.  Both are
known before the call is run: they depend on the call and on the size of the memory, and not on a
single byte that the memory holds.  The fault depends on even less, the regions that the plan
reaches, and so not on the operands.

Main definitions:

* `WordMachine.Call.answer`, `WordMachine.Call.written` — what a call answers on a memory of some
  size, and the bytes that it puts in place there;
* `WordMachine.Call.SamePlace` — calls that differ only in their operands.

Main results:

* `WordMachine.Call.execute_memory` — **a call on a flat memory** gives its answer, and leaves the
  memory with its bytes put in place, when it fails half-way as well;
* `WordMachine.Call.SamePlace.answer_eq_error_iff` — calls at the same place fail alike.
-/

import WordMachine.Proofs.OperandBits
import WordMachine.Proofs.Patch

set_option relaxedAutoImplicit false
set_option autoImplicit false

namespace WordMachine.Call

/-! ### Answers and bytes -/

/-- What a call answers on a memory of the given size. -/
def answer (c : Call) (size : ByteCount) : Except Fault Outcome :=
  match c.plan? with
  | none => .error (.argumentMismatch c.intrinsic)
  | some p =>
      match faultOf? size p.accesses with
      | none => .ok p.outcome
      | some f => .error f

/-- The bytes that a call puts in place on a memory of the given size.  A call that fails half-way
puts those in place that it wrote before. -/
def written (c : Call) (size : ByteCount) : Patch :=
  match c.plan? with
  | none => .empty
  | some p => patchOf size p.accesses

theorem answer_of_no_plan {c : Call} (h : c.plan? = none) (size : ByteCount) :
    c.answer size = .error (.argumentMismatch c.intrinsic) := by
  rw [answer, h]

theorem written_of_no_plan {c : Call} (h : c.plan? = none) (size : ByteCount) :
    c.written size = .empty := by
  rw [written, h]

theorem written_of_plan {c : Call} {p : Plan} (h : c.plan? = some p) (size : ByteCount) :
    c.written size = patchOf size p.accesses := by
  rw [written, h]

/-- A call with a plan fails with the fault of its accesses, if they have one. -/
theorem answer_of_plan {c : Call} {p : Plan} (h : c.plan? = some p) (size : ByteCount) :
    c.answer size =
      match faultOf? size p.accesses with
      | none => .ok p.outcome
      | some f => .error f := by
  rw [answer, h]

/-- **A call on a flat memory** gives its answer, and leaves the memory with its bytes put in
place. -/
theorem execute_memory (c : Call) (m : Memory) :
    c.execute m =
      match c.answer m.size with
      | .ok o => .ok o (m.patch (c.written m.size))
      | .error f => .error f (m.patch (c.written m.size)) := by
  cases hplan : c.plan? with
  | none =>
      rw [execute_of_no_plan hplan, answer_of_no_plan hplan, written_of_no_plan hplan,
        Memory.patch_empty]
      rfl
  | some p =>
      have hmake := makeAll_memory p.accesses m
      rw [execute_of_plan hplan, answer_of_plan hplan, written_of_plan hplan]
      cases hfault : faultOf? m.size p.accesses with
      | none =>
          rw [hfault] at hmake
          obtain ⟨loaded, hmake⟩ := hmake
          exact map_of_ok hmake _
      | some f =>
          rw [hfault] at hmake
          exact map_of_error hmake _

/-! ### Calls at the same place -/

/-- Calls of one intrinsic, with arguments of one kind and the same address.  As no width is given
at which operands have to agree, these may be any. -/
structure SamePlace (c c' : Call) : Prop where
  intrinsic_eq : c.intrinsic = c'.intrinsic
  args : Args.Congruent none c.args c'.args

namespace SamePlace

variable {c c' : Call}

/-- Calls at the same place have plans that reach the same regions, or none. -/
theorem plans (h : c.SamePlace c') :
    (c.plan? = none ∧ c'.plan? = none) ∨
      ∃ p p', c.plan? = some p ∧ c'.plan? = some p' ∧
        p.accesses.map Access.extent = p'.accesses.map Access.extent := by
  obtain ⟨i, args⟩ := c
  obtain ⟨i', args'⟩ := c'
  obtain ⟨rfl, hargs⟩ := h
  cases i with
  | addPair w flagOffset =>
      cases hargs with
      | pair target => exact .inr ⟨_, _, rfl, rfl, rfl⟩
      | chain => exact .inl ⟨rfl, rfl⟩
      | region => exact .inl ⟨rfl, rfl⟩
  | addCarry w =>
      cases hargs with
      | pair => exact .inl ⟨rfl, rfl⟩
      | chain carryOut => exact .inr ⟨_, _, rfl, rfl, rfl⟩
      | region => exact .inl ⟨rfl, rfl⟩
  | zeroFill length =>
      cases hargs with
      | pair => exact .inl ⟨rfl, rfl⟩
      | chain => exact .inl ⟨rfl, rfl⟩
      | region address => exact .inr ⟨_, _, rfl, rfl, rfl⟩

/-- Calls at the same place fail alike, whatever their operands are. -/
theorem answer_eq_error_iff (h : c.SamePlace c') (size : ByteCount) (f : Fault) :
    c.answer size = .error f ↔ c'.answer size = .error f := by
  rcases h.plans with ⟨hplan, hplan'⟩ | ⟨p, p', hplan, hplan', hextents⟩
  · rw [answer_of_no_plan hplan, answer_of_no_plan hplan', h.intrinsic_eq]
  · have hfault : faultOf? size p.accesses = faultOf? size p'.accesses := by
      rw [faultOf?, faultOf?, hextents]
    rw [answer_of_plan hplan, answer_of_plan hplan', hfault]
    cases faultOf? size p'.accesses <;> simp

end SamePlace

end WordMachine.Call
