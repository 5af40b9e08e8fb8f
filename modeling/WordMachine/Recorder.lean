/-
**Recorded accesses.**

A recorder stands in front of another memory space and keeps a list of the accesses made through it,
the failed ones included.  It can be told to let one access fail, chosen by its number in the list:
that access reaches the list, but not the space behind.

Main definitions:

* `WordMachine.Access` — an access with its operands;
* `WordMachine.Recorder` — a memory space with the list of the accesses made to it;
* `WordMachine.Recorder.pass` — an access that goes through a recorder;
* the instance of `WordMachine.MemorySpace`.
-/

import WordMachine.MemorySpace

set_option relaxedAutoImplicit false
set_option autoImplicit false

namespace WordMachine

/-- An access to a memory space, with its operands. -/
inductive Access
  | store (w : Width) (a : Address) (v : w.Word)
  | load (w : Width) (a : Address)
  | fillZero (a : Address) (n : ByteCount)
deriving DecidableEq

/-- The failure of the access with a certain number, counted from zero. -/
structure PlannedFailure where
  index : Nat
  fault : Fault

/-- A memory space, with the accesses that were made to it and the one that is to fail. -/
structure Recorder (σ : Type) where
  inner : σ
  accesses : List Access := []
  failure : Option PlannedFailure := none

namespace Recorder

variable {σ α : Type}

/-- The fault planned for the next access. -/
def nextFault? (r : Recorder σ) : Option Fault :=
  match r.failure with
  | some p => if p.index = r.accesses.length then some p.fault else none
  | none => none

/-- The recorder after an access was entered in its list. -/
def enter (r : Recorder σ) (access : Access) : Recorder σ :=
  { r with accesses := r.accesses ++ [access] }

/-- An access that goes through a recorder: it is entered in the list, then it fails if that was
planned, and otherwise it is made to the space behind. -/
def pass (access : Access) (action : MemoryM σ α) : MemoryM (Recorder σ) α := fun r =>
  match r.nextFault? with
  | some f => .error f (r.enter access)
  | none =>
      match action r.inner with
      | .ok v s => .ok v { r.enter access with inner := s }
      | .error f s => .error f { r.enter access with inner := s }

/-- A recorder in front of a memory space is a memory space. -/
instance [MemorySpace σ] : MemorySpace (Recorder σ) where
  store w a v := pass (.store w a v) (MemorySpace.store w a v)
  load w a := pass (.load w a) (MemorySpace.load w a)
  fillZero a n := pass (.fillZero a n) (MemorySpace.fillZero a n)

end Recorder

end WordMachine
