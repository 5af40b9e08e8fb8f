/-
**Operations on memory spaces.**

Everything that can be done on a memory space, as data: the accesses, the steps that intrinsics are
made of, the intrinsics themselves, wide addition and calls.  Running an operation answers it, or
ends with the fault that stopped it.

Main definitions:

* `WordMachine.Operation` — what can be done on a memory space;
* `WordMachine.Reply` — the answers;
* `WordMachine.Operation.run` — the answer to an operation, on any memory space.
-/

import WordMachine.WideSum

set_option relaxedAutoImplicit false
set_option autoImplicit false

namespace WordMachine

/-- What can be done on a memory space. -/
inductive Operation
  | store (w : Width) (a : Address) (v : w.Word)
  | load (w : Width) (a : Address)
  | storeBool (a : Address) (flag : Bool)
  | loadBool (a : Address)
  | storeInt (a : Address) (w : Width) (v : UInt64)
  | loadInt (a : Address) (w : Width)
  | fillZero (a : Address) (n : ByteCount)
  | zeroFill (a : Address) (n : ByteCount)
  | storePair (w : Width) (s : CheckedSum) (target : Address) (flagOffset : UInt64)
  | storeCarry (w : Width) (s : CheckedSum) (carryOut : Address)
  | addPair (w : Width) (left right : UInt64) (target : Address) (flagOffset : UInt64)
  | addPairWord (w : Width) (left right : w.Word) (target : Address) (flagOffset : UInt64)
  | addCarry (w : Width) (left right carryIn : UInt64) (carryOut : Address)
  | addCarryWord (w : Width) (left right carryIn : w.Word) (carryOut : Address)
  | addWide (w : Width) (left right : List UInt64) (cell : Address)
  | add128 (left right : BitVec 128) (cell : Address)
  | execute (c : Call)

/-- The answer to an operation. -/
inductive Reply
  | done
  | flag (b : Bool)
  | number (n : UInt64)
  | bytes (bs : List UInt8)
  | value (v : Value)
  | outcome (o : Outcome)
  | wide (s : WideSum)
  | wide128 (s : Sum128)
deriving DecidableEq

namespace Operation

variable {σ : Type} [MemorySpace σ]

/-- Running an operation on a memory space. -/
def run : Operation → MemoryM σ Reply
  | store w a v => do
      MemorySpace.store w a v
      return .done
  | load w a => do
      let v ← MemorySpace.load w a
      return .number (w.zeroExtend v)
  | storeBool a flag => do
      WordMachine.storeBool a flag
      return .done
  | loadBool a => do
      let flag ← WordMachine.loadBool a
      return .flag flag
  | storeInt a w v => do
      WordMachine.storeInt a w v
      return .done
  | loadInt a w => do
      let v ← WordMachine.loadInt a w
      return .number v
  | fillZero a n => do
      MemorySpace.fillZero a n
      return .done
  | zeroFill a n => do
      let start ← WordMachine.zeroFill a n
      return .number start.value
  | storePair w s target flagOffset => do
      WordMachine.storePair w s target flagOffset
      return .done
  | storeCarry w s carryOut => do
      WordMachine.storeCarry w s carryOut
      return .done
  | addPair w left right target flagOffset => do
      let place ← WordMachine.addPair w left right target flagOffset
      return .number place.value
  | addPairWord w left right target flagOffset => do
      let place ← WordMachine.addPairWord w left right target flagOffset
      return .number place.value
  | addCarry w left right carryIn carryOut => do
      let sum ← WordMachine.addCarry w left right carryIn carryOut
      return .number sum
  | addCarryWord w left right carryIn carryOut => do
      let sum ← WordMachine.addCarryWord w left right carryIn carryOut
      return .number (w.zeroExtend sum)
  | addWide w left right cell => do
      let sum ← WordMachine.addWide w left right cell
      return .wide sum
  | add128 left right cell => do
      let sum ← WordMachine.add128 left right cell
      return .wide128 sum
  | execute c => do
      let outcome ← c.execute
      return .outcome outcome

end Operation

end WordMachine
