/-
**Simulation between memory spaces.**

Code that runs on memory spaces reaches them through their three accesses alone.  So when two spaces
answer these accesses alike from related states, and end in related states again, they answer every
operation alike.  This module states that once, for any relation; comparing a memory with a record
of its past, or a recorder with the space behind it, is then a matter of three accesses.

Main definitions:

* `WordMachine.AgreeResult`, `WordMachine.Agree` — results, and computations, that are alike up to a
  relation between the states;
* `WordMachine.Simulation` — a relation under which the accesses of two spaces agree;
* `WordMachine.runAll` — a run, which faults do not stop.

Main results:

* `WordMachine.Agree.bind` — agreement is kept by doing one thing after another;
* `WordMachine.Simulation.addPairs` — the chain of a wide addition agrees, by induction on its limbs;
* `WordMachine.Simulation.run` — **every operation agrees**;
* `WordMachine.Agree.runAll` — runs of any length agree, by induction on their steps.
-/

import WordMachine.Operation

set_option relaxedAutoImplicit false
set_option autoImplicit false

namespace WordMachine

variable {σ τ α β : Type} {R : σ → τ → Prop}

/-! ### Agreement -/

/-- Results that are the same value, or the same fault, with related states. -/
inductive AgreeResult (R : σ → τ → Prop) :
    EStateM.Result Fault σ α → EStateM.Result Fault τ α → Prop
  | ok {v : α} {s : σ} {t : τ} (h : R s t) : AgreeResult R (.ok v s) (.ok v t)
  | error {f : Fault} {s : σ} {t : τ} (h : R s t) : AgreeResult R (.error f s) (.error f t)

/-- Computations with agreeing results from related states. -/
def Agree (R : σ → τ → Prop) (x : MemoryM σ α) (y : MemoryM τ α) : Prop :=
  ∀ ⦃s : σ⦄ ⦃t : τ⦄, R s t → AgreeResult R (x s) (y t)

namespace Agree

theorem pure (v : α) : Agree R (Pure.pure v) (Pure.pure v) :=
  fun _ _ h => .ok h

theorem throw (f : Fault) :
    Agree R (MonadExcept.throw f : MemoryM σ α) (MonadExcept.throw f : MemoryM τ α) :=
  fun _ _ h => .error h

/-- Agreement is kept by doing one thing after another. -/
theorem bind {x : MemoryM σ α} {y : MemoryM τ α} {f : α → MemoryM σ β} {g : α → MemoryM τ β}
    (hxy : Agree R x y) (hfg : ∀ v, Agree R (f v) (g v)) : Agree R (x >>= f) (y >>= g) := by
  intro s t h
  change AgreeResult R (EStateM.bind x f s) (EStateM.bind y g t)
  unfold EStateM.bind
  have hres := hxy h
  -- the second step runs only after a value, and then from related states
  generalize x s = p at hres ⊢
  generalize y t = q at hres ⊢
  cases hres with
  | ok hst => exact hfg _ hst
  | error hst => exact .error hst

end Agree

/-! ### Simulation -/

/-- A relation between the states of two memory spaces under which their accesses agree. -/
structure Simulation [MemorySpace σ] [MemorySpace τ] (R : σ → τ → Prop) : Prop where
  store (w : Width) (a : Address) (v : w.Word) :
    Agree R (MemorySpace.store w a v) (MemorySpace.store w a v)
  load (w : Width) (a : Address) :
    Agree R (MemorySpace.load w a : MemoryM σ w.Word) (MemorySpace.load w a : MemoryM τ w.Word)
  fillZero (a : Address) (n : ByteCount) :
    Agree R (MemorySpace.fillZero a n) (MemorySpace.fillZero a n)

namespace Simulation

variable [MemorySpace σ] [MemorySpace τ]

theorem storeInt (h : Simulation R) (a : Address) (w : Width) (v : UInt64) :
    Agree R (WordMachine.storeInt a w v) (WordMachine.storeInt a w v) :=
  h.store w a _

theorem loadInt (h : Simulation R) (a : Address) (w : Width) :
    Agree R (WordMachine.loadInt a w) (WordMachine.loadInt a w) :=
  (h.load w a).bind fun _ => .pure _

theorem storeBool (h : Simulation R) (a : Address) (flag : Bool) :
    Agree R (WordMachine.storeBool a flag) (WordMachine.storeBool a flag) :=
  h.store .w8 a _

theorem loadBool (h : Simulation R) (a : Address) :
    Agree R (WordMachine.loadBool a) (WordMachine.loadBool a) :=
  (h.load .w8 a).bind fun _ => .pure _

theorem zeroFill (h : Simulation R) (a : Address) (n : ByteCount) :
    Agree R (WordMachine.zeroFill a n) (WordMachine.zeroFill a n) :=
  (h.fillZero a n).bind fun _ => .pure _

theorem storePair (h : Simulation R) (w : Width) (s : CheckedSum) (target : Address)
    (flagOffset : UInt64) :
    Agree R (WordMachine.storePair w s target flagOffset)
      (WordMachine.storePair w s target flagOffset) :=
  (h.storeInt target w s.value).bind fun _ => h.storeBool _ s.overflow

theorem storeCarry (h : Simulation R) (w : Width) (s : CheckedSum) (carryOut : Address) :
    Agree R (WordMachine.storeCarry w s carryOut) (WordMachine.storeCarry w s carryOut) :=
  h.storeInt carryOut w _

theorem addPair (h : Simulation R) (w : Width) (left right : UInt64) (target : Address)
    (flagOffset : UInt64) :
    Agree R (WordMachine.addPair w left right target flagOffset)
      (WordMachine.addPair w left right target flagOffset) :=
  (h.storePair w _ target flagOffset).bind fun _ => .pure _

theorem addPairWord (h : Simulation R) (w : Width) (left right : w.Word) (target : Address)
    (flagOffset : UInt64) :
    Agree R (WordMachine.addPairWord w left right target flagOffset)
      (WordMachine.addPairWord w left right target flagOffset) :=
  h.addPair w _ _ target flagOffset

theorem addCarry (h : Simulation R) (w : Width) (left right carryIn : UInt64)
    (carryOut : Address) :
    Agree R (WordMachine.addCarry w left right carryIn carryOut)
      (WordMachine.addCarry w left right carryIn carryOut) :=
  (h.storeCarry w _ carryOut).bind fun _ => .pure _

theorem addCarryWord (h : Simulation R) (w : Width) (left right carryIn : w.Word)
    (carryOut : Address) :
    Agree R (WordMachine.addCarryWord w left right carryIn carryOut)
      (WordMachine.addCarryWord w left right carryIn carryOut) :=
  (h.addCarry w _ _ _ carryOut).bind fun _ => .pure _

/-- The chain of a wide addition agrees, whatever carry it starts from. -/
theorem addPairs (h : Simulation R) (w : Width) (cell : Address)
    (pairs : List (UInt64 × UInt64)) (carry : UInt64) :
    Agree R (WordMachine.addPairs w cell pairs carry) (WordMachine.addPairs w cell pairs carry) := by
  induction pairs generalizing carry with
  | nil => exact .pure _
  | cons p pairs ih =>
      obtain ⟨l, r⟩ := p
      refine (h.addCarry w l r carry cell).bind fun _ => ?_
      refine (h.loadInt cell w).bind fun next => ?_
      exact (ih next).bind fun _ => .pure _

theorem addWide (h : Simulation R) (w : Width) (left right : List UInt64) (cell : Address) :
    Agree R (WordMachine.addWide w left right cell) (WordMachine.addWide w left right cell) :=
  h.addPairs w cell _ 0

theorem add128 (h : Simulation R) (left right : BitVec 128) (cell : Address) :
    Agree R (WordMachine.add128 left right cell) (WordMachine.add128 left right cell) :=
  (h.addWide .w64 _ _ cell).bind fun _ => .pure _

theorem execute (h : Simulation R) (c : Call) : Agree R c.execute c.execute := by
  obtain ⟨i, args⟩ := c
  cases i with
  | addPair w flagOffset =>
      cases args with
      | pair left right target =>
          exact (h.storePair w _ target flagOffset).bind fun _ => .pure _
      | chain => exact .throw _
      | region => exact .throw _
  | addCarry w =>
      cases args with
      | pair => exact .throw _
      | chain left right carryIn carryOut =>
          exact (h.storeCarry w _ carryOut).bind fun _ => .pure _
      | region => exact .throw _
  | zeroFill length =>
      cases args with
      | pair => exact .throw _
      | chain => exact .throw _
      | region a => exact (h.zeroFill a length).bind fun _ => .pure _

/-- **Every operation agrees** on two memory spaces whose accesses do. -/
theorem run (h : Simulation R) (op : Operation) : Agree R op.run op.run := by
  cases op with
  | store w a v => exact (h.store w a v).bind fun _ => .pure _
  | load w a => exact (h.load w a).bind fun _ => .pure _
  | storeBool a flag => exact (h.storeBool a flag).bind fun _ => .pure _
  | loadBool a => exact (h.loadBool a).bind fun _ => .pure _
  | storeInt a w v => exact (h.storeInt a w v).bind fun _ => .pure _
  | loadInt a w => exact (h.loadInt a w).bind fun _ => .pure _
  | fillZero a n => exact (h.fillZero a n).bind fun _ => .pure _
  | zeroFill a n => exact (h.zeroFill a n).bind fun _ => .pure _
  | storePair w s target flagOffset =>
      exact (h.storePair w s target flagOffset).bind fun _ => .pure _
  | storeCarry w s carryOut => exact (h.storeCarry w s carryOut).bind fun _ => .pure _
  | addPair w left right target flagOffset =>
      exact (h.addPair w left right target flagOffset).bind fun _ => .pure _
  | addPairWord w left right target flagOffset =>
      exact (h.addPairWord w left right target flagOffset).bind fun _ => .pure _
  | addCarry w left right carryIn carryOut =>
      exact (h.addCarry w left right carryIn carryOut).bind fun _ => .pure _
  | addCarryWord w left right carryIn carryOut =>
      exact (h.addCarryWord w left right carryIn carryOut).bind fun _ => .pure _
  | addWide w left right cell => exact (h.addWide w left right cell).bind fun _ => .pure _
  | add128 left right cell => exact (h.add128 left right cell).bind fun _ => .pure _
  | execute c => exact (h.execute c).bind fun _ => .pure _

end Simulation

/-! ### Runs -/

/-- Doing things one after another, where a fault does not stop what comes after it: the answers,
and the state after the last of them. -/
def runAll {ρ : Type} (act : ρ → MemoryM σ α) : List ρ → σ → List (Except Fault α) × σ
  | [], s => ([], s)
  | q :: qs, s =>
      match act q s with
      | .ok v s' => (.ok v :: (runAll act qs s').1, (runAll act qs s').2)
      | .error f s' => (.error f :: (runAll act qs s').1, (runAll act qs s').2)

/-- **Runs agree** when each of their steps does. -/
theorem Agree.runAll {ρ : Type} {act : ρ → MemoryM σ α} {act' : ρ → MemoryM τ α}
    (hstep : ∀ q, Agree R (act q) (act' q)) (qs : List ρ) {s : σ} {t : τ} (h : R s t) :
    (WordMachine.runAll act qs s).1 = (WordMachine.runAll act' qs t).1 ∧
      R (WordMachine.runAll act qs s).2 (WordMachine.runAll act' qs t).2 := by
  induction qs generalizing s t with
  | nil => exact ⟨rfl, h⟩
  | cons q qs ih =>
      have hres := hstep q h
      simp only [WordMachine.runAll]
      generalize act q s = x at hres ⊢
      generalize act' q t = y at hres ⊢
      cases hres with
      | ok hst => exact ⟨congrArg _ (ih hst).1, (ih hst).2⟩
      | error hst => exact ⟨congrArg _ (ih hst).1, (ih hst).2⟩

end WordMachine
