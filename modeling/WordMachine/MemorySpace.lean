/-
**Memory spaces.**

A memory space is whatever answers stores and loads at every width and can clear a region.  Each
access may fail with a fault, and may have changed the space before it fails: the state after a
failure is as much a part of the answer as the fault.  Code that runs on memory spaces uses only
these accesses, and what is derived from them here.

Main definitions:

* `WordMachine.MemoryM` — computations on a memory space, which may fail;
* `WordMachine.MemorySpace` — the accesses that a memory space answers;
* `WordMachine.storeInt`, `WordMachine.loadInt` — accesses to the low bits of a pattern;
* `WordMachine.storeBool`, `WordMachine.loadBool` — accesses to a flag.
-/

import WordMachine.Fault

set_option relaxedAutoImplicit false
set_option autoImplicit false

namespace WordMachine

/-- Computations on a space of type `σ`: they end with a value or with a fault, and with a space in
either case. -/
abbrev MemoryM (σ : Type) := EStateM Fault σ

section Sequence

variable {σ α β : Type} {x : MemoryM σ α} {s s' : σ}

/-- What follows a value starts from it, and from the space that the value left. -/
theorem bind_of_ok {v : α} (h : x s = .ok v s') (f : α → MemoryM σ β) : (x >>= f) s = f v s' := by
  change EStateM.bind x f s = _
  rw [EStateM.bind, h]

/-- Nothing follows a fault. -/
theorem bind_of_error {e : Fault} (h : x s = .error e s') (f : α → MemoryM σ β) :
    (x >>= f) s = .error e s' := by
  change EStateM.bind x f s = _
  rw [EStateM.bind, h]

/-- A function of a value leaves the space alone. -/
theorem map_of_ok {v : α} (h : x s = .ok v s') (f : α → β) : (f <$> x) s = .ok (f v) s' := by
  change EStateM.map f x s = _
  rw [EStateM.map, h]

/-- A fault is no value to take a function of. -/
theorem map_of_error {e : Fault} (h : x s = .error e s') (f : α → β) :
    (f <$> x) s = .error e s' := by
  change EStateM.map f x s = _
  rw [EStateM.map, h]

/-- What is made of the value of a computation leaves its condition and its fault alone. -/
theorem bind_pure_of_ite {P : Prop} [Decidable P] {v : α} {e : Fault}
    (h : x s = if P then .ok v s' else .error e s) (f : α → β) :
    (x >>= fun v => pure (f v)) s = if P then .ok (f v) s' else .error e s := by
  by_cases hP : P
  · rw [if_pos hP] at h ⊢
    exact bind_of_ok h _
  · rw [if_neg hP] at h ⊢
    exact bind_of_error h _

/-- A computation that was followed by a value had one itself. -/
theorem bind_eq_ok {f : α → MemoryM σ β} {b : β} (h : (x >>= f) s = .ok b s') :
    ∃ a s₁, x s = .ok a s₁ ∧ f a s₁ = .ok b s' := by
  cases hx : x s with
  | ok a s₁ => exact ⟨a, s₁, rfl, by rwa [bind_of_ok hx] at h⟩
  | error e s₁ => rw [bind_of_error hx] at h; cases h

/-- A fault is that of the first computation, or of what follows its value. -/
theorem bind_eq_error {f : α → MemoryM σ β} {e : Fault} (h : (x >>= f) s = .error e s') :
    x s = .error e s' ∨ ∃ a s₁, x s = .ok a s₁ ∧ f a s₁ = .error e s' := by
  cases hx : x s with
  | ok a s₁ => exact .inr ⟨a, s₁, rfl, by rwa [bind_of_ok hx] at h⟩
  | error e' s₁ =>
      rw [bind_of_error hx] at h
      cases h
      exact .inl rfl

end Sequence

/-- The accesses that a memory space answers. -/
class MemorySpace (σ : Type) where
  /-- Writing a word at an address. -/
  store : (w : Width) → Address → w.Word → MemoryM σ Unit
  /-- Reading a word at an address. -/
  load : (w : Width) → Address → MemoryM σ w.Word
  /-- Clearing the bytes of a region. -/
  fillZero : Address → ByteCount → MemoryM σ Unit

section Derived

variable {σ : Type} [MemorySpace σ]

/-- Writing the low bits of a pattern, at a width. -/
def storeInt (a : Address) (w : Width) (v : UInt64) : MemoryM σ Unit :=
  MemorySpace.store w a (w.word (w.truncate v))

/-- Reading a word of some width as a pattern with zeros above it. -/
def loadInt (a : Address) (w : Width) : MemoryM σ UInt64 := do
  let v ← MemorySpace.load w a
  return w.zeroExtend v

/-- Writing a flag as one byte, zero or one. -/
def storeBool (a : Address) (flag : Bool) : MemoryM σ Unit :=
  MemorySpace.store .w8 a (if flag then 1 else 0)

/-- Reading a flag from one byte: any byte but zero is true. -/
def loadBool (a : Address) : MemoryM σ Bool := do
  let v ← MemorySpace.load .w8 a
  return v != 0

end Derived

end WordMachine
