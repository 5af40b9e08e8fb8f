/-
**The forms of an addition agree.**

An addition can be run in three ways: as a call that is executed, as the addition itself on 64-bit
patterns, and as the addition of words of a width.  The call does not go through the other two, and
the words pass through patterns and back on their way.  This module proves that on every memory
space the three make the same accesses, end in the same state, and fail with the same fault or
produce the same sum.

Main results:

* `WordMachine.execute_addPair`, `WordMachine.execute_addCarry` — calls as additions;
* `WordMachine.addPairWord_word`, `WordMachine.addCarryWord_word` — additions of words as additions
  of the patterns that fit in the width;
* `WordMachine.addition_forms_agree` — **the forms of an addition agree**, in accesses, state,
  fault and value.
-/

import WordMachine.Memory.Basic
import WordMachine.Proofs.CallAccesses

set_option relaxedAutoImplicit false
set_option autoImplicit false

namespace WordMachine

variable {σ : Type} [MemorySpace σ]

/-! ### Calls as additions -/

/-- Executing the call of a pair addition is the addition, with the overflow beside its value. -/
theorem execute_addPair (w : Width) (left right : UInt64) (target : Address) (flagOffset : UInt64) :
    (Call.execute ⟨.addPair w flagOffset, .pair left right target⟩ : MemoryM σ Outcome) =
      (fun a => ⟨.address a, some (w.add left right).overflow⟩) <$>
        addPair w left right target flagOffset := by
  simp [Call.execute, addPair]

/-- Executing the call of a carry addition is the addition, with the overflow beside its sum. -/
theorem execute_addCarry (w : Width) (left right carryIn : UInt64) (carryOut : Address) :
    (Call.execute ⟨.addCarry w, .chain left right carryIn carryOut⟩ : MemoryM σ Outcome) =
      (fun sum => ⟨.int sum, some (w.addWithCarry left right carryIn).overflow⟩) <$>
        addCarry w left right carryIn carryOut := by
  simp [Call.execute, addCarry]

/-! ### Additions that succeed -/

section Success

variable {w : Width} {left right carryIn flagOffset : UInt64} {target carryOut : Address} {s s' : σ}

/-- A pair addition that succeeds gives its target, and has stored its sum and its overflow. -/
theorem addPair_spec {a : Address} (h : addPair w left right target flagOffset s = .ok a s') :
    a = target ∧ accessesFrom s (addPair w left right target flagOffset) =
      [.store w target (w.word (w.add left right).value),
        .store .w8 (target.advance flagOffset) (if (w.add left right).overflow then 1 else 0)] := by
  have hcall := map_of_ok h fun a => (⟨.address a, some (w.add left right).overflow⟩ : Outcome)
  rw [← execute_addPair] at hcall
  obtain ⟨p, hplan, houtcome, hseen⟩ := Call.plan_of_ok hcall
  cases hplan
  rw [execute_addPair, accessesFrom_map] at hseen
  constructor
  · exact Value.address.inj (congrArg Outcome.value houtcome)
  · rw [hseen, ← Width.word_truncate, word_add_value, Address.advance_eq_ofNat, Width.add_eq]
    simp [Width.checked]

/-- A carry addition that succeeds gives its sum, and has stored its overflow. -/
theorem addCarry_spec {sum : UInt64} (h : addCarry w left right carryIn carryOut s = .ok sum s') :
    sum = (w.addWithCarry left right carryIn).value ∧
      accessesFrom s (addCarry w left right carryIn carryOut) =
        [.store w carryOut (if (w.addWithCarry left right carryIn).overflow then 1 else 0)] := by
  have hcall := map_of_ok h fun sum =>
    (⟨.int sum, some (w.addWithCarry left right carryIn).overflow⟩ : Outcome)
  rw [← execute_addCarry] at hcall
  obtain ⟨p, hplan, houtcome, hseen⟩ := Call.plan_of_ok hcall
  cases hplan
  rw [execute_addCarry, accessesFrom_map] at hseen
  constructor
  · rw [Width.addWithCarry_eq]
    exact Value.int.inj (congrArg Outcome.value houtcome)
  · rw [hseen, Width.addWithCarry_eq]
    simp [Width.checked]

end Success

/-! ### Words as patterns -/

/-- The sum of a carry addition has no bits above the width. -/
theorem Width.fits_addWithCarry_value (w : Width) (left right carryIn : UInt64) :
    w.fits (w.addWithCarry left right carryIn).value := by
  rw [addWithCarry_eq]
  exact w.fits_checked_value _

theorem addPairWord_word {w : Width} {left right : UInt64} (hl : w.fits left) (hr : w.fits right)
    (target : Address) (flagOffset : UInt64) :
    (addPairWord w (w.word left) (w.word right) target flagOffset : MemoryM σ Address) =
      addPair w left right target flagOffset := by
  rw [addPairWord, Width.zeroExtend_word_of_fits hl, Width.zeroExtend_word_of_fits hr]

theorem addCarryWord_word {w : Width} {left right carryIn : UInt64} (hl : w.fits left)
    (hr : w.fits right) (hc : w.fits carryIn) (carryOut : Address) :
    (addCarryWord w (w.word left) (w.word right) (w.word carryIn) carryOut : MemoryM σ w.Word) =
      w.word <$> addCarry w left right carryIn carryOut := by
  rw [addCarryWord, Width.zeroExtend_word_of_fits hl, Width.zeroExtend_word_of_fits hr,
    Width.zeroExtend_word_of_fits hc, bind_pure_comp]

/-! ### The forms of an addition -/

/-- **The forms of an addition agree**, on every memory space and from every state of it.  Executing
the call of an addition makes the accesses of the addition and ends in its state, with its fault or
with its value, beside the overflow that was stored.  On operands that fit in the width, so does the
addition of their words, and nothing of the sum is lost in a word. -/
theorem addition_forms_agree (w : Width) (left right carryIn flagOffset : UInt64)
    (target carryOut : Address) (s : σ) :
    (let call : Call := ⟨.addPair w flagOffset, .pair left right target⟩
      let sum := w.add left right
      accessesFrom s call.execute = accessesFrom s (addPair w left right target flagOffset) ∧
      match addPair w left right target flagOffset s with
      | .ok a s' =>
          a = target ∧ call.execute s = .ok ⟨.address target, some sum.overflow⟩ s' ∧
            accessesFrom s call.execute =
              [.store w target (w.word sum.value),
                .store .w8 (target.advance flagOffset) (if sum.overflow then 1 else 0)]
      | .error f s' => call.execute s = .error f s') ∧
    (let call : Call := ⟨.addCarry w, .chain left right carryIn carryOut⟩
      let sum := w.addWithCarry left right carryIn
      accessesFrom s call.execute = accessesFrom s (addCarry w left right carryIn carryOut) ∧
      match addCarry w left right carryIn carryOut s with
      | .ok value s' =>
          value = sum.value ∧ call.execute s = .ok ⟨.int value, some sum.overflow⟩ s' ∧
            accessesFrom s call.execute = [.store w carryOut (if sum.overflow then 1 else 0)]
      | .error f s' => call.execute s = .error f s') ∧
    (w.fits left → w.fits right →
      (accessesFrom s (addPairWord w (w.word left) (w.word right) target flagOffset) =
          accessesFrom s (addPair w left right target flagOffset) ∧
        addPairWord w (w.word left) (w.word right) target flagOffset s =
          addPair w left right target flagOffset s) ∧
      (w.fits carryIn →
        accessesFrom s (addCarryWord w (w.word left) (w.word right) (w.word carryIn) carryOut) =
            accessesFrom s (addCarry w left right carryIn carryOut) ∧
        match addCarry w left right carryIn carryOut s with
        | .ok value s' =>
            ∃ v, addCarryWord w (w.word left) (w.word right) (w.word carryIn) carryOut s =
                .ok v s' ∧ w.zeroExtend v = value
        | .error f s' =>
            addCarryWord w (w.word left) (w.word right) (w.word carryIn) carryOut s =
              .error f s')) := by
  refine ⟨?_, ?_, fun hl hr => ⟨?_, fun hc => ?_⟩⟩
  · intro call sum
    rw [execute_addPair, execute_addPair, accessesFrom_map]
    refine ⟨rfl, ?_⟩
    cases h : addPair w left right target flagOffset s with
    | error f s' => exact map_of_error h _
    | ok a s' =>
        obtain ⟨rfl, hstored⟩ := addPair_spec h
        exact ⟨rfl, map_of_ok h _, hstored⟩
  · intro call sum
    rw [execute_addCarry, execute_addCarry, accessesFrom_map]
    refine ⟨rfl, ?_⟩
    cases h : addCarry w left right carryIn carryOut s with
    | error f s' => exact map_of_error h _
    | ok value s' =>
        obtain ⟨hvalue, hstored⟩ := addCarry_spec h
        exact ⟨hvalue, map_of_ok h _, hstored⟩
  · rw [addPairWord_word hl hr, addPairWord_word hl hr]
    exact ⟨rfl, rfl⟩
  · rw [addCarryWord_word hl hr hc, addCarryWord_word hl hr hc, accessesFrom_map]
    refine ⟨rfl, ?_⟩
    cases h : addCarry w left right carryIn carryOut s with
    | error f s' => exact map_of_error h _
    | ok value s' =>
        refine ⟨_, map_of_ok h _, ?_⟩
        rw [(addCarry_spec h).1, Width.zeroExtend_word_of_fits (w.fits_addWithCarry_value ..)]

/-- The forms of additions that overflow in eight bits, on a memory of four bytes. -/
theorem addition_forms_agree_bytes :
    let s := Memory.zeroed ⟨4⟩
    (Width.w8.fits 200 ∧ Width.w8.fits 100 ∧ Width.w8.fits 1) ∧
      addPairWord .w8 (Width.w8.word 200) (Width.w8.word 100) ⟨0⟩ 1 s =
        addPair .w8 200 100 ⟨0⟩ 1 s ∧
      ∃ v m, addCarryWord .w8 (Width.w8.word 200) (Width.w8.word 100) (Width.w8.word 1) ⟨2⟩ s =
        .ok v m ∧ Width.w8.zeroExtend v = 45 := by
  intro s
  have hfits : Width.w8.fits 200 ∧ Width.w8.fits 100 ∧ Width.w8.fits 1 := by decide
  obtain ⟨-, -, h⟩ := addition_forms_agree .w8 200 100 1 1 ⟨0⟩ ⟨2⟩ s
  obtain ⟨⟨-, hpair⟩, hcarry⟩ := h hfits.1 hfits.2.1
  obtain ⟨-, v, hv⟩ := hcarry hfits.2.2
  exact ⟨hfits, hpair, v, _, hv⟩

end WordMachine
