/-
**The accesses of a call.**

A call reaches its memory space in few ways: a pair addition stores its sum and then its overflow
flag, a carry addition stores its carry-out, and the clearing of a region is one access.  No call
loads anything, and one whose arguments are not those of its intrinsic makes no access at all.  This
module writes these accesses down in exact numbers, as the plan of a call, and proves that on every
memory space, whatever it answers and wherever it fails, a call does what its plan says.

Main definitions:

* `WordMachine.Call.Plan` — the accesses of a call, and what it produces when none of them fails;
* `WordMachine.Call.plan?` — the plan of a call whose arguments are those of its intrinsic.

Main results:

* `WordMachine.Call.execute_of_plan`, `WordMachine.Call.execute_of_no_plan` — executing a call is
  carrying out its plan, and fails when there is none;
* `WordMachine.Call.execute_accesses` — **the accesses of a call**, and the fault of the first that
  fails, as seen by a recorder in front of the space.
-/

import WordMachine.Memory.Basic
import WordMachine.Proofs.Accesses
import WordMachine.Proofs.ExactSum

set_option relaxedAutoImplicit false
set_option autoImplicit false

namespace WordMachine

/-! ### Plans -/

/-- The accesses of a call in order, and what it produces when all of them succeed. -/
structure Call.Plan where
  accesses : List Access
  outcome : Outcome

/-- The plan of a call, when its arguments are those of its intrinsic.  All sums are exact: the word
of the sum keeps its low bits, and a carry is a sum that does not fit in the width. -/
def Call.plan? (c : Call) : Option Call.Plan :=
  match c.intrinsic, c.args with
  | .addPair w flagOffset, .pair left right target =>
      let carries := 2 ^ w.bits ≤ w.exactSum [left, right]
      some
        { accesses :=
            [.store w target (BitVec.ofNat w.bits (left.toNat + right.toNat)),
              .store .w8 ⟨.ofNat (target.value.toNat + flagOffset.toNat)⟩
                (if carries then 1 else 0)]
          outcome := ⟨.address target, some (decide carries)⟩ }
  | .addCarry w, .chain left right carryIn carryOut =>
      let total := w.exactSum [left, right, carryIn]
      some
        { accesses := [.store w carryOut (if 2 ^ w.bits ≤ total then 1 else 0)]
          outcome := ⟨.int (.ofNat (total % 2 ^ w.bits)), some (decide (2 ^ w.bits ≤ total))⟩ }
  | .zeroFill length, .region address =>
      some { accesses := [.fillZero address length], outcome := ⟨.address address, none⟩ }
  | _, _ => none

/-- No plan has a load in it. -/
theorem Call.load_notMem_plan {c : Call} {p : Call.Plan} (h : c.plan? = some p) (w : Width)
    (a : Address) : .load w a ∉ p.accesses := by
  obtain ⟨i, args⟩ := c
  cases i <;> cases args <;> cases h <;> simp

/-! ### Carrying out a plan -/

/-- The word of a sum holds the low bits of the sum of the operands, not cut down before. -/
theorem word_add_value (w : Width) (l r : UInt64) :
    w.word (w.truncate (w.add l r).value) = BitVec.ofNat w.bits (l.toNat + r.toNat) := by
  apply BitVec.eq_of_toNat_eq
  rw [Width.word_truncate, Width.toNat_word, Width.toNat_add_value, BitVec.toNat_ofNat, Nat.mod_mod,
    ← Nat.add_mod]

section Execute

variable {σ : Type} [MemorySpace σ] {c : Call}

/-- Executing a call makes the accesses of its plan in order, and then produces its outcome. -/
theorem Call.execute_of_plan {p : Call.Plan} (h : c.plan? = some p) :
    (c.execute : MemoryM σ Outcome) = (fun _ => p.outcome) <$> makeAll p.accesses := by
  obtain ⟨i, args⟩ := c
  cases i with
  | addPair w flagOffset =>
      cases args with
      | pair left right target =>
          cases h
          -- the sum is stored first, and the flag one byte wide
          simp only [execute, storePair, storeInt, storeBool, word_add_value]
          simp only [Width.add_eq, Width.checked, Address.advance_eq_ofNat]
          simp [makeAll, Access.make]
      | chain => cases h
      | region => cases h
  | addCarry w =>
      cases args with
      | pair => cases h
      | chain left right carryIn carryOut =>
          cases h
          simp only [execute, storeCarry, storeInt, Width.word_flag]
          simp only [Width.addWithCarry_eq, Width.checked]
          simp [makeAll, Access.make]
      | region => cases h
  | zeroFill length =>
      cases args with
      | pair => cases h
      | chain => cases h
      | region a =>
          cases h
          simp [execute, zeroFill, makeAll, Access.make]

/-- A call without a plan fails at once, with the fault that names its intrinsic. -/
theorem Call.execute_of_no_plan (h : c.plan? = none) :
    (c.execute : MemoryM σ Outcome) = throw (.argumentMismatch c.intrinsic) := by
  obtain ⟨i, args⟩ := c
  cases i with
  | addPair w flagOffset =>
      cases args with
      | pair => cases h
      | chain => rfl
      | region => rfl
  | addCarry w =>
      cases args with
      | pair => rfl
      | chain => cases h
      | region => rfl
  | zeroFill length =>
      cases args with
      | pair => rfl
      | chain => rfl
      | region => cases h

end Execute

/-! ### The accesses of a call -/

variable {σ : Type} [MemorySpace σ]

/-- A call with a plan ends as making the accesses of the plan does, and makes those accesses: all
of them, or those up to the first that fails. -/
theorem Call.execute_spec {c : Call} {p : Call.Plan} (hplan : c.plan? = some p) (s : σ) :
    match makeAll p.accesses s with
    | .ok _ s' => c.execute s = .ok p.outcome s' ∧ accessesFrom s c.execute = p.accesses
    | .error f s' =>
        c.execute s = .error f s' ∧
          ∃ made last, accessesFrom s c.execute = made ++ [last] ∧ made ++ [last] <+: p.accesses ∧
            ∃ loaded s₁, makeAll made s = .ok loaded s₁ ∧ last.make s₁ = .error f s' := by
  have hseen := accessesFrom_makeAll p.accesses s
  rw [execute_of_plan hplan, execute_of_plan hplan, accessesFrom_map]
  cases hmake : makeAll p.accesses s with
  | ok patterns s' =>
      rw [hmake] at hseen
      exact ⟨map_of_ok hmake _, hseen⟩
  | error f s' =>
      rw [hmake] at hseen
      exact ⟨map_of_error hmake _, hseen⟩

/-- A call that produces something produces the outcome of its plan, and has made all the accesses
of the plan. -/
theorem Call.plan_of_ok {c : Call} {s s' : σ} {o : Outcome} (h : c.execute s = .ok o s') :
    ∃ p, c.plan? = some p ∧ o = p.outcome ∧ accessesFrom s c.execute = p.accesses := by
  cases hplan : c.plan? with
  | none =>
      rw [execute_of_no_plan hplan] at h
      cases h
  | some p =>
      have hspec := execute_spec hplan s
      cases hmake : makeAll p.accesses s with
      | ok patterns s₁ =>
          rw [hmake] at hspec
          obtain ⟨hrun, hseen⟩ := hspec
          rw [h] at hrun
          cases hrun
          exact ⟨p, rfl, rfl, hseen⟩
      | error f s₁ =>
          rw [hmake] at hspec
          obtain ⟨hrun, -⟩ := hspec
          rw [h] at hrun
          cases hrun

/-- **The accesses of a call**, on every memory space and from every state of it.  A call with
arguments of another kind makes none, fails with a mismatch and leaves the space as it was.  Every
other call makes the accesses of its plan, among which there is no load.  When they all succeed, it
ends with the outcome of the plan and the space that they leave; otherwise it makes those before the
first that fails, and that one, and ends with its fault and the space that it leaves. -/
theorem Call.execute_accesses (c : Call) (s : σ) :
    match c.plan? with
    | none => c.execute s = .error (.argumentMismatch c.intrinsic) s ∧ accessesFrom s c.execute = []
    | some p =>
        (∀ w a, .load w a ∉ p.accesses) ∧
        match c.execute s with
        | .ok o s' =>
            o = p.outcome ∧ accessesFrom s c.execute = p.accesses ∧
              makeAll p.accesses s = .ok [] s'
        | .error f s' =>
            makeAll p.accesses s = .error f s' ∧
            ∃ made last, accessesFrom s c.execute = made ++ [last] ∧
              made ++ [last] <+: p.accesses ∧
              ∃ s₁, makeAll made s = .ok [] s₁ ∧ last.make s₁ = .error f s' := by
  cases hplan : c.plan? with
  | none =>
      rw [execute_of_no_plan hplan, execute_of_no_plan hplan]
      exact ⟨rfl, rfl⟩
  | some p =>
      have hloads := load_notMem_plan hplan
      refine ⟨hloads, ?_⟩
      have hspec := execute_spec hplan s
      cases hmake : makeAll p.accesses s with
      | ok patterns s' =>
          rw [hmake] at hspec
          obtain ⟨hrun, hseen⟩ := hspec
          rw [hrun]
          exact ⟨rfl, hseen, by rw [patterns_eq_nil hloads hmake]⟩
      | error f s' =>
          rw [hmake] at hspec
          obtain ⟨hrun, made, last, hlist, hinit, loaded, s₁, hmade, hlast⟩ := hspec
          rw [hrun]
          -- what was made before the failure is part of the plan, and so loads nothing
          have hnone : ∀ w a, .load w a ∉ made := fun w a hmem =>
            hloads w a (hinit.subset (List.mem_append_left _ hmem))
          refine ⟨rfl, made, last, hlist, hinit, s₁, ?_, hlast⟩
          rw [hmade, patterns_eq_nil hnone hmade]

-- a memory of one byte takes the sum, and then fails to store the flag
example : accessesFrom (Memory.zeroed ⟨1⟩) (Call.execute ⟨.addPair .w8 1, .pair 200 100 ⟨0⟩⟩) =
    [.store .w8 ⟨0⟩ 44, .store .w8 ⟨1⟩ 1] := by
  decide

end WordMachine
