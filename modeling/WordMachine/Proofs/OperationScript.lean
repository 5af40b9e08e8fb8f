/-
**The script of an operation.**

On a space that gives back what was stored, what an operation does is known before it runs.  Its
script says it in exact numbers and without running anything: which words it stores where, which
places it loads and which regions it clears, in order, and how it is answered when none of these
accesses fails.  An operation that is cut short by a fault has then made the accesses of its script
up to the one that failed, and no others.

Main definitions:

* `WordMachine.Script` — accesses in order, and the answer to the patterns that they load;
* `WordMachine.Operation.script` — the script of an operation, or the fault that it ends with at
  once;
* `WordMachine.Operation.follow` — carrying out the script of an operation.

Main results:

* `WordMachine.Operation.run_eq_follow` — **an operation does what its script says**, on every space
  that gives back what was stored;
* `WordMachine.Operation.accessesFrom_run` — **the accesses of an operation are those of its
  script**, up to the first that fails, as seen by a recorder in front of the space;
* `WordMachine.Simulation.follow` — scripts agree on two spaces whose accesses do.
-/

import WordMachine.Proofs.CallAccesses
import WordMachine.Proofs.CellChain
import WordMachine.Proofs.Sum128

set_option relaxedAutoImplicit false
set_option autoImplicit false

namespace WordMachine

/-! ### Scripts -/

/-- Accesses in order, and the answer to the patterns that they load. -/
structure Script where
  accesses : List Access
  answer : List UInt64 → Reply

/-- A script whose answer does not depend on what is loaded. -/
def Script.fixed (accesses : List Access) (r : Reply) : Script := ⟨accesses, fun _ => r⟩

/-- The accesses that put a sum in its place: the sum at a target, and then its overflow, one byte
wide, at an offset from there.  The offset may wrap round. -/
def pairAccesses (w : Width) (s : CheckedSum) (target : Address) (flagOffset : UInt64) :
    List Access :=
  [.store w target (BitVec.ofNat w.bits s.value.toNat),
    .store .w8 ⟨.ofNat (target.value.toNat + flagOffset.toNat)⟩ (if s.overflow then 1 else 0)]

/-- The access that puts the overflow of a sum in its cell, as an integer of the width. -/
def carryAccesses (w : Width) (s : CheckedSum) (cell : Address) : List Access :=
  [.store w cell (if s.overflow then 1 else 0)]

namespace Operation

/-- The script of an operation, or the fault that it ends with at once.  All sums are exact: what is
stored and answered is the remainder of a number, and whether it has no room in the width. -/
def script : Operation → Except Fault Script
  | store w a v => .ok (.fixed [.store w a v] .done)
  | load w a => .ok ⟨[.load w a], fun loaded => .number (loaded.headD 0)⟩
  | storeBool a flag => .ok (.fixed [.store .w8 a (if flag then 1 else 0)] .done)
  | loadBool a => .ok ⟨[.load .w8 a], fun loaded => .flag (loaded.headD 0 != 0)⟩
  | storeInt a w v => .ok (.fixed [.store w a (BitVec.ofNat w.bits v.toNat)] .done)
  | loadInt a w => .ok ⟨[.load w a], fun loaded => .number (loaded.headD 0)⟩
  | fillZero a n => .ok (.fixed [.fillZero a n] .done)
  | zeroFill a n => .ok (.fixed [.fillZero a n] (.number a.value))
  | storePair w s target flagOffset => .ok (.fixed (pairAccesses w s target flagOffset) .done)
  | storeCarry w s carryOut => .ok (.fixed (carryAccesses w s carryOut) .done)
  | addPair w left right target flagOffset =>
      let s := w.checked (w.exactSum [left, right])
      .ok (.fixed (pairAccesses w s target flagOffset) (.number target.value))
  | addPairWord w left right target flagOffset =>
      let s := w.checked (left.toNat + right.toNat)
      .ok (.fixed (pairAccesses w s target flagOffset) (.number target.value))
  | addCarry w left right carryIn carryOut =>
      let s := w.checked (w.exactSum [left, right, carryIn])
      .ok (.fixed (carryAccesses w s carryOut) (.number s.value))
  | addCarryWord w left right carryIn carryOut =>
      let s := w.checked (left.toNat + right.toNat + carryIn.toNat)
      .ok (.fixed (carryAccesses w s carryOut) (.number s.value))
  | addWide w left right cell =>
      let s := w.wideSum (max left.length right.length) (w.limbValue left + w.limbValue right)
      .ok (.fixed (cellAccesses w cell (w.carries left right)) (.wide s))
  | add128 left right cell =>
      let low := decide (2 ^ 64 ≤ left.toNat % 2 ^ 64 + right.toNat % 2 ^ 64)
      let high := decide (2 ^ 128 ≤ left.toNat + right.toNat)
      .ok (.fixed (cellAccesses .w64 cell [low, high]) (.wide128 ⟨left + right, high⟩))
  | execute c =>
      match c.plan? with
      | some p => .ok (.fixed p.accesses (.outcome p.outcome))
      | none => .error (.argumentMismatch c.intrinsic)

/-- Carrying out the script of an operation, up to the first access that fails. -/
def follow {σ : Type} [MemorySpace σ] (op : Operation) : MemoryM σ Reply :=
  match op.script with
  | .ok p => p.answer <$> makeAll p.accesses
  | .error f => throw f

end Operation

-- the sum of the low limbs carries, and the one of the high limbs does not
example : (Operation.addWide .w8 [0xff, 1] [1] ⟨5⟩).script =
    .ok (.fixed [.store .w8 ⟨5⟩ 1, .load .w8 ⟨5⟩, .store .w8 ⟨5⟩ 0, .load .w8 ⟨5⟩]
      (.wide ⟨[0, 2], false⟩)) := by
  rfl

theorem Simulation.follow {σ τ : Type} [MemorySpace σ] [MemorySpace τ] {R : σ → τ → Prop}
    (h : Simulation R) (op : Operation) : Agree R op.follow op.follow := by
  unfold Operation.follow
  cases op.script with
  | error f => exact .throw f
  | ok p =>
      simp only [← bind_pure_comp]
      exact (h.makeAll p.accesses).bind fun _ => .pure _

/-! ### Steps and their accesses -/

section Steps

variable {σ : Type} [MemorySpace σ]

theorem store_eq_makeAll (w : Width) (a : Address) (v : w.Word) :
    (MemorySpace.store w a v : MemoryM σ Unit) = (fun _ => ()) <$> makeAll [.store w a v] := by
  simp [makeAll, Access.make]

theorem fillZero_eq_makeAll (a : Address) (n : ByteCount) :
    (MemorySpace.fillZero a n : MemoryM σ Unit) = (fun _ => ()) <$> makeAll [.fillZero a n] := by
  simp [makeAll, Access.make]

theorem zeroFill_eq_makeAll (a : Address) (n : ByteCount) :
    (zeroFill a n : MemoryM σ Address) = (fun _ => a) <$> makeAll [.fillZero a n] := by
  simp [zeroFill, makeAll, Access.make]

theorem storeInt_eq_makeAll (a : Address) (w : Width) (v : UInt64) :
    (storeInt a w v : MemoryM σ Unit) =
      (fun _ => ()) <$> makeAll [.store w a (BitVec.ofNat w.bits v.toNat)] := by
  rw [storeInt, Width.word_truncate]
  exact store_eq_makeAll w a _

theorem loadInt_eq_makeAll (a : Address) (w : Width) :
    (loadInt a w : MemoryM σ UInt64) = (fun loaded => loaded.headD 0) <$> makeAll [.load w a] := by
  simp [loadInt, makeAll, Access.make]

theorem loadBool_eq_makeAll (a : Address) :
    (loadBool a : MemoryM σ Bool) =
      (fun loaded => loaded.headD 0 != 0) <$> makeAll [.load .w8 a] := by
  rw [loadBool]
  simp only [← Width.zeroExtend_bne_zero]
  simp [makeAll, Access.make]

theorem storePair_eq_makeAll (w : Width) (s : CheckedSum) (target : Address) (flagOffset : UInt64) :
    (storePair w s target flagOffset : MemoryM σ Unit) =
      (fun _ => ()) <$> makeAll (pairAccesses w s target flagOffset) := by
  rw [storePair, storeInt_eq_makeAll, storeBool, Address.advance_eq_ofNat]
  simp [pairAccesses, makeAll, Access.make]

theorem storeCarry_eq_makeAll (w : Width) (s : CheckedSum) (cell : Address) :
    (storeCarry w s cell : MemoryM σ Unit) =
      (fun _ => ()) <$> makeAll (carryAccesses w s cell) := by
  rw [storeCarry, storeInt, Width.word_flag]
  exact store_eq_makeAll w cell _

theorem addPair_eq_makeAll (w : Width) (left right : UInt64) (target : Address)
    (flagOffset : UInt64) :
    (addPair w left right target flagOffset : MemoryM σ Address) =
      (fun _ => target) <$>
        makeAll (pairAccesses w (w.checked (w.exactSum [left, right])) target flagOffset) := by
  rw [addPair, Width.add_eq, storePair_eq_makeAll, bind_pure_comp, Functor.map_map]

theorem addCarry_eq_makeAll (w : Width) (left right carryIn : UInt64) (carryOut : Address) :
    let s := w.checked (w.exactSum [left, right, carryIn])
    (addCarry w left right carryIn carryOut : MemoryM σ UInt64) =
      (fun _ => s.value) <$> makeAll (carryAccesses w s carryOut) := by
  intro s
  rw [addCarry, Width.addWithCarry_eq, storeCarry_eq_makeAll, bind_pure_comp, Functor.map_map]

theorem addPairWord_eq_makeAll (w : Width) (left right : w.Word) (target : Address)
    (flagOffset : UInt64) :
    (addPairWord w left right target flagOffset : MemoryM σ Address) =
      (fun _ => target) <$>
        makeAll (pairAccesses w (w.checked (left.toNat + right.toNat)) target flagOffset) := by
  have htotal : w.exactSum [w.zeroExtend left, w.zeroExtend right] = left.toNat + right.toNat :=
    w.exactSum_zeroExtend [left, right]
  rw [addPairWord, addPair_eq_makeAll, htotal]

theorem addCarryWord_eq_makeAll (w : Width) (left right carryIn : w.Word) (carryOut : Address) :
    let s := w.checked (left.toNat + right.toNat + carryIn.toNat)
    (addCarryWord w left right carryIn carryOut : MemoryM σ w.Word) =
      (fun _ => w.word s.value) <$> makeAll (carryAccesses w s carryOut) := by
  intro s
  have htotal : w.exactSum [w.zeroExtend left, w.zeroExtend right, w.zeroExtend carryIn] =
      left.toNat + right.toNat + carryIn.toNat := by
    rw [Nat.add_assoc]
    exact w.exactSum_zeroExtend [left, right, carryIn]
  rw [addCarryWord, addCarry_eq_makeAll, htotal, bind_pure_comp, Functor.map_map]

theorem addWide_eq_makeAll (h : GivesBack σ) (w : Width) (left right : List UInt64)
    (cell : Address) :
    (addWide w left right cell : MemoryM σ WideSum) =
      (fun _ => w.wideSum (max left.length right.length) (w.limbValue left + w.limbValue right)) <$>
        makeAll (cellAccesses w cell (w.carries left right)) := by
  rw [addWide, addPairs_eq_makeAll h, chainSum_eq_wideSum, chainCarries_eq_carries]

/-- The number that the limbs of a 128-bit number stand for. -/
theorem limbValue_limbs128 (v : BitVec 128) : Width.w64.limbValue (limbs128 v) = v.toNat := by
  have hlt : ∀ limb ∈ limbs128 v, limb.toNat < 2 ^ Width.w64.bits := fun limb _ => limb.toNat_lt
  rw [Width.limbValue_of_lt hlt]
  exact ofDigits_limbs128 v

/-- The number that the lower limb of a 128-bit number stands for. -/
theorem limbValue_take_limbs128 (v : BitVec 128) :
    Width.w64.limbValue ((limbs128 v).take 1) = v.toNat % 2 ^ 64 := by
  have hlow : (⟨v.setWidth 64⟩ : UInt64).toNat = v.toNat % 2 ^ 64 := BitVec.toNat_setWidth _ _
  change Width.w64.limbValue [⟨v.setWidth 64⟩] = _
  rw [Width.limbValue_cons, Width.limbValue_nil, Nat.mul_zero, Nat.add_zero, hlow]
  exact Nat.mod_mod _ _

/-- The carries of the addition of 128-bit numbers: out of their lower halves, and out of all. -/
theorem carries_limbs128 (left right : BitVec 128) :
    Width.w64.carries (limbs128 left) (limbs128 right) =
      [decide (2 ^ 64 ≤ left.toNat % 2 ^ 64 + right.toNat % 2 ^ 64),
        decide (2 ^ 128 ≤ left.toNat + right.toNat)] := by
  have hlists : Width.w64.carries (limbs128 left) (limbs128 right) =
      [decide (2 ^ 64 ≤ Width.w64.limbValue ((limbs128 left).take 1) +
          Width.w64.limbValue ((limbs128 right).take 1)),
        decide (2 ^ 128 ≤ Width.w64.limbValue (limbs128 left) +
          Width.w64.limbValue (limbs128 right))] := rfl
  rw [hlists, limbValue_take_limbs128, limbValue_take_limbs128, limbValue_limbs128,
    limbValue_limbs128]

theorem add128_eq_makeAll (h : GivesBack σ) (left right : BitVec 128) (cell : Address) :
    let low := decide (2 ^ 64 ≤ left.toNat % 2 ^ 64 + right.toNat % 2 ^ 64)
    let high := decide (2 ^ 128 ≤ left.toNat + right.toNat)
    (add128 left right cell : MemoryM σ Sum128) =
      (fun _ => ⟨left + right, high⟩) <$> makeAll (cellAccesses .w64 cell [low, high]) := by
  intro low high
  obtain ⟨hsum, hcarry⟩ := sum_limbPairs128 left right
  have hhigh : high = (chainSum .w64 (limbPairs128 left right) 0).carry := hcarry.symm
  rw [← carries_limbs128, ← chainCarries_eq_carries, hhigh, ← hsum, add128, addWide,
    addPairs_eq_makeAll h, bind_pure_comp, Functor.map_map]
  rfl

end Steps

/-! ### Operations and their scripts -/

section Operations

variable {σ : Type} [MemorySpace σ]

/-- What is answered to a step is what is answered to its accesses. -/
theorem answer_eq_makeAll {α : Type} {x : MemoryM σ α} {accesses : List Access}
    {f : List UInt64 → α} (h : x = f <$> makeAll accesses) (g : α → Reply) :
    (do let v ← x; return g v : MemoryM σ Reply) =
      (fun loaded => g (f loaded)) <$> makeAll accesses := by
  rw [h, bind_pure_comp, Functor.map_map]

/-- **An operation does what its script says**, on every space that gives back what was stored. -/
theorem Operation.run_eq_follow (h : GivesBack σ) (op : Operation) :
    (op.run : MemoryM σ Reply) = op.follow := by
  cases op with
  | store w a v => exact answer_eq_makeAll (store_eq_makeAll w a v) _
  | load w a => simp [run, follow, script, makeAll, Access.make]
  | storeBool a flag => exact answer_eq_makeAll (store_eq_makeAll .w8 a _) _
  | loadBool a => exact answer_eq_makeAll (loadBool_eq_makeAll a) _
  | storeInt a w v => exact answer_eq_makeAll (storeInt_eq_makeAll a w v) _
  | loadInt a w => exact answer_eq_makeAll (loadInt_eq_makeAll a w) _
  | fillZero a n => exact answer_eq_makeAll (fillZero_eq_makeAll a n) _
  | zeroFill a n => exact answer_eq_makeAll (zeroFill_eq_makeAll a n) _
  | storePair w s target flagOffset =>
      exact answer_eq_makeAll (storePair_eq_makeAll w s target flagOffset) _
  | storeCarry w s carryOut => exact answer_eq_makeAll (storeCarry_eq_makeAll w s carryOut) _
  | addPair w left right target flagOffset =>
      exact answer_eq_makeAll (addPair_eq_makeAll w left right target flagOffset) _
  | addPairWord w left right target flagOffset =>
      exact answer_eq_makeAll (addPairWord_eq_makeAll w left right target flagOffset) _
  | addCarry w left right carryIn carryOut =>
      exact answer_eq_makeAll (addCarry_eq_makeAll w left right carryIn carryOut) _
  | addCarryWord w left right carryIn carryOut =>
      refine (answer_eq_makeAll (addCarryWord_eq_makeAll w left right carryIn carryOut) _).trans ?_
      -- the answer is the pattern of a word, from which nothing is lost
      rw [Width.zeroExtend_word_of_fits (w.fits_checked_value _)]
      rfl
  | addWide w left right cell => exact answer_eq_makeAll (addWide_eq_makeAll h w left right cell) _
  | add128 left right cell => exact answer_eq_makeAll (add128_eq_makeAll h left right cell) _
  | execute c =>
      cases hplan : c.plan? with
      | none =>
          rw [run, Call.execute_of_no_plan hplan, follow, script, hplan]
          rfl
      | some p =>
          have hscript : (execute c).script = .ok (.fixed p.accesses (.outcome p.outcome)) := by
            rw [script, hplan]
          rw [follow, hscript]
          exact answer_eq_makeAll (Call.execute_of_plan hplan) _

/-- **The accesses of an operation are those of its script**, on every space that gives back what
was stored and from every state of it. -/
theorem Operation.accessesFrom_run (h : GivesBack σ) (op : Operation) (s : σ) :
    match op.script with
    | .error f => op.run s = .error f s ∧ accessesFrom s op.run = []
    | .ok p =>
        match makeAll p.accesses s with
        | .ok loaded s' => op.run s = .ok (p.answer loaded) s' ∧ accessesFrom s op.run = p.accesses
        | .error f s' =>
            op.run s = .error f s' ∧
              ∃ made last, accessesFrom s op.run = made ++ [last] ∧
                made ++ [last] <+: p.accesses ∧
                ∃ loaded s₁, makeAll made s = .ok loaded s₁ ∧ last.make s₁ = .error f s' := by
  rw [run_eq_follow h, run_eq_follow (Recorder.givesBack h), follow, follow]
  cases op.script with
  | error f => exact ⟨rfl, rfl⟩
  | ok p =>
      have hseen := accessesFrom_makeAll p.accesses s
      simp only [accessesFrom_map]
      cases hmake : makeAll p.accesses s with
      | ok loaded s' =>
          rw [hmake] at hseen
          exact ⟨map_of_ok hmake _, hseen⟩
      | error f s' =>
          rw [hmake] at hseen
          exact ⟨map_of_error hmake _, hseen⟩

/-- An operation makes no accesses but those of its script, and all of them when it succeeds. -/
theorem Operation.accessesFrom_run_of_script (h : GivesBack σ) {op : Operation} {p : Script}
    (hscript : op.script = .ok p) (s : σ) :
    accessesFrom s op.run <+: p.accesses ∧
      ∀ r s', op.run s = .ok r s' → accessesFrom s op.run = p.accesses := by
  have hrun := op.accessesFrom_run h s
  rw [hscript] at hrun
  cases hmake : makeAll p.accesses s with
  | ok loaded s' =>
      simp only [hmake] at hrun
      obtain ⟨-, hseen⟩ := hrun
      exact ⟨hseen ▸ List.prefix_refl _, fun _ _ _ => hseen⟩
  | error f s' =>
      simp only [hmake] at hrun
      obtain ⟨hrun, made, last, hseen, hinit, -⟩ := hrun
      refine ⟨hseen ▸ hinit, fun r s'' hok => ?_⟩
      rw [hrun] at hok
      cases hok

end Operations

end WordMachine
