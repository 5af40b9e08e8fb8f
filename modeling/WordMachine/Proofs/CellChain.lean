/-
**Chains through a cell that gives back what it gets.**

A chain of additions stores each carry in a cell and starts the next limb from what it loads there.
What that is, only the space knows.  A flat memory gives back what was stored, and so does a recorder
in front of one; on every such space the chain is the direct one of `WordMachine.chainSum`, made
along with the stores and loads of its carries.  These carries have a closed form: the lowest limbs
carry when they have no room for their sum.

Main definitions:

* `WordMachine.GivesBack` — a space that gives back what was stored;
* `WordMachine.cellAccesses` — the accesses of a chain with given carries;
* `WordMachine.chainCarries` — the carries of the direct chain;
* `WordMachine.Width.wideSum`, `WordMachine.Width.carries` — a number as a wide sum, and the carries
  of the addition of two lists of limbs.

Main results:

* `WordMachine.Memory.givesBack`, `WordMachine.Recorder.givesBack` — flat memories and recorders give
  back what was stored;
* `WordMachine.addPairs_eq_makeAll` — **the chain is the direct one** on a space that gives back, by
  induction on its limbs;
* `WordMachine.chainSum_eq_wideSum` — the direct chain from zero is the exact sum of two numbers;
* `WordMachine.chainCarries_eq_carries` — **its carries are those of the exact sums** of the lowest
  limbs.
-/

import WordMachine.Proofs.Accesses
import WordMachine.Proofs.LimbWidth

set_option relaxedAutoImplicit false
set_option autoImplicit false

namespace WordMachine

/-! ### Spaces that give back what was stored -/

/-- A space gives back what was stored when a word that is loaded from where one was just stored is
that word.  Either access may fail. -/
def GivesBack (σ : Type) [MemorySpace σ] : Prop :=
  ∀ {w : Width} {a : Address} {v v' : w.Word} {s s' s'' : σ},
    MemorySpace.store w a v s = .ok () s' → MemorySpace.load w a s' = .ok v' s'' → v' = v

/-- A flat memory gives back what was stored. -/
theorem Memory.givesBack : GivesBack Memory := by
  intro w a v v' m m' m'' hstore hload
  rw [store_eq] at hstore
  by_cases h : m.Inside a w.byteCount
  · rw [if_pos h] at hstore
    cases hstore
    have hin : a.value.toNat + w.octets ≤ m.size.bytes.toNat := inside_byteCount_iff.1 h
    rw [load_eq, if_pos (by rwa [Inside, size_overwrite]), slice_overwrite_encode hin,
      LittleEndian.decode_encode, ← Width.two_pow_bits, Nat.mod_eq_of_lt v.isLt] at hload
    cases hload
    exact BitVec.eq_of_toNat_eq (by rw [BitVec.toNat_ofNat, Nat.mod_eq_of_lt v.isLt])
  · rw [if_neg h] at hstore
    cases hstore

namespace Recorder

variable {σ α : Type} {r r' : Recorder σ}

/-- An access that succeeds through a recorder succeeds behind it. -/
theorem pass_ok {access : Access} {action : MemoryM σ α} {v : α}
    (h : pass access action r = .ok v r') : action r.inner = .ok v r'.inner := by
  rw [pass] at h
  cases hnext : r.nextFault? with
  | some f => rw [hnext] at h; cases h
  | none =>
      rw [hnext] at h
      cases hinner : action r.inner with
      | error f s => rw [hinner] at h; cases h
      | ok u s =>
          rw [hinner] at h
          cases h
          rfl

/-- A recorder gives back what was stored when the space behind it does. -/
theorem givesBack [MemorySpace σ] (h : GivesBack σ) : GivesBack (Recorder σ) :=
  fun hstore hload => h (pass_ok hstore) (pass_ok hload)

end Recorder

/-! ### The chain on such a space -/

/-- The accesses of a chain with given carries: each is stored in the cell, and the cell is loaded
again. -/
def cellAccesses (w : Width) (cell : Address) (carries : List Bool) : List Access :=
  carries.flatMap fun carry => [.store w cell (if carry then 1 else 0), .load w cell]

/-- The carries of the direct chain, out of each limb. -/
def chainCarries (w : Width) : List (UInt64 × UInt64) → UInt64 → List Bool
  | [], _ => []
  | (l, r) :: pairs, carry =>
      let overflow := (w.addWithCarry l r carry).overflow
      overflow :: chainCarries w pairs overflow.toUInt64

section Chain

variable {σ : Type} [MemorySpace σ]

/-- What follows a store and a load of the same place starts from the word that was stored. -/
theorem GivesBack.store_load {α : Type} (h : GivesBack σ) (w : Width) (a : Address) (v : w.Word)
    (f : w.Word → MemoryM σ α) :
    (do MemorySpace.store w a v; let v' ← MemorySpace.load w a; f v') =
      (do MemorySpace.store w a v; let _ ← (MemorySpace.load w a : MemoryM σ w.Word); f v) := by
  funext s
  cases hstore : MemorySpace.store w a v s with
  | error e s' => rw [bind_of_error hstore, bind_of_error hstore]
  | ok u s' =>
      rw [bind_of_ok hstore, bind_of_ok hstore]
      cases hload : (MemorySpace.load w a : MemoryM σ w.Word) s' with
      | error e s'' => rw [bind_of_error hload, bind_of_error hload]
      | ok v' s'' => rw [bind_of_ok hload, bind_of_ok hload, h hstore hload]

/-- **The chain is the direct one**, made along with the stores and loads of its carries. -/
theorem addPairs_eq_makeAll (h : GivesBack σ) (w : Width) (cell : Address)
    (pairs : List (UInt64 × UInt64)) (carry : UInt64) :
    (addPairs w cell pairs carry : MemoryM σ WideSum) =
      (fun _ => chainSum w pairs carry) <$>
        makeAll (cellAccesses w cell (chainCarries w pairs carry)) := by
  induction pairs generalizing carry with
  | nil => simp [addPairs, chainCarries, cellAccesses, makeAll, chainSum]
  | cons p pairs ih =>
      obtain ⟨l, r⟩ := p
      rw [addPairs]
      simp only [addCarry, storeCarry, storeInt, loadInt, Width.word_flag, bind_assoc, pure_bind]
      -- the next limb starts from what was stored, so its carry-in is the one of the direct chain
      rw [h.store_load, Width.zeroExtend_flag, ih]
      simp [chainCarries, cellAccesses, makeAll, Access.make, chainSum]

end Chain

/-! ### The sums and the carries in closed form -/

/-- A number as the wide sum of `n` limbs: its digits, and whether they have no room for it. -/
def Width.wideSum (w : Width) (n total : ℕ) : WideSum :=
  ⟨(List.range n).map fun i => UInt64.ofNat (total / 2 ^ (w.bits * i) % 2 ^ w.bits),
    decide (2 ^ (w.bits * n) ≤ total)⟩

/-- The carries of the addition of two numbers, out of each limb: the lowest limbs carry when they
have no room for their sum. -/
def Width.carries (w : Width) (left right : List UInt64) : List Bool :=
  (List.range (max left.length right.length)).map fun i =>
    decide (2 ^ (w.bits * (i + 1)) ≤
      w.limbValue (left.take (i + 1)) + w.limbValue (right.take (i + 1)))

section Limbs

variable (w : Width) (left right : List UInt64)

/-- The carry of the direct chain from zero is whether the limbs have no room for the sum. -/
theorem chainSum_carry :
    (chainSum w (limbPairs left right) 0).carry =
      decide (2 ^ (w.bits * max left.length right.length) ≤
        w.limbValue left + w.limbValue right) := by
  have hlt := w.limbValue_lt (chainSum w (limbPairs left right) 0).limbs
  rw [length_chainSum, length_limbPairs] at hlt
  rw [← chainSum_limbValue w left right]
  cases (chainSum w (limbPairs left right) 0).carry with
  | false => simpa using hlt
  | true => simp

/-- **The direct chain from zero is exact**: it is the sum of the two numbers as a wide sum. -/
theorem chainSum_eq_wideSum :
    chainSum w (limbPairs left right) 0 =
      w.wideSum (max left.length right.length) (w.limbValue left + w.limbValue right) := by
  have hlt := w.limbValue_lt (chainSum w (limbPairs left right) 0).limbs
  have hlength : (chainSum w (limbPairs left right) 0).limbs.length =
      max left.length right.length := by
    rw [length_chainSum, length_limbPairs]
  have hlimbs : (chainSum w (limbPairs left right) 0).limbs =
      (w.wideSum (max left.length right.length) (w.limbValue left + w.limbValue right)).limbs := by
    refine Width.limbValue_injective (w := w) (by simp [hlength, Width.wideSum])
      (fun v hv => chainSum_lt hv) ?_ ?_
    · intro v hv
      obtain ⟨i, -, rfl⟩ := List.mem_map.1 hv
      exact Width.fits_iff.1 (w.fits_checked_value _)
    · rw [hlength] at hlt
      rw [Width.wideSum, Width.limbValue_range, ← chainSum_limbValue w left right,
        Nat.add_mul_mod_self_right, Nat.mod_eq_of_lt hlt]
  exact congrArg₂ WideSum.mk hlimbs (chainSum_carry w left right)

theorem take_limbPairs (k : ℕ) :
    (limbPairs left right).take k = limbPairs (left.take k) (right.take k) := by
  refine List.ext_getElem? fun i => ?_
  simp only [limbPairs, List.getElem?_take, List.getElem?_zipWithAll]
  by_cases hi : i < k
  · simp only [if_pos hi]
  · simp only [if_neg hi]

end Limbs

/-- The carry out of each limb of the direct chain is the last one of the limbs so far. -/
theorem chainCarries_eq_map (w : Width) (pairs : List (UInt64 × UInt64)) (carry : UInt64) :
    chainCarries w pairs carry =
      (List.range pairs.length).map fun i => (chainSum w (pairs.take (i + 1)) carry).carry := by
  induction pairs generalizing carry with
  | nil => rfl
  | cons p pairs ih =>
      obtain ⟨l, r⟩ := p
      have hfirst : (chainSum w [(l, r)] carry).carry = (w.addWithCarry l r carry).overflow := by
        simp only [chainSum]
        cases (w.addWithCarry l r carry).overflow <;> rfl
      rw [chainCarries, ih, List.length_cons, List.range_succ_eq_map, List.map_cons, List.map_map]
      simp only [List.take_succ_cons, List.take_zero, hfirst]
      rfl

/-- **The carries of the direct chain from zero** are those of the sums of the lowest limbs. -/
theorem chainCarries_eq_carries (w : Width) (left right : List UInt64) :
    chainCarries w (limbPairs left right) 0 = w.carries left right := by
  rw [chainCarries_eq_map, length_limbPairs]
  refine List.map_congr_left fun i hi => ?_
  have hi : i < max left.length right.length := List.mem_range.1 hi
  have hmax : max (left.take (i + 1)).length (right.take (i + 1)).length = i + 1 := by
    rw [List.length_take, List.length_take]
    omega
  rw [take_limbPairs, chainSum_carry, hmax]

end WordMachine
