/-
**Wide addition.**

Numbers wider than any word are lists of limbs, the least significant first.  Two such numbers are
added limb by limb, and the carry from one limb to the next travels through memory: each carry
addition stores its carry-out in a cell, and the next one starts from what is read back from there.
A missing limb of the shorter number counts as zero.

Main definitions:

* `WordMachine.WideSum` — the limbs of a sum, and the carry out of the last one;
* `WordMachine.limbPairs` — the limbs of two numbers side by side;
* `WordMachine.addWide` — the addition of two lists of limbs;
* `WordMachine.add128` — the addition of two 128-bit numbers, by two limbs of 64 bits.
-/

import WordMachine.Intrinsic.Effect

set_option relaxedAutoImplicit false
set_option autoImplicit false

namespace WordMachine

/-- The limbs of a sum, least significant first, and whether it carried out of the last one. -/
structure WideSum where
  limbs : List UInt64
  carry : Bool
deriving DecidableEq

/-- The limbs of two numbers side by side; where one number has ended, its limbs are zero. -/
def limbPairs (left right : List UInt64) : List (UInt64 × UInt64) :=
  List.zipWithAll (fun l r => (l.getD 0, r.getD 0)) left right

@[simp] theorem length_limbPairs (left right : List UInt64) :
    (limbPairs left right).length = max left.length right.length := by
  induction left generalizing right with
  | nil => simp [limbPairs]
  | cons l left ih =>
      cases right with
      | nil => simp [limbPairs]
      | cons r right => simpa [limbPairs, Nat.succ_max_succ] using ih right

section Chain

variable {σ : Type} [MemorySpace σ]

/-- The addition of pairs of limbs from a carry-in on, with the carries going through a cell. -/
def addPairs (w : Width) (cell : Address) : List (UInt64 × UInt64) → UInt64 → MemoryM σ WideSum
  | [], carry => return ⟨[], carry != 0⟩
  | (l, r) :: pairs, carry => do
      let limb ← addCarry w l r carry cell
      let next ← loadInt cell w
      let rest ← addPairs w cell pairs next
      return ⟨limb :: rest.limbs, rest.carry⟩

/-- The addition of two numbers in limbs of the given width, with a cell for the carries. -/
def addWide (w : Width) (left right : List UInt64) (cell : Address) : MemoryM σ WideSum :=
  addPairs w cell (limbPairs left right) 0

end Chain

/-! ### Numbers of 128 bits -/

/-- A 128-bit sum, and whether the exact sum did not fit in it. -/
structure Sum128 where
  value : BitVec 128
  carry : Bool
deriving DecidableEq

/-- The two limbs of a 128-bit number. -/
def limbs128 (v : BitVec 128) : List UInt64 :=
  [⟨v.setWidth 64⟩, ⟨(v >>> 64).setWidth 64⟩]

/-- The 128-bit number with the given limbs, from the most significant down. -/
def ofLimbs128 (limbs : List UInt64) : BitVec 128 :=
  limbs.foldr (fun limb v => (v <<< 64) ||| limb.toBitVec.setWidth 128) 0

/-- The addition of two 128-bit numbers, with a cell for the carries. -/
def add128 {σ : Type} [MemorySpace σ] (left right : BitVec 128) (cell : Address) :
    MemoryM σ Sum128 := do
  let s ← addWide .w64 (limbs128 left) (limbs128 right) cell
  return ⟨ofLimbs128 s.limbs, s.carry⟩

end WordMachine
