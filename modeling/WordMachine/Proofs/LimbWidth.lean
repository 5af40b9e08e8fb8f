/-
**The width of the limbs does not matter.**

A number in wide limbs is also a number in narrow ones: each limb is cut into the narrow limbs that
its bits make up.  The two additions go different ways, with chains of different lengths and with
carries in places that the other one never stores, and still come to the same sum.  The reason is
that both are exact.  Each side is the number that its limbs stand for, with the carry above it, and
a number has only one list of limbs of a given length.

Main definitions:

* `WordMachine.Width.limbValue` — the number that limbs of a width stand for;
* `WordMachine.Width.split` — wide limbs cut into narrow ones.

Main results:

* `WordMachine.Width.limbValue_split` — **cutting limbs keeps the number**;
* `WordMachine.Width.limbValue_injective` — limbs are determined by their number;
* `WordMachine.chainSum_limbValue` — a direct chain from zero adds the numbers of its limbs;
* `WordMachine.chainSum_split` — the direct chains at the two widths, limb by limb;
* `WordMachine.addWide_split` — **wide addition at the two widths**, on any two flat memories.
-/

import Mathlib.Data.Nat.Digits.Lemmas
import WordMachine.Proofs.CarryChain

set_option relaxedAutoImplicit false
set_option autoImplicit false

namespace WordMachine

namespace Width

/-! ### The number of a list of limbs -/

/-- The number that limbs of a width stand for, the least significant first.  The bits of a limb
above the width do not count. -/
def limbValue (w : Width) (limbs : List UInt64) : ℕ :=
  Nat.ofDigits (2 ^ w.bits) (limbs.map fun v => v.toNat % 2 ^ w.bits)

@[simp] theorem limbValue_nil (w : Width) : w.limbValue [] = 0 := rfl

@[simp] theorem limbValue_cons (w : Width) (v : UInt64) (limbs : List UInt64) :
    w.limbValue (v :: limbs) = v.toNat % 2 ^ w.bits + 2 ^ w.bits * w.limbValue limbs := by
  simp [limbValue, Nat.ofDigits_cons]

theorem limbValue_append (w : Width) (low high : List UInt64) :
    w.limbValue (low ++ high) =
      w.limbValue low + 2 ^ (w.bits * low.length) * w.limbValue high := by
  simp [limbValue, Nat.ofDigits_append, Nat.pow_mul]

theorem limbValue_lt (w : Width) (limbs : List UInt64) :
    w.limbValue limbs < 2 ^ (w.bits * limbs.length) := by
  have hdigit : ∀ d ∈ limbs.map (fun v => v.toNat % 2 ^ w.bits), d < 2 ^ w.bits := by
    intro d hd
    obtain ⟨v, -, rfl⟩ := List.mem_map.1 hd
    exact Nat.mod_lt _ (Nat.two_pow_pos _)
  have hlt := Nat.ofDigits_lt_base_pow_length (w.lt_two_pow_bits_of_le_one (Nat.le_refl 1)) hdigit
  rwa [List.length_map, ← Nat.pow_mul] at hlt

/-- The number of limbs as a sum over their indices, where it may go on with zeros. -/
theorem limbValue_eq_sum (w : Width) {limbs : List UInt64} {n : ℕ} (h : limbs.length ≤ n) :
    w.limbValue limbs =
      ∑ i ∈ Finset.range n, (limbs.getD i 0).toNat % 2 ^ w.bits * 2 ^ (w.bits * i) := by
  rw [limbValue, ofDigits_map_eq_sum _ (fun v : UInt64 => v.toNat % 2 ^ w.bits) 0]
  simp only [Nat.pow_mul]
  refine Finset.sum_subset (Finset.range_mono h) fun i _ hi => ?_
  have hge : limbs.length ≤ i := by simpa using hi
  rw [List.getD_eq_default _ _ hge]
  simp

/-- Limbs that are within their width come to their number as they are. -/
theorem limbValue_of_lt {w : Width} {limbs : List UInt64} (h : ∀ v ∈ limbs, v.toNat < 2 ^ w.bits) :
    w.limbValue limbs = Nat.ofDigits (2 ^ w.bits) (limbs.map UInt64.toNat) := by
  rw [limbValue, List.map_congr_left fun v hv => Nat.mod_eq_of_lt (h v hv)]

/-- Limbs that are within their width are determined by how many they are and by their number. -/
theorem limbValue_injective {w : Width} {limbs limbs' : List UInt64}
    (hlength : limbs.length = limbs'.length) (h : ∀ v ∈ limbs, v.toNat < 2 ^ w.bits)
    (h' : ∀ v ∈ limbs', v.toNat < 2 ^ w.bits) (hvalue : w.limbValue limbs = w.limbValue limbs') :
    limbs = limbs' := by
  rw [limbValue_of_lt h, limbValue_of_lt h'] at hvalue
  have hmap : limbs.map UInt64.toNat = limbs'.map UInt64.toNat := by
    refine Nat.ofDigits_inj_of_len_eq (w.lt_two_pow_bits_of_le_one (Nat.le_refl 1))
      (by simpa using hlength) ?_ ?_ hvalue
    · simpa using h
    · simpa using h'
  exact List.map_injective_iff.2 (fun _ _ => UInt64.toNat_inj.1) hmap

/-! ### Cutting limbs -/

/-- The limbs of width `a` that the low bits of a limb of width `b` make up, the least significant
first.  Bits above the width `b` are in none of them. -/
def splitLimb (a b : Width) (v : UInt64) : List UInt64 :=
  (List.range (b.bits / a.bits)).map fun j =>
    UInt64.ofNat (v.toNat / 2 ^ (a.bits * j) % 2 ^ a.bits)

/-- Limbs of width `b` cut into limbs of width `a`, in order. -/
def split (a b : Width) (limbs : List UInt64) : List UInt64 :=
  limbs.flatMap (a.splitLimb b)

example : w16.split w32 [0x99ffff0001, 0x20003] = [1, 0xffff, 3, 2] := by decide

theorem bits_dvd {a b : Width} (h : a.bits ≤ b.bits) : a.bits ∣ b.bits := by
  cases a <;> cases b <;> revert h <;> decide

@[simp] theorem split_nil (a b : Width) : a.split b [] = [] := rfl

theorem split_cons (a b : Width) (v : UInt64) (limbs : List UInt64) :
    a.split b (v :: limbs) = a.splitLimb b v ++ a.split b limbs := rfl

@[simp] theorem length_splitLimb (a b : Width) (v : UInt64) :
    (a.splitLimb b v).length = b.bits / a.bits := by
  simp [splitLimb]

@[simp] theorem length_split (a b : Width) (limbs : List UInt64) :
    (a.split b limbs).length = b.bits / a.bits * limbs.length := by
  induction limbs with
  | nil => simp
  | cons v limbs ih =>
      rw [split_cons, List.length_append, length_splitLimb, ih, List.length_cons]
      ring

theorem split_lt {a b : Width} {limbs : List UInt64} {v : UInt64} (hv : v ∈ a.split b limbs) :
    v.toNat < 2 ^ a.bits := by
  obtain ⟨u, -, hv⟩ := List.mem_flatMap.1 hv
  obtain ⟨j, -, rfl⟩ := List.mem_map.1 hv
  exact fits_iff.1 (a.fits_checked_value _)

/-- The first `k` limbs of a pattern stand for the bits that they have together. -/
theorem limbValue_range (a : Width) (n k : ℕ) :
    a.limbValue ((List.range k).map fun j =>
        UInt64.ofNat (n / 2 ^ (a.bits * j) % 2 ^ a.bits)) = n % 2 ^ (a.bits * k) := by
  induction k with
  | zero => simp [Nat.mod_one]
  | succ k ih =>
      have hdigit : n / 2 ^ (a.bits * k) % 2 ^ a.bits < 2 ^ 64 :=
        Nat.lt_of_lt_of_le (Nat.mod_lt _ (Nat.two_pow_pos _)) a.two_pow_bits_le
      rw [List.range_succ, List.map_append, limbValue_append, ih, List.map_singleton,
        limbValue_cons, limbValue_nil, UInt64.toNat_ofNat_of_lt' hdigit, Nat.mod_mod,
        List.length_map, List.length_range, Nat.mul_zero, Nat.add_zero, Nat.pow_mul, Nat.pow_mul,
        Nat.mod_pow_succ]

/-- **Cutting limbs keeps the number** that they stand for. -/
theorem limbValue_split {a b : Width} (hab : a.bits ≤ b.bits) (limbs : List UInt64) :
    a.limbValue (a.split b limbs) = b.limbValue limbs := by
  have hbits : a.bits * (b.bits / a.bits) = b.bits := Nat.mul_div_cancel' (bits_dvd hab)
  induction limbs with
  | nil => rfl
  | cons v limbs ih =>
      have hlimb : a.limbValue (a.splitLimb b v) = v.toNat % 2 ^ b.bits := by
        rw [splitLimb, limbValue_range, hbits]
      rw [split_cons, limbValue_append, hlimb, length_splitLimb, hbits, ih, limbValue_cons]

end Width

/-! ### The direct chains -/

/-- A direct chain from zero adds the numbers that its limbs stand for. -/
theorem chainSum_limbValue (w : Width) (left right : List UInt64) :
    let s := chainSum w (limbPairs left right) 0
    w.limbValue s.limbs + s.carry.toNat * 2 ^ (w.bits * max left.length right.length) =
      w.limbValue left + w.limbValue right := by
  intro s
  have hzero : (0 : UInt64).toNat ≤ 1 := by decide
  have hvalue := chainSum_value (w := w) (limbPairs left right) hzero
  rw [ofDigits_limbPairs w left right Prod.fst, ofDigits_limbPairs w left right Prod.snd,
    ← w.limbValue_eq_sum (Nat.le_max_left _ _), ← w.limbValue_eq_sum (Nat.le_max_right _ _),
    length_limbPairs, ← Nat.pow_mul, UInt64.toNat_zero, Nat.add_zero] at hvalue
  rw [Width.limbValue_of_lt fun v hv => chainSum_lt hv]
  exact hvalue

/-- A number below the place of its carry is determined together with the carry. -/
theorem eq_of_add_carry_eq {place n n' : ℕ} {carry carry' : Bool} (hn : n < place)
    (hn' : n' < place) (h : n + carry.toNat * place = n' + carry'.toNat * place) :
    carry = carry' ∧ n = n' := by
  cases carry <;> cases carry' <;> simp at h ⊢ <;> omega

/-- **The direct chains at two widths** have the same carry, and the limbs of the narrow one are
those of the wide one cut. -/
theorem chainSum_split {a b : Width} (hab : a.bits ≤ b.bits) (left right : List UInt64) :
    let s := chainSum a (limbPairs (a.split b left) (a.split b right)) 0
    let s' := chainSum b (limbPairs left right) 0
    s.carry = s'.carry ∧ s.limbs = a.split b s'.limbs := by
  intro s s'
  have hbits : a.bits * (b.bits / a.bits) = b.bits := Nat.mul_div_cancel' (Width.bits_dvd hab)
  -- cutting multiplies the number of limbs, so both carries have the same place
  have hmax : max (a.split b left).length (a.split b right).length =
      b.bits / a.bits * max left.length right.length := by
    rw [Width.length_split, Width.length_split, Nat.mul_max_mul_left]
  have hlength : s.limbs.length = b.bits / a.bits * max left.length right.length := by
    rw [length_chainSum, length_limbPairs, hmax]
  have hlength' : s'.limbs.length = max left.length right.length := by
    rw [length_chainSum, length_limbPairs]
  have hlt := a.limbValue_lt s.limbs
  rw [hlength, ← Nat.mul_assoc, hbits] at hlt
  have hlt' := b.limbValue_lt s'.limbs
  rw [hlength'] at hlt'
  -- cutting keeps the operands, so both chains come to the same sum
  have hsum := chainSum_limbValue a (a.split b left) (a.split b right)
  rw [hmax, ← Nat.mul_assoc, hbits, Width.limbValue_split hab, Width.limbValue_split hab,
    ← chainSum_limbValue b left right] at hsum
  obtain ⟨hcarry, hvalue⟩ := eq_of_add_carry_eq hlt hlt' hsum
  refine ⟨hcarry, Width.limbValue_injective (w := a) ?_ ?_ ?_ ?_⟩
  · rw [hlength, Width.length_split, hlength']
  · exact fun v hv => chainSum_lt hv
  · exact fun v hv => Width.split_lt hv
  · rw [Width.limbValue_split hab]
    exact hvalue

/-! ### Wide addition -/

/-- **The width of the limbs does not matter to wide addition.**  On any two flat memories, with
cells that are inside them, adding two numbers in limbs of a width and adding them in limbs of a
narrower width both succeed, with the same carry, and the narrow limbs of the sum are its wide limbs
cut. -/
theorem addWide_split {a b : Width} (hab : a.bits < b.bits) {m m' : Memory} {cell cell' : Address}
    (h : cell.value.toNat + a.octets ≤ m.size.bytes.toNat)
    (h' : cell'.value.toNat + b.octets ≤ m'.size.bytes.toNat) (left right : List UInt64) :
    ∃ s s' n n', addWide a (a.split b left) (a.split b right) cell m = .ok s n ∧
      addWide b left right cell' m' = .ok s' n' ∧
      s.carry = s'.carry ∧ s.limbs = a.split b s'.limbs := by
  obtain ⟨hcarry, hlimbs⟩ := chainSum_split (Nat.le_of_lt hab) left right
  exact ⟨_, _, _, _, addPairs_memory h _ 0, addPairs_memory h' _ 0, hcarry, hlimbs⟩

/-- Numbers of two limbs and of one limb of 32 bits, with bits above the width, against four limbs
and two of 16 bits: the carry goes through every limb and out of the last one. -/
theorem addWide_split_all_ones :
    let left : List UInt64 := [0xffffffff, 0x7ffffffff]
    let right : List UInt64 := [0x500000001]
    (Width.w16.bits < Width.w32.bits ∧ (0 : UInt64).toNat + Width.w16.octets ≤ 2 ∧
        (3 : UInt64).toNat + Width.w32.octets ≤ 7) ∧
      ∃ s s' n n',
        addWide .w16 [0xffff, 0xffff, 0xffff, 0xffff] [1, 0] ⟨0⟩ (Memory.zeroed ⟨2⟩) = .ok s n ∧
        addWide .w32 left right ⟨3⟩ (Memory.zeroed ⟨7⟩) = .ok s' n' ∧
        s.carry = s'.carry ∧ s.limbs = Width.w16.split .w32 s'.limbs := by
  intro left right
  have hbits : Width.w16.bits < Width.w32.bits := by decide
  have hcell : (⟨0⟩ : Address).value.toNat + Width.w16.octets ≤
      (Memory.zeroed ⟨2⟩).size.bytes.toNat := by decide
  have hcell' : (⟨3⟩ : Address).value.toNat + Width.w32.octets ≤
      (Memory.zeroed ⟨7⟩).size.bytes.toNat := by decide
  have hleft : Width.w16.split .w32 left = [0xffff, 0xffff, 0xffff, 0xffff] := by decide
  have hright : Width.w16.split .w32 right = [1, 0] := by decide
  have hsplit := addWide_split hbits hcell hcell' left right
  rw [hleft, hright] at hsplit
  exact ⟨⟨hbits, hcell, hcell'⟩, hsplit⟩

end WordMachine
