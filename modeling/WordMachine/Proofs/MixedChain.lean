/-
**Carry chains of mixed widths are exact.**

A program that adds wide numbers on a machine makes one carry addition after another, each at a
width of its own and with a cell of its own, and loads the carry back from that cell for the next.
The cells may coincide or overlap, and then a narrow carry leaves the upper bytes of a wider one
standing beside it.  This module proves that the carries come through all the same: each is loaded
as the zero or one that was stored last, and the sums are the digits of the exact sum in the mixed
radix that the widths make up.

Main definitions:

* `WordMachine.Machine.Link` — one addition of a chain;
* `WordMachine.Machine.runChain` — running a chain on a machine, as a program would;
* `WordMachine.Machine.place` — the number of bits below an addition of a chain;
* `WordMachine.Machine.Adds` — sums and carries that are right for a chain.

Main results:

* `WordMachine.Machine.runCall_link`, `WordMachine.Machine.readInt_link` — one addition of a chain,
  and its carry loaded again;
* `WordMachine.Machine.runChain_adds` — a chain from any carry-in, by induction on its additions;
* `WordMachine.Machine.runChain_exact` — **the sums and the last carry of a chain** are the digits
  of the exact sum.
-/

import Mathlib.Algebra.BigOperators.Fin
import WordMachine.Machine.Basic
import WordMachine.Proofs.AdditionForms
import WordMachine.Proofs.ChainAccesses

set_option relaxedAutoImplicit false
set_option autoImplicit false

namespace WordMachine.Machine

open Log (Logger)

/-! ### Chains -/

/-- One addition of a chain: its width, its operands, and the cell of its carry-out. -/
structure Link where
  width : Width
  left : UInt64
  right : UInt64
  cell : Address

/-- The call of an addition of a chain, with the carry-in that it gets. -/
def Link.call (x : Link) (carry : UInt64) : Call :=
  ⟨.addCarry x.width, .chain x.left x.right carry x.cell⟩

/-- A call as a step of a program that runs on a machine. -/
def runCall (logger : Logger) (c : Call) : MemoryM Machine Value := fun m =>
  let report := m.call logger c
  match report.result with
  | .ok v => .ok v report.machine
  | .error f => .error f report.machine

/-- Loading an integer from the memory of a machine, as a step of a program. -/
def readInt (a : Address) (w : Width) : MemoryM Machine UInt64 := fun m =>
  match loadInt a w m.memory with
  | .ok v memory => .ok v { m with memory }
  | .error f memory => .error f { m with memory }

/-- Running a chain from a carry-in on.  Each addition is called, and its carry is loaded from its
cell and given to the next one; the value of each call is kept with the carry that was loaded. -/
def runChain (logger : Logger) : List Link → UInt64 → MemoryM Machine (List (Value × UInt64))
  | [], _ => return []
  | x :: links, carry => do
      let v ← runCall logger (x.call carry)
      let next ← readInt x.cell x.width
      let rest ← runChain logger links next
      return (v, next) :: rest

/-! ### One addition -/

section Link

variable (logger : Logger) {m : Machine} {x : Link}

/-- A call that succeeds leaves the memory that executing it does, and sets the flag when it did
arithmetic. -/
theorem runCall_of_ok {c : Call} {o : Outcome} {memory : Memory}
    (h : c.execute m.memory = .ok o memory) :
    runCall logger c m = .ok o.value { m with memory, overflow := o.overflow.getD m.overflow } := by
  rw [runCall, call, h]

theorem readInt_of_ok {a : Address} {w : Width} {v : UInt64} {memory : Memory}
    (h : loadInt a w m.memory = .ok v memory) : readInt a w m = .ok v { m with memory } := by
  rw [readInt, h]

/-- The machine after an addition of a chain. -/
def afterSum (m : Machine) (x : Link) (s : CheckedSum) : Machine :=
  { m with memory := m.memory.withCarry x.width x.cell s.overflow, overflow := s.overflow }

theorem size_afterSum (s : CheckedSum) : (m.afterSum x s).memory.size = m.memory.size :=
  size_withCarry _

/-- An addition of a chain gives its sum, puts its carry in its cell and sets the flag to it. -/
theorem runCall_link (h : x.cell.value.toNat + x.width.octets ≤ m.memory.size.bytes.toNat)
    (carry : UInt64) :
    let s := x.width.addWithCarry x.left x.right carry
    runCall logger (x.call carry) m = .ok (.int s.value) (m.afterSum x s) := by
  intro s
  have hexecute := map_of_ok (addCarry_memory h x.left x.right carry)
    fun sum => (⟨.int sum, some s.overflow⟩ : Outcome)
  rw [← execute_addCarry] at hexecute
  exact runCall_of_ok logger hexecute

/-- The carry of an addition is loaded from its cell, whatever stands beside it. -/
theorem readInt_link (h : x.cell.value.toNat + x.width.octets ≤ m.memory.size.bytes.toNat)
    (s : CheckedSum) :
    readInt x.cell x.width (m.afterSum x s) = .ok s.overflow.toUInt64 (m.afterSum x s) :=
  readInt_of_ok (m := m.afterSum x s) (loadInt_withCarry h s.overflow)

end Link

/-! ### The mixed radix -/

/-- The number of bits of the additions of a chain before the one with the given index. -/
def place (links : List Link) (k : ℕ) : ℕ :=
  ((links.take k).map fun x => x.width.bits).sum

@[simp] theorem place_zero (links : List Link) : place links 0 = 0 := by simp [place]

@[simp] theorem place_cons_succ (x : Link) (links : List Link) (k : ℕ) :
    place (x :: links) (k + 1) = x.width.bits + place links k := by simp [place]

/-- The value of digits in a mixed radix: the first digit, and the others above its width. -/
theorem sum_place_cons (x : Link) (links : List Link) (digit : Fin (links.length + 1) → ℕ) :
    ∑ i, digit i * 2 ^ place (x :: links) i =
      digit 0 + 2 ^ x.width.bits * ∑ i : Fin links.length, digit i.succ * 2 ^ place links i := by
  rw [Fin.sum_univ_succ, Finset.mul_sum]
  congr 1
  · simp
  · refine Finset.sum_congr rfl fun i _ => ?_
    rw [Fin.val_succ, place_cons_succ, Nat.pow_add]
    ring

/-- Sums and carries that are right for a chain with the carry-in `c`: the sums fit in their widths,
the carries are zero or one, and sums and last carry are the digits of the exact sum. -/
structure Adds (links : List Link) (c : UInt64) (sum carry : ℕ → UInt64) : Prop where
  start : carry 0 = c
  sum_lt : ∀ i : Fin links.length, (sum i).toNat < 2 ^ links[i].width.bits
  carry_le : ∀ i ≤ links.length, (carry i).toNat ≤ 1
  value : ∑ i : Fin links.length, (sum i).toNat * 2 ^ place links i +
      (carry links.length).toNat * 2 ^ place links links.length =
    ∑ i : Fin links.length, links[i].left.toNat % 2 ^ links[i].width.bits * 2 ^ place links i +
      ∑ i : Fin links.length, links[i].right.toNat % 2 ^ links[i].width.bits * 2 ^ place links i +
      c.toNat

theorem Adds.nil {c : UInt64} (hc : c.toNat ≤ 1) : Adds [] c (fun _ => 0) (fun _ => c) where
  start := rfl
  sum_lt i := i.elim0
  carry_le _ _ := hc
  value := by simp

/-- An addition in front of a chain that starts from its carry. -/
theorem Adds.cons {x : Link} {links : List Link} {c : UInt64} {sum carry : ℕ → UInt64}
    (hc : c.toNat ≤ 1)
    (h : Adds links (x.width.addWithCarry x.left x.right c).overflow.toUInt64 sum carry) :
    Adds (x :: links) c (consCarry (x.width.addWithCarry x.left x.right c).value sum)
      (consCarry c carry) where
  start := rfl
  sum_lt i := by
    cases i using Fin.cases with
    | zero =>
        change (x.width.addWithCarry x.left x.right c).value.toNat < _
        rw [Width.toNat_addWithCarry_value]
        exact Nat.mod_lt _ (Nat.two_pow_pos _)
    | succ i => exact h.sum_lt i
  carry_le i hi := by
    cases i with
    | zero => exact hc
    | succ i => exact h.carry_le i (Nat.le_of_succ_le_succ hi)
  value := by
    have hfirst := Width.addWithCarry_split (w := x.width) x.left x.right hc
    have hrest := h.value
    rw [toNat_toUInt64] at hrest
    simp only [List.length_cons]
    rw [sum_place_cons, sum_place_cons, sum_place_cons, place_cons_succ, Nat.pow_add]
    exact digit_in_front hfirst hrest

/-! ### Chains on a machine -/

/-- A chain from any carry-in of at most one, with every cell inside the memory. -/
theorem runChain_adds (logger : Logger) {links : List Link} {c : UInt64} {m : Machine}
    (hc : c.toNat ≤ 1)
    (h : ∀ x ∈ links, x.cell.value.toNat + x.width.octets ≤ m.memory.size.bytes.toNat) :
    ∃ (sum carry : ℕ → UInt64) (m' : Machine), Adds links c sum carry ∧
      runChain logger links c m =
        .ok ((List.range links.length).map fun i => (.int (sum i), carry (i + 1))) m' ∧
      m'.overflow = if links = [] then m.overflow else carry links.length != 0 := by
  induction links generalizing c m with
  | nil => exact ⟨_, _, m, .nil hc, rfl, rfl⟩
  | cons x links ih =>
      obtain ⟨hx, hlinks⟩ := List.forall_mem_cons.1 h
      set s := x.width.addWithCarry x.left x.right c
      have hbit : s.overflow.toUInt64.toNat ≤ 1 := by
        rw [toNat_toUInt64]
        exact Bool.toNat_le _
      -- the cells of the other additions are still inside, because the size stays
      obtain ⟨sum, carry, m', hadds, hrun, hflag⟩ := ih (m := m.afterSum x s) hbit
        (by simpa only [size_afterSum] using hlinks)
      refine ⟨_, _, m', hadds.cons hc, ?_, ?_⟩
      · rw [runChain, bind_of_ok (runCall_link logger hx c), bind_of_ok (readInt_link hx _),
          bind_of_ok hrun, List.length_cons, List.range_succ_eq_map, List.map_cons, List.map_map,
          ← hadds.start]
        rfl
      · rw [hflag, if_neg (List.cons_ne_nil _ _)]
        by_cases hnil : links = []
        · subst hnil
          change s.overflow = (carry 0 != 0)
          rw [hadds.start]
          cases s.overflow <;> rfl
        · rw [if_neg hnil]
          rfl

/-- **The sums and the last carry of a chain are the digits of the exact sum.**  On every machine, a
chain of additions whose cells are inside the memory runs to its end: each call gives a sum that is
within its width, every carry is loaded as zero or one, and sums and last carry make up the sum of
the operands in the mixed radix of the widths.  After a chain that is not empty, the flag of the
machine is the last carry. -/
theorem runChain_exact (logger : Logger) (m : Machine) (links : List Link)
    (h : ∀ x ∈ links, x.cell.value.toNat + x.width.octets ≤ m.memory.size.bytes.toNat) :
    let n := links.length
    ∃ (sum carry : ℕ → UInt64) (m' : Machine), carry 0 = 0 ∧
      runChain logger links 0 m =
        .ok ((List.range n).map fun i => (.int (sum i), carry (i + 1))) m' ∧
      (∀ i : Fin n, (sum i).toNat < 2 ^ links[i].width.bits) ∧
      (∀ i ≤ n, carry i = 0 ∨ carry i = 1) ∧
      ∑ i : Fin n, (sum i).toNat * 2 ^ place links i + (carry n).toNat * 2 ^ place links n =
        ∑ i : Fin n, links[i].left.toNat % 2 ^ links[i].width.bits * 2 ^ place links i +
          ∑ i : Fin n, links[i].right.toNat % 2 ^ links[i].width.bits * 2 ^ place links i ∧
      (0 < n → m'.overflow = decide (carry n = 1)) := by
  intro n
  obtain ⟨sum, carry, m', hadds, hrun, hflag⟩ := runChain_adds logger (c := 0) (by decide) h
  have hbit : ∀ i ≤ n, carry i = 0 ∨ carry i = 1 := by
    intro i hi
    have hle := hadds.carry_le i hi
    rw [← UInt64.toNat_inj, ← UInt64.toNat_inj]
    change (carry i).toNat = 0 ∨ (carry i).toNat = 1
    omega
  refine ⟨sum, carry, m', hadds.start, hrun, hadds.sum_lt, hbit, hadds.value, fun hn => ?_⟩
  rw [hflag, if_neg (List.ne_nil_of_length_pos hn)]
  rcases hbit n (Nat.le_refl n) with hlast | hlast
  · rw [show carry links.length = 0 from hlast]
    rfl
  · rw [show carry links.length = 1 from hlast]
    rfl

/-- A chain of 64, 8 and 16 bits whose cells overlap in a memory of nine bytes, where the first two
additions carry: the sums are the digits of `2 ^ 64 + 255 * 2 ^ 64 + 7 * 2 ^ 72`. -/
theorem runChain_exact_overlapping :
    let m : Machine := { memory := .zeroed ⟨9⟩, settings := {} }
    let links : List Link :=
      [⟨.w64, 0xffffffffffffffff, 1, ⟨0⟩⟩, ⟨.w8, 0xff, 0x100, ⟨1⟩⟩, ⟨.w16, 3, 4, ⟨0⟩⟩]
    (∀ x ∈ links, x.cell.value.toNat + x.width.octets ≤ m.memory.size.bytes.toNat) ∧
      ∃ (sum carry : ℕ → UInt64) (m' : Machine),
        runChain {} links 0 m =
          .ok [(.int (sum 0), carry 1), (.int (sum 1), carry 2), (.int (sum 2), carry 3)] m' ∧
        (sum 0).toNat + (sum 1).toNat * 2 ^ 64 + (sum 2).toNat * 2 ^ 72 +
            (carry 3).toNat * 2 ^ 88 =
          2 ^ 64 + 255 * 2 ^ 64 + 7 * 2 ^ 72 ∧
        m'.overflow = decide (carry 3 = 1) := by
  intro m links
  have hinside : ∀ x ∈ links, x.cell.value.toNat + x.width.octets ≤ m.memory.size.bytes.toNat := by
    decide
  obtain ⟨sum, carry, m', -, hrun, -, -, hvalue, hflag⟩ := runChain_exact {} m links hinside
  refine ⟨hinside, sum, carry, m', hrun, ?_, hflag (by decide)⟩
  change ∑ i : Fin 3, _ + _ = ∑ i : Fin 3, _ + ∑ i : Fin 3, _ at hvalue
  rw [Fin.sum_univ_three, Fin.sum_univ_three, Fin.sum_univ_three] at hvalue
  change (sum 0).toNat * 2 ^ 0 + (sum 1).toNat * 2 ^ 64 + (sum 2).toNat * 2 ^ 72 +
    (carry 3).toNat * 2 ^ 88 = _ at hvalue
  rw [Nat.pow_zero, Nat.mul_one] at hvalue
  rw [hvalue]
  decide +kernel

end WordMachine.Machine
