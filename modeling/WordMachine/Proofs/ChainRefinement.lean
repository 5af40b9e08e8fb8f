/-
**A chain of calls refines wide addition.**

What `WordMachine.addWide` does in one go on a memory space, a program can do by hand on a machine:
one carry addition after another at one width, each starting from the carry that is loaded from the
common cell.  The two loops go in step.  As long as no access fails they collect the same limbs and
leave the same memory, and the first fault ends both.  The machine has a flag besides, and after a
chain that came to its end the flag is the carry of the wide sum.

Main definitions:

* `WordMachine.Machine.Link.uniform` — the additions of pairs of limbs at one width with one cell;
* `WordMachine.Machine.lastCarry` — the carry that was loaded last.

Main results:

* `WordMachine.Machine.runChain_addPairs` — **the two loops go in step**, by induction on the limbs;
* `WordMachine.Machine.runChain_of_not_inside` — a chain whose cell is not inside the memory fails
  at its first addition;
* `WordMachine.Machine.runChain_refines_addWide` — **the chain refines wide addition**, with the
  flag after it.
-/

import WordMachine.Proofs.MixedChain

set_option relaxedAutoImplicit false
set_option autoImplicit false

namespace WordMachine

/-- The limbs of two numbers side by side, by their index. -/
theorem limbPairs_eq_map_range (left right : List UInt64) :
    limbPairs left right =
      (List.range (max left.length right.length)).map fun i =>
        (left.getD i 0, right.getD i 0) := by
  refine List.ext_getElem (by simp) ?_
  intro i h₁ h₂
  rw [List.getElem_map, List.getElem_range, ← getD_limbPairs, List.getD_eq_getElem _ _ h₁]

namespace Machine

open Log (Logger)

/-! ### Steps that fail -/

section Step

variable (logger : Logger) {m : Machine} {f : Fault} {memory : Memory}

/-- A call that fails leaves the memory that executing it does, and everything else as it was. -/
theorem runCall_of_error {c : Call} (h : c.execute m.memory = .error f memory) :
    runCall logger c m = .error f { m with memory } := by
  rw [runCall, call, h]

theorem readInt_of_error {a : Address} {w : Width} (h : loadInt a w m.memory = .error f memory) :
    readInt a w m = .error f { m with memory } := by
  rw [readInt, h]

/-- The call of a link succeeds when its addition does, and sets the flag. -/
theorem runCall_link_of_ok {x : Link} {carry sum : UInt64}
    (h : addCarry x.width x.left x.right carry x.cell m.memory = .ok sum memory) :
    runCall logger (x.call carry) m =
      .ok (.int sum)
        { m with memory, overflow := (x.width.addWithCarry x.left x.right carry).overflow } := by
  have hexecute := map_of_ok h fun sum =>
    (⟨.int sum, some (x.width.addWithCarry x.left x.right carry).overflow⟩ : Outcome)
  rw [← execute_addCarry] at hexecute
  exact runCall_of_ok logger hexecute

/-- The call of a link fails when its addition does. -/
theorem runCall_link_of_error {x : Link} {carry : UInt64}
    (h : addCarry x.width x.left x.right carry x.cell m.memory = .error f memory) :
    runCall logger (x.call carry) m = .error f { m with memory } := by
  have hexecute := map_of_error h fun sum =>
    (⟨.int sum, some (x.width.addWithCarry x.left x.right carry).overflow⟩ : Outcome)
  rw [← execute_addCarry] at hexecute
  exact runCall_of_error logger hexecute

end Step

/-! ### Chains at one width -/

/-- The additions of pairs of limbs, at one width and with one cell. -/
def Link.uniform (w : Width) (cell : Address) (pairs : List (UInt64 × UInt64)) : List Link :=
  pairs.map fun p => ⟨w, p.1, p.2, cell⟩

/-- The carry that was loaded last, or the one that a chain without additions starts from. -/
def lastCarry (carry : UInt64) (steps : List (Value × UInt64)) : UInt64 :=
  (steps.map Prod.snd).getLastD carry

@[simp] theorem lastCarry_cons (carry next : UInt64) (v : Value) (steps : List (Value × UInt64)) :
    lastCarry carry ((v, next) :: steps) = lastCarry next steps := by
  cases steps <;> rfl

section Uniform

variable (logger : Logger) {w : Width} {cell : Address}

/-- **The two loops go in step**, from every machine and with every carry-in: the chain of calls
collects the limbs of the addition of the pairs, leaves its memory, and ends with its fault. -/
theorem runChain_addPairs (w : Width) (cell : Address) (pairs : List (UInt64 × UInt64))
    (carry : UInt64) (m : Machine) :
    match addPairs w cell pairs carry m.memory with
    | .ok sum memory =>
        ∃ steps overflow,
          runChain logger (Link.uniform w cell pairs) carry m =
            .ok steps { m with memory, overflow } ∧
          steps.map Prod.fst = sum.limbs.map Value.int ∧ sum.carry = (lastCarry carry steps != 0)
    | .error f memory =>
        ∃ overflow,
          runChain logger (Link.uniform w cell pairs) carry m =
            .error f { m with memory, overflow } := by
  induction pairs generalizing carry m with
  | nil => exact ⟨[], m.overflow, rfl, rfl, rfl⟩
  | cons p pairs ih =>
      obtain ⟨l, r⟩ := p
      let x : Link := ⟨w, l, r, cell⟩
      rw [addPairs, Link.uniform, List.map_cons, ← Link.uniform, runChain]
      cases hadd : (addCarry w l r carry cell : MemoryM Memory UInt64) m.memory with
      | error f memory =>
          rw [bind_of_error hadd]
          exact ⟨m.overflow, bind_of_error (runCall_link_of_error logger (x := x) hadd) _⟩
      | ok limb memory =>
          rw [bind_of_ok hadd, bind_of_ok (runCall_link_of_ok logger (x := x) hadd)]
          -- the machine between the call and the load
          let m₁ : Machine := { m with memory, overflow := (w.addWithCarry l r carry).overflow }
          cases hload : (loadInt cell w : MemoryM Memory UInt64) memory with
          | error f memory' =>
              rw [bind_of_error hload]
              exact ⟨m₁.overflow, bind_of_error (readInt_of_error (m := m₁) hload) _⟩
          | ok next memory' =>
              rw [bind_of_ok hload, bind_of_ok (readInt_of_ok (m := m₁) hload)]
              have hrest := ih next { m₁ with memory := memory' }
              cases hpairs : (addPairs w cell pairs next : MemoryM Memory WideSum) memory' with
              | error f memory'' =>
                  rw [hpairs] at hrest
                  obtain ⟨overflow, hrest⟩ := hrest
                  rw [bind_of_error hpairs]
                  exact ⟨overflow, bind_of_error hrest _⟩
              | ok sum memory'' =>
                  rw [hpairs] at hrest
                  obtain ⟨steps, overflow, hrest, hlimbs, hcarry⟩ := hrest
                  rw [bind_of_ok hpairs]
                  refine ⟨(.int limb, next) :: steps, overflow, bind_of_ok hrest _, ?_, ?_⟩
                  · rw [List.map_cons, hlimbs]
                    rfl
                  · rw [lastCarry_cons]
                    exact hcarry

/-- After a chain whose cell is inside the memory, the flag is whether the carry loaded last is not
zero; a chain without additions does not touch it. -/
theorem overflow_runChain {m m' : Machine} {pairs : List (UInt64 × UInt64)}
    {steps : List (Value × UInt64)}
    (h : cell.value.toNat + w.octets ≤ m.memory.size.bytes.toNat)
    (hrun : runChain logger (Link.uniform w cell pairs) 0 m = .ok steps m') :
    m'.overflow = if pairs = [] then m.overflow else lastCarry 0 steps != 0 := by
  have hinside : ∀ x ∈ Link.uniform w cell pairs,
      x.cell.value.toNat + x.width.octets ≤ m.memory.size.bytes.toNat := by
    intro x hx
    obtain ⟨p, -, rfl⟩ := List.mem_map.1 hx
    exact h
  obtain ⟨sum, carry, m'', hadds, hrun', hflag⟩ := runChain_adds logger (c := 0) (by decide) hinside
  rw [hrun'] at hrun
  cases hrun
  rw [hflag]
  cases pairs with
  | nil => rfl
  | cons p pairs =>
      rw [if_neg (by simp [Link.uniform]), if_neg (by simp), lastCarry, List.map_map]
      simp [Link.uniform, List.range_succ]

/-- A chain whose cell is not inside the memory fails at its first addition, and changes nothing. -/
theorem runChain_of_not_inside {m : Machine}
    (h : ¬ cell.value.toNat + w.octets ≤ m.memory.size.bytes.toNat) (p : UInt64 × UInt64)
    (pairs : List (UInt64 × UInt64)) (carry : UInt64) :
    runChain logger (Link.uniform w cell (p :: pairs)) carry m =
      .error (.outOfBounds .store cell w.byteCount m.memory.size) m := by
  have hadd := addCarry_memory_of_not_inside h p.1 p.2 carry
  exact bind_of_error (runCall_link_of_error logger (x := ⟨w, p.1, p.2, cell⟩) hadd) _

end Uniform

/-! ### Wide addition -/

/-- **The chain refines wide addition.**  On every machine, the chain of carry additions of two lists
of limbs, the shorter one filled up with zeros, does what wide addition does on its memory: when that
succeeds, the chain gives the same limbs and leaves the same memory, and the flag is the carry of the
wide sum, or what it was when there are no limbs; when that fails, the chain fails with the same fault
and leaves the same memory, and the flag is what it was. -/
theorem runChain_refines_addWide (logger : Logger) (m : Machine) (w : Width)
    (left right : List UInt64) (cell : Address) :
    let n := max left.length right.length
    let links : List Link :=
      (List.range n).map fun i => ⟨w, left.getD i 0, right.getD i 0, cell⟩
    match addWide w left right cell m.memory with
    | .ok sum memory =>
        ∃ steps,
          runChain logger links 0 m =
            .ok steps { m with memory, overflow := if n = 0 then m.overflow else sum.carry } ∧
          steps.map Prod.fst = sum.limbs.map Value.int
    | .error f memory => runChain logger links 0 m = .error f { m with memory } := by
  intro n links
  set pairs := limbPairs left right with hpairs
  have hlinks : links = Link.uniform w cell pairs := by
    rw [Link.uniform, hpairs, limbPairs_eq_map_range, List.map_map]
    rfl
  have hlen : pairs = [] ↔ n = 0 := by
    rw [← List.length_eq_zero_iff, hpairs, length_limbPairs]
  have hstep := runChain_addPairs logger w cell pairs 0 m
  have haddWide : addWide w left right cell m.memory = addPairs w cell pairs 0 m.memory := rfl
  rw [haddWide, hlinks]
  by_cases hin : cell.value.toNat + w.octets ≤ m.memory.size.bytes.toNat
  · -- every addition succeeds, and the flag is the last carry
    rw [addPairs_memory hin] at hstep ⊢
    obtain ⟨steps, overflow, hrun, hlimbs, hcarry⟩ := hstep
    have hflag := overflow_runChain logger hin hrun
    refine ⟨steps, ?_, hlimbs⟩
    rw [hrun, show overflow = _ from hflag, hcarry]
    simp only [hlen]
  · -- the first addition fails, if there is one
    cases hcases : pairs with
    | nil =>
        have hn : n = 0 := hlen.1 hcases
        exact ⟨[], by rw [if_pos hn]; rfl, rfl⟩
    | cons p rest =>
        have hfirst : addPairs w cell (p :: rest) 0 m.memory =
            .error (.outOfBounds .store cell w.byteCount m.memory.size) m.memory :=
          bind_of_error (addCarry_memory_of_not_inside hin p.1 p.2 0) _
        rw [hfirst]
        exact runChain_of_not_inside logger hin p rest 0

end Machine

end WordMachine
