/-
**The accesses of a wide addition.**

A wide addition does not know what its memory is.  It stores a carry in its cell, loads whatever the
cell gives back, and starts the next limb from that, even when the memory has made something else of
the carry.  So its limbs are determined by the patterns that were loaded, and its accesses by the
carries that follow from them; this module says how, on every memory space and up to every fault.

Main definitions:

* `WordMachine.chainAccesses` — the accesses of a chain of additions with given totals.

Main results:

* `WordMachine.addPairs_spec` — what the chain makes of the patterns it loads, by induction on the
  limbs in step with the space;
* `WordMachine.addWide_accesses` — **the accesses and the result of a wide addition** on every
  memory space, as seen by a recorder in front of it.
-/

import Mathlib.Data.List.GetD
import WordMachine.Proofs.Accesses
import WordMachine.Proofs.CarryChain

set_option relaxedAutoImplicit false
set_option autoImplicit false

namespace WordMachine

variable {σ : Type} [MemorySpace σ]

/-! ### The accesses of a chain -/

/-- The accesses of a chain of `n` additions with the given totals: each stores whether its total
does not fit in the width, and loads the cell again. -/
def chainAccesses (w : Width) (cell : Address) (total : ℕ → ℕ) (n : ℕ) : List Access :=
  (List.range n).flatMap fun i =>
    [.store w cell (if 2 ^ w.bits ≤ total i then 1 else 0), .load w cell]

theorem chainAccesses_succ (w : Width) (cell : Address) (total : ℕ → ℕ) (n : ℕ) :
    chainAccesses w cell total (n + 1) =
      .store w cell (if 2 ^ w.bits ≤ total 0 then 1 else 0) :: .load w cell ::
        chainAccesses w cell (fun i => total (i + 1)) n := by
  rw [chainAccesses, List.range_succ_eq_map, List.flatMap_cons, List.flatMap_map]
  rfl

/-- The total of a limb: the parts of its pair inside the width, and the carry into it. -/
def limbTotal (w : Width) (pairs : List (UInt64 × UInt64)) (carry : ℕ → UInt64) (i : ℕ) : ℕ :=
  (pairs.getD i (0, 0)).1.toNat % 2 ^ w.bits + (pairs.getD i (0, 0)).2.toNat % 2 ^ w.bits +
    (carry i).toNat

/-- A carry followed by further carries. -/
def consCarry (c : UInt64) (carry : ℕ → UInt64) : ℕ → UInt64
  | 0 => c
  | i + 1 => carry i

theorem limbTotal_cons (w : Width) (p : UInt64 × UInt64) (pairs : List (UInt64 × UInt64))
    (c : UInt64) (carry : ℕ → UInt64) :
    (fun i => limbTotal w (p :: pairs) (consCarry c carry) (i + 1)) = limbTotal w pairs carry := rfl

theorem limbTotal_zero {w : Width} {l r c : UInt64} (pairs : List (UInt64 × UInt64))
    (carry : ℕ → UInt64) (hc : c.toNat < 2 ^ w.bits) :
    limbTotal w ((l, r) :: pairs) (consCarry c carry) 0 = w.exactSum [l, r, c] := by
  rw [Width.exactSum_triple, Nat.mod_eq_of_lt hc]
  rfl

/-- The word that a carry addition stores. -/
def carryWord (w : Width) (l r c : UInt64) : w.Word :=
  if 2 ^ w.bits ≤ w.exactSum [l, r, c] then 1 else 0

theorem word_carry (w : Width) (l r c : UInt64) :
    w.word (w.truncate (if (w.addWithCarry l r c).overflow then 1 else 0)) =
      carryWord w l r c := by
  rw [Width.word_flag, Width.addWithCarry_eq, carryWord]
  simp only [Width.checked, decide_eq_true_eq]

section Limb

variable {w : Width} {cell : Address} {l r c : UInt64} {s s' : σ}

theorem addCarry_of_store (h : MemorySpace.store w cell (carryWord w l r c) s = .ok () s') :
    addCarry w l r c cell s =
      .ok (UInt64.ofNat (w.exactSum [l, r, c] % 2 ^ w.bits)) s' := by
  rw [← word_carry] at h
  rw [addCarry, bind_of_ok (x := storeCarry w (w.addWithCarry l r c) cell) h,
    Width.addWithCarry_eq]
  rfl

theorem addCarry_of_store_error {f : Fault}
    (h : MemorySpace.store w cell (carryWord w l r c) s = .error f s') :
    addCarry w l r c cell s = .error f s' := by
  rw [← word_carry] at h
  exact bind_of_error (x := storeCarry w (w.addWithCarry l r c) cell) h _

theorem loadInt_of_load {v : w.Word} (h : MemorySpace.load w cell s = .ok v s') :
    loadInt cell w s = .ok (w.zeroExtend v) s' :=
  bind_of_ok h _

theorem loadInt_of_load_error {f : Fault}
    (h : (MemorySpace.load w cell : MemoryM σ w.Word) s = .error f s') :
    loadInt cell w s = .error f s' :=
  bind_of_error h _

/-- The plan of a chain begins with the accesses of its first limb. -/
theorem plan_cons (pairs : List (UInt64 × UInt64)) (carry : ℕ → UInt64)
    (hc : c.toNat < 2 ^ w.bits) :
    chainAccesses w cell (limbTotal w ((l, r) :: pairs) (consCarry c carry))
        ((l, r) :: pairs).length =
      .store w cell (carryWord w l r c) :: .load w cell ::
        chainAccesses w cell (limbTotal w pairs carry) pairs.length := by
  rw [List.length_cons, chainAccesses_succ, limbTotal_cons, limbTotal_zero pairs carry hc]
  rfl

end Limb

/-! ### The chain -/

/-- What a chain does from a space, given the carries `carry 0, carry 1, …` into its limbs.  When it
ends with a sum, it has made all its accesses and loaded the carries after the first; when it ends
with a fault, it has made the accesses before one that failed. -/
def ChainRun (w : Width) (cell : Address) (pairs : List (UInt64 × UInt64)) (carry : ℕ → UInt64)
    (s : σ) : EStateM.Result Fault σ WideSum → Prop
  | .ok sum s' =>
      makeAll (chainAccesses w cell (limbTotal w pairs carry) pairs.length) s =
          .ok ((List.range pairs.length).map fun i => carry (i + 1)) s' ∧
        sum.limbs = (List.range pairs.length).map
          (fun i => UInt64.ofNat (limbTotal w pairs carry i % 2 ^ w.bits)) ∧
        sum.carry = (carry pairs.length != 0)
  | .error f s' =>
      ∃ made last s'',
        made ++ [last] <+: chainAccesses w cell (limbTotal w pairs carry) pairs.length ∧
        makeAll made s = .ok ((List.range (made.length / 2)).map fun i => carry (i + 1)) s'' ∧
        last.make s'' = .error f s'

section Step

variable {w : Width} {cell : Address} {l r c : UInt64} {pairs : List (UInt64 × UInt64)}
  {carry : ℕ → UInt64} {v : w.Word} {s s₁ s₂ s' : σ}

/-- The accesses of one limb, in front of further ones. -/
theorem makeAll_limb {o : w.Word} {accesses : List Access} {patterns : List UInt64}
    (hstore : MemorySpace.store w cell o s = .ok () s₁)
    (hload : MemorySpace.load w cell s₁ = .ok v s₂)
    (hrest : makeAll accesses s₂ = .ok patterns s') :
    makeAll (.store w cell o :: .load w cell :: accesses) s =
      .ok (w.zeroExtend v :: patterns) s' :=
  makeAll_cons (make_store hstore) (makeAll_cons (make_load hload) hrest)

/-- A limb in front of a chain that ends with a sum. -/
theorem ChainRun.cons_ok {rest : WideSum} (hc : c.toNat < 2 ^ w.bits)
    (hstore : MemorySpace.store w cell (carryWord w l r c) s = .ok () s₁)
    (hload : MemorySpace.load w cell s₁ = .ok v s₂) (hv : carry 0 = w.zeroExtend v)
    (h : ChainRun w cell pairs carry s₂ (.ok rest s')) :
    ChainRun w cell ((l, r) :: pairs) (consCarry c carry) s
      (.ok ⟨UInt64.ofNat (w.exactSum [l, r, c] % 2 ^ w.bits) :: rest.limbs, rest.carry⟩ s') := by
  obtain ⟨hmade, hlimbs, hlast⟩ := h
  refine ⟨?_, ?_, hlast⟩
  · rw [plan_cons pairs carry hc, List.length_cons, List.range_succ_eq_map, List.map_cons,
      List.map_map]
    have hall := makeAll_limb hstore hload hmade
    rw [← hv] at hall
    exact hall
  · rw [List.length_cons, List.range_succ_eq_map, List.map_cons, List.map_map,
      limbTotal_zero pairs carry hc, hlimbs]
    rfl

/-- A limb in front of a chain that ends with a fault. -/
theorem ChainRun.cons_error {f : Fault} (hc : c.toNat < 2 ^ w.bits)
    (hstore : MemorySpace.store w cell (carryWord w l r c) s = .ok () s₁)
    (hload : MemorySpace.load w cell s₁ = .ok v s₂) (hv : carry 0 = w.zeroExtend v)
    (h : ChainRun w cell pairs carry s₂ (.error f s')) :
    ChainRun w cell ((l, r) :: pairs) (consCarry c carry) s (.error f s') := by
  obtain ⟨made, last, s'', hplan, hmade, hlast⟩ := h
  refine ⟨.store w cell (carryWord w l r c) :: .load w cell :: made, last, s'', ?_, ?_, hlast⟩
  · rw [plan_cons pairs carry hc, List.cons_append, List.cons_append, List.cons_prefix_cons,
      List.cons_prefix_cons]
    exact ⟨rfl, rfl, hplan⟩
  · -- a limb makes two accesses and loads one carry
    have hhalf : (made.length + 1 + 1) / 2 = made.length / 2 + 1 := by omega
    rw [List.length_cons, List.length_cons, hhalf, List.range_succ_eq_map, List.map_cons,
      List.map_map]
    have hall := makeAll_limb hstore hload hmade
    rw [← hv] at hall
    exact hall

end Step

/-- What a chain makes of the patterns that it loads, on every memory space. -/
theorem addPairs_spec (w : Width) (cell : Address) (pairs : List (UInt64 × UInt64)) {c : UInt64}
    (hc : c.toNat < 2 ^ w.bits) (s : σ) :
    ∃ carry : ℕ → UInt64, carry 0 = c ∧
      ChainRun w cell pairs carry s (addPairs w cell pairs c s) := by
  induction pairs generalizing c s with
  | nil => exact ⟨fun _ => c, rfl, rfl, rfl, rfl⟩
  | cons p pairs ih =>
      obtain ⟨l, r⟩ := p
      rw [addPairs]
      -- a fault ends the chain, so the carries after it are never needed
      cases hstore : (MemorySpace.store w cell (carryWord w l r c) : MemoryM σ Unit) s with
      | error f s₁ =>
          refine ⟨consCarry c fun _ => 0, rfl, ?_⟩
          rw [bind_of_error (addCarry_of_store_error hstore)]
          refine ⟨[], _, s, ?_, rfl, make_store_error hstore⟩
          rw [plan_cons pairs _ hc]
          exact List.prefix_append [_] _
      | ok u s₁ =>
          rw [bind_of_ok (addCarry_of_store hstore)]
          cases hload : (MemorySpace.load w cell : MemoryM σ w.Word) s₁ with
          | error f s₂ =>
              refine ⟨consCarry c fun _ => 0, rfl, ?_⟩
              rw [bind_of_error (loadInt_of_load_error hload)]
              refine ⟨[.store w cell (carryWord w l r c)], _, s₁, ?_, ?_, make_load_error hload⟩
              · rw [plan_cons pairs _ hc]
                exact List.prefix_append [_, _] _
              · simpa using makeAll_cons (make_store hstore) (makeAll_nil s₁)
          | ok v s₂ =>
              have hv : (w.zeroExtend v).toNat < 2 ^ w.bits := by
                rw [Width.toNat_zeroExtend]
                exact v.isLt
              obtain ⟨carry, hzero, hrest⟩ := ih hv s₂
              refine ⟨consCarry c carry, rfl, ?_⟩
              rw [bind_of_ok (loadInt_of_load hload)]
              cases hsum : addPairs w cell pairs (w.zeroExtend v) s₂ with
              | error f s' =>
                  rw [hsum] at hrest
                  rw [bind_of_error hsum]
                  exact hrest.cons_error hc hstore hload hzero
              | ok rest s' =>
                  rw [hsum] at hrest
                  rw [bind_of_ok hsum]
                  exact hrest.cons_ok hc hstore hload hzero

/-! ### Wide addition -/

theorem limbTotal_limbPairs (w : Width) (left right : List UInt64) (carry : ℕ → UInt64) :
    limbTotal w (limbPairs left right) carry =
      fun i => (left.getD i 0).toNat % 2 ^ w.bits + (right.getD i 0).toNat % 2 ^ w.bits +
        (carry i).toNat := by
  funext i
  rw [limbTotal, getD_limbPairs]

/-- **The accesses and the result of a wide addition**, on every memory space and from every state
of it.  The carries `carry 1, carry 2, …` are the patterns that the loads give; a recorder in front
of the space sees exactly the accesses that follow from them, all of them when the addition
succeeds, and up to the one that fails otherwise. -/
theorem addWide_accesses (w : Width) (left right : List UInt64) (cell : Address) (s : σ) :
    let n := max left.length right.length
    ∃ carry : ℕ → UInt64, carry 0 = 0 ∧
      let total := fun i =>
        (left.getD i 0).toNat % 2 ^ w.bits + (right.getD i 0).toNat % 2 ^ w.bits +
          (carry i).toNat
      let plan := chainAccesses w cell total n
      match addWide w left right cell ({ inner := s } : Recorder σ) with
      | .ok sum r =>
          addWide w left right cell s = .ok sum r.inner ∧ r.accesses = plan ∧
          makeAll plan s = .ok ((List.range n).map fun i => carry (i + 1)) r.inner ∧
          sum.limbs = (List.range n).map (fun i => UInt64.ofNat (total i % 2 ^ w.bits)) ∧
          sum.carry = decide (0 < n ∧ carry n ≠ 0)
      | .error f r =>
          addWide w left right cell s = .error f r.inner ∧
          ∃ made last, r.accesses = made ++ [last] ∧ made ++ [last] <+: plan ∧
            ∃ s', makeAll made s =
                .ok ((List.range (made.length / 2)).map fun i => carry (i + 1)) s' ∧
              last.make s' = .error f r.inner := by
  intro n
  obtain ⟨carry, hzero, hrun⟩ := addPairs_spec w cell (limbPairs left right) (c := 0)
    (Nat.two_pow_pos _) ({ inner := s } : Recorder σ)
  refine ⟨carry, hzero, ?_⟩
  intro total plan
  have hplan : chainAccesses w cell (limbTotal w (limbPairs left right) carry)
      (limbPairs left right).length = plan := by
    rw [limbTotal_limbPairs, length_limbPairs]
  have hbehind := Recorder.simulation.addWide w left right cell
    (s := s) (t := ({ inner := s } : Recorder σ)) ⟨rfl, rfl⟩
  have hrun : ChainRun w cell (limbPairs left right) carry ({ inner := s } : Recorder σ)
      (addWide w left right cell { inner := s }) := hrun
  generalize addWide w left right cell s = behind at hbehind ⊢
  generalize addWide w left right cell ({ inner := s } : Recorder σ) = seen at hbehind hrun ⊢
  cases hbehind with
  | @ok sum s' r hst =>
      obtain ⟨rfl, -⟩ := hst
      obtain ⟨hmade, hlimbs, hlast⟩ := hrun
      rw [hplan] at hmade
      rw [limbTotal_limbPairs, length_limbPairs] at hlimbs
      rw [length_limbPairs] at hmade hlast
      obtain ⟨hinner, hlist, -⟩ := Recorder.makeAll_ok rfl hmade
      refine ⟨rfl, hlist, hinner, hlimbs, ?_⟩
      rw [hlast, Bool.eq_iff_iff, bne_iff_ne, decide_eq_true_eq]
      constructor
      · -- a last carry that is not zero was loaded, so there was a limb
        intro hne
        refine ⟨Nat.pos_of_ne_zero fun hn => hne ?_, hne⟩
        change carry n = 0
        rw [hn, hzero]
      · exact fun h => h.2
  | @error f s' r hst =>
      obtain ⟨rfl, -⟩ := hst
      obtain ⟨made, last, r', hprefix, hmade, hfault⟩ := hrun
      rw [hplan] at hprefix
      -- the recorder has the accesses that succeeded, and the one that failed after them
      obtain ⟨hinner, hlist, hr'⟩ := Recorder.makeAll_ok rfl hmade
      obtain ⟨hfault, hentered⟩ := Recorder.make_error hr' hfault
      refine ⟨rfl, made, last, ?_, hprefix, r'.inner, hinner, hfault⟩
      rw [hentered, hlist]
      rfl

end WordMachine
