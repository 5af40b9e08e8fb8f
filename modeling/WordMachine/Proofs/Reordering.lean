/-
**Calls on separate regions can be run in any order.**

The footprint of a call is the set of bytes that it may write: the place of a sum and of its flag,
the cell of a carry, or a region to be cleared.  A memory is handed from call to call, so the order
of calls matters when footprints meet.  This module proves that it does not matter otherwise: calls
whose footprints are pairwise disjoint leave the same memory in every order, and each of them gives
the same answer, whether it succeeds, fails at once or fails half-way.

Main definitions:

* `WordMachine.Call.footprint` — the bytes that a call may write;
* `WordMachine.Call.Commute` — calls whose bytes can be put in place in either order.

Main results:

* `WordMachine.Call.written_eq_none` — a call writes nothing outside its footprint;
* `WordMachine.Call.commute_of_disjoint` — calls with disjoint footprints commute;
* `WordMachine.Call.runAll_execute` — what a run of calls comes to, by induction on the calls;
* `WordMachine.Call.runAll_execute_perm` — **calls with pairwise disjoint footprints can be run in
  any order**.
-/

import Mathlib.Data.List.Pairwise
import Mathlib.Order.CompletePartialOrder
import Mathlib.Order.Interval.Set.Basic
import WordMachine.Proofs.CallEffect

set_option relaxedAutoImplicit false
set_option autoImplicit false

namespace WordMachine

/-! ### Footprints -/

/-- A store puts bytes in its region only. -/
theorem Write.mem_of_byte?_store {i : ℕ} {a : Address} {w : Width} {v : w.Word} {b : UInt8}
    (h : Write.byte? i (.store a w v) = some b) :
    i ∈ Set.Ico a.value.toNat (a.value.toNat + w.octets) := by
  rw [Write.byte?] at h
  split at h
  · assumption
  · cases h

/-- A fill puts bytes in its region only. -/
theorem Write.mem_of_byte?_fill {i : ℕ} {a : Address} {n : ByteCount} {b b' : UInt8}
    (h : Write.byte? i (.fill a n b) = some b') :
    i ∈ Set.Ico a.value.toNat (a.value.toNat + n.bytes.toNat) := by
  rw [Write.byte?] at h
  split at h
  · assumption
  · cases h

namespace Call

/-- The indices of the bytes that a call may write.  Regions end where exact arithmetic says; the
place of a flag wraps round. -/
def footprint (c : Call) : Set ℕ :=
  match c.intrinsic, c.args with
  | .addPair w flagOffset, .pair _ _ target =>
      Set.Ico target.value.toNat (target.value.toNat + w.octets) ∪
        {(target.value.toNat + flagOffset.toNat) % 2 ^ 64}
  | .addCarry w, .chain _ _ _ carryOut =>
      Set.Ico carryOut.value.toNat (carryOut.value.toNat + w.octets)
  | .zeroFill length, .region address =>
      Set.Ico address.value.toNat (address.value.toNat + length.bytes.toNat)
  | _, _ => ∅

/-- Every access in the plan of a call stays in its footprint. -/
theorem mem_footprint {c : Call} {p : Plan} (hplan : c.plan? = some p) {x : Access}
    (hx : x ∈ p.accesses) {i : ℕ} {b : UInt8} (hb : x.patch i = some b) : i ∈ c.footprint := by
  obtain ⟨intrinsic, args⟩ := c
  cases intrinsic with
  | addPair w flagOffset =>
      cases args with
      | pair left right target =>
          cases hplan
          rcases List.mem_pair.1 hx with rfl | rfl
          · exact Or.inl (Write.mem_of_byte?_store hb)
          · -- the flag is one byte wide, so its region is a single index
            have hflag := Write.mem_of_byte?_store hb
            rw [UInt64.toNat_ofNat', Set.mem_Ico, Width.octets] at hflag
            exact Or.inr (Set.mem_singleton_iff.2 (by omega))
      | chain => cases hplan
      | region => cases hplan
  | addCarry w =>
      cases args with
      | pair => cases hplan
      | chain left right carryIn carryOut =>
          cases hplan
          rw [List.mem_singleton] at hx
          subst hx
          exact Write.mem_of_byte?_store hb
      | region => cases hplan
  | zeroFill length =>
      cases args with
      | pair => cases hplan
      | chain => cases hplan
      | region address =>
          cases hplan
          rw [List.mem_singleton] at hx
          subst hx
          exact Write.mem_of_byte?_fill hb

/-- A call writes nothing outside its footprint. -/
theorem written_eq_none {c : Call} {i : ℕ} (h : i ∉ c.footprint) (size : ByteCount) :
    c.written size i = none := by
  cases hplan : c.plan? with
  | none => rw [written_of_no_plan hplan, Patch.empty_apply]
  | some p =>
      rw [written_of_plan hplan]
      cases hb : patchOf size p.accesses i with
      | none => rfl
      | some b =>
          obtain ⟨x, hx, hput⟩ := patch_of_patchOf hb
          exact absurd (mem_footprint hplan hx hput) h

/-! ### Calls that commute -/

/-- Calls whose bytes can be put in place in either order, on memories of the given size. -/
def Commute (size : ByteCount) (c d : Call) : Prop :=
  ∀ m : Memory, (m.patch (c.written size)).patch (d.written size) =
    (m.patch (d.written size)).patch (c.written size)

instance (size : ByteCount) : Std.Symm (Commute size) := ⟨fun _ _ h m => (h m).symm⟩

/-- Calls with disjoint footprints commute. -/
theorem commute_of_disjoint {c d : Call} (h : Disjoint c.footprint d.footprint)
    (size : ByteCount) : Commute size c d := by
  intro m
  refine Memory.patch_comm (fun i => ?_) m
  by_cases hc : i ∈ c.footprint
  · exact Or.inr (written_eq_none (Set.disjoint_left.1 h hc) size)
  · exact Or.inl (written_eq_none hc size)

/-- Among calls with pairwise disjoint footprints any two commute, also a call with itself. -/
theorem commute_of_mem {calls : List Call}
    (hdisjoint : calls.Pairwise fun c d => Disjoint c.footprint d.footprint) (size : ByteCount) :
    ∀ c ∈ calls, ∀ d ∈ calls, Commute size c d := by
  intro c hc d hd
  have hpairs : calls.Pairwise (Commute size) :=
    hdisjoint.imp fun h => commute_of_disjoint h size
  exact hpairs.forall_of_forall (fun _ _ _ => rfl) hc hd

/-! ### Runs of calls -/

/-- A run of calls: each gives its own answer, and the memory takes their bytes one after another. -/
theorem runAll_execute (calls : List Call) (m : Memory) :
    runAll execute calls m =
      (calls.map fun c => c.answer m.size,
        calls.foldl (fun memory c => memory.patch (c.written m.size)) m) := by
  induction calls generalizing m with
  | nil => rfl
  | cons c calls ih =>
      have hrest := ih (m.patch (c.written m.size))
      rw [Memory.size_patch] at hrest
      have hexecute := c.execute_memory m
      rw [runAll, List.map_cons, List.foldl_cons]
      cases hanswer : c.answer m.size with
      | ok o =>
          rw [hanswer] at hexecute
          rw [hexecute]
          simp only [hrest]
      | error f =>
          rw [hanswer] at hexecute
          rw [hexecute]
          simp only [hrest]

/-- **Calls with pairwise disjoint footprints can be run in any order.**  Running a permutation of
the calls leaves the same memory, and each call gives the same answer in both runs, whether that is
an outcome or a fault. -/
theorem runAll_execute_perm (m : Memory) {calls calls' : List Call}
    (hdisjoint : calls.Pairwise fun c d => Disjoint c.footprint d.footprint)
    (hperm : calls'.Perm calls) :
    let run := runAll execute calls m
    let run' := runAll execute calls' m
    run'.2 = run.2 ∧
      ∃ answers : Call → Except Fault Outcome,
        run.1 = calls.map answers ∧ run'.1 = calls'.map answers := by
  intro run run'
  have hrun : run = _ := runAll_execute calls m
  have hrun' : run' = _ := runAll_execute calls' m
  refine ⟨?_, fun c => c.answer m.size, ?_, ?_⟩
  · rw [hrun, hrun']
    refine hperm.foldl_eq' ?_ m
    intro c hc d hd memory
    exact commute_of_mem hdisjoint m.size c (hperm.subset hc) d (hperm.subset hd) memory
  · rw [hrun]
  · rw [hrun']

/-- Four calls on a memory of six bytes, run in order and backwards: a sum with its flag beside it, a
sum whose flag would lie outside, a carry beyond the end, and a call with arguments of another kind. -/
theorem runAll_execute_perm_backwards :
    let m : Memory := .zeroed ⟨6⟩
    let calls : List Call :=
      [⟨.addPair .w8 1, .pair 200 100 ⟨0⟩⟩, ⟨.addPair .w16 5, .pair 0xffff 2 ⟨2⟩⟩,
        ⟨.addCarry .w32, .chain 1 2 0 ⟨8⟩⟩, ⟨.zeroFill ⟨3⟩, .pair 1 2 ⟨0⟩⟩]
    (calls.Pairwise (fun c d => Disjoint c.footprint d.footprint) ∧ calls.reverse.Perm calls) ∧
      (runAll execute calls.reverse m).2 = (runAll execute calls m).2 ∧
      (runAll execute calls.reverse m).1 = (runAll execute calls m).1.reverse := by
  intro m calls
  have hdisjoint : calls.Pairwise fun c d => Disjoint c.footprint d.footprint := by
    simp only [calls, List.pairwise_cons, List.mem_cons, Set.disjoint_left, footprint]
    grind [Width.octets]
  have hperm := calls.reverse_perm
  obtain ⟨hmemory, answers, hanswers, hanswers'⟩ := runAll_execute_perm m hdisjoint hperm
  refine ⟨⟨hdisjoint, hperm⟩, hmemory, ?_⟩
  rw [hanswers, hanswers', List.map_reverse]

end Call

end WordMachine
