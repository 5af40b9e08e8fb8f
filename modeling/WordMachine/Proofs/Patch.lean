/-
**Accesses as patches.**

What a store or a fill does to a flat memory does not depend on the bytes that the memory holds: it
puts certain bytes at certain indices, when its region is inside, and nothing anywhere when it is
not, and whether the region is inside is a matter of the size alone.  This module separates the two.
A patch says which bytes are put where; a memory with a patch put in place is a memory again; and
accesses made in order, up to the first that fails, amount to one patch that is known from the size
of the memory.

Main definitions:

* `WordMachine.Patch`, `WordMachine.Memory.patch` — bytes for some indices, and a memory with these
  bytes put in place;
* `WordMachine.Access.extent`, `WordMachine.Extent.fault?` — the region of an access, and the fault
  that an access to a region is on a memory of some size;
* `WordMachine.Access.patch`, `WordMachine.patchOf` — the bytes that one access puts in place, and
  that accesses made in order do;
* `WordMachine.faultOf?` — the fault that accesses made in order end with.

Main results:

* `WordMachine.Memory.patch_patch` — a patch on top of another is one patch;
* `WordMachine.Memory.patch_self`, `WordMachine.Memory.patch_comm` — putting a patch in place again
  changes nothing, and patches at different indices commute;
* `WordMachine.Access.make_memory` — one access is its patch, or its fault;
* `WordMachine.makeAll_memory` — **accesses made in order are their patch**, by induction on them.
-/

import WordMachine.Proofs.Accesses
import WordMachine.Proofs.History

set_option relaxedAutoImplicit false
set_option autoImplicit false

namespace WordMachine

/-! ### Patches -/

/-- Bytes to be put at some indices of a memory. -/
abbrev Patch := ℕ → Option UInt8

namespace Patch

/-- The patch that puts nothing anywhere. -/
def empty : Patch := fun _ => none

/-- A patch on top of another one: where both put a byte, the upper one does. -/
def atop (q p : Patch) : Patch := fun i => (q i).or (p i)

@[simp] theorem empty_apply (i : ℕ) : empty i = none := rfl

theorem atop_apply (q p : Patch) (i : ℕ) : q.atop p i = (q i).or (p i) := rfl

end Patch

namespace Memory

/-- The memory with the bytes of a patch put in place, as far as it reaches. -/
def patch (m : Memory) (p : Patch) : Memory :=
  ⟨m.bytes.mapIdx fun i b => (p i).getD b, by simpa using m.size_lt⟩

@[simp] theorem size_patch (m : Memory) (p : Patch) : (m.patch p).size = m.size := by
  simp [size, patch]

theorem byte_patch {m : Memory} {i : ℕ} (hi : i < m.size.bytes.toNat) (p : Patch) :
    (m.patch p).byte i = (p i).getD (m.byte i) := by
  rw [toNat_size] at hi
  simp [byte, patch, hi]

/-- A memory is one with a patch put in place when its bytes are. -/
theorem eq_patch {m m' : Memory} {p : Patch} (hsize : m'.size = m.size)
    (hbyte : ∀ i < m.size.bytes.toNat, m'.byte i = (p i).getD (m.byte i)) : m' = m.patch p := by
  refine ext_byte (by rw [hsize, size_patch]) fun i hi => ?_
  rw [hsize] at hi
  rw [hbyte i hi, byte_patch hi]

@[simp] theorem patch_empty (m : Memory) : m.patch .empty = m :=
  (eq_patch rfl fun _ _ => rfl).symm

/-- A patch on top of another is one patch. -/
theorem patch_patch (m : Memory) (p q : Patch) : (m.patch p).patch q = m.patch (q.atop p) := by
  refine eq_patch (by simp) fun i hi => ?_
  rw [byte_patch (by simpa using hi), byte_patch hi, Patch.atop_apply]
  cases q i <;> rfl

/-- Putting a patch in place a second time changes nothing. -/
theorem patch_self (m : Memory) (p : Patch) : (m.patch p).patch p = m.patch p := by
  have hatop : p.atop p = p := by
    funext i
    rw [Patch.atop_apply]
    cases p i <;> rfl
  rw [patch_patch, hatop]

/-- Patches that put no bytes at a common index can be put in place in either order. -/
theorem patch_comm {p q : Patch} (h : ∀ i, p i = none ∨ q i = none) (m : Memory) :
    (m.patch p).patch q = (m.patch q).patch p := by
  have hatop : q.atop p = p.atop q := by
    funext i
    rw [Patch.atop_apply, Patch.atop_apply]
    rcases h i with hp | hq
    · rw [hp]
      cases q i <;> rfl
    · rw [hq]
      cases p i <;> rfl
  rw [patch_patch, patch_patch, hatop]

end Memory

/-! ### The regions of accesses -/

/-- The region of an access, and its direction. -/
structure Extent where
  kind : AccessKind
  address : Address
  length : ByteCount

/-- The fault that an access to a region is on a memory of the given size, if it is one. -/
def Extent.fault? (size : ByteCount) (e : Extent) : Option Fault :=
  if e.length.bytes.toNat = 0 ∨
      e.address.value.toNat + e.length.bytes.toNat ≤ size.bytes.toNat then none
  else some (.outOfBounds e.kind e.address e.length size)

namespace Access

/-- The region that an access is made to. -/
def extent : Access → Extent
  | store w a _ => ⟨.store, a, w.byteCount⟩
  | load w a => ⟨.load, a, w.byteCount⟩
  | fillZero a n => ⟨.store, a, n⟩

/-- The bytes that an access puts in place when it succeeds. -/
def patch : Access → Patch
  | store w a v => fun i => Write.byte? i (.store a w v)
  | load _ _ => .empty
  | fillZero a n => fun i => Write.byte? i (.fill a n 0)

theorem fault?_extent_of_inside {m : Memory} {x : Access}
    (h : m.Inside x.extent.address x.extent.length) : x.extent.fault? m.size = none :=
  if_pos h

theorem fault?_extent_of_not_inside {m : Memory} {x : Access}
    (h : ¬ m.Inside x.extent.address x.extent.length) :
    x.extent.fault? m.size =
      some (.outOfBounds x.extent.kind x.extent.address x.extent.length m.size) :=
  if_neg h

/-- An access whose region is inside a memory puts its patch in place. -/
theorem make_of_inside {m : Memory} (x : Access) (h : m.Inside x.extent.address x.extent.length) :
    ∃ loaded, x.make m = .ok loaded (m.patch x.patch) := by
  cases x with
  | store w a v =>
      have h : m.Inside a w.byteCount := h
      have hstore := Memory.store_eq m w a v
      rw [if_pos h, Memory.eq_patch (Memory.size_overwrite _ _ _) fun i _ =>
        History.byte_overwrite_encode w v i (Memory.inside_byteCount_iff.1 h)] at hstore
      exact ⟨[], make_store hstore⟩
  | load w a =>
      have h : m.Inside a w.byteCount := h
      have hload := Memory.load_eq m w a
      rw [if_pos h] at hload
      exact ⟨_, (make_load hload).trans (by rw [patch, Memory.patch_empty])⟩
  | fillZero a n =>
      have h : m.Inside a n := h
      have hfill := Memory.fill_eq m a n 0
      rw [if_pos h, Memory.eq_patch (Memory.size_overwriteWith _ _ _ _) fun i _ =>
        History.byte_overwriteWith_fill h 0 i] at hfill
      exact ⟨[], bind_of_ok hfill _⟩

/-- Every other access fails, and leaves the memory as it was. -/
theorem make_of_not_inside {m : Memory} (x : Access)
    (h : ¬ m.Inside x.extent.address x.extent.length) :
    x.make m =
      .error (.outOfBounds x.extent.kind x.extent.address x.extent.length m.size) m := by
  cases x with
  | store w a v => exact make_store_error ((Memory.store_eq m w a v).trans (if_neg h))
  | load w a => exact make_load_error ((Memory.load_eq m w a).trans (if_neg h))
  | fillZero a n => exact bind_of_error ((Memory.fill_eq m a n 0).trans (if_neg h)) _

/-- One access to a flat memory is its patch, or its fault. -/
theorem make_memory (x : Access) (m : Memory) :
    match x.extent.fault? m.size with
    | none => ∃ loaded, x.make m = .ok loaded (m.patch x.patch)
    | some f => x.make m = .error f m := by
  by_cases h : m.Inside x.extent.address x.extent.length
  · rw [fault?_extent_of_inside h]
    exact make_of_inside x h
  · rw [fault?_extent_of_not_inside h]
    exact make_of_not_inside x h

end Access

/-! ### Accesses in order -/

/-- The fault that accesses made in order to a memory of the given size end with, if they do: it is
known from their regions. -/
def faultOf? (size : ByteCount) (accesses : List Access) : Option Fault :=
  (accesses.map Access.extent).findSome? (Extent.fault? size)

/-- The bytes that accesses made in order put in place, up to the first that fails. -/
def patchOf (size : ByteCount) : List Access → Patch
  | [] => .empty
  | x :: accesses =>
      match x.extent.fault? size with
      | none => (patchOf size accesses).atop x.patch
      | some _ => .empty

/-- What accesses made in order put at an index, one of them does. -/
theorem patch_of_patchOf {size : ByteCount} {accesses : List Access} {i : ℕ} {b : UInt8}
    (h : patchOf size accesses i = some b) : ∃ x ∈ accesses, x.patch i = some b := by
  induction accesses with
  | nil => simp [patchOf] at h
  | cons x accesses ih =>
      rw [patchOf] at h
      cases hx : x.extent.fault? size with
      | some f => simp [hx] at h
      | none =>
          simp only [hx, Patch.atop_apply, Option.or_eq_some_iff] at h
          rcases h with h | ⟨-, h⟩
          · obtain ⟨y, hy, hbyte⟩ := ih h
            exact ⟨y, List.mem_cons_of_mem _ hy, hbyte⟩
          · exact ⟨x, List.mem_cons_self, h⟩

/-- **Accesses made in order are their patch**, on every flat memory: they put it in place, and end
with the fault of the first of them that does not fit, if there is one. -/
theorem makeAll_memory (accesses : List Access) (m : Memory) :
    match faultOf? m.size accesses with
    | none => ∃ loaded, makeAll accesses m = .ok loaded (m.patch (patchOf m.size accesses))
    | some f => makeAll accesses m = .error f (m.patch (patchOf m.size accesses)) := by
  induction accesses generalizing m with
  | nil => exact ⟨[], by rw [patchOf, Memory.patch_empty, makeAll_nil]⟩
  | cons x accesses ih =>
      have hmake := x.make_memory m
      rw [faultOf?, List.map_cons, List.findSome?_cons, patchOf]
      cases hx : x.extent.fault? m.size with
      | some f =>
          rw [hx] at hmake
          simp only [Memory.patch_empty]
          exact bind_of_error hmake _
      | none =>
          rw [hx] at hmake
          obtain ⟨loaded, hmake⟩ := hmake
          -- the size stays, so the accesses that follow have the faults they had before
          have hrest := ih (m.patch x.patch)
          rw [Memory.size_patch, Memory.patch_patch, faultOf?] at hrest
          cases hfault : (accesses.map Access.extent).findSome? (Extent.fault? m.size) with
          | none =>
              rw [hfault] at hrest
              obtain ⟨rest, hrest⟩ := hrest
              exact ⟨loaded ++ rest, makeAll_cons hmake hrest⟩
          | some f =>
              rw [hfault] at hrest
              exact (bind_of_ok hmake _).trans (bind_of_error hrest _)

end WordMachine
