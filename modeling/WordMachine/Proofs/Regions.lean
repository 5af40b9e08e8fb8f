/-
**Filling regions.**

A region is filled with one byte, by clearing it or by a fill with any byte.  That is one access, so it
is made as a whole or not at all, and it touches the bytes of its region and no others.  What it leaves
behind depends on the region alone and not on how often or in how many steps it was filled: a region
may be filled again, or in two parts that meet at any place, in either order.

Main definitions:

* `WordMachine.Fills` — what it is for an action to fill a region with a byte;
* `WordMachine.Overwrites` — single accesses that replace the bytes of a region.

Main results:

* `WordMachine.Memory.mem_parts` — a region consists of its two parts;
* `WordMachine.Memory.overwriteWith_parts` — filling both parts is filling the region;
* `WordMachine.Overwrites.fills` — an action that replaces the bytes of its region fills regions;
* `WordMachine.filling_exact` — **clearing and filling** on every flat memory.
-/

import WordMachine.Intrinsic.Effect
import WordMachine.Proofs.Bounds

set_option relaxedAutoImplicit false
set_option autoImplicit false

namespace WordMachine

namespace Memory

variable {m : Memory} {a : Address} {n p q : ByteCount}

/-! ### Parts of a region -/

/-- The first part of a region inside the memory is inside. -/
theorem Inside.first (h : m.Inside a n) (hn : p.bytes.toNat + q.bytes.toNat = n.bytes.toNat) :
    m.Inside a p := by
  unfold Inside at h ⊢
  omega

/-- The second part of a region inside the memory begins where the first one ends, unless it is
empty. -/
theorem Inside.toNat_second (h : m.Inside a n)
    (hn : p.bytes.toNat + q.bytes.toNat = n.bytes.toNat) (hq : q.bytes.toNat ≠ 0) :
    (a.advance p.bytes).value.toNat = a.value.toNat + p.bytes.toNat := by
  have hsize := m.size.bytes.toNat_lt
  unfold Inside at h
  rw [Address.toNat_advance]
  exact Nat.mod_eq_of_lt (by omega)

/-- So the second part is inside as well. -/
theorem Inside.second (h : m.Inside a n) (hn : p.bytes.toNat + q.bytes.toNat = n.bytes.toNat) :
    m.Inside (a.advance p.bytes) q := by
  by_cases hq : q.bytes.toNat = 0
  · exact Or.inl hq
  · have hplace := h.toNat_second hn hq
    unfold Inside at h ⊢
    omega

/-- A region consists of its two parts. -/
theorem mem_parts (h : m.Inside a n) (hn : p.bytes.toNat + q.bytes.toNat = n.bytes.toNat) (i : ℕ) :
    a.value.toNat ≤ i ∧ i < a.value.toNat + n.bytes.toNat ↔
      (a.value.toNat ≤ i ∧ i < a.value.toNat + p.bytes.toNat) ∨
        (a.advance p.bytes).value.toNat ≤ i ∧
          i < (a.advance p.bytes).value.toNat + q.bytes.toNat := by
  by_cases hq : q.bytes.toNat = 0
  · omega
  · have hplace := h.toNat_second hn hq
    omega

/-! ### Filled regions -/

theorem inside_overwriteWith (i : ℕ) (b : UInt8) (k : ℕ) :
    (m.overwriteWith i b k).Inside a n ↔ m.Inside a n := by
  rw [Inside, Inside, size_overwriteWith]

/-- Filling a region again changes nothing. -/
theorem overwriteWith_again (h : m.Inside a n) (b : UInt8) :
    (m.overwriteWith a.value.toNat b n.bytes.toNat).overwriteWith a.value.toNat b n.bytes.toNat =
      m.overwriteWith a.value.toNat b n.bytes.toNat := by
  refine ext_byte (size_overwriteWith _ _ _ _) fun i _ => ?_
  rw [byte_overwriteWith_of_inside ((inside_overwriteWith _ _ _).2 h),
    byte_overwriteWith_of_inside h]
  split <;> rfl

/-- Filling both parts of a region, in either order, is filling the region. -/
theorem overwriteWith_parts (h : m.Inside a n)
    (hn : p.bytes.toNat + q.bytes.toNat = n.bytes.toNat) (b : UInt8) :
    let second := (a.advance p.bytes).value.toNat
    (m.overwriteWith a.value.toNat b p.bytes.toNat).overwriteWith second b q.bytes.toNat =
        m.overwriteWith a.value.toNat b n.bytes.toNat ∧
      (m.overwriteWith second b q.bytes.toNat).overwriteWith a.value.toNat b p.bytes.toNat =
        m.overwriteWith a.value.toNat b n.bytes.toNat := by
  intro second
  have hfirst := h.first hn
  have hsecond := h.second hn
  constructor
  · refine ext_byte (by simp only [size_overwriteWith]) fun i _ => ?_
    rw [byte_overwriteWith_of_inside ((inside_overwriteWith _ _ _).2 hsecond),
      byte_overwriteWith_of_inside hfirst, byte_overwriteWith_of_inside h]
    simp only [(mem_parts h hn i).trans or_comm, ite_or]
  · refine ext_byte (by simp only [size_overwriteWith]) fun i _ => ?_
    rw [byte_overwriteWith_of_inside ((inside_overwriteWith _ _ _).2 hfirst),
      byte_overwriteWith_of_inside hsecond, byte_overwriteWith_of_inside h]
    simp only [mem_parts h hn i, ite_or]

/-- A region that was filled shows as many copies of the byte. -/
theorem read_overwriteWith (h : m.Inside a n) (b : UInt8) :
    (m.overwriteWith a.value.toNat b n.bytes.toNat).read a n =
      .ok (List.replicate n.bytes.toNat b) := by
  have hin : (m.overwriteWith a.value.toNat b n.bytes.toNat).Inside a n :=
    (inside_overwriteWith _ _ _).2 h
  rw [read_eq, if_pos hin, slice_of_inside hin]
  refine congrArg Except.ok (List.eq_replicate_iff.2 ⟨by simp, fun x hx => ?_⟩)
  obtain ⟨j, hj, rfl⟩ := List.mem_map.1 hx
  have hlt : j < n.bytes.toNat := List.mem_range.1 hj
  rw [byte_overwriteWith_of_inside h, if_pos (by omega)]

end Memory

/-! ### Actions that fill regions -/

/-- An action fills the region of `n` bytes at `a` with `b`. -/
structure Fills {α : Type} (act : Address → ByteCount → MemoryM Memory α) (value : Address → α)
    (b : UInt8) (m : Memory) (a : Address) (n : ByteCount) : Prop where
  /-- It gives its value exactly when the region is empty or ends inside the memory. -/
  succeeds_iff : (∃ m', act a n m = .ok (value a) m') ↔
    n.bytes.toNat = 0 ∨ a.value.toNat + n.bytes.toNat ≤ m.size.bytes.toNat
  /-- It has no other value, and then the region is filled and the rest is as it was. -/
  bytes_after : ∀ v m', act a n m = .ok v m' → v = value a ∧ m'.size = m.size ∧
    ∀ i, m'.byte i =
      if a.value.toNat ≤ i ∧ i < a.value.toNat + n.bytes.toNat then b else m.byte i
  /-- The region shows nothing but the byte. -/
  shows : ∀ v m', act a n m = .ok v m' → m'.read a n = .ok (List.replicate n.bytes.toNat b)
  /-- An empty region may be anywhere, and nothing changes. -/
  empty : n.bytes.toNat = 0 → act a n m = .ok (value a) m
  /-- A second time nothing changes. -/
  again : ∀ v m', act a n m = .ok v m' → act a n m' = .ok v m'
  /-- Two parts of the region can be filled instead, in either order. -/
  parts : ∀ v m', act a n m = .ok v m' → ∀ p q : ByteCount,
    p.bytes.toNat + q.bytes.toNat = n.bytes.toNat →
      (∃ m₁, act a p m = .ok (value a) m₁ ∧
        act (a.advance p.bytes) q m₁ = .ok (value (a.advance p.bytes)) m') ∧
      ∃ m₁, act (a.advance p.bytes) q m = .ok (value (a.advance p.bytes)) m₁ ∧
        act a p m₁ = .ok (value a) m'
  /-- A failure leaves every byte as it was, also those of the region that the memory has. -/
  unchanged : ∀ f m', act a n m = .error f m' → f = .outOfBounds .store a n m.size ∧ m' = m

/-- An action replaces the bytes of its region by `b` as a single access. -/
def Overwrites {α : Type} (act : Address → ByteCount → MemoryM Memory α) (value : Address → α)
    (b : UInt8) : Prop :=
  ∀ a n m, act a n m =
    if m.Inside a n then .ok (value a) (m.overwriteWith a.value.toNat b n.bytes.toNat)
    else .error (.outOfBounds .store a n m.size) m

namespace Overwrites

variable {α : Type} {act : Address → ByteCount → MemoryM Memory α} {value : Address → α}
  {b : UInt8} {m m' : Memory} {a : Address} {n : ByteCount}

theorem run_of_inside (hact : Overwrites act value b) (h : m.Inside a n) :
    act a n m = .ok (value a) (m.overwriteWith a.value.toNat b n.bytes.toNat) := by
  rw [hact, if_pos h]

/-- What a success says. -/
theorem of_ok (hact : Overwrites act value b) {v : α} (hrun : act a n m = .ok v m') :
    m.Inside a n ∧ v = value a ∧ m' = m.overwriteWith a.value.toNat b n.bytes.toNat := by
  rw [hact] at hrun
  split at hrun
  · rename_i h
    cases hrun
    exact ⟨h, rfl, rfl⟩
  · cases hrun

/-- What a failure says. -/
theorem of_error (hact : Overwrites act value b) {f : Fault} (hrun : act a n m = .error f m') :
    f = .outOfBounds .store a n m.size ∧ m' = m := by
  rw [hact] at hrun
  split at hrun
  · cases hrun
  · cases hrun
    exact ⟨rfl, rfl⟩

/-- An action that replaces the bytes of its region fills regions. -/
theorem fills (hact : Overwrites act value b) (m : Memory) (a : Address) (n : ByteCount) :
    Fills act value b m a n where
  succeeds_iff := ⟨fun ⟨_, hrun⟩ => (hact.of_ok hrun).1, fun h => ⟨_, hact.run_of_inside h⟩⟩
  bytes_after v m' hrun := by
    obtain ⟨h, rfl, rfl⟩ := hact.of_ok hrun
    exact ⟨rfl, Memory.size_overwriteWith _ _ _ _, Memory.byte_overwriteWith_of_inside h b⟩
  shows v m' hrun := by
    obtain ⟨h, rfl, rfl⟩ := hact.of_ok hrun
    exact Memory.read_overwriteWith h b
  empty hn := by
    rw [hact.run_of_inside (Or.inl hn), hn]
    rfl
  again v m' hrun := by
    obtain ⟨h, rfl, rfl⟩ := hact.of_ok hrun
    rw [hact.run_of_inside ((Memory.inside_overwriteWith _ _ _).2 h), Memory.overwriteWith_again h]
  parts v m' hrun p q hn := by
    obtain ⟨h, rfl, rfl⟩ := hact.of_ok hrun
    obtain ⟨hparts, hparts'⟩ := Memory.overwriteWith_parts h hn b
    have hfirst := h.first hn
    have hsecond := h.second hn
    refine ⟨⟨_, hact.run_of_inside hfirst, ?_⟩, _, hact.run_of_inside hsecond, ?_⟩
    · rw [hact.run_of_inside ((Memory.inside_overwriteWith _ _ _).2 hsecond), hparts]
    · rw [hact.run_of_inside ((Memory.inside_overwriteWith _ _ _).2 hfirst), hparts']
  unchanged f m' hrun := hact.of_error hrun

end Overwrites

/-- **Clearing and filling.**  Clearing a region fills it with zero and gives its beginning, and a
fill fills it with its byte. -/
theorem filling_exact (m : Memory) (a : Address) (n : ByteCount) (b : UInt8) :
    Fills zeroFill id 0 m a n ∧ Fills (fun a n => Memory.fill a n b) (fun _ => ()) b m a n := by
  have hclear : Overwrites zeroFill id 0 := fun a n m =>
    bind_pure_of_ite (Memory.fill_eq m a n 0) fun _ => a
  have hfill : Overwrites (fun a n => Memory.fill a n b) (fun _ => ()) b := fun a n m =>
    Memory.fill_eq m a n b
  exact ⟨hclear.fills m a n, hfill.fills m a n⟩

end WordMachine
