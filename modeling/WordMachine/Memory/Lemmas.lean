/-
**What accesses do to the bytes of a flat memory.**

Two memories are equal when they have the same size and the same byte at every index.  Writing never
changes the size, replaces exactly the bytes of its region, and leaves every other byte alone.

Main results:

* `WordMachine.Memory.ext_byte` — memories are compared through their sizes and bytes;
* `WordMachine.Memory.byte_overwrite`, `WordMachine.Memory.byte_overwriteWith` — the bytes after a
  write and after a fill;
* `WordMachine.Memory.getElem?_slice` — the bytes that a region shows;
* `WordMachine.Memory.locate_of_inside`, `WordMachine.Memory.locate_of_not_inside` — the place of a
  region inside a memory, in exact arithmetic, and the fault of every other;
* `WordMachine.Memory.byte_overwrite_of_inside`, `WordMachine.Memory.byte_overwriteWith_of_inside`,
  `WordMachine.Memory.slice_of_inside` — the bytes of a region inside a memory, an empty one
  anywhere included;
* `WordMachine.Memory.store_eq`, `WordMachine.Memory.load_eq`, `WordMachine.Memory.fill_eq`,
  `WordMachine.Memory.read_eq` — the accesses to regions inside a memory and to all others.
-/

import WordMachine.Memory.Basic

set_option relaxedAutoImplicit false
set_option autoImplicit false

namespace WordMachine.Memory

/-! ### Sizes -/

@[simp] theorem toNat_size (m : Memory) : m.size.bytes.toNat = m.bytes.size :=
  UInt64.toNat_ofNat_of_lt' m.size_lt

@[simp] theorem size_setByte (m : Memory) (i : Nat) (b : UInt8) :
    (m.setByte i b).size = m.size := by
  simp [size, setByte]

@[simp] theorem size_overwrite (m : Memory) (i : Nat) (bytes : List UInt8) :
    (m.overwrite i bytes).size = m.size := by
  induction bytes generalizing m i with
  | nil => rfl
  | cons b bytes ih => rw [overwrite, ih, size_setByte]

@[simp] theorem size_overwriteWith (m : Memory) (i : Nat) (b : UInt8) (n : Nat) :
    (m.overwriteWith i b n).size = m.size := by
  induction n generalizing m i with
  | zero => rfl
  | succ n ih => rw [overwriteWith, ih, size_setByte]

@[simp] theorem size_zeroed (n : ByteCount) : (zeroed n).size = n := by
  simp [zeroed, size]

/-! ### Bytes -/

@[simp] theorem byte_zeroed (n : ByteCount) (i : Nat) : (zeroed n).byte i = 0 := by
  simp [zeroed, byte, Array.getD_eq_getD_getElem?, Array.getElem?_replicate]
  split <;> rfl

/-- Memories of one size with the same bytes are equal. -/
theorem ext_byte {m m' : Memory} (hsize : m.size = m'.size)
    (hbyte : ∀ i < m.size.bytes.toNat, m.byte i = m'.byte i) : m = m' := by
  have hsize : m.bytes.size = m'.bytes.size := by
    rw [← toNat_size, ← toNat_size, hsize]
  obtain ⟨bytes, _⟩ := m
  obtain ⟨bytes', _⟩ := m'
  congr 1
  refine Array.ext hsize fun i h h' => ?_
  have := hbyte i (by simpa using h)
  simpa [byte, h, h'] using this

theorem byte_setByte (m : Memory) (i : Nat) (b : UInt8) (j : Nat) :
    (m.setByte i b).byte j = if i = j ∧ j < m.size.bytes.toNat then b else m.byte j := by
  simp only [byte, setByte, toNat_size, Array.getD_eq_getD_getElem?, Array.getElem?_setIfInBounds]
  by_cases hij : i = j
  · by_cases hj : j < m.bytes.size <;> simp [hij, hj]
  · simp [hij]

/-- A write replaces the bytes of its region by those written. -/
theorem byte_overwrite (m : Memory) (i : Nat) (bytes : List UInt8) (j : Nat)
    (h : i + bytes.length ≤ m.size.bytes.toNat) :
    (m.overwrite i bytes).byte j =
      if i ≤ j ∧ j < i + bytes.length then bytes.getD (j - i) 0 else m.byte j := by
  induction bytes generalizing m i with
  | nil => rw [if_neg (by simp)]; rfl
  | cons b bytes ih =>
      rw [List.length_cons] at h ⊢
      rw [overwrite, ih _ _ (by rw [size_setByte]; omega), byte_setByte]
      by_cases hij : i = j
      · subst hij
        rw [if_neg (by omega), if_pos ⟨rfl, by omega⟩, if_pos (by omega), Nat.sub_self]
        rfl
      · by_cases hin : i + 1 ≤ j ∧ j < i + 1 + bytes.length
        · rw [if_pos hin, if_pos (by omega), show j - i = (j - (i + 1)) + 1 by omega]
          rfl
        · rw [if_neg hin, if_neg (by omega), if_neg (by omega)]

/-- A fill replaces the bytes of its region by the one given. -/
theorem byte_overwriteWith (m : Memory) (i : Nat) (b : UInt8) (n j : Nat)
    (h : i + n ≤ m.size.bytes.toNat) :
    (m.overwriteWith i b n).byte j = if i ≤ j ∧ j < i + n then b else m.byte j := by
  induction n generalizing m i with
  | zero => rw [if_neg (by omega)]; rfl
  | succ n ih =>
      rw [overwriteWith, ih _ _ (by rw [size_setByte]; omega), byte_setByte]
      by_cases hij : i = j
      · subst hij
        rw [if_neg (by omega), if_pos ⟨rfl, by omega⟩, if_pos (by omega)]
      · by_cases hin : i + 1 ≤ j ∧ j < i + 1 + n
        · rw [if_pos hin, if_pos (by omega)]
        · rw [if_neg hin, if_neg (by omega), if_neg (by omega)]

/-! ### Slices -/

theorem length_slice (m : Memory) {start stop : Nat} (h : stop ≤ m.size.bytes.toNat) :
    (m.slice start stop).length = stop - start := by
  rw [toNat_size] at h
  simp only [slice, Array.length_toList, Array.size_extract]
  omega

/-- The bytes that a region shows are those of the memory. -/
theorem getElem?_slice (m : Memory) {start stop : Nat} (h : stop ≤ m.size.bytes.toNat) (j : Nat) :
    (m.slice start stop)[j]? = if j < stop - start then some (m.byte (start + j)) else none := by
  rw [toNat_size] at h
  by_cases hj : j < stop - start
  · have hlt : start + j < m.bytes.size := by omega
    simp [slice, byte, hj, hlt]
  · have hle : (m.slice start stop).length ≤ j := by
      rw [slice, Array.length_toList, Array.size_extract]
      omega
    rw [if_neg hj, List.getElem?_eq_none hle]

/-! ### Regions -/

/-- A region is inside a memory when it is empty or its end, in exact arithmetic, is not past the
end of the memory. -/
def Inside (m : Memory) (a : Address) (n : ByteCount) : Prop :=
  n.bytes.toNat = 0 ∨ a.value.toNat + n.bytes.toNat ≤ m.size.bytes.toNat

instance (m : Memory) (a : Address) (n : ByteCount) : Decidable (m.Inside a n) :=
  inferInstanceAs (Decidable (_ ∨ _))

theorem eq_zero_iff {n : ByteCount} : n = .zero ↔ n.bytes.toNat = 0 := by
  obtain ⟨n⟩ := n
  simp [ByteCount.zero, ← UInt64.toNat_inj]

/-- A region of length zero is inside every memory. -/
theorem locate_of_length_eq_zero (m : Memory) (kind : AccessKind) (a : Address) {n : ByteCount}
    (hn : n.bytes.toNat = 0) : m.locate kind a n = .ok ⟨0, 0⟩ := by
  rw [locate, if_pos (eq_zero_iff.2 hn)]

/-- The region of an access that succeeds begins at its address and has its length. -/
theorem locate_of_inside {m : Memory} {a : Address} {n : ByteCount} (kind : AccessKind)
    (hn : n.bytes.toNat ≠ 0) (h : a.value.toNat + n.bytes.toNat ≤ m.size.bytes.toNat) :
    m.locate kind a n = .ok ⟨a.value.toNat, a.value.toNat + n.bytes.toNat⟩ := by
  have hlt : a.value.toNat + n.bytes.toNat < 2 ^ 64 :=
    Nat.lt_of_le_of_lt h m.size.bytes.toNat_lt
  have hstop : a.limit? n = some (UInt64.ofNat (a.value.toNat + n.bytes.toNat)) := by
    rw [Address.limit?_eq_some_iff, UInt64.toNat_ofNat_of_lt' hlt]
  rw [locate, if_neg (by rwa [eq_zero_iff]), hstop]
  simp only [UInt64.le_iff_toNat_le, UInt64.toNat_ofNat_of_lt' hlt]
  rw [if_pos h]

/-- Every other access of a positive length is out of bounds. -/
theorem locate_of_not_inside {m : Memory} {a : Address} {n : ByteCount} (kind : AccessKind)
    (h : ¬ m.Inside a n) : m.locate kind a n = .error (.outOfBounds kind a n m.size) := by
  simp only [Inside, not_or] at h
  rw [locate, if_neg (by rw [eq_zero_iff]; exact h.1)]
  split
  · rename_i stop hstop
    rw [Address.limit?_eq_some_iff] at hstop
    rw [if_neg (by rw [UInt64.le_iff_toNat_le]; omega)]
  · rfl

/-- Writing as many bytes as a region inside the memory has replaces the bytes of the region, and no
others. -/
theorem byte_overwrite_of_inside {m : Memory} {a : Address} {n : ByteCount} {bytes : List UInt8}
    (h : m.Inside a n) (hlen : bytes.length = n.bytes.toNat) (i : Nat) :
    (m.overwrite a.value.toNat bytes).byte i =
      if a.value.toNat ≤ i ∧ i < a.value.toNat + n.bytes.toNat then
        bytes.getD (i - a.value.toNat) 0
      else m.byte i := by
  by_cases hn : n.bytes.toNat = 0
  · -- an empty region may lie anywhere
    rw [List.eq_nil_of_length_eq_zero (hlen.trans hn), if_neg (by omega)]
    rfl
  · rw [byte_overwrite _ _ _ _ (hlen ▸ h.resolve_left hn), hlen]

/-- Filling a region inside the memory replaces the bytes of the region, and no others. -/
theorem byte_overwriteWith_of_inside {m : Memory} {a : Address} {n : ByteCount}
    (h : m.Inside a n) (b : UInt8) (i : Nat) :
    (m.overwriteWith a.value.toNat b n.bytes.toNat).byte i =
      if a.value.toNat ≤ i ∧ i < a.value.toNat + n.bytes.toNat then b else m.byte i := by
  by_cases hn : n.bytes.toNat = 0
  · rw [hn, if_neg (by omega)]
    rfl
  · rw [byte_overwriteWith _ _ _ _ _ (h.resolve_left hn)]

/-- A region inside the memory shows its bytes one by one. -/
theorem slice_of_inside {m : Memory} {a : Address} {n : ByteCount} (h : m.Inside a n) :
    m.slice a.value.toNat (a.value.toNat + n.bytes.toNat) =
      (List.range n.bytes.toNat).map fun j => m.byte (a.value.toNat + j) := by
  by_cases hn : n.bytes.toNat = 0
  · rw [hn]
    simp [slice]
  · refine List.ext_getElem? fun j => ?_
    rw [getElem?_slice _ (h.resolve_left hn), Nat.add_sub_cancel_left, List.getElem?_map]
    by_cases hj : j < n.bytes.toNat
    · rw [if_pos hj, List.getElem?_range hj]
      rfl
    · rw [if_neg hj, List.getElem?_eq_none (by simpa using hj)]
      rfl

/-! ### Accesses -/

/-- A fill replaces the bytes of a region inside the memory, and otherwise changes nothing. -/
theorem fill_eq (m : Memory) (a : Address) (n : ByteCount) (b : UInt8) :
    fill a n b m =
      if m.Inside a n then .ok () (m.overwriteWith a.value.toNat b n.bytes.toNat)
      else .error (.outOfBounds .store a n m.size) m := by
  unfold fill
  by_cases h : m.Inside a n
  · rw [if_pos h]
    by_cases hn : n.bytes.toNat = 0
    · rw [locate_of_length_eq_zero m .store a hn, hn]
      rfl
    · rw [locate_of_inside .store hn (h.resolve_left hn)]
      simp [Span.length]
  · rw [if_neg h, locate_of_not_inside .store h]

/-- The bytes of a region can be read when it is inside the memory, and are those of a slice. -/
theorem read_eq (m : Memory) (a : Address) (n : ByteCount) :
    m.read a n =
      if m.Inside a n then .ok (m.slice a.value.toNat (a.value.toNat + n.bytes.toNat))
      else .error (.outOfBounds .load a n m.size) := by
  unfold read
  by_cases h : m.Inside a n
  · rw [if_pos h]
    by_cases hn : n.bytes.toNat = 0
    · rw [locate_of_length_eq_zero m .load a hn, hn]
      simp [Except.map, slice]
    · rw [locate_of_inside .load hn (h.resolve_left hn)]
      rfl
  · rw [if_neg h, locate_of_not_inside .load h]
    rfl

theorem ofNat_octets (w : Width) : (⟨UInt64.ofNat w.octets⟩ : ByteCount) = w.byteCount := by
  cases w <;> rfl

theorem toNat_byteCount_ne_zero (w : Width) : w.byteCount.bytes.toNat ≠ 0 := by
  rw [Width.toNat_byteCount]
  exact Nat.ne_of_gt w.octets_pos

/-- A store replaces the bytes of a word, and otherwise changes nothing. -/
theorem store_eq (m : Memory) (w : Width) (a : Address) (v : w.Word) :
    (MemorySpace.store w a v : MemoryM Memory Unit) m =
      if m.Inside a w.byteCount then
        .ok () (m.overwrite a.value.toNat (LittleEndian.encode w.octets v.toNat))
      else .error (.outOfBounds .store a w.byteCount m.size) m := by
  change write a _ m = _
  rw [write, LittleEndian.length_encode, ofNat_octets]
  by_cases h : m.Inside a w.byteCount
  · have hn := toNat_byteCount_ne_zero w
    rw [if_pos h, locate_of_inside .store hn (h.resolve_left hn)]
  · rw [if_neg h, locate_of_not_inside .store h]

/-- A load reads the bytes of a word, and changes nothing in either case. -/
theorem load_eq (m : Memory) (w : Width) (a : Address) :
    (MemorySpace.load w a : MemoryM Memory w.Word) m =
      if m.Inside a w.byteCount then
        .ok (BitVec.ofNat w.bits (LittleEndian.decode
          (m.slice a.value.toNat (a.value.toNat + w.octets)))) m
      else .error (.outOfBounds .load a w.byteCount m.size) m := by
  change loadWord w a m = _
  rw [loadWord, read_eq, Width.toNat_byteCount]
  by_cases h : m.Inside a w.byteCount
  · simp only [if_pos h]
  · simp only [if_neg h]

end WordMachine.Memory
