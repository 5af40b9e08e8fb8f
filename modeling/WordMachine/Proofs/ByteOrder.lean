/-
**Integers inside integers.**

The bytes of an integer are its digits in base 256, the least significant at its address.  So the
regions inside the region of an integer hold the numbers in the middle of its digits, wherever they
begin and at every width, and the whole is put together from its parts.  This module looks at a flat
memory through the numbers that its regions hold, whether or not these were stored as one integer.
What was stored wide is read back narrow, what was stored byte by byte is read back wide, and the
order in which the bytes came does not matter.

Main definitions:

* `WordMachine.Memory.number` — the number that a region holds;
* `WordMachine.storeBytes` — storing the bytes of a number one at a time.

Main results:

* `WordMachine.Memory.number_window` — the number in a part of a region is in the middle of the
  digits of the whole;
* `WordMachine.Memory.number_mul` — the number in a region as the sum of its parts of one length;
* `WordMachine.Memory.storeBytes_perm` — bytes stored one at a time, in any order, are an integer
  that is stored at once;
* `WordMachine.Memory.storeInt_views` — **an integer that was stored, at all widths and offsets**.
-/

import WordMachine.Proofs.IntegerAccess

set_option relaxedAutoImplicit false
set_option autoImplicit false

namespace WordMachine

open LittleEndian

/-- Storing the bytes of a number one at a time from an address on.  The places of the bytes are
given in the order in which they are stored. -/
def storeBytes {σ : Type} [MemorySpace σ] (a : Address) (v : ℕ) (order : List ℕ) : MemoryM σ Unit :=
  order.forM fun j =>
    MemorySpace.store .w8 (a.advance (.ofNat j)) (BitVec.ofNat _ (v / 256 ^ j))

namespace Memory

/-! ### The numbers in regions -/

/-- The number that the `n` bytes from index `i` on are the digits of. -/
def number (m : Memory) (i n : ℕ) : ℕ :=
  ∑ j ∈ Finset.range n, (m.byte (i + j)).toNat * 256 ^ j

theorem number_succ (m : Memory) (i n : ℕ) :
    m.number i (n + 1) = m.number i n + (m.byte (i + n)).toNat * 256 ^ n :=
  Finset.sum_range_succ _ _

theorem number_one (m : Memory) (i : ℕ) : m.number i 1 = (m.byte i).toNat := by
  simp [number]

theorem number_lt (m : Memory) (i n : ℕ) : m.number i n < 256 ^ n := by
  induction n with
  | zero => simp [number]
  | succ n ih =>
      have hbyte : (m.byte (i + n)).toNat + 1 ≤ 256 := (m.byte (i + n)).toNat_lt
      have hdigit := Nat.mul_le_mul_right (256 ^ n) hbyte
      rw [number_succ, Nat.pow_succ']
      rw [Nat.succ_mul] at hdigit
      omega

/-- The number in a region is that of its first part, with the number of its second part above. -/
theorem number_add (m : Memory) (i p q : ℕ) :
    m.number i (p + q) = m.number i p + 256 ^ p * m.number (i + p) q := by
  rw [number, Finset.sum_range_add, number, number, Finset.mul_sum]
  congr 1
  refine Finset.sum_congr rfl fun j _ => ?_
  rw [Nat.add_assoc, Nat.pow_add]
  ring

/-- Regions with the same bytes hold the same number. -/
theorem number_congr {m m' : Memory} {i n : ℕ} (h : ∀ j < n, m.byte (i + j) = m'.byte (i + j)) :
    m.number i n = m'.number i n := by
  refine Finset.sum_congr rfl fun j hj => ?_
  rw [h j (Finset.mem_range.1 hj)]

/-- A region that holds the digits of a number holds as much of the number as fits into it. -/
theorem number_of_digits {m : Memory} {i n v : ℕ}
    (h : ∀ j < n, m.byte (i + j) = UInt8.ofNat (v / 256 ^ j)) : m.number i n = v % 256 ^ n := by
  induction n with
  | zero => simp [number, Nat.mod_one]
  | succ n ih =>
      have hdigit : (m.byte (i + n)).toNat = v / 256 ^ n % 256 := by
        rw [h n (by omega), UInt8.toNat_ofNat']
      rw [number_succ, ih fun j hj => h j (by omega), hdigit, Nat.pow_succ, Nat.mod_mul,
        Nat.mul_comm (v / 256 ^ n % 256)]

/-- What lies above the first part of a region is what is left when the first part is divided
off. -/
theorem number_div (m : Memory) (i p q : ℕ) :
    m.number i (p + q) / 256 ^ p = m.number (i + p) q := by
  rw [number_add, Nat.add_mul_div_left _ _ (Nat.pow_pos (by decide)),
    Nat.div_eq_of_lt (number_lt m i p), Nat.zero_add]

theorem number_mod (m : Memory) (i p q : ℕ) :
    m.number i (p + q) % 256 ^ p = m.number i p := by
  rw [number_add, Nat.add_mul_mod_self_left, Nat.mod_eq_of_lt (number_lt m i p)]

/-- The number in a part of a region is in the middle of the digits of the whole. -/
theorem number_window {m : Memory} {i k p n : ℕ} (h : k + p ≤ n) :
    m.number (i + k) p = m.number i n / 256 ^ k % 256 ^ p := by
  obtain ⟨r, rfl⟩ := Nat.exists_eq_add_of_le h
  rw [Nat.add_assoc, number_div, number_mod]

/-- The number in a region is the sum of its parts of one length, each in its place. -/
theorem number_mul (m : Memory) (i k p : ℕ) :
    m.number i (k * p) = ∑ j ∈ Finset.range k, m.number (i + j * p) p * 256 ^ (j * p) := by
  induction k with
  | zero => simp [number]
  | succ k ih => rw [Nat.succ_mul, number_add, ih, Finset.sum_range_succ, Nat.mul_comm (256 ^ _)]

/-- The bytes of a region are the digits of its number. -/
theorem digit_number {m : Memory} {i j n : ℕ} (h : j < n) :
    UInt8.ofNat (m.number i n / 256 ^ j) = m.byte (i + j) := by
  rw [← UInt8.toNat_inj, UInt8.toNat_ofNat', ← number_one, number_window (show j + 1 ≤ n from h),
    Nat.pow_one]

/-! ### Integers inside a memory -/

variable {m : Memory} {a : Address} {w : Width}

theorem toNat_advance {k : ℕ} (h : a.value.toNat + k ≤ m.size.bytes.toNat) :
    (a.advance (.ofNat k)).value.toNat = a.value.toNat + k := by
  have hlt : a.value.toNat + k < 2 ^ 64 := Nat.lt_of_le_of_lt h m.size.bytes.toNat_lt
  have hk : k < 2 ^ 64 := Nat.lt_of_le_of_lt (Nat.le_add_left k _) hlt
  rw [Address.toNat_advance, UInt64.toNat_ofNat_of_lt' hk, Nat.mod_eq_of_lt hlt]

theorem toNat_ofNat_number (m : Memory) (i : ℕ) (w : Width) :
    (UInt64.ofNat (m.number i w.octets)).toNat = m.number i w.octets := by
  have hlt := number_lt m i w.octets
  rw [← Width.two_pow_bits] at hlt
  exact UInt64.toNat_ofNat_of_lt' (Nat.lt_of_lt_of_le hlt w.two_pow_bits_le)

/-- A load gives the number in its region. -/
theorem loadInt_number (h : a.value.toNat + w.octets ≤ m.size.bytes.toNat) :
    loadInt a w m = .ok (.ofNat (m.number a.value.toNat w.octets)) m := by
  rw [loadInt_eq, if_pos h, decode_slice h]
  rfl

/-- A load from inside the region of an integer gives what is in the middle of its digits. -/
theorem loadInt_window (h : a.value.toNat + w.octets ≤ m.size.bytes.toNat) {v : Width} {k : ℕ}
    (hk : k + v.octets ≤ w.octets) :
    loadInt (a.advance (.ofNat k)) v m =
      .ok (.ofNat (m.number a.value.toNat w.octets / 2 ^ (8 * k) % 2 ^ v.bits)) m := by
  have hplace := toNat_advance (m := m) (a := a) (k := k) (by omega)
  rw [loadInt_number (by omega), hplace, number_window hk, Width.two_pow_bits, Nat.pow_mul]

/-- A store leaves the digits of its number in its region. -/
theorem number_overwrite_encode (h : a.value.toNat + w.octets ≤ m.size.bytes.toNat) (v : ℕ) :
    (m.overwrite a.value.toNat (encode w.octets v)).number a.value.toNat w.octets =
      v % 2 ^ w.bits := by
  rw [Width.two_pow_bits]
  refine number_of_digits fun j hj => ?_
  rw [byte_overwrite_encode h, if_pos (by omega), Nat.add_sub_cancel_left]

/-- A store replaces the lowest digits of the numbers at its address and leaves those above. -/
theorem number_overwrite_encode_low (h : a.value.toNat + w.octets ≤ m.size.bytes.toNat) (v r : ℕ) :
    (m.overwrite a.value.toNat (encode w.octets v)).number a.value.toNat (w.octets + r) =
      v % 2 ^ w.bits +
        2 ^ w.bits * (m.number a.value.toNat (w.octets + r) / 2 ^ w.bits) := by
  have habove : (m.overwrite a.value.toNat (encode w.octets v)).number
      (a.value.toNat + w.octets) r = m.number (a.value.toNat + w.octets) r := by
    refine number_congr fun j _ => ?_
    rw [byte_overwrite_encode h, if_neg (by omega)]
  rw [number_add, number_overwrite_encode h, habove, Width.two_pow_bits, number_div]

/-- A load whose region is apart from that of a store gives what it gave before. -/
theorem loadInt_of_apart (h : a.value.toNat + w.octets ≤ m.size.bytes.toNat) (x : ℕ) {b : Address}
    {v : Width} (hapart : b.value.toNat + v.octets ≤ a.value.toNat ∨
      a.value.toNat + w.octets ≤ b.value.toNat) :
    let m' := m.overwrite a.value.toNat (encode w.octets x)
    loadInt b v m' =
      match loadInt b v m with
      | .ok n _ => .ok n m'
      | .error f _ => .error f m' := by
  intro m'
  have hsize : m'.size = m.size := size_overwrite _ _ _
  by_cases hb : b.value.toNat + v.octets ≤ m.size.bytes.toNat
  · have hnumber : m'.number b.value.toNat v.octets = m.number b.value.toNat v.octets := by
      refine number_congr fun j hj => ?_
      rw [byte_overwrite_encode h, if_neg (by omega)]
    rw [loadInt_number (by rwa [hsize]), loadInt_number hb, hnumber]
  · rw [loadInt_eq, loadInt_eq, if_neg (by rwa [hsize]), if_neg hb, hsize]

/-- Writing the number that a region holds changes nothing. -/
theorem overwrite_number (h : a.value.toNat + w.octets ≤ m.size.bytes.toNat) :
    m.overwrite a.value.toNat (encode w.octets (m.number a.value.toNat w.octets)) = m := by
  refine ext_byte (size_overwrite _ _ _) fun i _ => ?_
  rw [byte_overwrite_encode h]
  split
  · rw [digit_number (by omega), Nat.add_sub_cancel' (by omega)]
  · rfl

/-! ### Bytes one at a time -/

/-- Storing a byte inside the memory. -/
theorem storeByte_of_inside (h : a.value.toNat < m.size.bytes.toNat) (n : ℕ) :
    MemorySpace.store .w8 a (BitVec.ofNat _ n) m =
      .ok () (m.setByte a.value.toNat (.ofNat n)) := by
  have hbyte : UInt8.ofNat (BitVec.ofNat Width.w8.bits n).toNat = UInt8.ofNat n := by
    rw [← UInt8.toNat_inj, UInt8.toNat_ofNat', UInt8.toNat_ofNat', BitVec.toNat_ofNat]
    exact Nat.mod_mod _ _
  have hinside : m.Inside a Width.w8.byteCount := inside_byteCount_iff.2 h
  rw [store_eq, if_pos hinside, ← hbyte]
  rfl

/-- Bytes that are stored one at a time lie at their places, and the rest of the memory is as it
was. -/
theorem storeBytes_eq {order : List ℕ} (v : ℕ)
    (h : ∀ j ∈ order, a.value.toNat + j < m.size.bytes.toNat) :
    ∃ m', storeBytes a v order m = .ok () m' ∧ m'.size = m.size ∧
      ∀ i, m'.byte i =
        if a.value.toNat ≤ i ∧ i - a.value.toNat ∈ order then
          UInt8.ofNat (v / 256 ^ (i - a.value.toNat))
        else m.byte i := by
  induction order generalizing m with
  | nil => exact ⟨m, rfl, rfl, fun i => by simp⟩
  | cons j order ih =>
      have hj : a.value.toNat + j < m.size.bytes.toNat := h j List.mem_cons_self
      have hplace := toNat_advance (m := m) (a := a) (k := j) (by omega)
      have hfirst := storeByte_of_inside (m := m) (a := a.advance (.ofNat j)) (by omega)
        (v / 256 ^ j)
      rw [hplace] at hfirst
      obtain ⟨m', hrest, hsize, hbyte⟩ :=
        ih (m := m.setByte (a.value.toNat + j) (.ofNat (v / 256 ^ j)))
          (fun k hk => by rw [size_setByte]; exact h k (List.mem_cons_of_mem _ hk))
      refine ⟨m', (bind_of_ok hfirst _).trans hrest, hsize.trans (size_setByte _ _ _), fun i => ?_⟩
      rw [hbyte, byte_setByte]
      by_cases hlater : a.value.toNat ≤ i ∧ i - a.value.toNat ∈ order
      · -- a place that is given again gets the same byte again
        rw [if_pos hlater, if_pos ⟨hlater.1, List.mem_cons_of_mem _ hlater.2⟩]
      · rw [if_neg hlater]
        by_cases hij : a.value.toNat + j = i
        · subst hij
          rw [if_pos ⟨rfl, hj⟩, if_pos ⟨by omega, by simp⟩, Nat.add_sub_cancel_left]
        · rw [if_neg (fun hand => hij hand.1), if_neg]
          rintro ⟨hle, hmem⟩
          rcases List.mem_cons.1 hmem with heq | hmem
          · exact hij (by omega)
          · exact hlater ⟨hle, hmem⟩

/-- **Bytes stored one at a time, in any order, are an integer that is stored at once.** -/
theorem storeBytes_perm (h : a.value.toNat + w.octets ≤ m.size.bytes.toNat) (v : ℕ)
    {order : List ℕ} (hperm : order.Perm (List.range w.octets)) :
    storeBytes a v order m = .ok () (m.overwrite a.value.toNat (encode w.octets v)) := by
  have hmem : ∀ j, j ∈ order ↔ j < w.octets := fun j => by rw [hperm.mem_iff, List.mem_range]
  have hin : ∀ j ∈ order, a.value.toNat + j < m.size.bytes.toNat := by
    intro j hj
    have hlt := (hmem j).1 hj
    omega
  obtain ⟨m', hrun, hsize, hbyte⟩ := storeBytes_eq v hin
  have hm' : m' = m.overwrite a.value.toNat (encode w.octets v) := by
    refine ext_byte (by rw [hsize, size_overwrite]) fun i _ => ?_
    rw [hbyte, byte_overwrite_encode h]
    by_cases hi : a.value.toNat ≤ i ∧ i < a.value.toNat + w.octets
    · rw [if_pos ⟨hi.1, (hmem _).2 (by omega)⟩, if_pos hi]
    · rw [if_neg hi, if_neg]
      rintro ⟨hle, hplace⟩
      have hlt := (hmem _).1 hplace
      exact hi ⟨hle, by omega⟩
  rw [hrun, hm']

/-! ### The integer that was stored -/

/-- An integer is put together from its parts at a narrower width. -/
theorem loadInt_parts (h : a.value.toNat + w.octets ≤ m.size.bytes.toNat) {v : Width}
    (hv : v.octets ≤ w.octets) :
    ∃ (n : UInt64) (part : ℕ → UInt64), loadInt a w m = .ok n m ∧
      (∀ j < w.bits / v.bits,
        loadInt (a.advance (.ofNat (j * v.octets))) v m = .ok (part j) m) ∧
      n.toNat = ∑ j ∈ Finset.range (w.bits / v.bits), (part j).toNat * 2 ^ (j * v.bits) := by
  have hcount : w.octets = w.bits / v.bits * v.octets := by
    revert hv
    cases w <;> cases v <;> decide
  refine ⟨_, fun j => .ofNat (m.number (a.value.toNat + j * v.octets) v.octets),
    loadInt_number h, fun j hj => ?_, ?_⟩
  · have hend : (j + 1) * v.octets ≤ w.octets := by
      rw [hcount]
      exact Nat.mul_le_mul_right _ hj
    rw [Nat.succ_mul] at hend
    have hplace := toNat_advance (m := m) (a := a) (k := j * v.octets) (by omega)
    rw [loadInt_number (by omega), hplace]
  · rw [toNat_ofNat_number, hcount, number_mul]
    refine Finset.sum_congr rfl fun j _ => ?_
    rw [toNat_ofNat_number, Nat.mul_comm j v.octets, Nat.mul_comm j v.bits, Nat.pow_mul, Nat.pow_mul,
      Width.two_pow_bits]

/-- Storing what was loaded changes nothing. -/
theorem storeInt_loadInt (h : a.value.toNat + w.octets ≤ m.size.bytes.toNat) :
    ∃ n, loadInt a w m = .ok n m ∧ storeInt a w n m = .ok () m := by
  refine ⟨_, loadInt_number h, ?_⟩
  rw [storeInt_eq, if_pos h, toNat_ofNat_number, overwrite_number h]

/-- **An integer that was stored, at all widths and offsets.**  A load from inside its region gives
the middle of its digits.  A load from a region apart from it gives what it gave before, a value or a
fault.  Storing its bytes one at a time, in any order, leaves the same memory.  Whatever a memory
holds, an integer is put together from its parts at a narrower width, and storing what was loaded
changes nothing. -/
theorem storeInt_views (m : Memory) (w : Width) (a : Address) (x : UInt64)
    (h : a.value.toNat + w.octets ≤ m.size.bytes.toNat) :
    (∃ m', storeInt a w x m = .ok () m' ∧
      (∀ (v : Width) (k : ℕ), k + v.octets ≤ w.octets →
        loadInt (a.advance (.ofNat k)) v m' =
          .ok (.ofNat (x.toNat % 2 ^ w.bits / 2 ^ (8 * k) % 2 ^ v.bits)) m') ∧
      (∀ (v : Width) (b : Address),
        b.value.toNat + v.octets ≤ a.value.toNat ∨ a.value.toNat + w.octets ≤ b.value.toNat →
        loadInt b v m' =
          match loadInt b v m with
          | .ok n _ => .ok n m'
          | .error f _ => .error f m') ∧
      ∀ order : List ℕ, order.Perm (List.range w.octets) →
        storeBytes a (x.toNat % 2 ^ w.bits) order m = .ok () m') ∧
    (∀ v : Width, v.octets ≤ w.octets →
      ∃ (n : UInt64) (part : ℕ → UInt64), loadInt a w m = .ok n m ∧
        (∀ j < w.bits / v.bits,
          loadInt (a.advance (.ofNat (j * v.octets))) v m = .ok (part j) m) ∧
        n.toNat = ∑ j ∈ Finset.range (w.bits / v.bits), (part j).toNat * 2 ^ (j * v.bits)) ∧
    ∃ n, loadInt a w m = .ok n m ∧ storeInt a w n m = .ok () m := by
  have hstore := storeInt_eq m a w x
  rw [if_pos h] at hstore
  refine ⟨⟨_, hstore, fun v k hk => ?_, fun v b hapart => loadInt_of_apart h _ hapart,
    fun order hperm => ?_⟩, fun v hv => loadInt_parts h hv, storeInt_loadInt h⟩
  · rw [loadInt_window (by rwa [size_overwrite]) hk, number_overwrite_encode h]
  · rw [storeBytes_perm h _ hperm, Width.two_pow_bits, encode_mod]

/-- Four bytes that were stored as one integer at the end of a memory, seen from the second byte on
as an integer of two bytes. -/
theorem storeInt_views_middle :
    (4 : UInt64).toNat + Width.w32.octets ≤ (Memory.zeroed ⟨8⟩).size.bytes.toNat ∧
      ∃ m', storeInt ⟨4⟩ .w32 0x1deadbeef (Memory.zeroed ⟨8⟩) = .ok () m' ∧
        loadInt ⟨5⟩ .w16 m' = .ok 0xadbe m' ∧
        storeBytes ⟨4⟩ 0xdeadbeef [2, 0, 3, 1] (Memory.zeroed ⟨8⟩) = .ok () m' := by
  have h : (4 : UInt64).toNat + Width.w32.octets ≤ (Memory.zeroed ⟨8⟩).size.bytes.toNat := by decide
  obtain ⟨⟨m', hrun, hview, -, hbytes⟩, -⟩ := storeInt_views (.zeroed ⟨8⟩) .w32 ⟨4⟩ 0x1deadbeef h
  exact ⟨h, m', hrun, hview .w16 1 (by decide), hbytes [2, 0, 3, 1] (by decide)⟩

end Memory

end WordMachine
