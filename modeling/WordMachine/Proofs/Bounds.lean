/-
**The check of bounds.**

A single access to a flat memory moves the bytes of one region: it replaces all of them, or it makes
its answer from them.  Which kind of access it is and at which width decides what the bytes mean, and
nothing else.  So there is one check for all of them, and this module says what it comes to: the
access is made when the region is empty or ends, in exact arithmetic, not past the end of the memory.
Then the indices that it uses are those of its region, as many as there are bytes to move, and all of
them exist.  Otherwise the fault tells what was tried, and no byte has changed.

Main definitions:

* `WordMachine.Memory.Transfer`, `WordMachine.Memory.Transfer.make` — moving the bytes of a region;
* `WordMachine.Memory.Request.transfer?` — the requests that are single accesses, as transfers.

Main results:

* `WordMachine.Memory.answer_eq_make` — single accesses are transfers;
* `WordMachine.Memory.access_exact` — **the check is exact, total and atomic**, for every access.
-/

import WordMachine.Memory.Request
import WordMachine.Proofs.IntegerAccess

set_option relaxedAutoImplicit false
set_option autoImplicit false

namespace WordMachine.Memory

open LittleEndian

/-! ### Transfers -/

/-- What is done with a region of `n` bytes: all of them are replaced, or a reply is made from
them. -/
inductive Traffic (n : ByteCount)
  | put (bytes : List UInt8) (length_eq : bytes.length = n.bytes.toNat)
  | get (reply : List UInt8 → Reply)

/-- A region, and what is done with its bytes. -/
structure Transfer where
  address : Address
  length : ByteCount
  traffic : Traffic length

namespace Transfer

/-- Replacing bytes is a store, and reading them a load. -/
def kind (x : Transfer) : AccessKind :=
  match x.traffic with
  | .put _ _ => .store
  | .get _ => .load

/-- Making a transfer.  The region is looked for first, and the bytes are moved where it was
found. -/
def make (x : Transfer) : MemoryM Memory Reply := fun m =>
  match m.locate x.kind x.address x.length with
  | .ok s =>
      match x.traffic with
      | .put bytes _ => .ok .done (m.overwrite s.start bytes)
      | .get reply => .ok (reply (m.slice s.start s.stop)) m
  | .error f => .error f m

/-- Writing the digits of a number at a width. -/
def putNumber (a : Address) (w : Width) (v : ℕ) : Transfer :=
  ⟨a, w.byteCount, .put (encode w.octets v) (by simp)⟩

/-- Reading the number that the digits in a region stand for. -/
def getNumber (a : Address) (w : Width) (reply : ℕ → Reply) : Transfer :=
  ⟨a, w.byteCount, .get fun bytes => reply (decode bytes)⟩

/-- Writing one byte everywhere in a region. -/
def putCopies (a : Address) (n : ByteCount) (b : UInt8) : Transfer :=
  ⟨a, n, .put (List.replicate n.bytes.toNat b) (by simp)⟩

end Transfer

/-- The requests that are single accesses.  The others are made of several accesses, or look only at
the size. -/
def Request.transfer? : Request → Option Transfer
  | .operate (.store w a v) => some (.putNumber a w v.toNat)
  | .operate (.load w a) => some (.getNumber a w fun v => .number (.ofNat v))
  | .operate (.storeBool a flag) => some (.putNumber a .w8 flag.toNat)
  | .operate (.loadBool a) => some (.getNumber a .w8 fun v => .flag (v != 0))
  | .operate (.storeInt a w v) => some (.putNumber a w v.toNat)
  | .operate (.loadInt a w) => some (.getNumber a w fun v => .number (.ofNat v))
  | .operate (.fillZero a n) => some (.putCopies a n 0)
  | .fill a n b => some (.putCopies a n b)
  | .bytes a n => some ⟨a, n, .get .bytes⟩
  | _ => none

/-! ### Transfers inside and outside -/

/-- Filling a region is writing as many copies of the byte. -/
theorem overwriteWith_eq_overwrite (m : Memory) (i : ℕ) (b : UInt8) (n : ℕ) :
    m.overwriteWith i b n = m.overwrite i (List.replicate n b) := by
  induction n generalizing m i with
  | zero => rfl
  | succ n ih => rw [overwriteWith, ih, List.replicate_succ, overwrite]

theorem make_put (m : Memory) (a : Address) {n : ByteCount} {bytes : List UInt8}
    (hlen : bytes.length = n.bytes.toNat) :
    Transfer.make ⟨a, n, .put bytes hlen⟩ m =
      if m.Inside a n then .ok .done (m.overwrite a.value.toNat bytes)
      else .error (.outOfBounds .store a n m.size) m := by
  simp only [Transfer.make, Transfer.kind]
  by_cases h : m.Inside a n
  · rw [if_pos h]
    by_cases hn : n.bytes.toNat = 0
    · -- nothing is moved, so the place does not matter
      rw [hn] at hlen
      rw [locate_of_length_eq_zero m .store a hn, List.eq_nil_of_length_eq_zero hlen]
      rfl
    · rw [locate_of_inside .store hn (h.resolve_left hn)]
  · rw [if_neg h, locate_of_not_inside .store h]

/-- A transfer that makes a reply reads the bytes of its region. -/
theorem make_get_eq_read (m : Memory) (a : Address) (n : ByteCount) (reply : List UInt8 → Reply) :
    Transfer.make ⟨a, n, .get reply⟩ m =
      match m.read a n with
      | .ok bytes => .ok (reply bytes) m
      | .error f => .error f m := by
  simp only [Transfer.make, Transfer.kind, read]
  cases m.locate .load a n <;> rfl

theorem make_get (m : Memory) (a : Address) (n : ByteCount) (reply : List UInt8 → Reply) :
    Transfer.make ⟨a, n, .get reply⟩ m =
      if m.Inside a n then
        .ok (reply (m.slice a.value.toNat (a.value.toNat + n.bytes.toNat))) m
      else .error (.outOfBounds .load a n m.size) m := by
  rw [make_get_eq_read, read_eq]
  by_cases h : m.Inside a n
  · rw [if_pos h, if_pos h]
  · rw [if_neg h, if_neg h]

/-! ### Single accesses -/

section Answers

variable {m : Memory}

theorem answer_store (w : Width) (a : Address) (v : w.Word) :
    answer (.operate (.store w a v)) m = (Transfer.putNumber a w v.toNat).make m :=
  (bind_pure_of_ite (store_eq m w a v) _).trans (make_put m a _).symm

theorem answer_storeBool (a : Address) (flag : Bool) :
    answer (.operate (.storeBool a flag)) m = (Transfer.putNumber a .w8 flag.toNat).make m := by
  cases flag with
  | false => exact answer_store .w8 a 0
  | true => exact answer_store .w8 a 1

theorem answer_storeInt (a : Address) (w : Width) (v : UInt64) :
    answer (.operate (.storeInt a w v)) m = (Transfer.putNumber a w v.toNat).make m := by
  have hstore := storeInt_eq m a w v
  simp only [← inside_byteCount_iff] at hstore
  exact (bind_pure_of_ite hstore _).trans (make_put m a _).symm

theorem answer_loadInt (a : Address) (w : Width) :
    answer (.operate (.loadInt a w)) m =
      (Transfer.getNumber a w fun v => .number (.ofNat v)).make m := by
  have hload := loadInt_eq m a w
  simp only [← inside_byteCount_iff] at hload
  rw [Transfer.getNumber, make_get, Width.toNat_byteCount]
  exact bind_pure_of_ite hload _

/-- Reading a word with zeros put above it is reading an integer. -/
theorem answer_load (w : Width) (a : Address) :
    answer (.operate (.load w a)) m = answer (.operate (.loadInt a w)) m := by
  simp only [answer, Operation.run, loadInt, bind_assoc, pure_bind]

theorem answer_loadBool (a : Address) :
    answer (.operate (.loadBool a)) m =
      (Transfer.getNumber a .w8 fun v => .flag (v != 0)).make m := by
  have hload := loadBool_eq m a
  have hinside : m.Inside a Width.w8.byteCount ↔ a.value.toNat < m.size.bytes.toNat :=
    inside_byteCount_iff
  simp only [← hinside] at hload
  rw [Transfer.getNumber, make_get]
  refine (bind_pure_of_ite hload _).trans ?_
  by_cases h : m.Inside a Width.w8.byteCount
  · have hslice : m.slice a.value.toNat (a.value.toNat + Width.w8.byteCount.bytes.toNat) =
        [m.byte a.value.toNat] :=
      slice_of_inside h
    have hzero : (decode [m.byte a.value.toNat] != 0) = (m.byte a.value.toNat != 0) := by
      rw [Bool.eq_iff_iff, bne_iff_ne, bne_iff_ne, ne_eq, ne_eq, ← UInt8.toNat_inj]
      rfl
    rw [if_pos h, if_pos h, hslice, hzero]
  · rw [if_neg h, if_neg h]
    rfl

theorem answer_fill (a : Address) (n : ByteCount) (b : UInt8) :
    answer (.fill a n b) m = (Transfer.putCopies a n b).make m := by
  have hfill := fill_eq m a n b
  rw [overwriteWith_eq_overwrite] at hfill
  exact (bind_pure_of_ite hfill _).trans (make_put m a _).symm

theorem answer_bytes (a : Address) (n : ByteCount) :
    answer (.bytes a n) m = Transfer.make ⟨a, n, .get .bytes⟩ m :=
  (make_get_eq_read m a n .bytes).symm

end Answers

/-- **Single accesses are transfers.** -/
theorem answer_eq_make {q : Request} {x : Transfer} (hq : q.transfer? = some x) :
    answer q = x.make := by
  funext m
  cases q with
  | operate op =>
      cases op with
      | store w a v => cases hq; exact answer_store w a v
      | load w a => cases hq; exact (answer_load w a).trans (answer_loadInt a w)
      | storeBool a flag => cases hq; exact answer_storeBool a flag
      | loadBool a => cases hq; exact answer_loadBool a
      | storeInt a w v => cases hq; exact answer_storeInt a w v
      | loadInt a w => cases hq; exact answer_loadInt a w
      | fillZero a n => cases hq; exact answer_fill a n 0
      | _ => cases hq
  | fill a n b => cases hq; exact answer_fill a n b
  | bytes a n => cases hq; exact answer_bytes a n
  | size => cases hq

/-- **The check of bounds is exact, total and atomic.**  A single access to `n` bytes is a transfer,
which succeeds when `n` is zero or its region ends, in exact arithmetic, not past the end of the
memory.  The indices in use are then those of the region, as many as there are bytes to move: these
replace what the region held and leave every other byte alone, or the reply is made from them.  With
`n` zero there are no bytes to move, at any address.  Every other access fails with a fault that tells
its direction, its region and the size of the memory, which is left as it was. -/
theorem access_exact (m : Memory) {q : Request} {x : Transfer} (hq : q.transfer? = some x) :
    let first := x.address.value.toNat
    let n := x.length.bytes.toNat
    answer q = x.make ∧
      if n = 0 ∨ first + n ≤ m.size.bytes.toNat then
        (0 < n → m.locate x.kind x.address x.length = .ok ⟨first, first + n⟩) ∧
        match x.traffic with
        | .put bytes _ =>
            ∃ m', answer q m = .ok .done m' ∧ m'.size = m.size ∧ (n = 0 → m' = m) ∧
              ∀ i, m'.byte i =
                if first ≤ i ∧ i < first + n then bytes.getD (i - first) 0 else m.byte i
        | .get reply =>
            answer q m = .ok (reply ((List.range n).map fun j => m.byte (first + j))) m
      else answer q m = .error (.outOfBounds x.kind x.address x.length m.size) m := by
  intro first n
  rw [answer_eq_make hq]
  refine ⟨rfl, ?_⟩
  obtain ⟨a, length, traffic⟩ := x
  by_cases h : n = 0 ∨ first + n ≤ m.size.bytes.toNat
  · have hinside : m.Inside a length := h
    rw [if_pos h]
    refine ⟨fun hpos => locate_of_inside _ (Nat.ne_of_gt hpos) (by omega), ?_⟩
    cases traffic with
    | put bytes hlen =>
        have hput := make_put m a hlen
        rw [if_pos hinside] at hput
        refine ⟨_, hput, size_overwrite _ _ _, ?_, byte_overwrite_of_inside hinside hlen⟩
        intro hn
        rw [List.eq_nil_of_length_eq_zero (hlen.trans hn)]
        rfl
    | get reply =>
        have hget := make_get m a length reply
        rw [if_pos hinside, slice_of_inside hinside] at hget
        exact hget
  · rw [if_neg h]
    cases traffic with
    | put bytes hlen => exact (make_put m a hlen).trans (if_neg h)
    | get reply => exact (make_get m a length reply).trans (if_neg h)

/-- Two bytes at the last address, where the end of the region would wrap round to one. -/
theorem access_exact_last_address :
    let a : Address := ⟨0 - 1⟩
    let q : Request := .operate (.loadInt a .w16)
    q.transfer? = some (.getNumber a .w16 fun v => .number (.ofNat v)) ∧
      answer q (.zeroed ⟨8⟩) = .error (.outOfBounds .load a ⟨2⟩ ⟨8⟩) (.zeroed ⟨8⟩) := by
  intro a q
  have hq : q.transfer? = some (.getNumber a .w16 fun v => .number (.ofNat v)) := rfl
  obtain ⟨-, h⟩ := access_exact (.zeroed ⟨8⟩) hq
  rw [if_neg (by decide), size_zeroed] at h
  exact ⟨hq, h⟩

end WordMachine.Memory
