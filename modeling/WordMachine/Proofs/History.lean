/-
**A flat memory is the history of what was written to it.**

A history is the list of the writes that succeeded, each with its bytes still in it.  It answers the
accesses of a memory space without holding a memory: a byte is what the last write to cover it put
there, or zero when none did, and an access succeeds when its region, in exact arithmetic, lies
inside the size.  Nor does it run operations.  Which accesses an operation makes, and what it is
answered, it takes from the script of the operation, in exact numbers; that an operation makes these
accesses and no others is `WordMachine.Operation.accessesFrom_run`.  This module proves that a flat
memory that started with zeros cannot be told from the history of its writes by any run of requests,
in which accesses of all widths overlap, and operations that fail half-way leave the writes that they
made before.

Main definitions:

* `WordMachine.Write` — a write to memory, with the byte that it puts at an index;
* `WordMachine.History` — a size and the writes that succeeded, with the instance of
  `WordMachine.MemorySpace`;
* `WordMachine.History.answer` — the answer of a history to a request, with the writes of an
  operation entered one by one.

Main results:

* `WordMachine.History.simulation` — **the accesses of a memory and of its history agree**;
* `WordMachine.History.agree_answer` — so do their answers to every request;
* `WordMachine.run_zeroed_eq_history` — **every run of requests** gives the same answers on both,
  and the same bytes after it.
-/

import WordMachine.Proofs.MemorySize
import WordMachine.Proofs.OperationScript

set_option relaxedAutoImplicit false
set_option autoImplicit false

namespace WordMachine

/-! ### Writes and histories -/

/-- A write to memory: a word in little-endian order, or one byte repeated. -/
inductive Write
  | store (a : Address) (w : Width) (v : w.Word)
  | fill (a : Address) (n : ByteCount) (b : UInt8)

/-- The byte that a write puts at an index, when it covers the index. -/
def Write.byte? (i : ℕ) : Write → Option UInt8
  | store a w v =>
      if a.value.toNat ≤ i ∧ i < a.value.toNat + w.octets then
        some (UInt8.ofNat (v.toNat / 256 ^ (i - a.value.toNat)))
      else none
  | fill a n b =>
      if a.value.toNat ≤ i ∧ i < a.value.toNat + n.bytes.toNat then some b else none

/-- The writes that succeeded on a memory of some size, the last one first. -/
structure History where
  size : ByteCount
  writes : List Write := []

namespace History

/-- The byte at an index is the one of the last write that covers it, or zero. -/
def byte (h : History) (i : ℕ) : UInt8 :=
  (h.writes.findSome? (Write.byte? i)).getD 0

/-- A region is inside a history when it is empty or its end is not past the size. -/
def Inside (h : History) (a : Address) (n : ByteCount) : Prop :=
  n.bytes.toNat = 0 ∨ a.value.toNat + n.bytes.toNat ≤ h.size.bytes.toNat

instance (h : History) (a : Address) (n : ByteCount) : Decidable (h.Inside a n) :=
  inferInstanceAs (Decidable (_ ∨ _))

/-- A write to a region enters the history when the region is inside. -/
def record (x : Write) (a : Address) (n : ByteCount) : MemoryM History Unit := fun h =>
  if h.Inside a n then .ok () { h with writes := x :: h.writes }
  else .error (.outOfBounds .store a n h.size) h

/-- A history is a memory space. -/
instance : MemorySpace History where
  store w a v := record (.store a w v) a w.byteCount
  load w a := fun h =>
    if h.Inside a w.byteCount then
      .ok (BitVec.ofNat w.bits
        (∑ j ∈ Finset.range w.octets, (h.byte (a.value.toNat + j)).toNat * 256 ^ j)) h
    else .error (.outOfBounds .load a w.byteCount h.size) h
  fillZero a n := record (.fill a n 0) a n

/-- The answer of a history to a request.  An operation enters the writes of its script, in order and
up to the first access that is not inside. -/
def answer : Memory.Request → MemoryM History Reply
  | .operate op => op.follow
  | .fill a n b => do
      record (.fill a n b) a n
      return .done
  | .bytes a n => fun h =>
      if h.Inside a n then
        .ok (.bytes ((List.range n.bytes.toNat).map fun j => h.byte (a.value.toNat + j))) h
      else .error (.outOfBounds .load a n h.size) h
  | .size => fun h => .ok (.number h.size.bytes) h

/-! ### Memories and their histories -/

/-- A history is one of a memory when their sizes and bytes are the same. -/
structure Records (m : Memory) (h : History) : Prop where
  size_eq : m.size = h.size
  byte_eq : ∀ i < m.size.bytes.toNat, m.byte i = h.byte i

theorem byte_cons (size : ByteCount) (x : Write) (writes : List Write) (i : ℕ) :
    byte ⟨size, x :: writes⟩ i = (x.byte? i).getD (byte ⟨size, writes⟩ i) := by
  rw [byte, byte, List.findSome?_cons]
  cases x.byte? i <;> rfl

variable {m : Memory} {h : History} {a : Address} {n : ByteCount}

theorem Records.inside_iff (hr : Records m h) : m.Inside a n ↔ h.Inside a n := by
  rw [Memory.Inside, Inside, hr.size_eq]

/-- Accesses agree when they agree inside: outside both fail with the same fault. -/
theorem Records.agree_inside {α : Type} (hr : Records m h) {kind : AccessKind}
    {x : EStateM.Result Fault Memory α} {y : EStateM.Result Fault History α}
    (hinside : m.Inside a n → AgreeResult Records x y) :
    AgreeResult Records (if m.Inside a n then x else .error (.outOfBounds kind a n m.size) m)
      (if h.Inside a n then y else .error (.outOfBounds kind a n h.size) h) := by
  by_cases hin : m.Inside a n
  · rw [if_pos hin, if_pos (hr.inside_iff.1 hin)]
    exact hinside hin
  · rw [if_neg hin, if_neg (by rwa [← hr.inside_iff]), hr.size_eq]
    exact .error hr

/-- A write to a memory is recorded when it puts the bytes of the record in place. -/
theorem Records.cons {m' : Memory} {x : Write} (hr : Records m h) (hsize : m'.size = m.size)
    (hbyte : ∀ i < m.size.bytes.toNat, m'.byte i = (x.byte? i).getD (m.byte i)) :
    Records m' { h with writes := x :: h.writes } where
  size_eq := hsize.trans hr.size_eq
  byte_eq := by
    intro i hi
    rw [hsize] at hi
    rw [hbyte i hi, byte_cons, hr.byte_eq i hi]

/-- A store puts the digits of its word in place. -/
theorem byte_overwrite_encode (w : Width) (v : w.Word) (i : ℕ)
    (hin : a.value.toNat + w.octets ≤ m.size.bytes.toNat) :
    (m.overwrite a.value.toNat (LittleEndian.encode w.octets v.toNat)).byte i =
      ((Write.store a w v).byte? i).getD (m.byte i) := by
  rw [Memory.byte_overwrite_encode hin, Write.byte?]
  split <;> rfl

theorem agree_store (w : Width) (a : Address) (v : w.Word) :
    Agree Records (MemorySpace.store w a v) (MemorySpace.store w a v) := by
  intro m h hr
  change AgreeResult _ _ (record (.store a w v) a w.byteCount h)
  rw [Memory.store_eq, record]
  refine hr.agree_inside fun hin => .ok (hr.cons (Memory.size_overwrite _ _ _) fun i _ => ?_)
  exact byte_overwrite_encode w v i (Memory.inside_byteCount_iff.1 hin)

/-- The bytes in a region inside a memory are those of its history. -/
theorem Records.sum_eq (hr : Records m h) {k : ℕ} (w : Width)
    (hin : k + w.octets ≤ m.size.bytes.toNat) :
    LittleEndian.decode (m.slice k (k + w.octets)) =
      ∑ j ∈ Finset.range w.octets, (h.byte (k + j)).toNat * 256 ^ j := by
  rw [Memory.decode_slice hin]
  refine Finset.sum_congr rfl fun j hj => ?_
  have hj : j < w.octets := Finset.mem_range.1 hj
  rw [hr.byte_eq (k + j) (by omega)]

theorem agree_load (w : Width) (a : Address) :
    Agree Records (MemorySpace.load w a : MemoryM Memory w.Word)
      (MemorySpace.load w a : MemoryM History w.Word) := by
  intro m h hr
  change AgreeResult _ _ (if h.Inside a w.byteCount then _ else _)
  rw [Memory.load_eq]
  refine hr.agree_inside fun hin => ?_
  rw [hr.sum_eq w (Memory.inside_byteCount_iff.1 hin)]
  exact .ok hr

/-- A fill puts its byte everywhere in its region. -/
theorem byte_overwriteWith_fill (hin : m.Inside a n) (b : UInt8) (i : ℕ) :
    (m.overwriteWith a.value.toNat b n.bytes.toNat).byte i =
      ((Write.fill a n b).byte? i).getD (m.byte i) := by
  rw [Memory.byte_overwriteWith_of_inside hin, Write.byte?]
  split <;> rfl

theorem agree_fill (a : Address) (n : ByteCount) (b : UInt8) :
    Agree Records (Memory.fill a n b) (record (.fill a n b) a n) := by
  intro m h hr
  rw [Memory.fill_eq, record]
  refine hr.agree_inside fun hin => .ok (hr.cons (Memory.size_overwriteWith _ _ _ _) fun i _ => ?_)
  exact byte_overwriteWith_fill hin b i

/-- **The accesses of a memory and of its history agree.** -/
theorem simulation : Simulation Records where
  store := agree_store
  load := agree_load
  fillZero a n := agree_fill a n 0

/-- The bytes that a region shows, in a memory and in its history. -/
theorem Records.slice_eq (hr : Records m h) (hin : m.Inside a n) :
    m.slice a.value.toNat (a.value.toNat + n.bytes.toNat) =
      (List.range n.bytes.toNat).map fun j => h.byte (a.value.toNat + j) := by
  rw [Memory.slice_of_inside hin]
  refine List.map_congr_left fun j hj => hr.byte_eq _ ?_
  -- there are bytes, so the region is not an empty one that may lie anywhere
  have hj : j < n.bytes.toNat := List.mem_range.1 hj
  have hend := hin.resolve_left (by omega)
  omega

theorem agree_bytes (a : Address) (n : ByteCount) :
    Agree Records (Memory.answer (.bytes a n)) (answer (.bytes a n)) := by
  intro m h hr
  simp only [Memory.answer, answer]
  rw [Memory.read_eq]
  by_cases hin : m.Inside a n
  · rw [if_pos hin, if_pos (hr.inside_iff.1 hin), hr.slice_eq hin]
    exact .ok hr
  · rw [if_neg hin, if_neg (by rwa [← hr.inside_iff]), hr.size_eq]
    exact .error hr

/-- **A memory and its history answer every request alike.** -/
theorem agree_answer (q : Memory.Request) : Agree Records (Memory.answer q) (answer q) := by
  cases q with
  | operate op =>
      -- a flat memory gives back what was stored, so what it does is in the script
      simp only [Memory.answer, answer]
      rw [op.run_eq_follow Memory.givesBack]
      exact simulation.follow op
  | fill a n b => exact (agree_fill a n b).bind fun _ => .pure _
  | bytes a n => exact agree_bytes a n
  | size =>
      intro m h hr
      simp only [Memory.answer, answer]
      rw [hr.size_eq]
      exact .ok hr

end History

/-! ### Runs -/

/-- The history without writes is the one of a memory of zeros. -/
theorem records_zeroed (n : ByteCount) : History.Records (.zeroed n) { size := n } where
  size_eq := Memory.size_zeroed n
  byte_eq i _ := Memory.byte_zeroed n i

/-- **A flat memory is the history of what was written to it.**  After any run of requests to a
memory that started with zeros, the answers were those of its history; its size is what it was; every
byte is the one of the last write that covers it, or zero; and an integer loaded from anywhere inside
is the sum of its bytes times the powers of 256.  What the history takes for the accesses of an
operation are the ones that it makes, wherever in a run it comes: no others, and all of them when it
succeeds. -/
theorem run_zeroed_eq_history (n : ByteCount) (requests : List Memory.Request) :
    let run := runAll Memory.answer requests (.zeroed n)
    let recorded := runAll History.answer requests { size := n }
    run.1 = recorded.1 ∧ run.2.size = n ∧
      (∀ i < n.bytes.toNat, run.2.byte i = recorded.2.byte i) ∧
      (∀ (b : Address) (w : Width), b.value.toNat + w.octets ≤ n.bytes.toNat →
        ∃ v, loadInt b w run.2 = .ok v run.2 ∧
          v.toNat = ∑ j ∈ Finset.range w.octets,
            (run.2.byte (b.value.toNat + j)).toNat * 256 ^ j) ∧
      ∀ (op : Operation) (p : Script), op.script = .ok p →
        accessesFrom run.2 op.run <+: p.accesses ∧
          ∀ r m, op.run run.2 = .ok r m → accessesFrom run.2 op.run = p.accesses := by
  intro run recorded
  obtain ⟨hanswers, hr⟩ := Agree.runAll History.agree_answer requests (records_zeroed n)
  have hsize : run.2.size = n := (Memory.size_runAll requests _).trans (Memory.size_zeroed n)
  refine ⟨hanswers, hsize, fun i hi => hr.byte_eq i (by rwa [hsize]), fun b w hin => ?_,
    fun op p hp => Operation.accessesFrom_run_of_script Memory.givesBack hp run.2⟩
  rw [← hsize] at hin
  refine ⟨_, by rw [Memory.loadInt_eq, if_pos hin], ?_⟩
  rw [UInt64.toNat_ofNat_of_lt' (Nat.lt_of_lt_of_le (Memory.decode_slice_lt hin)
    w.two_pow_bits_le), Memory.decode_slice hin]

-- one byte takes the sum of a pair addition; its flag has no place, and is not in the history
example : (runAll History.answer [.operate (.addPair .w8 200 100 ⟨0⟩ 1)] { size := ⟨1⟩ }).2.writes =
    [.store ⟨0⟩ .w8 44] := by
  rfl

end WordMachine
