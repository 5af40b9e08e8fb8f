/-
**Flat memory.**

A flat memory is a block of bytes whose size never changes, addressed from zero, with integers in
little-endian order.  Every access names a region, and the region has to lie inside the block: its
end, taken without wrapping round, must not exceed the size.  An access that fails changes nothing.
A region of length zero touches no bytes, and is allowed at every address.

Main definitions:

* `WordMachine.Memory` — a block of bytes;
* `WordMachine.Memory.byte` — the byte at an index, the view through which memories are compared;
* `WordMachine.Memory.locate` — the check of a region, and the place of its bytes;
* `WordMachine.Memory.read`, `WordMachine.Memory.write`, `WordMachine.Memory.fill` — the accesses
  to a region;
* the instance of `WordMachine.MemorySpace`.
-/

import WordMachine.LittleEndian
import WordMachine.MemorySpace

set_option relaxedAutoImplicit false
set_option autoImplicit false

namespace WordMachine

/-- A block of bytes, small enough for its size to be a byte count. -/
structure Memory where
  bytes : Array UInt8
  size_lt : bytes.size < UInt64.size

namespace Memory

/-! ### The block -/

/-- A block of the given size with every byte zero. -/
def zeroed (n : ByteCount) : Memory :=
  ⟨Array.replicate n.bytes.toNat 0, by simpa using n.bytes.toNat_lt⟩

/-- The number of bytes in the block. -/
def size (m : Memory) : ByteCount :=
  ⟨UInt64.ofNat m.bytes.size⟩

/-- The byte at an index; past the end there are only zeros. -/
def byte (m : Memory) (i : Nat) : UInt8 :=
  m.bytes.getD i 0

/-- The block with one byte replaced; past the end nothing is. -/
def setByte (m : Memory) (i : Nat) (b : UInt8) : Memory :=
  ⟨m.bytes.setIfInBounds i b, by simpa using m.size_lt⟩

/-- The block with the bytes from index `i` on replaced by the given ones. -/
def overwrite (m : Memory) (i : Nat) : List UInt8 → Memory
  | [] => m
  | b :: bytes => (m.setByte i b).overwrite (i + 1) bytes

/-- The block with `n` bytes from index `i` on replaced by `b`. -/
def overwriteWith (m : Memory) (i : Nat) (b : UInt8) : Nat → Memory
  | 0 => m
  | n + 1 => (m.setByte i b).overwriteWith (i + 1) b n

/-- The bytes from one index up to another. -/
def slice (m : Memory) (start stop : Nat) : List UInt8 :=
  (m.bytes.extract start stop).toList

/-! ### Regions -/

/-- The indices of the bytes in a region, from `start` up to `stop`. -/
structure Span where
  start : Nat
  stop : Nat
deriving DecidableEq

/-- The number of indices in a span. -/
def Span.length (s : Span) : Nat :=
  s.stop - s.start

/-- The place of the region of `n` bytes at `a`, or the fault that an access of the given kind to it
is.  A region of length zero is nowhere, and no fault. -/
def locate (m : Memory) (kind : AccessKind) (a : Address) (n : ByteCount) : Except Fault Span :=
  if n = .zero then .ok ⟨0, 0⟩
  else
    match a.limit? n with
    | some stop =>
        if stop ≤ m.size.bytes then .ok ⟨a.value.toNat, stop.toNat⟩
        else .error (.outOfBounds kind a n m.size)
    | none => .error (.outOfBounds kind a n m.size)

/-- The bytes of a region. -/
def read (m : Memory) (a : Address) (n : ByteCount) : Except Fault (List UInt8) :=
  (m.locate .load a n).map fun s => m.slice s.start s.stop

/-- Replacing the bytes from an address on by the given ones. -/
def write (a : Address) (bytes : List UInt8) : MemoryM Memory Unit := fun m =>
  match m.locate .store a ⟨UInt64.ofNat bytes.length⟩ with
  | .ok s => .ok () (m.overwrite s.start bytes)
  | .error f => .error f m

/-- Replacing every byte of a region by `b`. -/
def fill (a : Address) (n : ByteCount) (b : UInt8) : MemoryM Memory Unit := fun m =>
  match m.locate .store a n with
  | .ok s => .ok () (m.overwriteWith s.start b s.length)
  | .error f => .error f m

/-- Reading a word at an address. -/
def loadWord (w : Width) (a : Address) : MemoryM Memory w.Word := fun m =>
  match m.read a w.byteCount with
  | .ok bytes => .ok (BitVec.ofNat w.bits (LittleEndian.decode bytes)) m
  | .error f => .error f m

/-- Flat memory is a memory space. -/
instance : MemorySpace Memory where
  store w a v := write a (LittleEndian.encode w.octets v.toNat)
  load := loadWord
  fillZero a n := fill a n 0

end Memory

end WordMachine
