/-
**Little-endian integers.**

A number is written into bytes with the least significant byte first, into as many bytes as are
asked for; what does not fit into them is lost.  Bytes are read as the digits of a number in base 256.

Main definitions:

* `WordMachine.LittleEndian.encode` — the bytes of a number;
* `WordMachine.LittleEndian.decode` — the number of some bytes.
-/

set_option relaxedAutoImplicit false
set_option autoImplicit false

namespace WordMachine.LittleEndian

/-- The lowest `n` bytes of a number, least significant first. -/
def encode : Nat → Nat → List UInt8
  | 0, _ => []
  | n + 1, v => UInt8.ofNat v :: encode n (v / 256)

/-- The number whose bytes these are, least significant first. -/
def decode : List UInt8 → Nat
  | [] => 0
  | b :: bytes => b.toNat + 256 * decode bytes

@[simp] theorem encode_zero (v : Nat) : encode 0 v = [] := rfl

@[simp] theorem encode_succ (n v : Nat) :
    encode (n + 1) v = UInt8.ofNat v :: encode n (v / 256) := rfl

@[simp] theorem decode_nil : decode [] = 0 := rfl

@[simp] theorem decode_cons (b : UInt8) (bytes : List UInt8) :
    decode (b :: bytes) = b.toNat + 256 * decode bytes := rfl

@[simp] theorem length_encode (n v : Nat) : (encode n v).length = n := by
  induction n generalizing v with
  | zero => rfl
  | succ n ih => simp [ih]

end WordMachine.LittleEndian
