/-
**Faults.**

Arithmetic never fails.  What can go wrong is an access to bytes that a memory does not have, a call
whose arguments are not those of its intrinsic, and the request for a call site at a number of bits
that is no width.

Main definitions:

* `WordMachine.AccessKind` — loads and stores;
* `WordMachine.Fault` — what went wrong;
* `WordMachine.Fault.message` — its wording.
-/

import WordMachine.Intrinsic.Basic

set_option relaxedAutoImplicit false
set_option autoImplicit false

namespace WordMachine

/-- The two directions of an access. -/
inductive AccessKind
  | load
  | store
deriving DecidableEq

/-- The name of a direction. -/
def AccessKind.name : AccessKind → String
  | load => "load"
  | store => "store"

/-- What can go wrong in a call or in an access. -/
inductive Fault
  /-- An access to `length` bytes from `address` on, not all of which are among the `total`. -/
  | outOfBounds (kind : AccessKind) (address : Address) (length total : ByteCount)
  /-- Arguments that are not those of the intrinsic. -/
  | argumentMismatch (intrinsic : Intrinsic)
  /-- A call site for a number of bits that is no width. -/
  | unsupportedWidth (bits : UInt8)
deriving DecidableEq

/-- The wording of a fault. -/
def Fault.message : Fault → String
  | outOfBounds kind address length total =>
      "memory access violation: tried to `" ++ kind.name ++ "` " ++
        Numeral.decimal length.bytes.toNat ++ " bytes at `" ++ address.text ++
        "`, but memory size is " ++ Numeral.decimal total.bytes.toNat
  | argumentMismatch intrinsic =>
      "intrinsic `" ++ intrinsic.text ++ "` expects " ++ intrinsic.expectedArgs ++ " arguments"
  | unsupportedWidth bits =>
      "no arithmetic intrinsic operates on " ++ Numeral.decimal bits.toNat ++ "-bit integers"

end WordMachine
