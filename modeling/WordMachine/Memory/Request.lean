/-
**Requests to a flat memory.**

A flat memory answers the operations of every memory space, and some of its own: it fills a region
with any byte, shows the bytes of a region, and tells its size.

Main definitions:

* `WordMachine.Memory.Request` — what can be asked of a flat memory;
* `WordMachine.Memory.answer` — the answer to a request.
-/

import WordMachine.Memory.Basic
import WordMachine.Operation

set_option relaxedAutoImplicit false
set_option autoImplicit false

namespace WordMachine.Memory

/-- What can be asked of a flat memory. -/
inductive Request
  | operate (op : Operation)
  | fill (a : Address) (n : ByteCount) (b : UInt8)
  | bytes (a : Address) (n : ByteCount)
  | size

/-- The answer to a request. -/
def answer : Request → MemoryM Memory Reply
  | .operate op => op.run
  | .fill a n b => do
      fill a n b
      return .done
  | .bytes a n => fun m =>
      match m.read a n with
      | .ok bs => .ok (.bytes bs) m
      | .error f => .error f m
  | .size => fun m => .ok (.number m.size.bytes) m

end WordMachine.Memory
