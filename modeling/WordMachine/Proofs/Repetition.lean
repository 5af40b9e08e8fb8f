/-
**Calls depend on the size of the memory alone, and can be repeated.**

No intrinsic reads memory.  So what a call answers on a machine, and which bytes it writes with
which values, is the same on every machine whose memory has the same size, whatever the memory holds,
whatever the flag is and whatever the settings say; and a second call finds everything in place that
it would write, also where the first one failed between its two writes.

Main definitions:

* `WordMachine.Machine.flagAfter`, `WordMachine.Machine.after` — the flag, and the machine, after a
  call, known without running it.

Main results:

* `WordMachine.Machine.call_eq` — a call on a machine, in terms of the size of its memory;
* `WordMachine.Machine.after_after` — a second call changes nothing more;
* `WordMachine.Machine.call_contents_irrelevant` — **two machines and two calls**: the same answers
  and the same bytes, the same faults whatever the operands, and nothing new from a repetition.
-/

import WordMachine.Proofs.CallEffect

set_option relaxedAutoImplicit false
set_option autoImplicit false

namespace WordMachine.Machine

open Log (Logger)

/-- The flag after a call on a memory of the given size: it is set when the call did arithmetic and
completed, and kept otherwise. -/
def flagAfter (c : Call) (size : ByteCount) (flag : Bool) : Bool :=
  match c.answer size with
  | .ok o => o.overflow.getD flag
  | .error _ => flag

/-- A flag that was set by a call is set to the same value again. -/
theorem flagAfter_flagAfter (c : Call) (size : ByteCount) (flag : Bool) :
    flagAfter c size (flagAfter c size flag) = flagAfter c size flag := by
  unfold flagAfter
  cases c.answer size with
  | ok o =>
      rcases o with ⟨v, _ | carried⟩
      · rfl
      · rfl
  | error f => rfl

/-- The machine after a call: the bytes of the call are in place, and the flag is what the call makes
of it. -/
def after (m : Machine) (c : Call) : Machine :=
  { m with
    memory := m.memory.patch (c.written m.memory.size)
    overflow := flagAfter c m.memory.size m.overflow }

@[simp] theorem size_after (m : Machine) (c : Call) : (m.after c).memory.size = m.memory.size :=
  Memory.size_patch _ _

/-- A call gives the value of its answer, and leaves the machine that is known before it. -/
theorem call_eq (logger : Logger) (m : Machine) (c : Call) :
    (m.call logger c).result = (c.answer m.memory.size).map Outcome.value ∧
      (m.call logger c).machine = m.after c := by
  have hexecute := c.execute_memory m.memory
  unfold call after flagAfter
  cases hanswer : c.answer m.memory.size with
  | ok o =>
      rw [hanswer] at hexecute
      rw [hexecute]
      exact ⟨rfl, rfl⟩
  | error f =>
      rw [hanswer] at hexecute
      rw [hexecute]
      exact ⟨rfl, rfl⟩

/-- After a call, the same call changes nothing more. -/
theorem after_after (m : Machine) (c : Call) : (m.after c).after c = m.after c := by
  simp only [after, Memory.size_patch, Memory.patch_self, flagAfter_flagAfter]

/-- The bytes of the memory after a call. -/
theorem byte_after (m : Machine) (c : Call) {i : ℕ} (hi : i < m.memory.size.bytes.toNat) :
    (m.after c).memory.byte i = (c.written m.memory.size i).getD (m.memory.byte i) :=
  Memory.byte_patch hi _

/-- A machine answers a call with a fault exactly when the call has this fault. -/
theorem call_result_eq_error_iff (logger : Logger) (m : Machine) (c : Call) (f : Fault) :
    (m.call logger c).result = .error f ↔ c.answer m.memory.size = .error f := by
  rw [(call_eq logger m c).1]
  cases c.answer m.memory.size <;> simp [Except.map]

/-- **What a memory holds does not matter to a call, and repeating a call changes nothing.**  On two
machines whose memories have the same size, a call gives the same value or the same fault, and puts
the same bytes in place: a byte that it writes on one it writes on the other, with the same value.
A call that differs from it only in the operands fails when it does, with the same fault.  And on
every machine, the same call made a second time gives the same result, and leaves the machine as it
is. -/
theorem call_contents_irrelevant (logger logger' : Logger) {m m' : Machine} {c c' : Call}
    (hsize : m.memory.size = m'.memory.size) (hplace : c.SamePlace c') :
    let first := m.call logger c
    let other := m'.call logger' c
    let again := first.machine.call logger' c
    (other.result = first.result ∧
      ∀ i < m.memory.size.bytes.toNat,
        first.machine.memory.byte i = (c.written m.memory.size i).getD (m.memory.byte i) ∧
          other.machine.memory.byte i = (c.written m.memory.size i).getD (m'.memory.byte i)) ∧
      (∀ f, first.result = .error f ↔ (m'.call logger' c').result = .error f) ∧
      again.result = first.result ∧ again.machine = first.machine := by
  intro first other again
  obtain ⟨hresult, hmachine⟩ := call_eq logger m c
  obtain ⟨hresult', hmachine'⟩ := call_eq logger' m' c
  obtain ⟨hagain, hend⟩ := call_eq logger' first.machine c
  have hfirst : first.machine = m.after c := hmachine
  refine ⟨⟨?_, fun i hi => ⟨?_, ?_⟩⟩, fun f => ?_, ?_, ?_⟩
  · exact hresult'.trans (by rw [← hsize, hresult])
  · rw [hfirst, byte_after m c hi]
  · have hother : other.machine = m'.after c := hmachine'
    rw [hother, byte_after m' c (by rwa [← hsize]), hsize]
  · calc first.result = .error f
        ↔ c.answer m.memory.size = .error f := call_result_eq_error_iff logger m c f
      _ ↔ c'.answer m.memory.size = .error f := hplace.answer_eq_error_iff _ f
      _ ↔ c'.answer m'.memory.size = .error f := by rw [hsize]
      _ ↔ (m'.call logger' c').result = .error f :=
          (call_result_eq_error_iff logger' m' c' f).symm
  · exact hagain.trans (by rw [hfirst, size_after, hresult])
  · exact hend.trans (by rw [hfirst, after_after])

/-- A call whose sum fits in a memory of one byte and whose flag does not, on memories that hold
different bytes. -/
theorem call_contents_irrelevant_half_done :
    let m : Machine := { memory := .zeroed ⟨1⟩, settings := {} }
    let m' : Machine :=
      { memory := (Memory.zeroed ⟨1⟩).setByte 0 7, settings := ⟨⟨9⟩, true, .warn⟩, overflow := true }
    let c : Call := ⟨.addPair .w8 1, .pair 200 100 ⟨0⟩⟩
    let c' : Call := ⟨.addPair .w8 1, .pair 0x1ff 5 ⟨0⟩⟩
    (m.memory.size = m'.memory.size ∧ c.SamePlace c') ∧
      (m'.call {} c).result = (m.call {} c).result ∧
      ((m.call {} c).machine.memory.byte 0 = 44 ∧ (m'.call {} c).machine.memory.byte 0 = 44) ∧
      (m'.call {} c').result = .error (.outOfBounds .store ⟨1⟩ ⟨1⟩ ⟨1⟩) ∧
      ((m.call {} c).machine.call {} c).machine = (m.call {} c).machine := by
  intro m m' c c'
  have hsize : m.memory.size = m'.memory.size := rfl
  have hplace : c.SamePlace c' := by
    refine ⟨rfl, .pair _ ?_ ?_⟩
    · intro w hw
      cases hw
    · intro w hw
      cases hw
  obtain ⟨⟨hresult, hbytes⟩, hfaults, -, hagain⟩ :=
    call_contents_irrelevant {} {} hsize hplace
  have hwritten : c.written m.memory.size 0 = some 44 := by decide
  have hbyte := hbytes 0 (by decide)
  rw [hwritten] at hbyte
  exact ⟨⟨hsize, hplace⟩, hresult, hbyte, (hfaults _).1 (by decide), hagain⟩

end WordMachine.Machine
