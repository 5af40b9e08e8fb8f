/-
**The size of a flat memory never changes.**

No access to a flat memory changes its size, whether it succeeds or fails, and so nothing made of
accesses does.  The size is an invariant of a memory beside itself, which makes this a case of
`WordMachine.Simulation`.

Main results:

* `WordMachine.Memory.simulation_sameSize` — the accesses keep the size;
* `WordMachine.Memory.agree_answer_sameSize` — so does the answer to every request;
* `WordMachine.Memory.size_runAll` — so does every run of requests.
-/

import WordMachine.Memory.Lemmas
import WordMachine.Memory.Request
import WordMachine.Proofs.Simulation

set_option relaxedAutoImplicit false
set_option autoImplicit false

namespace WordMachine.Memory

/-- A memory beside itself, as long as it has the size `n`. -/
def SameSize (n : ByteCount) (m m' : Memory) : Prop :=
  m = m' ∧ m.size = n

theorem size_of_ok {α : Type} {x : MemoryM Memory α} {m m' : Memory} {v : α}
    (hx : Agree (SameSize m.size) x x) (h : x m = .ok v m') : m'.size = m.size := by
  have hres := hx (s := m) (t := m) ⟨rfl, rfl⟩
  rw [h] at hres
  cases hres with
  | ok hsame => exact hsame.2

theorem size_of_error {α : Type} {x : MemoryM Memory α} {m m' : Memory} {f : Fault}
    (hx : Agree (SameSize m.size) x x) (h : x m = .error f m') : m'.size = m.size := by
  have hres := hx (s := m) (t := m) ⟨rfl, rfl⟩
  rw [h] at hres
  cases hres with
  | error hsame => exact hsame.2

theorem agree_store_sameSize (n : ByteCount) (w : Width) (a : Address) (v : w.Word) :
    Agree (SameSize n) (MemorySpace.store w a v) (MemorySpace.store w a v) := by
  rintro m _ ⟨rfl, hm⟩
  rw [store_eq]
  split
  · exact .ok ⟨rfl, (size_overwrite _ _ _).trans hm⟩
  · exact .error ⟨rfl, hm⟩

theorem agree_load_sameSize (n : ByteCount) (w : Width) (a : Address) :
    Agree (SameSize n) (MemorySpace.load w a : MemoryM Memory w.Word) (MemorySpace.load w a) := by
  rintro m _ ⟨rfl, hm⟩
  rw [load_eq]
  split
  · exact .ok ⟨rfl, hm⟩
  · exact .error ⟨rfl, hm⟩

theorem agree_fill_sameSize (n : ByteCount) (a : Address) (l : ByteCount) (b : UInt8) :
    Agree (SameSize n) (fill a l b) (fill a l b) := by
  rintro m _ ⟨rfl, hm⟩
  rw [fill_eq]
  split
  · exact .ok ⟨rfl, (size_overwriteWith _ _ _ _).trans hm⟩
  · exact .error ⟨rfl, hm⟩

/-- The accesses to a memory keep its size. -/
theorem simulation_sameSize (n : ByteCount) : Simulation (SameSize n) where
  store := agree_store_sameSize n
  load := agree_load_sameSize n
  fillZero a l := agree_fill_sameSize n a l 0

/-- The answer to a request keeps the size of the memory. -/
theorem agree_answer_sameSize (n : ByteCount) (q : Request) :
    Agree (SameSize n) (answer q) (answer q) := by
  cases q with
  | operate op => exact (simulation_sameSize n).run op
  | fill a l b => exact (agree_fill_sameSize n a l b).bind fun _ => .pure _
  | bytes a l =>
      rintro m _ ⟨rfl, hm⟩
      simp only [answer]
      cases m.read a l with
      | ok bs => exact .ok ⟨rfl, hm⟩
      | error f => exact .error ⟨rfl, hm⟩
  | size =>
      rintro m _ ⟨rfl, hm⟩
      exact .ok ⟨rfl, hm⟩

/-- **The size never changes**, whatever a memory is asked for and whatever fails. -/
theorem size_runAll (requests : List Request) (m : Memory) :
    (runAll answer requests m).2.size = m.size :=
  (Agree.runAll (agree_answer_sameSize m.size) requests ⟨rfl, rfl⟩).2.2

end WordMachine.Memory
