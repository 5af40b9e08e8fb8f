/-
**Only the bits inside the width count.**

Callers may leave anything in the bits of an operand above the width of an intrinsic, and may trace
calls, ask for warnings and log at any threshold.  This module proves that none of it influences
what is computed.  Two calls that differ only in operand bits above the width have the same plan,
and so are the same computation on every memory space; and two machines that differ only in their
settings and in the loggers that they report to stay alike, in what they answer and in their memory
and flag, along every sequence of such calls.

Main definitions:

* `WordMachine.Args.Congruent`, `WordMachine.Call.Congruent` — arguments, and calls, that differ
  only in operand bits that the intrinsic does not use;
* `WordMachine.Machine.core`, `WordMachine.Machine.Report.effect` — what calls run on, and what they
  come to apart from the log;
* `WordMachine.Machine.callAll` — the reports of a sequence of calls.

Main results:

* `WordMachine.Call.Congruent.execute_eq` — **congruent calls are the same computation**;
* `WordMachine.Machine.effect_of_congruent` — one call, on two machines with the same core;
* `WordMachine.Machine.effects_of_congruent` — **sequences of congruent calls** have the same
  effects, whatever the settings and the loggers are.
-/

import WordMachine.Machine.Basic
import WordMachine.Proofs.CallAccesses

set_option relaxedAutoImplicit false
set_option autoImplicit false

namespace WordMachine

/-! ### Congruent calls -/

/-- Arguments of one kind, with the same address, whose operands agree modulo `2 ^ bits` when there
is a width. -/
inductive Args.Congruent (w? : Option Width) : Args → Args → Prop
  | pair {l r l' r' : UInt64} (target : Address)
      (hl : ∀ w ∈ w?, l.toNat % 2 ^ w.bits = l'.toNat % 2 ^ w.bits)
      (hr : ∀ w ∈ w?, r.toNat % 2 ^ w.bits = r'.toNat % 2 ^ w.bits) :
      Congruent w? (.pair l r target) (.pair l' r' target)
  | chain {l r c l' r' c' : UInt64} (carryOut : Address)
      (hl : ∀ w ∈ w?, l.toNat % 2 ^ w.bits = l'.toNat % 2 ^ w.bits)
      (hr : ∀ w ∈ w?, r.toNat % 2 ^ w.bits = r'.toNat % 2 ^ w.bits)
      (hc : ∀ w ∈ w?, c.toNat % 2 ^ w.bits = c'.toNat % 2 ^ w.bits) :
      Congruent w? (.chain l r c carryOut) (.chain l' r' c' carryOut)
  | region (address : Address) : Congruent w? (.region address) (.region address)

/-- Calls of one intrinsic whose arguments are congruent at its width. -/
structure Call.Congruent (c c' : Call) : Prop where
  intrinsic_eq : c.intrinsic = c'.intrinsic
  args : Args.Congruent c.intrinsic.width? c.args c'.args

/-- The word of a sum depends only on the parts of the operands inside the width. -/
theorem ofNat_add_congr {w : Width} {l r l' r' : UInt64}
    (hl : l.toNat % 2 ^ w.bits = l'.toNat % 2 ^ w.bits)
    (hr : r.toNat % 2 ^ w.bits = r'.toNat % 2 ^ w.bits) :
    BitVec.ofNat w.bits (l.toNat + r.toNat) = BitVec.ofNat w.bits (l'.toNat + r'.toNat) := by
  apply BitVec.eq_of_toNat_eq
  rw [BitVec.toNat_ofNat, BitVec.toNat_ofNat, Nat.add_mod, hl, hr, ← Nat.add_mod]

namespace Call.Congruent

variable {c c' : Call}

/-- Congruent calls have the same plan. -/
theorem plan?_eq (h : c.Congruent c') : c.plan? = c'.plan? := by
  obtain ⟨i, args⟩ := c
  obtain ⟨i', args'⟩ := c'
  obtain ⟨rfl, hargs⟩ := h
  cases i with
  | addPair w flagOffset =>
      cases hargs with
      | pair target hl hr =>
          have hl := hl w rfl
          have hr := hr w rfl
          simp only [plan?, Width.exactSum_pair, ofNat_add_congr hl hr, hl, hr]
      | chain => rfl
      | region => rfl
  | addCarry w =>
      cases hargs with
      | pair => rfl
      | chain carryOut hl hr hc =>
          simp only [plan?, Width.exactSum_triple, hl w rfl, hr w rfl, hc w rfl]
      | region => rfl
  | zeroFill length =>
      -- without a width there are no operands, and only the address is used
      cases hargs <;> rfl

/-- **Congruent calls are the same computation**, on every memory space. -/
theorem execute_eq {σ : Type} [MemorySpace σ] (h : c.Congruent c') :
    (c.execute : MemoryM σ Outcome) = c'.execute := by
  cases hplan : c'.plan? with
  | none =>
      have hplan' := h.plan?_eq.trans hplan
      rw [execute_of_no_plan hplan, execute_of_no_plan hplan', h.intrinsic_eq]
  | some p =>
      have hplan' := h.plan?_eq.trans hplan
      rw [execute_of_plan hplan, execute_of_plan hplan']

end Call.Congruent

/-! ### Machines that differ in what they report -/

namespace Machine

open Log (Logger)

/-- What calls run on: the memory of a machine and its flag. -/
def core (m : Machine) : Memory × Bool :=
  (m.memory, m.overflow)

/-- What a use of a machine comes to, apart from what was written: its result, and the core of the
machine afterwards. -/
def Report.effect {α : Type} (r : Report α) : Except Fault α × Memory × Bool :=
  (r.result, r.machine.core)

/-- The reports of calls that are run one after another, where a fault does not stop what comes
after it. -/
def callAll (logger : Logger) : List Call → Machine → List (Report Value)
  | [], _ => []
  | c :: calls, m =>
      let report := m.call logger c
      report :: callAll logger calls report.machine

variable (logger logger' : Logger) {m m' : Machine}

/-- Congruent calls have the same effect on machines with the same core. -/
theorem effect_of_congruent {c c' : Call} (hc : c.Congruent c') (hm : m.core = m'.core) :
    (m.call logger c).effect = (m'.call logger' c').effect := by
  obtain ⟨hmemory, hoverflow⟩ := Prod.mk.inj hm
  unfold call
  rw [hc.execute_eq, hmemory, hoverflow]
  cases c'.execute m'.memory with
  | ok o memory => rfl
  | error f memory => rfl

/-- **Sequences of congruent calls have the same effects**: at every call the same value or the same
fault, and after it the same memory and the same flag.  Neither the settings of the machines nor the
thresholds of the loggers that they report to have an influence. -/
theorem effects_of_congruent {calls calls' : List Call} (hm : m.core = m'.core)
    (hcalls : List.Forall₂ Call.Congruent calls calls') :
    (callAll logger calls m).map Report.effect = (callAll logger' calls' m').map Report.effect := by
  induction hcalls generalizing m m' with
  | nil => rfl
  | cons hc _ ih =>
      have heffect := effect_of_congruent logger logger' hc hm
      simp only [callAll, List.map_cons]
      rw [heffect, ih (Prod.mk.inj heffect).2]

/-- A quiet machine and one that traces, warns and logs everything, with operands of eight and
sixteen bits that have other bits above them, and a last call that fails. -/
theorem effects_of_congruent_wide_operands :
    let quiet : Machine := { memory := .zeroed ⟨4⟩, settings := {} }
    let loud : Machine := { memory := .zeroed ⟨4⟩, settings := ⟨⟨1⟩, true, .warn⟩ }
    let calls : List Call :=
      [⟨.addPair .w8 1, .pair 200 100 ⟨0⟩⟩,
        ⟨.addCarry .w16, .chain 65535 0 1 ⟨2⟩⟩,
        ⟨.addPair .w8 4, .pair 1 2 ⟨0⟩⟩]
    let calls' : List Call :=
      [⟨.addPair .w8 1, .pair 0x1c8 0x264 ⟨0⟩⟩,
        ⟨.addCarry .w16, .chain 0x1ffff 0x10000 0x30001 ⟨2⟩⟩,
        ⟨.addPair .w8 4, .pair 0xff01 0x102 ⟨0⟩⟩]
    (quiet.core = loud.core ∧ List.Forall₂ Call.Congruent calls calls') ∧
      (callAll {} calls quiet).map Report.effect =
        (callAll ⟨.upTo .trace, true⟩ calls' loud).map Report.effect := by
  intro quiet loud calls calls'
  have hcalls : List.Forall₂ Call.Congruent calls calls' := by
    refine .cons ⟨rfl, .pair _ ?_ ?_⟩ <|
      .cons ⟨rfl, .chain _ ?_ ?_ ?_⟩ <| .cons ⟨rfl, .pair _ ?_ ?_⟩ .nil
    all_goals
      intro w hw
      cases hw
      rfl
  exact ⟨⟨rfl, hcalls⟩, effects_of_congruent _ _ rfl hcalls⟩

end Machine

end WordMachine
