/-
**Sequences of accesses, and recorders.**

What a computation does to a memory space is a sequence of accesses, each made to the space that the
one before it left, up to the first that fails.  A recorder shows that sequence and changes nothing
about it: it is related to the space behind it by a simulation.

Main definitions:

* `WordMachine.Access.make` — making an access, which gives the patterns that it loads;
* `WordMachine.makeAll` — making accesses in order;
* `WordMachine.accessesFrom` — the accesses that a computation makes, as a recorder lists them.

Main results:

* `WordMachine.Simulation.makeAll` — accesses in order agree on two spaces whose accesses do;
* `WordMachine.Recorder.simulation` — **a recorder answers as the space behind it does**;
* `WordMachine.Recorder.make_ok`, `WordMachine.Recorder.make_error` — an access through a recorder
  is entered in its list, whether it fails or not;
* `WordMachine.Recorder.makeAll_ok`, `WordMachine.Recorder.makeAll_error` — the accesses made
  through a recorder are its list, up to the first that fails;
* `WordMachine.accessesFrom_makeAll` — making accesses makes those accesses.
-/

import Mathlib.Data.Nat.Notation
import WordMachine.Proofs.Simulation
import WordMachine.Recorder

set_option relaxedAutoImplicit false
set_option autoImplicit false

namespace WordMachine

variable {σ : Type}

/-! ### Making accesses -/

section Making

variable [MemorySpace σ]

/-- Making an access, which gives the pattern that it loads when it is a load. -/
def Access.make : Access → MemoryM σ (List UInt64)
  | store w a v => do
      MemorySpace.store w a v
      return []
  | load w a => do
      let v ← MemorySpace.load w a
      return [w.zeroExtend v]
  | fillZero a n => do
      MemorySpace.fillZero a n
      return []

/-- Making accesses in order, up to the first that fails, which gives the patterns that they
load. -/
def makeAll : List Access → MemoryM σ (List UInt64)
  | [] => return []
  | access :: accesses => do
      let loaded ← access.make
      let rest ← makeAll accesses
      return loaded ++ rest

theorem makeAll_nil (s : σ) : makeAll [] s = .ok [] s := rfl

theorem makeAll_cons {access : Access} {accesses : List Access} {s s' s'' : σ}
    {loaded rest : List UInt64} (hmake : access.make s = .ok loaded s')
    (hrest : makeAll accesses s' = .ok rest s'') :
    makeAll (access :: accesses) s = .ok (loaded ++ rest) s'' := by
  rw [makeAll, bind_of_ok hmake, bind_of_ok hrest]
  rfl

/-- When a first access and the accesses after it were made, each of them was. -/
theorem makeAll_cons_inv {access : Access} {accesses : List Access} {s s'' : σ}
    {patterns : List UInt64} (h : makeAll (access :: accesses) s = .ok patterns s'') :
    ∃ loaded rest s', access.make s = .ok loaded s' ∧ makeAll accesses s' = .ok rest s'' ∧
      patterns = loaded ++ rest := by
  obtain ⟨loaded, s', hmake, h⟩ := bind_eq_ok h
  obtain ⟨rest, s₁, hrest, h⟩ := bind_eq_ok h
  cases h
  exact ⟨loaded, rest, s', hmake, hrest, rfl⟩

/-- When accesses fail, the first of them does, or it was made and those after it fail. -/
theorem makeAll_cons_error {access : Access} {accesses : List Access} {f : Fault} {s s'' : σ}
    (h : makeAll (access :: accesses) s = .error f s'') :
    access.make s = .error f s'' ∨
      ∃ loaded s', access.make s = .ok loaded s' ∧ makeAll accesses s' = .error f s'' := by
  rcases bind_eq_error h with hmake | ⟨loaded, s', hmake, h⟩
  · exact .inl hmake
  · rcases bind_eq_error h with hrest | ⟨rest, s₁, -, h⟩
    · exact .inr ⟨loaded, s', hmake, hrest⟩
    · cases h

theorem make_store {w : Width} {a : Address} {v : w.Word} {s s' : σ}
    (h : MemorySpace.store w a v s = .ok () s') : (Access.store w a v).make s = .ok [] s' :=
  bind_of_ok h _

theorem make_store_error {w : Width} {a : Address} {v : w.Word} {f : Fault} {s s' : σ}
    (h : MemorySpace.store w a v s = .error f s') : (Access.store w a v).make s = .error f s' :=
  bind_of_error h _

theorem make_load {w : Width} {a : Address} {v : w.Word} {s s' : σ}
    (h : MemorySpace.load w a s = .ok v s') :
    (Access.load w a).make s = .ok [w.zeroExtend v] s' :=
  bind_of_ok h _

theorem make_load_error {w : Width} {a : Address} {f : Fault} {s s' : σ}
    (h : (MemorySpace.load w a : MemoryM σ w.Word) s = .error f s') :
    (Access.load w a).make s = .error f s' :=
  bind_of_error h _

/-- Only loads give patterns. -/
theorem patterns_eq_nil {accesses : List Access} {patterns : List UInt64} {s s' : σ}
    (hloads : ∀ w a, .load w a ∉ accesses) (h : makeAll accesses s = .ok patterns s') :
    patterns = [] := by
  induction accesses generalizing s patterns with
  | nil =>
      cases h
      rfl
  | cons access accesses ih =>
      obtain ⟨loaded, rest, s₁, hmake, hrest, rfl⟩ := makeAll_cons_inv h
      have hrest : rest = [] := ih (fun w a hmem => hloads w a (List.mem_cons_of_mem _ hmem)) hrest
      cases access with
      | load w a => exact absurd List.mem_cons_self (hloads w a)
      | store w a v =>
          obtain ⟨_, _, _, hmake⟩ := bind_eq_ok hmake
          cases hmake
          exact hrest
      | fillZero a n =>
          obtain ⟨_, _, _, hmake⟩ := bind_eq_ok hmake
          cases hmake
          exact hrest

end Making

/-! ### Making accesses on two spaces -/

namespace Simulation

variable {τ : Type} [MemorySpace σ] [MemorySpace τ] {R : σ → τ → Prop}

theorem make (h : Simulation R) (access : Access) : Agree R access.make access.make := by
  cases access with
  | store w a v => exact (h.store w a v).bind fun _ => .pure _
  | load w a => exact (h.load w a).bind fun _ => .pure _
  | fillZero a n => exact (h.fillZero a n).bind fun _ => .pure _

/-- Accesses made in order agree, by induction on them. -/
theorem makeAll (h : Simulation R) (accesses : List Access) :
    Agree R (WordMachine.makeAll accesses) (WordMachine.makeAll accesses) := by
  induction accesses with
  | nil => exact .pure _
  | cons access accesses ih => exact (h.make access).bind fun _ => ih.bind fun _ => .pure _

end Simulation

/-! ### Recorders -/

namespace Recorder

/-- An access through a recorder without a planned failure is entered, and then made. -/
theorem pass_eq {α : Type} {r : Recorder σ} (hr : r.failure = none) (access : Access)
    (action : MemoryM σ α) :
    pass access action r =
      match action r.inner with
      | .ok v s => .ok v { inner := s, accesses := r.accesses ++ [access] }
      | .error f s => .error f { inner := s, accesses := r.accesses ++ [access] } := by
  have hnext : r.nextFault? = none := by rw [nextFault?, hr]
  have henter (s : σ) : { r.enter access with inner := s } =
      ({ inner := s, accesses := r.accesses ++ [access] } : Recorder σ) := by
    rw [enter, hr]
  rw [pass, hnext]
  cases action r.inner with
  | ok v s => exact congrArg _ (henter s)
  | error f s => exact congrArg _ (henter s)

theorem agree_pass {α : Type} (access : Access) (action : MemoryM σ α) :
    Agree (fun (s : σ) (r : Recorder σ) => r.inner = s ∧ r.failure = none) action
      (pass access action) := by
  rintro s r ⟨rfl, hr⟩
  rw [pass_eq hr]
  cases action r.inner with
  | ok v s => exact .ok ⟨rfl, rfl⟩
  | error f s => exact .error ⟨rfl, rfl⟩

/-- What is made of the answer does not matter for passing an access on. -/
theorem pass_bind_pure {α β : Type} (access : Access) (action : MemoryM σ α) (f : α → β) :
    (do let v ← pass access action; return f v : MemoryM (Recorder σ) β) =
      pass access (do let v ← action; return f v) := by
  funext r
  cases hnext : r.nextFault? with
  | some e =>
      have hpass : pass access action r = .error e (r.enter access) := by rw [pass, hnext]
      rw [bind_of_error hpass, pass, hnext]
  | none =>
      cases haction : action r.inner with
      | ok v s =>
          have hpass : pass access action r = .ok v { r.enter access with inner := s } := by
            rw [pass, hnext, haction]
          rw [bind_of_ok hpass, pass, hnext, bind_of_ok haction]
          rfl
      | error e s =>
          have hpass : pass access action r = .error e { r.enter access with inner := s } := by
            rw [pass, hnext, haction]
          rw [bind_of_error hpass, pass, hnext, bind_of_error haction]

variable [MemorySpace σ]

/-- **A recorder answers as the space behind it does**, and keeps it as it would have been. -/
theorem simulation :
    Simulation (fun (s : σ) (r : Recorder σ) => r.inner = s ∧ r.failure = none) where
  store w a v := agree_pass (.store w a v) _
  load w a := agree_pass (.load w a) _
  fillZero a n := agree_pass (.fillZero a n) _

theorem make_eq_pass (access : Access) :
    (access.make : MemoryM (Recorder σ) (List UInt64)) = pass access access.make := by
  cases access with
  | store w a v => exact pass_bind_pure _ _ fun _ => []
  | load w a => exact pass_bind_pure _ _ fun v => [w.zeroExtend v]
  | fillZero a n => exact pass_bind_pure _ _ fun _ => []

variable {r r' : Recorder σ} {access : Access} {accesses : List Access} {patterns : List UInt64}

/-- An access that succeeds through a recorder succeeds behind it, and is entered. -/
theorem make_ok (hr : r.failure = none) (h : access.make r = .ok patterns r') :
    access.make r.inner = .ok patterns r'.inner ∧ r'.accesses = r.accesses ++ [access] ∧
      r'.failure = none := by
  rw [make_eq_pass, pass_eq hr] at h
  cases hinner : access.make r.inner with
  | error f s => rw [hinner] at h; cases h
  | ok v s =>
      rw [hinner] at h
      cases h
      exact ⟨rfl, rfl, rfl⟩

/-- An access that fails through a recorder fails behind it, and is entered all the same. -/
theorem make_error {f : Fault} (hr : r.failure = none) (h : access.make r = .error f r') :
    access.make r.inner = .error f r'.inner ∧ r'.accesses = r.accesses ++ [access] := by
  rw [make_eq_pass, pass_eq hr] at h
  cases hinner : access.make r.inner with
  | ok v s => rw [hinner] at h; cases h
  | error e s =>
      rw [hinner] at h
      cases h
      exact ⟨rfl, rfl⟩

/-- The accesses made through a recorder are entered in its list, in order. -/
theorem makeAll_ok (hr : r.failure = none) (h : makeAll accesses r = .ok patterns r') :
    makeAll accesses r.inner = .ok patterns r'.inner ∧ r'.accesses = r.accesses ++ accesses ∧
      r'.failure = none := by
  induction accesses generalizing r patterns with
  | nil =>
      cases h
      exact ⟨rfl, (List.append_nil _).symm, hr⟩
  | cons access accesses ih =>
      obtain ⟨loaded, rest, r₁, hmake, hrest, rfl⟩ := makeAll_cons_inv h
      obtain ⟨hmake, hentered, hr₁⟩ := make_ok hr hmake
      obtain ⟨hrest, hlist, hr'⟩ := ih hr₁ hrest
      refine ⟨makeAll_cons hmake hrest, ?_, hr'⟩
      rw [hlist, hentered, List.append_assoc]
      rfl

/-- When accesses through a recorder fail, the ones in its list are those that were made and, last,
the first that failed. -/
theorem makeAll_error {f : Fault} (hr : r.failure = none) (h : makeAll accesses r = .error f r') :
    makeAll accesses r.inner = .error f r'.inner ∧
      ∃ made last, r'.accesses = r.accesses ++ (made ++ [last]) ∧ made ++ [last] <+: accesses ∧
        ∃ loaded s, makeAll made r.inner = .ok loaded s ∧ last.make s = .error f r'.inner := by
  induction accesses generalizing r with
  | nil => cases h
  | cons access accesses ih =>
      rcases makeAll_cons_error h with hmake | ⟨loaded, r₁, hmake, hrest⟩
      · obtain ⟨hmake, hentered⟩ := make_error hr hmake
        refine ⟨bind_of_error hmake _, [], access, hentered, ?_, [], r.inner, rfl, hmake⟩
        exact List.prefix_append [access] accesses
      · obtain ⟨hmake, hentered, hr₁⟩ := make_ok hr hmake
        obtain ⟨hrest, made, last, hlist, hprefix, rest, s, hmade, hlast⟩ := ih hr₁ hrest
        have hmade := makeAll_cons hmake hmade
        refine ⟨?_, access :: made, last, ?_, ?_, loaded ++ rest, s, hmade, hlast⟩
        · exact (bind_of_ok hmake _).trans (bind_of_error hrest _)
        · rw [hlist, hentered, List.append_assoc]
          rfl
        · exact List.cons_prefix_cons.2 ⟨rfl, hprefix⟩

end Recorder

/-! ### The accesses of a computation -/

/-- The accesses that a computation makes from a state, as a recorder in front of the space lists
them. -/
def accessesFrom {α : Type} (s : σ) (x : MemoryM (Recorder σ) α) : List Access :=
  match x { inner := s } with
  | .ok _ r => r.accesses
  | .error _ r => r.accesses

/-- What is made of the answer does not matter for the accesses. -/
@[simp] theorem accessesFrom_map {α β : Type} (s : σ) (f : α → β) (x : MemoryM (Recorder σ) α) :
    accessesFrom s (f <$> x) = accessesFrom s x := by
  change accessesFrom s (EStateM.map f x) = _
  simp only [accessesFrom, EStateM.map]
  cases x { inner := s } <;> rfl

/-- Making accesses makes those that stand in the list: all of them when none fails, and otherwise
those before the first that fails, and that one. -/
theorem accessesFrom_makeAll [MemorySpace σ] (accesses : List Access) (s : σ) :
    match makeAll accesses s with
    | .ok _ _ => accessesFrom s (makeAll accesses) = accesses
    | .error f s' =>
        ∃ made last, accessesFrom s (makeAll accesses) = made ++ [last] ∧
          made ++ [last] <+: accesses ∧
          ∃ loaded s₁, makeAll made s = .ok loaded s₁ ∧ last.make s₁ = .error f s' := by
  rw [accessesFrom]
  cases h : makeAll accesses ({ inner := s } : Recorder σ) with
  | ok patterns r =>
      obtain ⟨hbehind, hlist, -⟩ := Recorder.makeAll_ok rfl h
      rw [hbehind]
      exact hlist
  | error f r =>
      obtain ⟨hbehind, hlist⟩ := Recorder.makeAll_error rfl h
      rw [hbehind]
      exact hlist

end WordMachine
