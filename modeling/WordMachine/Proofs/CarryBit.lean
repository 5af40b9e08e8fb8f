/-
**The overflow and the bit above the width.**

Two operands add up to less than twice the range of a width.  The sum wraps at most once, so its
value and its overflow say what it was, and the overflow is the one bit of it that lies above the
width.  A carry-in counts in full, and with it the sum may wrap a second time.  The overflow still
tells whether the sum fits.  It does not tell how often the sum wrapped, and it is not the bit above
the width any more: a test of that bit alone would miss the sums that wrap twice.

Main results:

* `WordMachine.Width.eq_checked_iff` — what wraps at most once is known from its value and overflow;
* `WordMachine.Width.checked_split_iff`, `WordMachine.Width.checked_overflow_eq_testBit_iff` —
  **wrapping at most once** is what it takes for the value and the overflow to recover a number, and
  for the overflow to be the bit above the width;
* `WordMachine.Width.both_overflow_iff` — the two additions of a sum with a carry-in both overflow
  when the sum wraps twice;
* `WordMachine.Width.add_exact`, `WordMachine.Width.addWithCarry_exact` — the additions, compared
  with the sums of numbers in all these respects.
-/

import WordMachine.Proofs.ExactSum

set_option relaxedAutoImplicit false
set_option autoImplicit false

namespace WordMachine.Width

/-! ### Numbers that wrap at most once -/

/-- The checked sum of a number that wraps at most once is the only one that recovers it, among
those whose value fits in the width. -/
theorem eq_checked_iff {w : Width} {n : ℕ} (h : n < 2 * 2 ^ w.bits) {s : CheckedSum} :
    s = w.checked n ↔
      s.value.toNat < 2 ^ w.bits ∧ n = s.value.toNat + 2 ^ w.bits * s.overflow.toNat := by
  constructor
  · rintro rfl
    refine ⟨?_, (checked_split h).symm⟩
    rw [toNat_checked_value]
    exact Nat.mod_lt _ (Nat.two_pow_pos _)
  · rintro ⟨hlt, rfl⟩
    refine eq_checked ?_ ?_
    · rw [Nat.add_mul_mod_self_left, Nat.mod_eq_of_lt hlt]
    · cases s.overflow with
      | false => simpa using hlt
      | true => simp

/-- The value and the overflow recover a number exactly when it wraps at most once. -/
theorem checked_split_iff {w : Width} {n : ℕ} :
    n = (w.checked n).value.toNat + 2 ^ w.bits * (w.checked n).overflow.toNat ↔
      n < 2 ^ (w.bits + 1) := by
  rw [Nat.pow_succ']
  constructor
  · intro h
    have hvalue := Nat.mod_lt n (Nat.two_pow_pos w.bits)
    have hoverflow := Nat.mul_le_mul_left (2 ^ w.bits) (Bool.toNat_le (w.checked n).overflow)
    rw [toNat_checked_value] at h
    omega
  · intro h
    exact (checked_split h).symm

/-- A number that wraps at most twice has its overflow in the bit above the width exactly when it
wraps at most once. -/
theorem checked_overflow_eq_testBit_iff {w : Width} {n : ℕ} (h : n < 3 * 2 ^ w.bits) :
    (w.checked n).overflow = n.testBit w.bits ↔ n < 2 ^ (w.bits + 1) := by
  have hpos := Nat.two_pow_pos w.bits
  -- everything is read off how often the number wraps, which is zero times, once or twice
  have htimes : n / 2 ^ w.bits < 3 := (Nat.div_lt_iff_lt_mul hpos).2 h
  have hfits : 2 ^ w.bits ≤ n ↔ 1 ≤ n / 2 ^ w.bits := by
    rw [Nat.le_div_iff_mul_le hpos, Nat.one_mul]
  have honce : n < 2 ^ (w.bits + 1) ↔ n / 2 ^ w.bits < 2 := by
    rw [Nat.div_lt_iff_lt_mul hpos, Nat.pow_succ']
  rw [Nat.testBit_eq_decide_div_mod_eq, checked, decide_eq_decide, hfits, honce]
  generalize n / 2 ^ w.bits = times at htimes ⊢
  omega

/-! ### Sums of two operands -/

theorem exactSum_pair_lt (w : Width) (l r : UInt64) : w.exactSum [l, r] < 2 * 2 ^ w.bits := by
  have hl := Nat.mod_lt l.toNat (Nat.two_pow_pos w.bits)
  have hr := Nat.mod_lt r.toNat (Nat.two_pow_pos w.bits)
  rw [exactSum_pair]
  omega

/-- **Addition is exact.**  The value is the sum of the operands modulo `2 ^ bits`, and the overflow
tells whether the sum reaches `2 ^ bits`.  Together they recover the sum, and nothing else whose
value fits in the width does.  At 64 bits the value is the sum of the patterns, which itself
wraps. -/
theorem add_exact (w : Width) (l r : UInt64) :
    let left := l.toNat % 2 ^ w.bits
    let right := r.toNat % 2 ^ w.bits
    (w.add l r).value.toNat = (left + right) % 2 ^ w.bits ∧
      ((w.add l r).overflow = true ↔ 2 ^ w.bits ≤ left + right) ∧
      left + right = (w.add l r).value.toNat + 2 ^ w.bits * (w.add l r).overflow.toNat ∧
      (∀ s : CheckedSum, s = w.add l r ↔
        s.value.toNat < 2 ^ w.bits ∧
          left + right = s.value.toNat + 2 ^ w.bits * s.overflow.toNat) ∧
      w64.add l r = ⟨l + r, decide (2 ^ 64 ≤ l.toNat + r.toNat)⟩ := by
  intro left right
  have honly : ∀ s : CheckedSum, s = w.add l r ↔
      s.value.toNat < 2 ^ w.bits ∧
        left + right = s.value.toNat + 2 ^ w.bits * s.overflow.toNat := by
    intro s
    rw [add_eq, eq_checked_iff (exactSum_pair_lt w l r), exactSum_pair]
  have hpatterns : w64.exactSum [l, r] = l.toNat + r.toNat := by
    rw [exactSum_pair]
    exact congrArg₂ (· + ·) (Nat.mod_eq_of_lt l.toNat_lt) (Nat.mod_eq_of_lt r.toNat_lt)
  refine ⟨toNat_add_value w l r, ?_, ((honly _).1 rfl).2, honly, ?_⟩
  · rw [add_overflow_iff, exactSum_pair]
  · rw [add_eq, hpatterns]
    refine (eq_checked ?_ ?_).symm
    · exact UInt64.toNat_add l r
    · exact decide_eq_true_iff

/-! ### Sums with a carry-in -/

theorem exactSum_triple_le (w : Width) (l r c : UInt64) :
    w.exactSum [l, r, c] + 3 ≤ 3 * 2 ^ w.bits := by
  have hl := Nat.mod_lt l.toNat (Nat.two_pow_pos w.bits)
  have hr := Nat.mod_lt r.toNat (Nat.two_pow_pos w.bits)
  have hc := Nat.mod_lt c.toNat (Nat.two_pow_pos w.bits)
  rw [exactSum_triple]
  omega

/-- Two numbers below `b` add up to `b` or more, and what is left with a third one does so again,
when the three add up to `2 * b` or more. -/
theorem wrap_twice_iff {b x y z : ℕ} (hx : x < b) (hy : y < b) (hz : z < b) :
    b ≤ x + y ∧ b ≤ (x + y) % b + z ↔ 2 * b ≤ x + y + z := by
  rcases Nat.lt_or_ge (x + y) b with hlt | hge
  · -- the first two fit together, and the third takes them past `b` once at most
    omega
  · rw [Nat.mod_eq_sub_mod hge, Nat.mod_eq_of_lt (by omega)]
    omega

/-- The two additions of a sum with a carry-in both overflow when the sum wraps twice. -/
theorem both_overflow_iff {w : Width} {l r c : UInt64} :
    (w.add l r).overflow = true ∧ (w.add (w.add l r).value c).overflow = true ↔
      2 ^ (w.bits + 1) ≤ w.exactSum [l, r, c] := by
  rw [add_overflow_iff, add_overflow_iff, exactSum_pair, exactSum_pair, exactSum_triple,
    toNat_add_value, Nat.mod_mod, Nat.pow_succ']
  have hpos := Nat.two_pow_pos w.bits
  exact wrap_twice_iff (Nat.mod_lt _ hpos) (Nat.mod_lt _ hpos) (Nat.mod_lt _ hpos)

/-- **Addition with a carry-in is exact, whatever the carry-in is.**  The value is the sum of the
three modulo `2 ^ bits`, and the overflow tells whether the sum reaches `2 ^ bits`, also when both
additions that form it overflow, which they do when it reaches `2 ^ (bits + 1)`.  Below that, and so
for a carry-in of at most one, value and overflow recover the sum, and the overflow is the bit above
the width.  For every other sum neither is so. -/
theorem addWithCarry_exact (w : Width) (l r c : UInt64) :
    let s := w.addWithCarry l r c
    let t := l.toNat % 2 ^ w.bits + r.toNat % 2 ^ w.bits + c.toNat % 2 ^ w.bits
    t + 3 ≤ 3 * 2 ^ w.bits ∧
      s.value.toNat = t % 2 ^ w.bits ∧
      (s.overflow = true ↔ 2 ^ w.bits ≤ t) ∧
      ((w.add l r).overflow = true ∧ (w.add (w.add l r).value c).overflow = true ↔
        2 ^ (w.bits + 1) ≤ t) ∧
      (t = s.value.toNat + 2 ^ w.bits * s.overflow.toNat ↔ t < 2 ^ (w.bits + 1)) ∧
      (c.toNat % 2 ^ w.bits ≤ 1 → t = s.value.toNat + 2 ^ w.bits * s.overflow.toNat) ∧
      (s.overflow = t.testBit w.bits ↔ t < 2 ^ (w.bits + 1)) := by
  intro s t
  have ht : w.exactSum [l, r, c] = t := exactSum_triple w l r c
  have hs : s = w.checked t := by
    rw [← ht]
    exact addWithCarry_eq w l r c
  have hle : t + 3 ≤ 3 * 2 ^ w.bits := by
    rw [← ht]
    exact exactSum_triple_le w l r c
  have hsplit : t = s.value.toNat + 2 ^ w.bits * s.overflow.toNat ↔ t < 2 ^ (w.bits + 1) := by
    rw [hs]
    exact checked_split_iff
  refine ⟨hle, ?_, ?_, ?_, hsplit, ?_, ?_⟩
  · rw [hs, toNat_checked_value]
  · rw [hs]
    exact decide_eq_true_iff
  · rw [both_overflow_iff, ht]
  · intro hc
    have hpair := exactSum_pair_lt w l r
    rw [exactSum_pair] at hpair
    rw [hsplit, Nat.pow_succ']
    omega
  · rw [hs]
    exact checked_overflow_eq_testBit_iff (by omega)

/-- In eight bits the largest operands wrap once with a carry-in of one. -/
theorem addWithCarry_exact_largest :
    (1 : UInt64).toNat % 2 ^ w8.bits ≤ 1 ∧
      255 + 255 + 1 = (w8.addWithCarry 255 255 1).value.toNat +
        2 ^ w8.bits * (w8.addWithCarry 255 255 1).overflow.toNat := by
  have hcarry : (1 : UInt64).toNat % 2 ^ w8.bits ≤ 1 := by decide
  obtain ⟨-, -, -, -, -, hsplit, -⟩ := addWithCarry_exact w8 255 255 1
  exact ⟨hcarry, hsplit hcarry⟩

-- with a carry-in of two they wrap twice, and the bit above the width is clear
example : w8.addWithCarry 255 255 2 = ⟨0, true⟩ ∧ Nat.testBit (255 + 255 + 2) 8 = false := by
  decide

end WordMachine.Width
