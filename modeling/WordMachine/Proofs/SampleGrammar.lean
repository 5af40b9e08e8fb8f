/-
**The texts that stand for a number of samples.**

A number of samples is read from a text by cutting the blanks off its ends, dropping one plus sign,
and evaluating what is left as a decimal numeral, which has to be positive and small enough for a
64-bit pattern.  This module describes the same texts by what they look like, without any reading:
blanks, perhaps a sign, digits, blanks.  It proves that the reader accepts these texts and no
others, with the positional value of the digits, however many of them there are.

Main definitions:

* `WordMachine.Text.Trimmed` — a text without the blanks at its ends, as a relation;
* `WordMachine.Numeral.value` — the positional value of decimal digits;
* `WordMachine.SuiteOptions.Denotes` — the trimmed texts that stand for a number of samples.

Main results:

* `WordMachine.Text.trimmed_iff` — trimming removes the blanks at the ends and nothing else;
* `WordMachine.Numeral.ofDecimal?_eq_some_iff_value` — numerals by their positional value;
* `WordMachine.SuiteOptions.sampleCount?_eq_some_iff` — **the reader accepts the grammar**;
* `WordMachine.SuiteOptions.ofTexts_exact` — the settings from every pair of texts.
-/

import Mathlib.Data.List.Induction
import Mathlib.Data.List.TakeWhile
import Mathlib.Data.Nat.Digits.Defs
import WordMachine.SuiteOptions

set_option relaxedAutoImplicit false
set_option autoImplicit false

namespace WordMachine

namespace Text

/-! ### Trimming -/

/-- The trimmed text is what lies between blanks at the two ends of the other, and has no blank at
its own ends. -/
structure Trimmed (text trimmed : List Char) : Prop where
  between : ∃ before after, text = before ++ trimmed ++ after ∧
    (∀ c ∈ before, isBlank c) ∧ ∀ c ∈ after, isBlank c
  head : ∀ c ∈ trimmed.head?, ¬ isBlank c
  last : ∀ c ∈ trimmed.getLast?, ¬ isBlank c

/-- Leading blanks, and what begins with no blank. -/
theorem trimStart_spec (text : List Char) :
    (∃ blanks, text = blanks ++ trimStart text ∧ ∀ c ∈ blanks, isBlank c) ∧
      ∀ c ∈ (trimStart text).head?, ¬ isBlank c := by
  refine ⟨⟨text.takeWhile isBlank, List.takeWhile_append_dropWhile.symm, ?_⟩, ?_⟩
  · intro c hc
    exact List.mem_takeWhile_imp hc
  · intro c hc
    have h := List.head?_dropWhile_not isBlank text
    rw [trimStart, Option.mem_def] at hc
    rw [hc] at h
    simpa using h

/-- What ends with no blank, and trailing blanks. -/
theorem trimEnd_spec (text : List Char) :
    (∃ blanks, text = trimEnd text ++ blanks ∧ ∀ c ∈ blanks, isBlank c) ∧
      ∀ c ∈ (trimEnd text).getLast?, ¬ isBlank c := by
  obtain ⟨⟨blanks, hblanks, hall⟩, hhead⟩ := trimStart_spec text.reverse
  have hend : trimEnd text = (trimStart text.reverse).reverse := rfl
  refine ⟨⟨blanks.reverse, ?_, by simpa using hall⟩, ?_⟩
  · rw [hend, ← List.reverse_append, ← hblanks, List.reverse_reverse]
  · rw [hend, List.getLast?_reverse]
    exact hhead

/-- Every text can be trimmed. -/
theorem trimmed_trim (text : List Char) : Trimmed text (trim text) := by
  obtain ⟨⟨before, hbefore, hallBefore⟩, hhead⟩ := trimStart_spec text
  obtain ⟨⟨after, hafter, hallAfter⟩, hlast⟩ := trimEnd_spec (trimStart text)
  refine ⟨⟨before, after, ?_, hallBefore, hallAfter⟩, ?_, hlast⟩
  · rw [List.append_assoc]
    exact hbefore.trans (congrArg (before ++ ·) hafter)
  · -- cutting the trailing blanks off keeps the first character, if one is left
    intro c hc
    refine hhead c ?_
    rw [trim, Option.mem_def] at hc
    rw [hafter, List.head?_append, hc]
    rfl

/-- **Trimming removes the blanks at the ends**, and no text can be trimmed in two ways. -/
theorem trimmed_iff {text trimmed : List Char} : Trimmed text trimmed ↔ trim text = trimmed := by
  constructor
  · rintro ⟨⟨before, after, rfl, hbefore, hafter⟩, hhead, hlast⟩
    exact trim_append hbefore hafter hhead hlast
  · rintro rfl
    exact trimmed_trim text

end Text

namespace Numeral

/-! ### Numerals -/

/-- The positional value of decimal digits, the most significant first. -/
def value (digits : List Char) : ℕ :=
  Nat.ofDigits 10 (digits.reverse.map fun d => d.toNat - '0'.toNat)

theorem ofDigitChars_eq_value (digits : List Char) :
    Nat.ofDigitChars 10 digits 0 = value digits := by
  induction digits using List.reverseRecOn with
  | nil => rfl
  | append_singleton digits d ih =>
      rw [Nat.ofDigitChars_append, ih, Nat.ofDigitChars_cons, Nat.ofDigitChars_nil, value, value,
        List.reverse_append, List.reverse_singleton, List.singleton_append, List.map_cons,
        Nat.ofDigits_cons, Nat.add_comm]

/-- A text is a numeral when it has digits and nothing else, and stands for their positional
value. -/
theorem ofDecimal?_eq_some_iff_value {digits : List Char} {n : ℕ} :
    ofDecimal? digits = some n ↔
      digits ≠ [] ∧ (∀ d ∈ digits, d.isDigit) ∧ value digits = n := by
  rw [ofDecimal?_eq_some_iff, ofDigitChars_eq_value]

/-- Leading zeros do not change the value of a number that is written out. -/
theorem ofDecimal?_zeros_decimal (zeros n : ℕ) :
    ofDecimal? (List.replicate zeros '0' ++ (decimal n).toList) = some n :=
  ofDecimal?_zeros_append zeros (ofDecimal?_decimal n)

end Numeral

namespace SuiteOptions

open Text (isBlank Trimmed)

/-! ### Numbers of samples -/

/-- The trimmed texts that stand for a number of samples: perhaps a plus sign, and then decimal
digits, any number of them, whose value is positive and below `2 ^ 64`. -/
structure Denotes (text : List Char) (n : ℕ) : Prop where
  written : ∃ sign digits, text = sign ++ digits ∧ (sign = [] ∨ sign = ['+']) ∧
    digits ≠ [] ∧ (∀ d ∈ digits, d.isDigit) ∧ Numeral.value digits = n
  pos : 0 < n
  lt : n < 2 ^ 64

theorem count?_eq_some_iff {digits : List Char} {n : UInt64} :
    count? digits = some n ↔
      digits ≠ [] ∧ (∀ d ∈ digits, d.isDigit) ∧ Numeral.value digits = n.toNat := by
  rw [← Numeral.ofDecimal?_eq_some_iff_value, count?]
  cases hvalue : Numeral.ofDecimal? digits with
  | none => simp
  | some k =>
      by_cases hk : k < UInt64.size
      · simp only [if_pos hk, Option.some.injEq]
        rw [← UInt64.toNat_inj, UInt64.toNat_ofNat_of_lt' hk]
      · simp only [if_neg hk, Option.some.injEq, reduceCtorEq, false_iff]
        rintro rfl
        exact hk n.toNat_lt

/-- At most one plus sign is dropped, since a sign is no digit. -/
theorem signedCount?_eq_some_iff {text : List Char} {n : UInt64} :
    signedCount? text = some n ↔
      ∃ sign digits, text = sign ++ digits ∧ (sign = [] ∨ sign = ['+']) ∧
        count? digits = some n := by
  constructor
  · intro h
    unfold signedCount? at h
    split at h
    · rename_i digits
      exact ⟨['+'], digits, rfl, .inr rfl, h⟩
    · exact ⟨[], text, rfl, .inl rfl, h⟩
  · rintro ⟨sign, digits, rfl, rfl | rfl, h⟩
    · rw [List.nil_append, signedCount?.eq_def]
      split
      · -- digits do not begin with a sign
        have hplus := (count?_eq_some_iff.1 h).2.1 '+' (List.mem_cons_self ..)
        exact absurd hplus (by decide)
      · exact h
    · exact h

theorem sampleCount?_eq_some_iff_signed {text : String} {n : UInt64} :
    sampleCount? text = some n ↔
      signedCount? (Text.trim text.toList) = some n ∧ n ≠ 0 := by
  rw [sampleCount?]
  cases signedCount? (Text.trim text.toList) with
  | none => simp
  | some k =>
      by_cases hk : k = 0
      · simp [hk, eq_comm]
      · simp only [if_neg hk, Option.some.injEq]
        constructor
        · rintro rfl
          exact ⟨rfl, hk⟩
        · exact And.left

/-- **The reader accepts the grammar**: the texts that stand for a number when they are trimmed, and
no others. -/
theorem sampleCount?_eq_some_iff {text : String} {n : UInt64} :
    sampleCount? text = some n ↔ Denotes (Text.trim text.toList) n.toNat := by
  have hpos : n ≠ 0 ↔ 0 < n.toNat := by
    rw [ne_eq, ← UInt64.toNat_inj, UInt64.toNat_zero]
    omega
  rw [sampleCount?_eq_some_iff_signed, signedCount?_eq_some_iff, hpos]
  constructor
  · rintro ⟨⟨sign, digits, htext, hsign, hcount⟩, hn⟩
    obtain ⟨hne, hdigits, hvalue⟩ := count?_eq_some_iff.1 hcount
    exact ⟨⟨sign, digits, htext, hsign, hne, hdigits, hvalue⟩, hn, n.toNat_lt⟩
  · rintro ⟨⟨sign, digits, htext, hsign, hne, hdigits, hvalue⟩, hn, -⟩
    exact ⟨⟨sign, digits, htext, hsign, count?_eq_some_iff.2 ⟨hne, hdigits, hvalue⟩⟩, hn⟩

/-- A text that is none of the grammar is not read. -/
theorem sampleCount?_eq_none_iff {text : String} :
    sampleCount? text = none ↔ ∀ n, ¬ Denotes (Text.trim text.toList) n := by
  rw [Option.eq_none_iff_forall_ne_some]
  constructor
  · intro h n hn
    refine h (UInt64.ofNat n) (sampleCount?_eq_some_iff.2 ?_)
    rwa [UInt64.toNat_ofNat_of_lt' hn.lt]
  · intro h n hn
    exact h n.toNat (sampleCount?_eq_some_iff.1 hn)

/-! ### Writing a number of samples -/

/-- No digit is a blank. -/
theorem not_isBlank_of_isDigit {d : Char} (h : d.isDigit) : ¬ isBlank d := by
  have hd : 48 ≤ d.toNat ∧ d.toNat ≤ 57 := by
    simpa [Char.isDigit, UInt32.le_iff_toNat_le] using h
  simp only [isBlank, Text.blankRanges, List.any_cons, List.any_nil, Bool.or_eq_true,
    Bool.and_eq_true, decide_eq_true_eq, Bool.false_eq_true, or_false]
  omega

/-- A text that stands for a number is what trimming leaves of it. -/
theorem Denotes.trimmed {text : List Char} {n : ℕ} (h : Denotes text n) {before after : List Char}
    (hbefore : ∀ c ∈ before, isBlank c) (hafter : ∀ c ∈ after, isBlank c) :
    Trimmed (before ++ text ++ after) text := by
  obtain ⟨sign, digits, rfl, hsign, -, hdigits, -⟩ := h.written
  have hmem : ∀ c ∈ sign ++ digits, ¬ isBlank c := by
    intro c hc
    rcases List.mem_append.1 hc with hc | hc
    · rcases hsign with rfl | rfl
      · simp at hc
      · rw [List.mem_singleton.1 hc]
        decide
    · exact not_isBlank_of_isDigit (hdigits c hc)
  refine ⟨⟨before, after, rfl, hbefore, hafter⟩, ?_, ?_⟩
  · intro c hc
    exact hmem c (List.mem_of_mem_head? hc)
  · intro c hc
    exact hmem c (List.mem_of_mem_getLast? hc)

/-- The decimal form of a number stands for it, with zeros in front of it and perhaps a plus sign
before these. -/
theorem denotes_decimal {n : ℕ} (hpos : 0 < n) (hlt : n < 2 ^ 64) {sign : List Char}
    (hsign : sign = [] ∨ sign = ['+']) (zeros : ℕ) :
    Denotes (sign ++ (List.replicate zeros '0' ++ (Numeral.decimal n).toList)) n := by
  obtain ⟨hne, hdigits, hvalue⟩ :=
    Numeral.ofDecimal?_eq_some_iff_value.1 (Numeral.ofDecimal?_zeros_decimal zeros n)
  exact ⟨⟨sign, _, rfl, hsign, hne, hdigits, hvalue⟩, hpos, hlt⟩

/-! ### The settings -/

theorem filter_ofTexts (filter samples : Option String) :
    (ofTexts filter samples).filter = if filter = some "" then none else filter := by
  rw [ofTexts]
  cases filter with
  | none => rfl
  | some text =>
      by_cases h : text = ""
      · simp [h]
      · simp [h, Option.filter]

/-- A text that stands for a number sets it. -/
theorem samples_ofTexts_of_denotes (filter : Option String) {text : String} {n : ℕ}
    (h : Denotes (Text.trim text.toList) n) :
    (ofTexts filter (some text)).samples.toNat = n := by
  have hn : (UInt64.ofNat n).toNat = n := UInt64.toNat_ofNat_of_lt' h.lt
  have hread : sampleCount? text = some (UInt64.ofNat n) := by
    rwa [sampleCount?_eq_some_iff, hn]
  rw [ofTexts, Option.bind_some, hread, Option.getD_some, hn]

/-- Any other text counts as none given. -/
theorem samples_ofTexts_of_not_denotes (filter : Option String) {text : String}
    (h : ∀ n, ¬ Denotes (Text.trim text.toList) n) :
    (ofTexts filter (some text)).samples = defaultSamples := by
  rw [ofTexts, Option.bind_some, sampleCount?_eq_none_iff.2 h, Option.getD_none]

/-- There is always at least one sample. -/
theorem samples_ofTexts_ne_zero (filter samples : Option String) :
    (ofTexts filter samples).samples ≠ 0 := by
  rw [ofTexts]
  cases hread : samples.bind sampleCount? with
  | none =>
      have hdefault : defaultSamples ≠ 0 := by decide
      exact hdefault
  | some n =>
      obtain ⟨text, -, htext⟩ := Option.bind_eq_some_iff.1 hread
      exact (sampleCount?_eq_some_iff_signed.1 htext).2

/-- **The settings from every pair of texts.**  A text that stands for a number of samples when it
is trimmed sets that number, and with any other text, or none, there are 256 samples, so there is
always at least one.  Every number is read back from its decimal form, with blanks around it, zeros
in front of it and perhaps a plus sign before these.  The filter is the given one unless that is
empty, whatever the number of samples. -/
theorem ofTexts_exact (filter samples : Option String) :
    (ofTexts filter samples).filter = (if filter = some "" then none else filter) ∧
      (ofTexts filter samples).samples ≠ 0 ∧
      (samples = none → (ofTexts filter samples).samples = 256) ∧
      (∀ text, samples = some text → ∃ trimmed, (∀ t, Trimmed text.toList t ↔ t = trimmed) ∧
        (∀ n, Denotes trimmed n → (ofTexts filter samples).samples.toNat = n) ∧
        ((∀ n, ¬ Denotes trimmed n) → (ofTexts filter samples).samples = 256)) ∧
      ∀ (n zeros : ℕ) (before sign after : List Char), 0 < n → n < 2 ^ 64 →
        (∀ c ∈ before, isBlank c) → (∀ c ∈ after, isBlank c) → (sign = [] ∨ sign = ['+']) →
        (ofTexts filter (some (String.ofList (before ++
          (sign ++ (List.replicate zeros '0' ++ (Numeral.decimal n).toList)) ++
            after)))).samples.toNat = n := by
  refine ⟨filter_ofTexts filter samples, samples_ofTexts_ne_zero filter samples, ?_, ?_, ?_⟩
  · rintro rfl
    rfl
  · rintro text rfl
    refine ⟨Text.trim text.toList, ?_, ?_, ?_⟩
    · intro t
      rw [Text.trimmed_iff, eq_comm]
    · intro n hn
      exact samples_ofTexts_of_denotes filter hn
    · intro h
      exact samples_ofTexts_of_not_denotes filter h
  · intro n zeros before sign after hpos hlt hbefore hafter hsign
    have hdenotes := denotes_decimal hpos hlt hsign zeros
    have htrim := Text.trimmed_iff.1 (hdenotes.trimmed hbefore hafter)
    refine samples_ofTexts_of_denotes filter ?_
    rwa [String.toList_ofList, htrim]

end SuiteOptions

end WordMachine
