/-
**Blanks.**

A blank is a character with the Unicode property `White_Space`: the ASCII blanks, the next-line
control, and the spaces and separators outside ASCII.  The zero-width space and the byte order mark
are not blanks.  Trimming removes the blanks at both ends of a text and none of those inside it.

Main definitions:

* `WordMachine.Text.isBlank` — the property of one character;
* `WordMachine.Text.trim` — a text without the blanks at its ends.

Main results:

* `WordMachine.Text.trim_append` — blanks on either side of a text do not matter;
* `WordMachine.Text.trim_eq_self` — a text that neither begins nor ends with a blank stays.
-/

set_option relaxedAutoImplicit false
set_option autoImplicit false

namespace WordMachine.Text

/-! ### The property -/

/-- The code points with the property `White_Space`, as ranges with both ends. -/
def blankRanges : List (Nat × Nat) :=
  [(0x0009, 0x000D), (0x0020, 0x0020), (0x0085, 0x0085), (0x00A0, 0x00A0), (0x1680, 0x1680),
   (0x2000, 0x200A), (0x2028, 0x2029), (0x202F, 0x202F), (0x205F, 0x205F), (0x3000, 0x3000)]

/-- The characters that trimming removes. -/
def isBlank (c : Char) : Bool :=
  blankRanges.any fun range => range.1 ≤ c.toNat && c.toNat ≤ range.2

/-- Twenty-five characters are blanks. -/
example : (blankRanges.map fun range => range.2 + 1 - range.1).sum = 25 := by decide

example : isBlank '\u00a0' ∧ isBlank '\u3000' ∧ ¬ isBlank '\u200b' ∧ ¬ isBlank '\ufeff' := by
  decide

/-! ### Trimming -/

/-- A text without its leading blanks. -/
def trimStart (text : List Char) : List Char :=
  text.dropWhile isBlank

/-- A text without its trailing blanks. -/
def trimEnd (text : List Char) : List Char :=
  (text.reverse.dropWhile isBlank).reverse

/-- A text without the blanks at its ends. -/
def trim (text : List Char) : List Char :=
  trimEnd (trimStart text)

theorem trimStart_append {blanks : List Char} (h : ∀ c ∈ blanks, isBlank c) (text : List Char) :
    trimStart (blanks ++ text) = trimStart text := by
  induction blanks with
  | nil => rfl
  | cons c blanks ih =>
      have hc : isBlank c := h c (by simp)
      have ih := ih fun d hd => h d (by simp [hd])
      simpa [trimStart, List.dropWhile_cons, hc] using ih

theorem trimEnd_append {blanks : List Char} (h : ∀ c ∈ blanks, isBlank c) (text : List Char) :
    trimEnd (text ++ blanks) = trimEnd text := by
  have hrev : ∀ c ∈ blanks.reverse, isBlank c := by simpa using h
  simpa [trimStart, trimEnd] using trimStart_append hrev text.reverse

theorem trimStart_cons_of_not_isBlank {c : Char} (h : ¬ isBlank c) (text : List Char) :
    trimStart (c :: text) = c :: text := by
  simp [trimStart, h]

theorem trimEnd_concat_of_not_isBlank {c : Char} (h : ¬ isBlank c) (text : List Char) :
    trimEnd (text ++ [c]) = text ++ [c] := by
  simp [trimEnd, h]

/-- A text that neither begins nor ends with a blank is left as it is. -/
theorem trim_eq_self {text : List Char} (hhead : ∀ c ∈ text.head?, ¬ isBlank c)
    (hlast : ∀ c ∈ text.getLast?, ¬ isBlank c) : trim text = text := by
  have hstart : trimStart text = text := by
    cases text with
    | nil => rfl
    | cons c text => exact trimStart_cons_of_not_isBlank (hhead c (by simp)) text
  rw [trim, hstart]
  rcases List.eq_nil_or_concat text with rfl | ⟨init, c, rfl⟩
  · rfl
  · rw [List.concat_eq_append] at hlast ⊢
    exact trimEnd_concat_of_not_isBlank (hlast c (by simp)) init

/-- Blanks on either side of a text that has none at its ends are removed, and nothing else. -/
theorem trim_append {before text after : List Char} (hbefore : ∀ c ∈ before, isBlank c)
    (hafter : ∀ c ∈ after, isBlank c) (hhead : ∀ c ∈ text.head?, ¬ isBlank c)
    (hlast : ∀ c ∈ text.getLast?, ¬ isBlank c) : trim (before ++ text ++ after) = text := by
  rw [trim, List.append_assoc, trimStart_append hbefore]
  cases text with
  | nil => rw [List.nil_append, ← List.append_nil after, trimStart_append hafter]; rfl
  | cons c text =>
      have hc : ¬ isBlank c := hhead c (by simp)
      rw [List.cons_append, trimStart_cons_of_not_isBlank hc, ← List.cons_append,
        trimEnd_append hafter]
      simpa only [trim, trimStart_cons_of_not_isBlank hc] using trim_eq_self hhead hlast

end WordMachine.Text
