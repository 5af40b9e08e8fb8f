/-
**Occurrences of one text in another.**

A text occurs in another when it stands somewhere in it as it is, character by character: there are
no patterns, and letters that differ only in case differ.  The empty text occurs in every text.

Main definitions:

* `WordMachine.Text.occursIn` — the test.

Main results:

* `WordMachine.Text.occursIn_iff` — the text is the middle part of the other.
-/

set_option relaxedAutoImplicit false
set_option autoImplicit false

namespace WordMachine.Text

/-- Whether `part` stands at some place of the second text; the places are tried from the left. -/
def occursIn (part : List Char) : List Char → Bool
  | [] => part.isEmpty
  | c :: text => part.isPrefixOf (c :: text) || occursIn part text

theorem occursIn_nil (part : List Char) : occursIn part [] = part.isEmpty := rfl

theorem occursIn_cons (part : List Char) (c : Char) (text : List Char) :
    occursIn part (c :: text) = (part.isPrefixOf (c :: text) || occursIn part text) := rfl

/-- A text occurs in another exactly when it is the middle part of it. -/
theorem occursIn_iff {part text : List Char} :
    occursIn part text ↔ ∃ before after, text = before ++ part ++ after := by
  induction text with
  | nil =>
      rw [occursIn_nil, List.isEmpty_iff]
      constructor
      · rintro rfl
        exact ⟨[], [], rfl⟩
      · rintro ⟨before, after, h⟩
        simp only [List.append_assoc, List.nil_eq, List.append_eq_nil_iff] at h
        exact h.2.1
  | cons c text ih =>
      rw [occursIn_cons, Bool.or_eq_true, ih, List.isPrefixOf_iff_prefix]
      constructor
      · rintro (⟨after, h⟩ | ⟨before, after, h⟩)
        · exact ⟨[], after, h.symm⟩
        · exact ⟨c :: before, after, by rw [h]; rfl⟩
      · rintro ⟨before, after, h⟩
        cases before with
        | nil => exact .inl ⟨after, h.symm⟩
        | cons d before =>
            rw [List.cons_append, List.cons_append, List.cons.injEq] at h
            exact .inr ⟨before, after, h.2⟩

end WordMachine.Text
