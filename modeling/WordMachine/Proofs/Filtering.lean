/-
**The cases that a filter runs.**

A filter runs the cases whose names have it as a part, character by character.  The names may as
well be searched byte by byte: in UTF-8 no character begins inside another one, so wherever the
bytes of a filter stand in a name, they stand between characters.  What one filter runs, another
runs too just when the other is a part of the one, so no two filters run the same cases.  The empty
filter runs every case, like none at all.

Main results:

* `WordMachine.Text.occursIn_iff_infix` — the search finds a part wherever it is;
* `WordMachine.Text.isValidUTF8_around` — **what surrounds the bytes of a text is text**;
* `WordMachine.Text.infix_toList_iff_bytes` — parts of a text are parts of its bytes;
* `WordMachine.SuiteOptions.runs_ofTexts_iff` — a filter runs the names that it is a part of;
* `WordMachine.SuiteOptions.runs_ofTexts_imp_iff`, `WordMachine.SuiteOptions.runs_ofTexts_inj` —
  **filters are ordered by their parts**;
* `WordMachine.SuiteOptions.runs_exact` — the cases that are run, for every filter and name.
-/

import Mathlib.Data.List.Infix
import WordMachine.Proofs.SampleGrammar

set_option relaxedAutoImplicit false
set_option autoImplicit false

namespace WordMachine

namespace Text

/-! ### Parts of a text -/

/-- The search finds a part wherever it is. -/
theorem occursIn_iff_infix {part text : List Char} :
    occursIn part text = true ↔ part <:+: text := by
  rw [occursIn_iff]
  constructor
  · rintro ⟨before, after, h⟩
    exact ⟨before, after, h.symm⟩
  · rintro ⟨before, after, h⟩
    exact ⟨before, after, h.symm⟩

/-- A part of a text stands between two others. -/
theorem infix_toList_iff {part text : String} :
    part.toList <:+: text.toList ↔ ∃ before after, text = before ++ part ++ after := by
  constructor
  · rintro ⟨before, after, h⟩
    refine ⟨String.ofList before, String.ofList after, String.toList_inj.1 ?_⟩
    rw [String.toList_append, String.toList_append, String.toList_ofList, String.toList_ofList, h]
  · rintro ⟨before, after, rfl⟩
    refine ⟨before.toList, after.toList, ?_⟩
    rw [String.toList_append, String.toList_append]

/-! ### Parts of the bytes of a text -/

/-- Three pieces of bytes are found again in what they are put together to. -/
theorem extract_append_append {whole before middle after : ByteArray}
    (h : whole = before ++ middle ++ after) :
    whole.extract 0 before.size = before ∧
      whole.extract before.size (before.size + middle.size) = middle ∧
      whole.extract (before.size + middle.size) whole.size = after := by
  have hright : whole = before ++ (middle ++ after) := h.trans ByteArray.append_assoc
  refine ⟨?_, ?_, ?_⟩
  · rw [hright]
    exact ByteArray.extract_append_eq_left rfl
  · have hskip : whole.extract (before.size + 0) (before.size + middle.size) =
        (middle ++ after).extract 0 middle.size := by
      rw [hright]
      exact ByteArray.extract_append_size_add
    exact hskip.trans (ByteArray.extract_append_eq_left rfl)
  · rw [h]
    exact ByteArray.extract_append_eq_right ByteArray.size_append.symm ByteArray.size_append

/-- **What surrounds the bytes of a text is text.**  Where the bytes of a text that is not empty
stand in those of another, they begin and end between two characters of it. -/
theorem isValidUTF8_around {part text : String} {before after : ByteArray} (hpart : part ≠ "")
    (h : text.toByteArray = before ++ part.toByteArray ++ after) :
    before.IsValidUTF8 ∧ after.IsValidUTF8 := by
  obtain ⟨hbefore, hmiddle, hafter⟩ := extract_append_append h
  have hsize : text.utf8ByteSize = before.size + part.toByteArray.size + after.size := by
    rw [← String.size_toByteArray, h, ByteArray.size_append, ByteArray.size_append]
  let first : String.Pos.Raw := ⟨before.size⟩
  let last : String.Pos.Raw := ⟨before.size + part.toByteArray.size⟩
  have hfirst : first ≤ last := by
    rw [String.Pos.Raw.le_iff]
    exact Nat.le_add_right _ _
  have hlast : last ≤ text.rawEndPos := by
    rw [String.Pos.Raw.le_iff, String.byteIdx_rawEndPos, hsize]
    exact Nat.le_add_right _ _
  have hvalid : (text.toByteArray.extract first.byteIdx last.byteIdx).IsValidUTF8 := by
    rw [hmiddle]
    exact part.isValidUTF8
  rcases (String.Pos.Raw.isValidUTF8_extract_iff first last hfirst hlast).1 hvalid with
    hempty | ⟨hbegins, hends⟩
  · -- only the empty text begins where it ends
    have hindex : before.size = before.size + part.toByteArray.size :=
      congrArg String.Pos.Raw.byteIdx hempty
    rw [String.size_toByteArray] at hindex
    exact absurd (String.utf8ByteSize_eq_zero_iff.1 (by omega)) hpart
  · have hstart := hbegins.isValidUTF8_extract_zero
    have hrest := hends.isValidUTF8_extract_utf8ByteSize
    rw [← String.size_toByteArray, hafter] at hrest
    rw [hbefore] at hstart
    exact ⟨hstart, hrest⟩

/-- The parts of a text are those whose bytes stand in its bytes. -/
theorem infix_toList_iff_bytes {part text : String} :
    part.toList <:+: text.toList ↔
      ∃ before after : ByteArray, text.toByteArray = before ++ part.toByteArray ++ after := by
  rw [infix_toList_iff]
  constructor
  · rintro ⟨before, after, rfl⟩
    refine ⟨before.toByteArray, after.toByteArray, ?_⟩
    rw [String.toByteArray_append, String.toByteArray_append]
  · rintro ⟨before, after, h⟩
    by_cases hpart : part = ""
    · exact ⟨"", text, by rw [hpart, String.empty_append, String.empty_append]⟩
    · obtain ⟨hbefore, hafter⟩ := isValidUTF8_around hpart h
      refine ⟨⟨before, hbefore⟩, ⟨after, hafter⟩, String.toByteArray_inj.1 ?_⟩
      rw [String.toByteArray_append, String.toByteArray_append, h]

end Text

namespace SuiteOptions

/-! ### The cases of a filter -/

/-- A filter that is given, empty or not, runs the names that it is a part of. -/
theorem runs_mk_iff {filter name : String} {samples : UInt64} :
    (⟨some filter, samples⟩ : SuiteOptions).runs name = true ↔ filter.toList <:+: name.toList :=
  Text.occursIn_iff_infix

/-- Without a filter every name is run. -/
theorem runs_of_filter_eq_none {options : SuiteOptions} (h : options.filter = none)
    (name : String) : options.runs name = true := by
  rw [runs, h]

/-- Dropping an empty filter changes no decision, since it is a part of every name. -/
theorem runs_ofTexts_iff {filter name : String} (samples : Option String) :
    (ofTexts (some filter) samples).runs name = true ↔ filter.toList <:+: name.toList := by
  have hfilter := filter_ofTexts (some filter) samples
  by_cases hempty : filter = ""
  · rw [if_pos (congrArg some hempty)] at hfilter
    refine iff_of_true (runs_of_filter_eq_none hfilter name) ?_
    rw [hempty]
    exact List.nil_infix
  · rw [if_neg fun h => hempty (Option.some.inj h)] at hfilter
    rw [runs, hfilter]
    exact Text.occursIn_iff_infix

/-- A filter runs the cases of a longer one just when it is a part of it. -/
theorem runs_ofTexts_imp_iff {shorter longer : String} (samples samples' : Option String) :
    (∀ name, (ofTexts (some longer) samples).runs name = true →
        (ofTexts (some shorter) samples').runs name = true) ↔
      shorter.toList <:+: longer.toList := by
  simp only [runs_ofTexts_iff]
  constructor
  · intro h
    exact h longer List.infix_rfl
  · intro h name hname
    exact h.trans hname

/-- **Filters that run the same cases are the same.** -/
theorem runs_ofTexts_inj {filter filter' : String} (samples samples' : Option String) :
    (ofTexts (some filter) samples).runs = (ofTexts (some filter') samples').runs ↔
      filter = filter' := by
  constructor
  · intro h
    have hle : filter'.toList <:+: filter.toList :=
      (runs_ofTexts_imp_iff samples samples').1 fun name hname => h ▸ hname
    have hge : filter.toList <:+: filter'.toList :=
      (runs_ofTexts_imp_iff samples' samples).1 fun name hname => h ▸ hname
    exact String.toList_inj.1 (List.infix_antisymm hge hle)
  · rintro rfl
    funext name
    rw [Bool.eq_iff_iff, runs_ofTexts_iff, runs_ofTexts_iff]

/-- **The cases that are run.**  With a filter, the empty one included, these are the cases whose
names consist of the filter and of what stands before and after it, as characters and as bytes;
without one these are all.  The filter decides alike whether it comes as a text, where an empty one
is dropped, or is set as it is, and whatever the number of samples.  A part of the filter runs all
the cases that the filter runs, and no other text does. -/
theorem runs_exact (filter name : String) (samples : Option String) :
    ((ofTexts (some filter) samples).runs name = true ↔
        ∃ before after, name = before ++ filter ++ after) ∧
      ((ofTexts (some filter) samples).runs name = true ↔
        ∃ before after : ByteArray, name.toByteArray = before ++ filter.toByteArray ++ after) ∧
      (ofTexts none samples).runs name = true ∧
      ((ofTexts (some filter) samples).filter = none ↔ filter = "") ∧
      (∀ count, (ofTexts (some filter) samples).runs name =
        (⟨some filter, count⟩ : SuiteOptions).runs name) ∧
      ∀ (shorter : String) (samples' : Option String),
        (∃ before after, filter = before ++ shorter ++ after) ↔
          ∀ name', (ofTexts (some filter) samples).runs name' = true →
            (ofTexts (some shorter) samples').runs name' = true := by
  refine ⟨?_, ?_, ?_, ?_, ?_, ?_⟩
  · rw [runs_ofTexts_iff, Text.infix_toList_iff]
  · rw [runs_ofTexts_iff, Text.infix_toList_iff_bytes]
  · exact runs_of_filter_eq_none rfl name
  · rw [filter_ofTexts]
    simp
  · intro count
    rw [Bool.eq_iff_iff, runs_ofTexts_iff, runs_mk_iff]
  · intro shorter samples'
    rw [runs_ofTexts_imp_iff, Text.infix_toList_iff]

/-- A name is run that has the filter only where a first attempt at it has failed. -/
example : (ofTexts (some "aab") none).runs "add_aaab" = true := by decide

end SuiteOptions

end WordMachine
