/-
**Written forms are faithful.**

Calls and faults are written for people, as sentences in which numbers, names and punctuation follow
one another without padding.  Nothing is lost by that: the written form of a call names exactly one
call, and the message of a fault exactly one fault.  A numeral is read up to the first character
that is no digit, and what follows a numeral never begins with a digit of its base; a name is read
up to the mark that closes it, which is not part of any name.  So the parts come apart again one
after another, and they determine what was written.

Main definitions:

* `WordMachine.Numeral.IsDigit` — the digits of a base;
* `WordMachine.Text.EndsBefore` — the texts that do not begin with a character of some kind.

Main results:

* `WordMachine.Text.append_inj` — a part of one kind of characters is read up to the first other
  character;
* `WordMachine.Numeral.toDigits_injective`, `WordMachine.Numeral.toDigits_append_inj` — **numerals
  are faithful**, also in front of other text;
* `WordMachine.Intrinsic.text_injective`, `WordMachine.Args.text_injective`,
  `WordMachine.Call.text_injective`, `WordMachine.Fault.message_injective` — the written forms, each
  by itself;
* `WordMachine.written_forms_faithful` — **calls and faults are known from what is written**.
-/

import Mathlib.Data.List.Basic
import WordMachine.Fault

set_option relaxedAutoImplicit false
set_option autoImplicit false

namespace WordMachine

namespace Text

/-! ### Where a part of a text ends -/

/-- Texts that are empty or begin with a character that is not of the kind given. -/
def EndsBefore (kind : Char → Prop) (text : String) : Prop :=
  ∀ c ∈ text.toList.head?, ¬ kind c

theorem endsBefore_empty (kind : Char → Prop) : EndsBefore kind "" := by
  simp [EndsBefore]

/-- How a text begins is seen from a mark in front of it. -/
theorem endsBefore_append {kind : Char → Prop} {mark : String} {c : Char}
    (hmark : mark.toList.head? = some c) (hc : ¬ kind c) (rest : String) :
    EndsBefore kind (mark ++ rest) := by
  intro d hd
  rw [String.toList_append, List.head?_append, hmark, Option.some_or] at hd
  rwa [← Option.some.inj hd]

theorem append_inj_of_toList {kind : Char → Prop} {part part' rest rest' : List Char}
    (hpart : ∀ c ∈ part, kind c) (hpart' : ∀ c ∈ part', kind c)
    (hrest : ∀ c ∈ rest.head?, ¬ kind c) (hrest' : ∀ c ∈ rest'.head?, ¬ kind c)
    (h : part ++ rest = part' ++ rest') : part = part' ∧ rest = rest' := by
  induction part generalizing part' with
  | nil =>
      rcases part' with _ | ⟨c, part'⟩
      · exact ⟨rfl, h⟩
      · rw [List.nil_append] at h
        rw [h, List.cons_append, List.head?_cons] at hrest
        exact absurd (hpart' c (by simp)) (hrest c rfl)
  | cons c part ih =>
      rcases part' with _ | ⟨c', part'⟩
      · rw [List.nil_append] at h
        rw [← h, List.cons_append, List.head?_cons] at hrest'
        exact absurd (hpart c (by simp)) (hrest' c rfl)
      · rw [List.cons_append, List.cons_append, List.cons.injEq] at h
        obtain ⟨rfl, h⟩ := h
        obtain ⟨rfl, hrest⟩ := ih (fun d hd => hpart d (by simp [hd]))
          (fun d hd => hpart' d (by simp [hd])) h
        exact ⟨rfl, hrest⟩

/-- A part of one kind of characters is read up to the first character of another kind. -/
theorem append_inj {kind : Char → Prop} {part part' rest rest' : String}
    (hpart : ∀ c ∈ part.toList, kind c) (hpart' : ∀ c ∈ part'.toList, kind c)
    (hrest : EndsBefore kind rest) (hrest' : EndsBefore kind rest')
    (h : part ++ rest = part' ++ rest') : part = part' ∧ rest = rest' := by
  rw [← String.toList_inj, String.toList_append, String.toList_append] at h
  obtain ⟨hpart, hrest⟩ := append_inj_of_toList hpart hpart' hrest hrest' h
  exact ⟨String.toList_inj.1 hpart, String.toList_inj.1 hrest⟩

end Text

namespace Numeral

open Text (EndsBefore)

/-! ### Numerals -/

/-- The digits of a base, which are letters from ten on. -/
def IsDigit (b : ℕ) (c : Char) : Prop :=
  ∃ d < b, Nat.digitChar d = c

instance (b : ℕ) (c : Char) : Decidable (IsDigit b c) :=
  inferInstanceAs (Decidable (∃ d < b, Nat.digitChar d = c))

theorem digitChar_inj {d d' : ℕ} (h : d < 16) (h' : d' < 16)
    (heq : Nat.digitChar d = Nat.digitChar d') : d = d' := by
  have hall : ∀ d < 16, ∀ d' < 16, Nat.digitChar d = Nat.digitChar d' → d = d' := by decide
  exact hall d h d' h' heq

theorem isDigit_of_mem_toDigits {b n : ℕ} (hb : 1 < b) {c : Char} (hc : c ∈ Nat.toDigits b n) :
    IsDigit b c := by
  induction n using Nat.strongRecOn with
  | ind n ih =>
      rw [Nat.toDigits_eq_if hb] at hc
      split at hc
      · rename_i hn
        exact ⟨n, hn, (List.mem_singleton.1 hc).symm⟩
      · rename_i hn
        rcases List.mem_append.1 hc with hc | hc
        · exact ih (n / b) (Nat.div_lt_self (by omega) hb) hc
        · exact ⟨n % b, Nat.mod_lt _ (by omega), (List.mem_singleton.1 hc).symm⟩

/-- A numeral is a numeral of fewer digits, or nothing, in front of its last digit. -/
theorem toDigits_eq_concat {b : ℕ} (hb : 1 < b) (n : ℕ) :
    Nat.toDigits b n =
      (if n < b then [] else Nat.toDigits b (n / b)) ++ [Nat.digitChar (n % b)] := by
  rw [Nat.toDigits_eq_if hb]
  by_cases hn : n < b
  · rw [if_pos hn, if_pos hn, Nat.mod_eq_of_lt hn, List.nil_append]
  · rw [if_neg hn, if_neg hn]

/-- Different numbers have different numerals, by induction on the digits from the last one on. -/
theorem toDigits_injective {b : ℕ} (hb : 1 < b) (hb' : b ≤ 16) :
    Function.Injective (Nat.toDigits b) := by
  intro n
  induction n using Nat.strongRecOn with
  | ind n ih =>
      intro m h
      rw [toDigits_eq_concat hb, toDigits_eq_concat hb m] at h
      obtain ⟨hinit, hlast⟩ := List.append_inj' h rfl
      have hmod : n % b = m % b := by
        have hn : n % b < b := Nat.mod_lt _ (by omega)
        have hm : m % b < b := Nat.mod_lt _ (by omega)
        exact digitChar_inj (by omega) (by omega) (List.singleton_inj.1 hlast)
      have hdiv : n / b = m / b := by
        by_cases hn : n < b <;> by_cases hm : m < b
        · rw [Nat.div_eq_of_lt hn, Nat.div_eq_of_lt hm]
        · rw [if_pos hn, if_neg hm] at hinit
          exact absurd hinit.symm Nat.toDigits_ne_nil
        · rw [if_neg hn, if_pos hm] at hinit
          exact absurd hinit Nat.toDigits_ne_nil
        · rw [if_neg hn, if_neg hm] at hinit
          exact ih (n / b) (Nat.div_lt_self (by omega) hb) hinit
      rw [← Nat.div_add_mod n b, hdiv, hmod, Nat.div_add_mod]

/-- **A numeral is read up to the first character that is no digit.** -/
theorem toDigits_append_inj {b : ℕ} (hb : 1 < b) (hb' : b ≤ 16) {n m : ℕ} {rest rest' : String}
    (hrest : EndsBefore (IsDigit b) rest) (hrest' : EndsBefore (IsDigit b) rest')
    (h : String.ofList (Nat.toDigits b n) ++ rest = String.ofList (Nat.toDigits b m) ++ rest') :
    n = m ∧ rest = rest' := by
  have hdigit : ∀ n, ∀ c ∈ (String.ofList (Nat.toDigits b n)).toList, IsDigit b c := by
    intro n c hc
    rw [String.toList_ofList] at hc
    exact isDigit_of_mem_toDigits hb hc
  obtain ⟨hdigits, hrest⟩ := Text.append_inj (hdigit n) (hdigit m) hrest hrest' h
  exact ⟨toDigits_injective hb hb' (String.ofList_inj.1 hdigits), hrest⟩

theorem decimal_append_inj {n m : ℕ} {rest rest' : String}
    (hrest : EndsBefore (IsDigit 10) rest) (hrest' : EndsBefore (IsDigit 10) rest')
    (h : decimal n ++ rest = decimal m ++ rest') : n = m ∧ rest = rest' :=
  toDigits_append_inj (by decide) (by decide) hrest hrest' h

theorem decimal_injective : Function.Injective decimal := by
  intro n m h
  exact toDigits_injective (by decide) (by decide) (String.ofList_inj.1 h)

theorem hexadecimal_append_inj {n m : ℕ} {rest rest' : String}
    (hrest : EndsBefore (IsDigit 16) rest) (hrest' : EndsBefore (IsDigit 16) rest')
    (h : hexadecimal n ++ rest = hexadecimal m ++ rest') : n = m ∧ rest = rest' := by
  rw [hexadecimal, hexadecimal, String.append_assoc, String.append_assoc,
    String.append_right_inj] at h
  exact toDigits_append_inj (by decide) (by decide) hrest hrest' h

end Numeral

/-! ### Numbers and names in front of other text -/

open Text (EndsBefore)

theorem patternText_append_inj {v u : UInt64} {rest rest' : String}
    (hrest : EndsBefore (Numeral.IsDigit 16) rest) (hrest' : EndsBefore (Numeral.IsDigit 16) rest')
    (h : patternText v ++ rest = patternText u ++ rest') : v = u ∧ rest = rest' := by
  obtain ⟨hvalue, hrest⟩ := Numeral.hexadecimal_append_inj hrest hrest' h
  exact ⟨UInt64.toNat_inj.1 hvalue, hrest⟩

theorem Address.text_append_inj {a a' : Address} {rest rest' : String}
    (hrest : EndsBefore (Numeral.IsDigit 16) rest) (hrest' : EndsBefore (Numeral.IsDigit 16) rest')
    (h : a.text ++ rest = a'.text ++ rest') : a = a' ∧ rest = rest' := by
  obtain ⟨hvalue, hrest⟩ := patternText_append_inj hrest hrest' h
  exact ⟨congrArg Address.mk hvalue, hrest⟩

theorem Address.text_injective : Function.Injective Address.text := by
  intro a a' h
  have h : a.text ++ "" = a'.text ++ "" := by rw [h]
  exact (Address.text_append_inj (Text.endsBefore_empty _) (Text.endsBefore_empty _) h).1

theorem ByteCount.toNat_inj {m n : ByteCount} (h : m.bytes.toNat = n.bytes.toNat) : m = n :=
  congrArg ByteCount.mk (UInt64.toNat_inj.1 h)

/-- The names of the widths differ in their second character, whatever follows them. -/
theorem Width.name_append_inj {w w' : Width} {rest rest' : String}
    (h : w.name ++ rest = w'.name ++ rest') : w = w' ∧ rest = rest' := by
  rw [← String.toList_inj, String.toList_append, String.toList_append] at h
  cases w <;> cases w' <;> simp_all [name, String.toList_inj]

theorem AccessKind.name_append_inj {kind kind' : AccessKind} {rest rest' : String}
    (h : kind.name ++ rest = kind'.name ++ rest') : kind = kind' ∧ rest = rest' := by
  rw [← String.toList_inj, String.toList_append, String.toList_append] at h
  cases kind <;> cases kind' <;> simp_all [name, String.toList_inj]

/-! ### Intrinsics -/

/-- No written form of an intrinsic contains the mark that closes it in a sentence. -/
theorem Intrinsic.ne_backtick_of_mem_text (i : Intrinsic) : ∀ c ∈ i.text.toList, c ≠ '`' := by
  have hname : ∀ w : Width, '`' ∉ w.name.toList := by
    intro w
    cases w <;> simp [Width.name]
  have hdigits : ∀ n : ℕ, '`' ∉ Nat.toDigits 10 n := by
    intro n hc
    exact absurd (Numeral.isDigit_of_mem_toDigits (by decide) hc) (by decide)
  rintro c hc rfl
  unfold Intrinsic.text at hc
  cases i with
  | addPair w flagOffset => simp [hname, hdigits] at hc
  | addCarry w => simp [hname] at hc
  | zeroFill length => simp [ByteCount.text, hdigits] at hc

/-- So an intrinsic is read up to that mark. -/
theorem Intrinsic.text_append_inj {i i' : Intrinsic} {rest rest' : String}
    (hrest : EndsBefore (· ≠ '`') rest) (hrest' : EndsBefore (· ≠ '`') rest')
    (h : i.text ++ rest = i'.text ++ rest') : i.text = i'.text ∧ rest = rest' :=
  Text.append_inj i.ne_backtick_of_mem_text i'.ne_backtick_of_mem_text hrest hrest' h

theorem Intrinsic.text_injective : Function.Injective Intrinsic.text := by
  intro i i' h
  unfold Intrinsic.text at h
  cases i with
  | addPair w flagOffset =>
      cases i' with
      | addPair w' flagOffset' =>
          simp only [String.append_assoc, String.append_right_inj] at h
          obtain ⟨rfl, hoffset⟩ := Width.name_append_inj h
          rw [String.append_right_inj, String.append_left_inj] at hoffset
          rw [UInt64.toNat_inj.1 (Numeral.decimal_injective hoffset)]
      | addCarry w' => cases w <;> simp [← String.toList_inj, Width.name] at h
      | zeroFill length' => simp [← String.toList_inj] at h
  | addCarry w =>
      cases i' with
      | addPair w' flagOffset' => cases w' <;> simp [← String.toList_inj, Width.name] at h
      | addCarry w' =>
          have h : w.name ++ "" = w'.name ++ "" := by
            rw [String.append_right_inj] at h
            rw [h]
          rw [(Width.name_append_inj h).1]
      | zeroFill length' => simp [← String.toList_inj] at h
  | zeroFill length =>
      cases i' with
      | addPair w' flagOffset' => simp [← String.toList_inj] at h
      | addCarry w' => simp [← String.toList_inj] at h
      | zeroFill length' =>
          rw [String.append_right_inj, ByteCount.text, ByteCount.text, String.append_left_inj] at h
          rw [ByteCount.toNat_inj (Numeral.decimal_injective h)]

/-! ### Arguments and calls -/

/-- The commas of written arguments stand between the operands, so they tell how many there are. -/
theorem Args.count_comma_text (a : Args) :
    a.text.toList.count ',' = a.operands.length - 1 := by
  have hpattern : ∀ v : UInt64, (patternText v).toList.count ',' = 0 := by
    intro v
    rw [List.count_eq_zero, patternText, Numeral.hexadecimal_toList]
    have hdigits : ',' ∉ Nat.toDigits 16 v.toNat := fun hc =>
      absurd (Numeral.isDigit_of_mem_toDigits (by decide) hc) (by decide)
    simp [hdigits]
  have haddress : ∀ p : Address, p.text.toList.count ',' = 0 := fun p => hpattern p.value
  unfold text
  cases a <;> simp [operands, hpattern, haddress]

theorem Args.text_injective : Function.Injective Args.text := by
  have hcomma : ∀ rest, EndsBefore (Numeral.IsDigit 16) (", " ++ rest) :=
    Text.endsBefore_append rfl (by decide)
  have hcarry : ∀ rest, EndsBefore (Numeral.IsDigit 16) (", carry " ++ rest) :=
    Text.endsBefore_append rfl (by decide)
  have harrow : ∀ rest, EndsBefore (Numeral.IsDigit 16) (" -> " ++ rest) :=
    Text.endsBefore_append rfl (by decide)
  intro a a' h
  have hoperands : a.operands.length - 1 = a'.operands.length - 1 := by
    rw [← a.count_comma_text, ← a'.count_comma_text, h]
  unfold text at h
  cases a with
  | pair left right target =>
      cases a' with
      | pair left' right' target' =>
          simp only [String.append_assoc] at h
          obtain ⟨rfl, hright⟩ := patternText_append_inj (hcomma _) (hcomma _) h
          rw [String.append_right_inj] at hright
          obtain ⟨rfl, htarget⟩ := patternText_append_inj (harrow _) (harrow _) hright
          rw [String.append_right_inj] at htarget
          rw [Address.text_injective htarget]
      | chain => simp [operands] at hoperands
      | region => simp [operands] at hoperands
  | chain left right carryIn carryOut =>
      cases a' with
      | pair => simp [operands] at hoperands
      | chain left' right' carryIn' carryOut' =>
          simp only [String.append_assoc] at h
          obtain ⟨rfl, hright⟩ := patternText_append_inj (hcomma _) (hcomma _) h
          rw [String.append_right_inj] at hright
          obtain ⟨rfl, hin⟩ := patternText_append_inj (hcarry _) (hcarry _) hright
          rw [String.append_right_inj] at hin
          obtain ⟨rfl, hout⟩ := patternText_append_inj (harrow _) (harrow _) hin
          rw [String.append_right_inj] at hout
          rw [Address.text_injective hout]
      | region => simp [operands] at hoperands
  | region address =>
      cases a' with
      | pair => simp [operands] at hoperands
      | chain => simp [operands] at hoperands
      | region address' => rw [Address.text_injective h]

theorem Call.text_injective : Function.Injective Call.text := by
  have hwith : ∀ rest, EndsBefore (· ≠ '`') ("` with " ++ rest) :=
    Text.endsBefore_append rfl (by decide)
  intro c c' h
  obtain ⟨i, a⟩ := c
  obtain ⟨i', a'⟩ := c'
  simp only [Call.text, String.append_assoc, String.append_right_inj] at h
  obtain ⟨hi, h⟩ := Intrinsic.text_append_inj (hwith _) (hwith _) h
  rw [String.append_right_inj] at h
  rw [Intrinsic.text_injective hi, Args.text_injective h]

/-! ### Faults -/

/-- The messages of different kinds of faults begin with different letters. -/
theorem Fault.head?_message (f : Fault) :
    f.message.toList.head? =
      match f with
      | outOfBounds .. => some 'm'
      | argumentMismatch _ => some 'i'
      | unsupportedWidth _ => some 'n' := by
  unfold message
  cases f <;> simp

theorem Fault.message_injective : Function.Injective Fault.message := by
  have hbytes : ∀ rest, EndsBefore (Numeral.IsDigit 10) (" bytes at `" ++ rest) :=
    Text.endsBefore_append rfl (by decide)
  have hbut : ∀ rest, EndsBefore (Numeral.IsDigit 16) ("`, but memory size is " ++ rest) :=
    Text.endsBefore_append rfl (by decide)
  have hexpects : ∀ rest, EndsBefore (· ≠ '`') ("` expects " ++ rest) :=
    Text.endsBefore_append rfl (by decide)
  intro f f' h
  have hhead := f.head?_message
  rw [h, f'.head?_message] at hhead
  unfold message at h
  cases f with
  | outOfBounds kind a length total =>
      cases f' with
      | outOfBounds kind' a' length' total' =>
          simp only [String.append_assoc, String.append_right_inj] at h
          obtain ⟨rfl, hlength⟩ := AccessKind.name_append_inj h
          rw [String.append_right_inj] at hlength
          obtain ⟨hlengths, haddress⟩ := Numeral.decimal_append_inj (hbytes _) (hbytes _) hlength
          rw [String.append_right_inj] at haddress
          obtain ⟨rfl, htotal⟩ := Address.text_append_inj (hbut _) (hbut _) haddress
          rw [String.append_right_inj] at htotal
          rw [ByteCount.toNat_inj hlengths, ByteCount.toNat_inj (Numeral.decimal_injective htotal)]
      | argumentMismatch i' => simp at hhead
      | unsupportedWidth bits' => simp at hhead
  | argumentMismatch i =>
      cases f' with
      | outOfBounds => simp at hhead
      | argumentMismatch i' =>
          simp only [String.append_assoc, String.append_right_inj] at h
          obtain ⟨hi, -⟩ := Intrinsic.text_append_inj (hexpects _) (hexpects _) h
          rw [Intrinsic.text_injective hi]
      | unsupportedWidth bits' => simp at hhead
  | unsupportedWidth bits =>
      cases f' with
      | outOfBounds => simp at hhead
      | argumentMismatch i' => simp at hhead
      | unsupportedWidth bits' =>
          rw [String.append_left_inj, String.append_right_inj] at h
          rw [UInt8.toNat_inj.1 (Numeral.decimal_injective h)]

/-- **Written forms identify what they describe.**  Two calls with the same written form have the
same intrinsic, with the same constants, and the same arguments, of the same kind; and two faults
with the same message are the same. -/
theorem written_forms_faithful :
    (∀ c c' : Call,
      "call `" ++ c.intrinsic.text ++ "` with " ++ c.args.text =
        "call `" ++ c'.intrinsic.text ++ "` with " ++ c'.args.text →
      c.intrinsic = c'.intrinsic ∧ c.args = c'.args) ∧
    (∀ f f' : Fault, f.message = f'.message → f = f') := by
  constructor
  · intro c c' h
    have hc : c = c' := Call.text_injective h
    exact ⟨congrArg Call.intrinsic hc, congrArg Call.args hc⟩
  · intro f f' h
    exact Fault.message_injective h

end WordMachine
