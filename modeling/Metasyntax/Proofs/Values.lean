import Metasyntax.Proofs.Letters
import Metasyntax.Proofs.Notation
import Metasyntax.Proofs.Unambiguity
import Metasyntax.RuleText

/-!
# Values as they are read

What is read from the text of a number, a count or a quotation is what the abstract form
states, errors included.
-/

set_option autoImplicit false

namespace Metasyntax.RuleText
open Notation

theorem digitValue_eq {radix : Radix} {c : Char} (h : radix.IsDigit c) :
    digitValue c = some (Radix.weight c) ∧ Radix.weight c < radix.base := by
  cases radix with
  | binary => rcases h with rfl | rfl <;> decide
  | decimal =>
    have hdigit : '0' ≤ c ∧ c ≤ '9' := h
    rw [digitValue, Radix.weight, if_pos hdigit, if_pos hdigit.2]
    simp only [char_le_iff] at hdigit
    have hbase : Radix.decimal.base = 10 := rfl
    simp only [Char.reduceToNat] at hdigit ⊢
    exact ⟨trivial, by omega⟩
  | hexadecimal =>
    have hdigit : IsDecimal c ∨ ('A' ≤ c ∧ c ≤ 'F') ∨ ('a' ≤ c ∧ c ≤ 'f') := h
    have hbase : Radix.hexadecimal.base = 16 := rfl
    simp only [IsDecimal, char_le_iff, Char.reduceToNat] at hdigit
    simp only [digitValue, Radix.weight, char_le_iff, Char.reduceToNat]
    rcases hdigit with hdigit | hdigit | hdigit
    · rw [if_pos hdigit, if_pos hdigit.2]
      exact ⟨rfl, by omega⟩
    · rw [if_neg (by omega), if_neg (by omega), if_pos hdigit, if_neg (by omega),
        if_pos hdigit.2]
      exact ⟨rfl, by omega⟩
    · rw [if_neg (by omega), if_pos hdigit, if_neg (by omega), if_neg (by omega)]
      exact ⟨rfl, by omega⟩

theorem digitsValue_eq {radix : Radix} {digits : List Char}
    (h : ∀ c ∈ digits, radix.IsDigit c) (acc : Nat) :
    digitsValue radix.base acc digits =
      some (digits.foldl (fun value c => value * radix.base + Radix.weight c) acc) := by
  induction digits generalizing acc with
  | nil => rfl
  | cons c digits ih =>
    obtain ⟨hvalue, hlt⟩ := digitValue_eq (h c List.mem_cons_self)
    rw [digitsValue, hvalue]
    dsimp only
    rw [if_pos hlt, ih fun d hd => h d (List.mem_cons_of_mem _ hd), List.foldl_cons]

/-- A number is read as long as it lies below the limit. -/
theorem readNumeral_eq {radix : Radix} {digits : List Char} (h : radix.IsNumber digits)
    (limit : Nat) : readNumeral radix.base limit digits =
      if radix.number digits < limit then some (radix.number digits) else none := by
  obtain ⟨c, cs, rfl⟩ := List.exists_cons_of_ne_nil h.1
  have hplus : c ≠ '+' := by
    rintro rfl
    exact absurd (h.2 '+' List.mem_cons_self) (by cases radix <;> decide)
  have hrow : readNumeral radix.base limit (c :: cs) =
      (digitRow radix.base (c :: cs)).filter (· < limit) := by
    rw [readNumeral]
    exact fun rest heq => hplus (List.cons_eq_cons.1 heq).1
  rw [hrow, digitRow, List.isEmpty_cons, if_neg Bool.false_ne_true, digitsValue_eq h.2,
    Option.filter_some, Radix.number]
  simp only [decide_eq_true_eq]

theorem readCode_eq {radix : Radix} {digits : List Char} (h : radix.IsNumber digits) :
    readCode radix.base digits = radix.character digits := by
  rw [readCode, readNumeral_eq h, Radix.character]
  by_cases hlimit : radix.number digits < Nat.pow 2 32
  · rw [if_pos hlimit]
  · have hlarge : 2 ^ 32 ≤ radix.number digits := Nat.le_of_not_lt hlimit
    have hinvalid : ¬ (radix.number digits).isValidChar := by
      rw [Nat.isValidChar]
      omega
    rw [if_neg hlimit, if_neg hinvalid]

theorem mapM_readCode {radix : Radix} {numbers : List (List Char)}
    (h : ∀ digits ∈ numbers, radix.IsNumber digits) :
    numbers.mapM (readCode radix.base) = numbers.mapM radix.character := by
  induction numbers with
  | nil => rfl
  | cons digits numbers ih =>
    rw [List.mapM_cons, List.mapM_cons, readCode_eq (h digits List.mem_cons_self),
      ih fun other hother => h other (List.mem_cons_of_mem _ hother)]

theorem splitOnce_append {separator : Char} {before after : List Char}
    (h : separator ∉ before) :
    splitOnce separator (before ++ separator :: after) = some (before, after) := by
  induction before with
  | nil => exact if_pos rfl
  | cons c before ih =>
    rw [List.mem_cons, not_or] at h
    rw [List.cons_append, splitOnce, if_neg (Ne.symm h.1), ih h.2]
    rfl

theorem splitOnce_eq_none {separator : Char} {cs : List Char} (h : separator ∉ cs) :
    splitOnce separator cs = none := by
  induction cs with
  | nil => rfl
  | cons c cs ih =>
    rw [List.mem_cons, not_or] at h
    rw [splitOnce, if_neg (Ne.symm h.1), ih h.2]
    rfl

theorem splitAll_self {separator : Char} {cs : List Char} (h : separator ∉ cs) :
    splitAll separator cs = [cs] := by
  induction cs with
  | nil => rfl
  | cons c cs ih =>
    rw [List.mem_cons, not_or] at h
    rw [splitAll, if_neg (Ne.symm h.1), ih h.2]

theorem splitAll_append {separator : Char} {before after : List Char} (h : separator ∉ before) :
    splitAll separator (before ++ separator :: after) = before :: splitAll separator after := by
  induction before with
  | nil => exact if_pos rfl
  | cons c before ih =>
    rw [List.mem_cons, not_or] at h
    rw [List.cons_append, splitAll, if_neg (Ne.symm h.1), ih h.2]

theorem splitAll_series {separator : Char} {first : List Char} {rest : List (List Char)}
    (hfirst : separator ∉ first) (hrest : ∀ part ∈ rest, separator ∉ part) :
    splitAll separator (first ++ rest.flatMap (separator :: ·)) = first :: rest := by
  induction rest generalizing first with
  | nil => rw [List.flatMap_nil, List.append_nil, splitAll_self hfirst]
  | cons part rest ih =>
    rw [List.flatMap_cons, List.cons_append, splitAll_append hfirst,
      ih (hrest part List.mem_cons_self) fun other hother =>
        hrest other (List.mem_cons_of_mem _ hother)]

theorem between_eq (opening closing : Char) (cs : List Char) :
    between opening closing (opening :: cs ++ [closing]) = some cs := by
  simp [between]

theorem not_mem_digits {radix : Radix} {mark : Char} (hmark : mark = '-' ∨ mark = '.')
    {digits : List Char} (h : radix.IsNumber digits) : mark ∉ digits := fun hmem => by
  have hdigit := h.2 mark hmem
  revert hdigit
  rcases hmark with rfl | rfl <;> cases radix <;> decide

theorem readDigits_eq {radix : Radix} {value : Numeral} (h : value.WellFormed radix) :
    readDigits radix.base value.text = value.literal radix := by
  cases value with
  | series first rest =>
    have hhyphen : '-' ∉ first ++ rest.flatMap ('.' :: ·) := by
      rw [List.mem_append, List.mem_flatMap]
      rintro (hmem | ⟨digits, hdigits, hmem⟩)
      · exact not_mem_digits (Or.inl rfl) h.1 hmem
      · rcases List.mem_cons.1 hmem with heq | hmem
        · cases heq
        · exact not_mem_digits (Or.inl rfl) (h.2 digits hdigits) hmem
    have char_le_iffs : (first :: rest).mapM (readCode radix.base) =
        (first :: rest).mapM radix.character := by
      refine mapM_readCode fun digits hdigits => ?_
      rcases List.mem_cons.1 hdigits with rfl | hdigits
      · exact h.1
      · exact h.2 digits hdigits
    rw [readDigits, Numeral.text, splitOnce_eq_none hhyphen, Numeral.literal]
    dsimp only
    rw [splitAll_series (not_mem_digits (Or.inr rfl) h.1) fun digits hdigits =>
      not_mem_digits (Or.inr rfl) (h.2 digits hdigits), char_le_iffs]
  | range first last =>
    rw [readDigits, Numeral.text, splitOnce_append (not_mem_digits (Or.inl rfl) h.1),
      Numeral.literal]
    dsimp only
    rw [readCode_eq h.1, readCode_eq h.2]

theorem readBound_eq (count : Count) {digits : List Char} (h : ∀ c ∈ digits, IsDecimal c) :
    readBound (String.ofList count.text) digits = count.bound digits := by
  rw [readBound, Count.bound]
  cases digits with
  | nil => rfl
  | cons c cs =>
    have hnumber : Radix.decimal.IsNumber (c :: cs) := ⟨nofun, h⟩
    have hread := readNumeral_eq hnumber (Nat.pow 2 64)
    have hbase : Radix.decimal.base = 10 := rfl
    rw [hbase] at hread
    rw [List.isEmpty_cons, if_neg Bool.false_ne_true, if_neg (List.cons_ne_nil _ _), hread]
    by_cases hlimit : Radix.decimal.number (c :: cs) < 2 ^ 64
    · rw [if_pos (show _ < Nat.pow 2 64 from hlimit), if_pos hlimit]
    · rw [if_neg (show ¬ _ < Nat.pow 2 64 from hlimit), if_neg hlimit]

theorem readRepeat_eq {count : Count} (h : count.WellFormed) :
    readRepeat (String.ofList count.text) = count.bounds := by
  have hstar : ∀ {digits : List Char}, (∀ c ∈ digits, IsDecimal c) → '*' ∉ digits :=
    fun h hmem => absurd (h '*' hmem) (by decide)
  cases count with
  | exactly digits =>
    have hnone : splitOnce '*' digits = none := splitOnce_eq_none (hstar h.2)
    have hbound := readBound_eq (.exactly digits) h.2
    rw [readRepeat, String.toList_ofList]
    simp only [Count.text, hnone] at hbound ⊢
    rw [hbound, Count.bounds]
    cases (Count.exactly digits).bound digits with
    | error error => rfl
    | ok bound => simp [Bounds.exactly, Bind.bind, Except.bind, Pure.pure, Except.pure]
  | between least most =>
    have hsome : splitOnce '*' (least ++ '*' :: most) = some (least, most) :=
      splitOnce_append (hstar h.1)
    have hleast := readBound_eq (.between least most) h.1
    have hmost := readBound_eq (.between least most) h.2
    rw [readRepeat, String.toList_ofList]
    simp only [Count.text, hsome] at hleast hmost ⊢
    rw [hleast, hmost, Count.bounds]
    cases (Count.between least most).bound least with
    | error error => rfl
    | ok first =>
      cases (Count.between least most).bound most with
      | error error => rfl
      | ok last => rfl

end Metasyntax.RuleText
