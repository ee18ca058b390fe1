import Metasyntax.Proofs.OneRule
import Metasyntax.Proofs.Terminals

/-!
# What numbers stand for

A number stands for the character with its code, however many digits it is written with. Numbers
one after the other stand for one text, in which case counts, and a range for the characters from
one to the other. The first number that is the code of no character is an error.
-/

set_option autoImplicit false

namespace Metasyntax
open Notation

namespace Notation

def Radix.Invalid (radix : Radix) (digits : List Char) : Prop :=
  0x10FFFF < radix.number digits ∨
    (0xD800 ≤ radix.number digits ∧ radix.number digits ≤ 0xDFFF)

instance (radix : Radix) : DecidablePred radix.Invalid := fun digits =>
  inferInstanceAs (Decidable (0x10FFFF < radix.number digits ∨
    (0xD800 ≤ radix.number digits ∧ radix.number digits ≤ 0xDFFF)))

theorem Radix.isValidChar_iff {radix : Radix} {digits : List Char} :
    (radix.number digits).isValidChar ↔ ¬ radix.Invalid digits := by
  rw [Nat.isValidChar, Invalid]
  omega

theorem Radix.character_of_invalid {radix : Radix} {digits : List Char} (h : radix.Invalid digits) :
    radix.character digits = .error (.invalidNumVal (String.ofList digits)) :=
  if_neg (mt isValidChar_iff.1 (not_not_intro h))

namespace Numeral

def numbers : Numeral → List (List Char)
  | series first rest => first :: rest
  | range first last => [first, last]

def firstInvalid (radix : Radix) (value : Numeral) : Option (List Char) :=
  value.numbers.find? fun digits => radix.Invalid digits

def Stands (radix : Radix) : Numeral → List Char → Prop
  | series first rest, cs => cs.map Char.toNat = (first :: rest).map radix.number
  | range first last, cs =>
    ∃ c, cs = [c] ∧ radix.number first ≤ c.toNat ∧ c.toNat ≤ radix.number last

end Numeral

/-- Numbers are decoded one by one up to the first that is no character's code. -/
theorem mapM_character (radix : Radix) (numbers : List (List Char)) :
    numbers.mapM radix.character =
      match numbers.find? fun digits => radix.Invalid digits with
      | some digits => .error (.invalidNumVal (String.ofList digits))
      | none => .ok (numbers.map fun digits => Char.ofNat (radix.number digits)) := by
  induction numbers with
  | nil => rfl
  | cons digits numbers ih =>
    rw [List.mapM_cons, List.find?_cons]
    by_cases hinvalid : radix.Invalid digits
    · rw [Radix.character_of_invalid hinvalid, decide_eq_true hinvalid]
      rfl
    · rw [Radix.character_eq (Radix.isValidChar_iff.2 hinvalid), decide_eq_false hinvalid, ih]
      cases numbers.find? fun digits => radix.Invalid digits <;> rfl

namespace Numeral

variable {radix : Radix} {value : Numeral}

theorem literal_of_invalid {digits : List Char} (h : value.firstInvalid radix = some digits) :
    value.literal radix = .error (.invalidNumVal (String.ofList digits)) := by
  cases value with
  | series first rest =>
    rw [firstInvalid, numbers] at h
    rw [literal, mapM_character, h]
    rfl
  | range first last =>
    rw [firstInvalid, numbers, List.find?_cons] at h
    rw [literal]
    by_cases hfirst : radix.Invalid first
    · rw [decide_eq_true hfirst] at h
      cases h
      rw [Radix.character_of_invalid hfirst]
      rfl
    · rw [decide_eq_false hfirst, List.find?_singleton] at h
      simp only [Option.ite_none_right_eq_some, decide_eq_true_eq, Option.some.injEq] at h
      obtain ⟨hlast, rfl⟩ := h
      rw [Radix.character_eq (Radix.isValidChar_iff.2 hfirst), Radix.character_of_invalid hlast]
      rfl

theorem valid_of_firstInvalid (h : value.firstInvalid radix = none) :
    ∀ digits ∈ value.numbers, (radix.number digits).isValidChar := by
  intro digits hdigits
  have hfine := List.find?_eq_none.1 h digits hdigits
  exact Radix.isValidChar_iff.2 (by simpa using hfine)

end Numeral

end Notation

theorem Literal.consume_exact_iff {pattern cs : List Char} (hpattern : pattern ≠ []) :
    (Literal.exact (String.ofList pattern)).consume cs = some cs ↔ cs = pattern := by
  by_cases hcs : cs = []
  · rw [hcs, consume_nil]
    exact iff_of_false (by simp) (Ne.symm hpattern)
  · rw [exact, consume_of_ne_nil hcs, consumeText_eq_some_iff, String.toList_ofList]
    simp only [if_true, beq_iff_eq, List.forall₂_eq_eq_eq]
    exact eq_comm

theorem map_toNat_eq_iff {codes : List Nat} (h : ∀ code ∈ codes, code.isValidChar)
    {cs : List Char} : cs.map Char.toNat = codes ↔ cs = codes.map Char.ofNat := by
  constructor
  · rintro rfl
    rw [List.map_map, show Char.ofNat ∘ Char.toNat = id from funext Char.ofNat_toNat, List.map_id]
  · rintro rfl
    rw [List.map_map]
    exact (List.map_congr_left fun code hcode => toNat_ofNat_of_valid (h code hcode)).trans
      (List.map_id _)

/-- A value all of whose numbers are codes of characters gives a terminal, and this takes what the
value stands for. -/
theorem Notation.Numeral.exists_defining {radix : Radix} {value : Numeral}
    (h : value.firstInvalid radix = none) : ∃ terminal, value.literal radix = .ok terminal ∧
      (Parser.literal terminal).Defines (value.Stands radix) := by
  have hvalid := Numeral.valid_of_firstInvalid h
  cases value with
  | series first rest =>
    rw [Numeral.firstInvalid, Numeral.numbers] at h
    refine ⟨_, by rw [Numeral.literal, mapM_character, h]; rfl, ?_⟩
    refine (Parser.defines_literal _).of_iff fun cs => ?_
    have hcodes : ∀ code ∈ (first :: rest).map radix.number, code.isValidChar := by
      intro code hcode
      obtain ⟨digits, hdigits, rfl⟩ := List.mem_map.1 hcode
      exact hvalid digits hdigits
    have hpattern : (first :: rest).map (fun digits => Char.ofNat (radix.number digits)) ≠ [] :=
      List.cons_ne_nil _ _
    rw [Literal.consume_exact_iff hpattern, Numeral.Stands, map_toNat_eq_iff hcodes, List.map_map]
    rfl
  | range first last =>
    have hfirst := hvalid first (by simp [Numeral.numbers])
    have hlast := hvalid last (by simp [Numeral.numbers])
    refine ⟨.range (Char.ofNat (radix.number first)) (Char.ofNat (radix.number last)), ?_, ?_⟩
    · rw [Numeral.literal, Radix.character_eq hfirst, Radix.character_eq hlast]
      rfl
    · refine (Parser.defines_literal _).of_iff fun cs => ?_
      have hsingle := @single_range [] (Char.ofNat (radix.number first))
        (Char.ofNat (radix.number last)) cs
      refine (accepts_literal_iff.symm.trans hsingle).trans (exists_congr fun c => ?_)
      dsimp only
      rw [char_le_iff, char_le_iff, toNat_ofNat_of_valid hfirst, toNat_ofNat_of_valid hlast]
      exact and_comm

def Notation.numbered (name : List Char) (radix : Radix) (value : Numeral) : Notation.Rule :=
  ⟨name, false, .last (.last (.once (.numeral radix value)))⟩

section
variable {mode : ProseMode} {name : List Char} {radix : Radix} {value : Numeral}

theorem Notation.numbered_eq : (numbered name radix value).production mode =
    (value.literal radix).map fun terminal => ⟨String.ofList name, false, .literal terminal⟩ := by
  rw [numbered, production_single, Item.expression, Element.expression]
  cases value.literal radix <;> rfl

theorem Notation.Radix.IsDigit.printable {c : Char} (h : radix.IsDigit c) : ' ' ≤ c := by
  cases radix with
  | binary => rcases h with rfl | rfl <;> decide
  | decimal => exact IsDecimal.printable h
  | hexadecimal =>
    rcases h with h | h | h
    · exact h.printable
    · exact Char.le_trans (by decide) h.1
    · exact Char.le_trans (by decide) h.1

theorem Notation.Numeral.WellFormed.printable (h : value.WellFormed radix) :
    ∀ c ∈ value.text, ' ' ≤ c := by
  intro c hc
  cases value with
  | series first rest =>
    rcases List.mem_append.1 hc with hc | hc
    · exact (h.1.2 c hc).printable
    · obtain ⟨digits, hdigits, hc⟩ := List.mem_flatMap.1 hc
      rcases List.mem_cons.1 hc with rfl | hc
      · decide
      · exact ((h.2 digits hdigits).2 c hc).printable
  | range first last =>
    rw [Numeral.text, List.mem_append, List.mem_cons] at hc
    rcases hc with hc | rfl | hc
    · exact (h.1.2 c hc).printable
    · decide
    · exact (h.2.2 c hc).printable

theorem Notation.spelled_numbered (hname : IsName name) (hvalue : value.WellFormed radix)
    {mark : Char} (hmark : radix.Marks mark) : (numbered name radix value).Spelled
      (asLines (name ++ [' ', '=', ' '] ++ '%' :: mark :: value.text)) := by
  refine spelled_spaced hname ⟨hvalue, mark, hmark, rfl⟩ fun c hc => ?_
  rw [List.mem_cons, List.mem_cons] at hc
  rcases hc with rfl | rfl | hc
  · decide
  · cases radix <;> rcases hmark with rfl | rfl <;> decide
  · exact hvalue.printable c hc

end

/-- Numbers of any radix and length mean what they say, in whatever layout and however the rule is
loaded. The first one that is no character's code is reported. If there is none, the rule decides
the one text of the characters that numbers one after the other stand for, or the texts of one
character in a range. -/
theorem Desk.Untouched.numerals_decode {desk : Desk} (h : desk.Untouched) {id : GrammarId}
    (hliving : id ∈ desk.store.living) (hindex : id.index < desk.store.catalog.grammars.size)
    {name : List Char} (hname : IsName name) {radix : Radix} {mark : Char}
    (hmark : radix.Marks mark) {value : Numeral} (hvalue : value.WellFormed radix) :
    (numbered name radix value).Spelled
        (asLines (name ++ [' ', '=', ' '] ++ '%' :: mark :: value.text)) ∧
      ∀ text, (numbered name radix value).Spelled (asLines text.toList) →
        ∀ load, Loading.Loads id text load →
          (∀ digits, value.firstInvalid radix = some digits → (load.run desk.store).1 =
            .error (.grammar (.invalidNumVal (String.ofList digits)))) ∧
          (value.firstInvalid radix = none → ∃ rule, (load.run desk.store).1 = .ok [rule] ∧
            ((desk.store.catalog.localSlot id (String.ofList name)).exclusion = none →
              (desk.edit load.run).Decides id (String.ofList name) rule (value.Stands radix))) := by
  refine ⟨spelled_numbered hname hvalue hmark, fun text hspelled load hload => ⟨?_, ?_⟩⟩
  · intro digits hdigits
    refine h.loads_error hspelled hload ?_
    rw [numbered_eq, Numeral.literal_of_invalid hdigits]
    rfl
  · intro hvalid
    obtain ⟨terminal, hterminal, hdefines⟩ := Numeral.exists_defining hvalid
    have hbody : (Expression.literal terminal).Defines (value.Stands radix) := by
      rintro id' options before after _ rfl
      exact hdefines
    have hproduction {mode : ProseMode} : (numbered name radix value).production mode =
        .ok ⟨String.ofList name, false, .literal terminal⟩ := by
      rw [numbered_eq, hterminal]
      rfl
    exact h.loads_deciding hspelled hload hliving hindex hproduction rfl hbody

/-- Two characters, the first with more digits than a code needs and the second of two bytes. -/
theorem Desk.numerals_decode_series :
    ⟨2⟩ ∈ Store.drafting.living ∧ 2 < Store.drafting.catalog.grammars.size ∧ IsName ['r'] ∧
      Radix.hexadecimal.Marks 'X' ∧
      (Numeral.series ['0', '0', '4', '1'] [['e', '9']]).WellFormed .hexadecimal ∧
      (numbered ['r'] .hexadecimal (.series ['0', '0', '4', '1'] [['e', '9']])).Spelled
        (asLines "r = %X0041.e9".toList) ∧
      [['0', '0', '4', '1'], ['e', '9']].map (Radix.number .hexadecimal) = [0x41, 0xE9] ∧
      ∃ rule, ((Loading.loadRules ⟨2⟩ ["r = %X0041.e9"]).run Store.drafting).1 = .ok [rule] ∧
        (Desk.edit ⟨.drafting, ∅⟩ (Loading.loadRules ⟨2⟩ ["r = %X0041.e9"]).run).Decides ⟨2⟩
          "r" rule (Numeral.Stands .hexadecimal (.series ['0', '0', '4', '1'] [['e', '9']])) := by
  obtain ⟨halive, hindex, -⟩ := Store.drafting_checked
  have hname : IsName ['r'] := by decide
  have hmark : Radix.hexadecimal.Marks 'X' := Or.inr rfl
  have hvalue : (Numeral.series ['0', '0', '4', '1'] [['e', '9']]).WellFormed .hexadecimal := by
    decide
  obtain ⟨hspelled, hloads⟩ := @Desk.Untouched.numerals_decode _ Desk.untouched_drafting ⟨2⟩
    halive hindex _ hname _ _ hmark _ hvalue
  have htext : ['r'] ++ [' ', '=', ' '] ++ '%' :: 'X' ::
      (Numeral.series ['0', '0', '4', '1'] [['e', '9']]).text = "r = %X0041.e9".toList := by
    decide
  rw [htext] at hspelled
  obtain ⟨rule, hload, hdecides⟩ := (hloads _ hspelled _ .separate).2 (by decide)
  exact ⟨halive, hindex, hname, hmark, hvalue, hspelled, by decide, rule, hload,
    hdecides Store.exclusion_drafting⟩

end Metasyntax
