import Metasyntax.Proofs.Acceptance
import Metasyntax.Proofs.Unambiguity

/-!
# The words of rule text

What the lexical rules of rule text accept: names, gaps, line ends, counts, numbers and
quoted texts are spelled as they are in the abstract notation.
-/

set_option autoImplicit false

namespace Metasyntax
open Expression Notation

theorem single_alpha : Single Standard.rules (.name "ALPHA") IsLetter :=
  .name rfl (((single_range 'A' 'Z').or ((single_range 'a' 'z').or single_none)).of_iff fun c => by
    rw [or_false, IsLetter])

theorem single_digit : Single Standard.rules (.name "DIGIT") IsDecimal :=
  .name rfl (single_range '0' '9')

theorem single_bit : Single Standard.rules (.name "BIT") Radix.binary.IsDigit := by
  have hzero : Single Standard.rules (text "0") (· = '0') := single_mark rfl (by decide)
  have hone : Single Standard.rules (text "1") (· = '1') := single_mark rfl (by decide)
  exact .name rfl ((hzero.or (hone.or single_none)).of_iff fun c => by
    rw [or_false, Radix.IsDigit])

theorem single_hexdig : Single Standard.rules (.name "HEXDIG") Radix.hexadecimal.IsDigit := by
  have hletter : ∀ {pattern : String} {e : Char}, pattern.toList = [e] →
      e.toNat < 0x80 ∧ e.toLower ≠ 'k' → Single Standard.rules (text pattern) (IsSpelling e) :=
    single_text
  refine .name rfl ((single_digit.or ((hletter (e := 'A') rfl (by decide)).or
    ((hletter (e := 'B') rfl (by decide)).or ((hletter (e := 'C') rfl (by decide)).or
      ((hletter (e := 'D') rfl (by decide)).or ((hletter (e := 'E') rfl (by decide)).or
        ((hletter (e := 'F') rfl (by decide)).or single_none))))))).of_iff fun c => ?_)
  simp only [IsSpelling, Radix.IsDigit, IsDecimal, char_le_iff, ← Char.toNat_inj, or_false]
  simp only [Char.reduceToLower, Char.reduceToUpper, Char.reduceToNat]
  omega

theorem single_wsp : Single Standard.rules (.name "WSP") IsSpace := by
  have hspace : Single Standard.rules (.name "SP") (· = ' ') := .name rfl (single_exact rfl)
  have htab : Single Standard.rules (.name "HTAB") (· = '\t') := .name rfl (single_exact rfl)
  exact .name rfl ((hspace.or (htab.or single_none)).of_iff fun c => by rw [or_false, IsSpace])

theorem single_name_char :
    Single Standard.rules (.choice [.name "ALPHA", .name "DIGIT", text "-"]) IsNameChar := by
  have hhyphen : Single Standard.rules (text "-") (· = '-') := single_mark rfl (by decide)
  exact (single_alpha.or (single_digit.or (hhyphen.or single_none))).of_iff fun c => by
    rw [or_false, IsNameChar]

theorem single_remark : Single Standard.rules (.choice [.name "WSP", .name "VCHAR"]) IsRemark := by
  have hvchar : Single Standard.rules (.name "VCHAR") fun c => '!' ≤ c ∧ c ≤ '~' :=
    .name rfl (single_range _ _)
  refine (single_wsp.or (hvchar.or single_none)).of_iff fun c => ?_
  simp only [IsSpace, IsRemark, IsPrintable, ← Char.toNat_inj, Char.le_def,
    UInt32.le_iff_toNat_le, or_false]
  simp only [Char.reduceVal, UInt32.reduceToNat, Char.reduceToNat, Char.toNat_val]
  omega

theorem single_quotable :
    Single Standard.rules (.choice [range '\x20' '\x21', range '\x23' '\x7E']) IsQuotable := by
  refine ((single_range _ _).or ((single_range _ _).or single_none)).of_iff fun c => ?_
  simp only [IsQuotable, IsPrintable, ne_eq, ← Char.toNat_inj, Char.le_def,
    UInt32.le_iff_toNat_le, or_false]
  simp only [Char.reduceVal, UInt32.reduceToNat, Char.reduceToNat, Char.toNat_val]
  omega

theorem single_prose :
    Single Standard.rules (.choice [range '\x20' '\x3D', range '\x3F' '\x7E']) IsProse := by
  refine ((single_range _ _).or ((single_range _ _).or single_none)).of_iff fun c => ?_
  simp only [IsProse, IsPrintable, ne_eq, ← Char.toNat_inj, Char.le_def,
    UInt32.le_iff_toNat_le, or_false]
  simp only [Char.reduceVal, UInt32.reduceToNat, Char.reduceToNat, Char.toNat_val]
  omega

section
variable {cs : List Char}

theorem accepts_rulename_iff : Accepts Standard.rules (.name "rulename") cs ↔ IsName cs := by
  rw [accepts_name_iff rfl, accepts_cons_iff]
  simp only [accepts_last_iff]
  constructor
  · rintro ⟨xs, ys, rfl, hxs, hys⟩
    obtain ⟨c, hc, rfl⟩ := (single_alpha xs).1 hxs
    exact ⟨hc, single_name_char.star.1 hys⟩
  · intro h
    cases cs with
    | nil => exact absurd h id
    | cons c cs =>
      exact ⟨[c], cs, rfl, (single_alpha _).2 ⟨c, h.1, rfl⟩, single_name_char.star.2 h.2⟩

theorem accepts_crlf_iff : Accepts Standard.rules (.name "CRLF") cs ↔ cs = ['\r', '\n'] := by
  have hreturn : Single Standard.rules (.name "CR") (· = '\r') := .name rfl (single_exact rfl)
  have hfeed : Single Standard.rules (.name "LF") (· = '\n') := .name rfl (single_exact rfl)
  rw [accepts_name_iff rfl, accepts_cons_iff]
  simp only [accepts_last_iff, hreturn _, hfeed _]
  simp

theorem accepts_lineEnd_iff : Accepts Standard.rules (.name "c-nl") cs ↔ LineEnd cs := by
  have hsemicolon : Single Standard.rules (text ";") (· = ';') := single_mark rfl (by decide)
  rw [accepts_name_iff rfl, accepts_choice_iff, List.exists_mem_cons_iff,
    List.exists_mem_cons_iff, accepts_crlf_iff, accepts_name_iff rfl, accepts_cons_iff]
  simp only [accepts_cons_iff, accepts_nil_iff, hsemicolon _, single_remark.star,
    accepts_crlf_iff, List.not_mem_nil, false_and, exists_false, or_false]
  rw [LineEnd, or_comm]
  refine or_congr_right ?_
  constructor
  · rintro ⟨xs, ys, rfl, ⟨c, rfl, rfl⟩, remark, zs, rfl, hremark, ends, rest, rfl, rfl, rfl⟩
    exact ⟨remark, hremark, rfl⟩
  · rintro ⟨remark, hremark, rfl⟩
    exact ⟨[';'], remark ++ ['\r', '\n'], rfl, ⟨';', rfl, rfl⟩, remark, ['\r', '\n'], rfl, hremark,
      ['\r', '\n'], [], rfl, rfl, rfl⟩

theorem accepts_gap_iff : Accepts Standard.rules (.name "c-wsp") cs ↔ Gap cs := by
  rw [accepts_name_iff rfl, accepts_choice_iff, List.exists_mem_cons_iff,
    List.exists_mem_cons_iff, accepts_cons_iff, single_wsp]
  simp only [accepts_last_iff, accepts_lineEnd_iff, single_wsp _, List.not_mem_nil, false_and,
    exists_false, or_false]
  constructor
  · rintro (⟨c, hc, rfl⟩ | ⟨line, ys, rfl, hline, c, hc, rfl⟩)
    · exact ⟨[], c, Or.inl rfl, hc, rfl⟩
    · exact ⟨line, c, Or.inr hline, hc, rfl⟩
  · rintro ⟨line, c, rfl | hline, hc, rfl⟩
    · exact Or.inl ⟨c, hc, rfl⟩
    · exact Or.inr ⟨line, [c], rfl, hline, c, hc, rfl⟩

theorem accepts_gaps_iff : Accepts Standard.rules (.star (.name "c-wsp")) cs ↔ Gaps cs := by
  rw [accepts_star_iff]
  simp only [accepts_gap_iff]
  constructor
  · rintro ⟨parts, hparts, rfl⟩
    induction parts with
    | nil => exact .nil
    | cons part parts ih =>
      exact .cons (hparts part List.mem_cons_self)
        (ih fun gap hgap => hparts gap (List.mem_cons_of_mem _ hgap))
  · intro h
    induction h with
    | nil => exact ⟨[], by simp, rfl⟩
    | @cons first rest hfirst _ ih =>
      obtain ⟨parts, hparts, rfl⟩ := ih
      refine ⟨first :: parts, fun part hpart => ?_, rfl⟩
      rcases List.mem_cons.1 hpart with rfl | hpart
      · exact hfirst
      · exact hparts part hpart

theorem accepts_spread_iff :
    Accepts Standard.rules (.plus (.name "c-wsp")) cs ↔ Gaps cs ∧ cs ≠ [] := by
  rw [accepts_plus_iff]
  simp only [accepts_gap_iff, accepts_gaps_iff]
  constructor
  · rintro ⟨xs, ys, rfl, hxs, hys⟩
    obtain ⟨c, xs, rfl, -⟩ := hxs.head
    exact ⟨.cons hxs hys, nofun⟩
  · rintro ⟨hgaps, hne⟩
    cases hgaps with
    | nil => exact absurd rfl hne
    | cons hfirst hrest => exact ⟨_, _, rfl, hfirst, hrest⟩

theorem accepts_repeat_iff :
    Accepts Standard.rules (.name "repeat") cs ↔
      ∃ count : Count, count.WellFormed ∧ cs = count.text := by
  have hstar : Single Standard.rules (text "*") (· = '*') := single_mark rfl (by decide)
  have hbetween : Accepts Standard.rules
      (.sequence [star (.name "DIGIT"), text "*", star (.name "DIGIT")]) cs ↔
      ∃ least most : List Char, ((∀ c ∈ least, IsDecimal c) ∧ ∀ c ∈ most, IsDecimal c) ∧
        cs = least ++ '*' :: most := by
    rw [accepts_cons_iff]
    simp only [accepts_cons_iff, accepts_nil_iff, single_digit.star, hstar _]
    constructor
    · rintro ⟨least, ys, rfl, hleast, zs, ws, rfl, ⟨c, rfl, rfl⟩, most, rest, rfl, hmost, rfl⟩
      rw [List.append_nil]
      exact ⟨least, most, ⟨hleast, hmost⟩, rfl⟩
    · rintro ⟨least, most, ⟨hleast, hmost⟩, rfl⟩
      exact ⟨least, '*' :: most, rfl, hleast, ['*'], most, rfl, ⟨'*', rfl, rfl⟩, most, [],
        (List.append_nil most).symm, hmost, rfl⟩
  rw [accepts_name_iff rfl, accepts_choice_iff, List.exists_mem_cons_iff,
    List.exists_mem_cons_iff, single_digit.plus, hbetween]
  simp only [List.not_mem_nil, false_and, exists_false, or_false]
  constructor
  · rintro (⟨least, most, hdigits, rfl⟩ | hdigits)
    · exact ⟨.between least most, hdigits, rfl⟩
    · exact ⟨.exactly cs, hdigits, rfl⟩
  · rintro ⟨count, hcount, rfl⟩
    cases count with
    | exactly digits => exact Or.inr hcount
    | between least most => exact Or.inl ⟨least, most, hcount, rfl⟩

theorem accepts_quoted_iff : Accepts Standard.rules (.name "quoted-string") cs ↔
    ∃ text : List Char, (∀ c ∈ text, IsQuotable c) ∧ cs = '"' :: text ++ ['"'] := by
  have hquote : Single Standard.rules (.name "DQUOTE") (· = '"') := .name rfl (single_exact rfl)
  rw [accepts_name_iff rfl]
  simp only [accepts_cons_iff, accepts_nil_iff, hquote _, single_quotable.star]
  constructor
  · rintro ⟨xs, ys, rfl, ⟨c, rfl, rfl⟩, text, zs, rfl, htext, ws, rest, rfl, ⟨d, rfl, rfl⟩, rfl⟩
    exact ⟨text, htext, rfl⟩
  · rintro ⟨text, htext, rfl⟩
    exact ⟨['"'], text ++ ['"'], rfl, ⟨'"', rfl, rfl⟩, text, ['"'], rfl, htext, ['"'], [], rfl,
      ⟨'"', rfl, rfl⟩, rfl⟩

theorem accepts_prose_iff : Accepts Standard.rules (.name "prose-val") cs ↔
    ∃ text : List Char, (∀ c ∈ text, IsProse c) ∧ cs = '<' :: text ++ ['>'] := by
  have hless : Single Standard.rules (text "<") (· = '<') := single_mark rfl (by decide)
  have hgreater : Single Standard.rules (text ">") (· = '>') := single_mark rfl (by decide)
  rw [accepts_name_iff rfl]
  simp only [accepts_cons_iff, accepts_nil_iff, hless _, hgreater _, single_prose.star]
  constructor
  · rintro ⟨xs, ys, rfl, ⟨c, rfl, rfl⟩, text, zs, rfl, htext, ws, rest, rfl, ⟨d, rfl, rfl⟩, rfl⟩
    exact ⟨text, htext, rfl⟩
  · rintro ⟨text, htext, rfl⟩
    exact ⟨['<'], text ++ ['>'], rfl, ⟨'<', rfl, rfl⟩, text, ['>'], rfl, htext, ['>'], [], rfl,
      ⟨'>', rfl, rfl⟩, rfl⟩

theorem accepts_separated_iff {separator digit : String} {mark : Char} {P : Char → Prop}
    (hmark : Single Standard.rules (text separator) (· = mark))
    (hdigit : Single Standard.rules (.name digit) P) :
    Accepts Standard.rules (.sequence [text separator, plus (.name digit)]) cs ↔
      ∃ digits : List Char, (digits ≠ [] ∧ ∀ c ∈ digits, P c) ∧ cs = mark :: digits := by
  rw [accepts_cons_iff]
  simp only [accepts_last_iff, hmark _, hdigit.plus]
  constructor
  · rintro ⟨xs, digits, rfl, ⟨c, rfl, rfl⟩, hdigits⟩
    exact ⟨digits, hdigits, rfl⟩
  · rintro ⟨digits, hdigits, rfl⟩
    exact ⟨[mark], digits, rfl, ⟨mark, rfl, rfl⟩, hdigits⟩

theorem accepts_series_iff {digit : String} {radix : Radix}
    (hdigit : Single Standard.rules (.name digit) radix.IsDigit) :
    Accepts Standard.rules (.star (.sequence [text ".", plus (.name digit)])) cs ↔
      ∃ rest : List (List Char), (∀ digits ∈ rest, radix.IsNumber digits) ∧
        cs = rest.flatMap ('.' :: ·) := by
  have hdot : Single Standard.rules (text ".") (· = '.') := single_mark rfl (by decide)
  rw [accepts_star_iff]
  simp only [accepts_separated_iff hdot hdigit]
  constructor
  · rintro ⟨parts, hparts, rfl⟩
    induction parts with
    | nil => exact ⟨[], by simp, rfl⟩
    | cons part parts ih =>
      obtain ⟨rest, hrest, heq⟩ := ih fun part hpart => hparts part (List.mem_cons_of_mem _ hpart)
      obtain ⟨digits, hdigits, rfl⟩ := hparts _ List.mem_cons_self
      refine ⟨digits :: rest, fun number hnumber => ?_, by simp [heq]⟩
      rcases List.mem_cons.1 hnumber with rfl | hnumber
      · exact hdigits
      · exact hrest number hnumber
  · rintro ⟨rest, hrest, rfl⟩
    refine ⟨rest.map ('.' :: ·), fun part hpart => ?_, rfl⟩
    obtain ⟨digits, hdigits, rfl⟩ := List.mem_map.1 hpart
    exact ⟨digits, hrest digits hdigits, rfl⟩

/-- Digits that may be followed by others after dots, or by others after a hyphen. -/
theorem accepts_numeric_iff (radix : Radix) (mark : Char) {marker digit : String}
    (hmarker : marker.toList = [mark]) (hmark : mark.toNat < 0x80 ∧ mark.toLower ≠ 'k')
    (hdigit : Single Standard.rules (.name digit) radix.IsDigit) :
    Accepts Standard.rules (Standard.numeric marker digit) cs ↔ ∃ c value, IsSpelling mark c ∧
      Numeral.WellFormed radix value ∧ cs = c :: value.text := by
  have hdot : Single Standard.rules (text ".") (· = '.') := single_mark rfl (by decide)
  have hhyphen : Single Standard.rules (text "-") (· = '-') := single_mark rfl (by decide)
  have hfirst : ∀ items cs, Accepts Standard.rules (.sequence (plus (.name digit) :: items)) cs ↔
      ∃ xs ys, cs = xs ++ ys ∧ Accepts Standard.rules (plus (.name digit)) xs ∧
        Accepts Standard.rules (.sequence items) ys :=
    fun _ _ => accepts_cons_iff
  have hothers : ∀ items cs, Accepts Standard.rules (.plus (.sequence items)) cs ↔
      ∃ xs ys, cs = xs ++ ys ∧ Accepts Standard.rules (.sequence items) xs ∧
        Accepts Standard.rules (.star (.sequence items)) ys :=
    fun _ _ => accepts_plus_iff
  rw [Standard.numeric, accepts_cons_iff]
  simp only [accepts_last_iff, hfirst, hdigit.plus, accepts_optional_iff, accepts_choice_iff,
    List.exists_mem_cons_iff, List.not_mem_nil, false_and, exists_false, or_false, hothers,
    accepts_series_iff hdigit,
    accepts_separated_iff hdot hdigit, accepts_separated_iff hhyphen hdigit,
    single_text hmarker hmark _]
  constructor
  · rintro ⟨xs, ys, rfl, ⟨c, hc, rfl⟩, first, others, rfl, hfirst,
      rfl | ⟨zs, ws, rfl, ⟨digits, hdigits, rfl⟩, rest, hrest, rfl⟩ | ⟨last, hlast, rfl⟩⟩
    · exact ⟨c, .series first [], hc, ⟨hfirst, by simp⟩, rfl⟩
    · refine ⟨c, .series first (digits :: rest), hc, ⟨hfirst, fun number hnumber => ?_⟩, rfl⟩
      rcases List.mem_cons.1 hnumber with rfl | hnumber
      · exact hdigits
      · exact hrest number hnumber
    · exact ⟨c, .range first last, hc, ⟨hfirst, hlast⟩, rfl⟩
  · rintro ⟨c, value, hc, hvalue, rfl⟩
    refine ⟨[c], value.text, rfl, ⟨c, hc, rfl⟩, ?_⟩
    cases value with
    | series first rest =>
      refine ⟨first, rest.flatMap ('.' :: ·), rfl, hvalue.1, ?_⟩
      cases rest with
      | nil => exact Or.inl rfl
      | cons digits rest =>
        exact Or.inr (Or.inl ⟨'.' :: digits, rest.flatMap ('.' :: ·), rfl,
          ⟨digits, hvalue.2 digits List.mem_cons_self, rfl⟩, rest,
          fun number hnumber => hvalue.2 number (List.mem_cons_of_mem _ hnumber), rfl⟩)
    | range first last =>
      exact ⟨first, '-' :: last, rfl, hvalue.1, Or.inr (Or.inr ⟨last, hvalue.2, rfl⟩)⟩

end

end Metasyntax
