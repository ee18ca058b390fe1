import Mathlib.Data.List.DropRight
import Metasyntax.Proofs.Likeness
import Metasyntax.Proofs.LineEnds
import Metasyntax.Proofs.Rulelists

/-!
# Rules apart and joined

Texts of one rule each, joined by line feeds, spell the list of these rules, whatever lines
they end in. So a batch that is loaded from the texts one by one and a list that is loaded
from the joined text bind the same productions.
-/

set_option autoImplicit false

namespace Metasyntax
open Notation

/-- The lines of two texts with a line feed between them. A text that ends in a line feed has
an empty line after it. -/
theorem exists_asLines_joined (text : List Char) {rest : List Char} (hrest : rest ≠ []) :
    ∃ gap, (gap = [] ∨ gap = ['\r', '\n']) ∧
      asLines (text ++ '\n' :: rest) = asLines text ++ gap ++ asLines rest := by
  have hlines {front : List Char} (h : withCanonicalEndings (text ++ '\n' :: rest) =
      front ++ withCanonicalEndings rest) :
      asLines (text ++ '\n' :: rest) = front ++ asLines rest := by
    rw [asLines_eq, asLines_eq, h, endsLine_append (mt withCanonicalEndings_eq_nil.1 hrest)
      (withCanonicalEndings_ne_feed rest)]
    split
    · rfl
    · exact List.append_assoc _ _ _
  by_cases hreturn : text.getLast? = some '\r'
  · -- The return at the end and the line feed are one ending.
    obtain ⟨text, rfl⟩ := List.getLast?_eq_some_iff.1 hreturn
    have hwhole : withCanonicalEndings (text ++ ['\r']) =
        withCanonicalEndings text ++ ['\r', '\n'] :=
      withCanonicalEndings_append fun _ => by decide
    have hlast : asLines (text ++ ['\r']) = withCanonicalEndings text ++ ['\r', '\n'] := by
      rw [asLines_eq, hwhole, if_pos (endsLine_lineEnd _)]
    refine ⟨[], Or.inl rfl, ?_⟩
    rw [List.append_nil, hlast]
    refine hlines ?_
    rw [List.append_assoc, List.append_assoc]
    exact withCanonicalEndings_append fun _ => by simp
  · have hwhole : withCanonicalEndings (text ++ '\n' :: rest) =
        withCanonicalEndings text ++ ['\r', '\n'] ++ withCanonicalEndings rest := by
      rw [withCanonicalEndings_append fun h => absurd h hreturn,
        withCanonicalEndings_cons (by simp), List.append_assoc]
      rfl
    by_cases hends : endsLine (withCanonicalEndings text) = true
    · refine ⟨['\r', '\n'], Or.inr rfl, ?_⟩
      rw [asLines_eq text, if_pos hends]
      exact hlines hwhole
    · refine ⟨[], Or.inl rfl, ?_⟩
      rw [List.append_nil, asLines_eq text, if_neg hends]
      exact hlines hwhole

def shorn (cs : List Char) : List Char := cs.rdropWhile isBlank

theorem toList_trimBlankEnd (text : String) : (trimBlankEnd text).toList = shorn text.toList :=
  String.toList_ofList

theorem shorn_append (xs ys : List Char) :
    shorn (xs ++ ys) = if shorn ys = [] then shorn xs else xs ++ shorn ys := by
  simp only [shorn, List.rdropWhile, List.reverse_append, List.dropWhile_append,
    List.isEmpty_iff, List.reverse_eq_nil_iff]
  split
  · rfl
  · rw [List.reverse_append, List.reverse_reverse]

theorem shorn_append_blank (xs : List Char) {ys : List Char} (h : ∀ c ∈ ys, isBlank c = true) :
    shorn (xs ++ ys) = shorn xs := by
  rw [shorn_append, if_pos]
  exact List.rdropWhile_eq_nil_iff.2 h

def EndsUnblank (cs : List Char) : Prop := ∃ xs c, isBlank c = false ∧ cs = xs ++ [c]

theorem EndsUnblank.append (xs : List Char) {ys : List Char} (h : EndsUnblank ys) :
    EndsUnblank (xs ++ ys) := by
  obtain ⟨ys, c, hc, rfl⟩ := h
  exact ⟨xs ++ ys, c, hc, (List.append_assoc _ _ _).symm⟩

theorem EndsUnblank.of_all {cs : List Char} (hne : cs ≠ []) (h : ∀ c ∈ cs, isBlank c = false) :
    EndsUnblank cs :=
  ⟨cs.dropLast, cs.getLast hne, h _ (List.getLast_mem hne),
    (List.dropLast_append_getLast hne).symm⟩

theorem EndsUnblank.shorn_eq {cs : List Char} (h : EndsUnblank cs) : shorn cs = cs := by
  obtain ⟨xs, c, hc, rfl⟩ := h
  exact List.rdropWhile_concat_neg _ _ _ (by rw [hc]; exact Bool.false_ne_true)

theorem EndsUnblank.shorn_ahead {xs : List Char} (h : EndsUnblank xs) (ys : List Char) :
    shorn (xs ++ ys) = xs ++ shorn ys := by
  rw [shorn_append]
  split
  case isTrue hnil => rw [h.shorn_eq, hnil, List.append_nil]
  case isFalse => rfl

theorem shorn_eq_nil_or (cs : List Char) : shorn cs = [] ∨ EndsUnblank (shorn cs) := by
  by_cases hnil : shorn cs = []
  · exact Or.inl hnil
  · refine Or.inr ⟨_, _, ?_, (List.dropLast_append_getLast hnil).symm⟩
    exact Bool.eq_false_iff.2 (List.rdropWhile_last_not _ _ hnil)

theorem mem_withCanonicalEndings {c : Char} {cs : List Char} (h : c ∈ withCanonicalEndings cs) :
    c ∈ cs ∨ c = '\r' ∨ c = '\n' := by
  induction cs using endingInduction with
  | nil => cases h
  | pair cs ih => grind [withCanonicalEndings_pair]
  | single d cs hsingle hd ih => grind [withCanonicalEndings_single hd hsingle]
  | other d cs hd ih => grind [withCanonicalEndings_other cs hd]

theorem isBlank_withCanonicalEndings {cs : List Char} (h : ∀ c ∈ cs, isBlank c = true) :
    ∀ c ∈ withCanonicalEndings cs, isBlank c = true := by
  intro c hc
  rcases mem_withCanonicalEndings hc with hc | rfl | rfl
  · exact h c hc
  · decide
  · decide

theorem EndsUnblank.getLast?_ne {cs : List Char} (h : EndsUnblank cs) {c : Char}
    (hc : isBlank c = true) : cs.getLast? ≠ some c := by
  obtain ⟨xs, d, hd, rfl⟩ := h
  rw [List.getLast?_concat]
  rintro heq
  cases heq
  rw [hd] at hc
  cases hc

theorem EndsUnblank.canonical {cs : List Char} (h : EndsUnblank cs) :
    EndsUnblank (withCanonicalEndings cs) := by
  obtain ⟨xs, c, hc, rfl⟩ := h
  have hplain : ¬ (c = '\r' ∨ c = '\n') := by
    rintro (rfl | rfl) <;> revert hc <;> decide
  refine ⟨withCanonicalEndings xs, c, hc, ?_⟩
  have hparted : [c].head? ≠ some '\n' := fun heq => hplain (Or.inr (Option.some.inj heq))
  rw [withCanonicalEndings_append fun _ => hparted, withCanonicalEndings_cons (by simp),
    if_neg hplain]
  rfl

theorem EndsUnblank.endsLine_eq {cs : List Char} (h : EndsUnblank cs) : endsLine cs = false := by
  obtain ⟨xs, c, hc, rfl⟩ := h
  rw [endsLine_append (List.cons_ne_nil _ _)]
  · simp [endsLine, List.isSuffixOf, List.isPrefixOf]
  · intro heq
    cases heq
    revert hc
    decide

/-- Without its blank end, a text has one line end where it has blank lines otherwise. -/
theorem asLines_shorn (cs : List Char) :
    asLines (shorn cs) = shorn (asLines cs) ++ ['\r', '\n'] := by
  have hblank : ∀ c ∈ ['\r', '\n'], isBlank c = true := by decide
  have hkept : shorn (withCanonicalEndings (shorn cs)) = withCanonicalEndings (shorn cs) ∧
      endsLine (withCanonicalEndings (shorn cs)) = false ∧ (shorn cs).getLast? ≠ some '\r' := by
    rcases shorn_eq_nil_or cs with hnil | hends
    · rw [hnil]
      exact ⟨rfl, rfl, nofun⟩
    · exact ⟨hends.canonical.shorn_eq, hends.canonical.endsLine_eq,
        hends.getLast?_ne (hblank _ List.mem_cons_self)⟩
  have hwhole : withCanonicalEndings cs = withCanonicalEndings (shorn cs) ++
      withCanonicalEndings (cs.rtakeWhile isBlank) := by
    rw [← withCanonicalEndings_append fun h => absurd h hkept.2.2]
    exact congrArg withCanonicalEndings List.rdropWhile_append_rtakeWhile.symm
  have hshorn : shorn (withCanonicalEndings cs) = withCanonicalEndings (shorn cs) := by
    rw [hwhole, shorn_append_blank _ (isBlank_withCanonicalEndings fun c =>
      List.mem_rtakeWhile_imp), hkept.1]
  have hlines : shorn (asLines cs) = shorn (withCanonicalEndings cs) := by
    rw [asLines_eq]
    split
    · rfl
    · exact shorn_append_blank _ hblank
  rw [hlines, hshorn, asLines_eq, if_neg (by rw [hkept.2.1]; exact Bool.false_ne_true)]

theorem shorn_lineEnd : shorn ['\r', '\n'] = [] := by decide

namespace Notation

theorem IsNameChar.unblank {c : Char} (h : IsNameChar c) : isBlank c = false :=
  forall_ascii (P := fun c => IsNameChar c → isBlank c = false) (by decide) h.ascii h

theorem Radix.IsNumber.unblank {radix : Radix} {digits : List Char} (h : radix.IsNumber digits) :
    ∀ c ∈ digits, isBlank c = false := by
  intro c hc
  have hdigits : ∀ code < 0x80, radix.IsDigit (Char.ofNat code) →
      isBlank (Char.ofNat code) = false := by
    cases radix <;> decide
  exact forall_ascii (P := fun c => radix.IsDigit c → isBlank c = false) hdigits
    (h.ascii c hc) (h.2 c hc)

theorem IsName.endsUnblank {cs : List Char} (h : IsName cs) : EndsUnblank cs := by
  cases cs with
  | nil => exact h.elim
  | cons c cs =>
    refine .of_all (List.cons_ne_nil _ _) fun d hd => ?_
    rcases List.mem_cons.1 hd with rfl | hd
    · exact IsNameChar.unblank (Or.inl h.1)
    · exact (h.2 d hd).unblank

theorem Numeral.WellFormed.endsUnblank {radix : Radix} {value : Numeral}
    (h : value.WellFormed radix) : EndsUnblank value.text := by
  cases value with
  | series first rest =>
    refine .of_all (List.append_ne_nil_of_left_ne_nil h.1.1 _) fun c hc => ?_
    rcases List.mem_append.1 hc with hc | hc
    · exact h.1.unblank c hc
    · obtain ⟨digits, hdigits, hc⟩ := List.mem_flatMap.1 hc
      rcases List.mem_cons.1 hc with rfl | hc
      · decide
      · exact (h.2 digits hdigits).unblank c hc
  | range first last =>
    have hlast : EndsUnblank last := .of_all h.2.1 h.2.unblank
    exact .append first (.append ['-'] hlast)

mutual
theorem Element.endsUnblank : (element : Element) → {cs : List Char} → element.Spelled cs →
    EndsUnblank cs
  | .name _, _, ⟨hname, heq⟩ => heq ▸ hname.endsUnblank
  | .group _, _, ⟨gaps, inner, gaps', _, _, _, heq⟩ =>
    ⟨'(' :: (gaps ++ inner ++ gaps'), ')', by decide, heq⟩
  | .option _, _, ⟨gaps, inner, gaps', _, _, _, heq⟩ =>
    ⟨'[' :: (gaps ++ inner ++ gaps'), ']', by decide, heq⟩
  | .quoted _ text, _, ⟨_, opening, _, heq⟩ => ⟨opening ++ '"' :: text, '"', by decide, heq⟩
  | .numeral _ _, _, ⟨hvalue, mark, _, heq⟩ => heq ▸ .append ['%', mark] hvalue.endsUnblank
  | .prose text, _, ⟨_, heq⟩ => ⟨'<' :: text, '>', by decide, heq⟩

theorem Item.endsUnblank : (item : Item) → {cs : List Char} → item.Spelled cs → EndsUnblank cs
  | .once element, _, h => element.endsUnblank h
  | .repeated count element, _, ⟨_, _, hinner, heq⟩ =>
    heq ▸ .append count.text (element.endsUnblank hinner)

theorem Row.endsUnblank : (row : Row) → {cs : List Char} → row.Spelled cs → EndsUnblank cs
  | .last item, _, h => item.endsUnblank h
  | .more _ rest, _, ⟨first, gaps, _, _, _, _, hothers, heq⟩ =>
    heq ▸ .append (first ++ gaps) (rest.endsUnblank hothers)

theorem Choice.endsUnblank : (choice : Choice) → {cs : List Char} → choice.Spelled cs →
    EndsUnblank cs
  | .last row, _, h => row.endsUnblank h
  | .more _ rest, _, ⟨first, gaps, gaps', _, _, _, _, hothers, heq⟩ => by
    have hfront := (rest.endsUnblank hothers).append (first ++ gaps ++ '/' :: gaps')
    rw [heq]
    simpa using hfront
end

theorem LineEnd.of_shorn {line : List Char} (h : LineEnd line) :
    LineEnd (shorn line ++ ['\r', '\n']) := by
  rcases h with rfl | ⟨remark, hremark, rfl⟩
  · exact Or.inl (by rw [shorn_lineEnd]; rfl)
  · have hmark : EndsUnblank [';'] := ⟨[], ';', by decide, rfl⟩
    refine Or.inr ⟨shorn remark, fun c hc => ?_, ?_⟩
    · exact hremark c ((List.rdropWhile_prefix _ _).subset hc)
    · rw [shorn_append, if_pos shorn_lineEnd]
      exact congrArg (· ++ ['\r', '\n']) (hmark.shorn_ahead remark)

/-- What follows the body of a rule is gaps and a line end, also without its blank end. -/
theorem Gaps.exists_shorn {gaps line : List Char} (hgaps : Gaps gaps) (hline : LineEnd line) :
    ∃ gaps' line', Gaps gaps' ∧ LineEnd line' ∧
      shorn (gaps ++ line) ++ ['\r', '\n'] = gaps' ++ line' := by
  induction hgaps with
  | nil => exact ⟨[], _, .nil, hline.of_shorn, rfl⟩
  | @cons first rest hfirst hrest ih =>
    rw [List.append_assoc, shorn_append]
    split
    case isTrue hnil =>
      -- All that follows the first gap is blank, so the line in this gap is the last one.
      obtain ⟨inner, c, hinner, hc, rfl⟩ := hfirst
      have hblank : ∀ d ∈ [c], isBlank d = true := by
        rcases hc with rfl | rfl <;> decide
      rw [shorn_append_blank inner hblank]
      rcases hinner with rfl | hinner
      · exact ⟨[], _, .nil, Or.inl rfl, rfl⟩
      · exact ⟨[], _, .nil, hinner.of_shorn, rfl⟩
    case isFalse =>
      obtain ⟨gaps', line', hgaps', hline', heq⟩ := ih
      exact ⟨first ++ gaps', line', .cons hfirst hgaps', hline', by
        rw [List.append_assoc, List.append_assoc, heq]⟩

/-- A rule is spelled as well without the blank lines and spaces at its end. -/
theorem Rule.Spelled.of_shorn {rule : Rule} {cs : List Char} (h : rule.Spelled cs) :
    shorn cs ≠ [] ∧ rule.Spelled (shorn cs ++ ['\r', '\n']) := by
  obtain ⟨hname, gaps, gaps', inner, gaps'', line, hgaps, hgaps', hinner, hgaps'', hline, rfl⟩ := h
  obtain ⟨gaps₁, line₁, hgaps₁, hline₁, heq⟩ := hgaps''.exists_shorn hline
  have hfront : EndsUnblank (rule.name ++ gaps ++ rule.sign ++ gaps' ++ inner) :=
    .append _ (rule.body.endsUnblank hinner)
  rw [List.append_assoc _ gaps'' line, hfront.shorn_ahead]
  constructor
  · obtain ⟨front, c, -, hfront⟩ := hfront
    rw [hfront]
    simp
  · refine ⟨hname, gaps, gaps', inner, gaps₁, line₁, hgaps, hgaps', hinner, hgaps₁, hline₁, ?_⟩
    rw [List.append_assoc, heq, List.append_assoc _ gaps₁ line₁]

/-- Texts of one rule each spell the list of these rules when they are joined. -/
theorem Listing.joined {texts : List (List Char)} {rules : List Rule}
    (h : List.Forall₂ (fun text rule => rule.Spelled (asLines text)) texts rules) :
    Listing rules (asLines (shorn (['\n'].intercalate texts))) := by
  suffices hshorn : (texts ≠ [] → shorn (asLines (['\n'].intercalate texts)) ≠ []) ∧
      Listing rules (shorn (asLines (['\n'].intercalate texts)) ++ ['\r', '\n']) by
    rw [asLines_shorn]
    exact hshorn.2
  induction h with
  | nil =>
    exact ⟨fun h => absurd rfl h, @Listing.blank [] [] ['\r', '\n'] [] .nil (Or.inl rfl) .nil⟩
  | @cons text rule texts rules hfirst hrest ih =>
    cases texts with
    | nil =>
      cases hrest
      rw [List.intercalate_singleton]
      refine ⟨fun _ => hfirst.of_shorn.1, ?_⟩
      have hlisting := Listing.rule hfirst.of_shorn.2 .nil
      rwa [List.append_nil] at hlisting
    | cons text' texts =>
      obtain ⟨hne, hlisting⟩ := ih
      replace hne := hne (List.cons_ne_nil _ _)
      have hrest : ['\n'].intercalate (text' :: texts) ≠ [] := by
        intro hnil
        rw [hnil] at hne
        exact hne shorn_lineEnd
      have hjoined : ['\n'].intercalate (text :: text' :: texts) =
          text ++ '\n' :: ['\n'].intercalate (text' :: texts) := by
        simp
      obtain ⟨gap, hgap, hlines⟩ := exists_asLines_joined text hrest
      rw [hjoined, hlines, shorn_append, if_neg hne]
      refine ⟨fun _ => List.append_ne_nil_of_right_ne_nil _ hne, ?_⟩
      simp only [List.append_assoc]
      refine .rule hfirst ?_
      rcases hgap with rfl | rfl
      · exact hlisting
      · exact .blank .nil (Or.inl rfl) hlisting

end Notation

namespace RuleText

/-- Texts that are accepted as rules are read one by one as the rules that they spell. -/
theorem gives_mapM_parseRule {held : Set Parser} {texts : List String}
    (h : ∀ text ∈ texts, Accepts Standard.rules (.name "rule") (asLines text.toList)) :
    ∃ nodes rules, Edit.Gives held (texts.mapM parseRule).run (.ok nodes) ∧
      List.Forall₂ ReadsAs nodes rules ∧
      List.Forall₂ (fun text rule => rule.Spelled (asLines text))
        (texts.map String.toList) rules := by
  induction texts with
  | nil => exact ⟨[], [], .done [], .nil, .nil⟩
  | cons text texts ih =>
    obtain ⟨yielded, hyields⟩ := h text List.mem_cons_self
    obtain ⟨node, hnode, hgives⟩ := gives_parseRule hyields
    obtain ⟨rule, node', heq, -, hspelled, hreads⟩ := rule_of_yields hnode
    cases heq
    obtain ⟨nodes, rules, hall, hreadsAll, hspelledAll⟩ := ih fun other hother =>
      h other (List.mem_cons_of_mem _ hother)
    refine ⟨node :: nodes, rule :: rules, ?_, .cons hreads hreadsAll, .cons hspelled hspelledAll⟩
    rw [List.mapM_cons]
    exact .andThen hgives (.andThen hall (.done _))

theorem concluded_alike {store store' : Store} (h : store.Alike store') (id : GrammarId)
    (stated : Except GrammarError (List Production)) :
    (concluded id store' stated).1 = (concluded id store stated).1 ∧
      (concluded id store stated).2.Alike (concluded id store' stated).2 := by
  cases stated with
  | ok productions =>
    obtain ⟨hbound, hafter⟩ := Edit.blind_bind id productions store store' h
    exact ⟨congrArg Except.ok hbound, hafter⟩
  | error error => exact ⟨rfl, h⟩

end RuleText

/-- Rules are loaded alike from texts of one rule each and from these texts joined by line
feeds: with the same rules or the same error as the result, and with the same grammars
afterwards. None of them fails to parse. -/
theorem Desk.Untouched.loads_agree {desk : Desk} (h : desk.Untouched) (id : GrammarId)
    {texts : List String}
    (hrules : ∀ text ∈ texts, Accepts Standard.rules (.name "rule") (asLines text.toList)) :
    ∃ outcome apart joined,
      (Loading.loadRules id texts).run desk.store = (outcome, apart) ∧
      (Loading.loadRulelist id ("\n".intercalate texts)).run desk.store = (outcome, joined) ∧
      apart.Alike joined ∧ ∀ failure, outcome ≠ .error (.parse failure) := by
  obtain ⟨nodes, rules, hgives, hreads, hspelled⟩ := RuleText.gives_mapM_parseRule hrules
  obtain ⟨parsed, hparse, hparsed, hfaithful⟩ := hgives desk.store h.faithful
  obtain ⟨read, hread, hbind⟩ := RuleText.compile_of_readsAs hreads id hfaithful
  have hlisting : Listing rules
      (asLines (trimBlankEnd ("\n".intercalate texts)).toList) := by
    rw [toList_trimBlankEnd, String.toList_intercalate]
    exact .joined hspelled
  obtain ⟨read', hread', hlist⟩ := h.loadRulelist_of_listing id hlisting
  have halike : read.Alike read' := (hparsed.trans hread).symm.trans hread'
  have hloaded : (Loading.loadRules id texts).run desk.store = RuleText.concluded id read
      (rules.mapM (·.production (desk.store.catalog.grammar id).options.prose)) := by
    rw [Loading.loadRules, Edit.run_bind_ok hparse, hbind, hparsed.catalog]
  have hsame := RuleText.concluded_alike halike id
    (rules.mapM (·.production (desk.store.catalog.grammar id).options.prose))
  have hread := RuleText.concluded_ne_parse id read
    (rules.mapM (·.production (desk.store.catalog.grammar id).options.prose))
  rw [← hloaded] at hsame hread
  rw [← hlist] at hsame
  generalize (Loading.loadRules id texts).run desk.store = apart at hsame hread ⊢
  generalize (Loading.loadRulelist id ("\n".intercalate texts)).run desk.store = joined at hsame ⊢
  exact ⟨apart.1, apart.2, joined.2, rfl, Prod.ext hsame.1 rfl, hsame.2, hread⟩

/-- The first text ends in a comment, and the second, which adds to it, in a blank line. -/
theorem Desk.loads_agree_blank_end :
    (∀ text ∈ ["a=\"x\" ;", "a=/a\n \n"],
      Accepts Standard.rules (.name "rule") (asLines text.toList)) ∧
    ∃ outcome apart joined,
      (Loading.loadRules ⟨2⟩ ["a=\"x\" ;", "a=/a\n \n"]).run .drafting = (outcome, apart) ∧
      (Loading.loadRulelist ⟨2⟩ "a=\"x\" ;\na=/a\n \n").run .drafting = (outcome, joined) ∧
      apart.Alike joined ∧ ∀ failure, outcome ≠ .error (.parse failure) := by
  have hspace : Gaps [' '] := .cons ⟨[], ' ', Or.inl rfl, Or.inl rfl, rfl⟩ .nil
  have hline : Gaps ['\r', '\n', ' '] :=
    .cons ⟨['\r', '\n'], ' ', Or.inr (Or.inl rfl), Or.inl rfl, rfl⟩ .nil
  have hfirst : Rule.Spelled ⟨['a'], false, .last (.last (.once (.quoted .plain ['x'])))⟩
      (asLines "a=\"x\" ;".toList) :=
    ⟨by decide, [], [], ['"', 'x', '"'], [' '], [';', '\r', '\n'], .nil, .nil,
      ⟨by decide, [], rfl, rfl⟩, hspace, Or.inr ⟨[], by simp, rfl⟩, by decide +kernel⟩
  have hsecond : Rule.Spelled ⟨['a'], true, .last (.last (.once (.name ['a'])))⟩
      (asLines "a=/a\n \n".toList) :=
    ⟨by decide, [], [], ['a'], ['\r', '\n', ' '], ['\r', '\n'], .nil, .nil,
      ⟨by decide, rfl⟩, hline, Or.inl rfl, by decide +kernel⟩
  have hrules : ∀ text ∈ ["a=\"x\" ;", "a=/a\n \n"],
      Accepts Standard.rules (.name "rule") (asLines text.toList) := by
    intro text htext
    simp only [List.mem_cons, List.not_mem_nil, or_false] at htext
    rcases htext with rfl | rfl
    · exact Rule.accepts hfirst
    · exact Rule.accepts hsecond
  have hjoined : "\n".intercalate ["a=\"x\" ;", "a=/a\n \n"] = "a=\"x\" ;\na=/a\n \n" := by
    decide +kernel
  rw [← hjoined]
  exact ⟨hrules, Desk.untouched_drafting.loads_agree ⟨2⟩ hrules⟩

end Metasyntax
