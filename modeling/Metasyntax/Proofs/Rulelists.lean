import Metasyntax.Proofs.Compiling

/-!
# Lists of rules as they are loaded

Loading a list of rules succeeds on the texts that spell one, once blank characters at the
end are dropped and line ends made canonical. The productions that are bound are those of
the rules that the text spells, in their order. Other texts fail to parse.
-/

set_option autoImplicit false

namespace Metasyntax
open Notation

theorem asLines_ne_nil (cs : List Char) : asLines cs ≠ [] := by
  rw [asLines_eq]
  split
  case isTrue h =>
    intro hnil
    rw [hnil] at h
    exact absurd h (by decide)
  case isFalse => simp

namespace Notation

def Ascii (cs : List Char) : Prop := ∀ c ∈ cs, c.toNat < 0x80

theorem Ascii.append {xs ys : List Char} (hxs : Ascii xs) (hys : Ascii ys) : Ascii (xs ++ ys) := by
  intro c hc
  rcases List.mem_append.1 hc with hc | hc
  · exact hxs c hc
  · exact hys c hc

theorem Ascii.cons {c : Char} {cs : List Char} (hc : c.toNat < 0x80) (hcs : Ascii cs) :
    Ascii (c :: cs) := by
  intro d hd
  rcases List.mem_cons.1 hd with rfl | hd
  · exact hc
  · exact hcs d hd

theorem Ascii.nil : Ascii [] := by
  intro c hc
  cases hc

theorem Ascii.single {c : Char} (hc : c.toNat < 0x80) : Ascii [c] := .cons hc .nil

theorem IsPrintable.ascii {c : Char} (h : IsPrintable c) : c.toNat < 0x80 :=
  Nat.lt_of_le_of_lt ((char_le_iff _ _).1 h.2) (by decide)

theorem IsDecimal.ascii {c : Char} (h : IsDecimal c) : c.toNat < 0x80 :=
  Nat.lt_of_le_of_lt ((char_le_iff _ _).1 h.2) (by decide)

theorem IsLetter.ascii {c : Char} (h : IsLetter c) : c.toNat < 0x80 := by
  rcases h with h | h <;> exact Nat.lt_of_le_of_lt ((char_le_iff _ _).1 h.2) (by decide)

theorem IsNameChar.ascii {c : Char} (h : IsNameChar c) : c.toNat < 0x80 := by
  rcases h with h | h | rfl
  · exact h.ascii
  · exact h.ascii
  · decide

theorem IsSpace.ascii {c : Char} (h : IsSpace c) : c.toNat < 0x80 := by
  rcases h with rfl | rfl <;> decide

theorem IsName.ascii {cs : List Char} (h : IsName cs) : Ascii cs := by
  cases cs with
  | nil => exact .nil
  | cons c cs => exact .cons h.1.ascii fun d hd => (h.2 d hd).ascii

theorem LineEnd.ascii {cs : List Char} (h : LineEnd cs) : Ascii cs := by
  have hend : Ascii ['\r', '\n'] := .cons (by decide) (.single (by decide))
  rcases h with rfl | ⟨remark, hremark, rfl⟩
  · exact hend
  · refine .append (.cons (by decide) fun c hc => ?_) hend
    rcases hremark c hc with h | rfl
    · exact h.ascii
    · decide

theorem Gaps.ascii {cs : List Char} (h : Gaps cs) : Ascii cs := by
  induction h with
  | nil => exact .nil
  | cons hfirst _ ih =>
    obtain ⟨line, c, rfl | hline, hc, rfl⟩ := hfirst
    · exact .append (.single hc.ascii) ih
    · exact .append (.append hline.ascii (.single hc.ascii)) ih

theorem Radix.IsNumber.ascii {radix : Radix} {digits : List Char} (h : radix.IsNumber digits) :
    Ascii digits := by
  intro c hc
  have hdigit := h.2 c hc
  cases radix with
  | binary => rcases hdigit with rfl | rfl <;> decide
  | decimal => exact IsDecimal.ascii hdigit
  | hexadecimal =>
    rcases hdigit with h | h | h
    · exact h.ascii
    · exact Nat.lt_of_le_of_lt ((char_le_iff _ _).1 h.2) (by decide)
    · exact Nat.lt_of_le_of_lt ((char_le_iff _ _).1 h.2) (by decide)

theorem Numeral.WellFormed.ascii {radix : Radix} {value : Numeral} (h : value.WellFormed radix) :
    Ascii value.text := by
  cases value with
  | series first rest =>
    refine .append h.1.ascii fun c hc => ?_
    obtain ⟨digits, hdigits, hc⟩ := List.mem_flatMap.1 hc
    exact Ascii.cons (by decide) (h.2 digits hdigits).ascii c hc
  | range first last => exact .append h.1.ascii (.cons (by decide) h.2.ascii)

theorem Count.WellFormed.ascii {count : Count} (h : count.WellFormed) : Ascii count.text := by
  cases count with
  | exactly digits => exact Radix.IsNumber.ascii h
  | between least most =>
    exact .append (fun c hc => (h.1 c hc).ascii) (.cons (by decide) fun c hc => (h.2 c hc).ascii)

mutual
theorem Element.ascii : (element : Element) → {cs : List Char} → element.Spelled cs → Ascii cs
  | .name _, _, ⟨hname, heq⟩ => heq ▸ hname.ascii
  | .group choice, _, ⟨_, _, _, hgaps, hinner, hgaps', heq⟩ =>
    heq ▸ .cons (by decide) (.append (.append (.append hgaps.ascii (choice.ascii hinner))
      hgaps'.ascii) (.single (by decide)))
  | .option choice, _, ⟨_, _, _, hgaps, hinner, hgaps', heq⟩ =>
    heq ▸ .cons (by decide) (.append (.append (.append hgaps.ascii (choice.ascii hinner))
      hgaps'.ascii) (.single (by decide)))
  | .quoted quotation text, _, ⟨htext, opening, hopening, heq⟩ => by
    have hopening : Ascii opening := by
      cases quotation with
      | plain => obtain rfl := hopening; exact .nil
      | insensitive =>
        rcases hopening with rfl | rfl <;> exact .cons (by decide) (.single (by decide))
      | sensitive =>
        rcases hopening with rfl | rfl <;> exact .cons (by decide) (.single (by decide))
    exact heq ▸ .append (.append hopening (.cons (by decide) fun c hc => (htext c hc).1.ascii))
      (.single (by decide))
  | .numeral radix value, _, ⟨hvalue, mark, hmark, heq⟩ => by
    have hmark : mark.toNat < 0x80 := by
      cases radix <;> rcases hmark with rfl | rfl <;> decide
    exact heq ▸ .cons (by decide) (.cons hmark hvalue.ascii)
  | .prose text, _, ⟨htext, heq⟩ =>
    heq ▸ .append (.cons (by decide) fun c hc => (htext c hc).1.ascii) (.single (by decide))

theorem Item.ascii : (item : Item) → {cs : List Char} → item.Spelled cs → Ascii cs
  | .once element, _, h => element.ascii h
  | .repeated _ element, _, ⟨hcount, _, hinner, heq⟩ =>
    heq ▸ .append hcount.ascii (element.ascii hinner)

theorem Row.ascii : (row : Row) → {cs : List Char} → row.Spelled cs → Ascii cs
  | .last item, _, h => item.ascii h
  | .more item rest, _, ⟨_, _, _, hfirst, hgaps, _, hothers, heq⟩ =>
    heq ▸ .append (.append (item.ascii hfirst) hgaps.ascii) (rest.ascii hothers)

theorem Choice.ascii : (choice : Choice) → {cs : List Char} → choice.Spelled cs → Ascii cs
  | .last row, _, h => row.ascii h
  | .more row rest, _, ⟨_, _, _, _, hfirst, hgaps, hgaps', hothers, heq⟩ =>
    heq ▸ .append (.append (.append (row.ascii hfirst) hgaps.ascii)
      (.cons (by decide) hgaps'.ascii))
      (rest.ascii hothers)
end

theorem Rule.Spelled.ascii {rule : Rule} {cs : List Char} (h : rule.Spelled cs) : Ascii cs := by
  obtain ⟨hname, gaps, gaps', inner, gaps'', line, hgaps, hgaps', hinner, hgaps'', hline, rfl⟩ := h
  have hsign : Ascii rule.sign := by
    rw [sign]
    split
    case isTrue => exact .cons (by decide) (.single (by decide))
    case isFalse => exact .single (by decide)
  exact .append (.append (.append (.append (.append (.append hname.ascii hgaps.ascii) hsign)
    hgaps'.ascii) (rule.body.ascii hinner)) hgaps''.ascii) hline.ascii

theorem Listing.ascii {rules : List Rule} {cs : List Char} (h : Listing rules cs) : Ascii cs := by
  induction h with
  | nil => exact .nil
  | rule hfirst _ ih => exact hfirst.ascii.append ih
  | blank hgaps hline _ ih => exact (hgaps.ascii.append hline.ascii).append ih

end Notation

namespace Edit

variable {id : GrammarId}

theorem forM_localRule_found (productions : List Production) {store : Store}
    (hindex : id.index < store.catalog.grammars.size) : ∀ production ∈ productions, ∃ rule,
      ((productions.forM fun production => discard <| localRule id production.name : Edit Unit)
        store).2.catalog.local? id production.name = some rule := by
  induction productions generalizing store with
  | nil => simp
  | cons first rest ih =>
    have hindex' : id.index < (localRule id first.name store).2.catalog.grammars.size := by
      rwa [(quiet_localRule id first.name).grammars]
    have hfound := Store.local?_localRule hindex first.name
    have hquiet : Quiet (localRule id first.name store).2 _ := quiet_forM_localRule rest id
    intro production hproduction
    rcases List.mem_cons.1 hproduction with rfl | hproduction
    · exact ⟨_, hquiet.agrees.found id (Set.mem_univ id) _ _ hfound⟩
    · exact ih hindex' production hproduction

/-- Productions whose names have places are bound to the rules there. -/
theorem bindAll_found {productions : List Production} {parsers : List Parser}
    (hlength : parsers.length = productions.length) {store : Store}
    (hlocal : ∀ production ∈ productions, ∃ rule,
      store.catalog.local? id production.name = some rule) :
    let bound := ((productions.zip parsers).mapM fun (production, parser) =>
      bindOne id production parser : Edit (List RuleId)) store
    (∀ name rule, store.catalog.local? id name = some rule →
      bound.2.catalog.local? id name = some rule) ∧
    List.Forall₂ (fun production rule => bound.2.catalog.local? id production.name = some rule)
      productions bound.1 := by
  induction productions generalizing parsers store with
  | nil => exact ⟨fun _ _ h => h, .nil⟩
  | cons production rest ih =>
    cases parsers with
    | nil => cases hlength
    | cons parser others =>
      obtain ⟨target, htarget⟩ := hlocal production List.mem_cons_self
      obtain ⟨hfirst, hretains⟩ := retains_bindOne htarget parser
      obtain ⟨hkept, hall⟩ := ih (Nat.succ.inj hlength) fun other hother =>
        (hlocal other (List.mem_cons_of_mem _ hother)).imp fun rule hrule =>
          hretains.found _ _ hrule
      simp only [List.zip_cons_cons, List.mapM_cons, bind_apply, pure_apply]
      exact ⟨fun name rule hrule => hkept name rule (hretains.found name rule hrule),
        .cons (hfirst ▸ hkept _ _ (hretains.found _ _ htarget)) hall⟩

theorem length_of_describesAll {options : Options} {before after : Store}
    {expressions : List Expression} {parsers : List Parser}
    (h : Expression.DescribesAll id options before after expressions parsers) :
    parsers.length = expressions.length := by
  induction expressions generalizing parsers with
  | nil => rw [show parsers = [] from h]; rfl
  | cons expression rest ih =>
    obtain ⟨parser, others, rfl, -, hrest⟩ := h
    rw [List.length_cons, List.length_cons, ih hrest]

/-- The rules that productions are bound to have the names of these, in order. -/
theorem bind_found (productions : List Production) {store : Store}
    (hindex : id.index < store.catalog.grammars.size) :
    List.Forall₂ (fun production rule =>
      (Edit.bind id productions store).2.catalog.local? id production.name = some rule)
      productions (Edit.bind id productions store).1 := by
  have hfound := forM_localRule_found productions hindex
  have hquiet : Quiet store _ := quiet_forM_localRule productions id
  generalize hnamed : ((productions.forM fun production =>
    discard <| localRule id production.name : Edit Unit) store).2 = named at hfound hquiet
  obtain ⟨hgrows, -, hall⟩ := assembleAll_describes (named.catalog.grammar id).options
    (productions.map (·.body)) (.refl id named) (by rwa [hquiet.grammars])
  simp only [Edit.bind, bind_apply, get_apply, hnamed]
  generalize assembleAll id (named.catalog.grammar id).options (productions.map (·.body)) named =
    assembled at hgrows hall ⊢
  exact (bindAll_found (by simpa using length_of_describesAll hall) fun production hproduction =>
    (hfound production hproduction).imp fun rule hrule => hgrows.retains.found _ _ hrule).2

end Edit

section
variable {desk : Desk} (h : desk.Untouched) (id : GrammarId) {text : String}
include h

omit id in
/-- A text that spells a list of rules is parsed as these. -/
theorem Desk.Untouched.parseRules_of_listing {rules : List Rule}
    (hrules : Listing rules (asLines (trimBlankEnd text).toList)) :
    ∃ nodes parsed, (RuleText.parseRules text).run desk.store = (.ok nodes, parsed) ∧
      desk.store.Alike parsed ∧ parsed.Faithful desk.held ∧
      List.Forall₂ RuleText.ReadsAs nodes rules := by
  obtain ⟨nodes, hyields⟩ := hrules.accepts (asLines_ne_nil _)
  rcases RuleText.gives_parseRules text with ⟨node, hnode, hgives⟩ | ⟨-, hnone⟩
  · obtain ⟨parsed, hparse, hparsed, hfaithful⟩ := hgives desk.store h.faithful
    obtain ⟨rules', hrules', hreads⟩ := RuleText.rulelist_of_yields hnode
    obtain rfl := hrules.unique hrules'
    exact ⟨_, parsed, hparse, hparsed, hfaithful, hreads⟩
  · exact absurd hyields (hnone nodes)

theorem Desk.Untouched.loadRulelist_of_listing {rules : List Rule}
    (hrules : Listing rules (asLines (trimBlankEnd text).toList)) :
    ∃ read, desk.store.Alike read ∧ (Loading.loadRulelist id text).run desk.store =
      RuleText.concluded id read
        (rules.mapM (·.production (desk.store.catalog.grammar id).options.prose)) := by
  obtain ⟨nodes, parsed, hparse, hparsed, hfaithful, hreads⟩ := h.parseRules_of_listing hrules
  obtain ⟨read, hread, hbind⟩ := RuleText.compile_of_readsAs hreads id hfaithful
  refine ⟨read, hparsed.trans hread, ?_⟩
  rw [Loading.loadRulelist, Edit.run_bind_ok hparse, hbind, hparsed.catalog]

theorem Desk.Untouched.loadRulelist_of_not_listing
    (hnone : ¬ ∃ rules, Listing rules (asLines (trimBlankEnd text).toList)) :
    ∃ failure, ((Loading.loadRulelist id text).run desk.store).1 = .error (.parse failure) := by
  rcases RuleText.gives_parseRules text with ⟨node, hnode, -⟩ | ⟨⟨failure, hgives⟩, -⟩
  · obtain ⟨rules, hrules, -⟩ := RuleText.rulelist_of_yields hnode
    exact absurd ⟨rules, hrules⟩ hnone
  · obtain ⟨parsed, hparse, -⟩ := hgives desk.store h.faithful
    exact ⟨failure, by rw [Loading.loadRulelist, Edit.run_bind_error hparse]⟩

end

theorem RuleText.concluded_ne_parse (id : GrammarId) (store : Store)
    (stated : Except GrammarError (List Production)) (failure : ParseError) :
    (concluded id store stated).1 ≠ .error (.parse failure) := by
  cases stated <;> exact nofun

/-- Loading a list of rules fails to parse unless the text, without the blank characters at
its end, spells one. If it does, the productions of these rules are bound in order, or else
the first error in them is reported. -/
theorem Desk.Untouched.loadRulelist_accepts {desk : Desk} (h : desk.Untouched) {id : GrammarId}
    (hindex : id.index < desk.store.catalog.grammars.size) (text : String) :
    ((∃ failure, ((Loading.loadRulelist id text).run desk.store).1 = .error (.parse failure)) ↔
      ¬ ∃ rules, Listing rules (asLines (trimBlankEnd text).toList)) ∧
    ∀ rules, Listing rules (asLines (trimBlankEnd text).toList) →
      (∀ error, rules.mapM (·.production (desk.store.catalog.grammar id).options.prose) =
        .error error → ((Loading.loadRulelist id text).run desk.store).1 =
          .error (.grammar error)) ∧
      ∀ productions, rules.mapM (·.production (desk.store.catalog.grammar id).options.prose) =
        .ok productions → ∃ read bound after, desk.store.Alike read ∧
          (Loading.loadRulelist id text).run desk.store = (.ok bound, after) ∧
          Edit.bind id productions read = (bound, after) ∧
          List.Forall₂ (fun production rule =>
            after.catalog.local? id production.name = some rule) productions bound := by
  refine ⟨⟨?_, h.loadRulelist_of_not_listing id⟩, fun rules hrules => ⟨?_, ?_⟩⟩
  · rintro ⟨failure, hfailure⟩ ⟨rules, hrules⟩
    obtain ⟨read, -, hload⟩ := h.loadRulelist_of_listing id hrules
    rw [hload] at hfailure
    exact RuleText.concluded_ne_parse id read _ failure hfailure
  · intro error herror
    obtain ⟨read, -, hload⟩ := h.loadRulelist_of_listing id hrules
    rw [hload, herror, RuleText.concluded]
  · intro productions hproductions
    obtain ⟨read, halike, hload⟩ := h.loadRulelist_of_listing id hrules
    rw [hproductions, RuleText.concluded] at hload
    exact ⟨read, _, _, halike, hload, rfl, Edit.bind_found productions (by rwa [halike.catalog])⟩

def Notation.samples : List Notation.Rule :=
  [⟨['a'], false, .last (.last (.once (.quoted .plain ['x'])))⟩,
    ⟨['b'], true, .last (.last (.once (.name ['a'])))⟩]

theorem Notation.spelled_quoted :
    samples[0].Spelled ['a', '=', '"', 'x', '"', '\r', '\n'] := by
  have hbody : samples[0].body.Spelled ['"', 'x', '"'] := ⟨by decide, [], rfl, rfl⟩
  exact spelled_tight false (by decide) hbody rfl

theorem Notation.listing_samples : Listing samples
    ['a', '=', '"', 'x', '"', '\r', '\n', '\r', '\n', 'b', '=', '/', 'a', '\r', '\n'] := by
  have hbody : samples[1].body.Spelled ['a'] := ⟨by decide, rfl⟩
  have hsecond : samples[1].Spelled ['b', '=', '/', 'a', '\r', '\n'] :=
    spelled_tight true (by decide) hbody rfl
  exact .rule spelled_quoted (.blank .nil (Or.inl rfl) (.rule hsecond .nil))

theorem Desk.loadRulelist_accepts_samples :
    2 < Store.drafting.catalog.grammars.size ∧
      Listing samples (asLines (trimBlankEnd "a=\"x\"\n\nb=/a\u00a0").toList) ∧
      ∃ read bound after, Store.drafting.Alike read ∧
        (Loading.loadRulelist ⟨2⟩ "a=\"x\"\n\nb=/a\u00a0").run Store.drafting =
          (.ok bound, after) ∧
        Edit.bind ⟨2⟩ [⟨"a", false, .literal ⟨.text "x", false⟩⟩, ⟨"b", true, .name "a"⟩] read =
          (bound, after) := by
  have hindex : 2 < Store.drafting.catalog.grammars.size := Store.drafting_checked.2.1
  have hlines : asLines (trimBlankEnd "a=\"x\"\n\nb=/a\u00a0").toList =
      ['a', '=', '"', 'x', '"', '\r', '\n', '\r', '\n', 'b', '=', '/', 'a', '\r', '\n'] := by
    decide +kernel
  have hrules := listing_samples
  rw [← hlines] at hrules
  have hloads := Desk.untouched_drafting.loadRulelist_accepts hindex "a=\"x\"\n\nb=/a\u00a0"
  obtain ⟨read, bound, after, halike, hload, hbind, -⟩ := (hloads.2 samples hrules).2 _ rfl
  exact ⟨hindex, hrules, read, bound, after, halike, hload, hbind⟩

/-- A blank character at the end that no list of rules may have does not make loading fail. -/
theorem loadRulelist_ignores_blank_end : ¬ ∀ desk : Desk, desk.Untouched → ∀ id : GrammarId,
    id.index < desk.store.catalog.grammars.size → ∀ text : String,
      ((∃ failure, ((Loading.loadRulelist id text).run desk.store).1 = .error (.parse failure)) ↔
        ¬ ∃ rules, Listing rules (asLines text.toList)) := by
  intro hall
  have hindex : 2 < Store.drafting.catalog.grammars.size := Store.drafting_checked.2.1
  have hlines : asLines (trimBlankEnd "a=\"x\"\u00a0").toList =
      ['a', '=', '"', 'x', '"', '\r', '\n'] := by
    decide +kernel
  have hspelled : Listing [samples[0]] (asLines (trimBlankEnd "a=\"x\"\u00a0").toList) := by
    rw [hlines]
    exact .rule spelled_quoted .nil
  obtain ⟨failure, hfailure⟩ := (hall _ Desk.untouched_drafting ⟨2⟩ hindex "a=\"x\"\u00a0").2 <| by
    rintro ⟨rules, hrules⟩
    have hmem : '\u00a0' ∈ asLines "a=\"x\"\u00a0".toList := by decide +kernel
    exact absurd (hrules.ascii _ hmem) (by decide)
  obtain ⟨read, -, hload⟩ := Desk.untouched_drafting.loadRulelist_of_listing ⟨2⟩ hspelled
  rw [hload] at hfailure
  exact RuleText.concluded_ne_parse _ _ _ failure hfailure

end Metasyntax
