import Metasyntax.Proofs.Reading

/-!
# The sentences of rule text

The language of rule text accepts the texts that spell rules in abstract form and no
others, and reads from each the rules that it spells.
-/

set_option autoImplicit false

namespace Metasyntax
namespace Notation

section
variable {cs : List Char}

theorem Quotation.accepts {quotation : Quotation} {text : List Char}
    (h : (Element.quoted quotation text).Spelled cs) :
    Accepts Standard.rules (.name "char-val") cs := by
  obtain ⟨htext, opening, hopening, rfl⟩ := h
  have hquoted : Accepts Standard.rules (.name "quoted-string") ('"' :: text ++ ['"']) :=
    accepts_quoted_iff.2 ⟨text, htext, rfl⟩
  rw [List.append_assoc, accepts_name_iff rfl, accepts_choice_iff]
  cases quotation with
  | plain =>
    refine ⟨.name "case-insensitive-string", by simp, ?_⟩
    rw [accepts_name_iff rfl, accepts_cons_iff]
    exact ⟨opening, _, rfl, accepts_optional_iff.2 (Or.inl hopening), accepts_last_iff.2 hquoted⟩
  | insensitive =>
    refine ⟨.name "case-insensitive-string", by simp, ?_⟩
    rw [accepts_name_iff rfl, accepts_cons_iff]
    refine ⟨opening, _, rfl, accepts_optional_iff.2 (Or.inr ?_), accepts_last_iff.2 hquoted⟩
    rw [accepts_marked_iff '%' 'i' rfl (by decide) (by decide)]
    rcases hopening with rfl | rfl
    · exact ⟨'i', Or.inl rfl, rfl⟩
    · exact ⟨'I', Or.inr rfl, rfl⟩
  | sensitive =>
    refine ⟨.name "case-sensitive-string", by simp, ?_⟩
    rw [accepts_name_iff rfl, accepts_cons_iff]
    refine ⟨opening, _, rfl, ?_, accepts_last_iff.2 hquoted⟩
    rw [accepts_marked_iff '%' 's' rfl (by decide) (by decide)]
    rcases hopening with rfl | rfl
    · exact ⟨'s', Or.inl rfl, rfl⟩
    · exact ⟨'S', Or.inr rfl, rfl⟩

theorem Numeral.accepts {radix : Radix} {value : Numeral}
    (h : (Element.numeral radix value).Spelled cs) :
    Accepts Standard.rules (.name "num-val") cs := by
  obtain ⟨hvalue, mark, hmark, rfl⟩ := h
  have hsign : Accepts Standard.rules (.text "%") ['%'] :=
    (single_mark (e := '%') rfl (by decide) _).2 ⟨'%', rfl, rfl⟩
  rw [accepts_name_iff rfl, accepts_cons_iff]
  simp only [accepts_last_iff]
  refine ⟨['%'], mark :: value.text, rfl, hsign, accepts_choice_iff.2 ?_⟩
  refine ⟨.name (RuleText.radixRule radix), ?_, RuleText.accepts_radixRule_iff.2
    ⟨mark, value, hmark, hvalue, rfl⟩⟩
  cases radix <;> simp [RuleText.radixRule]

theorem accepts_bracketed {opening closing : String} {left right : Char}
    (hleft : Single Standard.rules (.text opening) (· = left))
    (hright : Single Standard.rules (.text closing) (· = right))
    {gaps inner gaps' : List Char} (hgaps : Gaps gaps)
    (hinner : Accepts Standard.rules (.name "alternation") inner) (hgaps' : Gaps gaps') :
    Accepts Standard.rules (Standard.bracketed opening closing)
      (left :: (gaps ++ inner ++ gaps' ++ [right])) := by
  rw [Standard.bracketed, accepts_cons_iff]
  refine ⟨[left], _, rfl, (hleft _).2 ⟨left, rfl, rfl⟩, accepts_cons_iff.2 ?_⟩
  refine ⟨gaps, inner ++ (gaps' ++ [right]), by simp, accepts_gaps_iff.2 hgaps,
    accepts_cons_iff.2 ?_⟩
  refine ⟨inner, gaps' ++ [right], rfl, hinner, accepts_cons_iff.2 ?_⟩
  exact ⟨gaps', [right], rfl, accepts_gaps_iff.2 hgaps',
    accepts_last_iff.2 ((hright _).2 ⟨right, rfl, rfl⟩)⟩

theorem accepts_element (name : String) (hname : name ∈ ["rulename", "group", "option", "char-val",
    "num-val", "prose-val"]) (h : Accepts Standard.rules (.name name) cs) :
    Accepts Standard.rules (.name "element") cs := by
  rw [accepts_name_iff rfl, accepts_choice_iff]
  refine ⟨.name name, ?_, h⟩
  simpa using hname

theorem accepts_item_once (h : Accepts Standard.rules (.name "element") cs) :
    Accepts Standard.rules (.name "repetition") cs := by
  rw [accepts_name_iff rfl, accepts_cons_iff]
  exact ⟨[], cs, rfl, accepts_optional_iff.2 (Or.inl rfl), accepts_last_iff.2 h⟩

theorem accepts_item_repeated {count : Count} {inner : List Char} (hcount : count.WellFormed)
    (h : Accepts Standard.rules (.name "element") inner) :
    Accepts Standard.rules (.name "repetition") (count.text ++ inner) := by
  rw [accepts_name_iff rfl, accepts_cons_iff]
  exact ⟨count.text, inner, rfl,
    accepts_optional_iff.2 (Or.inr (accepts_repeat_iff.2 ⟨count, hcount, rfl⟩)),
    accepts_last_iff.2 h⟩

theorem accepts_star_append {element : Expression} {xs ys : List Char}
    (hxs : Accepts Standard.rules element xs) (hys : Accepts Standard.rules (.star element) ys) :
    Accepts Standard.rules (.star element) (xs ++ ys) := by
  obtain ⟨parts, hparts, rfl⟩ := accepts_star_iff.1 hys
  refine accepts_star_iff.2 ⟨xs :: parts, fun part hpart => ?_, rfl⟩
  rcases List.mem_cons.1 hpart with rfl | hpart
  · exact hxs
  · exact hparts part hpart

def series (part link : Expression) : Expression := .sequence [part, .star link]

theorem accepts_series_last {part link : Expression} (h : Accepts Standard.rules part cs) :
    Accepts Standard.rules (series part link) cs :=
  accepts_cons_iff.2 ⟨cs, [], (List.append_nil cs).symm, h,
    accepts_last_iff.2 (accepts_star_iff.2 ⟨[], by simp, rfl⟩)⟩

theorem accepts_series_more {part link : Expression} {first between others : List Char}
    (hfirst : Accepts Standard.rules part first)
    (hlink : ∀ next, Accepts Standard.rules part next →
      Accepts Standard.rules link (between ++ next))
    (hothers : Accepts Standard.rules (series part link) others) :
    Accepts Standard.rules (series part link) (first ++ (between ++ others)) := by
  obtain ⟨next, rest, rfl, hnext, hrest⟩ := accepts_cons_iff.1 hothers
  refine accepts_cons_iff.2 ⟨first, between ++ (next ++ rest), rfl, hfirst, accepts_last_iff.2 ?_⟩
  rw [← List.append_assoc]
  exact accepts_star_append (hlink next hnext) (accepts_last_iff.1 hrest)

theorem accepts_spread {gaps next : List Char} (hgaps : Gaps gaps) (hne : gaps ≠ [])
    (hnext : Accepts Standard.rules (.name "repetition") next) :
    Accepts Standard.rules (.sequence [.plus (.name "c-wsp"), .name "repetition"]) (gaps ++ next) :=
  accepts_cons_iff.2 ⟨gaps, next, rfl, accepts_spread_iff.2 ⟨hgaps, hne⟩, accepts_last_iff.2 hnext⟩

theorem accepts_slashed {gaps gaps' next : List Char} (hgaps : Gaps gaps) (hgaps' : Gaps gaps')
    (hnext : Accepts Standard.rules (.name "concatenation") next) :
    Accepts Standard.rules (.sequence [.star (.name "c-wsp"), .text "/", .star (.name "c-wsp"),
      .name "concatenation"]) (gaps ++ '/' :: gaps' ++ next) := by
  rw [List.append_assoc]
  refine accepts_cons_iff.2 ⟨gaps, _, rfl, accepts_gaps_iff.2 hgaps, accepts_cons_iff.2 ?_⟩
  refine ⟨['/'], gaps' ++ next, rfl, ?_, accepts_cons_iff.2 ?_⟩
  · exact (single_mark (e := '/') rfl (by decide) _).2 ⟨'/', rfl, rfl⟩
  · exact ⟨gaps', next, rfl, accepts_gaps_iff.2 hgaps', accepts_last_iff.2 hnext⟩

end

mutual
theorem Element.accepts : (element : Element) → {cs : List Char} → element.Spelled cs →
    Accepts Standard.rules (.name "element") cs
  | .name _, _, h => by
    obtain ⟨hname, rfl⟩ := h
    exact accepts_element _ (by simp) (accepts_rulename_iff.2 hname)
  | .group choice, _, h => by
    obtain ⟨gaps, inner, gaps', hgaps, hinner, hgaps', rfl⟩ := h
    refine accepts_element "group" (by simp) ((accepts_name_iff rfl).2 ?_)
    exact accepts_bracketed (single_mark rfl (by decide)) (single_mark rfl (by decide)) hgaps
      (choice.accepts hinner) hgaps'
  | .option choice, _, h => by
    obtain ⟨gaps, inner, gaps', hgaps, hinner, hgaps', rfl⟩ := h
    refine accepts_element "option" (by simp) ((accepts_name_iff rfl).2 ?_)
    exact accepts_bracketed (single_mark rfl (by decide)) (single_mark rfl (by decide)) hgaps
      (choice.accepts hinner) hgaps'
  | .quoted _ _, _, h => accepts_element _ (by simp) (Quotation.accepts h)
  | .numeral _ _, _, h => accepts_element _ (by simp) (Numeral.accepts h)
  | .prose text, _, h => accepts_element _ (by simp) (accepts_prose_iff.2 ⟨text, h⟩)

theorem Item.accepts : (item : Item) → {cs : List Char} → item.Spelled cs →
    Accepts Standard.rules (.name "repetition") cs
  | .once element, _, h => accepts_item_once (element.accepts h)
  | .repeated _ element, _, h => by
    obtain ⟨hcount, inner, hinner, rfl⟩ := h
    exact accepts_item_repeated hcount (element.accepts hinner)

theorem Row.accepts : (row : Row) → {cs : List Char} → row.Spelled cs →
    Accepts Standard.rules (.name "concatenation") cs
  | .last item, _, h => (accepts_name_iff rfl).2 (accepts_series_last (item.accepts h))
  | .more item rest, _, h => by
    obtain ⟨first, gaps, others, hfirst, hgaps, hne, hothers, rfl⟩ := h
    have hrest := (accepts_name_iff rfl).1 (rest.accepts hothers)
    rw [List.append_assoc, accepts_name_iff rfl]
    exact accepts_series_more (item.accepts hfirst) (fun _ => accepts_spread hgaps hne) hrest

theorem Choice.accepts : (choice : Choice) → {cs : List Char} → choice.Spelled cs →
    Accepts Standard.rules (.name "alternation") cs
  | .last row, _, h => (accepts_name_iff rfl).2 (accepts_series_last (row.accepts h))
  | .more row rest, _, h => by
    obtain ⟨first, gaps, gaps', others, hfirst, hgaps, hgaps', hothers, rfl⟩ := h
    have hrest := (accepts_name_iff rfl).1 (rest.accepts hothers)
    rw [List.append_assoc, List.append_assoc, ← List.append_assoc gaps, accepts_name_iff rfl]
    exact accepts_series_more (row.accepts hfirst) (fun _ => accepts_slashed hgaps hgaps') hrest
end

section
variable {cs : List Char} {nodes : List Node}

theorem Rule.accepts_sign (rule : Rule) :
    Accepts Standard.rules (.choice [.text "=/", .text "="]) rule.sign := by
  rw [accepts_choice_iff, Rule.sign]
  split
  case isTrue =>
    refine ⟨.text "=/", by simp, ?_⟩
    rw [accepts_marked_iff '=' '/' rfl (by decide) (by decide)]
    exact ⟨'/', Or.inl rfl, rfl⟩
  case isFalse =>
    exact ⟨.text "=", by simp, (single_mark (e := '=') rfl (by decide) _).2 ⟨'=', rfl, rfl⟩⟩

theorem Rule.accepts {rule : Rule} (h : rule.Spelled cs) :
    Accepts Standard.rules (.name "rule") cs := by
  obtain ⟨hname, gaps, gaps', inner, gaps'', line, hgaps, hgaps', hinner, hgaps'', hline, rfl⟩ := h
  have hdefined : Accepts Standard.rules (.name "defined-as") (gaps ++ (rule.sign ++ gaps')) := by
    rw [accepts_name_iff rfl]
    exact accepts_cons_iff.2 ⟨gaps, _, rfl, accepts_gaps_iff.2 hgaps, accepts_cons_iff.2
      ⟨_, gaps', rfl, rule.accepts_sign, accepts_last_iff.2 (accepts_gaps_iff.2 hgaps')⟩⟩
  have helements : Accepts Standard.rules (.name "elements") (inner ++ gaps'') := by
    rw [accepts_name_iff rfl]
    exact accepts_cons_iff.2 ⟨inner, gaps'', rfl, rule.body.accepts hinner,
      accepts_last_iff.2 (accepts_gaps_iff.2 hgaps'')⟩
  rw [accepts_name_iff rfl, accepts_cons_iff]
  refine ⟨rule.name, gaps ++ (rule.sign ++ gaps') ++ (inner ++ gaps'' ++ line), by simp,
    accepts_rulename_iff.2 hname, accepts_cons_iff.2 ?_⟩
  exact ⟨_, _, rfl, hdefined, accepts_cons_iff.2
    ⟨_, line, rfl, helements, accepts_last_iff.2 (accepts_lineEnd_iff.2 hline)⟩⟩

theorem Listing.accepts_star {rules : List Rule} (h : Listing rules cs) :
    Accepts Standard.rules
      (.star (.choice [.name "rule", .sequence [.star (.name "c-wsp"), .name "c-nl"]])) cs := by
  induction h with
  | nil => exact accepts_star_iff.2 ⟨[], by simp, rfl⟩
  | rule hfirst _ ih =>
    exact accepts_star_append (accepts_choice_iff.2 ⟨_, List.mem_cons_self, Rule.accepts hfirst⟩) ih
  | @blank rules gaps line rest hgaps hline _ ih =>
    refine accepts_star_append (accepts_choice_iff.2 ⟨_, List.mem_cons_of_mem _
      List.mem_cons_self, accepts_cons_iff.2 ?_⟩) ih
    exact ⟨gaps, line, rfl, accepts_gaps_iff.2 hgaps,
      accepts_last_iff.2 (accepts_lineEnd_iff.2 hline)⟩

/-- A list of rules is accepted unless there is nothing in it. -/
theorem Listing.accepts {rules : List Rule} (h : Listing rules cs) (hne : cs ≠ []) :
    Accepts Standard.rules (.name "rulelist") cs := by
  obtain ⟨parts, hparts, rfl⟩ := accepts_star_iff.1 h.accepts_star
  cases parts with
  | nil => exact absurd rfl hne
  | cons part parts =>
    rw [accepts_name_iff rfl]
    exact accepts_plus_iff.2 ⟨part, parts.flatten, rfl, hparts part List.mem_cons_self,
      accepts_star_iff.2 ⟨parts, fun other hother => hparts other (List.mem_cons_of_mem _ hother),
        rfl⟩⟩

end

end Notation

namespace RuleText
open Notation

/-- The sign of a rule, as it stands in a tree. -/
theorem sign_of_yields {cs : List Char} {nodes : List Node}
    (h : Yields Standard.rules (.choice [.text "=/", .text "="]) cs nodes) :
    ∃ incremental : Bool, ∃ offset, cs = (if incremental then ['=', '/'] else ['=']) ∧
      nodes = [.literal (String.ofList cs) offset] := by
  cases h with
  | choice hmem h =>
  simp only [List.mem_cons, List.not_mem_nil, or_false] at hmem
  rcases hmem with rfl | rfl
  · obtain ⟨offset, rfl⟩ := h.exists_leaf
    obtain ⟨c, rfl | rfl, rfl⟩ :=
      (accepts_marked_iff '=' '/' rfl (by decide) (by decide)).1 ⟨_, h⟩
    · exact ⟨true, offset, rfl, rfl⟩
    · exact ⟨true, offset, rfl, rfl⟩
  · obtain ⟨offset, rfl⟩ := h.exists_leaf
    obtain ⟨rfl, -⟩ := h.exists_mark (single_mark (e := '=') rfl (by decide))
    exact ⟨false, offset, rfl, rfl⟩

def isIncrement : Node → Bool
  | .literal value _ => value == "=/"
  | .rule _ _ => false

theorem any_isIncrement_eq_false {nodes : List Node} (h : ∀ node ∈ nodes, node.isRule) :
    nodes.any isIncrement = false := by
  rw [List.any_eq_false]
  intro node hnode
  cases node with
  | rule name children => exact Bool.false_ne_true
  | literal value offset => exact absurd (h _ hnode) Bool.false_ne_true

theorem definedAs_of_yields {cs : List Char} {nodes : List Node}
    (h : Yields Standard.rules (.name "defined-as") cs nodes) :
    ∃ gaps gaps' children, ∃ incremental : Bool,
      nodes = [.rule "defined-as" children] ∧ Gaps gaps ∧ Gaps gaps' ∧
      cs = gaps ++ (if incremental then ['=', '/'] else ['=']) ++ gaps' ∧
      children.any isIncrement = incremental := by
  obtain ⟨body, children, hbody, rfl, hyields⟩ := h.exists_of_name
  cases hbody
  cases hyields with
  | cons hgaps hyields =>
  cases hyields with
  | cons hsign hyields =>
  cases hyields with
  | cons hgaps' hnil =>
  cases hnil
  obtain ⟨incremental, offset, rfl, rfl⟩ := sign_of_yields hsign
  refine ⟨_, _, _, incremental, rfl, hgaps.gaps, hgaps'.gaps, by simp, ?_⟩
  have hbefore := any_isIncrement_eq_false fun node hnode => (hgaps.repeated_named node hnode).2
  have hafter := any_isIncrement_eq_false fun node hnode => (hgaps'.repeated_named node hnode).2
  simp only [List.any_append, hbefore, hafter, List.any_cons, List.any_nil,
    Bool.or_false, Bool.false_or, List.append_nil]
  have hread : ∀ incremental : Bool,
      (String.ofList (if incremental then ['=', '/'] else ['=']) == "=/") = incremental := by
    decide +kernel
  exact hread incremental

structure ReadsAs (node : Node) (rule : Rule) : Prop where
  header : readHeader node = .ok (String.ofList rule.name, rule.incremental)
  body : ∀ held mode,
    Reads held (readBody (.expressions mode) node) (rule.body.expression mode)

/-- The parts of a rule are found by their names. -/
theorem readsAs_of_parts {rule : Rule} {nameChildren signChildren branches spaces rest : List Node}
    (hname : (Node.rule "rulename" nameChildren).value = String.ofList rule.name)
    (hsign : signChildren.any isIncrement = rule.incremental)
    (hreads : ∀ held mode,
      Reads held (readAlternation (.expressions mode) (.rule "alternation" branches))
      (rule.body.expression mode)) :
    ReadsAs (.rule "rule" (.rule "rulename" nameChildren :: .rule "defined-as" signChildren ::
      .rule "elements" (.rule "alternation" branches :: spaces) :: rest)) rule := by
  have hnames : sameName "rulename" "defined-as" = false ∧ sameName "rulename" "elements" = false ∧
      sameName "defined-as" "elements" = false := by
    decide +kernel
  constructor
  · simp only [readHeader, requireChild, Node.child?, Node.children, List.find?_cons, Node.isNamed,
      Node.name, hnames, sameName_self]
    change Except.ok (Node.value _, signChildren.any isIncrement) = _
    rw [hname, hsign]
  · intro held mode
    simp only [readBody, requireChild, Node.child?, Node.children, List.find?_cons, Node.isNamed,
      Node.name, hnames, sameName_self]
    refine reads_ok ?_
    simp only [List.find?_cons, sameName_self]
    exact reads_ok (hreads held mode)

theorem rule_of_yields {cs : List Char} {nodes : List Node}
    (h : Yields Standard.rules (.name "rule") cs nodes) :
    ∃ rule : Rule, ∃ node, nodes = [node] ∧ node.name = "rule" ∧ rule.Spelled cs ∧
      ReadsAs node rule := by
  obtain ⟨body, children, hbody, rfl, hyields⟩ := h.exists_of_name
  cases hbody
  cases hyields with
  | cons hname hyields =>
  cases hyields with
  | cons hdefined hyields =>
  cases hyields with
  | cons helements hyields =>
  cases hyields with
  | cons hline hnil =>
  cases hnil
  obtain ⟨gaps, gaps', signChildren, incremental, rfl, hgaps, hgaps', rfl, hsign⟩ :=
    definedAs_of_yields hdefined
  obtain ⟨elementsBody, elements, hbody, rfl, hyields⟩ := helements.exists_of_name
  cases hbody
  cases hyields with
  | cons halternation hyields =>
  cases hyields with
  | cons hgaps'' hnil =>
  cases hnil
  obtain ⟨choice, alternation, rfl, -, hspelled, hreads⟩ :=
    readable_alternation _ _ _ (Nat.lt_succ_self _) halternation
  have hnameValue := hname.value_eq
  obtain ⟨nameBody, nameChildren, -, rfl, -⟩ := hname.exists_of_name
  obtain ⟨alternationBody, branches, -, hbranches, -⟩ := halternation.exists_of_name
  cases hbranches
  rw [Node.valueOfAll, Node.valueOfAll, String.append_empty] at hnameValue
  refine ⟨⟨_, incremental, choice⟩, _, rfl, rfl, ⟨accepts_rulename_iff.1 ⟨_, hname⟩, _, _, _, _, _,
    hgaps, hgaps', hspelled, hgaps''.gaps, accepts_lineEnd_iff.1 ⟨_, hline⟩, ?_⟩,
    readsAs_of_parts hnameValue hsign hreads⟩
  simp [Rule.sign]

/-- The rules of a text are the nodes of that name, in order. -/
theorem rules_of_yields {count : Nat} {cs : List Char} {nodes : List Node}
    (h : Yields Standard.rules (.sequence (List.replicate count
      (.choice [.name "rule", .sequence [.star (.name "c-wsp"), .name "c-nl"]]))) cs nodes) :
    ∃ rules, Listing rules cs ∧
      List.Forall₂ ReadsAs (nodes.filter (·.isNamed "rule")) rules := by
  have hnames : sameName "c-wsp" "rule" = false ∧ sameName "c-nl" "rule" = false := by
    decide +kernel
  induction count generalizing cs nodes with
  | zero =>
    cases h
    exact ⟨[], .nil, .nil⟩
  | succ count ih =>
    rw [List.replicate_succ] at h
    cases h with
    | cons hfirst hrest =>
    obtain ⟨rules, hlisting, hrules⟩ := ih hrest
    cases hfirst with
    | choice hmem hfirst =>
    simp only [List.mem_cons, List.not_mem_nil, or_false] at hmem
    rcases hmem with rfl | rfl
    · obtain ⟨rule, node, rfl, hname, hspelled, hreads⟩ := rule_of_yields hfirst
      refine ⟨rule :: rules, .rule hspelled hlisting, ?_⟩
      have hnamed : node.isNamed "rule" = true := by rw [Node.isNamed, hname, sameName_self]
      rw [List.cons_append, List.nil_append, List.filter_cons, if_pos hnamed]
      exact .cons hreads hrules
    · cases hfirst with
      | cons hgaps hfirst =>
      cases hfirst with
      | cons hline hnil =>
      cases hnil
      refine ⟨rules, ?_, ?_⟩
      · rw [List.append_nil]
        exact .blank hgaps.gaps (accepts_lineEnd_iff.1 ⟨_, hline⟩) hlisting
      · have hskip : ∀ {nodes : List Node} {name : String}, sameName name "rule" = false →
            (∀ node ∈ nodes, node.name = name ∧ node.isRule) →
            nodes.filter (·.isNamed "rule") = [] := by
          intro nodes name hname hnodes
          refine List.filter_eq_nil_iff.2 fun node hnode => ?_
          rw [Node.isNamed, (hnodes node hnode).1, hname]
          exact Bool.false_ne_true
        rw [List.filter_append, List.filter_append, List.filter_append,
          hskip hnames.1 hgaps.repeated_named, hskip hnames.2 hline.named]
        exact hrules

theorem rulelist_of_yields {cs : List Char} {node : Node}
    (h : Yields Standard.rules (.name "rulelist") cs [node]) : ∃ rules, Listing rules cs ∧
      List.Forall₂ ReadsAs (node.childrenNamed "rule") rules := by
  obtain ⟨body, children, hbody, hnode, hyields⟩ := h.exists_of_name
  cases hbody
  cases hnode
  cases hyields with
  | repeated count _ _ hall => exact rules_of_yields hall

theorem mapM_readHeader {nodes : List Node} {rules : List Rule}
    (h : List.Forall₂ ReadsAs nodes rules) : nodes.mapM readHeader =
      .ok (rules.map fun rule => (String.ofList rule.name, rule.incremental)) := by
  induction h with
  | nil => rfl
  | cons hnode _ ih => rw [List.mapM_cons, hnode.header, ih]; rfl

theorem reads_bodies {held : Set Parser} {mode : ProseMode} {nodes : List Node}
    {rules : List Rule} (h : List.Forall₂ ReadsAs nodes rules) :
    Reads held (nodes.mapM (readBody (.expressions mode))) (rules.mapM (·.body.expression mode)) := by
  induction h with
  | nil => exact reads_pure []
  | cons hnode _ ih =>
    rw [List.mapM_cons, List.mapM_cons]
    exact (hnode.body held mode).bind fun body _ => ih.bind fun bodies _ => reads_pure _

/-- The productions of some rules, put together from their headers and bodies. -/
theorem productions_eq (mode : ProseMode) (rules : List Rule) :
    (do
      let bodies ← rules.mapM (·.body.expression mode)
      return ((rules.map fun rule => (String.ofList rule.name, rule.incremental)).zip bodies).map
        fun ((name, incremental), body) => (⟨name, incremental, body⟩ : Production)) =
      rules.mapM (·.production mode) := by
  induction rules with
  | nil => rfl
  | cons rule rules ih =>
    rw [List.mapM_cons, List.mapM_cons, ← ih, Rule.production]
    cases rule.body.expression mode with
    | error error => rfl
    | ok body =>
      cases rules.mapM (·.body.expression mode) with
      | error error => rfl
      | ok bodies => rfl

theorem reads_productions {held : Set Parser} {mode : ProseMode} {nodes : List Node}
    {rules : List Rule} (h : List.Forall₂ ReadsAs nodes rules) :
    Reads held (readProductions mode nodes) (rules.mapM (·.production mode)) := by
  rw [readProductions, mapM_readHeader h, ← productions_eq]
  exact reads_ok <| (reads_bodies h).bind fun bodies _ => reads_pure _

end RuleText

end Metasyntax
