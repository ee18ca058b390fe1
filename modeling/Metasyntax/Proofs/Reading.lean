import Metasyntax.Proofs.Faithful
import Metasyntax.Proofs.Lexis
import Metasyntax.Proofs.Values

/-!
# Rule text as it is read

Whatever tree the language of rule text yields for a text, the visitors read it as the
abstract form that the text spells. Gaps may be divided among the nodes of a tree in many
ways, and none of them is looked at.
-/

set_option autoImplicit false

namespace Metasyntax

namespace Yields
variable {cs : List Char} {nodes : List Node}

theorem exists_leaf {terminal : Literal} (h : Yields Standard.rules (.literal terminal) cs nodes) :
    ∃ offset, nodes = [.literal (String.ofList cs) offset] := by
  cases h with
  | literal offset => exact ⟨offset, rfl⟩

theorem named {name : String} (h : Yields Standard.rules (.name name) cs nodes) :
    ∀ node ∈ nodes, node.name = name ∧ node.isRule := by
  obtain ⟨body, children, -, rfl, -⟩ := h.exists_of_name
  intro node hnode
  rw [List.mem_singleton.1 hnode]
  exact ⟨rfl, rfl⟩

theorem all_named {name : String} {count : Nat}
    (h : Yields Standard.rules (.sequence (List.replicate count (.name name))) cs nodes) :
    ∀ node ∈ nodes, node.name = name ∧ node.isRule := by
  induction count generalizing cs nodes with
  | zero =>
    cases h
    simp
  | succ count ih =>
    rw [List.replicate_succ] at h
    cases h with
    | cons hitem hitems =>
      intro node hnode
      rcases List.mem_append.1 hnode with hnode | hnode
      · exact hitem.named node hnode
      · exact ih hitems node hnode

theorem repeated_named {bounds : Bounds} {name : String}
    (h : Yields Standard.rules (.repeated bounds (.name name)) cs nodes) :
    ∀ node ∈ nodes, node.name = name ∧ node.isRule := by
  cases h with
  | repeated count _ _ hall => exact hall.all_named

theorem gaps (h : Yields Standard.rules (.star (.name "c-wsp")) cs nodes) : Notation.Gaps cs :=
  accepts_gaps_iff.1 ⟨nodes, h⟩

theorem spread (h : Yields Standard.rules (.plus (.name "c-wsp")) cs nodes) :
    Notation.Gaps cs ∧ cs ≠ [] :=
  accepts_spread_iff.1 ⟨nodes, h⟩

theorem exists_mark {pattern : String} {mark : Char}
    (h : Yields Standard.rules (.text pattern) cs nodes)
    (hmark : Single Standard.rules (.text pattern) (· = mark)) :
    cs = [mark] ∧ ∃ value offset, nodes = [.literal value offset] := by
  obtain ⟨c, rfl, rfl⟩ := (hmark cs).1 ⟨nodes, h⟩
  obtain ⟨offset, rfl⟩ := h.exists_leaf
  exact ⟨rfl, _, _, rfl⟩

end Yields

namespace Notation

theorem Row.expressions_ne_nil {mode : ProseMode} {row : Row} {items : List Expression}
    (h : row.expressions mode = .ok items) : items ≠ [] := by
  cases row with
  | last item =>
    obtain ⟨first, -, hitems⟩ := exists_of_bind_eq_ok h
    cases hitems
    exact List.cons_ne_nil _ _
  | more item rest =>
    obtain ⟨first, -, hrest⟩ := exists_of_bind_eq_ok h
    obtain ⟨others, -, hitems⟩ := exists_of_bind_eq_ok hrest
    cases hitems
    exact List.cons_ne_nil _ _

theorem Choice.expressions_ne_nil {mode : ProseMode} {choice : Choice} {branches : List Expression}
    (h : choice.expressions mode = .ok branches) : branches ≠ [] := by
  cases choice with
  | last row =>
    obtain ⟨items, -, hbranches⟩ := exists_of_bind_eq_ok h
    cases hbranches
    exact List.cons_ne_nil _ _
  | more row rest =>
    obtain ⟨items, -, hrest⟩ := exists_of_bind_eq_ok h
    obtain ⟨others, -, hbranches⟩ := exists_of_bind_eq_ok hrest
    cases hbranches
    exact List.cons_ne_nil _ _

end Notation

namespace RuleText
open Expression Notation

def Filler (nodes : List Node) : Prop :=
  ∀ node ∈ nodes, node.name = "c-wsp" ∨ node.name = Node.leafName

theorem filler_of_repeated {bounds : Bounds} {cs : List Char} {nodes : List Node}
    (h : Yields Standard.rules (.repeated bounds (.name "c-wsp")) cs nodes) : Filler nodes :=
  fun node hnode => Or.inl (h.repeated_named node hnode).1

theorem filler_leaf (value : String) (offset : Nat) : Filler [.literal value offset] := by
  intro node hnode
  rw [List.mem_singleton.1 hnode]
  exact Or.inr rfl

theorem Filler.append {nodes nodes' : List Node} (h : Filler nodes) (h' : Filler nodes') :
    Filler (nodes ++ nodes') := by
  intro node hnode
  rcases List.mem_append.1 hnode with hnode | hnode
  · exact h node hnode
  · exact h' node hnode

def parts : List String := ["alternation", "concatenation", "repetition", "quoted-string"]

theorem Filler.isNamed {nodes : List Node} (h : Filler nodes) {name : String}
    (hname : name ∈ parts) : ∀ node ∈ nodes, node.isNamed name = false := by
  have hchecked : (∀ name ∈ parts, sameName "c-wsp" name = false) ∧
      ∀ name ∈ parts, sameName Node.leafName name = false := by
    decide +kernel
  intro node hnode
  rw [Node.isNamed]
  rcases h node hnode with heq | heq
  · rw [heq, hchecked.1 name hname]
  · rw [heq, hchecked.2 name hname]

theorem sameName_self (name : String) : sameName name name = true := beq_self_eq_true _

section
variable {α : Type} {builder : Builder α} {nodes rest : List Node}

theorem readBranches_skip (h : Filler nodes) :
    readBranches builder (nodes ++ rest) = readBranches builder rest := by
  have hnamed := h.isNamed (show "concatenation" ∈ parts by decide)
  clear h
  induction nodes with
  | nil => rfl
  | cons node nodes ih =>
    rw [List.cons_append, readBranches, hnamed node List.mem_cons_self,
      ih fun other hother => hnamed other (List.mem_cons_of_mem _ hother)]
    rfl

theorem readItems_skip (h : Filler nodes) :
    readItems builder (nodes ++ rest) = readItems builder rest := by
  have hnamed := h.isNamed (show "repetition" ∈ parts by decide)
  clear h
  induction nodes with
  | nil => rfl
  | cons node nodes ih =>
    rw [List.cons_append, readItems, hnamed node List.mem_cons_self,
      ih fun other hother => hnamed other (List.mem_cons_of_mem _ hother)]
    rfl

theorem readBracketed_skip {missing : GrammarError} (h : Filler nodes) :
    readBracketed builder missing (nodes ++ rest) = readBracketed builder missing rest := by
  have hnamed := h.isNamed (show "alternation" ∈ parts by decide)
  clear h
  induction nodes with
  | nil => rfl
  | cons node nodes ih =>
    rw [List.cons_append, readBracketed, hnamed node List.mem_cons_self,
      ih fun other hother => hnamed other (List.mem_cons_of_mem _ hother)]
    rfl

end

abbrev Reads (held : Set Parser) {α : Type} (reading : Reading α)
    (outcome : Except GrammarError α) : Prop :=
  Edit.Gives held reading.run outcome

section
variable {held : Set Parser} {α β : Type}

theorem Reads.bind {reading : Reading α} {outcome : Except GrammarError α} {next : α → Reading β}
    {outcome' : α → Except GrammarError β} (h : Reads held reading outcome)
    (hnext : ∀ a, outcome = .ok a → Reads held (next a) (outcome' a)) :
    Reads held (reading >>= next) (outcome >>= outcome') := by
  cases outcome with
  | ok a => exact Edit.Gives.andThen h (hnext a rfl)
  | error error => exact Edit.Gives.andThrow h

theorem reads_pure (a : α) : Reads held (pure a) (pure a) := Edit.Gives.done a

theorem reads_lift (outcome : Except GrammarError α) : Reads held (liftM outcome) outcome :=
  Edit.Gives.ofExcept outcome

theorem reads_ok {a : α} {next : α → Reading β} {outcome : Except GrammarError β}
    (h : Reads held (next a) outcome) :
    Reads held (liftM (.ok a : Except GrammarError α) >>= next) outcome :=
  Edit.Gives.andThen (reads_lift (.ok a)) h

theorem reads_throw (error : GrammarError) :
    Reads (α := α) held (throw error) (.error error) :=
  Edit.Gives.throw error

theorem reads_collapse {combine : List Expression → Expression} {context : String} {node : Node}
    {items : List Expression} (h : items ≠ []) :
    Reads held (collapse (fun items => pure (combine items)) context node items)
      (pure (collapsed combine items)) := by
  cases items with
  | nil => exact absurd rfl h
  | cons item items =>
    cases items with
    | nil => exact reads_pure _
    | cons next items => exact reads_pure _

end

section
variable {cs : List Char} {nodes : List Node}

theorem dropBytes_one {c : Char} (hc : byteLength [c] = 1) (cs : List Char) :
    dropBytes 1 (c :: cs) = some cs :=
  dropBytes_eq_some_iff.2 ⟨[c], rfl, hc⟩

theorem readCharVal_of_form {form : Node} {leaves : List Node} {quoted text : List Char}
    (hleaves : Filler leaves) (hform : ∃ nodes, form.children = leaves ++ nodes ∧
      Yields Standard.rules (.name "quoted-string") quoted nodes)
    (hquoted : quoted = '"' :: text ++ ['"']) :
    readCharVal (.rule "char-val" [form]) =
      .ok ⟨.text (String.ofList text), form.isNamed "case-sensitive-string"⟩ := by
  obtain ⟨nodes, hchildren, hyields⟩ := hform
  obtain ⟨body, children, -, rfl, -⟩ := hyields.exists_of_name
  have hvalue : (Node.rule "quoted-string" children).value = String.ofList quoted := by
    have h := hyields.value_eq
    rwa [Node.valueOfAll, Node.valueOfAll, String.append_empty] at h
  have hchild : form.child? "quoted-string" = some (.rule "quoted-string" children) := by
    have hnone : leaves.find? (·.isNamed "quoted-string") = none := by
      rw [List.find?_eq_none]
      intro node hnode
      simp [hleaves.isNamed (show "quoted-string" ∈ parts by decide) node hnode]
    have hsome : (Node.rule "quoted-string" children).isNamed "quoted-string" = true :=
      sameName_self _
    rw [Node.child?, hchildren, List.find?_append, hnone, Option.none_or, List.find?_cons, hsome]
  rw [readCharVal]
  simp only [Node.children, hchild, Option.bind_some, hvalue, String.toList_ofList]
  rw [hquoted, between_eq]

/-- A quoted text in any of its forms. -/
theorem readCharVal_of_yields (h : Yields Standard.rules (.name "char-val") cs nodes) :
    ∃ quotation text node, nodes = [node] ∧ node.name = "char-val" ∧
      (Element.quoted quotation text).Spelled cs ∧
      readCharVal node = .ok ⟨.text (String.ofList text), quotation = .sensitive⟩ := by
  obtain ⟨body, children, hbody, rfl, hyields⟩ := h.exists_of_name
  cases hbody
  cases hyields with
  | choice hmem hform =>
  have hnames : sameName "case-insensitive-string" "case-sensitive-string" = false := by
    decide +kernel
  rcases List.mem_cons.1 hmem with rfl | hmem
  · obtain ⟨body, children, hbody, rfl, hyields⟩ := hform.exists_of_name
    cases hbody
    cases hyields with
    | cons hmark hyields =>
    cases hyields with
    | cons hquoted hyields =>
    cases hyields
    obtain ⟨text, htext, rfl⟩ := accepts_quoted_iff.1 ⟨_, hquoted⟩
    simp only [List.append_nil]
    cases hmark with
    | skipped =>
      refine ⟨.plain, text, _, rfl, rfl, ⟨htext, [], rfl, rfl⟩, ?_⟩
      have hnone : Filler [] := by simp [Filler]
      refine (readCharVal_of_form hnone ⟨_, rfl, hquoted⟩ rfl).trans ?_
      rw [Node.isNamed, Node.name, hnames]
      rfl
    | optional hmark =>
      obtain ⟨c, hc, rfl⟩ := (accepts_marked_iff '%' 'i' rfl (by decide)
        (by decide)).1 ⟨_, hmark⟩
      obtain ⟨offset, rfl⟩ := hmark.exists_leaf
      refine ⟨.insensitive, text, _, rfl, rfl, ⟨htext, ['%', c], ?_, rfl⟩, ?_⟩
      · rcases hc with rfl | rfl
        · exact Or.inl rfl
        · exact Or.inr rfl
      · refine (readCharVal_of_form (filler_leaf _ _) ⟨_, rfl, hquoted⟩ rfl).trans ?_
        rw [Node.isNamed, Node.name, hnames]
        rfl
  · rw [List.mem_singleton.1 hmem] at hform
    obtain ⟨body, children, hbody, rfl, hyields⟩ := hform.exists_of_name
    cases hbody
    cases hyields with
    | cons hmark hyields =>
    cases hyields with
    | cons hquoted hyields =>
    cases hyields
    obtain ⟨text, htext, rfl⟩ := accepts_quoted_iff.1 ⟨_, hquoted⟩
    simp only [List.append_nil]
    obtain ⟨c, hc, rfl⟩ := (accepts_marked_iff '%' 's' rfl (by decide)
      (by decide)).1 ⟨_, hmark⟩
    obtain ⟨offset, rfl⟩ := hmark.exists_leaf
    refine ⟨.sensitive, text, _, rfl, rfl, ⟨htext, ['%', c], ?_, rfl⟩, ?_⟩
    · rcases hc with rfl | rfl
      · exact Or.inl rfl
      · exact Or.inr rfl
    · refine (readCharVal_of_form (filler_leaf _ _) ⟨_, rfl, hquoted⟩ rfl).trans ?_
      rw [Node.isNamed, Node.name, sameName_self]
      rfl

def radixRule : Radix → String
  | .binary => "bin-val"
  | .decimal => "dec-val"
  | .hexadecimal => "hex-val"

theorem accepts_radixRule_iff {radix : Radix} {cs : List Char} :
    Accepts Standard.rules (.name (radixRule radix)) cs ↔
      ∃ mark, ∃ value : Numeral, radix.Marks mark ∧ value.WellFormed radix ∧
        cs = mark :: value.text := by
  cases radix with
  | binary =>
    exact (accepts_name_iff rfl).trans
      (accepts_numeric_iff .binary 'b' rfl (by decide) single_bit)
  | decimal =>
    exact (accepts_name_iff rfl).trans
      (accepts_numeric_iff .decimal 'd' rfl (by decide) single_digit)
  | hexadecimal =>
    exact (accepts_name_iff rfl).trans
      (accepts_numeric_iff .hexadecimal 'x' rfl (by decide) single_hexdig)

theorem byteLength_mark {radix : Radix} {mark : Char} (h : radix.Marks mark) :
    byteLength [mark] = 1 := by
  cases radix <;> rcases h with rfl | rfl <;> rfl

theorem radixOf_radixRule (radix : Radix) : radixOf (radixRule radix) = some radix.base := by
  cases radix <;> rfl

theorem readNumVal_of_yields (h : Yields Standard.rules (.name "num-val") cs nodes) :
    ∃ radix value node, nodes = [node] ∧ node.name = "num-val" ∧
      (Element.numeral radix value).Spelled cs ∧ readNumVal node = value.literal radix := by
  obtain ⟨body, children, hbody, rfl, hyields⟩ := h.exists_of_name
  cases hbody
  cases hyields with
  | cons hsign hyields =>
  cases hyields with
  | cons hchoice hyields =>
  cases hyields
  cases hchoice with
  | choice hmem hradix =>
  obtain ⟨rfl, sign, offset, rfl⟩ := hsign.exists_mark (single_mark (e := '%') rfl (by decide))
  rename_i branch
  obtain ⟨radix, rfl⟩ : ∃ radix, branch = .name (radixRule radix) := by
    simp only [List.mem_cons, List.not_mem_nil, or_false] at hmem
    rcases hmem with rfl | rfl | rfl
    · exact ⟨.binary, rfl⟩
    · exact ⟨.decimal, rfl⟩
    · exact ⟨.hexadecimal, rfl⟩
  obtain ⟨mark, value, hmark, hvalue, rfl⟩ := accepts_radixRule_iff.1 ⟨_, hradix⟩
  have htext := hradix.value_eq
  obtain ⟨body, children, -, rfl, -⟩ := hradix.exists_of_name
  rw [Node.valueOfAll, Node.valueOfAll, String.append_empty] at htext
  refine ⟨radix, value, _, rfl, rfl, ⟨hvalue, mark, hmark, by simp⟩, ?_⟩
  rw [readNumVal]
  simp only [Node.children, List.cons_append, List.nil_append, List.append_nil, List.find?_cons,
    Node.isRule, Node.name, radixOf_radixRule, htext, String.toList_ofList,
    dropBytes_one (byteLength_mark hmark)]
  exact readDigits_eq hvalue

theorem readRepeat_of_yields (h : Yields Standard.rules (.name "repeat") cs nodes) :
    ∃ count : Count, ∃ node, nodes = [node] ∧ node.name = "repeat" ∧ count.WellFormed ∧
      cs = count.text ∧ readRepeat node.value = count.bounds := by
  obtain ⟨count, hcount, rfl⟩ := accepts_repeat_iff.1 ⟨_, h⟩
  have hvalue := h.value_eq
  obtain ⟨body, children, -, rfl, -⟩ := h.exists_of_name
  rw [Node.valueOfAll, Node.valueOfAll, String.append_empty] at hvalue
  exact ⟨count, _, rfl, rfl, hcount, rfl, by rw [hvalue, readRepeat_eq hcount]⟩

/-- Prose is looked at as a name first. -/
theorem readProse_of_yields (h : Yields Standard.rules (.name "prose-val") cs nodes) :
    ∃ text node, nodes = [node] ∧ node.name = "prose-val" ∧ (Element.prose text).Spelled cs ∧
      ∀ held mode, Reads held (readProse (.expressions mode) node) (proseExpression mode text) := by
  obtain ⟨text, htext, rfl⟩ := accepts_prose_iff.1 ⟨_, h⟩
  have hvalue := h.value_eq
  obtain ⟨body, children, -, rfl, -⟩ := h.exists_of_name
  rw [Node.valueOfAll, Node.valueOfAll, String.append_empty] at hvalue
  refine ⟨text, _, rfl, rfl, ⟨htext, rfl⟩, fun held mode => ?_⟩
  have hbody : (((between '<' '>' (String.ofList ('<' :: text ++ ['>'])).toList).map
      String.ofList).getD (String.ofList ('<' :: text ++ ['>']))) = String.ofList text := by
    rw [String.toList_ofList, between_eq]
    rfl
  simp only [readProse, hvalue, hbody, proseExpression]
  by_cases hname : IsName text
  · obtain ⟨nodes, hnodes⟩ := accepts_rulename_iff.2 hname
    rw [if_pos hname]
    exact .andThen (.lift (gives_isRuleName (by rwa [String.toList_ofList]))) (reads_pure _)
  · rw [if_neg hname]
    refine .andThen (.lift (gives_isRuleName_false fun nodes hnodes => hname ?_)) ?_
    · rw [String.toList_ofList] at hnodes
      exact accepts_rulename_iff.1 ⟨nodes, hnodes⟩
    · cases mode with
      | reject => exact reads_throw _
      | placeholder => exact reads_pure _

end

def Readable {Form : Type} (name : String) (Spelled : Form → List Char → Prop)
    (read : Builder Expression → Node → Reading Expression)
    (stated : ProseMode → Form → Except GrammarError Expression) (bound : Nat) : Prop :=
  ∀ cs nodes, cs.length < bound → Yields Standard.rules (.name name) cs nodes →
    ∃ form node, nodes = [node] ∧ node.name = name ∧ Spelled form cs ∧
      ∀ held mode, Reads held (read (.expressions mode) node) (stated mode form)

section
variable {cs : List Char} {nodes : List Node} {bound : Nat}

theorem readInner_rulename (h : Yields Standard.rules (.name "rulename") cs nodes) :
    ∃ node, nodes = [node] ∧ ∀ mode,
      readInner (.expressions mode) node = pure (.name (String.ofList cs)) := by
  have hvalue := h.value_eq
  obtain ⟨body, children, -, rfl, -⟩ := h.exists_of_name
  refine ⟨_, rfl, fun mode => ?_⟩
  rw [readInner, if_pos rfl, ← hvalue]
  simp [Node.valueOfAll, Builder.expressions]

theorem readInner_bracketed (hchoice : Readable "alternation" Choice.Spelled readAlternation
    (fun mode choice => choice.expression mode) bound) {opening closing : String}
    {left right : Char}
    (hleft : Single Standard.rules (.text opening) (· = left))
    (hright : Single Standard.rules (.text closing) (· = right))
    (hlength : cs.length ≤ bound)
    (h : Yields Standard.rules (Standard.bracketed opening closing) cs nodes) :
    ∃ gaps inner gaps', ∃ choice : Choice, Gaps gaps ∧ choice.Spelled inner ∧ Gaps gaps' ∧
      cs = left :: (gaps ++ inner ++ gaps' ++ [right]) ∧ ∀ held mode missing,
        Reads held (readBracketed (.expressions mode) missing nodes) (choice.expression mode) := by
  cases h with
  | cons hopen h =>
  cases h with
  | cons hgaps h =>
  cases h with
  | cons halternation h =>
  cases h with
  | cons hgaps' h =>
  cases h with
  | cons hclose h =>
  cases h
  obtain ⟨rfl, value, offset, rfl⟩ := hopen.exists_mark hleft
  obtain ⟨rfl, value', offset', rfl⟩ := hclose.exists_mark hright
  obtain ⟨choice, node, rfl, hname, hspelled, hreads⟩ :=
    hchoice _ _ (by simp at hlength; omega) halternation
  refine ⟨_, _, _, choice, hgaps.gaps, hspelled, hgaps'.gaps, by simp, fun held mode missing => ?_⟩
  have hnamed : node.isNamed "alternation" = true := by rw [Node.isNamed, hname, sameName_self]
  have hread := hreads held mode
  rw [readBracketed_skip (filler_leaf value offset), readBracketed_skip (filler_of_repeated hgaps),
    List.cons_append, readBracketed, if_pos hnamed]
  exact hread

theorem readable_element (hchoice : Readable "alternation" Choice.Spelled readAlternation
    (fun mode choice => choice.expression mode) bound) :
    Readable "element" Element.Spelled readElement (fun mode element => element.expression mode)
      (bound + 1) := by
  intro cs nodes hlength h
  have hlength : cs.length ≤ bound := Nat.le_of_lt_succ hlength
  obtain ⟨body, children, hbody, rfl, hyields⟩ := h.exists_of_name
  cases hbody
  cases hyields with
  | choice hmem h =>
  simp only [List.mem_cons, List.not_mem_nil, or_false] at hmem
  rcases hmem with rfl | rfl | rfl | rfl | rfl | rfl
  case inl =>
    have hname := accepts_rulename_iff.1 ⟨_, h⟩
    obtain ⟨node, rfl, hread⟩ := readInner_rulename h
    refine ⟨.name cs, _, rfl, rfl, ⟨hname, rfl⟩, fun held mode => ?_⟩
    rw [readElement, hread]
    exact reads_pure _
  case inr.inl =>
    obtain ⟨body, children, hbody, rfl, hyields⟩ := h.exists_of_name
    cases hbody
    obtain ⟨gaps, inner, gaps', choice, hgaps, hspelled, hgaps', rfl, hreads⟩ :=
      readInner_bracketed hchoice (single_mark (e := '(') rfl (by decide))
        (single_mark (e := ')') rfl (by decide)) hlength hyields
    refine ⟨.group choice, _, rfl, rfl, ⟨gaps, inner, gaps', hgaps, hspelled, hgaps', rfl⟩,
      fun held mode => ?_⟩
    simp only [readElement, readInner]
    exact hreads held mode _
  case inr.inr.inl =>
    obtain ⟨body, children, hbody, rfl, hyields⟩ := h.exists_of_name
    cases hbody
    obtain ⟨gaps, inner, gaps', choice, hgaps, hspelled, hgaps', rfl, hreads⟩ :=
      readInner_bracketed hchoice (single_mark (e := '[') rfl (by decide))
        (single_mark (e := ']') rfl (by decide)) hlength hyields
    refine ⟨.option choice, _, rfl, rfl, ⟨gaps, inner, gaps', hgaps, hspelled, hgaps', rfl⟩,
      fun held mode => ?_⟩
    have hread := (hreads held mode (unexpected "option" (.rule "option" children))).bind
      fun inner _ => reads_pure (Expression.optional inner)
    simp only [readElement, readInner, Element.expression]
    rw [Choice.expression, bind_assoc] at hread
    exact hread
  case inr.inr.inr.inl =>
    obtain ⟨quotation, text, node, rfl, hname, hspelled, hread⟩ := readCharVal_of_yields h
    refine ⟨.quoted quotation text, _, rfl, rfl, hspelled, fun held mode => ?_⟩
    obtain ⟨body, children, -, hnode, -⟩ := h.exists_of_name
    cases hnode
    simp only [readElement, readInner, hread, Element.expression]
    exact (reads_lift (.ok _)).bind fun _ _ => reads_pure _
  case inr.inr.inr.inr.inl =>
    obtain ⟨radix, value, node, rfl, hname, hspelled, hread⟩ := readNumVal_of_yields h
    refine ⟨.numeral radix value, _, rfl, rfl, hspelled, fun held mode => ?_⟩
    obtain ⟨body, children, -, hnode, -⟩ := h.exists_of_name
    cases hnode
    simp only [readElement, readInner, hread, Element.expression]
    exact (reads_lift _).bind fun _ _ => reads_pure _
  case inr.inr.inr.inr.inr =>
    obtain ⟨text, node, rfl, hname, hspelled, hreads⟩ := readProse_of_yields h
    refine ⟨.prose text, _, rfl, rfl, hspelled, fun held mode => ?_⟩
    obtain ⟨body, children, -, hnode, -⟩ := h.exists_of_name
    cases hnode
    simp only [readElement, readInner]
    exact hreads held mode

theorem readable_item (helement : Readable "element" Element.Spelled readElement
    (fun mode element => element.expression mode) bound) :
    Readable "repetition" Item.Spelled readRepetition (fun mode item => item.expression mode)
      bound := by
  intro cs nodes hlength h
  obtain ⟨body, children, hbody, rfl, hyields⟩ := h.exists_of_name
  cases hbody
  cases hyields with
  | cons hcount hyields =>
  cases hyields with
  | cons hyields hnil =>
  cases hnil
  obtain ⟨element, node, rfl, hname, hspelled, hreads⟩ :=
    helement _ _ (by simp at hlength; omega) hyields
  have hnamed : node.isNamed "element" = true := by rw [Node.isNamed, hname, sameName_self]
  cases hcount with
  | skipped =>
    refine ⟨.once element, _, rfl, rfl, by simpa [Item.Spelled] using hspelled, fun held mode => ?_⟩
    have hchild : Node.child? (.rule "repetition" [node]) "repeat" = none := by
      have hother : sameName "element" "repeat" = false := by decide +kernel
      simp [Node.child?, Node.children, Node.isNamed, hname, hother]
    have hread := (hreads held mode).bind fun element _ =>
      (reads_pure element : Reads held _ _)
    simp only [List.nil_append, List.append_nil, readRepetition, readElementAmong, hnamed,
      if_true, hchild, Item.expression]
    simpa using hread
  | optional hcount =>
    obtain ⟨count, counted, rfl, hcounted, hwell, rfl, hcountRead⟩ := readRepeat_of_yields hcount
    refine ⟨.repeated count element, _, rfl, rfl, ⟨hwell, _, hspelled, by simp⟩,
      fun held mode => ?_⟩
    have hother : sameName "repeat" "element" = false := by decide +kernel
    have hchild : Node.child? (.rule "repetition" [counted, node]) "repeat" = some counted := by
      simp [Node.child?, Node.children, Node.isNamed, hcounted, sameName_self]
    have hskip : counted.isNamed "element" = false := by rw [Node.isNamed, hcounted, hother]
    simp only [List.cons_append, List.nil_append, readRepetition, readElementAmong,
      hnamed, hskip, if_true, hchild, Item.expression, hcountRead]
    exact (hreads held mode).bind fun element _ =>
      (reads_lift count.bounds).bind fun bounds _ => reads_pure _

theorem row_of_rest (hitem : Readable "repetition" Item.Spelled readRepetition
    (fun mode item => item.expression mode) bound) {count : Nat} {first others : List Char}
    {nodes nodes' : List Node} (hlength : (first ++ others).length < bound)
    (hfirst : Yields Standard.rules (.name "repetition") first nodes)
    (hothers : Yields Standard.rules (.sequence (List.replicate count
      (.sequence [plus (.name "c-wsp"), .name "repetition"]))) others nodes') :
    ∃ row : Row, row.Spelled (first ++ others) ∧ ∀ held mode,
      Reads held (readItems (.expressions mode) (nodes ++ nodes')) (row.expressions mode) := by
  induction count generalizing first others nodes nodes' with
  | zero =>
    cases hothers
    obtain ⟨item, node, rfl, hname, hspelled, hreads⟩ :=
      hitem _ _ (by simpa using hlength) hfirst
    have hnamed : node.isNamed "repetition" = true := by rw [Node.isNamed, hname, sameName_self]
    refine ⟨.last item, by simpa [Row.Spelled] using hspelled, fun held mode => ?_⟩
    simp only [List.append_nil, readItems, hnamed, if_true, Row.expressions]
    exact (hreads held mode).bind fun item _ => reads_pure _
  | succ count ih =>
    rw [List.replicate_succ] at hothers
    cases hothers with
    | cons hnext hothers =>
    cases hnext with
    | cons hgaps hnext =>
    cases hnext with
    | cons hnext hnil =>
    cases hnil
    simp only [List.append_nil] at hlength ⊢
    obtain ⟨item, node, rfl, hname, hspelled, hreads⟩ :=
      hitem _ _ (by simp at hlength; omega) hfirst
    have hnamed : node.isNamed "repetition" = true := by rw [Node.isNamed, hname, sameName_self]
    obtain ⟨row, hrow, hrest⟩ := ih (by simp at hlength ⊢; omega) hnext hothers
    obtain ⟨hspread, hne⟩ := hgaps.spread
    refine ⟨.more item row, ⟨_, _, _, hspelled, hspread, hne, hrow, by simp⟩, fun held mode => ?_⟩
    simp only [List.append_assoc, List.cons_append, List.nil_append, readItems, hnamed, if_true,
      readItems_skip (filler_of_repeated hgaps), Row.expressions]
    exact (hreads held mode).bind fun item _ => (hrest held mode).bind fun items _ => reads_pure _

theorem readable_row (hitem : Readable "repetition" Item.Spelled readRepetition
    (fun mode item => item.expression mode) bound) :
    Readable "concatenation" Row.Spelled readConcatenation (fun mode row => row.expression mode)
      bound := by
  intro cs nodes hlength h
  obtain ⟨body, children, hbody, rfl, hyields⟩ := h.exists_of_name
  cases hbody
  cases hyields with
  | cons hfirst hyields =>
  cases hyields with
  | cons hothers hnil =>
  cases hnil
  cases hothers with
  | repeated count _ _ hothers =>
  simp only [List.append_nil] at hlength ⊢
  obtain ⟨row, hspelled, hreads⟩ := row_of_rest hitem hlength hfirst hothers
  refine ⟨row, _, rfl, rfl, hspelled, fun held mode => ?_⟩
  simp only [readConcatenation]
  exact (hreads held mode).bind fun items hitems =>
    reads_collapse (Row.expressions_ne_nil hitems)

theorem choice_of_rest (hrow : Readable "concatenation" Row.Spelled readConcatenation
    (fun mode row => row.expression mode) bound) {count : Nat} {first others : List Char}
    {nodes nodes' : List Node} (hlength : (first ++ others).length < bound)
    (hfirst : Yields Standard.rules (.name "concatenation") first nodes)
    (hothers : Yields Standard.rules (.sequence (List.replicate count
      (.sequence [star (.name "c-wsp"), text "/",
      star (.name "c-wsp"), .name "concatenation"]))) others nodes') :
    ∃ choice : Choice, choice.Spelled (first ++ others) ∧ ∀ held mode,
      Reads held (readBranches (.expressions mode) (nodes ++ nodes')) (choice.expressions mode) := by
  induction count generalizing first others nodes nodes' with
  | zero =>
    cases hothers
    obtain ⟨row, node, rfl, hname, hspelled, hreads⟩ :=
      hrow _ _ (by simpa using hlength) hfirst
    have hnamed : node.isNamed "concatenation" = true := by
      rw [Node.isNamed, hname, sameName_self]
    refine ⟨.last row, by simpa [Choice.Spelled] using hspelled, fun held mode => ?_⟩
    have hread := (hreads held mode).bind fun row _ =>
      (reads_pure [row] : Reads held _ _)
    simp only [List.append_nil, readBranches, hnamed, if_true, Choice.expressions]
    simp only [Row.expression, bind_assoc, pure_bind] at hread
    simpa using hread
  | succ count ih =>
    rw [List.replicate_succ] at hothers
    cases hothers with
    | cons hnext hothers =>
    cases hnext with
    | cons hgaps hnext =>
    cases hnext with
    | cons hslash hnext =>
    cases hnext with
    | cons hgaps' hnext =>
    cases hnext with
    | cons hnext hnil =>
    cases hnil
    simp only [List.append_nil] at hlength ⊢
    obtain ⟨rfl, value, offset, rfl⟩ := hslash.exists_mark (single_mark (e := '/') rfl (by decide))
    obtain ⟨row, node, rfl, hname, hspelled, hreads⟩ :=
      hrow _ _ (by simp at hlength; omega) hfirst
    have hnamed : node.isNamed "concatenation" = true := by
      rw [Node.isNamed, hname, sameName_self]
    obtain ⟨choice, hchoice, hrest⟩ := ih (by simp at hlength ⊢; omega) hnext hothers
    refine ⟨.more row choice, ⟨_, _, _, _, hspelled, hgaps.gaps, hgaps'.gaps, hchoice, by simp⟩,
      fun held mode => ?_⟩
    have hread := (hreads held mode).bind fun row _ => (hrest held mode).bind fun rows _ =>
      reads_pure (row :: rows)
    have hfiller := ((filler_of_repeated hgaps).append (filler_leaf value offset)).append
      (filler_of_repeated hgaps')
    simp only [Row.expression, bind_assoc, pure_bind] at hread
    simp only [List.cons_append, List.nil_append, readBranches, hnamed, if_true,
      Choice.expressions]
    have hskip (rest : List Node) := (readBranches_skip hfiller :
      readBranches (.expressions mode) (_ ++ rest) = _)
    simp only [List.append_assoc, List.cons_append, List.nil_append] at hskip ⊢
    simp only [hskip]
    exact hread

theorem readable_choice (hrow : Readable "concatenation" Row.Spelled readConcatenation
    (fun mode row => row.expression mode) bound) :
    Readable "alternation" Choice.Spelled readAlternation
      (fun mode choice => choice.expression mode) bound := by
  intro cs nodes hlength h
  obtain ⟨body, children, hbody, rfl, hyields⟩ := h.exists_of_name
  cases hbody
  cases hyields with
  | cons hfirst hyields =>
  cases hyields with
  | cons hothers hnil =>
  cases hnil
  cases hothers with
  | repeated count _ _ hothers =>
  simp only [List.append_nil] at hlength ⊢
  obtain ⟨choice, hspelled, hreads⟩ := choice_of_rest hrow hlength hfirst hothers
  refine ⟨choice, _, rfl, rfl, hspelled, fun held mode => ?_⟩
  simp only [readAlternation]
  exact (hreads held mode).bind fun items hitems =>
    reads_collapse (Choice.expressions_ne_nil hitems)

theorem readable_alternation (bound : Nat) :
    Readable "alternation" Choice.Spelled readAlternation
      (fun mode choice => choice.expression mode) bound := by
  induction bound with
  | zero => exact fun cs _ hlength => absurd hlength (Nat.not_lt_zero _)
  | succ bound ih => exact readable_choice (readable_row (readable_item (readable_element ih)))

end

end RuleText

end Metasyntax
