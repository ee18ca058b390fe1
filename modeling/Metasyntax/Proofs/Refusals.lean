import Metasyntax.Proofs.Rulelists

/-!
# What loading can fail with

A text may not be rule text, and what it states may be refused: prose where it is not allowed,
and numbers that are out of range. As long as the standard grammars are left alone, loading
fails for no other reason. Whatever tree rule text is parsed as can be read, and all rules that
it is parsed with are bound.
-/

set_option autoImplicit false

namespace Metasyntax

def GrammarError.Refuses (mode : ProseMode) : GrammarError → Prop
  | .proseVal _ => mode = .reject
  | .invalidRepeat _ | .invalidNumVal _ => True
  | .undefinedRule _ | .danglingRule _ | .unexpectedNode _ _ | .leftRecursion _ => False

def Failure.Refuses (mode : ProseMode) : Failure → Prop
  | .parse _ => True
  | .grammar error => error.Refuses mode

def FailsOnly {ε α : Type} (kind : ε → Prop) (result : Except ε α) : Prop :=
  ∀ error, result = .error error → kind error

namespace FailsOnly

variable {ε α β : Type} {kind : ε → Prop}

theorem ok (a : α) : FailsOnly kind (.ok a : Except ε α) := nofun

theorem error {error : ε} (h : kind error) : FailsOnly kind (.error error : Except ε α) :=
  fun _ heq => Except.error.inj heq ▸ h

theorem bind {result : Except ε α} {next : α → Except ε β} (h : FailsOnly kind result)
    (hnext : ∀ a, FailsOnly kind (next a)) : FailsOnly kind (result >>= next) := by
  cases result with
  | ok a => exact hnext a
  | error error => exact .error (h error rfl)

theorem compositional : Compositional (Except ε) fun {_} => FailsOnly kind where
  done := ok
  andThen := bind

theorem mapM {f : α → Except ε β} (h : ∀ a, FailsOnly kind (f a)) (items : List α) :
    FailsOnly kind (items.mapM f) :=
  compositional.mapM h items

end FailsOnly

namespace Notation

variable {mode : ProseMode}

theorem failsOnly_character (radix : Radix) (digits : List Char) :
    FailsOnly (GrammarError.Refuses mode) (radix.character digits) := by
  rw [Radix.character]
  split
  · exact .ok _
  · exact .error trivial

theorem failsOnly_literal (radix : Radix) (value : Numeral) :
    FailsOnly (GrammarError.Refuses mode) (value.literal radix) := by
  cases value with
  | series first rest =>
    exact (FailsOnly.mapM (failsOnly_character radix) (first :: rest)).bind fun _ => .ok _
  | range first last =>
    exact (failsOnly_character radix first).bind fun _ =>
      (failsOnly_character radix last).bind fun _ => .ok _

theorem failsOnly_bound (count : Count) (digits : List Char) :
    FailsOnly (GrammarError.Refuses mode) (count.bound digits) := by
  rw [Count.bound]
  split_ifs
  · exact .ok _
  · exact .ok _
  · exact .error trivial

theorem failsOnly_bounds (count : Count) :
    FailsOnly (GrammarError.Refuses mode) count.bounds := by
  cases count with
  | exactly digits => exact (failsOnly_bound _ digits).bind fun _ => .ok _
  | between least most =>
    refine (failsOnly_bound _ least).bind fun least' => (failsOnly_bound _ most).bind fun most' => ?_
    dsimp only
    split
    · exact .error trivial
    · exact .ok _

theorem failsOnly_prose (text : List Char) :
    FailsOnly (GrammarError.Refuses mode) (proseExpression mode text) := by
  by_cases hname : IsName text
  · rw [show proseExpression mode text = .ok (.name (String.ofList text)) from if_pos hname]
    exact .ok _
  · rw [show proseExpression mode text = _ from if_neg hname]
    cases mode with
    | reject => exact .error rfl
    | placeholder => exact .ok _

mutual
theorem Element.failsOnly : (element : Element) →
    FailsOnly (GrammarError.Refuses mode) (element.expression mode)
  | .name _ => .ok _
  | .group choice => choice.failsOnly.bind fun _ => .ok _
  | .option choice => choice.failsOnly.bind fun _ => .ok _
  | .quoted _ _ => .ok _
  | .numeral radix value => (failsOnly_literal radix value).bind fun _ => .ok _
  | .prose text => failsOnly_prose text

theorem Item.failsOnly : (item : Item) →
    FailsOnly (GrammarError.Refuses mode) (item.expression mode)
  | .once element => element.failsOnly
  | .repeated count element =>
    element.failsOnly.bind fun _ => (failsOnly_bounds count).bind fun _ => .ok _

theorem Row.failsOnly : (row : Row) →
    FailsOnly (GrammarError.Refuses mode) (row.expressions mode)
  | .last item => item.failsOnly.bind fun _ => .ok _
  | .more item rest => item.failsOnly.bind fun _ => rest.failsOnly.bind fun _ => .ok _

theorem Choice.failsOnly : (choice : Choice) →
    FailsOnly (GrammarError.Refuses mode) (choice.expressions mode)
  | .last row => row.failsOnly.bind fun _ => .ok _
  | .more row rest => row.failsOnly.bind fun _ => rest.failsOnly.bind fun _ => .ok _
end

theorem Rule.failsOnly (rule : Rule) :
    FailsOnly (GrammarError.Refuses mode) (rule.production mode) := by
  rw [Rule.production, Choice.expression]
  exact (rule.body.failsOnly.bind fun _ => .ok _).bind fun _ => .ok _

end Notation

namespace RuleText

variable {held : Set Parser}

/-- Any text is read as the rule that it begins with, or fails to parse. -/
theorem gives_parseRule_or_fails (text : String) :
    (∃ node rule, ReadsAs node rule ∧ Edit.Gives held (parseRule text).run (.ok node)) ∨
      ∃ failure, Edit.Gives held (parseRule text).run (.error (.parse failure)) := by
  obtain ⟨rule, hrule, hlocal, hname⟩ :=
    Standard.exists_entry (show "rule" ∈ RuleText.entries by decide)
  obtain ⟨attempt, hattempt, hreports⟩ :=
    Standard.hosts.ruleMatches_reports Standard.ranked hrule (.ofString (terminated text))
      (Source.rest_zero _)
  rw [hname] at hreports
  have hparse : Edit.Gives held _ _ := Standard.gives_parse hrule (.ofString (terminated text))
  let parse (catalog : Catalog) (rule : RuleId) : Run (Except ParseError (Node × Nat)) :=
    catalog.parse rule (.ofString (terminated text)) 0
  rcases Catalog.parse_of_reports hattempt hreports with
    ⟨node, taken, after, -, hyields, heq, -⟩ | ⟨⟨failure, heq⟩, -⟩
  · rw [heq] at hparse
    obtain ⟨rule', node', hnode, -, -, hreads⟩ := rule_of_yields hyields
    cases hnode
    exact Or.inl ⟨node, rule', hreads, .andThen (gives_parseText hlocal parse hparse) (.done node)⟩
  · rw [heq] at hparse
    exact Or.inr ⟨failure, .andThrow (gives_parseText hlocal parse hparse)⟩

/-- Texts are read one by one, up to the first that fails to parse. -/
theorem gives_mapM_parseRule_or_fails (texts : List String) :
    (∃ nodes rules, List.Forall₂ ReadsAs nodes rules ∧
        Edit.Gives held (texts.mapM parseRule).run (.ok nodes)) ∨
      ∃ failure, Edit.Gives held (texts.mapM parseRule).run (.error (.parse failure)) := by
  induction texts with
  | nil => exact Or.inl ⟨[], [], .nil, .done []⟩
  | cons text texts ih =>
    rw [List.mapM_cons]
    rcases gives_parseRule_or_fails text with ⟨node, rule, hreads, hgives⟩ | ⟨failure, hgives⟩
    · rcases ih with ⟨nodes, rules, hall, hrest⟩ | ⟨failure, hrest⟩
      · exact Or.inl ⟨_, _, .cons hreads hall, .andThen hgives (.andThen hrest (.done _))⟩
      · exact Or.inr ⟨failure, .andThen hgives (.andThrow hrest)⟩
    · exact Or.inr ⟨failure, .andThrow hgives⟩

theorem gives_parseRules_or_fails (text : String) :
    (∃ nodes rules, List.Forall₂ ReadsAs nodes rules ∧
        Edit.Gives held (parseRules text).run (.ok nodes)) ∨
      ∃ failure, Edit.Gives held (parseRules text).run (.error (.parse failure)) := by
  rcases gives_parseRules text with ⟨node, hyields, hgives⟩ | ⟨hfails, -⟩
  · obtain ⟨rules, -, hreads⟩ := rulelist_of_yields hyields
    exact Or.inl ⟨_, rules, hreads, hgives⟩
  · exact Or.inr hfails

/-- Where reading gives nodes that are read as rules or fails to parse, what is made of the nodes
is refused for what they state at most. -/
theorem compile_refuses {reading : Loading (List Node)} (id : GrammarId) {store : Store}
    (hstore : store.Faithful held)
    (h : (∃ nodes rules, List.Forall₂ ReadsAs nodes rules ∧
        Edit.Gives held reading.run (.ok nodes)) ∨
      ∃ failure, Edit.Gives held reading.run (.error (.parse failure))) :
    FailsOnly (Failure.Refuses (store.catalog.grammar id).options.prose)
      ((reading >>= compile id).run store).1 := by
  rcases h with ⟨nodes, rules, hreads, hgives⟩ | ⟨failure, hgives⟩
  · obtain ⟨parsed, hparse, halike, hfaithful⟩ := hgives store hstore
    obtain ⟨read, -, hbind⟩ := compile_of_readsAs hreads id hfaithful
    rw [Edit.run_bind_ok hparse, hbind, halike.catalog]
    have hrule (rule : Notation.Rule) :
        FailsOnly (GrammarError.Refuses (store.catalog.grammar id).options.prose)
          (rule.production (store.catalog.grammar id).options.prose) := rule.failsOnly
    have hproductions := FailsOnly.mapM hrule rules
    cases hstated : rules.mapM (·.production (store.catalog.grammar id).options.prose) with
    | ok productions => exact .ok _
    | error error => exact .error (hproductions error hstated)
  · obtain ⟨parsed, hparse, -⟩ := hgives store hstore
    rw [Edit.run_bind_error hparse]
    exact .error trivial

/-- A text of one rule is bound to one rule, so there is a last one. -/
theorem createRule_refuses (id : GrammarId) {store : Store} (hstore : store.Faithful held)
    (text : String) : FailsOnly (Failure.Refuses (store.catalog.grammar id).options.prose)
      ((Loading.createRule id text).run store).1 := by
  rcases gives_parseRule_or_fails text with ⟨node, rule, hreads, hgives⟩ | ⟨failure, hgives⟩
  · obtain ⟨parsed, hparse, halike, hfaithful⟩ := hgives store hstore
    obtain ⟨read, -, hbind⟩ := compile_of_readsAs (.cons hreads .nil) id hfaithful
    rw [Loading.createRule, Edit.run_bind_ok hparse]
    rw [halike.catalog, List.mapM_cons] at hbind
    cases hstated : rule.production (store.catalog.grammar id).options.prose with
    | error error =>
      rw [hstated] at hbind
      rw [Edit.run_bind_error hbind]
      exact .error (rule.failsOnly error hstated)
    | ok production =>
      rw [hstated] at hbind
      change _ = concluded id read (.ok [production]) at hbind
      rw [concluded, Edit.bind_singleton] at hbind
      rw [Edit.run_bind_ok hbind]
      exact .ok _
  · obtain ⟨parsed, hparse, -⟩ := hgives store hstore
    rw [Loading.createRule, Edit.run_bind_error hparse]
    exact .error trivial

end RuleText

/-- Whatever text is loaded into whatever grammar, as one rule, as texts of one rule each or as a
list of rules: where the standard grammars were left alone, loading succeeds, or it fails because
the text does not parse, because of prose where that is rejected, or because of a number. -/
theorem Desk.Untouched.loads_refuse {desk : Desk} (h : desk.Untouched) (id : GrammarId) :
    (∀ text, FailsOnly (Failure.Refuses (desk.store.catalog.grammar id).options.prose)
      ((Loading.createRule id text).run desk.store).1) ∧
    (∀ texts, FailsOnly (Failure.Refuses (desk.store.catalog.grammar id).options.prose)
      ((Loading.loadRules id texts).run desk.store).1) ∧
    ∀ text, FailsOnly (Failure.Refuses (desk.store.catalog.grammar id).options.prose)
      ((Loading.loadRulelist id text).run desk.store).1 := by
  refine ⟨RuleText.createRule_refuses id h.faithful, fun texts => ?_, fun text => ?_⟩
  · exact RuleText.compile_refuses id h.faithful (RuleText.gives_mapM_parseRule_or_fails texts)
  · exact RuleText.compile_refuses id h.faithful (RuleText.gives_parseRules_or_fails text)

/-- Rule texts for a grammar that rejects prose, which never turn out to be malformed. -/
theorem Desk.loads_refuse_drafting : Desk.Untouched ⟨.drafting, ∅⟩ ∧
    (∀ text, FailsOnly (Failure.Refuses .reject)
      ((Loading.createRule ⟨2⟩ text).run .drafting).1) ∧
    ∀ texts context found, ((Loading.loadRules ⟨2⟩ texts).run .drafting).1 ≠
      .error (.grammar (.unexpectedNode context found)) := by
  have hmode := Store.drafting_checked.2.2
  obtain ⟨hcreate, hload, -⟩ := Desk.untouched_drafting.loads_refuse ⟨2⟩
  refine ⟨Desk.untouched_drafting, fun text => hmode ▸ hcreate text, ?_⟩
  exact fun texts context found heq => hload texts _ heq

end Metasyntax
