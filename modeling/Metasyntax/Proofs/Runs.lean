import Mathlib.Logic.Relation
import Metasyntax.Proofs.Collection
import Metasyntax.Proofs.Loads

/-!
# Runs of parses and edits

A program holds parsers and works on a store. Whatever it does to the rules of one
grammar, in whatever order with parses, a parse of that grammar answers what it would
answer without caches, as long as the other grammars that it refers to do not refer
back to it and do not use an alternation whose mode the program sets.
-/

set_option autoImplicit false

namespace Metasyntax

/-- A store, and the parsers that a program holds. -/
structure Desk where
  store : Store
  held : Set Parser

namespace Desk

def edit (desk : Desk) {α : Type} (edit : Edit α) : Desk := ⟨(edit desk.store).2, desk.held⟩

def make (desk : Desk) (edit : Edit Parser) : Desk :=
  ⟨(edit desk.store).2, insert (edit desk.store).1 desk.held⟩

def hold (desk : Desk) (parser : Parser) : Desk := ⟨desk.store, insert parser desk.held⟩

inductive Uses (desk : Desk) : Desk → Prop where
  | parse (rule : RuleId) (source : Source) (start : Nat) :
    Uses desk (desk.edit (Edit.parsing (·.parse rule source start)))
  | parseAll (rule : RuleId) (source : Source) :
    Uses desk (desk.edit (Edit.parsing (·.parseAll rule source)))
  | ruleMatches (rule : RuleId) (source : Source) (start : Nat) :
    Uses desk (desk.edit (Edit.parsing (·.ruleMatches rule source start)))
  | clearCaches (id : GrammarId) : Uses desk (desk.edit (Edit.clearCaches id))
  | rule (id : GrammarId) (name : String) : Uses desk (desk.edit (Edit.rule id name))
  | localRule (id : GrammarId) (name : String) : Uses desk (desk.edit (Edit.localRule id name))
  | literal (terminal : Literal) : Uses desk (desk.hold (.literal terminal))
  | prose (text : String) : Uses desk (desk.hold (.prose text))
  | reference (rule : RuleId) : Uses desk (desk.hold (.rule (desk.store.catalog.refer rule)))
  | definition {rule : RuleId} {definition : Parser} (hrule : rule.grammar ∈ desk.store.living)
    (hdefinition : desk.store.catalog.definition? rule = some definition) :
    Uses desk (desk.hold definition)
  | concatenation {parts : List Parser} (hparts : ∀ part ∈ parts, part ∈ desk.held) :
    Uses desk (desk.hold (.concatenation parts))
  | alternation (firstMatch : Bool) {branches : List Parser}
    (hbranches : ∀ branch ∈ branches, branch ∈ desk.held) :
    Uses desk (desk.make (Edit.alternation firstMatch branches))
  | repetition (capacity : Capacity) (bounds : Bounds) {element : Parser}
    (helement : element ∈ desk.held) :
    Uses desk (desk.make (Edit.repetition capacity bounds element))
  | optional (capacity : Capacity) {element : Parser} (helement : element ∈ desk.held) :
    Uses desk (desk.make (Edit.optional capacity element))
  | assemble (id : GrammarId) (options : Options) (expression : Expression) :
    Uses desk (desk.make (Edit.assemble id options expression))

inductive Changes (home : GrammarId) (foreign : Set GrammarId) (desk : Desk) : Desk → Prop where
  | createRule (text : String) :
    Changes home foreign desk (desk.edit (Loading.createRule home text).run)
  | loadRules (texts : List String) :
    Changes home foreign desk (desk.edit (Loading.loadRules home texts).run)
  | loadRulelist (text : String) :
    Changes home foreign desk (desk.edit (Loading.loadRulelist home text).run)
  | define (name : String) {definition : Parser} (hheld : definition ∈ desk.held) :
    Changes home foreign desk (desk.edit (Edit.define home name definition))
  | extend (name : String) {alternative : Parser} (hheld : alternative ∈ desk.held) :
    Changes home foreign desk (desk.edit (Edit.extend home name alternative))
  | setDefinition {rule : RuleId} (hrule : rule.grammar = home) {definition : Parser}
    (hheld : definition ∈ desk.held) :
    Changes home foreign desk (desk.edit (Edit.setDefinition rule definition))
  | addAlternative {rule : RuleId} (hrule : rule.grammar = home) {alternative : Parser}
    (hheld : alternative ∈ desk.held) :
    Changes home foreign desk (desk.edit (Edit.addAlternative rule alternative))
  | importRule (name : String) {source : RuleId} (hsource : source.grammar ∈ desk.store.living) :
    Changes home foreign desk (desk.edit (Edit.importRule home name source))
  | exclude {rule : RuleId} (hrule : rule.grammar = home) (excluded : RuleId) :
    Changes home foreign desk (desk.edit (Edit.exclude rule excluded))
  | clearExclusion {rule : RuleId} (hrule : rule.grammar = home) :
    Changes home foreign desk (desk.edit (Edit.clearExclusion rule))
  | setFirstMatch {rule : RuleId} (hrule : rule.grammar = home) (firstMatch : Bool)
    (hmode : ∀ mode branches,
      desk.store.catalog.definition? rule = some (.alternation mode branches) →
        ∀ branches', .alternation mode branches' ∉ (desk.store.catalog.within foreign).nodes) :
    Changes home foreign desk (desk.edit (Edit.setFirstMatch rule firstMatch))

/-- Whatever a program may come to, starting with nothing. -/
inductive Reached : Desk → Prop where
  | empty : Reached ⟨.empty, ∅⟩
  | uses {desk desk' : Desk} : Reached desk → desk.Uses desk' → Reached desk'
  | changes {desk desk' : Desk} {id : GrammarId} : Reached desk → id ∈ desk.store.living →
    desk.Changes id ∅ desk' → Reached desk'
  | newGrammar {desk : Desk} (name : String) {base : Option GrammarId} (options : Options) :
    Reached desk → (∀ id, base = some id → id ∈ desk.store.living ∧
      id.index < desk.store.catalog.grammars.size) →
    Reached (desk.edit (Edit.newGrammar name base options))
  | collect {desk : Desk} {held : Set Parser} {roots : Roots} : Reached desk →
    held ⊆ desk.held → (∀ parser ∈ held, parser ∈ roots.parsers) →
    Reached ⟨desk.store.collect roots, held⟩

theorem Uses.sane {desk desk' : Desk} (h : desk.Uses desk') (hsane : Sane desk.held desk.store) :
    Sane desk'.held desk'.store := by
  cases h with
  | parse rule source start =>
    exact calm_sane.parsing (fun catalog => respects_parse catalog rule source start) _ hsane
  | parseAll rule source =>
    exact calm_sane.parsing (fun catalog => respects_parseAll catalog rule source) _ hsane
  | ruleMatches rule source start =>
    exact calm_sane.parsing (fun catalog => respects_ruleMatches catalog rule source start) _ hsane
  | clearCaches id => exact (quiet_clearCaches id).sane hsane
  | rule id name => exact (quiet_rule id name).sane hsane
  | localRule id name => exact (quiet_localRule id name).sane hsane
  | literal terminal => exact hsane.hold_leaf rfl rfl fun _ _ heq => by cases heq
  | prose text => exact hsane.hold_leaf rfl rfl fun _ _ heq => by cases heq
  | reference rule => exact hsane.hold_leaf rfl rfl fun _ _ heq => by cases heq
  | definition hrule hdefinition => exact hsane.hold_definition hrule hdefinition
  | concatenation hparts => exact hsane.hold_concatenation hparts
  | alternation firstMatch hbranches => exact (hsane.hold_alternation firstMatch hbranches).2
  | repetition capacity bounds helement => exact (hsane.hold_repetition capacity bounds helement).2
  | optional capacity helement => exact (hsane.hold_optional capacity helement).2
  | assemble id options expression => exact (assemble_ensures id options expression hsane).2

theorem Uses.calm {desk desk' : Desk} (h : desk.Uses desk') (hsane : Sane desk.held desk.store)
    {P : Store → Prop} (hcalm : Calm P) (hP : P desk.store) : P desk'.store := by
  cases h with
  | parse rule source start =>
    exact hcalm.parsing (fun catalog => respects_parse catalog rule source start) _ hP
  | parseAll rule source =>
    exact hcalm.parsing (fun catalog => respects_parseAll catalog rule source) _ hP
  | ruleMatches rule source start =>
    exact hcalm.parsing (fun catalog => respects_ruleMatches catalog rule source start) _ hP
  | clearCaches id => exact hcalm.quiet (quiet_clearCaches id) hP
  | rule id name => exact hcalm.quiet (quiet_rule id name) hP
  | localRule id name => exact hcalm.quiet (quiet_localRule id name) hP
  | alternation firstMatch hbranches =>
    exact hcalm.quiet (hsane.hold_alternation firstMatch hbranches).1 hP
  | repetition capacity bounds helement => exact hcalm.quiet (quiet_newCache capacity) hP
  | optional capacity helement => exact hcalm.quiet (quiet_newCache capacity) hP
  | assemble id options expression =>
    exact hcalm.quiet (assemble_ensures id options expression hsane).1 hP
  | _ => exact hP

section
variable {home : GrammarId} {foreign : Set GrammarId} {origin : Catalog} {desk desk' : Desk}

theorem Changes.held_eq (h : desk.Changes home foreign desk') : desk'.held = desk.held := by
  cases h <;> rfl

theorem Changes.turns (h : desk.Changes home foreign desk') (hhome : home ∉ foreign)
    {P : Store → Prop} (hcalm : Calm P) (hrecoverable : Recoverable P)
    (hloyal : ∀ store, P store → Loyal home foreign origin desk.held store) (hP : P desk.store) :
    P desk'.store ∨ Turned home foreign origin desk.held desk'.store := by
  have hdesk := hloyal desk.store hP
  cases h with
  | createRule text => exact turns_createRule hhome hcalm hrecoverable hloyal text _ hP
  | loadRules texts => exact turns_loadRules hhome hcalm hrecoverable hloyal texts _ hP
  | loadRulelist text => exact turns_loadRulelist hhome hcalm hrecoverable hloyal text _ hP
  | define name hheld => exact Or.inr (hdesk.define hhome name hheld)
  | extend name hheld => exact Or.inr (hdesk.extend hhome name hheld)
  | setDefinition hrule hheld => exact Or.inr (hdesk.setDefinition hhome hrule hheld)
  | addAlternative hrule hheld => exact Or.inr (hdesk.addAlternative hhome hrule hheld)
  | importRule name hsource =>
    rcases hdesk.importRule hhome name hsource with heq | hturned
    · exact Or.inl (by rw [edit, heq]; exact hP)
    · exact Or.inr hturned
  | exclude hrule excluded => exact Or.inr (hdesk.exclude hhome hrule excluded)
  | clearExclusion hrule => exact Or.inr (hdesk.clearExclusion hhome hrule)
  | setFirstMatch hrule firstMatch hmode =>
    rcases hdesk.setFirstMatch hrule firstMatch hmode with heq | hturned
    · exact Or.inl (by rw [edit, heq]; exact hP)
    · exact Or.inr hturned

end

theorem sane_empty : Sane ∅ .empty := by
  have hgrammar : ∀ id, Store.empty.catalog.grammar id = default := fun id => by
    rw [Catalog.grammar]
    rfl
  have hbound : ∀ rule slot definition,
      Store.empty.catalog.bound rule ≠ .ok (slot, definition) := by
    intro rule slot definition hbound
    obtain ⟨hslot, -⟩ := Catalog.exists_slot_of_bound hbound
    rw [Catalog.slot?, hgrammar] at hslot
    cases hslot
  have hused : ∀ grammars node, node ∉ Store.empty.used grammars ∅ := by
    rintro grammars node (⟨parser, hparser, -⟩ | ⟨rule, slot, definition, -, h, -⟩)
    · exact hparser
    · exact hbound rule slot definition h
  exact
    { cache_lt := fun node hnode => absurd hnode (hused _ node)
      mode_lt := fun _ _ hnode => absurd hnode (hused _ _)
      apart := fun a ha => absurd ha (hused _ a)
      lost_lt := fun id hid => by cases hid
      alive := fun node hnode => absurd hnode (hused _ node)
      registered := by
        rintro _ _ ⟨rule, slot, definition, -, h, -⟩
        exact absurd h (hbound rule slot definition)
      lineage := fun id base hbase => by
        rw [hgrammar] at hbase
        cases hbase
      bases_alive := fun id _ base hbase => by
        rw [hgrammar] at hbase
        cases hbase }

theorem Reached.sane {desk : Desk} (h : desk.Reached) : Sane desk.held desk.store := by
  induction h with
  | empty => exact sane_empty
  | uses _ huses ih => exact huses.sane ih
  | @changes desk desk' id _ hid hchanges ih =>
    have hloyal : Loyal id ∅ desk.store.catalog desk.held desk.store := loyal_empty ih hid
    rcases hchanges.turns (Set.notMem_empty id) calm_loyal recoverable_loyal (fun _ h => h) hloyal
      with h | h
    · exact hchanges.held_eq ▸ h.sane
    · exact hchanges.held_eq ▸ h.sane
  | newGrammar name options _ hbase ih => exact ih.newGrammar name hbase options
  | collect _ hheld hroots ih => exact ih.collect hheld hroots

/-- No definition and no exclusion of a grammar leads anywhere but to the grammar itself and
to some others, and those lead to one another only. -/
structure Contained (home : GrammarId) (foreign : Set GrammarId) (desk : Desk) : Prop where
  others : desk.store.catalog.Enclosed foreign
  whole : desk.store.catalog.Enclosed (insert home foreign)

def Step (home : GrammarId) (foreign : Set GrammarId) (desk desk' : Desk) : Prop :=
  (desk.Uses desk' ∨ desk.Changes home foreign desk') ∧ desk'.Contained home foreign

theorem Step.steady {home : GrammarId} {foreign : Set GrammarId} {origin : Catalog}
    {desk desk' : Desk}
    (h : Step home foreign desk desk') (hhome : home ∉ foreign)
    (hsteady : Steady home foreign origin desk.held desk.store) :
    Steady home foreign origin desk'.held desk'.store := by
  obtain ⟨huses | hchanges, hcontained⟩ := h
  · exact (huses.calm hsteady.sane calm_steady hsteady).hold (huses.sane hsteady.sane)
  · rw [hchanges.held_eq]
    rcases hchanges.turns hhome calm_steady recoverable_steady (fun _ h => h.loyal) hsteady with
      h | h
    · exact h
    · exact h.steady hcontained.whole

theorem steady_of_run {home : GrammarId} {foreign : Set GrammarId} {origin : Catalog}
    {start desk : Desk}
    (hhome : home ∉ foreign) (hrun : Relation.ReflTransGen (Step home foreign) start desk)
    (hstart : Steady home foreign origin start.held start.store) :
    Steady home foreign origin desk.held desk.store := by
  induction hrun with
  | refl => exact hstart
  | tail _ hstep ih => exact hstep.steady hhome ih

end Desk

section
variable {home : GrammarId} {foreign : Set GrammarId} {origin : Catalog} {held : Set Parser}
  {store : Store}

theorem Steady.agreement (h : Steady home foreign origin held store) {rule : RuleId}
    (hrule : rule.grammar = home) (source : Source) (start : Nat) :
    (agreement (Sound store.catalog (store.catalog.within (insert home foreign)).nodes)).rel
      (fun _ => True) (store.catalog.ruleMatches rule source start)
      (store.catalog.ruleMatches rule source start) :=
  ruleMatches_agrees h.contained.closed (h.sane.apart_within _ _) (Or.inl hrule) source start

end

/-- After any run, and from any start with empty caches, parses of the grammar that was
changed answer what they answer without caches. -/
theorem Desk.parses_agree {start desk : Desk} (hreached : start.Reached)
    (hempty : ∀ cache ∈ start.store.caches, cache.isEmpty = true) {home : GrammarId}
    (hliving : home ∈ start.store.living) {foreign : Set GrammarId} (hhome : home ∉ foreign)
    (hcontained : start.Contained home foreign)
    (hrun : Relation.ReflTransGen (Step home foreign) start desk) {rule : RuleId}
    (hrule : rule.grammar = home) (source : Source) (offset : Nat) :
    Agree (Edit.parsing (·.ruleMatches rule source offset) desk.store).1
        (desk.store.catalog.ruleMatches rule source offset) ∧
      Agree (Edit.parsing (·.parse rule source offset) desk.store).1
        (desk.store.catalog.parse rule source offset) ∧
      Agree (Edit.parsing (·.parseAll rule source) desk.store).1
        (desk.store.catalog.parseAll rule source) := by
  have hsteady := steady_of_run hhome hrun
    { sane := hreached.sane
      living := hliving
      agrees := .refl foreign start.store.catalog
      enclosed := hcontained.others
      contained := hcontained.whole
      sound := .of_empty fun _ _ _ => Caches.not_holds_of_isEmpty hempty }
  have hrel := hsteady.agreement hrule source
  exact ⟨(hrel offset _ hsteady.sound).1, (parse_rel rfl (hrel offset) _ hsteady.sound).1,
    (parseAll_rel rfl (hrel 0) _ hsteady.sound).1⟩

namespace Desk

def decimal : Parser := .literal (.range '0' '9')

def row : Parser := .repetition ⟨0⟩ ⟨1, none⟩ decimal

def oneRule (name : String) (definition : Parser) (caches : List CacheId) : Catalog :=
  let table := (RuleTable.empty.push name).update 0 fun slot =>
    { slot with definition := some definition }
  ⟨#[⟨"numbers", [], .standard, table, ⟨caches⟩, []⟩], #[], []⟩

def bare : Desk :=
  (((⟨.empty, ∅⟩ : Desk).edit (Edit.newGrammar "numbers" none .standard)).hold decimal).make
    (Edit.repetition ⟨10, by decide⟩ ⟨1, none⟩ decimal)

def numbers : Desk := bare.edit (Edit.define ⟨0⟩ "digits" row)

def parsed : Desk := numbers.edit (Edit.parsing (·.parse ⟨⟨0⟩, 0⟩ (.ofString "12") 0))

def narrowed : Desk := parsed.edit (Edit.setDefinition ⟨⟨0⟩, 0⟩ decimal)

theorem store_numbers :
    numbers.store = ⟨oneRule "digits" row [⟨0⟩], #[.empty ⟨10, by decide⟩], []⟩ := by
  have htable : (bare.store.catalog.grammar ⟨0⟩).table = .empty := rfl
  have hlocal : bare.store.catalog.local? ⟨0⟩ "digits" = none := by
    rw [Catalog.local?, htable, RuleTable.find?, RuleTable.empty]
    simp
  simp only [numbers, edit, Edit.define, Edit.localRule, Edit.bind_apply, Edit.get_apply, hlocal]
  rfl

theorem catalog_parsing {α : Type} (run : Catalog → Run α) (store : Store) :
    (Edit.parsing run store).2.catalog = store.catalog :=
  rfl

theorem catalog_parsed : parsed.store.catalog = oneRule "digits" row [⟨0⟩] := by
  rw [parsed, edit, catalog_parsing, store_numbers]

theorem catalog_narrowed : narrowed.store.catalog = oneRule "digits" decimal [⟨0⟩] := by
  have hparsed := catalog_parsed
  rw [narrowed]
  generalize parsed = desk at hparsed ⊢
  obtain ⟨⟨catalog, caches, lost⟩, held⟩ := desk
  obtain rfl : catalog = _ := hparsed
  rfl

theorem contained_oneRule {desk : Desk} {name : String} {definition : Parser}
    {caches : List CacheId} (hcatalog : desk.store.catalog = oneRule name definition caches)
    (hreferences : definition.references = []) : desk.Contained ⟨0⟩ ∅ := by
  have hbound : ∀ rule slot definition', desk.store.catalog.bound rule = .ok (slot, definition') →
      definition' = definition ∧ slot.exclusion = none := by
    rintro ⟨⟨i⟩, j⟩ slot definition' hbound
    obtain ⟨hslot, hdefinition⟩ := Catalog.exists_slot_of_bound hbound
    rw [hcatalog] at hslot
    match i, j with
    | 0, 0 =>
      cases hslot
      cases hdefinition
      exact ⟨rfl, rfl⟩
    | 0, j + 1 => cases hslot
    | i + 1, j => cases hslot
  exact
    { others := enclosed_empty _
      whole :=
        { target := fun rule slot definition' ref _ h href => by
            rw [(hbound rule slot definition' h).1, hreferences] at href
            cases href
          exclusion := fun rule slot definition' ref _ h hexclusion => by
            rw [(hbound rule slot definition' h).2] at hexclusion
            cases hexclusion } }

theorem reached_numbers : numbers.Reached := by
  have hgrammar := @Reached.newGrammar _ "numbers" none .standard .empty fun id hid => by cases hid
  have hbare := (hgrammar.uses (.literal (.range '0' '9'))).uses
    (.repetition ⟨10, by decide⟩ ⟨1, none⟩ (Set.mem_insert _ _))
  exact @Reached.changes _ _ ⟨0⟩ hbare rfl (.define "digits" (Set.mem_insert _ _))

theorem run_narrowed : Relation.ReflTransGen (Step ⟨0⟩ ∅) numbers narrowed := by
  have hparsed : Step ⟨0⟩ ∅ numbers parsed :=
    ⟨Or.inl (.parse _ _ _), contained_oneRule catalog_parsed rfl⟩
  have hheld : decimal ∈ parsed.held := Set.mem_insert_of_mem _ (Set.mem_insert _ _)
  have hchanges : parsed.Changes ⟨0⟩ ∅ narrowed :=
    @Changes.setDefinition _ _ parsed ⟨⟨0⟩, 0⟩ rfl decimal hheld
  exact (Relation.ReflTransGen.single hparsed).tail
    ⟨Or.inr hchanges, contained_oneRule catalog_narrowed rfl⟩

theorem parses_agree_narrowed :
    Agree (Edit.parsing (·.ruleMatches ⟨⟨0⟩, 0⟩ (.ofString "12") 1) narrowed.store).1
        (narrowed.store.catalog.ruleMatches ⟨⟨0⟩, 0⟩ (.ofString "12") 1) ∧
      Agree (Edit.parsing (·.parse ⟨⟨0⟩, 0⟩ (.ofString "12") 1) narrowed.store).1
        (narrowed.store.catalog.parse ⟨⟨0⟩, 0⟩ (.ofString "12") 1) ∧
      Agree (Edit.parsing (·.parseAll ⟨⟨0⟩, 0⟩ (.ofString "12")) narrowed.store).1
        (narrowed.store.catalog.parseAll ⟨⟨0⟩, 0⟩ (.ofString "12")) := by
  have hempty : ∀ cache ∈ numbers.store.caches, cache.isEmpty = true := by
    rw [store_numbers]
    simp [Cache.isEmpty, Cache.empty]
  have hliving : ⟨0⟩ ∈ numbers.store.living := by
    rw [store_numbers]
    rfl
  exact parses_agree reached_numbers hempty hliving (Set.notMem_empty _)
    (contained_oneRule (congrArg Store.catalog store_numbers) rfl) run_narrowed rfl (.ofString "12") 1

end Desk

end Metasyntax
