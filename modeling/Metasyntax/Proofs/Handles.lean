import Mathlib.Data.Set.Lattice
import Mathlib.Logic.Relation
import Metasyntax.Proofs.Sessions

/-!
# What a program holds

A program comes to a grammar, a rule or a parser through what it holds already, and changes
a store with what it holds only. Here it is said once what it can do in a single step; every
edit and every load of rule text is a row of such steps, so that an invariant of the steps
holds wherever a program may come to.
-/

set_option autoImplicit false

namespace Metasyntax

inductive Handle where
  | grammar (id : GrammarId)
  | rule (rule : RuleId)
  | parser (parser : Parser)

/-- A store, and all that a program holds of it. -/
structure Bench where
  store : Store
  held : Set Handle

namespace Bench

def hold (bench : Bench) (handle : Handle) : Bench := ⟨bench.store, insert handle bench.held⟩

def edit (bench : Bench) {α : Type} (edit : Edit α) : Bench := ⟨(edit bench.store).2, bench.held⟩

def make (bench : Bench) {α : Type} (handle : α → Handle) (edit : Edit α) : Bench :=
  ⟨(edit bench.store).2, insert (handle (edit bench.store).1) bench.held⟩

inductive Step (bench : Bench) : Bench → Prop where
  | forget {held : Set Handle} : held ⊆ bench.held → Step bench ⟨bench.store, held⟩
  | grammarOf {rule : RuleId} : .rule rule ∈ bench.held →
    Step bench (bench.hold (.grammar rule.grammar))
  | baseOf {id base : GrammarId} : .grammar id ∈ bench.held →
    (bench.store.catalog.grammar id).base? = some base → Step bench (bench.hold (.grammar base))
  | lookup {id : GrammarId} {name : String} {rule : RuleId} : .grammar id ∈ bench.held →
    bench.store.catalog.lookup? id name = some rule → Step bench (bench.hold (.rule rule))
  | definition {rule : RuleId} {definition : Parser} : .rule rule ∈ bench.held →
    bench.store.catalog.definition? rule = some definition →
      Step bench (bench.hold (.parser definition))
  | part {parser part : Parser} : .parser parser ∈ bench.held → part ∈ parser.walk →
    Step bench (bench.hold (.parser part))
  | reference {rule : RuleId} : .rule rule ∈ bench.held →
    Step bench (bench.hold (.parser (.rule (bench.store.catalog.refer rule))))
  | literal (terminal : Literal) : Step bench (bench.hold (.parser (.literal terminal)))
  | prose (text : String) : Step bench (bench.hold (.parser (.prose text)))
  | concatenation {parts : List Parser} : (∀ part ∈ parts, .parser part ∈ bench.held) →
    Step bench (bench.hold (.parser (.concatenation parts)))
  | alternation (firstMatch : Bool) {branches : List Parser} :
    (∀ branch ∈ branches, .parser branch ∈ bench.held) →
      Step bench (bench.make .parser (Edit.alternation firstMatch branches))
  | repetition (capacity : Capacity) (bounds : Bounds) {element : Parser} :
    .parser element ∈ bench.held →
      Step bench (bench.make .parser (Edit.repetition capacity bounds element))
  | optional (capacity : Capacity) {element : Parser} : .parser element ∈ bench.held →
    Step bench (bench.make .parser (Edit.optional capacity element))
  | newGrammar (name : String) {base : Option GrammarId} (options : Options) :
    (∀ id, base = some id → .grammar id ∈ bench.held) →
      Step bench (bench.make .grammar (Edit.newGrammar name base options))
  | localRule {id : GrammarId} (name : String) : .grammar id ∈ bench.held →
    Step bench (bench.make .rule (Edit.localRule id name))
  | retain {id : GrammarId} {source : RuleId} : .grammar id ∈ bench.held →
    .rule source ∈ bench.held → Step bench (bench.edit (Edit.retain id source.grammar))
  | setDefinition {rule : RuleId} {definition : Parser} : .rule rule ∈ bench.held →
    .parser definition ∈ bench.held → Step bench (bench.edit (Edit.setDefinition rule definition))
  | exclude {rule excluded : RuleId} : .rule rule ∈ bench.held → .rule excluded ∈ bench.held →
    Step bench (bench.edit (Edit.exclude rule excluded))
  | clearExclusion {rule : RuleId} : .rule rule ∈ bench.held →
    Step bench (bench.edit (Edit.clearExclusion rule))
  | setFirstMatch {rule : RuleId} (firstMatch : Bool) : .rule rule ∈ bench.held →
    Step bench (bench.edit (Edit.setFirstMatch rule firstMatch))
  | clearCaches (id : GrammarId) : Step bench (bench.edit (Edit.clearCaches id))
  | ruleMatches (rule : RuleId) (source : Source) (start : Nat) :
    Step bench (bench.edit (Edit.parsing (·.ruleMatches rule source start)))
  | matchesOf {parser : Parser} (source : Source) (start : Nat) : .parser parser ∈ bench.held →
    Step bench (bench.edit (Edit.parsing (·.matchesOf parser source start)))

abbrev Steps : Bench → Bench → Prop := Relation.ReflTransGen Step

inductive Collects (bench : Bench) : Bench → Prop where
  | collect {roots : Roots} : (∀ id, .grammar id ∈ bench.held → id ∈ roots.grammars) →
    (∀ rule, .rule rule ∈ bench.held → rule.grammar ∈ roots.grammars) →
    (∀ parser, .parser parser ∈ bench.held → parser ∈ roots.parsers) →
      Collects bench ⟨bench.store.collect roots, bench.held⟩

def Does (bench : Bench) {α : Type} (edit : Edit α) (gives : α → Set Handle) : Prop :=
  bench.Steps ⟨(edit bench.store).2, bench.held ∪ gives (edit bench.store).1⟩

variable {bench : Bench} {α β : Type}

theorem Steps.forget {bench' : Bench} (h : bench.Steps bench') {held : Set Handle}
    (hsub : held ⊆ bench'.held) : bench.Steps ⟨bench'.store, held⟩ :=
  h.tail (.forget hsub)

theorem Steps.keep (bench : Bench) {held : Set Handle} (hsub : held ⊆ bench.held) :
    bench.Steps ⟨bench.store, held⟩ :=
  .single (.forget hsub)

theorem Does.of_step {edit : Edit α} {gives : α → Set Handle} {held : Set Handle}
    (h : bench.Step ⟨(edit bench.store).2, held⟩)
    (hheld : bench.held ∪ gives (edit bench.store).1 ⊆ held) : bench.Does edit gives :=
  Steps.forget (.single h) hheld

theorem Does.of_edit {edit : Edit α} (h : bench.Step (bench.edit edit)) :
    bench.Does edit fun _ => ∅ :=
  .of_step h (Set.union_empty _).subset

theorem Does.of_make {handle : α → Handle} {edit : Edit α} (h : bench.Step (bench.make handle edit)) :
    bench.Does edit fun a => {handle a} :=
  .of_step h (Set.union_singleton ..).subset

theorem Does.pure {a : α} {gives : α → Set Handle} (h : gives a ⊆ bench.held) :
    bench.Does (Pure.pure a) gives :=
  Steps.keep bench (Set.union_subset subset_rfl h)

theorem Does.bind {edit : Edit α} {next : α → Edit β} {gives : α → Set Handle}
    {gives' : β → Set Handle} (h : bench.Does edit gives)
    (hnext : Does ⟨(edit bench.store).2, bench.held ∪ gives (edit bench.store).1⟩
      (next (edit bench.store).1) gives') : bench.Does (edit >>= next) gives' :=
  Steps.forget (h.trans hnext) (Set.union_subset_union_left _ Set.subset_union_left)

theorem Does.after {handle : Handle} {edit : Edit α} {gives : α → Set Handle}
    (h : bench.Step (bench.hold handle)) (hnext : (bench.hold handle).Does edit gives) :
    bench.Does edit gives :=
  Steps.forget (hnext.head h) (Set.union_subset_union_left _ (Set.subset_insert _ _))

theorem Does.mono {edit : Edit α} {gives gives' : α → Set Handle} (h : bench.Does edit gives)
    (hsub : ∀ a, gives' a ⊆ gives a) : bench.Does edit gives' :=
  Steps.forget h (Set.union_subset_union_right _ (hsub _))

theorem Does.get {next : Store → Edit α} {gives : α → Set Handle}
    (h : bench.Does (next bench.store) gives) : bench.Does (MonadState.get >>= next) gives :=
  h

end Bench

open Bench (Does)

namespace Edit

def Works (needs : Set Handle) {α : Type} (edit : Edit α) (gives : α → Set Handle) : Prop :=
  ∀ bench : Bench, needs ⊆ bench.held → bench.Does edit gives

namespace Works

variable {needs : Set Handle} {α β : Type}

theorem pure {a : α} {gives : α → Set Handle} (h : gives a ⊆ needs) :
    Works needs (Pure.pure a) gives :=
  fun _ hneeds => .pure (h.trans hneeds)

theorem bind {edit : Edit α} {next : α → Edit β} {gives : α → Set Handle}
    {gives' : β → Set Handle} (h : Works needs edit gives)
    (hnext : ∀ a, Works (needs ∪ gives a) (next a) gives') : Works needs (edit >>= next) gives' :=
  fun bench hneeds => (h bench hneeds).bind
    (hnext _ _ (Set.union_subset_union_left _ hneeds))

theorem get : Works needs (MonadState.get : Edit Store) fun _ => ∅ :=
  fun bench _ => Bench.Steps.keep bench (Set.union_empty _).subset

theorem mono {needs' : Set Handle} {edit : Edit α} {gives gives' : α → Set Handle}
    (h : Works needs edit gives) (hneeds : needs ⊆ needs') (hgives : ∀ a, gives' a ⊆ gives a) :
    Works needs' edit gives' :=
  fun bench hbench => (h bench (hneeds.trans hbench)).mono hgives

theorem discarded {edit : Edit α} {gives : α → Set Handle} (h : Works needs edit gives) :
    Works needs (Functor.discard edit) fun _ => ∅ := by
  rw [Functor.discard, map_const, Function.comp_apply, ← bind_pure_comp]
  exact .bind h fun _ => .pure (Set.empty_subset _)

theorem forM {next : α → Edit Unit} (items : List α)
    (h : ∀ a ∈ items, Works needs (next a) fun _ => ∅) : Works needs (items.forM next) fun _ => ∅ := by
  induction items with
  | nil => exact .pure (Set.empty_subset _)
  | cons a rest ih =>
    refine .bind (h a List.mem_cons_self) fun _ => .mono (ih fun b hb => ?_) Set.subset_union_left
      fun _ => subset_rfl
    exact h b (List.mem_cons_of_mem _ hb)

theorem mapM {next : α → Edit β} {handle : β → Handle} (items : List α)
    (h : ∀ a ∈ items, Works needs (next a) fun b => {handle b}) :
    Works needs (items.mapM next) fun bs => {x | ∃ b ∈ bs, handle b = x} := by
  induction items with
  | nil => exact .pure (by simp)
  | cons a rest ih =>
    rw [List.mapM_cons]
    refine .bind (h a List.mem_cons_self) fun b => .bind
      (.mono (ih fun b hb => h b (List.mem_cons_of_mem _ hb)) Set.subset_union_left
        fun _ => subset_rfl) fun bs => .pure ?_
    rintro x ⟨b', hb', rfl⟩
    rcases List.mem_cons.1 hb' with rfl | hb'
    · exact Or.inl (Or.inr rfl)
    · exact Or.inr ⟨b', hb', rfl⟩

end Works

theorem works_localRule (id : GrammarId) (name : String) :
    Works {.grammar id} (localRule id name) fun rule => {.rule rule} :=
  fun _ hneeds => .of_make (.localRule name (hneeds rfl))

theorem works_rule (id : GrammarId) (name : String) :
    Works {.grammar id} (Edit.rule id name) fun rule => {.rule rule} := by
  refine fun bench hneeds => .get ?_
  split
  case h_1 rule hrule =>
    exact .after (.lookup (hneeds rfl) hrule)
      (.pure (Set.singleton_subset_iff.2 (Set.mem_insert _ _)))
  case h_2 => exact works_localRule id name bench hneeds

theorem works_setDefinition (rule : RuleId) (definition : Parser) :
    Works {.rule rule, .parser definition} (setDefinition rule definition) fun _ => ∅ :=
  fun _ hneeds => .of_edit (.setDefinition (hneeds (Or.inl rfl)) (hneeds (Or.inr rfl)))

theorem works_alternation (firstMatch : Bool) (branches : List Parser) :
    Works {x | ∃ branch ∈ branches, .parser branch = x} (alternation firstMatch branches)
      fun parser => {.parser parser} :=
  fun _ hneeds => .of_make (.alternation firstMatch fun branch hbranch => hneeds ⟨branch, hbranch, rfl⟩)

theorem works_repetition (capacity : Capacity) (bounds : Bounds) (element : Parser) :
    Works {.parser element} (repetition capacity bounds element) fun parser => {.parser parser} :=
  fun _ hneeds => .of_make (.repetition capacity bounds (hneeds rfl))

theorem works_optional (capacity : Capacity) (element : Parser) :
    Works {.parser element} (Edit.optional capacity element) fun parser => {.parser parser} :=
  fun _ hneeds => .of_make (.optional capacity (hneeds rfl))

theorem works_concatenation (parts : List Parser) :
    Works {x | ∃ part ∈ parts, .parser part = x} (pure (.concatenation parts) : Edit Parser)
      fun parser => {.parser parser} :=
  fun _ hneeds => .after (.concatenation fun part hpart => hneeds ⟨part, hpart, rfl⟩)
    (.pure (Set.singleton_subset_iff.2 (Set.mem_insert _ _)))

theorem works_addAlternative (rule : RuleId) (alternative : Parser) :
    Works {.rule rule, .parser alternative} (addAlternative rule alternative) fun _ => ∅ := by
  refine fun bench hneeds => .get ?_
  have hrule : .rule rule ∈ bench.held := hneeds (Or.inl rfl)
  have halternative : .parser alternative ∈ bench.held := hneeds (Or.inr rfl)
  dsimp only
  split
  case h_1 existing hexisting =>
    refine .after (.definition hrule hexisting) (.bind (.of_make (.alternation _ ?_))
      (works_setDefinition rule _ _ ?_))
    · simpa [Bench.hold] using Or.inr halternative
    · rintro x (rfl | rfl)
      · exact Or.inl (Or.inr hrule)
      · exact Or.inr rfl
  case h_2 => exact works_setDefinition rule alternative bench hneeds

theorem works_define (id : GrammarId) (name : String) (definition : Parser) :
    Works {.grammar id, .parser definition} (define id name definition)
      fun rule => {.rule rule} := by
  refine .bind (.mono (works_localRule id name) (by simp) fun _ => subset_rfl) fun rule => ?_
  refine .bind (.mono (works_setDefinition rule definition) ?_ fun _ => subset_rfl) fun _ =>
    .pure (by simp)
  rintro x (rfl | rfl) <;> simp

theorem works_extend (id : GrammarId) (name : String) (alternative : Parser) :
    Works {.grammar id, .parser alternative} (extend id name alternative)
      fun rule => {.rule rule} := by
  refine .bind (.mono (works_localRule id name) (by simp) fun _ => subset_rfl)
    fun rule bench hneeds => .get ?_
  have hid : .grammar id ∈ bench.held := hneeds (by simp)
  have hrule : .rule rule ∈ bench.held := hneeds (by simp)
  have hadd : Works {.rule rule, .parser alternative} (do
      addAlternative rule alternative
      return rule) fun rule => {.rule rule} :=
    .bind (works_addAlternative rule alternative) fun _ => .pure (by simp)
  have hboth : {.rule rule, .parser alternative} ⊆ bench.held :=
    Set.insert_subset hrule (Set.singleton_subset_iff.2 (hneeds (by simp)))
  dsimp only
  split
  case isFalse => exact hadd bench hboth
  case isTrue =>
    have hinherit : bench.Does (((bench.store.catalog.grammar id).base?.bind fun base =>
        (bench.store.catalog.lookup? base name).bind bench.store.catalog.definition?).forM
          (setDefinition rule)) fun _ => ∅ := by
      cases hinherited : (bench.store.catalog.grammar id).base?.bind fun base =>
          (bench.store.catalog.lookup? base name).bind bench.store.catalog.definition? with
      | none => exact .pure (Set.empty_subset _)
      | some inherited =>
        obtain ⟨base, hbase, hlookup⟩ := Option.bind_eq_some_iff.1 hinherited
        obtain ⟨source, hsource, hdefinition⟩ := Option.bind_eq_some_iff.1 hlookup
        -- The program gets hold of the base, of the rule there and of that rule's definition.
        refine .after (.baseOf hid hbase) (.after (.lookup (Set.mem_insert _ _) hsource)
          (.after (.definition (Set.mem_insert _ _) hdefinition)
            (works_setDefinition rule inherited _ ?_)))
        exact Set.insert_subset (by simp [Bench.hold, hrule])
          (Set.singleton_subset_iff.2 (Set.mem_insert _ _))
    exact hinherit.bind (hadd _ (hboth.trans Set.subset_union_left))

theorem works_exclude (rule excluded : RuleId) :
    Works {.rule rule, .rule excluded} (exclude rule excluded) fun _ => ∅ :=
  fun _ hneeds => .of_edit (.exclude (hneeds (Or.inl rfl)) (hneeds (Or.inr rfl)))

theorem works_clearExclusion (rule : RuleId) :
    Works {.rule rule} (clearExclusion rule) fun _ => ∅ :=
  fun _ hneeds => .of_edit (.clearExclusion (hneeds rfl))

theorem works_setFirstMatch (rule : RuleId) (firstMatch : Bool) :
    Works {.rule rule} (setFirstMatch rule firstMatch) fun _ => ∅ :=
  fun _ hneeds => .of_edit (.setFirstMatch firstMatch (hneeds rfl))

theorem works_importRule (id : GrammarId) (name : String) (source : RuleId) :
    Works {.grammar id, .rule source} (importRule id name source)
      (givenOf fun rule => {.rule rule}) := by
  refine fun bench hneeds => .get ?_
  have hid : .grammar id ∈ bench.held := hneeds (Or.inl rfl)
  have hsource : .rule source ∈ bench.held := hneeds (Or.inr rfl)
  dsimp only
  split
  case h_1 => exact .pure (Set.empty_subset _)
  case h_2 definition hdefinition =>
    have hretain : (bench.hold (.parser definition)).Does (retain id source.grammar) fun _ => ∅ :=
      .of_edit (.retain (Or.inr hid) (Or.inr hsource))
    have hdefine : Works {.grammar id, .parser definition} (do
        return .ok (← define id name definition) : Edit (Except GrammarError RuleId))
          (givenOf fun rule => {.rule rule}) :=
      .bind (works_define id name definition) fun rule => .pure Set.subset_union_right
    refine .after (.definition hsource hdefinition) (hretain.bind (hdefine _ ?_))
    exact Set.insert_subset (by simp [Bench.hold, hid])
      (Set.singleton_subset_iff.2 (by simp [Bench.hold]))

mutual
theorem works_assemble (id : GrammarId) (options : Options) (expression : Expression) :
    Works {.grammar id} (assemble id options expression) fun parser => {.parser parser} := by
  cases expression with
  | literal terminal =>
    rw [assemble]
    exact fun _ _ => .after (.literal terminal)
      (.pure (Set.singleton_subset_iff.2 (Set.mem_insert _ _)))
  | prose text =>
    rw [assemble]
    exact fun _ _ => .after (.prose text)
      (.pure (Set.singleton_subset_iff.2 (Set.mem_insert _ _)))
  | name name =>
    rw [assemble]
    refine .bind (works_rule id name) fun rule bench hneeds => .get ?_
    exact .after (.reference (hneeds (Or.inr rfl)))
      (.pure (Set.singleton_subset_iff.2 (Set.mem_insert _ _)))
  | choice branches =>
    rw [assemble]
    exact .bind (works_assembleAll id options branches) fun parsers =>
      .mono (works_alternation _ parsers) Set.subset_union_right fun _ => subset_rfl
  | sequence items =>
    rw [assemble]
    exact .bind (works_assembleAll id options items) fun parsers =>
      .mono (works_concatenation parsers) Set.subset_union_right fun _ => subset_rfl
  | repeated bounds element =>
    rw [assemble]
    exact .bind (works_assemble id options element) fun parser =>
      .mono (works_repetition _ bounds parser) Set.subset_union_right fun _ => subset_rfl
  | optional element =>
    rw [assemble]
    exact .bind (works_assemble id options element) fun parser =>
      .mono (works_optional _ parser) Set.subset_union_right fun _ => subset_rfl

theorem works_assembleAll (id : GrammarId) (options : Options) (expressions : List Expression) :
    Works {.grammar id} (assembleAll id options expressions)
      fun parsers => {x | ∃ parser ∈ parsers, .parser parser = x} := by
  cases expressions with
  | nil =>
    rw [assembleAll]
    exact .pure (by simp)
  | cons expression rest =>
    rw [assembleAll]
    refine .bind (works_assemble id options expression) fun parser => .bind
      (.mono (works_assembleAll id options rest) Set.subset_union_left fun _ => subset_rfl)
      fun parsers => .pure ?_
    rintro x ⟨parser', hparser, rfl⟩
    rcases List.mem_cons.1 hparser with rfl | hparser
    · exact Or.inl (Or.inr rfl)
    · exact Or.inr ⟨parser', hparser, rfl⟩
end

theorem works_bindOne (id : GrammarId) (production : Production) (parser : Parser) :
    Works {.grammar id, .parser parser} (bindOne id production parser)
      fun rule => {.rule rule} := by
  rw [bindOne]
  split
  · exact works_extend id production.name parser
  · exact works_define id production.name parser

theorem works_bindAll (id : GrammarId) (items : List (Production × Parser)) :
    Works {x | x = .grammar id ∨ ∃ item ∈ items, .parser item.2 = x}
      (items.mapM fun (production, parser) => bindOne id production parser)
      fun rules => {x | ∃ rule ∈ rules, .rule rule = x} := by
  refine .mapM items fun ⟨production, parser⟩ hitem => ?_
  refine .mono (works_bindOne id production parser) ?_ fun _ => subset_rfl
  exact Set.insert_subset (Or.inl rfl) (Set.singleton_subset_iff.2 (Or.inr ⟨_, hitem, rfl⟩))

theorem works_bind (id : GrammarId) (productions : List Production) :
    Works {.grammar id} (Edit.bind id productions)
      fun rules => {x | ∃ rule ∈ rules, .rule rule = x} := by
  refine .bind (.forM productions fun production _ => .bind (works_localRule id production.name)
    fun _ => .pure (Set.empty_subset _)) fun _ bench hneeds => .get ?_
  have hid : .grammar id ∈ bench.held := hneeds (Or.inl rfl)
  refine .bind (works_assembleAll id _ (productions.map (·.body)) bench
    (Set.singleton_subset_iff.2 hid)) (works_bindAll id _ _ ?_)
  rintro x (rfl | ⟨⟨production, parser⟩, hitem, rfl⟩)
  · exact Or.inl hid
  · exact Or.inr ⟨parser, (List.of_mem_zip hitem).2, rfl⟩

section
variable {needs : Set Handle}

theorem works_clearCaches (id : GrammarId) : Works needs (clearCaches id) fun _ => ∅ :=
  fun _ _ => .of_edit (.clearCaches id)

theorem works_ruleMatches (rule : RuleId) (source : Source) (start : Nat) :
    Works needs (parsing (·.ruleMatches rule source start)) fun _ => ∅ :=
  fun _ _ => .of_edit (.ruleMatches rule source start)

theorem works_parse (rule : RuleId) (source : Source) (start : Nat) :
    Works needs (parsing (·.parse rule source start)) fun _ => ∅ := by
  intro bench hneeds
  rw [Does, parsing_parse]
  exact works_ruleMatches rule source start bench hneeds

theorem works_parseAll (rule : RuleId) (source : Source) :
    Works needs (parsing (·.parseAll rule source)) fun _ => ∅ := by
  intro bench hneeds
  rw [Does, parsing_parseAll]
  exact works_parse rule source 0 bench hneeds

theorem works_matchesOf {parser : Parser} (hparser : .parser parser ∈ needs) (source : Source)
    (start : Nat) : Works needs (parsing (·.matchesOf parser source start)) fun _ => ∅ :=
  fun _ hneeds => .of_edit (.matchesOf source start (hneeds hparser))

end

end Edit

end Metasyntax
