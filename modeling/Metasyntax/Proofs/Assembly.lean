import Mathlib.Data.List.Nodup
import Metasyntax.Proofs.Edits

/-!
# What assembling gives

An expression describes a parser in a grammar: the same tree, with the modes and the caches
that the grammar's options say, where each name leads to the rule that it means. Assembling
an expression gives a parser that it describes, and adds nothing to the store but unbound
rules for names without meaning, modes and caches.
-/

set_option autoImplicit false

namespace Metasyntax

namespace Store

def capacity? (store : Store) (cache : CacheId) : Option Capacity :=
  (store.caches[cache.index]?).map (·.maxSize)

def rules (store : Store) (id : GrammarId) : Nat := (store.catalog.grammar id).table.size

structure Retains (id : GrammarId) (changed : Set RuleId) (store store' : Store) : Prop where
  found : ∀ name rule, store.catalog.local? id name = some rule →
    store'.catalog.local? id name = some rule
  lookup : ∀ name rule, store.catalog.lookup? id name = some rule →
    store'.catalog.lookup? id name = some rule
  slot : ∀ rule ∉ changed, ∀ slot, store.catalog.slot? rule = some slot →
    store'.catalog.slot? rule = some slot
  mode : ∀ mode : ModeId, ∀ firstMatch, store.catalog.modes[mode.index]? = some firstMatch →
    store'.catalog.modes[mode.index]? = some firstMatch
  capacity : ∀ cache capacity, store.capacity? cache = some capacity →
    store'.capacity? cache = some capacity

theorem Retains.refl (id : GrammarId) (changed : Set RuleId) (store : Store) :
    store.Retains id changed store :=
  ⟨fun _ _ h => h, fun _ _ h => h, fun _ _ _ h => h, fun _ _ h => h, fun _ _ h => h⟩

theorem Retains.trans {id : GrammarId} {changed : Set RuleId} {store store' store'' : Store}
    (h : store.Retains id changed store') (h' : store'.Retains id changed store'') :
    store.Retains id changed store'' where
  found name rule hrule := h'.found name rule (h.found name rule hrule)
  lookup name rule hrule := h'.lookup name rule (h.lookup name rule hrule)
  slot rule hrule slot hslot := h'.slot rule hrule slot (h.slot rule hrule slot hslot)
  mode mode firstMatch hmode := h'.mode mode firstMatch (h.mode mode firstMatch hmode)
  capacity cache capacity hcache := h'.capacity cache capacity (h.capacity cache capacity hcache)

structure Resolves (id : GrammarId) (before after : Store) (name : String) (ref : RuleRef) :
    Prop where
  lookup : after.catalog.lookup? id name = some ref.target
  known : ∀ rule, before.catalog.lookup? id name = some rule → ref.target = rule ∧
    ∀ slot, before.catalog.slot? rule = some slot → ref.name = slot.name
  new : before.catalog.lookup? id name = none → ref.target.grammar = id ∧
    before.rules id ≤ ref.target.slot ∧
      after.catalog.slot? ref.target = some ⟨ref.name, none, none⟩

end Store

mutual
def Expression.Describes (id : GrammarId) (options : Options) (before after : Store) :
    Expression → Parser → Prop
  | .literal terminal, parser => parser = .literal terminal
  | .name called, parser => ∃ ref, parser = .rule ref ∧ before.Resolves id after called ref
  | .choice branches, parser => ∃ mode parsers, parser = .alternation mode parsers ∧
    before.catalog.modes.size ≤ mode.index ∧
    after.catalog.modes[mode.index]? = some options.firstMatch ∧
    DescribesAll id options before after branches parsers
  | .sequence items, parser => ∃ parsers, parser = .concatenation parsers ∧
    DescribesAll id options before after items parsers
  | .repeated bounds element, parser => ∃ cache inner, parser = .repetition cache bounds inner ∧
    before.caches.size ≤ cache.index ∧ after.capacity? cache = some options.cacheSize ∧
    element.Describes id options before after inner
  | .optional element, parser => ∃ cache inner, parser = .optional cache inner ∧
    before.caches.size ≤ cache.index ∧ after.capacity? cache = some options.cacheSize ∧
    element.Describes id options before after inner
  | .prose text, parser => parser = .prose text

def Expression.DescribesAll (id : GrammarId) (options : Options) (before after : Store) :
    List Expression → List Parser → Prop
  | [], parsers => parsers = []
  | expression :: rest, parsers => ∃ parser others, parsers = parser :: others ∧
    expression.Describes id options before after parser ∧
    DescribesAll id options before after rest others
end

namespace Store

variable {id : GrammarId} {changed : Set RuleId} {before store store' : Store}

theorem Resolves.retains {name : String} {ref : RuleRef} (h : before.Resolves id store name ref)
    (hretains : store.Retains id changed store')
    (hchanged : ∀ rule ∈ changed, rule.slot < before.rules id) :
    before.Resolves id store' name ref where
  lookup := hretains.lookup name _ h.lookup
  known := h.known
  new hnone := by
    obtain ⟨hgrammar, hslot, hunbound⟩ := h.new hnone
    exact ⟨hgrammar, hslot, hretains.slot _ (fun hmem => absurd (hchanged _ hmem) hslot.not_gt) _
      hunbound⟩

end Store

namespace Expression

variable {id : GrammarId} {options : Options} {changed : Set RuleId}
  {before store store' : Store}

mutual
/-- What an expression describes, it goes on to describe. -/
theorem Describes.retains (hretains : store.Retains id changed store')
    (hchanged : ∀ rule ∈ changed, rule.slot < before.rules id) :
    (expression : Expression) → {parser : Parser} →
    expression.Describes id options before store parser →
      expression.Describes id options before store' parser
  | .literal _, _, h => h
  | .name _, _, ⟨ref, hparser, hresolves⟩ => ⟨ref, hparser, hresolves.retains hretains hchanged⟩
  | .choice branches, _, ⟨mode, parsers, hparser, hnew, hmode, hall⟩ =>
    ⟨mode, parsers, hparser, hnew, hretains.mode _ _ hmode,
      DescribesAll.retains hretains hchanged branches hall⟩
  | .sequence items, _, ⟨parsers, hparser, hall⟩ =>
    ⟨parsers, hparser, DescribesAll.retains hretains hchanged items hall⟩
  | .repeated _ element, _, ⟨cache, inner, hparser, hnew, hcapacity, hinner⟩ =>
    ⟨cache, inner, hparser, hnew, hretains.capacity _ _ hcapacity,
      Describes.retains hretains hchanged element hinner⟩
  | .optional element, _, ⟨cache, inner, hparser, hnew, hcapacity, hinner⟩ =>
    ⟨cache, inner, hparser, hnew, hretains.capacity _ _ hcapacity,
      Describes.retains hretains hchanged element hinner⟩
  | .prose _, _, h => h

theorem DescribesAll.retains (hretains : store.Retains id changed store')
    (hchanged : ∀ rule ∈ changed, rule.slot < before.rules id) :
    (expressions : List Expression) → {parsers : List Parser} →
    DescribesAll id options before store expressions parsers →
      DescribesAll id options before store' expressions parsers
  | [], _, h => h
  | expression :: rest, _, ⟨parser, others, hparsers, hfirst, hrest⟩ =>
    ⟨parser, others, hparsers, Describes.retains hretains hchanged expression hfirst,
      DescribesAll.retains hretains hchanged rest hrest⟩
end

end Expression

namespace Catalog

theorem local?_congr {catalog : Catalog} {name name' : String}
    (h : lowerText name = lowerText name') (id : GrammarId) :
    catalog.local? id name = catalog.local? id name' := by
  rw [local?, local?, RuleTable.find?, RuleTable.find?, h]

theorem lookup?_congr {catalog catalog' : Catalog} {id : GrammarId} {name name' : String}
    (hbases : (catalog'.grammar id).bases = (catalog.grammar id).bases)
    (hlocal : ∀ other, catalog'.local? other name' = catalog.local? other name) :
    catalog'.lookup? id name' = catalog.lookup? id name := by
  simp only [lookup?, hbases, hlocal]

theorem local?_eq_none_of_lookup? {catalog : Catalog} {id : GrammarId} {name : String}
    (h : catalog.lookup? id name = none) : catalog.local? id name = none :=
  List.findSome?_eq_none_iff.1 h id List.mem_cons_self

end Catalog

namespace Store

structure Grows (id : GrammarId) (before after : Store) : Prop where
  retains : before.Retains id ∅ after
  fresh : ∀ name rule, before.catalog.lookup? id name = none →
    after.catalog.lookup? id name = some rule → rule.grammar = id ∧ before.rules id ≤ rule.slot ∧
      ∃ spelled, after.catalog.slot? rule = some ⟨spelled, none, none⟩
  rules_le : before.rules id ≤ after.rules id
  modes_le : before.catalog.modes.size ≤ after.catalog.modes.size
  caches_le : before.caches.size ≤ after.caches.size
  grammars : after.catalog.grammars.size = before.catalog.grammars.size

variable {id : GrammarId} {before store : Store}

theorem Grows.refl (id : GrammarId) (store : Store) : store.Grows id store where
  retains := .refl id ∅ store
  fresh name rule hnone hsome := by
    rw [hnone] at hsome
    cases hsome
  rules_le := le_rfl
  modes_le := le_rfl
  caches_le := le_rfl
  grammars := rfl

/-- Any rule that a name leads to after some growth. -/
theorem Grows.resolves (h : before.Grows id store) {name : String} {rule : RuleId}
    (hrule : store.catalog.lookup? id name = some rule) :
    before.Resolves id store name (store.catalog.refer rule) where
  lookup := hrule
  known rule' hrule' := by
    have hsame : some rule = some rule' := hrule.symm.trans (h.retains.lookup name rule' hrule')
    cases hsame
    refine ⟨rfl, fun slot hslot => ?_⟩
    simp [Catalog.refer, Catalog.nameOf, h.retains.slot rule (Set.notMem_empty rule) slot hslot]
  new hnone := by
    obtain ⟨hgrammar, hslot, spelled, hunbound⟩ := h.fresh name rule hnone hrule
    refine ⟨hgrammar, hslot, ?_⟩
    simp [Catalog.refer, Catalog.nameOf, hunbound]

theorem getElem?_push_of_eq_some {α : Type} {xs : Array α} {i : Nat} {a : α} (h : xs[i]? = some a)
    (x : α) : (xs.push x)[i]? = some a := by
  obtain ⟨hlt, -⟩ := Array.getElem?_eq_some_iff.1 h
  rw [Array.getElem?_push, if_neg (Nat.ne_of_lt hlt), h]

theorem retains_newMode (id : GrammarId) (changed : Set RuleId) (firstMatch : Bool) :
    store.Retains id changed (Edit.newMode firstMatch store).2 where
  found _ _ h := h
  lookup _ _ h := h
  slot _ _ _ h := h
  mode _ _ h := getElem?_push_of_eq_some h firstMatch
  capacity _ _ h := h

theorem retains_newCache (id : GrammarId) (changed : Set RuleId) (capacity : Capacity) :
    store.Retains id changed (Edit.newCache capacity store).2 where
  found _ _ h := h
  lookup _ _ h := h
  slot _ _ _ h := h
  mode _ _ h := h
  capacity cache found h := by
    obtain ⟨entry, hentry, rfl⟩ := Option.map_eq_some_iff.1 h
    exact Option.map_eq_some_iff.2 ⟨entry, getElem?_push_of_eq_some hentry _, rfl⟩

theorem Grows.newMode (h : before.Grows id store) (firstMatch : Bool) :
    before.Grows id (Edit.newMode firstMatch store).2 where
  retains := h.retains.trans (retains_newMode id ∅ firstMatch)
  fresh := h.fresh
  rules_le := h.rules_le
  modes_le := by
    change _ ≤ (store.catalog.modes.push firstMatch).size
    rw [Array.size_push]
    exact Nat.le_succ_of_le h.modes_le
  caches_le := h.caches_le
  grammars := h.grammars

theorem Grows.newCache (h : before.Grows id store) (capacity : Capacity) :
    before.Grows id (Edit.newCache capacity store).2 where
  retains := h.retains.trans (retains_newCache id ∅ capacity)
  fresh := h.fresh
  rules_le := h.rules_le
  modes_le := h.modes_le
  caches_le := by
    change _ ≤ (store.caches.push (.empty capacity)).size
    rw [Array.size_push]
    exact Nat.le_succ_of_le h.caches_le
  grammars := h.grammars

section
variable {name : String} (hindex : id.index < store.catalog.grammars.size)
include hindex

theorem rules_push : (Edit.modifyTable id (·.push name) store).2.rules id = store.rules id + 1 := by
  rw [rules, Edit.modifyTable, Edit.grammar_modifyGrammar, if_pos ⟨rfl, hindex⟩]
  exact Array.size_push _

/-- The place of a rule that is added. -/
theorem local?_push (other : GrammarId) (name' : String) :
    (Edit.modifyTable id (·.push name) store).2.catalog.local? other name' =
      if other = id ∧ lowerText name = lowerText name' then some ⟨id, store.rules id⟩
      else store.catalog.local? other name' := by
  rw [Edit.modifyTable, Edit.local?_modifyGrammar]
  by_cases hother : other = id
  · subst hother
    rw [if_pos ⟨rfl, hindex⟩, RuleTable.find?_push]
    by_cases hname : lowerText name = lowerText name'
    · rw [if_pos hname, if_pos ⟨rfl, hname⟩]
      rfl
    · rw [if_neg hname, if_neg fun h => hname h.2]
      rfl
  · rw [if_neg fun h => hother h.1, if_neg fun h => hother h.1]

theorem slot?_push (rule : RuleId) :
    (Edit.modifyTable id (·.push name) store).2.catalog.slot? rule =
      if rule = ⟨id, store.rules id⟩ then some ⟨name, none, none⟩
      else store.catalog.slot? rule := by
  obtain ⟨grammar, place⟩ := rule
  rw [Edit.modifyTable, Edit.slot?_modifyGrammar]
  by_cases hgrammar : grammar = id
  · subst hgrammar
    rw [if_pos ⟨rfl, hindex⟩]
    change ((store.catalog.grammar grammar).table.slots.push ⟨name, none, none⟩)[place]? = _
    rw [Array.getElem?_push]
    by_cases hplace : place = (store.catalog.grammar grammar).table.slots.size
    · rw [if_pos hplace, if_pos (by rw [hplace]; rfl)]
    · rw [if_neg hplace, if_neg fun h => hplace (congrArg RuleId.slot h)]
      rfl
  · rw [if_neg fun h => hgrammar h.1, if_neg fun h => hgrammar (congrArg RuleId.grammar h)]

theorem lookup?_push (name' : String) :
    (Edit.modifyTable id (·.push name) store).2.catalog.lookup? id name' =
      if lowerText name = lowerText name' then some ⟨id, store.rules id⟩
      else store.catalog.lookup? id name' := by
  by_cases hsame : lowerText name = lowerText name'
  · rw [if_pos hsame, Catalog.lookup?, List.findSome?_cons, local?_push hindex, if_pos ⟨rfl, hsame⟩]
  · rw [if_neg hsame]
    refine Catalog.lookup?_congr (Edit.bases_modifyTable id _ store id) fun other => ?_
    rw [local?_push hindex, if_neg fun h => hsame h.2]

theorem retains_push (hname : store.catalog.lookup? id name = none) (changed : Set RuleId) :
    store.Retains id changed (Edit.modifyTable id (·.push name) store).2 where
  found name' rule hrule := by
    rw [local?_push hindex, if_neg, hrule]
    rintro ⟨-, hsame⟩
    rw [← Catalog.local?_congr hsame, Catalog.local?_eq_none_of_lookup? hname] at hrule
    cases hrule
  lookup name' rule hrule := by
    rw [lookup?_push hindex, if_neg, hrule]
    intro hsame
    have hlocal : store.catalog.lookup? id _ = store.catalog.lookup? id _ :=
      Catalog.lookup?_congr rfl (Catalog.local?_congr hsame.symm)
    rw [hname, hrule] at hlocal
    cases hlocal
  slot rule _ slot hslot := by
    rw [slot?_push hindex, if_neg, hslot]
    rintro rfl
    have hlt := (Array.getElem?_eq_some_iff.1 hslot).1
    exact Nat.lt_irrefl _ hlt
  mode _ _ h := h
  capacity _ _ h := h

end

theorem Grows.push (h : before.Grows id store) (hindex : id.index < store.catalog.grammars.size)
    {name : String} (hname : store.catalog.lookup? id name = none) :
    before.Grows id (Edit.modifyTable id (·.push name) store).2 where
  retains := h.retains.trans (retains_push hindex hname ∅)
  fresh name' rule hnone hsome := by
    rw [lookup?_push hindex] at hsome
    split at hsome
    case isTrue =>
      cases hsome
      exact ⟨rfl, h.rules_le, name, by rw [slot?_push hindex, if_pos rfl]⟩
    case isFalse =>
      obtain ⟨hgrammar, hle, spelled, hslot⟩ := h.fresh name' rule hnone hsome
      exact ⟨hgrammar, hle, spelled,
        (retains_push hindex hname ∅).slot rule (Set.notMem_empty _) _ hslot⟩
  rules_le := by
    rw [rules_push hindex]
    exact Nat.le_succ_of_le h.rules_le
  modes_le := h.modes_le
  caches_le := h.caches_le
  grammars := by
    rw [← h.grammars]
    exact Array.size_modify

end Store

namespace Store

variable {id : GrammarId} {changed changed' : Set RuleId} {store store' : Store}

theorem Retains.mono (h : store.Retains id changed store') (hsub : changed ⊆ changed') :
    store.Retains id changed' store' :=
  { h with slot := fun rule hrule => h.slot rule fun hmem => hrule (hsub hmem) }

theorem retains_modifyGrammar (changed : Set RuleId) (other : GrammarId)
    (change : Grammar → Grammar)
    (hindex : ∀ grammar, (change grammar).table.index = grammar.table.index)
    (hbases : ∀ grammar, (change grammar).bases = grammar.bases)
    (hslot : ∀ rule ∉ changed, rule.grammar = other → ∀ grammar : Grammar,
      (change grammar).table.slots[rule.slot]? = grammar.table.slots[rule.slot]?) :
    store.Retains id changed (Edit.modifyGrammar other change store).2 := by
  have hlocal : ∀ grammar name, (Edit.modifyGrammar other change store).2.catalog.local? grammar
      name = store.catalog.local? grammar name := by
    intro grammar name
    rw [Edit.local?_modifyGrammar]
    split
    case isTrue h => rw [RuleTable.find?, hindex, h.1]; rfl
    case isFalse => rfl
  refine ⟨fun name rule hrule => (hlocal id name).trans hrule, fun name rule hrule => ?_,
    fun rule hrule slot h => ?_, fun _ _ h => h, fun _ _ h => h⟩
  · rw [← hrule]
    refine Catalog.lookup?_congr ?_ fun grammar => hlocal grammar name
    rw [Edit.grammar_modifyGrammar]
    split
    case isTrue h => rw [hbases, h.1]
    case isFalse => rfl
  · rw [Edit.slot?_modifyGrammar]
    split
    case isTrue heq => rw [hslot rule hrule heq.1, ← h, Catalog.slot?, heq.1]
    case isFalse => exact h

theorem retains_retain (changed : Set RuleId) (home other : GrammarId) :
    store.Retains id changed (Edit.retain home other store).2 :=
  retains_modifyGrammar changed home _ (fun grammar => by split <;> rfl)
    (fun grammar => by split <;> rfl) fun rule _ _ grammar => by split <;> rfl

theorem retains_adopt (changed : Set RuleId) (home : GrammarId) (parser : Parser) :
    store.Retains id changed (Edit.adopt home parser store).2 := by
  have hall : ∀ (targets : List RuleId) (store : Store), store.Retains id changed
      ((targets.forM fun target => Edit.retain home target.grammar : Edit Unit) store).2 := by
    intro targets
    induction targets with
    | nil => exact fun store => .refl id changed store
    | cons target rest ih =>
      exact fun store => (retains_retain changed home target.grammar).trans (ih _)
  simp only [Edit.adopt, Edit.bind_apply, Edit.get_apply]
  exact (retains_modifyGrammar changed home (fun grammar =>
    { grammar with registry := grammar.registry.registerAll store.cacheAlive parser.caches })
    (fun _ => rfl)
      (fun _ => rfl) fun _ _ _ _ => rfl).trans (hall _ _)

theorem retains_clearCaches (changed : Set RuleId) (home : GrammarId) :
    store.Retains id changed (Edit.clearCaches home store).2 where
  found _ _ h := h
  lookup _ _ h := h
  slot _ _ _ h := h
  mode _ _ h := h
  capacity cache capacity h := by
    change Option.map _ (((store.cachesOf home).foldl
      (fun caches cache => caches.modify cache.index (·.clear)) store.caches)[cache.index]?) = _
    change Option.map _ (store.caches[cache.index]?) = _ at h
    generalize store.caches = caches at h ⊢
    induction store.cachesOf home generalizing caches with
    | nil => exact h
    | cons first rest ih =>
      refine ih _ ?_
      rw [Array.getElem?_modify]
      split
      case isTrue => simpa [Cache.clear, Function.comp_def] using h
      case isFalse => exact h

theorem retains_updateRule (rule : RuleId) (change : Slot → Slot) :
    store.Retains id {rule} (Edit.updateRule rule change store).2 := by
  refine (retains_modifyGrammar {rule} rule.grammar (fun grammar =>
    { grammar with table := grammar.table.update rule.slot change }) (fun _ => rfl) (fun _ => rfl)
      fun other hother hgrammar grammar => ?_).trans (retains_clearCaches {rule} rule.grammar)
  change (grammar.table.slots.modify rule.slot change)[other.slot]? = _
  rw [Array.getElem?_modify, if_neg]
  intro hslot
  obtain ⟨_, _⟩ := rule
  obtain ⟨_, _⟩ := other
  cases hslot
  cases hgrammar
  exact hother rfl

theorem retains_setDefinition (rule : RuleId) (definition : Parser) :
    store.Retains id {rule} (Edit.setDefinition rule definition store).2 :=
  (retains_adopt {rule} rule.grammar definition).trans (retains_updateRule rule _)

theorem retains_addAlternative (rule : RuleId) (alternative : Parser) :
    store.Retains id {rule} (Edit.addAlternative rule alternative store).2 := by
  cases hdefinition : store.catalog.definition? rule with
  | some existing =>
    simp only [Edit.addAlternative, Edit.bind_apply, Edit.get_apply, hdefinition]
    exact (retains_newMode id {rule} _).trans (retains_setDefinition rule _)
  | none =>
    simp only [Edit.addAlternative, Edit.bind_apply, Edit.get_apply, hdefinition]
    exact retains_setDefinition rule alternative

theorem retains_define {rule : RuleId} {name : String}
    (h : store.catalog.local? id name = some rule) (definition : Parser) :
    (Edit.define id name definition store).1 = rule ∧
      store.Retains id {rule} (Edit.define id name definition store).2 := by
  simp only [Edit.define, Edit.bind_apply, Edit.pure_apply, localRule_eq_of_local h]
  exact ⟨trivial, retains_setDefinition rule definition⟩

theorem retains_extend {rule : RuleId} {name : String}
    (h : store.catalog.local? id name = some rule) (alternative : Parser) :
    (Edit.extend id name alternative store).1 = rule ∧
      store.Retains id {rule} (Edit.extend id name alternative store).2 := by
  have hlookups : Edit.extend id name alternative store =
      ((if (store.catalog.definition? rule).isNone = true then (do
        ((store.catalog.grammar id).base?.bind fun base => (store.catalog.lookup? base name).bind
          store.catalog.definition?).forM (Edit.setDefinition rule)
        Edit.addAlternative rule alternative
        pure rule) else (do
        Edit.addAlternative rule alternative
        pure rule) : Edit RuleId) store) := by
    rw [Edit.extend, Edit.bind_apply, localRule_eq_of_local h]
    rfl
  rw [hlookups]
  by_cases hunbound : (store.catalog.definition? rule).isNone = true
  · rw [if_pos hunbound]
    simp only [Edit.bind_apply, Edit.pure_apply]
    refine ⟨trivial, .trans ?_ (retains_addAlternative rule alternative)⟩
    cases (store.catalog.grammar id).base?.bind fun base =>
        (store.catalog.lookup? base name).bind store.catalog.definition? with
    | none => exact .refl id {rule} store
    | some inherited => exact retains_setDefinition rule inherited
  · rw [if_neg hunbound]
    simp only [Edit.bind_apply, Edit.pure_apply]
    exact ⟨trivial, retains_addAlternative rule alternative⟩

theorem slot?_updateRule {rule : RuleId} (hindex : rule.grammar.index < store.catalog.grammars.size)
    (change : Slot → Slot) :
    (Edit.updateRule rule change store).2.catalog.slot? rule =
      (store.catalog.slot? rule).map change := by
  change (Edit.modifyTable rule.grammar (·.update rule.slot change) store).2.catalog.slot? rule = _
  rw [Edit.modifyTable, Edit.slot?_modifyGrammar, if_pos ⟨rfl, hindex⟩]
  change ((store.catalog.grammar rule.grammar).table.slots.modify rule.slot change)[rule.slot]? = _
  rw [Array.getElem?_modify, if_pos rfl]
  rfl

/-- A rule that exists has the definition that is set. -/
theorem definition?_setDefinition {rule : RuleId} {slot : Slot}
    (hindex : rule.grammar.index < store.catalog.grammars.size)
    (hslot : store.catalog.slot? rule = some slot) (definition : Parser) :
    (Edit.setDefinition rule definition store).2.catalog.definition? rule = some definition := by
  have hadopt : store.Retains rule.grammar ∅ (Edit.adopt rule.grammar definition store).2 :=
    retains_adopt ∅ rule.grammar definition
  have hindex' := hindex
  rw [← (quiet_adopt rule.grammar definition).grammars] at hindex'
  simp only [Edit.setDefinition, Edit.bind_apply, Catalog.definition?]
  rw [slot?_updateRule hindex', hadopt.slot rule (Set.notMem_empty rule) slot hslot]
  rfl

end Store

namespace Edit

variable {id : GrammarId} {before : Store}

/-- What an edit gives when a name is looked up that had no meaning, or one that had. -/
theorem rule_grows {store : Store} (h : before.Grows id store)
    (hindex : id.index < store.catalog.grammars.size) (name : String) :
    before.Grows id (rule id name store).2 ∧ store.Retains id ∅ (rule id name store).2 ∧
      (rule id name store).2.catalog.lookup? id name = some (rule id name store).1 := by
  cases hlookup : store.catalog.lookup? id name with
  | some found =>
    simp only [rule, bind_apply, get_apply, pure_apply, hlookup]
    exact ⟨h, .refl id ∅ store, trivial⟩
  | none =>
    have hlocal := Catalog.local?_eq_none_of_lookup? hlookup
    simp only [rule, localRule, bind_apply, get_apply, pure_apply, hlookup, hlocal]
    refine ⟨h.push hindex hlookup, Store.retains_push hindex hlookup ∅, ?_⟩
    rw [Store.lookup?_push hindex, if_pos rfl]
    rfl

mutual
/-- Assembling gives a parser that the expression describes. -/
theorem assemble_describes (options : Options) (expression : Expression) {store : Store}
    (h : before.Grows id store) (hindex : id.index < store.catalog.grammars.size) :
    before.Grows id (assemble id options expression store).2 ∧
      store.Retains id ∅ (assemble id options expression store).2 ∧
      expression.Describes id options before (assemble id options expression store).2
        (assemble id options expression store).1 := by
  cases expression with
  | literal terminal =>
    simp only [assemble, pure_apply, Expression.Describes]
    exact ⟨h, .refl id ∅ store, trivial⟩
  | name called =>
    obtain ⟨hgrows, hretains, hlookup⟩ := rule_grows h hindex called
    simp only [assemble, bind_apply, get_apply, pure_apply, Expression.Describes]
    exact ⟨hgrows, hretains, _, rfl, hgrows.resolves hlookup⟩
  | choice branches =>
    obtain ⟨hgrows, hretains, hall⟩ := assembleAll_describes options branches h hindex
    simp only [assemble, bind_apply, Expression.Describes]
    generalize assembleAll id options branches store = assembled at hgrows hretains hall ⊢
    have hmode : assembled.2.Retains id ∅ _ := Store.retains_newMode id ∅ options.firstMatch
    refine ⟨hgrows.newMode _, hretains.trans hmode, _, _, rfl, hgrows.modes_le, ?_,
      hall.retains hmode (by simp)⟩
    exact Array.getElem?_push_size
  | sequence items =>
    obtain ⟨hgrows, hretains, hall⟩ := assembleAll_describes options items h hindex
    simp only [assemble, bind_apply, pure_apply, Expression.Describes]
    exact ⟨hgrows, hretains, _, rfl, hall⟩
  | repeated bounds element =>
    obtain ⟨hgrows, hretains, helement⟩ := assemble_describes options element h hindex
    simp only [assemble, bind_apply, Expression.Describes]
    generalize assemble id options element store = assembled at hgrows hretains helement ⊢
    have hcache : assembled.2.Retains id ∅ _ := Store.retains_newCache id ∅ options.cacheSize
    refine ⟨hgrows.newCache _, hretains.trans hcache, _, _, rfl, hgrows.caches_le, ?_,
      helement.retains hcache (by simp)⟩
    exact Option.map_eq_some_iff.2 ⟨_, Array.getElem?_push_size, rfl⟩
  | optional element =>
    obtain ⟨hgrows, hretains, helement⟩ := assemble_describes options element h hindex
    simp only [assemble, bind_apply, Expression.Describes]
    generalize assemble id options element store = assembled at hgrows hretains helement ⊢
    have hcache : assembled.2.Retains id ∅ _ := Store.retains_newCache id ∅ options.cacheSize
    refine ⟨hgrows.newCache _, hretains.trans hcache, _, _, rfl, hgrows.caches_le, ?_,
      helement.retains hcache (by simp)⟩
    exact Option.map_eq_some_iff.2 ⟨_, Array.getElem?_push_size, rfl⟩
  | prose text =>
    simp only [assemble, pure_apply, Expression.Describes]
    exact ⟨h, .refl id ∅ store, trivial⟩

theorem assembleAll_describes (options : Options) (expressions : List Expression) {store : Store}
    (h : before.Grows id store) (hindex : id.index < store.catalog.grammars.size) :
    before.Grows id (assembleAll id options expressions store).2 ∧
      store.Retains id ∅ (assembleAll id options expressions store).2 ∧
      Expression.DescribesAll id options before (assembleAll id options expressions store).2
        expressions (assembleAll id options expressions store).1 := by
  cases expressions with
  | nil =>
    simp only [assembleAll, pure_apply, Expression.DescribesAll]
    exact ⟨h, .refl id ∅ store, trivial⟩
  | cons expression rest =>
    obtain ⟨hgrows, hretains, hfirst⟩ := assemble_describes options expression h hindex
    simp only [assembleAll, bind_apply, pure_apply, Expression.DescribesAll]
    generalize assemble id options expression store = assembled at hgrows hretains hfirst ⊢
    have hindex' : id.index < assembled.2.catalog.grammars.size := by
      rwa [hgrows.grammars, ← h.grammars]
    obtain ⟨hgrows', hretains', hrest⟩ := assembleAll_describes options rest hgrows hindex'
    exact ⟨hgrows', hretains.trans hretains', _, _, rfl, hfirst.retains hretains' (by simp), hrest⟩
end

end Edit

namespace Parser

def mode? : Parser → Option ModeId
  | .alternation mode _ => some mode
  | _ => none

/-- Every repetition and option in a parser has a cache of its own, and every alternation a
mode. -/
structure Separate (parser : Parser) : Prop where
  caches : (parser.walk.filterMap cache?).Nodup
  modes : (parser.walk.filterMap mode?).Nodup

end Parser

structure Drawn (least most : Nat) (numbers : List Nat) : Prop where
  le : least ≤ most
  nodup : numbers.Nodup
  range : ∀ n ∈ numbers, least ≤ n ∧ n < most

namespace Drawn

variable {least middle most : Nat} {numbers others : List Nat}

theorem nil (h : least ≤ most) : Drawn least most [] :=
  ⟨h, List.nodup_nil, by simp⟩

theorem next (least : Nat) : Drawn least (least + 1) [least] :=
  ⟨Nat.le_succ least, List.nodup_singleton least, by simp⟩

theorem append (h : Drawn least middle numbers) (h' : Drawn middle most others) :
    Drawn least most (numbers ++ others) where
  le := h.le.trans h'.le
  nodup := by
    apply h.nodup.append h'.nodup
    intro n hn hn'
    have hlt := (h.range n hn).2
    have hle := (h'.range n hn').1
    omega
  range n hn := by
    have hle := h.le
    have hle' := h'.le
    rcases List.mem_append.1 hn with hn | hn
    · have hrange := h.range n hn
      omega
    · have hrange := h'.range n hn
      omega

theorem perm (h : Drawn least most numbers) (hperm : others.Perm numbers) :
    Drawn least most others :=
  ⟨h.le, hperm.nodup_iff.2 h.nodup, fun n hn => h.range n (hperm.mem_iff.1 hn)⟩

end Drawn

/-- Every cache and every mode of some parsers has been handed out between two stores, and
each to one place only. -/
structure Store.Coined (before after : Store) (nodes : List Parser) : Prop where
  caches : Drawn before.caches.size after.caches.size
    ((nodes.filterMap Parser.cache?).map (·.index))
  modes : Drawn before.catalog.modes.size after.catalog.modes.size
    ((nodes.filterMap Parser.mode?).map (·.index))

namespace Store.Coined

variable {before between after : Store} {nodes others : List Parser} {node : Parser}

theorem append (h : before.Coined between nodes) (h' : between.Coined after others) :
    before.Coined after (nodes ++ others) := by
  constructor
  · rw [List.filterMap_append, List.map_append]
    exact h.caches.append h'.caches
  · rw [List.filterMap_append, List.map_append]
    exact h.modes.append h'.modes

theorem cons (h : before.Coined between nodes) (h' : between.Coined after [node]) :
    before.Coined after (node :: nodes) := by
  have happend := h.append h'
  have hperm : (node :: nodes).Perm (nodes ++ [node]) := (List.perm_append_singleton node nodes).symm
  constructor
  · exact happend.caches.perm ((hperm.filterMap _).map _)
  · exact happend.modes.perm ((hperm.filterMap _).map _)

theorem plain (hcaches : before.caches.size ≤ after.caches.size)
    (hmodes : before.catalog.modes.size ≤ after.catalog.modes.size)
    (hcache : nodes.filterMap Parser.cache? = []) (hmode : nodes.filterMap Parser.mode? = []) :
    before.Coined after nodes := by
  constructor
  · rw [hcache]
    exact .nil hcaches
  · rw [hmode]
    exact .nil hmodes

theorem newCache (store : Store) (capacity : Capacity)
    (hcache : node.cache? = some ⟨store.caches.size⟩) (hmode : node.mode? = none) :
    store.Coined (Edit.newCache capacity store).2 [node] := by
  have hsize : (Edit.newCache capacity store).2.caches.size = store.caches.size + 1 :=
    Array.size_push _
  constructor
  · simpa [hcache, hsize] using Drawn.next store.caches.size
  · rw [List.filterMap_cons, hmode]
    exact .nil le_rfl

theorem newMode (store : Store) (firstMatch : Bool)
    (hcache : node.cache? = none) (hmode : node.mode? = some ⟨store.catalog.modes.size⟩) :
    store.Coined (Edit.newMode firstMatch store).2 [node] := by
  have hsize : (Edit.newMode firstMatch store).2.catalog.modes.size =
      store.catalog.modes.size + 1 := Array.size_push _
  constructor
  · rw [List.filterMap_cons, hcache]
    exact .nil le_rfl
  · simpa [hmode, hsize] using Drawn.next store.catalog.modes.size

theorem separate {parser : Parser} (h : before.Coined after parser.walk) : parser.Separate :=
  ⟨.of_map _ h.caches.nodup, .of_map _ h.modes.nodup⟩

end Store.Coined

namespace Edit

mutual
/-- Assembling hands out every cache and every mode once. -/
theorem coined_assemble (id : GrammarId) (options : Options) (expression : Expression)
    (store : Store) :
    store.Coined (assemble id options expression store).2
      (assemble id options expression store).1.walk := by
  cases expression with
  | literal terminal | prose text =>
    simp only [assemble, pure_apply]
    exact .plain le_rfl le_rfl rfl rfl
  | name called =>
    have hquiet : Quiet store (rule id called store).2 := quiet_rule id called
    simp only [assemble, bind_apply, get_apply, pure_apply]
    exact .plain hquiet.caches_le hquiet.modes_le rfl rfl
  | choice branches =>
    have hall := coined_assembleAll id options branches store
    simp only [assemble, bind_apply]
    generalize assembleAll id options branches store = assembled at hall ⊢
    exact hall.cons (.newMode assembled.2 _ rfl rfl)
  | sequence items =>
    have hall := coined_assembleAll id options items store
    simp only [assemble, bind_apply, pure_apply]
    exact hall.cons (.plain le_rfl le_rfl rfl rfl)
  | repeated bounds element =>
    have helement := coined_assemble id options element store
    simp only [assemble, bind_apply]
    generalize assemble id options element store = assembled at helement ⊢
    exact helement.cons (.newCache assembled.2 _ rfl rfl)
  | optional element =>
    have helement := coined_assemble id options element store
    simp only [assemble, bind_apply]
    generalize assemble id options element store = assembled at helement ⊢
    exact helement.cons (.newCache assembled.2 _ rfl rfl)

theorem coined_assembleAll (id : GrammarId) (options : Options) (expressions : List Expression)
    (store : Store) :
    store.Coined (assembleAll id options expressions store).2
      (Parser.walkAll (assembleAll id options expressions store).1) := by
  cases expressions with
  | nil =>
    simp only [assembleAll, pure_apply]
    exact .plain le_rfl le_rfl rfl rfl
  | cons expression rest =>
    have hfirst := coined_assemble id options expression store
    simp only [assembleAll, bind_apply, pure_apply]
    exact hfirst.append (coined_assembleAll id options rest _)
end

end Edit
end Metasyntax
