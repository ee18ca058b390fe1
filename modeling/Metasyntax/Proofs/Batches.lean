import Metasyntax.Proofs.Renaming
import Metasyntax.Proofs.Resolution
import Metasyntax.Proofs.Upkeep

/-!
# What a batch of rules leaves

When productions are bound in a grammar, the grammar gets rules for the names that they
define and for the names in their bodies that have no meaning there, and the rules that
are defined get the parsers that their bodies describe. Nothing else changes. This says
nothing about places and identities, and so it is the same for every order of the
productions.
-/

set_option autoImplicit false

namespace Metasyntax

namespace Catalog

def Interned (catalog : Catalog) : Prop := ∀ id, (catalog.grammar id).table.Interned

variable {catalog : Catalog}

theorem Interned.local?_eq_some_iff (h : catalog.Interned) {id : GrammarId} {name : String}
    {rule : RuleId} : catalog.local? id name = some rule ↔ rule.grammar = id ∧
      ∃ slot, catalog.slot? rule = some slot ∧ lowerText slot.name = lowerText name := by
  obtain ⟨grammar, place⟩ := rule
  simp only [local?, Option.map_eq_some_iff, RuleId.mk.injEq]
  constructor
  · rintro ⟨place', hplace, rfl, rfl⟩
    exact ⟨rfl, (h id).find?.1 hplace⟩
  · rintro ⟨rfl, hslot⟩
    exact ⟨place, (h grammar).find?.2 hslot, rfl, rfl⟩

theorem Interned.local?_of_slot (h : catalog.Interned) {rule : RuleId} {slot : Slot}
    (hslot : catalog.slot? rule = some slot) :
    catalog.local? rule.grammar slot.name = some rule :=
  h.local?_eq_some_iff.2 ⟨rfl, slot, hslot, rfl⟩

theorem Interned.slot_of_lookup (h : catalog.Interned) {id : GrammarId} {name : String}
    {rule : RuleId} (hrule : catalog.lookup? id name = some rule) :
    ∃ slot, catalog.slot? rule = some slot ∧ lowerText slot.name = lowerText name := by
  obtain ⟨other, -, hlocal⟩ := List.exists_of_findSome?_eq_some hrule
  exact (h.local?_eq_some_iff.1 hlocal).2

theorem lookup?_of_local_none {id : GrammarId} {name : String}
    (h : catalog.local? id name = none) :
    catalog.lookup? id name = (catalog.grammar id).bases.findSome? (catalog.local? · name) := by
  simp [lookup?, h]

structure Develops (id : GrammarId) (wanted : String → Prop) (bound : RuleId → Prop)
    (c c' : Catalog) : Prop where
  lost : c'.lost = c.lost
  size : c'.grammars.size = c.grammars.size
  bases : ∀ other, (c'.grammar other).bases = (c.grammar other).bases
  options : ∀ other, (c'.grammar other).options = (c.grammar other).options
  found : ∀ other name rule, c.local? other name = some rule → c'.local? other name = some rule
  added : ∀ other name rule, c'.local? other name = some rule →
    c.local? other name = some rule ∨ other = id ∧ wanted name
  slot : ∀ rule slot, c.slot? rule = some slot → ∃ slot', c'.slot? rule = some slot' ∧
    slot'.name = slot.name ∧ slot'.exclusion = slot.exclusion ∧
      (¬ bound rule → slot'.definition = slot.definition)
  fresh : ∀ rule slot, c.slot? rule = none → c'.slot? rule = some slot →
    slot.exclusion = none ∧ (¬ bound rule → slot.definition = none)
  mode : ∀ mode : ModeId, ∀ firstMatch, c.modes[mode.index]? = some firstMatch →
    c'.modes[mode.index]? = some firstMatch

namespace Develops

variable {id : GrammarId} {wanted wanted' : String → Prop} {bound bound' : RuleId → Prop}
  {c c' c'' : Catalog}

theorem refl (id : GrammarId) (wanted : String → Prop) (bound : RuleId → Prop) (c : Catalog) :
    Develops id wanted bound c c where
  lost := rfl
  size := rfl
  bases _ := rfl
  options _ := rfl
  found _ _ _ h := h
  added _ _ _ h := Or.inl h
  slot _ slot h := ⟨slot, h, rfl, rfl, fun _ => rfl⟩
  fresh _ _ hnone hsome := by rw [hnone] at hsome; cases hsome
  mode _ _ h := h

theorem trans (h : Develops id wanted bound c c') (h' : Develops id wanted bound c' c'') :
    Develops id wanted bound c c'' where
  lost := h'.lost.trans h.lost
  size := h'.size.trans h.size
  bases other := (h'.bases other).trans (h.bases other)
  options other := (h'.options other).trans (h.options other)
  found other name rule hrule := h'.found other name rule (h.found other name rule hrule)
  added other name rule hrule := (h'.added other name rule hrule).elim (h.added other name rule)
    Or.inr
  slot rule slot hslot := by
    obtain ⟨slot', hslot', hname, hexclusion, hdefinition⟩ := h.slot rule slot hslot
    obtain ⟨slot'', hslot'', hname', hexclusion', hdefinition'⟩ := h'.slot rule slot' hslot'
    exact ⟨slot'', hslot'', hname'.trans hname, hexclusion'.trans hexclusion,
      fun hbound => (hdefinition' hbound).trans (hdefinition hbound)⟩
  fresh rule slot hnone hslot := by
    cases hbetween : c'.slot? rule with
    | none => exact h'.fresh rule slot hbetween hslot
    | some slot' =>
      obtain ⟨hexclusion, hdefinition⟩ := h.fresh rule slot' hnone hbetween
      obtain ⟨slot'', hslot'', -, hexclusion', hdefinition'⟩ := h'.slot rule slot' hbetween
      obtain rfl : slot'' = slot := Option.some.inj (hslot''.symm.trans hslot)
      exact ⟨hexclusion'.trans hexclusion,
        fun hbound => (hdefinition' hbound).trans (hdefinition hbound)⟩
  mode mode firstMatch hmode := h'.mode mode firstMatch (h.mode mode firstMatch hmode)

theorem mono (h : Develops id wanted bound c c') (hwanted : ∀ name, wanted name → wanted' name)
    (hbound : ∀ rule, bound rule → bound' rule) : Develops id wanted' bound' c c' :=
  { h with
    added := fun other name rule hrule => (h.added other name rule hrule).imp_right
      fun hid => ⟨hid.1, hwanted name hid.2⟩
    slot := fun rule slot hslot => by
      obtain ⟨slot', hslot', hname, hexclusion, hdefinition⟩ := h.slot rule slot hslot
      exact ⟨slot', hslot', hname, hexclusion, fun hnot => hdefinition (mt (hbound rule) hnot)⟩
    fresh := fun rule slot hnone hslot => by
      obtain ⟨hexclusion, hdefinition⟩ := h.fresh rule slot hnone hslot
      exact ⟨hexclusion, fun hnot => hdefinition (mt (hbound rule) hnot)⟩ }

theorem local?_eq_none (h : Develops id wanted bound c c') {other : GrammarId} {name : String}
    (hnone : c.local? other name = none) (hwanted : other = id → ¬ wanted name) :
    c'.local? other name = none := by
  refine Option.eq_none_iff_forall_not_mem.2 fun rule hrule => ?_
  obtain hold | ⟨hid, hnew⟩ := h.added other name rule hrule
  · rw [hnone] at hold
    cases hold
  · exact hwanted hid hnew

/-- A base means what it did. -/
theorem lookup?_bases (h : Develops id wanted bound c c') {name : String}
    (hnone : c'.local? id name = none) :
    (c'.grammar id).bases.findSome? (c'.local? · name) =
      (c.grammar id).bases.findSome? (c.local? · name) := by
  rw [h.bases]
  refine congrArg (List.findSome? · _) (funext fun other => ?_)
  cases hold : c.local? other name with
  | some rule => exact h.found other name rule hold
  | none =>
    by_cases hother : other = id
    · rw [hother, hnone]
    · exact h.local?_eq_none hold fun hid => absurd hid hother

/-- A name goes on to mean what it does, unless a rule that is wanted hides it. -/
theorem lookup? (h : Develops id wanted bound c c') {name : String} {rule : RuleId}
    (hrule : c.lookup? id name = some rule)
    (hwanted : wanted name → (c.local? id name).isSome) : c'.lookup? id name = some rule := by
  cases hlocal : c.local? id name with
  | some own =>
    rw [lookup?_of_local hlocal] at hrule
    exact lookup?_of_local (hrule ▸ h.found id name own hlocal)
  | none =>
    rw [hlocal] at hwanted
    have hnone := h.local?_eq_none hlocal fun _ hname => Bool.noConfusion (hwanted hname)
    rwa [lookup?_of_local_none hnone, h.lookup?_bases hnone, ← lookup?_of_local_none hlocal]

/-- A rule that there was is a rule of its own in all that the catalog has become. -/
theorem twins_cases (hinterned : c.Interned) {bound₁ bound₂ : RuleId → Prop} {c₁ c₂ : Catalog}
    (h₁ : Develops id wanted bound₁ c c₁) (h₂ : Develops id wanted bound₂ c c₂)
    (hinterned₁ : c₁.Interned) (hinterned₂ : c₂.Interned) {rule rule' : RuleId}
    (htwins : c₁.Twins c₂ rule rule') :
    (rule = rule' ∧ ∃ slot, c.slot? rule = some slot) ∨
      c.slot? rule = none ∧ c.slot? rule' = none := by
  obtain ⟨hgrammar, slot₁, slot₂, hslot₁, hslot₂, hname⟩ := htwins
  cases hold : c.slot? rule with
  | some slot =>
    refine Or.inl ⟨?_, slot, rfl⟩
    obtain ⟨slot', hslot', hsame, -⟩ := h₁.slot rule slot hold
    obtain rfl : slot' = slot₁ := Option.some.inj (hslot'.symm.trans hslot₁)
    have hfound := h₂.found _ _ _ (hinterned.local?_of_slot hold)
    refine Option.some.inj (hfound.symm.trans ?_)
    exact hinterned₂.local?_eq_some_iff.2 ⟨hgrammar.symm, slot₂, hslot₂, by rw [← hname, hsame]⟩
  | none =>
    refine Or.inr ⟨rfl, Option.eq_none_iff_forall_not_mem.2 fun slot hnew => ?_⟩
    obtain ⟨slot', hslot', hsame, -⟩ := h₂.slot rule' slot hnew
    obtain rfl : slot' = slot₂ := Option.some.inj (hslot'.symm.trans hslot₂)
    have hfound := h₁.found _ _ _ (hinterned.local?_of_slot hnew)
    have hrule : c₁.local? rule'.grammar slot.name = some rule :=
      hinterned₁.local?_eq_some_iff.2 ⟨hgrammar, slot₁, hslot₁, by rw [hname, hsame]⟩
    obtain rfl : rule' = rule := Option.some.inj (hfound.symm.trans hrule)
    rw [hold] at hnew
    cases hnew

/-- A name does not lose its meaning, even where it gets another one. -/
theorem lookup?_isSome (h : Develops id wanted bound c c') {name : String}
    (hsome : (c.lookup? id name).isSome) : (c'.lookup? id name).isSome := by
  cases hlocal : c'.local? id name with
  | some own => rw [lookup?_of_local hlocal]; rfl
  | none =>
    have hold : c.local? id name = none := by
      refine Option.eq_none_iff_forall_not_mem.2 fun rule hrule => ?_
      rw [h.found id name rule hrule] at hlocal
      cases hlocal
    rwa [lookup?_of_local_none hlocal, h.lookup?_bases hlocal, ← lookup?_of_local_none hold]

end Develops

end Catalog

namespace Edit

variable {id : GrammarId} {wanted : String → Prop} {bound : RuleId → Prop} {before : Catalog}
  {store : Store}

/-- A grammar is changed in what no rule is found by, and in definitions of rules to be bound. -/
theorem develops_modifyGrammar (other : GrammarId) (change : Grammar → Grammar)
    (hindex : ∀ grammar, (change grammar).table.index = grammar.table.index)
    (hbases : ∀ grammar, (change grammar).bases = grammar.bases)
    (hoptions : ∀ grammar, (change grammar).options = grammar.options)
    (hslot : ∀ grammar (place : Nat) (slot : Slot), grammar.table.slots[place]? = some slot →
      ∃ slot', (change grammar).table.slots[place]? = some slot' ∧ slot'.name = slot.name ∧
        slot'.exclusion = slot.exclusion ∧
          (¬ bound ⟨other, place⟩ → slot'.definition = slot.definition))
    (hnone : ∀ grammar (place : Nat), grammar.table.slots[place]? = none →
      (change grammar).table.slots[place]? = none) :
    Catalog.Develops id wanted bound store.catalog
      (modifyGrammar other change store).2.catalog := by
  have hgrammar := grammar_modifyGrammar other change store
  have hlocal (id : GrammarId) (name : String) :
      (modifyGrammar other change store).2.catalog.local? id name =
        store.catalog.local? id name := by
    rw [local?_modifyGrammar]
    split
    case isFalse => rfl
    case isTrue h =>
      rw [h.1, RuleTable.find?, hindex]
      rfl
  refine
    { lost := rfl
      size := Array.size_modify
      bases := fun id => ?_
      options := fun id => ?_
      found := fun id name rule h => (hlocal id name).trans h
      added := fun id name rule h => Or.inl ((hlocal id name).symm.trans h)
      slot := fun rule slot h => ?_
      fresh := fun rule slot hold hnew => ?_
      mode := fun _ _ h => h }
  · rw [hgrammar]
    split
    case isFalse => rfl
    case isTrue h => rw [h.1, hbases]
  · rw [hgrammar]
    split
    case isFalse => rfl
    case isTrue h => rw [h.1, hoptions]
  · obtain ⟨grammar, place⟩ := rule
    rw [slot?_modifyGrammar]
    split
    case isFalse => exact ⟨slot, h, rfl, rfl, fun _ => rfl⟩
    case isTrue hother =>
      obtain rfl : grammar = other := hother.1
      exact hslot _ place slot h
  · rw [slot?_modifyGrammar] at hnew
    split at hnew
    case isFalse => rw [hold] at hnew; cases hnew
    case isTrue hother =>
      rw [Catalog.slot?, hother.1] at hold
      rw [hnone _ _ hold] at hnew
      cases hnew

theorem develops_of_table (other : GrammarId) (change : Grammar → Grammar)
    (htable : ∀ grammar, (change grammar).table = grammar.table)
    (hbases : ∀ grammar, (change grammar).bases = grammar.bases)
    (hoptions : ∀ grammar, (change grammar).options = grammar.options) :
    Catalog.Develops id wanted bound store.catalog (modifyGrammar other change store).2.catalog :=
  develops_modifyGrammar other change (fun grammar => by rw [htable]) hbases hoptions
    (fun grammar place slot h => ⟨slot, by rwa [htable], rfl, rfl, fun _ => rfl⟩)
    fun grammar place h => by rwa [htable]

theorem develops_retain (home other : GrammarId) :
    Catalog.Develops id wanted bound store.catalog (retain home other store).2.catalog := by
  apply develops_of_table
  all_goals
    intro grammar
    split <;> rfl

theorem develops_adopt (home : GrammarId) (parser : Parser) :
    Catalog.Develops id wanted bound store.catalog (adopt home parser store).2.catalog := by
  have hforM (targets : List RuleId) (store : Store) :
      Catalog.Develops id wanted bound store.catalog ((targets.forM fun target =>
        retain home target.grammar : Edit Unit) store).2.catalog := by
    induction targets generalizing store with
    | nil => exact .refl ..
    | cons target rest ih => exact (develops_retain home target.grammar).trans (ih _)
  exact (develops_of_table home
    (fun grammar =>
      { grammar with registry := grammar.registry.registerAll store.cacheAlive parser.caches })
    (fun _ => rfl) (fun _ => rfl) fun _ => rfl).trans (hforM _ _)

theorem develops_setDefinition {rule : RuleId} (hbound : bound rule) (definition : Parser) :
    Catalog.Develops id wanted bound store.catalog
      (setDefinition rule definition store).2.catalog := by
  refine (develops_adopt rule.grammar definition).trans ?_
  refine develops_modifyGrammar rule.grammar _ (fun _ => rfl) (fun _ => rfl) (fun _ => rfl)
    (fun grammar place slot h => ?_) fun grammar place h => ?_
  · by_cases hplace : rule.slot = place
    · subst hplace
      exact ⟨{ slot with definition := some definition },
        by simp [RuleTable.update, Array.getElem?_modify, h], rfl, rfl,
        fun hnot => absurd hbound hnot⟩
    · exact ⟨slot, by simp [RuleTable.update, Array.getElem?_modify, hplace, h], rfl, rfl,
        fun _ => rfl⟩
  · simp [RuleTable.update, Array.getElem?_modify, h]

theorem develops_newMode (firstMatch : Bool) :
    Catalog.Develops id wanted bound store.catalog (newMode firstMatch store).2.catalog :=
  { Catalog.Develops.refl id wanted bound store.catalog with
    mode := fun _ _ h => Store.getElem?_push_of_eq_some h _ }

/-- A rule that is added must be wanted under every spelling of its name. -/
theorem develops_localRule (hindex : id.index < store.catalog.grammars.size) {name : String}
    (hwanted : store.catalog.local? id name = none → ∀ spelling,
      lowerText name = lowerText spelling → wanted spelling) :
    Catalog.Develops id wanted bound store.catalog (localRule id name store).2.catalog := by
  cases hlocal : store.catalog.local? id name with
  | some rule =>
    rw [Store.localRule_eq_of_local hlocal]
    exact .refl ..
  | none =>
    have hpush : (localRule id name store).2 = (modifyTable id (·.push name) store).2 := by
      simp only [localRule, bind_apply, get_apply, hlocal]
      rfl
    have hnew : store.catalog.slot? ⟨id, store.rules id⟩ = none := by
      simp [Catalog.slot?, Store.rules, RuleTable.size]
    have hgrammar := grammar_modifyGrammar id
      (fun grammar => { grammar with table := grammar.table.push name }) store
    rw [hpush]
    refine
      { lost := rfl
        size := Array.size_modify
        bases := fun other => bases_modifyTable id _ store other
        options := fun other => ?_
        found := fun other name' rule hrule => ?_
        added := fun other name' rule hrule => ?_
        slot := fun rule slot hslot => ?_
        fresh := fun rule slot hold hslot => ?_
        mode := fun _ _ h => h }
    · rw [modifyTable, hgrammar]
      split
      case isFalse => rfl
      case isTrue h => rw [h.1]
    · rw [Store.local?_push hindex]
      split
      case isFalse => exact hrule
      case isTrue h =>
        rw [h.1, ← Catalog.local?_congr h.2, hlocal] at hrule
        cases hrule
    · rw [Store.local?_push hindex] at hrule
      split at hrule
      case isFalse => exact Or.inl hrule
      case isTrue h => exact Or.inr ⟨h.1, hwanted hlocal name' h.2⟩
    · rw [Store.slot?_push hindex]
      split
      case isFalse => exact ⟨slot, hslot, rfl, rfl, fun _ => rfl⟩
      case isTrue h => rw [h, hnew] at hslot; cases hslot
    · rw [Store.slot?_push hindex] at hslot
      split at hslot
      case isFalse => rw [hold] at hslot; cases hslot
      case isTrue =>
        cases hslot
        exact ⟨rfl, fun _ => rfl⟩

/-- A name without meaning gets a rule. -/
theorem develops_name (options : Options) (hindex : id.index < before.grammars.size)
    {called : String} (hwanted : before.lookup? id called = none →
      ∀ spelling, lowerText called = lowerText spelling → wanted spelling) :
    Keeps (fun store => before.Develops id wanted bound store.catalog)
      (assemble id options (.name called)) := by
  intro store h
  have hassemble : (assemble id options (.name called) store).2 = (Edit.rule id called store).2 :=
    rfl
  rw [hassemble]
  cases hlookup : store.catalog.lookup? id called with
  | some rule =>
    have hrule : Edit.rule id called store = (rule, store) := by
      simp [Edit.rule, bind_apply, get_apply, hlookup, pure_apply]
    rwa [hrule]
  | none =>
    have hrule : Edit.rule id called store = localRule id called store := by
      simp [Edit.rule, bind_apply, get_apply, hlookup]
    rw [hrule]
    refine h.trans (develops_localRule (h.size ▸ hindex) fun _ => hwanted ?_)
    refine Option.not_isSome_iff_eq_none.1 fun hsome => ?_
    have hstill := h.lookup?_isSome hsome
    rw [hlookup] at hstill
    cases hstill

theorem develops_assembling (options : Options) : Assembling options
    (@Keeps fun store => before.Develops id wanted bound store.catalog) where
  done := .pure
  andThen := .bind
  alternation _ _ h := h.trans (develops_newMode _)
  repetition _ _ _ h := h
  optional _ _ h := h

theorem develops_assemble (options : Options) (hindex : id.index < before.grammars.size)
    (expression : Expression) {store : Store}
    (hwanted : ∀ called ∈ expression.names, before.lookup? id called = none →
      ∀ spelling, lowerText called = lowerText spelling → wanted spelling)
    (h : before.Develops id wanted bound store.catalog) :
    before.Develops id wanted bound (assemble id options expression store).2.catalog :=
  composed_assemble (develops_assembling options) expression
    (fun called hcalled => develops_name options hindex (hwanted called hcalled)) store h

theorem develops_assembleAll (options : Options) (hindex : id.index < before.grammars.size)
    (expressions : List Expression) {store : Store}
    (hwanted : ∀ called ∈ Expression.namesAll expressions, before.lookup? id called = none →
      ∀ spelling, lowerText called = lowerText spelling → wanted spelling)
    (h : before.Develops id wanted bound store.catalog) :
    before.Develops id wanted bound (assembleAll id options expressions store).2.catalog :=
  composed_assembleAll (develops_assembling options) expressions
    (fun called hcalled => develops_name options hindex (hwanted called hcalled)) store h

end Edit

mutual
def Expression.Builds (id : GrammarId) (firstMatch : Bool) (catalog : Catalog) :
    Expression → Parser → Prop
  | .literal terminal, parser => parser = .literal terminal
  | .name called, parser => ∃ ref, parser = .rule ref ∧
    catalog.lookup? id called = some ref.target ∧ lowerText ref.name = lowerText called
  | .choice branches, parser => ∃ mode parsers, parser = .alternation mode parsers ∧
    catalog.modes[mode.index]? = some firstMatch ∧
    BuildsAll id firstMatch catalog branches parsers
  | .sequence items, parser => ∃ parsers, parser = .concatenation parsers ∧
    BuildsAll id firstMatch catalog items parsers
  | .repeated bounds element, parser => ∃ cache inner, parser = .repetition cache bounds inner ∧
    element.Builds id firstMatch catalog inner
  | .optional element, parser => ∃ cache inner, parser = .optional cache inner ∧
    element.Builds id firstMatch catalog inner
  | .prose text, parser => parser = .prose text

def Expression.BuildsAll (id : GrammarId) (firstMatch : Bool) (catalog : Catalog) :
    List Expression → List Parser → Prop
  | [], parsers => parsers = []
  | expression :: rest, parsers => ∃ parser others, parsers = parser :: others ∧
    expression.Builds id firstMatch catalog parser ∧
    BuildsAll id firstMatch catalog rest others
end

namespace Expression

variable {id : GrammarId} {firstMatch : Bool} {c c' : Catalog}

theorem BuildsAll.forall₂ {expressions : List Expression} {parsers : List Parser}
    (h : BuildsAll id firstMatch c expressions parsers) :
    List.Forall₂ (Builds id firstMatch c) expressions parsers := by
  induction expressions generalizing parsers with
  | nil =>
    rw [show parsers = [] from h]
    exact .nil
  | cons expression rest ih =>
    obtain ⟨parser, others, rfl, hfirst, hrest⟩ := h
    exact .cons hfirst (ih hrest)

end Expression

/-- A name refers to a rule of the name. -/
theorem Store.Resolves.lowered {id : GrammarId} {before after : Store}
    (hbefore : before.catalog.Interned) (hafter : after.catalog.Interned) {called : String}
    {ref : RuleRef} (h : before.Resolves id after called ref) :
    lowerText ref.name = lowerText called := by
  cases hold : before.catalog.lookup? id called with
  | some rule =>
    obtain ⟨slot, hslot, hname⟩ := hbefore.slot_of_lookup hold
    rw [(h.known rule hold).2 slot hslot, hname]
  | none =>
    obtain ⟨slot, hslot, hname⟩ := hafter.slot_of_lookup h.lookup
    obtain ⟨-, -, hnew⟩ := h.new hold
    cases hslot.symm.trans hnew
    exact hname

namespace Expression

variable {id : GrammarId} {firstMatch : Bool} {c c' : Catalog}

section
variable {options : Options} {before after : Store}

mutual
theorem Describes.builds (hbefore : before.catalog.Interned) (hafter : after.catalog.Interned) :
    (expression : Expression) → {parser : Parser} →
    expression.Describes id options before after parser →
      expression.Builds id options.firstMatch after.catalog parser
  | .literal _, _, h => h
  | .name _, _, h => by
    obtain ⟨ref, rfl, hresolves⟩ := h
    exact ⟨ref, rfl, hresolves.lookup, hresolves.lowered hbefore hafter⟩
  | .choice branches, _, h => by
    obtain ⟨mode, parsers, rfl, -, hmode, hall⟩ := h
    exact ⟨mode, parsers, rfl, hmode, DescribesAll.builds hbefore hafter branches hall⟩
  | .sequence items, _, h => by
    obtain ⟨parsers, rfl, hall⟩ := h
    exact ⟨parsers, rfl, DescribesAll.builds hbefore hafter items hall⟩
  | .repeated _ element, _, h => by
    obtain ⟨cache, inner, rfl, -, -, hinner⟩ := h
    exact ⟨cache, inner, rfl, Describes.builds hbefore hafter element hinner⟩
  | .optional element, _, h => by
    obtain ⟨cache, inner, rfl, -, -, hinner⟩ := h
    exact ⟨cache, inner, rfl, Describes.builds hbefore hafter element hinner⟩
  | .prose _, _, h => h

theorem DescribesAll.builds (hbefore : before.catalog.Interned)
    (hafter : after.catalog.Interned) :
    (expressions : List Expression) → {parsers : List Parser} →
    DescribesAll id options before after expressions parsers →
      BuildsAll id options.firstMatch after.catalog expressions parsers
  | [], _, h => h
  | expression :: rest, _, h => by
    obtain ⟨parser, others, rfl, hfirst, hrest⟩ := h
    exact ⟨parser, others, rfl, Describes.builds hbefore hafter expression hfirst,
      DescribesAll.builds hbefore hafter rest hrest⟩
end

end

mutual
/-- What an expression describes it goes on to describe, as long as its names go on to mean
what they do. -/
theorem Builds.keep
    (hmode : ∀ mode : ModeId, ∀ firstMatch, c.modes[mode.index]? = some firstMatch →
      c'.modes[mode.index]? = some firstMatch) :
    (expression : Expression) → {parser : Parser} →
    (∀ called ∈ expression.names, ∀ rule, c.lookup? id called = some rule →
      c'.lookup? id called = some rule) →
    expression.Builds id firstMatch c parser → expression.Builds id firstMatch c' parser
  | .literal _, _, _, h => h
  | .name called, _, hnames, h => by
    obtain ⟨ref, rfl, hlookup, hname⟩ := h
    exact ⟨ref, rfl, hnames called (List.mem_singleton_self called) _ hlookup, hname⟩
  | .choice branches, _, hnames, h => by
    obtain ⟨mode, parsers, rfl, hfirst, hall⟩ := h
    exact ⟨mode, parsers, rfl, hmode mode _ hfirst, BuildsAll.keep hmode branches hnames hall⟩
  | .sequence items, _, hnames, h => by
    obtain ⟨parsers, rfl, hall⟩ := h
    exact ⟨parsers, rfl, BuildsAll.keep hmode items hnames hall⟩
  | .repeated _ element, _, hnames, h => by
    obtain ⟨cache, inner, rfl, hinner⟩ := h
    exact ⟨cache, inner, rfl, Builds.keep hmode element hnames hinner⟩
  | .optional element, _, hnames, h => by
    obtain ⟨cache, inner, rfl, hinner⟩ := h
    exact ⟨cache, inner, rfl, Builds.keep hmode element hnames hinner⟩
  | .prose _, _, _, h => h

theorem BuildsAll.keep
    (hmode : ∀ mode : ModeId, ∀ firstMatch, c.modes[mode.index]? = some firstMatch →
      c'.modes[mode.index]? = some firstMatch) :
    (expressions : List Expression) → {parsers : List Parser} →
    (∀ called ∈ namesAll expressions, ∀ rule, c.lookup? id called = some rule →
      c'.lookup? id called = some rule) →
    BuildsAll id firstMatch c expressions parsers → BuildsAll id firstMatch c' expressions parsers
  | [], _, _, h => h
  | expression :: rest, _, hnames, h => by
    obtain ⟨parser, others, rfl, hfirst, hrest⟩ := h
    rw [namesAll] at hnames
    exact ⟨parser, others, rfl,
      Builds.keep hmode expression
        (fun called hcalled => hnames called (List.mem_append_left _ hcalled)) hfirst,
      BuildsAll.keep hmode rest
        (fun called hcalled => hnames called (List.mem_append_right _ hcalled)) hrest⟩
end

mutual
/-- What an expression mentions has a meaning where the expression is built. -/
theorem Builds.lookup?_isSome : (expression : Expression) → {parser : Parser} →
    expression.Builds id firstMatch c parser → ∀ called ∈ expression.names,
      (c.lookup? id called).isSome
  | .literal _, _, _, _, hcalled => by cases hcalled
  | .prose _, _, _, _, hcalled => by cases hcalled
  | .name own, _, h, called, hcalled => by
    obtain ⟨ref, rfl, hlookup, -⟩ := h
    obtain rfl := List.mem_singleton.1 hcalled
    rw [hlookup]
    rfl
  | .choice branches, _, h, called, hcalled => by
    obtain ⟨mode, parsers, rfl, -, hall⟩ := h
    exact BuildsAll.lookup?_isSome branches hall called hcalled
  | .sequence items, _, h, called, hcalled => by
    obtain ⟨parsers, rfl, hall⟩ := h
    exact BuildsAll.lookup?_isSome items hall called hcalled
  | .repeated _ element, _, h, called, hcalled => by
    obtain ⟨cache, inner, rfl, hinner⟩ := h
    exact Builds.lookup?_isSome element hinner called hcalled
  | .optional element, _, h, called, hcalled => by
    obtain ⟨cache, inner, rfl, hinner⟩ := h
    exact Builds.lookup?_isSome element hinner called hcalled

theorem BuildsAll.lookup?_isSome : (expressions : List Expression) → {parsers : List Parser} →
    BuildsAll id firstMatch c expressions parsers → ∀ called ∈ namesAll expressions,
      (c.lookup? id called).isSome
  | [], _, _, _, hcalled => by cases hcalled
  | expression :: rest, _, h, called, hcalled => by
    obtain ⟨parser, others, rfl, hfirst, hrest⟩ := h
    rcases List.mem_append.1 hcalled with hcalled | hcalled
    · exact Builds.lookup?_isSome expression hfirst called hcalled
    · exact BuildsAll.lookup?_isSome rest hrest called hcalled
end

theorem firstMatch_of_getElem? {mode : ModeId} (h : c.modes[mode.index]? = some firstMatch) :
    c.firstMatch mode = firstMatch := by
  rw [Catalog.firstMatch, h]
  rfl

mutual
/-- What an expression describes in two catalogs is alike, as long as names mean the same. -/
theorem Builds.like
    (htwins : ∀ called target target', c.lookup? id called = some target →
      c'.lookup? id called = some target' → c.Twins c' target target') :
    (expression : Expression) → {parser parser' : Parser} →
    expression.Builds id firstMatch c parser → expression.Builds id firstMatch c' parser' →
      parser.Like (c.SameMode c') (c.TwinRefs c') parser'
  | .literal _, _, _, h, h' => by
    obtain rfl := h
    obtain rfl := h'
    rfl
  | .name called, _, _, h, h' => by
    obtain ⟨ref, rfl, hlookup, hname⟩ := h
    obtain ⟨ref', rfl, hlookup', hname'⟩ := h'
    exact ⟨ref', rfl, hname.trans hname'.symm, htwins called _ _ hlookup hlookup'⟩
  | .choice branches, _, _, h, h' => by
    obtain ⟨mode, parsers, rfl, hmode, hall⟩ := h
    obtain ⟨mode', parsers', rfl, hmode', hall'⟩ := h'
    exact ⟨mode', parsers', rfl,
      (firstMatch_of_getElem? hmode).trans (firstMatch_of_getElem? hmode').symm,
      BuildsAll.like htwins branches hall hall'⟩
  | .sequence items, _, _, h, h' => by
    obtain ⟨parsers, rfl, hall⟩ := h
    obtain ⟨parsers', rfl, hall'⟩ := h'
    exact ⟨parsers', rfl, BuildsAll.like htwins items hall hall'⟩
  | .repeated _ element, _, _, h, h' => by
    obtain ⟨cache, inner, rfl, hinner⟩ := h
    obtain ⟨cache', inner', rfl, hinner'⟩ := h'
    exact ⟨cache', inner', rfl, Builds.like htwins element hinner hinner'⟩
  | .optional element, _, _, h, h' => by
    obtain ⟨cache, inner, rfl, hinner⟩ := h
    obtain ⟨cache', inner', rfl, hinner'⟩ := h'
    exact ⟨cache', inner', rfl, Builds.like htwins element hinner hinner'⟩
  | .prose _, _, _, h, h' => by
    obtain rfl := h
    obtain rfl := h'
    rfl

theorem BuildsAll.like
    (htwins : ∀ called target target', c.lookup? id called = some target →
      c'.lookup? id called = some target' → c.Twins c' target target') :
    (expressions : List Expression) → {parsers parsers' : List Parser} →
    BuildsAll id firstMatch c expressions parsers →
    BuildsAll id firstMatch c' expressions parsers' →
      Parser.LikeAll (c.SameMode c') (c.TwinRefs c') parsers parsers'
  | [], _, _, h, h' => by
    obtain rfl := h
    obtain rfl := h'
    rfl
  | expression :: rest, _, _, h, h' => by
    obtain ⟨parser, others, rfl, hfirst, hrest⟩ := h
    obtain ⟨parser', others', rfl, hfirst', hrest'⟩ := h'
    exact ⟨parser', others', rfl, Builds.like htwins expression hfirst hfirst',
      BuildsAll.like htwins rest hrest hrest'⟩
end

end Expression

end Metasyntax
