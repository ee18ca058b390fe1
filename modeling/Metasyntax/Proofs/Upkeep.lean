import Metasyntax.Proofs.Assembly
import Metasyntax.Proofs.Handles

/-!
# What every step keeps

No step but a collection makes a grammar die, and none takes a rule or a link between
grammars away. What a rule refers to after a step it referred to before, or the program
held it and the rule's grammar keeps it alive. Hence all that is held can be used:
held grammars and the grammars of held rules are alive, held rules exist, and no cache
belongs to two parsers.
-/

set_option autoImplicit false

namespace Metasyntax

def Slot.references (slot : Slot) : List RuleRef :=
  (slot.definition.elim [] Parser.references) ++ slot.exclusion.toList

theorem Slot.mem_references {slot : Slot} {ref : RuleRef} : ref ∈ slot.references ↔
    (∃ definition, slot.definition = some definition ∧ ref ∈ definition.references) ∨
      slot.exclusion = some ref := by
  cases h : slot.definition <;> simp [references, h]

def Catalog.Supports (catalog : Catalog) (id other : GrammarId) : Prop :=
  other = id ∨ other ∈ (catalog.grammar id).bases ∨ other ∈ (catalog.grammar id).retained

theorem Catalog.isSome_slot?_iff {catalog : Catalog} {rule : RuleId} :
    (catalog.slot? rule).isSome ↔
      rule.slot < (catalog.grammar rule.grammar).table.slots.size := by
  simp [slot?]

/-- Setting a mode changes the mode of an alternation that is the rule's definition, and
nothing if the definition is none. -/
theorem Edit.setFirstMatch_snd (rule : RuleId) (firstMatch : Bool) (store : Store) :
    (Edit.setFirstMatch rule firstMatch store).2 = store ∨ ∃ mode branches,
      store.catalog.definition? rule = some (.alternation mode branches) ∧
        (Edit.setFirstMatch rule firstMatch store).2 =
          (Edit.clearCaches rule.grammar (Edit.modifyCatalog (fun catalog =>
            { catalog with modes := catalog.modes.modify mode.index fun _ => firstMatch })
              store).2).2 := by
  cases hdefinition : store.catalog.definition? rule with
  | none =>
    simp only [Edit.setFirstMatch, Edit.bind_apply, Edit.get_apply, hdefinition]
    exact Or.inl rfl
  | some definition =>
    cases definition with
    | alternation mode branches =>
      refine Or.inr ⟨mode, branches, rfl, ?_⟩
      simp only [Edit.setFirstMatch, Edit.bind_apply, Edit.get_apply, hdefinition]
      rfl
    | _ =>
      simp only [Edit.setFirstMatch, Edit.bind_apply, Edit.get_apply, hdefinition]
      exact Or.inl rfl

namespace Store

structure Extends (store store' : Store) : Prop where
  alive : ∀ id, store'.catalog.alive id = store.catalog.alive id
  size : store.catalog.grammars.size ≤ store'.catalog.grammars.size
  slot : ∀ rule, (store.catalog.slot? rule).isSome → (store'.catalog.slot? rule).isSome
  supports : ∀ id other, store.catalog.Supports id other → store'.catalog.Supports id other

namespace Extends

variable {store store' store'' : Store}

theorem refl (store : Store) : Extends store store :=
  ⟨fun _ => rfl, le_rfl, fun _ h => h, fun _ _ h => h⟩

theorem trans (h : Extends store store') (h' : Extends store' store'') : Extends store store'' where
  alive id := (h'.alive id).trans (h.alive id)
  size := h.size.trans h'.size
  slot rule hrule := h'.slot rule (h.slot rule hrule)
  supports id other hsupports := h'.supports id other (h.supports id other hsupports)

theorem living_eq (h : Extends store store') : store'.living = store.living := by
  ext id
  change store'.catalog.alive id = true ↔ _
  rw [h.alive]
  rfl

end Extends

section
variable {store : Store}

theorem extends_modifyGrammar (id : GrammarId) (change : Grammar → Grammar)
    (hslots : ∀ grammar : Grammar, grammar.table.slots.size ≤ (change grammar).table.slots.size)
    (hbases : ∀ grammar, (change grammar).bases = grammar.bases)
    (hretained : ∀ grammar, ∀ other ∈ grammar.retained, other ∈ (change grammar).retained) :
    Extends store (Edit.modifyGrammar id change store).2 where
  alive _ := rfl
  size := by
    change _ ≤ (store.catalog.grammars.modify id.index change).size
    simp
  slot rule hrule := by
    rw [Catalog.isSome_slot?_iff] at hrule ⊢
    rw [Edit.grammar_modifyGrammar]
    split
    case isTrue heq => exact (heq.1 ▸ hrule).trans_le (hslots _)
    case isFalse => exact hrule
  supports other target h := by
    rw [Catalog.Supports, Edit.grammar_modifyGrammar]
    split
    case isTrue heq =>
      rw [hbases, ← heq.1]
      exact h.imp_right (Or.imp_right (hretained _ target))
    case isFalse => exact h

/-- Modes and caches have nothing to do with what there is. -/
theorem extends_of_catalog {store' : Store}
    (hgrammars : store'.catalog.grammars = store.catalog.grammars)
    (hlost : store'.catalog.lost = store.catalog.lost) : Extends store store' where
  alive id := by rw [Catalog.alive, Catalog.alive, hlost]
  size := hgrammars ▸ le_rfl
  slot rule h := by
    rw [Catalog.isSome_slot?_iff, Catalog.grammar] at h ⊢
    rwa [hgrammars]
  supports id other h := by
    rw [Catalog.Supports, Catalog.grammar] at h ⊢
    rwa [hgrammars]

theorem extends_retain (id other : GrammarId) : Extends store (Edit.retain id other store).2 :=
  extends_modifyGrammar id _ (fun grammar => by split <;> exact le_rfl)
    (fun grammar => by split <;> rfl) fun grammar target htarget => by
      split
      · exact htarget
      · exact List.mem_append_left _ htarget

theorem supports_retain {id : GrammarId} (hid : id.index < store.catalog.grammars.size)
    (other : GrammarId) : (Edit.retain id other store).2.catalog.Supports id other := by
  rw [Edit.retain, Catalog.Supports, Edit.grammar_modifyGrammar, if_pos ⟨rfl, hid⟩]
  split
  case isTrue h =>
    rcases h with rfl | h
    · exact Or.inl rfl
    · exact Or.inr h
  case isFalse => exact Or.inr (Or.inr (List.mem_append_right _ (List.mem_singleton_self other)))

theorem extends_forM_retain (id : GrammarId) (targets : List RuleId) :
    Extends store ((targets.forM fun target => Edit.retain id target.grammar : Edit Unit) store).2 := by
  induction targets generalizing store with
  | nil => exact .refl store
  | cons target rest ih => exact (extends_retain id target.grammar).trans ih

theorem supports_forM_retain {id : GrammarId} {targets : List RuleId}
    (hid : id.index < store.catalog.grammars.size) {target : RuleId} (h : target ∈ targets) :
    ((targets.forM fun target => Edit.retain id target.grammar : Edit Unit)
      store).2.catalog.Supports id target.grammar := by
  induction targets generalizing store with
  | nil => cases h
  | cons first rest ih =>
    have hretain : Extends store (Edit.retain id first.grammar store).2 := extends_retain id _
    rcases List.mem_cons.1 h with rfl | h
    · exact (extends_forM_retain id rest).supports _ _ (supports_retain hid target.grammar)
    · exact ih (hid.trans_le hretain.size) h

theorem extends_adopt (id : GrammarId) (parser : Parser) :
    Extends store (Edit.adopt id parser store).2 := by
  simp only [Edit.adopt, Edit.bind_apply, Edit.get_apply]
  exact (extends_modifyGrammar id (fun grammar =>
    { grammar with registry := grammar.registry.registerAll store.cacheAlive parser.caches })
      (fun _ => le_rfl) (fun _ => rfl) fun _ _ h => h).trans (extends_forM_retain id _)

theorem supports_adopt {id : GrammarId} (hid : id.index < store.catalog.grammars.size)
    {parser : Parser} {ref : RuleRef} (href : ref ∈ parser.references)
    (halive : store.catalog.alive ref.target.grammar = true) :
    (Edit.adopt id parser store).2.catalog.Supports id ref.target.grammar := by
  simp only [Edit.adopt, Edit.bind_apply, Edit.get_apply]
  refine supports_forM_retain (hid.trans_eq Array.size_modify.symm) (List.mem_filterMap.2 ⟨ref, href, ?_⟩)
  change (store.catalog.resolve ref).toOption = some ref.target
  rw [Catalog.resolve, if_pos halive]
  rfl

theorem extends_update (rule : RuleId) (change : Slot → Slot) :
    Extends store (Edit.modifyTable rule.grammar (·.update rule.slot change) store).2 :=
  extends_modifyGrammar _ _ (fun _ => Array.size_modify.ge) (fun _ => rfl) fun _ _ h => h

theorem extends_updateRule (rule : RuleId) (change : Slot → Slot) :
    Extends store (Edit.updateRule rule change store).2 :=
  (extends_update rule change).trans (extends_of_catalog rfl rfl)

theorem extends_setDefinition (rule : RuleId) (definition : Parser) :
    Extends store (Edit.setDefinition rule definition store).2 :=
  (extends_adopt rule.grammar definition).trans (extends_updateRule rule _)

theorem extends_exclude (rule excluded : RuleId) :
    Extends store (Edit.exclude rule excluded store).2 :=
  (extends_adopt rule.grammar (.rule (store.catalog.refer excluded))).trans
    (extends_updateRule rule _)

theorem extends_setFirstMatch (rule : RuleId) (firstMatch : Bool) :
    Extends store (Edit.setFirstMatch rule firstMatch store).2 := by
  rcases Edit.setFirstMatch_snd rule firstMatch store with h | ⟨mode, branches, -, h⟩
  · rw [h]
    exact .refl store
  · rw [h]
    exact extends_of_catalog rfl rfl

theorem extends_localRule (id : GrammarId) (name : String) :
    Extends store (Edit.localRule id name store).2 := by
  cases h : store.catalog.local? id name with
  | some rule =>
    simp only [Edit.localRule, Edit.bind_apply, Edit.get_apply, h]
    exact .refl store
  | none =>
    simp only [Edit.localRule, Edit.bind_apply, Edit.get_apply, h]
    exact extends_modifyGrammar id _ (fun grammar => by simp [RuleTable.push]) (fun _ => rfl)
      fun _ _ h => h

theorem extends_newGrammar (name : String) (base : Option GrammarId) (options : Options) :
    Extends store (Edit.newGrammar name base options store).2 where
  alive _ := rfl
  size := by
    cases base <;>
    · change _ ≤ (store.catalog.grammars.push _).size
      simp
  slot rule h := by rwa [slot?_newGrammar]
  supports id other h := by
    rw [Catalog.Supports, grammar_newGrammar]
    split
    case isTrue hindex =>
      rw [Catalog.Supports, grammar_eq_default (Nat.le_of_eq hindex.symm)] at h
      rcases h with h | h | h
      · exact Or.inl h
      · cases h
      · cases h
    case isFalse => exact h

theorem supports_of_modifyGrammar (id : GrammarId) (change : Grammar → Grammar)
    (hbases : ∀ grammar, (change grammar).bases = grammar.bases) {P : GrammarId → Prop}
    (hretained : ∀ grammar, ∀ other ∈ (change grammar).retained, other ∈ grammar.retained ∨ P other)
    {first second : GrammarId}
    (h : (Edit.modifyGrammar id change store).2.catalog.Supports first second) :
    store.catalog.Supports first second ∨ P second := by
  rw [Catalog.Supports, Edit.grammar_modifyGrammar] at h
  split at h
  case isFalse => exact Or.inl h
  case isTrue heq =>
    rw [hbases, ← heq.1] at h
    rcases h with h | h | h
    · exact Or.inl (Or.inl h)
    · exact Or.inl (Or.inr (Or.inl h))
    · exact (hretained _ second h).imp_left fun h => Or.inr (Or.inr h)

theorem supports_of_same (id : GrammarId) (change : Grammar → Grammar)
    (hbases : ∀ grammar, (change grammar).bases = grammar.bases)
    (hretained : ∀ grammar, (change grammar).retained = grammar.retained)
    {first second : GrammarId}
    (h : (Edit.modifyGrammar id change store).2.catalog.Supports first second) :
    store.catalog.Supports first second :=
  (supports_of_modifyGrammar id change hbases (P := fun _ => False)
    (fun grammar _ hother => Or.inl (hretained grammar ▸ hother)) h).resolve_right fun h => h

theorem supports_of_retain {id other first second : GrammarId}
    (h : (Edit.retain id other store).2.catalog.Supports first second) :
    store.catalog.Supports first second ∨ second = other :=
  supports_of_modifyGrammar id _ (fun grammar => by split <;> rfl) (P := (· = other))
    (fun grammar target htarget => by
      split at htarget
      · exact Or.inl htarget
      · exact (List.mem_append.1 htarget).imp_right List.mem_singleton.1) h

theorem supports_of_forM_retain {id : GrammarId} {targets : List RuleId}
    {first second : GrammarId} (h : ((targets.forM fun target => Edit.retain id target.grammar :
      Edit Unit) store).2.catalog.Supports first second) :
    store.catalog.Supports first second ∨ ∃ target ∈ targets, second = target.grammar := by
  induction targets generalizing store with
  | nil => exact Or.inl h
  | cons target rest ih =>
    rcases ih h with h | ⟨other, hother, h⟩
    · exact (supports_of_retain h).imp_right fun h => ⟨target, List.mem_cons_self, h⟩
    · exact Or.inr ⟨other, List.mem_cons_of_mem _ hother, h⟩

/-- A grammar that adopts a parser comes to keep alive only what is alive. -/
theorem supports_of_adopt {id : GrammarId} {parser : Parser} {first second : GrammarId}
    (h : (Edit.adopt id parser store).2.catalog.Supports first second) :
    store.catalog.Supports first second ∨ second ∈ store.living := by
  simp only [Edit.adopt, Edit.bind_apply, Edit.get_apply] at h
  rcases supports_of_forM_retain h with h | ⟨target, htarget, rfl⟩
  · exact Or.inl (supports_of_same id (fun grammar =>
      { grammar with registry := grammar.registry.registerAll store.cacheAlive parser.caches })
        (fun _ => rfl) (fun _ => rfl) h)
  · obtain ⟨ref, -, hresolve⟩ := List.mem_filterMap.1 htarget
    change (store.catalog.resolve ref).toOption = some target at hresolve
    rw [Catalog.resolve] at hresolve
    split at hresolve
    case isTrue halive => exact Or.inr (Option.some.inj hresolve ▸ halive)
    case isFalse => cases hresolve

theorem supports_of_updateRule {rule : RuleId} {change : Slot → Slot} {first second : GrammarId}
    (h : (Edit.updateRule rule change store).2.catalog.Supports first second) :
    store.catalog.Supports first second :=
  supports_of_same rule.grammar
    (fun grammar => { grammar with table := grammar.table.update rule.slot change })
      (fun _ => rfl) (fun _ => rfl) h

theorem supports_of_localRule {id : GrammarId} {name : String} {first second : GrammarId}
    (h : (Edit.localRule id name store).2.catalog.Supports first second) :
    store.catalog.Supports first second := by
  cases hlocal : store.catalog.local? id name with
  | some rule =>
    simp only [Edit.localRule, Edit.bind_apply, Edit.get_apply, hlocal] at h
    exact h
  | none =>
    simp only [Edit.localRule, Edit.bind_apply, Edit.get_apply, hlocal] at h
    exact supports_of_same id (fun grammar => { grammar with table := grammar.table.push name })
      (fun _ => rfl) (fun _ => rfl) h

theorem supports_of_newGrammar {name : String} {base : Option GrammarId} {options : Options}
    {first second : GrammarId}
    (h : (Edit.newGrammar name base options store).2.catalog.Supports first second) :
    store.catalog.Supports first second ∨
      first.index = store.catalog.grammars.size ∧ ∃ id, base = some id ∧
        store.catalog.Supports id second := by
  rw [Catalog.Supports, grammar_newGrammar] at h
  split at h
  case isFalse => exact Or.inl h
  case isTrue hindex =>
    rcases h with h | h | h
    · exact Or.inl (Or.inl h)
    · cases base with
      | none => cases h
      | some base =>
        refine Or.inr ⟨hindex, base, rfl, ?_⟩
        exact (List.mem_cons.1 h).imp id Or.inl
    · cases h

end

end Store

section
variable {store : Store}

theorem slot?_of_table (id : GrammarId) (change : Grammar → Grammar)
    (h : ∀ grammar, (change grammar).table = grammar.table) (rule : RuleId) :
    (Edit.modifyGrammar id change store).2.catalog.slot? rule = store.catalog.slot? rule := by
  rw [Edit.slot?_modifyGrammar]
  split
  case isTrue heq => rw [h, Catalog.slot?, heq.1]
  case isFalse => rfl

theorem slot?_retain (id other : GrammarId) (rule : RuleId) :
    (Edit.retain id other store).2.catalog.slot? rule = store.catalog.slot? rule :=
  slot?_of_table id _ (fun grammar => by split <;> rfl) rule

theorem slot?_adopt (id : GrammarId) (parser : Parser) (rule : RuleId) :
    (Edit.adopt id parser store).2.catalog.slot? rule = store.catalog.slot? rule := by
  have hretained (targets : List RuleId) (store : Store) :
      ((targets.forM fun target => Edit.retain id target.grammar : Edit Unit)
        store).2.catalog.slot? rule = store.catalog.slot? rule := by
    induction targets generalizing store with
    | nil => rfl
    | cons target rest ih => exact (ih _).trans (slot?_retain id target.grammar rule)
  simp only [Edit.adopt, Edit.bind_apply, Edit.get_apply]
  exact (hretained _ _).trans (slot?_of_table id (fun grammar =>
    { grammar with registry := grammar.registry.registerAll store.cacheAlive parser.caches })
      (fun _ => rfl) rule)

theorem slot?_localRule {id : GrammarId} {name : String} {rule : RuleId} {slot : Slot}
    (h : (Edit.localRule id name store).2.catalog.slot? rule = some slot) :
    store.catalog.slot? rule = some slot ∨ slot = ⟨name, none, none⟩ := by
  cases hlocal : store.catalog.local? id name with
  | some found =>
    simp only [Edit.localRule, Edit.bind_apply, Edit.get_apply, hlocal] at h
    exact Or.inl h
  | none =>
    simp only [Edit.localRule, Edit.bind_apply, Edit.get_apply, hlocal, Edit.pure_apply] at h
    rw [Edit.modifyTable, Edit.slot?_modifyGrammar] at h
    split at h
    case isTrue hrule =>
      change ((store.catalog.grammar id).table.slots.push ⟨name, none, none⟩)[rule.slot]? = _ at h
      rw [Array.getElem?_push] at h
      split at h
      · exact Or.inr (Option.some.inj h).symm
      · exact Or.inl (by rw [Catalog.slot?, hrule.1, h])
    case isFalse => exact Or.inl h

/-- An edit that adopts a parser and then changes a rule: each reference of a rule was there
before, or is one of the parser's, whose rule's grammar is kept alive. -/
theorem references_adopted {rule : RuleId} (parser : Parser) {change : Slot → Slot}
    (hchange : ∀ slot, ∀ ref ∈ (change slot).references,
      ref ∈ slot.references ∨ ref ∈ parser.references) {other : RuleId} {slot : Slot}
    (hslot : (Edit.updateRule rule change (Edit.adopt rule.grammar parser store).2).2.catalog.slot?
      other = some slot) {ref : RuleRef} (href : ref ∈ slot.references) :
    (∃ old, store.catalog.slot? other = some old ∧ ref ∈ old.references) ∨
      ref ∈ parser.references ∧ (store.catalog.alive ref.target.grammar = true →
        (Edit.updateRule rule change
          (Edit.adopt rule.grammar parser store).2).2.catalog.Supports other.grammar
            ref.target.grammar) := by
  rcases slot?_update rule change other hslot with hold | ⟨rfl, -, old, hold, rfl⟩
  · exact Or.inl ⟨slot, (slot?_adopt _ _ _).symm.trans hold, href⟩
  · have hold' : store.catalog.slot? other = some old := (slot?_adopt _ _ _).symm.trans hold
    rcases hchange old ref href with h | h
    · exact Or.inl ⟨old, hold', h⟩
    · refine Or.inr ⟨h, fun halive => (Store.extends_updateRule other change).supports _ _ ?_⟩
      refine Store.supports_adopt (not_le.1 fun hge => ?_) h halive
      rw [Catalog.slot?, grammar_eq_default hge] at hold'
      cases hold'

end

namespace Bench

variable {bench bench' : Bench}

/-- A step leaves all there was. -/
theorem Step.extends (h : bench.Step bench') : bench.store.Extends bench'.store := by
  cases h with
  | newGrammar name options _ => exact Store.extends_newGrammar name _ options
  | localRule name _ => exact Store.extends_localRule _ name
  | retain _ _ => exact Store.extends_retain _ _
  | setDefinition _ _ => exact Store.extends_setDefinition _ _
  | exclude _ _ => exact Store.extends_exclude _ _
  | clearExclusion _ => exact Store.extends_updateRule _ _
  | setFirstMatch firstMatch _ => exact Store.extends_setFirstMatch _ firstMatch
  | _ => exact Store.extends_of_catalog rfl rfl

theorem Steps.extends (h : bench.Steps bench') : bench.store.Extends bench'.store := by
  induction h with
  | refl => exact .refl _
  | tail _ hstep ih => exact ih.trans hstep.extends

theorem Collects.slot?_eq (h : bench.Collects bench') (rule : RuleId) :
    bench'.store.catalog.slot? rule = bench.store.catalog.slot? rule := by
  cases h
  rfl

theorem Collects.supports_iff (h : bench.Collects bench') {id other : GrammarId} :
    bench'.store.catalog.Supports id other ↔ bench.store.catalog.Supports id other := by
  cases h
  rfl

def Knows (bench : Bench) (ref : RuleRef) : Prop :=
  (∃ parser, .parser parser ∈ bench.held ∧ ref ∈ parser.references) ∨
    .rule ref.target ∈ bench.held

/-- What a rule refers to after a step it referred to before, or the program knew it and the
rule's grammar now keeps it alive. -/
theorem Step.references (h : bench.Step bench') {rule : RuleId} {slot : Slot}
    (hslot : bench'.store.catalog.slot? rule = some slot) {ref : RuleRef}
    (href : ref ∈ slot.references) :
    (∃ old, bench.store.catalog.slot? rule = some old ∧ ref ∈ old.references) ∨
      bench.Knows ref ∧ (bench.store.catalog.alive ref.target.grammar = true →
        bench'.store.catalog.Supports rule.grammar ref.target.grammar) := by
  cases h with
  | newGrammar name options _ =>
    exact Or.inl ⟨slot, (slot?_newGrammar name _ options bench.store rule).symm.trans hslot, href⟩
  | localRule name _ =>
    rcases slot?_localRule hslot with hold | rfl
    · exact Or.inl ⟨slot, hold, href⟩
    · cases href
  | retain _ _ => exact Or.inl ⟨slot, (slot?_retain _ _ rule).symm.trans hslot, href⟩
  | @setDefinition changed definition _ hheld =>
    refine (references_adopted definition (fun slot ref href => ?_) hslot href).imp_right
      fun ⟨href, hsupports⟩ => ⟨Or.inl ⟨definition, hheld, href⟩, hsupports⟩
    rcases Slot.mem_references.1 href with ⟨_, ⟨⟩, href⟩ | href
    · exact Or.inr href
    · exact Or.inl (Slot.mem_references.2 (Or.inr href))
  | @exclude changed excluded _ hheld =>
    refine (references_adopted (.rule (bench.store.catalog.refer excluded))
      (fun slot ref href => ?_) hslot href).imp_right fun ⟨href, hsupports⟩ => ⟨Or.inr ?_, hsupports⟩
    · rcases Slot.mem_references.1 href with href | href
      · exact Or.inl (Slot.mem_references.2 (Or.inl href))
      · cases href
        exact Or.inr (by simp [Parser.references, Parser.walk])
    · obtain rfl : ref = bench.store.catalog.refer excluded := by
        simpa [Parser.references, Parser.walk] using href
      exact hheld
  | @clearExclusion changed _ =>
    rcases slot?_update changed _ rule hslot with hold | ⟨rfl, -, old, hold, rfl⟩
    · exact Or.inl ⟨slot, hold, href⟩
    · refine Or.inl ⟨old, hold, Slot.mem_references.2 (Or.inl ?_)⟩
      rcases Slot.mem_references.1 href with href | href
      · exact href
      · cases href
  | @setFirstMatch changed firstMatch _ =>
    refine Or.inl ⟨slot, ?_, href⟩
    rcases Edit.setFirstMatch_snd changed firstMatch bench.store with h | ⟨mode, branches, -, h⟩
    · exact (congrArg (·.catalog.slot? rule) h).symm.trans hslot
    · exact (congrArg (·.catalog.slot? rule) h).symm.trans hslot
  | _ => exact Or.inl ⟨slot, hslot, href⟩

end Bench

def Store.Useful (store : Store) : Handle → Prop
  | .grammar id => id ∈ store.living ∧ id.index < store.catalog.grammars.size
  | .rule rule => rule.grammar ∈ store.living ∧ (store.catalog.slot? rule).isSome
  | .parser parser => ∀ ref ∈ parser.references, (store.catalog.slot? ref.target).isSome

namespace Store

variable {store store' : Store}

theorem Extends.useful (h : Extends store store') {handle : Handle} (huseful : store.Useful handle) :
    store'.Useful handle := by
  cases handle with
  | grammar id => exact ⟨h.living_eq ▸ huseful.1, huseful.2.trans_le h.size⟩
  | rule rule => exact ⟨h.living_eq ▸ huseful.1, h.slot rule huseful.2⟩
  | parser parser => exact fun ref href => h.slot _ (huseful ref href)

theorem index_lt_of_slot? {rule : RuleId} (h : (store.catalog.slot? rule).isSome) :
    rule.grammar.index < store.catalog.grammars.size := by
  by_contra hge
  rw [Catalog.slot?, grammar_eq_default (not_lt.1 hge)] at h
  cases h

/-- What a grammar that is left retains is left. -/
theorem retained_mem_leftGrammars (roots : Roots) {id other : GrammarId}
    (hid : id ∈ store.leftGrammars roots) (hother : other ∈ (store.catalog.grammar id).retained)
    (hindex : other.index < store.catalog.grammars.size) (hliving : other ∈ store.living) :
    other ∈ store.leftGrammars roots := by
  refine (selfSupporting_induction (P := fun left => id ∈ left → other ∈ left) (fun left h hid => ?_)
    _ fun _ => mem_alive_filter.2 ⟨hindex, hliving⟩) hid
  obtain ⟨hid, -⟩ := List.mem_filter.1 hid
  refine List.mem_filter.2 ⟨h hid, ?_⟩
  rw [List.contains_iff_mem]
  refine List.mem_append_right _ (List.mem_flatMap.2 ⟨id, hid, ?_⟩)
  exact List.mem_append_right _ hother

/-- A grammar that is left keeps alive what it kept alive before. -/
theorem supported_mem_living_collect {held : Set Parser} (hsane : Sane held store) {roots : Roots}
    {id : GrammarId} (hlinks : ∀ other, store.catalog.Supports id other → other ∈ store.living)
    (hid : id ∈ (store.collect roots).living) {other : GrammarId}
    (h : store.catalog.Supports id other) : other ∈ (store.collect roots).living := by
  refine mem_living_collect.2 ⟨hlinks other h, fun hindex => ?_⟩
  have hleft (hlinked : store.catalog.grammar id ≠ default) : id ∈ store.leftGrammars roots :=
    (mem_living_collect.1 hid).2 (not_le.1 fun hge => hlinked (grammar_eq_default hge))
  rcases h with rfl | hbase | hretained
  · exact (mem_living_collect.1 hid).2 hindex
  · exact bases_mem_leftGrammars hsane roots (hleft fun heq => by rw [heq] at hbase; cases hbase)
      other hbase
  · exact retained_mem_leftGrammars roots
      (hleft fun heq => by rw [heq] at hretained; cases hretained) hretained hindex
        (hlinks other (Or.inr (Or.inr hretained)))

theorem useful_collect {roots : Roots} {handle : Handle} (huseful : store.Useful handle)
    (hgrammars : ∀ id, handle = .grammar id → id ∈ roots.grammars)
    (hrules : ∀ rule, handle = .rule rule → rule.grammar ∈ roots.grammars) :
    (store.collect roots).Useful handle := by
  cases handle with
  | grammar id =>
    exact ⟨mem_living_collect.2 ⟨huseful.1, fun hlt =>
      mem_leftGrammars_of_mem_roots (hgrammars id rfl) hlt huseful.1⟩, huseful.2⟩
  | rule rule =>
    exact ⟨mem_living_collect.2 ⟨huseful.1, fun hlt =>
      mem_leftGrammars_of_mem_roots (hrules rule rfl) hlt huseful.1⟩, huseful.2⟩
  | parser parser => exact huseful

end Store

namespace Bench

structure Orderly (bench : Bench) : Prop where
  sane : Sane {parser | .parser parser ∈ bench.held} bench.store
  useful : ∀ handle ∈ bench.held, bench.store.Useful handle
  referred : ∀ rule slot, bench.store.catalog.slot? rule = some slot → ∀ ref ∈ slot.references,
    (bench.store.catalog.slot? ref.target).isSome
  supported : ∀ rule slot, bench.store.catalog.slot? rule = some slot → ∀ ref ∈ slot.references,
    bench.store.catalog.alive ref.target.grammar = true →
      bench.store.catalog.Supports rule.grammar ref.target.grammar
  links : ∀ id ∈ bench.store.living, ∀ other, bench.store.catalog.Supports id other →
    other ∈ bench.store.living
  lost_lt : ∀ id ∈ bench.store.catalog.lost, id.index < bench.store.catalog.grammars.size

variable {bench bench' : Bench}

theorem Orderly.exists_of_knows (h : bench.Orderly) {ref : RuleRef} (hknows : bench.Knows ref) :
    (bench.store.catalog.slot? ref.target).isSome := by
  rcases hknows with ⟨parser, hparser, href⟩ | hrule
  · exact h.useful _ hparser ref href
  · exact (h.useful _ hrule).2

end Bench

/-- A parse of any parser adds no cache and takes none away. -/
theorem matchesOf_keeps_size (catalog : Catalog) (parser : Parser) (source : Source) (start : Nat)
    (size : Nat) : (keeping (·.size = size)).rel (StopsIn fun _ => True)
      (catalog.matchesOf parser source start) (catalog.matchesOf parser source start) :=
  enumerate_rel (settling_true.consume source) parser
    { call := fun ref _ o _ => call_keeps_size catalog size _ source ref o
      mode := fun _ _ _ => rfl
      remember := fun _ _ _ _ _ _ h => remembered_keeps
        (fun _ hcaches => Array.size_modify.trans hcaches)
        (fun _ _ hcaches => Array.size_modify.trans hcaches) (fun _ _ _ _ _ => trivial) h }
    start trivial

namespace Bench

variable {bench bench' : Bench}

theorem Step.sane (h : bench.Step bench') (horderly : bench.Orderly) :
    Sane {parser | .parser parser ∈ bench'.held} bench'.store := by
  have hsane := horderly.sane
  have hinsert {store : Store} {parser : Parser}
      (h : Sane (insert parser {parser | .parser parser ∈ bench.held}) store) :
      Sane {other | .parser other ∈ insert (.parser parser) bench.held} store :=
    h.forget fun other hother => by
      rcases hother with hother | hother
      · exact Or.inl (Handle.parser.inj hother)
      · exact Or.inr hother
  have hother {store : Store} {handle : Handle} (hne : ∀ parser, handle ≠ .parser parser)
      (h : Sane {parser | .parser parser ∈ bench.held} store) :
      Sane {other | .parser other ∈ insert handle bench.held} store :=
    h.forget fun parser hparser => by
      rcases hparser with hparser | hparser
      · exact absurd hparser.symm (hne parser)
      · exact hparser
  have hliving {rule : RuleId} (hrule : .rule rule ∈ bench.held) :
      rule.grammar ∈ bench.store.living := (horderly.useful (.rule rule) hrule).1
  -- A program may change any rule that it holds, and a change is one of that rule's grammar.
  have hloyal {rule : RuleId} (hrule : .rule rule ∈ bench.held) :
      Loyal rule.grammar ∅ bench.store.catalog {parser | .parser parser ∈ bench.held} bench.store :=
    loyal_empty hsane (hliving hrule)
  cases h with
  | forget hsub => exact hsane.forget fun parser hparser => hsub hparser
  | grammarOf _ | baseOf _ _ | lookup _ _ => exact hother nofun hsane
  | definition hrule hdefinition =>
    exact hinsert (hsane.hold_definition (hliving hrule) hdefinition)
  | part hheld hpart => exact hinsert (hsane.hold_part hheld hpart)
  | reference _ | literal terminal | prose text =>
    exact hinsert (hsane.hold_leaf rfl rfl fun _ _ heq => by cases heq)
  | concatenation hparts => exact hinsert (hsane.hold_concatenation hparts)
  | alternation firstMatch hbranches =>
    exact hinsert (hsane.hold_alternation firstMatch hbranches).2
  | repetition capacity bounds helement =>
    exact hinsert (hsane.hold_repetition capacity bounds helement).2
  | optional capacity helement => exact hinsert (hsane.hold_optional capacity helement).2
  | newGrammar name options hbase =>
    exact hother nofun (hsane.newGrammar name (fun id hid => horderly.useful _ (hbase id hid)) options)
  | localRule name _ => exact hother nofun ((quiet_localRule _ name).sane hsane)
  | retain _ _ => exact (quiet_retain _ _).sane hsane
  | setDefinition hrule hheld =>
    exact ((hloyal hrule).setDefinition (Set.notMem_empty _) rfl hheld).sane
  | exclude hrule _ => exact ((hloyal hrule).exclude (Set.notMem_empty _) rfl _).sane
  | clearExclusion hrule => exact ((hloyal hrule).clearExclusion (Set.notMem_empty _) rfl).sane
  | setFirstMatch firstMatch hrule =>
    rcases (hloyal hrule).setFirstMatch rfl firstMatch
      (fun _ _ _ _ ⟨_, _, _, hrule, _⟩ => absurd hrule (Set.notMem_empty _)) with h | h
    · exact (congrArg (Sane _) h).mpr hsane
    · exact h.sane
  | clearCaches id => exact (quiet_clearCaches id).sane hsane
  | ruleMatches rule source start =>
    exact calm_sane.parsing (fun catalog => respects_ruleMatches catalog rule source start) _ hsane
  | matchesOf source start _ =>
    exact hsane.of_caches (matchesOf_keeps_size _ _ source start _ _ rfl).1

/-- What is durable no step spoils. -/
theorem Step.durable {P : Store → Prop} (hP : Durable P) (h : bench.Step bench')
    (hbench : P bench.store) : P bench'.store := by
  cases h with
  | @alternation firstMatch branches _ =>
    exact Edit.lasting_alternation firstMatch branches P hP _ hbench
  | @repetition capacity bounds element _ =>
    exact Edit.lasting_repetition capacity bounds element P hP _ hbench
  | @optional capacity element _ => exact Edit.lasting_optional capacity element P hP _ hbench
  | newGrammar name options _ => exact hP.newGrammar name _ options _ hbench
  | localRule name _ => exact Edit.lasting_localRule _ name P hP _ hbench
  | retain _ _ => exact hP.retain _ _ _ hbench
  | setDefinition _ _ => exact Edit.lasting_setDefinition _ _ P hP _ hbench
  | exclude _ _ => exact Edit.lasting_exclude _ _ P hP _ hbench
  | clearExclusion _ => exact Edit.lasting_clearExclusion _ P hP _ hbench
  | setFirstMatch firstMatch _ => exact Edit.lasting_setFirstMatch _ firstMatch P hP _ hbench
  | clearCaches id => exact hP.clearCaches id _ hbench
  | ruleMatches rule source start => exact Edit.lasting_ruleMatches rule source start P hP _ hbench
  | matchesOf source start _ => exact hP.matchesOf _ source start _ hbench
  | _ => exact hbench

end Bench

section
variable {store : Store}

/-- A local rule exists once it has been looked up. -/
theorem useful_localRule {id : GrammarId} (hid : store.Useful (.grammar id)) (name : String) :
    (Edit.localRule id name store).2.Useful (.rule (Edit.localRule id name store).1) := by
  cases hlocal : store.catalog.local? id name with
  | some rule =>
    rw [Store.localRule_eq_of_local hlocal]
    obtain ⟨place, -, rfl⟩ := Option.map_eq_some_iff.1 hlocal
    exact ⟨hid.1, Catalog.isSome_slot?_of_local? hlocal⟩
  | none =>
    rw [Store.localRule_eq_push hlocal]
    refine ⟨hid.1, ?_⟩
    rw [Store.slot?_push hid.2]
    split
    case isTrue => rfl
    case isFalse hne => exact absurd rfl hne

theorem useful_concatenation {parts : List Parser}
    (hparts : ∀ part ∈ parts, store.Useful (.parser part)) :
    store.Useful (.parser (.concatenation parts)) := by
  intro ref href
  have hwalk := Parser.mem_references.1 href
  simp only [Parser.walk, List.mem_cons, reduceCtorEq, false_or] at hwalk
  obtain ⟨part, hpart, hnode⟩ := Parser.mem_walkAll.1 hwalk
  exact hparts part hpart ref (Parser.mem_references.2 hnode)

theorem useful_alternation {branches : List Parser} (mode : ModeId)
    (hbranches : ∀ branch ∈ branches, store.Useful (.parser branch)) :
    store.Useful (.parser (.alternation mode branches)) := by
  intro ref href
  have hwalk := Parser.mem_references.1 href
  simp only [Parser.walk, List.mem_cons, reduceCtorEq, false_or] at hwalk
  obtain ⟨branch, hbranch, hnode⟩ := Parser.mem_walkAll.1 hwalk
  exact hbranches branch hbranch ref (Parser.mem_references.2 hnode)

theorem useful_repetition {element : Parser} (cache : CacheId) (bounds : Bounds)
    (helement : store.Useful (.parser element)) :
    store.Useful (.parser (.repetition cache bounds element)) := by
  intro ref href
  have hwalk := Parser.mem_references.1 href
  simp only [Parser.walk, List.mem_cons, reduceCtorEq, false_or] at hwalk
  exact helement ref (Parser.mem_references.2 hwalk)

theorem useful_optional {element : Parser} (cache : CacheId)
    (helement : store.Useful (.parser element)) :
    store.Useful (.parser (.optional cache element)) := by
  intro ref href
  have hwalk := Parser.mem_references.1 href
  simp only [Parser.walk, List.mem_cons, reduceCtorEq, false_or] at hwalk
  exact helement ref (Parser.mem_references.2 hwalk)

theorem useful_newGrammar (hlost : ∀ id ∈ store.catalog.lost,
    id.index < store.catalog.grammars.size) (name : String) (base : Option GrammarId)
    (options : Options) : (Edit.newGrammar name base options store).2.Useful
      (.grammar ⟨store.catalog.grammars.size⟩) := by
  have hextends : store.Extends (Edit.newGrammar name base options store).2 :=
    Store.extends_newGrammar name base options
  refine ⟨hextends.living_eq ▸ ?_, ?_⟩
  · change (!store.catalog.lost.contains _) = true
    rw [Bool.not_eq_true', ← Bool.not_eq_true, List.contains_iff_mem]
    exact fun hmem => absurd (hlost _ hmem) (Nat.lt_irrefl _)
  · have hpush : (Edit.newGrammar name base options store).2.catalog.grammars.size =
        store.catalog.grammars.size + 1 := by
      cases base <;> exact Array.size_push ..
    exact (Nat.lt_succ_self _).trans_eq hpush.symm

end

namespace Bench

variable {bench bench' : Bench}

theorem Step.useful (h : bench.Step bench') (horderly : bench.Orderly) :
    ∀ handle ∈ bench'.held, bench'.store.Useful handle := by
  have hinsert {store : Store} {handle : Handle} (hextends : bench.store.Extends store)
      (huseful : store.Useful handle) :
      ∀ other ∈ insert handle bench.held, store.Useful other :=
    Set.forall_mem_insert.2 ⟨huseful, fun other hother =>
      hextends.useful (horderly.useful other hother)⟩
  have hhold {handle : Handle} (huseful : bench.store.Useful handle) :
      ∀ other ∈ insert handle bench.held, bench.store.Useful other :=
    hinsert (.refl bench.store) huseful
  have hsame {store : Store} (hextends : bench.store.Extends store) :
      ∀ other ∈ bench.held, store.Useful other := fun other hother =>
    hextends.useful (horderly.useful other hother)
  have hparser {parser : Parser} (hheld : .parser parser ∈ bench.held) :
      ∀ ref ∈ parser.references, (bench.store.catalog.slot? ref.target).isSome :=
    horderly.useful (.parser parser) hheld
  -- Whatever was held stays useful as the store is extended, so that each case is about the
  -- handle that is new.
  cases h with
  | forget hsub => exact fun handle hhandle => horderly.useful handle (hsub hhandle)
  | @grammarOf rule hrule =>
    have huseful := horderly.useful (.rule rule) hrule
    exact hhold ⟨huseful.1, Store.index_lt_of_slot? huseful.2⟩
  | @baseOf id base hid hbase =>
    have huseful := horderly.useful (.grammar id) hid
    exact hhold ⟨horderly.sane.bases_alive id huseful.1 base (List.mem_of_head? hbase),
      (horderly.sane.lineage id base hbase).1.trans huseful.2⟩
  | @lookup id name rule hid hrule =>
    have huseful := horderly.useful (.grammar id) hid
    refine hhold ⟨horderly.sane.lookup?_living huseful.1 hrule, ?_⟩
    obtain ⟨other, -, hlocal⟩ := List.exists_of_findSome?_eq_some hrule
    exact Catalog.isSome_slot?_of_local? hlocal
  | definition _ hdefinition =>
    obtain ⟨slot, hslot, hdefinition⟩ := Option.bind_eq_some_iff.1 hdefinition
    exact hhold fun ref href => horderly.referred _ slot hslot ref
      (Slot.mem_references.2 (Or.inl ⟨_, hdefinition, href⟩))
  | @part parser _ hheld hpart =>
    exact hhold fun ref href => hparser hheld ref
      (Parser.mem_references.2 (parser.walk_trans hpart (Parser.mem_references.1 href)))
  | @reference rule hrule =>
    refine hhold fun ref href => ?_
    obtain rfl : ref = bench.store.catalog.refer rule := by
      simpa [Parser.references, Parser.walk] using href
    exact (horderly.useful (.rule rule) hrule).2
  | literal terminal | prose text =>
    exact hhold fun ref href => by simp [Parser.references, Parser.walk] at href
  | concatenation hparts =>
    exact hhold (useful_concatenation fun part hpart => horderly.useful _ (hparts part hpart))
  | @alternation firstMatch branches hbranches =>
    have hextends : bench.store.Extends (Edit.alternation firstMatch branches bench.store).2 :=
      Store.extends_of_catalog rfl rfl
    exact hinsert hextends (useful_alternation _ fun branch hbranch =>
      hextends.useful (horderly.useful _ (hbranches branch hbranch)))
  | @repetition capacity bounds element helement =>
    have hextends : bench.store.Extends (Edit.repetition capacity bounds element bench.store).2 :=
      Store.extends_of_catalog rfl rfl
    exact hinsert hextends
      (useful_repetition _ bounds (hextends.useful (horderly.useful _ helement)))
  | @optional capacity element helement =>
    have hextends : bench.store.Extends (Edit.optional capacity element bench.store).2 :=
      Store.extends_of_catalog rfl rfl
    exact hinsert hextends (useful_optional _ (hextends.useful (horderly.useful _ helement)))
  | @newGrammar name base options hbase =>
    refine hinsert (Store.extends_newGrammar name base options) ?_
    rw [Edit.newGrammar_fst]
    exact useful_newGrammar horderly.lost_lt name base options
  | @localRule id name hid =>
    exact hinsert (Store.extends_localRule id name)
      (useful_localRule (horderly.useful (.grammar id) hid) name)
  | retain _ _ => exact hsame (Store.extends_retain _ _)
  | setDefinition _ _ => exact hsame (Store.extends_setDefinition _ _)
  | exclude _ _ => exact hsame (Store.extends_exclude _ _)
  | clearExclusion _ => exact hsame (Store.extends_updateRule _ _)
  | setFirstMatch firstMatch _ => exact hsame (Store.extends_setFirstMatch _ firstMatch)
  | _ => exact hsame (Store.extends_of_catalog rfl rfl)

/-- A grammar comes to keep alive only what is alive. -/
theorem Step.links (h : bench.Step bench') (horderly : bench.Orderly) :
    ∀ id ∈ bench.store.living, ∀ other, bench'.store.catalog.Supports id other →
      other ∈ bench.store.living := by
  intro id hid other hsupports
  have hold (h : bench.store.catalog.Supports id other) : other ∈ bench.store.living :=
    horderly.links id hid other h
  cases h with
  | newGrammar name options hbase =>
    rcases Store.supports_of_newGrammar hsupports with h | ⟨-, base, hbase', h⟩
    · exact hold h
    · exact horderly.links base (horderly.useful _ (hbase base hbase')).1 other h
  | localRule name _ => exact hold (Store.supports_of_localRule hsupports)
  | retain _ hsource =>
    rcases Store.supports_of_retain hsupports with h | rfl
    · exact hold h
    · exact (horderly.useful _ hsource).1
  | setDefinition _ _ =>
    exact (Store.supports_of_adopt (Store.supports_of_updateRule hsupports)).elim hold fun h => h
  | exclude _ _ =>
    exact (Store.supports_of_adopt (Store.supports_of_updateRule hsupports)).elim hold fun h => h
  | clearExclusion _ => exact hold (Store.supports_of_updateRule hsupports)
  | @setFirstMatch rule firstMatch _ =>
    rcases Edit.setFirstMatch_snd rule firstMatch bench.store with h | ⟨mode, branches, -, h⟩
    · exact hold ((congrArg (·.catalog.Supports id other) h).mp hsupports)
    · exact hold ((congrArg (·.catalog.Supports id other) h).mp hsupports)
  | _ => exact hold hsupports

theorem Step.orderly (h : bench.Step bench') (horderly : bench.Orderly) : bench'.Orderly where
  sane := h.sane horderly
  useful := h.useful horderly
  referred rule slot hslot ref href := by
    refine h.extends.slot _ ?_
    rcases h.references hslot href with ⟨old, hold, href⟩ | ⟨hknows, -⟩
    · exact horderly.referred rule old hold ref href
    · exact horderly.exists_of_knows hknows
  supported rule slot hslot ref href halive := by
    rw [h.extends.alive] at halive
    rcases h.references hslot href with ⟨old, hold, href⟩ | ⟨-, hsupports⟩
    · exact h.extends.supports _ _ (horderly.supported rule old hold ref href halive)
    · exact hsupports halive
  links := by
    rw [h.extends.living_eq]
    exact h.links horderly
  lost_lt id hid := by
    refine (horderly.lost_lt id ?_).trans_le h.extends.size
    have halive := h.extends.alive id
    simpa [Catalog.alive, hid] using halive

theorem Collects.orderly (h : bench.Collects bench') (horderly : bench.Orderly) :
    bench'.Orderly := by
  cases h with
  | @collect roots hgrammars hrules hparsers =>
    exact
      { sane := horderly.sane.collect subset_rfl hparsers
        useful := fun handle hhandle => Store.useful_collect (horderly.useful handle hhandle)
          (fun id heq => hgrammars id (heq ▸ hhandle)) fun rule heq => hrules rule (heq ▸ hhandle)
        referred := horderly.referred
        supported := fun rule slot hslot ref href halive =>
          horderly.supported rule slot hslot ref href (Store.mem_living_collect.1 halive).1
        links := fun id hid other => Store.supported_mem_living_collect horderly.sane
          (horderly.links id (Store.mem_living_collect.1 hid).1) hid
        lost_lt := fun id hid => by
          rcases List.mem_append.1 hid with hid | hid
          · exact horderly.lost_lt id hid
          · exact Store.mem_grammarIds.1 (List.mem_filter.1 (List.mem_filter.1 hid).1).1 }

theorem Collects.durable {P : Store → Prop} (hP : Durable P) (h : bench.Collects bench')
    (hbench : P bench.store) : P bench'.store := by
  cases h
  exact hP.collect _ hbench

theorem Steps.orderly (h : bench.Steps bench') (horderly : bench.Orderly) : bench'.Orderly := by
  induction h with
  | refl => exact horderly
  | tail _ hstep ih => exact hstep.orderly ih

theorem Steps.durable {P : Store → Prop} (hP : Durable P) (h : bench.Steps bench')
    (hbench : P bench.store) : P bench'.store := by
  induction h with
  | refl => exact hbench
  | tail _ hstep ih => exact hstep.durable hP ih

end Bench

end Metasyntax
