import Metasyntax.Standard
import Metasyntax.Proofs.Frame

/-!
# Edits of a store

Most of what an edit does is quiet: it adds unbound rules, modes and caches, empties
caches, or notes which caches and grammars belong together. What was sound stays so.
The edits that change a definition, an exclusion or a mode of a grammar end with
emptying all caches in that grammar's definitions, as long as these are registered.
-/

set_option autoImplicit false

namespace Metasyntax

theorem grammar_eq_default {catalog : Catalog} {id : GrammarId}
    (h : catalog.grammars.size ≤ id.index) : catalog.grammar id = default := by
  rw [Catalog.grammar, Array.getElem?_eq_none h]
  rfl

theorem Catalog.isSome_slot?_of_local? {catalog : Catalog} {id : GrammarId} {name : String}
    {rule : RuleId} (h : catalog.local? id name = some rule) : (catalog.slot? rule).isSome := by
  obtain ⟨place, hplace, rfl⟩ := Option.map_eq_some_iff.1 h
  rw [RuleTable.find?] at hplace
  have hlt := (catalog.grammar id).table.place_lt _ place hplace
  exact Option.isSome_of_eq_some (Array.getElem?_eq_getElem hlt)

namespace Edit

theorem bind_apply {α β : Type} (x : Edit α) (f : α → Edit β) (store : Store) :
    (x >>= f) store = f (x store).1 (x store).2 :=
  rfl

theorem get_apply (store : Store) : (get : Edit Store) store = (store, store) := rfl

theorem pure_apply {α : Type} (a : α) (store : Store) : (pure a : Edit α) store = (a, store) := rfl

theorem grammar_modifyGrammar (id : GrammarId) (change : Grammar → Grammar) (store : Store)
    (other : GrammarId) :
    (modifyGrammar id change store).2.catalog.grammar other =
      if other = id ∧ id.index < store.catalog.grammars.size then change (store.catalog.grammar id)
      else store.catalog.grammar other := by
  obtain ⟨i⟩ := id
  obtain ⟨j⟩ := other
  change ((store.catalog.grammars.modify i change)[j]?).getD default = _
  simp only [Catalog.grammar, Array.getElem?_modify, GrammarId.mk.injEq]
  by_cases hij : i = j
  · subst hij
    by_cases hlt : i < store.catalog.grammars.size
    · simp [hlt]
    · simp [hlt]
  · rw [if_neg hij, if_neg fun h => hij h.1.symm]

theorem slot?_modifyGrammar (id : GrammarId) (change : Grammar → Grammar) (store : Store)
    (rule : RuleId) :
    (modifyGrammar id change store).2.catalog.slot? rule =
      if rule.grammar = id ∧ id.index < store.catalog.grammars.size then
        (change (store.catalog.grammar id)).table.slots[rule.slot]?
      else store.catalog.slot? rule := by
  rw [Catalog.slot?, grammar_modifyGrammar]
  split <;> rfl

theorem local?_modifyGrammar (id : GrammarId) (change : Grammar → Grammar) (store : Store)
    (other : GrammarId) (name : String) :
    (modifyGrammar id change store).2.catalog.local? other name =
      if other = id ∧ id.index < store.catalog.grammars.size then
        ((change (store.catalog.grammar id)).table.find? name).map (⟨other, ·⟩)
      else store.catalog.local? other name := by
  rw [Catalog.local?, grammar_modifyGrammar]
  split <;> rfl

theorem registry_modifyTable (id : GrammarId) (change : RuleTable → RuleTable) (store : Store)
    (other : GrammarId) :
    ((modifyTable id change store).2.catalog.grammar other).registry =
      (store.catalog.grammar other).registry := by
  rw [modifyTable, grammar_modifyGrammar]
  split
  case isTrue h => rw [h.1]
  case isFalse => rfl

theorem bases_modifyTable (id : GrammarId) (change : RuleTable → RuleTable) (store : Store)
    (other : GrammarId) :
    ((modifyTable id change store).2.catalog.grammar other).bases =
      (store.catalog.grammar other).bases := by
  rw [modifyTable, grammar_modifyGrammar]
  split
  case isTrue h => rw [h.1]
  case isFalse => rfl

end Edit

namespace Catalog

/-- A catalog with nothing but new unbound rules in it agrees everywhere. -/
theorem Agrees.of_slots {c c' : Catalog} (hlost : c'.lost = c.lost)
    (hfound : ∀ id name rule, c.local? id name = some rule → c'.local? id name = some rule)
    (hmode : ∀ mode branches, .alternation mode branches ∈ (c.within Set.univ).nodes →
      c'.firstMatch mode = c.firstMatch mode)
    (hold : ∀ rule slot, c.slot? rule = some slot → c'.slot? rule = some slot)
    (hnew : ∀ rule slot, c'.slot? rule = some slot →
      c.slot? rule = some slot ∨ slot.definition = none) : Agrees Set.univ c c' where
  lost id := by
    rw [Catalog.alive, Catalog.alive, hlost]
    exact fun h => h
  alive id _ := by
    rw [Catalog.alive, Catalog.alive, hlost]
    exact fun h => h
  found id _ := hfound id
  mode := hmode
  bound rule _ slot definition := by
    rw [bound_eq_ok_iff, bound_eq_ok_iff]
    constructor
    · rintro ⟨hslot, hdefinition⟩
      rcases hnew rule slot hslot with h | h
      · exact ⟨h, hdefinition⟩
      · rw [h] at hdefinition
        cases hdefinition
    · rintro ⟨hslot, hdefinition⟩
      exact ⟨hold rule slot hslot, hdefinition⟩
  name rule _ slot hslot := ⟨slot, hold rule slot hslot, rfl⟩

end Catalog

def Store.used (store : Store) (grammars : Set GrammarId) (held : Set Parser) : Set Parser :=
  {node | (∃ parser ∈ held, node ∈ parser.walk) ∨ node ∈ (store.catalog.within grammars).nodes}

def Store.living (store : Store) : Set GrammarId := {id | store.catalog.alive id = true}

/-- A store as a program leaves it: caches and modes that are used exist, no cache belongs
to two parsers or is lost while it is used, every grammar has those caches of its definitions
registered that are not lost, and grammars stay as long as another is based on them. -/
structure Sane (held : Set Parser) (store : Store) : Prop where
  cache_lt : ∀ node ∈ store.used Set.univ held, ∀ id, node.cache? = some id →
    id.index < store.caches.size
  mode_lt : ∀ mode branches, .alternation mode branches ∈ store.used Set.univ held →
    mode.index < store.catalog.modes.size
  apart : Apart (store.used Set.univ held) (store.used Set.univ held)
  lost_lt : ∀ id ∈ store.lostCaches, id.index < store.caches.size
  alive : ∀ node ∈ store.used store.living held, ∀ id, node.cache? = some id →
    id ∉ store.lostCaches
  registered : ∀ grammar, ∀ node ∈ (store.catalog.within {grammar}).nodes, ∀ id,
    node.cache? = some id → id ∉ store.lostCaches →
      id ∈ (store.catalog.grammar grammar).registry.members
  lineage : ∀ id base, (store.catalog.grammar id).base? = some base →
    base.index < id.index ∧
      (store.catalog.grammar id).bases = base :: (store.catalog.grammar base).bases
  bases_alive : ∀ id ∈ store.living, ∀ base ∈ (store.catalog.grammar id).bases,
    base ∈ store.living

structure Enlarges (store store' : Store) : Prop where
  agrees : Catalog.Agrees Set.univ store.catalog store'.catalog
  caches_le : store.caches.size ≤ store'.caches.size
  modes_le : store.catalog.modes.size ≤ store'.catalog.modes.size
  lost : store'.lostCaches = store.lostCaches
  grammars : store'.catalog.grammars.size = store.catalog.grammars.size
  registry : ∀ id, ∀ cache ∈ (store.catalog.grammar id).registry.members,
    cache ∉ store.lostCaches → cache ∈ (store'.catalog.grammar id).registry.members
  bases : ∀ id, (store'.catalog.grammar id).bases = (store.catalog.grammar id).bases

namespace Enlarges

variable {store store' store'' : Store} {held : Set Parser}

theorem refl (store : Store) : Enlarges store store where
  agrees := .refl _ _
  caches_le := le_rfl
  modes_le := le_rfl
  lost := rfl
  grammars := rfl
  registry _ _ h _ := h
  bases _ := rfl

theorem used_eq (h : Enlarges store store') (grammars : Set GrammarId) (held : Set Parser) :
    store'.used grammars held = store.used grammars held := by
  rw [Store.used, Store.used, (h.agrees.mono (Set.subset_univ _)).nodes_eq]

theorem living_eq (h : Enlarges store store') : store'.living = store.living := by
  ext id
  exact ⟨h.agrees.lost id, h.agrees.alive id (Set.mem_univ id)⟩

theorem trans (h : Enlarges store store') (h' : Enlarges store' store'') :
    Enlarges store store'' where
  agrees := h.agrees.trans h'.agrees
  caches_le := h.caches_le.trans h'.caches_le
  modes_le := h.modes_le.trans h'.modes_le
  lost := h'.lost.trans h.lost
  grammars := h'.grammars.trans h.grammars
  registry id cache hcache hlost :=
    h'.registry id cache (h.registry id cache hcache hlost) (h.lost ▸ hlost)
  bases id := (h'.bases id).trans (h.bases id)

theorem sane (h : Enlarges store store') (hsane : Sane held store) : Sane held store' where
  cache_lt node hnode id hid :=
    (hsane.cache_lt node (h.used_eq _ held ▸ hnode) id hid).trans_le h.caches_le
  mode_lt mode branches hmode :=
    (hsane.mode_lt mode branches (h.used_eq _ held ▸ hmode)).trans_le h.modes_le
  apart := by
    rw [h.used_eq _ held]
    exact hsane.apart
  lost_lt id hid := (hsane.lost_lt id (h.lost ▸ hid)).trans_le h.caches_le
  alive node hnode id hid := by
    rw [h.living_eq, h.used_eq] at hnode
    rw [h.lost]
    exact hsane.alive node hnode id hid
  registered grammar node hnode id hid hlost := by
    rw [(h.agrees.mono (Set.subset_univ _)).nodes_eq] at hnode
    rw [h.lost] at hlost
    exact h.registry grammar id (hsane.registered grammar node hnode id hid hlost) hlost
  lineage id base hbase := by
    rw [Grammar.base?, h.bases] at hbase
    rw [h.bases, h.bases]
    exact hsane.lineage id base hbase
  bases_alive id hid base hbase := by
    rw [h.living_eq] at hid ⊢
    exact hsane.bases_alive id hid base (h.bases id ▸ hbase)

end Enlarges

structure Quiet (store store' : Store) : Prop extends Enlarges store store' where
  holds : ∀ id key attempt, store'.caches.Holds id key attempt → store.caches.Holds id key attempt

namespace Quiet

variable {store store' store'' : Store} {held : Set Parser}

theorem refl (store : Store) : Quiet store store := ⟨.refl store, fun _ _ _ h => h⟩

theorem used_eq (h : Quiet store store') (grammars : Set GrammarId) (held : Set Parser) :
    store'.used grammars held = store.used grammars held :=
  h.toEnlarges.used_eq grammars held

theorem living_eq (h : Quiet store store') : store'.living = store.living :=
  h.toEnlarges.living_eq

theorem trans (h : Quiet store store') (h' : Quiet store' store'') : Quiet store store'' :=
  ⟨h.toEnlarges.trans h'.toEnlarges, fun id key attempt hholds =>
    h.holds id key attempt (h'.holds id key attempt hholds)⟩

theorem sane (h : Quiet store store') (hsane : Sane held store) : Sane held store' :=
  h.toEnlarges.sane hsane

end Quiet

section
variable {store : Store} {held : Set Parser}

theorem quiet_modifyGrammar (id : GrammarId) (change : Grammar → Grammar)
    (htable : ∀ grammar, (change grammar).table = grammar.table)
    (hbases : ∀ grammar, (change grammar).bases = grammar.bases)
    (hregistry : ∀ grammar, ∀ cache ∈ grammar.registry.members,
      cache ∉ store.lostCaches → cache ∈ (change grammar).registry.members) :
    Quiet store (Edit.modifyGrammar id change store).2 := by
  have hslot : ∀ rule, (Edit.modifyGrammar id change store).2.catalog.slot? rule =
      store.catalog.slot? rule := by
    intro rule
    rw [Edit.slot?_modifyGrammar]
    split
    case isTrue h => rw [htable, Catalog.slot?, h.1]
    case isFalse => rfl
  have hlocal : ∀ other name, (Edit.modifyGrammar id change store).2.catalog.local? other name =
      store.catalog.local? other name := by
    intro other name
    rw [Edit.local?_modifyGrammar]
    split
    case isTrue h => rw [htable, Catalog.local?, h.1]
    case isFalse => rfl
  exact
    { agrees := .of_slots rfl (fun other name rule h => (hlocal other name).trans h)
        (fun _ _ _ => rfl) (fun rule slot h => (hslot rule).trans h)
        fun rule slot h => Or.inl ((hslot rule).symm.trans h)
      holds := fun _ _ _ h => h
      caches_le := le_rfl
      modes_le := le_rfl
      lost := rfl
      grammars := by
        change (store.catalog.grammars.modify id.index change).size = _
        simp
      registry := fun other cache hcache hlost => by
        rw [Edit.grammar_modifyGrammar]
        split
        case isTrue h => exact hregistry _ _ (h.1 ▸ hcache) hlost
        case isFalse => exact hcache
      bases := fun other => by
        rw [Edit.grammar_modifyGrammar]
        split
        case isTrue h => rw [hbases, h.1]
        case isFalse => rfl }

theorem RuleTable.find?_push (table : RuleTable) (name name' : String) :
    (table.push name).find? name' =
      if lowerText name = lowerText name' then some table.slots.size else table.find? name' := by
  rw [find?, push, Std.ExtTreeMap.getElem?_insert]
  simp only [Std.LawfulEqCmp.compare_eq_iff_eq]
  rfl

theorem quiet_push {id : GrammarId} {name : String} (hname : store.catalog.local? id name = none) :
    Quiet store (Edit.modifyTable id (·.push name) store).2 where
  agrees := by
    refine .of_slots rfl (fun other name' rule h => ?_) (fun _ _ _ => rfl) (fun rule slot h => ?_)
      fun rule slot h => ?_
    · rw [Edit.modifyTable, Edit.local?_modifyGrammar]
      split
      case isTrue hid =>
        rw [hid.1, Catalog.local?] at h
        rw [RuleTable.find?_push, if_neg, hid.1]
        · exact h
        · intro heq
          rw [Catalog.local?, RuleTable.find?, heq] at hname
          rw [RuleTable.find?, hname] at h
          cases h
      case isFalse => exact h
    · rw [Edit.modifyTable, Edit.slot?_modifyGrammar]
      split
      case isTrue hrule =>
        rw [Catalog.slot?, hrule.1] at h
        change ((store.catalog.grammar id).table.slots.push ⟨name, none, none⟩)[rule.slot]? = _
        rw [Array.getElem?_push, if_neg, h]
        exact fun hsize => by simp [hsize] at h
      case isFalse => exact h
    · rw [Edit.modifyTable, Edit.slot?_modifyGrammar] at h
      split at h
      case isTrue hrule =>
        change ((store.catalog.grammar id).table.slots.push ⟨name, none, none⟩)[rule.slot]? = _ at h
        rw [Array.getElem?_push] at h
        split at h
        · cases h
          exact Or.inr rfl
        · exact Or.inl (by rw [Catalog.slot?, hrule.1, h])
      case isFalse => exact Or.inl h
  holds _ _ _ h := h
  caches_le := le_rfl
  modes_le := le_rfl
  lost := rfl
  grammars := by
    change (store.catalog.grammars.modify id.index _).size = _
    simp
  registry other cache hcache _ := (Edit.registry_modifyTable id _ store other).symm ▸ hcache
  bases other := Edit.bases_modifyTable id _ store other

theorem size_clearCaches (id : GrammarId) :
    (Edit.clearCaches id store).2.caches.size = store.caches.size := by
  change ((store.cachesOf id).foldl
    (fun caches cache => caches.modify cache.index (·.clear)) store.caches).size = _
  generalize store.caches = caches
  induction store.cachesOf id generalizing caches with
  | nil => rfl
  | cons cache rest ih => simpa using ih (caches.modify cache.index (·.clear))

theorem quiet_clearCaches (id : GrammarId) : Quiet store (Edit.clearCaches id store).2 where
  agrees := .refl _ _
  holds _ _ _ h := (Caches.holds_of_holds_clearAll h).2
  caches_le := (size_clearCaches id).ge
  modes_le := le_rfl
  lost := rfl
  grammars := rfl
  registry _ _ h _ := h
  bases _ := rfl

theorem quiet_newMode (hsane : Sane held store) (firstMatch : Bool) :
    Quiet store (Edit.newMode firstMatch store).2 where
  agrees := .of_slots rfl (fun _ _ _ h => h) (fun mode branches hmode => by
      have hlt := hsane.mode_lt mode branches (Or.inr hmode)
      change ((store.catalog.modes.push firstMatch)[mode.index]?).getD false = _
      rw [Array.getElem?_push, if_neg (Nat.ne_of_lt hlt)]
      rfl) (fun _ _ h => h) fun _ _ h => Or.inl h
  holds _ _ _ h := h
  caches_le := le_rfl
  modes_le := by
    change _ ≤ (store.catalog.modes.push firstMatch).size
    simp
  lost := rfl
  grammars := rfl
  registry _ _ h _ := h
  bases _ := rfl

theorem quiet_newCache (capacity : Capacity) : Quiet store (Edit.newCache capacity store).2 where
  agrees := .refl _ _
  holds _ _ _ h := Caches.holds_of_holds_push h
  caches_le := by
    change _ ≤ (store.caches.push (.empty capacity)).size
    simp
  modes_le := le_rfl
  lost := rfl
  grammars := rfl
  registry _ _ h _ := h
  bases _ := rfl

theorem Store.localRule_eq_of_local {id : GrammarId} {name : String} {rule : RuleId}
    (h : store.catalog.local? id name = some rule) :
    Edit.localRule id name store = (rule, store) := by
  simp only [Edit.localRule, Edit.bind_apply, Edit.get_apply, Edit.pure_apply, h]

theorem Store.localRule_eq_push {id : GrammarId} {name : String}
    (h : store.catalog.local? id name = none) : Edit.localRule id name store =
      (⟨id, (store.catalog.grammar id).table.size⟩, (Edit.modifyTable id (·.push name) store).2) := by
  simp only [Edit.localRule, Edit.bind_apply, Edit.get_apply, Edit.pure_apply, h]

theorem Store.rule_eq_of_lookup {id : GrammarId} {name : String} {rule : RuleId}
    (h : store.catalog.lookup? id name = some rule) : Edit.rule id name store = (rule, store) := by
  simp only [Edit.rule, Edit.bind_apply, Edit.get_apply, Edit.pure_apply, h]

theorem Store.rule_eq_localRule {id : GrammarId} {name : String}
    (h : store.catalog.lookup? id name = none) :
    Edit.rule id name store = Edit.localRule id name store := by
  simp only [Edit.rule, Edit.bind_apply, Edit.get_apply, h]

theorem Catalog.lookup?_of_local {catalog : Catalog} {id : GrammarId} {name : String} {rule : RuleId}
    (h : catalog.local? id name = some rule) : catalog.lookup? id name = some rule := by
  simp [lookup?, h]

theorem Edit.rule_of_local {id : GrammarId} {name : String} {rule : RuleId}
    (h : store.catalog.local? id name = some rule) : Edit.rule id name store = (rule, store) :=
  Store.rule_eq_of_lookup (Catalog.lookup?_of_local h)

theorem quiet_localRule (id : GrammarId) (name : String) :
    Quiet store (Edit.localRule id name store).2 := by
  cases h : store.catalog.local? id name with
  | some rule =>
    rw [Store.localRule_eq_of_local h]
    exact .refl store
  | none =>
    rw [Store.localRule_eq_push h]
    exact quiet_push h

theorem quiet_rule (id : GrammarId) (name : String) : Quiet store (Edit.rule id name store).2 := by
  cases h : store.catalog.lookup? id name with
  | some rule =>
    rw [Store.rule_eq_of_lookup h]
    exact .refl store
  | none =>
    rw [Store.rule_eq_localRule h]
    exact quiet_localRule id name

theorem quiet_retain (id other : GrammarId) : Quiet store (Edit.retain id other store).2 :=
  quiet_modifyGrammar id _ (fun grammar => by split <;> rfl) (fun grammar => by split <;> rfl)
    fun grammar cache hcache _ => by split <;> exact hcache

theorem quiet_forM_retain (id : GrammarId) (targets : List RuleId) :
    Quiet store ((targets.forM fun target => Edit.retain id target.grammar : Edit Unit) store).2 := by
  induction targets generalizing store with
  | nil => exact .refl store
  | cons target rest ih => exact (quiet_retain id target.grammar).trans ih

theorem Registry.mem_register {registry : Registry} {alive : CacheId → Bool} {first cache : CacheId} :
    cache ∈ (registry.register alive first).members ↔ cache ∈ registry.living alive ∨ cache = first := by
  rw [register]
  split
  case isTrue h =>
    constructor
    · exact Or.inl
    · rintro (h' | rfl)
      · exact h'
      · exact h
  case isFalse => rw [List.mem_append, List.mem_singleton]

theorem Registry.mem_of_mem_registerAll {registry : Registry} {alive : CacheId → Bool}
    {caches : List CacheId} {cache : CacheId}
    (h : cache ∈ (registry.registerAll alive caches).members) :
    cache ∈ registry.members ∨ cache ∈ caches := by
  induction caches generalizing registry with
  | nil => exact Or.inl h
  | cons first rest ih =>
    rw [List.mem_cons]
    rcases ih h with h | h
    · rcases mem_register.1 h with h | h
      · exact Or.inl (List.mem_filter.1 h).1
      · exact Or.inr (Or.inl h)
    · exact Or.inr (Or.inr h)

theorem Registry.mem_registerAll {registry : Registry} {alive : CacheId → Bool}
    {caches : List CacheId} {cache : CacheId} (halive : alive cache = true)
    (h : cache ∈ registry.members ∨ cache ∈ caches) :
    cache ∈ (registry.registerAll alive caches).members := by
  induction caches generalizing registry with
  | nil => exact h.resolve_right List.not_mem_nil
  | cons first rest ih =>
    apply ih
    rw [mem_register]
    rw [List.mem_cons] at h
    rcases h with h | h | h
    · exact Or.inl (Or.inl (List.mem_filter.2 ⟨h, halive⟩))
    · exact Or.inl (Or.inr h)
    · exact Or.inr h

theorem Store.cacheAlive_iff {cache : CacheId} :
    store.cacheAlive cache = true ↔ cache ∉ store.lostCaches := by
  simp [cacheAlive]

theorem Store.cacheAlive_congr {store' : Store} (h : store'.lostCaches = store.lostCaches) :
    store'.cacheAlive = store.cacheAlive := by
  funext cache
  rw [cacheAlive, cacheAlive, h]

theorem quiet_register (id : GrammarId) (caches : List CacheId) :
    Quiet store (Edit.register id caches store).2 :=
  quiet_modifyGrammar id _ (fun _ => rfl) (fun _ => rfl) fun _ _ h hlost =>
    Registry.mem_registerAll (Store.cacheAlive_iff.2 hlost) (Or.inl h)

theorem quiet_adopt (id : GrammarId) (parser : Parser) :
    Quiet store (Edit.adopt id parser store).2 := by
  simp only [Edit.adopt, Edit.bind_apply, Edit.get_apply]
  exact (quiet_register id parser.caches).trans (quiet_forM_retain id _)

theorem mem_registry_adopt {id : GrammarId} (hid : id.index < store.catalog.grammars.size)
    {parser : Parser} {cache : CacheId} (h : cache ∈ parser.caches) (hlost : cache ∉ store.lostCaches) :
    cache ∈ ((Edit.adopt id parser store).2.catalog.grammar id).registry.members := by
  simp only [Edit.adopt, Edit.bind_apply, Edit.get_apply]
  refine (quiet_forM_retain id _).registry id cache ?_ hlost
  rw [Edit.register, Edit.bind_apply, Edit.get_apply, Edit.grammar_modifyGrammar, if_pos ⟨rfl, hid⟩]
  exact Registry.mem_registerAll (Store.cacheAlive_iff.2 hlost) (Or.inr h)

theorem living_setDefinition (rule : RuleId) (definition : Parser) :
    (Edit.setDefinition rule definition store).2.living = store.living :=
  (quiet_clearCaches rule.grammar).living_eq.trans (quiet_adopt rule.grammar definition).living_eq

theorem size_setDefinition (rule : RuleId) (definition : Parser) :
    (Edit.setDefinition rule definition store).2.catalog.grammars.size =
      store.catalog.grammars.size := by
  have hadopt : Quiet store (Edit.adopt rule.grammar definition store).2 := quiet_adopt _ _
  rw [← hadopt.grammars]
  exact Array.size_modify

theorem living_define (id : GrammarId) (name : String) (definition : Parser) :
    (Edit.define id name definition store).2.living = store.living :=
  (living_setDefinition _ definition).trans (quiet_localRule id name).living_eq

theorem size_define (id : GrammarId) (name : String) (definition : Parser) :
    (Edit.define id name definition store).2.catalog.grammars.size =
      store.catalog.grammars.size :=
  (size_setDefinition _ definition).trans (quiet_localRule id name).grammars

end

theorem Store.used_living_subset {store : Store} {held : Set Parser} {node : Parser}
    (h : node ∈ store.used store.living held) : node ∈ store.used Set.univ held :=
  h.imp_right fun ⟨rule, slot, definition, _, hbound, hnode⟩ =>
    ⟨rule, slot, definition, Set.mem_univ _, hbound, hnode⟩

namespace Sane

variable {store : Store} {held : Set Parser}

theorem mono {held' : Set Parser} (h : Sane held store)
    (hsub : ∀ parser ∈ held', ∀ node ∈ parser.walk, node ∈ store.used store.living held) :
    Sane held' store := by
  have hliving : ∀ node ∈ store.used store.living held', node ∈ store.used store.living held := by
    rintro node (⟨parser, hparser, hnode⟩ | hnode)
    · exact hsub parser hparser node hnode
    · exact Or.inr hnode
  have hused : ∀ node ∈ store.used Set.univ held', node ∈ store.used Set.univ held := by
    rintro node (⟨parser, hparser, hnode⟩ | hnode)
    · exact Store.used_living_subset (hsub parser hparser node hnode)
    · exact Or.inr hnode
  exact
    { h with
      cache_lt := fun node hnode => h.cache_lt node (hused node hnode)
      mode_lt := fun mode branches hmode => h.mode_lt mode branches (hused _ hmode)
      apart := fun a ha b hb => h.apart a (hused a ha) b (hused b hb)
      alive := fun node hnode => h.alive node (hliving node hnode) }

theorem forget {held' : Set Parser} (h : Sane held store) (hsub : held' ⊆ held) :
    Sane held' store :=
  h.mono fun parser hparser _ hnode => Or.inl ⟨parser, hsub hparser, hnode⟩

theorem hold_part (h : Sane held store) {parser part : Parser} (hparser : parser ∈ held)
    (hpart : part ∈ parser.walk) : Sane (insert part held) store := by
  refine h.mono fun other hother node hnode => Or.inl ?_
  rcases hother with rfl | hother
  · exact ⟨parser, hparser, parser.walk_trans hpart hnode⟩
  · exact ⟨other, hother, hnode⟩

/-- A parser may be held whose parts are used already, and whose own cache and mode nothing
else uses. -/
theorem hold (h : Sane held store) {parser : Parser}
    (hparts : ∀ node ∈ parser.walk, node = parser ∨ node ∈ store.used store.living held)
    (hcache : ∀ id, parser.cache? = some id → id.index < store.caches.size ∧
      id ∉ store.lostCaches ∧
        ∀ node ∈ store.used Set.univ held, node.cache? = some id → node = parser)
    (hmode : ∀ mode branches, parser = .alternation mode branches →
      mode.index < store.catalog.modes.size) : Sane (insert parser held) store := by
  have hliving : ∀ node ∈ store.used store.living (insert parser held),
      node = parser ∨ node ∈ store.used store.living held := by
    rintro node (⟨other, rfl | hother, hnode⟩ | hnode)
    · exact hparts node hnode
    · exact Or.inr (Or.inl ⟨other, hother, hnode⟩)
    · exact Or.inr (Or.inr hnode)
  have hused : ∀ node ∈ store.used Set.univ (insert parser held),
      node = parser ∨ node ∈ store.used Set.univ held := by
    rintro node (⟨other, rfl | hother, hnode⟩ | hnode)
    · exact (hparts node hnode).imp_right Store.used_living_subset
    · exact Or.inr (Or.inl ⟨other, hother, hnode⟩)
    · exact Or.inr (Or.inr hnode)
  exact
    { h with
      cache_lt := fun node hnode id hid => by
        rcases hused node hnode with rfl | hnode
        · exact (hcache id hid).1
        · exact h.cache_lt node hnode id hid
      mode_lt := fun mode branches hnode => by
        rcases hused _ hnode with hnode | hnode
        · exact hmode mode branches hnode.symm
        · exact h.mode_lt mode branches hnode
      apart := fun a ha b hb id hida hidb => by
        rcases hused a ha with heq | ha' <;> rcases hused b hb with heq' | hb'
        · rw [heq, heq']
        · exact heq.trans ((hcache id (heq ▸ hida)).2.2 b hb' hidb).symm
        · exact ((hcache id (heq' ▸ hidb)).2.2 a ha' hida).trans heq'.symm
        · exact h.apart a ha' b hb' id hida hidb
      alive := fun node hnode id hid => by
        rcases hliving node hnode with rfl | hnode
        · exact (hcache id hid).2.1
        · exact h.alive node hnode id hid }

/-- A parse changes caches only. -/
theorem of_caches (h : Sane held store) {caches : Caches} (hsize : caches.size = store.caches.size) :
    Sane held ⟨store.catalog, caches, store.lostCaches⟩ where
  cache_lt node hnode id hid := hsize ▸ h.cache_lt node hnode id hid
  mode_lt := h.mode_lt
  apart := h.apart
  lost_lt id hid := hsize ▸ h.lost_lt id hid
  alive := h.alive
  registered := h.registered
  lineage := h.lineage
  bases_alive := h.bases_alive

theorem apart_within (h : Sane held store) (grammars grammars' : Set GrammarId) :
    Apart (store.catalog.within grammars).nodes (store.catalog.within grammars').nodes := by
  rintro a ⟨rule, slot, definition, -, hbound, ha⟩ b ⟨rule', slot', definition', -, hbound', hb⟩
  exact h.apart a (Or.inr ⟨rule, slot, definition, Set.mem_univ _, hbound, ha⟩) b
    (Or.inr ⟨rule', slot', definition', Set.mem_univ _, hbound', hb⟩)

theorem apart_definition (h : Sane held store) (grammars : Set GrammarId) (rule : RuleId)
    (slot : Slot) (definition : Parser) (hbound : store.catalog.bound rule = .ok (slot, definition)) :
    Apart {node | node ∈ definition.walk} (store.catalog.within grammars).nodes :=
  fun a ha b hb => h.apart_within Set.univ grammars a
    ⟨rule, slot, definition, Set.mem_univ _, hbound, ha⟩ b hb

/-- What a name means in a grammar that is alive is a rule of one that is. -/
theorem lookup?_living (h : Sane held store) {id : GrammarId} (hid : id ∈ store.living)
    {name : String} {rule : RuleId} (hrule : store.catalog.lookup? id name = some rule) :
    rule.grammar ∈ store.living := by
  rw [Catalog.lookup?, List.findSome?_eq_some_iff] at hrule
  obtain ⟨before, other, after, hids, hlocal, -⟩ := hrule
  obtain ⟨place, -, rfl⟩ := Option.map_eq_some_iff.1 hlocal
  have hother : other ∈ id :: (store.catalog.grammar id).bases := by simp [hids]
  rcases List.mem_cons.1 hother with rfl | hbase
  · exact hid
  · exact h.bases_alive id hid other hbase

theorem hold_leaf (h : Sane held store) {parser : Parser} (hwalk : parser.walk = [parser])
    (hcache : parser.cache? = none) (hmode : ∀ mode branches, parser ≠ .alternation mode branches) :
    Sane (insert parser held) store :=
  h.hold (fun node hnode => Or.inl (by simpa [hwalk] using hnode))
    (fun id hid => by rw [hcache] at hid; cases hid)
    fun mode branches heq => absurd heq (hmode mode branches)

theorem hold_concatenation (h : Sane held store) {parts : List Parser}
    (hparts : ∀ part ∈ parts, part ∈ held) :
    Sane (insert (.concatenation parts) held) store := by
  refine h.hold (fun node hnode => ?_) (fun id hid => by cases hid) fun mode branches heq => by
    cases heq
  rcases List.mem_cons.1 (by simpa only [Parser.walk] using hnode) with rfl | hnode
  · exact Or.inl rfl
  · obtain ⟨part, hpart, hnode⟩ := Parser.mem_walkAll.1 hnode
    exact Or.inr (Or.inl ⟨part, hparts part hpart, hnode⟩)

theorem hold_alternation (h : Sane held store) (firstMatch : Bool) {branches : List Parser}
    (hbranches : ∀ branch ∈ branches, branch ∈ held) :
    Quiet store (Edit.alternation firstMatch branches store).2 ∧
      Sane (insert (Edit.alternation firstMatch branches store).1 held)
        (Edit.alternation firstMatch branches store).2 := by
  have hquiet := quiet_newMode h firstMatch
  refine ⟨hquiet, (hquiet.sane h).hold (fun node hnode => ?_) (fun id hid => by cases hid)
    fun mode branches' heq => ?_⟩
  · rcases List.mem_cons.1 (by
      simpa only [Edit.alternation, Edit.bind_apply, Edit.pure_apply, Parser.walk] using hnode)
      with rfl | hnode
    · exact Or.inl rfl
    · obtain ⟨branch, hbranch, hnode⟩ := Parser.mem_walkAll.1 hnode
      exact Or.inr (Or.inl ⟨branch, hbranches branch hbranch, hnode⟩)
  · cases heq
    change store.catalog.modes.size < (store.catalog.modes.push firstMatch).size
    simp

/-- A repetition or an option with a new cache. -/
theorem hold_newCache (h : Sane held store) (capacity : Capacity) {element parser : Parser}
    (helement : element ∈ held) (hwalk : parser.walk = parser :: element.walk)
    (hcache : parser.cache? = some ⟨store.caches.size⟩)
    (hmode : ∀ mode branches, parser ≠ .alternation mode branches) :
    Sane (insert parser held) (Edit.newCache capacity store).2 := by
  have hquiet : Quiet store (Edit.newCache capacity store).2 := quiet_newCache capacity
  have hsize : (Edit.newCache capacity store).2.caches.size = store.caches.size + 1 := by
    change (store.caches.push (.empty capacity)).size = _
    simp
  refine (hquiet.sane h).hold (fun node hnode => ?_) (fun id hid => ?_)
    fun mode branches heq => absurd heq (hmode mode branches)
  · rw [hwalk] at hnode
    rcases List.mem_cons.1 hnode with rfl | hnode
    · exact Or.inl rfl
    · exact Or.inr (Or.inl ⟨element, helement, hnode⟩)
  · rw [hcache] at hid
    cases hid
    refine ⟨by rw [hsize]; exact Nat.lt_succ_self _, fun hlost => ?_, fun node hnode hid => ?_⟩
    · rw [hquiet.lost] at hlost
      exact absurd (h.lost_lt _ hlost) (Nat.lt_irrefl _)
    · rw [hquiet.used_eq] at hnode
      exact absurd (h.cache_lt node hnode _ hid) (Nat.lt_irrefl _)

theorem hold_repetition (h : Sane held store) (capacity : Capacity) (bounds : Bounds)
    {element : Parser} (helement : element ∈ held) :
    Quiet store (Edit.repetition capacity bounds element store).2 ∧
      Sane (insert (Edit.repetition capacity bounds element store).1 held)
        (Edit.repetition capacity bounds element store).2 :=
  ⟨quiet_newCache capacity,
    h.hold_newCache capacity helement (by rfl) rfl fun _ _ heq => by cases heq⟩

theorem hold_optional (h : Sane held store) (capacity : Capacity) {element : Parser}
    (helement : element ∈ held) :
    Quiet store (Edit.optional capacity element store).2 ∧
      Sane (insert (Edit.optional capacity element store).1 held)
        (Edit.optional capacity element store).2 :=
  ⟨quiet_newCache capacity,
    h.hold_newCache capacity helement (by rfl) rfl fun _ _ heq => by cases heq⟩

/-- The definition of a rule whose grammar is alive may be held. -/
theorem hold_definition (h : Sane held store) {rule : RuleId}
    (hrule : rule.grammar ∈ store.living) {definition : Parser}
    (hdefinition : store.catalog.definition? rule = some definition) :
    Sane (insert definition held) store := by
  obtain ⟨slot, hslot, hdefinition⟩ := Option.bind_eq_some_iff.1 hdefinition
  have hbound := Catalog.bound_eq_ok_iff.2 ⟨hslot, hdefinition⟩
  refine h.mono ?_
  rintro parser (rfl | hparser) node hnode
  · exact Or.inr ⟨rule, slot, _, hrule, hbound, hnode⟩
  · exact Or.inl ⟨parser, hparser, hnode⟩

end Sane

mutual
theorem assemble_ensures {held : Set Parser} (id : GrammarId) (options : Options)
    (expression : Expression) {store : Store} (h : Sane held store) :
    Quiet store (Edit.assemble id options expression store).2 ∧
      Sane (insert (Edit.assemble id options expression store).1 held)
        (Edit.assemble id options expression store).2 := by
  cases expression with
  | literal terminal | prose text =>
    rw [Edit.assemble]
    exact ⟨.refl store, h.hold_leaf rfl rfl fun _ _ heq => by cases heq⟩
  | name name =>
    simp only [Edit.assemble, Edit.bind_apply, Edit.get_apply, Edit.pure_apply]
    have hquiet : Quiet store (Edit.rule id name store).2 := quiet_rule id name
    exact ⟨hquiet, (hquiet.sane h).hold_leaf rfl rfl fun _ _ heq => by cases heq⟩
  | choice branches =>
    simp only [Edit.assemble, Edit.bind_apply]
    obtain ⟨hquiet, hall⟩ := assembleAll_ensures id options branches h
    obtain ⟨hquiet', hall'⟩ := hall.hold_alternation options.firstMatch fun branch hbranch =>
      Or.inr hbranch
    exact ⟨hquiet.trans hquiet', hall'.forget (Set.insert_subset_insert Set.subset_union_left)⟩
  | sequence items =>
    simp only [Edit.assemble, Edit.bind_apply, Edit.pure_apply]
    obtain ⟨hquiet, hall⟩ := assembleAll_ensures id options items h
    exact ⟨hquiet, (hall.hold_concatenation fun part hpart => Or.inr hpart).forget
      (Set.insert_subset_insert Set.subset_union_left)⟩
  | repeated bounds element =>
    simp only [Edit.assemble, Edit.bind_apply]
    obtain ⟨hquiet, hone⟩ := assemble_ensures id options element h
    obtain ⟨hquiet', hall'⟩ :=
      hone.hold_repetition options.cacheSize bounds (Set.mem_insert _ _)
    exact ⟨hquiet.trans hquiet', hall'.forget (Set.insert_subset_insert (Set.subset_insert _ _))⟩
  | optional element =>
    simp only [Edit.assemble, Edit.bind_apply]
    obtain ⟨hquiet, hone⟩ := assemble_ensures id options element h
    obtain ⟨hquiet', hall'⟩ := hone.hold_optional options.cacheSize (Set.mem_insert _ _)
    exact ⟨hquiet.trans hquiet', hall'.forget (Set.insert_subset_insert (Set.subset_insert _ _))⟩

theorem assembleAll_ensures {held : Set Parser} (id : GrammarId)
    (options : Options) (expressions : List Expression) {store : Store} (h : Sane held store) :
    Quiet store (Edit.assembleAll id options expressions store).2 ∧
      Sane (held ∪ {parser | parser ∈ (Edit.assembleAll id options expressions store).1})
        (Edit.assembleAll id options expressions store).2 := by
  cases expressions with
  | nil =>
    rw [Edit.assembleAll]
    exact ⟨.refl store, h.forget (by simp [Edit.pure_apply])⟩
  | cons expression rest =>
    simp only [Edit.assembleAll, Edit.bind_apply, Edit.pure_apply]
    obtain ⟨hquiet, hone⟩ := assemble_ensures id options expression h
    obtain ⟨hquiet', hall⟩ := assembleAll_ensures id options rest hone
    refine ⟨hquiet.trans hquiet', hall.forget ?_⟩
    rintro parser (hparser | hparser)
    · exact Or.inl (Or.inr hparser)
    · rcases List.mem_cons.1 hparser with rfl | hparser
      · exact Or.inl (Or.inl rfl)
      · exact Or.inr hparser
end

structure Loyal (home : GrammarId) (foreign : Set GrammarId) (origin : Catalog)
    (held : Set Parser) (store : Store) : Prop where
  sane : Sane held store
  living : home ∈ store.living
  agrees : Catalog.Agrees foreign origin store.catalog
  enclosed : store.catalog.Enclosed foreign
  sound : Sound store.catalog (store.catalog.within foreign).nodes store.caches

structure Turned (home : GrammarId) (foreign : Set GrammarId) (origin : Catalog)
    (held : Set Parser) (store : Store) : Prop extends Loyal home foreign origin held store where
  fresh : ∀ node ∈ (store.catalog.within {home}).nodes, ∀ id, node.cache? = some id →
    ∀ key attempt, ¬ store.caches.Holds id key attempt

structure Steady (home : GrammarId) (foreign : Set GrammarId) (origin : Catalog)
    (held : Set Parser) (store : Store) : Prop where
  sane : Sane held store
  living : home ∈ store.living
  agrees : Catalog.Agrees foreign origin store.catalog
  enclosed : store.catalog.Enclosed foreign
  contained : store.catalog.Enclosed (insert home foreign)
  sound : Sound store.catalog (store.catalog.within (insert home foreign)).nodes store.caches

section
variable {home : GrammarId} {foreign : Set GrammarId} {origin : Catalog} {held : Set Parser}
  {store store' : Store}

theorem Steady.loyal (h : Steady home foreign origin held store) :
    Loyal home foreign origin held store where
  sane := h.sane
  living := h.living
  agrees := h.agrees
  enclosed := h.enclosed
  sound := h.sound.mono fun _ ⟨rule, slot, definition, hrule, hbound, hnode⟩ =>
    ⟨rule, slot, definition, Set.mem_insert_of_mem _ hrule, hbound, hnode⟩

theorem Turned.steady (h : Turned home foreign origin held store)
    (hcontained : store.catalog.Enclosed (insert home foreign)) :
    Steady home foreign origin held store where
  sane := h.sane
  living := h.living
  agrees := h.agrees
  enclosed := h.enclosed
  contained := hcontained
  sound := by
    rintro node ⟨rule, slot, definition, hrule, hbound, hnode⟩ id hid key attempt hholds
    rcases hrule with hrule | hrule
    · exact absurd hholds
        (h.fresh node ⟨rule, slot, definition, hrule, hbound, hnode⟩ id hid key attempt)
    · exact h.sound node ⟨rule, slot, definition, hrule, hbound, hnode⟩ id hid key attempt hholds

theorem Quiet.sound (h : Quiet store store') {grammars : Set GrammarId}
    (henclosed : store.catalog.Enclosed grammars)
    (hsound : Sound store.catalog (store.catalog.within grammars).nodes store.caches) :
    Sound store'.catalog (store'.catalog.within grammars).nodes store'.caches :=
  (hsound.agrees henclosed (h.agrees.mono (Set.subset_univ _))).of_holds h.holds

theorem Quiet.loyal (h : Quiet store store') (hloyal : Loyal home foreign origin held store) :
    Loyal home foreign origin held store' where
  sane := h.sane hloyal.sane
  living := h.living_eq ▸ hloyal.living
  agrees := hloyal.agrees.trans (h.agrees.mono (Set.subset_univ _))
  enclosed := (h.agrees.mono (Set.subset_univ _)).enclosed hloyal.enclosed
  sound := h.sound hloyal.enclosed hloyal.sound

theorem Quiet.steady (h : Quiet store store') (hsteady : Steady home foreign origin held store) :
    Steady home foreign origin held store' where
  sane := h.sane hsteady.sane
  living := h.living_eq ▸ hsteady.living
  agrees := hsteady.agrees.trans (h.agrees.mono (Set.subset_univ _))
  enclosed := (h.agrees.mono (Set.subset_univ _)).enclosed hsteady.enclosed
  contained := (h.agrees.mono (Set.subset_univ _)).enclosed hsteady.contained
  sound := h.sound hsteady.contained hsteady.sound

theorem Loyal.hold (h : Loyal home foreign origin held store) {held' : Set Parser}
    (hsane : Sane held' store) : Loyal home foreign origin held' store :=
  ⟨hsane, h.living, h.agrees, h.enclosed, h.sound⟩

theorem Steady.hold (h : Steady home foreign origin held store) {held' : Set Parser}
    (hsane : Sane held' store) : Steady home foreign origin held' store :=
  ⟨hsane, h.living, h.agrees, h.enclosed, h.contained, h.sound⟩

/-- Emptying the caches of a grammar empties those in its definitions. -/
theorem Loyal.clearCaches (h : Loyal home foreign origin held store) :
    Turned home foreign origin held (Edit.clearCaches home store).2 where
  toLoyal := (quiet_clearCaches home).loyal h
  fresh node hnode id hid key attempt hholds := by
    have hlost : id ∉ store.lostCaches := by
      obtain ⟨rule, slot, definition, hrule, hbound, hwalk⟩ := hnode
      have hliving : rule.grammar ∈ store.living := by
        rw [show rule.grammar = home from hrule]
        exact h.living
      exact h.sane.alive node (Or.inr ⟨rule, slot, definition, hliving, hbound, hwalk⟩) id hid
    exact (Caches.holds_of_holds_clearAll hholds).1 (List.mem_filter.2
      ⟨h.sane.registered home node hnode id hid hlost, Store.cacheAlive_iff.2 hlost⟩)

theorem slot?_update (rule : RuleId) (change : Slot → Slot) (other : RuleId) {slot : Slot}
    (h : (Edit.modifyTable rule.grammar (·.update rule.slot change) store).2.catalog.slot? other =
      some slot) :
    store.catalog.slot? other = some slot ∨
      other = rule ∧ rule.grammar.index < store.catalog.grammars.size ∧
        ∃ old, store.catalog.slot? rule = some old ∧ slot = change old := by
  rw [Edit.modifyTable, Edit.slot?_modifyGrammar] at h
  split at h
  case isTrue hrule =>
    change ((store.catalog.grammar rule.grammar).table.slots.modify rule.slot change)[other.slot]? =
      some slot at h
    rw [Array.getElem?_modify] at h
    split at h
    case isTrue hslot =>
      obtain ⟨old, hold, rfl⟩ := Option.map_eq_some_iff.1 h
      obtain rfl : other = rule := by
        cases other
        cases rule
        simp_all
      exact Or.inr ⟨rfl, hrule.2, old, hold, rfl⟩
    case isFalse => exact Or.inl (by rw [Catalog.slot?, hrule.1, h])
  case isFalse => exact Or.inl h

theorem agrees_update (hhome : home ∉ foreign) {rule : RuleId} (hrule : rule.grammar = home)
    (change : Slot → Slot) : Catalog.Agrees foreign store.catalog
      (Edit.modifyTable rule.grammar (·.update rule.slot change) store).2.catalog := by
  have hslot : ∀ other : RuleId, other.grammar ∈ foreign →
      (Edit.modifyTable rule.grammar (·.update rule.slot change) store).2.catalog.slot? other =
        store.catalog.slot? other := by
    intro other hother
    rw [Edit.modifyTable, Edit.slot?_modifyGrammar, if_neg]
    rintro ⟨heq, -⟩
    exact hhome (hrule ▸ heq ▸ hother)
  exact
    { lost := fun _ h => h
      alive := fun _ _ h => h
      found := fun other hother name rule' h => by
        rw [Edit.modifyTable, Edit.local?_modifyGrammar, if_neg]
        · exact h
        · exact fun heq => hhome (hrule ▸ heq.1 ▸ hother)
      bound := fun other hother slot definition => by
        rw [Catalog.bound_eq_ok_iff, Catalog.bound_eq_ok_iff, hslot other hother]
      name := fun other hother slot h => ⟨slot, (hslot other hother).trans h, rfl⟩
      mode := fun _ _ _ => rfl }

theorem localRule_grammar (id : GrammarId) (name : String) :
    (Edit.localRule id name store).1.grammar = id := by
  cases h : store.catalog.local? id name with
  | some rule =>
    simp only [Edit.localRule, Edit.bind_apply, Edit.get_apply, Edit.pure_apply, h]
    obtain ⟨place, -, rfl⟩ := Option.map_eq_some_iff.1 h
    rfl
  | none => simp only [Edit.localRule, Edit.bind_apply, Edit.get_apply, Edit.pure_apply, h]

/-- Changing a rule leaves other grammars alone, as long as what it gets for a definition is
held and has its caches registered. -/
theorem Loyal.update (h : Loyal home foreign origin held store) (hhome : home ∉ foreign) {rule : RuleId}
    (hrule : rule.grammar = home) {change : Slot → Slot}
    (hchange : home.index < store.catalog.grammars.size → ∀ slot definition,
      (change slot).definition = some definition → slot.definition = some definition ∨
        definition ∈ held ∧ ∀ id ∈ definition.caches, id ∉ store.lostCaches →
          id ∈ (store.catalog.grammar home).registry.members) :
    Loyal home foreign origin held
      (Edit.modifyTable rule.grammar (·.update rule.slot change) store).2 := by
  have hagrees : Catalog.Agrees foreign store.catalog
      (Edit.modifyTable rule.grammar (·.update rule.slot change) store).2.catalog :=
    agrees_update hhome hrule change
  have hbound : ∀ other slot definition,
      (Edit.modifyTable rule.grammar (·.update rule.slot change) store).2.catalog.bound other =
        .ok (slot, definition) →
      (∃ slot, store.catalog.bound other = .ok (slot, definition)) ∨
        other = rule ∧ definition ∈ held ∧ ∀ id ∈ definition.caches, id ∉ store.lostCaches →
          id ∈ (store.catalog.grammar home).registry.members := by
    intro other slot definition hbound
    obtain ⟨hslot, hdefinition⟩ := Catalog.exists_slot_of_bound hbound
    rcases slot?_update rule change other hslot with hold | ⟨rfl, hsize, old, hold, rfl⟩
    · exact Or.inl ⟨slot, Catalog.bound_eq_ok_iff.2 ⟨hold, hdefinition⟩⟩
    · rcases hchange (hrule ▸ hsize) old definition hdefinition with h | h
      · exact Or.inl ⟨old, Catalog.bound_eq_ok_iff.2 ⟨hold, h⟩⟩
      · exact Or.inr ⟨rfl, h⟩
  have hused : ∀ grammars, ∀ node ∈ (Edit.modifyTable rule.grammar (·.update rule.slot change)
      store).2.used grammars held, node ∈ store.used grammars held := by
    rintro grammars node (hnode | ⟨other, slot, definition, hother, hdefinition, hnode⟩)
    · exact Or.inl hnode
    · rcases hbound other slot definition hdefinition with ⟨slot, hold⟩ | ⟨-, hheld, -⟩
      · exact Or.inr ⟨other, slot, definition, hother, hold, hnode⟩
      · exact Or.inl ⟨definition, hheld, hnode⟩
  have hbases := Edit.bases_modifyTable rule.grammar (·.update rule.slot change) store
  exact
    { living := h.living
      agrees := h.agrees.trans hagrees
      enclosed := hagrees.enclosed h.enclosed
      sound := h.sound.agrees h.enclosed hagrees
      sane :=
        { cache_lt := fun node hnode => h.sane.cache_lt node (hused _ node hnode)
          mode_lt := fun mode branches hmode => h.sane.mode_lt mode branches (hused _ _ hmode)
          apart := fun a ha b hb => h.sane.apart a (hused _ a ha) b (hused _ b hb)
          lost_lt := h.sane.lost_lt
          alive := fun node hnode => h.sane.alive node (hused _ node hnode)
          registered := by
            rintro grammar node ⟨other, slot, definition, rfl, hdefinition, hnode⟩ id hid hlost
            rw [Edit.registry_modifyTable]
            rcases hbound other slot definition hdefinition with ⟨slot, hold⟩ | ⟨rfl, -, hall⟩
            · exact h.sane.registered _ node ⟨other, slot, definition, rfl, hold, hnode⟩ id hid hlost
            · rw [hrule]
              exact hall id (List.mem_filterMap.2 ⟨node, hnode, hid⟩) hlost
          lineage := fun id base hbase => by
            rw [Grammar.base?, hbases] at hbase
            rw [hbases, hbases]
            exact h.sane.lineage id base hbase
          bases_alive := fun id hid base hbase =>
            h.sane.bases_alive id hid base (hbases id ▸ hbase) } }

theorem Loyal.modifyMode (h : Loyal home foreign origin held store) {mode : ModeId} (firstMatch : Bool)
    (hmode : ∀ branches, .alternation mode branches ∉ (store.catalog.within foreign).nodes) :
    Loyal home foreign origin held (Edit.modifyCatalog (fun catalog =>
      { catalog with modes := catalog.modes.modify mode.index fun _ => firstMatch }) store).2 := by
  have hagrees : Catalog.Agrees foreign store.catalog (Edit.modifyCatalog (fun catalog =>
      { catalog with modes := catalog.modes.modify mode.index fun _ => firstMatch })
        store).2.catalog :=
    { lost := fun _ h => h
      alive := fun _ _ h => h
      found := fun _ _ _ _ h => h
      bound := fun _ _ _ _ => Iff.rfl
      name := fun _ _ slot hslot => ⟨slot, hslot, rfl⟩
      mode := fun other branches hother => by
        have hne : mode.index ≠ other.index := fun heq => hmode branches <| by
          obtain ⟨i⟩ := mode
          obtain ⟨j⟩ := other
          cases heq
          exact hother
        change ((store.catalog.modes.modify mode.index fun _ => firstMatch)[other.index]?).getD
          false = _
        rw [Array.getElem?_modify, if_neg hne]
        rfl }
  exact
    { living := h.living
      agrees := h.agrees.trans hagrees
      enclosed := hagrees.enclosed h.enclosed
      sound := h.sound.agrees h.enclosed hagrees
      sane :=
        { cache_lt := h.sane.cache_lt
          mode_lt := fun other branches hother => by
            change other.index < (store.catalog.modes.modify mode.index fun _ => firstMatch).size
            rw [Array.size_modify]
            exact h.sane.mode_lt other branches hother
          apart := h.sane.apart
          lost_lt := h.sane.lost_lt
          alive := h.sane.alive
          registered := h.sane.registered
          lineage := h.sane.lineage
          bases_alive := h.sane.bases_alive } }

theorem Loyal.hold_definition (h : Loyal home foreign origin held store) {rule : RuleId}
    (hrule : rule.grammar ∈ store.living) {definition : Parser}
    (hdefinition : store.catalog.definition? rule = some definition) :
    Loyal home foreign origin (insert definition held) store :=
  h.hold (h.sane.hold_definition hrule hdefinition)

theorem Loyal.forget {held' : Set Parser} (h : Loyal home foreign origin held store)
    (hsub : held' ⊆ held) : Loyal home foreign origin held' store :=
  h.hold (h.sane.forget hsub)

theorem Turned.forget {held' : Set Parser} (h : Turned home foreign origin held store)
    (hsub : held' ⊆ held) : Turned home foreign origin held' store where
  toLoyal := h.toLoyal.forget hsub
  fresh := h.fresh

/-- Setting the mode of a rule leaves other grammars alone, as long as they do not use the
alternation. -/
theorem Loyal.setFirstMatch (h : Loyal home foreign origin held store) {rule : RuleId}
    (hrule : rule.grammar = home) (firstMatch : Bool)
    (hmode : ∀ mode branches, store.catalog.definition? rule = some (.alternation mode branches) →
      ∀ branches', .alternation mode branches' ∉ (store.catalog.within foreign).nodes) :
    (Edit.setFirstMatch rule firstMatch store).2 = store ∨
      Turned home foreign origin held (Edit.setFirstMatch rule firstMatch store).2 := by
  cases hdefinition : store.catalog.definition? rule with
  | none =>
    simp only [Edit.setFirstMatch, Edit.bind_apply, Edit.get_apply, hdefinition]
    exact Or.inl rfl
  | some definition =>
    cases definition with
    | alternation mode branches =>
      simp only [Edit.setFirstMatch, Edit.bind_apply, Edit.get_apply, hdefinition,
        Edit.pure_apply]
      rw [hrule]
      exact Or.inr (h.modifyMode firstMatch (hmode mode branches hdefinition)).clearCaches
    | _ =>
      simp only [Edit.setFirstMatch, Edit.bind_apply, Edit.get_apply, hdefinition]
      exact Or.inl rfl

variable (hhome : home ∉ foreign)
include hhome

theorem Loyal.updateRule (h : Loyal home foreign origin held store) {rule : RuleId}
    (hrule : rule.grammar = home) {change : Slot → Slot}
    (hchange : home.index < store.catalog.grammars.size → ∀ slot definition,
      (change slot).definition = some definition → slot.definition = some definition ∨
        definition ∈ held ∧ ∀ id ∈ definition.caches, id ∉ store.lostCaches →
          id ∈ (store.catalog.grammar home).registry.members) :
    Turned home foreign origin held (Edit.updateRule rule change store).2 := by
  simp only [Edit.updateRule, Edit.bind_apply]
  have hupdated := h.update hhome hrule hchange
  rw [hrule] at hupdated ⊢
  exact hupdated.clearCaches

theorem Loyal.setDefinition (h : Loyal home foreign origin held store) {rule : RuleId}
    (hrule : rule.grammar = home) {definition : Parser} (hheld : definition ∈ held) :
    Turned home foreign origin held (Edit.setDefinition rule definition store).2 := by
  simp only [Edit.setDefinition, Edit.bind_apply]
  have hadopt : Quiet store (Edit.adopt rule.grammar definition store).2 := quiet_adopt _ _
  refine (hadopt.loyal h).updateRule hhome hrule fun hsize slot definition' hdefinition => ?_
  cases hdefinition
  refine Or.inr ⟨hheld, fun id hid hlost => ?_⟩
  rw [← hrule] at hsize ⊢
  exact mem_registry_adopt (hadopt.grammars ▸ hsize) hid (hadopt.lost ▸ hlost)

theorem Loyal.addAlternative (h : Loyal home foreign origin held store) {rule : RuleId}
    (hrule : rule.grammar = home) {alternative : Parser} (hheld : alternative ∈ held) :
    Turned home foreign origin held (Edit.addAlternative rule alternative store).2 := by
  cases hdefinition : store.catalog.definition? rule with
  | none =>
    simp only [Edit.addAlternative, Edit.bind_apply, Edit.get_apply, hdefinition]
    exact h.setDefinition hhome hrule hheld
  | some existing =>
    simp only [Edit.addAlternative, Edit.bind_apply, Edit.get_apply, hdefinition]
    have hexisting := h.hold_definition (hrule ▸ h.living) hdefinition
    obtain ⟨hquiet, hsane⟩ := hexisting.sane.hold_alternation
      (store.catalog.grammar rule.grammar).options.firstMatch
      (show ∀ branch ∈ [existing, alternative], branch ∈ insert existing held by simp [hheld])
    have hturned := ((hquiet.loyal hexisting).hold hsane).setDefinition hhome hrule
      (Set.mem_insert _ _)
    exact hturned.forget ((Set.subset_insert _ _).trans (Set.subset_insert _ _))

theorem Loyal.exclude (h : Loyal home foreign origin held store) {rule : RuleId}
    (hrule : rule.grammar = home) (excluded : RuleId) :
    Turned home foreign origin held (Edit.exclude rule excluded store).2 := by
  simp only [Edit.exclude, Edit.bind_apply, Edit.get_apply]
  exact ((quiet_adopt _ _).loyal h).updateRule hhome hrule fun _ slot definition hdefinition =>
    Or.inl hdefinition

theorem Loyal.clearExclusion (h : Loyal home foreign origin held store) {rule : RuleId}
    (hrule : rule.grammar = home) :
    Turned home foreign origin held (Edit.clearExclusion rule store).2 :=
  h.updateRule hhome hrule fun _ _ _ hdefinition => Or.inl hdefinition

theorem Loyal.define (h : Loyal home foreign origin held store) (name : String) {definition : Parser}
    (hheld : definition ∈ held) :
    Turned home foreign origin held (Edit.define home name definition store).2 := by
  simp only [Edit.define, Edit.bind_apply, Edit.pure_apply]
  exact ((quiet_localRule home name).loyal h).setDefinition hhome (localRule_grammar home name) hheld

theorem Loyal.extend (h : Loyal home foreign origin held store) (name : String) {alternative : Parser}
    (hheld : alternative ∈ held) :
    Turned home foreign origin held (Edit.extend home name alternative store).2 := by
  rw [Edit.extend, Edit.bind_apply]
  have hrule : (Edit.localRule home name store).1.grammar = home := localRule_grammar home name
  have hlocal := (quiet_localRule home name).loyal h
  generalize (Edit.localRule home name store).1 = rule at hrule ⊢
  generalize (Edit.localRule home name store).2 = store' at hlocal ⊢
  change Turned home foreign origin held ((if (store'.catalog.definition? rule).isNone = true then (do
      ((store'.catalog.grammar home).base?.bind fun base => (store'.catalog.lookup? base name).bind
        store'.catalog.definition?).forM (Edit.setDefinition rule)
      Edit.addAlternative rule alternative
      pure rule) else (do
      Edit.addAlternative rule alternative
      pure rule) : Edit RuleId) store').2
  by_cases hunbound : (store'.catalog.definition? rule).isNone = true
  · rw [if_pos hunbound]
    simp only [Edit.bind_apply, Edit.pure_apply]
    refine Loyal.addAlternative hhome ?_ hrule hheld
    cases hinherited : (store'.catalog.grammar home).base?.bind fun base =>
      (store'.catalog.lookup? base name).bind store'.catalog.definition? with
    | none => exact hlocal
    | some inherited =>
      obtain ⟨base, hbase, hlookup⟩ := Option.bind_eq_some_iff.1 hinherited
      obtain ⟨source, hsource, hdefinition⟩ := Option.bind_eq_some_iff.1 hlookup
      have hliving := hlocal.sane.bases_alive home hlocal.living base (List.mem_of_head? hbase)
      have hturned := (hlocal.hold_definition (hlocal.sane.lookup?_living hliving hsource)
        hdefinition).setDefinition hhome hrule (Set.mem_insert _ _)
      exact hturned.toLoyal.forget (Set.subset_insert _ _)
  · rw [if_neg hunbound]
    simp only [Edit.bind_apply, Edit.pure_apply]
    exact hlocal.addAlternative hhome hrule hheld

theorem Loyal.importRule (h : Loyal home foreign origin held store) (name : String) {source : RuleId}
    (hsource : source.grammar ∈ store.living) :
    (Edit.importRule home name source store).2 = store ∨
      Turned home foreign origin held (Edit.importRule home name source store).2 := by
  cases hdefinition : store.catalog.definition? source with
  | none =>
    simp only [Edit.importRule, Edit.bind_apply, Edit.get_apply, hdefinition]
    exact Or.inl rfl
  | some definition =>
    simp only [Edit.importRule, Edit.bind_apply, Edit.get_apply, hdefinition, Edit.pure_apply]
    have hretain : Quiet store (Edit.retain home source.grammar store).2 := quiet_retain _ _
    have hturned := (hretain.loyal (h.hold_definition hsource hdefinition)).define hhome name
      (Set.mem_insert _ _)
    exact Or.inr (hturned.forget (Set.subset_insert _ _))

end

end Metasyntax
