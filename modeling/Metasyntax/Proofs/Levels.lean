import Metasyntax.Proofs.Binding
import Metasyntax.Proofs.Pairing

/-!
# Stores that differ in one definition

Two stores have the same rules, but for the definition of one of them, and as many caches. What
is assembled from one expression in both refers to the same rules and has the same caches. Only
the modes of its alternations have other identities, and they stand for the same.
-/

set_option autoImplicit false

namespace Metasyntax

namespace Catalog

def SharedMode (c c' : Catalog) (mode mode' : ModeId) : Prop :=
  ∃ firstMatch, c.modes[mode.index]? = some firstMatch ∧ c'.modes[mode'.index]? = some firstMatch

def KeepsModes (c c' : Catalog) : Prop :=
  ∀ mode : ModeId, ∀ firstMatch, c.modes[mode.index]? = some firstMatch →
    c'.modes[mode.index]? = some firstMatch

variable {c c' d d' : Catalog}

theorem SharedMode.keep (hleft : c.KeepsModes d) (hright : c'.KeepsModes d') (mode mode' : ModeId)
    (h : c.SharedMode c' mode mode') : d.SharedMode d' mode mode' :=
  h.imp fun firstMatch hmodes =>
    ⟨hleft mode firstMatch hmodes.1, hright mode' firstMatch hmodes.2⟩

theorem SharedMode.sameMode {mode mode₁ mode₂ : ModeId} (h₁ : c.SharedMode d mode mode₁)
    (h₂ : c.SharedMode d' mode mode₂) : d.SameMode d' mode₁ mode₂ := by
  obtain ⟨firstMatch, hmode, hmode₁⟩ := h₁
  obtain ⟨firstMatch', hmode', hmode₂⟩ := h₂
  obtain rfl := Option.some.inj (hmode.symm.trans hmode')
  exact (Expression.firstMatch_of_getElem? hmode₁).trans
    (Expression.firstMatch_of_getElem? hmode₂).symm

end Catalog

namespace Parser

variable {modes₁ modes₂ modes : ModeId → ModeId → Prop}

mutual
/-- What echoes one parser echoes one another. -/
theorem Echoes.echoes
    (hmodes : ∀ mode mode₁ mode₂, modes₁ mode mode₁ → modes₂ mode mode₂ → modes mode₁ mode₂) :
    (parser : Parser) → {parser₁ parser₂ : Parser} →
    parser.Echoes modes₁ parser₁ → parser.Echoes modes₂ parser₂ → parser₁.Echoes modes parser₂
  | .literal _, _, _, h₁, h₂ | .rule _, _, _, h₁, h₂ | .prose _, _, _, h₁, h₂ => by
    rw [Echoes] at h₁ h₂
    subst h₁ h₂
    rfl
  | .alternation _ branches, _, _, ⟨_, _, h₁, hmode₁, hall₁⟩, ⟨_, _, h₂, hmode₂, hall₂⟩ => by
    subst h₁ h₂
    exact ⟨_, _, rfl, hmodes _ _ _ hmode₁ hmode₂, EchoesAll.echoesAll hmodes branches hall₁ hall₂⟩
  | .concatenation parts, _, _, ⟨_, h₁, hall₁⟩, ⟨_, h₂, hall₂⟩ => by
    subst h₁ h₂
    exact ⟨_, rfl, EchoesAll.echoesAll hmodes parts hall₁ hall₂⟩
  | .optional _ element, _, _, ⟨_, h₁, helement₁⟩, ⟨_, h₂, helement₂⟩ => by
    subst h₁ h₂
    exact ⟨_, rfl, Echoes.echoes hmodes element helement₁ helement₂⟩
  | .repetition _ _ element, _, _, ⟨_, h₁, helement₁⟩, ⟨_, h₂, helement₂⟩ => by
    subst h₁ h₂
    exact ⟨_, rfl, Echoes.echoes hmodes element helement₁ helement₂⟩

theorem EchoesAll.echoesAll
    (hmodes : ∀ mode mode₁ mode₂, modes₁ mode mode₁ → modes₂ mode mode₂ → modes mode₁ mode₂) :
    (parsers : List Parser) → {parsers₁ parsers₂ : List Parser} →
    EchoesAll modes₁ parsers parsers₁ → EchoesAll modes₂ parsers parsers₂ →
      EchoesAll modes parsers₁ parsers₂
  | [], _, _, h₁, h₂ => by
    rw [EchoesAll] at h₁ h₂
    subst h₁ h₂
    rfl
  | parser :: rest, _, _, ⟨_, _, h₁, hparser₁, hrest₁⟩, ⟨_, _, h₂, hparser₂, hrest₂⟩ => by
    subst h₁ h₂
    exact ⟨_, _, rfl, Echoes.echoes hmodes parser hparser₁ hparser₂,
      EchoesAll.echoesAll hmodes rest hrest₁ hrest₂⟩
end

end Parser

namespace Edit

variable {store : Store} {other id : GrammarId}

theorem options_modifyTable (id : GrammarId) (change : RuleTable → RuleTable) (store : Store)
    (other : GrammarId) : ((modifyTable id change store).2.catalog.grammar other).options =
      (store.catalog.grammar other).options := by
  rw [modifyTable, grammar_modifyGrammar]
  split
  case isTrue h => rw [h.1]
  case isFalse => rfl

theorem modifyGrammar_twice (id : GrammarId) (first second : Grammar → Grammar) (store : Store) :
    (modifyGrammar id second (modifyGrammar id first store).2).2 =
      (modifyGrammar id (second ∘ first) store).2 := by
  have hgrammars : (store.catalog.grammars.modify id.index first).modify id.index second =
      store.catalog.grammars.modify id.index (second ∘ first) := by
    refine Array.ext (by simp) fun place _ _ => ?_
    simp only [Array.getElem_modify]
    split <;> rfl
  exact congrArg (fun grammars => { store with catalog := { store.catalog with grammars } }) hgrammars

structure Adopts (alive : CacheId → Bool) (caches : List CacheId) (change : Grammar → Grammar) :
    Prop where
  table : ∀ grammar, (change grammar).table = grammar.table
  bases : ∀ grammar, (change grammar).bases = grammar.bases
  options : ∀ grammar, (change grammar).options = grammar.options
  registry : ∀ grammar cache, cache ∈ (change grammar).registry.members →
    cache ∈ grammar.registry.members ∨ cache ∈ caches
  registered : ∀ grammar cache, alive cache = true →
    cache ∈ grammar.registry.members ∨ cache ∈ caches → cache ∈ (change grammar).registry.members

theorem exists_adopts (id : GrammarId) (parser : Parser) (store : Store) : ∃ change,
    (adopt id parser store).2 = (modifyGrammar id change store).2 ∧
      Adopts store.cacheAlive parser.caches change := by
  have hretained (targets : List RuleId) (first : Grammar → Grammar)
      (hfirst : Adopts store.cacheAlive parser.caches first) : ∃ change,
        ((targets.forM fun target => retain id target.grammar : Edit Unit)
          (modifyGrammar id first store).2).2 = (modifyGrammar id change store).2 ∧
            Adopts store.cacheAlive parser.caches change := by
    induction targets generalizing first with
    | nil => exact ⟨first, rfl, hfirst⟩
    | cons target rest ih =>
      let keep (grammar : Grammar) : Grammar :=
        if id = target.grammar ∨ target.grammar ∈ grammar.bases ∨ target.grammar ∈ grammar.retained
        then grammar
        else { grammar with retained := grammar.retained ++ [target.grammar] }
      have hkeep : Adopts store.cacheAlive parser.caches (keep ∘ first) := by
        constructor
        all_goals
          intro grammar
          simp only [Function.comp_apply, keep]
        · split <;> exact hfirst.table grammar
        · split <;> exact hfirst.bases grammar
        · split <;> exact hfirst.options grammar
        · split <;> exact hfirst.registry grammar
        · split <;> exact hfirst.registered grammar
      obtain ⟨change, hchange, hadopts⟩ := ih (keep ∘ first) hkeep
      refine ⟨change, ?_, hadopts⟩
      rw [← hchange, ← modifyGrammar_twice]
      rfl
  exact hretained _ _ ⟨fun _ => rfl, fun _ => rfl, fun _ => rfl,
    fun _ _ => Registry.mem_of_mem_registerAll, fun _ _ => Registry.mem_registerAll⟩

/-- Binding a rule changes its grammar, and empties the caches of the grammar. -/
theorem exists_setDefinition (rule : RuleId) (definition : Parser) (store : Store) : ∃ adopted,
    Adopts store.cacheAlive definition.caches adopted ∧ (setDefinition rule definition store).2 =
      (clearCaches rule.grammar (modifyGrammar rule.grammar (fun grammar =>
        { adopted grammar with
          table := grammar.table.update rule.slot fun slot =>
            { slot with definition := some definition } }) store).2).2 := by
  obtain ⟨adopted, hadopt, hadopts⟩ := exists_adopts rule.grammar definition store
  refine ⟨adopted, hadopts, ?_⟩
  have hset : (setDefinition rule definition store).2 = (clearCaches rule.grammar
      (modifyTable rule.grammar (·.update rule.slot fun slot =>
        { slot with definition := some definition })
          (adopt rule.grammar definition store).2).2).2 := rfl
  rw [hset, hadopt, modifyTable, modifyGrammar_twice]
  refine congrArg (fun change => (clearCaches rule.grammar
    (modifyGrammar rule.grammar change store).2).2) (funext fun grammar => ?_)
  rw [Function.comp_apply, hadopts.table]

end Edit

theorem Store.rules_modifyTable_of_ne {store : Store} {id other : GrammarId} (h : other ≠ id)
    (change : RuleTable → RuleTable) :
    (Edit.modifyTable id change store).2.rules other = store.rules other := by
  rw [Store.rules, Edit.modifyTable, Edit.grammar_modifyGrammar, if_neg fun heq => h heq.1]
  rfl

def Slot.hollow (slot : Slot) : Slot := { slot with definition := none }

structure Store.Level (rule : RuleId) (store store' : Store) : Prop where
  lost : store'.catalog.lost = store.catalog.lost
  grammars : store'.catalog.grammars.size = store.catalog.grammars.size
  bases : ∀ id, (store'.catalog.grammar id).bases = (store.catalog.grammar id).bases
  options : ∀ id, (store'.catalog.grammar id).options = (store.catalog.grammar id).options
  rules : ∀ id, store'.rules id = store.rules id
  own : ∀ id name, store'.catalog.local? id name = store.catalog.local? id name
  slot : ∀ other, other ≠ rule → store'.catalog.slot? other = store.catalog.slot? other
  hollow : (store'.catalog.slot? rule).map Slot.hollow = (store.catalog.slot? rule).map Slot.hollow
  caches : store'.caches.size = store.caches.size

namespace Store.Level

variable {rule : RuleId} {store store' store'' : Store}

theorem of_catalog (hcatalog : store'.catalog = store.catalog)
    (hcaches : store'.caches.size = store.caches.size) : store.Level rule store' where
  lost := by rw [hcatalog]
  grammars := by rw [hcatalog]
  bases _ := by rw [hcatalog]
  options _ := by rw [hcatalog]
  rules _ := by rw [Store.rules, Store.rules, hcatalog]
  own _ _ := by rw [hcatalog]
  slot _ _ := by rw [hcatalog]
  hollow := by rw [hcatalog]
  caches := hcaches

theorem trans (h : store.Level rule store') (h' : store'.Level rule store'') :
    store.Level rule store'' where
  lost := h'.lost.trans h.lost
  grammars := h'.grammars.trans h.grammars
  bases id := (h'.bases id).trans (h.bases id)
  options id := (h'.options id).trans (h.options id)
  rules id := (h'.rules id).trans (h.rules id)
  own id name := (h'.own id name).trans (h.own id name)
  slot other hother := (h'.slot other hother).trans (h.slot other hother)
  hollow := h'.hollow.trans h.hollow
  caches := h'.caches.trans h.caches

variable (h : store.Level rule store')
include h

theorem lookup? (id : GrammarId) (name : String) :
    store'.catalog.lookup? id name = store.catalog.lookup? id name :=
  Catalog.lookup?_congr (h.bases id) fun other => h.own other name

theorem hollow_eq (other : RuleId) : (store'.catalog.slot? other).map Slot.hollow =
    (store.catalog.slot? other).map Slot.hollow := by
  by_cases hother : other = rule
  · rw [hother, h.hollow]
  · rw [h.slot other hother]

theorem isSome_slot (other : RuleId) :
    (store'.catalog.slot? other).isSome = (store.catalog.slot? other).isSome := by
  have hsome := congrArg Option.isSome (h.hollow_eq other)
  rwa [Option.isSome_map, Option.isSome_map] at hsome

theorem refer (other : RuleId) : store'.catalog.refer other = store.catalog.refer other := by
  have hname := congrArg (fun slot : Option Slot => (slot.map (·.name)).getD "") (h.hollow_eq other)
  simp only [Option.map_map] at hname
  exact congrArg (RuleRef.mk other) hname

omit h in
theorem addMode (rule : RuleId) (firstMatch : Bool) (store : Store) :
    store.Level rule (Edit.newMode firstMatch store).2 :=
  ⟨rfl, rfl, fun _ => rfl, fun _ => rfl, fun _ => rfl, fun _ _ => rfl, fun _ _ => rfl, rfl, rfl⟩

theorem newMode (firstMatch : Bool) :
    (Edit.newMode firstMatch store).2.Level rule (Edit.newMode firstMatch store').2 :=
  ⟨h.lost, h.grammars, h.bases, h.options, h.rules, h.own, h.slot, h.hollow, h.caches⟩

theorem newCache (capacity : Capacity) :
    (Edit.newCache capacity store).2.Level rule (Edit.newCache capacity store').2 where
  __ := h
  caches := by
    change (store'.caches.push (.empty capacity)).size = (store.caches.push (.empty capacity)).size
    rw [Array.size_push, Array.size_push, h.caches]

theorem push {id : GrammarId} (hindex : id.index < store.catalog.grammars.size) (name : String) :
    (Edit.modifyTable id (·.push name) store).2.Level rule
      (Edit.modifyTable id (·.push name) store').2 := by
  have hindex' : id.index < store'.catalog.grammars.size := h.grammars ▸ hindex
  have hslot (other : RuleId) : (Edit.modifyTable id (·.push name) store).2.catalog.slot? other =
      if other = ⟨id, store.rules id⟩ then some ⟨name, none, none⟩ else store.catalog.slot? other :=
    slot?_push hindex other
  have hslot' (other : RuleId) : (Edit.modifyTable id (·.push name) store').2.catalog.slot? other =
      if other = ⟨id, store.rules id⟩ then some ⟨name, none, none⟩
      else store'.catalog.slot? other := h.rules id ▸ slot?_push hindex' other
  refine
    { lost := h.lost
      grammars := ?_
      bases := fun other => ?_
      options := fun other => ?_
      rules := fun other => ?_
      own := fun other name' => ?_
      slot := fun other hother => ?_
      hollow := ?_
      caches := h.caches }
  · exact Array.size_modify.trans (h.grammars.trans Array.size_modify.symm)
  · rw [Edit.bases_modifyTable, Edit.bases_modifyTable, h.bases]
  · rw [Edit.options_modifyTable, Edit.options_modifyTable, h.options]
  · by_cases hother : other = id
    · rw [hother, rules_push hindex, rules_push hindex', h.rules]
    · rw [rules_modifyTable_of_ne hother, rules_modifyTable_of_ne hother, h.rules]
  · rw [local?_push hindex, local?_push hindex', h.own, h.rules]
  · rw [hslot, hslot', h.slot other hother]
  · rw [hslot, hslot', apply_ite (Option.map Slot.hollow), apply_ite (Option.map Slot.hollow),
      h.hollow]

omit h in
/-- A rule may be bound anew. -/
theorem setDefinition (rule : RuleId) (definition : Parser) (store : Store) :
    store.Level rule (Edit.setDefinition rule definition store).2 := by
  obtain ⟨adopted, hadopts, hset⟩ := Edit.exists_setDefinition rule definition store
  rw [hset]
  have hgrammar (other : GrammarId) := Edit.grammar_modifyGrammar rule.grammar (fun grammar =>
    { adopted grammar with
      table := grammar.table.update rule.slot fun slot =>
        { slot with definition := some definition } }) store other
  -- Of all that is compared only the definition in the place of the rule changes.
  refine
    { lost := rfl
      grammars := Array.size_modify
      bases := fun other => ?_
      options := fun other => ?_
      rules := fun other => ?_
      own := fun other name => ?_
      slot := fun other hother => ?_
      hollow := ?_
      caches := size_clearCaches rule.grammar }
  · refine (congrArg Grammar.bases (hgrammar other)).trans ?_
    split
    case isTrue heq => exact heq.1 ▸ hadopts.bases _
    case isFalse => rfl
  · refine (congrArg Grammar.options (hgrammar other)).trans ?_
    split
    case isTrue heq => exact heq.1 ▸ hadopts.options _
    case isFalse => rfl
  · refine (congrArg (·.table.slots.size) (hgrammar other)).trans ?_
    split
    case isTrue heq => exact heq.1 ▸ Array.size_modify
    case isFalse => rfl
  · refine (congrArg (fun grammar : Grammar => (grammar.table.find? name).map (RuleId.mk other))
      (hgrammar other)).trans ?_
    split
    case isTrue heq => exact heq.1 ▸ rfl
    case isFalse => rfl
  · refine (congrArg (·.table.slots[other.slot]?) (hgrammar other.grammar)).trans ?_
    split
    case isTrue heq =>
      have hslot : rule.slot ≠ other.slot := fun hslot => hother (by
        obtain ⟨grammar, slot⟩ := rule
        obtain ⟨grammar', slot'⟩ := other
        exact congrArg₂ RuleId.mk heq.1 hslot.symm)
      rw [Catalog.slot?, heq.1]
      exact (Array.getElem?_modify ..).trans (if_neg hslot)
    case isFalse => rfl
  · refine (congrArg (·.table.slots[rule.slot]?.map Slot.hollow) (hgrammar rule.grammar)).trans ?_
    split
    case isTrue =>
      change ((store.catalog.grammar rule.grammar).table.slots.modify rule.slot _)[rule.slot]?.map
        Slot.hollow = _
      rw [Array.getElem?_modify, if_pos rfl, Option.map_map]
      rfl
    case isFalse => rfl

theorem localRule {id : GrammarId} (hindex : id.index < store.catalog.grammars.size)
    (name : String) : (Edit.localRule id name store').1 = (Edit.localRule id name store).1 ∧
      (Edit.localRule id name store).2.Level rule (Edit.localRule id name store').2 := by
  cases hlocal : store.catalog.local? id name with
  | some own =>
    rw [localRule_eq_of_local hlocal, localRule_eq_of_local ((h.own id name).trans hlocal)]
    exact ⟨rfl, h⟩
  | none =>
    have hlocal' := (h.own id name).trans hlocal
    simp only [Edit.localRule, Edit.bind_apply, Edit.get_apply, Edit.pure_apply, hlocal, hlocal']
    exact ⟨congrArg (RuleId.mk id) (h.rules id), h.push hindex name⟩

theorem rule_lookup {id : GrammarId} (hindex : id.index < store.catalog.grammars.size)
    (name : String) : (Edit.rule id name store').1 = (Edit.rule id name store).1 ∧
      (Edit.rule id name store).2.Level rule (Edit.rule id name store').2 := by
  cases hlookup : store.catalog.lookup? id name with
  | some found =>
    have hlookup' := (h.lookup? id name).trans hlookup
    simp only [Edit.rule, Edit.bind_apply, Edit.get_apply, Edit.pure_apply, hlookup, hlookup']
    exact ⟨trivial, h⟩
  | none =>
    have hlookup' := (h.lookup? id name).trans hlookup
    simp only [Edit.rule, Edit.bind_apply, Edit.get_apply, hlookup, hlookup']
    exact h.localRule hindex name

end Store.Level

namespace Edit

variable {id : GrammarId} {rule : RuleId} {store store' : Store}

theorem develops_assembled (options : Options) (expressions : List Expression)
    (hindex : id.index < store.catalog.grammars.size) :
    store.catalog.Develops id (fun _ => True) (fun _ => False)
      (assembleAll id options expressions store).2.catalog :=
  develops_assembleAll options hindex expressions (fun _ _ _ _ _ => trivial) (.refl ..)

theorem keepsModes_assembleAll (options : Options) (expressions : List Expression)
    (hindex : id.index < store.catalog.grammars.size) :
    store.catalog.KeepsModes (assembleAll id options expressions store).2.catalog :=
  (develops_assembled options expressions hindex).mode

theorem size_assemble (options : Options) (expression : Expression)
    (hindex : id.index < store.catalog.grammars.size) :
    id.index < (assemble id options expression store).2.catalog.grammars.size :=
  (@develops_assemble id (fun _ => True) (fun _ => False) store.catalog options hindex
    expression store (fun _ _ _ _ _ => trivial) (.refl ..)).size ▸ hindex

theorem pushed_sharedMode (firstMatch : Bool) :
    (newMode firstMatch store).2.catalog.SharedMode (newMode firstMatch store').2.catalog
      ⟨store.catalog.modes.size⟩ ⟨store'.catalog.modes.size⟩ :=
  ⟨firstMatch, Array.getElem?_push_size, Array.getElem?_push_size⟩

theorem keepsModes_newMode (firstMatch : Bool) :
    store.catalog.KeepsModes (newMode firstMatch store).2.catalog :=
  fun _ _ hmode => Store.getElem?_push_of_eq_some hmode firstMatch

mutual
/-- What an expression is assembled to in stores on a level. -/
theorem assemble_level (options : Options) (expression : Expression) {store store' : Store}
    (h : store.Level rule store') (hindex : id.index < store.catalog.grammars.size) :
    (assemble id options expression store).1.Echoes
        ((assemble id options expression store).2.catalog.SharedMode
          (assemble id options expression store').2.catalog)
        (assemble id options expression store').1 ∧
      (assemble id options expression store).2.Level rule
        (assemble id options expression store').2 := by
  cases expression with
  | literal terminal | prose text =>
    simp only [assemble, pure_apply, Parser.Echoes]
    exact ⟨trivial, h⟩
  | name name =>
    obtain ⟨hrule, hlevel⟩ := h.rule_lookup hindex name
    simp only [assemble, bind_apply, get_apply, pure_apply, Parser.Echoes]
    exact ⟨by rw [hrule, hlevel.refer], hlevel⟩
  | choice branches =>
    obtain ⟨hall, hlevel⟩ := assembleAll_level options branches h hindex
    simp only [assemble, bind_apply]
    generalize assembleAll id options branches store = assembled at hall hlevel ⊢
    generalize assembleAll id options branches store' = assembled' at hall hlevel ⊢
    refine ⟨⟨_, _, rfl, pushed_sharedMode options.firstMatch, hall.mono ?_⟩, hlevel.newMode _⟩
    exact Catalog.SharedMode.keep (keepsModes_newMode _) (keepsModes_newMode _)
  | sequence items =>
    obtain ⟨hall, hlevel⟩ := assembleAll_level options items h hindex
    simp only [assemble, bind_apply, pure_apply]
    exact ⟨⟨_, rfl, hall⟩, hlevel⟩
  | repeated bounds element =>
    obtain ⟨helement, hlevel⟩ := assemble_level options element h hindex
    simp only [assemble, bind_apply]
    generalize assemble id options element store = assembled at helement hlevel ⊢
    generalize assemble id options element store' = assembled' at helement hlevel ⊢
    exact ⟨⟨_, congrArg (fun size => Parser.repetition ⟨size⟩ bounds assembled'.1) hlevel.caches,
      helement⟩, hlevel.newCache _⟩
  | optional element =>
    obtain ⟨helement, hlevel⟩ := assemble_level options element h hindex
    simp only [assemble, bind_apply]
    generalize assemble id options element store = assembled at helement hlevel ⊢
    generalize assemble id options element store' = assembled' at helement hlevel ⊢
    exact ⟨⟨_, congrArg (fun size => Parser.optional ⟨size⟩ assembled'.1) hlevel.caches, helement⟩,
      hlevel.newCache _⟩

theorem assembleAll_level (options : Options) (expressions : List Expression)
    {store store' : Store} (h : store.Level rule store')
    (hindex : id.index < store.catalog.grammars.size) :
    Parser.EchoesAll
        ((assembleAll id options expressions store).2.catalog.SharedMode
          (assembleAll id options expressions store').2.catalog)
        (assembleAll id options expressions store).1
        (assembleAll id options expressions store').1 ∧
      (assembleAll id options expressions store).2.Level rule
        (assembleAll id options expressions store').2 := by
  cases expressions with
  | nil =>
    simp only [assembleAll, pure_apply, Parser.EchoesAll]
    exact ⟨trivial, h⟩
  | cons expression rest =>
    obtain ⟨hfirst, hlevel⟩ := assemble_level options expression h hindex
    have hindex' := size_assemble options expression hindex
    simp only [assembleAll, bind_apply, pure_apply]
    generalize assemble id options expression store = assembled at hfirst hlevel hindex' ⊢
    generalize assemble id options expression store' = assembled' at hfirst hlevel ⊢
    obtain ⟨hrest, hlevel'⟩ := assembleAll_level options rest hlevel hindex'
    refine ⟨⟨_, _, rfl, hfirst.mono ?_, hrest⟩, hlevel'⟩
    exact Catalog.SharedMode.keep (keepsModes_assembleAll options rest hindex')
      (keepsModes_assembleAll options rest (hlevel.grammars ▸ hindex'))
end

end Edit

end Metasyntax
