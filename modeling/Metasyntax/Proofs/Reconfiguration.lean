import Metasyntax.Proofs.Holdings
import Metasyntax.Proofs.Influence

/-!
# Rules that are reconfigured

A rule may get another definition, one more alternative, an exclusion or another mode. Parses
of a rule do not notice unless they lead to the rule that was reconfigured, or use the
alternation whose mode was set.
-/

set_option autoImplicit false

namespace Metasyntax

inductive Reconfiguration where
  | setDefinition (definition : Parser)
  | addAlternative (alternative : Parser)
  | exclude (excluded : RuleId)
  | clearExclusion
  | setFirstMatch (firstMatch : Bool)

namespace Reconfiguration

def apply (rule : RuleId) : Reconfiguration → Edit Unit
  | .setDefinition definition => Edit.setDefinition rule definition
  | .addAlternative alternative => Edit.addAlternative rule alternative
  | .exclude excluded => Edit.exclude rule excluded
  | .clearExclusion => Edit.clearExclusion rule
  | .setFirstMatch firstMatch => discard (Edit.setFirstMatch rule firstMatch)

def sets (catalog : Catalog) (rule : RuleId) : Reconfiguration → Set ModeId
  | .setFirstMatch _ => {mode | ∃ branches,
      catalog.definition? rule = some (.alternation mode branches)}
  | _ => ∅

end Reconfiguration

/-- A reconfiguration of a rule concerns a parser that leads to the rule, or that leads to an
alternation whose mode is set. -/
def Catalog.Concerns (catalog : Catalog) (rule : RuleId) (change : Reconfiguration)
    (parser : Parser) : Prop :=
  rule ∈ (catalog.scopeOf parser).rules ∨ ∃ mode ∈ change.sets catalog rule, ∃ branches,
    .alternation mode branches ∈ (catalog.scopeOf parser).nodes

structure Store.Spares (rule : RuleId) (modes : Set ModeId) (store store' : Store) : Prop where
  alive : ∀ id, store'.catalog.alive id = store.catalog.alive id
  slot : ∀ other, other ≠ rule → store'.catalog.slot? other = store.catalog.slot? other
  modes_le : store.catalog.modes.size ≤ store'.catalog.modes.size
  mode : ∀ mode : ModeId, mode.index < store.catalog.modes.size → mode ∉ modes →
    store'.catalog.firstMatch mode = store.catalog.firstMatch mode
  options : ∀ id, (store'.catalog.grammar id).options = (store.catalog.grammar id).options
  holds : ∀ id key attempt, store'.caches.Holds id key attempt → store.caches.Holds id key attempt
  registry : ∀ id, ∀ cache ∈ (store.catalog.grammar id).registry.members,
    cache ∉ store.lostCaches → cache ∈ (store'.catalog.grammar id).registry.members
  lostCaches : store'.lostCaches = store.lostCaches

namespace Store.Spares

variable {rule : RuleId} {modes : Set ModeId} {store store' store'' : Store}

theorem refl (rule : RuleId) (modes : Set ModeId) (store : Store) : Spares rule modes store store :=
  ⟨fun _ => rfl, fun _ _ => rfl, le_rfl, fun _ _ _ => rfl, fun _ => rfl, fun _ _ _ h => h,
    fun _ _ h _ => h, rfl⟩

theorem trans (h : Spares rule modes store store') (h' : Spares rule modes store' store'') :
    Spares rule modes store store'' where
  alive id := (h'.alive id).trans (h.alive id)
  slot other hother := (h'.slot other hother).trans (h.slot other hother)
  modes_le := h.modes_le.trans h'.modes_le
  mode mode hlt hmode := (h'.mode mode (hlt.trans_le h.modes_le) hmode).trans (h.mode mode hlt hmode)
  options id := (h'.options id).trans (h.options id)
  holds id key attempt hholds := h.holds id key attempt (h'.holds id key attempt hholds)
  registry id cache hcache hlost :=
    h'.registry id cache (h.registry id cache hcache hlost) (h.lostCaches ▸ hlost)
  lostCaches := h'.lostCaches.trans h.lostCaches

/-- Other rules stay as they are when a grammar is changed in anything but its other rules. -/
theorem of_modifyGrammar (id : GrammarId) (change : Grammar → Grammar)
    (hslot : ∀ other : RuleId, other ≠ rule → other.grammar = id →
      ∀ grammar : Grammar, (change grammar).table.slots[other.slot]? = grammar.table.slots[other.slot]?)
    (hoptions : ∀ grammar, (change grammar).options = grammar.options)
    (hregistry : ∀ grammar, ∀ cache ∈ grammar.registry.members,
      cache ∉ store.lostCaches → cache ∈ (change grammar).registry.members) :
    Spares rule modes store (Edit.modifyGrammar id change store).2 where
  alive _ := rfl
  slot other hother := by
    rw [Edit.slot?_modifyGrammar]
    split
    case isTrue heq => rw [hslot other hother heq.1, Catalog.slot?, heq.1]
    case isFalse => rfl
  modes_le := le_rfl
  mode _ _ _ := rfl
  options other := by
    rw [Edit.grammar_modifyGrammar]
    split
    case isTrue heq => rw [hoptions, heq.1]
    case isFalse => rfl
  holds _ _ _ h := h
  registry other cache hcache hlost := by
    rw [Edit.grammar_modifyGrammar]
    split
    case isTrue heq => exact hregistry _ _ (heq.1 ▸ hcache) hlost
    case isFalse => exact hcache
  lostCaches := rfl

theorem retain (id other : GrammarId) : Spares rule modes store (Edit.retain id other store).2 :=
  of_modifyGrammar id _ (fun _ _ _ grammar => by split <;> rfl) (fun grammar => by split <;> rfl)
    fun grammar cache hcache _ => by split <;> exact hcache

theorem forM_retain (id : GrammarId) (targets : List RuleId) : Spares rule modes store
    ((targets.forM fun target => Edit.retain id target.grammar : Edit Unit) store).2 := by
  induction targets generalizing store with
  | nil => exact .refl rule modes store
  | cons target rest ih => exact (retain id target.grammar).trans ih

theorem adopt (id : GrammarId) (parser : Parser) :
    Spares rule modes store (Edit.adopt id parser store).2 := by
  simp only [Edit.adopt, Edit.bind_apply, Edit.get_apply]
  exact (of_modifyGrammar id (fun grammar =>
    { grammar with registry := grammar.registry.registerAll store.cacheAlive parser.caches })
    (fun _ _ _ _ => rfl)
      (fun _ => rfl) fun _ _ h hlost => Registry.mem_registerAll (Store.cacheAlive_iff.2 hlost)
        (Or.inl h)).trans (forM_retain id _)

theorem update (change : Slot → Slot) : Spares rule modes store
    (Edit.modifyTable rule.grammar (·.update rule.slot change) store).2 :=
  of_modifyGrammar rule.grammar _ (fun other hother hgrammar grammar => by
    change (grammar.table.slots.modify rule.slot change)[other.slot]? = _
    rw [Array.getElem?_modify, if_neg]
    rintro heq
    cases other
    cases rule
    simp_all) (fun _ => rfl) fun _ _ h _ => h

theorem clearCaches (id : GrammarId) :
    Spares rule modes store (Edit.clearCaches id store).2 where
  alive _ := rfl
  slot _ _ := rfl
  modes_le := le_rfl
  mode _ _ _ := rfl
  options _ := rfl
  holds _ _ _ h := (Caches.holds_of_holds_clearAll h).2
  registry _ _ h _ := h
  lostCaches := rfl

theorem newMode (firstMatch : Bool) :
    Spares rule modes store (Edit.newMode firstMatch store).2 where
  alive _ := rfl
  slot _ _ := rfl
  modes_le := (Nat.le_succ _).trans_eq (Array.size_push firstMatch).symm
  mode mode hlt _ := by
    change ((store.catalog.modes.push firstMatch)[mode.index]?).getD false = _
    rw [Array.getElem?_push, if_neg (Nat.ne_of_lt hlt)]
    rfl
  options _ := rfl
  holds _ _ _ h := h
  registry _ _ h _ := h
  lostCaches := rfl

theorem setMode {mode : ModeId} (hmode : mode ∈ modes) (firstMatch : Bool) :
    Spares rule modes store (Edit.modifyCatalog (fun catalog =>
      { catalog with modes := catalog.modes.modify mode.index fun _ => firstMatch }) store).2 where
  alive _ := rfl
  slot _ _ := rfl
  modes_le := Array.size_modify.ge
  mode other _ hother := by
    have hne : mode.index ≠ other.index := fun heq => hother <| by
      obtain ⟨i⟩ := mode
      obtain ⟨j⟩ := other
      cases heq
      exact hmode
    change ((store.catalog.modes.modify mode.index fun _ => firstMatch)[other.index]?).getD
      false = _
    rw [Array.getElem?_modify, if_neg hne]
    rfl
  options _ := rfl
  holds _ _ _ h := h
  registry _ _ h _ := h
  lostCaches := rfl

end Store.Spares

namespace Reconfiguration

variable {store : Store}

theorem exists_spares_setDefinition (rule : RuleId) (definition : Parser) (modes : Set ModeId)
    (store : Store) : ∃ between, Store.Spares rule modes store between ∧
      (Edit.setDefinition rule definition store).2 = (Edit.clearCaches rule.grammar between).2 :=
  ⟨_, (Store.Spares.adopt rule.grammar definition).trans (.update _), rfl⟩

/-- A reconfiguration changes a rule, or sets a mode, and then empties the caches of the rule's
grammar; or it does nothing. -/
theorem apply_cases (change : Reconfiguration) (rule : RuleId) (store : Store) :
    (change.apply rule store).2 = store ∨ ∃ between,
      Store.Spares rule (change.sets store.catalog rule) store between ∧
        (change.apply rule store).2 = (Edit.clearCaches rule.grammar between).2 := by
  cases change with
  | setDefinition definition => exact Or.inr (exists_spares_setDefinition rule definition _ store)
  | addAlternative alternative =>
    refine Or.inr ?_
    cases hdefinition : store.catalog.definition? rule with
    | none =>
      simp only [apply, Edit.addAlternative, Edit.bind_apply, Edit.get_apply, hdefinition]
      exact exists_spares_setDefinition rule alternative _ store
    | some existing =>
      simp only [apply, Edit.addAlternative, Edit.bind_apply, Edit.get_apply, hdefinition]
      obtain ⟨between, hspares, heq⟩ := exists_spares_setDefinition rule _ _ _
      exact ⟨between, (Store.Spares.newMode _).trans hspares, heq⟩
  | exclude excluded =>
    exact Or.inr ⟨_, (Store.Spares.adopt rule.grammar (.rule (store.catalog.refer excluded))).trans
      (.update _), rfl⟩
  | clearExclusion => exact Or.inr ⟨_, .update _, rfl⟩
  | setFirstMatch firstMatch =>
    have hdiscard : (apply rule (.setFirstMatch firstMatch) store).2 =
        (Edit.setFirstMatch rule firstMatch store).2 := rfl
    rw [hdiscard]
    rcases Edit.setFirstMatch_snd rule firstMatch store with h | ⟨mode, branches, hdefinition, h⟩
    · exact Or.inl h
    · have hmode : mode ∈ (setFirstMatch firstMatch).sets store.catalog rule :=
        ⟨branches, hdefinition⟩
      exact Or.inr ⟨_, .setMode hmode firstMatch, h⟩

theorem spares (change : Reconfiguration) (rule : RuleId) (store : Store) :
    Store.Spares rule (change.sets store.catalog rule) store (change.apply rule store).2 := by
  rcases change.apply_cases rule store with h | ⟨between, hspares, h⟩
  · rw [h]
    exact .refl rule _ store
  · rw [h]
    exact hspares.trans (.clearCaches _)

theorem same {change : Reconfiguration} {rule : RuleId} {parser : Parser}
    (h : ¬ store.catalog.Concerns rule change parser)
    (hmodes : ∀ mode branches, .alternation mode branches ∈ (store.catalog.scopeOf parser).nodes →
      mode.index < store.catalog.modes.size) :
    (store.catalog.scopeOf parser).Same store.catalog (change.apply rule store).2.catalog where
  alive := (change.spares rule store).alive
  slot other hother := (change.spares rule store).slot other fun heq => h (Or.inl (heq ▸ hother))
  mode mode branches hmode := (change.spares rule store).mode mode (hmodes mode branches hmode)
    fun hset => h (Or.inr ⟨mode, hset, branches, hmode⟩)

end Reconfiguration

/-- The caches of all living definitions are sound. -/
def Store.Fresh (store : Store) : Prop :=
  Sound store.catalog (store.catalog.within store.living).nodes store.caches

/-- No cache is stale that a rule leads to. -/
def Store.Current (store : Store) (rule : RuleId) : Prop :=
  Sound store.catalog (store.catalog.scopeOf (.rule (store.catalog.refer rule))).nodes store.caches

theorem Store.mem_scopeOf {store : Store} {parser node : Parser}
    (h : node ∈ (store.catalog.scopeOf parser).nodes) :
    node ∈ parser.walk ∨ node ∈ (store.catalog.within store.living).nodes := by
  rcases h with h | ⟨ref, rule, slot, definition, -, hresolve, hbound, hnode⟩
  · exact Or.inl h
  · obtain rfl := Catalog.eq_of_resolve hresolve
    exact Or.inr ⟨_, slot, definition, Catalog.alive_of_resolve hresolve, hbound, hnode⟩

section
variable {held : Set Parser} {store : Store} {parser : Parser}

/-- A parser all of whose parts are used, apart from references. -/
def Store.Uses (store : Store) (held : Set Parser) (parser : Parser) : Prop :=
  ∀ node ∈ parser.walk, node ∈ store.used Set.univ held ∨ ∃ ref, node = .rule ref

theorem Store.uses_rule (store : Store) (held : Set Parser) (ref : RuleRef) :
    store.Uses held (.rule ref) :=
  fun _ hnode => Or.inr ⟨ref, List.mem_singleton.1 hnode⟩

theorem Store.uses_definition {rule : RuleId} {slot : Slot} {definition : Parser}
    (h : store.catalog.bound rule = .ok (slot, definition)) (held : Set Parser) :
    store.Uses held definition :=
  fun _ hnode => Or.inl (Or.inr ⟨rule, slot, definition, trivial, h, hnode⟩)

theorem Store.Uses.of_mem_scopeOf (h : store.Uses held parser) {node : Parser}
    (hnode : node ∈ (store.catalog.scopeOf parser).nodes) :
    node ∈ store.used Set.univ held ∨ ∃ ref, node = .rule ref := by
  rcases Store.mem_scopeOf hnode with hnode | ⟨rule, slot, definition, -, hbound, hnode⟩
  · exact h node hnode
  · exact Or.inl (Or.inr ⟨rule, slot, definition, trivial, hbound, hnode⟩)

/-- No cache belongs to two of the parsers that used parsers lead to. -/
theorem Apart.scopeOf {other : Parser}
    (hapart : Apart (store.used Set.univ held) (store.used Set.univ held))
    (h : store.Uses held parser) (h' : store.Uses held other) :
    Apart (store.catalog.scopeOf parser).nodes (store.catalog.scopeOf other).nodes := by
  intro a ha b hb id hid hid'
  rcases h.of_mem_scopeOf ha with ha | ⟨_, rfl⟩
  · rcases h'.of_mem_scopeOf hb with hb | ⟨_, rfl⟩
    · exact hapart a ha b hb id hid hid'
    · cases hid'
  · cases hid

theorem Sane.apart_scopeOf (hsane : Sane held store) (h : store.Uses held parser) :
    Apart (store.catalog.scopeOf parser).nodes (store.catalog.scopeOf parser).nodes :=
  hsane.apart.scopeOf h h

theorem Sane.apart_definition_scopeOf (hsane : Sane held store) (h : store.Uses held parser)
    (rule : RuleId) (slot : Slot) (definition : Parser)
    (hbound : store.catalog.bound rule = .ok (slot, definition)) :
    Apart {node | node ∈ definition.walk} (store.catalog.scopeOf parser).nodes :=
  fun a ha b hb => hsane.apart.scopeOf (Store.uses_definition hbound held) h a (Or.inl ha) b hb

theorem Sane.mode_lt_of_mem_scopeOf (hsane : Sane held store) (h : store.Uses held parser)
    {mode : ModeId} {branches : List Parser}
    (hmode : .alternation mode branches ∈ (store.catalog.scopeOf parser).nodes) :
    mode.index < store.catalog.modes.size := by
  rcases h.of_mem_scopeOf hmode with hmode | ⟨_, hmode⟩
  · exact hsane.mode_lt mode branches hmode
  · cases hmode

theorem Store.Fresh.sound_scopeOf (h : store.Fresh) (ref : RuleRef) :
    Sound store.catalog (store.catalog.scopeOf (.rule ref)).nodes store.caches := by
  intro node hnode id hid
  rcases Store.mem_scopeOf hnode with hnode | hnode
  · cases List.mem_singleton.1 hnode
    cases hid
  · exact h node hnode id hid

end

theorem mem_rules_scopeOf_refer {catalog : Catalog} {rule : RuleId}
    (h : catalog.alive rule.grammar = true) :
    rule ∈ (catalog.scopeOf (.rule (catalog.refer rule))).rules :=
  ⟨_, catalog.leads_self _, if_pos h⟩

theorem Store.Current.parsesAnew {held : Set Parser} {store : Store} {rule : RuleId}
    (h : store.Current rule) (hsane : Sane held store) (hliving : rule.grammar ∈ store.living) :
    store.ParsesAnew rule :=
  (store.catalog.closed_scopeOf _).parsesAnew (hsane.apart_scopeOf (store.uses_rule held _))
    (mem_rules_scopeOf_refer hliving) h

/-- A reconfiguration that does not concern a rule leaves the mode of the rule alone. -/
theorem Reconfiguration.ruleFirstMatch_eq {store : Store} {rule other : RuleId}
    {change : Reconfiguration}
    (h : (store.catalog.scopeOf (.rule (store.catalog.refer other))).Same store.catalog
      (change.apply rule store).2.catalog) (halive : store.catalog.alive other.grammar = true) :
    (change.apply rule store).2.catalog.ruleFirstMatch other =
      store.catalog.ruleFirstMatch other := by
  have hmem := mem_rules_scopeOf_refer halive
  have hdefinition : (change.apply rule store).2.catalog.definition? other =
      store.catalog.definition? other := by
    rw [Catalog.definition?, Catalog.definition?, h.slot other hmem]
  rw [Catalog.ruleFirstMatch, Catalog.ruleFirstMatch, hdefinition,
    (change.spares rule store).options]
  split
  case h_1 mode branches heq =>
    obtain ⟨slot, hslot, hdefinition⟩ := Option.bind_eq_some_iff.1 heq
    exact h.mode mode branches ((Catalog.closed_scopeOf _ _).definition other hmem slot _
      (Catalog.bound_eq_ok_iff.2 ⟨hslot, hdefinition⟩))
  case h_2 => rfl

/-- In a session without stale caches, a reconfiguration of a rule changes neither the parses nor
the mode of any rule that does not lead to it, nor to the alternation whose mode it sets. -/
theorem Session.Reached.reconfiguration_spares {session : Session} (h : session.Reached)
    (hfresh : session.store.Fresh) {rule other : RuleId} {change : Reconfiguration}
    (hliving : other.grammar ∈ session.store.living)
    (hspared : ¬ session.store.catalog.Concerns rule change
      (.rule (session.store.catalog.refer other))) :
    Store.ParsesAlike other session.store (change.apply rule session.store).2 ∧
      (change.apply rule session.store).2.catalog.ruleFirstMatch other =
        session.store.catalog.ruleFirstMatch other := by
  have hsane := h.orderly.sane
  have huses := session.store.uses_rule {parser | .parser parser ∈ session.bench.held}
    (session.store.catalog.refer other)
  have hclosed := session.store.catalog.closed_scopeOf (.rule (session.store.catalog.refer other))
  have hsame := Reconfiguration.same hspared fun mode branches =>
    hsane.mode_lt_of_mem_scopeOf huses
  have hsound := hfresh.sound_scopeOf (session.store.catalog.refer other)
  have hsound' := (hsame.sound hclosed hsound).of_holds (change.spares rule session.store).holds
  exact ⟨hsame.parsesAlike hclosed (hsane.apart_scopeOf huses) (mem_rules_scopeOf_refer hliving)
    hsound hsound', Reconfiguration.ruleFirstMatch_eq hsame hliving⟩

theorem Session.not_holds_start {id : CacheId} {key : CacheKey} {attempt : Attempt} :
    ¬ Session.start.store.caches.Holds id key attempt :=
  Caches.not_holds_of_isEmpty fun cache hcache =>
    Array.all_eq_true_iff_forall_mem.1 Standard.checked.2.2.2.2 cache hcache

theorem Session.fresh_start : Session.start.store.Fresh :=
  .of_empty fun _ _ _ => Session.not_holds_start

def Parser.isTerminal : Parser → Bool
  | .literal _ => true
  | _ => false

theorem Session.Reached.reconfiguration_spares_literal : ∃ rule other : RuleId,
    Session.start.store.Fresh ∧ other.grammar ∈ Session.start.store.living ∧
      ¬ Session.start.store.catalog.Concerns rule (.setFirstMatch true)
        (.rule (Session.start.store.catalog.refer other)) ∧
      Store.ParsesAlike other Session.start.store
        ((Reconfiguration.setFirstMatch true).apply rule Session.start.store).2 := by
  have hleaf : Store.standard.catalog.isLeaf ⟨.core, 4⟩ = true := by decide +kernel
  have hbound : (Store.standard.catalog.bound ⟨.core, 4⟩).toOption.any (·.2.isTerminal) = true := by
    decide +kernel
  have hspared : ¬ Store.standard.catalog.Concerns ⟨.core, 9⟩ (.setFirstMatch true)
      (.rule (Store.standard.catalog.refer ⟨.core, 4⟩)) := by
    rintro (hrule | ⟨mode, -, branches,
      hmode | ⟨ref, rule, slot, definition, href, hrule, hdefinition, hmode⟩⟩)
    · exact absurd (Catalog.eq_of_mem_rules_of_isLeaf hleaf hrule) (by decide)
    · cases List.mem_singleton.1 hmode
    · rw [Catalog.eq_of_leads_of_isLeaf hleaf href] at hrule
      rw [Catalog.eq_of_resolve_refer hrule] at hdefinition
      rw [hdefinition] at hbound
      cases definition with
      | literal terminal => cases List.mem_singleton.1 hmode
      | _ => cases hbound
  have hliving : (RuleId.mk .core 4).grammar ∈ Session.start.store.living :=
    (Session.orderly_start.useful _ .core).1
  have hreached : Session.start.Reached := .start
  exact ⟨⟨.core, 9⟩, ⟨.core, 4⟩, Session.fresh_start, hliving, hspared,
    (hreached.reconfiguration_spares Session.fresh_start hliving hspared).1⟩

theorem Edit.holds_define {id : GrammarId} {name : String} {definition : Parser} {store : Store}
    {cache : CacheId} {key : CacheKey} {attempt : Attempt}
    (h : (define id name definition store).2.caches.Holds cache key attempt) :
    store.caches.Holds cache key attempt := by
  have hlocal := (Reconfiguration.spares (.setDefinition definition)
    (localRule id name store).1 (localRule id name store).2).holds cache key attempt h
  exact (quiet_localRule id name).holds cache key attempt hlocal

theorem Edit.holds_importRule {id : GrammarId} {name : String} {source : RuleId} {store : Store}
    {cache : CacheId} {key : CacheKey} {attempt : Attempt}
    (h : (importRule id name source store).2.caches.Holds cache key attempt) :
    store.caches.Holds cache key attempt := by
  cases hdefinition : store.catalog.definition? source with
  | none =>
    simp only [importRule, bind_apply, get_apply, hdefinition] at h
    exact h
  | some definition =>
    simp only [importRule, bind_apply, get_apply, hdefinition] at h
    exact (quiet_retain id source.grammar).holds cache key attempt (holds_define h)

theorem Session.caches_of_step {session session' : Session} {command : Command} {answer : Answer}
    (h : session.step command = .ok (answer, session')) :
    session'.store.caches = ((perform command).run session).2.store.caches := by
  rw [step] at h
  split at h
  case h_4 => cases h
  all_goals
    cases h
    simp only [*]
    rfl

namespace Session

variable {session : Session}

theorem store_importRule {key other : String} {id target : GrammarId}
    (hid : (grammarNamed key).run session = (.ok id, session))
    (htarget : (grammarNamed other).run session = (.ok target, session)) (name source : String) :
    let named := Edit.rule target source session.store
    ((perform (.importRule key name (.named other source) none)).run session).2.store =
      (Edit.importRule id name named.1 named.2).2 := by
  intro named
  have hrule : (resolveRule (.named other source)).run session =
      (.ok named.1, { session with store := named.2 }) := by
    rw [resolveRule, run_bind_ok htarget]
    exact run_edit session _
  rw [perform, run_bind_ok hid, run_bind_ok hrule, run_bind_ok (run_edit _ _)]
  cases (Edit.importRule id name named.1 named.2).1 <;> rfl

end Session

def Catalog.stopOf : Except GrammarError (Except ParseError (Node × Nat)) → Option Nat
  | .ok (.ok (_, stop)) => some stop
  | _ => none

/-- Where a parse of `ab` with the rule `b` of the grammar of rule text comes to. -/
def Store.stopOfCopy (store : Store) : Option Nat :=
  Catalog.stopOf (Edit.parsing (·.parse ⟨.abnf, 24⟩ (.ofString "ab") 0) store).1

open Session in
theorem Session.exists_copied_choice : ∃ session : Session, session.Reached ∧
    session.store.Fresh ∧ session.store.catalog.isLeaf ⟨.abnf, 24⟩ = true ∧
      session.store.stopOfCopy = some 2 ∧
        ((Reconfiguration.setFirstMatch true).apply ⟨.core, 16⟩ session.store).2.stopOfCopy =
          some 1 := by
  let check (session : Session) : Bool := session.store.catalog.isLeaf ⟨.abnf, 24⟩ &&
    decide (session.store.stopOfCopy = some 2) &&
      decide (((Reconfiguration.setFirstMatch true).apply ⟨.core, 16⟩
        session.store).2.stopOfCopy = some 1)
  have hfirst : (Session.start.carryOut [.define "core" "a" (.alternation false
      [.literal ⟨.text "a", false⟩, .literal ⟨.text "ab", false⟩]) none]).any (fun first =>
        first.store.caches.all (·.isEmpty) &&
          (first.carryOut [.importRule "abnf" "b" (.named "core" "a") none]).any check) = true := by
    decide +kernel
  obtain ⟨first, hcarry, hfirst⟩ := (Option.any_eq_true _ _).1 hfirst
  obtain ⟨hempty, hsecond⟩ := Bool.and_eq_true_iff.1 hfirst
  obtain ⟨second, himport, hsecond⟩ := (Option.any_eq_true _ _).1 hsecond
  simp only [check, Bool.and_eq_true, decide_eq_true_eq] at hsecond
  have hfresh : second.store.Fresh := by
    rw [Session.carryOut] at himport
    split at himport
    case h_2 => cases himport
    case h_1 hstep =>
      cases himport
      refine .of_empty fun id key attempt hholds => ?_
      rw [caches_of_step hstep, store_importRule rfl rfl] at hholds
      exact Caches.not_holds_of_isEmpty
        (fun cache hcache => Array.all_eq_true_iff_forall_mem.1 hempty cache hcache)
        ((quiet_rule .core "a").holds id key attempt (Edit.holds_importRule hholds))
  exact ⟨second, (Session.Reached.start.carryOut hcarry).carryOut himport, hfresh, hsecond.1.1,
    hsecond.1.2, hsecond.2⟩

/-- An imported definition is the definition itself: setting the mode of the rule that it was
imported from sets that of the importing rule, which does not refer to it. -/
theorem setFirstMatch_reaches_import : ¬ ∀ (session : Session) (rule other : RuleId)
    (change : Reconfiguration), session.Reached → session.store.Fresh →
      other.grammar ∈ session.store.living →
        rule ∉ (session.store.catalog.scopeOf
          (.rule (session.store.catalog.refer other))).rules →
            Store.ParsesAlike other session.store (change.apply rule session.store).2 := by
  intro hall
  obtain ⟨session, hreached, hfresh, hleaf, hlonger, hshorter⟩ := Session.exists_copied_choice
  have hliving : GrammarId.abnf ∈ session.store.living :=
    (hreached.orderly.useful (.grammar .abnf) .abnf).1
  have halike := hall session ⟨.core, 16⟩ ⟨.abnf, 24⟩ (.setFirstMatch true) hreached hfresh hliving
    fun hrule => absurd (Catalog.eq_of_mem_rules_of_isLeaf hleaf hrule) (by decide)
  rw [Store.stopOfCopy] at hlonger hshorter
  rcases halike.parse (.ofString "ab") 0 with heq | ⟨⟨error, -, heq⟩, -⟩
  · rw [heq, hshorter] at hlonger
    cases hlonger
  · rw [heq] at hlonger
    cases hlonger

end Metasyntax
