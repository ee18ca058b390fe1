import Metasyntax.Proofs.Renewal
import Metasyntax.Proofs.Invalidation

/-!
# Grammars and their caches

A grammar has each cache registered once, and has those of everything that its rules are made of.
So what changes a rule, or what the rule's alternation stops at, leaves nothing in any cache that
the rules of the grammar use.
-/

set_option autoImplicit false

namespace Metasyntax

inductive Parser.PartOf (node : Parser) : Parser → Prop where
  | self : PartOf node node
  | branch (mode : ModeId) {branches : List Parser} {branch : Parser} :
    branch ∈ branches → PartOf node branch → PartOf node (.alternation mode branches)
  | part {parts : List Parser} {part : Parser} :
    part ∈ parts → PartOf node part → PartOf node (.concatenation parts)
  | repeated (cache : CacheId) (bounds : Bounds) {element : Parser} :
    PartOf node element → PartOf node (.repetition cache bounds element)
  | offered (cache : CacheId) {element : Parser} :
    PartOf node element → PartOf node (.optional cache element)

theorem Parser.PartOf.mem_walk {node parser : Parser} (h : node.PartOf parser) :
    node ∈ parser.walk := by
  induction h with
  | self => exact self_mem_walk node
  | branch mode hbranch _ ih =>
    exact List.mem_cons_of_mem _ (mem_walkAll.2 ⟨_, hbranch, ih⟩)
  | part hpart _ ih => exact List.mem_cons_of_mem _ (mem_walkAll.2 ⟨_, hpart, ih⟩)
  | repeated cache bounds _ ih => exact List.mem_cons_of_mem _ ih
  | offered cache _ ih => exact List.mem_cons_of_mem _ ih

theorem Registry.nodup_register {registry : Registry} (h : registry.members.Nodup)
    (alive : CacheId → Bool) (cache : CacheId) : (registry.register alive cache).members.Nodup := by
  have hknown : (registry.living alive).Nodup := h.filter _
  rw [register]
  split
  case isTrue => exact hknown
  case isFalse hnew =>
    refine List.nodup_append.2 ⟨hknown, List.nodup_singleton cache, ?_⟩
    rintro other hother _ hcache rfl
    exact hnew (List.mem_singleton.1 hcache ▸ hother)

theorem Registry.nodup_registerAll {registry : Registry} (h : registry.members.Nodup)
    (alive : CacheId → Bool) (caches : List CacheId) :
    (registry.registerAll alive caches).members.Nodup := by
  induction caches generalizing registry with
  | nil => exact h
  | cons cache caches ih => exact ih (nodup_register h alive cache)

def Store.Distinct (store : Store) : Prop :=
  ∀ id, (store.catalog.grammar id).registry.members.Nodup

namespace Store.Distinct

variable {store : Store}

theorem modifyGrammar (h : store.Distinct) (id : GrammarId) {change : Grammar → Grammar}
    (hchange : ∀ grammar : Grammar, grammar.registry.members.Nodup →
      (change grammar).registry.members.Nodup) :
    Distinct (Edit.modifyGrammar id change store).2 := by
  intro other
  rw [Edit.grammar_modifyGrammar]
  split
  case isTrue => exact hchange _ (h id)
  case isFalse => exact h other

theorem revocable : Revocable Distinct where
  newGrammar name base options store h id := by
    rw [grammar_newGrammar]
    split
    · exact List.nodup_nil
    · exact h id
  newMode _ _ h := h
  newCache _ _ h := h
  newRule _ h := h.modifyGrammar _ fun _ => id
  setMode _ _ _ h := h
  update _ _ _ _ h := h.modifyGrammar _ fun _ => id
  register _ caches _ h := h.modifyGrammar _ fun _ hmembers =>
    Registry.nodup_registerAll hmembers _ caches
  retain _ _ _ h := h.modifyGrammar _ fun _ hmembers => by split <;> exact hmembers
  truncate _ _ _ h := h.modifyGrammar _ fun _ => id
  clearCaches _ _ h := h
  matchesOf _ _ _ _ h := h
  collect _ h := h

end Store.Distinct

/-- Every grammar lists each of its caches once, and lists those of all that its rules are made of,
none of which is missing. -/
structure Store.Controls (store : Store) : Prop where
  once : ∀ id, (store.cachesOf id).Nodup
  listed : ∀ (rule : RuleId) (definition node : Parser) (cache : CacheId),
    rule.grammar ∈ store.living → store.catalog.definition? rule = some definition →
      node.PartOf definition → node.cache? = some cache →
        cache ∈ store.cachesOf rule.grammar ∧ cache.index < store.caches.size

theorem Store.Distinct.controls {store : Store} {held : Set Parser} (h : store.Distinct)
    (hsane : Sane held store) : store.Controls where
  once id := (h id).filter _
  listed rule definition node cache hliving hdefinition hpart hcache := by
    obtain ⟨slot, hslot, hbound⟩ := Option.bind_eq_some_iff.1 hdefinition
    have hnode {grammars : Set GrammarId} (hrule : rule.grammar ∈ grammars) :
        node ∈ (store.catalog.within grammars).nodes :=
      ⟨rule, slot, definition, hrule, Catalog.bound_eq_ok_iff.2 ⟨hslot, hbound⟩, hpart.mem_walk⟩
    have halive := hsane.alive node (Or.inr (hnode hliving)) cache hcache
    have hregistered := hsane.registered rule.grammar node (hnode rfl) cache hcache halive
    have hlt := hsane.cache_lt node (Or.inr (hnode (Set.mem_univ _))) cache hcache
    exact ⟨Store.mem_cachesOf hregistered halive, hlt⟩

/-- Nothing is remembered, and no look-up counted, in any cache that a grammar lists. -/
def Store.Emptied (store : Store) (id : GrammarId) : Prop :=
  ∀ cache ∈ store.cachesOf id, (store.cache cache).isEmpty = true ∧
    (store.cache cache).hits = 0 ∧ (store.cache cache).misses = 0

theorem Store.emptied_clearCaches (store : Store) (id : GrammarId) :
    Store.Emptied (Edit.clearCaches id store).2 id := by
  intro cache hcache
  have hcleared : (Edit.clearCaches id store).2.caches[cache.index]? =
      (store.caches[cache.index]?).map Cache.clear :=
    (Caches.getElem?_clearAll (store.cachesOf id) store.caches cache).2 hcache
  rw [Store.cache, hcleared]
  cases store.caches[cache.index]? with
  | none => exact ⟨rfl, rfl, rfl⟩
  | some old => exact ⟨rfl, rfl, rfl⟩

namespace Edit

def Clears (id : GrammarId) {α : Type} (edit : Edit α) (store : Store) : Prop :=
  ∃ between, (edit store).2 = (clearCaches id between).2

variable {id : GrammarId} {α β : Type} {store : Store}

theorem Clears.after {edit : Edit α} {next : α → Edit β}
    (h : Clears id (next (edit store).1) (edit store).2) : Clears id (edit >>= next) store :=
  h

theorem Clears.get {next : Store → Edit α} (h : Clears id (next store) store) :
    Clears id (MonadState.get >>= next) store :=
  h

theorem Clears.result {edit : Edit α} (h : Clears id edit store) (b : α → β) :
    Clears id (edit >>= fun a => pure (b a)) store :=
  h

theorem Clears.discard {edit : Edit α} (h : Clears id edit store) :
    Clears id (Functor.discard edit) store :=
  h

theorem clears_clearCaches (id : GrammarId) (store : Store) : Clears id (clearCaches id) store :=
  ⟨store, rfl⟩

theorem clears_updateRule (rule : RuleId) (change : Slot → Slot) (store : Store) :
    Clears rule.grammar (updateRule rule change) store :=
  .after (clears_clearCaches _ _)

theorem clears_setDefinition (rule : RuleId) (definition : Parser) (store : Store) :
    Clears rule.grammar (setDefinition rule definition) store :=
  .after (clears_updateRule _ _ _)

theorem clears_addAlternative (rule : RuleId) (alternative : Parser) (store : Store) :
    Clears rule.grammar (addAlternative rule alternative) store := by
  refine .get ?_
  dsimp only
  split
  · exact .after (clears_setDefinition _ _ _)
  · exact clears_setDefinition _ _ _

theorem clears_exclude (rule excluded : RuleId) (store : Store) :
    Clears rule.grammar (exclude rule excluded) store :=
  .get (.after (clears_updateRule _ _ _))

theorem clears_setFirstMatch {rule : RuleId} {mode : ModeId} {branches : List Parser}
    (h : store.catalog.definition? rule = some (.alternation mode branches)) (firstMatch : Bool) :
    Clears rule.grammar (setFirstMatch rule firstMatch) store := by
  refine .get ?_
  dsimp only
  rw [h]
  exact .after (.result (clears_clearCaches _ _) _)

theorem clears_define (id : GrammarId) (name : String) (definition : Parser) (store : Store) :
    Clears id (define id name definition) store := by
  have hset := clears_setDefinition (localRule id name store).1 definition
    (localRule id name store).2
  rw [localRule_grammar] at hset
  exact .after (.result hset _)

theorem clears_extend (id : GrammarId) (name : String) (alternative : Parser) (store : Store) :
    Clears id (extend id name alternative) store := by
  have hadd := clears_addAlternative (localRule id name store).1 alternative
  rw [localRule_grammar] at hadd
  refine .after (.get ?_)
  dsimp only
  split
  · exact .after (.result (hadd _) _)
  · exact .result (hadd _) _

end Edit

inductive Amendment where
  | define (id : GrammarId) (name : String) (definition : Parser)
  | extend (id : GrammarId) (name : String) (alternative : Parser)
  | reconfigure (rule : RuleId) (change : Reconfiguration)

namespace Amendment

def home : Amendment → GrammarId
  | .define id _ _ => id
  | .extend id _ _ => id
  | .reconfigure rule _ => rule.grammar

def apply : Amendment → Edit Unit
  | .define id name definition => discard (Edit.define id name definition)
  | .extend id name alternative => discard (Edit.extend id name alternative)
  | .reconfigure rule change => change.apply rule

def needs : Amendment → Set Handle
  | .define id _ definition => {.grammar id, .parser definition}
  | .extend id _ alternative => {.grammar id, .parser alternative}
  | .reconfigure rule change => insert (.rule rule) change.needs

def Applies (store : Store) : Amendment → Prop
  | .reconfigure rule (.setFirstMatch _) => ∃ mode branches,
    store.catalog.definition? rule = some (.alternation mode branches)
  | _ => True

theorem works_apply (amendment : Amendment) :
    Edit.Works amendment.needs amendment.apply fun _ => ∅ := by
  cases amendment with
  | define id name definition => exact (Edit.works_define id name definition).discarded
  | extend id name alternative => exact (Edit.works_extend id name alternative).discarded
  | reconfigure rule change => exact change.works_apply rule

/-- Every change that applies ends with emptying the caches of the rule's grammar. -/
theorem clears_apply {amendment : Amendment} {store : Store} (h : amendment.Applies store) :
    Edit.Clears amendment.home amendment.apply store := by
  cases amendment with
  | define id name definition => exact (Edit.clears_define id name definition store).discard
  | extend id name alternative => exact (Edit.clears_extend id name alternative store).discard
  | reconfigure rule change =>
    cases change with
    | setDefinition definition => exact Edit.clears_setDefinition rule definition store
    | addAlternative alternative => exact Edit.clears_addAlternative rule alternative store
    | exclude excluded => exact Edit.clears_exclude rule excluded store
    | clearExclusion => exact Edit.clears_updateRule rule _ store
    | setFirstMatch firstMatch =>
      obtain ⟨mode, branches, hdefinition⟩ := h
      exact (Edit.clears_setFirstMatch hdefinition firstMatch).discard

end Amendment

/-- In a session, every grammar lists each of its caches once and those of all that its rules are
made of, and right after any change to one of its rules all of these are empty. -/
theorem Session.Reached.controls_caches {session : Session} (h : session.Reached) {bench : Bench}
    (hsteps : session.bench.Steps bench) :
    bench.store.Controls ∧ ∀ amendment : Amendment, amendment.needs ⊆ bench.held →
      amendment.Applies bench.store → (amendment.apply bench.store).2.Controls ∧
        (amendment.apply bench.store).2.Emptied amendment.home := by
  have hcontrols {bench : Bench} (hsteps : session.bench.Steps bench) : bench.store.Controls := by
    have hstandard : Store.standard.Distinct :=
      Desk.Untouched.standard.revocable Store.Distinct.revocable fun _ => List.nodup_nil
    have hdurable := Store.Distinct.revocable.toDurable
    have hdistinct := hsteps.durable hdurable (h.holds hdurable hstandard)
    exact hdistinct.controls (hsteps.orderly h.orderly).sane
  refine ⟨hcontrols hsteps, fun amendment hneeds happlies => ⟨?_, ?_⟩⟩
  · -- a change is a row of steps itself
    exact hcontrols (hsteps.trans (amendment.works_apply bench hneeds))
  · obtain ⟨between, hbetween⟩ := Amendment.clears_apply happlies
    rw [hbetween]
    exact Store.emptied_clearCaches between amendment.home

/-- The elements of rule text are told apart by an alternation. Once a list of rules has been parsed,
something is remembered of it, and to set the mode of the alternation empties all caches of the
grammar of rule text. -/
theorem Session.Reached.controls_caches_element :
    ∃ (element : RuleId) (bench : Bench) (cache : CacheId) (key : CacheKey) (attempt : Attempt),
      Session.start.bench.Steps bench ∧ (bench.store.cachesOf .abnf).length = 38 ∧
        cache ∈ bench.store.cachesOf .abnf ∧ bench.store.caches.Holds cache key attempt ∧
          bench.store.Controls ∧
          ((Amendment.reconfigure element (.setFirstMatch true)).apply bench.store).2.Controls ∧
            ((Amendment.reconfigure element (.setFirstMatch true)).apply bench.store).2.Emptied
              .abnf := by
  let element : RuleId := ⟨.abnf, 12⟩
  let rulelist : RuleId := ⟨.abnf, 3⟩
  let blank : Source := .ofString "\r\n"
  let amendment : Amendment := .reconfigure element (.setFirstMatch true)
  let parsed := Session.start.bench.edit (Edit.parsing (·.ruleMatches rulelist blank 0))
  have hchecked : Session.start.store.catalog.lookup? .abnf "element" = some element ∧
      (Session.start.store.cachesOf .abnf).length = 38 ∧
      (Edit.setFirstMatch element true Session.start.store).2.catalog.modes.toList ≠
        Session.start.store.catalog.modes.toList ∧
      (Session.start.store.catalog.repetition? rulelist).isSome = true ∧
      Session.start.store.catalog.reportsEnd rulelist blank 2 = true := by
    decide +kernel
  obtain ⟨hlookup, hcount, hset, hisrepetition, hreports⟩ := hchecked
  have happlies : amendment.Applies Session.start.store := by
    rcases Edit.setFirstMatch_snd element true Session.start.store with
      hsame | ⟨mode, branches, hdefinition, -⟩
    · exact absurd (congrArg (·.catalog.modes.toList) hsame) hset
    · exact ⟨mode, branches, hdefinition⟩
  obtain ⟨⟨cache, part⟩, hrepetition⟩ := Option.isSome_iff_exists.1 hisrepetition
  have hsane := Session.Reached.start.orderly.sane
  have hliving : GrammarId.abnf ∈ Session.start.store.living :=
    (Session.Reached.start.orderly.useful _ .abnf).1
  obtain ⟨-, -, attempt, hholds⟩ := Store.Current.remembers (Session.fresh_start.sound_scopeOf _)
    hsane hliving hrepetition hreports
  have hparse : Session.start.bench.Steps parsed := .single (.ruleMatches rulelist blank 0)
  have hheld : .grammar .abnf ∈ parsed.held := Session.Holds.abnf
  have hsteps : Session.start.bench.Steps (parsed.hold (.rule element)) :=
    .tail hparse (.lookup hheld hlookup)
  have hneeds : amendment.needs ⊆ (parsed.hold (.rule element)).held :=
    Set.insert_subset (Set.mem_insert _ _) (Set.empty_subset _)
  obtain ⟨hcontrols, hafter⟩ := Session.Reached.start.controls_caches hsteps
  obtain ⟨slot, bounds, hbound, -⟩ := Catalog.bound_of_repetition? hrepetition
  obtain ⟨hslot, hdefinition⟩ := Catalog.exists_slot_of_bound hbound
  have hlisted : cache ∈ parsed.store.cachesOf .abnf :=
    (hcontrols.listed rulelist _ _ cache hliving
      (Option.bind_eq_some_iff.2 ⟨slot, hslot, hdefinition⟩) .self rfl).1
  have hafterwards := hafter amendment hneeds happlies
  exact ⟨element, _, cache, _, attempt, hsteps, hcount, hlisted, hholds, hcontrols, hafterwards.1,
    hafterwards.2⟩

end Metasyntax
