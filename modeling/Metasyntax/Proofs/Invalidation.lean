import Metasyntax.Proofs.Recall

/-!
# Redefinitions that are seen

A reconfiguration of a rule empties the caches of the rule's grammar. What another grammar
remembers of parses that used the rule is stale from then on, unless its caches are emptied as
well before they are used again.
-/

set_option autoImplicit false

namespace Metasyntax

namespace Edit

def clearAll (ids : List GrammarId) : Edit Unit := ids.forM clearCaches

theorem clearAll_cons (id : GrammarId) (rest : List GrammarId) (store : Store) :
    clearAll (id :: rest) store = clearAll rest (clearCaches id store).2 :=
  rfl

theorem catalog_clearAll (ids : List GrammarId) (store : Store) :
    (clearAll ids store).2.catalog = store.catalog := by
  induction ids generalizing store with
  | nil => rfl
  | cons id rest ih =>
    rw [clearAll_cons, ih]
    rfl

theorem holds_of_holds_clearAll {ids : List GrammarId} {store : Store} {cache : CacheId}
    {key : CacheKey} {attempt : Attempt}
    (h : (clearAll ids store).2.caches.Holds cache key attempt) :
    store.caches.Holds cache key attempt ∧ ∀ id ∈ ids, cache ∉ store.cachesOf id := by
  induction ids generalizing store with
  | nil => exact ⟨h, nofun⟩
  | cons id rest ih =>
    rw [clearAll_cons] at h
    obtain ⟨hfirst, hrest⟩ := ih h
    obtain ⟨hcleared, hholds⟩ := Caches.holds_of_holds_clearAll hfirst
    exact ⟨hholds, List.forall_mem_cons.2 ⟨hcleared, hrest⟩⟩

end Edit

namespace Reconfiguration

variable {held : Set Parser} {store : Store} {rule : RuleId} {change : Reconfiguration}

def needs : Reconfiguration → Set Handle
  | .setDefinition definition => {.parser definition}
  | .addAlternative alternative => {.parser alternative}
  | .exclude excluded => {.rule excluded}
  | .clearExclusion => ∅
  | .setFirstMatch _ => ∅

theorem works_apply (rule : RuleId) (change : Reconfiguration) :
    Edit.Works (insert (.rule rule) change.needs) (change.apply rule) fun _ => ∅ := by
  cases change with
  | setDefinition definition => exact Edit.works_setDefinition rule definition
  | addAlternative alternative => exact Edit.works_addAlternative rule alternative
  | exclude excluded => exact Edit.works_exclude rule excluded
  | clearExclusion =>
    exact .mono (Edit.works_clearExclusion rule) (Set.singleton_subset_iff.2 (Set.mem_insert _ _))
      fun _ => subset_rfl
  | setFirstMatch firstMatch =>
    refine .discarded (.mono (Edit.works_setFirstMatch rule firstMatch) ?_ fun _ => subset_rfl)
    exact Set.singleton_subset_iff.2 (Set.mem_insert _ _)

/-- After a reconfiguration that does anything, the caches of the rule's grammar are empty. -/
theorem turned (hsane : Sane held store) (hliving : rule.grammar ∈ store.living)
    (hneeds : ∀ parser, .parser parser ∈ change.needs → parser ∈ held) :
    (change.apply rule store).2 = store ∨
      Turned rule.grammar ∅ store.catalog held (change.apply rule store).2 := by
  have hloyal := loyal_empty hsane hliving
  have hhome : rule.grammar ∉ (∅ : Set GrammarId) := Set.notMem_empty _
  cases change with
  | setDefinition definition => exact Or.inr (hloyal.setDefinition hhome rfl (hneeds _ rfl))
  | addAlternative alternative => exact Or.inr (hloyal.addAlternative hhome rfl (hneeds _ rfl))
  | exclude excluded => exact Or.inr (hloyal.exclude hhome rfl excluded)
  | clearExclusion => exact Or.inr (hloyal.clearExclusion hhome rfl)
  | setFirstMatch firstMatch =>
    exact hloyal.setFirstMatch rfl firstMatch fun _ _ _ _ ⟨_, _, _, hrule, _⟩ =>
      absurd hrule (Set.notMem_empty _)

end Reconfiguration

/-- When a rule is reconfigured, every cache that another rule leads to afterwards is emptied, if
anything is in it and the reconfiguration concerns it, or it is stale and the other rule did not
lead to it before: by the reconfiguration, or along with the caches of some more grammars. -/
def Store.Invalidates (other : RuleId) (store : Store) (rule : RuleId) (change : Reconfiguration)
    (cleared : List GrammarId) : Prop :=
  let catalog := (change.apply rule store).2.catalog
  ∀ node ∈ (catalog.scopeOf (.rule (catalog.refer other))).nodes,
    (store.catalog.Concerns rule change node ∨
      node ∉ (store.catalog.scopeOf (.rule (store.catalog.refer other))).nodes ∧
        ¬ Sound store.catalog {node} store.caches) →
    ∀ id, node.cache? = some id →
      (∃ grammar ∈ rule.grammar :: cleared, id ∈ (catalog.grammar grammar).registry.members) ∨
        ∀ key attempt, ¬ store.caches.Holds id key attempt

section
variable {held : Set Parser} {store store' : Store} {rule : RuleId}
  {change : Reconfiguration}

theorem Store.mem_cachesOf {id : CacheId} {grammar : GrammarId}
    (h : id ∈ (store.catalog.grammar grammar).registry.members) (halive : id ∉ store.lostCaches) :
    id ∈ store.cachesOf grammar :=
  List.mem_filter.2 ⟨h, Store.cacheAlive_iff.2 halive⟩

theorem Store.Spares.mem_within {modes : Set ModeId} (h : Store.Spares rule modes store store')
    {other : RuleId} (hother : other ≠ rule) (hliving : other.grammar ∈ store'.living) {slot : Slot}
    {definition node : Parser} (hbound : store'.catalog.bound other = .ok (slot, definition))
    (hnode : node ∈ definition.walk) : node ∈ (store.catalog.within store.living).nodes := by
  obtain ⟨hslot, hdefinition⟩ := Catalog.exists_slot_of_bound hbound
  rw [h.slot other hother] at hslot
  refine ⟨other, slot, definition, ?_, Catalog.bound_eq_ok_iff.2 ⟨hslot, hdefinition⟩, hnode⟩
  exact (h.alive _).symm.trans hliving

/-- A cache that holds anything after a reconfiguration was not emptied by it. -/
theorem Reconfiguration.not_mem_registry (hsane : Sane held store) {node : Parser}
    (hnode : node ∈ (store.catalog.within store.living).nodes) {id : CacheId}
    (hid : node.cache? = some id) (hnoop : (change.apply rule store).2 ≠ store) {key : CacheKey}
    {attempt : Attempt} (hholds : (change.apply rule store).2.caches.Holds id key attempt) :
    id ∉ ((change.apply rule store).2.catalog.grammar rule.grammar).registry.members := by
  intro hregistry
  rcases change.apply_cases rule store with heq | ⟨between, hspares, heq⟩
  · exact hnoop heq
  · rw [heq] at hholds hregistry
    refine (Caches.holds_of_holds_clearAll hholds).1 (Store.mem_cachesOf hregistry ?_)
    rw [hspares.lostCaches]
    exact hsane.alive node (Or.inr hnode) id hid

theorem Store.mem_within_of_mem_scopeOf {other : RuleId} {node : Parser}
    (hnode : node ∈ (store.catalog.scopeOf (.rule (store.catalog.refer other))).nodes)
    {id : CacheId} (hid : node.cache? = some id) :
    node ∈ (store.catalog.within store.living).nodes := by
  rcases Store.mem_scopeOf hnode with hnode | hnode
  · cases List.mem_singleton.1 hnode
    cases hid
  · exact hnode

theorem Store.enclosed_living (store : Store) : store.catalog.Enclosed store.living where
  target _ _ _ _ _ _ _ _ h := Catalog.eq_of_resolve h ▸ Catalog.alive_of_resolve h
  exclusion _ _ _ _ _ _ _ _ h := Catalog.eq_of_resolve h ▸ Catalog.alive_of_resolve h

namespace Store.Current

variable {other : RuleId}

/-- What is not concerned by a reconfiguration is remembered as rightly after it as before. -/
theorem explore_of_reconfigure (h : store.Current other) (hsane : Sane held store) {node : Parser}
    (hnode : node ∈ (store.catalog.within store.living).nodes)
    (hspared : ¬ (store.catalog.Concerns rule change node ∨
      node ∉ (store.catalog.scopeOf (.rule (store.catalog.refer other))).nodes ∧
        ¬ Sound store.catalog {node} store.caches))
    {id : CacheId} (hid : node.cache? = some id) {key : CacheKey} {attempt : Attempt}
    (hholds : store.caches.Holds id key attempt) :
    node.explore (change.apply rule store).2.catalog.firstMatch
      ((change.apply rule store).2.catalog.settled key.source) key.source key.start =
        .ok attempt := by
  obtain ⟨hconcerns, hcurrent⟩ := not_or.1 hspared
  have hsound : Sound store.catalog {node} store.caches := by
    by_cases hscope : node ∈ (store.catalog.scopeOf (.rule (store.catalog.refer other))).nodes
    · exact h.mono (Set.singleton_subset_iff.2 hscope)
    · exact not_not.1 fun hstale => hcurrent ⟨hscope, hstale⟩
  have huses : store.Uses held node := fun part hpart => Or.inl (Or.inr (by
    obtain ⟨rule', slot', definition', -, hbound', hnode'⟩ := hnode
    exact ⟨rule', slot', definition', trivial, hbound', definition'.walk_trans hnode' hpart⟩))
  have hsame := Reconfiguration.same hconcerns fun mode branches =>
    hsane.mode_lt_of_mem_scopeOf huses
  exact hsame.explore_eq_ok (store.catalog.closed_scopeOf node) (Or.inl node.self_mem_walk)
    (hsound node rfl id hid key attempt hholds)

/-- No cache is stale that a rule leads to after a reconfiguration, when those are emptied that it
makes stale. -/
theorem reconfigure (h : store.Current other) (hsane : Sane held store)
    (hliving : rule.grammar ∈ store.living)
    (hneeds : ∀ parser, .parser parser ∈ change.needs → parser ∈ held) {cleared : List GrammarId}
    (hclears : store.Invalidates other rule change cleared) :
    (Edit.clearAll cleared (change.apply rule store).2).2.Current other := by
  have hspares := change.spares rule store
  intro node hscope id hid key attempt hholds
  have hcatalog := Edit.catalog_clearAll cleared (change.apply rule store).2
  rw [hcatalog] at hscope ⊢
  obtain ⟨hholds, huncleared⟩ := Edit.holds_of_holds_clearAll hholds
  by_cases hnoop : (change.apply rule store).2 = store
  · rw [hnoop] at hscope hholds ⊢
    exact h node hscope id hid key attempt hholds
  · have hturned := (Reconfiguration.turned hsane hliving hneeds).resolve_left hnoop
    obtain ⟨owner, slot, definition, howner, hbound, hwalk⟩ :=
      Store.mem_within_of_mem_scopeOf hscope hid
    by_cases hhome : owner.grammar = rule.grammar
    · exact absurd hholds
        (hturned.fresh node ⟨owner, slot, definition, hhome, hbound, hwalk⟩ id hid key attempt)
    -- Rules of other grammars are as they were; what matters is whether they lead to the rule.
    · have hnode := hspares.mem_within (fun heq => hhome (heq ▸ rfl)) howner hbound hwalk
      have hbefore := hspares.holds id key attempt hholds
      by_cases hspared : store.catalog.Concerns rule change node ∨
          node ∉ (store.catalog.scopeOf (.rule (store.catalog.refer other))).nodes ∧
            ¬ Sound store.catalog {node} store.caches
      · rcases hclears node hscope hspared id hid with ⟨grammar, hgrammar, hregistry⟩ | hempty
        · rcases List.mem_cons.1 hgrammar with rfl | hgrammar
          · exact absurd hregistry (Reconfiguration.not_mem_registry hsane hnode hid hnoop hholds)
          · refine absurd (Store.mem_cachesOf hregistry ?_) (huncleared grammar hgrammar)
            rw [hspares.lostCaches]
            exact hsane.alive node (Or.inr hnode) id hid
        · exact absurd hbefore (hempty key attempt)
      · exact h.explore_of_reconfigure hsane hnode hspared hid hbefore

theorem ruleMatches (h : store.Current other) (hsane : Sane held store) (rule : RuleId)
    (source : Source) (start : Nat) :
    (Edit.parsing (·.ruleMatches rule source start) store).2.Current other :=
  have huses := store.uses_rule held (store.catalog.refer other)
  (respects_ruleMatches store.catalog rule source start _ (store.catalog.closed_scopeOf _)
    (hsane.apart_scopeOf huses) (hsane.apart_definition_scopeOf huses) _ store.caches ⟨h, rfl⟩).1.1

/-- After a match of a repetition, its cache is not empty, and it parses as it does without. -/
theorem remembers (h : store.Current other) (hsane : Sane held store)
    (hliving : other.grammar ∈ store.living) {cache : CacheId} {element : Parser}
    (hrepetition : store.catalog.repetition? other = some (cache, element)) {source : Source} {e : Nat}
    (hreports : store.catalog.reportsEnd other source e = true) :
    (Edit.parsing (·.ruleMatches other source 0) store).2.Current other ∧
      (Edit.parsing (·.ruleMatches other source 0) store).2.ParsesAnew other ∧
        ∃ attempt, (Edit.parsing (·.ruleMatches other source 0) store).2.caches.Holds cache
          ⟨source, 0⟩ attempt := by
  have hafter := h.ruleMatches hsane other source 0
  obtain ⟨slot, bounds, hbound, hexclusion⟩ := Catalog.bound_of_repetition? hrepetition
  obtain ⟨found, hfound, -⟩ := (h.parsesAnew hsane hliving).reports_iff.2 hreports
  obtain ⟨recalled, hholds, -⟩ :=
    exists_holds_of_ruleMatches hliving hbound hexclusion (hsane.cache_lt_of_bound hbound) hfound
  have hsane' : Sane held (Edit.parsing (·.ruleMatches other source 0) store).2 :=
    calm_sane.parsing (fun catalog => respects_ruleMatches catalog other source 0) store hsane
  exact ⟨hafter, hafter.parsesAnew hsane' hliving, _, hholds⟩

/-- What is got ready without a trace makes no cache stale. -/
theorem quiet (h : store.Current other) (hquiet : Quiet store store') : store'.Current other := by
  intro node hnode id hid key attempt hholds
  have hclosed := (store.catalog.closed_scopeOf (.rule (store.catalog.refer other))).agrees
    hquiet.agrees
  have hscope := hclosed.mem_of_mem_scopeOf_refer
    (fun halive => mem_rules_scopeOf_refer (hquiet.agrees.lost _ halive)) hnode hid
  exact Catalog.explore_of_subsumed store.enclosed_living
    (hquiet.agrees.mono (Set.subset_univ _)).completes.toSubsumed
    (Store.mem_within_of_mem_scopeOf hscope hid)
    (h node hscope id hid key attempt (hquiet.holds id key attempt hholds))

end Store.Current

/-- It is enough to empty the caches of all grammars whose rules the other rule leads to. -/
theorem Store.invalidates_of_grammars (hsane : Sane held store)
    (hliving : rule.grammar ∈ store.living)
    (hneeds : ∀ parser, .parser parser ∈ change.needs → parser ∈ held) {other : RuleId}
    {cleared : List GrammarId}
    (hgrammars : ∀ owner ∈ ((change.apply rule store).2.catalog.scopeOf
      (.rule ((change.apply rule store).2.catalog.refer other))).rules,
        owner.grammar ∈ rule.grammar :: cleared) :
    store.Invalidates other rule change cleared := by
  have hafter : Sane held (change.apply rule store).2 := by
    rcases Reconfiguration.turned hsane hliving hneeds with hnoop | hturned
    · rw [hnoop]
      exact hsane
    · exact hturned.sane
  intro node hnode _ id hid
  obtain hnode | ⟨ref, owner, slot, definition, hleads, hresolve, hbound, hnode⟩ := hnode
  · cases List.mem_singleton.1 hnode
    cases hid
  · have halive : owner.grammar ∈ (change.apply rule store).2.living := by
      rw [Catalog.eq_of_resolve hresolve]
      exact Catalog.alive_of_resolve hresolve
    have hlost := hafter.alive node (Or.inr ⟨owner, slot, definition, halive, hbound, hnode⟩) id hid
    have hregistered := hafter.registered owner.grammar node
      ⟨owner, slot, definition, rfl, hbound, hnode⟩ id hid hlost
    exact Or.inl ⟨owner.grammar, hgrammars owner ⟨ref, hleads, hresolve⟩, hregistered⟩

end

namespace Bench

inductive Turn (allowed : Store → RuleId → Reconfiguration → List GrammarId → Prop)
    (bench : Bench) : Bench → Prop where
  | prepare {bench' : Bench} : bench.Step bench' → Quiet bench.store bench'.store →
    Turn allowed bench bench'
  | parse (rule : RuleId) (source : Source) (start : Nat) :
    Turn allowed bench (bench.edit (Edit.parsing (·.ruleMatches rule source start)))
  | reconfigure {rule : RuleId} {change : Reconfiguration} {cleared : List GrammarId} :
    .rule rule ∈ bench.held → change.needs ⊆ bench.held →
      allowed bench.store rule change cleared →
        Turn allowed bench ((bench.edit (change.apply rule)).edit (Edit.clearAll cleared))

abbrev Turns (allowed : Store → RuleId → Reconfiguration → List GrammarId → Prop) :
    Bench → Bench → Prop :=
  Relation.ReflTransGen (Turn allowed)

variable {allowed : Store → RuleId → Reconfiguration → List GrammarId → Prop}
  {bench bench' : Bench}

theorem steps_clearAll (bench : Bench) (ids : List GrammarId) :
    bench.Steps (bench.edit (Edit.clearAll ids)) := by
  induction ids generalizing bench with
  | nil => exact .refl
  | cons id rest ih => exact (ih (bench.edit (Edit.clearCaches id))).head (.clearCaches id)

theorem Turn.steps (h : bench.Turn allowed bench') : bench.Steps bench' := by
  cases h with
  | prepare hstep _ => exact .single hstep
  | parse rule source start => exact .single (.ruleMatches rule source start)
  | @reconfigure rule change cleared hrule hneeds _ =>
    have happly := change.works_apply rule bench (Set.insert_subset hrule hneeds)
    rw [Does, Set.union_empty] at happly
    exact happly.trans (steps_clearAll _ cleared)

theorem Turn.current {rule : RuleId} (h : bench.Turn (Store.Invalidates rule) bench')
    (horderly : bench.Orderly) (hcurrent : bench.store.Current rule) : bench'.store.Current rule := by
  cases h with
  | prepare _ hquiet => exact hcurrent.quiet hquiet
  | parse other source start => exact hcurrent.ruleMatches horderly.sane other source start
  | reconfigure hrule hneeds hclears =>
    exact hcurrent.reconfigure horderly.sane (horderly.useful _ hrule).1
      (fun parser hparser => hneeds hparser) hclears

theorem Turns.current {rule : RuleId} (h : bench.Turns (Store.Invalidates rule) bench')
    (horderly : bench.Orderly) (hcurrent : bench.store.Current rule) :
    bench'.Orderly ∧ bench'.store.Current rule := by
  induction h with
  | refl => exact ⟨horderly, hcurrent⟩
  | tail _ hturn ih => exact ⟨hturn.steps.orderly ih.1, hturn.current ih.1 ih.2⟩

/-- A program that holds a grammar can define a rule of it anew, as a terminal, and empty the caches
of some grammars. -/
theorem exists_turns_redefine {id : GrammarId} (hid : .grammar id ∈ bench.held) {name : String}
    {rule : RuleId} (hlookup : bench.store.catalog.lookup? id name = some rule) (terminal : Literal)
    {cleared : List GrammarId}
    (hallowed : allowed bench.store rule (.setDefinition (.literal terminal)) cleared) :
    ∃ held, bench.Turns allowed ⟨(Edit.clearAll cleared
      (Edit.setDefinition rule (.literal terminal) bench.store).2).2, held⟩ := by
  let ready := (bench.hold (.rule rule)).hold (.parser (.literal terminal))
  have hrule : bench.Turn allowed (bench.hold (.rule rule)) :=
    .prepare (.lookup hid hlookup) (.refl _)
  have hparser : (bench.hold (.rule rule)).Turn allowed ready :=
    .prepare (.literal terminal) (.refl _)
  have hheld : .rule rule ∈ ready.held := Set.mem_insert_of_mem _ (Set.mem_insert _ _)
  have hneeds : (Reconfiguration.setDefinition (.literal terminal)).needs ⊆ ready.held :=
    Set.singleton_subset_iff.2 (Set.mem_insert _ _)
  have hredefine := Turn.reconfigure hheld hneeds hallowed
  exact ⟨ready.held, .tail (.tail (.single hrule) hparser) hredefine⟩

/-- Defining a rule anew is seen by another rule when the caches of all grammars are emptied whose
rules that one leads to. -/
theorem exists_turns_invalidating (h : bench.Orderly) {id : GrammarId}
    (hid : .grammar id ∈ bench.held) {name : String} {rule other : RuleId}
    (hlookup : bench.store.catalog.lookup? id name = some rule)
    (hliving : rule.grammar ∈ bench.store.living) (terminal : Literal) {rules : List RuleId}
    {home : GrammarId} (hconfined : (Edit.setDefinition rule (.literal terminal)
      bench.store).2.catalog.isConfined home rules = true) (hother : other ∈ rules)
    {cleared : List GrammarId}
    (hcleared : ∀ owner ∈ rules, owner.grammar ∈ rule.grammar :: cleared) :
    ∃ held, bench.Turns (Store.Invalidates other) ⟨(Edit.clearAll cleared
      (Edit.setDefinition rule (.literal terminal) bench.store).2).2, held⟩ := by
  have hsane := h.sane.hold_leaf (show (Parser.literal terminal).walk = _ from rfl) rfl nofun
  refine exists_turns_redefine hid hlookup terminal (Store.invalidates_of_grammars hsane hliving
    (fun parser hparser => ?_) ?_)
  · exact Or.inl (Handle.parser.inj hparser)
  · rintro owner ⟨ref, hleads, hresolve⟩
    have hmem := Catalog.target_mem_of_isConfined hconfined hother hleads
    rw [← Catalog.eq_of_resolve hresolve] at hmem
    exact hcleared owner hmem

end Bench

/-- A session in which a repetition in one grammar repeats a rule of another, which may be defined
anew. -/
theorem Session.exists_repeating_digits :
    let digit : RuleId := ⟨.core, 7⟩
    let digits : RuleId := ⟨.abnf, 24⟩
    let redefined (store : Store) : Store :=
      (Edit.setDefinition digit (.literal ⟨.text "x", false⟩) store).2
    ∃ session : Session, session.Reached ∧ session.store.Fresh ∧
      session.store.catalog.repeatsApart digit digits = true ∧
      session.store.catalog.local? .core "DIGIT" = some digit ∧
      session.store.catalog.local? .abnf "digits" = some digits ∧
      session.store.catalog.reportsEnd digits (.ofString "1") 1 = true ∧
      (redefined session.store).catalog.reportsEnd digits (.ofString "1") 1 = false ∧
      (redefined session.store).catalog.isConfined .abnf [digits, digit] = true := by
  intro digit digits redefined
  let check (session : Session) : Bool :=
    session.store.caches.all (·.isEmpty) && session.store.catalog.repeatsApart digit digits &&
      decide (session.store.catalog.local? .core "DIGIT" = some digit) &&
      decide (session.store.catalog.local? .abnf "digits" = some digits) &&
      session.store.catalog.reportsEnd digits (.ofString "1") 1 &&
      !(redefined session.store).catalog.reportsEnd digits (.ofString "1") 1 &&
      (redefined session.store).catalog.isConfined .abnf [digits, digit]
  have hcheck : (Session.start.carryOut [.define "abnf" "digits" (.repetition ⟨1, none⟩ ⟨8, by decide⟩
      (.rule (.named "core" "DIGIT"))) none]).any check = true := by
    decide +kernel
  obtain ⟨session, hcarry, hcheck⟩ := (Option.any_eq_true _ _).1 hcheck
  simp only [check, Bool.and_eq_true, decide_eq_true_eq, Bool.not_eq_true'] at hcheck
  obtain ⟨⟨⟨⟨⟨⟨hempty, hapart⟩, hdigit⟩, hdigits⟩, hbefore⟩, hafter⟩, hconfined⟩ := hcheck
  exact ⟨session, Session.Reached.start.carryOut hcarry, .of_all_isEmpty hempty, hapart, hdigit,
    hdigits, hbefore, hafter, hconfined⟩

/-- In a session in which a rule leads to no stale cache, after any run of parses and
reconfigurations each of which empties what it makes stale as far as the rule leads, the rule
parses as it does without caches. -/
theorem Session.Reached.redefinition_seen {session : Session} (h : session.Reached) {rule : RuleId}
    (hcurrent : session.store.Current rule) {bench : Bench}
    (hturns : session.bench.Turns (Store.Invalidates rule) bench)
    (hliving : rule.grammar ∈ bench.store.living) : bench.store.ParsesAnew rule := by
  obtain ⟨horderly, hcurrent⟩ := hturns.current h.orderly hcurrent
  exact hcurrent.parsesAnew horderly.sane hliving

theorem Session.Reached.redefinition_seen_digits :
    ∃ (session : Session) (digits : RuleId) (parsed bench : Bench) (id : CacheId) (key : CacheKey)
      (attempt : Attempt), session.Reached ∧ session.store.Current digits ∧
        session.bench.Turns (Store.Invalidates digits) parsed ∧
        parsed.store.caches.Holds id key attempt ∧ parsed.store.Reports digits (.ofString "1") 0 1 ∧
        parsed.Turns (Store.Invalidates digits) bench ∧ digits.grammar ∈ bench.store.living ∧
        bench.store.ParsesAnew digits ∧ ¬ bench.store.Reports digits (.ofString "1") 0 1 := by
  let digit : RuleId := ⟨.core, 7⟩
  let digits : RuleId := ⟨.abnf, 24⟩
  let one : Source := .ofString "1"
  let terminal : Literal := ⟨.text "x", false⟩
  obtain ⟨session, hreached, hfresh, hapart, hdigit, -, hbefore, hafter, hconfined⟩ :=
    Session.exists_repeating_digits
  have hcurrent : session.store.Current digits := hfresh.sound_scopeOf _
  obtain ⟨cache, ref, hrepetition, -, halive, hliving, -⟩ := Catalog.exists_of_repeatsApart hapart
  have hsane := hreached.orderly.sane
  let parsed := session.bench.edit (Edit.parsing (·.ruleMatches digits one 0))
  have hparse : session.bench.Turns (Store.Invalidates digits) parsed := .single (.parse digits one 0)
  obtain ⟨hcurrent', hanew', attempt, hholds⟩ := hcurrent.remembers hsane hliving hrepetition hbefore
  have hagain : parsed.store.Reports digits one 0 1 := hanew'.reports_iff.2 hbefore
  have horderly : parsed.Orderly := (hparse.current hreached.orderly hcurrent).1
  have hcatalog := (Edit.blind_setDefinition digit (.literal terminal) _ _
    (.ruleMatches session.store digits one 0)).2.catalog
  rw [← hcatalog] at hafter hconfined
  have hcore : .grammar .core ∈ parsed.held := Session.Holds.core
  have hlookup : parsed.store.catalog.lookup? .core "DIGIT" = some digit :=
    Catalog.lookup?_of_local hdigit
  have halive' : digit.grammar ∈ parsed.store.living := halive
  have hcleared : ∀ owner ∈ [digits, digit], owner.grammar ∈ digit.grammar :: [.abnf] := by decide
  obtain ⟨held, hturns⟩ := Bench.exists_turns_invalidating horderly hcore hlookup halive' terminal
    hconfined List.mem_cons_self hcleared
  let redefined := (Edit.setDefinition digit (.literal terminal) parsed.store).2
  let cleared := (Edit.clearAll [.abnf] redefined).2
  have hsame : cleared.catalog = redefined.catalog := Edit.catalog_clearAll _ _
  have hliving' : digits.grammar ∈ cleared.living := by
    have hspares := (Reconfiguration.setDefinition (.literal terminal)).spares digit parsed.store
    rw [Store.living, hsame]
    exact (hspares.alive _).trans hliving
  have hanew : cleared.ParsesAnew digits :=
    hreached.redefinition_seen hcurrent (hparse.trans hturns) hliving'
  have hnot : ¬ cleared.Reports digits one 0 1 := by
    rw [hanew.reports_iff, hsame]
    exact ne_true_of_eq_false hafter
  exact ⟨session, digits, parsed, ⟨cleared, held⟩, cache, ⟨one, 0⟩, attempt, hreached, hcurrent,
    hparse, hholds, hagain, hturns, hliving', hanew, hnot⟩

def Store.Redefines (rule : RuleId) (_ : Store) (target : RuleId) (_ : Reconfiguration)
    (cleared : List GrammarId) : Prop :=
  target = rule ∧ cleared = []

/-- A repetition in one grammar goes on answering what it remembers of a rule of another grammar
that has been defined anew. -/
theorem redefinition_unseen_by_repetition : ¬ ∀ (session : Session) (rule other : RuleId)
    (bench : Bench), session.Reached → session.store.Fresh →
      rule ∈ (session.store.catalog.scopeOf
        (.rule (session.store.catalog.refer other))).rules →
        other.grammar ∈ session.store.living → other.grammar ≠ rule.grammar →
          session.bench.Turns (Store.Redefines rule) bench →
            bench.store.ParsesAnew other := by
  intro hall
  let digit : RuleId := ⟨.core, 7⟩
  let digits : RuleId := ⟨.abnf, 24⟩
  let one : Source := .ofString "1"
  let terminal : Literal := ⟨.text "x", false⟩
  obtain ⟨session, hreached, hfresh, hapart, hdigit, -, hbefore, hafter, -⟩ :=
    Session.exists_repeating_digits
  obtain ⟨cache, ref, hrepetition, href, halive, hliving, -⟩ := Catalog.exists_of_repeatsApart hapart
  obtain ⟨slot, bounds, hbound, -⟩ := Catalog.bound_of_repetition? hrepetition
  have hleads : digit ∈ (session.store.catalog.scopeOf
      (.rule (session.store.catalog.refer digits))).rules := by
    refine ⟨ref, .definition (Catalog.leads_self _ _) (if_pos hliving) hbound ?_, ?_⟩
    · exact Parser.mem_references.2 (List.mem_cons_of_mem _ (Parser.self_mem_walk _))
    · rw [Catalog.resolve, href]
      exact if_pos halive
  let parsed := session.bench.edit (Edit.parsing (·.ruleMatches digits one 0))
  let stale := (Edit.setDefinition digit (.literal terminal) parsed.store).2
  have hparse : session.bench.Turn (Store.Redefines digit) parsed := .parse digits one 0
  have hlookup : parsed.store.catalog.lookup? .core "DIGIT" = some digit :=
    Catalog.lookup?_of_local hdigit
  have hcore : .grammar .core ∈ parsed.held := Session.Holds.core
  have hallowed : Store.Redefines digit parsed.store digit (.setDefinition (.literal terminal)) [] :=
    ⟨rfl, rfl⟩
  obtain ⟨held, hredefine⟩ := Bench.exists_turns_redefine hcore hlookup terminal hallowed
  have hanew : stale.ParsesAnew digits :=
    hall session digit digits ⟨stale, held⟩ hreached hfresh hleads hliving (by decide)
      (hredefine.head hparse)
  have hrecalled : stale.Reports digits one 0 1 :=
    Store.Current.reports_after_redefinition (hfresh.sound_scopeOf _) hreached.orderly.sane
      (by decide) hapart hbefore terminal
  have hreported : stale.catalog.reportsEnd digits one 1 = true := hanew.reports_iff.1 hrecalled
  cases hafter.symm.trans hreported

end Metasyntax
