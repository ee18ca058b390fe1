import Metasyntax.Proofs.Confinement
import Metasyntax.Proofs.Likeness

/-!
# What a repetition recalls

A repetition answers from its cache until that is emptied. A rule that is defined anew empties
the caches of its own grammar, so a repetition in another grammar goes on reporting what it has
found before.
-/

set_option autoImplicit false

namespace Metasyntax

section
variable {catalog : Catalog} {rule : RuleId} {slot : Slot} {id : CacheId} {bounds : Bounds}
  {element : Parser} (halive : catalog.alive rule.grammar = true)
  (hbound : catalog.bound rule = .ok (slot, .repetition id bounds element))
  (hexclusion : slot.exclusion = none)
include halive hbound hexclusion

/-- What is matched once is remembered. -/
theorem exists_holds_of_ruleMatches {source : Source} {start : Nat} {caches : Caches}
    (hid : id.index < caches.size) {found : MatchSet}
    (h : ((catalog.ruleMatches rule source start : Run Attempt).run caches).1 = .ok (.ok found)) :
    ∃ found', ((catalog.ruleMatches rule source start : Run Attempt).run caches).2.Holds id
      ⟨source, start⟩ (.ok found') ∧ found'.stops = found.stops := by
  have hsize : ((catalog.ruleMatches rule source start : Run Attempt).run caches).2.size =
      caches.size :=
    (call_keeps_size catalog _ _ source (catalog.refer rule) start caches rfl).1
  obtain ⟨depth, named, hnamed, hrun⟩ :=
    exists_run_ruleMatches halive hbound hexclusion source start
  rw [hrun] at h hsize ⊢
  rcases hanswer : (remembered id ⟨source, start⟩ _).run caches with ⟨error | attempt, caches'⟩
  · rw [Run.run_bind_error hanswer] at h
    cases h
  · rw [Run.run_bind_ok hanswer] at h hsize ⊢
    have hholds := holds_remembered hanswer (hid.trans_eq hsize.symm)
    have hstops := hnamed attempt
    rw [show named attempt = .ok found from Except.ok.inj h] at hstops
    cases attempt with
    | ok found' => exact ⟨found', hholds, (Option.some.inj hstops).symm⟩
    | error failure => cases hstops

/-- What is remembered is matched again, whatever the rules are by now. -/
theorem exists_ruleMatches_of_holds {source : Source} {start : Nat} {caches : Caches}
    {found : MatchSet} (hholds : caches.Holds id ⟨source, start⟩ (.ok found)) :
    ∃ found', ((catalog.ruleMatches rule source start : Run Attempt).run caches).1 =
      .ok (.ok found') ∧ found'.stops = found.stops := by
  obtain ⟨depth, named, hnamed, hrun⟩ :=
    exists_run_ruleMatches halive hbound hexclusion source start
  rw [hrun, Run.run_bind_ok (run_remembered_hit hholds _)]
  have hstops := hnamed (.ok found)
  cases hanswer : named (.ok found) with
  | ok found' =>
    rw [hanswer] at hstops
    exact ⟨found', rfl, Option.some.inj hstops⟩
  | error failure =>
    rw [hanswer] at hstops
    cases hstops

end

theorem Store.Alike.matchesOf (store : Store) (parser : Parser) (source : Source) (start : Nat) :
    store.Alike (Edit.parsing (·.matchesOf parser source start) store).2 where
  catalog := rfl
  lost := rfl
  size := (matchesOf_keeps_size store.catalog parser source start _ store.caches rfl).1

/-- What a repetition answers by itself it remembers. -/
theorem holds_of_matchesOf {catalog : Catalog} {id : CacheId} {bounds : Bounds} {element : Parser}
    {source : Source} {start : Nat} {caches : Caches} (hid : id.index < caches.size)
    {attempt : Attempt} (h : ((catalog.matchesOf (.repetition id bounds element) source start :
      Run Attempt).run caches).1 = .ok attempt) :
    ((catalog.matchesOf (.repetition id bounds element) source start : Run Attempt).run
      caches).2.Holds id ⟨source, start⟩ attempt := by
  have hsize := (matchesOf_keeps_size catalog (.repetition id bounds element) source start caches.size
    caches rfl).1
  rcases hrun : (catalog.matchesOf (.repetition id bounds element) source start : Run Attempt).run
    caches with ⟨result, caches'⟩
  rw [hrun] at h hsize
  obtain rfl : result = .ok attempt := h
  rw [Catalog.matchesOf, Parser.enumerate] at hrun
  exact holds_remembered hrun (hid.trans_eq hsize.symm)

def Catalog.repetition? (catalog : Catalog) (rule : RuleId) : Option (CacheId × Parser) :=
  match catalog.bound rule with
  | .ok (⟨_, _, none⟩, .repetition cache _ element) => some (cache, element)
  | _ => none

theorem Catalog.bound_of_repetition? {catalog : Catalog} {rule : RuleId} {cache : CacheId}
    {element : Parser} (h : catalog.repetition? rule = some (cache, element)) : ∃ slot bounds,
      catalog.bound rule = .ok (slot, .repetition cache bounds element) ∧ slot.exclusion = none := by
  rw [repetition?] at h
  split at h
  case h_1 name definition _ bounds _ hbound =>
    cases h
    exact ⟨_, bounds, hbound, rfl⟩
  case h_2 => cases h

def Catalog.repeatsApart (catalog : Catalog) (rule other : RuleId) : Bool :=
  match catalog.repetition? other with
  | some (cache, .rule ref) =>
    decide (ref.target = rule) && catalog.alive rule.grammar && catalog.alive other.grammar &&
      !(catalog.grammar rule.grammar).registry.members.contains cache
  | _ => false

theorem Catalog.exists_of_repeatsApart {catalog : Catalog} {rule other : RuleId}
    (h : catalog.repeatsApart rule other = true) : ∃ cache ref,
      catalog.repetition? other = some (cache, .rule ref) ∧ ref.target = rule ∧
        catalog.alive rule.grammar = true ∧ catalog.alive other.grammar = true ∧
          cache ∉ (catalog.grammar rule.grammar).registry.members := by
  rw [repeatsApart] at h
  split at h
  case h_1 cache ref hrepetition =>
    simp only [Bool.and_eq_true, decide_eq_true_eq, Bool.not_eq_true', ← Bool.not_eq_true,
      List.contains_iff_mem] at h
    exact ⟨cache, ref, hrepetition, h.1.1.1, h.1.1.2, h.1.2, h.2⟩
  case h_2 => cases h

theorem Sane.cache_lt_of_bound {held : Set Parser} {store : Store} (h : Sane held store)
    {rule : RuleId} {slot : Slot} {cache : CacheId} {bounds : Bounds} {element : Parser}
    (hbound : store.catalog.bound rule = .ok (slot, .repetition cache bounds element)) :
    cache.index < store.caches.size :=
  h.cache_lt _ (Or.inr ⟨rule, slot, _, trivial, hbound, Parser.self_mem_walk _⟩) cache rfl

/-- A literal has no caches to be registered. -/
theorem registry_setDefinition_literal (rule : RuleId) (terminal : Literal) (store : Store)
    (id : GrammarId) :
    ((Edit.setDefinition rule (.literal terminal) store).2.catalog.grammar id).registry =
      (store.catalog.grammar id).registry := by
  have hadopt : (Edit.adopt rule.grammar (.literal terminal) store).2 =
      (Edit.modifyGrammar rule.grammar (fun grammar =>
        { grammar with registry := grammar.registry.registerAll store.cacheAlive [] }) store).2 :=
    rfl
  have hregistry : ((Edit.adopt rule.grammar (.literal terminal) store).2.catalog.grammar
      id).registry = (store.catalog.grammar id).registry := by
    rw [hadopt, Edit.grammar_modifyGrammar]
    split
    case isTrue h => rw [h.1]; rfl
    case isFalse => rfl
  have hupdate : (Edit.setDefinition rule (.literal terminal) store).2.catalog =
      (Edit.modifyTable rule.grammar (·.update rule.slot fun slot =>
        { slot with definition := some (.literal terminal) })
          (Edit.adopt rule.grammar (.literal terminal) store).2).2.catalog := rfl
  rw [hupdate, Edit.registry_modifyTable, hregistry]

/-- What is remembered outlasts a redefinition in a grammar that the cache is not registered with. -/
theorem holds_setDefinition_literal {store : Store} {rule : RuleId} {cache : CacheId}
    (hforeign : cache ∉ (store.catalog.grammar rule.grammar).registry.members) {key : CacheKey}
    {attempt : Attempt} (h : store.caches.Holds cache key attempt) (terminal : Literal) :
    (Edit.setDefinition rule (.literal terminal) store).2.caches.Holds cache key attempt := by
  have hcaches : (Edit.setDefinition rule (.literal terminal) store).2.caches =
      ((Edit.setDefinition rule (.literal terminal) store).2.cachesOf rule.grammar).foldl
        (fun caches cache => caches.modify cache.index (·.clear)) store.caches := rfl
  rw [hcaches]
  refine h.clearAll fun hmem => hforeign ?_
  rw [← registry_setDefinition_literal rule terminal store]
  exact (List.mem_filter.1 hmem).1

/-- What a repetition in one grammar has matched it goes on matching after what it repeats has been
defined anew in another. -/
theorem Store.Current.reports_after_redefinition {held : Set Parser} {store : Store}
    {rule other : RuleId} (hcurrent : store.Current other) (hsane : Sane held store)
    (hne : other ≠ rule) (hapart : store.catalog.repeatsApart rule other = true) {source : Source}
    {e : Nat}
    (hbefore : store.catalog.reportsEnd other source e = true) (terminal : Literal) :
    (Edit.setDefinition rule (.literal terminal)
      (Edit.parsing (·.ruleMatches other source 0) store).2).2.Reports other source 0 e := by
  obtain ⟨cache, ref, hrepetition, -, -, hliving, hforeign⟩ := Catalog.exists_of_repeatsApart hapart
  obtain ⟨slot, bounds, hbound, hexclusion⟩ := Catalog.bound_of_repetition? hrepetition
  obtain ⟨found, hfound, he⟩ := (hcurrent.parsesAnew hsane hliving).reports_iff.2 hbefore
  obtain ⟨recalled, hrecalled, hstops⟩ :=
    exists_holds_of_ruleMatches hliving hbound hexclusion (hsane.cache_lt_of_bound hbound) hfound
  let parsed := (Edit.parsing (·.ruleMatches other source 0) store).2
  have hparsed : parsed.caches.Holds cache ⟨source, 0⟩ (.ok recalled) := hrecalled
  have hunregistered : cache ∉ (parsed.catalog.grammar rule.grammar).registry.members := hforeign
  have hstale := holds_setDefinition_literal hunregistered hparsed terminal
  have hspares := (Reconfiguration.setDefinition (.literal terminal)).spares rule parsed
  obtain ⟨hslot, hdefinition⟩ := Catalog.exists_slot_of_bound hbound
  obtain ⟨found', hfound', hstops'⟩ := exists_ruleMatches_of_holds
    ((hspares.alive _).trans hliving)
    (Catalog.bound_eq_ok_iff.2 ⟨(hspares.slot other hne).trans hslot, hdefinition⟩) hexclusion hstale
  exact ⟨found', hfound', hstops'.trans hstops ▸ he⟩

/-- A program that holds a grammar can make stale what a repetition of another grammar remembers of
the grammar's rules. -/
theorem Bench.Orderly.exists_stale {bench : Bench} (h : bench.Orderly) {rule other : RuleId}
    (hcurrent : bench.store.Current other) (hne : other ≠ rule)
    (hapart : bench.store.catalog.repeatsApart rule other = true) {owner : GrammarId}
    {known : String} (howner : .grammar owner ∈ bench.held)
    (hlookup : bench.store.catalog.lookup? owner known = some rule) (terminal : Literal)
    {source : Source} {e : Nat} (hbefore : bench.store.catalog.reportsEnd other source e = true) :
    ∃ stale : Bench, bench.Steps stale ∧ bench.held ⊆ stale.held ∧
      .parser (.literal terminal) ∈ stale.held ∧
        (Edit.setDefinition rule (.literal terminal) bench.store).2.Alike stale.store ∧
          stale.store.Reports other source 0 e := by
  let parsed := bench.edit (Edit.parsing (·.ruleMatches other source 0))
  let ready := (parsed.hold (.rule rule)).hold (.parser (.literal terminal))
  let stale := ready.edit (Edit.setDefinition rule (.literal terminal))
  have hparse : bench.Step parsed := .ruleMatches other source 0
  have hrule : parsed.Step (parsed.hold (.rule rule)) := .lookup howner hlookup
  have hparser : (parsed.hold (.rule rule)).Step ready := .literal terminal
  have hset : ready.Step stale := .setDefinition (Or.inr (Or.inl rfl)) (Or.inl rfl)
  have halike : (Edit.setDefinition rule (.literal terminal) bench.store).2.Alike stale.store :=
    (Edit.blind_setDefinition rule (.literal terminal) _ _ (.ruleMatches _ other source 0)).2
  exact ⟨stale, .tail (.tail (.tail (.single hparse) hrule) hparser) hset,
    fun handle hhandle => Or.inr (Or.inr hhandle), Or.inl rfl, halike,
    hcurrent.reports_after_redefinition h.sane hne hapart hbefore terminal⟩

/-- A program that holds a rule and a grammar can make stale what a repetition in the rule's
definition remembers of the grammar's rules. -/
theorem Bench.Orderly.exists_stale_part {bench : Bench} (h : bench.Orderly) {entry rule : RuleId}
    (hentry : .rule entry ∈ bench.held) {slot : Slot} {definition : Parser}
    (hbound : bench.store.catalog.bound entry = .ok (slot, definition)) {cache : CacheId}
    {bounds : Bounds} {element : Parser} (hpart : .repetition cache bounds element ∈ definition.walk)
    (hsound : Sound bench.store.catalog (bench.store.catalog.scopeOf
      (.repetition cache bounds element)).nodes bench.store.caches)
    (hforeign : cache ∉ (bench.store.catalog.grammar rule.grammar).registry.members)
    {owner : GrammarId} {known : String} (howner : .grammar owner ∈ bench.held)
    (hlookup : bench.store.catalog.lookup? owner known = some rule) (terminal : Literal)
    {source : Source} {attempt : Attempt}
    (hmatches : bench.store.catalog.matchesOf (.repetition cache bounds element) source 0 =
      (.ok attempt : Except GrammarError Attempt)) :
    ∃ stale : Bench, bench.Steps stale ∧ bench.held ⊆ stale.held ∧
      (Edit.setDefinition rule (.literal terminal) bench.store).2.Alike stale.store ∧
        stale.store.caches.Holds cache ⟨source, 0⟩ attempt := by
  let part := Parser.repetition cache bounds element
  let whole := bench.hold (.parser definition)
  let parsed := (whole.hold (.parser part)).edit (Edit.parsing (·.matchesOf part source 0))
  let ready := (parsed.hold (.rule rule)).hold (.parser (.literal terminal))
  let stale := ready.edit (Edit.setDefinition rule (.literal terminal))
  obtain ⟨hslot, hdefinition⟩ := Catalog.exists_slot_of_bound hbound
  have hwhole : bench.Step whole :=
    .definition hentry (Option.bind_eq_some_iff.2 ⟨slot, hslot, hdefinition⟩)
  have hheld : whole.Step (whole.hold (.parser part)) := .part (Or.inl rfl) hpart
  have hparse : (whole.hold (.parser part)).Step parsed := .matchesOf source 0 (Or.inl rfl)
  have hrule : parsed.Step (parsed.hold (.rule rule)) := .lookup (Or.inr (Or.inr howner)) hlookup
  have hready : (parsed.hold (.rule rule)).Step ready := .literal terminal
  have hset : ready.Step stale := .setDefinition (Or.inr (Or.inl rfl)) (Or.inl rfl)
  have huses : bench.store.Uses {parser | .parser parser ∈ bench.held} part := fun node hnode =>
    Or.inl (Or.inr ⟨entry, slot, definition, trivial, hbound, definition.walk_trans hpart hnode⟩)
  obtain ⟨hagree, -⟩ := matchesOf_agrees (bench.store.catalog.closed_scopeOf part)
    (h.sane.apart_scopeOf huses) (Or.inl part.self_mem_walk) source 0 bench.store.caches hsound
  rw [hmatches] at hagree
  have hlt := h.sane.cache_lt part (Or.inr ⟨entry, slot, definition, trivial, hbound, hpart⟩) cache rfl
  have hparsed : parsed.store.caches.Holds cache ⟨source, 0⟩ attempt :=
    holds_of_matchesOf hlt hagree.eq_of_ok
  have hunregistered : cache ∉ (parsed.store.catalog.grammar rule.grammar).registry.members :=
    hforeign
  exact ⟨stale, .tail (.tail (.tail (.tail (.tail (.single hwhole) hheld) hparse) hrule) hready) hset,
    fun handle hhandle => Or.inr (Or.inr (Or.inr (Or.inr hhandle))),
    (Edit.blind_setDefinition rule (.literal terminal) _ _ (.matchesOf _ part source 0)).2,
    holds_setDefinition_literal hunregistered hparsed terminal⟩

end Metasyntax
