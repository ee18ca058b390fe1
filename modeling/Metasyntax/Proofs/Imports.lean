import Metasyntax.Proofs.Assembly
import Metasyntax.Proofs.Causes
import Metasyntax.Proofs.Compiling
import Metasyntax.Proofs.Interning
import Metasyntax.Proofs.Reconfiguration
import Metasyntax.Proofs.Upkeep

/-!
# What an import carries over

A name that a rule is imported under gets the rule's definition. It does not get the rule's
exclusion, and keeps the one that it may have had. So the imported rule finds what the other
one does, node for node, and what is vetoed is up to each of the two.
-/

set_option autoImplicit false

namespace Metasyntax

namespace Catalog

variable {catalog : Catalog} {rule other : RuleId}

def readdress (catalog : Catalog) (rule : RuleId) : Attempt → Attempt
  | .ok found =>
    .ok (found.mapNodes fun nodes => [.rule (catalog.nameOf rule) (nodes.flatMap (·.children))])
  | .error failure => .error ⟨⟨.rule (catalog.refer rule), failure.head.start⟩, failure.causes⟩

theorem resolve_refer_of_alive (h : catalog.alive rule.grammar = true) :
    catalog.resolve (catalog.refer rule) = .ok rule :=
  if_pos h

theorem readdress_wrapped {name name' : String} (hname : catalog.nameOf rule = name')
    (found : MatchSet) :
    catalog.readdress rule (.ok (found.mapNodes fun nodes => [.rule name nodes])) =
      .ok (found.mapNodes fun nodes => [.rule name' nodes]) := by
  simp [readdress, MatchSet.mapNodes, hname, Node.children]

theorem readdress_settle {found found' : MatchSet} {start : Nat} (failure : Option ParseError)
    (h : catalog.readdress rule (.ok found) = .ok found') :
    catalog.readdress rule
        (Progress.settle ⟨found, failure⟩ (.rule (catalog.refer other)) start) =
      Progress.settle ⟨found', failure⟩ (.rule (catalog.refer rule)) start := by
  cases h
  rw [Progress.settle, Progress.settle]
  have hempty (f : List Node → List Node) : (found.mapNodes f).isEmpty = found.isEmpty := by
    rw [Bool.eq_iff_iff, MatchSet.isEmpty_iff, MatchSet.isEmpty_iff, MatchSet.stops_mapNodes]
  rw [hempty]
  split <;> rfl

/-- Two rules that share a definition, and whose exclusions are the same, answer alike. -/
theorem run_ruleMatches_eq_readdress (halive : catalog.alive rule.grammar = true)
    (halive' : catalog.alive other.grammar = true) {slot slot' : Slot} {definition : Parser}
    (hslot : catalog.slot? rule = some slot) (hslot' : catalog.slot? other = some slot')
    (hdefinition : slot.definition = some definition)
    (hdefinition' : slot'.definition = some definition) (hexclusion : slot.exclusion = slot'.exclusion)
    (source : Source) (start : Nat) :
    (catalog.ruleMatches rule source start : Run Attempt) =
      catalog.readdress rule <$> (catalog.ruleMatches other source start : Run Attempt) := by
  have hname : catalog.nameOf rule = slot.name := by rw [nameOf, hslot]; rfl
  rw [ruleMatches, ruleMatches, depthBound, call, call, callOnce, callOnce, resolve_refer_of_alive halive,
    resolve_refer_of_alive halive']
  simp only [MonadExcept.ofExcept, pure_bind, bound_eq_ok_iff.2 ⟨hslot, hdefinition⟩,
    bound_eq_ok_iff.2 ⟨hslot', hdefinition'⟩, map_bind, hexclusion]
  refine bind_congr fun attempt => ?_
  cases attempt with
  | error failure => rfl
  | ok candidates =>
    cases slot'.exclusion with
    | none =>
      dsimp only
      rw [map_pure, readdress_wrapped hname]
    | some exclusion =>
      dsimp only
      cases catalog.resolve exclusion with
      | error error => rfl
      | ok excluded =>
        simp only [pure_bind, map_bind]
        refine bind_congr fun vetoes => ?_
        rw [map_pure, readdress_settle _ (readdress_wrapped hname _)]

/-- The matches of a rule are single nodes, whatever the caches remember. -/
theorem exists_children_of_run_ruleMatches {source : Source} {start : Nat} {caches : Caches}
    {found : MatchSet}
    (h : ((catalog.ruleMatches rule source start : Run Attempt).run caches).1 =
      .ok (.ok found)) :
    ∀ m ∈ found.toList, ∃ children, m.nodes = [.rule (catalog.nameOf rule) children] := by
  have htrace : Tracing fun _ _ _ => True :=
    ⟨fun _ _ => trivial, fun _ => trivial, fun _ _ => trivial, fun _ _ => trivial⟩
  have hcaches : caches.Traced fun _ _ _ => True := fun _ _ _ _ _ _ _ _ => trivial
  intro m hm
  exact ((call_traces htrace (catalog.depthBound source) source (catalog.refer rule) start caches
    hcaches).2 _ h found rfl m hm).2

/-- Whether a whole text is taken does not depend on the name of the rule. -/
theorem exists_whole_readdress_iff {source : Source} {attempt : Attempt}
    (hnodes : ∀ found, attempt = .ok found → ∀ m ∈ found.toList, m.nodes ≠ []) :
    (∃ node, catalog.whole rule source (catalog.readdress rule attempt) = .ok node) ↔
      ∃ node, catalog.whole other source attempt = .ok node := by
  cases attempt with
  | error failure =>
    constructor <;> rintro ⟨node, h⟩ <;> cases h
  | ok found =>
    have hlongest (f : List Node → List Node) :
        (found.mapNodes f).longest? = found.longest?.map fun m => ⟨f m.nodes, m.stop⟩ := by
      rw [MatchSet.longest?_eq_head?, MatchSet.longest?_eq_head?, ← List.head?_map]
      rfl
    rw [readdress, whole, whole, hlongest]
    cases hfirst : found.longest? with
    | none => constructor <;> rintro ⟨node, h⟩ <;> cases h
    | some m =>
      obtain ⟨node, others, hcons⟩ :=
        List.exists_cons_of_ne_nil (hnodes found rfl m (List.mem_of_head? hfirst))
      obtain ⟨nodes, stop⟩ := m
      obtain rfl : nodes = node :: others := hcons
      dsimp only [Option.map]
      by_cases hstop : stop < source.size
      · rw [if_pos hstop, if_pos hstop]
        constructor <;> rintro ⟨node', h⟩ <;> cases h
      · rw [if_neg hstop, if_neg hstop]
        exact ⟨fun _ => ⟨_, rfl⟩, fun _ => ⟨_, rfl⟩⟩

end Catalog

section
variable {store : Store} {id : GrammarId} {name : String} {source rule : RuleId}

def Catalog.localSlot (catalog : Catalog) (id : GrammarId) (name : String) : Slot :=
  ((catalog.local? id name).bind catalog.slot?).getD ⟨name, none, none⟩

theorem Store.slot?_localRule_self (hinterned : store.Interned)
    (hindex : id.index < store.catalog.grammars.size) (name : String) :
    (Edit.localRule id name store).2.catalog.slot? (Edit.localRule id name store).1 =
      some (store.catalog.localSlot id name) := by
  cases hlocal : store.catalog.local? id name with
  | some rule =>
    obtain ⟨place, hplace, rfl⟩ := Option.map_eq_some_iff.1 hlocal
    obtain ⟨slot, hslot, -⟩ := (hinterned id).find?.1 hplace
    rw [localRule_eq_of_local hlocal, Catalog.localSlot, hlocal]
    change store.catalog.slot? ⟨id, place⟩ = some slot at hslot
    simp only [Option.bind_some, hslot, Option.getD_some]
  | none =>
    simp only [Edit.localRule, Edit.bind_apply, Edit.get_apply, Edit.pure_apply, hlocal]
    rw [Catalog.localSlot, hlocal]
    exact (gainsRule_push hindex name).slot

theorem Store.slot?_localRule_of_ne (hindex : id.index < store.catalog.grammars.size)
    {other : RuleId} (hother : other ≠ (Edit.localRule id name store).1) :
    (Edit.localRule id name store).2.catalog.slot? other = store.catalog.slot? other := by
  cases hlocal : store.catalog.local? id name with
  | some rule => rw [localRule_eq_of_local hlocal]
  | none =>
    simp only [Edit.localRule, Edit.bind_apply, Edit.get_apply, Edit.pure_apply, hlocal] at hother ⊢
    exact (gainsRule_push hindex name).kept other hother

theorem Store.slot?_setDefinition_self (hindex : rule.grammar.index < store.catalog.grammars.size)
    {slot : Slot} (hslot : store.catalog.slot? rule = some slot) (definition : Parser) :
    (Edit.setDefinition rule definition store).2.catalog.slot? rule =
      some { slot with definition := some definition } := by
  simp only [Edit.setDefinition, Edit.bind_apply]
  rw [slot?_updateRule, slot?_adopt, hslot]
  · rfl
  · rwa [(quiet_adopt rule.grammar definition).grammars]

/-- An import succeeds where the rule has a definition, which the name is bound to. -/
theorem Edit.importRule_eq_ok (hinterned : store.Interned)
    (hindex : id.index < store.catalog.grammars.size) {after : Store}
    (h : importRule id name source store = (.ok rule, after)) :
    after.catalog.local? id name = some rule ∧ ∃ definition,
      store.catalog.definition? source = some definition ∧
      after.catalog.slot? rule =
        some { store.catalog.localSlot id name with definition := some definition } ∧
      ∀ other, other ≠ rule → after.catalog.slot? other = store.catalog.slot? other := by
  cases hdefinition : store.catalog.definition? source with
  | none =>
    simp only [importRule, bind_apply, get_apply, pure_apply, hdefinition] at h
    cases h
  | some definition =>
    obtain ⟨kept, hkept⟩ : ∃ kept, kept = (retain id source.grammar store).2 := ⟨_, rfl⟩
    have htable (other : GrammarId) :
        (kept.catalog.grammar other).table = (store.catalog.grammar other).table := by
      rw [hkept, retain, grammar_modifyGrammar]
      split
      case isTrue hplace => split <;> rw [hplace.1]
      case isFalse => rfl
    have hslots (other : RuleId) : kept.catalog.slot? other = store.catalog.slot? other := by
      rw [Catalog.slot?, Catalog.slot?, htable]
    have hslot : kept.catalog.localSlot id name = store.catalog.localSlot id name := by
      simp only [Catalog.localSlot, Catalog.local?, htable, Option.bind_map, Function.comp_def, hslots]
    have hindex' : id.index < kept.catalog.grammars.size := by
      rwa [hkept, (quiet_retain id source.grammar).grammars]
    simp only [importRule, bind_apply, get_apply, hdefinition, pure_apply, define, ← hkept] at h
    obtain ⟨hrule, rfl⟩ := Prod.mk.inj h
    obtain rfl := Except.ok.inj hrule
    have hlocal := Store.local?_localRule hindex' name
    have hself := Store.slot?_localRule_self (fun other => htable other ▸ hinterned other) hindex' name
    have hgrown : id.index < (localRule id name kept).2.catalog.grammars.size := by
      rwa [(quiet_localRule id name).grammars]
    refine ⟨(Store.retains_setDefinition _ definition).found _ _ hlocal, definition, rfl, ?_, ?_⟩
    · rw [← hslot]
      refine Store.slot?_setDefinition_self ?_ hself definition
      rwa [localRule_grammar]
    · intro other hother
      rw [← hslots, ← Store.slot?_localRule_of_ne hindex' hother]
      exact (Reconfiguration.spares (.setDefinition definition) _ _).slot other hother

end

/-- One rule has the definition that another one has, and each vetoes what its own exclusion says.
In the same state, and as long as no cache on the way is stale in any state, they answer alike if
they veto alike. -/
structure Store.CarriesOver (store : Store) (source rule : RuleId) (definition : Parser) : Prop where
  reports {judge : RuleId} (hjudge : judge = source ∨ judge = rule) {caches : Caches}
    (hsound : Sound store.catalog
      (store.catalog.scopeOf (.rule (store.catalog.refer judge))).nodes caches)
    (text : Source) (start : Nat) {attempt : Attempt}
    (hattempt : ((store.catalog.ruleMatches judge text start : Run Attempt).run caches).1 =
      .ok attempt) (m : Match) :
    m ∈ attempt.kept ↔ ∃ slot m', store.catalog.slot? judge = some slot ∧
      store.catalog.Reporting caches text definition start m' ∧
      store.catalog.Admits slot text start m'.stop ∧
        m = ⟨[.rule (store.catalog.nameOf judge) m'.nodes], m'.stop⟩
  alike (hexclusion : (store.catalog.slot? rule).map (·.exclusion) =
      (store.catalog.slot? source).map (·.exclusion)) (text : Source) (start : Nat) :
    (store.catalog.ruleMatches rule text start : Run Attempt) =
      store.catalog.readdress rule <$> (store.catalog.ruleMatches source text start : Run Attempt)
  later (hexclusion : (store.catalog.slot? rule).map (·.exclusion) =
      (store.catalog.slot? source).map (·.exclusion)) {caches caches' : Caches}
    (hsound : Sound store.catalog
      (store.catalog.scopeOf (.rule (store.catalog.refer source))).nodes caches)
    (hsound' : Sound store.catalog
      (store.catalog.scopeOf (.rule (store.catalog.refer source))).nodes caches')
    (text : Source) (start : Nat) (answer : Attempt) :
    ((store.catalog.ruleMatches rule text start : Run Attempt).run caches').1 = .ok answer ↔
      ∃ attempt, ((store.catalog.ruleMatches source text start : Run Attempt).run caches).1 =
        .ok attempt ∧ answer = store.catalog.readdress rule attempt
  accepts (hexclusion : (store.catalog.slot? rule).map (·.exclusion) =
      (store.catalog.slot? source).map (·.exclusion)) (caches : Caches) (text : Source) :
    (∃ node, ((store.catalog.parseAll rule text : Run _).run caches).1 = .ok (.ok node)) ↔
      ∃ node, ((store.catalog.parseAll source text : Run _).run caches).1 = .ok (.ok node)

section
variable {store : Store} {held : Set Parser} {source rule : RuleId} {slot slot' : Slot}
  {definition : Parser}

/-- What a rule reports is what its definition finds and its exclusion admits. -/
theorem Sane.mem_kept_iff (hsane : Sane held store) {caches : Caches}
    (hsound : Sound store.catalog
      (store.catalog.scopeOf (.rule (store.catalog.refer rule))).nodes caches)
    (halive : store.catalog.alive rule.grammar = true)
    (hbound : store.catalog.bound rule = .ok (slot, definition)) {text : Source} {start : Nat}
    {attempt : Attempt}
    (hattempt : ((store.catalog.ruleMatches rule text start : Run Attempt).run caches).1 =
      .ok attempt) (m : Match) :
    m ∈ attempt.kept ↔ ∃ m', store.catalog.Reporting caches text definition start m' ∧
      store.catalog.Admits slot text start m'.stop ∧
        m = ⟨[.rule slot.name m'.nodes], m'.stop⟩ := by
  have hclosed := store.catalog.closed_scopeOf (.rule (store.catalog.refer rule))
  have hapart := hsane.apart_scopeOf (store.uses_rule held (store.catalog.refer rule))
  have hmem := hclosed.definition rule (mem_rules_scopeOf_refer halive) slot definition hbound
  have hfound : store.catalog.ruleMatches rule text start =
      (.ok attempt : Except GrammarError Attempt) :=
    (hsound.matchesOf_iff hclosed hapart (Or.inl (Parser.self_mem_walk _))).1 hattempt
  rw [Catalog.ruleMatches, Catalog.depthBound] at hfound
  obtain ⟨rule', slot', definition', hresolve, hbound', ⟨outcome, houtcome⟩, hkept⟩ :=
    Catalog.call_keeps_definition hfound
  obtain rfl := Catalog.eq_of_resolve_refer hresolve
  cases hbound.symm.trans hbound'
  have hdefinition :=
    (hsound.matchesOf_iff hclosed hapart hmem).2 (Catalog.matchesOf_of_call houtcome)
  rw [hkept]
  refine exists_congr fun m' => and_congr_left fun _ => ?_
  exact (keeps_iff_of_eq_ok houtcome).trans (keeps_iff_of_eq_ok hdefinition).symm

theorem Store.carriesOver (hsane : Sane held store)
    (halive : store.catalog.alive source.grammar = true)
    (halive' : store.catalog.alive rule.grammar = true)
    (hslot : store.catalog.slot? source = some slot) (hslot' : store.catalog.slot? rule = some slot')
    (hdefinition : slot.definition = some definition)
    (hdefinition' : slot'.definition = some definition) :
    store.CarriesOver source rule definition := by
  have hexclusion (h : (store.catalog.slot? rule).map (·.exclusion) =
      (store.catalog.slot? source).map (·.exclusion)) : slot'.exclusion = slot.exclusion := by
    rw [hslot, hslot'] at h
    exact Option.some.inj h
  have halike (h : (store.catalog.slot? rule).map (·.exclusion) =
      (store.catalog.slot? source).map (·.exclusion)) (text : Source) (start : Nat) :=
    Catalog.run_ruleMatches_eq_readdress halive' halive hslot' hslot hdefinition' hdefinition
      (hexclusion h) text start
  refine ⟨?_, halike, ?_, ?_⟩
  · intro judge hjudge caches hsound text start attempt hattempt m
    obtain ⟨own, hown, halive, hbound⟩ : ∃ own, store.catalog.slot? judge = some own ∧
        store.catalog.alive judge.grammar = true ∧
        store.catalog.bound judge = .ok (own, definition) := by
      rcases hjudge with rfl | rfl
      · exact ⟨slot, hslot, halive, Catalog.bound_eq_ok_iff.2 ⟨hslot, hdefinition⟩⟩
      · exact ⟨slot', hslot', halive', Catalog.bound_eq_ok_iff.2 ⟨hslot', hdefinition'⟩⟩
    have hname : store.catalog.nameOf judge = own.name := by rw [Catalog.nameOf, hown]; rfl
    rw [hsane.mem_kept_iff hsound halive hbound hattempt m, hname]
    constructor
    · rintro ⟨m', h⟩
      exact ⟨own, m', hown, h⟩
    · rintro ⟨other, m', hother, h⟩
      cases hown.symm.trans hother
      exact ⟨m', h⟩
  · intro h caches caches' hsound hsound' text start answer
    have hclosed := store.catalog.closed_scopeOf (.rule (store.catalog.refer source))
    have hapart := hsane.apart_scopeOf (store.uses_rule held (store.catalog.refer source))
    have hmem : .rule (store.catalog.refer source) ∈
        (store.catalog.scopeOf (.rule (store.catalog.refer source))).nodes :=
      Or.inl (Parser.self_mem_walk _)
    have hsame (attempt : Attempt) :
        ((store.catalog.ruleMatches source text start : Run Attempt).run caches).1 = .ok attempt ↔
          ((store.catalog.ruleMatches source text start : Run Attempt).run caches').1 =
            .ok attempt :=
      (hsound.matchesOf_iff hclosed hapart hmem).trans
        (hsound'.matchesOf_iff hclosed hapart hmem).symm
    simp only [hsame]
    rw [halike h, Run.run_map]
    cases ((store.catalog.ruleMatches source text start : Run Attempt).run caches').1 with
    | error error => simp [Except.map]
    | ok attempt => simp [Except.map, eq_comm]
  · intro h caches text
    rw [Catalog.run_parseAll, Catalog.run_parseAll, halike h, Run.run_map]
    cases hrun : ((store.catalog.ruleMatches source text 0 : Run Attempt).run caches).1 with
    | error error => simp [Except.map]
    | ok attempt =>
      simp only [Except.map, Except.ok.injEq]
      apply Catalog.exists_whole_readdress_iff
      rintro found rfl m hm hnil
      obtain ⟨children, hnodes⟩ := Catalog.exists_children_of_run_ruleMatches hrun m hm
      rw [hnil] at hnodes
      cases hnodes

end

/-- An import succeeds only for a rule that is bound. The name is then bound to the rule's
definition, and nothing else of it changes: neither does it get the rule's exclusion, nor does it
lose its own. From then on the two rules go together, as long as nothing is done to either. -/
theorem Session.Reached.import_carries_definition {session : Session} (h : session.Reached)
    {bench : Bench} (hsteps : session.bench.Steps bench) {id : GrammarId}
    (hid : .grammar id ∈ bench.held) {name : String} {source rule : RuleId} {after : Store}
    (himport : Edit.importRule id name source bench.store = (.ok rule, after)) :
    after.catalog.local? id name = some rule ∧ ∃ definition,
      bench.store.catalog.definition? source = some definition ∧
      after.catalog.slot? rule =
        some { bench.store.catalog.localSlot id name with definition := some definition } ∧
      (∀ other, other ≠ rule → after.catalog.slot? other = bench.store.catalog.slot? other) ∧
      ∀ (session' : Session) (later : Bench), session'.Reached → session'.bench.Steps later →
        .rule source ∈ later.held → .rule rule ∈ later.held →
        later.store.catalog.slot? source = after.catalog.slot? source →
        later.store.catalog.slot? rule = after.catalog.slot? rule →
          later.store.CarriesOver source rule definition := by
  have horderly := hsteps.orderly h.orderly
  have hinterned : bench.store.Interned := hsteps.durable Store.Interned.durable h.interned
  obtain ⟨hlocal, definition, hdefinition, hslot, hothers⟩ :=
    Edit.importRule_eq_ok hinterned (horderly.useful _ hid).2 himport
  refine ⟨hlocal, definition, hdefinition, hslot, hothers, ?_⟩
  intro session' later h' hsteps' hsource' hrule' hsame hsame'
  have horderly' := hsteps'.orderly h'.orderly
  obtain ⟨slot, hslot', hdefinition'⟩ : ∃ slot, after.catalog.slot? source = some slot ∧
      slot.definition = some definition := by
    by_cases heq : source = rule
    · rw [heq]
      exact ⟨_, hslot, rfl⟩
    · rw [hothers source heq]
      exact Option.bind_eq_some_iff.1 hdefinition
  exact Store.carriesOver horderly'.sane (horderly'.useful _ hsource').1
    (horderly'.useful _ hrule').1 (hsame.trans hslot') (hsame'.trans hslot) hdefinition' rfl

/-- An import of the digits, which are asked for one way and the other. -/
theorem Session.Reached.import_carries_definition_digit : ∃ (source rule : RuleId) (after : Store),
    Edit.importRule .abnf "figure" source Session.start.store = (.ok rule, after) ∧
      after.catalog.local? .abnf "figure" = some rule ∧
      (∀ caches text, (∃ node, ((after.catalog.parseAll rule text : Run _).run caches).1 =
          .ok (.ok node)) ↔
        ∃ node, ((after.catalog.parseAll source text : Run _).run caches).1 = .ok (.ok node)) ∧
      ∀ caches caches', after.Parsed ∅ caches → after.Parsed ∅ caches' → ∀ text start answer,
        ((after.catalog.ruleMatches rule text start : Run Attempt).run caches').1 = .ok answer ↔
          ∃ attempt, ((after.catalog.ruleMatches source text start : Run Attempt).run caches).1 =
            .ok attempt ∧ answer = after.catalog.readdress rule attempt := by
  let check (source : RuleId) : Bool :=
    match Edit.importRule .abnf "figure" source Session.start.store with
    | (.ok rule, after) => decide ((after.catalog.slot? rule).map (·.exclusion) =
        (after.catalog.slot? source).map (·.exclusion))
    | (.error _, _) => false
  have hcheck : (Session.start.store.catalog.lookup? .core "DIGIT").any check = true := by
    decide +kernel
  obtain ⟨source, hlookup, hsource⟩ := (Option.any_eq_true _ _).1 hcheck
  simp only [check] at hsource
  split at hsource
  case h_2 => cases hsource
  case h_1 rule after himport =>
    have hexclusion := of_decide_eq_true hsource
    let bench := Session.start.bench.hold (.rule source)
    have hsteps : Session.start.bench.Steps bench := .single (.lookup .core hlookup)
    have hworks : bench.Does (Edit.importRule .abnf "figure" source) _ :=
      Edit.works_importRule .abnf "figure" source bench (by
        rintro _ (rfl | rfl)
        · exact Or.inr .abnf
        · exact Or.inl rfl)
    have hlater := hsteps.trans hworks
    change Session.start.bench.Steps ⟨(Edit.importRule .abnf "figure" source Session.start.store).2,
      bench.held ∪ Edit.givenOf (fun rule => {.rule rule})
        (Edit.importRule .abnf "figure" source Session.start.store).1⟩ at hlater
    rw [himport] at hlater
    obtain ⟨hlocal, definition, -, -, -, hcarries⟩ :=
      Session.Reached.start.import_carries_definition hsteps (Or.inr .abnf) himport
    have halike := hcarries Session.start _ .start hlater (Or.inl (Or.inl rfl)) (Or.inr rfl) rfl rfl
    have hsane : Sane ∅ after := (hlater.orderly Session.Reached.start.orderly).sane.forget
      (Set.empty_subset _)
    refine ⟨source, rule, after, himport, hlocal, halike.accepts hexclusion, ?_⟩
    intro caches caches' hparsed hparsed'
    exact halike.later hexclusion (hparsed.sound_scopeOf hsane (after.uses_rule _ _))
      (hparsed'.sound_scopeOf hsane (after.uses_rule _ _))

def Store.accepts (store : Store) (text : String) (rule : RuleId) : Bool :=
  match ((store.catalog.parseAll rule (.ofString text) : Run _).run store.caches).1 with
  | .ok (.ok _) => true
  | _ => false

theorem Store.accepts_iff {store : Store} {text : String} {rule : RuleId} :
    store.accepts text rule = true ↔
      ∃ node, ((store.catalog.parseAll rule (.ofString text) : Run _).run store.caches).1 =
        .ok (.ok node) := by
  rw [accepts]
  constructor
  · intro h
    split at h
    case h_1 node hnode => exact ⟨node, hnode⟩
    case h_2 => cases h
  · rintro ⟨node, hnode⟩
    rw [hnode]

def Session.copyAccepts (session : Session) (text : String) (source : RuleId) : Bool :=
  match Edit.importRule .abnf "word" source session.store with
  | (.ok rule, after) => after.accepts text rule && !after.accepts text source
  | (.error _, _) => false

/-- A rule that excludes what it matches accepts nothing, and the rule it is imported as all the
same accepts it. -/
theorem import_drops_exclusion : ¬ ∀ (session : Session) (bench : Bench) (id : GrammarId)
    (source : RuleId) (name : String) (rule : RuleId) (after : Store), session.Reached →
      session.bench.Steps bench → .grammar id ∈ bench.held → .rule source ∈ bench.held →
        Edit.importRule id name source bench.store = (.ok rule, after) → ∀ text,
          (∃ node, ((after.catalog.parseAll rule text : Run _).run after.caches).1 =
              .ok (.ok node)) ↔
            ∃ node, ((after.catalog.parseAll source text : Run _).run after.caches).1 =
              .ok (.ok node) := by
  intro hall
  have hcheck : (Session.start.carryOut [.define "core" "word" (.literal (.text "foo")) none,
      .define "core" "keyword" (.literal (.text "foo")) none,
      .exclude (.named "core" "word") (.named "core" "keyword")]).any (fun session =>
        (session.store.catalog.lookup? .core "word").any (session.copyAccepts "foo")) = true := by
    decide +kernel
  obtain ⟨session, hcarry, hcheck⟩ := (Option.any_eq_true _ _).1 hcheck
  obtain ⟨source, hlookup, hcheck⟩ := (Option.any_eq_true _ _).1 hcheck
  rw [Session.copyAccepts] at hcheck
  split at hcheck
  case h_2 => cases hcheck
  case h_1 rule after himport =>
    rw [Bool.and_eq_true, Bool.not_eq_true'] at hcheck
    have hsteps : session.bench.Steps (session.bench.hold (.rule source)) :=
      .single (.lookup .core hlookup)
    have hsame := hall session _ .abnf source "word" rule after (Session.Reached.start.carryOut hcarry)
      hsteps (Or.inr .abnf) (Or.inl rfl) himport (.ofString "foo")
    rw [← Store.accepts_iff, ← Store.accepts_iff, hcheck.2] at hsame
    exact absurd (hsame.1 hcheck.1) Bool.false_ne_true

end Metasyntax
