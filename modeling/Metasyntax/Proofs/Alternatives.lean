import Metasyntax.Proofs.Additions
import Metasyntax.Proofs.Confinement
import Metasyntax.Proofs.Holdings
import Metasyntax.Proofs.Invalidation
import Metasyntax.Proofs.Likeness
import Metasyntax.Proofs.Retention

/-!
# Alternatives widen a language

A rule that gets one more alternative matches where it did, and so does every rule that leads
to it: what a parse finds is found still, wherever the way to the alternative is free of
alternations that stop at their first match and of exclusions. What caches remember must not
be stale, though. A match that a stale cache still reports is lost when the alternative is
added, since that empties the cache.
-/

set_option autoImplicit false

namespace Metasyntax

namespace Catalog

section
variable {catalog : Catalog} {kind : RuleId → Prop} {parser : Parser}

def Reaches (catalog : Catalog) (kind : RuleId → Prop) (parser : Parser) : Prop :=
  ∃ rule ∈ (catalog.scopeOf parser).rules, kind rule

theorem Reaches.of_mem_nodes {node : Parser} (h : catalog.Reaches kind node)
    (hnode : node ∈ (catalog.scopeOf parser).nodes) : catalog.Reaches kind parser := by
  have hclosed := catalog.closed_scopeOf parser
  obtain ⟨rule, ⟨ref, hleads, hresolve⟩, hkind⟩ := h
  exact ⟨rule, hleads.mem_rules hclosed (fun ref href =>
    hclosed.target ref (hclosed.inner node hnode _ (Parser.mem_references.1 href))) hresolve, hkind⟩

theorem Reaches.of_mem_rules {rule : RuleId} (h : catalog.Reaches kind (.rule (catalog.refer rule)))
    (hrule : rule ∈ (catalog.scopeOf parser).rules) : catalog.Reaches kind parser := by
  obtain ⟨other, ⟨ref, hleads, hresolve⟩, hkind⟩ := h
  refine ⟨other, hleads.mem_rules (catalog.closed_scopeOf parser) (fun ref href => ?_) hresolve,
    hkind⟩
  cases List.mem_singleton.1 (Parser.mem_references.1 href)
  exact fun rule' hrule' => eq_of_resolve_refer hrule' ▸ hrule

def scopeAway (catalog : Catalog) (kind : RuleId → Prop) (parser : Parser) : Scope where
  rules := {rule | rule ∈ (catalog.scopeOf parser).rules ∧
    ¬ catalog.Reaches kind (.rule (catalog.refer rule))}
  nodes := {node | node ∈ (catalog.scopeOf parser).nodes ∧ ¬ catalog.Reaches kind node}

theorem alive_of_mem_scopeOf {rule : RuleId} (h : rule ∈ (catalog.scopeOf parser).rules) :
    catalog.alive rule.grammar = true := by
  obtain ⟨ref, -, hresolve⟩ := h
  exact eq_of_resolve hresolve ▸ alive_of_resolve hresolve

theorem closed_scopeAway (catalog : Catalog) (kind : RuleId → Prop) (parser : Parser) :
    (catalog.scopeAway kind parser).Closed catalog where
  inner := by
    rintro node ⟨hnode, haway⟩ part hpart
    exact ⟨(catalog.closed_scopeOf parser).inner node hnode part hpart,
      fun h => haway (h.of_mem_nodes (Or.inl hpart))⟩
  target := by
    rintro ref ⟨href, haway⟩ rule hrule
    exact ⟨(catalog.closed_scopeOf parser).target ref href rule hrule,
      fun h => haway (h.of_mem_rules ⟨ref, catalog.leads_self ref, hrule⟩)⟩
  definition := by
    rintro rule ⟨hrule, haway⟩ slot definition hbound
    have hself := mem_rules_scopeOf_refer (alive_of_mem_scopeOf hrule)
    exact ⟨(catalog.closed_scopeOf parser).definition rule hrule slot definition hbound,
      fun h => haway (h.of_mem_nodes
        ((catalog.closed_scopeOf _).definition rule hself slot definition hbound))⟩
  exclusion := by
    rintro rule ⟨hrule, haway⟩ slot definition ref hbound hexclusion excluded hexcluded
    have hself := mem_rules_scopeOf_refer (alive_of_mem_scopeOf hrule)
    exact ⟨(catalog.closed_scopeOf parser).exclusion rule hrule slot definition ref hbound hexclusion
        excluded hexcluded,
      fun h => haway (h.of_mem_rules ((catalog.closed_scopeOf _).exclusion rule hself slot definition
        ref hbound hexclusion excluded hexcluded))⟩

/-- On the way from a rule to rules of some kind, alternations go on after a match and no rule
excludes another. -/
structure Unhindered (catalog : Catalog) (kind : RuleId → Prop) (rule : RuleId) : Prop where
  longest (mode : ModeId) (branches : List Parser) :
    .alternation mode branches ∈ (catalog.scopeOf (.rule (catalog.refer rule))).nodes →
      catalog.Reaches kind (.alternation mode branches) → catalog.firstMatch mode = false
  exclusion (other : RuleId) (slot : Slot) :
    other ∈ (catalog.scopeOf (.rule (catalog.refer rule))).rules →
      catalog.Reaches kind (.rule (catalog.refer other)) → catalog.slot? other = some slot →
        slot.exclusion = none

end

/-- What a rule leads to grows with the alternatives that are added to rules of some kind. -/
theorem Gains.grown {id : GrammarId} {kind : RuleId → Prop} {c c' : Catalog} (h : Gains id kind c c')
    {rule : RuleId} (hunhindered : c.Unhindered kind rule)
    (hslots : ∀ other ∈ (c.scopeOf (.rule (c.refer rule))).rules, ∃ slot,
      c.slot? other = some slot)
    (hmodes : ∀ mode branches,
      .alternation mode branches ∈ (c.scopeOf (.rule (c.refer rule))).nodes →
        mode.index < c.modes.size)
    (hapart : Apart (c'.within Set.univ).nodes (c'.within Set.univ).nodes) :
    Grown (c.scopeOf (.rule (c.refer rule))) (c.scopeAway kind (.rule (c.refer rule))) c c' := by
  have hmode : ∀ mode branches,
      .alternation mode branches ∈ (c.scopeOf (.rule (c.refer rule))).nodes →
        c'.firstMatch mode = c.firstMatch mode := by
    intro mode branches hnode
    have hsome := Array.getElem?_eq_getElem (hmodes mode branches hnode)
    rw [Expression.firstMatch_of_getElem? hsome,
      Expression.firstMatch_of_getElem? (h.mode mode _ hsome)]
  -- What has a cache is part of a definition, and of the one that offers it later.
  have hwithin : ∀ node ∈ (c.scopeOf (.rule (c.refer rule))).nodes, ∀ cache,
      node.cache? = some cache → node ∈ (c'.within Set.univ).nodes := by
    rintro node (hnode | ⟨ref, other, slot, definition, -, -, hbound, hnode⟩) cache hcache
    · cases List.mem_singleton.1 hnode
      cases hcache
    · obtain ⟨slot', definition', hbound', -, hoffers⟩ := h.bound hbound
      exact ⟨other, slot', definition', Set.mem_univ _, hbound',
        definition'.walk_trans hoffers.mem_walk hnode⟩
  exact
    { closed := c.closed_scopeOf _
      closed_spared := c.closed_scopeAway kind _
      spared_subset := fun _ hnode => hnode.1
      same := h.same (fun other hother => hslots other hother.1)
        (fun other hother hkind => hother.2
          ⟨other, mem_rules_scopeOf_refer (alive_of_mem_scopeOf hother.1), hkind⟩)
        fun mode branches hnode => hmodes mode branches hnode.1
      bound := fun other hother hnot slot definition hbound => by
        obtain ⟨slot', definition', hbound', hexclusion, hoffers⟩ := h.bound hbound
        have hreaches : c.Reaches kind (.rule (c.refer other)) :=
          by_contra fun haway => hnot ⟨hother, haway⟩
        exact ⟨slot', definition', hbound', hexclusion.trans
          (hunhindered.exclusion other slot hother hreaches (bound_eq_ok_iff.1 hbound).1), hoffers⟩
      longest := fun mode branches hnode hnot => by
        have hreaches : c.Reaches kind (.alternation mode branches) :=
          by_contra fun haway => hnot ⟨hnode, haway⟩
        exact (hmode mode branches hnode).trans (hunhindered.longest mode branches hnode hreaches)
      apart := fun other slot definition _ hbound a ha b hb cache hcache hcache' =>
        hapart a ⟨other, slot, definition, Set.mem_univ _, hbound, ha⟩ b
          (hwithin b hb cache hcache') cache hcache hcache'
      apart_self := fun a ha b hb cache hcache hcache' =>
        hapart a (hwithin a ha cache hcache) b (hwithin b hb cache hcache') cache hcache hcache' }

end Catalog

namespace Catalog

section
variable {catalog : Catalog}

structure Permissive (catalog : Catalog) : Prop where
  longest (mode : ModeId) : catalog.firstMatch mode = false
  exclusion (rule : RuleId) (slot : Slot) : catalog.slot? rule = some slot → slot.exclusion = none

theorem Permissive.unhindered (h : catalog.Permissive) (kind : RuleId → Prop) (rule : RuleId) :
    catalog.Unhindered kind rule :=
  ⟨fun mode _ _ _ => h.longest mode, fun other slot _ _ => h.exclusion other slot⟩

def isPermissive (catalog : Catalog) : Bool :=
  catalog.modes.all (!·) &&
    catalog.grammars.all fun grammar => grammar.table.slots.all (·.exclusion.isNone)

theorem permissive_of_isPermissive (h : catalog.isPermissive = true) : catalog.Permissive := by
  rw [isPermissive, Bool.and_eq_true] at h
  obtain ⟨hmodes, hslots⟩ := h
  rw [Array.all_eq_true_iff_forall_mem] at hslots
  refine ⟨firstMatch_eq_false hmodes, fun rule slot hslot => ?_⟩
  · rw [slot?, grammar] at hslot
    cases hgrammar : catalog.grammars[rule.grammar.index]? with
    | none =>
      rw [hgrammar] at hslot
      cases hslot
    | some grammar =>
      rw [hgrammar] at hslot
      have hslots := Array.all_eq_true_iff_forall_mem.1 (hslots grammar (Array.mem_of_getElem? hgrammar))
      exact Option.isNone_iff_eq_none.1 (hslots slot (Array.mem_of_getElem? hslot))

end

end Catalog

/-- Reading rule text leaves sound what it finds sound. -/
theorem passive_sound {held : Set Parser} {store : Store} (hsane : Sane held store)
    (hreadable : store.catalog.Readable) (ref : RuleRef) :
    Passive (fun other => other.catalog = store.catalog ∧
      Sound store.catalog (store.catalog.scopeOf (.rule ref)).nodes other.caches) fun _ => True := by
  have hclosed := store.catalog.closed_scopeOf (.rule ref)
  have huses := store.uses_rule held ref
  have hparsing {α : Type} {run : Catalog → Run α} (hrun : ∀ catalog, Respects catalog (run catalog)) :
      Edit.Keeps (fun other => other.catalog = store.catalog ∧
        Sound store.catalog (store.catalog.scopeOf (.rule ref)).nodes other.caches)
        (Edit.parsing run) := by
    rintro ⟨catalog, caches, lost⟩ ⟨rfl, hsound⟩
    exact ⟨rfl, (hrun store.catalog _ hclosed (hsane.apart_scopeOf huses)
        (hsane.apart_definition_scopeOf huses) _ caches
      ⟨hsound, rfl⟩).1.1⟩
  exact
    { rule := fun hname other hother => by
        obtain ⟨rule, hrule⟩ := hreadable _ hname
        rwa [Edit.rule_of_local (hother.1 ▸ hrule)]
      found := fun _ _ _ => trivial
      parse := fun source start _ => hparsing fun catalog => respects_parse catalog _ source start
      parseAll := fun source _ => hparsing fun catalog => respects_parseAll catalog _ source
      clearCaches := fun _ hother =>
        ⟨hother.1, hother.2.of_holds (quiet_clearCaches .abnf).holds⟩ }

namespace Bench

variable {bench : Bench} {id : GrammarId} {names : List String} {store' : Store}

inductive Adds (bench : Bench) (id : GrammarId) : List String → Store → Prop where
  | extend (name : String) {alternative : Parser} : .parser alternative ∈ bench.held →
    Adds bench id [name] (Edit.extend id name alternative bench.store).2
  | create {text : String} {production : Production} {read : Store} :
    .grammar .abnf ∈ bench.held →
    (Session.readTexts id (.separate [text])).run bench.store = (.ok [production], read) →
    production.incremental = true →
      Adds bench id [production.name] ((Loading.createRule id text).run bench.store).2
  | load {texts : Session.RuleTexts} {productions : List Production} {read : Store} :
    .grammar .abnf ∈ bench.held →
    (Session.readTexts id texts).run bench.store = (.ok productions, read) →
    (∀ production ∈ productions, production.incremental = true) →
      Adds bench id (productions.map (·.name)) ((Session.loadTexts id texts).run bench.store).2

/-- A program that adds alternatives does so in steps. -/
theorem Adds.exists_steps (h : bench.Adds id names store') (hable : bench.Able)
    (hid : .grammar id ∈ bench.held) : ∃ held, bench.Steps ⟨store', held⟩ := by
  have htext (habnf : .grammar .abnf ∈ bench.held) : {.grammar .abnf, .grammar id} ⊆ bench.held :=
    Set.insert_subset habnf (Set.singleton_subset_iff.2 hid)
  cases h with
  | @extend name alternative halternative =>
    exact ⟨_, Edit.works_extend id name alternative bench
      (Set.insert_subset hid (Set.singleton_subset_iff.2 halternative))⟩
  | @create text _ _ habnf _ _ => exact ⟨_, works_createRule id text bench hable (htext habnf)⟩
  | @load texts _ _ habnf _ _ =>
    exact ⟨_, Session.works_loadTexts id texts bench hable (htext habnf)⟩

/-- Where alternatives are added, rule text may be read first, and then the rules of their names
are extended. -/
theorem Adds.exists_extended (h : bench.Adds id names store') (hable : bench.Able)
    (hready : bench.store.Ready id) :
    ∃ read : Store, read.catalog = bench.store.catalog ∧ read.Extended id names store' ∧
      ∀ rule, bench.store.Current rule → Sound bench.store.catalog
        (bench.store.catalog.scopeOf (.rule (bench.store.catalog.refer rule))).nodes read.caches := by
  have hreads {texts : Session.RuleTexts} {productions : List Production} {read : Store}
      (hread : (Session.readTexts id texts).run bench.store = (.ok productions, read))
      (hincremental : ∀ production ∈ productions, production.incremental = true) :
      read.catalog = bench.store.catalog ∧
        read.Extended id (productions.map (·.name)) (Edit.bind id productions read).2 ∧
        ∀ rule, bench.store.Current rule → Sound bench.store.catalog
          (bench.store.catalog.scopeOf (.rule (bench.store.catalog.refer rule))).nodes
            read.caches := by
    have hcatalog := Session.readTexts_catalog hable.readable id texts
    have hsane := Session.keeps_readTexts calm_sane.passive id texts _ hable.orderly.sane
    have hkept (rule : RuleId) := Session.keeps_readTexts (passive_sound hable.orderly.sane
      hable.readable (bench.store.catalog.refer rule)) id texts bench.store
    rw [hread] at hcatalog hsane hkept
    have hready' : read.Ready id := by
      obtain ⟨hindex, hinterned, hgrounded⟩ := hready
      rw [← hcatalog] at hindex hinterned hgrounded
      exact ⟨hindex, hinterned, hgrounded⟩
    exact ⟨hcatalog, Edit.extended_bind hready' hsane hincremental,
      fun rule hcurrent => (hkept rule ⟨rfl, hcurrent⟩).2⟩
  cases h with
  | @extend name alternative _ =>
    exact ⟨bench.store, rfl, Edit.extended_extend hready name alternative, fun _ h => h⟩
  | @create text production read _ hread hincremental =>
    obtain ⟨rule, hcreate⟩ := Loading.createRule_of_read hable.loadable hread
    rw [hcreate]
    exact ⟨read, hreads hread (by simpa using hincremental)⟩
  | @load texts productions read _ hread hincremental =>
    have hload := (Session.loadTexts_eq_ok hable.loadable).2 ⟨productions, read, hread, rfl⟩
    rw [hload]
    exact ⟨read, hreads hread hincremental⟩

/-- What a rule leads to grows with alternatives, in a store that is in order before and after. -/
theorem Orderly.grown (h : bench.Orderly) {held : Set Parser} (hsane : Sane held store')
    {kind : RuleId → Prop} (hgains : bench.store.catalog.Gains id kind store'.catalog) {rule : RuleId}
    (hrule : bench.store.Useful (.rule rule))
    (hunhindered : bench.store.catalog.Unhindered kind rule) :
    Catalog.Grown
      (bench.store.catalog.scopeOf (.rule (bench.store.catalog.refer rule)))
      (bench.store.catalog.scopeAway kind (.rule (bench.store.catalog.refer rule)))
      bench.store.catalog store'.catalog := by
  refine hgains.grown hunhindered ?_ (fun mode branches hnode =>
    h.sane.mode_lt_of_mem_scopeOf (bench.store.uses_rule _ _) hnode) (hsane.apart_within _ _)
  rintro other ⟨ref, hleads, hresolve⟩
  rw [Catalog.eq_of_resolve hresolve, ← Option.isSome_iff_exists]
  refine h.isSome_of_leads (fun ref href => ?_) hleads
  cases List.mem_singleton.1 (Parser.mem_references.1 href)
  exact hrule.2

end Bench

structure Catalog.Inherits (id : GrammarId) (name : String) (inherited : RuleId) (catalog : Catalog) :
    Prop where
  lookup : ∃ base, (catalog.grammar id).base? = some base ∧ catalog.lookup? base name = some inherited
  unbound (rule : RuleId) (slot : Slot) : catalog.local? id name = some rule →
    catalog.slot? rule = some slot → slot.definition = none ∧ slot.exclusion = none

def Catalog.NamedAmong (catalog : Catalog) (id : GrammarId) (names : List String) (rule : RuleId) :
    Prop :=
  ∃ name ∈ names, catalog.local? id name = some rule

theorem Catalog.Inherits.starts {id : GrammarId} {name : String} {inherited : RuleId} {c : Catalog}
    (h : c.Inherits id name inherited) {slot : Slot} {definition : Parser}
    (hbound : c.bound inherited = .ok (slot, definition)) : c.Starts id name definition where
  inherited := by
    obtain ⟨base, hbase, hlookup⟩ := h.lookup
    obtain ⟨hslot, hdefinition⟩ := bound_eq_ok_iff.1 hbound
    exact Option.bind_eq_some_iff.2 ⟨base, hbase, Option.bind_eq_some_iff.2
      ⟨inherited, hlookup, Option.bind_eq_some_iff.2 ⟨slot, hslot, hdefinition⟩⟩⟩
  offers rule existing hrule hexisting := by
    obtain ⟨slot, hslot, hexisting⟩ := Option.bind_eq_some_iff.1 hexisting
    rw [(h.unbound rule slot hrule hslot).1] at hexisting
    cases hexisting

/-- The new rule of a name that had no meaning of its own excludes nothing, and offers what the
name meant. -/
theorem Store.Extended.bound_of_inherits {id : GrammarId} {names : List String}
    {store store' : Store} (h : store.Extended id names store') (hinterned : store.catalog.Interned)
    {name : String} (hname : name ∈ names) {rule inherited : RuleId}
    (hrule : store'.catalog.local? id name = some rule)
    (hinherits : store.catalog.Inherits id name inherited) {slot : Slot} {definition : Parser}
    (hbound : store.catalog.bound inherited = .ok (slot, definition)) : ∃ slot' definition',
      store'.catalog.bound rule = .ok (slot', definition') ∧ slot'.exclusion = none ∧
        definition'.Offers definition := by
  obtain ⟨rule', definition', hrule', hdefinition'⟩ := h.bound name hname
  cases hrule.symm.trans hrule'
  obtain ⟨slot', hslot', hdefinition⟩ := Option.bind_eq_some_iff.1 hdefinition'
  have hexclusion : slot'.exclusion = none := by
    cases hold : store.catalog.slot? rule with
    | none => exact (h.gains.catalog.fresh rule slot' hold hslot').1
    | some old =>
      obtain ⟨later, hlater, -, hsame, -⟩ := h.gains.catalog.slot rule old hold
      cases hlater.symm.trans hslot'
      exact hsame.trans (hinherits.unbound rule old
        (h.gains.catalog.local?_of_slot hinterned h.ready.interned hrule hold) hold).2
  exact ⟨slot', definition', Catalog.bound_eq_ok_iff.2 ⟨hslot', hdefinition⟩, hexclusion,
    (h.starts name definition (hinherits.starts hbound)).offers rule definition' hrule hdefinition'⟩

/-- Adding alternatives only widens a language. In any state without stale caches on the way,
whatever a rule reports it reports still, and what the rule reports that a name means in the
base of the grammar the new rule of the name reports as well. -/
theorem Session.Reached.alternatives_widen {session : Session} (h : session.Reached) {bench : Bench}
    (hsteps : session.bench.Steps bench) {id : GrammarId} (hid : .grammar id ∈ bench.held)
    {names : List String} {store' : Store} (hadds : bench.Adds id names store') :
    (∀ rule, bench.store.Useful (.rule rule) → bench.store.Current rule →
      bench.store.catalog.Unhindered (store'.catalog.NamedAmong id names) rule →
        store'.Answers rule → bench.store.Widens rule rule store') ∧
    ∀ name ∈ names, ∀ rule inherited, store'.catalog.local? id name = some rule →
      bench.store.catalog.Inherits id name inherited → bench.store.Current inherited →
        bench.store.catalog.Unhindered (store'.catalog.NamedAmong id names) inherited →
          store'.Answers rule → bench.store.Widens inherited rule store' := by
  have hable := hsteps.able h.able
  have horderly := hable.orderly
  have hsane := horderly.sane
  have huseful := horderly.useful _ hid
  have hinterned : bench.store.catalog.Interned := hsteps.durable Store.Interned.durable h.interned
  have hready : bench.store.Ready id :=
    ⟨huseful.2, hinterned, fun base hbase => (hsane.lineage id base hbase).2, hsane.notMem_bases id⟩
  obtain ⟨held, hsteps'⟩ := hadds.exists_steps hable hid
  have hsane' := (hsteps'.orderly horderly).sane
  obtain ⟨read, hcatalog, hextended, hread⟩ := hadds.exists_extended hable hready
  have hgains : bench.store.catalog.Gains id (store'.catalog.NamedAmong id names) store'.catalog :=
    hcatalog ▸ hextended.gains.catalog
  have hsound (rule : RuleId) (hcurrent : bench.store.Current rule) :=
    (hread rule hcurrent).of_holds hextended.gains.holds
  refine ⟨fun rule hrule hcurrent hunhindered hanswers => ?_,
    fun name hname rule inherited hrule hinherits hcurrent hunhindered hanswers => ?_⟩
  · have hgrown := horderly.grown hsane' hgains hrule hunhindered
    have hmem := mem_rules_scopeOf_refer hrule.1
    exact hgrown.widens hmem hcurrent ((hsound rule hcurrent).sufficient hgrown.spared_subset)
      hanswers (hgrown.ruleMatches_covers hmem)
  · obtain ⟨base, hbase, hlookup⟩ := hinherits.lookup
    have hbases : base ∈ (bench.store.catalog.grammar id).bases := List.mem_of_mem_head? hbase
    have hliving := hsane.lookup?_living (hsane.bases_alive id huseful.1 base hbases) hlookup
    obtain ⟨slot, hslot, -⟩ := hinterned.slot_of_lookup hlookup
    have hgrown := horderly.grown hsane' hgains ⟨hliving, Option.isSome_of_eq_some hslot⟩ hunhindered
    have hmem := mem_rules_scopeOf_refer hliving
    have halive : store'.catalog.alive rule.grammar = true := by
      rw [(hextended.ready.interned.local?_eq_some_iff.1 hrule).1, Catalog.alive, hgains.lost]
      exact huseful.1
    refine hgrown.widens hmem hcurrent ((hsound inherited hcurrent).sufficient hgrown.spared_subset)
      hanswers (hgrown.ruleMatches_covers_of_offers hmem halive fun slot definition hbound => ?_)
    rw [← hcatalog] at hinterned hinherits hbound
    exact hextended.bound_of_inherits hinterned hname hrule hinherits hbound

theorem Session.Reached.alternatives_widen_digit : ∃ (session : Session) (bench : Bench)
    (digit hexdig own : RuleId) (store store' : Store), session.Reached ∧ session.bench.Steps bench ∧
      (.grammar .core ∈ bench.held ∧ bench.Adds .core ["DIGIT"] store ∧
        bench.store.Useful (.rule hexdig) ∧ bench.store.Current hexdig ∧
        bench.store.catalog.Unhindered (store.catalog.NamedAmong .core ["DIGIT"]) hexdig ∧
        store.Answers hexdig ∧ bench.store.Widens hexdig hexdig store ∧
        ¬ bench.store.Reports hexdig (.ofString "x") 0 1 ∧ store.Reports hexdig (.ofString "x") 0 1) ∧
      (.grammar .abnf ∈ bench.held ∧ bench.Adds .abnf ["DIGIT"] store' ∧
        store'.catalog.local? .abnf "DIGIT" = some own ∧
        bench.store.catalog.Inherits .abnf "DIGIT" digit ∧ bench.store.Current digit ∧
        bench.store.catalog.Unhindered (store'.catalog.NamedAmong .abnf ["DIGIT"]) digit ∧
        store'.Answers own ∧ bench.store.Widens digit own store' ∧
        ¬ bench.store.Reports digit (.ofString "x") 0 1 ∧ store'.Reports own (.ofString "x") 0 1) := by
  let digit : RuleId := ⟨.core, 7⟩
  let hexdig : RuleId := ⟨.core, 9⟩
  let own : RuleId := ⟨.abnf, 24⟩
  let other : Source := .ofString "x"
  let letter : Parser := .literal ⟨.text "x", false⟩
  let bench := Session.start.bench.hold (.parser letter)
  let store := (Edit.extend .core "DIGIT" letter bench.store).2
  let store' := (Edit.extend .abnf "DIGIT" letter bench.store).2
  have hcheck : Store.standard.catalog.isPermissive = true ∧
      (Store.standard.catalog.slot? hexdig).isSome = true ∧
      store.catalog.isShallow store.catalog.ruleCount (store.catalog.refer hexdig) = true ∧
      ¬ Store.standard.Reports hexdig other 0 1 ∧ store.Reports hexdig other 0 1 ∧
      store'.catalog.isShallow store'.catalog.ruleCount (store'.catalog.refer own) = true ∧
      store'.catalog.local? .abnf "DIGIT" = some own ∧
      Store.standard.catalog.local? .abnf "DIGIT" = none ∧
      (Store.standard.catalog.grammar .abnf).base? = some .core ∧
      Store.standard.catalog.lookup? .core "DIGIT" = some digit ∧
      ¬ Store.standard.Reports digit other 0 1 ∧ store'.Reports own other 0 1 := by
    decide +kernel
  obtain ⟨hpermissive, hslot, hshallow, hnot, hreports, hshallow', hown, hnone, hbase, hlookup, hnot',
    hreports'⟩ := hcheck
  have hreached : Session.start.Reached := .start
  have hsteps : Session.start.bench.Steps bench := .single (.literal _)
  have hcore : .grammar .core ∈ bench.held := Or.inr Session.Holds.core
  have habnf : .grammar .abnf ∈ bench.held := Or.inr Session.Holds.abnf
  have hadds : bench.Adds .core ["DIGIT"] store := .extend "DIGIT" (Or.inl rfl)
  have hadds' : bench.Adds .abnf ["DIGIT"] store' := .extend "DIGIT" (Or.inl rfl)
  have huseful : bench.store.Useful (.rule hexdig) := ⟨(Session.orderly_start.useful _ .core).1, hslot⟩
  have hunhindered := (Catalog.permissive_of_isPermissive hpermissive).unhindered
  have hinherits : bench.store.catalog.Inherits .abnf "DIGIT" digit :=
    ⟨⟨_, hbase, hlookup⟩, fun rule slot hrule => by cases hnone.symm.trans hrule⟩
  have hcurrent (rule : RuleId) : bench.store.Current rule := Session.fresh_start.sound_scopeOf _
  have hanswers := Store.answers_of_isShallow hshallow
  have hanswers' := Store.answers_of_isShallow hshallow'
  exact ⟨Session.start, bench, digit, hexdig, own, store, store', hreached, hsteps,
    ⟨hcore, hadds, huseful, hcurrent hexdig, hunhindered _ _, hanswers,
      (hreached.alternatives_widen hsteps hcore hadds).1 hexdig huseful (hcurrent hexdig)
        (hunhindered _ _) hanswers, hnot, hreports⟩,
    habnf, hadds', hown, hinherits, hcurrent digit, hunhindered _ _, hanswers',
    (hreached.alternatives_widen hsteps habnf hadds').2 "DIGIT" List.mem_cons_self own digit hown
      hinherits (hcurrent digit) (hunhindered _ _) hanswers', hnot', hreports'⟩

/-- An end that only a cache reports is lost when an alternative is added in the grammar of the
cache. -/
theorem Sane.not_widens_of_isConfined {held : Set Parser} {store : Store} (h : Sane held store)
    {id : GrammarId} (hliving : id ∈ store.living) {name : String} {alternative : Parser}
    (hheld : alternative ∈ held) {rules : List RuleId} {rule : RuleId}
    (hconfined : (Edit.extend id name alternative store).2.catalog.isConfined id rules = true)
    (hmem : rule ∈ rules) (hgrammar : rule.grammar = id) {source : Source} {e : Nat}
    (hbefore : store.Reports rule source 0 e)
    (hafter : (Edit.extend id name alternative store).2.catalog.reportsEnd rule source e = false) :
    ¬ store.Widens rule rule (Edit.extend id name alternative store).2 := by
  intro hwidens
  have hturned := (loyal_empty h hliving).extend (Set.notMem_empty _) name hheld
  have hanew := hturned.parsesAnew_of_isConfined hconfined hmem hgrammar
  have hreports := hanew.reports_iff.1 (hwidens.reports source 0 e hbefore)
  cases hafter.symm.trans hreports

/-- Without the condition that no cache on the way is stale, an end may be lost: a stale cache
reports it, and is emptied when an alternative is added. -/
theorem alternative_loses_recalled_end : ¬ ∀ (session : Session) (bench : Bench) (id : GrammarId)
    (name : String) (alternative : Parser) (rule : RuleId), session.Reached →
      session.bench.Steps bench → .grammar id ∈ bench.held → .parser alternative ∈ bench.held →
        bench.store.catalog.Permissive →
        (Edit.extend id name alternative bench.store).2.catalog.Permissive →
        (∀ other, other.grammar = id → bench.store.Useful (.rule other) →
          bench.store.Answers other ∧ (Edit.extend id name alternative bench.store).2.Answers other) →
        rule.grammar = id → bench.store.Useful (.rule rule) →
          bench.store.Widens rule rule (Edit.extend id name alternative bench.store).2 := by
  intro hall
  let prose : RuleId := ⟨.abnf, 17⟩
  let items : RuleId := ⟨.core, 16⟩
  let source : Source := .ofString "<>"
  let terminal : Literal := ⟨.text "x", false⟩
  let shallow (catalog : Catalog) (rule : RuleId) : Bool :=
    catalog.isShallow catalog.ruleCount (catalog.refer rule)
  let check (session : Session) : Bool :=
    let turned := (Edit.setDefinition prose (.literal terminal) session.store).2
    let extended := (Edit.extend .core "items" (.literal terminal) turned).2
    session.store.caches.all (·.isEmpty) && session.store.catalog.repeatsApart prose items &&
      decide (session.store.catalog.lookup? .abnf "prose-val" = some prose) &&
      session.store.catalog.reportsEnd items source 2 && turned.catalog.isPermissive &&
      extended.catalog.isPermissive && (turned.catalog.slot? items).isSome &&
      ((turned.catalog.rulesOf .core).all fun rule =>
        shallow turned.catalog rule && shallow extended.catalog rule) &&
      extended.catalog.isConfined .core [items, prose] &&
      !extended.catalog.reportsEnd items source 2
  have hcheck : (Session.start.carryOut [.define "core" "items" (.repetition ⟨1, none⟩
      ⟨8, by decide⟩ (.rule (.named "abnf" "prose-val"))) none]).any check = true := by
    decide +kernel
  obtain ⟨session, hcarry, hcheck⟩ := (Option.any_eq_true _ _).1 hcheck
  simp only [check, Bool.and_eq_true, decide_eq_true_eq, Bool.not_eq_true'] at hcheck
  obtain ⟨⟨⟨⟨⟨⟨⟨⟨⟨hempty, hapart⟩, hlookup⟩, hbefore⟩, hpermissive⟩, hpermissive'⟩, hslot⟩, hshallow⟩,
    hconfined⟩, hafter⟩ := hcheck
  have hreached : session.Reached := Session.Reached.start.carryOut hcarry
  have hfresh : session.store.Fresh := .of_all_isEmpty hempty
  obtain ⟨bench, hsteps, hholds, hliteral, halike, hreports⟩ :=
    hreached.orderly.exists_stale (hfresh.sound_scopeOf _) (by decide) hapart Session.Holds.abnf
      hlookup terminal hbefore
  have halike : (Edit.setDefinition prose (.literal terminal) session.store).2.Alike bench.store :=
    halike
  have horderly := hsteps.orderly hreached.orderly
  have hheld : .grammar .core ∈ bench.held := hholds Session.Holds.core
  have hextended := (Edit.blind_extend .core "items" (.literal terminal) _ _ halike).2
  rw [← halike.catalog] at hpermissive hslot hshallow
  rw [← hextended.catalog] at hpermissive' hshallow hconfined hafter
  have hnot := horderly.sane.not_widens_of_isConfined (horderly.useful _ hheld).1 hliteral hconfined
    List.mem_cons_self rfl hreports hafter
  refine hnot (hall session bench .core "items" (.literal terminal) items hreached hsteps hheld
    hliteral (Catalog.permissive_of_isPermissive hpermissive)
    (Catalog.permissive_of_isPermissive hpermissive') (fun other hother huseful => ?_) rfl
    ⟨(horderly.useful _ hheld).1, hslot⟩)
  have hmem := Catalog.mem_rulesOf huseful.2
  rw [hother] at hmem
  have hboth := List.all_eq_true.1 hshallow other hmem
  rw [Bool.and_eq_true] at hboth
  exact ⟨Store.answers_of_isShallow hboth.1, Store.answers_of_isShallow hboth.2⟩

end Metasyntax
