import Metasyntax.Proofs.Binding
import Metasyntax.Proofs.Reconfiguration
import Metasyntax.Proofs.Rereading
import Metasyntax.Proofs.Rollback

/-!
# What rule text is read through

Rule text is read with three rules of one grammar, and with all that these lead to. As long
as none of that changes and none of its caches is stale, reading gives the same answers and
leaves this so. Binding productions changes nothing of it if the grammar that they are bound
in has no part in it.
-/

set_option autoImplicit false

namespace Metasyntax

open Edit (Keeps)

namespace Catalog

def reading (c : Catalog) : Scope :=
  c.scopeOf (.concatenation (RuleText.entries.filterMap fun name =>
    (c.local? .abnf name).map fun rule => .rule (c.refer rule)))

variable {c c' : Catalog}

theorem mem_reading {name : String} (hname : name ∈ RuleText.entries) {rule : RuleId}
    (hrule : c.local? .abnf name = some rule) (halive : c.alive .abnf = true) :
    rule ∈ c.reading.rules := by
  have hgrammar : rule.grammar = .abnf := by
    obtain ⟨place, -, rfl⟩ := Option.map_eq_some_iff.1 hrule
    rfl
  refine ⟨c.refer rule, .here (Parser.mem_references.2 ?_), ?_⟩
  · have hentry : Parser.rule (c.refer rule) ∈ RuleText.entries.filterMap fun name =>
        (c.local? .abnf name).map fun rule => Parser.rule (c.refer rule) :=
      List.mem_filterMap.2 ⟨name, hname, by rw [hrule]; rfl⟩
    exact List.mem_cons_of_mem _ (Parser.mem_walkAll.2 ⟨_, hentry, Parser.self_mem_walk _⟩)
  · rw [resolve, if_pos]
    · rfl
    · rwa [← hgrammar] at halive

/-- What is in the scope, apart from the rules that it starts from, is part of a definition. -/
theorem mem_nodes_reading {node : Parser} (h : node ∈ c.reading.nodes) :
    (node.cache? = none ∧ ∀ mode branches, node ≠ .alternation mode branches) ∨
      ∃ rule ∈ c.reading.rules, ∃ slot definition, c.bound rule = .ok (slot, definition) ∧
        node ∈ definition.walk := by
  rcases h with hnode | ⟨ref, rule, slot, definition, hleads, hresolve, hbound, hnode⟩
  · refine Or.inl ?_
    rcases List.mem_cons.1 hnode with rfl | hnode
    · exact ⟨rfl, nofun⟩
    · obtain ⟨part, hpart, hnode⟩ := Parser.mem_walkAll.1 hnode
      obtain ⟨name, -, hpart⟩ := List.mem_filterMap.1 hpart
      obtain ⟨rule, -, rfl⟩ := Option.map_eq_some_iff.1 hpart
      cases List.mem_singleton.1 hnode
      exact ⟨rfl, nofun⟩
  · exact Or.inr ⟨rule, ⟨ref, hleads, hresolve⟩, slot, definition, hbound, hnode⟩

end Catalog

/-- No cache is stale that rule text is read through. -/
def Store.ReadsAnew (store : Store) : Prop :=
  Sound store.catalog store.catalog.reading.nodes store.caches

structure Store.Reads (origin : Catalog) (id : GrammarId) (store : Store) : Prop where
  orderly : Bench.Orderly ⟨store, {.grammar .abnf, .grammar id}⟩
  interned : store.Interned
  found : ∀ name ∈ RuleText.entries, ∀ rule, origin.local? .abnf name = some rule →
    store.catalog.local? .abnf name = some rule
  same : origin.reading.Same origin store.catalog
  sound : Sound store.catalog origin.reading.nodes store.caches
  options : (store.catalog.grammar id).options = (origin.grammar id).options

theorem Edit.Works.orderly {needs : Set Handle} {α : Type} {edit : Edit α}
    {gives : α → Set Handle} (h : Works needs edit gives) {store : Store}
    (horderly : Bench.Orderly ⟨store, needs⟩) : Bench.Orderly ⟨(edit store).2, needs⟩ :=
  ((h ⟨store, needs⟩ fun _ hx => hx).forget Set.subset_union_left).orderly horderly

namespace Store.Reads

variable {origin : Catalog} {id : GrammarId} {store store' : Store}

theorem loadable (h : Reads origin id store) (hreadable : origin.Readable) : store.Loadable where
  furnished := h.orderly.sane.furnished
  readable name hname := (hreadable name hname).imp fun rule hrule => h.found name hname rule hrule

theorem exists_entry (h : Reads origin id store) (hreadable : origin.Readable) {name : String}
    (hname : name ∈ RuleText.entries) : ∃ rule, origin.local? .abnf name = some rule ∧
      rule ∈ origin.reading.rules ∧ Edit.rule .abnf name store = (rule, store) := by
  obtain ⟨rule, hrule⟩ := hreadable name hname
  have habnf : store.catalog.alive .abnf = true := (h.orderly.useful _ (Or.inl rfl)).1
  exact ⟨rule, hrule, Catalog.mem_reading hname hrule (h.same.alive _ ▸ habnf),
    Edit.rule_of_local (h.found name hname rule hrule)⟩

theorem mem_within (h : Reads origin id store) {node : Parser}
    (hnode : node ∈ origin.reading.nodes) :
    (node.cache? = none ∧ ∀ mode branches, node ≠ .alternation mode branches) ∨
      node ∈ (store.catalog.within Set.univ).nodes := by
  rcases Catalog.mem_nodes_reading hnode with hleaf | ⟨rule, hrule, slot, definition, hbound, hnode⟩
  · exact Or.inl hleaf
  · exact Or.inr ⟨rule, slot, definition, Set.mem_univ _, h.same.bound_eq hrule ▸ hbound, hnode⟩

theorem closed (h : Reads origin id store) : origin.reading.Closed store.catalog :=
  h.same.closed (origin.closed_scopeOf _)

theorem apart (h : Reads origin id store) :
    Apart origin.reading.nodes origin.reading.nodes := by
  intro a ha b hb cache hcache hcache'
  rcases h.mem_within ha with ⟨hnone, -⟩ | ha
  · rw [hnone] at hcache
    cases hcache
  · rcases h.mem_within hb with ⟨hnone, -⟩ | hb
    · rw [hnone] at hcache'
      cases hcache'
    · exact h.orderly.sane.apart_within _ _ a ha b hb cache hcache hcache'

theorem apart_definition (h : Reads origin id store) (rule : RuleId) (slot : Slot)
    (definition : Parser) (hbound : store.catalog.bound rule = .ok (slot, definition)) :
    Apart {node | node ∈ definition.walk} origin.reading.nodes := by
  intro a ha b hb cache hcache hcache'
  rcases h.mem_within hb with ⟨hnone, -⟩ | hb
  · rw [hnone] at hcache'
    cases hcache'
  · exact h.orderly.sane.apart_definition _ rule slot definition hbound a ha b hb cache hcache
      hcache'

theorem of_caches (h : Reads origin id store) {caches : Caches} {lost : List CacheId}
    (horderly : Bench.Orderly ⟨⟨store.catalog, caches, lost⟩, {.grammar .abnf, .grammar id}⟩)
    (hsound : Sound store.catalog origin.reading.nodes caches) :
    Reads origin id ⟨store.catalog, caches, lost⟩ :=
  ⟨horderly, h.interned, h.found, h.same, hsound, h.options⟩

theorem parsing {α : Type} {run : Catalog → Run α}
    (hrun : ∀ catalog, Respects catalog (run catalog))
    (hworks : Edit.Works {.grammar .abnf, .grammar id} (Edit.parsing run) fun _ => ∅) :
    Keeps (Reads origin id) (Edit.parsing run) := fun store h =>
  h.of_caches (hworks.orderly h.orderly)
    (hrun store.catalog _ h.closed h.apart h.apart_definition _ _ ⟨h.sound, rfl⟩).1.1

theorem parsesAlike (h : Reads origin id store) (h' : Reads origin id store') {rule : RuleId}
    (hrule : rule ∈ origin.reading.rules) : Store.ParsesAlike rule store store' :=
  (h.same.symm.trans h'.same).parsesAlike h.closed h.apart hrule h.sound h'.sound

/-- Reading leaves it so that rule text is read as it was, and gives the same answers. -/
theorem attentive (hreadable : origin.Readable) :
    Attentive (Reads origin id) (· ∈ origin.reading.rules) where
  rule hname store h := by
    obtain ⟨rule, -, -, hrule⟩ := h.exists_entry hreadable hname
    rwa [hrule]
  found hname store h := by
    obtain ⟨rule, -, hmem, hrule⟩ := h.exists_entry hreadable hname
    rwa [hrule]
  parse source start _ := parsing (fun catalog => respects_parse catalog _ source start)
    (Edit.works_parse _ source start)
  parseAll source _ := parsing (fun catalog => respects_parseAll catalog _ source)
    (Edit.works_parseAll _ source)
  clearCaches store h :=
    h.of_caches ((Edit.works_clearCaches .abnf).orderly h.orderly)
      (h.sound.of_holds (quiet_clearCaches .abnf).holds)
  entry hname store store' h h' := by
    obtain ⟨rule, hlocal, -, hrule⟩ := h.exists_entry hreadable hname
    obtain ⟨rule', hlocal', -, hrule'⟩ := h'.exists_entry hreadable hname
    rw [hrule, hrule']
    exact Option.some_inj.1 (hlocal.symm.trans hlocal')
  parses source start hrule store store' h h' := (h.parsesAlike h' hrule).parse source start
  parsesAll source hrule store store' h h' := (h.parsesAlike h' hrule).parseAll source

end Store.Reads

/-- The rules exist that can be come to from a parser that refers to rules which exist. -/
theorem Bench.Orderly.isSome_of_leads {bench : Bench} (h : bench.Orderly) {parser : Parser}
    (hparser : ∀ ref ∈ parser.references, (bench.store.catalog.slot? ref.target).isSome)
    {ref : RuleRef} (hleads : bench.store.catalog.Leads parser ref) :
    (bench.store.catalog.slot? ref.target).isSome := by
  cases hleads with
  | here href => exact hparser _ href
  | definition _ _ hbound href =>
    obtain ⟨hslot, hdefinition⟩ := Catalog.bound_eq_ok_iff.1 hbound
    exact h.referred _ _ hslot _ (Slot.mem_references.2 (Or.inl ⟨_, hdefinition, href⟩))
  | exclusion _ _ hbound hexclusion =>
    exact h.referred _ _ (Catalog.bound_eq_ok_iff.1 hbound).1 _
      (Slot.mem_references.2 (Or.inr hexclusion))

structure Catalog.Legible (c : Catalog) : Prop where
  readable : c.Readable
  interned : c.Interned
  exists_slot : ∀ rule ∈ c.reading.rules, ∃ slot, c.slot? rule = some slot

theorem Session.Reached.legible {session : Session} (h : session.Reached) :
    session.store.catalog.Legible where
  readable := h.loadable.readable
  interned := h.interned
  exists_slot := by
    rintro rule ⟨ref, hleads, hresolve⟩
    rw [Catalog.eq_of_resolve hresolve, ← Option.isSome_iff_exists]
    refine h.orderly.isSome_of_leads (fun ref href => ?_) hleads
    rcases List.mem_cons.1 (Parser.mem_references.1 href) with heq | hnode
    · cases heq
    · obtain ⟨part, hpart, hnode⟩ := Parser.mem_walkAll.1 hnode
      obtain ⟨name, -, hpart⟩ := List.mem_filterMap.1 hpart
      obtain ⟨rule, hlocal, rfl⟩ := Option.map_eq_some_iff.1 hpart
      cases List.mem_singleton.1 hnode
      obtain ⟨-, slot, hslot, -⟩ := Catalog.Interned.local?_eq_some_iff h.interned |>.1 hlocal
      exact Option.isSome_of_eq_some hslot

/-- A scope is left alone of which no rule is bound anew. -/
theorem Catalog.Develops.same {id : GrammarId} {wanted : String → Prop} {bound : RuleId → Prop}
    {c c' : Catalog} (h : c.Develops id wanted bound c') {scope : Scope}
    (hslots : ∀ rule ∈ scope.rules, ∃ slot, c.slot? rule = some slot)
    (hscope : ∀ rule ∈ scope.rules, ¬ bound rule)
    (hmode : ∀ mode branches, .alternation mode branches ∈ scope.nodes →
      mode.index < c.modes.size) : scope.Same c c' where
  alive other := by rw [alive, alive, h.lost]
  slot rule hrule := by
    obtain ⟨slot, hslot⟩ := hslots rule hrule
    obtain ⟨⟨name, definition, exclusion⟩, hslot', rfl, rfl, hdefinition⟩ := h.slot rule slot hslot
    obtain rfl : definition = slot.definition := hdefinition (hscope rule hrule)
    exact hslot'.trans hslot.symm
  mode mode branches hnode := by
    have hsome := Array.getElem?_eq_getElem (hmode mode branches hnode)
    rw [Expression.firstMatch_of_getElem? hsome,
      Expression.firstMatch_of_getElem? (h.mode mode _ hsome)]

/-- What is remembered once a production is bound was remembered before. -/
theorem Edit.holds_bind_singleton {id : GrammarId} {production : Production}
    (hplain : production.incremental = false) {held : Set Parser} {store : Store}
    (hsane : Sane held store) {cache : CacheId} {key : CacheKey} {attempt : Attempt}
    (h : (Edit.bind id [production] store).2.caches.Holds cache key attempt) :
    store.caches.Holds cache key attempt := by
  have hnamed : Quiet store (localRule id production.name store).2 :=
    quiet_localRule id production.name
  simp only [bind_singleton, bindOne, hplain] at h
  have hassembled := (assemble_ensures id
    (((localRule id production.name store).2.catalog.grammar id).options) production.body
    (hnamed.sane hsane)).1
  exact hnamed.holds _ _ _ (hassembled.holds _ _ _ (holds_define h))

/-- None of the rules that rule text is read with is a grammar's rule of a name. -/
def Catalog.Aside (id : GrammarId) (c : Catalog) (name : String) : Prop :=
  ∀ rule, c.local? id name = some rule → rule ∉ c.reading.rules

/-- Rule text is read as it was once rules are bound that it is not read with. -/
theorem Store.Reads.of_develops {origin : Catalog} {id : GrammarId} {store store' : Store}
    (h : Reads origin id store) (hlegible : origin.Legible) {wanted : String → Prop}
    {bound : RuleId → Prop} (hdevelops : store.catalog.Develops id wanted bound store'.catalog)
    (hbound : ∀ rule, bound rule →
      ∃ name, store'.catalog.local? id name = some rule ∧ origin.Aside id name)
    (hholds : ∀ cache key attempt, store'.caches.Holds cache key attempt →
      store.caches.Holds cache key attempt)
    (horderly : Bench.Orderly ⟨store', {.grammar .abnf, .grammar id}⟩)
    (hinterned : store'.Interned) : Reads origin id store' := by
  have hslots : ∀ rule ∈ origin.reading.rules, ∃ slot, origin.slot? rule = some slot ∧
      store.catalog.slot? rule = some slot := fun rule hrule =>
    (hlegible.exists_slot rule hrule).imp fun slot hslot =>
      ⟨hslot, (h.same.slot rule hrule).trans hslot⟩
  have hkept : ∀ rule ∈ origin.reading.rules, ¬ bound rule := by
    intro rule hrule hmem
    obtain ⟨name, hlocal, haside⟩ := hbound rule hmem
    obtain ⟨slot, horigin, hslot⟩ := hslots rule hrule
    obtain ⟨slot', hslot', hname, -⟩ := hdevelops.slot rule slot hslot
    obtain ⟨hgrammar, _, hslot'', hname'⟩ :=
      Catalog.Interned.local?_eq_some_iff hinterned |>.1 hlocal
    cases hslot'.symm.trans hslot''
    exact haside rule (hlegible.interned.local?_eq_some_iff.2
      ⟨hgrammar, slot, horigin, hname ▸ hname'⟩) hrule
  have hsame : origin.reading.Same store.catalog store'.catalog :=
    hdevelops.same (fun rule hrule => (hslots rule hrule).imp fun _ hslot => hslot.2) hkept
      fun mode branches hnode => by
        rcases h.mem_within hnode with ⟨-, hleaf⟩ | hnode
        · exact absurd rfl (hleaf mode branches)
        · exact h.orderly.sane.mode_lt mode branches (Or.inr hnode)
  exact
    { orderly := horderly
      interned := hinterned
      found := fun name hname rule hrule => hdevelops.found _ _ _ (h.found name hname rule hrule)
      same := h.same.trans hsame
      sound := hsame.sound h.closed (h.sound.of_holds hholds)
      options := (hdevelops.options id).trans h.options }

theorem Edit.orderly_bind {id : GrammarId} {store : Store}
    (h : Bench.Orderly ⟨store, {.grammar .abnf, .grammar id}⟩) (productions : List Production) :
    Bench.Orderly ⟨(Edit.bind id productions store).2, {.grammar .abnf, .grammar id}⟩ := by
  have hworks : Edit.Works {.grammar .abnf, .grammar id} (Edit.bind id productions) fun _ => ∅ :=
    (Edit.works_bind id productions).mono (fun _ hx => Or.inr hx) fun _ => Set.empty_subset _
  exact hworks.orderly h

/-- Rule text is read as it was once a production is bound that defines no rule that it is
read with. -/
theorem Store.Reads.bind {origin : Catalog} {id : GrammarId} {store : Store}
    (h : Reads origin id store) (hlegible : origin.Legible) {production : Production}
    (hplain : production.incremental = false) (haside : origin.Aside id production.name) :
    Reads origin id (Edit.bind id [production] store).2 := by
  have hindex : id.index < store.catalog.grammars.size := (h.orderly.useful _ (Or.inr rfl)).2
  have hbatch : Production.Batch [production] :=
    ⟨by simpa using hplain, List.pairwise_singleton _ _⟩
  obtain ⟨hbinds, -⟩ := Edit.binds_bind hbatch h.interned hindex
  refine h.of_develops hlegible hbinds.toDevelops ?_
    (fun _ _ _ hholds => Edit.holds_bind_singleton hplain h.orderly.sane hholds)
    (Edit.orderly_bind h.orderly _) (Edit.lasting_bind id [production] _ Interned.durable _ h.interned)
  rintro rule ⟨_, hmem, hlocal⟩
  cases List.mem_singleton.1 hmem
  exact ⟨production.name, hlocal, haside⟩

end Metasyntax
