import Metasyntax.Proofs.Ordering
import Metasyntax.Proofs.Portions

/-!
# What loads leave in caches

Rule text is read through the caches of some rules, and empties those of the grammar of rule
text. To bind a rule empties those of its grammar, and adds others that are empty. So what loads
leave in caches that rule text is not read through depends on the grammars that were loaded into,
and not on the texts.
-/

set_option autoImplicit false

namespace Metasyntax

structure Store.Renewed (origin : Store) (outside : Set CacheId) (capacity : Capacity)
    (emptied : Set GrammarId) (store : Store) : Prop where
  size_le : origin.caches.size ≤ store.caches.size
  lost : store.lostCaches = origin.lostCaches
  registered : ∀ id, ∀ cache ∈ (origin.catalog.grammar id).registry.members,
    cache ∉ origin.lostCaches → cache ∈ (store.catalog.grammar id).registry.members
  registry : ∀ id, ∀ cache ∈ (store.catalog.grammar id).registry.members,
    cache ∉ origin.lostCaches →
      cache ∈ (origin.catalog.grammar id).registry.members ∨ origin.caches.size ≤ cache.index
  cleared : ∀ cache ∈ outside, cache.index < origin.caches.size →
    (∃ id ∈ emptied, cache ∈ origin.cachesOf id) →
      store.caches[cache.index]? = (origin.caches[cache.index]?).map Cache.clear
  kept : ∀ cache ∈ outside, cache.index < origin.caches.size →
    (∀ id ∈ emptied, cache ∉ origin.cachesOf id) →
      store.caches[cache.index]? = origin.caches[cache.index]?
  fresh : ∀ cache ∈ outside, origin.caches.size ≤ cache.index →
    cache.index < store.caches.size → store.caches[cache.index]? = some (.empty capacity)

/-- The caches that are cleared are. -/
theorem Caches.getElem?_clearAll (cleared : List CacheId) (caches : Caches) (id : CacheId) :
    (id ∉ cleared → (cleared.foldl (fun caches cache => caches.modify cache.index (·.clear))
      caches)[id.index]? = caches[id.index]?) ∧
    (id ∈ cleared → (cleared.foldl (fun caches cache => caches.modify cache.index (·.clear))
      caches)[id.index]? = (caches[id.index]?).map Cache.clear) := by
  refine ⟨fun hid => InState.clearAll hid rfl, fun hid => ?_⟩
  induction cleared generalizing caches with
  | nil => cases hid
  | cons first rest ih =>
    rw [List.foldl_cons]
    by_cases hfirst : id = first
    · subst hfirst
      have hmodify : (caches.modify id.index (·.clear))[id.index]? =
          (caches[id.index]?).map Cache.clear := by
        rw [Array.getElem?_modify, if_pos rfl]
      by_cases hrest : id ∈ rest
      · -- to clear a cache once more changes nothing
        rw [ih _ hrest, hmodify, Option.map_map]
        rfl
      · rw [InState.clearAll hrest rfl, hmodify]
    · rw [ih _ ((List.mem_cons.1 hid).resolve_left hfirst), Array.getElem?_modify, if_neg]
      intro heq
      obtain ⟨index⟩ := id
      obtain ⟨index'⟩ := first
      exact hfirst (congrArg CacheId.mk heq.symm)

namespace Store.Renewed

variable {origin store store' : Store} {outside : Set CacheId} {capacity : Capacity}
  {emptied : Set GrammarId}

theorem refl (origin : Store) (outside : Set CacheId) (capacity : Capacity) :
    origin.Renewed outside capacity ∅ origin where
  size_le := le_rfl
  lost := rfl
  registered _ _ h _ := h
  registry _ _ h _ := Or.inl h
  cleared _ _ _ h := by
    obtain ⟨_, hid, -⟩ := h
    exact hid.elim
  kept _ _ _ _ := rfl
  fresh _ _ hle hlt := absurd hlt hle.not_gt

/-- What has come from one store in two ways remembers the same. -/
theorem getElem?_eq (h : origin.Renewed outside capacity emptied store)
    (h' : origin.Renewed outside capacity emptied store')
    (hsize : store'.caches.size = store.caches.size) {cache : CacheId} (hcache : cache ∈ outside) :
    store.caches[cache.index]? = store'.caches[cache.index]? := by
  by_cases hold : cache.index < origin.caches.size
  · by_cases hcleared : ∃ id ∈ emptied, cache ∈ origin.cachesOf id
    · rw [h.cleared cache hcache hold hcleared, h'.cleared cache hcache hold hcleared]
    · have hkept : ∀ id ∈ emptied, cache ∉ origin.cachesOf id :=
        fun id hid hmem => hcleared ⟨id, hid, hmem⟩
      rw [h.kept cache hcache hold hkept, h'.kept cache hcache hold hkept]
  · by_cases hnew : cache.index < store.caches.size
    · rw [h.fresh cache hcache (Nat.le_of_not_lt hold) hnew,
        h'.fresh cache hcache (Nat.le_of_not_lt hold) (hsize ▸ hnew)]
    · rw [Array.getElem?_eq_none (Nat.le_of_not_lt hnew),
        Array.getElem?_eq_none (hsize ▸ Nat.le_of_not_lt hnew)]

/-- Registered caches and the caches that are kept track of stay as they are. -/
theorem congr (h : origin.Renewed outside capacity emptied store)
    (hcaches : ∀ cache ∈ outside, store'.caches[cache.index]? = store.caches[cache.index]?)
    (hsize : store'.caches.size = store.caches.size)
    (hlost : store'.lostCaches = store.lostCaches)
    (hregistry : ∀ id, (store'.catalog.grammar id).registry = (store.catalog.grammar id).registry) :
    origin.Renewed outside capacity emptied store' where
  size_le := hsize ▸ h.size_le
  lost := hlost.trans h.lost
  registered id cache hcache hlost := hregistry id ▸ h.registered id cache hcache hlost
  registry id cache hcache := h.registry id cache (hregistry id ▸ hcache)
  cleared cache hcache hlt hcleared :=
    (hcaches cache hcache).trans (h.cleared cache hcache hlt hcleared)
  kept cache hcache hlt hkept := (hcaches cache hcache).trans (h.kept cache hcache hlt hkept)
  fresh cache hcache hle hlt :=
    (hcaches cache hcache).trans (h.fresh cache hcache hle (hsize ▸ hlt))

theorem mem_cachesOf (h : origin.Renewed outside capacity emptied store) {id : GrammarId}
    {cache : CacheId} (hlt : cache.index < origin.caches.size) :
    cache ∈ store.cachesOf id ↔ cache ∈ origin.cachesOf id := by
  rw [Store.cachesOf, Store.cachesOf, Registry.living, Registry.living,
    Store.cacheAlive_congr h.lost, List.mem_filter, List.mem_filter]
  refine and_congr_left fun hcache => ?_
  have hlost := Store.cacheAlive_iff.1 hcache
  exact ⟨fun hmem => (h.registry id cache hmem hlost).resolve_right hlt.not_ge,
    fun hmem => h.registered id cache hmem hlost⟩

/-- The caches of a grammar are emptied. -/
theorem clearCaches (h : origin.Renewed outside capacity emptied store) (id : GrammarId) :
    origin.Renewed outside capacity (insert id emptied) (Edit.clearCaches id store).2 := by
  have hclear (cache : CacheId) := Caches.getElem?_clearAll (store.cachesOf id) store.caches cache
  have hsize : (Edit.clearCaches id store).2.caches.size = store.caches.size := size_clearCaches id
  refine
    { size_le := hsize ▸ h.size_le
      lost := h.lost
      registered := h.registered
      registry := h.registry
      cleared := fun cache hcache hlt hcleared => ?_
      kept := fun cache hcache hlt hkept => ?_
      fresh := fun cache hcache hle hlt => ?_ }
  · by_cases hmem : cache ∈ store.cachesOf id
    · refine ((hclear cache).2 hmem).trans ?_
      by_cases hbefore : ∃ id ∈ emptied, cache ∈ origin.cachesOf id
      · rw [h.cleared cache hcache hlt hbefore, Option.map_map]
        rfl
      · rw [h.kept cache hcache hlt fun id hid hmem => hbefore ⟨id, hid, hmem⟩]
    · refine ((hclear cache).1 hmem).trans (h.cleared cache hcache hlt ?_)
      obtain ⟨other, hother, howns⟩ := hcleared
      rcases Set.mem_insert_iff.1 hother with rfl | hother
      · exact absurd ((h.mem_cachesOf hlt).2 howns) hmem
      · exact ⟨other, hother, howns⟩
  · have hmem : cache ∉ store.cachesOf id := fun hmem =>
      hkept id (Set.mem_insert _ _) ((h.mem_cachesOf hlt).1 hmem)
    exact ((hclear cache).1 hmem).trans
      (h.kept cache hcache hlt fun other hother => hkept other (Set.mem_insert_of_mem _ hother))
  · have hfresh := h.fresh cache hcache hle (hsize ▸ hlt)
    by_cases hmem : cache ∈ store.cachesOf id
    · rw [show (Edit.clearCaches id store).2.caches[cache.index]? = _ from (hclear cache).2 hmem,
        hfresh]
      rfl
    · exact ((hclear cache).1 hmem).trans hfresh

theorem newCache (h : origin.Renewed outside capacity emptied store) :
    origin.Renewed outside capacity emptied (Edit.newCache capacity store).2 := by
  have hsize : (Edit.newCache capacity store).2.caches.size = store.caches.size + 1 :=
    Array.size_push ..
  have hold {cache : CacheId} (hlt : cache.index < store.caches.size) :
      (Edit.newCache capacity store).2.caches[cache.index]? = store.caches[cache.index]? := by
    change (store.caches.push (.empty capacity))[cache.index]? = _
    rw [Array.getElem?_push, if_neg hlt.ne]
  refine
    { size_le := by rw [hsize]; exact Nat.le_succ_of_le h.size_le
      lost := h.lost
      registered := h.registered
      registry := h.registry
      cleared := fun cache hcache hlt hcleared =>
        (hold (hlt.trans_le h.size_le)).trans (h.cleared cache hcache hlt hcleared)
      kept := fun cache hcache hlt hkept =>
        (hold (hlt.trans_le h.size_le)).trans (h.kept cache hcache hlt hkept)
      fresh := fun cache hcache hle hlt => ?_ }
  rcases Nat.lt_succ_iff_lt_or_eq.1 (hsize ▸ hlt) with hlt | heq
  · exact (hold hlt).trans (h.fresh cache hcache hle hlt)
  · change (store.caches.push (.empty capacity))[cache.index]? = _
    rw [heq, Array.getElem?_push_size]

theorem localRule (h : origin.Renewed outside capacity emptied store) (id : GrammarId)
    (name : String) : origin.Renewed outside capacity emptied (Edit.localRule id name store).2 := by
  cases hlocal : store.catalog.local? id name with
  | some rule => rwa [localRule_eq_of_local hlocal]
  | none =>
    simp only [Edit.localRule, Edit.bind_apply, Edit.get_apply, Edit.pure_apply, hlocal]
    exact h.congr (fun _ _ => rfl) rfl rfl (Edit.registry_modifyTable id _ store)

theorem rule (h : origin.Renewed outside capacity emptied store) (id : GrammarId) (name : String) :
    origin.Renewed outside capacity emptied (Edit.rule id name store).2 := by
  cases hlookup : store.catalog.lookup? id name with
  | some rule =>
    simp only [Edit.rule, Edit.bind_apply, Edit.get_apply, Edit.pure_apply, hlookup]
    exact h
  | none =>
    simp only [Edit.rule, Edit.bind_apply, Edit.get_apply, hlookup]
    exact h.localRule id name

theorem newMode (h : origin.Renewed outside capacity emptied store) (firstMatch : Bool) :
    origin.Renewed outside capacity emptied (Edit.newMode firstMatch store).2 :=
  h.congr (fun _ _ => rfl) rfl rfl fun _ => rfl

/-- A rule is bound to a parser whose caches are registered or new. -/
theorem setDefinition (h : origin.Renewed outside capacity emptied store) (rule : RuleId)
    {definition : Parser} (hcaches : ∀ cache ∈ definition.caches, cache ∉ store.lostCaches →
      cache ∈ (store.catalog.grammar rule.grammar).registry.members ∨
        origin.caches.size ≤ cache.index) :
    origin.Renewed outside capacity (insert rule.grammar emptied)
      (Edit.setDefinition rule definition store).2 := by
  obtain ⟨adopted, hadopts, hset⟩ := Edit.exists_setDefinition rule definition store
  rw [hset]
  refine clearCaches ?_ rule.grammar
  have hgrammar (id : GrammarId) := Edit.grammar_modifyGrammar rule.grammar (fun grammar =>
    { adopted grammar with
      table := grammar.table.update rule.slot fun slot =>
        { slot with definition := some definition } }) store id
  exact
    { h with
      registered := fun id cache hcache hlost => by
        have hmem := h.registered id cache hcache hlost
        rw [← h.lost] at hlost
        rw [hgrammar]
        split
        case isTrue heq =>
          exact hadopts.registered _ cache (Store.cacheAlive_iff.2 hlost) (Or.inl (heq.1 ▸ hmem))
        case isFalse => exact hmem
      registry := fun id cache hcache hlost => by
        rw [hgrammar] at hcache
        split at hcache
        case isTrue heq =>
          rcases hadopts.registry _ cache hcache with hcache | hcache
          · exact h.registry id cache (heq.1 ▸ hcache) hlost
          · rcases hcaches cache hcache (h.lost ▸ hlost) with hcache | hnew
            · exact h.registry id cache (heq.1 ▸ hcache) hlost
            · exact Or.inr hnew
        case isFalse => exact h.registry id cache hcache hlost }

end Store.Renewed

def Parser.Recent (size : Nat) (parser : Parser) : Prop :=
  ∀ node ∈ parser.walk, ∀ cache, node.cache? = some cache → size ≤ cache.index

theorem Parser.Recent.caches {size : Nat} {parser : Parser} (h : parser.Recent size)
    {cache : CacheId} (hcache : cache ∈ parser.caches) : size ≤ cache.index := by
  obtain ⟨node, hnode, hcache⟩ := List.mem_filterMap.1 hcache
  exact h node hnode cache hcache

namespace Edit

variable {origin store : Store} {outside : Set CacheId}
  {emptied : Set GrammarId} {id : GrammarId} {options : Options}

mutual
/-- Assembling adds empty caches only, and what is assembled has no others. -/
theorem assemble_renewed (expression : Expression)
    {store : Store} (h : origin.Renewed outside options.cacheSize emptied store) :
    origin.Renewed outside options.cacheSize emptied (assemble id options expression store).2 ∧
      (assemble id options expression store).1.Recent origin.caches.size := by
  cases expression with
  | literal terminal | prose text =>
    simp only [assemble, pure_apply]
    exact ⟨h, by simp [Parser.Recent, Parser.walk, Parser.cache?]⟩
  | name name =>
    simp only [assemble, bind_apply, get_apply, pure_apply]
    exact ⟨h.rule id name, by simp [Parser.Recent, Parser.walk, Parser.cache?]⟩
  | choice branches =>
    obtain ⟨hall, hrecent⟩ := assembleAll_renewed branches h
    simp only [assemble, bind_apply]
    refine ⟨hall.newMode _, fun node hnode cache hcache => ?_⟩
    rcases List.mem_cons.1 hnode with rfl | hnode
    · cases hcache
    · obtain ⟨branch, hbranch, hnode⟩ := Parser.mem_walkAll.1 hnode
      exact hrecent branch hbranch node hnode cache hcache
  | sequence items =>
    obtain ⟨hall, hrecent⟩ := assembleAll_renewed items h
    simp only [assemble, bind_apply, pure_apply]
    refine ⟨hall, fun node hnode cache hcache => ?_⟩
    rcases List.mem_cons.1 hnode with rfl | hnode
    · cases hcache
    · obtain ⟨item, hitem, hnode⟩ := Parser.mem_walkAll.1 hnode
      exact hrecent item hitem node hnode cache hcache
  | repeated bounds element | optional element =>
    obtain ⟨helement, hrecent⟩ := assemble_renewed element h
    simp only [assemble, bind_apply]
    refine ⟨helement.newCache, fun node hnode cache hcache => ?_⟩
    rcases List.mem_cons.1 hnode with rfl | hnode
    · cases hcache
      exact helement.size_le
    · exact hrecent node hnode cache hcache

theorem assembleAll_renewed (expressions : List Expression) {store : Store}
    (h : origin.Renewed outside options.cacheSize emptied store) :
    origin.Renewed outside options.cacheSize emptied (assembleAll id options expressions store).2 ∧
      ∀ parser ∈ (assembleAll id options expressions store).1,
        parser.Recent origin.caches.size := by
  cases expressions with
  | nil =>
    simp only [assembleAll, pure_apply]
    exact ⟨h, fun _ hparser => by cases hparser⟩
  | cons expression rest =>
    obtain ⟨hfirst, hrecent⟩ := assemble_renewed expression h
    obtain ⟨hrest, hrecents⟩ := assembleAll_renewed rest hfirst
    simp only [assembleAll, bind_apply, pure_apply]
    refine ⟨hrest, fun parser hparser => ?_⟩
    rcases List.mem_cons.1 hparser with rfl | hparser
    · exact hrecent
    · exact hrecents parser hparser
end

end Edit

def Store.Registered (rule : RuleId) (store : Store) : Prop :=
  ∃ definition, store.catalog.definition? rule = some definition ∧
    ∀ cache ∈ definition.caches, cache ∉ store.lostCaches →
      cache ∈ (store.catalog.grammar rule.grammar).registry.members

theorem Store.Registered.exists_slot {rule : RuleId} {store : Store} (h : store.Registered rule) :
    ∃ slot, store.catalog.slot? rule = some slot := by
  obtain ⟨_, hdefinition, -⟩ := h
  exact (Option.bind_eq_some_iff.1 hdefinition).imp fun _ hslot => hslot.1

theorem Store.registered_setDefinition {rule : RuleId} {store : Store} {slot : Slot}
    (hindex : rule.grammar.index < store.catalog.grammars.size)
    (hslot : store.catalog.slot? rule = some slot) (definition : Parser) :
    (Edit.setDefinition rule definition store).2.Registered rule := by
  refine ⟨definition, definition?_setDefinition hindex hslot definition,
    fun cache hcache hlost => ?_⟩
  obtain ⟨adopted, hadopts, hset⟩ := Edit.exists_setDefinition rule definition store
  have hsame := (Reconfiguration.spares (.setDefinition definition) rule store).lostCaches
  rw [hset]
  change cache ∈ ((Edit.modifyGrammar rule.grammar _ store).2.catalog.grammar
    rule.grammar).registry.members
  rw [Edit.grammar_modifyGrammar, if_pos ⟨rfl, hindex⟩]
  exact hadopts.registered _ cache (Store.cacheAlive_iff.2 (hsame ▸ hlost)) (Or.inr hcache)

theorem Sane.registered_of_bound {held : Set Parser} {store : Store} (h : Sane held store)
    {rule : RuleId} {definition : Parser}
    (hdefinition : store.catalog.definition? rule = some definition) : store.Registered rule := by
  obtain ⟨slot, hslot, hbound⟩ := Option.bind_eq_some_iff.1 hdefinition
  refine ⟨definition, hdefinition, fun cache hcache => ?_⟩
  obtain ⟨node, hnode, hcache⟩ := List.mem_filterMap.1 hcache
  exact h.registered rule.grammar node
    ⟨rule, slot, definition, rfl, Catalog.bound_eq_ok_iff.2 ⟨hslot, hbound⟩, hnode⟩ cache hcache

structure Store.Rebinds (rule : RuleId) (store store' : Store) : Prop where
  develops : store.catalog.Develops rule.grammar (fun _ => True) (· = rule) store'.catalog
  holds : ∀ cache key attempt, store'.caches.Holds cache key attempt →
    store.caches.Holds cache key attempt

namespace Store.Rebinds

variable {rule : RuleId} {store store' store'' : Store}

theorem refl (rule : RuleId) (store : Store) : store.Rebinds rule store :=
  ⟨.refl .., fun _ _ _ h => h⟩

theorem trans (h : store.Rebinds rule store') (h' : store'.Rebinds rule store'') :
    store.Rebinds rule store'' :=
  ⟨h.develops.trans h'.develops, fun _ _ _ hholds => h.holds _ _ _ (h'.holds _ _ _ hholds)⟩

theorem setDefinition (rule : RuleId) (definition : Parser) (store : Store) :
    store.Rebinds rule (Edit.setDefinition rule definition store).2 :=
  ⟨@Edit.develops_setDefinition rule.grammar (fun _ => True) (· = rule) store rule rfl definition,
    (Reconfiguration.spares (.setDefinition definition) rule store).holds⟩

theorem newMode (rule : RuleId) (firstMatch : Bool) (store : Store) :
    store.Rebinds rule (Edit.newMode firstMatch store).2 :=
  ⟨Edit.develops_newMode firstMatch, fun _ _ _ h => h⟩

theorem localRule (hindex : rule.grammar.index < store.catalog.grammars.size) (name : String) :
    store.Rebinds rule (Edit.localRule rule.grammar name store).2 :=
  ⟨Edit.develops_localRule hindex fun _ _ _ => trivial, (quiet_localRule rule.grammar name).holds⟩

theorem assembleAll {held : Set Parser} (hsane : Sane held store) (options : Options)
    (expressions : List Expression) (hindex : rule.grammar.index < store.catalog.grammars.size) :
    store.Rebinds rule (Edit.assembleAll rule.grammar options expressions store).2 :=
  ⟨(Edit.develops_assembled options expressions hindex).mono (fun _ h => h) fun _ h => h.elim,
    (assembleAll_ensures rule.grammar options expressions hsane).1.holds⟩

end Store.Rebinds

namespace Store.Renewed

variable {origin store : Store} {outside : Set CacheId} {capacity : Capacity}
  {emptied : Set GrammarId} {rule : RuleId} {name : String} {parser : Parser}

/-- One production is bound. It defines the rule, or adds to it. -/
theorem bindOne (h : origin.Renewed outside capacity emptied store)
    (hindex : rule.grammar.index < store.catalog.grammars.size) {production : Production}
    (hlocal : store.catalog.local? rule.grammar production.name = some rule)
    (hparser : parser.Recent origin.caches.size) {slot : Slot}
    (hslot : store.catalog.slot? rule = some slot)
    (hready : production.incremental = true → store.Registered rule) :
    origin.Renewed outside capacity (insert rule.grammar emptied)
        (Edit.bindOne rule.grammar production parser store).2 ∧
      (Edit.bindOne rule.grammar production parser store).2.Registered rule ∧
        store.Rebinds rule (Edit.bindOne rule.grammar production parser store).2 := by
  rw [Edit.bindOne]
  split
  case isFalse =>
    simp only [Edit.define, Edit.bind_apply, Edit.pure_apply, localRule_eq_of_local hlocal]
    exact ⟨h.setDefinition rule fun cache hcache _ => Or.inr (hparser.caches hcache),
      registered_setDefinition hindex hslot parser, .setDefinition rule parser store⟩
  case isTrue hincremental =>
    obtain ⟨existing, hexisting, hcaches⟩ := hready hincremental
    rw [Edit.extend_of_bound hlocal hexisting]
    dsimp only
    generalize (store.catalog.grammar rule.grammar).options.firstMatch = firstMatch
    have hmode := h.newMode firstMatch
    have hslot' : (Edit.newMode firstMatch store).2.catalog.slot? rule = some slot := hslot
    have hindex' : rule.grammar.index < (Edit.newMode firstMatch store).2.catalog.grammars.size :=
      hindex
    refine ⟨hmode.setDefinition rule fun cache hcache hlost => ?_,
      registered_setDefinition hindex' hslot' _,
      (Rebinds.newMode rule firstMatch store).trans (.setDefinition rule _ _)⟩
    obtain ⟨node, hnode, huses⟩ := List.mem_filterMap.1 hcache
    rcases List.mem_cons.1 hnode with rfl | hnode
    · cases huses
    obtain ⟨branch, hbranch, hinside⟩ := Parser.mem_walkAll.1 hnode
    rcases List.mem_pair.1 hbranch with rfl | rfl
    · exact Or.inl (hcaches cache (List.mem_filterMap.2 ⟨node, hinside, huses⟩) hlost)
    · exact Or.inr (hparser node hinside cache huses)

/-- Once the rule is bound, the other productions add to it. -/
theorem bindParsers {productions : List Production} {parsers : List Parser}
    (h : origin.Renewed outside capacity emptied store) (hemptied : rule.grammar ∈ emptied)
    (hindex : rule.grammar.index < store.catalog.grammars.size)
    (hlocal : ∀ production ∈ productions,
      store.catalog.local? rule.grammar production.name = some rule)
    (hparsers : ∀ parser ∈ parsers, parser.Recent origin.caches.size)
    (hregistered : store.Registered rule) :
    origin.Renewed outside capacity emptied
        (Edit.bindParsers rule.grammar productions parsers store).2 ∧
      store.Rebinds rule (Edit.bindParsers rule.grammar productions parsers store).2 := by
  induction productions generalizing store parsers with
  | nil => exact ⟨h, .refl rule store⟩
  | cons production rest ih =>
    cases parsers with
    | nil => exact ⟨h, .refl rule store⟩
    | cons parser others =>
      obtain ⟨slot, hslot⟩ := hregistered.exists_slot
      obtain ⟨hnext, hregistered', hrebinds⟩ := h.bindOne hindex
        (hlocal production List.mem_cons_self) (hparsers parser List.mem_cons_self) hslot
        fun _ => hregistered
      rw [Set.insert_eq_of_mem hemptied] at hnext
      obtain ⟨hrest, hrebinds'⟩ := ih hnext (hrebinds.develops.size ▸ hindex)
        (fun other hother => hrebinds.develops.found _ _ _
          (hlocal other (List.mem_cons_of_mem _ hother)))
        (fun other hother => hparsers other (List.mem_cons_of_mem _ hother)) hregistered'
      simp only [Edit.bindParsers, List.zip_cons_cons, List.mapM_cons, Edit.bind_apply,
        Edit.pure_apply]
      exact ⟨hrest, hrebinds.trans hrebinds'⟩

/-- Productions of one rule are bound, the first of which may define it. -/
theorem bind_of_local {held : Set Parser} {first : Production} {rest : List Production}
    (h : origin.Renewed outside (store.catalog.grammar rule.grammar).options.cacheSize emptied
      store)
    (hsane : Sane held store) (hindex : rule.grammar.index < store.catalog.grammars.size)
    {slot : Slot} (hslot : store.catalog.slot? rule = some slot)
    (hlocal : ∀ production ∈ first :: rest,
      store.catalog.local? rule.grammar production.name = some rule)
    (hready : first.incremental = true → (store.catalog.definition? rule).isSome) :
    origin.Renewed outside (store.catalog.grammar rule.grammar).options.cacheSize
        (insert rule.grammar emptied) (Edit.bind rule.grammar (first :: rest) store).2 ∧
      store.Rebinds rule (Edit.bind rule.grammar (first :: rest) store).2 := by
  rw [Edit.bind_of_local fun production hproduction => ⟨rule, hlocal production hproduction⟩]
  have hdevelops := Edit.develops_assembled (store.catalog.grammar rule.grammar).options
    ((first :: rest).map (·.body)) hindex
  have hrebinds := Rebinds.assembleAll hsane (store.catalog.grammar rule.grammar).options
    ((first :: rest).map (·.body)) hindex
  have hsane' := (assembleAll_ensures rule.grammar (store.catalog.grammar rule.grammar).options
    ((first :: rest).map (·.body)) hsane).2
  have hassembled := @Edit.assembleAll_renewed origin outside emptied rule.grammar _
    ((first :: rest).map (·.body)) store h
  have hlength := Edit.length_assembleAll rule.grammar
    (store.catalog.grammar rule.grammar).options ((first :: rest).map (·.body)) store
  dsimp only
  generalize Edit.assembleAll rule.grammar (store.catalog.grammar rule.grammar).options
    ((first :: rest).map (·.body)) store = assembled at *
  obtain ⟨parsers, assembled⟩ := assembled
  obtain ⟨hrenewed, hrecent⟩ := hassembled
  obtain ⟨slot', hslot', -, -, hkept⟩ := hdevelops.slot rule slot hslot
  have hindex' := hdevelops.size ▸ hindex
  have hnames : ∀ production ∈ first :: rest,
      assembled.catalog.local? rule.grammar production.name = some rule :=
    fun production hproduction => hdevelops.found _ _ _ (hlocal production hproduction)
  cases parsers with
  | nil => cases hlength
  | cons parser others =>
    obtain ⟨hfirst, hregistered, hrebinds'⟩ := hrenewed.bindOne hindex'
      (hnames first List.mem_cons_self) (hrecent parser List.mem_cons_self) hslot'
      fun hincremental => by
        obtain ⟨definition, hdefinition⟩ := Option.isSome_iff_exists.1 (hready hincremental)
        rw [Catalog.definition?, hslot] at hdefinition
        exact hsane'.registered_of_bound
          (Option.bind_eq_some_iff.2 ⟨slot', hslot', (hkept not_false).trans hdefinition⟩)
    obtain ⟨hrest, hrebinds''⟩ := hfirst.bindParsers (Set.mem_insert _ _)
      (hrebinds'.develops.size ▸ hindex')
      (fun other hother => hrebinds'.develops.found _ _ _
        (hnames other (List.mem_cons_of_mem _ hother)))
      (fun other hother => hrecent other (List.mem_cons_of_mem _ hother)) hregistered
    simp only [Edit.bindParsers, List.zip_cons_cons, List.mapM_cons, Edit.bind_apply,
      Edit.pure_apply]
    exact ⟨hrest, hrebinds.trans (hrebinds'.trans hrebinds'')⟩

/-- Productions of one name are bound, the first of which may define the rule. -/
theorem bind {id : GrammarId} {held : Set Parser} {first : Production} {rest : List Production}
    (h : origin.Renewed outside (store.catalog.grammar id).options.cacheSize emptied store)
    (hsane : Sane held store) (hinterned : store.Interned)
    (hindex : id.index < store.catalog.grammars.size)
    (hspelled : ∀ production ∈ rest, lowerText production.name = lowerText first.name)
    (hready : first.incremental = true → ∃ rule, store.catalog.local? id first.name = some rule ∧
      (store.catalog.definition? rule).isSome) :
    origin.Renewed outside (store.catalog.grammar id).options.cacheSize (insert id emptied)
        (Edit.bind id (first :: rest) store).2 ∧
      store.Rebinds (Edit.localRule id first.name store).1 (Edit.bind id (first :: rest) store).2 ∧
        (Edit.bind id (first :: rest) store).2.catalog.local? id first.name =
          some (Edit.localRule id first.name store).1 := by
  have hnamed : Quiet store (Edit.localRule id first.name store).2 :=
    quiet_localRule id first.name
  have hlocal := Store.local?_localRule hindex first.name
  have hinterned' : (Edit.localRule id first.name store).2.Interned :=
    Edit.lasting_localRule id first.name _ Interned.durable _ hinterned
  have hready' : first.incremental = true →
      ((Edit.localRule id first.name store).2.catalog.definition?
        (Edit.localRule id first.name store).1).isSome := by
    intro hincremental
    obtain ⟨rule, hrule, hbound⟩ := hready hincremental
    rwa [localRule_eq_of_local hrule]
  obtain ⟨hgrammar, slot, hslot, -⟩ := (Catalog.Interned.local?_eq_some_iff hinterned').1 hlocal
  have hnames : ∀ production ∈ first :: rest,
      (Edit.localRule id first.name store).2.catalog.local? id production.name =
        some (Edit.localRule id first.name store).1 := by
    intro production hproduction
    rcases List.mem_cons.1 hproduction with rfl | hproduction
    · exact hlocal
    · exact (Catalog.local?_congr (hspelled production hproduction) _).trans hlocal
  have hrenewed := h.localRule id first.name
  rw [Edit.bind_named hspelled hindex]
  rw [← Store.options_localRule id first.name id] at hrenewed ⊢
  have hindex' := hnamed.grammars ▸ hindex
  have hrebinds (rule : RuleId) (hrule : rule.grammar = id) :
      store.Rebinds rule (Edit.localRule id first.name store).2 := by
    subst hrule
    exact .localRule hindex first.name
  generalize (Edit.localRule id first.name store).1 = rule at *
  subst hgrammar
  obtain ⟨hbound, hrebinds'⟩ :=
    hrenewed.bind_of_local (hnamed.sane hsane) hindex' hslot hnames hready'
  exact ⟨hbound, (hrebinds rule rfl).trans hrebinds', hrebinds'.develops.found _ _ _ hlocal⟩

end Store.Renewed

def Scope.outside (scope : Scope) : Set CacheId :=
  {cache | ∀ node ∈ scope.nodes, node.cache? ≠ some cache}

theorem Scope.Closed.getElem?_ruleMatches {scope : Scope} {c : Catalog} (h : scope.Closed c)
    {rule : RuleId} (hrule : rule ∈ scope.rules) (source : Source) (start : Nat) {cache : CacheId}
    (hcache : cache ∈ scope.outside) (caches : Caches) :
    ((c.ruleMatches rule source start : Run Attempt).run caches).2[cache.index]? =
      caches[cache.index]? :=
  (h.call_spares hcache _ _ source (c.refer rule)
    (fun _ hresolve => Catalog.eq_of_resolve_refer hresolve ▸ hrule) start caches rfl).1

namespace RuleText

theorem store_parseText {α : Type} (name : String)
    (parse : Catalog → RuleId → Run (Except ParseError α)) (store : Store) :
    ((parseText name parse).run store).2 =
      (Edit.clearCaches .abnf (Edit.parsing (parse · (Edit.rule .abnf name store).1)
        (Edit.rule .abnf name store).2).2).2 := by
  simp only [parseText, Edit.run_lift_bind]
  generalize Edit.parsing _ _ = parsed
  obtain ⟨error | failure | node, after⟩ := parsed <;> rfl

end RuleText

theorem Sane.size_parsing {held : Set Parser} {store : Store} (h : Sane held store) {α : Type}
    {run : Catalog → Run α} (hrun : ∀ catalog, Respects catalog (run catalog)) :
    (Edit.parsing run store).2.caches.size = store.caches.size :=
  (hrun store.catalog _ (enclosed_empty store.catalog).closed (h.apart_within ∅ ∅)
    (h.apart_definition ∅) _ store.caches
    ⟨fun _ ⟨_, _, _, hrule, _⟩ => absurd hrule (Set.notMem_empty _), rfl⟩).1.2

structure Store.Standing (id : GrammarId) (store : Store) : Prop where
  orderly : Bench.Orderly ⟨store, {.grammar .abnf, .grammar id}⟩
  interned : store.Interned
  readable : store.catalog.Readable

namespace Store.Standing

variable {id : GrammarId} {store : Store}

theorem index_lt (h : store.Standing id) : id.index < store.catalog.grammars.size :=
  (h.orderly.useful _ (Or.inr rfl)).2

theorem loadable (h : store.Standing id) : store.Loadable :=
  ⟨h.orderly.sane.furnished, h.readable⟩

theorem parsing (horderly : Bench.Orderly ⟨store, {.grammar .abnf, .grammar id}⟩) {α : Type}
    {run : Catalog → Run α} (hrun : ∀ catalog, Respects catalog (run catalog))
    (hworks : Edit.Works {.grammar .abnf, .grammar id} (Edit.parsing run) fun _ => ∅) :
    Bench.Orderly ⟨(Edit.parsing run store).2, {.grammar .abnf, .grammar id}⟩ ∧
      (Edit.parsing run store).2.catalog = store.catalog ∧
        (Edit.parsing run store).2.caches.size = store.caches.size :=
  ⟨hworks.orderly horderly, rfl, horderly.sane.size_parsing hrun⟩

/-- Reading changes the contents of caches only. -/
theorem passive {catalog : Catalog} (hreadable : catalog.Readable) (size : Nat) :
    Passive (fun store => Bench.Orderly ⟨store, {.grammar .abnf, .grammar id}⟩ ∧
      store.catalog = catalog ∧ store.caches.size = size) fun _ => True where
  rule hname := by
    rintro store ⟨horderly, rfl, hsize⟩
    obtain ⟨rule, hrule⟩ := hreadable _ hname
    rw [Edit.rule_of_local hrule]
    exact ⟨horderly, rfl, hsize⟩
  found _ _ _ := trivial
  parse source start _ := by
    rintro store ⟨horderly, rfl, rfl⟩
    exact parsing horderly (fun catalog => respects_parse catalog _ source start)
      (Edit.works_parse _ source start)
  parseAll source _ := by
    rintro store ⟨horderly, rfl, rfl⟩
    exact parsing horderly (fun catalog => respects_parseAll catalog _ source)
      (Edit.works_parseAll _ source)
  clearCaches := by
    rintro store ⟨horderly, rfl, rfl⟩
    exact ⟨(Edit.works_clearCaches .abnf).orderly horderly, rfl, size_clearCaches .abnf⟩

theorem readTexts (h : store.Standing id) (texts : Session.RuleTexts) :
    ((Session.readTexts id texts).run store).2.Standing id ∧
      ((Session.readTexts id texts).run store).2.catalog = store.catalog ∧
        ((Session.readTexts id texts).run store).2.caches.size = store.caches.size := by
  obtain ⟨horderly, hcatalog, hsize⟩ := Session.keeps_readTexts
    (passive h.readable store.caches.size) id texts store ⟨h.orderly, rfl, rfl⟩
  refine ⟨⟨horderly, ?_, hcatalog ▸ h.readable⟩, hcatalog, hsize⟩
  rw [Interned, hcatalog]
  exact h.interned

/-- Productions of one name are bound, the first of which may define the rule. -/
theorem rebinds (h : store.Standing id) {first : Production} {rest : List Production}
    (hspelled : ∀ production ∈ rest, lowerText production.name = lowerText first.name)
    (hready : first.incremental = true → ∃ rule, store.catalog.local? id first.name = some rule ∧
      (store.catalog.definition? rule).isSome) : ∃ rule, rule.grammar = id ∧
    (Edit.bind id (first :: rest) store).2.catalog.local? id first.name = some rule ∧
      store.Rebinds rule (Edit.bind id (first :: rest) store).2 := by
  obtain ⟨-, hrebinds, hlocal⟩ := (Renewed.refl store ∅ _).bind h.orderly.sane h.interned h.index_lt
    hspelled hready
  refine ⟨_, ?_, hlocal, hrebinds⟩
  obtain ⟨place, -, hrule⟩ := Option.map_eq_some_iff.1 hlocal
  rw [← hrule]

theorem bind (h : store.Standing id) (productions : List Production) :
    (Edit.bind id productions store).2.Standing id where
  orderly := Edit.orderly_bind h.orderly productions
  interned := Edit.lasting_bind id productions _ Interned.durable _ h.interned
  readable name hname := (h.readable name hname).imp fun rule hrule =>
    Edit.lasting_bind id productions _ (Store.local?_durable .abnf name rule) store hrule

end Store.Standing

theorem Store.Reads.standing {origin : Catalog} {id : GrammarId} {store : Store}
    (h : store.Reads origin id) (hreadable : origin.Readable) : store.Standing id where
  orderly := h.orderly
  interned := h.interned
  readable name hname := (hreadable name hname).imp fun rule hrule => h.found name hname rule hrule

structure Store.Follows (origin : Store) (id : GrammarId) (emptied : Set GrammarId) (size : Nat)
    (store : Store) : Prop where
  reads : store.Reads origin.catalog id
  renewed : origin.Renewed origin.catalog.reading.outside
    (origin.catalog.grammar id).options.cacheSize emptied store
  size_eq : store.caches.size = size

namespace Store.Follows

variable {origin store : Store} {id : GrammarId} {emptied : Set GrammarId} {size : Nat}

theorem clearCaches (h : origin.Follows id emptied size store)
    (hreadable : origin.catalog.Readable) :
    origin.Follows id (insert .abnf emptied) size (Edit.clearCaches .abnf store).2 where
  reads := (Reads.attentive hreadable).clearCaches store h.reads
  renewed := h.renewed.clearCaches .abnf
  size_eq := (size_clearCaches .abnf).trans h.size_eq

theorem entry (h : origin.Follows id emptied size store) (hreadable : origin.catalog.Readable)
    {name : String} (hname : name ∈ RuleText.entries) :
    (Edit.rule .abnf name store).2 = store ∧
      (Edit.rule .abnf name store).1 ∈ origin.catalog.reading.rules := by
  obtain ⟨rule, -, hmem, hrule⟩ := h.reads.exists_entry hreadable hname
  rw [hrule]
  exact ⟨rfl, hmem⟩

theorem ruleMatches (h : origin.Follows id emptied size store) {rule : RuleId}
    (hrule : rule ∈ origin.catalog.reading.rules) (source : Source) (start : Nat) :
    origin.Follows id emptied size
      (Edit.parsing (·.ruleMatches rule source start) store).2 := by
  have hsize := h.reads.orderly.sane.size_parsing fun catalog =>
    respects_ruleMatches catalog rule source start
  exact
    { reads := Reads.parsing (fun catalog => respects_ruleMatches catalog rule source start)
        (Edit.works_ruleMatches rule source start) store h.reads
      renewed := h.renewed.congr
        (fun cache hcache => h.reads.closed.getElem?_ruleMatches hrule source start hcache _)
        hsize rfl fun _ => rfl
      size_eq := hsize.trans h.size_eq }

theorem parse (h : origin.Follows id emptied size store) {rule : RuleId}
    (hrule : rule ∈ origin.catalog.reading.rules) (source : Source) (start : Nat) :
    origin.Follows id emptied size (Edit.parsing (·.parse rule source start) store).2 := by
  rw [Edit.parsing_parse]
  exact h.ruleMatches hrule source start

theorem parseAll (h : origin.Follows id emptied size store) {rule : RuleId}
    (hrule : rule ∈ origin.catalog.reading.rules) (source : Source) :
    origin.Follows id emptied size (Edit.parsing (·.parseAll rule source) store).2 := by
  rw [Edit.parsing_parseAll]
  exact h.parse hrule source 0

theorem passive (hreadable : origin.catalog.Readable) (hemptied : .abnf ∈ emptied) :
    Passive (origin.Follows id emptied size) (· ∈ origin.catalog.reading.rules) where
  rule hname store h := by rwa [(h.entry hreadable hname).1]
  found hname store h := (h.entry hreadable hname).2
  parse source start hrule _ h := h.parse hrule source start
  parseAll source hrule _ h := h.parseAll hrule source
  clearCaches store h := by
    have hclear := h.clearCaches hreadable
    rwa [Set.insert_eq_of_mem hemptied] at hclear

/-- A first parse empties the caches of the grammar of rule text. -/
theorem parseText (h : origin.Follows id emptied size store) (hreadable : origin.catalog.Readable)
    {name : String} (hname : name ∈ RuleText.entries) {α : Type}
    {parse : Catalog → RuleId → Run (Except ParseError α)}
    (hparse : ∀ rule ∈ origin.catalog.reading.rules,
      Edit.Keeps (origin.Follows id emptied size) (Edit.parsing (parse · rule))) :
    origin.Follows id (insert .abnf emptied) size
      ((RuleText.parseText name parse).run store).2 := by
  obtain ⟨hstore, hrule⟩ := h.entry hreadable hname
  rw [RuleText.store_parseText, hstore]
  exact (hparse _ hrule store h).clearCaches hreadable

theorem andThen {α β : Type} {first : Loading α} {next : α → Loading β}
    (hfirst : origin.Follows id emptied size (first.run store).2)
    (hnext : ∀ a, Edit.Keeps (origin.Follows id emptied size) (next a).run) :
    origin.Follows id emptied size ((first >>= next).run store).2 := by
  change origin.Follows id emptied size
    (ExceptT.bindCont next (first.run store).1 (first.run store).2).2
  cases (first.run store).1 with
  | ok a => exact hnext a _ hfirst
  | error error => exact hfirst

/-- To read at least one text empties the caches of the grammar of rule text, and changes nothing
else that is kept track of. -/
theorem readTexts (h : origin.Follows id emptied size store) (hreadable : origin.catalog.Readable)
    {texts : Session.RuleTexts} (htexts : texts ≠ .separate []) :
    origin.Follows id (insert .abnf emptied) size ((Session.readTexts id texts).run store).2 := by
  have hpassive : Passive (origin.Follows id (insert .abnf emptied) size) _ :=
    passive hreadable (Set.mem_insert _ _)
  have hnodes (nodes : List Node) : Edit.Keeps (origin.Follows id (insert .abnf emptied) size)
      (RuleText.readNodes id nodes).run :=
    .andThen (.lift fun _ h => h) fun _ =>
      .adapt (RuleText.keeps_readProductions hpassive _ nodes) _
  cases texts with
  | joined text =>
    have hread := h.parseText hreadable (by decide : "rulelist" ∈ RuleText.entries)
      fun rule hrule _ h => h.parseAll hrule (.ofString (terminated (trimBlankEnd text)))
    exact andThen (andThen hread fun _ => .done _) hnodes
  | separate texts =>
    cases texts with
    | nil => exact absurd rfl htexts
    | cons text rest =>
      have hread := h.parseText hreadable (by decide : "rule" ∈ RuleText.entries)
        fun rule hrule _ h => h.parse hrule (.ofString (terminated text)) 0
      have hrule : origin.Follows id (insert .abnf emptied) size
          ((RuleText.parseRule text).run store).2 := andThen hread fun _ => .done _
      have hrules : origin.Follows id (insert .abnf emptied) size
          (((text :: rest).mapM RuleText.parseRule).run store).2 := by
        rw [List.mapM_cons]
        exact andThen hrule fun _ => .andThen (.mapM (RuleText.keeps_parseRule hpassive) rest)
          fun _ => .done _
      exact andThen hrules hnodes

/-- Productions of a name are bound that rule text is not read with. -/
theorem bind (h : origin.Follows id emptied size store) (hlegible : origin.catalog.Legible)
    {first : Production} {rest : List Production}
    (hspelled : ∀ production ∈ rest, lowerText production.name = lowerText first.name)
    (hready : first.incremental = true → ∃ rule, store.catalog.local? id first.name = some rule ∧
      (store.catalog.definition? rule).isSome) (haside : origin.catalog.Aside id first.name) :
    origin.Follows id (insert id emptied) (Edit.bind id (first :: rest) store).2.caches.size
      (Edit.bind id (first :: rest) store).2 := by
  have hoptions : (store.catalog.grammar id).options = (origin.catalog.grammar id).options :=
    h.reads.options
  have hstanding := h.reads.standing hlegible.readable
  have hrenewed := h.renewed
  rw [← hoptions] at hrenewed
  obtain ⟨hbound, -⟩ := hrenewed.bind h.reads.orderly.sane h.reads.interned hstanding.index_lt
    hspelled hready
  rw [hoptions] at hbound
  obtain ⟨rule, rfl, hlocal, hrebinds⟩ := hstanding.rebinds hspelled hready
  have hbinds : ∀ other, other = rule → ∃ name, (Edit.bind rule.grammar (first :: rest)
      store).2.catalog.local? rule.grammar name = some other ∧
        origin.catalog.Aside rule.grammar name := by
    rintro _ rfl
    exact ⟨first.name, hlocal, haside⟩
  exact
    { reads := h.reads.of_develops hlegible hrebinds.develops hbinds hrebinds.holds
        (Edit.orderly_bind h.reads.orderly _)
        (Edit.lasting_bind rule.grammar (first :: rest) _ Interned.durable _ h.reads.interned)
      renewed := hbound
      size_eq := rfl }

end Store.Follows

end Metasyntax
