import Metasyntax.Proofs.Likeness
import Metasyntax.Proofs.Holdings

/-!
# Loads that fail

A load makes rules for the names of a batch before it reads the first body, and more of them
while it reads. Where it fails it takes them back, and what is left of it is reading: it has
parsed with rules that are there, and emptied their caches. So all grammars are as they were
before, and of the caches only those can differ that belong to the grammars that rule text is
read with.
-/

set_option autoImplicit false

namespace Metasyntax

open Edit (Keeps)

namespace Edit

def Restores (P : Store → Prop) {ε α : Type} (load : ExceptT ε Edit α) : Prop :=
  ∀ store, P store → ∀ error, (load.run store).1 = .error error → P (load.run store).2

def Returns {ε α : Type} (post : α → Prop) (load : ExceptT ε Edit α) : Prop :=
  ∀ store a, (load.run store).1 = .ok a → post a

variable {P : Store → Prop} {ε α β : Type}

theorem Restores.lift (edit : Edit α) : Restores P (liftM edit : ExceptT ε Edit α) :=
  fun _ _ _ herror => by cases herror

/-- What comes first may fail as long as it keeps all. -/
theorem Restores.after {load : ExceptT ε Edit α} {next : α → ExceptT ε Edit β}
    (h : Keeps P load.run) (hnext : ∀ a, Restores P (next a)) : Restores P (load >>= next) := by
  intro store hstore error herror
  have hfirst := h store hstore
  change (ExceptT.bindCont next (load.run store).1 (load.run store).2).1 = _ at herror
  change P (ExceptT.bindCont next (load.run store).1 (load.run store).2).2
  cases hload : (load.run store).1 with
  | error _ => exact hfirst
  | ok a =>
    rw [hload] at herror
    exact hnext a _ hfirst error herror

/-- What comes last does not fail. -/
theorem Restores.before {load : ExceptT ε Edit α} {next : α → ExceptT ε Edit β} {post : α → Prop}
    (h : Restores P load) (hpost : Returns post load)
    (hnext : ∀ a, post a → ∃ b, next a = Pure.pure b) : Restores P (load >>= next) := by
  intro store hstore error herror
  have hfirst := h store hstore
  change (ExceptT.bindCont next (load.run store).1 (load.run store).2).1 = _ at herror
  change P (ExceptT.bindCont next (load.run store).1 (load.run store).2).2
  cases hload : (load.run store).1 with
  | error error' => exact hfirst error' hload
  | ok a =>
    obtain ⟨b, hb⟩ := hnext a (hpost store a hload)
    rw [hload] at herror
    change ((next a).run (load.run store).2).1 = _ at herror
    rw [hb] at herror
    cases herror

namespace Returns

theorem pure {post : α → Prop} {a : α} (h : post a) :
    Returns post (Pure.pure a : ExceptT ε Edit α) := fun _ _ heq => by cases heq; exact h

theorem bind {post : α → Prop} {post' : β → Prop} {load : ExceptT ε Edit α}
    {next : α → ExceptT ε Edit β} (h : Returns post load)
    (hnext : ∀ a, post a → Returns post' (next a)) : Returns post' (load >>= next) := by
  intro store b hb
  change (ExceptT.bindCont next (load.run store).1 (load.run store).2).1 = _ at hb
  cases hload : (load.run store).1 with
  | error _ =>
    rw [hload] at hb
    cases hb
  | ok a =>
    rw [hload] at hb
    exact hnext a (h store a hload) _ b hb

theorem trivially (load : ExceptT ε Edit α) : Returns (fun _ => True) load :=
  fun _ _ _ => trivial

theorem length_mapM (next : α → ExceptT ε Edit β) (items : List α) :
    Returns (fun results : List β => results.length = items.length) (items.mapM next) := by
  induction items with
  | nil => exact pure rfl
  | cons item rest ih =>
    rw [List.mapM_cons]
    exact bind (trivially _) fun _ _ => bind ih fun results hresults => pure (by simpa using hresults)

end Returns

theorem length_mapM (next : α → Edit β) (items : List α) (store : Store) :
    ((items.mapM next) store).1.length = items.length := by
  induction items generalizing store with
  | nil => rfl
  | cons item rest ih =>
    rw [List.mapM_cons]
    simp only [bind_apply, pure_apply, List.length_cons, ih]

theorem length_assembleAll (id : GrammarId) (options : Options) (expressions : List Expression)
    (store : Store) :
    (assembleAll id options expressions store).1.length = expressions.length := by
  induction expressions generalizing store with
  | nil => rw [assembleAll]; rfl
  | cons expression rest ih =>
    rw [assembleAll]
    simp only [bind_apply, pure_apply, List.length_cons, ih]

theorem length_bind (id : GrammarId) (productions : List Production) (store : Store) :
    (Edit.bind id productions store).1.length = productions.length := by
  simp only [Edit.bind, bind_apply, length_mapM, List.length_zip, length_assembleAll,
    List.length_map, Nat.min_self]

end Edit

open Edit (Restores Returns)

namespace RuleText

theorem returns_readDefinitions (id : GrammarId) (options : Options) (nodes : List Node) :
    Returns (fun definitions : List ((String × Bool) × Parser) => definitions.length = nodes.length)
      (readDefinitions id options nodes) := by
  refine .bind (.length_mapM _ nodes) fun headers hheaders store definitions hdefinitions => ?_
  rw [Returns.length_mapM _ (headers.zip nodes) store definitions hdefinitions, List.length_zip,
    hheaders, Nat.min_self]

theorem returns_compile (id : GrammarId) (nodes : List Node) :
    Returns (fun rules : List RuleId => rules.length = nodes.length) (compile id nodes) := by
  intro store rules hrules
  have hlength := returns_readDefinitions id (store.catalog.grammar id).options nodes store
  rw [run_compile] at hrules
  cases hread : (readDefinitions id (store.catalog.grammar id).options nodes).run store with
  | mk result read =>
    rw [hread] at hrules hlength
    cases result with
    | error error => cases hrules
    | ok definitions =>
      cases hrules
      exact (Edit.length_mapM _ definitions read).trans (hlength definitions rfl)

end RuleText

section
variable {P : Store → Prop} {reader : RuleId → Prop} (hpassive : Passive P reader)
  (hloadable : ∀ store, P store → store.Loadable)
include hpassive hloadable

theorem restores_compile (id : GrammarId) (nodes : List Node) :
    Restores P (RuleText.compile id nodes) := by
  intro store hstore error herror
  rw [(hloadable store hstore).compile_eq] at herror ⊢
  have hread : Restores P (RuleText.bindNodes id nodes) :=
    .after (.lift fun _ h => h) fun _ =>
      .after (.adapt (RuleText.keeps_readProductions hpassive _ nodes) _) fun _ => .lift _
  exact hread store hstore error herror

theorem restores_createRule (id : GrammarId) (text : String) :
    Restores P (Loading.createRule id text) := by
  refine .after (RuleText.keeps_parseRule hpassive text) fun node =>
    .before (restores_compile hpassive hloadable id [node]) (RuleText.returns_compile id [node])
      fun rules hrules => ?_
  obtain ⟨rule, rfl⟩ := List.length_eq_one_iff.1 hrules
  exact ⟨rule, rfl⟩

theorem restores_loadRules (id : GrammarId) (texts : List String) :
    Restores P (Loading.loadRules id texts) :=
  .after (.mapM (RuleText.keeps_parseRule hpassive) texts) fun nodes =>
    restores_compile hpassive hloadable id nodes

theorem restores_loadRulelist (id : GrammarId) (text : String) :
    Restores P (Loading.loadRulelist id text) :=
  .after (RuleText.keeps_parseRules hpassive text) fun nodes =>
    restores_compile hpassive hloadable id nodes

end

/-- Reading changes no grammar and makes or loses no cache. -/
theorem passive_alike {store : Store} (h : store.catalog.Readable) :
    Passive store.Alike fun _ => True where
  rule hname after hafter := by
    obtain ⟨rule, hrule⟩ := h _ hname
    rw [← hafter.catalog] at hrule
    rw [Edit.rule_of_local hrule]
    exact hafter
  found _ _ _ := trivial
  parse source start _ after hafter := hafter.trans ⟨rfl, rfl,
    (parse_rel rfl (call_keeps_size after.catalog _ _ source _ start) after.caches rfl).1⟩
  parseAll source _ after hafter := hafter.trans ⟨rfl, rfl,
    (parseAll_rel rfl (call_keeps_size after.catalog _ _ source _ 0) after.caches rfl).1⟩
  clearCaches after hafter := hafter.trans ⟨rfl, rfl, size_clearCaches .abnf⟩

def Caches.InState (id : CacheId) (cache : Option MatchCache) (caches : Caches) : Prop :=
  caches[id.index]? = cache

theorem Caches.InState.modify {id id' : CacheId} {cache : Option MatchCache} {caches : Caches}
    (h : caches.InState id cache) (hne : id' ≠ id) (change : MatchCache → MatchCache) :
    Caches.InState id cache (caches.modify id'.index change) := by
  rw [InState, Array.getElem?_modify, if_neg, h]
  intro heq
  cases id'
  cases id
  exact hne (congrArg CacheId.mk heq)

theorem Caches.InState.clearAll {id : CacheId} {cache : Option MatchCache} {cleared : List CacheId}
    (hid : id ∉ cleared) {caches : Caches} (h : caches.InState id cache) :
    Caches.InState id cache
      (cleared.foldl (fun caches cache => caches.modify cache.index (·.clear)) caches) := by
  induction cleared generalizing caches with
  | nil => exact h
  | cons first rest ih =>
    rw [List.mem_cons, not_or] at hid
    exact ih hid.2 (h.modify (Ne.symm hid.1) _)

section
variable {catalog : Catalog} {scope : Scope} {id : CacheId}

/-- A parse uses the caches of what it leads to only. -/
theorem Scope.Closed.call_spares (hclosed : scope.Closed catalog)
    (hid : ∀ node ∈ scope.nodes, node.cache? ≠ some id) (cache : Option MatchCache) (depth : Nat) :
    scope.CallsRelated catalog (keeping (Caches.InState id cache)) (catalog.call depth)
      (catalog.call depth) := by
  induction depth with
  | zero => exact fun _ _ _ _ => Relator.throw _ _ trivial
  | succ depth ih =>
    refine fun source ref href start => hclosed.callOnce_rel ih ?_ href start
    intro node hnode id' hid' source o h
    have hne : id' ≠ id := fun heq => hid node hnode (heq ▸ hid')
    exact remembered_keeps (fun _ hcaches => hcaches.modify hne _)
      (fun _ _ hcaches => hcaches.modify hne _) (fun _ _ _ _ _ => trivial) h

end

def Catalog.StandardCache (catalog : Catalog) (cache : CacheId) : Prop :=
  ∃ id ∈ Standard.grammars, cache ∈ (catalog.grammar id).registry.members

/-- Where the standard grammars are as they were assembled, reading uses their caches only. -/
theorem passive_caches {store : Store} {held : Set Parser} (hsane : Sane held store)
    (hreadable : store.catalog.Readable)
    (hagrees : Catalog.Agrees Standard.grammars Standard.catalog store.catalog) {id : CacheId}
    (hid : ¬ store.catalog.StandardCache id) (cache : Option MatchCache) :
    Passive (fun after => store.Alike after ∧ after.caches.InState id cache)
      (·.grammar ∈ Standard.grammars) := by
  have hclosed := (hagrees.enclosed Standard.hosts.enclosed).closed
  have hnodes : ∀ node ∈ (store.catalog.within Standard.grammars).nodes,
      node.cache? ≠ some id := by
    rintro node ⟨rule, slot, definition, hrule, hbound, hwalk⟩ hcache
    have hliving : rule.grammar ∈ store.living :=
      hagrees.alive rule.grammar hrule (Standard.hosts.alive _ hrule)
    have hlost := hsane.alive node
      (Or.inr ⟨rule, slot, definition, hliving, hbound, hwalk⟩) id hcache
    exact hid ⟨rule.grammar, hrule, hsane.registered rule.grammar node
      ⟨rule, slot, definition, rfl, hbound, hwalk⟩ id hcache hlost⟩
  have hmatches {rule : RuleId} (hrule : rule.grammar ∈ Standard.grammars) (source : Source)
      (start : Nat) : (keeping (Caches.InState id cache)).rel (StopsIn fun _ => True)
        (store.catalog.ruleMatches rule source start)
        (store.catalog.ruleMatches rule source start) :=
    hclosed.call_spares hnodes cache _ source _
      (fun rule' hrule' => Catalog.eq_of_resolve_refer hrule' ▸ hrule) start
  have halike := passive_alike hreadable
  exact
    { rule := fun hname after hafter => by
        obtain ⟨rule, hrule⟩ := hreadable _ hname
        rw [← hafter.1.catalog] at hrule
        rw [Edit.rule_of_local hrule]
        exact hafter
      found := fun hname after hafter => by
        obtain ⟨rule, hrule⟩ := hreadable _ hname
        rw [← hafter.1.catalog] at hrule
        rw [Edit.rule_of_local hrule]
        obtain ⟨place, -, rfl⟩ := Option.map_eq_some_iff.1 hrule
        exact Or.inr rfl
      parse := fun source start hrule after hafter => by
        refine ⟨halike.parse source start trivial after hafter.1, ?_⟩
        rw [Edit.parsing, hafter.1.catalog]
        exact (parse_rel rfl (hmatches hrule source start) after.caches hafter.2).1
      parseAll := fun source hrule after hafter => by
        refine ⟨halike.parseAll source trivial after hafter.1, ?_⟩
        rw [Edit.parsing, hafter.1.catalog]
        exact (parseAll_rel rfl (hmatches hrule source 0) after.caches hafter.2).1
      clearCaches := fun after hafter => by
        refine ⟨halike.clearCaches after hafter.1, hafter.2.clearAll fun hmem => ?_⟩
        refine hid ⟨.abnf, Or.inr rfl, ?_⟩
        rw [← hafter.1.catalog]
        exact (List.mem_filter.1 hmem).1 }

/-- A load of a grammar's rules leaves no trace where it fails: all grammars are as they were
before it, with the rules, names, definitions, exclusions and retained grammars they had, and,
where the standard grammars are as they were assembled, the grammar has the caches it had, and
those that it does not share with them are what they were, counts included. -/
structure Edit.AllOrNothing (id : GrammarId) {α : Type} (load : Loading α) (store : Store) :
    Prop where
  catalog (failure : Failure) : (load.run store).1 = .error failure →
    (load.run store).2.catalog = store.catalog
  caches (failure : Failure) : (load.run store).1 = .error failure →
    Catalog.Agrees Standard.grammars Standard.catalog store.catalog →
      (load.run store).2.cachesOf id = store.cachesOf id ∧
        ∀ cache ∈ store.cachesOf id, ¬ store.catalog.StandardCache cache →
          (load.run store).2.caches[cache.index]? = store.caches[cache.index]?

theorem Edit.allOrNothing_of_restores {id : GrammarId} {α : Type} {load : Loading α} {store : Store}
    {held : Set Parser} (hsane : Sane held store) (hloadable : store.Loadable)
    (h : ∀ {P : Store → Prop} {reader : RuleId → Prop}, Passive P reader →
      (∀ store, P store → store.Loadable) → Restores P load) : AllOrNothing id load store := by
  have halike (failure : Failure) (hfailure : (load.run store).1 = .error failure) :
      store.Alike (load.run store).2 :=
    h (passive_alike hloadable.readable) (fun _ => hloadable.alike) store (.refl store) failure hfailure
  refine ⟨fun failure hfailure => (halike failure hfailure).catalog,
    fun failure hfailure hagrees => ⟨?_, fun cache _ hcache => ?_⟩⟩
  · exact (halike failure hfailure).cachesOf id
  · exact (h (passive_caches hsane hloadable.readable hagrees hcache _)
      (fun _ hafter => hloadable.alike hafter.1) store ⟨.refl store, rfl⟩ failure hfailure).2

/-- In every session that can be come to, loads of every kind into every grammar leave no trace
where they fail. -/
theorem Session.Reached.loads_all_or_nothing {session : Session} (h : session.Reached)
    (id : GrammarId) :
    (∀ text, Edit.AllOrNothing id (Loading.createRule id text) session.store) ∧
      (∀ texts, Edit.AllOrNothing id (Loading.loadRules id texts) session.store) ∧
        ∀ text, Edit.AllOrNothing id (Loading.loadRulelist id text) session.store := by
  have hloadable := h.loadable
  exact ⟨fun text => Edit.allOrNothing_of_restores h.orderly.sane hloadable fun hpassive hloadable =>
      restores_createRule hpassive hloadable id text,
    fun texts => Edit.allOrNothing_of_restores h.orderly.sane hloadable fun hpassive hloadable =>
      restores_loadRules hpassive hloadable id texts,
    fun text => Edit.allOrNothing_of_restores h.orderly.sane hloadable fun hpassive hloadable =>
      restores_loadRulelist hpassive hloadable id text⟩

def RuleText.spoiled : List String := ["DIGIT = letter", "mark = %xD800"]

theorem RuleText.spoiled_fails :
    ∃ failure, ((Loading.loadRules .abnf spoiled).run Session.start.store).1 = .error failure := by
  have hchecked : (Standard.ruleTree? "DIGIT = letter").any (fun first =>
      (Standard.ruleTree? "mark = %xD800").any fun second =>
        !((readProductions .reject [first, second]).run .standard).1.isOk) = true := by
    decide +kernel
  obtain ⟨first, hfirst, hchecked⟩ := (Option.any_eq_true _ _).1 hchecked
  obtain ⟨second, hsecond, hchecked⟩ := (Option.any_eq_true _ _).1 hchecked
  have hnodes : Edit.Gives ∅ (spoiled.mapM parseRule).run (.ok [first, second]) := by
    rw [spoiled, List.mapM_cons, List.mapM_cons]
    exact .andThen (gives_parseRule_of_ruleTree hfirst) (.andThen
      (.andThen (gives_parseRule_of_ruleTree hsecond) (.done _)) (.done _))
  obtain ⟨read, hread, halike, hfaithful⟩ := hnodes Session.start.store faithful_standard
  obtain ⟨result, hgives⟩ : ∃ result, Edit.Gives ∅ (readProductions .reject [first, second]).run
      result := exists_gives_readProductions _ _
  obtain ⟨_, hstandard, -⟩ := hgives _ faithful_standard
  obtain ⟨_, hproductions, -⟩ := hgives read hfaithful
  have hprose : (read.catalog.grammar .abnf).options.prose = .reject := by
    rw [halike.catalog]
    decide +kernel
  rw [hstandard] at hchecked
  cases result with
  | ok productions => cases hchecked
  | error error =>
    rw [← hprose] at hproductions
    refine ⟨.grammar error, ?_⟩
    rw [Loading.loadRules, Edit.run_bind_ok hread, hfaithful.loadable.compile_eq, run_bindNodes,
      hproductions]

theorem Session.Reached.failed_load_declares : ∃ failure after,
    (Loading.loadRules .abnf RuleText.spoiled).run Session.start.store = (.error failure, after) ∧
      after.catalog = Session.start.store.catalog ∧
        after.catalog.lookup? .abnf "DIGIT" = some ⟨.core, 7⟩ := by
  have hlookup : Session.start.store.catalog.lookup? .abnf "DIGIT" = some ⟨.core, 7⟩ := by
    decide +kernel
  obtain ⟨failure, hfails⟩ := RuleText.spoiled_fails
  obtain ⟨-, hloads, -⟩ := Session.Reached.loads_all_or_nothing .start .abnf
  have hcatalog := (hloads RuleText.spoiled).catalog failure hfails
  rcases hload : (Loading.loadRules .abnf RuleText.spoiled).run Session.start.store with ⟨result, after⟩
  rw [hload] at hfails hcatalog
  obtain rfl : result = .error failure := hfails
  refine ⟨failure, after, rfl, hcatalog, ?_⟩
  rw [hcatalog]
  exact hlookup

namespace Cache

variable {κ α : Type} [BEq κ] [Hashable κ]

def lookups (cache : Cache κ α) : Nat := cache.hits + cache.misses

theorem lookups_touch (cache : Cache κ α) (key : κ) :
    (cache.touch key).lookups = cache.lookups + 1 := by
  rw [touch, lookups, lookups]
  split
  · exact Nat.add_right_comm _ _ _
  · rfl

theorem lookups_insert (cache : Cache κ α) (key : κ) (entry : α) :
    (cache.insert key entry).lookups = cache.lookups := by
  have hroom : (cache.makeRoom key).hits = cache.hits ∧
      (cache.makeRoom key).misses = cache.misses := by
    rw [makeRoom]
    split
    · exact ⟨rfl, rfl⟩
    · split
      · rw [evict]
        split <;> exact ⟨rfl, rfl⟩
      · exact ⟨rfl, rfl⟩
  exact congrArg₂ (· + ·) hroom.1 hroom.2

end Cache

def Caches.Asked (id : CacheId) (caches : Caches) : Prop :=
  ∃ cache, caches[id.index]? = some cache ∧ 0 < cache.lookups

namespace Caches

variable {id : CacheId} {caches : Caches}

theorem Asked.modify {change : MatchCache → MatchCache} (h : caches.Asked id) (id' : CacheId)
    (hchange : ∀ cache, cache.lookups ≤ (change cache).lookups) :
    Asked id (caches.modify id'.index change) := by
  obtain ⟨cache, hcache, hlookups⟩ := h
  rw [Asked, Array.getElem?_modify]
  split
  · exact ⟨change cache, by rw [hcache]; rfl, hlookups.trans_le (hchange cache)⟩
  · exact ⟨cache, hcache, hlookups⟩

theorem Asked.touch (h : caches.Asked id) (id' : CacheId) (key : CacheKey) :
    Asked id (caches.modify id'.index (·.touch key)) :=
  h.modify id' fun cache => by rw [Cache.lookups_touch]; exact Nat.le_succ _

theorem Asked.insert (h : caches.Asked id) (id' : CacheId) (key : CacheKey) (attempt : Attempt) :
    Asked id (caches.modify id'.index (·.insert key attempt)) :=
  h.modify id' fun cache => by rw [Cache.lookups_insert]

theorem asked_touch (h : id.index < caches.size) (key : CacheKey) :
    Asked id (caches.modify id.index (·.touch key)) := by
  refine ⟨caches[id.index].touch key, ?_, ?_⟩
  · rw [Array.getElem?_modify, if_pos rfl, Array.getElem?_eq_getElem h]
    rfl
  · rw [Cache.lookups_touch]
    exact Nat.succ_pos _

theorem asked_of_asked_clear {id' : CacheId}
    (h : Asked id (caches.modify id'.index (·.clear))) : id ≠ id' ∧ Asked id caches := by
  obtain ⟨cache, hcache, hlookups⟩ := h
  rcases getElem?_eq_of_modify hcache with ⟨hid, h⟩ | ⟨-, old, h, rfl⟩
  · exact ⟨fun h => hid (by rw [h]), cache, h, hlookups⟩
  · exact absurd hlookups (lt_irrefl 0)

theorem Asked.not_cleared {cleared : List CacheId} (h : Asked id (cleared.foldl
      (fun caches cache => caches.modify cache.index (·.clear)) caches)) :
    id ∉ cleared ∧ Asked id caches := by
  induction cleared generalizing caches with
  | nil => exact ⟨List.not_mem_nil, h⟩
  | cons first rest ih =>
    obtain ⟨hrest, h⟩ := ih h
    obtain ⟨hfirst, h⟩ := asked_of_asked_clear h
    exact ⟨by simp [hfirst, hrest], h⟩

end Caches

theorem asked_remembered {id : CacheId} {key : CacheKey} {explore : Run Attempt}
    (h : (keeping (Caches.Asked id)).rel (fun _ => True) explore explore) {caches : Caches}
    (hid : id.index < caches.size) : Caches.Asked id ((remembered id key explore).run caches).2 := by
  have htouched := Caches.asked_touch hid key
  by_cases hhit : ∃ attempt, caches.Holds id key attempt
  · obtain ⟨attempt, hhit⟩ := hhit
    rwa [run_remembered_hit hhit]
  · rw [run_remembered_miss (by simpa using hhit)]
    have hrun := (h _ htouched).1
    revert hrun
    rcases explore.run (caches.modify id.index (·.touch key)) with ⟨error | attempt, caches'⟩
    · exact fun hrun => hrun
    · exact fun hrun => hrun.insert id key attempt

section
variable {id : CacheId}

theorem asked_linked (catalog : Catalog) (id : CacheId) (depth : Nat) (source : Source)
    (nodes : List Parser) : Linked (keeping (Caches.Asked id)) (fun _ => True) source
      catalog.firstMatch catalog.firstMatch (catalog.call depth source) (catalog.call depth source)
      nodes where
  call ref _ o _ := call_keeps_always catalog (fun _ id' key h => h.touch id' key)
    (fun _ id' key attempt h => h.insert id' key attempt) depth source ref o
  mode _ _ _ := rfl
  remember _ _ id' _ _ _ h := remembered_keeps (fun _ h => h.touch id' _)
    (fun _ attempt h => h.insert id' _ attempt) (fun _ _ _ _ _ => trivial) h

/-- A repetition asks its cache. -/
theorem asked_repetition (catalog : Catalog) (bounds : Bounds) (element : Parser) (depth : Nat)
    (source : Source) (start : Nat) {caches : Caches} (hid : id.index < caches.size) :
    Caches.Asked id ((remembered id ⟨source, start⟩ (repeatBetween (fun offset =>
      element.enumerate catalog.firstMatch (catalog.call depth source) source offset)
        (.repetition id bounds element) bounds source start)).run caches).2 := by
  have hrepeat := repeatBetween_rel (keeping (Caches.Asked id)) (fun o _ =>
    enumerate_rel (settling_true.consume source) element
      (asked_linked catalog id depth source element.walk) o trivial)
    (.repetition id bounds element) bounds source start trivial
  exact asked_remembered (fun caches h => ⟨(hrepeat caches h).1, fun _ _ => trivial⟩) hid

/-- A rule that is a repetition asks the repetition's cache. -/
theorem asked_ruleMatches {catalog : Catalog} {rule : RuleId} {slot : Slot} {bounds : Bounds}
    {element : Parser} (halive : catalog.alive rule.grammar = true)
    (hbound : catalog.bound rule = .ok (slot, .repetition id bounds element))
    (hexclusion : slot.exclusion = none) (source : Source) (start : Nat) {caches : Caches}
    (hid : id.index < caches.size) :
    Caches.Asked id ((catalog.ruleMatches rule source start : Run _).run caches).2 := by
  obtain ⟨depth, named, -, hrun⟩ := exists_run_ruleMatches halive hbound hexclusion source start
  have hasked := asked_repetition catalog bounds element depth source start hid
  rw [hrun]
  rcases hanswer : (remembered id ⟨source, start⟩ _).run caches with ⟨error | attempt, caches'⟩
  · rw [Run.run_bind_error hanswer]
    rwa [hanswer] at hasked
  · rw [Run.run_bind_ok hanswer]
    rwa [hanswer] at hasked

end

namespace RuleText

theorem parseText_store {α : Type} (name : String)
    (parse : Catalog → RuleId → Run (Except ParseError α)) {store : Store} {rule : RuleId}
    (hrule : store.catalog.local? .abnf name = some rule) :
    ((parseText name parse).run store).2 =
      (Edit.clearCaches .abnf (Edit.parsing (parse · rule) store).2).2 := by
  rw [parseText, Edit.run_lift_bind, Edit.rule_of_local hrule, Edit.run_lift_bind,
    Edit.run_lift_bind]
  split <;> rfl

end RuleText

def Store.importing : Store :=
  let store := (Edit.newGrammar "g" (some .core) .standard .standard).2
  (Edit.importRule ⟨2⟩ "list" (Edit.rule .abnf "rulelist" store).1 store).2

theorem Desk.untouched_importing : Desk.Untouched ⟨.importing, ∅⟩ := by
  have halive : Store.drafting.catalog.alive ⟨2⟩ = true ∧
      Store.drafting.catalog.alive
        (Edit.rule .abnf "rulelist" Store.drafting).1.grammar = true := by decide +kernel
  exact .changes untouched_drafting halive.1 (by decide) (.importRule "list" halive.2)

def Store.sharesCache (store : Store) (rule : RuleId) : Bool :=
  match store.catalog.bound rule with
  | .ok (⟨_, _, none⟩, .repetition cache _ _) =>
    (store.cachesOf rule.grammar).contains cache && (store.cachesOf .abnf).contains cache &&
      decide (cache.index < store.caches.size) && store.catalog.alive rule.grammar
  | _ => false

theorem Store.exists_of_sharesCache {store : Store} {rule : RuleId}
    (h : store.sharesCache rule = true) : ∃ slot cache bounds element,
      store.catalog.bound rule = .ok (slot, .repetition cache bounds element) ∧
        slot.exclusion = none ∧ cache ∈ store.cachesOf rule.grammar ∧ cache ∈ store.cachesOf .abnf ∧
          cache.index < store.caches.size ∧ store.catalog.alive rule.grammar = true := by
  rw [sharesCache] at h
  split at h
  · rename_i name definition cache bounds element hbound
    simp only [Bool.and_eq_true, List.contains_eq_mem, decide_eq_true_eq] at h
    exact ⟨_, cache, bounds, element, hbound, rfl, h.1.1.1, h.1.1.2, h.1.2, h.2⟩
  · cases h

/-- A failed load may empty caches that the grammar shares with a standard grammar, even if
nobody has changed those. -/
theorem failed_load_empties_shared_cache : ¬ ∀ desk : Desk, desk.Untouched →
    ∀ id ∉ Standard.grammars, ∀ text failure,
      ((Loading.createRule id text).run desk.store).1 = .error failure →
        ∀ cache ∈ desk.store.cachesOf id,
          ((Loading.createRule id text).run desk.store).2.caches[cache.index]? =
            desk.store.caches[cache.index]? := by
  intro hall
  have hshares : Store.importing.sharesCache ⟨⟨2⟩, 0⟩ = true := by decide +kernel
  obtain ⟨slot, cache, bounds, element, hbound, hexclusion, hown, hshared, hlt, halive⟩ :=
    Store.exists_of_sharesCache hshares
  let store := (Edit.parsing (·.ruleMatches ⟨⟨2⟩, 0⟩ (.ofString "a") 0) .importing).2
  have huntouched : Desk.Untouched ⟨store, ∅⟩ :=
    Desk.untouched_importing.uses (.ruleMatches ⟨⟨2⟩, 0⟩ (.ofString "a") 0)
  have hasked : store.caches.Asked cache :=
    asked_ruleMatches halive hbound hexclusion (.ofString "a") 0 hlt
  obtain ⟨rule, -, hrule, -⟩ := Standard.exists_entry (show "rule" ∈ RuleText.entries by decide)
  have hlocal : store.catalog.local? .abnf "rule" = some rule :=
    huntouched.faithful.agrees.found _ (Or.inr rfl) _ _ hrule
  let parse (catalog : Catalog) (rule : RuleId) : Run (Except ParseError (Node × Nat)) :=
    catalog.parse rule (.ofString (terminated "")) 0
  -- The text does not begin with a letter, so reading fails before any cache is asked.
  have hfails : ((RuleText.parseText "rule" parse).run store).1.isOk = false := by decide +kernel
  obtain ⟨failure, hfailure⟩ : ∃ failure,
      ((RuleText.parseText "rule" parse).run store).1 = .error failure := by
    cases hresult : ((RuleText.parseText "rule" parse).run store).1 with
    | error failure => exact ⟨failure, rfl⟩
    | ok value =>
      rw [hresult] at hfails
      cases hfails
  have hload : (Loading.createRule ⟨2⟩ "").run store = (.error failure,
      (Edit.clearCaches .abnf (Edit.parsing (parse · rule) store).2).2) :=
    Edit.run_bind_error (Edit.run_bind_error
      (Prod.ext hfailure (RuleText.parseText_store "rule" parse hlocal)))
  have hsame := hall _ huntouched ⟨2⟩ (by decide) "" failure (by rw [hload]) cache hown
  rw [hload] at hsame
  obtain ⟨entry, hentry, hlookups⟩ := hasked
  have hafter : Caches.Asked cache
      (Edit.clearCaches .abnf (Edit.parsing (parse · rule) store).2).2.caches :=
    ⟨entry, hsame.trans hentry, hlookups⟩
  exact hafter.not_cleared.1 hshared

end Metasyntax
