import Std.Data.HashSet.Basic
import Metasyntax.Enumeration

/-!
# The store

Grammars together with the caches of their repetitions: what a program that
builds and uses grammars works on. An edit changes the store. Whatever may have
been computed with what an edit changed is forgotten, as far as it is remembered
in caches of the grammar that was edited.

A grammar lives while it is held from outside, or while a living grammar is based
on it or retains it. A cache lives while the repetition it belongs to is part of a
living definition, of a parser held from outside, or of a parser that some living
cache remembers as having failed. Things that support one another live on when
nothing else supports them.
-/

set_option autoImplicit false

namespace Metasyntax

structure Store where
  catalog : Catalog
  caches : Caches
  /-- The caches whose repetition exists no longer. -/
  lostCaches : List CacheId
  deriving Inhabited

abbrev Edit := StateM Store

namespace Store

def empty : Store := ⟨.empty, #[], []⟩

def cacheAlive (store : Store) (cache : CacheId) : Bool := !store.lostCaches.contains cache

def cache (store : Store) (id : CacheId) : MatchCache := (store.caches[id.index]?).getD default

def cachesOf (store : Store) (id : GrammarId) : List CacheId :=
  (store.catalog.grammar id).registry.living store.cacheAlive

structure Extent where
  rules : Nat
  modes : Nat
  caches : Nat

def extent (store : Store) (id : GrammarId) : Extent :=
  ⟨(store.catalog.grammar id).table.size, store.catalog.modes.size, store.caches.size⟩

def cacheStats (store : Store) (id : GrammarId) : CacheStats :=
  .ofCaches ((store.cachesOf id).map store.cache)

end Store

namespace Edit

def parsing {α : Type} (run : Catalog → Run α) : Edit (Except GrammarError α) := fun store =>
  let catalog := store.catalog
  let lostCaches := store.lostCaches
  let (result, caches) := (run catalog).run store.caches
  (result, ⟨catalog, caches, lostCaches⟩)

def modifyCatalog (change : Catalog → Catalog) : Edit Unit :=
  modify fun store => { store with catalog := change store.catalog }

def modifyGrammar (id : GrammarId) (change : Grammar → Grammar) : Edit Unit :=
  modifyCatalog fun catalog =>
    { catalog with grammars := catalog.grammars.modify id.index change }

def modifyTable (id : GrammarId) (change : RuleTable → RuleTable) : Edit Unit :=
  modifyGrammar id fun grammar => { grammar with table := change grammar.table }

def newGrammar (name : String) (base : Option GrammarId) (options : Options) : Edit GrammarId :=
  modifyGet fun store =>
    let bases := match base with
      | some base => base :: (store.catalog.grammar base).bases
      | none => []
    let grammars := store.catalog.grammars.push (.empty name bases options)
    (⟨store.catalog.grammars.size⟩, { store with catalog := { store.catalog with grammars } })

def newMode (firstMatch : Bool) : Edit ModeId :=
  modifyGet fun store =>
    (⟨store.catalog.modes.size⟩,
      { store with catalog := { store.catalog with modes := store.catalog.modes.push firstMatch } })

def newCache (capacity : Capacity) : Edit CacheId :=
  modifyGet fun store =>
    (⟨store.caches.size⟩, { store with caches := store.caches.push (.empty capacity) })

def alternation (firstMatch : Bool) (branches : List Parser) : Edit Parser :=
  return .alternation (← newMode firstMatch) branches

def repetition (capacity : Capacity) (bounds : Bounds) (element : Parser) : Edit Parser :=
  return .repetition (← newCache capacity) bounds element

def optional (capacity : Capacity) (element : Parser) : Edit Parser :=
  return .optional (← newCache capacity) element

def localRule (id : GrammarId) (name : String) : Edit RuleId := do
  let catalog := (← get).catalog
  match catalog.local? id name with
  | some rule => return rule
  | none =>
    let rule : RuleId := ⟨id, (catalog.grammar id).table.size⟩
    modifyTable id (·.push name)
    return rule

def rule (id : GrammarId) (name : String) : Edit RuleId := do
  match (← get).catalog.lookup? id name with
  | some rule => return rule
  | none => localRule id name

def reference (id : GrammarId) (name : String) : Edit Parser := do
  let rule ← Edit.rule id name
  return .rule ((← get).catalog.refer rule)

def truncate (id : GrammarId) (extent : Store.Extent) : Edit Unit := do
  modifyTable id (·.truncate extent.rules)
  modify fun store =>
    { store with
      catalog := { store.catalog with modes := store.catalog.modes.take extent.modes }
      caches := store.caches.take extent.caches }

def clearCaches (id : GrammarId) : Edit Unit :=
  modify fun store =>
    { store with
      caches := (store.cachesOf id).foldl (fun caches cache => caches.modify cache.index (·.clear))
        store.caches }

def retain (id other : GrammarId) : Edit Unit :=
  modifyGrammar id fun grammar =>
    if id = other ∨ other ∈ grammar.bases ∨ other ∈ grammar.retained then grammar
    else { grammar with retained := grammar.retained ++ [other] }

def register (id : GrammarId) (caches : List CacheId) : Edit Unit := do
  let alive := (← get).cacheAlive
  modifyGrammar id fun grammar =>
    { grammar with registry := grammar.registry.registerAll alive caches }

/-- Registers the caches of a parser with a grammar, and keeps the grammars alive that the
parser refers to. -/
def adopt (id : GrammarId) (parser : Parser) : Edit Unit := do
  register id parser.caches
  let catalog := (← get).catalog
  let targets := parser.references.filterMap fun ref => (catalog.resolve ref).toOption
  targets.forM fun target => retain id target.grammar

def updateRule (rule : RuleId) (change : Slot → Slot) : Edit Unit := do
  modifyTable rule.grammar (·.update rule.slot change)
  clearCaches rule.grammar

def setDefinition (rule : RuleId) (definition : Parser) : Edit Unit := do
  adopt rule.grammar definition
  updateRule rule fun slot => { slot with definition := some definition }

def addAlternative (rule : RuleId) (alternative : Parser) : Edit Unit := do
  let catalog := (← get).catalog
  match catalog.definition? rule with
  | some existing =>
    let firstMatch := (catalog.grammar rule.grammar).options.firstMatch
    setDefinition rule (← alternation firstMatch [existing, alternative])
  | none => setDefinition rule alternative

def exclude (rule excluded : RuleId) : Edit Unit := do
  let ref := (← get).catalog.refer excluded
  adopt rule.grammar (.rule ref)
  updateRule rule fun slot => { slot with exclusion := some ref }

def clearExclusion (rule : RuleId) : Edit Unit :=
  updateRule rule fun slot => { slot with exclusion := none }

def setFirstMatch (rule : RuleId) (firstMatch : Bool) : Edit (Except GrammarError Unit) := do
  let catalog := (← get).catalog
  match catalog.definition? rule with
  | some (.alternation mode _) =>
    modifyCatalog fun catalog =>
      { catalog with modes := catalog.modes.modify mode.index fun _ => firstMatch }
    clearCaches rule.grammar
    return .ok ()
  | some _ => return .ok ()
  | none => return .error (.undefinedRule (catalog.nameOf rule))

def define (id : GrammarId) (name : String) (definition : Parser) : Edit RuleId := do
  let rule ← localRule id name
  setDefinition rule definition
  return rule

/-- Adds an alternative under a name. An unbound rule starts from the definition that the
name has in the grammar's base. -/
def extend (id : GrammarId) (name : String) (alternative : Parser) : Edit RuleId := do
  let rule ← localRule id name
  let catalog := (← get).catalog
  if (catalog.definition? rule).isNone then
    let inherited := (catalog.grammar id).base?.bind fun base =>
      (catalog.lookup? base name).bind catalog.definition?
    inherited.forM (setDefinition rule)
  addAlternative rule alternative
  return rule

def bindAs (id : GrammarId) (name : String) (incremental : Bool) (parser : Parser) : Edit RuleId :=
  if incremental then extend id name parser else define id name parser

def bindAll (id : GrammarId) (definitions : List ((String × Bool) × Parser)) :
    Edit (List RuleId) :=
  definitions.mapM fun ((name, incremental), parser) => bindAs id name incremental parser

def importRule (id : GrammarId) (name : String) (source : RuleId) :
    Edit (Except GrammarError RuleId) := do
  let catalog := (← get).catalog
  match catalog.definition? source with
  | none => return .error (.undefinedRule (catalog.nameOf source))
  | some definition =>
    -- The copy shares its parsers with the source, and has no exclusion.
    retain id source.grammar
    return .ok (← define id name definition)

end Edit

structure Roots where
  grammars : List GrammarId
  parsers : List Parser

/-- The largest part of a collection that a step keeps whole, where a step takes away what
it finds unsupported in the part that is left. -/
def selfSupporting {α : Type} (step : List α → List α) : Nat → List α → List α
  | 0, left => left
  | rounds + 1, left =>
    let next := step left
    if next.length = left.length then left else selfSupporting step rounds next

namespace Store

def grammarIds (store : Store) : List GrammarId :=
  (List.range store.catalog.grammars.size).map (⟨·⟩)

def cacheIds (store : Store) : List CacheId := (List.range store.caches.size).map (⟨·⟩)

def supportedBy (grammar : Grammar) : List GrammarId := grammar.base?.toList ++ grammar.retained

def keepGrammars (store : Store) (held living : List GrammarId) : List GrammarId :=
  let supported := held ++ living.flatMap fun id => supportedBy (store.catalog.grammar id)
  living.filter supported.contains

def definedCaches (grammar : Grammar) : List CacheId :=
  grammar.table.slots.toList.flatMap fun slot => (slot.definition.map (·.caches)).getD []

def failedCaches (cache : MatchCache) : List CacheId :=
  cache.entries.toList.flatMap fun
    | (_, .error failure, _) => failure.frames.flatMap (·.parser.caches)
    | (_, .ok _, _) => []

def keepCaches (store : Store) (held : Std.HashSet CacheId) (living : List CacheId) :
    List CacheId :=
  living.filter fun cache =>
    held.contains cache || living.any fun other => (failedCaches (store.cache other)).contains cache

def collect (store : Store) (roots : Roots) : Store :=
  let grammarIds := store.grammarIds.filter store.catalog.alive
  let grammars := selfSupporting (store.keepGrammars roots.grammars) grammarIds.length grammarIds
  let held := Std.HashSet.ofList <|
    grammars.flatMap (fun id => definedCaches (store.catalog.grammar id))
      ++ roots.parsers.flatMap (·.caches)
  let cacheIds := store.cacheIds.filter store.cacheAlive
  let caches := selfSupporting (store.keepCaches held) cacheIds.length cacheIds
  { store with
    catalog :=
      { store.catalog with
        lost := store.catalog.lost ++ grammarIds.filter fun id => !grammars.contains id }
    lostCaches := store.lostCaches ++ cacheIds.filter fun id => !caches.contains id }

end Store

end Metasyntax
