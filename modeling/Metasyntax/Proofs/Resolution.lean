import Metasyntax.Proofs.Rollback
import Metasyntax.Proofs.Rulelists
import Metasyntax.Proofs.Upkeep

/-!
# What names in rule text refer to

A grammar that is built from rule text refers to its own rules wherever it has a rule of the
name by the time that the bodies are compiled: those of the text, whatever their order, and
those that are named and have no meaning. What is imported comes after that, and hides a rule
of the base from everything but the bodies.
-/

set_option autoImplicit false

namespace Metasyntax

theorem Parser.filterMap_walkAll (parsers : List Parser) : ((walkAll parsers).filterMap fun
    | .rule ref => some ref
    | _ => none) = parsers.flatMap references := by
  induction parsers with
  | nil => rfl
  | cons parser rest ih => rw [walkAll, List.filterMap_append, ih, List.flatMap_cons]; rfl

namespace Expression

variable {id : GrammarId} {options : Options} {before after : Store}

mutual
/-- A described parser refers to what the names of the expression mean, one after the other. -/
theorem Describes.references :
    (expression : Expression) → {parser : Parser} →
    expression.Describes id options before after parser →
      List.Forall₂ (before.Resolves id after) expression.names parser.references
  | .literal _, _, h => by
    obtain rfl := h
    exact .nil
  | .name _, _, h => by
    obtain ⟨ref, rfl, hresolves⟩ := h
    exact .cons hresolves .nil
  | .choice branches, _, h => by
    obtain ⟨mode, parsers, rfl, -, -, hall⟩ := h
    have hbranches := DescribesAll.references branches hall
    rw [← Parser.filterMap_walkAll] at hbranches
    exact hbranches
  | .sequence items, _, h => by
    obtain ⟨parsers, rfl, hall⟩ := h
    have hitems := DescribesAll.references items hall
    rw [← Parser.filterMap_walkAll] at hitems
    exact hitems
  | .repeated _ element, _, h => by
    obtain ⟨cache, inner, rfl, -, -, hinner⟩ := h
    have hrefs := Describes.references element hinner
    exact hrefs
  | .optional element, _, h => by
    obtain ⟨cache, inner, rfl, -, -, hinner⟩ := h
    have hrefs := Describes.references element hinner
    exact hrefs
  | .prose _, _, h => by
    obtain rfl := h
    exact .nil

theorem DescribesAll.references :
    (expressions : List Expression) → {parsers : List Parser} →
    DescribesAll id options before after expressions parsers →
      List.Forall₂ (before.Resolves id after) (namesAll expressions)
        (parsers.flatMap Parser.references)
  | [], _, h => by
    obtain rfl := h
    exact .nil
  | expression :: rest, _, h => by
    obtain ⟨parser, others, rfl, hfirst, hrest⟩ := h
    rw [namesAll, List.flatMap_cons]
    exact List.rel_append (Describes.references expression hfirst)
      (DescribesAll.references rest hrest)
end

theorem DescribesAll.forall₂ {expressions : List Expression} {parsers : List Parser}
    (h : DescribesAll id options before after expressions parsers) :
    List.Forall₂ (Describes id options before after) expressions parsers := by
  induction expressions generalizing parsers with
  | nil =>
    obtain rfl := h
    exact .nil
  | cons expression rest ih =>
    obtain ⟨parser, others, rfl, hfirst, hrest⟩ := h
    exact .cons hfirst (ih hrest)

end Expression

namespace Edit

def compile (id : GrammarId) (productions : List Production) : Edit (List Parser) := do
  productions.forM fun production => discard <| localRule id production.name
  let options := ((← get).catalog.grammar id).options
  assembleAll id options (productions.map (·.body))

def bindParsers (id : GrammarId) (productions : List Production) (parsers : List Parser) :
    Edit (List RuleId) :=
  (productions.zip parsers).mapM fun (production, parser) => bindOne id production parser

theorem bind_eq_compile (id : GrammarId) (productions : List Production) :
    Edit.bind id productions = (do
      let parsers ← compile id productions
      bindParsers id productions parsers) := by
  simp only [Edit.bind, compile, bindParsers, bind_assoc]

end Edit

namespace Session

def readTexts (id : GrammarId) : RuleTexts → Loading (List Production)
  | .separate texts => do RuleText.readNodes id (← texts.mapM RuleText.parseRule)
  | .joined text => do RuleText.readNodes id (← RuleText.parseRules text)

theorem keeps_readTexts {P : Store → Prop} {reader : RuleId → Prop}
    (hpassive : Passive P reader) (id : GrammarId) (texts : RuleTexts) :
    Edit.Keeps P (readTexts id texts).run := by
  have hnodes (nodes : List Node) : Edit.Keeps P (RuleText.readNodes id nodes).run :=
    .andThen (.lift fun _ h => h) fun _ =>
      .adapt (RuleText.keeps_readProductions hpassive _ nodes) _
  cases texts with
  | separate texts => exact .andThen (.mapM (RuleText.keeps_parseRule hpassive) texts) hnodes
  | joined text => exact .andThen (RuleText.keeps_parseRules hpassive text) hnodes

theorem readTexts_catalog {store : Store} (h : store.catalog.Readable) (id : GrammarId)
    (texts : RuleTexts) : ((readTexts id texts).run store).2.catalog = store.catalog :=
  (keeps_readTexts (passive_alike h) id texts store (.refl store)).catalog

/-- Rule texts are loaded as if all of them were read before any rule is bound. -/
theorem run_loadTexts {store : Store} (hloadable : store.Loadable) (id : GrammarId) (texts : RuleTexts) :
    (loadTexts id texts).run store = (do
      let productions ← readTexts id texts
      Edit.bind id productions : Loading (List RuleId)).run store := by
  have hcompile (nodes : List Node) {read : Store} (halike : store.Alike read) :
      (RuleText.compile id nodes).run read = (do
        let productions ← RuleText.readNodes id nodes
        Edit.bind id productions : Loading (List RuleId)).run read := by
    rw [(hloadable.alike halike).compile_eq, RuleText.bindNodes_eq_readNodes]
  have hpassive := passive_alike hloadable.readable
  cases texts with
  | separate texts =>
    have hparsed := Edit.Keeps.mapM (RuleText.keeps_parseRule hpassive) texts store (.refl store)
    simp only [loadTexts, Loading.loadRules, readTexts, bind_assoc]
    exact Edit.run_bind_congr fun nodes _ => hcompile nodes hparsed
  | joined text =>
    have hparsed := RuleText.keeps_parseRules hpassive text store (.refl store)
    simp only [loadTexts, Loading.loadRulelist, readTexts, bind_assoc]
    exact Edit.run_bind_congr fun nodes _ => hcompile nodes hparsed

end Session

theorem Session.loadTexts_eq_ok {id : GrammarId} {texts : RuleTexts} {store loaded : Store}
    (hloadable : store.Loadable) {rules : List RuleId} :
    (loadTexts id texts).run store = (.ok rules, loaded) ↔
      ∃ productions read, (readTexts id texts).run store = (.ok productions, read) ∧
        Edit.bind id productions read = (rules, loaded) := by
  rw [run_loadTexts hloadable, Edit.run_bind_eq_ok]
  refine exists_congr fun productions => exists_congr fun read => and_congr_right fun _ => ?_
  change ((.ok (Edit.bind id productions read).1, (Edit.bind id productions read).2) :
    Except Failure (List RuleId) × Store) = _ ↔ _
  rw [Prod.ext_iff, Prod.ext_iff, Except.ok.injEq]

/-- A grammar is built once its rules are loaded and then the imports are bound. -/
theorem Loading.newGrammar_eq_ok {name : String} {options : Options}
    {load : GrammarId → Loading (List RuleId)} {imports : List (String × RuleId)} {id : GrammarId}
    {store after : Store} :
    (Loading.newGrammar name options load imports).run store = (.ok id, after) ↔
      id = ⟨store.catalog.grammars.size⟩ ∧ ∃ rules loaded,
        (load id).run (Edit.newGrammar name (some .core) options store).2 = (.ok rules, loaded) ∧
        (importAll id imports).run loaded = (.ok (), after) := by
  have hid : (Edit.newGrammar name (some .core) options store).1 = ⟨store.catalog.grammars.size⟩ :=
    Edit.newGrammar_fst name (some .core) options store
  rw [newGrammar, Edit.run_lift_bind, hid]
  generalize (Edit.newGrammar name (some .core) options store).2 = fresh
  rw [Functor.discard, map_const, Function.comp_apply, ← bind_pure_comp, bind_assoc]
  simp only [pure_bind, Edit.run_bind_eq_ok]
  constructor
  · rintro ⟨rules, loaded, hload, _, _, himport, hdone⟩
    cases hdone
    exact ⟨rfl, rules, loaded, hload, himport⟩
  · rintro ⟨rfl, rules, loaded, hload, himport⟩
    exact ⟨rules, loaded, hload, (), after, himport, rfl⟩

/-- A new grammar is based on the core rules alone, and has no rules. -/
theorem Sane.newGrammar_blank {held : Set Parser} {store : Store} (h : Sane held store)
    (hplace : GrammarId.core.index < store.catalog.grammars.size) (name : String)
    (options : Options) :
    let id : GrammarId := ⟨store.catalog.grammars.size⟩
    let catalog := (Edit.newGrammar name (some .core) options store).2.catalog
    id.index < catalog.grammars.size ∧ (catalog.grammar id).bases = [.core] ∧
      (∀ called, catalog.local? id called = none) ∧
      catalog.local? .core = store.catalog.local? .core := by
  have hcore : (store.catalog.grammar .core).bases = [] := by
    cases hbases : (store.catalog.grammar .core).bases with
    | nil => rfl
    | cons base rest =>
      have hbase : (store.catalog.grammar .core).base? = some base := by
        rw [Grammar.base?, hbases, List.head?_cons]
      exact absurd (h.lineage .core base hbase).1 (Nat.not_lt_zero _)
  refine ⟨(Nat.lt_succ_self _).trans_eq (Array.size_push _).symm, ?_, fun called => ?_, ?_⟩
  · rw [grammar_newGrammar, if_pos rfl]
    exact congrArg (GrammarId.core :: ·) hcore
  · rw [Catalog.local?, grammar_newGrammar, if_pos rfl]
    rfl
  · funext called
    rw [Catalog.local?, grammar_newGrammar, if_neg hplace.ne, Catalog.local?]

/-- A name that a grammar has once the bodies are compiled it has once all is bound. -/
theorem Loading.local?_bound {id : GrammarId} {productions : List Production}
    {parsers : List Parser} {compiled after : Store}
    {imports : List (String × RuleId)} {called : String} {rule : RuleId}
    (himport : (importAll id imports).run (Edit.bindParsers id productions parsers compiled).2 =
      (.ok (), after))
    (hrule : compiled.catalog.local? id called = some rule) :
    after.catalog.local? id called = some rule := by
  have hdurable := Store.local?_durable id called rule
  have hbound := Edit.lasting_bindEach id (productions.zip parsers) _ hdurable compiled hrule
  have himported := hdurable.importAll id imports _ hbound
  rw [Edit.bindParsers] at himport
  rwa [himport] at himported

namespace Edit

variable {id : GrammarId}

theorem local?_localRule_of_ne {store : Store} {other : GrammarId} {name name' : String}
    (hne : other ≠ id ∨ lowerText name ≠ lowerText name') :
    (localRule id name store).2.catalog.local? other name' = store.catalog.local? other name' := by
  cases hlocal : store.catalog.local? id name with
  | some rule => rw [Store.localRule_eq_of_local hlocal]
  | none =>
    simp only [localRule, bind_apply, get_apply, pure_apply, hlocal]
    by_cases hindex : id.index < store.catalog.grammars.size
    · rw [Store.local?_push hindex, if_neg fun h => hne.elim (absurd h.1) (absurd h.2)]
    · rw [modifyTable, local?_modifyGrammar, if_neg fun h => hindex h.2]

/-- Making room for the names of productions makes room for no others. -/
theorem local?_forM_localRule {other : GrammarId} {name : String} {productions : List Production}
    (hne : other ≠ id ∨ ∀ production ∈ productions, lowerText production.name ≠ lowerText name)
    (store : Store) : ((productions.forM fun production =>
      discard <| localRule id production.name : Edit Unit) store).2.catalog.local? other name =
        store.catalog.local? other name := by
  induction productions generalizing store with
  | nil => rfl
  | cons first rest ih =>
    have hfirst : (localRule id first.name store).2.catalog.local? other name = _ :=
      local?_localRule_of_ne (hne.imp_right fun h => h first List.mem_cons_self)
    exact (ih (hne.imp_right fun h production hproduction =>
      h production (List.mem_cons_of_mem _ hproduction)) _).trans hfirst

end Edit

namespace Store.Resolves

variable {id : GrammarId} {before after : Store} {name : String} {ref : RuleRef}

theorem target_of_local (h : before.Resolves id after name ref) {rule : RuleId}
    (hrule : before.catalog.local? id name = some rule) : ref.target = rule :=
  (h.known rule (by rw [Catalog.lookup?, List.findSome?_cons, hrule])).1

theorem local_of_new (h : before.Resolves id after name ref)
    (hnone : before.catalog.lookup? id name = none) :
    after.catalog.local? id name = some ref.target := by
  obtain ⟨other, -, hother⟩ := List.exists_of_findSome?_eq_some h.lookup
  obtain ⟨place, -, hplace⟩ := Option.map_eq_some_iff.1 hother
  obtain rfl : other = id := (congrArg RuleId.grammar hplace).trans (h.new hnone).1
  exact hother

end Store.Resolves

def Production.Among (productions : List Production) (called : String) : Prop :=
  ∃ production ∈ productions, lowerText production.name = lowerText called

/-- What a name in the text of a grammar refers to: the rule of the grammar's own that it comes
to have of the name, if the text has a production for it or there is no core rule of the name,
and otherwise the core rule. -/
structure Store.Means (id : GrammarId) (productions : List Production) (before after : Store)
    (called : String) (ref : RuleRef) : Prop where
  own : Production.Among productions called ∨ before.catalog.local? .core called = none →
    after.catalog.local? id called = some ref.target
  core : ¬ Production.Among productions called → ∀ base,
    before.catalog.local? .core called = some base → ref.target = base

/-- In a grammar without rules on top of the core rules, the bodies of productions refer to
what their names mean. -/
theorem Edit.compile_means {id : GrammarId} {store : Store} (productions : List Production)
    (hindex : id.index < store.catalog.grammars.size)
    (hbases : (store.catalog.grammar id).bases = [.core]) (hcore : GrammarId.core ≠ id)
    (hempty : ∀ name, store.catalog.local? id name = none) :
    List.Forall₂ (fun production parser => List.Forall₂
      (store.Means id productions (compile id productions store).2)
      production.body.names parser.references) productions (compile id productions store).1 := by
  have hfound := forM_localRule_found productions hindex
  have hother {other : GrammarId} {called : String} (hne : other ≠ id ∨
      ∀ production ∈ productions, lowerText production.name ≠ lowerText called) :=
    local?_forM_localRule hne store
  have hquiet : Quiet store _ := quiet_forM_localRule productions id
  simp only [compile, bind_apply, get_apply]
  generalize ((productions.forM fun production =>
    discard <| localRule id production.name : Edit Unit) store).2 = named
    at hfound hother hquiet ⊢
  obtain ⟨hgrows, -, hall⟩ := assembleAll_describes (named.catalog.grammar id).options
    (productions.map (·.body)) (.refl id named) (by rwa [hquiet.grammars])
  generalize assembleAll id (named.catalog.grammar id).options (productions.map (·.body)) named =
    assembled at hgrows hall ⊢
  have hlookup {called : String} (hnone : named.catalog.local? id called = none) :
      named.catalog.lookup? id called = store.catalog.local? .core called := by
    rw [Catalog.lookup?, hquiet.bases, hbases, List.findSome?_cons, hnone, List.findSome?_singleton,
      hother (Or.inl hcore)]
  have hmeans (called : String) (ref : RuleRef) (h : named.Resolves id assembled.2 called ref) :
      store.Means id productions assembled.2 called ref := by
    cases hlocal : named.catalog.local? id called with
    | some rule =>
      refine ⟨fun _ => ?_, fun hnot => ?_⟩
      · rw [h.target_of_local hlocal]
        exact hgrows.retains.found called rule hlocal
      · rw [hother (Or.inr fun production hmem heq => hnot ⟨production, hmem, heq⟩), hempty]
          at hlocal
        cases hlocal
    | none =>
      refine ⟨fun hown => h.local_of_new ((hlookup hlocal).trans (hown.resolve_left ?_)),
        fun _ base hbase => (h.known base ((hlookup hlocal).trans hbase)).1⟩
      rintro ⟨production, hmem, heq⟩
      obtain ⟨rule, hrule⟩ := hfound production hmem
      rw [Catalog.local?_congr heq, hlocal] at hrule
      cases hrule
  exact (List.forall₂_map_left_iff.1 hall.forall₂).imp fun production _ hdescribes =>
    (hdescribes.references production.body).imp hmeans

theorem Session.Reached.loadable_newGrammar {session : Session} (h : session.Reached)
    (name : String) (options : Options) :
    (Edit.newGrammar name (some .core) options session.store).2.Loadable := by
  have hstep : session.bench.Step
      (session.bench.make .grammar (Edit.newGrammar name (some .core) options)) :=
    .newGrammar name options (by rintro id ⟨⟩; exact .core)
  exact (Bench.Steps.able (.single hstep) h.able).loadable

/-- The bodies of a new grammar's productions refer to what their names mean. -/
theorem Session.Reached.compile_means {session : Session} (h : session.Reached) {name : String}
    {options : Options} {texts : Session.RuleTexts} {productions : List Production} {read : Store}
    {id : GrammarId} (hid : id = ⟨session.store.catalog.grammars.size⟩)
    (hread : (Session.readTexts id texts).run
      (Edit.newGrammar name (some .core) options session.store).2 = (.ok productions, read)) :
    List.Forall₂ (fun production parser => List.Forall₂
      (session.store.Means id productions (Edit.compile id productions read).2)
      production.body.names parser.references) productions (Edit.compile id productions read).1 := by
  have hplace : GrammarId.core.index < session.store.catalog.grammars.size :=
    (h.orderly.useful _ .core).2
  subst hid
  have hsane : Sane _ session.store := h.orderly.sane
  obtain ⟨hindex, hbases, hempty, hcore⟩ := hsane.newGrammar_blank hplace name options
  have hcatalog : read.catalog = _ := hread ▸ Session.readTexts_catalog
    (h.loadable_newGrammar name options).readable _ texts
  rw [← hcatalog] at hindex hbases hcore
  simp only [← hcatalog] at hempty
  have hmeans := Edit.compile_means productions hindex hbases
    (fun heq => hplace.ne (congrArg GrammarId.index heq)) hempty
  refine hmeans.imp fun production parser hall => hall.imp fun called ref href => ?_
  exact ⟨fun hown => href.own (by rwa [hcore]), fun hnot base hbase =>
    href.core hnot base (by rwa [hcore])⟩

theorem Catalog.index_lt_of_local {catalog : Catalog} {id : GrammarId} {name : String}
    {rule : RuleId} (h : catalog.local? id name = some rule) :
    id.index < catalog.grammars.size := by
  by_contra hindex
  rw [local?, grammar_eq_default (Nat.le_of_not_lt hindex)] at h
  cases h

theorem Edit.local?_importRule {id : GrammarId} {store : Store} {source : RuleId}
    {definition : Parser} (hdefinition : store.catalog.definition? source = some definition)
    (hindex : id.index < store.catalog.grammars.size) (name : String) :
    ∃ rule, (importRule id name source store).2.catalog.local? id name = some rule := by
  have hindex' : id.index < (retain id source.grammar store).2.catalog.grammars.size := by
    rwa [(quiet_retain id source.grammar).grammars]
  have hplace := Store.local?_localRule hindex' name
  simp only [importRule, bind_apply, get_apply, hdefinition, pure_apply, define]
  exact ⟨_, (Store.retains_setDefinition _ definition).found _ _ hplace⟩

theorem Loading.importAll_singleton {id : GrammarId} {store : Store} {source : RuleId}
    {definition : Parser} (hdefinition : store.catalog.definition? source = some definition)
    (name : String) : (importAll id [(name, source)]).run store =
      (.ok (), (Edit.importRule id name source store).2) := by
  have hresult : ∃ rule, (Edit.importRule id name source store).1 = .ok rule := by
    simp only [Edit.importRule, Edit.bind_apply, Edit.get_apply, hdefinition, Edit.pure_apply]
    exact ⟨_, rfl⟩
  obtain ⟨rule, hrule⟩ := hresult
  change ((liftM (Edit.importRule id name source) >>= _) >>= _ : Loading Unit).run store = _
  rw [bind_assoc, Edit.run_lift_bind, hrule]
  rfl

theorem Desk.Untouched.exists_definition {desk : Desk} (h : desk.Untouched) {rule : RuleId}
    (hrule : rule.grammar ∈ Standard.grammars) (hbound : (Standard.catalog.bound rule).isOk = true) :
    ∃ definition, desk.store.catalog.definition? rule = some definition := by
  cases hstandard : Standard.catalog.bound rule with
  | error error =>
    rw [hstandard] at hbound
    cases hbound
  | ok bound =>
    obtain ⟨hslot, hdefinition⟩ := Catalog.bound_eq_ok_iff.1
      ((h.faithful.agrees.bound rule hrule bound.1 bound.2).2 hstandard)
    exact ⟨bound.2, by rw [Catalog.definition?, hslot, Option.bind_some, hdefinition]⟩

def Notation.referring (name : List Char) : Notation.Rule :=
  ⟨['a'], false, .last (.last (.once (.name name)))⟩

theorem Notation.spelled_referring {name : List Char} (hname : IsName name) :
    (referring name).Spelled (['a', '='] ++ name ++ ['\r', '\n']) := by
  have hbody : (referring name).body.Spelled name := ⟨hname, rfl⟩
  exact spelled_tight false (by decide) hbody rfl

theorem Session.start_checked : (⟨2⟩ : GrammarId) = ⟨start.store.catalog.grammars.size⟩ ∧
    Store.drafting.catalog.alive ⟨2⟩ = true ∧ 2 < Store.drafting.catalog.grammars.size ∧
    (Standard.catalog.bound ⟨.core, 0⟩).isOk = true ∧
    start.store.catalog.local? .core "DIGIT" = some ⟨.core, 7⟩ := by
  decide +kernel

/-- As long as the standard grammars are left alone, a text is read as the rule that it spells. -/
theorem Desk.Untouched.exists_read {desk : Desk} (h : desk.Untouched) (id : GrammarId)
    {text : String} {rule : Notation.Rule} {production : Production}
    (hspelled : rule.Spelled (asLines (trimBlankEnd text).toList))
    (hproduction : rule.production (desk.store.catalog.grammar id).options.prose = .ok production) :
    ∃ read, desk.store.Alike read ∧
      (Session.readTexts id (.joined text)).run desk.store = (.ok [production], read) := by
  have hlisting : Notation.Listing [rule] (asLines (trimBlankEnd text).toList ++ []) :=
    .rule hspelled .nil
  rw [List.append_nil] at hlisting
  obtain ⟨nodes, parsed, hparse, hparsed, hfaithful, hreads⟩ := h.parseRules_of_listing hlisting
  obtain ⟨read, hread, hnodes⟩ := RuleText.readNodes_of_readsAs hreads id hfaithful
  refine ⟨read, hparsed.trans hread, ?_⟩
  rw [Session.readTexts, Edit.run_bind_ok hparse, hnodes, hparsed.catalog, List.mapM_cons, hproduction]
  rfl

theorem Desk.Untouched.exists_loaded {desk : Desk} (h : desk.Untouched) (id : GrammarId)
    {text : String} {rule : Notation.Rule} {production : Production}
    (hspelled : rule.Spelled (asLines (trimBlankEnd text).toList))
    (hproduction : rule.production (desk.store.catalog.grammar id).options.prose = .ok production) :
    ∃ read rules loaded,
      (Session.readTexts id (.joined text)).run desk.store = (.ok [production], read) ∧
      (Session.loadTexts id (.joined text)).run desk.store = (.ok rules, loaded) := by
  obtain ⟨read, -, hread⟩ := h.exists_read id hspelled hproduction
  exact ⟨read, _, _, hread, (Session.loadTexts_eq_ok h.faithful.loadable).2 ⟨_, read, hread, rfl⟩⟩

theorem Notation.spelled_digit : (referring ['D', 'I', 'G', 'I', 'T']).Spelled
    (asLines (trimBlankEnd "a=DIGIT").toList) := by
  have hlines : asLines (trimBlankEnd "a=DIGIT").toList =
      ['a', '='] ++ ['D', 'I', 'G', 'I', 'T'] ++ ['\r', '\n'] := by
    decide +kernel
  rw [hlines]
  exact spelled_referring (by decide)

theorem Session.exists_read : ∃ read,
    2 < read.catalog.grammars.size ∧ (readTexts ⟨2⟩ (.joined "a=DIGIT")).run .drafting =
      (.ok [⟨"a", false, .name "DIGIT"⟩], read) := by
  obtain ⟨read, halike, hread⟩ := Desk.untouched_drafting.exists_read ⟨2⟩ Notation.spelled_digit rfl
  refine ⟨read, ?_, hread⟩
  rw [halike.catalog]
  exact start_checked.2.2.1

/-- A grammar is built whose text refers to the digits, and for which the letters are imported
under that name. -/
theorem Session.exists_built : ∃ read after,
    (readTexts ⟨2⟩ (.joined "a=DIGIT")).run .drafting =
      (.ok [⟨"a", false, .name "DIGIT"⟩], read) ∧
    (Loading.newGrammar "g" .standard (loadTexts · (.joined "a=DIGIT"))
      [("DIGIT", ⟨.core, 0⟩)]).run start.store = (.ok ⟨2⟩, after) ∧
    ∃ rule, after.catalog.local? ⟨2⟩ "DIGIT" = some rule := by
  obtain ⟨read, hplace, htexts⟩ := exists_read
  obtain ⟨rules, loaded, hbind⟩ : ∃ rules loaded,
      Edit.bind ⟨2⟩ [⟨"a", false, .name "DIGIT"⟩] read = (rules, loaded) := ⟨_, _, rfl⟩
  have hload := (loadTexts_eq_ok Desk.untouched_drafting.faithful.loadable).2 ⟨_, read, htexts, hbind⟩
  obtain ⟨hsize, halive, -, hbound, -⟩ := start_checked
  have hindex : 2 < loaded.catalog.grammars.size := by
    have hfound := Edit.bind_found [⟨"a", false, .name "DIGIT"⟩] hplace
    rw [hbind] at hfound
    cases hfound with
    | cons hfirst _ => exact Catalog.index_lt_of_local hfirst
  have hletters : ∃ letters, loaded.catalog.definition? ⟨.core, 0⟩ = some letters := by
    have hloaded : ((Loading.loadRulelist ⟨2⟩ "a=DIGIT").run .drafting).2 = loaded :=
      congrArg Prod.snd hload
    have huntouched := Desk.Untouched.changes Desk.untouched_drafting halive (by decide)
      (.loadRulelist "a=DIGIT")
    exact hloaded ▸ huntouched.exists_definition (Or.inl rfl) hbound
  obtain ⟨letters, hletters⟩ := hletters
  exact ⟨read, _, htexts, Loading.newGrammar_eq_ok.2
    ⟨hsize, rules, loaded, hload, Loading.importAll_singleton hletters "DIGIT"⟩,
    Edit.local?_importRule hletters hindex "DIGIT"⟩

/-- In every session that can be come to, a grammar that is built from rule texts and imports
refers, in the body of every production, to its own rules of the names that the texts bind or
that have no core rule, imports of such names included, and to the core rules of other names. -/
theorem Session.Reached.texts_refer {session : Session} (h : session.Reached) {name : String}
    {options : Options} {texts : Session.RuleTexts} {imports : List (String × RuleId)}
    {id : GrammarId} {after : Store}
    (hbuilt : (Loading.newGrammar name options (Session.loadTexts · texts) imports).run
      session.store = (.ok id, after)) :
    ∃ productions read parsers compiled,
      (Session.readTexts id texts).run (Edit.newGrammar name (some .core) options session.store).2 =
        (.ok productions, read) ∧
      Edit.compile id productions read = (parsers, compiled) ∧
      (Loading.importAll id imports).run (Edit.bindParsers id productions parsers compiled).2 =
        (.ok (), after) ∧
      List.Forall₂ (fun production parser => List.Forall₂
        (session.store.Means id productions after) production.body.names parser.references)
        productions parsers := by
  obtain ⟨hid, rules, loaded, hload, himport⟩ := Loading.newGrammar_eq_ok.1 hbuilt
  obtain ⟨productions, read, hread, hbind⟩ :=
    (Session.loadTexts_eq_ok (h.loadable_newGrammar name options)).1 hload
  rw [Edit.bind_eq_compile, Edit.bind_apply] at hbind
  have hloaded : (Edit.bindParsers id productions _ _).2 = loaded := congrArg Prod.snd hbind
  rw [← hloaded] at himport
  have hmeans := h.compile_means hid hread
  refine ⟨productions, read, _, _, hread, rfl, himport, ?_⟩
  exact hmeans.imp fun production parser hall => hall.imp fun called ref href =>
    ⟨fun hown => Loading.local?_bound himport (href.own hown), href.core⟩

theorem Session.Reached.texts_refer_digit : ∃ after,
    (Loading.newGrammar "g" .standard (Session.loadTexts · (.joined "a=DIGIT"))
      [("DIGIT", ⟨.core, 0⟩)]).run Session.start.store = (.ok ⟨2⟩, after) ∧
    ∃ productions read parsers compiled,
      (Session.readTexts ⟨2⟩ (.joined "a=DIGIT")).run
        (Edit.newGrammar "g" (some .core) .standard Session.start.store).2 =
          (.ok productions, read) ∧
      Edit.compile ⟨2⟩ productions read = (parsers, compiled) ∧
      (Loading.importAll ⟨2⟩ [("DIGIT", ⟨.core, 0⟩)]).run
        (Edit.bindParsers ⟨2⟩ productions parsers compiled).2 = (.ok (), after) ∧
      List.Forall₂ (fun production parser => List.Forall₂
        (Session.start.store.Means ⟨2⟩ productions after) production.body.names parser.references)
        productions parsers := by
  obtain ⟨read, after, -, hbuilt, -⟩ := Session.exists_built
  exact ⟨after, hbuilt, Session.Reached.texts_refer .start hbuilt⟩

/-- A text does not refer to the rule that is imported under the name of a core rule. -/
theorem import_unseen_by_text : ¬ ∀ session : Session, session.Reached →
    ∀ name options texts imports id after,
      (Loading.newGrammar name options (Session.loadTexts · texts) imports).run session.store =
        (.ok id, after) →
      ∀ productions read parsers compiled,
        (Session.readTexts id texts).run
          (Edit.newGrammar name (some .core) options session.store).2 = (.ok productions, read) →
        Edit.compile id productions read = (parsers, compiled) →
        List.Forall₂ (fun production parser => List.Forall₂ (fun called ref => ∀ rule,
          after.catalog.local? id called = some rule → ref.target = rule)
          production.body.names parser.references) productions parsers := by
  intro hall
  obtain ⟨read, after, hread, hbuilt, rule, hrule⟩ := Session.exists_built
  obtain ⟨parsers, compiled, hcompile⟩ : ∃ parsers compiled,
      Edit.compile ⟨2⟩ [⟨"a", false, .name "DIGIT"⟩] read = (parsers, compiled) := ⟨_, _, rfl⟩
  have hreferences := hall _ .start _ _ _ _ _ _ hbuilt _ _ _ _ hread hcompile
  obtain ⟨hsize, -, -, -, hdigits⟩ := Session.start_checked
  have hmeans := Session.Reached.start.compile_means hsize hread
  rw [hcompile] at hmeans
  obtain ⟨parser, others, hlocal, -, rfl⟩ := List.forall₂_cons_left_iff.1 hreferences
  have hnames := (List.forall₂_cons.1 hmeans).1
  rw [Expression.names] at hlocal hnames
  obtain ⟨ref, rest, htarget, -, hrefs⟩ := List.forall₂_cons_left_iff.1 hlocal
  rw [hrefs] at hnames
  have hcore : ref.target = ⟨.core, 7⟩ := by
    refine (List.forall₂_cons.1 hnames).1.core ?_ _ hdigits
    rintro ⟨production, hmem, heq⟩
    rw [List.mem_singleton.1 hmem] at heq
    exact absurd heq (by decide +kernel)
  obtain ⟨place, -, hplace⟩ := Option.map_eq_some_iff.1 hrule
  rw [← htarget rule hrule, hcore] at hplace
  cases hplace

end Metasyntax
