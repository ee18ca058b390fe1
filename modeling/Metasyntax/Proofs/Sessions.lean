import Metasyntax.Session
import Metasyntax.Proofs.Runs

/-!
# What a session keeps

Whatever a session is told to do, it changes its store in a few ways only: grammars, modes,
caches and unbound rules are added, a rule's slot is changed, caches are registered, emptied
or used in a parse, grammars are retained, and what nothing holds is lost. A property that
none of these spoils holds in every session, once it holds of the standard grammars.
-/

set_option autoImplicit false

namespace Metasyntax

open Edit (Keeps)

structure Durable (P : Store → Prop) : Prop where
  newGrammar (name : String) (base : Option GrammarId) (options : Options) :
    Keeps P (Edit.newGrammar name base options)
  newMode (firstMatch : Bool) : Keeps P (Edit.newMode firstMatch)
  newCache (capacity : Capacity) : Keeps P (Edit.newCache capacity)
  newRule {store : Store} {id : GrammarId} {name : String} :
    store.catalog.local? id name = none → P store → P (Edit.modifyTable id (·.push name) store).2
  setMode (mode : ModeId) (firstMatch : Bool) : Keeps P (Edit.modifyCatalog fun catalog =>
    { catalog with modes := catalog.modes.modify mode.index fun _ => firstMatch })
  update (rule : RuleId) {change : Slot → Slot} : (∀ slot, (change slot).name = slot.name) →
    Keeps P (Edit.modifyTable rule.grammar (·.update rule.slot change))
  register (id : GrammarId) (caches : List CacheId) : Keeps P (Edit.register id caches)
  retain (id other : GrammarId) : Keeps P (Edit.retain id other)
  clearCaches (id : GrammarId) : Keeps P (Edit.clearCaches id)
  matchesOf (parser : Parser) (source : Source) (start : Nat) :
    Keeps P (Edit.parsing (·.matchesOf parser source start))
  collect {store : Store} (roots : Roots) : P store → P (store.collect roots)

/-- A name that a grammar has it keeps. -/
theorem Store.local?_durable (id : GrammarId) (name : String) (rule : RuleId) :
    Durable fun store => store.catalog.local? id name = some rule where
  newGrammar name' base options store h :=
    (agrees_newGrammar Set.univ name' base options store).found id trivial name rule h
  newMode _ _ h := h
  newCache _ _ h := h
  newRule hname h := (quiet_push hname).agrees.found id trivial name rule h
  setMode _ _ _ h := h
  update target change _ store h := by
    have hsame : (Edit.modifyTable target.grammar (·.update target.slot change)
        store).2.catalog.local? id name = store.catalog.local? id name := by
      rw [Edit.modifyTable, Edit.local?_modifyGrammar]
      split
      case isTrue hid => rw [hid.1]; rfl
      case isFalse => rfl
    exact hsame.trans h
  register other caches store h := (quiet_register other caches).agrees.found id trivial name rule h
  retain other source store h := (quiet_retain other source).agrees.found id trivial name rule h
  clearCaches _ _ h := h
  matchesOf _ _ _ _ h := h
  collect _ h := h

structure Robust (home : GrammarId) (P : Store → Prop) : Prop where
  newMode (firstMatch : Bool) : Keeps P (Edit.newMode firstMatch)
  newCache (capacity : Capacity) : Keeps P (Edit.newCache capacity)
  newRule {store : Store} {name : String} : store.catalog.local? home name = none → P store →
    P (Edit.modifyTable home (·.push name) store).2
  update (place : Nat) {change : Slot → Slot} : (∀ slot, (change slot).name = slot.name) →
    Keeps P (Edit.modifyTable home (·.update place change))
  register (caches : List CacheId) : Keeps P (Edit.register home caches)
  retain (other : GrammarId) : Keeps P (Edit.retain home other)
  clearCaches : Keeps P (Edit.clearCaches home)

theorem Durable.robust {P : Store → Prop} (h : Durable P) (home : GrammarId) : Robust home P where
  newMode := h.newMode
  newCache := h.newCache
  newRule := h.newRule
  update place _ := h.update ⟨home, place⟩
  register := h.register home
  retain := h.retain home
  clearCaches := h.clearCaches home

namespace Edit

def ConfinedTo (home : GrammarId) {α : Type} (edit : Edit α) : Prop :=
  ∀ P : Store → Prop, Robust home P → Keeps P edit

namespace ConfinedTo

variable {home : GrammarId} {α β : Type}

theorem pure (a : α) : ConfinedTo home (Pure.pure a : Edit α) := fun _ _ => .pure a

theorem bind {edit : Edit α} {next : α → Edit β} (h : ConfinedTo home edit)
    (hnext : ∀ a, ConfinedTo home (next a)) : ConfinedTo home (edit >>= next) :=
  fun P hP => .bind (h P hP) fun a => hnext a P hP

theorem get : ConfinedTo home (get : Edit Store) := fun _ _ _ h => h

theorem compositional : Compositional Edit (@ConfinedTo home) where
  done := .pure
  andThen := .bind

theorem forM {next : α → Edit Unit} (h : ∀ a, ConfinedTo home (next a)) (items : List α) :
    ConfinedTo home (items.forM next) :=
  compositional.forM h items

theorem mapM {next : α → Edit β} (h : ∀ a, ConfinedTo home (next a)) (items : List α) :
    ConfinedTo home (items.mapM next) :=
  compositional.mapM h items

end ConfinedTo

section
variable (home : GrammarId)

theorem confined_alternation (firstMatch : Bool) (branches : List Parser) :
    ConfinedTo home (alternation firstMatch branches) :=
  .bind (fun _ hP => hP.newMode firstMatch) fun _ => .pure _

theorem confined_repetition (capacity : Capacity) (bounds : Bounds) (element : Parser) :
    ConfinedTo home (repetition capacity bounds element) :=
  .bind (fun _ hP => hP.newCache capacity) fun _ => .pure _

theorem confined_optional (capacity : Capacity) (element : Parser) :
    ConfinedTo home (Edit.optional capacity element) :=
  .bind (fun _ hP => hP.newCache capacity) fun _ => .pure _

theorem confined_localRule (name : String) : ConfinedTo home (localRule home name) := by
  intro P hP store hstore
  simp only [localRule, bind_apply, get_apply]
  cases hlocal : store.catalog.local? home name with
  | some rule => exact hstore
  | none => exact hP.newRule hlocal hstore

theorem ConfinedTo.withLocal {α : Type} {name : String} {next : RuleId → Edit α}
    (hnext : ∀ rule, rule.grammar = home → ConfinedTo home (next rule)) :
    ConfinedTo home (localRule home name >>= next) :=
  fun P hP => .bindWith (confined_localRule home name P hP)
    (fun _ _ => localRule_grammar home name) fun rule hrule => hnext rule hrule P hP

theorem confined_rule (name : String) : ConfinedTo home (Edit.rule home name) := by
  refine .bind .get fun store => ?_
  split
  · exact .pure _
  · exact confined_localRule home name

theorem confined_adopt (parser : Parser) : ConfinedTo home (adopt home parser) :=
  .bind (fun _ hP => hP.register _) fun _ => .bind .get fun _ =>
    .forM (fun target _ hP => hP.retain target.grammar) _

end

section
variable (rule : RuleId)

theorem confined_updateRule {change : Slot → Slot} (h : ∀ slot, (change slot).name = slot.name) :
    ConfinedTo rule.grammar (updateRule rule change) :=
  .bind (fun _ hP => hP.update rule.slot h) fun _ _ hP => hP.clearCaches

theorem confined_setDefinition (definition : Parser) :
    ConfinedTo rule.grammar (setDefinition rule definition) :=
  .bind (confined_adopt _ _) fun _ => confined_updateRule rule fun _ => rfl

theorem confined_addAlternative (alternative : Parser) :
    ConfinedTo rule.grammar (addAlternative rule alternative) := by
  refine .bind .get fun store => ?_
  dsimp only
  split
  · exact .bind (confined_alternation _ _ _) fun _ => confined_setDefinition rule _
  · exact confined_setDefinition rule alternative

end

section
variable (home : GrammarId)

theorem confined_define (name : String) (definition : Parser) :
    ConfinedTo home (define home name definition) := by
  refine .withLocal home fun rule hrule => ?_
  subst hrule
  exact .bind (confined_setDefinition rule definition) fun _ => .pure _

theorem confined_extend (name : String) (alternative : Parser) :
    ConfinedTo home (extend home name alternative) := by
  refine .withLocal home fun rule hrule => .bind .get fun store => ?_
  subst hrule
  have hadd : ConfinedTo rule.grammar (addAlternative rule alternative >>= fun _ => Pure.pure rule) :=
    .bind (confined_addAlternative rule alternative) fun _ => .pure _
  dsimp only
  split
  · refine .bind ?_ fun _ => hadd
    cases (store.catalog.grammar rule.grammar).base?.bind fun base =>
        (store.catalog.lookup? base name).bind store.catalog.definition? with
    | none => exact .pure ()
    | some definition => exact confined_setDefinition rule definition
  · exact hadd

theorem confined_name (options : Options) (name : String) :
    ConfinedTo home (assemble home options (.name name)) := by
  rw [assemble]
  exact .bind (confined_rule home name) fun _ => .bind .get fun _ => .pure _

theorem confined_assembling (options : Options) : Assembling options (@ConfinedTo home) where
  toCompositional := ConfinedTo.compositional
  alternation := confined_alternation home _
  repetition := confined_repetition home _
  optional := confined_optional home _

theorem confined_assemble (options : Options) (expression : Expression) :
    ConfinedTo home (assemble home options expression) :=
  composed_assemble (confined_assembling home options) expression fun name _ =>
    confined_name home options name

theorem confined_assembleAll (options : Options) (expressions : List Expression) :
    ConfinedTo home (assembleAll home options expressions) :=
  composed_assembleAll (confined_assembling home options) expressions fun name _ =>
    confined_name home options name

theorem confined_bindOne (production : Production) (parser : Parser) :
    ConfinedTo home (bindOne home production parser) := by
  rw [bindOne]
  split
  · exact confined_extend home _ _
  · exact confined_define home _ _

theorem confined_bindEach (items : List (Production × Parser)) :
    ConfinedTo home (items.mapM fun (production, parser) => bindOne home production parser) :=
  .mapM (fun item => confined_bindOne home item.1 item.2) items

theorem confined_bindAs (name : String) (incremental : Bool) (parser : Parser) :
    ConfinedTo home (bindAs home name incremental parser) := by
  rw [bindAs]
  split
  · exact confined_extend home _ _
  · exact confined_define home _ _

theorem confined_bindAll (definitions : List ((String × Bool) × Parser)) :
    ConfinedTo home (bindAll home definitions) := by
  refine .mapM ?_ definitions
  rintro ⟨⟨name, incremental⟩, parser⟩
  exact confined_bindAs home name incremental parser

theorem confined_bind (productions : List Production) :
    ConfinedTo home (Edit.bind home productions) := by
  refine .bind (.forM (fun production => ?_) _) fun _ => .bind .get fun _ =>
    .bind (confined_assembleAll home _ _) fun _ => confined_bindEach home _
  exact .bind (confined_localRule home production.name) fun _ => .pure _

end

def Lasting {α : Type} (edit : Edit α) : Prop := ∀ P : Store → Prop, Durable P → Keeps P edit

theorem ConfinedTo.lasting {home : GrammarId} {α : Type} {edit : Edit α}
    (h : ConfinedTo home edit) : Lasting edit := fun P hP => h P (hP.robust home)

theorem Lasting.pure {α : Type} (a : α) : Lasting (Pure.pure a : Edit α) :=
  fun _ _ => .pure a

theorem Lasting.bind {α β : Type} {edit : Edit α} {next : α → Edit β} (h : Lasting edit)
    (hnext : ∀ a, Lasting (next a)) : Lasting (edit >>= next) :=
  fun P hP => .bind (h P hP) fun a => hnext a P hP

theorem Lasting.get : Lasting (get : Edit Store) := fun _ _ _ h => h

theorem lasting_alternation (firstMatch : Bool) (branches : List Parser) :
    Lasting (alternation firstMatch branches) :=
  (confined_alternation .core firstMatch branches).lasting

theorem lasting_repetition (capacity : Capacity) (bounds : Bounds) (element : Parser) :
    Lasting (repetition capacity bounds element) :=
  (confined_repetition .core capacity bounds element).lasting

theorem lasting_optional (capacity : Capacity) (element : Parser) :
    Lasting (Edit.optional capacity element) :=
  (confined_optional .core capacity element).lasting

theorem lasting_localRule (id : GrammarId) (name : String) : Lasting (localRule id name) :=
  (confined_localRule id name).lasting

theorem lasting_rule (id : GrammarId) (name : String) : Lasting (Edit.rule id name) :=
  (confined_rule id name).lasting

theorem lasting_setDefinition (rule : RuleId) (definition : Parser) :
    Lasting (setDefinition rule definition) :=
  (confined_setDefinition rule definition).lasting

theorem lasting_addAlternative (rule : RuleId) (alternative : Parser) :
    Lasting (addAlternative rule alternative) :=
  (confined_addAlternative rule alternative).lasting

theorem lasting_updateRule (rule : RuleId) {change : Slot → Slot}
    (h : ∀ slot, (change slot).name = slot.name) : Lasting (updateRule rule change) :=
  (confined_updateRule rule h).lasting

theorem lasting_exclude (rule excluded : RuleId) : Lasting (exclude rule excluded) :=
  .bind .get fun _ => .bind (confined_adopt _ _).lasting fun _ =>
    lasting_updateRule rule fun _ => rfl

theorem lasting_clearExclusion (rule : RuleId) : Lasting (clearExclusion rule) :=
  lasting_updateRule rule fun _ => rfl

theorem lasting_setFirstMatch (rule : RuleId) (firstMatch : Bool) :
    Lasting (setFirstMatch rule firstMatch) := by
  refine .bind .get fun store => ?_
  dsimp only
  split
  · exact .bind (fun _ hP => hP.setMode _ firstMatch) fun _ =>
      .bind (fun _ hP => hP.clearCaches rule.grammar) fun _ => .pure _
  · exact .pure _
  · exact .pure _

theorem lasting_define (id : GrammarId) (name : String) (definition : Parser) :
    Lasting (define id name definition) :=
  (confined_define id name definition).lasting

theorem lasting_extend (id : GrammarId) (name : String) (alternative : Parser) :
    Lasting (extend id name alternative) :=
  (confined_extend id name alternative).lasting

theorem lasting_importRule (id : GrammarId) (name : String) (source : RuleId) :
    Lasting (importRule id name source) := by
  refine .bind .get fun store => ?_
  dsimp only
  split
  · exact .pure _
  · exact .bind (fun _ hP => hP.retain id source.grammar) fun _ =>
      .bind (lasting_define id name _) fun _ => .pure _

theorem lasting_assemble (id : GrammarId) (options : Options) (expression : Expression) :
    Lasting (assemble id options expression) :=
  (confined_assemble id options expression).lasting

theorem lasting_assembleAll (id : GrammarId) (options : Options) (expressions : List Expression) :
    Lasting (assembleAll id options expressions) :=
  (confined_assembleAll id options expressions).lasting

theorem lasting_bindEach (id : GrammarId) (items : List (Production × Parser)) :
    Lasting (items.mapM fun (production, parser) => bindOne id production parser) :=
  (confined_bindEach id items).lasting

theorem lasting_bind (id : GrammarId) (productions : List Production) :
    Lasting (Edit.bind id productions) :=
  (confined_bind id productions).lasting

theorem lasting_ruleMatches (rule : RuleId) (source : Source) (start : Nat) :
    Lasting (parsing (·.ruleMatches rule source start)) := by
  intro P hP store hstore
  have hmatches := hP.matchesOf (.rule (store.catalog.refer rule)) source start store hstore
  rwa [parsing, Catalog.matchesOf, Parser.enumerate] at hmatches

/-- What follows a run and uses no cache leaves the caches as the run does. -/
theorem snd_parsing_bind {α β : Type} {run : Catalog → Run α} {next : Catalog → α → Run β}
    (hnext : ∀ catalog a caches, ((next catalog a).run caches).2 = caches) (store : Store) :
    (parsing (fun catalog => run catalog >>= next catalog) store).2 = (parsing run store).2 := by
  have hcaches : ((run store.catalog >>= next store.catalog).run store.caches).2 =
      ((run store.catalog).run store.caches).2 := by
    rcases hrun : (run store.catalog).run store.caches with ⟨error | a, caches⟩
    · rw [Run.run_bind_error hrun]
    · rw [Run.run_bind_ok hrun]
      exact hnext store.catalog a caches
  exact congrArg (fun caches => { store with caches }) hcaches

theorem parsing_parse (rule : RuleId) (source : Source) (start : Nat) (store : Store) :
    (parsing (·.parse rule source start) store).2 =
      (parsing (·.ruleMatches rule source start) store).2 := by
  refine snd_parsing_bind (fun catalog attempt caches => ?_) store
  cases attempt with
  | error failure => rfl
  | ok found =>
    dsimp only
    split <;> rfl

theorem parsing_parseAll (rule : RuleId) (source : Source) (store : Store) :
    (parsing (·.parseAll rule source) store).2 = (parsing (·.parse rule source 0) store).2 := by
  refine snd_parsing_bind (fun catalog result caches => ?_) store
  cases result with
  | error failure => rfl
  | ok found =>
    dsimp only
    split <;> rfl

theorem lasting_parse (rule : RuleId) (source : Source) (start : Nat) :
    Lasting (parsing (·.parse rule source start)) := by
  intro P hP store hstore
  rw [parsing_parse]
  exact lasting_ruleMatches rule source start P hP store hstore

theorem lasting_parseAll (rule : RuleId) (source : Source) :
    Lasting (parsing (·.parseAll rule source)) := by
  intro P hP store hstore
  rw [parsing_parseAll]
  exact lasting_parse rule source 0 P hP store hstore

end Edit

open Edit

theorem Durable.passive {P : Store → Prop} (h : Durable P) : Passive P fun _ => True where
  rule _ := lasting_rule .abnf _ P h
  found _ _ _ := trivial
  parse source start _ := lasting_parse _ source start P h
  parseAll source _ := lasting_parseAll _ source P h
  clearCaches := h.clearCaches .abnf

theorem Durable.importAll {P : Store → Prop} (h : Durable P) (id : GrammarId)
    (imports : List (String × RuleId)) : Keeps P (Loading.importAll id imports).run := by
  induction imports with
  | nil => exact .done _
  | cons item rest ih =>
    refine .andThen (.andThen (.lift (lasting_importRule id _ _ P h)) fun result => ?_) fun _ => ih
    split
    · exact .done _
    · exact .throw _

theorem confined_reference (home : GrammarId) (name : String) :
    ConfinedTo home (Edit.reference home name) :=
  .bind (confined_rule home name) fun _ => .bind .get fun _ => .pure _

namespace Robust

variable {home : GrammarId} {P : Store → Prop} (h : Robust home P)
include h

/-- What is built as rules are read is added to what there is. -/
theorem building (options : Options) :
    RuleText.Building (.parsers home options) fun _ _ load => Keeps P load.run where
  done _ := .done _
  throw := .throw
  andThen := .andThen
  literal _ := .done _
  name name := .lift (confined_reference home name P h)
  choice _ := .lift (confined_alternation home _ _ P h)
  sequence _ := .done _
  repeated bounds element _ := .lift (confined_repetition home _ bounds element P h)
  optional _ := .lift (confined_optional home _ _ P h)
  prose _ := .done _

variable {nodes : List Node}
  (hnames : ∀ node ∈ nodes, ∀ body ∈ node.proses, Keeps P (RuleText.isRuleName body))
include hnames

theorem readDefinitions (options : Options) :
    Keeps P (RuleText.readDefinitions home options nodes).run :=
  RuleText.composed_readDefinitions (h.building options)
    (fun _ name => .lift (confined_localRule home name P h)) nodes
    (fun node hnode body hbody _ => .lift (hnames node hnode body hbody)) ∅

theorem compile (htruncate : ∀ extent, Keeps P (Edit.truncate home extent)) :
    Keeps P (RuleText.compile home nodes).run := by
  intro store hstore
  have hread := h.readDefinitions hnames (store.catalog.grammar home).options store hstore
  rw [RuleText.run_compile]
  rcases hrun : (RuleText.readDefinitions home (store.catalog.grammar home).options nodes).run
    store with ⟨error | definitions, read⟩
  · rw [hrun] at hread
    exact htruncate _ read hread
  · rw [hrun] at hread
    exact confined_bindAll home definitions P h read hread

end Robust

structure Revocable (P : Store → Prop) : Prop extends Durable P where
  truncate (id : GrammarId) (extent : Store.Extent) : Keeps P (Edit.truncate id extent)

section
variable {P : Store → Prop} (hP : Revocable P)
include hP

theorem Revocable.compile (id : GrammarId) (nodes : List Node) :
    Keeps P (RuleText.compile id nodes).run :=
  (hP.robust id).compile (fun _ _ _ _ => RuleText.keeps_isRuleName hP.passive _) (hP.truncate id)

theorem Revocable.createRule (id : GrammarId) (text : String) :
    Keeps P (Loading.createRule id text).run := by
  refine .andThen (RuleText.keeps_parseRule hP.passive text) fun node =>
    .andThen (hP.compile id [node]) fun rules => ?_
  split
  · exact .done _
  · exact .throw _

theorem Revocable.loadRules (id : GrammarId) (texts : List String) :
    Keeps P (Loading.loadRules id texts).run :=
  .andThen (.mapM (RuleText.keeps_parseRule hP.passive) texts) fun nodes => hP.compile id nodes

theorem Revocable.loadRulelist (id : GrammarId) (text : String) :
    Keeps P (Loading.loadRulelist id text).run :=
  .andThen (RuleText.keeps_parseRules hP.passive text) fun nodes => hP.compile id nodes

end

namespace Desk

variable {P : Store → Prop} {desk desk' : Desk}

theorem Uses.durable (hP : Durable P) (h : desk.Uses desk') (hdesk : P desk.store) :
    P desk'.store := by
  cases h with
  | parse rule source start => exact Edit.lasting_parse rule source start P hP _ hdesk
  | parseAll rule source => exact Edit.lasting_parseAll rule source P hP _ hdesk
  | ruleMatches rule source start => exact Edit.lasting_ruleMatches rule source start P hP _ hdesk
  | clearCaches id => exact hP.clearCaches id _ hdesk
  | rule id name => exact Edit.lasting_rule id name P hP _ hdesk
  | localRule id name => exact Edit.lasting_localRule id name P hP _ hdesk
  | @alternation firstMatch branches _ =>
    exact Edit.lasting_alternation firstMatch branches P hP _ hdesk
  | @repetition capacity bounds element _ =>
    exact Edit.lasting_repetition capacity bounds element P hP _ hdesk
  | @optional capacity element _ => exact Edit.lasting_optional capacity element P hP _ hdesk
  | assemble id options expression =>
    exact Edit.lasting_assemble id options expression P hP _ hdesk
  | _ => exact hdesk

theorem Changes.revocable (hP : Revocable P) {home : GrammarId} {foreign : Set GrammarId}
    (h : desk.Changes home foreign desk') (hdesk : P desk.store) : P desk'.store := by
  cases h with
  | createRule text => exact hP.createRule home text _ hdesk
  | loadRules texts => exact hP.loadRules home texts _ hdesk
  | loadRulelist text => exact hP.loadRulelist home text _ hdesk
  | define name _ => exact Edit.lasting_define home name _ P hP.toDurable _ hdesk
  | extend name _ => exact Edit.lasting_extend home name _ P hP.toDurable _ hdesk
  | setDefinition _ _ => exact Edit.lasting_setDefinition _ _ P hP.toDurable _ hdesk
  | addAlternative _ _ => exact Edit.lasting_addAlternative _ _ P hP.toDurable _ hdesk
  | importRule name _ => exact Edit.lasting_importRule home name _ P hP.toDurable _ hdesk
  | exclude _ excluded => exact Edit.lasting_exclude _ excluded P hP.toDurable _ hdesk
  | clearExclusion _ => exact Edit.lasting_clearExclusion _ P hP.toDurable _ hdesk
  | setFirstMatch _ firstMatch _ => exact Edit.lasting_setFirstMatch _ firstMatch P hP.toDurable _ hdesk

theorem Reached.revocable (hP : Revocable P) (hempty : P .empty) (h : Reached desk) :
    P desk.store := by
  induction h with
  | empty => exact hempty
  | uses _ huses ih => exact huses.durable hP.toDurable ih
  | changes _ _ hchanges ih => exact hchanges.revocable hP ih
  | newGrammar name options _ _ ih => exact hP.newGrammar name _ options _ ih
  | collect _ _ _ ih => exact hP.collect _ ih

end Desk

namespace Session

/-- The sessions that can be come to. -/
inductive Reached : Session → Prop where
  | start : Reached start
  | step {session session' : Session} {command : Command} {answer : Answer} : Reached session →
    session.step command = .ok (answer, session') → Reached session'

end Session

end Metasyntax
