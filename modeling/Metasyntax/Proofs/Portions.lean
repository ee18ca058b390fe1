import Metasyntax.Proofs.Levels

/-!
# Definitions in portions

The alternatives of a rule can be stated at once, or in portions: the first production defines
the rule, and each of the others adds to it. In both ways the alternatives are assembled in one
order, and the rule comes to be bound to a parser that gathers them.
-/

set_option autoImplicit false

namespace Metasyntax

namespace Expression

def gather : List Expression → Expression
  | [alternative] => alternative
  | alternatives => .choice alternatives

theorem gather_of_many {alternatives : List Expression} (h : 2 ≤ alternatives.length) :
    gather alternatives = .choice alternatives := by
  match alternatives with
  | [] | [_] => simp at h
  | _ :: _ :: _ => rfl

inductive Portions : List Expression → List Expression → Prop
  | nil : Portions [] []
  | cons {portion alternatives bodies : List Expression} (hportion : portion ≠ [])
    (hrest : Portions alternatives bodies) :
    Portions (portion ++ alternatives) (gather portion :: bodies)

end Expression

namespace Production

structure Adds (name : String) (alternatives : List Expression) (productions : List Production) :
    Prop where
  portions : Expression.Portions alternatives (productions.map (·.body))
  spelled : ∀ production ∈ productions, lowerText production.name = lowerText name
  incremental : ∀ production ∈ productions, production.incremental = true

/-- Productions that state the alternatives of a name: the first one defines the rule, and the
others add to it. -/
structure States (name : String) (alternatives : List Expression) (productions : List Production) :
    Prop where
  portions : Expression.Portions alternatives (productions.map (·.body))
  spelled : ∀ production ∈ productions, lowerText production.name = lowerText name
  first : ∃ body rest, productions = ⟨name, false, body⟩ :: rest ∧
    ∀ production ∈ rest, production.incremental = true

theorem States.single (name : String) {alternatives : List Expression} (h : alternatives ≠ []) :
    States name alternatives [⟨name, false, .gather alternatives⟩] where
  portions := by
    have hportions := Expression.Portions.cons h .nil
    rwa [List.append_nil] at hportions
  spelled production hproduction := by rw [List.mem_singleton.1 hproduction]
  first := ⟨_, [], rfl, nofun⟩

end Production

def Catalog.Stands (c : Catalog) (firstMatch : Bool) (mode : ModeId) : Prop :=
  c.modes[mode.index]? = some firstMatch

inductive Parser.Portions (stands : ModeId → Prop) (modes : ModeId → ModeId → Prop) :
    List Parser → List Parser → Prop
  | nil : Portions stands modes [] []
  | cons {portion branches others parsers : List Parser} {parser : Parser}
    (hgathers : parser.Gathers stands branches) (hechoes : EchoesAll modes portion branches)
    (hrest : Portions stands modes others parsers) :
    Portions stands modes (portion ++ others) (parser :: parsers)

theorem Parser.Portions.mono {stands stands' : ModeId → Prop}
    {modes modes' : ModeId → ModeId → Prop} {originals parsers : List Parser}
    (h : Portions stands modes originals parsers)
    (hstands : ∀ mode, stands mode → stands' mode)
    (hmodes : ∀ mode mode', modes mode mode' → modes' mode mode') :
    Portions stands' modes' originals parsers := by
  induction h with
  | nil => exact .nil
  | cons hgathers hechoes _ ih =>
    exact .cons (hgathers.mono hstands) (hechoes.mono hmodes) ih

namespace Edit

variable {id : GrammarId} {rule : RuleId} {source store : Store}

/-- Expressions are assembled one after the other. -/
theorem assembleAll_append (options : Options) (expressions others : List Expression)
    (store : Store) :
    assembleAll id options (expressions ++ others) store =
      ((assembleAll id options expressions store).1 ++
          (assembleAll id options others (assembleAll id options expressions store).2).1,
        (assembleAll id options others (assembleAll id options expressions store).2).2) := by
  induction expressions generalizing store with
  | nil => rfl
  | cons expression rest ih =>
    simp only [List.cons_append, assembleAll, bind_apply, pure_apply, ih]

theorem size_assembleAll (options : Options) (expressions : List Expression)
    (hindex : id.index < store.catalog.grammars.size) :
    id.index < (assembleAll id options expressions store).2.catalog.grammars.size :=
  (develops_assembled options expressions hindex).size ▸ hindex

/-- A portion of alternatives is assembled to a parser that gathers them. -/
theorem assemble_gather (options : Options) {portion : List Expression} (hportion : portion ≠ [])
    (h : source.Level rule store) (hindex : id.index < source.catalog.grammars.size) :
    (assembleAll id options portion source).2.Level rule
        (assemble id options (.gather portion) store).2 ∧
      ∃ branches, (assemble id options (.gather portion) store).1.Gathers
          ((assemble id options (.gather portion) store).2.catalog.Stands options.firstMatch)
          branches ∧
        Parser.EchoesAll ((assembleAll id options portion source).2.catalog.SharedMode
          (assemble id options (.gather portion) store).2.catalog)
          (assembleAll id options portion source).1 branches := by
  by_cases hmany : 2 ≤ portion.length
  · obtain ⟨hall, hlevel⟩ := assembleAll_level options portion h hindex
    have hlength : 2 ≤ (assembleAll id options portion store).1.length :=
      hmany.trans_eq (length_assembleAll id options portion store).symm
    simp only [Expression.gather_of_many hmany, assemble, bind_apply]
    generalize assembleAll id options portion store = assembled at hall hlevel hlength ⊢
    refine ⟨hlevel.trans (.addMode rule options.firstMatch assembled.2), assembled.1,
      .all Array.getElem?_push_size hlength, hall.mono ?_⟩
    exact Catalog.SharedMode.keep (fun _ _ h => h) (keepsModes_newMode _)
  · obtain ⟨alternative, rfl⟩ := List.length_eq_one_iff.1
      (le_antisymm (Nat.le_of_not_lt hmany) (List.length_pos_iff.2 hportion))
    obtain ⟨hechoes, hlevel⟩ := assemble_level options alternative h hindex
    simp only [assembleAll, bind_apply, pure_apply, Expression.gather]
    exact ⟨hlevel, _, .one _, _, _, rfl, hechoes, rfl⟩

/-- What is assembled in portions gathers what is assembled at once. -/
theorem assembleAll_portions (options : Options) {alternatives bodies : List Expression}
    (hportions : Expression.Portions alternatives bodies) (h : source.Level rule store)
    (hindex : id.index < source.catalog.grammars.size) :
    (assembleAll id options alternatives source).2.Level rule
        (assembleAll id options bodies store).2 ∧
      Parser.Portions ((assembleAll id options bodies store).2.catalog.Stands options.firstMatch)
        ((assembleAll id options alternatives source).2.catalog.SharedMode
          (assembleAll id options bodies store).2.catalog)
        (assembleAll id options alternatives source).1
        (assembleAll id options bodies store).1 := by
  induction hportions generalizing source store with
  | nil => exact ⟨h, .nil⟩
  | @cons portion alternatives bodies hportion _ ih =>
    obtain ⟨hlevel, branches, hgathers, hechoes⟩ := assemble_gather options hportion h hindex
    have hindex' := size_assembleAll options portion hindex
    simp only [assembleAll_append, assembleAll, bind_apply, pure_apply]
    generalize assembleAll id options portion source = assembled at hlevel hechoes hindex' ⊢
    generalize assemble id options (.gather portion) store = assembled' at hlevel hgathers hechoes ⊢
    have hkeeps := keepsModes_assembleAll options bodies (hlevel.grammars ▸ hindex')
    obtain ⟨hlevel', hrest⟩ := ih hlevel hindex'
    refine ⟨hlevel', .cons (hgathers.mono fun mode => hkeeps mode _) (hechoes.mono ?_) hrest⟩
    exact Catalog.SharedMode.keep (keepsModes_assembleAll options alternatives hindex') hkeeps

theorem keepsModes_setDefinition (rule : RuleId) (definition : Parser) :
    store.catalog.KeepsModes (setDefinition rule definition store).2.catalog :=
  (@develops_setDefinition rule.grammar (fun _ => True) (· = rule) store rule rfl definition).mode

end Edit

structure Store.Gathering (rule : RuleId) (firstMatch : Bool) (source : Store)
    (originals : List Parser) (store : Store) : Prop where
  level : source.Level rule store
  bound : ∃ definition branches, store.catalog.definition? rule = some definition ∧
    definition.Gathers (store.catalog.Stands firstMatch) branches ∧
      Parser.EchoesAll (source.catalog.SharedMode store.catalog) originals branches

namespace Store.Gathering

variable {id : GrammarId} {rule : RuleId} {firstMatch : Bool} {source source' store store' : Store}
  {originals : List Parser}

theorem of_catalog (h : source.Gathering rule firstMatch originals store)
    (hcatalog : store'.catalog = store.catalog) (hcaches : store'.caches.size = store.caches.size) :
    source.Gathering rule firstMatch originals store' where
  level := h.level.trans (.of_catalog hcatalog hcaches)
  bound := hcatalog ▸ h.bound

/-- The rule is bound. -/
theorem setDefinition (hlevel : source.Level rule store)
    (hindex : rule.grammar.index < source.catalog.grammars.size)
    (hslot : (source.catalog.slot? rule).isSome) {definition : Parser} {branches : List Parser}
    (hgathers : definition.Gathers (store.catalog.Stands firstMatch) branches)
    (hechoes : Parser.EchoesAll (source.catalog.SharedMode store.catalog) originals branches) :
    source.Gathering rule firstMatch originals (Edit.setDefinition rule definition store).2 where
  level := hlevel.trans (.setDefinition rule definition store)
  bound := by
    obtain ⟨slot, hslot⟩ := Option.isSome_iff_exists.1 ((hlevel.isSome_slot rule).trans hslot)
    have hkeeps : store.catalog.KeepsModes (Edit.setDefinition rule definition store).2.catalog :=
      Edit.keepsModes_setDefinition rule definition
    exact ⟨definition, branches,
      Store.definition?_setDefinition (hlevel.grammars ▸ hindex) hslot definition,
      hgathers.mono fun mode => hkeeps mode firstMatch,
      hechoes.mono (Catalog.SharedMode.keep (fun _ _ h => h) hkeeps)⟩

end Store.Gathering

namespace Edit

variable {rule : RuleId} {store : Store}

/-- An alternative of a bound rule is added in a new alternation. -/
theorem extend_of_bound {name : String}
    (hlocal : store.catalog.local? rule.grammar name = some rule) {existing : Parser}
    (hexisting : store.catalog.definition? rule = some existing) (parser : Parser) :
    extend rule.grammar name parser store = (rule,
      let firstMatch := (store.catalog.grammar rule.grammar).options.firstMatch
      (setDefinition rule (.alternation ⟨store.catalog.modes.size⟩ [existing, parser])
        (newMode firstMatch store).2).2) := by
  have hadd : addAlternative rule parser store =
      setDefinition rule (.alternation ⟨store.catalog.modes.size⟩ [existing, parser])
        (newMode (store.catalog.grammar rule.grammar).options.firstMatch store).2 := by
    simp only [addAlternative, bind_apply, get_apply, hexisting]
    rfl
  have hbound : ¬ (store.catalog.definition? rule).isNone = true := by
    rw [hexisting]
    nofun
  rw [extend, bind_apply, Store.localRule_eq_of_local hlocal]
  refine (congrFun (if_neg hbound) store).trans ?_
  rw [bind_apply, hadd]
  rfl

theorem keepsModes_extend {name : String}
    (hlocal : store.catalog.local? rule.grammar name = some rule) {existing : Parser}
    (hexisting : store.catalog.definition? rule = some existing) (parser : Parser) :
    store.catalog.KeepsModes (extend rule.grammar name parser store).2.catalog := by
  rw [extend_of_bound hlocal hexisting]
  exact fun mode firstMatch hmode =>
    keepsModes_setDefinition rule _ mode firstMatch (keepsModes_newMode _ mode firstMatch hmode)

end Edit

namespace Store.Gathering

variable {id : GrammarId} {rule : RuleId} {firstMatch : Bool} {source store : Store}
  {originals : List Parser}

section
variable (hindex : rule.grammar.index < source.catalog.grammars.size)
  (hmode : (source.catalog.grammar rule.grammar).options.firstMatch = firstMatch)
include hindex hmode

/-- An alternative is added. -/
theorem extend (h : source.Gathering rule firstMatch originals store) {name : String}
    (hlocal : source.catalog.local? rule.grammar name = some rule)
    {parser : Parser} {portion branches : List Parser}
    (hgathers : parser.Gathers (store.catalog.Stands firstMatch) branches)
    (hechoes : Parser.EchoesAll (source.catalog.SharedMode store.catalog) portion branches) :
    source.Gathering rule firstMatch (originals ++ portion)
      (Edit.extend rule.grammar name parser store).2 := by
  obtain ⟨existing, before, hexisting, hgathers', hechoes'⟩ := h.bound
  have hlocal' := (h.level.own rule.grammar name).trans hlocal
  have hmode' := (congrArg Options.firstMatch (h.level.options rule.grammar)).trans hmode
  have hkeeps : store.catalog.KeepsModes (Edit.newMode firstMatch store).2.catalog :=
    Edit.keepsModes_newMode firstMatch
  have hshared := Catalog.SharedMode.keep (fun _ _ h => h : source.catalog.KeepsModes _) hkeeps
  obtain ⟨slot, hslot, -⟩ := Option.bind_eq_some_iff.1 hexisting
  have hstands : (Edit.newMode firstMatch store).2.catalog.Stands firstMatch
      ⟨store.catalog.modes.size⟩ := Array.getElem?_push_size
  rw [Edit.extend_of_bound hlocal' hexisting, hmode']
  exact .setDefinition (h.level.trans (.addMode rule firstMatch store)) hindex
    ((h.level.isSome_slot rule).symm.trans (Option.isSome_of_eq_some hslot))
    (.both hstands (hgathers'.mono fun mode => hkeeps mode firstMatch)
      (hgathers.mono fun mode => hkeeps mode firstMatch))
    ((hechoes'.mono hshared).append (hechoes.mono hshared))

/-- Productions that add alternatives are bound one after the other. -/
theorem bindParsers {productions : List Production} {parsers : List Parser}
    (h : source.Gathering rule firstMatch originals store)
    (hincremental : ∀ production ∈ productions, production.incremental = true)
    (hlocal : ∀ production ∈ productions,
      source.catalog.local? rule.grammar production.name = some rule)
    (hlength : parsers.length = productions.length) {new : List Parser}
    (hportions : Parser.Portions (store.catalog.Stands firstMatch)
      (source.catalog.SharedMode store.catalog) new parsers) :
    source.Gathering rule firstMatch (originals ++ new)
      (Edit.bindParsers rule.grammar productions parsers store).2 := by
  induction productions generalizing store originals new parsers with
  | nil =>
    obtain rfl := List.length_eq_zero_iff.1 hlength
    cases hportions
    rwa [List.append_nil]
  | cons production rest ih =>
    cases hportions with
    | nil => cases hlength
    | @cons portion branches others parsers parser hgathers hechoes hrest =>
      have hname := hlocal production List.mem_cons_self
      have hone : (Edit.bindOne rule.grammar production parser store) =
          Edit.extend rule.grammar production.name parser store := by
        rw [Edit.bindOne, if_pos (hincremental production List.mem_cons_self)]
      have hnext := h.extend hindex hmode hname hgathers hechoes
      obtain ⟨existing, -, hexisting, -⟩ := h.bound
      have hkeeps := Edit.keepsModes_extend ((h.level.own _ _).trans hname) hexisting parser
      rw [← List.append_assoc]
      simp only [Edit.bindParsers, List.zip_cons_cons, List.mapM_cons, Edit.bind_apply,
        Edit.pure_apply, hone]
      exact ih hnext (fun other hother => hincremental other (List.mem_cons_of_mem _ hother))
        (fun other hother => hlocal other (List.mem_cons_of_mem _ hother)) (Nat.succ.inj hlength)
        (hrest.mono (fun mode => hkeeps mode firstMatch)
          (Catalog.SharedMode.keep (fun _ _ h => h) hkeeps))

/-- The first production defines the rule, and the others add to it. -/
theorem bindFirst {productions : List Production} {parsers : List Parser}
    (hlevel : source.Level rule store) (hslot : (source.catalog.slot? rule).isSome)
    {name : String} {body : Expression}
    (hincremental : ∀ production ∈ productions, production.incremental = true)
    (hname : source.catalog.local? rule.grammar name = some rule)
    (hlocal : ∀ production ∈ productions,
      source.catalog.local? rule.grammar production.name = some rule)
    (hlength : parsers.length = productions.length + 1) {new : List Parser}
    (hportions : Parser.Portions (store.catalog.Stands firstMatch)
      (source.catalog.SharedMode store.catalog) new parsers) :
    source.Gathering rule firstMatch new
      (Edit.bindParsers rule.grammar (⟨name, false, body⟩ :: productions) parsers store).2 := by
  cases hportions with
  | nil => cases hlength
  | @cons portion branches others parsers parser hgathers hechoes hrest =>
    have hone : (Edit.bindOne rule.grammar ⟨name, false, body⟩ parser store).2 =
        (Edit.setDefinition rule parser store).2 := by
      rw [Edit.bindOne, if_neg Bool.false_ne_true]
      simp only [Edit.define, Edit.bind_apply, Edit.pure_apply,
        Store.localRule_eq_of_local ((hlevel.own _ _).trans hname)]
    have hkeeps : store.catalog.KeepsModes _ := Edit.keepsModes_setDefinition rule parser
    have hfirst := setDefinition hlevel hindex hslot hgathers hechoes
    simp only [Edit.bindParsers, List.zip_cons_cons, List.mapM_cons, Edit.bind_apply,
      Edit.pure_apply, hone]
    exact hfirst.bindParsers hindex hmode hincremental hlocal (Nat.succ.inj hlength)
      (hrest.mono (fun mode => hkeeps mode firstMatch)
        (Catalog.SharedMode.keep (fun _ _ h => h) hkeeps))

end

/-- What adds to the rule is assembled. -/
theorem assemble (h : source.Gathering rule firstMatch originals store) (options : Options)
    (hindex : id.index < source.catalog.grammars.size) {alternatives bodies : List Expression}
    (hportions : Expression.Portions alternatives bodies) :
    (Edit.assembleAll id options alternatives source).2.Gathering rule firstMatch originals
      (Edit.assembleAll id options bodies store).2 := by
  have hindex' := h.level.grammars ▸ hindex
  obtain ⟨definition, branches, hdefinition, hgathers, hechoes⟩ := h.bound
  obtain ⟨slot, hslot, hbound⟩ := Option.bind_eq_some_iff.1 hdefinition
  have hdevelops := Edit.develops_assembled options bodies hindex'
  obtain ⟨slot', hslot', -, -, hkept⟩ := hdevelops.slot _ _ hslot
  exact
    { level := (Edit.assembleAll_portions options hportions h.level hindex).1
      bound := ⟨definition, branches,
        Option.bind_eq_some_iff.2 ⟨slot', hslot', (hkept not_false).trans hbound⟩,
        hgathers.mono fun mode => hdevelops.mode mode firstMatch,
        hechoes.mono (Catalog.SharedMode.keep
          (Edit.keepsModes_assembleAll options alternatives hindex) hdevelops.mode)⟩ }

end Store.Gathering

namespace Edit

variable {id : GrammarId} {rule : RuleId} {store : Store}

/-- Names that a grammar has rules of are looked up only. -/
theorem forM_localRule_of_local {productions : List Production}
    (h : ∀ production ∈ productions, ∃ rule,
      store.catalog.local? id production.name = some rule) :
    (productions.forM fun production => discard <| localRule id production.name : Edit Unit)
      store = ((), store) := by
  induction productions with
  | nil => rfl
  | cons production rest ih =>
    obtain ⟨rule, hrule⟩ := h production List.mem_cons_self
    have hfirst : (discard (localRule id production.name) : Edit Unit) store = ((), store) := by
      change ((), (localRule id production.name store).2) = _
      rw [Store.localRule_eq_of_local hrule]
    change (rest.forM fun production => discard <| localRule id production.name : Edit Unit)
      ((discard <| localRule id production.name : Edit Unit) store).2 = _
    rw [hfirst]
    exact ih fun other hother => h other (List.mem_cons_of_mem _ hother)

theorem bind_of_local {productions : List Production}
    (h : ∀ production ∈ productions, ∃ rule,
      store.catalog.local? id production.name = some rule) :
    Edit.bind id productions store =
      let assembled := assembleAll id (store.catalog.grammar id).options
        (productions.map (·.body)) store
      bindParsers id productions assembled.1 assembled.2 := by
  rw [bind_eq_compile, bind_apply, compile, bind_apply, forM_localRule_of_local h]
  rfl

/-- The grammar has a rule of their name once the first production is looked at. -/
theorem bind_named {first : Production} {rest : List Production}
    (hspelled : ∀ production ∈ rest, lowerText production.name = lowerText first.name)
    (hindex : id.index < store.catalog.grammars.size) :
    Edit.bind id (first :: rest) store =
      Edit.bind id (first :: rest) (localRule id first.name store).2 := by
  have hlocal := Store.local?_localRule hindex first.name
  have hrest : ∀ production ∈ rest, ∃ rule,
      (localRule id first.name store).2.catalog.local? id production.name = some rule :=
    fun production hproduction =>
      ⟨_, (Catalog.local?_congr (hspelled production hproduction) id).trans hlocal⟩
  have hnamed : ((first :: rest).forM fun production => discard <| localRule id production.name :
      Edit Unit) store = ((), (localRule id first.name store).2) := by
    change (rest.forM fun production => discard <| localRule id production.name : Edit Unit)
      ((discard <| localRule id first.name : Edit Unit) store).2 = _
    exact forM_localRule_of_local hrest
  have hnamed' : ((first :: rest).forM fun production => discard <| localRule id production.name :
      Edit Unit) (localRule id first.name store).2 = ((), (localRule id first.name store).2) := by
    refine forM_localRule_of_local fun production hproduction => ?_
    rcases List.mem_cons.1 hproduction with rfl | hproduction
    · exact ⟨_, hlocal⟩
    · exact hrest production hproduction
  simp only [Edit.bind, bind_apply, hnamed, hnamed']

end Edit

def Store.alternatives (id : GrammarId) (expressions : List Expression) (store : Store) :
    List Parser × Store :=
  Edit.assembleAll id (store.catalog.grammar id).options expressions store

structure Store.Hosts (rule : RuleId) (name : String) (firstMatch : Bool) (store : Store) :
    Prop where
  index_lt : rule.grammar.index < store.catalog.grammars.size
  local_eq : store.catalog.local? rule.grammar name = some rule
  mode_eq : (store.catalog.grammar rule.grammar).options.firstMatch = firstMatch

namespace Store.Hosts

variable {rule : RuleId} {name : String} {firstMatch : Bool} {store : Store}

theorem local_of_spelled (h : store.Hosts rule name firstMatch) {production : Production}
    (hspelled : lowerText production.name = lowerText name) :
    store.catalog.local? rule.grammar production.name = some rule :=
  (Catalog.local?_congr hspelled rule.grammar).trans h.local_eq

theorem develops (h : store.Hosts rule name firstMatch) (expressions : List Expression) :
    store.catalog.Develops rule.grammar (fun _ => True) (fun _ => False)
      (store.alternatives rule.grammar expressions).2.catalog :=
  Edit.develops_assembled (store.catalog.grammar rule.grammar).options expressions h.index_lt

theorem alternatives (h : store.Hosts rule name firstMatch) (expressions : List Expression) :
    (store.alternatives rule.grammar expressions).2.Hosts rule name firstMatch where
  index_lt := Edit.size_assembleAll _ expressions h.index_lt
  local_eq := (h.develops expressions).found _ _ _ h.local_eq
  mode_eq := (congrArg Options.firstMatch ((h.develops expressions).options rule.grammar)).trans
    h.mode_eq

end Store.Hosts

namespace Store.Gathering

variable {name : String} {rule : RuleId} {firstMatch : Bool} {source store : Store}
  {originals : List Parser} {productions : List Production} {expressions : List Expression}

section
variable (hhosts : source.Hosts rule name firstMatch)
include hhosts

/-- The rule gathers what productions add to it. -/
theorem bind (h : source.Gathering rule firstMatch originals store)
    (hadds : Production.Adds name expressions productions) :
    (source.alternatives rule.grammar expressions).2.Gathering rule firstMatch
      (originals ++ (source.alternatives rule.grammar expressions).1)
      (Edit.bind rule.grammar productions store).2 := by
  have hhosts' := hhosts.alternatives expressions
  obtain ⟨-, hportions⟩ := Edit.assembleAll_portions (source.catalog.grammar rule.grammar).options
    hadds.portions h.level hhosts.index_lt
  rw [hhosts.mode_eq] at hportions
  rw [Edit.bind_of_local fun production hproduction => ⟨rule, (h.level.own _ _).trans
    (hhosts.local_of_spelled (hadds.spelled production hproduction))⟩, h.level.options]
  refine (h.assemble _ hhosts.index_lt hadds.portions).bindParsers hhosts'.index_lt
    hhosts'.mode_eq hadds.incremental
    (fun production hproduction => hhosts'.local_of_spelled (hadds.spelled production hproduction))
    ?_ hportions
  rw [Edit.length_assembleAll, List.length_map]

/-- The rule gathers what productions state of it. -/
theorem bind_states (hlevel : source.Level rule store)
    (hslot : (source.catalog.slot? rule).isSome)
    (hstates : Production.States name expressions productions) :
    (source.alternatives rule.grammar expressions).2.Gathering rule firstMatch
      (source.alternatives rule.grammar expressions).1
      (Edit.bind rule.grammar productions store).2 := by
  have hhosts' := hhosts.alternatives expressions
  obtain ⟨hlevel', hportions⟩ := Edit.assembleAll_portions
    (source.catalog.grammar rule.grammar).options hstates.portions hlevel hhosts.index_lt
  rw [hhosts.mode_eq] at hportions
  rw [Edit.bind_of_local fun production hproduction => ⟨rule, (hlevel.own _ _).trans
    (hhosts.local_of_spelled (hstates.spelled production hproduction))⟩, hlevel.options]
  obtain ⟨slot, hslot⟩ := Option.isSome_iff_exists.1 hslot
  obtain ⟨slot', hslot', -⟩ := (hhosts.develops expressions).slot _ _ hslot
  obtain ⟨body, rest, rfl, hincremental⟩ := hstates.first
  refine bindFirst hhosts'.index_lt hhosts'.mode_eq hlevel' (Option.isSome_of_eq_some hslot')
    hincremental hhosts'.local_eq (fun production hproduction =>
      hhosts'.local_of_spelled (hstates.spelled production (List.mem_cons_of_mem _ hproduction)))
    ?_ hportions
  rw [Edit.length_assembleAll, List.length_map, List.length_cons]

end

/-- What gathers the same alternatives has the same rules, up to how they are grouped. Other
rules have the modes that they had. -/
theorem reshapes {store' : Store} (h : source.Gathering rule firstMatch originals store)
    (h' : source.Gathering rule firstMatch originals store') {origin : Catalog}
    (hkeeps : origin.KeepsModes store.catalog) (hkeeps' : origin.KeepsModes store'.catalog)
    (hmodes : ∀ other, other ≠ rule → ∀ definition,
      source.catalog.definition? other = some definition → ∀ mode branches,
        .alternation mode branches ∈ definition.walk → mode.index < origin.modes.size) :
    store.catalog.Reshapes store'.catalog where
  alive id := by rw [Catalog.alive, Catalog.alive, h'.level.lost, h.level.lost]
  slot other := by
    by_cases hother : other = rule
    · subst hother
      have hhollow := h'.level.hollow.trans h.level.hollow.symm
      obtain ⟨definition, branches, hdefinition, hgathers, hechoes⟩ := h.bound
      obtain ⟨definition', branches', hdefinition', hgathers', hechoes'⟩ := h'.bound
      obtain ⟨slot, hslot, hbound⟩ := Option.bind_eq_some_iff.1 hdefinition
      obtain ⟨slot', hslot', hbound'⟩ := Option.bind_eq_some_iff.1 hdefinition'
      rw [hslot, hslot'] at hhollow ⊢
      have hsame : slot'.hollow = slot.hollow := Option.some.inj hhollow
      have hname : slot'.name = slot.name := congrArg (·.name) hsame
      have hexclusion : slot'.exclusion = slot.exclusion := congrArg (·.exclusion) hsame
      refine .some ⟨hname, hexclusion, ?_⟩
      rw [hbound, hbound']
      exact .some ⟨firstMatch, branches, branches',
        hgathers.mono fun _ => Expression.firstMatch_of_getElem?,
        hgathers'.mono fun _ => Expression.firstMatch_of_getElem?,
        .echoesAll (fun _ _ _ hmode hmode' => hmode.sameMode hmode') originals hechoes hechoes'⟩
    · rw [h.level.slot other hother, h'.level.slot other hother]
      cases hslot : source.catalog.slot? other with
      | none => exact .none
      | some slot =>
        refine .some ⟨rfl, rfl, ?_⟩
        cases hdefinition : slot.definition with
        | none => exact .none
        | some definition =>
          refine .some ⟨true, [definition], [definition], .one _, .one _,
            Parser.echoesAll_self _ fun mode branches hnode => ?_⟩
          rw [Parser.walkAll, Parser.walkAll, List.append_nil] at hnode
          have hmode := Array.getElem?_eq_getElem (hmodes other hother definition
            (Option.bind_eq_some_iff.2 ⟨slot, hslot, hdefinition⟩) mode branches hnode)
          exact (Expression.firstMatch_of_getElem? (hkeeps mode _ hmode)).trans
            (Expression.firstMatch_of_getElem? (hkeeps' mode _ hmode)).symm

end Store.Gathering

end Metasyntax
