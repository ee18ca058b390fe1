import Metasyntax.Proofs.Additions
import Metasyntax.Proofs.HostedProductions
import Metasyntax.Proofs.Retention

/-!
# Names that rule text leaves undefined

A name without meaning becomes an unbound rule when a body with the name is assembled. What the
bodies add to a grammar in this way is said without the order in which they are gone through:
the names without meaning, each where it comes first. Binding then takes away the names of the
productions, and where none is left over, all that the rules of the grammar lead to is bound.
-/

set_option autoImplicit false

namespace Metasyntax

instance (productions : List Production) (called : String) :
    Decidable (Production.Among productions called) :=
  inferInstanceAs (Decidable (∃ production ∈ productions,
    lowerText production.name = lowerText called))

def firstSpellings (names : List String) : List String :=
  names.eraseDupsBy fun name earlier => lowerText name == lowerText earlier

@[simp]
theorem firstSpellings_nil : firstSpellings [] = [] := rfl

theorem firstSpellings_cons (name : String) (rest : List String) :
    firstSpellings (name :: rest) =
      name :: firstSpellings (rest.filter fun other => lowerText other ≠ lowerText name) := by
  rw [firstSpellings, List.eraseDupsBy_cons]
  simp [firstSpellings, ← Bool.not_eq_true]

theorem mem_of_mem_firstSpellings {name : String} {names : List String}
    (h : name ∈ firstSpellings names) : name ∈ names := by
  induction hlength : names.length using Nat.strong_induction_on generalizing names with
  | _ length ih =>
    subst hlength
    cases names with
    | nil => exact h
    | cons first rest =>
      rw [firstSpellings_cons] at h
      rcases List.mem_cons.1 h with rfl | h
      · exact List.mem_cons_self
      · have hrest := ih _ (Nat.lt_succ_of_le (List.length_filter_le _ rest)) h rfl
        exact List.mem_cons_of_mem _ (List.mem_filter.1 hrest).1

/-- Of names that come later those are left out that are the same up to case as one before. -/
theorem firstSpellings_append (names later : List String) :
    firstSpellings (names ++ later) = firstSpellings names ++ firstSpellings
      (later.filter fun name => ∀ earlier ∈ names, lowerText name ≠ lowerText earlier) := by
  induction hlength : names.length using Nat.strong_induction_on generalizing names later with
  | _ length ih =>
    subst hlength
    cases names with
    | nil => simp
    | cons first rest =>
      rw [List.cons_append, firstSpellings_cons, firstSpellings_cons, List.filter_append,
        ih _ (Nat.lt_succ_of_le (List.length_filter_le _ rest)) _ _ rfl, List.filter_filter,
        List.cons_append]
      congr 3
      refine List.filter_congr fun name _ => ?_
      -- a name that equals the first one is left out whatever the others are
      by_cases hfirst : lowerText name = lowerText first
      · simp [hfirst]
      · simp only [List.mem_filter, decide_eq_true_eq, List.forall_mem_cons, hfirst, ne_eq,
          not_false_eq_true, decide_true, Bool.and_true, true_and, decide_eq_decide]
        refine forall_congr' fun earlier => ?_
        constructor
        · intro h hearlier heq
          exact h ⟨hearlier, fun hsame => hfirst (heq.trans hsame)⟩ heq
        · exact fun h hearlier => h hearlier.1

structure Store.Coins (id : GrammarId) (names : List String) (store store' : Store) : Prop where
  unbound : (store'.catalog.grammar id).table.unbound =
    (store.catalog.grammar id).table.unbound ++
      firstSpellings (names.filter fun name => (store.catalog.lookup? id name).isNone)
  lookup : ∀ name, store'.catalog.lookup? id name = none ↔ store.catalog.lookup? id name = none ∧
    ∀ called ∈ names, lowerText called ≠ lowerText name
  size : store'.catalog.grammars.size = store.catalog.grammars.size

namespace Store.Coins

variable {id : GrammarId} {names names' : List String} {store store' store'' : Store}

theorem of_grammars (id : GrammarId) (h : store'.catalog.grammars = store.catalog.grammars) :
    store.Coins id [] store' := by
  have hgrammar (other : GrammarId) :
      store'.catalog.grammar other = store.catalog.grammar other := by
    rw [Catalog.grammar, Catalog.grammar, h]
  refine ⟨?_, fun name => ?_, congrArg _ h⟩
  · rw [hgrammar]
    exact (List.append_nil _).symm
  · have hlookup : store'.catalog.lookup? id name = store.catalog.lookup? id name :=
      Catalog.lookup?_congr (by rw [hgrammar]) fun other => by
        rw [Catalog.local?, Catalog.local?, hgrammar]
    rw [hlookup]
    exact (and_iff_left (List.forall_mem_nil _)).symm

theorem trans (h : store.Coins id names store') (h' : store'.Coins id names' store'') :
    store.Coins id (names ++ names') store'' := by
  refine ⟨?_, fun name => ?_, h'.size.trans h.size⟩
  · rw [h'.unbound, h.unbound, List.append_assoc, List.filter_append, firstSpellings_append,
      List.filter_filter]
    congr 3
    refine List.filter_congr fun name _ => ?_
    rw [Bool.eq_iff_iff, Option.isNone_iff_eq_none, h.lookup, Bool.and_eq_true, decide_eq_true_eq,
      Option.isNone_iff_eq_none, and_comm, and_congr_left_iff]
    intro hnone
    simp only [List.mem_filter, Option.isNone_iff_eq_none]
    constructor
    · exact fun hnew earlier hearlier heq => hnew earlier hearlier.1 heq.symm
    · intro hnew called hcalled heq
      refine hnew called ⟨hcalled, ?_⟩ heq.symm
      rwa [Catalog.lookup?_congr rfl fun other => Catalog.local?_congr heq other]
  · rw [h'.lookup, h.lookup, and_assoc, List.forall_mem_append]

theorem rule (hindex : id.index < store.catalog.grammars.size) (name : String) :
    store.Coins id [name] (Edit.rule id name store).2 := by
  cases hlookup : store.catalog.lookup? id name with
  | some rule =>
    have hrule : Edit.rule id name store = (rule, store) := by
      simp only [Edit.rule, Edit.bind_apply, Edit.get_apply, hlookup, Edit.pure_apply]
    rw [hrule]
    refine ⟨by simp [hlookup], fun other => ⟨fun hnone => ⟨hnone, ?_⟩, fun h => h.1⟩, rfl⟩
    intro called hcalled heq
    rw [List.mem_singleton.1 hcalled] at heq
    rw [Catalog.lookup?_congr rfl fun home => Catalog.local?_congr heq.symm home, hlookup] at hnone
    cases hnone
  | none =>
    have hlocal := Catalog.local?_eq_none_of_lookup? hlookup
    have hrule : (Edit.rule id name store).2 = (Edit.modifyTable id (·.push name) store).2 := by
      simp only [Edit.rule, Edit.localRule, Edit.bind_apply, Edit.get_apply, hlookup, hlocal]
      rfl
    rw [hrule]
    refine ⟨?_, fun other => ?_, ?_⟩
    · rw [Edit.modifyTable, Edit.grammar_modifyGrammar, if_pos ⟨rfl, hindex⟩]
      simp [RuleTable.unbound, RuleTable.push, hlookup, firstSpellings_cons]
    · rw [Store.lookup?_push hindex]
      split <;> simp_all
    · exact Array.size_modify

end Store.Coins

namespace Edit

variable {id : GrammarId}

mutual
/-- A body is assembled into a parser by asking for its names from left to right. -/
theorem coins_assemble (options : Options) : (expression : Expression) → {store : Store} →
    id.index < store.catalog.grammars.size →
      store.Coins id expression.names (assemble id options expression store).2
  | .literal _, _, _ => .of_grammars id rfl
  | .prose _, _, _ => .of_grammars id rfl
  | .name called, _, hindex => .rule hindex called
  | .choice branches, _, hindex => by
    rw [assemble, Expression.names, ← List.append_nil (Expression.namesAll branches)]
    exact (coins_assembleAll options branches hindex).trans (.of_grammars id rfl)
  | .sequence items, _, hindex => coins_assembleAll options items hindex
  | .repeated _ element, _, hindex => by
    rw [assemble, Expression.names, ← List.append_nil element.names]
    exact (coins_assemble options element hindex).trans (.of_grammars id rfl)
  | .optional element, _, hindex => by
    rw [assemble, Expression.names, ← List.append_nil element.names]
    exact (coins_assemble options element hindex).trans (.of_grammars id rfl)

theorem coins_assembleAll (options : Options) :
    (expressions : List Expression) → {store : Store} →
    id.index < store.catalog.grammars.size →
      store.Coins id (Expression.namesAll expressions) (assembleAll id options expressions store).2
  | [], _, _ => .of_grammars id rfl
  | expression :: rest, _, hindex => by
    have hfirst := coins_assemble options expression hindex
    rw [assembleAll]
    exact hfirst.trans (coins_assembleAll options rest (hfirst.size.symm ▸ hindex))
end

end Edit

structure Catalog.Elsewhere (id : GrammarId) (c c' : Catalog) : Prop where
  grammar : ∀ other, other ≠ id → c'.grammar other = c.grammar other
  bases : (c'.grammar id).bases = (c.grammar id).bases
  lost : c'.lost = c.lost

namespace Catalog.Elsewhere

variable {id : GrammarId} {c c' : Catalog}

theorem refl (id : GrammarId) (c : Catalog) : c.Elsewhere id c := ⟨fun _ _ => rfl, rfl, rfl⟩

theorem slot? (h : c.Elsewhere id c') {rule : RuleId} (hrule : rule.grammar ≠ id) :
    c'.slot? rule = c.slot? rule := by
  rw [Catalog.slot?, Catalog.slot?, h.grammar _ hrule]

theorem robust (id : GrammarId) (origin : Catalog) :
    Robust id fun store => origin.Elsewhere id store.catalog := by
  have hmodify (change : Grammar → Grammar)
      (hbases : ∀ grammar, (change grammar).bases = grammar.bases) :
      Edit.Keeps (fun store => origin.Elsewhere id store.catalog)
        (Edit.modifyGrammar id change) := by
    intro store h
    refine ⟨fun other hother => ?_, ?_, h.lost⟩
    · rw [Edit.grammar_modifyGrammar, if_neg fun heq => hother heq.1, h.grammar other hother]
    · rw [Edit.grammar_modifyGrammar]
      split
      · rw [hbases, h.bases]
      · exact h.bases
  exact
    { newMode := fun _ _ h => ⟨h.grammar, h.bases, h.lost⟩
      newCache := fun _ _ h => h
      newRule := fun {_ name} _ h => hmodify (fun grammar =>
        { grammar with table := grammar.table.push name }) (fun _ => rfl) _ h
      update := fun _ _ _ => hmodify _ fun _ => rfl
      register := fun caches store h => hmodify (fun grammar =>
        { grammar with registry := grammar.registry.registerAll store.cacheAlive caches })
          (fun _ => rfl) store h
      retain := fun _ => hmodify _ fun _ => by split <;> rfl
      clearCaches := fun _ h => h }

end Catalog.Elsewhere

theorem Edit.ConfinedTo.elsewhere {id : GrammarId} {α : Type} {edit : Edit α}
    (h : ConfinedTo id edit) (store : Store) :
    store.catalog.Elsewhere id (edit store).2.catalog :=
  h _ (Catalog.Elsewhere.robust id store.catalog) store (.refl id store.catalog)

def Parser.Within (allowed : RuleRef → Prop) (parser : Parser) : Prop :=
  ∀ ref ∈ parser.references, allowed ref

theorem Parser.Within.mono {allowed allowed' : RuleRef → Prop} {parser : Parser}
    (h : parser.Within allowed) (hallowed : ∀ ref, allowed ref → allowed' ref) :
    parser.Within allowed' :=
  fun ref href => hallowed ref (h ref href)

theorem Parser.within_alternation {allowed : RuleRef → Prop} {mode : ModeId}
    {branches : List Parser} (h : ∀ branch ∈ branches, branch.Within allowed) :
    (Parser.alternation mode branches).Within allowed := by
  have hreferences : (Parser.alternation mode branches).references =
      branches.flatMap Parser.references := filterMap_walkAll branches
  intro ref href
  rw [hreferences] at href
  obtain ⟨branch, hbranch, href⟩ := List.mem_flatMap.1 href
  exact h branch hbranch ref href

def Slot.Filled (allowed : RuleRef → Prop) (slot slot' : Slot) : Prop :=
  ∃ definition, slot' = { slot with definition := some definition } ∧
    ((∀ old, slot.definition = some old → old.Within allowed) → definition.Within allowed)

theorem Slot.Filled.trans {allowed : RuleRef → Prop} {slot slot' slot'' : Slot}
    (h : slot.Filled allowed slot') (h' : slot'.Filled allowed slot'') :
    slot.Filled allowed slot'' := by
  obtain ⟨definition, rfl, hwithin⟩ := h
  obtain ⟨definition', rfl, hwithin'⟩ := h'
  refine ⟨definition', rfl, fun hold => hwithin' fun old heq => ?_⟩
  obtain rfl := Option.some.inj heq
  exact hwithin hold

structure Store.Fills (allowed : RuleRef → Prop) (rules : RuleId → Prop) (store store' : Store) :
    Prop where
  filled : ∀ rule, rules rule → Option.Rel (Slot.Filled allowed) (store.catalog.slot? rule)
    (store'.catalog.slot? rule)
  kept : ∀ rule, ¬ rules rule → store'.catalog.slot? rule = store.catalog.slot? rule

theorem Store.slot?_updateRule_eq (store : Store) (rule : RuleId) (change : Slot → Slot)
    (other : RuleId) : (Edit.updateRule rule change store).2.catalog.slot? other =
      if other = rule then (store.catalog.slot? rule).map change
      else store.catalog.slot? other := by
  change (Edit.modifyTable rule.grammar (·.update rule.slot change) store).2.catalog.slot? other = _
  rw [Edit.modifyTable, Edit.slot?_modifyGrammar]
  by_cases hrule : other = rule
  · subst hrule
    rw [if_pos rfl]
    split
    case isTrue => rw [RuleTable.update, Array.getElem?_modify, if_pos rfl, Catalog.slot?]
    case isFalse hindex =>
      have hnone : store.catalog.slot? other = none := by
        by_contra hsome
        exact hindex ⟨rfl, Store.index_lt_of_slot? (Option.isSome_iff_ne_none.2 hsome)⟩
      rw [hnone, Option.map_none]
  · rw [if_neg hrule]
    split
    case isTrue hgrammar =>
      have hslot : rule.slot ≠ other.slot := fun heq => hrule (by
        cases other; cases rule; simp_all)
      rw [RuleTable.update, Array.getElem?_modify, if_neg hslot, Catalog.slot?, hgrammar.1]
    case isFalse => rfl

structure Catalog.Rests (allowed : RuleRef → Prop) (id base : GrammarId) (c : Catalog) : Prop where
  bases : (c.grammar id).bases = [base]
  ground : (c.grammar base).bases = []
  other : base ≠ id
  within : ∀ rule definition, rule.grammar = base → c.definition? rule = some definition →
    definition.Within allowed

namespace Catalog.Rests

variable {allowed : RuleRef → Prop} {id base : GrammarId} {c c' : Catalog}

theorem elsewhere (h : c.Rests allowed id base) (helsewhere : c.Elsewhere id c') :
    c'.Rests allowed id base where
  bases := helsewhere.bases.trans h.bases
  ground := by rw [helsewhere.grammar base h.other, h.ground]
  other := h.other
  within rule definition hrule hdefinition := by
    rw [definition?, helsewhere.slot? (hrule ▸ h.other)] at hdefinition
    exact h.within rule definition hrule hdefinition

theorem inherited (h : c.Rests allowed id base) {name : String} {definition : Parser}
    (hinherited : Edit.inherited? c id name = some definition) : definition.Within allowed := by
  rw [Edit.inherited?, Grammar.base?, h.bases, List.head?_cons, Option.bind_some, lookup?,
    h.ground, List.findSome?_singleton] at hinherited
  obtain ⟨rule, hrule, hdefinition⟩ := Option.bind_eq_some_iff.1 hinherited
  obtain ⟨place, -, rfl⟩ := Option.map_eq_some_iff.1 hrule
  exact h.within _ definition rfl hdefinition

end Catalog.Rests

namespace Store.Fills

variable {allowed : RuleRef → Prop} {rules rules' : RuleId → Prop} {store store' store'' : Store}

theorem refl (allowed : RuleRef → Prop) (store : Store) :
    store.Fills allowed (fun _ => False) store :=
  ⟨nofun, fun _ _ => rfl⟩

theorem congr (h : store.Fills allowed rules store') (hrules : ∀ rule, rules' rule ↔ rules rule) :
    store.Fills allowed rules' store' :=
  (funext fun rule => propext (hrules rule) : rules' = rules) ▸ h

theorem trans (h : store.Fills allowed rules store') (h' : store'.Fills allowed rules' store'') :
    store.Fills allowed (fun rule => rules rule ∨ rules' rule) store'' where
  filled rule hrule := by
    by_cases hfirst : rules rule
    · by_cases hsecond : rules' rule
      · have hrel := h.filled rule hfirst
        have hrel' := h'.filled rule hsecond
        revert hrel hrel'
        generalize store.catalog.slot? rule = slot, store'.catalog.slot? rule = slot',
          store''.catalog.slot? rule = slot''
        rintro (hfilled | _) (hfilled' | _)
        · exact .some (hfilled.trans hfilled')
        · exact .none
      · exact h'.kept rule hsecond ▸ h.filled rule hfirst
    · exact h.kept rule hfirst ▸ h'.filled rule (hrule.resolve_left hfirst)
  kept rule hrule :=
    (h'.kept rule fun hsecond => hrule (Or.inr hsecond)).trans
      (h.kept rule fun hfirst => hrule (Or.inl hfirst))

theorem exists_slot (h : store.Fills allowed rules store') {rule : RuleId} (hrule : rules rule)
    {slot : Slot} (hslot : store.catalog.slot? rule = some slot) :
    ∃ slot', store'.catalog.slot? rule = some slot' ∧ slot.Filled allowed slot' := by
  have hrel := h.filled rule hrule
  rw [hslot] at hrel
  generalize store'.catalog.slot? rule = slot' at hrel
  cases hrel with
  | some hfilled => exact ⟨_, rfl, hfilled⟩

theorem isSome_slot? (h : store.Fills allowed rules store') (rule : RuleId) :
    (store'.catalog.slot? rule).isSome = (store.catalog.slot? rule).isSome := by
  by_cases hrule : rules rule
  · have hrel := h.filled rule hrule
    revert hrel
    generalize store.catalog.slot? rule = slot, store'.catalog.slot? rule = slot'
    rintro (_ | _) <;> rfl
  · rw [h.kept rule hrule]

theorem of_grammars (allowed : RuleRef → Prop)
    (h : store'.catalog.grammars = store.catalog.grammars) :
    store.Fills allowed (fun _ => False) store' := by
  refine ⟨nofun, fun rule _ => ?_⟩
  rw [Catalog.slot?, Catalog.slot?, Catalog.grammar, Catalog.grammar, h]

end Store.Fills

namespace Edit

variable {allowed : RuleRef → Prop} {store : Store} {id : GrammarId} {rule : RuleId}

theorem fills_setDefinition {definition : Parser}
    (h : ∀ slot, store.catalog.slot? rule = some slot →
      (∀ old, slot.definition = some old → old.Within allowed) → definition.Within allowed) :
    store.Fills allowed (· = rule) (setDefinition rule definition store).2 := by
  have hslot (other : RuleId) : (setDefinition rule definition store).2.catalog.slot? other =
      if other = rule then (store.catalog.slot? rule).map ({ · with definition := some definition })
      else store.catalog.slot? other := by
    simp only [setDefinition, bind_apply]
    rw [Store.slot?_updateRule_eq, slot?_adopt, slot?_adopt]
  refine ⟨fun other hother => ?_, fun other hother => by rw [hslot, if_neg hother]⟩
  subst hother
  rw [hslot, if_pos rfl]
  cases hold : store.catalog.slot? other with
  | none => exact .none
  | some slot => exact .some ⟨definition, rfl, h slot hold⟩

theorem fills_addAlternative {alternative : Parser} (h : alternative.Within allowed) :
    store.Fills allowed (· = rule) (addAlternative rule alternative store).2 := by
  cases hdefinition : store.catalog.definition? rule with
  | none =>
    simp only [addAlternative, bind_apply, get_apply, hdefinition]
    exact fills_setDefinition fun _ _ _ => h
  | some existing =>
    simp only [addAlternative, bind_apply, get_apply, hdefinition]
    generalize (store.catalog.grammar rule.grammar).options.firstMatch = firstMatch
    have hmode : store.Fills allowed (fun _ => False)
        (alternation firstMatch [existing, alternative] store).2 := .of_grammars allowed rfl
    refine (hmode.trans (fills_setDefinition fun slot hslot hold => ?_)).congr fun _ => by simp
    have hexisting : slot.definition = some existing := by
      rw [Catalog.definition?, ← hmode.kept rule not_false, hslot] at hdefinition
      exact hdefinition
    refine Parser.within_alternation fun branch hbranch => ?_
    rcases List.mem_pair.1 hbranch with rfl | rfl
    · exact hold _ hexisting
    · exact h

theorem fills_inherit {base : GrammarId} (h : store.catalog.Rests allowed id base) (name : String)
    (rule : RuleId) :
    store.Fills allowed (fun _ => False) (inherit id name rule store).2 ∨
      store.Fills allowed (· = rule) (inherit id name rule store).2 := by
  cases hdefinition : store.catalog.definition? rule with
  | some definition =>
    rw [inherit_of_bound hdefinition]
    exact Or.inl (.refl allowed store)
  | none =>
    rw [inherit_of_unbound hdefinition]
    cases hinherited : inherited? store.catalog id name with
    | none => exact Or.inl (.refl allowed store)
    | some definition => exact Or.inr (fills_setDefinition fun _ _ _ => h.inherited hinherited)

/-- Binding a production gives its rule a definition. -/
theorem fills_bindOne {base : GrammarId} (h : store.catalog.Rests allowed id base)
    {production : Production} {parser : Parser}
    (hlocal : store.catalog.local? id production.name = some rule)
    (hparser : parser.Within allowed) :
    store.Fills allowed (· = rule) (bindOne id production parser store).2 := by
  rw [bindOne]
  split
  · rw [extend_eq_inherit]
    simp only [bind_apply, Store.localRule_eq_of_local hlocal, pure_apply]
    rcases fills_inherit h production.name rule with hfills | hfills
    · exact (hfills.trans (fills_addAlternative hparser)).congr fun _ => by simp
    · exact (hfills.trans (fills_addAlternative hparser)).congr fun _ => by simp
  · simp only [define, bind_apply, Store.localRule_eq_of_local hlocal, pure_apply]
    exact fills_setDefinition fun _ _ _ => hparser

/-- Binding productions gives the rules of their names definitions, and no others. -/
theorem fills_bindParsers {base : GrammarId} {productions : List Production} {parsers : List Parser}
    (h : store.catalog.Rests allowed id base) (hlength : parsers.length = productions.length)
    (hlocal : ∀ production ∈ productions, ∃ rule,
      store.catalog.local? id production.name = some rule)
    (hparsers : ∀ parser ∈ parsers, parser.Within allowed) :
    store.Fills allowed (store.catalog.Defines id productions)
      (bindParsers id productions parsers store).2 := by
  induction productions generalizing parsers store with
  | nil => exact (Store.Fills.refl allowed store).congr fun rule => by simp [Catalog.Defines]
  | cons production rest ih =>
    obtain _ | ⟨parser, others⟩ := parsers
    · cases hlength
    obtain ⟨hparser, hothers⟩ := List.forall_mem_cons.1 hparsers
    obtain ⟨target, htarget⟩ := hlocal production List.mem_cons_self
    have hrun : (bindParsers id (production :: rest) (parser :: others) store).2 =
        (bindParsers id rest others (bindOne id production parser store).2).2 := by
      simp only [bindParsers, List.zip_cons_cons, List.mapM_cons, bind_apply, pure_apply]
    have hfirst := fills_bindOne h htarget hparser
    have helsewhere : store.catalog.Elsewhere id (bindOne id production parser store).2.catalog :=
      (confined_bindOne id production parser).elsewhere store
    -- a place that was there for a name is still the one for it
    have hfound := (retains_bindOne htarget parser).2.found
    have hrest := ih (h.elsewhere helsewhere) (Nat.succ.inj hlength)
      (fun other hother => (hlocal other (List.mem_cons_of_mem _ hother)).imp fun rule hrule =>
        hfound _ _ hrule) hothers
    rw [hrun]
    refine (hfirst.trans hrest).congr fun rule => ?_
    rw [Catalog.Defines, List.exists_mem_cons_iff]
    refine or_congr ?_ (exists_congr fun other => and_congr_right fun hother => ?_)
    · rw [htarget, Option.some_inj, eq_comm]
    · obtain ⟨place, hplace⟩ := hlocal other (List.mem_cons_of_mem _ hother)
      rw [hplace, hfound _ _ hplace]

end Edit

theorem Catalog.Interned.defines_iff {c : Catalog} (h : c.Interned) {productions : List Production}
    {rule : RuleId} {slot : Slot} (hslot : c.slot? rule = some slot) :
    c.Defines rule.grammar productions rule ↔ Production.Among productions slot.name := by
  refine exists_congr fun production => and_congr_right fun _ => ?_
  rw [h.local?_eq_some_iff, hslot]
  constructor
  · rintro ⟨-, _, ⟨⟩, hname⟩
    exact hname.symm
  · exact fun hname => ⟨rfl, slot, rfl, hname.symm⟩

/-- The rules that are left unbound are those whose names no production has. -/
theorem Store.Fills.unbound {allowed : RuleRef → Prop} {id : GrammarId}
    {productions : List Production} {store store' : Store} (hinterned : store.catalog.Interned)
    (h : store.Fills allowed (store.catalog.Defines id productions) store') :
    (store'.catalog.grammar id).table.unbound = (store.catalog.grammar id).table.unbound.filter
      fun name => ¬ Production.Among productions name := by
  have hunbound (table : RuleTable) : table.unbound = ((table.slots.toList.map fun slot =>
      (slot.name, slot.definition.isNone)).filter (·.2)).map (·.1) := by
    simp [RuleTable.unbound, List.filter_map, Function.comp_def]
  have hslots : (store'.catalog.grammar id).table.slots.toList.map (fun slot =>
      (slot.name, slot.definition.isNone)) =
        (store.catalog.grammar id).table.slots.toList.map fun slot => (slot.name,
          decide (¬ Production.Among productions slot.name) && slot.definition.isNone) := by
    refine List.ext_getElem? fun place => ?_
    simp only [List.getElem?_map, Array.getElem?_toList]
    change (store'.catalog.slot? ⟨id, place⟩).map _ = (store.catalog.slot? ⟨id, place⟩).map _
    cases hslot : store.catalog.slot? ⟨id, place⟩ with
    | none =>
      have hnone := h.isSome_slot? ⟨id, place⟩
      rw [hslot, Option.isSome_none, Option.isSome_eq_false_iff, Option.isNone_iff_eq_none] at hnone
      rw [hnone]
      rfl
    | some slot =>
      have hdefines : store.catalog.Defines id productions ⟨id, place⟩ ↔
          Production.Among productions slot.name := hinterned.defines_iff hslot
      by_cases hamong : Production.Among productions slot.name
      · obtain ⟨_, hslot', definition, rfl, -⟩ := h.exists_slot (hdefines.2 hamong) hslot
        rw [hslot', Option.map_some, Option.map_some, decide_eq_false (not_not_intro hamong)]
        rfl
      · rw [h.kept _ (mt hdefines.1 hamong), hslot, Option.map_some, Option.map_some,
          decide_eq_true hamong, Bool.true_and]
  rw [hunbound, hslots]
  simp [RuleTable.unbound, List.filter_map, Function.comp_def]

theorem Expression.namesAll_eq_flatMap (expressions : List Expression) :
    namesAll expressions = expressions.flatMap Expression.names := by
  induction expressions with
  | nil => rfl
  | cons expression rest ih => rw [namesAll, ih, List.flatMap_cons]

theorem Edit.confined_compile (id : GrammarId) (productions : List Production) :
    ConfinedTo id (compile id productions) := by
  rw [compile]
  refine .bind (.forM (fun production => ?_) _) fun _ => .bind .get fun _ =>
    confined_assembleAll id _ _
  exact .bind (confined_localRule id production.name) fun _ => .pure _

def Catalog.Covers (grammars : Set GrammarId) (c : Catalog) (ref : RuleRef) : Prop :=
  ref.target.grammar ∈ grammars ∧ (c.slot? ref.target).isSome

structure Catalog.Contained (grammars : Set GrammarId) (c : Catalog) : Prop where
  exclusion : ∀ rule slot, rule.grammar ∈ grammars → c.slot? rule = some slot →
    slot.exclusion = none
  references : ∀ rule slot definition, rule.grammar ∈ grammars → c.slot? rule = some slot →
    slot.definition = some definition → definition.Within (c.Covers grammars)

theorem Catalog.Contained.elsewhere {id base : GrammarId} {c c' : Catalog}
    (h : c.Contained {base}) (helsewhere : c.Elsewhere id c') (hne : base ≠ id) :
    c'.Contained {base} := by
  have hslots {rule : RuleId} (hrule : rule.grammar = base) : c'.slot? rule = c.slot? rule :=
    helsewhere.slot? (hrule ▸ hne)
  refine ⟨fun rule slot hrule hslot => ?_, fun rule slot definition hrule hslot hdefinition => ?_⟩
  · exact h.exclusion rule slot hrule ((hslots hrule).symm.trans hslot)
  · intro ref href
    obtain ⟨hgrammar, hsome⟩ :=
      h.references rule slot definition hrule ((hslots hrule).symm.trans hslot) hdefinition ref href
    exact ⟨hgrammar, (hslots hgrammar).symm ▸ hsome⟩

structure Store.Vacant (id base : GrammarId) (store : Store) : Prop where
  index : id.index < store.catalog.grammars.size
  interned : store.catalog.Interned
  new : ∀ rule, rule.grammar = id → store.catalog.slot? rule = none
  bases : (store.catalog.grammar id).bases = [base]
  ground : (store.catalog.grammar base).bases = []
  other : base ≠ id

namespace Store.Vacant

variable {id base : GrammarId} {store : Store} (h : store.Vacant id base)
  (productions : List Production)
include h

theorem ready : store.Ready id where
  index := h.index
  interned := h.interned
  grounded :=
    { lineage := fun other hother => by
        rw [Grammar.base?, h.bases, List.head?_cons, Option.some_inj] at hother
        rw [h.bases, ← hother, h.ground]
      notMem := by
        rw [h.bases, List.mem_singleton]
        exact h.other.symm }

theorem local?_eq_none (name : String) : store.catalog.local? id name = none := by
  by_contra hsome
  obtain ⟨rule, hrule⟩ := Option.ne_none_iff_exists'.1 hsome
  obtain ⟨hgrammar, slot, hslot, -⟩ := h.interned.local?_eq_some_iff.1 hrule
  rw [h.new rule hgrammar] at hslot
  cases hslot

/-- Once the names of the productions have places, a name has no meaning if neither the productions
nor the base have it. -/
theorem lookup?_named (called : String) :
    ((productions.forM fun production => discard <| Edit.localRule id production.name : Edit Unit)
      store).2.catalog.lookup? id called = none ↔
        ¬ Production.Among productions called ∧ store.catalog.local? base called = none := by
  have hfound := Edit.forM_localRule_found productions h.index
  have hother {other : GrammarId} (hne : other ≠ id ∨
      ∀ production ∈ productions, lowerText production.name ≠ lowerText called) :=
    Edit.local?_forM_localRule hne store
  have hquiet : Quiet store _ := quiet_forM_localRule productions id
  generalize ((productions.forM fun production =>
    discard <| Edit.localRule id production.name : Edit Unit) store).2 = named
    at hfound hother hquiet ⊢
  by_cases hamong : Production.Among productions called
  · have ⟨production, hproduction, hname⟩ := hamong
    obtain ⟨rule, hrule⟩ := hfound production hproduction
    rw [Catalog.local?_congr hname] at hrule
    simp [hamong, Catalog.lookup?_of_local hrule]
  · have hnone : named.catalog.local? id called = none := by
      rw [hother (Or.inr fun production hmem hname => hamong ⟨production, hmem, hname⟩),
        h.local?_eq_none]
    rw [Catalog.lookup?_of_local_none hnone, hquiet.bases, h.bases, List.findSome?_singleton,
      hother (Or.inl h.other)]
    simp [hamong]

theorem among_of_named {name : String} (hname : name ∈ (((productions.forM fun production =>
    discard <| Edit.localRule id production.name : Edit Unit) store).2.catalog.grammar
      id).table.unbound) : Production.Among productions name := by
  have hinterned : Catalog.Interned ((productions.forM fun production =>
      discard <| Edit.localRule id production.name : Edit Unit) store).2.catalog :=
    Edit.interned_forM_localRule productions h.interned
  have hother (hnone : ¬ Production.Among productions name) :
      ((productions.forM fun production => discard <| Edit.localRule id production.name : Edit Unit)
        store).2.catalog.local? id name = none :=
    (Edit.local?_forM_localRule (Or.inr fun production hmem hname =>
      hnone ⟨production, hmem, hname⟩) store).trans (h.local?_eq_none name)
  generalize ((productions.forM fun production =>
    discard <| Edit.localRule id production.name : Edit Unit) store).2 = named
    at hname hinterned hother
  obtain ⟨slot, hslot, rfl⟩ := List.mem_map.1 hname
  obtain ⟨place, hplace⟩ := List.mem_iff_getElem?.1 (List.mem_filter.1 hslot).1
  rw [Array.getElem?_toList] at hplace
  have hlocal : named.catalog.local? id slot.name = some ⟨id, place⟩ :=
    hinterned.local?_of_slot (show named.catalog.slot? ⟨id, place⟩ = some slot from hplace)
  by_contra hamong
  rw [hother hamong] at hlocal
  cases hlocal

/-- The bodies add to a grammar the names without meaning, each where it comes first. -/
theorem unbound_compile :
    ((Edit.compile id productions store).2.catalog.grammar id).table.unbound.filter
      (fun name => ¬ Production.Among productions name) =
    firstSpellings ((productions.flatMap (·.body.names)).filter fun called =>
      ¬ Production.Among productions called ∧ store.catalog.local? base called = none) := by
  have hnew := h.lookup?_named productions
  have hamong (name : String) := @among_of_named id base store h productions name
  have hquiet : Quiet store _ := quiet_forM_localRule productions id
  simp only [Edit.compile, Edit.bind_apply, Edit.get_apply]
  generalize ((productions.forM fun production =>
    discard <| Edit.localRule id production.name : Edit Unit) store).2 = named
    at hnew hamong hquiet ⊢
  have hindex : id.index < named.catalog.grammars.size := hquiet.grammars ▸ h.index
  have hisNone (called : String) : (named.catalog.lookup? id called).isNone =
      decide (¬ Production.Among productions called ∧ store.catalog.local? base called = none) := by
    rw [Bool.eq_iff_iff, Option.isNone_iff_eq_none, decide_eq_true_iff, hnew]
  have hold : (named.catalog.grammar id).table.unbound.filter
      (fun name => ¬ Production.Among productions name) = [] :=
    List.filter_eq_nil_iff.2 fun name hname => by simp [hamong name hname]
  rw [(Edit.coins_assembleAll _ _ hindex).unbound, List.filter_append, hold, List.nil_append,
    Expression.namesAll_eq_flatMap, List.flatMap_map,
    List.filter_congr fun called _ => hisNone called]
  refine List.filter_eq_self.2 fun name hname => ?_
  have hmem := (List.mem_filter.1 (mem_of_mem_firstSpellings hname)).2
  exact decide_eq_true (of_decide_eq_true hmem).1

theorem develops_compile : store.catalog.Develops id (fun _ => True) (fun _ => False)
    (Edit.compile id productions store).2.catalog := by
  have hnamed := Edit.extended_forM_localRule h.ready productions
  simp only [Edit.compile, Edit.bind_apply, Edit.get_apply]
  refine (hnamed.gains.catalog.toDevelops.mono (fun _ h => h) fun _ hrule => ?_).trans
    (Edit.develops_assembleAll _ hnamed.ready.index _ (fun _ _ _ _ _ => trivial) (.refl ..))
  obtain ⟨_, hname, -⟩ := hrule
  cases hname

theorem blank_compile {rule : RuleId} (hrule : rule.grammar = id) {slot : Slot}
    (hslot : (Edit.compile id productions store).2.catalog.slot? rule = some slot) :
    slot.exclusion = none ∧ slot.definition = none := by
  obtain ⟨hexclusion, hdefinition⟩ :=
    (h.develops_compile productions).fresh rule slot (h.new rule hrule) hslot
  exact ⟨hexclusion, hdefinition not_false⟩

/-- Bodies refer to rules of the grammar and of its base, which are there. -/
theorem within_compile : ∀ parser ∈ (Edit.compile id productions store).1,
    parser.Within ((Edit.compile id productions store).2.catalog.Covers {id, base}) := by
  have hinterned : (Edit.compile id productions store).2.catalog.Interned :=
    (Edit.confined_compile id productions).lasting _ Store.Interned.durable store h.interned
  have hbases := (h.develops_compile productions).bases id
  have hquiet : Quiet store _ := quiet_forM_localRule productions id
  simp only [Edit.compile, Edit.bind_apply, Edit.get_apply] at hinterned hbases ⊢
  generalize ((productions.forM fun production =>
    discard <| Edit.localRule id production.name : Edit Unit) store).2 = named
    at hinterned hbases hquiet ⊢
  obtain ⟨-, -, hall⟩ := Edit.assembleAll_describes (named.catalog.grammar id).options
    (productions.map (·.body)) (.refl id named) (hquiet.grammars ▸ h.index)
  generalize Edit.assembleAll id (named.catalog.grammar id).options (productions.map (·.body))
    named = assembled at hinterned hbases hall ⊢
  intro parser hparser ref href
  obtain ⟨called, hresolves⟩ := Edit.exists_of_forall₂ hall.references.flip
    (List.mem_flatMap.2 ⟨parser, hparser, href⟩)
  obtain ⟨slot, hslot, -⟩ := hinterned.slot_of_lookup hresolves.lookup
  refine ⟨?_, Option.isSome_of_eq_some hslot⟩
  obtain ⟨home, hhome, hlocal⟩ := List.exists_of_findSome?_eq_some hresolves.lookup
  rw [(hinterned.local?_eq_some_iff.1 hlocal).1]
  rw [hbases, h.bases] at hhome
  simpa using hhome

theorem found_compile : ∀ production ∈ productions, ∃ rule,
    (Edit.compile id productions store).2.catalog.local? id production.name = some rule := by
  intro production hproduction
  obtain ⟨rule, hrule⟩ := Edit.forM_localRule_found productions h.index production hproduction
  have hquiet : Quiet store _ := quiet_forM_localRule productions id
  obtain ⟨-, hretains, -⟩ := Edit.assembleAll_describes _ (productions.map (·.body))
    (.refl id _) (hquiet.grammars ▸ h.index)
  exact ⟨rule, hretains.found _ _ hrule⟩

/-- The parsers that the bodies become are bound to the rules of the productions' names. -/
theorem fills_bind (hbase : store.catalog.Contained {base}) :
    (Edit.compile id productions store).2.Fills
      ((Edit.compile id productions store).2.catalog.Covers {id, base})
      ((Edit.compile id productions store).2.catalog.Defines id productions)
      (Edit.bind id productions store).2 := by
  have helsewhere := (Edit.confined_compile id productions).elsewhere store
  have hlength : (Edit.compile id productions store).1.length = productions.length :=
    (Edit.length_assembleAll ..).trans (List.length_map _)
  rw [Edit.bind_eq_compile, Edit.bind_apply]
  refine Edit.fills_bindParsers (?_ : Catalog.Rests _ id base _) hlength
    (h.found_compile productions) (h.within_compile productions)
  refine ⟨helsewhere.bases.trans h.bases, ?_, h.other, fun rule definition hrule hdefinition => ?_⟩
  · rw [helsewhere.grammar base h.other, h.ground]
  · obtain ⟨slot, hslot, hdefinition⟩ := Option.bind_eq_some_iff.1 hdefinition
    have hwithin := (hbase.elsewhere helsewhere h.other).references rule slot definition hrule hslot
      hdefinition
    exact hwithin.mono fun ref href => ⟨Or.inr href.1, href.2⟩

/-- Productions that are bound in a grammar without rules leave those names unbound that neither
they nor the base have, and lead out of the grammar to its base only. -/
theorem bind (hbase : store.catalog.Contained {base}) :
    ((Edit.bind id productions store).2.catalog.grammar id).table.unbound =
      firstSpellings ((productions.flatMap (·.body.names)).filter fun called =>
        ¬ Production.Among productions called ∧ store.catalog.local? base called = none) ∧
    (Edit.bind id productions store).2.catalog.Contained {id, base} := by
  have hbase' := hbase.elsewhere ((Edit.confined_bind id productions).elsewhere store) h.other
  have hinterned : (Edit.compile id productions store).2.catalog.Interned :=
    (Edit.confined_compile id productions).lasting _ Store.Interned.durable store h.interned
  have hfills := h.fills_bind productions hbase
  -- what a rule of the grammar is, now that there are definitions
  have hown (rule : RuleId) (slot : Slot) (hrule : rule.grammar = id)
      (hslot : (Edit.bind id productions store).2.catalog.slot? rule = some slot) :
      slot.exclusion = none ∧ ∀ definition, slot.definition = some definition →
        definition.Within ((Edit.compile id productions store).2.catalog.Covers {id, base}) := by
    by_cases hdefines :
        (Edit.compile id productions store).2.catalog.Defines id productions rule
    · have hsome := hfills.isSome_slot? rule
      rw [hslot, Option.isSome_some, eq_comm, Option.isSome_iff_exists] at hsome
      obtain ⟨old, hold⟩ := hsome
      obtain ⟨hexclusion, hunbound⟩ := h.blank_compile productions hrule hold
      obtain ⟨_, hslot', bound, rfl, hwithin⟩ := hfills.exists_slot hdefines hold
      obtain rfl := Option.some.inj (hslot'.symm.trans hslot)
      refine ⟨hexclusion, fun definition hdefinition => ?_⟩
      obtain rfl := Option.some.inj hdefinition
      exact hwithin fun before hbefore => nomatch hunbound.symm.trans hbefore
    · obtain ⟨hexclusion, hunbound⟩ :=
        h.blank_compile productions hrule ((hfills.kept rule hdefines).symm.trans hslot)
      exact ⟨hexclusion, fun definition hdefinition => nomatch hunbound.symm.trans hdefinition⟩
  refine ⟨(hfills.unbound hinterned).trans (h.unbound_compile productions), ?_, ?_⟩
  · rintro rule slot (hrule | hrule) hslot
    · exact (hown rule slot hrule hslot).1
    · exact hbase'.exclusion rule slot hrule hslot
  · rintro rule slot definition (hrule | hrule) hslot hdefinition
    · exact ((hown rule slot hrule hslot).2 definition hdefinition).mono fun ref href =>
        ⟨href.1, (hfills.isSome_slot? ref.target).trans href.2⟩
    · exact (hbase'.references rule slot definition hrule hslot hdefinition).mono fun ref href =>
        ⟨Or.inr href.1, href.2⟩

end Store.Vacant

section
variable {grammars : Set GrammarId} {catalog : Catalog}

/-- Rules of living grammars that are all bound and lead nowhere else give no error but that a call
is given up. -/
theorem Catalog.Contained.ruleMatches_fails (h : catalog.Contained grammars)
    (halive : ∀ id ∈ grammars, catalog.alive id = true)
    (hbound : ∀ rule slot, rule.grammar ∈ grammars → catalog.slot? rule = some slot →
      slot.definition.isSome) {rule : RuleId} (hrule : rule.grammar ∈ grammars)
    (hslot : (catalog.slot? rule).isSome) (source : Source) (start : Nat) :
    (failing GrammarError.TooDeep).rel (StopsIn fun _ => True)
      (catalog.ruleMatches rule source start) (catalog.ruleMatches rule source start) := by
  let scope : Scope :=
    { rules := {rule | rule.grammar ∈ grammars ∧ (catalog.slot? rule).isSome}
      nodes := {node | node.Within (catalog.Covers grammars)} }
  have hclosed : scope.Closed catalog :=
    { inner := fun node hnode part hpart ref href => hnode ref
        (Parser.mem_references.2 (node.walk_trans hpart (Parser.mem_references.1 href)))
      target := fun ref hnode rule hresolve => by
        rw [Catalog.eq_of_resolve hresolve]
        exact hnode ref (Parser.mem_references.2 (Parser.self_mem_walk _))
      definition := fun rule hrule slot definition hbound' => by
        obtain ⟨hslot, hdefinition⟩ := Catalog.bound_eq_ok_iff.1 hbound'
        exact h.references rule slot definition hrule.1 hslot hdefinition
      exclusion := fun rule hrule slot definition ref hbound' hexclusion => by
        rw [h.exclusion rule slot hrule.1 (Catalog.bound_eq_ok_iff.1 hbound').1] at hexclusion
        cases hexclusion }
  have hfails : scope.Fails catalog GrammarError.TooDeep :=
    { deep := fun name => ⟨name, rfl⟩
      reference := fun ref hnode error herror => by
        have hcovers := hnode ref (Parser.mem_references.2 (Parser.self_mem_walk _))
        rw [Catalog.resolve, if_pos (halive _ hcovers.1)] at herror
        cases herror
      unbound := fun rule hrule error herror => by
        obtain ⟨slot, hslot⟩ := Option.isSome_iff_exists.1 hrule.2
        obtain ⟨definition, hdefinition⟩ :=
          Option.isSome_iff_exists.1 (hbound rule slot hrule.1 hslot)
        rw [Catalog.bound_eq_ok_iff.2 ⟨hslot, hdefinition⟩] at herror
        cases herror
      exclusion := fun rule hrule slot definition ref hbound' hexclusion => by
        rw [h.exclusion rule slot hrule.1 (Catalog.bound_eq_ok_iff.1 hbound').1] at hexclusion
        cases hexclusion }
  have hresolve : catalog.resolve (catalog.refer rule) = .ok rule := if_pos (halive _ hrule)
  refine hclosed.call_fails hfails _ source (fun other hother => ?_) (fun error herror => ?_) start
  · obtain rfl := Except.ok.inj (hresolve.symm.trans hother)
    exact ⟨hrule, hslot⟩
  · cases hresolve.symm.trans herror

end

theorem RuleTable.Interned.find?_eq_none {table : RuleTable} (h : table.Interned)
    {called : String} : table.find? called = none ↔
      ∀ name ∈ table.names, lowerText name ≠ lowerText called := by
  rw [Option.eq_none_iff_forall_ne_some]
  simp only [ne_eq, h.find?]
  constructor
  · rintro hnone name hname heq
    obtain ⟨slot, hslot, rfl⟩ := List.mem_map.1 hname
    obtain ⟨place, hplace⟩ := List.mem_iff_getElem?.1 hslot
    exact hnone place ⟨slot, Array.getElem?_toList ▸ hplace, heq⟩
  · rintro hnone place ⟨slot, hslot, heq⟩
    exact hnone _ (List.mem_map_of_mem (Array.mem_toList_iff.2 (Array.mem_of_getElem? hslot))) heq

namespace Standard

theorem names_core : (catalog.grammar .core).table.names.Perm (core.map (·.1)) := by
  decide +kernel

theorem contained_checked : (catalog.grammar .core).table.slots.all (fun slot =>
    slot.exclusion.isNone && slot.definition.any fun definition =>
      definition.references.all fun ref => ref.target.grammar = .core &&
        ref.target.slot < (catalog.grammar .core).table.slots.size) = true := by
  decide +kernel

variable {c : Catalog} (h : (c.grammar .core).table.slots = (catalog.grammar .core).table.slots)
include h

theorem local?_core_eq_none (hinterned : c.Interned) {called : String} :
    c.local? .core called = none ↔ ∀ name ∈ core.map (·.1), lowerText name ≠ lowerText called := by
  have hnames : (c.grammar .core).table.names = (catalog.grammar .core).table.names := by
    rw [RuleTable.names, RuleTable.names, h]
  rw [Catalog.local?, Option.map_eq_none_iff, (hinterned .core).find?_eq_none, hnames]
  exact forall_congr' fun name => imp_congr_left names_core.mem_iff

/-- The core rules, as they were assembled, are bound, exclude nothing and lead to one another. -/
theorem contained_core : c.Contained {.core} ∧ ∀ rule slot, rule.grammar = .core →
    c.slot? rule = some slot → slot.definition.isSome := by
  have hchecked (rule : RuleId) (slot : Slot) (hrule : rule.grammar = .core)
      (hslot : c.slot? rule = some slot) : slot.exclusion = none ∧ ∃ definition,
        slot.definition = some definition ∧ definition.Within (c.Covers {.core}) := by
    rw [Catalog.slot?, hrule, h] at hslot
    have hentry := Array.all_eq_true_iff_forall_mem.1 contained_checked slot
      (Array.mem_of_getElem? hslot)
    rw [Bool.and_eq_true, Option.isNone_iff_eq_none, Option.any_eq_true] at hentry
    obtain ⟨hexclusion, definition, hdefinition, hreferences⟩ := hentry
    refine ⟨hexclusion, definition, hdefinition, fun ref href => ?_⟩
    have href' := List.all_eq_true.1 hreferences ref href
    rw [Bool.and_eq_true, decide_eq_true_iff, decide_eq_true_iff] at href'
    refine ⟨href'.1, ?_⟩
    rw [Catalog.isSome_slot?_iff, href'.1, h]
    exact href'.2
  refine ⟨⟨fun rule slot hrule hslot => (hchecked rule slot hrule hslot).1, ?_⟩, ?_⟩
  · intro rule slot definition hrule hslot hdefinition
    obtain ⟨-, bound, hbound, hwithin⟩ := hchecked rule slot hrule hslot
    obtain rfl := Option.some.inj (hdefinition.symm.trans hbound)
    exact hwithin
  · intro rule slot hrule hslot
    obtain ⟨-, bound, hbound, -⟩ := hchecked rule slot hrule hslot
    exact Option.isSome_of_eq_some hbound

end Standard

/-- The names in the bodies of productions that are, up to case, neither names of the productions
nor among others that are known, each as it is spelled where it comes first. -/
def Production.undefined (known : List String) (productions : List Production) : List String :=
  firstSpellings ((productions.flatMap (·.body.names)).filter fun called =>
    ¬ Among productions called ∧ ∀ name ∈ known, lowerText name ≠ lowerText called)

theorem RuleTable.isSome_of_unbound {table : RuleTable} (h : table.unbound = []) {place : Nat}
    {slot : Slot} (hslot : table.slots[place]? = some slot) : slot.definition.isSome := by
  have hnone := List.filter_eq_nil_iff.1 (List.map_eq_nil_iff.1 h) slot
    (Array.mem_toList_iff.2 (Array.mem_of_getElem? hslot))
  simpa [Option.isNone_iff_eq_none, ← Option.isSome_iff_ne_none] using hnone

/-- In every session that can be come to, let a grammar have no rules yet and be based on the core
rules alone, which are as they were assembled. Once texts have been loaded in it, its unbound rules
are named by what the bodies refer to, as names or as prose that is a name, where neither the texts
nor the core rules have that name up to case: each once, as it is first spelled, in the order in
which they come first. If there are none, no rule of the grammar ends in an error, whatever the
caches hold, unless a call is given up since calls go on at one offset without end. -/
theorem Session.Reached.unbound_exact {session : Session} (h : session.Reached) {id : GrammarId}
    (hliving : id ∈ session.store.living)
    (hbases : (session.store.catalog.grammar id).bases = [.core])
    (hnew : (session.store.catalog.grammar id).table.slots = #[])
    (hcore : (session.store.catalog.grammar .core).table.slots =
      (Standard.catalog.grammar .core).table.slots)
    {texts : Session.RuleTexts} {rules : List RuleId} {loaded : Store}
    (hload : (Session.loadTexts id texts).run session.store = (.ok rules, loaded)) :
    ∃ productions read,
      (Session.readTexts id texts).run session.store = (.ok productions, read) ∧
      (loaded.catalog.grammar id).table.unbound =
        Production.undefined (Standard.core.map (·.1)) productions ∧
      ((loaded.catalog.grammar id).table.unbound = [] →
        ∀ store : Store, store.catalog = loaded.catalog → ∀ rule, rule.grammar = id →
          (store.catalog.slot? rule).isSome → ∀ error, store.Fails rule error → error.TooDeep) := by
  obtain ⟨productions, read, hread, hbind⟩ := (Session.loadTexts_eq_ok h.loadable).1 hload
  have hcatalog := Session.readTexts_catalog h.loadable.readable id texts
  rw [hread] at hcatalog
  have hsane : Sane _ session.store := h.orderly.sane
  have hlineage := hsane.lineage id .core (by rw [Grammar.base?, hbases, List.head?_cons])
  have hvacant : read.Vacant id .core :=
    { index := by
        rw [hcatalog]
        by_contra hindex
        rw [grammar_eq_default (Nat.le_of_not_lt hindex)] at hbases
        cases hbases
      interned := by
        rw [hcatalog]
        exact h.interned
      new := fun rule hrule => by rw [hcatalog, Catalog.slot?, hrule, hnew]; rfl
      bases := by rw [hcatalog, hbases]
      ground := by
        rw [hcatalog]
        exact (List.cons.inj (hbases.symm.trans hlineage.2)).2.symm
      other := fun heq => hlineage.1.ne (congrArg GrammarId.index heq) }
  rw [← hcatalog] at hcore
  obtain ⟨hunbound, hcontained⟩ := hvacant.bind productions (Standard.contained_core hcore).1
  have helsewhere := (Edit.confined_bind id productions).elsewhere read
  rw [hbind] at hunbound hcontained helsewhere
  refine ⟨productions, read, hread, ?_, fun hnil store hstore rule hrule hslot error hfails => ?_⟩
  · rw [hunbound, Production.undefined]
    refine congrArg _ (List.filter_congr fun called _ => decide_eq_decide.2 ?_)
    exact and_congr_right fun _ => Standard.local?_core_eq_none hcore hvacant.interned
  · rw [← helsewhere.grammar .core hvacant.other] at hcore
    rw [hstore] at hslot
    refine hfails.allowed fun source start => ?_
    rw [hstore]
    refine hcontained.ruleMatches_fails ?_ ?_ (Or.inl hrule) hslot source start
    · have hliving' : GrammarId.core ∈ session.store.living := (h.orderly.useful _ .core).1
      rintro other (rfl | rfl)
      · rw [Catalog.alive, helsewhere.lost, hcatalog]
        exact hliving
      · rw [Catalog.alive, helsewhere.lost, hcatalog]
        exact hliving'
    · rintro rule slot (hrule | hrule) hslot
      · rw [Catalog.slot?, hrule] at hslot
        exact RuleTable.isSome_of_unbound hnil hslot
      · exact (Standard.contained_core hcore).2 rule slot hrule hslot

/-- A name is listed once, however it is spelled later on, and core rules count as defined. -/
example : Production.undefined (Standard.core.map (·.1))
    [⟨"a", false, .sequence [.name "Foo", .name "digit", .choice [.name "bar", .name "FOO"]]⟩,
      ⟨"b", true, .optional (.sequence [.name "A", .name "baz", .name "Bar"])⟩] =
      ["Foo", "bar", "baz"] := by
  decide +kernel

def Session.drafted : Session := tidy ⟨.drafting, Std.HashMap.insert ∅ "g" ⟨2⟩, ∅, ∅⟩

theorem Session.reached_drafted : drafted.Reached := by
  have hid : (⟨2⟩ : GrammarId) = (Edit.newGrammar "g" (some .core) .standard start.store).1 := by
    rw [Edit.newGrammar_fst]
    exact start_checked.1
  obtain ⟨answer, hstep⟩ : ∃ answer,
      start.step (.newGrammar "g" "g" .core .standard) = .ok (answer, drafted) := by
    rw [drafted, hid]
    exact ⟨_, rfl⟩
  exact .step .start hstep

/-- The grammar has no rules and is based on the core rules, and those of the standard grammars
are as they were. -/
theorem Session.drafted_fresh : Desk.Untouched ⟨drafted.store, ∅⟩ ∧
    (⟨2⟩ : GrammarId) ∈ drafted.store.living ∧
    (drafted.store.catalog.grammar ⟨2⟩).bases = [.core] ∧
    (drafted.store.catalog.grammar ⟨2⟩).table.slots = #[] ∧
    (drafted.store.catalog.grammar .core).table.slots =
      (Standard.catalog.grammar .core).table.slots := by
  have hheld : drafted.Holds (.grammar ⟨2⟩) := .grammar Std.HashMap.getElem?_insert_self
  have hgrammar (id : GrammarId) :
      drafted.store.catalog.grammar id = Store.drafting.catalog.grammar id := rfl
  have hchecked : (Store.drafting.catalog.grammar ⟨2⟩).bases = [.core] ∧
      (Store.drafting.catalog.grammar ⟨2⟩).table.slots.size = 0 ∧
      GrammarId.core.index ≠ Store.standard.catalog.grammars.size := by
    decide +kernel
  refine ⟨Desk.untouched_drafting.collect (Set.empty_subset ∅) nofun fun id hid => ?_,
    (reached_drafted.orderly.useful _ hheld).1, hchecked.1,
    Array.eq_empty_of_size_eq_zero hchecked.2.1, ?_⟩
  · exact List.mem_append_left _ (List.mem_append_left _ (List.mem_pair.2 hid))
  · rw [hgrammar, Store.drafting, grammar_newGrammar, if_neg hchecked.2.2, Standard.catalog]

/-- The first of two texts leaves no name undefined, and the second one leaves one. -/
theorem Session.Reached.unbound_exact_digit : ∃ (session : Session) (rules others : List RuleId)
    (loaded left : Store), session.Reached ∧ ⟨2⟩ ∈ session.store.living ∧
      (session.store.catalog.grammar ⟨2⟩).bases = [.core] ∧
      (session.store.catalog.grammar ⟨2⟩).table.slots = #[] ∧
      (session.store.catalog.grammar .core).table.slots =
        (Standard.catalog.grammar .core).table.slots ∧
      (Session.loadTexts ⟨2⟩ (.joined "a=DIGIT")).run session.store = (.ok rules, loaded) ∧
      (loaded.catalog.grammar ⟨2⟩).table.unbound = [] ∧
      (∀ store : Store, store.catalog = loaded.catalog → ∀ rule, rule.grammar = ⟨2⟩ →
        (store.catalog.slot? rule).isSome → ∀ error, store.Fails rule error → error.TooDeep) ∧
      (Session.loadTexts ⟨2⟩ (.joined "a=bar")).run session.store = (.ok others, left) ∧
      (left.catalog.grammar ⟨2⟩).table.unbound = ["bar"] := by
  obtain ⟨huntouched, hliving, hbases, hnew, hcore⟩ := Session.drafted_fresh
  have hlines : asLines (trimBlankEnd "a=bar").toList =
      ['a', '='] ++ ['b', 'a', 'r'] ++ ['\r', '\n'] := by
    decide +kernel
  have hspelled : (Notation.referring ['b', 'a', 'r']).Spelled
      (asLines (trimBlankEnd "a=bar").toList) := by
    rw [hlines]
    exact Notation.spelled_referring (by decide)
  obtain ⟨read, rules, loaded, hread, hload⟩ :=
    huntouched.exists_loaded ⟨2⟩ Notation.spelled_digit rfl
  obtain ⟨read', others, left, hread', hload'⟩ := huntouched.exists_loaded ⟨2⟩ hspelled rfl
  obtain ⟨productions, _, hstated, hunbound, hparses⟩ :=
    Session.Reached.unbound_exact Session.reached_drafted hliving hbases hnew hcore hload
  obtain ⟨productions', _, hstated', hunbound', -⟩ :=
    Session.Reached.unbound_exact Session.reached_drafted hliving hbases hnew hcore hload'
  cases hread.symm.trans hstated
  cases hread'.symm.trans hstated'
  have hnone : (loaded.catalog.grammar ⟨2⟩).table.unbound = [] := by
    rw [hunbound]
    decide +kernel
  have hone : (left.catalog.grammar ⟨2⟩).table.unbound = ["bar"] := by
    rw [hunbound']
    decide +kernel
  exact ⟨_, rules, others, loaded, left, Session.reached_drafted, hliving, hbases, hnew, hcore,
    hload, hnone, hparses hnone, hload', hone⟩

end Metasyntax
