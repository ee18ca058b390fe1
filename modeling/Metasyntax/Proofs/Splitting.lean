import Metasyntax.Proofs.Lockstep
import Metasyntax.Proofs.Renewal

/-!
# Definitions that are split

Alternatives are stated by one text, or by several of which the first defines the rule and the
others add to it, and these are loaded at once or one after the other. All of this leaves the
same rules: they have the same matches, and parses find them in the same way.
-/

set_option autoImplicit false

namespace Metasyntax

open Edit (outcome)

namespace Production

variable {name : String} {expressions : List Expression} {production : Production}
  {rest : List Production}

theorem Adds.uncons (h : Adds name expressions (production :: rest)) : ∃ portion others,
    expressions = portion ++ others ∧ Adds name portion [production] ∧ Adds name others rest := by
  have hportions := h.portions
  rw [List.map_cons] at hportions
  generalize hbody : production.body = body at hportions
  cases hportions with
  | @cons portion others _ hportion hothers =>
    have hone : Expression.Portions (portion ++ []) [.gather portion] := .cons hportion .nil
    rw [List.append_nil, ← hbody] at hone
    exact ⟨portion, others, rfl,
      { portions := hone
        spelled := by simpa using h.spelled production List.mem_cons_self
        incremental := by simpa using h.incremental production List.mem_cons_self },
      { portions := hothers
        spelled := fun other hother => h.spelled other (List.mem_cons_of_mem _ hother)
        incremental := fun other hother => h.incremental other (List.mem_cons_of_mem _ hother) }⟩

theorem States.uncons {productions : List Production} (h : States name expressions productions) :
    ∃ body rest portion others, productions = ⟨name, false, body⟩ :: rest ∧
      expressions = portion ++ others ∧ States name portion [⟨name, false, body⟩] ∧
        Adds name others rest := by
  obtain ⟨body, rest, rfl, hincremental⟩ := h.first
  have hportions := h.portions
  rw [List.map_cons] at hportions
  cases hportions with
  | @cons portion others _ hportion hothers =>
    exact ⟨_, rest, portion, others, rfl, rfl, .single name hportion,
      { portions := hothers
        spelled := fun other hother => h.spelled other (List.mem_cons_of_mem _ hother)
        incremental := hincremental }⟩

end Production

theorem Store.alternatives_append {id : GrammarId} {store : Store}
    (hindex : id.index < store.catalog.grammars.size) (expressions others : List Expression) :
    store.alternatives id (expressions ++ others) =
      ((store.alternatives id expressions).1 ++
          ((store.alternatives id expressions).2.alternatives id others).1,
        ((store.alternatives id expressions).2.alternatives id others).2) := by
  have hoptions := (Edit.develops_assembled (store.catalog.grammar id).options expressions
    hindex).options id
  rw [alternatives, Edit.assembleAll_append, alternatives, alternatives, hoptions]

structure Store.Restated (origin : Store) (id : GrammarId) (name : String)
    (expressions : List Expression) (after : Store) : Prop where
  gathering : ((Edit.localRule id name origin).2.alternatives id expressions).2.Gathering
    (Edit.localRule id name origin).1 (origin.catalog.grammar id).options.firstMatch
    ((Edit.localRule id name origin).2.alternatives id expressions).1 after
  modes : origin.catalog.KeepsModes after.catalog

theorem Store.Standing.hosts {store : Store} {id : GrammarId} (h : store.Standing id)
    (name : String) :
    (Edit.localRule id name store).1.grammar = id ∧
      (Edit.localRule id name store).2.Hosts (Edit.localRule id name store).1 name
        (store.catalog.grammar id).options.firstMatch := by
  have hlocal := Store.local?_localRule h.index_lt name
  have hoptions : ((Edit.localRule id name store).2.catalog.grammar id).options =
      (store.catalog.grammar id).options := options_localRule id name id
  have hindex : id.index < (Edit.localRule id name store).2.catalog.grammars.size := by
    rw [(quiet_localRule id name).grammars]
    exact h.index_lt
  have hgrammar : (Edit.localRule id name store).1.grammar = id := by
    obtain ⟨place, -, hrule⟩ := Option.map_eq_some_iff.1 hlocal
    rw [← hrule]
  generalize (Edit.localRule id name store).1 = rule at *
  subst hgrammar
  exact ⟨rfl, hindex, hlocal, congrArg Options.firstMatch hoptions⟩

/-- What is stated of a name is bound in a store that differs in what is remembered only. -/
theorem Store.Standing.gathering_bind {origin read : Store} {id : GrammarId} {name : String}
    {expressions : List Expression} {productions : List Production} (h : origin.Standing id)
    (hcatalog : read.catalog = origin.catalog) (hsize : read.caches.size = origin.caches.size)
    (hstates : Production.States name expressions productions) :
    ((Edit.localRule id name origin).2.alternatives id expressions).2.Gathering
      (Edit.localRule id name origin).1 (origin.catalog.grammar id).options.firstMatch
      ((Edit.localRule id name origin).2.alternatives id expressions).1
      (Edit.bind id productions read).2 := by
  have hinterned : (Edit.localRule id name origin).2.Interned :=
    Edit.lasting_localRule id name _ Interned.durable _ h.interned
  obtain ⟨-, slot, hslot, -⟩ := (Catalog.Interned.local?_eq_some_iff hinterned).1
    (Store.local?_localRule h.index_lt name)
  have hlevel := ((Level.of_catalog hcatalog hsize :
    origin.Level (Edit.localRule id name origin).1 read).localRule h.index_lt name).2
  have hbind : Edit.bind id productions read =
      Edit.bind id productions (Edit.localRule id name read).2 := by
    obtain ⟨body, rest, rfl, -⟩ := hstates.first
    have hspelled : ∀ production ∈ rest, lowerText production.name = lowerText name :=
      fun production hproduction =>
        hstates.spelled production (List.mem_cons_of_mem _ hproduction)
    have hindex := h.index_lt
    rw [← hcatalog] at hindex
    exact Edit.bind_named hspelled hindex
  obtain ⟨hgrammar, hhosts⟩ := h.hosts name
  rw [hbind]
  generalize (Edit.localRule id name origin).1 = rule at *
  subst hgrammar
  exact .bind_states hhosts hlevel (Option.isSome_of_eq_some hslot) hstates

namespace Loading

inductive Creates (id : GrammarId) : List String → List Production → Store → Store → Prop
  | nil (store : Store) : Creates id [] [] store store
  | cons {text : String} {texts : List String} {production : Production}
    {productions : List Production} {store read after : Store}
    (hread : (Session.readTexts id (.separate [text])).run store = (.ok [production], read))
    (hrest : Creates id texts productions (Edit.bind id [production] read).2 after) :
    Creates id (text :: texts) (production :: productions) store after

inductive Gives (id : GrammarId) (productions : List Production) :
    Loading (List RuleId) → Store → Store → Prop
  | load {texts : Session.RuleTexts} {store read : Store}
    (hread : (Session.readTexts id texts).run store = (.ok productions, read)) :
    Gives id productions (Session.loadTexts id texts) store (Edit.bind id productions read).2
  | create {texts : List String} {store after : Store}
    (h : Creates id texts productions store after) :
    Gives id productions (texts.mapM (createRule id)) store after

def emptied (id : GrammarId) : Set GrammarId := insert id (insert .abnf ∅)

theorem insert_emptied (id : GrammarId) : insert id (insert .abnf (emptied id)) = emptied id := by
  have hid : id ∈ emptied id := Set.mem_insert _ _
  have habnf : .abnf ∈ emptied id := Set.mem_insert_of_mem _ (Set.mem_insert _ _)
  rw [Set.insert_eq_of_mem habnf, Set.insert_eq_of_mem hid]

end Loading

theorem Catalog.Aside.congr {id : GrammarId} {c : Catalog} {name name' : String}
    (h : c.Aside id name) (hname : lowerText name' = lowerText name) : c.Aside id name' :=
  fun rule hrule => h rule ((Catalog.local?_congr hname.symm id).trans hrule)

def Store.Spared (id : GrammarId) (name : String) (emptied : Set GrammarId) (store after : Store) :
    Prop :=
  ∀ origin : Store, origin.catalog.Legible → origin.catalog.Aside id name →
    origin.Follows id emptied store.caches.size store →
      origin.Follows id (Loading.emptied id) after.caches.size after

namespace Loading

variable {id : GrammarId} {name : String} {expressions : List Expression} {texts : List String}
  {productions : List Production} {store after : Store}

theorem Creates.exists_run (h : Creates id texts productions store after)
    (hstanding : store.Standing id) :
    ∃ rules, (texts.mapM (createRule id)).run store = (.ok rules, after) := by
  induction h with
  | nil store => exact ⟨[], rfl⟩
  | @cons text _ production _ _ _ _ hread _ ih =>
    have hstanding' := (hstanding.readTexts (.separate [text])).1
    rw [hread] at hstanding'
    obtain ⟨created, hcreate⟩ := createRule_of_read hstanding.loadable hread
    obtain ⟨rules, hrules⟩ := ih (hstanding'.bind [production])
    exact ⟨created :: rules, Edit.run_mapM_cons_ok hcreate hrules⟩

theorem Gives.exists_run {load : Loading (List RuleId)}
    (h : Gives id productions load store after) (hstanding : store.Standing id) :
    ∃ rules, load.run store = (.ok rules, after) := by
  cases h with
  | load hread =>
    exact ⟨_, (Session.loadTexts_eq_ok hstanding.loadable).2 ⟨productions, _, hread, rfl⟩⟩
  | create h => exact h.exists_run hstanding

/-- What a load states of a name is bound. -/
theorem restated_load (hstanding : store.Standing id)
    (hstates : Production.States name expressions productions) {texts : Session.RuleTexts}
    {read : Store} (hread : (Session.readTexts id texts).run store = (.ok productions, read)) :
    store.Restated id name expressions (Edit.bind id productions read).2 ∧
      store.Spared id name ∅ (Edit.bind id productions read).2 := by
  obtain ⟨hstanding', hcatalog, hsize⟩ := hstanding.readTexts texts
  rw [hread] at hstanding' hcatalog hsize
  have hgathering := hstanding.gathering_bind hcatalog hsize hstates
  have htexts : texts ≠ .separate [] := by
    rintro rfl
    cases hread
    obtain ⟨body, rest, hempty, -⟩ := hstates.first
    cases hempty
  obtain ⟨body, rest, rfl, -⟩ := hstates.first
  have hspelled : ∀ production ∈ rest, lowerText production.name = lowerText name :=
    fun production hproduction => hstates.spelled production (List.mem_cons_of_mem _ hproduction)
  have hready : (⟨name, false, body⟩ : Production).incremental = true → ∃ rule,
      read.catalog.local? id name = some rule ∧ (read.catalog.definition? rule).isSome :=
    fun hincremental => absurd hincremental Bool.false_ne_true
  obtain ⟨rule, -, -, hrebinds⟩ := hstanding'.rebinds hspelled hready
  refine ⟨⟨hgathering, ?_⟩, fun origin hlegible haside hfollows => ?_⟩
  · rw [← hcatalog]
    exact hrebinds.develops.mode
  · have hreads := hfollows.readTexts hlegible.readable htexts
    rw [hread] at hreads
    exact hreads.bind hlegible hspelled hready haside

/-- Texts that add alternatives to a rule are read and bound one after the other. -/
theorem Creates.adds (h : Creates id texts productions store after) {rule : RuleId}
    (hid : rule.grammar = id) {firstMatch : Bool} {originals : List Parser} {source : Store}
    (hadds : Production.Adds name expressions productions) (hstanding : store.Standing id)
    (hgathering : source.Gathering rule firstMatch originals store)
    (hhosts : source.Hosts rule name firstMatch) :
    (source.alternatives id expressions).2.Gathering rule firstMatch
        (originals ++ (source.alternatives id expressions).1) after ∧
      store.catalog.KeepsModes after.catalog ∧ store.Spared id name (emptied id) after := by
  subst hid
  induction h generalizing expressions originals source with
  | nil store =>
    have hportions := hadds.portions
    rw [List.map_nil] at hportions
    cases hportions
    refine ⟨?_, fun _ _ hmode => hmode, fun _ _ _ hfollows => hfollows⟩
    rwa [show source.alternatives rule.grammar [] = ([], source) from rfl, List.append_nil]
  | @cons text texts production productions store read after hread hcreates ih =>
    obtain ⟨portion, others, rfl, hfirst, hrest⟩ := hadds.uncons
    obtain ⟨hstanding', hcatalog, hsize⟩ := hstanding.readTexts (.separate [text])
    rw [hread] at hstanding' hcatalog hsize
    -- the first text adds to the rule
    have hname := hadds.spelled production List.mem_cons_self
    have hgathers := (hgathering.of_catalog hcatalog hsize).bind hhosts hfirst
    have hready : production.incremental = true → ∃ rule',
        read.catalog.local? rule.grammar production.name = some rule' ∧
          (read.catalog.definition? rule').isSome := fun _ => by
      obtain ⟨definition, -, hdefinition, -⟩ := hgathering.bound
      rw [hcatalog, hgathering.level.own, hhosts.local_of_spelled hname]
      exact ⟨rule, rfl, Option.isSome_of_eq_some hdefinition⟩
    have hnone : ∀ other ∈ ([] : List Production),
        lowerText other.name = lowerText production.name := nofun
    obtain ⟨bound, -, -, hrebinds⟩ := hstanding'.rebinds hnone hready
    -- the others add to what it has left
    obtain ⟨hgathering', hkeeps, hspared⟩ := ih hrest hgathers (hhosts.alternatives portion)
      (hstanding'.bind [production])
    refine ⟨?_, fun mode firstMatch hmode => hkeeps mode firstMatch
      (hrebinds.develops.mode mode firstMatch (hcatalog ▸ hmode)), ?_⟩
    · rwa [Store.alternatives_append hhosts.index_lt, ← List.append_assoc]
    · intro origin hlegible haside hfollows
      have htexts : Session.RuleTexts.separate [text] ≠ .separate [] := nofun
      have hreads := hfollows.readTexts hlegible.readable htexts
      rw [hread] at hreads
      have hbound := hreads.bind hlegible hnone hready (haside.congr hname)
      rw [insert_emptied] at hbound
      exact hspared origin hlegible haside hbound

/-- Texts that state the alternatives of a name are read and bound one after the other. -/
theorem Creates.restated (h : Creates id texts productions store after)
    (hstanding : store.Standing id) (hstates : Production.States name expressions productions) :
    store.Restated id name expressions after ∧ store.Spared id name ∅ after := by
  obtain ⟨body, rest, portion, others, rfl, rfl, hfirst, hadds⟩ := hstates.uncons
  cases h with
  | @cons text texts _ _ _ read _ hread hcreates =>
    obtain ⟨⟨hgathering, hmodes⟩, hspared⟩ := restated_load hstanding hfirst hread
    obtain ⟨hgrammar, hhosts⟩ := hstanding.hosts name
    have hhosts' := hhosts.alternatives portion
    have hindex := hhosts.index_lt
    rw [hgrammar] at hhosts' hindex
    have hstanding' := (hstanding.readTexts (.separate [text])).1
    rw [hread] at hstanding'
    obtain ⟨hgathering', hkeeps, hspared'⟩ := hcreates.adds hgrammar hadds
      (hstanding'.bind [_]) hgathering hhosts'
    refine ⟨⟨?_, fun mode firstMatch hmode => hkeeps mode firstMatch
      (hmodes mode firstMatch hmode)⟩, fun origin hlegible haside hfollows =>
        hspared' origin hlegible haside (hspared origin hlegible haside hfollows)⟩
    rwa [Store.alternatives_append hindex portion others]

theorem Gives.restated {load : Loading (List RuleId)}
    (h : Gives id productions load store after) (hstanding : store.Standing id)
    (hstates : Production.States name expressions productions) :
    store.Restated id name expressions after ∧ store.Spared id name ∅ after := by
  cases h with
  | load hread => exact restated_load hstanding hstates hread
  | create h => exact h.restated hstanding hstates

end Loading

def shownAll (outcome : Except GrammarError (List Attempt)) :
    Except GrammarError (List (Option MatchSet)) :=
  outcome.map (·.map Except.toOption)

def SameUnlessDeep {α : Type} (x y : Except GrammarError α) : Prop :=
  (∃ error : GrammarError, error.TooDeep ∧ (x = .error error ∨ y = .error error)) ∨ x = y

structure Trial where
  rule : RuleId
  source : Source
  start : Nat

def Catalog.tryAll (catalog : Catalog) (trials : List Trial) : Run (List Attempt) :=
  trials.mapM fun trial => catalog.ruleMatches trial.rule trial.source trial.start

/-- Two stores have rules of the same names. Each of them has the same matches in both, at every
offset of every text, or fails for the same reason, and where no cache is stale its parses end
alike. -/
structure Store.SameMatches (store store' : Store) : Prop where
  named : ∀ id name, store'.catalog.local? id name = store.catalog.local? id name
  refer : ∀ rule, store'.catalog.refer rule = store.catalog.refer rule
  finds : ∀ rule source start, shown (store.catalog.ruleMatches rule source start) =
    shown (store'.catalog.ruleMatches rule source start)
  parses : ∀ rule, store.ParsesAnew rule → store'.ParsesAnew rule → ∀ source start,
    Agree (shown (Edit.parsing (·.ruleMatches rule source start) store).1)
      (shown (Edit.parsing (·.ruleMatches rule source start) store').1)

/-- All parses in two stores, one after the other, find the same, unless one is given up. -/
def Store.TryAlike (store store' : Store) : Prop := ∀ trials,
  SameUnlessDeep (shownAll (Edit.parsing (·.tryAll trials) store).1)
    (shownAll (Edit.parsing (·.tryAll trials) store').1)

/-- Trials that go alike one by one go alike. -/
theorem Pairing.rel_tryAll {P : Pairing Run Run} {c c' : Catalog}
    (h : ∀ rule source start, P.rel Attempt.Same (c.ruleMatches rule source start)
      (c'.ruleMatches rule source start)) (trials : List Trial) :
    P.rel (List.Forall₂ Attempt.Same) (c.tryAll trials) (c'.tryAll trials) := by
  induction trials with
  | nil => exact P.pure .nil
  | cons trial rest ih =>
    rw [Catalog.tryAll, Catalog.tryAll, List.mapM_cons, List.mapM_cons]
    exact P.bind (h trial.rule trial.source trial.start) fun _ _ hfirst =>
      P.bind ih fun _ _ hrest => P.pure (.cons hfirst hrest)

theorem EndAbreast.sameUnlessDeep {keeps : Caches → Caches → Prop}
    {x y : Except GrammarError (List Attempt) × Caches}
    (h : EndAbreast keeps (List.Forall₂ Attempt.Same) x y) :
    SameUnlessDeep (shownAll x.1) (shownAll y.1) := by
  cases h with
  | left hdeep => exact Or.inl ⟨_, hdeep, Or.inl rfl⟩
  | right hdeep => exact Or.inl ⟨_, hdeep, Or.inr rfl⟩
  | error => exact Or.inr rfl
  | ok hpost =>
    refine Or.inr (congrArg Except.ok ?_)
    induction hpost with
    | nil => rfl
    | cons hfirst _ ih => exact congrArg₂ List.cons hfirst ih

namespace Store.Restated

variable {origin after after' : Store} {id : GrammarId} {name : String}
  {expressions : List Expression}

theorem reshapes (h : origin.Restated id name expressions after)
    (h' : origin.Restated id name expressions after') (hcomplete : origin.catalog.Complete)
    (hindex : id.index < origin.catalog.grammars.size) :
    after.catalog.Reshapes after'.catalog := by
  have hindex' : id.index < (Edit.localRule id name origin).2.catalog.grammars.size := by
    rwa [(quiet_localRule id name).grammars]
  have hnamed : origin.catalog.Develops id (fun _ => True) (fun _ => False)
      (Edit.localRule id name origin).2.catalog :=
    Edit.develops_localRule hindex fun _ _ _ => trivial
  have hdevelops := hnamed.trans (Edit.develops_assembled
    ((Edit.localRule id name origin).2.catalog.grammar id).options expressions hindex')
  refine h.gathering.reshapes h'.gathering h.modes h'.modes fun other _ definition hdefinition => ?_
  obtain ⟨slot, hslot, hbound⟩ := Option.bind_eq_some_iff.1 hdefinition
  cases hold : origin.catalog.slot? other with
  | none =>
    have hunbound := (hdevelops.fresh other slot hold hslot).2 not_false
    cases hunbound.symm.trans hbound
  | some slot' =>
    obtain ⟨slot'', hslot'', -, -, hkept⟩ := hdevelops.slot other slot' hold
    obtain rfl : slot'' = slot := Option.some.inj (hslot''.symm.trans hslot)
    exact hcomplete.mode_lt other slot' definition hold ((hkept not_false).symm.trans hbound)

theorem sameMatches (h : origin.Restated id name expressions after)
    (h' : origin.Restated id name expressions after') (hcomplete : origin.catalog.Complete)
    (hindex : id.index < origin.catalog.grammars.size) : after.SameMatches after' := by
  have hreshapes := h.reshapes h' hcomplete hindex
  refine
    { named := fun id name =>
        (h'.gathering.level.own id name).trans (h.gathering.level.own id name).symm
      refer := hreshapes.refer
      finds := hreshapes.shown_ruleMatches
      parses := fun rule hanew hanew' source start => ?_ }
  have hleft := (hanew.ruleMatches source start).map Except.toOption
  have hright := (hanew'.ruleMatches source start).map Except.toOption
  rw [show Except.map Except.toOption _ = _ from
    hreshapes.shown_ruleMatches rule source start] at hleft
  exact hleft.trans hright.symm

/-- All parses find the same, where rule text is not read with the rule. -/
theorem tryAlike (h : origin.Restated id name expressions after)
    (h' : origin.Restated id name expressions after') (hcomplete : origin.catalog.Complete)
    (hindex : id.index < origin.catalog.grammars.size)
    (hfollows : origin.Follows id (Loading.emptied id) after.caches.size after)
    (hfollows' : origin.Follows id (Loading.emptied id) after'.caches.size after') :
    after.TryAlike after' := by
  intro trials
  have hreads := hfollows.reads
  have hreads' := hfollows'.reads
  have hsame : origin.catalog.reading.Same after.catalog after'.catalog :=
    hreads.same.symm.trans hreads'.same
  have hsize : after'.caches.size = after.caches.size :=
    h'.gathering.level.caches.trans h.gathering.level.caches.symm
  have hstep : Caches.InStep after.catalog after'.catalog origin.catalog.reading.nodes
      after.caches after'.caches :=
    { sound := hreads.sound
      sound' := hreads'.sound
      alike := fun cache hcache => by
        rw [hfollows.renewed.getElem?_eq hfollows'.renewed hsize hcache]
        cases after'.caches[cache.index]? with
        | none => exact .none
        | some entries =>
          exact .some (.refl (fun attempt => (rfl : attempt.Same attempt)) entries) }
  have hrules := (h.reshapes h' hcomplete hindex).ruleMatches_abreast hreads.closed hreads.apart
    hsame hreads.apart_definition hreads'.apart_definition
  exact (Pairing.rel_tryAll hrules trials _ _ hstep).sameUnlessDeep

end Store.Restated

theorem RuleText.mapM_single {states : String → Option Production} {text : String}
    {production : Production} (h : states text = some production) :
    [text].mapM states = some [production] := by
  rw [mapM_option_cons, h]
  rfl

theorem Session.Reached.standing {session : Session} (h : session.Reached) {id : GrammarId}
    (hid : session.Holds (.grammar id)) : session.store.Standing id where
  orderly := h.orderly_of_holds hid
  interned := h.interned
  readable := h.legible.readable

namespace Store.Reads

variable {origin : Catalog} {id : GrammarId} {store : Store}

theorem follows (h : store.Reads store.catalog id) :
    store.Follows id ∅ store.caches.size store :=
  ⟨h, .refl _ _ _, rfl⟩

/-- Texts are read as what they state. -/
theorem exists_read (h : store.Reads origin id) (hreadable : origin.Readable) {texts : List String}
    {productions : List Production} (hstated : texts.mapM (store.stated id) = some productions) :
    ∃ read, (Session.readTexts id (.separate texts)).run store = (.ok productions, read) := by
  obtain ⟨result, read, hread, hresult, -⟩ := h.readTexts hreadable texts
  rw [hstated] at hresult
  cases result with
  | ok productions' =>
    cases hresult
    exact ⟨read, hread⟩
  | error failure => cases hresult

end Store.Reads

namespace Loading

variable {id : GrammarId} {name : String} {expressions : List Expression} {texts : List String}
  {productions : List Production} {store : Store}

/-- Texts that add alternatives to a rule that rule text is not read with are read one after the
other. -/
theorem exists_adds {origin : Store} (hlegible : origin.catalog.Legible)
    (haside : origin.catalog.Aside id name)
    (hfollows : origin.Follows id (emptied id) store.caches.size store) {rule : RuleId}
    (hid : rule.grammar = id) {firstMatch : Bool} {originals : List Parser} {source : Store}
    (hadds : Production.Adds name expressions productions)
    (hgathering : source.Gathering rule firstMatch originals store)
    (hhosts : source.Hosts rule name firstMatch)
    (hstated : texts.mapM (store.stated id) = some productions) :
    ∃ after, Creates id texts productions store after := by
  induction texts generalizing expressions productions store originals source with
  | nil =>
    cases hstated
    exact ⟨store, .nil store⟩
  | cons text rest ih =>
    rw [mapM_option_cons] at hstated
    obtain ⟨production, hfirst, hstated⟩ := Option.bind_eq_some_iff.1 hstated
    obtain ⟨others, hothers, hstated⟩ := Option.bind_eq_some_iff.1 hstated
    cases hstated
    obtain ⟨portion, alternatives, rfl, hone, hrest⟩ := hadds.uncons
    obtain ⟨read, hread⟩ :=
      hfollows.reads.exists_read hlegible.readable (RuleText.mapM_single hfirst)
    obtain ⟨hgathering', -, hspared⟩ := Creates.adds (.cons hread (.nil _)) hid hone
      (hfollows.reads.standing hlegible.readable) hgathering hhosts
    have hfollows' := hspared origin hlegible haside hfollows
    rw [hfollows.reads.stated_eq hfollows'.reads hlegible.readable] at hothers
    subst hid
    obtain ⟨after, hcreates⟩ := ih hfollows' hrest hgathering' (hhosts.alternatives portion)
      hothers
    exact ⟨after, .cons hread hcreates⟩

/-- Texts that state a rule that rule text is not read with are read one after the other. -/
theorem exists_creates (hreads : store.Reads store.catalog id) (hlegible : store.catalog.Legible)
    (haside : store.catalog.Aside id name)
    (hstates : Production.States name expressions productions)
    (hstated : texts.mapM (store.stated id) = some productions) :
    ∃ after, Creates id texts productions store after := by
  obtain ⟨body, rest, portion, others, rfl, rfl, hfirst, hadds⟩ := hstates.uncons
  cases texts with
  | nil => cases hstated
  | cons text texts =>
    rw [mapM_option_cons] at hstated
    obtain ⟨production, htext, hstated⟩ := Option.bind_eq_some_iff.1 hstated
    obtain ⟨productions, htexts, hstated⟩ := Option.bind_eq_some_iff.1 hstated
    cases hstated
    have hstanding := hreads.standing hlegible.readable
    obtain ⟨read, hread⟩ := hreads.exists_read hlegible.readable (RuleText.mapM_single htext)
    obtain ⟨⟨hgathering, -⟩, hspared⟩ := restated_load hstanding hfirst hread
    have hfollows := hspared store hlegible haside hreads.follows
    rw [hreads.stated_eq hfollows.reads hlegible.readable] at htexts
    obtain ⟨hgrammar, hhosts⟩ := hstanding.hosts name
    have hhosts' := hhosts.alternatives portion
    rw [hgrammar] at hhosts'
    obtain ⟨after, hcreates⟩ := exists_adds hlegible haside hfollows hgrammar hadds hgathering
      hhosts' htexts
    exact ⟨after, .cons hread hcreates⟩

end Loading

/-- The alternatives of a rule can be split in any way among productions of which the first
defines the rule and the others add to it. However these are read into a grammar, at once or one
after the other, that leaves the same matches in every session. Where no cache is stale that rule
text is read through and rule text is not read with the rule, it leaves the same parses as well.

Where no such cache is stale, texts that state productions are read as these at once, and, where
rule text is not read with the rule, one after the other too. -/
theorem Session.Reached.splitting_irrelevant {session : Session} (h : session.Reached)
    {id : GrammarId} (hid : session.Holds (.grammar id)) {name : String}
    {expressions : List Expression} {productions productions' : List Production}
    (hstates : Production.States name expressions productions)
    (hstates' : Production.States name expressions productions') :
    (∀ load load' after after', Loading.Gives id productions load session.store after →
      Loading.Gives id productions' load' session.store after' →
        (∃ rules, load.run session.store = (.ok rules, after)) ∧
        (∃ rules, load'.run session.store = (.ok rules, after')) ∧
          after.SameMatches after' ∧
            (session.store.ReadsAnew → session.store.catalog.Aside id name →
              after.TryAlike after')) ∧
    (session.store.ReadsAnew → ∀ texts,
      texts.mapM (session.store.stated id) = some productions →
        (∃ after, Loading.Gives id productions (Session.loadTexts id (.separate texts))
          session.store after) ∧
        (session.store.catalog.Aside id name → ∃ after,
          Loading.Gives id productions (texts.mapM (Loading.createRule id))
            session.store after)) := by
  have hstanding := h.standing hid
  have hcomplete := h.orderly.complete
  have hlegible := h.legible
  refine ⟨fun load load' after after' hgives hgives' => ?_, fun hanew texts hstated => ?_⟩
  · obtain ⟨hrestated, hspared⟩ := hgives.restated hstanding hstates
    obtain ⟨hrestated', hspared'⟩ := hgives'.restated hstanding hstates'
    refine ⟨hgives.exists_run hstanding, hgives'.exists_run hstanding,
      hrestated.sameMatches hrestated' hcomplete hstanding.index_lt, fun hanew haside => ?_⟩
    have hfollows := (h.reads hid hanew).follows
    exact hrestated.tryAlike hrestated' hcomplete hstanding.index_lt
      (hspared _ hlegible haside hfollows) (hspared' _ hlegible haside hfollows)
  · have hreads := h.reads hid hanew
    constructor
    · obtain ⟨read, hread⟩ := hreads.exists_read hlegible.readable hstated
      exact ⟨_, .load hread⟩
    · intro haside
      obtain ⟨after, hcreates⟩ :=
        Loading.exists_creates hreads hlegible haside hstates hstated
      exact ⟨after, .create hcreates⟩

namespace Notation

def trailing (letter : Char) (name : List Char) : Choice :=
  .last (.more (.once (.quoted .plain [letter])) (.last (.once (.name name))))

theorem spelled_trailing {letter : Char} (hletter : IsQuotable letter) {name : List Char}
    (hname : IsName name) :
    (trailing letter name).Spelled (['"', letter, '"', ' '] ++ name) := by
  refine ⟨['"', letter, '"'], [' '], name, ⟨?_, [], rfl, rfl⟩, ?_, nofun, ⟨hname, rfl⟩, rfl⟩
  · intro c hc
    rwa [List.mem_singleton.1 hc]
  · have hgap : Gap [' '] := ⟨[], ' ', Or.inl rfl, Or.inl rfl, rfl⟩
    exact .cons hgap .nil

end Notation

/-- A rule of two alternatives, the second of which refers to the rule. -/
theorem Session.Reached.splitting_irrelevant_recursive :
    let expressions : List Expression :=
      [.literal ⟨.text "x", false⟩, .sequence [.literal ⟨.text "y", false⟩, .name "a"]]
    let productions : List Production := [⟨"a", false, .literal ⟨.text "x", false⟩⟩,
      ⟨"a", true, .sequence [.literal ⟨.text "y", false⟩, .name "a"]⟩]
    let productions' : List Production := [⟨"a", false, .choice expressions⟩]
    let texts := ["a=\"x\"", "a=/\"y\" a"]
    let texts' := ["a=\"x\"/\"y\" a"]
    Session.start.Reached ∧ Session.start.Holds (.grammar .core) ∧
      Production.States "a" expressions productions ∧
      Production.States "a" expressions productions' ∧
      Session.start.store.ReadsAnew ∧ Session.start.store.catalog.Aside .core "a" ∧
      texts.mapM (Session.start.store.stated .core) = some productions ∧
      texts'.mapM (Session.start.store.stated .core) = some productions' ∧
      ∃ rules rules' after after',
        (texts.mapM (Loading.createRule .core)).run Session.start.store = (.ok rules, after) ∧
        (Loading.loadRules .core texts').run Session.start.store = (.ok rules', after') ∧
          after.SameMatches after' ∧ after.TryAlike after' := by
  intro expressions productions productions' texts texts'
  have hone (expression : Expression) : [expression] ≠ [] := nofun
  have hstates : Production.States "a" expressions productions :=
    { portions := .cons (hone _) (.cons (hone _) .nil)
      spelled := by simp [productions]
      first := ⟨_, _, rfl, by simp⟩ }
  have hstates' : Production.States "a" expressions productions' := .single "a" nofun
  have hname : Notation.IsName ['a'] := by decide
  have hquoted : (Notation.Choice.last (.last (.once (.quoted .plain ['x'])))).Spelled
      ['"', 'x', '"'] := ⟨by decide, [], rfl, rfl⟩
  have htrailing : (Notation.trailing 'y' ['a']).Spelled ['"', 'y', '"', ' ', 'a'] :=
    Notation.spelled_trailing (by decide) hname
  have hchoice : (Notation.Choice.more (.last (.once (.quoted .plain ['x'])))
      (Notation.trailing 'y' ['a'])).Spelled ['"', 'x', '"', '/', '"', 'y', '"', ' ', 'a'] :=
    ⟨['"', 'x', '"'], [], [], _, hquoted, .nil, .nil, htrailing, rfl⟩
  have hfirst : Session.start.store.stated .core "a=\"x\"" =
      some ⟨"a", false, .literal ⟨.text "x", false⟩⟩ :=
    Session.start_stated .core (Notation.spelled_tight false hname hquoted (by decide +kernel)) rfl
  have hsecond : Session.start.store.stated .core "a=/\"y\" a" =
      some ⟨"a", true, .sequence [.literal ⟨.text "y", false⟩, .name "a"]⟩ :=
    Session.start_stated .core (Notation.spelled_tight true hname htrailing (by decide +kernel)) rfl
  have hwhole : Session.start.store.stated .core "a=\"x\"/\"y\" a" =
      some ⟨"a", false, .choice expressions⟩ :=
    Session.start_stated .core (Notation.spelled_tight false hname hchoice (by decide +kernel)) rfl
  have htexts := RuleText.Batch.mapM_pair hfirst hsecond
  have htexts' := RuleText.mapM_single hwhole
  have hanew := Session.fresh_start.readsAnew
  have haside : Session.start.store.catalog.Aside .core "a" := by
    have hnew : Session.start.store.catalog.local? .core "a" = none := by decide +kernel
    intro rule hrule
    cases hnew.symm.trans hrule
  obtain ⟨halike, hgives⟩ := Session.Reached.start.splitting_irrelevant .core hstates hstates'
  obtain ⟨-, hgives'⟩ := Session.Reached.start.splitting_irrelevant .core hstates' hstates'
  obtain ⟨after, hcreates⟩ := (hgives hanew texts htexts).2 haside
  obtain ⟨after', hload⟩ := (hgives' hanew texts' htexts').1
  obtain ⟨⟨rules, hrules⟩, ⟨rules', hrules'⟩, hmatches, htries⟩ := halike _ _ _ _ hcreates hload
  exact ⟨.start, .core, hstates, hstates', hanew, haside, htexts, htexts', rules, rules', after,
    after', hrules, hrules', hmatches, htries hanew haside⟩

/-- Once a text defines the rule for a rule's text as a terminal, no text is read that the
terminal does not match. -/
theorem Store.Reads.unread_of_entry {origin : Catalog} {store : Store}
    (h : store.Reads origin .abnf) (hreadable : origin.Readable) {text : String}
    {terminal : Literal}
    (hstated : store.stated .abnf text = some ⟨"rule", false, .literal terminal⟩) :
    ∃ rule between, (Loading.createRule .abnf text).run store = (.ok rule, between) ∧
      ∀ other, terminal.matchAt (.ofString (terminated other)) 0 = none →
        ((Loading.createRule .abnf other).run between).1.toOption = none := by
  obtain ⟨rule, read, hread, hcatalog, hcreate⟩ := (h.createRule hreadable text).2 _ hstated
  have hsingle : Production.Batch [⟨"rule", false, .literal terminal⟩] :=
    ⟨by simp, List.pairwise_singleton _ _⟩
  obtain ⟨halive, hindex⟩ := hread.orderly.useful (.grammar .abnf) (Or.inl rfl)
  obtain ⟨hbinds, -⟩ := Edit.binds_bind hsingle hread.interned hindex
  generalize (Edit.bind .abnf [_] read).2 = between at hcreate hbinds
  refine ⟨rule, between, hcreate, fun other hfails => ?_⟩
  obtain ⟨entry, slot, parser, hlocal, hslot, hdefinition, rfl⟩ :=
    hbinds.built _ List.mem_cons_self
  have hgrammar : entry.grammar = .abnf := by
    obtain ⟨place, -, rfl⟩ := Option.map_eq_some_iff.1 hlocal
    rfl
  exact Loading.createRule_of_lettered hlocal (by rwa [hgrammar, Catalog.alive, hbinds.lost])
    (Catalog.bound_eq_ok_iff.2 ⟨hslot, hdefinition⟩) hfails

def Loading.LeaveSame {α β : Type} (load : Loading α) (load' : Loading β) (store : Store) : Prop :=
  ∃ a b after after', load.run store = (.ok a, after) ∧ load'.run store = (.ok b, after') ∧
    after.SameMatches after'

/-- A rule that rule text is read with can be defined anew by the first of several texts: then the
others are not read any more. -/
theorem splitting_seen_by_reading : ¬ ∀ (session : Session) (id : GrammarId) (name : String)
    (expressions : List Expression) (productions productions' : List Production)
    (texts texts' : List String), session.Reached → session.Holds (.grammar id) →
      Production.States name expressions productions →
      Production.States name expressions productions' →
      texts.mapM (session.store.stated id) = some productions →
      texts'.mapM (session.store.stated id) = some productions' →
        Loading.LeaveSame (Loading.loadRules id texts) (Loading.loadRules id texts')
          session.store ∧
        Loading.LeaveSame (texts.mapM (Loading.createRule id)) (Loading.loadRules id texts')
          session.store := by
  intro hall
  have hname : Notation.IsName ['r', 'u', 'l', 'e'] := by decide
  have hquoted {c : Char} (hc : Notation.IsQuotable c) :
      (Notation.Choice.last (.last (.once (.quoted .plain [c])))).Spelled ['"', c, '"'] :=
    ⟨by simpa using hc, [], rfl, rfl⟩
  have hx : Notation.IsQuotable 'x' := by decide
  have hy : Notation.IsQuotable 'y' := by decide
  have hchoice : (Notation.Choice.more (.last (.once (.quoted .plain ['x'])))
      (.last (.last (.once (.quoted .plain ['y']))))).Spelled ['"', 'x', '"', '/', '"', 'y', '"'] :=
    ⟨['"', 'x', '"'], [], [], _, hquoted hx, .nil, .nil, hquoted hy, rfl⟩
  have hfirst : Session.start.store.stated .abnf "rule=\"x\"" =
      some ⟨"rule", false, .literal ⟨.text "x", false⟩⟩ :=
    Session.start_stated .abnf
      (Notation.spelled_tight false hname (hquoted hx) (by decide +kernel)) rfl
  have hsecond : Session.start.store.stated .abnf "rule=/\"y\"" =
      some ⟨"rule", true, .literal ⟨.text "y", false⟩⟩ :=
    Session.start_stated .abnf
      (Notation.spelled_tight true hname (hquoted hy) (by decide +kernel)) rfl
  have hwhole : Session.start.store.stated .abnf "rule=\"x\"/\"y\"" =
      some ⟨"rule", false, .choice [.literal ⟨.text "x", false⟩, .literal ⟨.text "y", false⟩]⟩ :=
    Session.start_stated .abnf (Notation.spelled_tight false hname hchoice (by decide +kernel)) rfl
  have hone (expression : Expression) : [expression] ≠ [] := nofun
  have hstates : Production.States "rule"
      [.literal ⟨.text "x", false⟩, .literal ⟨.text "y", false⟩]
      [⟨"rule", false, .literal ⟨.text "x", false⟩⟩, ⟨"rule", true, .literal ⟨.text "y", false⟩⟩] :=
    { portions := .cons (hone _) (.cons (hone _) .nil)
      spelled := by simp
      first := ⟨_, _, rfl, by simp⟩ }
  -- the first text is read, and then not the second
  obtain ⟨rule, between, hcreate, hunread⟩ :=
    (Session.Reached.start.reads .abnf Session.fresh_start.readsAnew).unread_of_entry
      Session.Reached.start.legible.readable hfirst
  have hunread := hunread "rule=/\"y\"" (by decide +kernel)
  obtain ⟨-, created, -, after, -, hcreated, -⟩ := hall _ .abnf _ _ _ _ _ _ .start .abnf hstates
    (.single "rule" nofun) (RuleText.Batch.mapM_pair hfirst hsecond) (RuleText.mapM_single hwhole)
  rw [List.mapM_cons, Edit.run_bind_ok hcreate, List.mapM_cons] at hcreated
  obtain ⟨bs, _, hrest, -⟩ := Edit.run_bind_eq_ok.1 hcreated
  obtain ⟨b, _, hlast, -⟩ := Edit.run_bind_eq_ok.1 hrest
  rw [hlast] at hunread
  cases hunread

end Metasyntax
