import Metasyntax.Proofs.Compiling
import Metasyntax.Proofs.Readership

/-!
# The order of rule texts

A batch of texts that define different names leaves the same rules in whatever order the
texts are loaded. It leaves them as well where a rule is created from one text after the
other, as long as no text defines a name of a base or a rule that rule text is read with.
-/

set_option autoImplicit false

namespace Metasyntax

open Edit (outcome)

structure Store.SameRules (spell : String → String) (store store' : Store) : Prop where
  left : ∀ rule slot, store.catalog.slot? rule = some slot →
    ∃ rule', store.catalog.Twins store'.catalog rule rule'
  right : ∀ rule' slot', store'.catalog.slot? rule' = some slot' →
    ∃ rule, store.catalog.Twins store'.catalog rule rule'
  finds : ∀ rule rule', store.catalog.Twins store'.catalog rule rule' → ∀ source start,
    seen (Attempt.respell spell) (store.catalog.ruleMatches rule source start) =
      seen (Attempt.respell spell) (store'.catalog.ruleMatches rule' source start)
  parses : ∀ rule rule', store.catalog.Twins store'.catalog rule rule' →
    store.ParsesAnew rule → store'.ParsesAnew rule' → ∀ source start,
      Agree (seen (Attempt.respell spell) (Edit.parsing (·.ruleMatches rule source start) store).1)
        (seen (Attempt.respell spell) (Edit.parsing (·.ruleMatches rule' source start) store').1)

theorem GrammarError.TooDeep.lowered {error : GrammarError} (h : error.TooDeep) :
    error.lowered.TooDeep := by
  cases error <;> simp_all [TooDeep, GrammarError.lowered]

theorem Agree.seen {α β : Type} (view : α → β) {x y : Except GrammarError α} (h : Agree x y) :
    Agree (seen view x) (seen view y) := by
  obtain rfl | ⟨⟨error, hdeep, rfl⟩, error', hdeep', rfl⟩ := h
  · exact Or.inl rfl
  · exact Or.inr ⟨⟨_, hdeep.lowered, rfl⟩, _, hdeep'.lowered, rfl⟩

theorem Bench.Orderly.complete {bench : Bench} (h : bench.Orderly) :
    bench.store.catalog.Complete where
  referred := h.referred
  mode_lt rule slot definition hslot hdefinition mode branches hnode :=
    h.sane.mode_lt mode branches (Or.inr ⟨rule, slot, definition, Set.mem_univ _,
      Catalog.bound_eq_ok_iff.2 ⟨hslot, hdefinition⟩, hnode⟩)

/-- What has come from one catalog by the same productions has the same rules. -/
theorem Catalog.Siblings.sameRules {id : GrammarId} {productions : List Production} {c : Catalog}
    {store store' : Store} (h : Siblings id productions c store.catalog store'.catalog)
    (hcomplete : c.Complete) {spell : String → String}
    (hspell : ∀ production ∈ productions, c.local? id production.name = none →
      ∀ rule rule' slot slot', store.catalog.local? id production.name = some rule →
        store'.catalog.local? id production.name = some rule' →
          store.catalog.slot? rule = some slot → store'.catalog.slot? rule' = some slot' →
            spell slot.name = spell slot'.name) : store.SameRules spell store' := by
  have hfinds : ∀ rule rule', store.catalog.Twins store'.catalog rule rule' → ∀ source start,
      seen (Attempt.respell spell) (store.catalog.ruleMatches rule source start) =
        seen (Attempt.respell spell) (store'.catalog.ruleMatches rule' source start) :=
    fun rule rule' htwins source start =>
      (h.renames hcomplete hspell).seen_ruleMatches (h.ruleCount_eq hcomplete) htwins source start
  refine ⟨fun rule slot hslot => h.exists_twin hslot, fun rule' slot' hslot' =>
    (h.symm.exists_twin hslot').imp fun _ htwins => htwins.symm, hfinds, ?_⟩
  intro rule rule' htwins hanew hanew' source start
  have hleft := (hanew.ruleMatches source start).seen (Attempt.respell spell)
  have hright := (hanew'.ruleMatches source start).seen (Attempt.respell spell)
  rw [hfinds rule rule' htwins source start] at hleft
  exact hleft.trans hright.symm

theorem mem_of_mapM {α β : Type} {f : α → Option β} {items : List α} {results : List β}
    (h : items.mapM f = some results) {b : β} (hb : b ∈ results) : ∃ a ∈ items, f a = some b := by
  induction items generalizing results with
  | nil =>
    cases h
    cases hb
  | cons item rest ih =>
    rw [mapM_option_cons] at h
    obtain ⟨first, hfirst, h⟩ := Option.bind_eq_some_iff.1 h
    obtain ⟨others, hothers, h⟩ := Option.bind_eq_some_iff.1 h
    cases h
    rcases List.mem_cons.1 hb with rfl | hb
    · exact ⟨item, List.mem_cons_self, hfirst⟩
    · obtain ⟨a, ha, hfa⟩ := ih hothers hb
      exact ⟨a, List.mem_cons_of_mem _ ha, hfa⟩

def Store.stated (store : Store) (id : GrammarId) (text : String) : Option Production :=
  RuleText.stated store (store.catalog.grammar id).options.prose text

/-- Texts that extend no rule, and of which no two define one name. -/
structure RuleText.Batch (states : String → Option Production) (texts : List String) : Prop where
  plain : ∀ text ∈ texts, ∀ production, states text = some production →
    production.incremental = false
  distinct : texts.Pairwise fun first second => ∀ production production',
    states first = some production → states second = some production' →
      lowerText production.name ≠ lowerText production'.name

namespace RuleText.Batch

variable {states : String → Option Production} {texts texts' : List String}

theorem tail {text : String} {rest : List String} (h : Batch states (text :: rest)) :
    Batch states rest where
  plain other hother := h.plain other (List.mem_cons_of_mem _ hother)
  distinct := h.distinct.of_cons

theorem perm (h : Batch states texts) (hperm : texts.Perm texts') : Batch states texts' where
  plain text htext := h.plain text (hperm.mem_iff.2 htext)
  distinct := h.distinct.perm hperm fun hne production production' hproduction hproduction' =>
    (hne production' production hproduction' hproduction).symm

theorem productions (h : Batch states texts) {productions : List Production}
    (hstates : texts.mapM states = some productions) : Production.Batch productions where
  plain production hproduction := by
    obtain ⟨text, htext, hstated⟩ := mem_of_mapM hstates hproduction
    exact h.plain text htext production hstated
  distinct := by
    induction texts generalizing productions with
    | nil =>
      cases hstates
      exact .nil
    | cons text rest ih =>
      rw [mapM_option_cons] at hstates
      obtain ⟨first, hfirst, hstates⟩ := Option.bind_eq_some_iff.1 hstates
      obtain ⟨others, hothers, hstates⟩ := Option.bind_eq_some_iff.1 hstates
      cases hstates
      refine .cons (fun other hother => ?_) (ih h.tail hothers)
      obtain ⟨text', htext', hother⟩ := mem_of_mapM hothers hother
      exact List.rel_of_pairwise_cons h.distinct htext' first other hfirst hother

variable {first second : String} {production production' : Production}

theorem pair (h : states first = some production) (h' : states second = some production')
    (hplain : production.incremental = false) (hplain' : production'.incremental = false)
    (hne : lowerText production.name ≠ lowerText production'.name) :
    Batch states [first, second] where
  plain text htext other hother := by
    rcases List.mem_pair.1 htext with rfl | rfl
    · cases h.symm.trans hother
      exact hplain
    · cases h'.symm.trans hother
      exact hplain'
  distinct := by
    refine List.pairwise_pair.2 fun other other' hother hother' => ?_
    cases h.symm.trans hother
    cases h'.symm.trans hother'
    exact hne

theorem mapM_pair (h : states first = some production) (h' : states second = some production') :
    [first, second].mapM states = some [production, production'] := by
  rw [mapM_option_cons, mapM_option_cons, h, h']
  rfl

end RuleText.Batch

namespace Store.Reads

variable {origin : Catalog} {id : GrammarId} {store store' : Store}

/-- Texts state in one store what they state in the other. -/
theorem stated_eq (h : Reads origin id store) (h' : Reads origin id store')
    (hreadable : origin.Readable) : store.stated id = store'.stated id := by
  have hattentive : Attentive (Reads origin id) _ := attentive hreadable
  funext text
  have hparse : outcome store (RuleText.parseRule text) =
      outcome store' (RuleText.parseRule text) :=
    (RuleText.firm_parseRule hattentive text).same store store' h h'
  rw [Store.stated, Store.stated, RuleText.stated, RuleText.stated, h.options, h'.options, hparse]
  refine Option.bind_congr fun node _ => Option.bind_congr fun header _ => ?_
  have hbody := (RuleText.firm_readBody hattentive (origin.grammar id).options.prose node).same
    store store' h h'
  rw [outcome, outcome, hbody]

/-- Reading texts comes to what they state, and changes nothing that it depends on. -/
theorem readTexts (h : Reads origin id store) (hreadable : origin.Readable)
    (texts : List String) : ∃ result read,
      (Session.readTexts id (.separate texts)).run store = (result, read) ∧
        result.toOption = texts.mapM (store.stated id) ∧ Reads origin id read ∧
          read.catalog = store.catalog := by
  have hattentive : Attentive (Reads origin id) _ := attentive hreadable
  have hmode : ∀ store, Reads origin id store →
      (store.catalog.grammar id).options.prose = (origin.grammar id).options.prose :=
    fun _ h => congrArg Options.prose h.options
  have hstates : store.stated id = RuleText.stated store (origin.grammar id).options.prose := by
    funext text
    rw [Store.stated, hmode store h]
  have hresult := RuleText.outcome_readTexts hattentive hmode h texts
  have hkeeps := (RuleText.firm_readTexts hattentive hmode texts).keeps store h
  have hcatalog := Session.readTexts_catalog (h.loadable hreadable).readable id (.separate texts)
  rw [← hstates, outcome] at hresult
  generalize (Session.readTexts id (.separate texts)).run store = run at hresult hkeeps hcatalog
  exact ⟨run.1, run.2, rfl, hresult, hkeeps, hcatalog⟩

/-- A batch is loaded by binding what its texts state, and fails if one of them states nothing. -/
theorem loadRules (h : Reads origin id store) (hreadable : origin.Readable) (texts : List String) :
    (texts.mapM (store.stated id) = none → ∃ failure after,
      (Loading.loadRules id texts).run store = (.error failure, after)) ∧
    ∀ productions, texts.mapM (store.stated id) = some productions →
      Production.Batch productions → ∃ rules after,
        (Loading.loadRules id texts).run store = (.ok rules, after) ∧ after.Interned ∧
          store.catalog.Binds id productions after.catalog ∧
            store.catalog.SpelledAs id productions after.catalog := by
  obtain ⟨result, read, hread, hresult, hreads, hcatalog⟩ := h.readTexts hreadable texts
  constructor
  · intro hnone
    rw [hnone] at hresult
    cases result with
    | ok productions => cases hresult
    | error failure =>
      refine ⟨failure, read, ?_⟩
      have hload := Session.run_loadTexts (h.loadable hreadable) id (.separate texts)
      rw [Session.loadTexts] at hload
      rw [hload, Edit.run_bind_error hread]
  · intro productions hsome hbatch
    rw [hsome] at hresult
    cases result with
    | error failure => cases hresult
    | ok productions =>
      cases hresult
      obtain ⟨hbinds, hspelled⟩ :=
        Edit.binds_bind hbatch hreads.interned (hreads.orderly.useful _ (Or.inr rfl)).2
      rw [hcatalog] at hbinds hspelled
      exact ⟨_, _, (Session.loadTexts_eq_ok (h.loadable hreadable)).2
          ⟨productions, read, hread, rfl⟩,
        Edit.lasting_bind id productions _ Interned.durable _ hreads.interned, hbinds, hspelled⟩

/-- A rule is created from a text by binding what the text states. -/
theorem createRule (h : Reads origin id store) (hreadable : origin.Readable) (text : String) :
    (store.stated id text = none → ∃ failure after,
      (Loading.createRule id text).run store = (.error failure, after)) ∧
    ∀ production, store.stated id text = some production → ∃ rule read,
      Reads origin id read ∧ read.catalog = store.catalog ∧
        (Loading.createRule id text).run store =
          (.ok rule, (Edit.bind id [production] read).2) := by
  obtain ⟨result, read, hread, hresult, hreads, hcatalog⟩ := h.readTexts hreadable [text]
  rw [mapM_option_cons] at hresult
  constructor
  · intro hnone
    rw [hnone] at hresult
    cases result with
    | ok productions => cases hresult
    | error failure =>
      exact ⟨failure, read, Loading.createRule_of_unread (h.loadable hreadable) hread⟩
  · intro production hsome
    rw [hsome] at hresult
    cases result with
    | error failure => cases hresult
    | ok productions =>
      cases hresult
      obtain ⟨rule, hcreate⟩ := Loading.createRule_of_read (h.loadable hreadable) hread
      exact ⟨rule, read, hreads, hcatalog, hcreate⟩

end Store.Reads

def Catalog.Unknown (id : GrammarId) (c : Catalog) (name : String) : Prop :=
  ∀ base ∈ (c.grammar id).bases, c.local? base name = none

def RuleText.Define (states : String → Option Production) (texts : List String)
    (kind : String → Prop) : Prop :=
  ∀ text ∈ texts, ∀ production, states text = some production → kind production.name

/-- No grammar is among its own bases, since these come before it. -/
theorem Sane.notMem_bases {held : Set Parser} {store : Store} (h : Sane held store)
    (id : GrammarId) : id ∉ (store.catalog.grammar id).bases := by
  suffices hlt : ∀ base ∈ (store.catalog.grammar id).bases, base.index < id.index from
    fun hmem => Nat.lt_irrefl _ (hlt id hmem)
  induction hplace : id.index using Nat.strong_induction_on generalizing id with
  | _ place ih =>
    subst hplace
    intro base hmem
    cases hbases : (store.catalog.grammar id).bases with
    | nil =>
      rw [hbases] at hmem
      cases hmem
    | cons first rest =>
      obtain ⟨hlt, hlineage⟩ := h.lineage id first (congrArg List.head? hbases)
      rw [hlineage] at hmem
      rcases List.mem_cons.1 hmem with rfl | hmem
      · exact hlt
      · exact (ih first.index hlt first rfl base hmem).trans hlt

theorem Catalog.Binds.unknown {id : GrammarId} {productions : List Production} {c c' : Catalog}
    (h : c.Binds id productions c') (hid : id ∉ (c.grammar id).bases) {name : String}
    (hname : c.Unknown id name) : c'.Unknown id name := by
  intro base hbase
  rw [h.bases] at hbase
  exact h.toDevelops.local?_eq_none (hname base hbase) fun heq => absurd (heq ▸ hbase) hid

theorem Edit.run_mapM_cons_ok {ε α β : Type} {load : α → ExceptT ε Edit β} {item : α}
    {rest : List α} {store between after : Store} {b : β} {bs : List β}
    (h : (load item).run store = (.ok b, between))
    (h' : (rest.mapM load).run between = (.ok bs, after)) :
    ((item :: rest).mapM load).run store = (.ok (b :: bs), after) := by
  rw [List.mapM_cons, run_bind_ok h, run_bind_ok h']
  rfl

/-- Rules are created from texts, one after the other, by binding what the texts state, and that
fails if one of them states nothing. -/
theorem Store.Reads.createAll {origin : Catalog} {id : GrammarId} (hlegible : origin.Legible)
    (texts : List String) {store : Store} (h : Reads origin id store)
    (hbatch : RuleText.Batch (store.stated id) texts)
    (hunknown : RuleText.Define (store.stated id) texts (store.catalog.Unknown id))
    (haside : RuleText.Define (store.stated id) texts (origin.Aside id)) :
    (texts.mapM (store.stated id) = none → ∃ failure after,
      (texts.mapM (Loading.createRule id)).run store = (.error failure, after)) ∧
    ∀ productions, texts.mapM (store.stated id) = some productions → ∃ rules after,
      (texts.mapM (Loading.createRule id)).run store = (.ok rules, after) ∧ after.Interned ∧
        store.catalog.Binds id productions after.catalog := by
  induction texts generalizing store with
  | nil =>
    refine ⟨nofun, fun productions hproductions => ?_⟩
    cases hproductions
    exact ⟨[], store, rfl, h.interned, .refl id _ _ store.catalog, nofun⟩
  | cons text rest ih =>
    obtain ⟨hnone, hsome⟩ := h.createRule hlegible.readable text
    rw [mapM_option_cons]
    cases hstated : store.stated id text with
    | none =>
      obtain ⟨failure, after, hcreate⟩ := hnone hstated
      refine ⟨fun _ => ⟨failure, after, ?_⟩, nofun⟩
      rw [List.mapM_cons, Edit.run_bind_error hcreate]
    | some production =>
      obtain ⟨rule, read, hread, hcatalog, hcreate⟩ := hsome production hstated
      have hplain := hbatch.plain text List.mem_cons_self production hstated
      have hbound := hread.bind hlegible hplain (haside text List.mem_cons_self production hstated)
      have hindex : id.index < read.catalog.grammars.size :=
        (hread.orderly.useful _ (Or.inr rfl)).2
      have hbinds : read.catalog.Binds id [production] _ := (Edit.binds_bind
        ⟨by simpa using hplain, List.pairwise_singleton _ _⟩ hread.interned hindex).1
      have hid := h.orderly.sane.notMem_bases id
      rw [hcatalog] at hbinds
      -- Binding the first production leaves what the other texts state as it was.
      have hstates := hbound.stated_eq h hlegible.readable
      have htail : ∀ kind, RuleText.Define (store.stated id) (text :: rest) kind →
          RuleText.Define (store.stated id) rest kind :=
        fun kind hkind other hother => hkind other (List.mem_cons_of_mem _ hother)
      have hrest := ih hbound
      rw [hstates] at hrest
      obtain ⟨hnone', hsome'⟩ := hrest hbatch.tail
        (fun other hother production' hproduction' =>
          hbinds.unknown hid (htail _ hunknown other hother production' hproduction'))
        (htail _ haside)
      rw [Option.bind_some]
      cases hrest : rest.mapM (store.stated id) with
      | none =>
        obtain ⟨failure, after, hcreates⟩ := hnone' hrest
        refine ⟨fun _ => ⟨failure, after, ?_⟩, nofun⟩
        rw [List.mapM_cons, Edit.run_bind_ok hcreate, Edit.run_bind_error hcreates]
      | some others =>
        refine ⟨nofun, fun productions hproductions => ?_⟩
        cases hproductions
        obtain ⟨rules, after, hcreates, hinterned, hbinds'⟩ := hsome' others hrest
        have hproductions : (text :: rest).mapM (store.stated id) =
            some (production :: others) := by
          rw [mapM_option_cons, hstated, hrest]
          rfl
        refine ⟨rule :: rules, after, Edit.run_mapM_cons_ok hcreate hcreates, hinterned,
          .cons (hbatch.productions hproductions) hid (fun production' hproduction' => ?_) hinterned
            hbinds hbinds'⟩
        obtain ⟨text', htext', hstated'⟩ := mem_of_mapM hrest hproduction'
        exact htail _ hunknown text' htext' production' hstated'

theorem Store.Interned.lowered {store : Store} (h : store.Interned) {id : GrammarId}
    {name : String} {rule : RuleId} {slot : Slot}
    (hrule : store.catalog.local? id name = some rule)
    (hslot : store.catalog.slot? rule = some slot) :
    lowerText slot.name = lowerText name := by
  obtain ⟨-, slot', hslot', hname⟩ := (Catalog.Interned.local?_eq_some_iff h).1 hrule
  cases hslot.symm.trans hslot'
  exact hname

theorem Session.Reached.orderly_of_holds {session : Session} (h : session.Reached) {id : GrammarId}
    (hid : session.Holds (.grammar id)) :
    Bench.Orderly ⟨session.store, {.grammar .abnf, .grammar id}⟩ := by
  have hheld : ({.grammar .abnf, .grammar id} : Set Handle) ⊆ session.bench.held :=
    Set.insert_subset .abnf (Set.singleton_subset_iff.2 hid)
  exact (Bench.Steps.keep session.bench hheld).orderly h.orderly

theorem Session.Reached.reads {session : Session} (h : session.Reached) {id : GrammarId}
    (hid : session.Holds (.grammar id)) (hanew : session.store.ReadsAnew) :
    session.store.Reads session.store.catalog id where
  orderly := h.orderly_of_holds hid
  interned := h.interned
  found _ _ _ hrule := hrule
  same := ⟨fun _ => rfl, fun _ _ => rfl, fun _ _ _ => rfl⟩
  sound := hanew
  options := rfl

/-- Two loads fail both, or leave the same rules. -/
def Loading.EndAlike (spell : String → String) {α β : Type} (load : Loading α) (load' : Loading β)
    (store : Store) : Prop :=
  (∃ failure failure' after after', load.run store = (.error failure, after) ∧
    load'.run store = (.error failure', after')) ∨
  ∃ a b after after', load.run store = (.ok a, after) ∧ load'.run store = (.ok b, after') ∧
    after.SameRules spell after'

/-- In every session in which no cache is stale that rule text is read through, a batch of texts
that extend no rule and define different names fails in all orders or leaves the same rules in
all. If no base of the grammar has a rule of a name that a text defines, and no text defines a
rule that rule text is read with, rules are created from the texts one after the other, in any
order, exactly where the batch can be loaded, and that leaves rules with the same matches up to
the case of names. -/
theorem Session.Reached.order_irrelevant {session : Session} (h : session.Reached) {id : GrammarId}
    (hid : session.Holds (.grammar id)) (hanew : session.store.ReadsAnew)
    {texts texts' : List String} (hbatch : RuleText.Batch (session.store.stated id) texts)
    (hperm : texts.Perm texts') :
    Loading.EndAlike (fun name => name) (Loading.loadRules id texts) (Loading.loadRules id texts')
      session.store ∧
    (RuleText.Define (session.store.stated id) texts (session.store.catalog.Unknown id) →
      RuleText.Define (session.store.stated id) texts (session.store.catalog.Aside id) →
        Loading.EndAlike lowerText (Loading.loadRules id texts)
          (texts'.mapM (Loading.createRule id)) session.store) := by
  have hreads := h.reads hid hanew
  have hindex : id.index < session.store.catalog.grammars.size := (h.orderly.useful _ hid).2
  have hcomplete := h.orderly.complete
  have hload := hreads.loadRules h.legible.readable
  cases hstates : texts.mapM (session.store.stated id) with
  | none =>
    have hstates' : texts'.mapM (session.store.stated id) = none := by
      cases hsome : texts'.mapM (session.store.stated id) with
      | none => rfl
      | some productions =>
        obtain ⟨_, hstates', -⟩ := mapM_perm _ hperm.symm hsome
        cases hstates.symm.trans hstates'
    obtain ⟨failure, after, hfail⟩ := (hload texts).1 hstates
    obtain ⟨failure', after', hfail'⟩ := (hload texts').1 hstates'
    refine ⟨Or.inl ⟨failure, failure', after, after', hfail, hfail'⟩, fun hunknown haside => ?_⟩
    obtain ⟨failure', after', hfail'⟩ := (Store.Reads.createAll h.legible texts' hreads
      (hbatch.perm hperm) (fun text htext => hunknown text (hperm.mem_iff.2 htext))
      fun text htext => haside text (hperm.mem_iff.2 htext)).1 hstates'
    exact Or.inl ⟨failure, failure', after, after', hfail, hfail'⟩
  | some productions =>
    obtain ⟨productions', hstates', hproductions⟩ := mapM_perm _ hperm hstates
    have hdistinct := hbatch.productions hstates
    obtain ⟨rules, after, hloaded, hinterned, hbinds, hspelled⟩ :=
      (hload texts).2 productions hstates hdistinct
    have hsiblings {after' : Store} (hinterned' : after'.Interned)
        (hbinds' : session.store.catalog.Binds id productions' after'.catalog) :
        Catalog.Siblings id productions session.store.catalog after.catalog after'.catalog :=
      ⟨h.interned, hbinds, hbinds'.of_mem fun _ => hproductions.mem_iff.symm, hinterned, hinterned'⟩
    constructor
    · obtain ⟨rules', after', hloaded', hinterned', hbinds', hspelled'⟩ :=
        (hload texts').2 productions' hstates' (hdistinct.perm hproductions)
      refine Or.inr ⟨rules, rules', after, after', hloaded, hloaded',
        (hsiblings hinterned' hbinds').sameRules hcomplete ?_⟩
      intro production hmem hnone rule rule' slot slot' hrule hrule' hslot hslot'
      exact (hspelled production hmem hnone rule slot hrule hslot).trans
        (hspelled' production (hproductions.mem_iff.1 hmem) hnone rule' slot' hrule' hslot').symm
    · intro hunknown haside
      obtain ⟨rules', after', hcreated, hinterned', hbinds'⟩ :=
        (Store.Reads.createAll h.legible texts' hreads (hbatch.perm hperm)
          (fun text htext => hunknown text (hperm.mem_iff.2 htext))
          fun text htext => haside text (hperm.mem_iff.2 htext)).2 productions' hstates'
      refine Or.inr ⟨rules, rules', after, after', hloaded, hcreated,
        (hsiblings hinterned' hbinds').sameRules hcomplete ?_⟩
      intro production _ _ rule rule' slot slot' hrule hrule' hslot hslot'
      exact (Store.Interned.lowered hinterned hrule hslot).trans
        (Store.Interned.lowered hinterned' hrule' hslot').symm

/-- Where the standard grammars are as they were assembled, a text states the rule that it
spells. -/
theorem Store.Reads.stated_of_spelled {origin : Catalog} {id : GrammarId} {held : Set Parser}
    {store : Store} (h : Reads origin id store) (hreadable : origin.Readable)
    (hfaithful : store.Faithful held) {rule : Notation.Rule} {text : String}
    (hspelled : rule.Spelled (asLines text.toList)) {production : Production}
    (hproduction : rule.production (store.catalog.grammar id).options.prose = .ok production) :
    store.stated id text = some production := by
  obtain ⟨nodes, hyields⟩ := Notation.Rule.accepts hspelled
  obtain ⟨node, hyields, hgives⟩ := RuleText.gives_parseRule hyields
  obtain ⟨parsed, hparse, hparsed, hfaithful'⟩ := hgives store hfaithful
  obtain ⟨rule', node', hnode, -, hspelled', hreads⟩ := RuleText.rule_of_yields hyields
  cases hnode
  obtain ⟨rfl, -⟩ := hspelled.unique hspelled' .nil .nil rfl
  obtain ⟨read, -, hnodes⟩ := RuleText.readNodes_of_readsAs (.cons hreads .nil) id hfaithful'
  have hproductions : [rule].mapM (·.production (parsed.catalog.grammar id).options.prose) =
      .ok [production] := by
    rw [hparsed.catalog, List.mapM_cons, hproduction]
    rfl
  rw [hproductions] at hnodes
  have hrun : (Session.readTexts id (.separate [text])).run store = (.ok [production], read) := by
    rw [Loading.run_readTexts_singleton, Edit.run_bind_ok hparse, hnodes]
    rfl
  obtain ⟨result, read', hread, hresult, -⟩ := h.readTexts hreadable [text]
  cases hread.symm.trans hrun
  rw [mapM_option_cons] at hresult
  cases hstated : store.stated id text with
  | none =>
    rw [hstated] at hresult
    cases hresult
  | some production' =>
    rw [hstated] at hresult
    cases hresult
    rfl

theorem Store.Fresh.readsAnew {store : Store} (h : store.Fresh) : store.ReadsAnew := by
  intro node hnode id hid
  rcases Catalog.mem_nodes_reading hnode with ⟨hnone, -⟩ |
    ⟨rule, ⟨ref, -, hresolve⟩, slot, definition, hbound, hnode⟩
  · rw [hnone] at hid
    cases hid
  · obtain rfl := Catalog.eq_of_resolve hresolve
    exact h node ⟨_, slot, definition, Catalog.alive_of_resolve hresolve, hbound, hnode⟩ id hid

def Notation.lettered (name : List Char) : Notation.Rule :=
  ⟨name, false, .last (.last (.once (.quoted .plain ['x'])))⟩

theorem Notation.spelled_lettered {name : List Char} (hname : IsName name) :
    (lettered name).Spelled (name ++ ['=', '"', 'x', '"', '\r', '\n']) := by
  have hbody : (lettered name).body.Spelled ['"', 'x', '"'] := ⟨by decide, [], rfl, rfl⟩
  exact spelled_tight false hname hbody (by simp)

theorem Session.start_stated {id : GrammarId} (hid : start.Holds (.grammar id))
    {rule : Notation.Rule} {text : String} (hspelled : rule.Spelled (asLines text.toList))
    {production : Production}
    (hproduction : rule.production (start.store.catalog.grammar id).options.prose =
      .ok production) :
    start.store.stated id text = some production :=
  (Reached.start.reads hid fresh_start.readsAnew).stated_of_spelled Reached.start.legible.readable
    (Desk.Untouched.standard.faithful) hspelled hproduction

theorem Session.Reached.order_irrelevant_letters :
    let texts := ["a=DIGIT", "b=\"x\""]
    let states := Session.start.store.stated .core
    Session.start.Reached ∧ Session.start.Holds (.grammar .core) ∧
      Session.start.store.ReadsAnew ∧ RuleText.Batch states texts ∧
      texts.mapM states = some
        [⟨"a", false, .name "DIGIT"⟩, ⟨"b", false, .literal ⟨.text "x", false⟩⟩] ∧
      RuleText.Define states texts (Session.start.store.catalog.Unknown .core) ∧
      RuleText.Define states texts (Session.start.store.catalog.Aside .core) ∧
      Loading.EndAlike (fun name => name) (Loading.loadRules .core texts)
        (Loading.loadRules .core texts.reverse) Session.start.store ∧
      Loading.EndAlike lowerText (Loading.loadRules .core texts)
        (texts.reverse.mapM (Loading.createRule .core)) Session.start.store := by
  have hfirst : Session.start.store.stated .core "a=DIGIT" = some ⟨"a", false, .name "DIGIT"⟩ :=
    Session.start_stated .core Notation.spelled_digit rfl
  have hsecond : Session.start.store.stated .core "b=\"x\"" =
      some ⟨"b", false, .literal ⟨.text "x", false⟩⟩ :=
    Session.start_stated .core (by
      have hlines : asLines "b=\"x\"".toList = ['b'] ++ ['=', '"', 'x', '"', '\r', '\n'] := by
        decide +kernel
      exact hlines ▸ Notation.spelled_lettered (by decide)) rfl
  have hbatch := RuleText.Batch.pair hfirst hsecond rfl rfl (by decide +kernel)
  have hnew : (Session.start.store.catalog.grammar .core).bases = [] ∧
      Session.start.store.catalog.local? .core "a" = none ∧
        Session.start.store.catalog.local? .core "b" = none := by
    decide +kernel
  have hunknown : RuleText.Define (Session.start.store.stated .core) ["a=DIGIT", "b=\"x\""]
      (Session.start.store.catalog.Unknown .core) := fun _ _ _ _ base hbase => by
    rw [hnew.1] at hbase
    cases hbase
  have haside : RuleText.Define (Session.start.store.stated .core) ["a=DIGIT", "b=\"x\""]
      (Session.start.store.catalog.Aside .core) := by
    intro text htext production hstated rule hrule
    rcases List.mem_pair.1 htext with rfl | rfl
    · cases hfirst.symm.trans hstated
      cases hnew.2.1.symm.trans hrule
    · cases hsecond.symm.trans hstated
      cases hnew.2.2.symm.trans hrule
  have hanew := Session.fresh_start.readsAnew
  obtain ⟨hload, hcreate⟩ := Session.Reached.start.order_irrelevant .core hanew hbatch
    (List.reverse_perm _).symm
  exact ⟨.start, .core, hanew, hbatch, RuleText.Batch.mapM_pair hfirst hsecond, hunknown, haside,
    hload, hcreate hunknown haside⟩

/-- A rule whose definition is a terminal that does not match fails. -/
theorem accepted_parse_literal {catalog : Catalog} {rule : RuleId} {slot : Slot}
    {terminal : Literal} (halive : catalog.alive rule.grammar = true)
    (hbound : catalog.bound rule = .ok (slot, .literal terminal)) {source : Source} {start : Nat}
    (hfails : terminal.matchAt source start = none) (caches : Caches) :
    accepted ((catalog.parse rule source start : Run _).run caches).1 = none := by
  obtain ⟨depth, hdepth⟩ : ∃ depth, catalog.depthBound source = depth + 1 := ⟨_, rfl⟩
  have hresolve : catalog.resolve (catalog.refer rule) = .ok rule := if_pos halive
  have hmatches : ∃ failure, (catalog.ruleMatches rule source start : Run Attempt).run caches =
      (.ok (.error failure), caches) := by
    rw [Catalog.ruleMatches, hdepth, Catalog.call, Catalog.callOnce, hresolve,
      Run.run_bind_ok (run_ofExcept_ok rule caches), hbound,
      Run.run_bind_ok (run_ofExcept_ok _ caches)]
    dsimp only
    rw [Parser.enumerate, hfails]
    exact ⟨_, rfl⟩
  obtain ⟨failure, hmatches⟩ := hmatches
  rw [Catalog.parse, Run.run_bind_ok hmatches]
  rfl

/-- Once the rule for a rule's text is a letter, no text is read that does not begin with it. -/
theorem Loading.createRule_of_lettered {id : GrammarId} {store : Store} {rule : RuleId}
    {slot : Slot} {terminal : Literal} (hlocal : store.catalog.local? .abnf "rule" = some rule)
    (halive : store.catalog.alive rule.grammar = true)
    (hbound : store.catalog.bound rule = .ok (slot, .literal terminal)) {text : String}
    (hfails : terminal.matchAt (.ofString (terminated text)) 0 = none) :
    ((createRule id text).run store).1.toOption = none := by
  have hparse : ((RuleText.parseRule text).run store).1.toOption = none := by
    rw [RuleText.parseRule, Edit.toOption_run_bind, RuleText.toOption_parseText,
      Edit.rule_of_local hlocal]
    exact congrArg (Option.bind · _) (accepted_parse_literal halive hbound hfails store.caches)
  rw [createRule, Edit.toOption_run_bind, hparse]
  rfl

/-- A rule that rule text is read with can be defined anew by a text: where that is done first,
the other texts are not read any more. -/
theorem order_seen_by_reading : ¬ ∀ (session : Session) (id : GrammarId)
    (texts texts' : List String), session.Reached → session.Holds (.grammar id) →
      RuleText.Batch (session.store.stated id) texts → texts.Perm texts' →
        Loading.EndAlike (fun name => name) (Loading.loadRules id texts)
          (Loading.loadRules id texts') session.store ∧
        (RuleText.Define (session.store.stated id) texts (session.store.catalog.Unknown id) →
          Loading.EndAlike lowerText (Loading.loadRules id texts)
            (texts'.mapM (Loading.createRule id)) session.store) := by
  intro hall
  have hfirst : Session.start.store.stated .abnf "rule=\"x\"" =
      some ⟨"rule", false, .literal ⟨.text "x", false⟩⟩ :=
    Session.start_stated .abnf (by
      have hlines : asLines "rule=\"x\"".toList =
          ['r', 'u', 'l', 'e'] ++ ['=', '"', 'x', '"', '\r', '\n'] := by decide +kernel
      exact hlines ▸ Notation.spelled_lettered (by decide)) rfl
  have hsecond : Session.start.store.stated .abnf "b=\"x\"" =
      some ⟨"b", false, .literal ⟨.text "x", false⟩⟩ :=
    Session.start_stated .abnf (by
      have hlines : asLines "b=\"x\"".toList = ['b'] ++ ['=', '"', 'x', '"', '\r', '\n'] := by
        decide +kernel
      exact hlines ▸ Notation.spelled_lettered (by decide)) rfl
  have hbatch := RuleText.Batch.pair hfirst hsecond rfl rfl (by decide +kernel)
  have hnew : (Session.start.store.catalog.grammar .abnf).bases = [.core] ∧
      Session.start.store.catalog.local? .core "rule" = none ∧
        Session.start.store.catalog.local? .core "b" = none ∧
      (Literal.matchAt ⟨.text "x", false⟩ (.ofString (terminated "b=\"x\"")) 0) = none := by
    decide +kernel
  have hunknown : RuleText.Define (Session.start.store.stated .abnf) ["rule=\"x\"", "b=\"x\""]
      (Session.start.store.catalog.Unknown .abnf) := by
    intro text htext production hstated base hbase
    rw [hnew.1, List.mem_singleton] at hbase
    subst hbase
    rcases List.mem_pair.1 htext with rfl | rfl
    · cases hfirst.symm.trans hstated
      exact hnew.2.1
    · cases hsecond.symm.trans hstated
      exact hnew.2.2.1
  have hreads := Session.Reached.start.reads .abnf Session.fresh_start.readsAnew
  have hreadable := Session.Reached.start.legible.readable
  -- the batch is loaded
  obtain ⟨rules, loaded, hload, -⟩ := (hreads.loadRules hreadable _).2 _
    (RuleText.Batch.mapM_pair hfirst hsecond)
    (hbatch.productions (RuleText.Batch.mapM_pair hfirst hsecond))
  -- the first text is read, and then no other
  obtain ⟨rule, read, hread, hcatalog, hcreate⟩ :=
    (hreads.createRule hreadable "rule=\"x\"").2 _ hfirst
  have hindex : GrammarId.abnf.index < read.catalog.grammars.size :=
    (hread.orderly.useful _ (Or.inl rfl)).2
  have hsingle : Production.Batch [⟨"rule", false, .literal ⟨.text "x", false⟩⟩] :=
    ⟨by simp, List.pairwise_singleton _ _⟩
  obtain ⟨hbinds, -⟩ := Edit.binds_bind hsingle hread.interned hindex
  have halive : read.catalog.alive .abnf = true := (hread.orderly.useful _ (Or.inl rfl)).1
  generalize (Edit.bind .abnf [_] read).2 = between at hcreate hbinds
  obtain ⟨entry, slot, parser, hlocal, hslot, hdefinition, rfl⟩ :=
    hbinds.built _ List.mem_cons_self
  have hgrammar : entry.grammar = .abnf := by
    obtain ⟨place, -, rfl⟩ := Option.map_eq_some_iff.1 hlocal
    rfl
  have hunread : ((Loading.createRule .abnf "b=\"x\"").run between).1.toOption = none :=
    Loading.createRule_of_lettered hlocal (by rwa [hgrammar, Catalog.alive, hbinds.lost])
      (Catalog.bound_eq_ok_iff.2 ⟨hslot, hdefinition⟩) hnew.2.2.2
  rcases (hall _ .abnf _ _ .start .abnf hbatch (.refl _)).2 hunknown with
    ⟨failure, -, after, -, hfail, -⟩ | ⟨-, created, -, after, -, hcreated, -⟩
  · cases hload.symm.trans hfail
  · rw [List.mapM_cons, Edit.run_bind_ok hcreate, List.mapM_cons] at hcreated
    obtain ⟨bs, _, hrest, -⟩ := Edit.run_bind_eq_ok.1 hcreated
    obtain ⟨b, _, hlast, -⟩ := Edit.run_bind_eq_ok.1 hrest
    rw [hlast] at hunread
    cases hunread

end Metasyntax
