import Metasyntax.Proofs.Compilation
import Metasyntax.Proofs.Foundation
import Metasyntax.Proofs.Sessions

/-!
# Stores with the standard grammars in them

As long as a program leaves some grammars alone, changing rules of others only and setting the
mode of no choice of these, they stay as they were, and what is remembered of them is right. Where
the standard grammars are left alone from the start, rule text is read with the language that the
standard rules yield, whatever the caches remember.
-/

set_option autoImplicit false

namespace Metasyntax

section
variable {home home' : GrammarId} {foreign : Set GrammarId} {origin : Catalog} {held : Set Parser}
  {store : Store}

theorem Loyal.rehome (h : Loyal home foreign origin held store) (hliving : home' ∈ store.living) :
    Loyal home' foreign origin held store :=
  ⟨h.sane, hliving, h.agrees, h.enclosed, h.sound⟩

theorem Loyal.change (h : Loyal home foreign origin held store) (hhome : home ∈ foreign)
    {held' : Set Parser} {store' : Store} (hsane : Sane held' store')
    (hagrees : Catalog.Agrees foreign store.catalog store'.catalog)
    (hcaches : store'.caches = store.caches) : Loyal home foreign origin held' store' where
  sane := hsane
  living := hagrees.alive home hhome h.living
  agrees := h.agrees.trans hagrees
  enclosed := hagrees.enclosed h.enclosed
  sound := hcaches ▸ h.sound.agrees h.enclosed hagrees

end

namespace Desk

/-- A program goes on from a desk, and leaves some grammars alone. -/
inductive Spares (grammars : Set GrammarId) (start : Desk) : Desk → Prop where
  | refl : Spares grammars start start
  | uses {desk desk' : Desk} : Spares grammars start desk → desk.Uses desk' →
    Spares grammars start desk'
  | changes {desk desk' : Desk} {id : GrammarId} : Spares grammars start desk →
    id ∈ desk.store.living → id ∉ grammars → desk.Changes id grammars desk' →
    Spares grammars start desk'
  | newGrammar {desk : Desk} (name : String) {base : Option GrammarId} (options : Options) :
    Spares grammars start desk → (∀ id, base = some id → id ∈ desk.store.living ∧
      id.index < desk.store.catalog.grammars.size) →
    Spares grammars start (desk.edit (Edit.newGrammar name base options))
  | collect {desk : Desk} {held : Set Parser} {roots : Roots} : Spares grammars start desk →
    held ⊆ desk.held → (∀ parser ∈ held, parser ∈ roots.parsers) →
    (∀ id ∈ grammars, id ∈ roots.grammars) →
    Spares grammars start ⟨desk.store.collect roots, held⟩

/-- Grammars that are left alone stay as they were, and what is remembered of them is right. -/
theorem Spares.loyal {grammars : Set GrammarId} {origin : Catalog} {home : GrammarId}
    (hhome : home ∈ grammars) {start desk : Desk} (h : Spares grammars start desk)
    (hstart : Loyal home grammars origin start.held start.store) :
    Loyal home grammars origin desk.held desk.store := by
  induction h with
  | refl => exact hstart
  | @uses desk desk' _ huses ih =>
    have hcalm : Calm (Loyal home grammars origin desk.held) := calm_loyal
    exact (huses.calm ih.sane hcalm ih).hold (huses.sane ih.sane)
  | @changes desk desk' id _ hid hspared hchanges ih =>
    rw [hchanges.held_eq]
    have hafter : Loyal id grammars origin desk.held desk'.store := by
      rcases hchanges.turns hspared calm_loyal recoverable_loyal (fun _ h => h) (ih.rehome hid)
        with h | h
      · exact h
      · exact h.toLoyal
    exact hafter.rehome (hafter.agrees.alive _ hhome (ih.agrees.lost _ ih.living))
  | newGrammar name options _ hbase ih =>
    exact ih.change hhome (ih.sane.newGrammar name hbase options) (agrees_newGrammar _ _ _ _ _) rfl
  | collect _ hheld hroots hgrammars ih =>
    exact ih.change hhome (ih.sane.collect hheld hroots) (Store.agrees_collect hgrammars) rfl

end Desk

namespace Desk

/-- Whatever a program may come to that leaves the standard grammars alone. -/
inductive Untouched : Desk → Prop where
  | standard : Untouched ⟨.standard, ∅⟩
  | uses {desk desk' : Desk} : Untouched desk → desk.Uses desk' → Untouched desk'
  | changes {desk desk' : Desk} {id : GrammarId} : Untouched desk → id ∈ desk.store.living →
    id ∉ Standard.grammars → desk.Changes id Standard.grammars desk' → Untouched desk'
  | newGrammar {desk : Desk} (name : String) {base : Option GrammarId} (options : Options) :
    Untouched desk → (∀ id, base = some id → id ∈ desk.store.living ∧
      id.index < desk.store.catalog.grammars.size) →
    Untouched (desk.edit (Edit.newGrammar name base options))
  | collect {desk : Desk} {held : Set Parser} {roots : Roots} : Untouched desk →
    held ⊆ desk.held → (∀ parser ∈ held, parser ∈ roots.parsers) →
    (∀ id ∈ Standard.grammars, id ∈ roots.grammars) →
    Untouched ⟨desk.store.collect roots, held⟩

end Desk

def Store.drafting : Store := (Edit.newGrammar "g" (some .core) .standard .standard).2

theorem Store.drafting_checked : Store.drafting.catalog.alive ⟨2⟩ = true ∧
    2 < Store.drafting.catalog.grammars.size ∧
      (Store.drafting.catalog.grammar ⟨2⟩).options.prose = .reject := by
  decide +kernel

theorem Desk.untouched_drafting : Desk.Untouched ⟨.drafting, ∅⟩ := by
  have hcore : Store.standard.catalog.alive .core = true ∧
      GrammarId.core.index < Store.standard.catalog.grammars.size := by decide +kernel
  exact @Untouched.newGrammar ⟨.standard, ∅⟩ "g" (some .core) .standard .standard
    fun id hid => by cases hid; exact hcore

def Store.Faithful (held : Set Parser) (store : Store) : Prop :=
  Loyal .abnf Standard.grammars Standard.catalog held store

namespace Store

variable {held : Set Parser} {store : Store}

theorem Faithful.of_agrees (hsane : Sane held store)
    (hagrees : Catalog.Agrees Standard.grammars Standard.catalog store.catalog)
    (hsound : Sound store.catalog (store.catalog.within Standard.grammars).nodes store.caches) :
    store.Faithful held where
  sane := hsane
  living := hagrees.alive _ (Or.inr rfl) (Standard.alive _)
  agrees := hagrees
  enclosed := hagrees.enclosed Standard.hosts.enclosed
  sound := hsound

end Store

theorem faithful_standard : Store.standard.Faithful ∅ := by
  obtain ⟨held, hreached⟩ := Desk.exists_reached_standard
  refine .of_agrees (hreached.sane.forget (Set.empty_subset held)) ?_ ?_
  · rw [Standard.catalog]
    exact .refl _ _
  · exact .of_all_isEmpty Standard.checked.2.2.2.2

theorem Desk.Untouched.spares {desk : Desk} (h : desk.Untouched) :
    Spares Standard.grammars ⟨.standard, ∅⟩ desk := by
  induction h with
  | standard => exact .refl
  | uses _ huses ih => exact ih.uses huses
  | changes _ hliving hid hchanges ih => exact ih.changes hliving hid hchanges
  | newGrammar name options _ hbase ih => exact ih.newGrammar name options hbase
  | collect _ hheld hparsers hgrammars ih => exact ih.collect hheld hparsers hgrammars

theorem Desk.Untouched.faithful {desk : Desk} (h : desk.Untouched) :
    desk.store.Faithful desk.held :=
  h.spares.loyal (Or.inr rfl) faithful_standard

theorem Desk.Untouched.revocable {P : Store → Prop} (hP : Revocable P) (hempty : P .empty)
    {desk : Desk} (h : desk.Untouched) :
    P desk.store := by
  induction h with
  | standard =>
    obtain ⟨held, hreached⟩ := exists_reached_standard
    have hstandard : P (Desk.mk .standard held).store := hreached.revocable hP hempty
    exact hstandard
  | uses _ huses ih => exact huses.durable hP.toDurable ih
  | changes _ _ _ hchanges ih => exact hchanges.revocable hP ih
  | newGrammar name options _ _ ih => exact hP.newGrammar name _ options _ ih
  | collect _ _ _ _ ih => exact hP.collect _ ih

def Edit.Gives (held : Set Parser) {α : Type} (edit : Edit α) (a : α) : Prop :=
  ∀ store : Store, store.Faithful held →
    ∃ store', edit store = (a, store') ∧ store.Alike store' ∧ store'.Faithful held

namespace Edit.Gives

variable {held : Set Parser} {α β : Type}

theorem pure (a : α) : Gives held (Pure.pure a : Edit α) a :=
  fun store h => ⟨store, rfl, .refl store, h⟩

theorem bind {edit : Edit α} {a : α} {next : α → Edit β} {b : β} (h : Gives held edit a)
    (hnext : Gives held (next a) b) : Gives held (edit >>= next) b := by
  intro store hstore
  obtain ⟨store', hedit, halike, hstore'⟩ := h store hstore
  obtain ⟨store'', hnext, halike', hstore''⟩ := hnext store' hstore'
  refine ⟨store'', ?_, halike.trans halike', hstore''⟩
  rw [bind_apply, hedit]
  exact hnext

variable {ε ε' : Type}

theorem andThen {edit : ExceptT ε Edit α} {a : α} {next : α → ExceptT ε Edit β} {b : Except ε β}
    (h : Gives held edit.run (.ok a)) (hnext : Gives held (next a).run b) :
    Gives held (edit >>= next).run b := by
  intro store hstore
  obtain ⟨store', hedit, halike, hstore'⟩ := h store hstore
  obtain ⟨store'', hnext, halike', hstore''⟩ := hnext store' hstore'
  exact ⟨store'', (Edit.run_bind_ok hedit).trans hnext, halike.trans halike', hstore''⟩

theorem andThrow {edit : ExceptT ε Edit α} {error : ε} {next : α → ExceptT ε Edit β}
    (h : Gives held edit.run (.error error)) : Gives held (edit >>= next).run (.error error) := by
  intro store hstore
  obtain ⟨store', hedit, halike, hstore'⟩ := h store hstore
  exact ⟨store', Edit.run_bind_error hedit, halike, hstore'⟩

theorem lift {edit : Edit α} {a : α} (h : Gives held edit a) :
    Gives held (liftM edit : ExceptT ε Edit α).run (.ok a) := by
  intro store hstore
  obtain ⟨store', hedit, halike, hstore'⟩ := h store hstore
  refine ⟨store', ?_, halike, hstore'⟩
  change ((.ok (edit store).1 : Except ε α), (edit store).2) = _
  rw [hedit]

theorem ofExcept (result : Except ε α) : Gives held (liftM result : ExceptT ε Edit α).run result :=
  fun store h => ⟨store, rfl, .refl store, h⟩

theorem done (a : α) : Gives held (Pure.pure a : ExceptT ε Edit α).run (.ok a) :=
  fun store h => ⟨store, rfl, .refl store, h⟩

theorem throw (error : ε) : Gives held (throwThe ε error : ExceptT ε Edit α).run (.error error) :=
  fun store h => ⟨store, rfl, .refl store, h⟩

theorem tolerant :
    Tolerant fun {α} (load : ExceptT ε Edit α) => ∃ result, Gives held load.run result where
  done a := ⟨_, .done a⟩
  andThen := by
    rintro α β first next ⟨error | a, hfirst⟩ hnext
    · exact ⟨_, hfirst.andThrow⟩
    · obtain ⟨result, hresult⟩ := hnext a
      exact ⟨result, hfirst.andThen hresult⟩
  throw error := ⟨_, .throw error⟩

end Edit.Gives

namespace Standard

theorem exists_entry {name : String} (hname : name ∈ RuleText.entries) : ∃ rule, IsRule rule ∧
    catalog.local? .abnf name = some rule ∧ catalog.nameOf rule = name := by
  have hentry := List.all_eq_true.1 checked.2.1 name hname
  rw [decide_eq_true_eq, Option.map_eq_some_iff] at hentry
  obtain ⟨rule, hrule, hnameOf⟩ := hentry
  obtain ⟨place, -, rfl⟩ := Option.map_eq_some_iff.1 hrule
  have hslot : (catalog.slot? ⟨.abnf, place⟩).isSome = true := by
    rw [Option.isSome_iff_ne_none]
    intro hslot
    rw [Catalog.nameOf, hslot] at hnameOf
    subst hnameOf
    revert hname
    decide
  obtain ⟨slot, hslot⟩ := Option.isSome_iff_exists.1 hslot
  have hmem : (⟨.abnf, place⟩ : RuleId) ∈ catalog.rulesOf .abnf :=
    List.mem_map.2 ⟨place, List.mem_range.2 (Array.getElem?_eq_some_iff.1 hslot).1, rfl⟩
  obtain ⟨_, _, _, hbound, -⟩ := Catalog.bound_of_conforms
    (List.all_eq_true.1 checked.1 _ (List.mem_append_right _ hmem))
  exact ⟨_, Catalog.has_of_bound (Or.inr (Set.mem_singleton _)) hbound, hrule, hnameOf⟩

end Standard

section
variable {held : Set Parser} {store : Store}

theorem Store.Faithful.rule_eq (h : store.Faithful held) {name : String} {rule : RuleId}
    (hrule : Standard.catalog.local? .abnf name = some rule) :
    Edit.rule .abnf name store = (rule, store) :=
  Edit.rule_of_local (h.agrees.found _ (Or.inr rfl) name rule hrule)

theorem Store.Faithful.loadable (h : store.Faithful held) : store.Loadable where
  furnished := h.sane.furnished
  readable name hname := by
    obtain ⟨rule, -, hrule, -⟩ := Standard.exists_entry hname
    exact ⟨rule, h.agrees.found _ (Or.inr rfl) _ rule hrule⟩

theorem Store.Faithful.alike_parsing (h : store.Faithful held) {α : Type} {run : Catalog → Run α}
    (hrun : ∀ catalog, Respects catalog (run catalog)) :
    store.Alike (Edit.parsing run store).2 ∧ (Edit.parsing run store).2.Faithful held := by
  refine ⟨⟨rfl, rfl, ?_⟩, calm_loyal.parsing hrun store h⟩
  exact (hrun store.catalog _ h.enclosed.closed (h.sane.apart_within _ _)
    (h.sane.apart_definition _) _ store.caches ⟨h.sound, rfl⟩).1.2

theorem Store.Faithful.gives_of_agree (h : store.Faithful held) {α : Type} {run : Catalog → Run α}
    (hrun : ∀ catalog, Respects catalog (run catalog)) {a : α}
    (hagree : Agree (Edit.parsing run store).1 (.ok a)) :
    ∃ store', Edit.parsing run store = (.ok a, store') ∧ store.Alike store' ∧
      store'.Faithful held := by
  obtain ⟨halike, hfaithful⟩ := h.alike_parsing hrun
  rcases hagree with heq | ⟨-, _, -, heq⟩
  · exact ⟨_, Prod.ext heq rfl, halike, hfaithful⟩
  · cases heq

variable {rule : RuleId}

/-- What a standard rule matches without caches where everything starts, it matches without
caches in any store with the standard grammars in it. -/
theorem Store.Faithful.exists_ruleMatches (h : store.Faithful held) (hrule : Standard.IsRule rule)
    (source : Source) : ∃ attempt,
      Standard.catalog.ruleMatches rule source 0 = (.ok attempt : Except GrammarError _) ∧
      store.catalog.ruleMatches rule source 0 = (.ok attempt : Except GrammarError _) ∧
      store.catalog.refer rule = Standard.catalog.refer rule ∧
      attempt.Reports Standard.rules (Standard.catalog.nameOf rule) source.text.toList 0 := by
  obtain ⟨-, slot, definition, hbound⟩ := Catalog.has_iff.1 hrule
  have hslot := (Catalog.exists_slot_of_bound hbound).1
  obtain ⟨attempt, hattempt, hreports⟩ :=
    Standard.hosts.ruleMatches_reports Standard.ranked hrule source (Source.rest_zero source)
  refine ⟨attempt, hattempt, Catalog.ruleMatches_of_completes Standard.hosts.enclosed
    h.agrees.completes hrule.1 hslot hattempt, ?_, hreports⟩
  rw [Catalog.refer, Catalog.refer, h.agrees.nameOf_eq hrule.1 hslot]

theorem Store.Faithful.agreement (h : store.Faithful held) (hrule : Standard.IsRule rule)
    (source : Source) :
    (agreement (Sound store.catalog (store.catalog.within Standard.grammars).nodes)).rel
      (fun _ => True) (store.catalog.ruleMatches rule source 0)
      (store.catalog.ruleMatches rule source 0) :=
  ruleMatches_agrees h.enclosed.closed (h.sane.apart_within _ _) hrule.1 source 0

namespace Standard

theorem gives_parse (hrule : IsRule rule) (source : Source) :
    Edit.Gives held (Edit.parsing (·.parse rule source 0)) (catalog.parse rule source 0) := by
  intro store hstore
  obtain ⟨attempt, hattempt, hattempt', hrefer, hreports⟩ := hstore.exists_ruleMatches hrule source
  have hsame : store.catalog.parse rule source 0 =
      (catalog.parse rule source 0 : Except GrammarError _) := by
    rw [Catalog.parse, Catalog.parse, hattempt, hattempt', hrefer]
  obtain ⟨a, ha⟩ : ∃ a, catalog.parse rule source 0 = (.ok a : Except GrammarError _) := by
    rcases Catalog.parse_of_reports hattempt hreports with
      ⟨node, taken, after, -, -, hparse, -⟩ | ⟨⟨failure, hparse⟩, -⟩
    · exact ⟨_, hparse⟩
    · exact ⟨_, hparse⟩
  rw [ha]
  refine hstore.gives_of_agree (fun catalog => respects_parse catalog rule source 0) ?_
  rw [← ha, ← hsame]
  exact (parse_rel rfl (hstore.agreement hrule source) store.caches hstore.sound).1

theorem gives_parseAll (hrule : IsRule rule) (source : Source) :
    Edit.Gives held (Edit.parsing (·.parseAll rule source)) (catalog.parseAll rule source) := by
  intro store hstore
  obtain ⟨attempt, hattempt, hattempt', hrefer, hreports⟩ := hstore.exists_ruleMatches hrule source
  have hsame : store.catalog.parseAll rule source =
      (catalog.parseAll rule source : Except GrammarError _) := by
    rw [Catalog.parseAll, Catalog.parseAll, Catalog.parse, Catalog.parse, hattempt, hattempt',
      hrefer]
  obtain ⟨a, ha⟩ : ∃ a, catalog.parseAll rule source = (.ok a : Except GrammarError _) := by
    rcases Catalog.parseAll_of_reports hattempt hreports with
      ⟨node, -, hparse⟩ | ⟨⟨failure, hparse⟩, -⟩
    · exact ⟨_, hparse⟩
    · exact ⟨_, hparse⟩
  rw [ha]
  refine hstore.gives_of_agree (fun catalog => respects_parseAll catalog rule source) ?_
  rw [← ha, ← hsame]
  exact (parseAll_rel rfl (hstore.agreement hrule source) store.caches hstore.sound).1

theorem gives_rule {name : String} (hlocal : catalog.local? .abnf name = some rule) :
    Edit.Gives held (Edit.rule .abnf name) rule :=
  fun store h => ⟨store, h.rule_eq hlocal, .refl store, h⟩

theorem gives_clearCaches (id : GrammarId) : Edit.Gives held (Edit.clearCaches id) () :=
  fun _ h => ⟨_, rfl, ⟨rfl, rfl, size_clearCaches id⟩, (quiet_clearCaches id).loyal h⟩

end Standard

end

namespace RuleText

variable {held : Set Parser}

/-- A text is taken for the name of a rule if and only if it is one. -/
theorem gives_isRuleName_of_iff {text : String} {named : Bool}
    (h : named = true ↔ ∃ nodes, Yields Standard.rules (.name "rulename") text.toList nodes) :
    Edit.Gives held (isRuleName text) named := by
  obtain ⟨rule, hrule, hlocal, hname⟩ :=
    Standard.exists_entry (show "rulename" ∈ RuleText.entries by decide)
  obtain ⟨attempt, hattempt, hreports⟩ :=
    Standard.hosts.ruleMatches_reports Standard.ranked hrule (.ofString text) (Source.rest_zero _)
  rw [hname] at hreports
  have hparse : Edit.Gives held _ _ := Standard.gives_parseAll hrule (.ofString text)
  rcases Catalog.parseAll_of_reports hattempt hreports with
    ⟨node, hyields, heq⟩ | ⟨⟨failure, heq⟩, hnone⟩
  · obtain rfl : named = true := h.2 ⟨[node], hyields⟩
    rw [heq] at hparse
    exact (Standard.gives_rule hlocal).bind (hparse.bind (.pure true))
  · obtain rfl : named = false := Bool.eq_false_iff.2 fun hnamed => (h.1 hnamed).elim hnone
    rw [heq] at hparse
    exact (Standard.gives_rule hlocal).bind (hparse.bind (.pure false))

theorem gives_isRuleName {text : String} {nodes : List Node}
    (h : Yields Standard.rules (.name "rulename") text.toList nodes) :
    Edit.Gives held (isRuleName text) true :=
  gives_isRuleName_of_iff (iff_of_true rfl ⟨nodes, h⟩)

theorem gives_isRuleName_false {text : String}
    (h : ∀ nodes, ¬ Yields Standard.rules (.name "rulename") text.toList nodes) :
    Edit.Gives held (isRuleName text) false :=
  gives_isRuleName_of_iff (iff_of_false Bool.false_ne_true fun ⟨nodes, hnodes⟩ => h nodes hnodes)

theorem exists_gives_readProductions (mode : ProseMode) (nodes : List Node) :
    ∃ result, Edit.Gives held (readProductions mode nodes).run result := by
  refine composed_readProductions Edit.Gives.tolerant mode nodes fun _ _ body _ => ?_
  by_cases hname : ∃ nodes, Yields Standard.rules (.name "rulename") body.toList nodes
  · exact ⟨_, (gives_isRuleName_of_iff (iff_of_true rfl hname)).lift⟩
  · exact ⟨_, (gives_isRuleName_of_iff (iff_of_false Bool.false_ne_true hname)).lift⟩

/-- What parsing with a rule of rule text gives is the result of the parse. -/
theorem gives_parseText {α : Type} {name : String} {rule : RuleId}
    (hlocal : Standard.catalog.local? .abnf name = some rule)
    (parse : Catalog → RuleId → Run (Except ParseError α)) {result : Except ParseError α}
    (hparse : Edit.Gives held (Edit.parsing (parse · rule)) (.ok result)) :
    Edit.Gives held (parseText name parse).run (result.mapError .parse) := by
  refine .andThen (.lift (Standard.gives_rule hlocal)) ?_
  refine .andThen (.lift hparse) ?_
  refine .andThen (.lift (Standard.gives_clearCaches .abnf)) ?_
  cases result with
  | ok value => exact .done value
  | error failure => exact .throw _

theorem gives_parseRule {text : String} {nodes : List Node}
    (h : Yields Standard.rules (.name "rule") (asLines text.toList) nodes) :
    ∃ node, Yields Standard.rules (.name "rule") (asLines text.toList) [node] ∧
      Edit.Gives held (parseRule text).run (.ok node) := by
  obtain ⟨rule, hrule, hlocal, hname⟩ :=
    Standard.exists_entry (show "rule" ∈ RuleText.entries by decide)
  have htext : (Source.ofString (terminated text)).text.toList = asLines text.toList := by
    simp
  obtain ⟨attempt, hattempt, hreports⟩ :=
    Standard.hosts.ruleMatches_reports Standard.ranked hrule (.ofString (terminated text))
      (Source.rest_zero _)
  rw [hname, htext] at hreports
  have hparse : Edit.Gives held _ _ := Standard.gives_parse hrule (.ofString (terminated text))
  rcases Catalog.parse_of_reports hattempt hreports with
    ⟨node, taken, after, hrest, hyields, heq, hlongest⟩ | ⟨-, hnone⟩
  · have hle := hlongest _ [] nodes (List.append_nil _).symm h
    rw [hrest, byteLength_append] at hle
    obtain rfl : after = [] := byteLength_eq_zero.1 (by omega)
    rw [List.append_nil] at hrest
    rw [heq] at hparse
    have htext := gives_parseText hlocal (fun catalog rule =>
      catalog.parse rule (.ofString (terminated text)) 0) hparse
    exact ⟨node, hrest ▸ hyields, .andThen htext (.done node)⟩
  · exact absurd h (hnone _ [] nodes (List.append_nil _).symm)

theorem gives_parseRules (text : String) :
    (∃ node, Yields Standard.rules (.name "rulelist") (asLines (trimBlankEnd text).toList) [node] ∧
      Edit.Gives held (parseRules text).run (.ok (node.childrenNamed "rule"))) ∨
    (∃ failure, Edit.Gives held (parseRules text).run (.error (.parse failure))) ∧
      ∀ nodes, ¬ Yields Standard.rules (.name "rulelist")
        (asLines (trimBlankEnd text).toList) nodes := by
  obtain ⟨rule, hrule, hlocal, hname⟩ :=
    Standard.exists_entry (show "rulelist" ∈ RuleText.entries by decide)
  have htext : (Source.ofString (terminated (trimBlankEnd text))).text.toList =
      asLines (trimBlankEnd text).toList := by
    simp
  obtain ⟨attempt, hattempt, hreports⟩ := Standard.hosts.ruleMatches_reports Standard.ranked hrule
    (.ofString (terminated (trimBlankEnd text))) (Source.rest_zero _)
  rw [hname, htext] at hreports
  have hparse : Edit.Gives held _ _ := Standard.gives_parseAll hrule
    (.ofString (terminated (trimBlankEnd text)))
  rw [← htext] at hreports
  rw [← htext]
  let parse (catalog : Catalog) (rule : RuleId) : Run (Except ParseError Node) :=
    catalog.parseAll rule (.ofString (terminated (trimBlankEnd text)))
  rcases Catalog.parseAll_of_reports hattempt hreports with
    ⟨node, hyields, heq⟩ | ⟨⟨failure, heq⟩, hnone⟩
  · rw [heq] at hparse
    exact Or.inl ⟨node, hyields, .andThen (gives_parseText hlocal parse hparse) (.done _)⟩
  · rw [heq] at hparse
    exact Or.inr ⟨⟨failure, .andThrow (gives_parseText hlocal parse hparse)⟩, hnone⟩

end RuleText

def Standard.ruleTree? (text : String) : Option Node :=
  (catalog.local? .abnf "rule").bind fun rule =>
    match (catalog.parse rule (.ofString (terminated text)) 0 :
      Except GrammarError (Except ParseError (Node × Nat))) with
    | .ok (.ok (tree, _)) => some tree
    | _ => none

theorem RuleText.gives_parseRule_of_ruleTree {held : Set Parser} {text : String} {tree : Node}
    (h : Standard.ruleTree? text = some tree) :
    Edit.Gives held (parseRule text).run (.ok tree) := by
  obtain ⟨rule, hrule, hlocal, -⟩ :=
    Standard.exists_entry (show "rule" ∈ RuleText.entries by decide)
  rw [Standard.ruleTree?, hlocal, Option.bind_some] at h
  have hgives : Edit.Gives held _ _ := Standard.gives_parse hrule (.ofString (terminated text))
  split at h
  case h_1 stop hparse =>
    obtain rfl := Option.some.inj h
    rw [hparse] at hgives
    exact .andThen (gives_parseText hlocal (fun catalog rule =>
      catalog.parse rule (.ofString (terminated text)) 0) hgives) (.done _)
  case h_2 => cases h

end Metasyntax
