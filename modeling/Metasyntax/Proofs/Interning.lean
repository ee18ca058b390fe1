import Mathlib.Data.List.Nodup
import Std.Data.TreeMap.Lemmas
import Metasyntax.Proofs.Rollback
import Metasyntax.Proofs.Upkeep

/-!
# Names and the rules they stand for

The index of a grammar leads from each lowered name to the place of the one rule that has it.
Rules are only ever added at the end, and only those that a failing load has added are taken
back. So a rule that a program has come to keeps its name and its place, and every spelling of
the name leads back to it.
-/

set_option autoImplicit false

namespace Metasyntax

def RuleTable.Interned (table : RuleTable) : Prop :=
  ∀ name place, table.index[name]? = some place ↔
    ∃ slot, table.slots[place]? = some slot ∧ lowerText slot.name = name

namespace RuleTable.Interned

variable {table : RuleTable}

theorem empty : RuleTable.empty.Interned := by
  intro name place
  simp [RuleTable.empty]

theorem find? (h : table.Interned) {name : String} {place : Nat} : table.find? name = some place ↔
    ∃ slot, table.slots[place]? = some slot ∧ lowerText slot.name = lowerText name :=
  h (lowerText name) place

theorem place_eq (h : table.Interned) {place place' : Nat} {slot slot' : Slot}
    (hslot : table.slots[place]? = some slot) (hslot' : table.slots[place']? = some slot')
    (hname : lowerText slot.name = lowerText slot'.name) : place = place' := by
  have hfirst := (h _ place).2 ⟨slot, hslot, rfl⟩
  have hsecond := (h _ place').2 ⟨slot', hslot', rfl⟩
  rw [hname, hsecond] at hfirst
  exact (Option.some_inj.1 hfirst).symm

/-- There are as many entries as there are rules. -/
theorem size_index (h : table.Interned) : table.index.size = table.slots.size := by
  have hdistinct : table.index.toList.Nodup :=
    Std.ExtTreeMap.distinct_keys_toList.imp fun hne heq =>
      hne (by rw [heq]; exact Std.ReflCmp.compare_self)
  have hplaces : (table.index.toList.map Prod.snd).Nodup := by
    refine hdistinct.map_on fun first hfirst second hsecond hplace => Prod.ext ?_ hplace
    obtain ⟨slot, hslot, hname⟩ :=
      (h _ _).1 (Std.ExtTreeMap.mem_toList_iff_getElem?_eq_some.1 hfirst)
    obtain ⟨slot', hslot', hname'⟩ :=
      (h _ _).1 (Std.ExtTreeMap.mem_toList_iff_getElem?_eq_some.1 hsecond)
    rw [hplace, hslot'] at hslot
    rw [← hname, ← hname', Option.some_inj.1 hslot]
  have hperm : (table.index.toList.map Prod.snd).Perm (List.range table.slots.size) := by
    refine (List.perm_ext_iff_of_nodup hplaces List.nodup_range).2 fun place => ?_
    rw [List.mem_map, List.mem_range]
    constructor
    · rintro ⟨entry, hentry, rfl⟩
      obtain ⟨slot, hslot, -⟩ := (h _ _).1 (Std.ExtTreeMap.mem_toList_iff_getElem?_eq_some.1 hentry)
      exact (Array.getElem?_eq_some_iff.1 hslot).1
    · intro hplace
      exact ⟨_, Std.ExtTreeMap.mem_toList_iff_getElem?_eq_some.2
        ((h _ place).2 ⟨_, Array.getElem?_eq_getElem hplace, rfl⟩), rfl⟩
  rw [← Std.ExtTreeMap.length_toList, ← List.length_map (f := Prod.snd), hperm.length_eq,
    List.length_range]

theorem push (h : table.Interned) {name : String} (hnew : table.find? name = none) :
    (table.push name).Interned := by
  intro name' place
  simp only [RuleTable.push, Std.ExtTreeMap.getElem?_insert, Std.LawfulEqCmp.compare_eq_iff_eq,
    Array.getElem?_push]
  split
  case isTrue hname =>
    subst hname
    split
    case isTrue hplace => simp [hplace]
    case isFalse hplace =>
      refine ⟨fun heq => absurd (Option.some_inj.1 heq).symm hplace, fun hslot => ?_⟩
      rw [h.find?.2 hslot] at hnew
      cases hnew
  case isFalse hname =>
    rw [h]
    split
    case isTrue hplace =>
      subst hplace
      simp [hname]
    case isFalse hplace => rfl

/-- A change that leaves names alone leaves the index right. -/
theorem update (h : table.Interned) (place : Nat) {change : Slot → Slot}
    (hname : ∀ slot, (change slot).name = slot.name) : (table.update place change).Interned := by
  intro name place'
  refine (h name place').trans ?_
  rw [RuleTable.update, Array.getElem?_modify]
  split
  case isTrue heq =>
    simp only [Option.map_eq_some_iff]
    constructor
    · rintro ⟨slot, hslot, hlowered⟩
      exact ⟨_, ⟨slot, hslot, rfl⟩, by rw [hname, hlowered]⟩
    · rintro ⟨_, ⟨slot, hslot, rfl⟩, hlowered⟩
      exact ⟨slot, hslot, by rw [← hlowered, hname]⟩
  case isFalse => rfl

/-- The rules that are left keep their entries, and the rest lose theirs. -/
theorem truncate (h : table.Interned) (known : Nat) : (table.truncate known).Interned := by
  intro name place
  simp only [RuleTable.truncate, Std.ExtTreeMap.getElem?_filter', Option.filter_eq_some_iff,
    decide_eq_true_eq, getElem?_take]
  rw [h]
  constructor
  · rintro ⟨hslot, hplace⟩
    rwa [if_pos hplace]
  · rintro ⟨slot, hslot, hname⟩
    split at hslot
    case isTrue hplace => exact ⟨⟨slot, hslot, hname⟩, hplace⟩
    case isFalse => cases hslot

end RuleTable.Interned

namespace Store

def Interned (store : Store) : Prop := ∀ id, (store.catalog.grammar id).table.Interned

theorem Interned.modifyGrammar {store : Store} (h : store.Interned) (id : GrammarId)
    {change : Grammar → Grammar}
    (hchange : (store.catalog.grammar id).table.Interned →
      (change (store.catalog.grammar id)).table.Interned) :
    Interned (Edit.modifyGrammar id change store).2 := by
  intro other
  rw [Edit.grammar_modifyGrammar]
  split
  case isTrue => exact hchange (h id)
  case isFalse => exact h other

theorem Interned.durable : Durable Interned where
  newGrammar name base options store h id := by
    rw [grammar_newGrammar]
    split
    · exact .empty
    · exact h id
  newMode _ _ h := h
  newCache _ _ h := h
  newRule {store id name} hname h := by
    refine h.modifyGrammar id fun htable => htable.push ?_
    rwa [Catalog.local?, Option.map_eq_none_iff] at hname
  setMode _ _ _ h := h
  update rule _ hname _ h := h.modifyGrammar _ fun htable => htable.update _ hname
  register _ _ _ h := h.modifyGrammar _ id
  retain _ _ _ h := h.modifyGrammar _ fun htable => by split <;> exact htable
  clearCaches _ _ h := h
  matchesOf _ _ _ _ h := h
  collect _ h := h

theorem Interned.revocable : Revocable Interned where
  toDurable := Interned.durable
  truncate id extent _ h := h.modifyGrammar id fun htable => htable.truncate extent.rules

def KeepsNames (store store' : Store) : Prop :=
  ∀ rule slot, store.catalog.slot? rule = some slot →
    ∃ slot', store'.catalog.slot? rule = some slot' ∧ slot'.name = slot.name

namespace KeepsNames

variable {store store' store'' : Store}

theorem refl (store : Store) : KeepsNames store store := fun _ slot hslot => ⟨slot, hslot, rfl⟩

theorem trans (h : KeepsNames store store') (h' : KeepsNames store' store'') :
    KeepsNames store store'' := by
  intro rule slot hslot
  obtain ⟨slot', hslot', hname⟩ := h rule slot hslot
  obtain ⟨slot'', hslot'', hname'⟩ := h' rule slot' hslot'
  exact ⟨slot'', hslot'', hname'.trans hname⟩

theorem of_slots (h : ∀ rule, store'.catalog.slot? rule = store.catalog.slot? rule) :
    KeepsNames store store' :=
  fun rule slot hslot => ⟨slot, (h rule).trans hslot, rfl⟩

/-- What leaves a grammar's slots where they are, under their names. -/
theorem modifyGrammar (id : GrammarId) {change : Grammar → Grammar}
    (hchange : ∀ grammar : Grammar, ∀ (place : Nat) (slot : Slot),
      grammar.table.slots[place]? = some slot →
        ∃ slot', (change grammar).table.slots[place]? = some slot' ∧ slot'.name = slot.name) :
    KeepsNames store (Edit.modifyGrammar id change store).2 := by
  intro rule slot hslot
  rw [Edit.slot?_modifyGrammar]
  split
  case isTrue heq =>
    rw [← heq.1]
    exact hchange _ _ _ hslot
  case isFalse => exact ⟨slot, hslot, rfl⟩

/-- Whatever happens to a store, it keeps the names of an earlier one. -/
theorem durable (origin : Store) : Durable (KeepsNames origin) where
  newGrammar name base options store h :=
    h.trans (of_slots (slot?_newGrammar name base options store))
  newMode _ _ h := h
  newCache _ _ h := h
  newRule _ h := h.trans <| modifyGrammar _ fun grammar place slot hslot =>
    have hplace := (Array.getElem?_eq_some_iff.1 hslot).1
    ⟨slot, by simpa [RuleTable.push, Array.getElem?_push, Nat.ne_of_lt hplace] using hslot, rfl⟩
  setMode _ _ _ h := h
  update rule change hname _ h := h.trans <| modifyGrammar _ fun grammar place slot hslot => by
    simp only [RuleTable.update, Array.getElem?_modify, hslot]
    split
    · exact ⟨_, rfl, hname slot⟩
    · exact ⟨_, rfl, rfl⟩
  register _ _ _ h := h.trans <| modifyGrammar _ fun _ _ slot hslot => ⟨slot, hslot, rfl⟩
  retain _ _ _ h := h.trans <| modifyGrammar _ fun _ _ slot hslot =>
    ⟨slot, by split <;> exact hslot, rfl⟩
  clearCaches _ _ h := h
  matchesOf _ _ _ _ h := h
  collect _ h := h

theorem nameOf_eq (h : KeepsNames store store') {rule : RuleId}
    (hrule : (store.catalog.slot? rule).isSome) :
    store'.catalog.nameOf rule = store.catalog.nameOf rule := by
  obtain ⟨slot, hslot⟩ := Option.isSome_iff_exists.1 hrule
  obtain ⟨slot', hslot', hname⟩ := h rule slot hslot
  rw [Catalog.nameOf, Catalog.nameOf, hslot, hslot']
  exact hname

end KeepsNames

theorem Interned.local?_of_nameOf {store : Store} (h : store.Interned) {rule : RuleId}
    (hrule : (store.catalog.slot? rule).isSome) {spelling : String}
    (hspelling : lowerText spelling = lowerText (store.catalog.nameOf rule)) :
    store.catalog.local? rule.grammar spelling = some rule := by
  obtain ⟨slot, hslot⟩ := Option.isSome_iff_exists.1 hrule
  rw [Catalog.nameOf, hslot] at hspelling
  rw [Catalog.local?, ((h rule.grammar).find?).2 ⟨slot, hslot, hspelling.symm⟩]
  rfl

structure GainsRule (store store' : Store) (rule : RuleId) (name : String) : Prop where
  new : store.catalog.slot? rule = none
  slot : store'.catalog.slot? rule = some ⟨name, none, none⟩
  size : (store'.catalog.grammar rule.grammar).table.size =
    (store.catalog.grammar rule.grammar).table.size + 1
  kept : ∀ other, other ≠ rule → store'.catalog.slot? other = store.catalog.slot? other
  others : ∀ id, id ≠ rule.grammar → store'.catalog.grammar id = store.catalog.grammar id
  rest : ∃ catalog, store' = { store with catalog } ∧ catalog.modes = store.catalog.modes ∧
    catalog.lost = store.catalog.lost

theorem gainsRule_push {store : Store} {id : GrammarId}
    (hindex : id.index < store.catalog.grammars.size) (name : String) :
    store.GainsRule (Edit.modifyTable id (·.push name) store).2 ⟨id, store.rules id⟩ name where
  new := Array.getElem?_eq_none (Nat.le_refl _)
  slot := by rw [slot?_push hindex, if_pos rfl]
  size := by
    rw [Edit.modifyTable, Edit.grammar_modifyGrammar, if_pos ⟨rfl, hindex⟩]
    exact Array.size_push _
  kept other hother := by rw [slot?_push hindex, if_neg hother]
  others other hother := by
    rw [Edit.modifyTable, Edit.grammar_modifyGrammar, if_neg fun heq => hother heq.1]
  rest := ⟨_, rfl, rfl, rfl⟩

end Store

inductive Catalog.Names (catalog : Catalog) (name : String) : GrammarId → RuleId → Prop where
  | own {id : GrammarId} {rule : RuleId} : catalog.local? id name = some rule →
    Names catalog name id rule
  | inherited {id base : GrammarId} {rule : RuleId} : catalog.local? id name = none →
    (catalog.grammar id).base? = some base → Names catalog name base rule →
      Names catalog name id rule

theorem Catalog.lookup?_eq_of_base {catalog : Catalog} {id base : GrammarId}
    (hbases : (catalog.grammar id).bases = base :: (catalog.grammar base).bases) {name : String}
    (hlocal : catalog.local? id name = none) :
    catalog.lookup? id name = catalog.lookup? base name := by
  rw [lookup?, List.findSome?_cons, hlocal, hbases, lookup?]

theorem Sane.lookup?_eq_some_iff {held : Set Parser} {store : Store} (h : Sane held store)
    {name : String} {id : GrammarId} {rule : RuleId} :
    store.catalog.lookup? id name = some rule ↔ store.catalog.Names name id rule := by
  constructor
  · -- a grammar comes after its base, so the bases are gone through by the grammar's place
    induction hplace : id.index using Nat.strong_induction_on generalizing id with
    | _ place ih =>
      intro hrule
      cases hlocal : store.catalog.local? id name with
      | some own =>
        rw [Catalog.lookup?, List.findSome?_cons, hlocal] at hrule
        exact .own (hlocal.trans hrule)
      | none =>
        cases hbase : (store.catalog.grammar id).base? with
        | some base =>
          obtain ⟨hlt, hbases⟩ := h.lineage id base hbase
          rw [Catalog.lookup?_eq_of_base hbases hlocal] at hrule
          exact .inherited hlocal hbase (ih _ (hplace ▸ hlt) rfl hrule)
        | none =>
          rw [Catalog.lookup?, List.findSome?_cons, hlocal, List.head?_eq_none_iff.1 hbase] at hrule
          cases hrule
  · intro hmeans
    induction hmeans with
    | own hlocal => rw [Catalog.lookup?, List.findSome?_cons, hlocal]
    | inherited hlocal hbase _ ih =>
      rw [Catalog.lookup?_eq_of_base (h.lineage _ _ hbase).2 hlocal, ih]

/-- Asking for a name gives the rule that it means. One that means nothing becomes a rule of
the grammar, and nothing else changes. -/
theorem Sane.rule_of_name {held : Set Parser} {store : Store} (h : Sane held store) {id : GrammarId}
    (hindex : id.index < store.catalog.grammars.size) (name : String) :
    (∀ rule, store.catalog.Names name id rule → Edit.rule id name store = (rule, store)) ∧
    ((∀ rule, ¬ store.catalog.Names name id rule) → ∃ rule after,
      Edit.rule id name store = (rule, after) ∧ rule.grammar = id ∧
        store.GainsRule after rule name ∧ after.catalog.local? id name = some rule) := by
  constructor
  · intro rule hrule
    have hlookup := h.lookup?_eq_some_iff.2 hrule
    simp only [Edit.rule, Edit.bind_apply, Edit.get_apply, hlookup, Edit.pure_apply]
  · intro hnone
    have hlookup : store.catalog.lookup? id name = none :=
      Option.eq_none_iff_forall_ne_some.2 fun rule hrule =>
        hnone rule (h.lookup?_eq_some_iff.1 hrule)
    have hlocal := Catalog.local?_eq_none_of_lookup? hlookup
    refine ⟨⟨id, store.rules id⟩, (Edit.modifyTable id (·.push name) store).2, ?_, rfl,
      Store.gainsRule_push hindex name, by rw [Store.local?_push hindex, if_pos ⟨rfl, rfl⟩]⟩
    simp only [Edit.rule, Edit.localRule, Edit.bind_apply, Edit.get_apply, hlookup, hlocal,
      Edit.pure_apply]
    rfl

namespace Session

variable {session session' : Session}

theorem Reached.interned (h : session.Reached) : session.store.Interned :=
  h.holds Store.Interned.durable
    (Desk.Untouched.standard.revocable Store.Interned.revocable fun _ => .empty)

theorem reached_of_later (hsession : session.Reached)
    (h : Relation.ReflTransGen Next session session') : session'.Reached := by
  induction h with
  | refl => exact hsession
  | tail _ hnext ih => exact .step ih hnext.choose_spec.choose_spec

theorem keepsNames_of_later (hsession : session.Reached)
    (h : Relation.ReflTransGen Next session session') :
    session.store.KeepsNames session'.store := by
  induction h with
  | refl => exact .refl _
  | tail hlater hnext ih =>
    exact hnext.durable (Store.KeepsNames.durable _) (reached_of_later hsession hlater).able ih

/-- In every session that can be come to, the index of each grammar has one entry for each of its
rules, which leads from the lowered name to the rule's place, so that no two names differ in
nothing but case. Rules that cannot be compiled leave every table, and with it every index, as it
was. Whatever rule is held has a name, and every rule keeps its name and is what every spelling of
it leads to, in every later session. A name that is asked for gives the grammar's own rule of the
name, else that of the nearest base that has one, else one new rule of the grammar, which is
unbound. -/
theorem Reached.names_interned (h : session.Reached) :
    (∀ id, let table := (session.store.catalog.grammar id).table
      table.Interned ∧ table.index.size = table.size ∧
        ∀ (place place' : Nat) (slot slot' : Slot), table.slots[place]? = some slot →
          table.slots[place']? = some slot' → lowerText slot.name = lowerText slot'.name →
            place = place') ∧
    (∀ id nodes failure,
      ((RuleText.compile id nodes).run session.store).1 = .error failure → ∀ other,
        (((RuleText.compile id nodes).run session.store).2.catalog.grammar other).table =
          (session.store.catalog.grammar other).table) ∧
    (∀ rule, session.Holds (.rule rule) → (session.store.catalog.slot? rule).isSome) ∧
    (∀ later, Relation.ReflTransGen Next session later → ∀ rule,
      (session.store.catalog.slot? rule).isSome →
        (later.store.catalog.slot? rule).isSome ∧
        later.store.catalog.nameOf rule = session.store.catalog.nameOf rule ∧
        ∀ spelling, lowerText spelling = lowerText (session.store.catalog.nameOf rule) →
          Edit.localRule rule.grammar spelling later.store = (rule, later.store)) ∧
    ∀ id name, id.index < session.store.catalog.grammars.size →
      (∀ rule, session.store.catalog.Names name id rule →
        Edit.rule id name session.store = (rule, session.store)) ∧
      ((∀ rule, ¬ session.store.catalog.Names name id rule) → ∃ rule after,
        Edit.rule id name session.store = (rule, after) ∧ rule.grammar = id ∧
          session.store.GainsRule after rule name ∧
            after.catalog.local? id name = some rule) := by
  have hinterned := h.interned
  refine ⟨fun id =>
      ⟨hinterned id, (hinterned id).size_index, fun _ _ _ _ => (hinterned id).place_eq⟩,
    fun id nodes failure hfailure other => ?_,
    fun rule hrule => (h.orderly.useful _ hrule).2, fun later hlater rule hrule => ?_,
    fun id name hindex => h.orderly.sane.rule_of_name hindex name⟩
  · have halike : session.store.Alike ((RuleText.compile id nodes).run session.store).2 :=
      restores_compile (passive_alike h.loadable.readable) (fun _ => h.loadable.alike) id nodes
        session.store (.refl _) failure hfailure
    rw [halike.catalog]
  have hkeeps := keepsNames_of_later h hlater
  have hname := hkeeps.nameOf_eq hrule
  have hslot : (later.store.catalog.slot? rule).isSome := by
    obtain ⟨slot, hslot⟩ := Option.isSome_iff_exists.1 hrule
    obtain ⟨slot', hslot', -⟩ := hkeeps rule slot hslot
    rw [hslot']
    rfl
  refine ⟨hslot, hname, fun spelling hspelling => ?_⟩
  have hlater := (reached_of_later h hlater).interned
  exact Store.localRule_eq_of_local (hlater.local?_of_nameOf hslot (hname ▸ hspelling))

theorem run_load_of_error {α : Type} {loading : Loading α} {failure : Failure} {after : Store}
    (h : loading.run session.store = (.error failure, after)) :
    (load loading).run session = (.error (.failure failure),
      ⟨after, session.grammars, session.rules, session.parsers⟩) := by
  rw [load, run_bind_ok (run_edit session _), h]
  rfl

/-- A load that fails is answered with its failure. -/
theorem step_load_of_error {texts : RuleTexts} {failure : Failure} {after : Store}
    (h : (loadTexts .abnf texts).run session.store = (.error failure, after)) :
    session.step (.load "abnf" texts) = .ok (.failed failure,
      tidy ⟨after, session.grammars, session.rules, session.parsers⟩) := by
  have hperform : (perform (.load "abnf" texts)).run session =
      (.error (.failure failure), ⟨after, session.grammars, session.rules, session.parsers⟩) := by
    have hact : perform (.load "abnf" texts) = load (loadTexts .abnf texts) >>= answerRules := rfl
    have hrun : (load (loadTexts .abnf texts) >>= answerRules).run session =
        (ExceptT.bindCont answerRules ((load (loadTexts .abnf texts)).run session).1 :
          StateM Session _) ((load (loadTexts .abnf texts)).run session).2 := rfl
    rw [hact, hrun, run_load_of_error h]
    rfl
  rw [step, hperform]

/-- After a load that declares names in front of rules of the base and then fails, all grammars
have the rules that they had. -/
theorem exists_spoiled : ∃ (failure : Failure) (later : Session),
    Session.step (.load "abnf" (.separate RuleText.spoiled)) Session.start =
        .ok (.failed failure, later) ∧
      later.store.catalog.grammars = Session.start.store.catalog.grammars := by
  obtain ⟨failure, hfails⟩ := RuleText.spoiled_fails
  have hstart : Session.start.Reached := .start
  have halike := restores_loadRules (passive_alike hstart.loadable.readable)
    (fun _ => hstart.loadable.alike) .abnf RuleText.spoiled _ (.refl _) failure hfails
  rcases hload : (Loading.loadRules .abnf RuleText.spoiled).run Session.start.store with
    ⟨result, after⟩
  rw [hload] at hfails halike
  obtain rfl : result = .error failure := hfails
  have htidy (session : Session) :
      session.tidy.store.catalog.grammars = session.store.catalog.grammars := rfl
  exact ⟨failure, _, step_load_of_error hload,
    (htidy _).trans (congrArg Catalog.grammars halike.catalog)⟩

/-- A rule that is asked for, under another spelling and from another grammar, after a load has
failed that came to declare the name. -/
theorem Reached.names_interned_spoiled : ∃ (failure : Failure) (later : Session) (digit : RuleId),
    Session.step (.load "abnf" (.separate RuleText.spoiled)) Session.start =
        .ok (.failed failure, later) ∧
      (Session.start.store.catalog.slot? digit).isSome ∧
      later.store.catalog.nameOf digit = "DIGIT" ∧
      Edit.localRule .core "digit" later.store = (digit, later.store) ∧
      Edit.rule .abnf "digit" later.store = (digit, later.store) ∧
      ∃ letter after, Edit.rule .abnf "letter" later.store = (letter, after) ∧
        letter.grammar = .abnf ∧ later.store.GainsRule after letter "letter" := by
  obtain ⟨failure, later, hstep, hgrammars⟩ := exists_spoiled
  have hstart : Session.start.Reached := .start
  have hlater : later.Reached := hstart.step hstep
  obtain ⟨hname, hslot, hspelling, hdigit, hletter, hindex⟩ :
      Session.start.store.catalog.nameOf ⟨.core, 7⟩ = "DIGIT" ∧
      (Session.start.store.catalog.slot? ⟨.core, 7⟩).isSome ∧
      lowerText "digit" = lowerText "DIGIT" ∧
      Session.start.store.catalog.lookup? .abnf "digit" = some ⟨.core, 7⟩ ∧
      Session.start.store.catalog.lookup? .abnf "letter" = none ∧
      1 < Session.start.store.catalog.grammars.size := by
    decide +kernel
  have hlookup (id : GrammarId) (name : String) :
      later.store.catalog.lookup? id name = Session.start.store.catalog.lookup? id name := by
    simp only [Catalog.lookup?, Catalog.local?, Catalog.grammar, hgrammars]
  rw [← hlookup] at hdigit hletter
  rw [← hgrammars] at hindex
  obtain ⟨-, -, -, hkept, -⟩ := hstart.names_interned
  obtain ⟨-, -, -, -, hasked⟩ := hlater.names_interned
  obtain ⟨-, hname', hspelled⟩ := hkept later (.single ⟨_, _, hstep⟩) ⟨.core, 7⟩ hslot
  obtain ⟨-, hnew⟩ := hasked .abnf "letter" hindex
  obtain ⟨letter, after, hrule, hgrammar, hgains, -⟩ := hnew fun rule hrule => by
    have hfound := hlater.orderly.sane.lookup?_eq_some_iff.2 hrule
    cases hletter.symm.trans hfound
  exact ⟨failure, later, ⟨.core, 7⟩, hstep, hslot, hname'.trans hname,
    hspelled "digit" (hname ▸ hspelling),
    (hasked .abnf "digit" hindex).1 _ (hlater.orderly.sane.lookup?_eq_some_iff.1 hdigit),
    letter, after, hrule, hgrammar, hgains⟩

end Session

end Metasyntax
