import Metasyntax.Proofs.Invalidation

/-!
# Parses reproduce their text

In every session that can be come to, also one in which caches remember what is not so any longer,
matches stand for the text that they take up.
-/

set_option autoImplicit false

namespace Metasyntax

/-- Every match that is found in a store stands for its text, the matches of a rule are nodes of
its name, and what is parsed in whole is the text. -/
structure Store.Reproduces (store : Store) : Prop where
  parser (parser : Parser) (source : Source) (start : Nat) (found : MatchSet) :
    (Edit.parsing (·.matchesOf parser source start) store).1 = .ok (.ok found) →
      found.stops.Pairwise (· > ·) ∧ ∀ m ∈ found.toList, m.Reproduces source start
  rule (rule : RuleId) (source : Source) (start : Nat) (found : MatchSet) :
    (Edit.parsing (·.ruleMatches rule source start) store).1 = .ok (.ok found) →
      found.stops.Pairwise (· > ·) ∧ ∀ m ∈ found.toList, m.Reproduces source start ∧
        ∃ children, m.nodes = [.rule (store.catalog.nameOf rule) children]
  parseAll (rule : RuleId) (source : Source) (node : Node) :
    (Edit.parsing (·.parseAll rule source) store).1 = .ok (.ok node) → node.value = source.text

theorem Caches.Traced.reproduces {store : Store} (h : store.caches.Traced Match.Covers) :
    store.Reproduces := by
  have hrule (rule : RuleId) (source : Source) (start : Nat) (found : MatchSet)
      (hfound : (Edit.parsing (·.ruleMatches rule source start) store).1 = .ok (.ok found)) :
      found.stops.Pairwise (· > ·) ∧ ∀ m ∈ found.toList, m.Reproduces source start ∧
        ∃ children, m.nodes = [.rule (store.catalog.nameOf rule) children] := by
    refine ⟨found.stops_pairwise, fun m hm => ?_⟩
    have hnamed := (Catalog.call_traces Match.tracing_covers (store.catalog.depthBound source)
      source (store.catalog.refer rule) start store.caches h).2 _ hfound found rfl m hm
    exact ⟨hnamed.1.reproduces, hnamed.2⟩
  refine ⟨fun parser source start found hfound => ⟨found.stops_pairwise, fun m hm => ?_⟩, hrule, ?_⟩
  · exact Match.Covers.reproduces
      ((h.matchesOf Match.tracing_covers parser source start).2 found hfound m hm)
  · intro rule source node hnode
    obtain ⟨stop, hstop, hparse⟩ := Edit.exists_of_parsing_parseAll hnode
    obtain ⟨found, hfound, m, hm, rfl, others, hnodes⟩ := Edit.exists_of_parsing_parse hparse
    obtain ⟨hreproduces, children, hsingle⟩ := (hrule rule source 0 found hfound).2 m hm
    obtain ⟨-, hle, -, hslice⟩ := hreproduces.inside (by simp)
    obtain rfl : others = [] := by simpa using congrArg List.tail (hnodes.symm.trans hsingle)
    rw [Nat.le_antisymm hle hstop] at hslice
    rw [← Source.slice_all hslice, Match.value, hnodes, Node.valueOfAll, Node.valueOfAll,
      String.append_empty]

/-- In every session that can be come to, whatever the caches remember from earlier, the
matches of all parsers and rules reproduce their text. -/
theorem Session.Reached.matches_reproduce {session : Session} (h : session.Reached) :
    session.store.Reproduces :=
  (h.traced Match.tracing_covers).reproduces

namespace Session

variable {session : Session}

theorem run_parsing {α : Type} {run : Catalog → Run (Except ParseError α)} {a : α} {after : Store}
    (h : Edit.parsing run session.store = (.ok (.ok a), after)) :
    (parsing run).run session = (.ok a, { session with store := after }) := by
  have hedit : (edit (Edit.parsing run)).run session =
      (.ok (.ok (.ok a)), { session with store := after }) := by
    rw [run_edit, h]
  rw [parsing, run_bind_ok hedit]
  rfl

theorem next_matchesOf {grammar name text : String} {id : GrammarId} {rule : RuleId} {found : MatchSet}
    {after : Store} (hid : (grammarNamed grammar).run session = (.ok id, session))
    (hrule : session.store.catalog.lookup? id name = some rule)
    (hfound : Edit.parsing (·.ruleMatches rule (.ofString text) 0) session.store =
      (.ok (.ok found), after)) : session.Next (tidy { session with store := after }) := by
  have hresolve : (resolveRule (.named grammar name)).run session = (.ok rule, session) := by
    rw [resolveRule, run_bind_ok hid]
    rw [run_edit, Store.rule_eq_of_lookup hrule]
  have hmatches : (matchesFor (.rule (.named grammar name)) (.ofString text) 0).run session =
      (.ok found, { session with store := after }) := by
    rw [matchesFor, run_bind_ok hresolve]
    exact run_parsing hfound
  refine ⟨.matchesOf (.rule (.named grammar name)) text 0 .full, ?_⟩
  rw [step, perform, run_bind_ok hmatches]
  exact ⟨_, rfl⟩

theorem caches_defining (session : Session) (id : GrammarId) (name : String) (definition : Parser) :
    (session.defining id name definition).store.caches =
      (Edit.define id name definition session.store).2.caches :=
  rfl

end Session

/-- A repetition goes on remembering a digit that is none any longer. -/
theorem Session.Reached.matches_reproduce_redefined : ∃ (session : Session) (digit digits : RuleId)
    (cache : CacheId) (ref : RuleRef) (found : MatchSet), session.Reached ∧
      session.store.catalog.repetition? digits = some (cache, .rule ref) ∧ ref.target = digit ∧
      session.store.catalog.definition? digit = some (.literal ⟨.text "x", false⟩) ∧
      session.store.caches.Holds cache ⟨.ofString "1", 0⟩ (.ok found) ∧ 1 ∈ found.stops ∧
      session.store.Reproduces := by
  let digit : RuleId := ⟨.core, 7⟩
  let digits : RuleId := ⟨.abnf, 24⟩
  let one : Source := .ofString "1"
  let terminal : Literal := ⟨.text "x", false⟩
  obtain ⟨session, hreached, hfresh, hapart, hdigit, hdigits, hbefore, _⟩ :=
    Session.exists_repeating_digits
  have hcurrent : session.store.Current digits := hfresh.sound_scopeOf _
  have hsane := hreached.orderly.sane
  obtain ⟨cache, ref, hrepetition, href, halive, hliving, hforeign⟩ :=
    Catalog.exists_of_repeatsApart hapart
  obtain ⟨slot, bounds, hbound, hexclusion⟩ := Catalog.bound_of_repetition? hrepetition
  obtain ⟨found, hfound, he⟩ := (hcurrent.parsesAnew hsane hliving).reports_iff.2 hbefore
  obtain ⟨recalled, hholds, hstops⟩ :=
    exists_holds_of_ruleMatches hliving hbound hexclusion (hsane.cache_lt_of_bound hbound) hfound
  let parsed := (Edit.parsing (·.ruleMatches digits one 0) session.store).2
  let asked := Session.tidy { session with store := parsed }
  have hparse : Edit.parsing (·.ruleMatches digits one 0) session.store = (.ok (.ok found), parsed) :=
    Prod.ext hfound rfl
  have habnf : (Session.grammarNamed "abnf").run session = (.ok .abnf, session) := rfl
  have hasked : session.Next asked :=
    Session.next_matchesOf habnf (Catalog.lookup?_of_local hdigits) hparse
  have hcore : (Session.grammarNamed "core").run asked = (.ok .core, asked) := rfl
  have hparser : (Session.resolveParser (.literal terminal)).run asked =
      (.ok (.literal terminal), asked) := rfl
  have hdefine : asked.Next (asked.defining .core "DIGIT" (.literal terminal)) :=
    Session.next_defining hcore hparser "DIGIT"
  have hlocal : Edit.localRule .core "DIGIT" asked.store = (digit, asked.store) :=
    Store.localRule_eq_of_local hdigit
  have hredefined := Session.define_eq_setDefinition (congrArg Prod.fst hlocal) (.literal terminal)
  rw [hlocal] at hredefined
  have hheld : asked.store.caches.Holds cache ⟨one, 0⟩ (.ok recalled) := hholds
  have hunregistered : cache ∉ (asked.store.catalog.grammar digit.grammar).registry.members :=
    hforeign
  have hstale := holds_setDefinition_literal hunregistered hheld terminal
  have hspares := (Reconfiguration.setDefinition (.literal terminal)).spares digit asked.store
  have hkept : (asked.defining .core "DIGIT" (.literal terminal)).store.catalog.slot? digits =
      session.store.catalog.slot? digits := by
    rw [Session.slot?_defining, hredefined]
    exact hspares.slot digits (by decide)
  have hreached' := (hreached.next hasked).next hdefine
  have hexists := Catalog.isSome_slot?_of_local? hdigit
  obtain ⟨defined, hslot⟩ := Option.isSome_iff_exists.1 hexists
  refine ⟨_, digit, digits, cache, ref, recalled, hreached', ?_, href, ?_, ?_, hstops ▸ he,
    hreached'.matches_reproduce⟩
  · rw [← hrepetition, Catalog.repetition?, Catalog.repetition?, Catalog.bound, Catalog.bound,
      Catalog.nameOf, Catalog.nameOf, hkept]
  · rw [Catalog.definition?, Session.slot?_defining, hredefined]
    exact Store.definition?_setDefinition (Store.index_lt_of_slot? hexists) hslot (.literal terminal)
  · rw [Session.caches_defining, hredefined]
    exact hstale

end Metasyntax
