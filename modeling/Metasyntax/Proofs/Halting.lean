import Metasyntax.Proofs.Recall
import Metasyntax.Proofs.Headway

/-!
# Parses that halt

Where no rule comes back to itself in place, every parse ends, and an open repetition grows no
oftener than there are offsets to come to. That rests on what is remembered, though. A cache that
is stale may say that a part has matched nothing which takes some text by now, and so lead a rule
back to itself for ever.
-/

set_option autoImplicit false

namespace Metasyntax

namespace Catalog

variable {catalog : Catalog} {parser : Parser}

def grow (catalog : Catalog) (source : Source) (element : Parser) (known : MatchSet)
    (rounds : Nat) : Run (MatchSet × Nat) :=
  countFurther (fun o => element.enumerate catalog.firstMatch
    (catalog.call (catalog.depthBound source) source) source o) rounds known known.toList

/-- Where no rule comes back to itself in place, every parse ends with an answer or with
the error of a rule that is missing, and allowing for deeper calls changes nothing: it was
not cut short. Nor is an open repetition: whatever it starts to grow from, more rounds than
it is allowed change nothing, and it makes no more of them than it has offsets in the end.
Caches may hold what they like as long as no part is said to have matched nothing that
takes some text, and they stay like that. -/
theorem parse_terminates
    (hacyclic : ∀ rule ∈ (catalog.scopeOf parser).rules,
      ¬ Relation.TransGen catalog.CallsInPlace rule rule)
    (hapart : Apart (catalog.scopeOf parser).nodes (catalog.scopeOf parser).nodes)
    {caches : Caches} (hcaches : Advancing catalog (catalog.scopeOf parser).nodes caches)
    (source : Source) (start : Nat) :
    Ended ((catalog.matchesOf parser source start : Run Attempt).run caches).1 ∧
      Advancing catalog (catalog.scopeOf parser).nodes
        ((catalog.matchesOf parser source start : Run Attempt).run caches).2 ∧
      (∀ depth, catalog.depthBound source ≤ depth →
        (parser.enumerate catalog.firstMatch (catalog.call depth source) source start :
          Run Attempt).run caches =
            (catalog.matchesOf parser source start : Run Attempt).run caches) ∧
      ∀ cache bounds element, bounds.max = none →
        .repetition cache bounds element ∈ (catalog.scopeOf parser).nodes →
        ∀ o known, known.stops ≠ [] → (∀ e ∈ known.stops, Goes source o e) →
          (∀ rounds, growthRounds bounds source.size ≤ rounds →
            (catalog.grow source element known rounds).run caches =
              (catalog.grow source element known (growthRounds bounds source.size)).run caches) ∧
          Ended ((catalog.grow source element known (growthRounds bounds source.size)).run
            caches).1 ∧
          ∀ found rounds,
            ((catalog.grow source element known (growthRounds bounds source.size)).run caches).1 =
              .ok (found, rounds) → rounds ≤ found.stops.length := by
  have hclosed := catalog.closed_scopeOf parser
  have hparser : parser ∈ (catalog.scopeOf parser).nodes := Or.inl parser.self_mem_walk
  obtain ⟨hended, hkeeps, -⟩ := enumerate_settles_of_depth hclosed hapart hacyclic
    (Nat.le_refl (catalog.depthBound source)) hparser start caches hcaches
  refine ⟨hended, hkeeps, fun depth hdepth => ?_, fun cache bounds element hopen hnode o known
    hsome hknown => ?_⟩
  · rcases enumerate_precedes hdepth parser source start caches with
      ⟨error, hdeep, heq⟩ | ⟨hsame, -⟩
    · exact absurd hdeep (hended error heq)
    · exact hsame.symm
  · have helement : element ∈ (catalog.scopeOf parser).nodes :=
      hclosed.inner _ hnode element (List.mem_cons_of_mem _ element.self_mem_walk)
    have hrun : ∀ o', Goes source o o' → Run.Finishes (Advancing catalog
        (catalog.scopeOf parser).nodes) (StopsIn (Goes source o)) (element.enumerate
          catalog.firstMatch (catalog.call (catalog.depthBound source) source) source o') :=
      fun o' ho' => (enumerate_settles_of_depth hclosed hapart hacyclic (Nat.le_refl _) helement
        o').mono fun attempt hattempt found hfound e he =>
          (goes_stepping source).trans ho' (hattempt found hfound e he).goes
    have hfrontier : ∀ m ∈ known.toList, Goes source o m.stop :=
      fun m hm => hknown _ (MatchSet.mem_stops.2 ⟨m, hm, rfl⟩)
    have hlength := List.length_pos_of_ne_nil hsome
    have hrounds : growthRounds bounds source.size = source.size + 1 := by
      simp [growthRounds, hopen]
    obtain ⟨hgrown, -, hcount⟩ := countFurther_finishes hrun (growthRounds bounds source.size)
      known known.toList hfrontier caches hcaches
    refine ⟨fun rounds hmore => ?_, hgrown, fun found rounds heq => ?_⟩
    · exact countFurther_eq_of_limit hrun
        (fun offsets hnodup hoffsets =>
          length_le_of_onward hnodup fun e he => (hoffsets e he).2) hknown
        (by omega) (by omega) hfrontier hcaches
    · have := hcount _ heq
      dsimp only at this
      omega

def someDigits : Parser :=
  .repetition ⟨0⟩ ⟨0, none⟩ (.optional ⟨1⟩ (.rule ⟨⟨⟨0⟩, 0⟩, "digit"⟩))

theorem leads_someDigits {ref : RuleRef} (h : ofDigits.Leads someDigits ref) :
    ref = ⟨⟨⟨0⟩, 0⟩, "digit"⟩ := by
  induction h with
  | here href => simpa [someDigits, Parser.references, Parser.walk] using href
  | definition _ hresolve hbound href ih =>
    subst ih
    cases hresolve
    cases hbound
    simp [Parser.references, Parser.walk] at href
  | exclusion _ hresolve hbound hexclusion ih =>
    subst ih
    cases hresolve
    cases hbound
    cases hexclusion

theorem acyclic_someDigits {rule : RuleId} (hrule : rule ∈ (ofDigits.scopeOf someDigits).rules) :
    ¬ Relation.TransGen ofDigits.CallsInPlace rule rule := by
  obtain ⟨ref, href, hresolve⟩ := hrule
  obtain rfl := leads_someDigits href
  cases hresolve
  intro hcycle
  obtain ⟨rule', hcalls, -⟩ := Relation.TransGen.head'_iff.1 hcycle
  cases hcalls with
  | definition hbound hleading =>
    cases hbound
    cases hleading
  | exclusion hbound hexclusion =>
    cases hbound
    cases hexclusion

theorem apart_someDigits :
    Apart (ofDigits.scopeOf someDigits).nodes (ofDigits.scopeOf someDigits).nodes := by
  have hnodes : ∀ node ∈ (ofDigits.scopeOf someDigits).nodes, node ∈ someDigits.walk ∨
      node = .literal (.range '0' '9') := by
    rintro node (hnode | ⟨ref, rule, slot, definition, href, hresolve, hbound, hnode⟩)
    · exact Or.inl hnode
    · obtain rfl := leads_someDigits href
      cases hresolve
      cases hbound
      exact Or.inr (by simpa [Parser.walk] using hnode)
  intro a ha b hb id hida hidb
  have ha := hnodes a ha
  have hb := hnodes b hb
  simp only [someDigits, Parser.walk, List.mem_cons, List.not_mem_nil, or_false] at ha hb
  rcases ha with (rfl | rfl | rfl) | rfl <;> rcases hb with (rfl | rfl | rfl) | rfl <;>
    cases hida <;> cases hidb <;> rfl

theorem parse_terminates_someDigits : ∃ (caches : Caches) (attempt : Attempt),
    caches.Holds ⟨0⟩ ⟨.ofString "12", 0⟩ attempt ∧
      Advancing ofDigits (ofDigits.scopeOf someDigits).nodes caches ∧
      Ended ((ofDigits.matchesOf someDigits (.ofString "12") 0 : Run Attempt).run caches).1 := by
  let source : Source := .ofString "12"
  let first : Caches := #[.empty default, .empty default]
  have hempty : ∀ cache ∈ first, cache.isEmpty = true := by simp [first, Cache.isEmpty, Cache.empty]
  have hacyclic : ∀ rule ∈ (ofDigits.scopeOf someDigits).rules,
    ¬ Relation.TransGen ofDigits.CallsInPlace rule rule := fun _ => acyclic_someDigits
  obtain ⟨-, hadvancing, -⟩ :=
    parse_terminates hacyclic apart_someDigits (.of_isEmpty hempty) source 0
  obtain ⟨attempt, hattempt⟩ : ∃ attempt, ofDigits.matchesOf someDigits source 0 =
      (.ok attempt : Except GrammarError Attempt) := by
    have hok : (ofDigits.matchesOf someDigits source 0 : Except GrammarError Attempt).isOk = true := by
      decide +kernel
    cases hmatches : (ofDigits.matchesOf someDigits source 0 : Except GrammarError Attempt) with
    | ok attempt => exact ⟨attempt, rfl⟩
    | error error =>
      rw [hmatches] at hok
      cases hok
  obtain ⟨hagree, -⟩ := matchesOf_agrees (ofDigits.closed_scopeOf someDigits) apart_someDigits
    (Or.inl someDigits.self_mem_walk) source 0 first
    (.of_empty fun _ _ _ => Caches.not_holds_of_isEmpty hempty)
  rw [hattempt] at hagree
  have hholds := holds_of_matchesOf (by decide) hagree.eq_of_ok
  exact ⟨_, attempt, hholds, hadvancing,
    (parse_terminates hacyclic apart_someDigits hadvancing source 0).1⟩

def chain? (catalog : Catalog) (rule : RuleId) : Option (CacheId × Bounds × RuleRef) :=
  match catalog.bound rule with
  | .ok (⟨_, _, none⟩, .alternation _
      [.concatenation [.repetition cache bounds (.rule ref), .rule self], .literal _]) =>
    if self.target = rule then some (cache, bounds, ref) else none
  | _ => none

section
variable {rule : RuleId} {cache : CacheId} {bounds : Bounds} {ref : RuleRef}

theorem bound_of_chain? (h : catalog.chain? rule = some (cache, bounds, ref)) :
    ∃ slot mode self terminal, catalog.bound rule = .ok (slot, .alternation mode
      [.concatenation [.repetition cache bounds (.rule ref), .rule self], .literal terminal]) ∧
        self.target = rule ∧ slot.exclusion = none := by
  rw [chain?] at h
  split at h
  case h_1 name _ mode _ _ _ self terminal hbound =>
    split at h
    case isTrue hself =>
      cases h
      exact ⟨_, mode, self, terminal, hbound, hself, rfl⟩
    case isFalse => cases h
  case h_2 => cases h

theorem exists_of_leading_concatenation {parts : List Parser} {ref : RuleRef}
    (h : catalog.Leading (.concatenation parts) ref) : ∃ before part after,
      parts = before ++ part :: after ∧ (∀ part ∈ before, catalog.Nullable part) ∧
        catalog.Leading part ref := by
  generalize hwhole : Parser.concatenation parts = whole at h
  cases h with
  | concatenation hbefore hpart =>
    cases hwhole
    exact ⟨_, _, _, rfl, hbefore, hpart⟩
  | _ => cases hwhole

def terminal? (catalog : Catalog) (rule : RuleId) : Option Literal :=
  match catalog.bound rule with
  | .ok (⟨_, _, none⟩, .literal terminal) => some terminal
  | _ => none

theorem bound_of_terminal? {terminal : Literal} (h : catalog.terminal? rule = some terminal) :
    ∃ slot, catalog.bound rule = .ok (slot, .literal terminal) ∧ slot.exclusion = none := by
  rw [terminal?] at h
  split at h
  case h_1 name _ _ hbound =>
    cases h
    exact ⟨_, hbound, rfl⟩
  case h_2 => cases h

/-- What stands behind a part that takes text does not lead. -/
theorem leading_of_chain {mode : ModeId} {self ref' : RuleRef} {terminal : Literal}
    (htakes : ¬ catalog.Nullable (.repetition cache bounds (.rule ref)))
    (h : catalog.Leading (.alternation mode
      [.concatenation [.repetition cache bounds (.rule ref), .rule self], .literal terminal]) ref') :
    ref' = ref := by
  cases h with
  | alternation hbranch hleading =>
    rcases List.mem_cons.1 hbranch with rfl | hbranch
    · obtain ⟨before, part, after, hparts, hbefore, hpart⟩ :=
        exists_of_leading_concatenation hleading
      cases before with
      | nil =>
        obtain ⟨rfl, -⟩ := List.cons.inj hparts
        cases hpart with
        | repetition _ helement =>
          cases helement
          rfl
      | cons first before =>
        obtain ⟨rfl, -⟩ := List.cons.inj hparts
        exact absurd (hbefore _ List.mem_cons_self) htakes
    · obtain rfl := List.mem_singleton.1 hbranch
      cases hleading

/-- Where the repetition takes text, the rule does not call itself in place. -/
theorem acyclic_of_chain? (h : catalog.chain? rule = some (cache, bounds, ref))
    (hmin : bounds.min ≠ 0) (hne : ref.target ≠ rule) {terminal : Literal}
    (hterminal : catalog.terminal? ref.target = some terminal) (hpattern : terminal.pattern ≠ .text "")
    {other : RuleId} (hother : other ∈ [rule, ref.target]) :
    ¬ Relation.TransGen catalog.CallsInPlace other other := by
  obtain ⟨slot, hbound, hnone⟩ := bound_of_terminal? hterminal
  have hlast : ∀ rule', ¬ catalog.CallsInPlace ref.target rule' := by
    intro rule' hcalls
    cases hcalls with
    | definition hdefinition hleading =>
      cases hbound.symm.trans hdefinition
      cases hleading
    | exclusion hdefinition hexclusion =>
      cases hbound.symm.trans hdefinition
      cases hnone.symm.trans hexclusion
  have htakes : ¬ catalog.Nullable (.repetition cache bounds (.rule ref)) := by
    intro hnullable
    cases hnullable with
    | never hzero => exact hmin hzero
    | repetition helement =>
      cases helement with
      | rule hresolve hdefinition hnullable =>
        obtain rfl := eq_of_resolve hresolve
        cases hbound.symm.trans hdefinition
        cases hnullable with
        | literal hempty => exact hpattern hempty
  have hfirst : ∀ rule', catalog.CallsInPlace rule rule' → rule' = ref.target := by
    obtain ⟨slot', mode, self, terminal', hchain, -, hnone'⟩ := bound_of_chain? h
    intro rule' hcalls
    cases hcalls with
    | definition hdefinition hleading hresolve =>
      cases hchain.symm.trans hdefinition
      obtain rfl := leading_of_chain htakes hleading
      exact eq_of_resolve hresolve
    | exclusion hdefinition hexclusion =>
      cases hchain.symm.trans hdefinition
      cases hnone'.symm.trans hexclusion
  intro hcycle
  obtain ⟨next, hcalls, hback⟩ := Relation.TransGen.head'_iff.1 hcycle
  rcases List.mem_cons.1 hother with rfl | hother
  · obtain rfl := hfirst next hcalls
    rcases hback.cases_head with heq | ⟨_, hcalls', -⟩
    · exact hne heq
    · exact hlast _ hcalls'
  · obtain rfl := List.mem_singleton.1 hother
    exact hlast _ hcalls

/-- The rule never comes to an end while the repetition is said to have matched nothing. -/
theorem call_of_chain? (h : catalog.chain? rule = some (cache, bounds, ref))
    (halive : catalog.alive rule.grammar = true) {source : Source} {start : Nat} {m : Match}
    (hm : m.stop = start) (depth : Nat) {self : RuleRef} (hself : self.target = rule)
    {caches : Caches} (hholds : caches.Holds cache ⟨source, start⟩ (.ok (.single m))) :
    ∃ error caches', error.TooDeep ∧
      (catalog.call depth source self start : Run Attempt).run caches = (.error error, caches') := by
  induction depth generalizing self caches with
  | zero => exact ⟨_, caches, ⟨self.name, rfl⟩, rfl⟩
  | succ depth ih =>
    obtain ⟨slot, mode, self', terminal, hbound, hself', -⟩ := bound_of_chain? h
    let call := catalog.call (m := Run) depth source
    let part := Parser.repetition cache bounds (.rule ref)
    let whole := Parser.concatenation [part, .rule self']
    let touched := caches.modify cache.index (·.touch ⟨source, start⟩)
    obtain ⟨error, caches', hdeep, hagain⟩ := ih hself' (hholds.touch cache ⟨source, start⟩)
    have hpart : (part.enumerate catalog.firstMatch call source start).run caches =
        (.ok (.ok (.single m)), touched) := by
      rw [Parser.enumerate]
      exact run_remembered_hit hholds _
    have hsweep : (sweep (fun offset => part.enumerate catalog.firstMatch call source offset) ∅
        (MatchSet.single (.empty start)).toList .none).run caches =
          (.ok ⟨.single ((Match.empty start).followedBy m), none⟩, touched) := by
      rw [MatchSet.toList_single, sweep, show (Match.empty start).stop = start from rfl,
        Run.run_bind_ok hpart]
      rfl
    have hrest : (sweep (fun offset => (Parser.rule self').enumerate catalog.firstMatch call source
        offset) ∅ (MatchSet.single ((Match.empty start).followedBy m)).toList .none).run touched =
          (.error error, caches') := by
      rw [MatchSet.toList_single, sweep, show ((Match.empty start).followedBy m).stop = start from hm]
      exact Run.run_bind_error hagain
    have hwhole : (whole.enumerate catalog.firstMatch call source start).run caches =
        (.error error, caches') := by
      rw [Parser.enumerate, Parser.followParts, Run.run_bind_ok hsweep]
      change (Parser.followParts catalog.firstMatch call source whole start [.rule self']
        (.single ((Match.empty start).followedBy m))).run touched = _
      rw [Parser.followParts, Run.run_bind_error hrest]
    have hbody : ((Parser.alternation mode [whole, .literal terminal]).enumerate catalog.firstMatch call
        source start).run caches = (.error error, caches') := by
      rw [Parser.enumerate, Parser.tryBranches, Run.run_bind_error hwhole]
    have hresolve : catalog.resolve self = .ok rule := by
      rw [resolve, hself]
      exact if_pos halive
    refine ⟨error, caches', hdeep, ?_⟩
    rw [Catalog.call, Catalog.callOnce, hresolve, Run.run_bind_ok (run_ofExcept_ok rule caches), hbound,
      Run.run_bind_ok (run_ofExcept_ok _ caches)]
    exact Run.run_bind_error hbody

end

def matchesNothing (catalog : Catalog) (parser : Parser) (source : Source) : Bool :=
  match (catalog.matchesOf parser source 0 : Except GrammarError Attempt) with
  | .ok (.ok ⟨[m], _⟩) => decide (m.stop = 0)
  | _ => false

theorem exists_of_matchesNothing {source : Source} (h : catalog.matchesNothing parser source = true) :
    ∃ m : Match, m.stop = 0 ∧
      catalog.matchesOf parser source 0 = (.ok (.ok (.single m)) : Except GrammarError Attempt) := by
  rw [matchesNothing] at h
  split at h
  case h_1 m _ hmatches => exact ⟨m, of_decide_eq_true h, hmatches⟩
  case h_2 => cases h

end Catalog

/-- Without the condition on what caches hold, a parse may go on for ever though no rule calls itself
in place: a stale cache says that nothing was matched where something has to be by now. -/
theorem stale_match_recurses : ¬ ∀ (session : Session) (bench : Bench) (rule : RuleId),
    session.Reached → session.bench.Steps bench → bench.store.Useful (.rule rule) →
      (∀ rule' ∈ (bench.store.catalog.scopeOf (.rule (bench.store.catalog.refer rule))).rules,
        ¬ Relation.TransGen bench.store.catalog.CallsInPlace rule' rule') →
      ∀ source start, Catalog.Ended (Edit.parsing
        (·.matchesOf (.rule (bench.store.catalog.refer rule)) source start) bench.store).1 := by
  intro hall
  let space : RuleId := ⟨.core, 12⟩
  let entries : RuleId := ⟨.abnf, 24⟩
  let source : Source := .ofString "y"
  let terminal : Literal := ⟨.text "b", false⟩
  let check (session : Session) : Bool :=
    let catalog := session.store.catalog
    let turned := (Edit.setDefinition space (.literal terminal) session.store).2.catalog
    session.store.caches.all (·.isEmpty) &&
      decide (catalog.lookup? .core "LWSP" = some space) &&
      decide (catalog.lookup? .abnf "entries" = some entries) &&
      turned.isConfined .abnf [entries, space] && decide (turned.terminal? space = some terminal) &&
      (turned.chain? entries).any fun (cache, bounds, ref) =>
        decide (ref.target = space) && decide (bounds.min ≠ 0) &&
          !(catalog.grammar .core).registry.members.contains cache &&
          catalog.matchesNothing (.repetition cache bounds (.rule ref)) source
  have hcheck : (Session.start.carryOut [.define "abnf" "entries" (.alternation false
      [.concatenation [.repetition ⟨1, none⟩ ⟨8, by decide⟩ (.rule (.named "core" "LWSP")),
        .rule (.named "abnf" "entries")], .literal ⟨.text "y", false⟩]) none]).any check = true := by
    decide +kernel
  obtain ⟨session, hcarry, hcheck⟩ := (Option.any_eq_true _ _).1 hcheck
  simp only [check, Bool.and_eq_true, decide_eq_true_eq] at hcheck
  obtain ⟨⟨⟨⟨⟨hempty, hspace⟩, hentries⟩, hconfined⟩, hterminal⟩, hchain⟩ := hcheck
  obtain ⟨⟨cache, bounds, ref⟩, hchain, hprops⟩ := (Option.any_eq_true _ _).1 hchain
  simp only [Bool.and_eq_true, decide_eq_true_eq, Bool.not_eq_true', ← Bool.not_eq_true,
    List.contains_iff_mem] at hprops
  obtain ⟨⟨⟨htarget, hmin⟩, hforeign⟩, hnothing⟩ := hprops
  have hreached : session.Reached := Session.Reached.start.carryOut hcarry
  obtain ⟨m, hm, hmatches⟩ := Catalog.exists_of_matchesNothing hnothing
  obtain ⟨slot, mode, self, last, hturned, -, -⟩ := Catalog.bound_of_chain? hchain
  have hspares := (Reconfiguration.setDefinition (.literal terminal)).spares space session.store
  obtain ⟨hslot, hdefinition⟩ := Catalog.exists_slot_of_bound hturned
  have hbound := Catalog.bound_eq_ok_iff.2
    ⟨(hspares.slot entries (by decide)).symm.trans hslot, hdefinition⟩
  let ready := session.bench.hold (.rule entries)
  have hready : session.bench.Steps ready := .single (.lookup Session.Holds.abnf hentries)
  have hsound : Sound ready.store.catalog (ready.store.catalog.scopeOf
    (.repetition cache bounds (.rule ref))).nodes ready.store.caches := .of_all_isEmpty hempty
  have hforeign : cache ∉ (ready.store.catalog.grammar space.grammar).registry.members := hforeign
  have hcore : .grammar .core ∈ ready.held := Or.inr Session.Holds.core
  obtain ⟨stale, hsteps, hkept, halike, hholds⟩ :=
    (hready.orderly hreached.orderly).exists_stale_part (Or.inl rfl) hbound
      (by simp [Parser.walk, Parser.walkAll]) hsound hforeign hcore hspace terminal hmatches
  have halike : (Edit.setDefinition space (.literal terminal) session.store).2.Alike stale.store :=
    halike
  rw [← halike.catalog] at hconfined hterminal hchain
  have hsteps' : session.bench.Steps stale := Relation.ReflTransGen.trans hready hsteps
  have huseful := (hsteps'.orderly hreached.orderly).useful _ (hkept (Or.inl rfl))
  have hended := hall session stale entries hreached hsteps' huseful (fun rule hrule => by
    obtain ⟨ref', hleads, hresolve⟩ := hrule
    refine Catalog.acyclic_of_chain? hchain hmin (htarget ▸ by decide) (htarget ▸ hterminal)
      (by decide) ?_
    rw [htarget, Catalog.eq_of_resolve hresolve]
    exact Catalog.target_mem_of_isConfined hconfined List.mem_cons_self hleads) source 0
  obtain ⟨error, caches', hdeep, hrun⟩ :=
    Catalog.call_of_chain? hchain huseful.1 hm (stale.store.catalog.depthBound source)
      (show (stale.store.catalog.refer entries).target = entries from rfl) hholds
  refine hended error ?_ hdeep
  change ((stale.store.catalog.matchesOf (.rule (stale.store.catalog.refer entries)) source 0 :
    Run Attempt).run stale.store.caches).1 = _
  rw [Catalog.matchesOf, Parser.enumerate, hrun]

end Metasyntax
