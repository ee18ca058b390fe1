import Metasyntax.Proofs.Interning
import Metasyntax.Proofs.Invalidation

/-!
# Rules that are bound later

A parse that comes to an unbound rule ends in a grammar error, whatever is around the rule.
A parse that ends otherwise has not come to any, so nothing about it changes when such rules
are bound, and neither does anything that caches remember.
-/

set_option autoImplicit false

namespace Metasyntax

namespace Catalog

variable {grammars : Set GrammarId} {c c' c'' : Catalog}

theorem Completes.nodes (h : Completes grammars c c') {node : Parser}
    (hnode : node ∈ (c.within grammars).nodes) : node ∈ (c'.within grammars).nodes := by
  obtain ⟨rule, slot, definition, hrule, hbound, hnode⟩ := hnode
  exact ⟨rule, slot, definition, hrule, h.bound rule hrule slot definition hbound, hnode⟩

theorem Completes.trans (h : Completes grammars c c') (h' : Completes grammars c' c'') :
    Completes grammars c c'' where
  lost id hid := h.lost id (h'.lost id hid)
  alive id hid halive := h'.alive id hid (h.alive id hid halive)
  bound rule hrule slot definition hbound :=
    h'.bound rule hrule slot definition (h.bound rule hrule slot definition hbound)
  name rule hrule slot hslot := by
    obtain ⟨slot', hslot', hname⟩ := h.name rule hrule slot hslot
    obtain ⟨slot'', hslot'', hname'⟩ := h'.name rule hrule slot' hslot'
    exact ⟨slot'', hslot'', hname'.trans hname⟩
  mode mode branches hmode :=
    (h'.mode mode branches (h.nodes hmode)).trans (h.mode mode branches hmode)

/-- A rule that does not exist is not parsed. -/
theorem parse_of_slot?_eq_none {rule : RuleId} (h : c.slot? rule = none) (source : Source)
    (start : Nat) :
    ∃ error, c.ruleMatches rule source start = (.error error : Except GrammarError Attempt) ∧
      c.parse rule source start =
        (.error error : Except GrammarError (Except ParseError (Node × Nat))) := by
  obtain ⟨_, hbound⟩ : ∃ error, c.bound rule = .error error := by
    rw [bound, h]
    exact ⟨_, rfl⟩
  obtain ⟨error, herror⟩ := call_of_bound_error hbound (c.depthBound source) source
    (show (c.refer rule).target = rule from rfl) start
  exact ⟨error, herror, by rw [parse, ruleMatches, herror, error_bind]⟩

section
variable (henclosed : c.Enclosed grammars) (h : Completes grammars c c') {rule : RuleId}
  (hrule : rule.grammar ∈ grammars)
include henclosed h hrule

/-- What a rule matches stays as it is when other rules are bound, unless it was left open by
a grammar error. -/
theorem ruleMatches_completes (source : Source) (start : Nat) :
    (approximation fun _ => True).rel (fun _ => True)
      (c.ruleMatches rule source start) (c'.ruleMatches rule source start) := by
  refine ⟨?_, fun _ _ => trivial⟩
  cases hattempt : (c.ruleMatches rule source start : Except GrammarError Attempt) with
  | error error => exact Or.inl ⟨error, trivial, rfl⟩
  | ok attempt =>
    cases hslot : c.slot? rule with
    | none =>
      obtain ⟨error, herror, -⟩ := parse_of_slot?_eq_none hslot source start
      rw [herror] at hattempt
      cases hattempt
    | some slot =>
      rw [ruleMatches_of_completes henclosed h hrule hslot hattempt]
      exact Approximates.refl _

theorem parse_completes (source : Source) (start : Nat) :
    (approximation fun _ => True).rel (fun _ => True)
      (c.parse rule source start) (c'.parse rule source start) := by
  cases hslot : c.slot? rule with
  | none =>
    obtain ⟨error, -, herror⟩ := parse_of_slot?_eq_none hslot source start
    exact ⟨Or.inl ⟨error, trivial, herror⟩, fun _ _ => trivial⟩
  | some slot =>
    exact parse_rel (by rw [refer, refer, h.nameOf_eq hrule hslot])
      (ruleMatches_completes henclosed h hrule source start)

theorem parseAll_completes (source : Source) :
    (approximation fun _ => True).rel (fun _ => True)
      (c.parseAll rule source) (c'.parseAll rule source) := by
  cases hslot : c.slot? rule with
  | none =>
    obtain ⟨error, -, herror⟩ := parse_of_slot?_eq_none hslot source 0
    exact ⟨Or.inl ⟨error, trivial, by rw [parseAll, herror, error_bind]⟩, fun _ _ => trivial⟩
  | some slot =>
    exact parseAll_rel (by rw [refer, refer, h.nameOf_eq hrule hslot])
      (ruleMatches_completes henclosed h hrule source 0)

end

end Catalog

structure Store.ParsesOn (rule : RuleId) (store store' : Store) : Prop where
  ruleMatches (source : Source) (start : Nat) (attempt : Attempt) :
    (Edit.parsing (·.ruleMatches rule source start) store).1 = .ok attempt →
      (Edit.parsing (·.ruleMatches rule source start) store').1 = .ok attempt
  parse (source : Source) (start : Nat) (result : Except ParseError (Node × Nat)) :
    (Edit.parsing (·.parse rule source start) store).1 = .ok result →
      (Edit.parsing (·.parse rule source start) store').1 = .ok result
  parseAll (source : Source) (result : Except ParseError Node) :
    (Edit.parsing (·.parseAll rule source) store).1 = .ok result →
      (Edit.parsing (·.parseAll rule source) store').1 = .ok result

theorem Agree.follow {α : Type} {x x' y y' : Except GrammarError α} {a : α} (h : Agree x y)
    (happrox : Approximates (fun _ => True) y y') (h' : Agree x' y') (hx : x = .ok a) :
    x' = .ok a := by
  subst hx
  have hy : y = .ok a := h.symm.eq_of_ok
  subst hy
  rw [happrox.eq_of_ok] at h'
  exact h'.eq_of_ok

namespace Store

variable {held : Set Parser} {store store' : Store} {rule : RuleId}

theorem living_eq_of_completes
    (h : Catalog.Completes store.living store.catalog store'.catalog) :
    store'.living = store.living := by
  ext id
  exact ⟨h.lost id, fun hid => h.alive id hid hid⟩

theorem ParsesAnew.parsesOn (h : store.ParsesAnew rule) (h' : store'.ParsesAnew rule)
    (hcompletes : Catalog.Completes store.living store.catalog store'.catalog)
    (hliving : rule.grammar ∈ store.living) : ParsesOn rule store store' where
  ruleMatches source start _ := (h.ruleMatches source start).follow
    (Catalog.ruleMatches_completes store.enclosed_living hcompletes hliving source start).1
    (h'.ruleMatches source start)
  parse source start _ := (h.parse source start).follow
    (Catalog.parse_completes store.enclosed_living hcompletes hliving source start).1
    (h'.parse source start)
  parseAll source _ := (h.parseAll source).follow
    (Catalog.parseAll_completes store.enclosed_living hcompletes hliving source).1
    (h'.parseAll source)

/-- What differs in a rule only completes the catalog if the rule was unbound. -/
theorem Spares.completes (h : Spares rule ∅ store store') (hsane : Sane held store)
    (hnames : store.KeepsNames store') (hunbound : store.catalog.definition? rule = none) :
    Catalog.Completes store.living store.catalog store'.catalog where
  lost id hid := (h.alive id).symm.trans hid
  alive id _ hid := (h.alive id).trans hid
  bound other _ slot definition hbound := by
    obtain ⟨hslot, hdefinition⟩ := Catalog.exists_slot_of_bound hbound
    have hother : other ≠ rule := by
      rintro rfl
      simp [Catalog.definition?, hslot, hdefinition] at hunbound
    exact Catalog.bound_eq_ok_iff.2 ⟨(h.slot other hother).trans hslot, hdefinition⟩
  name other _ := hnames other
  mode mode branches hmode := by
    obtain ⟨other, slot, definition, -, hbound, hmode⟩ := hmode
    have hlt := hsane.mode_lt mode branches
      (Or.inr ⟨other, slot, definition, trivial, hbound, hmode⟩)
    exact h.mode mode hlt (Set.notMem_empty mode)

namespace Fresh

theorem quiet (h : store.Fresh) (hquiet : Quiet store store') : store'.Fresh := by
  have hsound := hquiet.sound store.enclosed_living h
  rwa [← hquiet.living_eq] at hsound

theorem ruleMatches (h : store.Fresh) (hsane : Sane held store) (rule : RuleId) (source : Source)
    (start : Nat) : (Edit.parsing (·.ruleMatches rule source start) store).2.Fresh :=
  (respects_ruleMatches store.catalog rule source start (store.catalog.within store.living)
    store.enclosed_living.closed (hsane.apart_within _ _) (hsane.apart_definition _) _ store.caches
      ⟨h, rfl⟩).1.1

theorem parsesAnew (h : store.Fresh) (hsane : Sane held store) 
    (hliving : rule.grammar ∈ store.living) : store.ParsesAnew rule :=
  store.enclosed_living.closed.parsesAnew (hsane.apart_within _ _) hliving h

/-- No cache is stale after a reconfiguration that leaves what is bound as it is. -/
theorem completes (h : store.Fresh) (hsane : Sane held store)
    (hliving : rule.grammar ∈ store.living) {change : Reconfiguration}
    (hneeds : ∀ parser, .parser parser ∈ change.needs → parser ∈ held)
    (hcompletes : Catalog.Completes store.living store.catalog
      (change.apply rule store).2.catalog) :
    (change.apply rule store).2.Fresh := by
  rcases Reconfiguration.turned hsane hliving hneeds with hnoop | hturned
  · rwa [hnoop]
  · have hspares := change.spares rule store
    rintro node ⟨other, slot, definition, hother, hbound, hwalk⟩ id hid key attempt hholds
    by_cases hhome : other.grammar = rule.grammar
    · exact absurd hholds
        (hturned.fresh node ⟨other, slot, definition, hhome, hbound, hwalk⟩ id hid key attempt)
    · have hnode := hspares.mem_within (fun heq => hhome (heq ▸ rfl)) hother hbound hwalk
      exact Catalog.explore_of_subsumed store.enclosed_living hcompletes.toSubsumed hnode
        (h node hnode id hid key attempt (hspares.holds id key attempt hholds))

end Fresh

def Unbound (store : Store) (rule : RuleId) (_ : Reconfiguration) (_ : List GrammarId) : Prop :=
  store.catalog.definition? rule = none

end Store

namespace Bench

variable {bench bench' : Bench}

theorem Turn.keepsNames {allowed : Store → RuleId → Reconfiguration → List GrammarId → Prop}
    (h : bench.Turn allowed bench') : bench.store.KeepsNames bench'.store := by
  have hsteps : bench.Steps bench' := h.steps
  clear h
  induction hsteps with
  | refl => exact .refl _
  | tail _ hstep ih => exact hstep.durable (Store.KeepsNames.durable _) ih

/-- A step keeps all that is bound, as long as it reconfigures unbound rules only. -/
theorem Turn.completes (h : bench.Turn Store.Unbound bench') (horderly : bench.Orderly) :
    Catalog.Completes bench.store.living bench.store.catalog bench'.store.catalog := by
  have hnames := h.keepsNames
  cases h with
  | prepare _ hquiet => exact (hquiet.agrees.mono (Set.subset_univ _)).completes
  | parse rule source start => exact (Catalog.Agrees.refl _ _).completes
  | @reconfigure rule change cleared hrule hneeds hunbound =>
    have hsets : change.sets bench.store.catalog rule = ∅ := by
      cases change with
      | setFirstMatch firstMatch =>
        ext mode
        simp [Reconfiguration.sets, show bench.store.catalog.definition? rule = none from hunbound]
      | _ => rfl
    have hspares := change.spares rule bench.store
    have hcatalog := Edit.catalog_clearAll cleared (change.apply rule bench.store).2
    have hnames : bench.store.KeepsNames (change.apply rule bench.store).2 :=
      fun other slot hslot => hcatalog ▸ hnames other slot hslot
    rw [hsets] at hspares
    exact hcatalog.symm ▸ hspares.completes horderly.sane hnames hunbound

theorem Turn.keepsFresh (h : bench.Turn Store.Unbound bench') (horderly : bench.Orderly)
    (hfresh : bench.store.Fresh) : bench'.store.Fresh := by
  have hcompletes := h.completes horderly
  cases h with
  | prepare _ hquiet => exact hfresh.quiet hquiet
  | parse rule source start => exact hfresh.ruleMatches horderly.sane rule source start
  | @reconfigure rule change cleared hrule hneeds _ =>
    have hcatalog := Edit.catalog_clearAll cleared (change.apply rule bench.store).2
    have hchanged : (change.apply rule bench.store).2.Fresh :=
      hfresh.completes horderly.sane (horderly.useful _ hrule).1
        (fun parser hparser => hneeds hparser) (hcatalog ▸ hcompletes)
    have hcleared := hchanged.of_holds fun id key attempt hholds =>
      (@Edit.holds_of_holds_clearAll cleared _ _ _ _ hholds).1
    rw [Store.Fresh, Store.living, Bench.edit, Bench.edit, hcatalog]
    exact hcleared

/-- In any row of such steps, no cache becomes stale and what is bound stays so. -/
theorem Turns.completes (h : bench.Turns Store.Unbound bench') (horderly : bench.Orderly)
    (hfresh : bench.store.Fresh) : bench'.Orderly ∧ bench'.store.Fresh ∧
      Catalog.Completes bench.store.living bench.store.catalog bench'.store.catalog := by
  induction h with
  | refl => exact ⟨horderly, hfresh, (Catalog.Agrees.refl _ _).completes⟩
  | tail _ hturn ih =>
    obtain ⟨horderly, hfresh, hcompletes⟩ := ih
    have hnext := hturn.completes horderly
    rw [Store.living_eq_of_completes hcompletes] at hnext
    exact ⟨hturn.steps.orderly horderly, hturn.keepsFresh horderly hfresh, hcompletes.trans hnext⟩

end Bench

/-- In a session without stale caches, a parse that ends without a grammar error ends in the same
way after any unbound rules were bound, to whatever definitions and with whatever parses and
preparations in between. -/
theorem Session.Reached.unbound_irrelevant {session : Session} (h : session.Reached)
    (hfresh : session.store.Fresh) {bench : Bench} (hturns : session.bench.Turns Store.Unbound bench)
    {rule : RuleId} (hliving : rule.grammar ∈ session.store.living) :
    Store.ParsesOn rule session.store bench.store := by
  obtain ⟨horderly, hfresh', hcompletes⟩ := hturns.completes h.orderly hfresh
  have hbefore := hfresh.parsesAnew h.orderly.sane hliving
  have hliving' : rule.grammar ∈ bench.store.living :=
    (Store.living_eq_of_completes hcompletes).symm ▸ hliving
  have hafter := hfresh'.parsesAnew horderly.sane hliving'
  exact hbefore.parsesOn hafter hcompletes hliving

theorem Session.Reached.unbound_irrelevant_choice :
    ∃ (session : Session) (rule unbound : RuleId) (bench : Bench) (node : Node), session.Reached ∧
      session.store.Fresh ∧ session.store.catalog.definition? unbound = none ∧
        session.bench.Turns Store.Unbound bench ∧
          bench.store.catalog.definition? unbound = some (.literal ⟨.text "xy", false⟩) ∧
            (Edit.parsing (·.parse rule (.ofString "xy") 0) session.store).1 =
              .ok (.ok (node, 1)) ∧
            (Edit.parsing (·.parse rule (.ofString "xy") 0) bench.store).1 = .ok (.ok (node, 1)) := by
  let terminal : Literal := ⟨.text "xy", false⟩
  let bound (store : Store) : Store := (Edit.setDefinition ⟨.core, 16⟩ (.literal terminal) store).2
  let check (session : Session) : Bool := session.store.caches.all (·.isEmpty) &&
    decide (session.store.catalog.lookup? .core "b" = some ⟨.core, 16⟩) &&
      (session.store.catalog.slot? ⟨.core, 16⟩).isSome &&
        (session.store.catalog.definition? ⟨.core, 16⟩).isNone &&
          decide (Catalog.stopOf
            (Edit.parsing (·.parse ⟨.core, 17⟩ (.ofString "xy") 0) session.store).1 = some 1)
  have hcheck : (Session.start.carryOut [.define "core" "a" (.alternation true
      [.literal ⟨.text "x", false⟩, .rule (.named "core" "b")]) none]).any check = true := by
    decide +kernel
  obtain ⟨session, hcarry, hcheck⟩ := (Option.any_eq_true _ _).1 hcheck
  simp only [check, Bool.and_eq_true, decide_eq_true_eq, Option.isNone_iff_eq_none] at hcheck
  obtain ⟨⟨⟨⟨hempty, hlookup⟩, hslot⟩, hunbound⟩, hstop⟩ := hcheck
  obtain ⟨slot, hslot⟩ := Option.isSome_iff_exists.1 hslot
  obtain ⟨node, hparse⟩ : ∃ node, (Edit.parsing (·.parse ⟨.core, 17⟩ (.ofString "xy") 0)
      session.store).1 = .ok (.ok (node, 1)) := by
    unfold Catalog.stopOf at hstop
    split at hstop
    next node stop hparse => cases hstop; exact ⟨node, hparse⟩
    next => cases hstop
  have hreached : session.Reached := Session.Reached.start.carryOut hcarry
  have hfresh : session.store.Fresh := .of_all_isEmpty hempty
  have hcore : .grammar .core ∈ session.bench.held := Session.Holds.core
  have hallowed : Store.Unbound session.bench.store ⟨.core, 16⟩ (.setDefinition (.literal terminal))
      [] := hunbound
  obtain ⟨held, hturns⟩ := Bench.exists_turns_redefine hcore hlookup terminal hallowed
  obtain ⟨hliving, hindex⟩ := hreached.orderly.useful _ .core
  have hbound : (bound session.store).catalog.definition? ⟨.core, 16⟩ = some (.literal terminal) :=
    Store.definition?_setDefinition hindex hslot (.literal terminal)
  have hon : Store.ParsesOn ⟨.core, 17⟩ session.store (bound session.store) :=
    hreached.unbound_irrelevant hfresh hturns hliving
  exact ⟨session, ⟨.core, 17⟩, ⟨.core, 16⟩, ⟨bound session.store, held⟩, node, hreached, hfresh,
    hunbound, hturns, hbound, hparse, hon.parse _ _ _ hparse⟩

end Metasyntax
