import Metasyntax.Proofs.Meaning
import Metasyntax.Proofs.Upkeep

/-!
# What a parse depends on

A parse of a rule reads the rules that can be come to from it and the modes of the
alternations in their definitions, and nothing else. Two catalogs that are the same as far as
these go give the same answers, and what caches remember of these stays sound.
-/

set_option autoImplicit false

namespace Metasyntax

structure Scope.Same (scope : Scope) (c c' : Catalog) : Prop where
  alive : ∀ id, c'.alive id = c.alive id
  slot : ∀ rule ∈ scope.rules, c'.slot? rule = c.slot? rule
  mode : ∀ mode branches, .alternation mode branches ∈ scope.nodes →
    c'.firstMatch mode = c.firstMatch mode

namespace Scope.Same

variable {scope : Scope} {c c' : Catalog}

theorem resolve_eq (h : scope.Same c c') (ref : RuleRef) : c'.resolve ref = c.resolve ref := by
  rw [Catalog.resolve, Catalog.resolve, h.alive]

theorem refer_eq (h : scope.Same c c') {rule : RuleId} (hrule : rule ∈ scope.rules) :
    c'.refer rule = c.refer rule := by
  rw [Catalog.refer, Catalog.refer, Catalog.nameOf, Catalog.nameOf, h.slot rule hrule]

theorem bound_eq (h : scope.Same c c') {rule : RuleId} (hrule : rule ∈ scope.rules) :
    c'.bound rule = c.bound rule := by
  rw [Catalog.bound, Catalog.bound, Catalog.nameOf, Catalog.nameOf, h.slot rule hrule]

theorem symm (h : scope.Same c c') : scope.Same c' c where
  alive id := (h.alive id).symm
  slot rule hrule := (h.slot rule hrule).symm
  mode mode branches hmode := (h.mode mode branches hmode).symm

theorem trans {c'' : Catalog} (h : scope.Same c c') (h' : scope.Same c' c'') :
    scope.Same c c'' where
  alive id := (h'.alive id).trans (h.alive id)
  slot rule hrule := (h'.slot rule hrule).trans (h.slot rule hrule)
  mode mode branches hmode := (h'.mode mode branches hmode).trans (h.mode mode branches hmode)

theorem closed (h : scope.Same c c') (hclosed : scope.Closed c) : scope.Closed c' where
  inner := hclosed.inner
  target ref href rule hrule := hclosed.target ref href rule (h.resolve_eq ref ▸ hrule)
  definition rule hrule slot definition hbound :=
    hclosed.definition rule hrule slot definition (h.bound_eq hrule ▸ hbound)
  exclusion rule hrule slot definition ref hbound hexclusion excluded hexcluded :=
    hclosed.exclusion rule hrule slot definition ref (h.bound_eq hrule ▸ hbound) hexclusion excluded
      (h.resolve_eq ref ▸ hexcluded)

variable (hclosed : scope.Closed c) (h : scope.Same c c')
include hclosed h

/-- What is answered in one catalog is answered in the other, errors included. -/
theorem call_rel (depth : Nat) (source : Source) {ref : RuleRef}
    (href : ∀ rule, c.resolve ref = .ok rule → rule ∈ scope.rules) (start : Nat) :
    (approximation fun _ => False).rel (StopsIn fun _ => True) (c.call depth source ref start)
      (c'.call depth source ref start) := by
  induction depth generalizing source ref start with
  | zero => exact (approximation _).throw _ trivial
  | succ depth ih =>
    refine callOnce_rel settling_true trivial (h.resolve_eq ref).symm fun rule hrule => ?_
    have hmem := href rule (h.resolve_eq ref ▸ hrule)
    exact
      { bound := (h.bound_eq hmem).symm
        refer := (h.refer_eq hmem).symm
        body := fun slot definition hbound => by
          rw [h.bound_eq hmem] at hbound
          have hwalk := hclosed.inner _ (hclosed.definition rule hmem slot definition hbound)
          exact
            { call := fun ref' href' o _ => ih source (hclosed.target ref' (hwalk _ href')) o
              mode := fun mode branches hmode => (h.mode mode branches (hwalk _ hmode)).symm
              remember := fun _ _ _ _ _ _ h => h }
        exclusion := fun slot definition ref' hbound hexclusion => by
          rw [h.bound_eq hmem] at hbound
          refine ⟨(h.resolve_eq ref').symm, fun excluded hexcluded source' _ => ?_⟩
          have hmem' := hclosed.exclusion rule hmem slot definition ref' hbound hexclusion excluded
            (h.resolve_eq ref' ▸ hexcluded)
          refine ⟨StopsIn fun _ => True, fun _ _ => (h.refer_eq hmem').symm, ?_⟩
          rw [h.refer_eq hmem']
          exact ih source' (fun rule' hrule' => Catalog.eq_of_resolve_refer hrule' ▸ hmem') 0 }

theorem call_eq (depth : Nat) (source : Source) {ref : RuleRef}
    (href : ∀ rule, c.resolve ref = .ok rule → rule ∈ scope.rules) (start : Nat) :
    (c'.call depth source ref start : Except GrammarError Attempt) =
      c.call depth source ref start :=
  ((h.call_rel hclosed depth source href start).1.resolve_left fun ⟨_, hfalse, _⟩ => hfalse).symm

/-- A parser of the scope ends in one catalog as it does in the other, unless it is given up. -/
theorem explore_approximates {node : Parser} (hnode : node ∈ scope.nodes) (source : Source)
    (start : Nat) : Approximates GrammarError.TooDeep
      (node.explore c.firstMatch (c.settled source) source start)
      (node.explore c'.firstMatch (c'.settled source) source start) := by
  have hwalk := hclosed.inner node hnode
  have hlinked : Linked (approximation fun _ => False) (fun _ => True) source c.firstMatch
      c'.firstMatch (c.settled source) (c'.call (c.depthBound source) source) node.walk :=
    { call := fun ref href o _ => h.call_rel hclosed _ source (hclosed.target ref (hwalk _ href)) o
      mode := fun mode branches hmode => (h.mode mode branches (hwalk _ hmode)).symm
      remember := fun _ _ _ _ _ _ h => h }
  have hsame := (enumerate_rel (settling_true.consume source) node hlinked start trivial).1
  rw [Parser.enumerate_eq_explore, Parser.enumerate_eq_explore] at hsame
  rw [hsame.resolve_left fun ⟨_, hfalse, _⟩ => hfalse]
  exact explore_approximates_settled _ node source start

theorem explore_eq_ok {node : Parser} (hnode : node ∈ scope.nodes) {source : Source} {start : Nat}
    {attempt : Attempt}
    (hattempt : node.explore c.firstMatch (c.settled source) source start = .ok attempt) :
    node.explore c'.firstMatch (c'.settled source) source start = .ok attempt := by
  have happrox := h.explore_approximates hclosed hnode source start
  rw [hattempt] at happrox
  exact happrox.eq_of_ok

theorem sound {caches : Caches} (hsound : Sound c scope.nodes caches) :
    Sound c' scope.nodes caches := fun node hnode id hid key attempt hholds =>
  h.explore_eq_ok hclosed hnode (hsound node hnode id hid key attempt hholds)

theorem ruleMatches_approximates {rule : RuleId} (hrule : rule ∈ scope.rules) (source : Source)
    (start : Nat) : (approximation GrammarError.TooDeep).rel (StopsIn fun _ => True)
      (c.ruleMatches rule source start) (c'.ruleMatches rule source start) := by
  have href : ∀ rule', c.resolve (c.refer rule) = .ok rule' → rule' ∈ scope.rules :=
    fun rule' hrule' => Catalog.eq_of_resolve_refer hrule' ▸ hrule
  refine ⟨?_, fun _ _ _ _ _ _ => trivial⟩
  rw [Catalog.ruleMatches, Catalog.ruleMatches, h.refer_eq hrule,
    ← h.call_eq hclosed (c.depthBound source) source href start]
  exact Catalog.call_approximates_settled _ source _ start

end Scope.Same

namespace Scope.Closed

variable {scope : Scope} {catalog : Catalog}

/-- A scope stays closed where nothing is bound anew. -/
theorem agrees (hclosed : scope.Closed catalog) {later : Catalog}
    (h : Catalog.Agrees Set.univ catalog later) : scope.Closed later where
  inner := hclosed.inner
  target ref href rule hrule := hclosed.target ref href rule (h.resolve_of_resolve hrule)
  definition rule hrule slot definition hbound := hclosed.definition rule hrule slot definition
    ((h.bound rule trivial slot definition).1 hbound)
  exclusion rule hrule slot definition ref hbound hexclusion excluded hexcluded :=
    hclosed.exclusion rule hrule slot definition ref
      ((h.bound rule trivial slot definition).1 hbound) hexclusion excluded
        (h.resolve_of_resolve hexcluded)

/-- A rule of a closed scope leads to no caches but those of the scope. -/
theorem mem_of_mem_scopeOf_refer (hclosed : scope.Closed catalog) {rule : RuleId}
    (hrule : catalog.alive rule.grammar = true → rule ∈ scope.rules) {node : Parser}
    (hnode : node ∈ (catalog.scopeOf (.rule (catalog.refer rule))).nodes) {id : CacheId}
    (hid : node.cache? = some id) : node ∈ scope.nodes := by
  rcases hnode with hnode | ⟨ref, other, slot, definition, hleads, hresolve, hbound, hnode⟩
  · cases List.mem_singleton.1 hnode
    cases hid
  · have hother : other ∈ scope.rules := by
      refine hleads.mem_rules hclosed (fun ref href rule' hrule' => ?_) hresolve
      cases List.mem_singleton.1 (Parser.mem_references.1 href)
      obtain rfl := Catalog.eq_of_resolve_refer hrule'
      exact hrule (Catalog.alive_of_resolve hrule')
    exact hclosed.inner _ (hclosed.definition other hother slot definition hbound) node hnode

end Scope.Closed

section
variable {α : Type} {x y z : Except GrammarError α}

theorem Agree.symm (h : Agree x y) : Agree y x :=
  h.imp Eq.symm And.symm

theorem Agree.eq_of_ok {a : α} (h : Agree x (.ok a)) : x = .ok a := by
  rcases h with h | ⟨-, error, -, h⟩
  · exact h
  · cases h

theorem Agree.trans (h : Agree x y) (h' : Agree y z) : Agree x z := by
  rcases h with rfl | ⟨hx, error, hdeep, rfl⟩
  · exact h'
  · rcases h' with rfl | ⟨-, hz⟩
    · exact Or.inr ⟨hx, error, hdeep, rfl⟩
    · exact Or.inr ⟨hx, hz⟩

theorem Agree.of_approximates (h : Approximates GrammarError.TooDeep x y)
    (h' : Approximates GrammarError.TooDeep y x) : Agree x y := by
  rcases h with hx | rfl
  · rcases h' with hy | rfl
    · exact Or.inr ⟨hx, hy⟩
    · exact Or.inl rfl
  · exact Or.inl rfl

end

/-- All parses of a rule end as they do without caches. -/
structure Store.ParsesAnew (store : Store) (rule : RuleId) : Prop where
  ruleMatches (source : Source) (start : Nat) :
    Agree (Edit.parsing (·.ruleMatches rule source start) store).1
      (store.catalog.ruleMatches rule source start)
  parse (source : Source) (start : Nat) :
    Agree (Edit.parsing (·.parse rule source start) store).1
      (store.catalog.parse rule source start)
  parseAll (source : Source) :
    Agree (Edit.parsing (·.parseAll rule source) store).1 (store.catalog.parseAll rule source)

theorem Scope.Closed.parsesAnew {scope : Scope} {store : Store}
    (hclosed : scope.Closed store.catalog) (hapart : Apart scope.nodes scope.nodes) {rule : RuleId}
    (hrule : rule ∈ scope.rules) (hsound : Sound store.catalog scope.nodes store.caches) :
    store.ParsesAnew rule := by
  have hmatches := ruleMatches_agrees hclosed hapart hrule
  exact
    { ruleMatches := fun source start => (hmatches source start _ hsound).1
      parse := fun source start => (parse_rel rfl (hmatches source start) _ hsound).1
      parseAll := fun source => (parseAll_rel rfl (hmatches source 0) _ hsound).1 }

structure Store.ParsesAlike (rule : RuleId) (store store' : Store) : Prop where
  ruleMatches (source : Source) (start : Nat) :
    Agree (Edit.parsing (·.ruleMatches rule source start) store).1
      (Edit.parsing (·.ruleMatches rule source start) store').1
  parse (source : Source) (start : Nat) :
    Agree (Edit.parsing (·.parse rule source start) store).1
      (Edit.parsing (·.parse rule source start) store').1
  parseAll (source : Source) :
    Agree (Edit.parsing (·.parseAll rule source) store).1
      (Edit.parsing (·.parseAll rule source) store').1

/-- Stores that are the same as far as a rule goes, and whose caches are sound as far as it
goes, parse the rule alike. -/
theorem Scope.Same.parsesAlike {scope : Scope} {store store' : Store}
    (h : scope.Same store.catalog store'.catalog) (hclosed : scope.Closed store.catalog)
    (hapart : Apart scope.nodes scope.nodes) {rule : RuleId} (hrule : rule ∈ scope.rules)
    (hsound : Sound store.catalog scope.nodes store.caches)
    (hsound' : Sound store'.catalog scope.nodes store'.caches) :
    Store.ParsesAlike rule store store' := by
  have hbefore := hclosed.parsesAnew hapart hrule hsound
  have hafter := (h.closed hclosed).parsesAnew hapart hrule hsound'
  have hrefer := h.refer_eq hrule
  have hgo := h.ruleMatches_approximates hclosed hrule
  have hback := h.symm.ruleMatches_approximates (h.closed hclosed) hrule
  exact
    { ruleMatches := fun source start => (hbefore.ruleMatches source start).trans
        (.trans (.of_approximates (hgo source start).1 (hback source start).1)
          (hafter.ruleMatches source start).symm)
      parse := fun source start => (hbefore.parse source start).trans
        (.trans (.of_approximates (parse_rel hrefer.symm (hgo source start)).1
          (parse_rel hrefer (hback source start)).1) (hafter.parse source start).symm)
      parseAll := fun source => (hbefore.parseAll source).trans
        (.trans (.of_approximates (parseAll_rel hrefer.symm (hgo source 0)).1
          (parseAll_rel hrefer (hback source 0)).1) (hafter.parseAll source).symm) }

end Metasyntax
