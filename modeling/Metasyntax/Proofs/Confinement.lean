import Metasyntax.Proofs.Growth
import Metasyntax.Proofs.Reconfiguration
import Metasyntax.Proofs.Retention

/-!
# Rules that lead to little

What a rule leads to, and what a parse of it without caches reports, can be computed. A rule that
leads to few rules, none of which excludes anything, is answered whatever is remembered. One whose
caches are all in one grammar parses without them after any change in that grammar, since that
empties them.
-/

set_option autoImplicit false

namespace Metasyntax

namespace Catalog

variable {catalog : Catalog} {id : GrammarId} {rules : List RuleId}

def isShallow (catalog : Catalog) : Nat → RuleRef → Bool
  | 0, _ => false
  | steps + 1, ref =>
    match catalog.resolve ref with
    | .error _ => false
    | .ok rule =>
      match catalog.bound rule with
      | .error _ => false
      | .ok (slot, definition) =>
        slot.exclusion.isNone && definition.references.all (catalog.isShallow steps)

theorem exists_of_isShallow {steps : Nat} {ref : RuleRef} (h : catalog.isShallow steps ref = true) :
    ∃ fewer rule slot definition, steps = fewer + 1 ∧ catalog.resolve ref = .ok rule ∧
      catalog.bound rule = .ok (slot, definition) ∧ slot.exclusion = none ∧
        ∀ ref' ∈ definition.references, catalog.isShallow fewer ref' = true := by
  cases steps with
  | zero => cases h
  | succ fewer =>
    rw [isShallow] at h
    split at h
    case h_1 => cases h
    case h_2 rule hresolve =>
      split at h
      case h_1 => cases h
      case h_2 slot definition hbound =>
        rw [Bool.and_eq_true, List.all_eq_true, Option.isNone_iff_eq_none] at h
        exact ⟨fewer, rule, slot, definition, rfl, hresolve, hbound, h⟩

/-- A call that leads to no more than its depth allows is answered, whatever is remembered. -/
theorem call_answers {steps depth : Nat} (hdepth : steps ≤ depth) {ref : RuleRef}
    (h : catalog.isShallow steps ref = true) (source : Source) (start : Nat) :
    (failing fun _ => False).rel (StopsIn fun _ => True) (catalog.call depth source ref start)
      (catalog.call depth source ref start) := by
  induction depth generalizing steps ref start with
  | zero =>
    obtain ⟨fewer, _, _, _, rfl, -⟩ := exists_of_isShallow h
    cases hdepth
  | succ depth ih =>
    obtain ⟨fewer, rule, slot, definition, rfl, hresolve, hbound, hnone, hreferences⟩ :=
      exists_of_isShallow h
    refine callOnce_rel settling_true trivial rfl (fun rule' hrule' => ?_) fun error herror => ?_
    · cases hresolve.symm.trans hrule'
      exact
        { bound := rfl
          refer := rfl
          body := fun slot' definition' hbound' =>
            { call := fun ref' href' o _ => by
                cases hbound.symm.trans hbound'
                exact ih (by omega) (hreferences ref' (Parser.mem_references.2 href')) o
              mode := fun _ _ _ => rfl
              remember := fun _ _ _ _ _ _ hrun => remembered_fails (fun _ _ _ _ _ => trivial) hrun }
          exclusion := fun slot' definition' ref' hbound' hexclusion => by
            cases hbound.symm.trans hbound'
            cases hnone.symm.trans hexclusion
          unbound := fun error herror => by cases hbound.symm.trans herror
          dangling := fun slot' definition' ref' hbound' hexclusion => by
            cases hbound.symm.trans hbound'
            cases hnone.symm.trans hexclusion }
    · cases hresolve.symm.trans herror

def isConfined (catalog : Catalog) (id : GrammarId) (rules : List RuleId) : Bool :=
  rules.all fun rule =>
    match catalog.bound rule with
    | .error _ => true
    | .ok (slot, definition) => slot.exclusion.isNone &&
        definition.references.all (rules.contains ·.target) &&
          (decide (rule.grammar = id) || definition.caches.isEmpty)

theorem isConfined_iff : catalog.isConfined id rules = true ↔
    ∀ rule ∈ rules, ∀ slot definition, catalog.bound rule = .ok (slot, definition) →
      (slot.exclusion = none ∧ ∀ ref ∈ definition.references, ref.target ∈ rules) ∧
        (rule.grammar = id ∨ definition.caches = []) := by
  rw [isConfined, List.all_eq_true]
  refine forall₂_congr fun rule _ => ?_
  cases hbound : catalog.bound rule with
  | error error => simp
  | ok body =>
    obtain ⟨slot, definition⟩ := body
    simp [Option.isNone_iff_eq_none, List.isEmpty_iff]

theorem target_mem_of_isConfined (h : catalog.isConfined id rules = true) {rule : RuleId}
    (hrule : rule ∈ rules) {ref : RuleRef} (href : catalog.Leads (.rule (catalog.refer rule)) ref) :
    ref.target ∈ rules := by
  rw [isConfined_iff] at h
  induction href with
  | here href =>
    cases List.mem_singleton.1 (Parser.mem_references.1 href)
    exact hrule
  | definition _ hresolve hbound href ih =>
    rw [eq_of_resolve hresolve] at hbound
    exact (h _ ih _ _ hbound).1.2 _ href
  | exclusion _ hresolve hbound hexclusion ih =>
    rw [eq_of_resolve hresolve] at hbound
    cases (h _ ih _ _ hbound).1.1.symm.trans hexclusion

/-- What has a cache among all that a confined rule leads to is part of the grammar's rules. -/
theorem mem_within_of_isConfined (h : catalog.isConfined id rules = true) {rule : RuleId}
    (hrule : rule ∈ rules) {node : Parser}
    (hnode : node ∈ (catalog.scopeOf (.rule (catalog.refer rule))).nodes) {cache : CacheId}
    (hcache : node.cache? = some cache) : node ∈ (catalog.within {id}).nodes := by
  rcases hnode with hnode | ⟨ref, other, slot, definition, href, hresolve, hbound, hnode⟩
  · cases List.mem_singleton.1 hnode
    cases hcache
  · have hmem := target_mem_of_isConfined h hrule href
    obtain rfl := eq_of_resolve hresolve
    rcases (isConfined_iff.1 h _ hmem _ _ hbound).2 with hgrammar | hcaches
    · exact ⟨_, slot, definition, hgrammar, hbound, hnode⟩
    · have hmem : cache ∈ definition.caches := List.mem_filterMap.2 ⟨node, hnode, hcache⟩
      rw [hcaches] at hmem
      cases hmem

theorem firstMatch_eq_false (h : catalog.modes.all (!·) = true) (mode : ModeId) :
    catalog.firstMatch mode = false := by
  rw [Array.all_eq_true_iff_forall_mem] at h
  rw [firstMatch]
  cases hmode : catalog.modes[mode.index]? with
  | none => rfl
  | some value => simpa using h value (Array.mem_of_getElem? hmode)

def reportsEnd (catalog : Catalog) (rule : RuleId) (source : Source) (e : Nat) : Bool :=
  match (catalog.ruleMatches rule source 0 : Except GrammarError Attempt) with
  | .ok (.ok found) => found.stops.contains e
  | _ => false

theorem reportsEnd_iff {rule : RuleId} {source : Source} {e : Nat} :
    catalog.reportsEnd rule source e = true ↔ ∃ found : MatchSet, catalog.ruleMatches rule source 0 =
      (.ok (.ok found) : Except GrammarError Attempt) ∧ e ∈ found.stops := by
  rw [reportsEnd]
  split
  case h_1 found hfound => simp [hfound]
  case h_2 hnone =>
    exact ⟨nofun, fun ⟨found, hfound, _⟩ => absurd hfound (hnone found)⟩

end Catalog

/-- A rule that leads to no more rules than there are is answered, whatever is remembered. -/
theorem Store.answers_of_isShallow {store : Store} {rule : RuleId}
    (h : store.catalog.isShallow store.catalog.ruleCount (store.catalog.refer rule) = true) :
    store.Answers rule := by
  intro source start
  have hdepth : store.catalog.ruleCount ≤ store.catalog.depthBound source :=
    (Nat.le_mul_of_pos_right _ (Nat.succ_pos _)).trans (Nat.le_succ _)
  have hfails := (Catalog.call_answers hdepth h source start store.caches).1
  change ∃ attempt, ((store.catalog.ruleMatches rule source start : Run _).run store.caches).1 = _
  rw [Catalog.ruleMatches]
  cases hanswer : ((store.catalog.call (store.catalog.depthBound source) source
      (store.catalog.refer rule) start : Run Attempt).run store.caches).1 with
  | error error => exact absurd (hfails error hanswer) not_false
  | ok attempt => exact ⟨attempt, rfl⟩

theorem Store.ParsesAnew.reports_iff {store : Store} {rule : RuleId} (h : store.ParsesAnew rule)
    {source : Source} {e : Nat} :
    store.Reports rule source 0 e ↔ store.catalog.reportsEnd rule source e = true := by
  rw [Catalog.reportsEnd_iff]
  constructor
  · rintro ⟨found, hfound, he⟩
    have hanew := h.ruleMatches source 0
    rw [hfound] at hanew
    exact ⟨found, hanew.symm.eq_of_ok, he⟩
  · rintro ⟨found, hfound, he⟩
    have hanew := h.ruleMatches source 0
    rw [hfound] at hanew
    exact ⟨found, hanew.eq_of_ok, he⟩

theorem Turned.parsesAnew_of_isConfined {id : GrammarId} {foreign : Set GrammarId} {origin : Catalog}
    {held : Set Parser} {store : Store} (h : Turned id foreign origin held store)
    {rules : List RuleId} {rule : RuleId} (hconfined : store.catalog.isConfined id rules = true)
    (hmem : rule ∈ rules) (hgrammar : rule.grammar = id) : store.ParsesAnew rule := by
  have hcurrent : store.Current rule := fun node hnode cache hcache key attempt hholds =>
    absurd hholds (h.fresh node (Catalog.mem_within_of_isConfined hconfined hmem hnode hcache)
      cache hcache key attempt)
  exact hcurrent.parsesAnew h.sane (hgrammar ▸ h.living)

end Metasyntax
