import Mathlib.Data.Fintype.Card
import Mathlib.Data.Fintype.Order
import Mathlib.Logic.Relation
import Metasyntax.Proofs.Adequacy
import Metasyntax.Proofs.Transparency

/-!
# A parse has the ends that the grammar means

Where every rule that can be asked for is bound and none comes back to itself on
the same stretch of text, every parser has a meaning, and a parse from empty caches
ends with exactly its ends. A meaning is found by going through the rules in the
order in which they wait for one another: all places with less room first, then at
one place the rules that are called before those that call them.
-/

set_option autoImplicit false

namespace Metasyntax

namespace Parser

section
variable {firstMatch : ModeId → Bool} {meaning : RuleRef → Nat → Set Nat} {source : Source}

mutual
/-- A parser asks for rules that it refers to. -/
theorem mem_walk_of_asks (parser : Parser) {start : Nat} {ref : RuleRef} {o : Nat}
    (h : parser.Asks firstMatch meaning source start ref o) : .rule ref ∈ parser.walk := by
  cases parser with
  | literal terminal | prose text => exact absurd h (by simp [Asks])
  | alternation mode branches =>
    rw [Asks] at h
    split at h
    · simp [walk, mem_walkAll_of_firstAsks branches h]
    · simp [walk, mem_walkAll_of_anyAsks branches h]
  | concatenation parts =>
    rw [Asks] at h
    simp [walk, mem_walkAll_of_composedAsks parts h]
  | optional cache element =>
    rw [Asks] at h
    simp [walk, mem_walk_of_asks element h]
  | repetition cache bounds element =>
    rw [Asks] at h
    obtain ⟨-, -, o', -, h⟩ := h
    simp [walk, mem_walk_of_asks element h]
  | rule ref' =>
    rw [Asks] at h
    simp [walk, h.1]

theorem mem_walkAll_of_anyAsks (branches : List Parser) {start : Nat} {ref : RuleRef} {o : Nat}
    (h : AnyAsks firstMatch meaning source branches start ref o) :
    .rule ref ∈ walkAll branches := by
  cases branches with
  | nil => exact absurd h (by simp [AnyAsks])
  | cons branch rest =>
    rw [AnyAsks] at h
    rw [walkAll, List.mem_append]
    exact h.imp (mem_walk_of_asks branch) (mem_walkAll_of_anyAsks rest)

theorem mem_walkAll_of_firstAsks (branches : List Parser) {start : Nat} {ref : RuleRef} {o : Nat}
    (h : FirstAsks firstMatch meaning source branches start ref o) :
    .rule ref ∈ walkAll branches := by
  cases branches with
  | nil => exact absurd h (by simp [FirstAsks])
  | cons branch rest =>
    rw [FirstAsks] at h
    rw [walkAll, List.mem_append]
    exact h.imp (mem_walk_of_asks branch) fun h => mem_walkAll_of_firstAsks rest h.2

theorem mem_walkAll_of_composedAsks (parts : List Parser) {start : Nat} {ref : RuleRef} {o : Nat}
    (h : ComposedAsks firstMatch meaning source parts start ref o) :
    .rule ref ∈ walkAll parts := by
  cases parts with
  | nil => exact absurd h (by simp [ComposedAsks])
  | cons part rest =>
    rw [ComposedAsks] at h
    rw [walkAll, List.mem_append]
    exact h.imp (mem_walk_of_asks part) fun ⟨_, _, h⟩ => mem_walkAll_of_composedAsks rest h
end

end

end Parser

/-- Whether an attempt takes all of a text is a question of the ends it found. -/
theorem Attempt.takesAll_iff {attempt : Attempt} {source : Source} {ends : Set Nat}
    (h : attempt.Found ends) (honward : ∀ e ∈ ends, Onward source 0 e) :
    attempt.takesAll source = true ↔ source.size ∈ ends := by
  cases attempt with
  | error failure =>
    have hnone : ends = ∅ := h
    simp [takesAll, hnone]
  | ok found =>
    have hle : ∀ m ∈ found.toList, m.stop ≤ source.size := fun m hm => by
      rcases honward _ ((h.2 _).1 (MatchSet.mem_stops.2 ⟨m, hm, rfl⟩)) with h0 | h0 <;> omega
    rw [← h.2, MatchSet.mem_stops, takesAll]
    cases hlongest : found.longest? with
    | none =>
      rw [MatchSet.longest?_eq_head?, List.head?_eq_none_iff] at hlongest
      simp [hlongest]
    | some m =>
      have hm : m ∈ found.toList := List.mem_of_head? hlongest
      simp only [Option.any_some, decide_eq_true_eq]
      constructor
      · exact fun hsize => ⟨m, hm, le_antisymm (hle m hm) hsize⟩
      · rintro ⟨m', hm', hsize⟩
        exact hsize ▸ MatchSet.stop_le_of_longest? hlongest hm'

theorem vetoed_eq {accepts : String → Except GrammarError Bool} {accepted : Nat → Bool}
    (source : Source) (start : Nat) (candidates : List Match)
    (h : ∀ m ∈ candidates, accepts ((source.slice start m.stop).getD "") = .ok (accepted m.stop)) :
    vetoed accepts source start candidates = .ok ((candidates.map (·.stop)).filter accepted) := by
  induction candidates with
  | nil => rfl
  | cons candidate rest ih =>
    rw [vetoed, h candidate (by simp), ih fun m hm => h m (by simp [hm])]
    change Except.ok (if accepted candidate.stop = true then _ else _) = _
    rw [List.map_cons, List.filter_cons]

namespace Catalog

variable {catalog : Catalog}

section
variable {call : Source → RuleRef → Nat → Except GrammarError Attempt} {source : Source}
  {ref : RuleRef} {start : Nat} {rule : RuleId} {slot : Slot} {definition : Parser}
  {meaning : RuleRef → Nat → Set Nat}
variable (hresolve : catalog.resolve ref = .ok rule)
  (hbound : catalog.bound rule = .ok (slot, definition))
  (hordered : Parser.Ordered definition.walk)
  (hanswered : Parser.Answered source meaning (call source)
    (definition.Asks catalog.firstMatch meaning source start))
include hresolve hbound hordered hanswered

theorem callOnce_finds (hexclusion : slot.exclusion = none) :
    ∃ attempt, catalog.callOnce call source ref start = .ok attempt ∧
      attempt.Found (definition.ends catalog.firstMatch meaning source start) := by
  obtain ⟨attempt, henumerate, hfound⟩ :=
    Parser.enumerate_finds definition hordered start hanswered
  simp only [callOnce, hresolve, hbound, ofExcept_eq, ok_bind, henumerate]
  cases attempt with
  | error failure => exact ⟨_, rfl, hfound⟩
  | ok candidates =>
    simp only [hexclusion]
    exact ⟨_, rfl, hfound.1, by simpa using hfound.2⟩

theorem callOnce_finds_restricted {exclusion : RuleRef} {excluded : RuleId}
    (hexclusion : slot.exclusion = some exclusion)
    (hexcluded : catalog.resolve exclusion = .ok excluded) {vetoes : Nat → Set Nat}
    (hvetoes : ∀ e ∈ definition.ends catalog.firstMatch meaning source start,
      Finds (call (.ofString ((source.slice start e).getD "")) (catalog.refer excluded))
        (fun _ => vetoes e) 0 ∧
      ∀ e' ∈ vetoes e, Onward (.ofString ((source.slice start e).getD "")) 0 e') :
    ∃ attempt, catalog.callOnce call source ref start = .ok attempt ∧
      attempt.Found {e | e ∈ definition.ends catalog.firstMatch meaning source start ∧
        (Source.ofString ((source.slice start e).getD "")).size ∉ vetoes e} := by
  classical
  obtain ⟨attempt, henumerate, hfound⟩ :=
    Parser.enumerate_finds definition hordered start hanswered
  simp only [callOnce, hresolve, hbound, ofExcept_eq, ok_bind, henumerate]
  cases attempt with
  | error failure =>
    have hnone : definition.ends catalog.firstMatch meaning source start = ∅ := hfound
    exact ⟨_, rfl, by simp [Attempt.Found, hnone]⟩
  | ok candidates =>
    let accepted : Nat → Bool := fun e =>
      decide ((Source.ofString ((source.slice start e).getD "")).size ∈ vetoes e)
    let accepts : String → Except GrammarError Bool := fun text =>
      call (.ofString text) (catalog.refer excluded) 0 >>= fun attempt =>
        pure (attempt.takesAll (.ofString text))
    have haccepts : ∀ m ∈ candidates.toList,
        accepts ((source.slice start m.stop).getD "") = .ok (accepted m.stop) := by
      intro m hm
      obtain ⟨⟨attempt, hcall, hveto⟩, honward⟩ :=
        hvetoes m.stop ((hfound.2 _).1 (MatchSet.mem_stops.2 ⟨m, hm, rfl⟩))
      have hiff := Attempt.takesAll_iff hveto honward
      dsimp only [accepts]
      rw [hcall, ok_bind]
      exact congrArg Except.ok (Bool.eq_iff_iff.2 (by simpa [accepted] using hiff))
    have hvetoed := vetoed_eq source start candidates.toList haccepts
    simp only [hexclusion, hexcluded, ok_bind, accepts] at hvetoed ⊢
    rw [hvetoed, ok_bind]
    refine ⟨_, rfl, Progress.found_settle (fun e => ?_) _ _⟩
    let vetoed := (candidates.toList.map (·.stop)).filter accepted
    rw [MatchSet.stops_mapNodes]
    refine (MatchSet.mem_stops_filter fun e => !vetoed.contains e).trans ?_
    rw [hfound.2]
    refine and_congr_right fun he => ?_
    have hstop : e ∈ candidates.toList.map (·.stop) := (hfound.2 e).2 he
    simp only [vetoed, List.contains_eq_mem, List.mem_filter, hstop, true_and, accepted,
      decide_eq_true_eq, Bool.not_eq_true', decide_eq_false_iff_not]

end

inductive Leads (catalog : Catalog) (parser : Parser) : RuleRef → Prop
  | here {ref : RuleRef} : ref ∈ parser.references → Leads catalog parser ref
  | definition {ref ref' : RuleRef} {rule : RuleId} {slot : Slot} {definition : Parser} :
      Leads catalog parser ref → catalog.resolve ref = .ok rule →
      catalog.bound rule = .ok (slot, definition) → ref' ∈ definition.references →
      Leads catalog parser ref'
  | exclusion {ref ref' : RuleRef} {rule : RuleId} {slot : Slot} {definition : Parser} :
      Leads catalog parser ref → catalog.resolve ref = .ok rule →
      catalog.bound rule = .ok (slot, definition) → slot.exclusion = some ref' →
      Leads catalog parser ref'

/-- The rules that can be come to from a parser, and all parsers in them and in it. -/
def scopeOf (catalog : Catalog) (parser : Parser) : Scope where
  rules := {rule | ∃ ref, catalog.Leads parser ref ∧ catalog.resolve ref = .ok rule}
  nodes := {node | node ∈ parser.walk ∨ ∃ ref rule slot definition, catalog.Leads parser ref ∧
    catalog.resolve ref = .ok rule ∧ catalog.bound rule = .ok (slot, definition) ∧
      node ∈ definition.walk}

theorem closed_scopeOf (catalog : Catalog) (parser : Parser) :
    (catalog.scopeOf parser).Closed catalog where
  inner := by
    rintro node (hnode | ⟨ref, rule, slot, definition, href, hresolve, hbound, hnode⟩) part hpart
    · exact Or.inl (parser.walk_trans hnode hpart)
    · exact Or.inr ⟨ref, rule, slot, definition, href, hresolve, hbound,
        definition.walk_trans hnode hpart⟩
  target := by
    rintro ref (hnode | ⟨ref', rule', slot, definition, href, hresolve, hbound, hnode⟩) rule hrule
    · exact ⟨ref, .here (Parser.mem_references.2 hnode), hrule⟩
    · exact ⟨ref, .definition href hresolve hbound (Parser.mem_references.2 hnode), hrule⟩
  definition := by
    rintro rule ⟨ref, href, hresolve⟩ slot definition hbound
    exact Or.inr ⟨ref, rule, slot, definition, href, hresolve, hbound, definition.self_mem_walk⟩
  exclusion := by
    rintro rule ⟨ref, href, hresolve⟩ slot definition ref' hbound hexclusion excluded hexcluded
    exact ⟨ref', .exclusion href hresolve hbound hexclusion, hexcluded⟩

/-- What can be come to from parsers that refer into a closed scope is in the scope. -/
theorem Leads.mem_rules {catalog : Catalog} {scope : Scope} (hclosed : scope.Closed catalog)
    {parser : Parser} (hparser : ∀ ref ∈ parser.references, ∀ rule,
      catalog.resolve ref = .ok rule → rule ∈ scope.rules) {ref : RuleRef}
    (h : catalog.Leads parser ref) {rule : RuleId} (hresolve : catalog.resolve ref = .ok rule) :
    rule ∈ scope.rules := by
  induction h generalizing rule with
  | here href => exact hparser _ href rule hresolve
  | definition _ hresolve' hbound href ih =>
    have hdefinition := hclosed.definition _ (ih hresolve') _ _ hbound
    exact hclosed.target _ (hclosed.inner _ hdefinition _ (Parser.mem_references.1 href)) rule
      hresolve
  | exclusion _ hresolve' hbound hexclusion ih =>
    exact hclosed.exclusion _ (ih hresolve') _ _ _ hbound hexclusion rule hresolve

theorem leads_self (catalog : Catalog) (ref : RuleRef) : catalog.Leads (.rule ref) ref :=
  .here (Parser.mem_references.2 (Parser.self_mem_walk _))

theorem leads_of_mem_scopeOf {catalog : Catalog} {parser : Parser} {ref : RuleRef}
    (h : .rule ref ∈ (catalog.scopeOf parser).nodes) : catalog.Leads parser ref := by
  rcases h with h | ⟨ref', rule, slot, definition, hleads, hresolve, hbound, h⟩
  · exact .here (Parser.mem_references.2 h)
  · exact .definition hleads hresolve hbound (Parser.mem_references.2 h)

def isLeaf (catalog : Catalog) (rule : RuleId) : Bool :=
  match catalog.bound rule with
  | .ok (slot, definition) => definition.references.isEmpty && slot.exclusion.isNone
  | .error _ => false

/-- Nothing can be come to from a rule that refers to nothing. -/
theorem eq_of_leads_of_isLeaf {catalog : Catalog} {ref ref' : RuleRef}
    (hleaf : catalog.isLeaf ref.target = true) (h : catalog.Leads (.rule ref) ref') : ref' = ref := by
  induction h with
  | here href => simpa [Parser.references, Parser.walk] using href
  | definition _ hresolve hbound href ih =>
    subst ih
    rw [eq_of_resolve hresolve] at hbound
    rw [isLeaf, hbound] at hleaf
    simp only [Bool.and_eq_true, List.isEmpty_iff] at hleaf
    rw [hleaf.1] at href
    cases href
  | exclusion _ hresolve hbound hexclusion ih =>
    subst ih
    rw [eq_of_resolve hresolve] at hbound
    rw [isLeaf, hbound] at hleaf
    simp [hexclusion] at hleaf

theorem eq_of_mem_rules_of_isLeaf {catalog : Catalog} {rule other : RuleId}
    (hleaf : catalog.isLeaf rule = true)
    (h : other ∈ (catalog.scopeOf (.rule (catalog.refer rule))).rules) : other = rule := by
  obtain ⟨ref, hleads, hresolve⟩ := h
  rw [eq_of_leads_of_isLeaf hleaf hleads] at hresolve
  exact eq_of_resolve_refer hresolve

structure Question where
  source : Source
  rule : RuleId
  start : Nat

def meaning (catalog : Catalog) (source : Source) (ref : RuleRef) (start : Nat) : Set Nat :=
  {e | ∃ ends, catalog.Means source ref start ends ∧ e ∈ ends}

inductive Calls (catalog : Catalog) : Question → Question → Prop
  | definition {source : Source} {rule rule' : RuleId} {start o : Nat} {slot : Slot}
      {definition : Parser} {ref : RuleRef} :
      catalog.bound rule = .ok (slot, definition) →
      definition.Asks catalog.firstMatch (catalog.meaning source) source start ref o →
      catalog.resolve ref = .ok rule' →
      Calls catalog ⟨source, rule, start⟩ ⟨source, rule', o⟩
  | exclusion {source : Source} {rule excluded : RuleId} {start e : Nat} {slot : Slot}
      {definition : Parser} {ref : RuleRef} :
      catalog.bound rule = .ok (slot, definition) → slot.exclusion = some ref →
      e ∈ definition.ends catalog.firstMatch (catalog.meaning source) source start →
      catalog.resolve ref = .ok excluded →
      Calls catalog ⟨source, rule, start⟩
        ⟨.ofString ((source.slice start e).getD ""), excluded, 0⟩

/-- A parser can be used with a catalog: every rule that it leads to is bound, no repetition
asks for more occurrences than it allows, each cache belongs to one repetition, and no rule
comes back to itself at the same offset of the same text. -/
structure Usable (catalog : Catalog) (parser : Parser) : Prop where
  bound : ∀ ref, catalog.Leads parser ref → ∃ rule slot definition,
    catalog.resolve ref = .ok rule ∧ catalog.bound rule = .ok (slot, definition)
  ordered : ∀ cache bounds element,
    .repetition cache bounds element ∈ (catalog.scopeOf parser).nodes → bounds.Ordered
  apart : Apart (catalog.scopeOf parser).nodes (catalog.scopeOf parser).nodes
  acyclic : ∀ question : Question, question.rule ∈ (catalog.scopeOf parser).rules →
    ¬ Relation.TransGen catalog.Calls question question

theorem settled_finds_of_callOnce {source : Source} {ref : RuleRef} {start : Nat} {ends : Set Nat}
    (h : ∃ attempt, catalog.callOnce catalog.settled source ref start = .ok attempt ∧
      attempt.Found ends) :
    ∃ attempt, catalog.settled source ref start = .ok attempt ∧ attempt.Found ends := by
  obtain ⟨attempt, honce, hfound⟩ := h
  have hsettled := catalog.callOnce_settled source ref start
  rw [honce] at hsettled
  exact ⟨attempt, hsettled.eq_of_ok, hfound⟩

section
variable {scope : Scope} (hclosed : scope.Closed catalog)
  (hordered : ∀ cache bounds element, .repetition cache bounds element ∈ scope.nodes →
    bounds.Ordered)
include hclosed hordered

/-- Whatever a rule means is found. -/
theorem Means.settled_finds {source : Source} {ref : RuleRef} {start : Nat} {ends : Set Nat}
    (h : catalog.Means source ref start ends)
    (href : ∀ rule, catalog.resolve ref = .ok rule → rule ∈ scope.rules) :
    ∃ attempt, catalog.settled source ref start = .ok attempt ∧ attempt.Found ends := by
  have hnodes : ∀ {rule : RuleId} {slot : Slot} {definition : Parser}, rule ∈ scope.rules →
      catalog.bound rule = .ok (slot, definition) → ∀ node ∈ definition.walk,
        node ∈ scope.nodes := fun hrule hbound =>
    hclosed.inner _ (hclosed.definition _ hrule _ _ hbound)
  induction h with
  | unrestricted meaning hresolve hbound hexclusion hmeans ih =>
    have hwalk := hnodes (href _ hresolve) hbound
    refine settled_finds_of_callOnce (callOnce_finds hresolve hbound
      (fun cache bounds element hnode => hordered cache bounds element (hwalk _ hnode))
      (fun ref o hasks => ⟨ih ref o hasks ?_, (hmeans ref o hasks).related onward_stepping⟩)
      hexclusion)
    exact hclosed.target ref (hwalk _ (Parser.mem_walk_of_asks _ hasks))
  | restricted meaning vetoes hresolve hbound hexclusion hexcluded hmeans hvetoes ih ihvetoes =>
    have hwalk := hnodes (href _ hresolve) hbound
    refine settled_finds_of_callOnce (callOnce_finds_restricted hresolve hbound
      (fun cache bounds element hnode => hordered cache bounds element (hwalk _ hnode))
      (fun ref o hasks => ⟨ih ref o hasks ?_, (hmeans ref o hasks).related onward_stepping⟩)
      hexclusion hexcluded
      fun e he => ⟨ihvetoes e he ?_, (hvetoes e he).related onward_stepping⟩)
    · exact hclosed.target ref (hwalk _ (Parser.mem_walk_of_asks _ hasks))
    · exact fun rule hrule => eq_of_resolve_refer hrule ▸ hclosed.exclusion _ (href _ hresolve) _ _ _
        hbound hexclusion _ hexcluded

theorem Means.unique {source : Source} {ref : RuleRef} {start : Nat} {ends ends' : Set Nat}
    (h : catalog.Means source ref start ends) (h' : catalog.Means source ref start ends')
    (href : ∀ rule, catalog.resolve ref = .ok rule → rule ∈ scope.rules) : ends = ends' := by
  obtain ⟨attempt, hattempt, hfound⟩ := h.settled_finds hclosed hordered href
  obtain ⟨attempt', hattempt', hfound'⟩ := h'.settled_finds hclosed hordered href
  cases hattempt.symm.trans hattempt'
  exact hfound.unique hfound'

theorem meaning_eq {source : Source} {ref : RuleRef} {start : Nat} {ends : Set Nat}
    (h : catalog.Means source ref start ends)
    (href : ∀ rule, catalog.resolve ref = .ok rule → rule ∈ scope.rules) :
    catalog.meaning source ref start = ends := by
  ext e
  constructor
  · rintro ⟨ends', h', he⟩
    exact h'.unique hclosed hordered h href ▸ he
  · exact fun he => ⟨ends, h, he⟩

/-- Whatever a parser means is found. -/
theorem Denotes.matchesOf_finds {parser : Parser} (hparser : parser ∈ scope.nodes)
    {source : Source} {start : Nat} {ends : Set Nat}
    (h : catalog.Denotes source parser start ends) :
    ∃ attempt, catalog.matchesOf parser source start = (.ok attempt : Except GrammarError _) ∧
      attempt.Found ends := by
  obtain ⟨meaning, hmeans, rfl⟩ := h
  have hwalk := hclosed.inner parser hparser
  exact Parser.enumerate_finds parser
    (fun cache bounds element hnode => hordered cache bounds element (hwalk _ hnode)) start
    fun ref o hasks => ⟨(hmeans ref o hasks).settled_finds hclosed hordered
      (hclosed.target ref (hwalk _ (Parser.mem_walk_of_asks _ hasks))),
      (hmeans ref o hasks).related onward_stepping⟩

theorem Denotes.unique {parser : Parser} (hparser : parser ∈ scope.nodes) {source : Source}
    {start : Nat} {ends ends' : Set Nat} (h : catalog.Denotes source parser start ends)
    (h' : catalog.Denotes source parser start ends') : ends = ends' := by
  obtain ⟨attempt, hattempt, hfound⟩ := h.matchesOf_finds hclosed hordered hparser
  obtain ⟨attempt', hattempt', hfound'⟩ := h'.matchesOf_finds hclosed hordered hparser
  cases hattempt.symm.trans hattempt'
  exact hfound.unique hfound'

end

theorem near_of_mem_meaning {source : Source} {ref : RuleRef} {start e : Nat}
    (h : e ∈ catalog.meaning source ref start) : Near source start source e := by
  obtain ⟨ends, hmeans, he⟩ := h
  exact hmeans.related near_stepping e he

theorem near_of_calls {question question' : Question} (h : catalog.Calls question question') :
    Near question.source question.start question'.source question'.start := by
  cases h with
  | definition hbound hasks hresolve =>
    exact Parser.related_of_asks (near_stepping _) _ _ (fun _ _ _ _ he => near_of_mem_meaning he)
      hasks
  | exclusion => exact near_slice ..

theorem resolve_refer {ref : RuleRef} {rule : RuleId} (h : catalog.resolve ref = .ok rule) :
    catalog.resolve (catalog.refer rule) = .ok rule := by
  rw [resolve] at h ⊢
  split at h
  case isTrue halive =>
    cases h
    exact if_pos halive
  case isFalse => cases h

section
variable {parser : Parser} (h : catalog.Usable parser)
include h

/-- A rule has a meaning where every rule that it calls there has one. -/
theorem Usable.exists_means_of_calls {source : Source} {ref : RuleRef} {start : Nat} {rule : RuleId}
    (hresolve : catalog.resolve ref = .ok rule) (hrule : rule ∈ (catalog.scopeOf parser).rules)
    (hcalls : ∀ question, catalog.Calls ⟨source, rule, start⟩ question →
      question.rule ∈ (catalog.scopeOf parser).rules → ∀ ref',
        catalog.resolve ref' = .ok question.rule →
          ∃ ends, catalog.Means question.source ref' question.start ends) :
    ∃ ends, catalog.Means source ref start ends := by
  obtain ⟨ref₀, hleads, hresolve₀⟩ := hrule
  obtain ⟨_, slot, definition, hresolve', hbound⟩ := h.bound ref₀ hleads
  cases hresolve₀.symm.trans hresolve'
  have hclosed := catalog.closed_scopeOf parser
  have hmeaning : ∀ {source' ref' o}, (∀ rule', catalog.resolve ref' = .ok rule' →
      rule' ∈ (catalog.scopeOf parser).rules) →
      (∃ ends, catalog.Means source' ref' o ends) →
        catalog.Means source' ref' o (catalog.meaning source' ref' o) := by
    rintro source' ref' o href' ⟨ends, hmeans⟩
    rwa [meaning_eq hclosed h.ordered hmeans href']
  have hasked : ∀ ref' o, definition.Asks catalog.firstMatch (catalog.meaning source) source start
      ref' o → catalog.Means source ref' o (catalog.meaning source ref' o) := by
    intro ref' o hasks
    have hleads' : catalog.Leads parser ref' := .definition hleads hresolve₀ hbound
      (Parser.mem_references.2 (definition.mem_walk_of_asks hasks))
    obtain ⟨rule', -, -, hresolve', -⟩ := h.bound ref' hleads'
    have hrule' : ∀ rule, catalog.resolve ref' = .ok rule →
        rule ∈ (catalog.scopeOf parser).rules := fun rule hrule => ⟨ref', hleads', hrule⟩
    exact hmeaning hrule' (hcalls ⟨source, rule', o⟩ (.definition hbound hasks hresolve')
      (hrule' rule' hresolve') ref' hresolve')
  cases hexclusion : slot.exclusion with
  | none => exact ⟨_, .unrestricted _ hresolve hbound hexclusion hasked⟩
  | some exclusion =>
    have hleads' : catalog.Leads parser exclusion := .exclusion hleads hresolve₀ hbound hexclusion
    obtain ⟨excluded, -, -, hexcluded, -⟩ := h.bound exclusion hleads'
    have hscope : excluded ∈ (catalog.scopeOf parser).rules := ⟨exclusion, hleads', hexcluded⟩
    refine ⟨_, .restricted _ (fun e => catalog.meaning
      (.ofString ((source.slice start e).getD "")) (catalog.refer excluded) 0) hresolve hbound
      hexclusion hexcluded hasked fun e he => ?_⟩
    exact hmeaning (fun rule' hrule' => eq_of_resolve_refer hrule' ▸ hscope)
      (hcalls _ (.exclusion hbound hexclusion he hexcluded) hscope _ (resolve_refer hexcluded))

theorem Usable.finite_rules : (catalog.scopeOf parser).rules.Finite := by
  refine (List.finite_toSet catalog.allRules).subset ?_
  rintro rule ⟨ref, hleads, hresolve⟩
  obtain ⟨_, slot, definition, hresolve', hbound⟩ := h.bound ref hleads
  cases hresolve.symm.trans hresolve'
  refine mem_allRules ?_
  rw [Catalog.bound] at hbound
  split at hbound
  · cases hbound
  · simp [*]

/-- At one offset of one text, the rules called come before those that call them. -/
theorem Usable.wellFounded_calls (source : Source) (start : Nat) :
    WellFounded fun a b : (catalog.scopeOf parser).rules =>
      Relation.TransGen catalog.Calls ⟨source, b, start⟩ ⟨source, a, start⟩ := by
  have := h.finite_rules.to_subtype
  have : IsTrans (catalog.scopeOf parser).rules fun a b =>
      Relation.TransGen catalog.Calls ⟨source, b, start⟩ ⟨source, a, start⟩ :=
    ⟨fun _ _ _ hab hbc => hbc.trans hab⟩
  have : Std.Irrefl fun a b : (catalog.scopeOf parser).rules =>
      Relation.TransGen catalog.Calls ⟨source, b, start⟩ ⟨source, a, start⟩ :=
    ⟨fun rule => h.acyclic ⟨source, rule, start⟩ rule.2⟩
  exact Finite.wellFounded_of_trans_of_irrefl _

/-- Every rule that can be come to has a meaning at every offset of every text. -/
theorem Usable.exists_means {source : Source} {ref : RuleRef} {start : Nat} {rule : RuleId}
    (hresolve : catalog.resolve ref = .ok rule) (hrule : rule ∈ (catalog.scopeOf parser).rules) :
    ∃ ends, catalog.Means source ref start ends := by
  induction hroom : source.room start using Nat.strong_induction_on generalizing source start ref
    rule with
  | h room ih =>
    suffices ∀ r : (catalog.scopeOf parser).rules, ∀ ref, catalog.resolve ref = .ok r.1 →
        ∃ ends, catalog.Means source ref start ends from this ⟨rule, hrule⟩ ref hresolve
    intro r
    induction r using (h.wellFounded_calls source start).induction with
    | h r ihr =>
      intro ref hresolve
      refine h.exists_means_of_calls hresolve r.2 fun question hcalls hscope ref' hresolve' => ?_
      obtain ⟨source', rule', start'⟩ := question
      rcases near_of_calls hcalls with ⟨rfl, rfl⟩ | hless
      · exact ihr ⟨rule', hscope⟩ (.single hcalls) ref' hresolve'
      · exact ih _ (hroom ▸ hless) hresolve' hscope rfl

theorem Usable.exists_denotes (source : Source) (start : Nat) :
    ∃ ends, catalog.Denotes source parser start ends := by
  refine ⟨_, catalog.meaning source, fun ref o hasks => ?_, rfl⟩
  have hleads : catalog.Leads parser ref :=
    .here (Parser.mem_references.2 (parser.mem_walk_of_asks hasks))
  obtain ⟨rule, -, -, hresolve, -⟩ := h.bound ref hleads
  obtain ⟨ends, hmeans⟩ := h.exists_means hresolve ⟨ref, hleads, hresolve⟩
  rwa [meaning_eq (catalog.closed_scopeOf parser) h.ordered hmeans
    fun rule' hrule' => ⟨ref, hleads, hrule'⟩]

/-- From empty caches, a parse finds exactly the ends that the grammar means, each of them
once and the longest first. -/
theorem matchesOf_finds_meaning (source : Source) (start : Nat) {caches : Caches}
    (hempty : ∀ cache ∈ caches, cache.isEmpty = true) :
    ∃ attempt ends, ((catalog.matchesOf parser source start : Run Attempt).run caches).1 =
        .ok attempt ∧
      catalog.Denotes source parser start ends ∧
      (∀ ends', catalog.Denotes source parser start ends' → ends' = ends) ∧
      ((∃ found, attempt = .ok found) ↔ ends.Nonempty) ∧
      ∀ found, attempt = .ok found → found.stops.Pairwise (· > ·) ∧
        ∀ e, e ∈ found.stops ↔ e ∈ ends := by
  have hclosed := catalog.closed_scopeOf parser
  have hparser : parser ∈ (catalog.scopeOf parser).nodes := Or.inl parser.self_mem_walk
  obtain ⟨ends, hends⟩ := h.exists_denotes source start
  obtain ⟨attempt, hattempt, hfound⟩ := hends.matchesOf_finds hclosed h.ordered hparser
  have hsound : Sound catalog (catalog.scopeOf parser).nodes caches :=
    .of_empty fun _ _ _ => Caches.not_holds_of_isEmpty hempty
  obtain ⟨hagree, -⟩ := matchesOf_agrees hclosed h.apart hparser source start caches hsound
  refine ⟨attempt, ends, ?_, hends, fun ends' h' => h'.unique hclosed h.ordered hparser hends,
    ?_, ?_⟩
  · rcases hagree with hagree | ⟨-, _, _, hdeep⟩
    · rw [hagree, hattempt]
    · rw [hattempt] at hdeep
      cases hdeep
  · cases attempt with
    | error failure =>
      have hnone : ends = ∅ := hfound
      simp [hnone]
    | ok found => exact ⟨fun _ => hfound.1, fun _ => ⟨found, rfl⟩⟩
  · rintro found rfl
    exact ⟨found.stops_pairwise, hfound.2⟩

end

def ofDigits : Catalog :=
  ⟨#[{ Grammar.empty "digits" [] .standard with
      table := ⟨#[⟨"digit", some (.literal (.range '0' '9')), none⟩], ∅, by simp⟩ }], #[], []⟩

def digits : Parser := .repetition ⟨0⟩ ⟨1, none⟩ (.rule ⟨⟨⟨0⟩, 0⟩, "digit"⟩)

theorem usable_digits : ofDigits.Usable digits := by
  have hleads : ∀ ref, ofDigits.Leads digits ref → ref = ⟨⟨⟨0⟩, 0⟩, "digit"⟩ := by
    intro ref h
    induction h with
    | here href => simpa [digits, Parser.references, Parser.walk] using href
    | definition _ hresolve hbound href ih =>
      subst ih
      cases hresolve
      cases hbound
      simp [Parser.references, Parser.walk] at href
    | exclusion _ hresolve hbound hexclusion ih =>
      subst ih
      cases hresolve
      cases hbound
      cases hexclusion
  have hnodes : ∀ node ∈ (ofDigits.scopeOf digits).nodes, ∀ id, node.cache? = some id →
      node = digits := by
    rintro node (hnode | ⟨ref, rule, slot, definition, href, hresolve, hbound, hnode⟩) id hid
    · simp only [digits, Parser.walk, List.mem_cons, List.not_mem_nil, or_false] at hnode
      rcases hnode with rfl | rfl
      · rfl
      · cases hid
    · obtain rfl := hleads ref href
      cases hresolve
      cases hbound
      obtain rfl : node = .literal (.range '0' '9') := by simpa [Parser.walk] using hnode
      cases hid
  exact
    { bound := fun ref href => by
        obtain rfl := hleads ref href
        exact ⟨_, _, _, rfl, rfl⟩
      ordered := fun cache bounds element hnode => by
        cases hnodes _ hnode cache rfl
        exact fun most hmost => by cases hmost
      apart := fun a ha b hb id hida hidb => by
        rw [hnodes a ha id hida, hnodes b hb id hidb]
      acyclic := fun question hrule hcycle => by
        obtain ⟨source, rule, start⟩ := question
        obtain ⟨ref, href, hresolve⟩ := hrule
        obtain rfl := hleads ref href
        cases hresolve
        obtain ⟨question, hcalls, -⟩ := Relation.TransGen.head'_iff.1 hcycle
        cases hcalls with
        | definition hbound hasks =>
          cases hbound
          simp [Parser.Asks] at hasks
        | exclusion hbound hexclusion =>
          cases hbound
          cases hexclusion }

theorem matchesOf_finds_digits :
    ∃ attempt ends, ((ofDigits.matchesOf digits (.ofString "12") 0 : Run Attempt).run
        #[.empty default]).1 = .ok attempt ∧
      ofDigits.Denotes (.ofString "12") digits 0 ends ∧
      (∀ ends', ofDigits.Denotes (.ofString "12") digits 0 ends' → ends' = ends) ∧
      ((∃ found, attempt = .ok found) ↔ ends.Nonempty) ∧
      ∀ found, attempt = .ok found → found.stops.Pairwise (· > ·) ∧
        ∀ e, e ∈ found.stops ↔ e ∈ ends :=
  matchesOf_finds_meaning usable_digits (.ofString "12") 0 (by simp [Cache.isEmpty, Cache.empty])

end Catalog

end Metasyntax
