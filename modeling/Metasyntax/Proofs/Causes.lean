import Metasyntax.Proofs.Growth
import Metasyntax.Proofs.Precedence

/-!
# Where failures come from

A failure names the parser that was asked and the offset, and then the failure that caused it,
and so on. Each of these is a failure that really occurs: of a branch at the same offset, of a
part of a row or an occurrence of a repetition where those before it come to, of a rule's
definition, or the veto of what a rule excludes. A failure that is remembered says the same as
one that is found anew.
-/

set_option autoImplicit false

namespace Metasyntax

def Attempt.Filled (attempt : Attempt) : Prop :=
  ∀ found, attempt = .ok found → found.stops ≠ []

theorem Attempt.filled_error (failure : ParseError) : Attempt.Filled (.error failure) :=
  fun _ h => by cases h

theorem Attempt.filled_ok {found : MatchSet} (h : found.stops ≠ []) : Attempt.Filled (.ok found) :=
  fun _ heq => Except.ok.inj heq ▸ h

theorem Progress.filled_settle (progress : Progress) (parser : Parser) (start : Nat) :
    (progress.settle parser start).Filled := by
  rw [settle]
  split
  case isTrue => exact Attempt.filled_error _
  case isFalse h => exact Attempt.filled_ok fun hstops => h (MatchSet.isEmpty_iff.2 hstops)

theorem Progress.of_settle_eq_error {progress : Progress} {parser : Parser} {start : Nat}
    {failure : ParseError} (h : progress.settle parser start = .error failure) :
    progress.found.stops = [] ∧ failure = .ofCause parser start progress.failure := by
  rw [settle] at h
  split at h
  case isTrue hempty => exact ⟨MatchSet.isEmpty_iff.1 hempty, (Except.error.inj h).symm⟩
  case isFalse => cases h

def Filling (run : Nat → Except GrammarError Attempt) : Prop :=
  ∀ o attempt, run o = .ok attempt → attempt.Filled

section
variable {run : Nat → Except GrammarError Attempt}

/-- A sweep that comes to nothing has met failures only, and keeps the last of them. -/
theorem sweep_fails (hrun : Filling run) {heads : List Match} {progress after : Progress}
    (h : sweep run ∅ heads progress = .ok after) (hempty : after.found.stops = []) :
    progress.found.stops = [] ∧ (heads = [] ∧ after.failure = progress.failure ∨
      ∃ head ∈ heads, ∃ failure, run head.stop = .ok (.error failure) ∧
        after.failure = some failure) := by
  induction heads generalizing progress with
  | nil =>
    cases h
    exact ⟨hempty, Or.inl ⟨rfl, rfl⟩⟩
  | cons head heads ih =>
    rw [sweep] at h
    obtain ⟨attempt, hattempt, h⟩ := exists_of_bind_eq_ok h
    cases attempt with
    | error failure =>
      obtain ⟨hstops, ⟨-, hlast⟩ | ⟨later, hlater, hlast⟩⟩ := ih h
      · exact ⟨hstops, Or.inr ⟨head, List.mem_cons_self, failure, hattempt, hlast⟩⟩
      · exact ⟨hstops, Or.inr ⟨later, List.mem_cons_of_mem _ hlater, hlast⟩⟩
    | ok tails =>
      -- What the head comes to would still be there.
      obtain ⟨e, he⟩ := List.exists_mem_of_ne_nil _ (hrun _ _ hattempt tails rfl)
      have hmem : e ∈ (progress.found.extend ∅ head tails).stops :=
        MatchSet.mem_stops_extend.2 (Or.inr ⟨he, List.not_mem_nil⟩)
      have hnil := (ih h).1
      dsimp only at hnil
      rw [hnil] at hmem
      cases hmem

theorem repeatExactly_filled {parser : Parser} {start count : Nat} {frontier : MatchSet}
    {attempt : Attempt} (hfrontier : frontier.stops ≠ [])
    (h : repeatExactly run parser start count frontier = .ok attempt) : attempt.Filled := by
  induction count generalizing frontier with
  | zero =>
    cases h
    exact Attempt.filled_ok hfrontier
  | succ count ih =>
    rw [repeatExactly] at h
    obtain ⟨progress, -, h⟩ := exists_of_bind_eq_ok h
    cases hsettle : progress.settle parser start with
    | error failure =>
      rw [hsettle] at h
      cases h
      exact Attempt.filled_error failure
    | ok next =>
      rw [hsettle] at h
      exact ih (progress.filled_settle parser start next hsettle) h

theorem repeatFurther_filled {rounds : Nat} {known found : MatchSet} {frontier : List Match}
    (hknown : known.stops ≠ []) (h : repeatFurther run rounds known frontier = .ok found) :
    found.stops ≠ [] := by
  induction rounds generalizing known frontier with
  | zero =>
    cases h
    exact hknown
  | succ rounds ih =>
    rw [repeatFurther] at h
    obtain ⟨progress, -, h⟩ := exists_of_bind_eq_ok h
    split at h
    · cases h
      exact hknown
    · obtain ⟨e, he⟩ := List.exists_mem_of_ne_nil _ hknown
      exact ih (List.ne_nil_of_mem (MatchSet.mem_stops_union.2 (Or.inl he))) h

theorem repeatBetween_filled {parser : Parser} {bounds : Bounds} {source : Source} {start : Nat}
    {attempt : Attempt} (h : repeatBetween run parser bounds source start = .ok attempt) :
    attempt.Filled := by
  rw [repeatBetween] at h
  obtain ⟨least, hleast, h⟩ := exists_of_bind_eq_ok h
  cases least with
  | error failure =>
    cases h
    exact Attempt.filled_error failure
  | ok known =>
    obtain ⟨found, hfound, h⟩ := exists_of_bind_eq_ok h
    cases h
    exact Attempt.filled_ok
      (repeatFurther_filled (repeatExactly_filled (by simp) hleast known rfl) hfound)

/-- A repetition fails where an occurrence that it cannot do without does. -/
theorem repeatExactly_fails (hrun : Filling run) {parser : Parser} {start count done : Nat}
    {frontier : MatchSet} {failure : ParseError} (hfilled : frontier.stops ≠ [])
    (hfrontier : ∀ o ∈ frontier.stops, o ∈ reach (stopsOf run) done {start})
    (h : repeatExactly run parser start count frontier = .ok (.error failure)) :
    ∃ fewer < done + count, ∃ o ∈ reach (stopsOf run) fewer {start}, ∃ cause,
      run o = .ok (.error cause) ∧ failure = .ofCause parser start (some cause) := by
  induction count generalizing frontier done with
  | zero => cases h
  | succ count ih =>
    rw [repeatExactly] at h
    obtain ⟨progress, hsweep, h⟩ := exists_of_bind_eq_ok h
    cases hsettle : progress.settle parser start with
    | error failure' =>
      rw [hsettle] at h
      cases h
      obtain ⟨hnone, rfl⟩ := Progress.of_settle_eq_error hsettle
      obtain ⟨-, ⟨hheads, -⟩ | ⟨head, hhead, cause, hcause, hlast⟩⟩ := sweep_fails hrun hsweep hnone
      · rw [MatchSet.stops, hheads] at hfilled
        exact absurd rfl hfilled
      · exact ⟨done, by omega, head.stop, hfrontier _ (MatchSet.mem_stops.2 ⟨head, hhead, rfl⟩),
          cause, hcause, by rw [hlast]⟩
    | ok next =>
      rw [hsettle] at h
      have hnext : ∀ o ∈ next.stops, o ∈ reach (stopsOf run) (done + 1) {start} := by
        intro o ho
        rw [← Progress.exists_of_settle_eq_ok hsettle] at ho
        obtain ⟨m, hm, rfl⟩ := MatchSet.mem_stops.1 ho
        rcases sweep_yields (yielding_stopsOf run) hsweep m hm with hm | ⟨head, hhead, tail, htail, rfl⟩
        · cases hm
        · rw [reach_succ]
          exact ⟨head.stop, hfrontier _ (MatchSet.mem_stops.2 ⟨head, hhead, rfl⟩), htail⟩
      obtain ⟨fewer, hfewer, hrest⟩ := ih (progress.filled_settle parser start next hsettle) hnext h
      exact ⟨fewer, by omega, hrest⟩

/-- A repetition that fails lacks an occurrence: beyond the least number it cannot fail. -/
theorem repeatBetween_fails (hrun : Filling run) {parser : Parser} {bounds : Bounds}
    {source : Source} {start : Nat} {failure : ParseError}
    (h : repeatBetween run parser bounds source start = .ok (.error failure)) :
    ∃ fewer < bounds.min, ∃ o ∈ reach (stopsOf run) fewer {start}, ∃ cause,
      run o = .ok (.error cause) ∧ failure = .ofCause parser start (some cause) := by
  rw [repeatBetween] at h
  obtain ⟨least, hleast, h⟩ := exists_of_bind_eq_ok h
  cases least with
  | ok known =>
    obtain ⟨found, -, h⟩ := exists_of_bind_eq_ok h
    cases h
  | error failure' =>
    cases h
    have hfails := @repeatExactly_fails _ hrun _ _ _ 0 _ _ (by simp) (by simp [reach, Match.empty])
      hleast
    rwa [Nat.zero_add] at hfails

end

namespace Parser

section
variable {firstMatch : ModeId → Bool} {call : RuleRef → Nat → Except GrammarError Attempt}
  {source : Source}

theorem followParts_filled {whole : Parser} {start : Nat} {parts : List Parser}
    {frontier : MatchSet} {attempt : Attempt} (hfrontier : frontier.stops ≠ [])
    (h : followParts firstMatch call source whole start parts frontier = .ok attempt) :
    attempt.Filled := by
  induction parts generalizing frontier with
  | nil =>
    rw [followParts] at h
    cases h
    exact Attempt.filled_ok hfrontier
  | cons part rest ih =>
    rw [followParts] at h
    obtain ⟨progress, -, h⟩ := exists_of_bind_eq_ok h
    cases hsettle : progress.settle whole start with
    | error failure =>
      rw [hsettle] at h
      cases h
      exact Attempt.filled_error failure
    | ok next =>
      rw [hsettle] at h
      exact ih (progress.filled_settle whole start next hsettle) h

mutual
theorem enumerate_filled (hcall : ∀ ref, Filling (call ref)) (parser : Parser) :
    Filling (parser.enumerate firstMatch call source) := by
  intro start attempt h
  cases parser with
  | literal terminal =>
    rw [enumerate] at h
    split at h
    · cases h
      exact Attempt.filled_ok (by simp)
    · cases h
      exact Attempt.filled_error _
  | alternation mode branches =>
    rw [enumerate] at h
    exact tryBranches_filled hcall branches _ h
  | concatenation parts =>
    rw [enumerate] at h
    exact followParts_filled (by simp) h
  | optional cache element | repetition cache bounds element =>
    rw [enumerate_eq_explore, explore] at h
    exact repeatBetween_filled h
  | rule ref =>
    rw [enumerate] at h
    exact hcall ref start attempt h
  | prose text =>
    rw [enumerate] at h
    cases h
    exact Attempt.filled_error _

theorem tryBranches_filled (hcall : ∀ ref, Filling (call ref)) (branches : List Parser)
    {whole : Parser} {onlyFirst : Bool} {start : Nat} (progress : Progress) {attempt : Attempt}
    (h : tryBranches firstMatch call source whole onlyFirst start branches progress =
      .ok attempt) : attempt.Filled := by
  cases branches with
  | nil =>
    rw [tryBranches] at h
    cases h
    exact progress.filled_settle whole start
  | cons branch rest =>
    rw [tryBranches] at h
    obtain ⟨outcome, houtcome, h⟩ := exists_of_bind_eq_ok h
    cases outcome with
    | error failure => exact tryBranches_filled hcall rest _ h
    | ok found =>
      dsimp only at h
      split at h
      · cases h
        exact enumerate_filled hcall branch start _ houtcome
      · exact tryBranches_filled hcall rest _ h
end

/-- An alternation fails where all of its branches do, and keeps the last failure. -/
theorem tryBranches_fails (hcall : ∀ ref, Filling (call ref)) {branches : List Parser}
    {whole : Parser} {onlyFirst : Bool} {start : Nat} {progress : Progress} {failure : ParseError}
    (h : tryBranches firstMatch call source whole onlyFirst start branches progress =
      .ok (.error failure)) :
    progress.found.stops = [] ∧
      (branches = [] ∧ failure = .ofCause whole start progress.failure ∨
        ∃ branch ∈ branches, ∃ cause,
          branch.enumerate firstMatch call source start = .ok (.error cause) ∧
            failure = .ofCause whole start (some cause)) := by
  induction branches generalizing progress with
  | nil =>
    rw [tryBranches] at h
    obtain ⟨hstops, rfl⟩ := Progress.of_settle_eq_error (Except.ok.inj h)
    exact ⟨hstops, Or.inl ⟨rfl, rfl⟩⟩
  | cons branch rest ih =>
    rw [tryBranches] at h
    obtain ⟨outcome, houtcome, h⟩ := exists_of_bind_eq_ok h
    cases outcome with
    | error cause =>
      obtain ⟨hstops, ⟨-, hlast⟩ | ⟨later, hlater, hlast⟩⟩ := ih h
      · exact ⟨hstops, Or.inr ⟨branch, List.mem_cons_self, cause, houtcome, hlast⟩⟩
      · exact ⟨hstops, Or.inr ⟨later, List.mem_cons_of_mem _ hlater, hlast⟩⟩
    | ok found =>
      dsimp only at h
      split at h
      · cases h
      · obtain ⟨e, he⟩ :=
          List.exists_mem_of_ne_nil _ (enumerate_filled hcall branch start _ houtcome found rfl)
        have hmem : e ∈ (progress.found.union found).stops :=
          MatchSet.mem_stops_union.2 (Or.inr he)
        have hnil := (ih h).1
        dsimp only at hnil
        rw [hnil] at hmem
        cases hmem

end

end Parser

namespace Catalog

variable {catalog : Catalog} {source : Source}

inductive Answers (catalog : Catalog) (call : Source → RuleRef → Nat → Except GrammarError Attempt)
    (source : Source) (rule : RuleId) (start : Nat) : Attempt → Prop
  | refused {slot : Slot} {definition : Parser} {failure : ParseError} :
    catalog.bound rule = .ok (slot, definition) →
    definition.enumerate catalog.firstMatch (call source) source start = .ok (.error failure) →
      Answers catalog call source rule start
        (.error (.ofCause (.rule (catalog.refer rule)) start (some failure)))
  | found {slot : Slot} {definition : Parser} {candidates : MatchSet} :
    catalog.bound rule = .ok (slot, definition) →
    definition.enumerate catalog.firstMatch (call source) source start = .ok (.ok candidates) →
    slot.exclusion = none →
      Answers catalog call source rule start
        (.ok (candidates.mapNodes fun nodes => [.rule slot.name nodes]))
  | judged {slot : Slot} {definition : Parser} {candidates : MatchSet} {exclusion : RuleRef}
      {excluded : RuleId} {vetoes : List Nat} :
    catalog.bound rule = .ok (slot, definition) →
    definition.enumerate catalog.firstMatch (call source) source start = .ok (.ok candidates) →
    slot.exclusion = some exclusion → catalog.resolve exclusion = .ok excluded →
    vetoed (fun text => do
      return (← call (.ofString text) (catalog.refer excluded) 0).takesAll (.ofString text))
        source start candidates.toList = .ok vetoes →
      Answers catalog call source rule start (Progress.settle
        ⟨(candidates.filter fun m => !vetoes.contains m.stop).mapNodes fun nodes =>
            [.rule slot.name nodes],
          if vetoes.isEmpty then none
          else some (.ofCause (.rule (catalog.refer excluded)) start none)⟩
        (.rule (catalog.refer rule)) start)

theorem answers_of_callOnce {call : Source → RuleRef → Nat → Except GrammarError Attempt}
    {ref : RuleRef} {start : Nat} {attempt : Attempt}
    (h : catalog.callOnce call source ref start = .ok attempt) :
    ∃ rule, catalog.resolve ref = .ok rule ∧ catalog.Answers call source rule start attempt := by
  rw [callOnce, ofExcept_eq] at h
  obtain ⟨rule, hresolve, h⟩ := exists_of_bind_eq_ok h
  rw [ofExcept_eq] at h
  obtain ⟨⟨slot, definition⟩, hbound, h⟩ := exists_of_bind_eq_ok h
  obtain ⟨outcome, houtcome, h⟩ := exists_of_bind_eq_ok h
  refine ⟨rule, hresolve, ?_⟩
  cases outcome with
  | error failure =>
    cases h
    exact .refused hbound houtcome
  | ok candidates =>
    dsimp only at h
    cases hexclusion : slot.exclusion with
    | none =>
      rw [hexclusion] at h
      cases h
      exact .found hbound houtcome hexclusion
    | some exclusion =>
      rw [hexclusion] at h
      dsimp only at h
      rw [ofExcept_eq] at h
      obtain ⟨excluded, hexcluded, h⟩ := exists_of_bind_eq_ok h
      obtain ⟨vetoes, hvetoes, h⟩ := exists_of_bind_eq_ok h
      cases h
      exact .judged hbound houtcome hexclusion hexcluded hvetoes

theorem call_filled (depth : Nat) (source : Source) (ref : RuleRef) :
    Filling (catalog.call depth source ref) := by
  induction depth generalizing source ref with
  | zero =>
    intro start attempt h
    cases h
  | succ depth ih =>
    intro start attempt h
    obtain ⟨rule, -, hanswers⟩ := answers_of_callOnce h
    cases hanswers with
    | refused => exact Attempt.filled_error _
    | found hbound hcandidates =>
      refine Attempt.filled_ok ?_
      rw [MatchSet.stops_mapNodes]
      exact Parser.enumerate_filled (ih source) _ start _ hcandidates _ rfl
    | judged => exact Progress.filled_settle _ _ _

def Refuses (catalog : Catalog) (source : Source) (parser : Parser) (start : Nat)
    (failure : ParseError) : Prop :=
  catalog.matchesOf parser source start = (.ok (.error failure) : Except GrammarError Attempt)

def titled (catalog : Catalog) : Parser → Parser
  | .rule ref => .rule (catalog.refer ref.target)
  | parser => parser

inductive Blames (catalog : Catalog) (source : Source) : Parser → Nat → ParseError → Prop
  | literal {terminal : Literal} {start : Nat} : terminal.matchAt source start = none →
    Blames catalog source (.literal terminal) start ⟨⟨.literal terminal, start⟩, []⟩
  | prose {text : String} {start : Nat} :
    Blames catalog source (.prose text) start ⟨⟨.prose text, start⟩, []⟩
  | nothing {mode : ModeId} {start : Nat} :
    Blames catalog source (.alternation mode []) start ⟨⟨.alternation mode [], start⟩, []⟩
  | branch {mode : ModeId} {branches : List Parser} {branch : Parser} {start : Nat}
      {cause : ParseError} : branch ∈ branches → catalog.Refuses source branch start cause →
    Blames catalog source branch start cause →
      Blames catalog source (.alternation mode branches) start
        ⟨⟨.alternation mode branches, start⟩, cause.frames⟩
  | part {before after : List Parser} {part : Parser} {start o : Nat} {cause : ParseError} :
    o ∈ catalog.endsOfParts source before {start} → catalog.Refuses source part o cause →
    Blames catalog source part o cause →
      Blames catalog source (.concatenation (before ++ part :: after)) start
        ⟨⟨.concatenation (before ++ part :: after), start⟩, cause.frames⟩
  | occurrence {cache : CacheId} {bounds : Bounds} {element : Parser} {count start o : Nat}
      {cause : ParseError} : count < bounds.min →
    o ∈ reach (catalog.endsOf source element) count {start} →
    catalog.Refuses source element o cause → Blames catalog source element o cause →
      Blames catalog source (.repetition cache bounds element) start
        ⟨⟨.repetition cache bounds element, start⟩, cause.frames⟩
  | definition {ref : RuleRef} {slot : Slot} {definition : Parser} {start : Nat}
      {cause : ParseError} : catalog.resolve ref = .ok ref.target →
    catalog.bound ref.target = .ok (slot, definition) →
    catalog.Refuses source definition start cause → Blames catalog source definition start cause →
      Blames catalog source (.rule ref) start
        ⟨⟨.rule (catalog.refer ref.target), start⟩, cause.frames⟩
  | veto {ref exclusion : RuleRef} {slot : Slot} {definition : Parser} {excluded : RuleId}
      {start : Nat} : catalog.resolve ref = .ok ref.target →
    catalog.bound ref.target = .ok (slot, definition) →
    slot.exclusion = some exclusion → catalog.resolve exclusion = .ok excluded →
    (catalog.endsOf source definition start).Nonempty →
    (∀ e ∈ catalog.endsOf source definition start,
      catalog.Takes excluded ((source.slice start e).getD "")) →
      Blames catalog source (.rule ref) start ⟨⟨.rule (catalog.refer ref.target), start⟩,
        [⟨.rule (catalog.refer excluded), start⟩]⟩

theorem filling_settled (source : Source) (ref : RuleRef) : Filling (catalog.settled source ref) :=
  call_filled _ source ref

theorem endsOfParts_append (before after : List Parser) (initial : Set Nat) :
    catalog.endsOfParts source (before ++ after) initial =
      catalog.endsOfParts source after (catalog.endsOfParts source before initial) := by
  induction before generalizing initial with
  | nil => rfl
  | cons part rest ih => exact ih _

/-- A row fails at a part, where the parts before it come to. -/
theorem followParts_fails {whole : Parser} {start : Nat} {before parts : List Parser}
    {frontier : MatchSet} {failure : ParseError} (hfilled : frontier.stops ≠ [])
    (hfrontier : ∀ o ∈ frontier.stops, o ∈ catalog.endsOfParts source before {start})
    (h : Parser.followParts catalog.firstMatch (catalog.settled source) source whole start parts
      frontier = .ok (.error failure)) :
    ∃ middle part after, parts = middle ++ part :: after ∧
      ∃ o ∈ catalog.endsOfParts source (before ++ middle) {start}, ∃ cause,
        catalog.Refuses source part o cause ∧ failure = .ofCause whole start (some cause) := by
  induction parts generalizing before frontier with
  | nil =>
    rw [Parser.followParts] at h
    cases h
  | cons part rest ih =>
    rw [Parser.followParts] at h
    obtain ⟨progress, hsweep, h⟩ := exists_of_bind_eq_ok h
    cases hsettle : progress.settle whole start with
    | error failure' =>
      rw [hsettle] at h
      cases h
      obtain ⟨hnone, rfl⟩ := Progress.of_settle_eq_error hsettle
      obtain ⟨-, ⟨hheads, -⟩ | ⟨head, hhead, cause, hcause, hlast⟩⟩ :=
        sweep_fails (Parser.enumerate_filled (filling_settled source) part) hsweep hnone
      · rw [MatchSet.stops, hheads] at hfilled
        exact absurd rfl hfilled
      · refine ⟨[], part, rest, rfl, head.stop, ?_, cause, hcause, by rw [hlast]⟩
        rw [List.append_nil]
        exact hfrontier _ (MatchSet.mem_stops.2 ⟨head, hhead, rfl⟩)
    | ok next =>
      rw [hsettle] at h
      have hnext : ∀ o ∈ next.stops, o ∈ catalog.endsOfParts source (before ++ [part]) {start} := by
        intro o ho
        rw [← Progress.exists_of_settle_eq_ok hsettle] at ho
        obtain ⟨m, hm, rfl⟩ := MatchSet.mem_stops.1 ho
        rw [endsOfParts_append]
        rcases sweep_yields (yielding_stopsOf _) hsweep m hm with hm | ⟨head, hhead, tail, htail, rfl⟩
        · cases hm
        · exact ⟨head.stop, hfrontier _ (MatchSet.mem_stops.2 ⟨head, hhead, rfl⟩), htail⟩
      obtain ⟨middle, last, after, rfl, hrest⟩ :=
        ih (progress.filled_settle whole start next hsettle) hnext h
      rw [List.append_assoc] at hrest
      exact ⟨part :: middle, last, after, rfl, hrest⟩

theorem matchesOf_of_call {depth : Nat} {parser : Parser} {start : Nat} {attempt : Attempt}
    (h : parser.enumerate catalog.firstMatch (catalog.call depth source) source start =
      (.ok attempt : Except GrammarError Attempt)) :
    catalog.matchesOf parser source start = (.ok attempt : Except GrammarError Attempt) := by
  have happrox := @explore_approximates_settled catalog depth parser source start
  rw [← Parser.enumerate_eq_explore, ← Parser.enumerate_eq_explore, h] at happrox
  exact happrox.eq_of_ok

/-- A rule fails with its definition, or because all that this finds is excluded. -/
theorem Answers.cause {depth start : Nat} {rule : RuleId} {failure : ParseError}
    (h : catalog.Answers (catalog.call depth) source rule start (.error failure)) :
    (∃ slot definition cause, catalog.bound rule = .ok (slot, definition) ∧
      catalog.Refuses source definition start cause ∧
        failure = .ofCause (.rule (catalog.refer rule)) start (some cause)) ∨
    ∃ slot definition exclusion excluded, catalog.bound rule = .ok (slot, definition) ∧
      slot.exclusion = some exclusion ∧ catalog.resolve exclusion = .ok excluded ∧
      (catalog.endsOf source definition start).Nonempty ∧
      (∀ e ∈ catalog.endsOf source definition start,
        catalog.Takes excluded ((source.slice start e).getD "")) ∧
      failure = ⟨⟨.rule (catalog.refer rule), start⟩, [⟨.rule (catalog.refer excluded), start⟩]⟩ := by
  generalize hattempt : (Except.error failure : Attempt) = attempt at h
  cases h with
  | refused hbound hcause =>
    cases hattempt
    exact Or.inl ⟨_, _, _, hbound, matchesOf_of_call hcause, rfl⟩
  | found => cases hattempt
  | @judged slot definition candidates exclusion excluded vetoes hbound hcandidates hexclusion
      hexcluded hvetoes =>
    obtain ⟨hnone, hfailure⟩ := Progress.of_settle_eq_error hattempt.symm
    have hends : catalog.endsOf source definition start = {e | e ∈ candidates.stops} :=
      (stopsOf_eq_ends (matchesOf_of_call hcandidates)).trans (Attempt.ends_ok candidates)
    have hstops : candidates.stops ≠ [] :=
      Parser.enumerate_filled (call_filled depth source) definition start _ hcandidates _ rfl
    -- Every candidate is vetoed, so there is a veto.
    have hall : ∀ m ∈ candidates.toList, m.stop ∈ vetoes := by
      intro m hm
      by_contra hnot
      have hmem : m ∈ (candidates.filter fun m => !vetoes.contains m.stop).toList :=
        MatchSet.mem_filter.2 ⟨hm, by simpa using hnot⟩
      rw [MatchSet.stops_mapNodes, MatchSet.stops, List.map_eq_nil_iff] at hnone
      rw [hnone] at hmem
      cases hmem
    obtain ⟨e, he⟩ := List.exists_mem_of_ne_nil _ hstops
    obtain ⟨m, hm, rfl⟩ := MatchSet.mem_stops.1 he
    have hsome : vetoes.isEmpty = false := by
      rw [List.isEmpty_eq_false_iff]
      exact List.ne_nil_of_mem (hall m hm)
    rw [hsome] at hfailure
    refine Or.inr ⟨slot, definition, exclusion, excluded, hbound, hexclusion, hexcluded, ?_, ?_,
      hfailure⟩
    · rw [hends]
      exact ⟨m.stop, he⟩
    · rw [hends]
      intro e' he'
      obtain ⟨m', hm', rfl⟩ := MatchSet.mem_stops.1 he'
      obtain ⟨attempt, hattempt, htakes⟩ :=
        exists_of_bind_eq_ok ((mem_vetoed_iff hvetoes hm').1 (hall m' hm'))
      exact (takes_iff hattempt).2 (Except.ok.inj htakes)

/-- One step of an account, down to the cause, which is a shorter chain. -/
theorem Refuses.blames_of {parser : Parser} {start : Nat} {failure : ParseError}
    (h : catalog.Refuses source parser start failure)
    (ih : ∀ parser' start' cause, cause.frames.length ≤ failure.causes.length →
      catalog.Refuses source parser' start' cause →
        catalog.Blames source parser' start' cause) :
    catalog.Blames source parser start failure := by
  have hfilling (element : Parser) : Filling
      (element.enumerate catalog.firstMatch (catalog.settled source) source) :=
    element.enumerate_filled (filling_settled source)
  cases parser with
  | literal terminal =>
    rw [Refuses, matchesOf, Parser.enumerate] at h
    cases hmatch : terminal.matchAt source start with
    | none =>
      rw [hmatch] at h
      cases h
      exact .literal hmatch
    | some m =>
      rw [hmatch] at h
      cases h
  | alternation mode branches =>
    rw [Refuses, matchesOf, Parser.enumerate] at h
    obtain ⟨-, ⟨rfl, rfl⟩ | ⟨branch, hbranch, cause, hcause, rfl⟩⟩ :=
      Parser.tryBranches_fails (filling_settled source) h
    · exact .nothing
    · exact .branch hbranch hcause (ih _ _ _ (Nat.le_refl _) hcause)
  | concatenation parts =>
    rw [Refuses, matchesOf, Parser.enumerate] at h
    obtain ⟨middle, part, after, rfl, o, ho, cause, hcause, rfl⟩ :=
      @followParts_fails _ _ _ _ [] _ _ _ (by simp) (by simp [endsOfParts, Match.empty]) h
    exact .part ho hcause (ih _ _ _ (Nat.le_refl _) hcause)
  | optional cache element =>
    rw [Refuses, matchesOf, Parser.enumerate_eq_explore, Parser.explore] at h
    obtain ⟨fewer, hfewer, -⟩ := repeatBetween_fails (hfilling element) h
    exact absurd hfewer (Nat.not_lt_zero fewer)
  | repetition cache bounds element =>
    rw [Refuses, matchesOf, Parser.enumerate_eq_explore, Parser.explore] at h
    obtain ⟨fewer, hfewer, o, ho, cause, hcause, rfl⟩ := repeatBetween_fails (hfilling element) h
    exact .occurrence hfewer ho hcause (ih _ _ _ (Nat.le_refl _) hcause)
  | rule ref =>
    rw [Refuses, matchesOf, Parser.enumerate, depthBound, call] at h
    obtain ⟨rule, hresolve, hanswers⟩ := answers_of_callOnce h
    obtain rfl := eq_of_resolve hresolve
    rcases hanswers.cause with ⟨slot, definition, cause, hbound, hcause, rfl⟩ |
      ⟨slot, definition, exclusion, excluded, hbound, hexclusion, hexcluded, hsome, hall, rfl⟩
    · exact .definition hresolve hbound hcause (ih _ _ _ (Nat.le_refl _) hcause)
    · exact .veto hresolve hbound hexclusion hexcluded hsome hall
  | prose text =>
    rw [Refuses, matchesOf, Parser.enumerate] at h
    cases h
    exact .prose

theorem Refuses.blames {parser : Parser} {start : Nat} {failure : ParseError}
    (h : catalog.Refuses source parser start failure) :
    catalog.Blames source parser start failure := by
  generalize hlength : failure.causes.length = length
  induction length using Nat.strongRecOn generalizing parser start failure with
  | ind length ih =>
    refine h.blames_of fun parser' start' cause hshorter hcause => ih _ ?_ hcause rfl
    rw [ParseError.frames, List.length_cons] at hshorter
    omega

theorem onward_of_mem_endsOfParts {parts : List Parser} {start o : Nat}
    (h : o ∈ catalog.endsOfParts source parts {start}) : Onward source start o := by
  induction parts generalizing start with
  | nil => exact Or.inl h
  | cons part rest ih =>
    rw [endsOfParts, mem_endsOfParts_iff] at h
    obtain ⟨middle, ⟨_, rfl, hmiddle⟩, h⟩ := h
    exact (onward_stepping source).trans (onward_of_mem_endsOf hmiddle) (ih h)

end Catalog

structure ParseError.Advances (failure : ParseError) (start limit : Nat) : Prop where
  ordered : (failure.frames.map (·.start)).Pairwise (· ≤ ·)
  within : ∀ frame ∈ failure.frames, start ≤ frame.start ∧ frame.start ≤ limit

theorem ParseError.advances_single {parser : Parser} {start limit : Nat} (h : start ≤ limit) :
    Advances ⟨⟨parser, start⟩, []⟩ start limit where
  ordered := List.pairwise_singleton _ _
  within := List.forall_mem_singleton.2 ⟨Nat.le_refl start, h⟩

theorem ParseError.Advances.cons {cause : ParseError} {source : Source} {parser : Parser}
    {start o : Nat} (h : cause.Advances o (max o source.size)) (ho : Onward source start o) :
    Advances ⟨⟨parser, start⟩, cause.frames⟩ start (max start source.size) where
  ordered := by
    refine List.pairwise_cons.2 ⟨fun later hlater => ?_, h.ordered⟩
    obtain ⟨frame, hframe, rfl⟩ := List.mem_map.1 hlater
    have hle := (h.within frame hframe).1
    unfold Onward at ho
    dsimp only
    omega
  within := by
    refine List.forall_mem_cons.2 ⟨⟨Nat.le_refl start, Nat.le_max_left ..⟩, fun frame hframe => ?_⟩
    obtain ⟨hle, hlimit⟩ := h.within frame hframe
    unfold Onward at ho
    omega

namespace Catalog

variable {catalog : Catalog} {source : Source} {parser : Parser} {start : Nat}
  {failure : ParseError}

theorem Blames.advances (h : catalog.Blames source parser start failure) :
    failure.Advances start (max start source.size) := by
  induction h with
  | literal | prose | nothing => exact ParseError.advances_single (Nat.le_max_left ..)
  | branch _ _ _ ih => exact ih.cons (Or.inl rfl)
  | part ho _ _ ih => exact ih.cons (onward_of_mem_endsOfParts ho)
  | occurrence _ ho _ _ ih =>
    exact ih.cons (related_of_mem_reach (onward_stepping source)
      (fun _ _ o _ e he => onward_of_mem_endsOf he) ho)
  | definition _ _ _ _ ih => exact ih.cons (Or.inl rfl)
  | veto =>
    exact (ParseError.advances_single (Nat.le_max_left ..)).cons (Or.inl rfl)

theorem Blames.head_eq (h : catalog.Blames source parser start failure) :
    failure.head = ⟨catalog.titled parser, start⟩ := by
  cases h <;> rfl

/-- What a failure of a parser at an offset says is so. -/
structure Truthful (catalog : Catalog) (source : Source) (parser : Parser) (start : Nat)
    (failure : ParseError) : Prop where
  head : failure.head = ⟨catalog.titled parser, start⟩
  explained : catalog.Blames source parser start failure
  advances : failure.Advances start (max start source.size)

theorem Refuses.truthful (h : catalog.Refuses source parser start failure) :
    catalog.Truthful source parser start failure :=
  ⟨h.blames.head_eq, h.blames, h.blames.advances⟩

/-- The matches of a rule are single nodes, and where it does not fail there is one. -/
theorem exists_longest_of_ruleMatches {rule : RuleId} {found : MatchSet}
    (h : catalog.ruleMatches rule source start = (.ok (.ok found) : Except GrammarError Attempt)) :
    ∃ node stop, found.longest? = some ⟨[node], stop⟩ ∧ stop ∈ found.stops ∧
      ∀ e ∈ found.stops, e ≤ stop := by
  have hfilled : found.stops ≠ [] := call_filled _ source _ start _ h found rfl
  rw [ruleMatches, depthBound, call] at h
  obtain ⟨_, slot, _, candidates, -, -, -, hnamed⟩ := exists_of_callOnce_eq_ok h
  cases hlongest : found.longest? with
  | none =>
    rw [MatchSet.longest?_eq_head?, List.head?_eq_none_iff] at hlongest
    rw [MatchSet.stops, hlongest] at hfilled
    exact absurd rfl hfilled
  | some longest =>
    have hmem : longest ∈ found.toList := List.mem_of_head? hlongest
    obtain ⟨m', -, rfl⟩ := hnamed longest hmem
    refine ⟨_, _, rfl, MatchSet.mem_stops.2 ⟨_, hmem, rfl⟩, fun e he => ?_⟩
    obtain ⟨m, hm, rfl⟩ := MatchSet.mem_stops.1 he
    have hle := MatchSet.stop_le_of_longest? hlongest hm
    exact hle

def whole (catalog : Catalog) (rule : RuleId) (source : Source) :
    Attempt → Except ParseError Node
  | .error failure => .error failure
  | .ok found =>
    match found.longest? with
    | some ⟨node :: _, stop⟩ =>
      if stop < source.size then .error (.ofCause (.rule (catalog.refer rule)) stop none)
      else .ok node
    | _ => .error (.ofCause (.rule (catalog.refer rule)) 0 none)

theorem run_parseAll (rule : RuleId) (source : Source) (caches : Caches) :
    ((catalog.parseAll rule source : Run _).run caches).1 =
      ((catalog.ruleMatches rule source 0 : Run Attempt).run caches).1.map
        (catalog.whole rule source) := by
  rw [parseAll]
  rcases hrun : (catalog.ruleMatches rule source 0 : Run Attempt).run caches with
    ⟨error | failure | found, after⟩
  · have hparse : (catalog.parse rule source 0 : Run _).run caches = (.error error, after) :=
      Run.run_bind_error hrun
    rw [Run.run_bind_error hparse]
    rfl
  · have hparse : (catalog.parse rule source 0 : Run _).run caches =
        (.ok (.error failure), after) := Run.run_bind_ok hrun
    rw [Run.run_bind_ok hparse]
    rfl
  · have hparse : (catalog.parse rule source 0 : Run _).run caches =
        (.ok (match found.longest? with
          | some ⟨node :: _, stop⟩ => .ok (node, stop)
          | _ => .error (.ofCause (.rule (catalog.refer rule)) 0 none)), after) := by
      rw [parse, Run.run_bind_ok hrun]
      dsimp only
      rcases found.longest? with _ | ⟨_ | ⟨node, others⟩, stop⟩ <;> rfl
    rw [Run.run_bind_ok hparse, Except.map, whole]
    rcases found.longest? with _ | ⟨_ | ⟨node, others⟩, stop⟩
    · rfl
    · rfl
    · dsimp only
      split <;> rfl

/-- A parse of a whole text fails with its rule, or where the longest match stops if that is not
the end. -/
theorem whole_eq_error_iff {rule : RuleId} {attempt : Attempt}
    (hlongest : ∀ found, attempt = .ok found →
      ∃ node stop, found.longest? = some ⟨[node], stop⟩ ∧ stop ∈ found.stops ∧
        ∀ e ∈ found.stops, e ≤ stop) :
    catalog.whole rule source attempt = .error failure ↔ attempt = .error failure ∨
      ∃ found stop, attempt = .ok found ∧ stop ∈ found.stops ∧ (∀ e ∈ found.stops, e ≤ stop) ∧
        stop < source.size ∧ failure = ⟨⟨.rule (catalog.refer rule), stop⟩, []⟩ := by
  cases attempt with
  | error failure' =>
    rw [whole]
    constructor
    · exact fun h => Or.inl (by rw [Except.error.inj h])
    · rintro (h | ⟨found, stop, h, -⟩)
      · rw [Except.error.inj h]
      · cases h
  | ok found =>
    obtain ⟨node, stop, hfirst, hmem, hle⟩ := hlongest found rfl
    rw [whole, hfirst]
    dsimp only
    constructor
    · intro h
      split at h
      case isTrue hstop =>
        cases h
        exact Or.inr ⟨found, stop, rfl, hmem, hle, hstop, rfl⟩
      case isFalse => cases h
    · rintro (h | ⟨found', stop', h, hmem', hle', hlt, rfl⟩)
      · cases h
      · cases h
        obtain rfl : stop' = stop := Nat.le_antisymm (hle stop' hmem') (hle' stop hmem)
        rw [if_pos hlt]
        rfl

end Catalog

section
variable {held : Set Parser} {store : Store} {caches : Caches}

/-- The caches that parses come to, one after the other, which begin with nothing remembered and
between which nothing is reconfigured. Answers may be forgotten at any time. -/
inductive Store.Parsed (store : Store) (held : Set Parser) : Caches → Prop
  | empty {caches : Caches} : (∀ id key attempt, ¬ caches.Holds id key attempt) →
    Parsed store held caches
  | parse {caches : Caches} {parser : Parser} (source : Source) (start : Nat) :
    Parsed store held caches → store.Uses held parser →
      Parsed store held ((store.catalog.matchesOf parser source start : Run Attempt).run caches).2
  | forget {caches caches' : Caches} : Parsed store held caches →
    (∀ id key attempt, caches'.Holds id key attempt → caches.Holds id key attempt) →
      Parsed store held caches'

def Store.inUse (store : Store) (held : Set Parser) : Scope :=
  ⟨Set.univ, {parser | store.Uses held parser}⟩

theorem Store.closed_inUse (store : Store) (held : Set Parser) :
    (store.inUse held).Closed store.catalog where
  inner node hnode _ hpart := fun inner hinner => hnode inner (node.walk_trans hpart hinner)
  target _ _ rule _ := Set.mem_univ rule
  definition _ _ _ _ hbound := Store.uses_definition hbound held
  exclusion _ _ _ _ _ _ _ excluded _ := Set.mem_univ excluded

theorem Sane.apart_inUse (h : Sane held store) :
    Apart (store.inUse held).nodes (store.inUse held).nodes := by
  have hused {node : Parser} (hnode : node ∈ (store.inUse held).nodes) {id : CacheId}
      (hid : node.cache? = some id) : node ∈ store.used Set.univ held := by
    rcases hnode node node.self_mem_walk with hused | ⟨ref, rfl⟩
    · exact hused
    · cases hid
  intro a ha b hb id hid hid'
  exact h.apart a (hused ha hid) b (hused hb hid') id hid hid'

theorem Store.Parsed.sound (hsane : Sane held store) (h : store.Parsed held caches) :
    Sound store.catalog (store.inUse held).nodes caches := by
  induction h with
  | empty hempty => exact .of_empty hempty
  | parse source start _ huses ih =>
    exact (matchesOf_agrees (store.closed_inUse held) hsane.apart_inUse huses source start _ ih).2.1
  | forget _ hholds ih => exact ih.of_holds hholds

/-- With sound caches, a parser answers what it answers without. -/
theorem Sound.matchesOf_iff {catalog : Catalog} {scope : Scope}
    (hsound : Sound catalog scope.nodes caches) (hclosed : scope.Closed catalog)
    (hapart : Apart scope.nodes scope.nodes) {parser : Parser} (hparser : parser ∈ scope.nodes)
    {source : Source} {start : Nat} {attempt : Attempt} :
    ((catalog.matchesOf parser source start : Run Attempt).run caches).1 = .ok attempt ↔
      catalog.matchesOf parser source start = (.ok attempt : Except GrammarError Attempt) := by
  have hagree := (matchesOf_agrees hclosed hapart hparser source start caches hsound).1
  constructor
  · intro h
    rw [h] at hagree
    exact hagree.symm.eq_of_ok
  · intro h
    rw [h] at hagree
    exact hagree.eq_of_ok

theorem Store.Parsed.matchesOf_iff (hsane : Sane held store) (h : store.Parsed held caches)
    {parser : Parser} (huses : store.Uses held parser) {source : Source} {start : Nat}
    {attempt : Attempt} :
    ((store.catalog.matchesOf parser source start : Run Attempt).run caches).1 = .ok attempt ↔
      store.catalog.matchesOf parser source start =
        (.ok attempt : Except GrammarError Attempt) :=
  (h.sound hsane).matchesOf_iff (store.closed_inUse held) hsane.apart_inUse huses

theorem Store.Parsed.sound_scopeOf (hsane : Sane held store) (h : store.Parsed held caches)
    {parser : Parser} (huses : store.Uses held parser) :
    Sound store.catalog (store.catalog.scopeOf parser).nodes caches := by
  apply (h.sound hsane).mono
  intro node hnode
  have hinner := (store.closed_inUse held).inner
  rcases hnode with hnode | ⟨ref, rule, slot, definition, -, -, hbound, hnode⟩
  · exact hinner parser huses node hnode
  · exact hinner definition (Store.uses_definition hbound held) node hnode

end

/-- In whatever state a session is, whatever parses have been made in it: a failure says truly
which parser failed where, and what caused this. A parse of a whole text fails as its rule does,
or says how far the longest match reaches. -/
theorem Session.Reached.failures_truthful {session : Session} (h : session.Reached)
    {bench : Bench} (hsteps : session.bench.Steps bench) {caches : Caches}
    (hparsed : bench.store.Parsed {held | .parser held ∈ bench.held} caches) :
    (∀ parser, bench.store.Uses {held | .parser held ∈ bench.held} parser →
      ∀ source start failure,
        ((bench.store.catalog.matchesOf parser source start : Run Attempt).run caches).1 =
            .ok (.error failure) →
          bench.store.catalog.Truthful source parser start failure) ∧
    ∀ rule source,
      (∀ start failure,
        ((bench.store.catalog.ruleMatches rule source start : Run Attempt).run caches).1 =
            .ok (.error failure) →
          bench.store.catalog.Truthful source (.rule (bench.store.catalog.refer rule)) start
            failure) ∧
      ∀ failure,
        ((bench.store.catalog.parseAll rule source : Run _).run caches).1 =
            .ok (.error failure) ↔
          ((bench.store.catalog.ruleMatches rule source 0 : Run Attempt).run caches).1 =
              .ok (.error failure) ∨
          ∃ found stop,
            ((bench.store.catalog.ruleMatches rule source 0 : Run Attempt).run caches).1 =
                .ok (.ok found) ∧
              stop ∈ found.stops ∧ (∀ e ∈ found.stops, e ≤ stop) ∧ stop < source.size ∧
                failure = ⟨⟨.rule (bench.store.catalog.refer rule), stop⟩, []⟩ := by
  have hsane := (hsteps.orderly h.orderly).sane
  have hparser : ∀ parser, bench.store.Uses {held | .parser held ∈ bench.held} parser →
      ∀ source start failure,
        ((bench.store.catalog.matchesOf parser source start : Run Attempt).run caches).1 =
            .ok (.error failure) →
          bench.store.catalog.Truthful source parser start failure := by
    intro parser huses source start failure hfailure
    exact Catalog.Refuses.truthful ((hparsed.matchesOf_iff hsane huses).1 hfailure)
  refine ⟨hparser, fun rule source => ⟨?_, fun failure => ?_⟩⟩
  · exact hparser _ (bench.store.uses_rule _ _) source
  · rw [Catalog.run_parseAll]
    cases hrun : ((bench.store.catalog.ruleMatches rule source 0 : Run Attempt).run caches).1 with
    | error error => simp [Except.map]
    | ok attempt =>
      rw [Except.map, Except.ok.injEq, Catalog.whole_eq_error_iff]
      · simp only [Except.ok.injEq]
      · rintro found rfl
        exact Catalog.exists_longest_of_ruleMatches
          ((hparsed.matchesOf_iff hsane (bench.store.uses_rule _ _)).1 hrun)

def Catalog.missesDigit (catalog : Catalog) (rule : RuleId) : Bool :=
  match (catalog.ruleMatches rule (.ofString "xg") 0 : Except GrammarError Attempt) with
  | .ok (.error failure) => failure.frames.map (·.start) = [0, 0, 1, 1, 1, 1, 1]
  | _ => false

/-- A second parse of digits that are none repeats from the caches that no digit follows the mark. -/
theorem Session.Reached.failures_truthful_no_digit : ∃ (rule : RuleId) (caches : Caches)
    (failure : ParseError),
    Session.start.store.Parsed {held | .parser held ∈ Session.start.bench.held} caches ∧
      ((Session.start.store.catalog.ruleMatches rule (.ofString "xg") 0 : Run Attempt).run
        caches).1 = .ok (.error failure) ∧
      failure.frames.map (·.start) = [0, 0, 1, 1, 1, 1, 1] ∧
      Session.start.store.catalog.Truthful (.ofString "xg")
        (.rule (Session.start.store.catalog.refer rule)) 0 failure := by
  let store := Session.start.store
  let held : Set Parser := {held | .parser held ∈ Session.start.bench.held}
  have hcheck : (store.catalog.local? .abnf "hex-val").any store.catalog.missesDigit = true := by
    decide +kernel
  obtain ⟨rule, -, hfails⟩ := (Option.any_eq_true _ _).1 hcheck
  rw [Catalog.missesDigit] at hfails
  split at hfails
  case h_2 => cases hfails
  case h_1 failure hfailure =>
    have huses : store.Uses held (.rule (store.catalog.refer rule)) := store.uses_rule _ _
    have hparsed : store.Parsed held ((store.catalog.matchesOf (.rule (store.catalog.refer rule))
        (.ofString "xg") 0 : Run Attempt).run store.caches).2 :=
      .parse (.ofString "xg") 0 (.empty fun _ _ _ => Session.not_holds_start) huses
    have hrun := (hparsed.matchesOf_iff Session.Reached.start.orderly.sane huses).2 hfailure
    exact ⟨rule, _, failure, hparsed, hrun, of_decide_eq_true hfails,
      ((Session.Reached.start.failures_truthful .refl hparsed).2 rule (.ofString "xg")).1 0 failure
        hrun⟩

end Metasyntax
