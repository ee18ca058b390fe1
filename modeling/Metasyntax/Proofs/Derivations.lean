import Metasyntax.Proofs.Adequacy

/-!
# The nodes of a match

A match has the nodes of some way through the parser. What every way through a rule's
definition gives to the rule, given that the rules it calls have it, all matches of all
rules have.
-/

set_option autoImplicit false

namespace Metasyntax

def Repeats (step : Nat → Match → Prop) : Nat → Nat → Match → Prop
  | 0, start, m => m = .empty start
  | count + 1, start, m =>
    ∃ first rest, step start first ∧ Repeats step count first.stop rest ∧ m = first.followedBy rest

namespace Parser

section
variable (calls : RuleRef → Nat → Match → Prop) (source : Source)

mutual
def Derives : Parser → Nat → Match → Prop
  | .literal terminal, start, m => terminal.matchAt source start = some m
  | .alternation _ branches, start, m => SomeDerives branches start m
  | .concatenation parts, start, m => EachDerives parts start m
  | .optional _ element, start, m =>
    ∃ count ≤ 1, Repeats (fun o m => Derives element o m) count start m
  | .repetition _ bounds element, start, m =>
    ∃ count, bounds.min ≤ count ∧ (∀ most, bounds.max = some most → count ≤ most) ∧
      Repeats (fun o m => Derives element o m) count start m
  | .rule ref, start, m => calls ref start m
  | .prose _, _, _ => False

def SomeDerives : List Parser → Nat → Match → Prop
  | [], _, _ => False
  | branch :: rest, start, m => Derives branch start m ∨ SomeDerives rest start m

def EachDerives : List Parser → Nat → Match → Prop
  | [], start, m => m = .empty start
  | part :: rest, start, m =>
    ∃ first tail, Derives part start first ∧ EachDerives rest first.stop tail ∧
      m = first.followedBy tail
end

end

end Parser

theorem Match.followedBy_assoc (a b c : Match) :
    (a.followedBy b).followedBy c = a.followedBy (b.followedBy c) := by
  simp [followedBy]

theorem Match.followedBy_empty (m : Match) : m.followedBy (.empty m.stop) = m := by
  simp [followedBy, empty]

theorem Match.empty_followedBy (start : Nat) (m : Match) : (Match.empty start).followedBy m = m := by
  simp [followedBy, empty]

theorem repeats_snoc {step : Nat → Match → Prop} {count start : Nat} {head tail : Match}
    (h : Repeats step count start head) (htail : step head.stop tail) :
    Repeats step (count + 1) start (head.followedBy tail) := by
  induction count generalizing start head with
  | zero =>
    cases h
    exact ⟨tail, .empty tail.stop, htail, rfl, by
      rw [Match.empty_followedBy, Match.followedBy_empty]⟩
  | succ count ih =>
    obtain ⟨first, rest, hfirst, hrest, rfl⟩ := h
    exact ⟨first, rest.followedBy tail, hfirst, ih hrest htail, Match.followedBy_assoc ..⟩

theorem exists_of_bind_eq_ok {α β : Type} {x : Except GrammarError α}
    {f : α → Except GrammarError β} {b : β} (h : x >>= f = .ok b) :
    ∃ a, x = .ok a ∧ f a = .ok b := by
  cases x with
  | error error => cases h
  | ok a => exact ⟨a, rfl, h⟩

theorem Progress.exists_of_settle_eq_ok {progress : Progress} {parser : Parser} {start : Nat}
    {found : MatchSet} (h : progress.settle parser start = .ok found) : progress.found = found := by
  rw [settle] at h
  split at h
  · cases h
  · cases h
    rfl

def Yielding (run : Nat → Except GrammarError Attempt) (step : Nat → Match → Prop) : Prop :=
  ∀ o found, run o = .ok (.ok found) → ∀ m ∈ found.toList, step o m

section
variable {run : Nat → Except GrammarError Attempt} {step : Nat → Match → Prop}
variable (h : Yielding run step)
include h

theorem sweep_yields {known : MatchSet} {heads : List Match} {progress after : Progress}
    (hsweep : sweep run known heads progress = .ok after) :
    ∀ m ∈ after.found.toList, m ∈ progress.found.toList ∨
      ∃ head ∈ heads, ∃ tail, step head.stop tail ∧ m = head.followedBy tail := by
  induction heads generalizing progress with
  | nil =>
    cases hsweep
    exact fun m hm => Or.inl hm
  | cons head heads ih =>
    rw [sweep] at hsweep
    obtain ⟨attempt, hrun, hrest⟩ := exists_of_bind_eq_ok hsweep
    intro m hm
    cases attempt with
    | error failure =>
      rcases ih hrest m hm with hm | ⟨head', hhead', hm⟩
      · exact Or.inl hm
      · exact Or.inr ⟨head', List.mem_cons_of_mem _ hhead', hm⟩
    | ok tails =>
      rcases ih hrest m hm with hm | ⟨head', hhead', hm⟩
      · rcases MatchSet.mem_extend hm with hm | ⟨tail, htail, rfl⟩
        · exact Or.inl hm
        · exact Or.inr ⟨head, List.mem_cons_self, tail, h _ _ hrun tail htail, rfl⟩
      · exact Or.inr ⟨head', List.mem_cons_of_mem _ hhead', hm⟩

theorem repeatExactly_yields {parser : Parser} {start count done : Nat} {frontier found : MatchSet}
    (hfrontier : ∀ m ∈ frontier.toList, Repeats step done start m)
    (hrepeat : repeatExactly run parser start count frontier = .ok (.ok found)) :
    ∀ m ∈ found.toList, Repeats step (done + count) start m := by
  induction count generalizing frontier done with
  | zero =>
    cases hrepeat
    exact hfrontier
  | succ count ih =>
    rw [repeatExactly] at hrepeat
    obtain ⟨progress, hsweep, hrest⟩ := exists_of_bind_eq_ok hrepeat
    cases hsettle : progress.settle parser start with
    | error failure =>
      rw [hsettle] at hrest
      cases hrest
    | ok next =>
      rw [hsettle] at hrest
      rw [Nat.add_comm count 1, ← Nat.add_assoc]
      refine ih (fun m hm => ?_) hrest
      rw [← Progress.exists_of_settle_eq_ok hsettle] at hm
      rcases sweep_yields h hsweep m hm with hm | ⟨head, hhead, tail, htail, rfl⟩
      · cases hm
      · exact repeats_snoc (hfrontier head hhead) htail

theorem repeatFurther_yields {start least done rounds : Nat} {known found : MatchSet}
    {frontier : List Match} (hleast : least ≤ done)
    (hknown : ∀ m ∈ known.toList, ∃ count, least ≤ count ∧ count ≤ done ∧
      Repeats step count start m)
    (hfrontier : ∀ m ∈ frontier, Repeats step done start m)
    (hrepeat : repeatFurther run rounds known frontier = .ok found) :
    ∀ m ∈ found.toList, ∃ count, least ≤ count ∧ count ≤ done + rounds ∧
      Repeats step count start m := by
  induction rounds generalizing known frontier done with
  | zero =>
    cases hrepeat
    exact hknown
  | succ rounds ih =>
    rw [repeatFurther] at hrepeat
    obtain ⟨progress, hsweep, hrest⟩ := exists_of_bind_eq_ok hrepeat
    split at hrest
    · cases hrest
      intro m hm
      obtain ⟨count, hle, hlt, hm⟩ := hknown m hm
      exact ⟨count, hle, by omega, hm⟩
    · have hnext : ∀ m ∈ progress.found.toList, Repeats step (done + 1) start m := by
        intro m hm
        rcases sweep_yields h hsweep m hm with hm | ⟨head, hhead, tail, htail, rfl⟩
        · cases hm
        · exact repeats_snoc (hfrontier head hhead) htail
      have hunion : ∀ m ∈ (known.union progress.found).toList, ∃ count, least ≤ count ∧
          count ≤ done + 1 ∧ Repeats step count start m := by
        intro m hm
        rcases MatchSet.mem_union hm with hm | hm
        · obtain ⟨count, hle, hlt, hm⟩ := hknown m hm
          exact ⟨count, hle, by omega, hm⟩
        · exact ⟨done + 1, by omega, le_rfl, hnext m hm⟩
      intro m hm
      obtain ⟨count, hle, hlt, hm⟩ := ih (by omega) hunion hnext hrest m hm
      exact ⟨count, hle, by omega, hm⟩

theorem repeatBetween_yields {parser : Parser} {bounds : Bounds} (hbounds : bounds.Ordered)
    {source : Source} {start : Nat} {found : MatchSet}
    (hrepeat : repeatBetween run parser bounds source start = .ok (.ok found)) :
    ∀ m ∈ found.toList, ∃ count, bounds.min ≤ count ∧
      (∀ most, bounds.max = some most → count ≤ most) ∧ Repeats step count start m := by
  rw [repeatBetween] at hrepeat
  obtain ⟨attempt, hexactly, hrest⟩ := exists_of_bind_eq_ok hrepeat
  cases attempt with
  | error failure => cases hrest
  | ok known =>
    obtain ⟨further, hfurther, heq⟩ := exists_of_bind_eq_ok hrest
    cases heq
    have hknown : ∀ m ∈ known.toList, Repeats step bounds.min start m := by
      have hstart : ∀ m ∈ (MatchSet.single (.empty start)).toList, Repeats step 0 start m := by
        intro m hm
        rw [MatchSet.toList_single, List.mem_singleton] at hm
        exact hm
      have hexact := repeatExactly_yields h hstart hexactly
      rwa [Nat.zero_add] at hexact
    intro m hm
    obtain ⟨count, hmin, hmax, hm⟩ := repeatFurther_yields h le_rfl
      (fun m hm => ⟨bounds.min, le_rfl, le_rfl, hknown m hm⟩) hknown hfurther m hm
    refine ⟨count, hmin, fun most hmost => ?_, hm⟩
    have hmost' := hbounds most hmost
    have hrounds : growthRounds bounds source.size ≤ most - bounds.min := by
      simp [growthRounds, hmost]
    omega

end

namespace Parser

section
variable {firstMatch : ModeId → Bool} {call : RuleRef → Nat → Except GrammarError Attempt}
  {calls : RuleRef → Nat → Match → Prop} {source : Source}
mutual
theorem enumerate_yields (h : ∀ ref, Yielding (call ref) (calls ref)) (parser : Parser)
    (hordered : Ordered parser.walk) :
    Yielding (parser.enumerate firstMatch call source) (parser.Derives calls source) := by
  intro start found hfound m hm
  cases parser with
  | literal terminal =>
    rw [enumerate] at hfound
    rw [Derives]
    cases hmatch : terminal.matchAt source start with
    | none =>
      rw [hmatch] at hfound
      cases hfound
    | some m' =>
      rw [hmatch] at hfound
      cases hfound
      rw [MatchSet.toList_single, List.mem_singleton] at hm
      rw [hm]
  | alternation mode branches =>
    rw [enumerate] at hfound
    rw [Derives]
    have hbranches := tryBranches_yields h _ _ branches
      (hordered.mono (by simp +contextual [walk])) start .none found hfound m hm
    simpa [Progress.none] using hbranches
  | concatenation parts =>
    rw [enumerate] at hfound
    rw [Derives]
    obtain ⟨head, hhead, tail, htail, rfl⟩ := followParts_yields h _ parts
      (hordered.mono (by simp +contextual [walk])) start _ found hfound m hm
    rw [MatchSet.toList_single, List.mem_singleton] at hhead
    subst hhead
    rwa [Match.empty_followedBy]
  | optional cache element =>
    rw [enumerate_eq_explore, explore] at hfound
    rw [Derives]
    have hbounds : Bounds.atMostOnce.Ordered := fun most hmost => by
      cases hmost
      exact Nat.zero_le 1
    obtain ⟨count, -, hmax, hm⟩ := repeatBetween_yields
      (enumerate_yields h element (hordered.mono (by simp +contextual [walk]))) hbounds hfound m hm
    exact ⟨count, hmax 1 rfl, hm⟩
  | repetition cache bounds element =>
    rw [enumerate_eq_explore, explore] at hfound
    rw [Derives]
    exact repeatBetween_yields
      (enumerate_yields h element (hordered.mono (by simp +contextual [walk])))
      (hordered cache bounds element (by simp [walk])) hfound m hm
  | rule ref =>
    rw [enumerate] at hfound
    rw [Derives]
    exact h ref start found hfound m hm
  | prose text =>
    rw [enumerate] at hfound
    cases hfound

theorem tryBranches_yields (h : ∀ ref, Yielding (call ref) (calls ref)) (whole : Parser)
    (onlyFirst : Bool) (branches : List Parser)
    (hordered : Ordered (walkAll branches)) (start : Nat) (progress : Progress)
    (found : MatchSet)
    (hfound : tryBranches firstMatch call source whole onlyFirst start branches progress =
      .ok (.ok found)) :
    ∀ m ∈ found.toList, m ∈ progress.found.toList ∨ SomeDerives calls source branches start m := by
  intro m hm
  cases branches with
  | nil =>
    rw [tryBranches] at hfound
    exact Or.inl (Progress.exists_of_settle_eq_ok (Except.ok.inj hfound) ▸ hm)
  | cons branch rest =>
    have hrest := tryBranches_yields h whole onlyFirst rest
      (hordered.mono (by simp +contextual [walkAll])) start
    rw [tryBranches] at hfound
    rw [SomeDerives]
    obtain ⟨attempt, hbranch, hfound⟩ := exists_of_bind_eq_ok hfound
    have hyields := enumerate_yields h branch (hordered.mono (by simp +contextual [walkAll])) start
    cases attempt with
    | error failure =>
      rcases hrest _ found hfound m hm with hm | hm
      · exact Or.inl hm
      · exact Or.inr (Or.inr hm)
    | ok matched =>
      dsimp only at hfound
      split at hfound
      · cases hfound
        exact Or.inr (Or.inl (hyields found hbranch m hm))
      · rcases hrest _ found hfound m hm with hm | hm
        · rcases MatchSet.mem_union hm with hm | hm
          · exact Or.inl hm
          · exact Or.inr (Or.inl (hyields matched hbranch m hm))
        · exact Or.inr (Or.inr hm)

theorem followParts_yields (h : ∀ ref, Yielding (call ref) (calls ref)) (whole : Parser)
    (parts : List Parser)
    (hordered : Ordered (walkAll parts)) (start : Nat) (frontier found : MatchSet)
    (hfound : followParts firstMatch call source whole start parts frontier = .ok (.ok found)) :
    ∀ m ∈ found.toList, ∃ head ∈ frontier.toList, ∃ tail,
      EachDerives calls source parts head.stop tail ∧ m = head.followedBy tail := by
  intro m hm
  cases parts with
  | nil =>
    rw [followParts] at hfound
    cases hfound
    exact ⟨m, hm, .empty m.stop, by rw [EachDerives], (Match.followedBy_empty m).symm⟩
  | cons part rest =>
    rw [followParts] at hfound
    obtain ⟨progress, hsweep, hfound⟩ := exists_of_bind_eq_ok hfound
    cases hsettle : progress.settle whole start with
    | error failure =>
      rw [hsettle] at hfound
      cases hfound
    | ok next =>
      rw [hsettle] at hfound
      obtain ⟨middle, hmiddle, tail, htail, rfl⟩ := followParts_yields h whole rest
        (hordered.mono (by simp +contextual [walkAll])) start next found hfound m hm
      rw [← Progress.exists_of_settle_eq_ok hsettle] at hmiddle
      rcases sweep_yields
          (enumerate_yields h part (hordered.mono (by simp +contextual [walkAll]))) hsweep middle
          hmiddle with hmiddle | ⟨head, hhead, first, hfirst, rfl⟩
      · cases hmiddle
      · refine ⟨head, hhead, first.followedBy tail, ?_, Match.followedBy_assoc ..⟩
        rw [EachDerives]
        exact ⟨first, tail, hfirst, htail, rfl⟩
end

end

end Parser

namespace Catalog

/-- The matches of a rule are some of those of its definition, each as a node. -/
theorem exists_of_callOnce_eq_ok {catalog : Catalog}
    {call : Source → RuleRef → Nat → Except GrammarError Attempt} {source : Source} {ref : RuleRef}
    {start : Nat} {found : MatchSet}
    (h : catalog.callOnce call source ref start = (.ok (.ok found) : Except GrammarError Attempt)) :
    ∃ rule slot definition candidates, catalog.resolve ref = .ok rule ∧
      catalog.bound rule = .ok (slot, definition) ∧
      definition.enumerate catalog.firstMatch (call source) source start = .ok (.ok candidates) ∧
      ∀ m ∈ found.toList, ∃ m' ∈ candidates.toList, m = ⟨[.rule slot.name m'.nodes], m'.stop⟩ := by
  rw [callOnce, ofExcept_eq] at h
  obtain ⟨rule, hresolve, h⟩ := exists_of_bind_eq_ok h
  rw [ofExcept_eq] at h
  obtain ⟨⟨slot, definition⟩, hbound, h⟩ := exists_of_bind_eq_ok h
  obtain ⟨attempt, henumerate, h⟩ := exists_of_bind_eq_ok h
  cases attempt with
  | error failure => cases h
  | ok candidates =>
    refine ⟨rule, slot, definition, candidates, hresolve, hbound, henumerate, fun m hm => ?_⟩
    dsimp only at h
    cases hexclusion : slot.exclusion with
    | none =>
      rw [hexclusion] at h
      cases h
      obtain ⟨m', hm', rfl⟩ := MatchSet.mem_mapNodes.1 hm
      exact ⟨m', hm', rfl⟩
    | some exclusion =>
      rw [hexclusion] at h
      dsimp only at h
      rw [ofExcept_eq] at h
      obtain ⟨excluded, -, h⟩ := exists_of_bind_eq_ok h
      obtain ⟨vetoes, -, h⟩ := exists_of_bind_eq_ok h
      have hsettle := Progress.exists_of_settle_eq_ok (Except.ok.inj h)
      dsimp only at hsettle
      rw [← hsettle] at hm
      obtain ⟨m', hm', rfl⟩ := MatchSet.mem_mapNodes.1 hm
      exact ⟨m', (MatchSet.mem_filter.1 hm').1, rfl⟩

/-- What definitions give to their rules, all matches of rules have. -/
theorem call_induction {catalog : Catalog} {P : Source → RuleRef → Nat → Match → Prop}
    {rules : Set RuleId}
    (hordered : ∀ rule ∈ rules, ∀ slot definition, catalog.bound rule = .ok (slot, definition) →
      Parser.Ordered definition.walk)
    (hdefinition : ∀ source ref rule slot definition start m, rule ∈ rules →
      catalog.resolve ref = .ok rule → catalog.bound rule = .ok (slot, definition) →
      definition.Derives (fun ref o m =>
        (∀ rule', catalog.resolve ref = .ok rule' → rule' ∈ rules) → P source ref o m)
        source start m →
      P source ref start ⟨[.rule slot.name m.nodes], m.stop⟩)
    (depth : Nat) (source : Source) (ref : RuleRef) (start : Nat) {found : MatchSet}
    (hfound : catalog.call depth source ref start = (.ok (.ok found) : Except GrammarError Attempt))
    (href : ∀ rule, catalog.resolve ref = .ok rule → rule ∈ rules) :
    ∀ m ∈ found.toList, P source ref start m := by
  induction depth generalizing source ref start found with
  | zero => cases hfound
  | succ depth ih =>
    intro m hm
    obtain ⟨rule, slot, definition, candidates, hresolve, hbound, henumerate, hwrapped⟩ :=
      exists_of_callOnce_eq_ok hfound
    obtain ⟨m', hm', rfl⟩ := hwrapped m hm
    have hrule := href rule hresolve
    refine hdefinition source ref rule slot definition start m' hrule hresolve hbound ?_
    exact Parser.enumerate_yields (fun ref' o found' hfound' m hm href' =>
      ih source ref' o hfound' href' m hm) definition (hordered rule hrule slot definition hbound)
      start candidates henumerate m' hm'

end Catalog

end Metasyntax
