import Metasyntax.Proofs.Coverage
import Metasyntax.Proofs.Headway
import Metasyntax.Proofs.Influence

/-!
# More to be found

One catalog may offer more than another: its alternations go on after a match, or a rule has
an alternative more. What a parse finds with the smaller catalog is then found with the
larger one too, even from caches some of which still answer for the smaller one. That an
offset is come to sooner, or by other ways besides, takes nothing away: a repetition goes on
from each offset once, and is allowed as many rounds after it as before.
-/

set_option autoImplicit false

namespace Metasyntax

def Attempt.ends (attempt : Attempt) : Set Nat :=
  {e | ∃ found, attempt = .ok found ∧ e ∈ found.stops}

@[simp] theorem Attempt.ends_ok (found : MatchSet) :
    Attempt.ends (.ok found) = {e | e ∈ found.stops} := by
  ext e
  exact ⟨fun ⟨_, heq, he⟩ => Except.ok.inj heq ▸ he, fun he => ⟨found, rfl, he⟩⟩

@[simp] theorem Attempt.ends_error (failure : ParseError) : Attempt.ends (.error failure) = ∅ := by
  ext e
  exact ⟨fun ⟨_, heq, _⟩ => (by cases heq), fun he => absurd he (Set.notMem_empty e)⟩

theorem Progress.ends_settle (progress : Progress) (parser : Parser) (start : Nat) :
    (progress.settle parser start).ends = {e | e ∈ progress.found.stops} := by
  rw [settle]
  split
  case isTrue hempty =>
    ext e
    simp [MatchSet.isEmpty_iff.1 hempty]
  case isFalse => exact Attempt.ends_ok _

def stopsOf (run : Nat → Except GrammarError Attempt) (start : Nat) : Set Nat :=
  {e | ∃ found, run start = .ok (.ok found) ∧ e ∈ found.stops}

theorem stopsOf_eq_ends {run : Nat → Except GrammarError Attempt} {start : Nat} {attempt : Attempt}
    (h : run start = .ok attempt) : stopsOf run start = attempt.ends := by
  ext e
  rw [stopsOf, Attempt.ends, h]
  exact exists_congr fun found => and_congr_left fun _ => ⟨Except.ok.inj, congrArg _⟩

theorem yielding_stopsOf (run : Nat → Except GrammarError Attempt) :
    Yielding run fun o m => m.stop ∈ stopsOf run o :=
  fun _ found hfound m hm => ⟨found, hfound, MatchSet.mem_stops.2 ⟨m, hm, rfl⟩⟩

theorem GoesOnward.of_mem_stopsOf {source : Source} {run : Nat → Except GrammarError Attempt}
    (h : GoesOnward source run) {o e : Nat} (he : e ∈ stopsOf run o) : Onward source o e := by
  obtain ⟨found, hfound, he⟩ := he
  exact h o _ hfound found rfl e he

theorem reach_mono {step : Nat → Set Nat} {A B : Set Nat} (h : A ⊆ B) (count : Nat) :
    reach step count A ⊆ reach step count B := by
  intro e he
  obtain ⟨o, ho, he⟩ := mem_reach_iff.1 he
  exact mem_reach_iff.2 ⟨o, h ho, he⟩

theorem mem_reach_of_repeats {step : Nat → Set Nat} {count start : Nat} {m : Match}
    (h : Repeats (fun o m => m.stop ∈ step o) count start m) : m.stop ∈ reach step count {start} := by
  induction count generalizing start m with
  | zero =>
    cases h
    rfl
  | succ count ih =>
    obtain ⟨first, rest, hfirst, hrest, rfl⟩ := h
    have hlater := ih hrest
    rw [reach]
    exact mem_reach_iff.2 ⟨first.stop, ⟨start, rfl, hfirst⟩, hlater⟩

def Bounds.loosened (bounds : Bounds) : Bounds :=
  ⟨bounds.min, bounds.max.map fun most => bounds.min + (most - bounds.min)⟩

theorem Bounds.ordered_loosened (bounds : Bounds) : bounds.loosened.Ordered := by
  intro most hmost
  obtain ⟨most', -, rfl⟩ := Option.map_eq_some_iff.1 hmost
  exact Nat.le_add_right _ _

theorem growthRounds_loosened (bounds : Bounds) (size : Nat) :
    growthRounds bounds.loosened size = growthRounds bounds size := by
  rw [growthRounds, growthRounds, Bounds.loosened]
  cases bounds.max with
  | none => rfl
  | some most =>
    dsimp only [Option.map_some]
    rw [Nat.add_sub_cancel_left]

def span (bounds : Bounds) (step : Nat → Set Nat) (start : Nat) : Set Nat :=
  {e | ∃ count, bounds.min ≤ count ∧
    (∀ most, bounds.loosened.max = some most → count ≤ most) ∧ e ∈ reach step count {start}}

theorem stopsOf_repeatBetween_subset (run : Nat → Except GrammarError Attempt) (parser : Parser)
    (bounds : Bounds) (source : Source) (start : Nat) :
    stopsOf (repeatBetween run parser bounds source) start ⊆ span bounds (stopsOf run) start := by
  rintro e ⟨found, hfound, he⟩
  have hloosened : repeatBetween run parser bounds.loosened source start = .ok (.ok found) := by
    rw [← hfound, repeatBetween, repeatBetween, growthRounds_loosened]
    rfl
  obtain ⟨m, hm, rfl⟩ := MatchSet.mem_stops.1 he
  obtain ⟨count, hmin, hmax, hm⟩ := repeatBetween_yields (yielding_stopsOf run)
    bounds.ordered_loosened hloosened m hm
  exact ⟨count, hmin, hmax, mem_reach_of_repeats hm⟩

section
variable {keeps : Caches → Prop} {run : Nat → Run Attempt} {step : Nat → Set Nat}
variable (hrun : ∀ o, (run o).Upholds keeps fun attempt => step o ⊆ attempt.ends)
include hrun

theorem sweep_upholds (known : MatchSet) (heads : List Match) (progress : Progress) :
    (sweep run known heads progress).Upholds keeps fun after => ∀ e,
      e ∈ progress.found.stops ∨ (∃ head ∈ heads, e ∈ step head.stop) ∧ e ∉ known.stops →
        e ∈ after.found.stops := by
  induction heads generalizing progress with
  | nil => exact Relator.pure _ (by simp)
  | cons head heads ih =>
    rw [sweep]
    refine Relator.bind _ (hrun head.stop) fun attempt hattempt => ?_
    cases attempt with
    | error failure =>
      rw [Attempt.ends_error] at hattempt
      refine (ih { progress with failure := some failure }).mono fun after hafter e he => hafter e ?_
      rcases he with he | ⟨⟨head', hhead', he⟩, hknown⟩
      · exact Or.inl he
      · rcases List.mem_cons.1 hhead' with rfl | hhead'
        · exact absurd (hattempt he) (Set.notMem_empty e)
        · exact Or.inr ⟨⟨head', hhead', he⟩, hknown⟩
    | ok tails =>
      rw [Attempt.ends_ok] at hattempt
      refine (ih { progress with found := progress.found.extend known head tails }).mono
        fun after hafter e he => hafter e ?_
      rcases he with he | ⟨⟨head', hhead', he⟩, hknown⟩
      · exact Or.inl (MatchSet.mem_stops_extend.2 (Or.inl he))
      · rcases List.mem_cons.1 hhead' with rfl | hhead'
        · exact Or.inl (MatchSet.mem_stops_extend.2 (Or.inr ⟨hattempt he, hknown⟩))
        · exact Or.inr ⟨⟨head', hhead', he⟩, hknown⟩

theorem repeatExactly_upholds (parser : Parser) (start count : Nat) (frontier : MatchSet) :
    (repeatExactly run parser start count frontier).Upholds keeps fun attempt =>
      reach step count {o | o ∈ frontier.stops} ⊆ attempt.ends := by
  induction count generalizing frontier with
  | zero => exact Relator.pure _ (Attempt.ends_ok frontier).ge
  | succ count ih =>
    rw [repeatExactly]
    refine Relator.bind _ (sweep_upholds hrun ∅ frontier.toList .none) fun progress hprogress => ?_
    have hnext : {e | ∃ o ∈ {o | o ∈ frontier.stops}, e ∈ step o} ⊆
        (progress.settle parser start).ends := by
      rw [Progress.ends_settle]
      rintro e ⟨o, ho, he⟩
      obtain ⟨head, hhead, rfl⟩ := MatchSet.mem_stops.1 ho
      exact hprogress e (Or.inr ⟨⟨head, hhead, he⟩, by simp⟩)
    rw [reach]
    cases hsettle : progress.settle parser start with
    | error failure =>
      rw [hsettle, Attempt.ends_error] at hnext
      refine Relator.pure _ ((reach_mono hnext count).trans ?_)
      rw [reach_empty]
      exact Set.empty_subset _
    | ok next =>
      rw [hsettle, Attempt.ends_ok] at hnext
      exact (ih next).mono fun attempt => (reach_mono hnext count).trans

theorem repeatFurther_upholds (rounds : Nat) (known : MatchSet) (frontier : List Match)
    (hclosed : ∀ o ∈ known.stops, (∃ m ∈ frontier, m.stop = o) ∨ ∀ e ∈ step o, e ∈ known.stops) :
    (repeatFurther run rounds known frontier).Upholds keeps fun found =>
      ∀ k ≤ rounds, ∀ e ∈ reach step k {o | o ∈ known.stops}, e ∈ found.stops := by
  induction rounds generalizing known frontier with
  | zero =>
    refine Relator.pure _ fun k hk e he => ?_
    obtain rfl : k = 0 := by omega
    exact he
  | succ rounds ih =>
    rw [repeatFurther]
    refine Relator.bind _ (sweep_upholds hrun known frontier .none) fun progress hprogress => ?_
    have hstep : ∀ o ∈ known.stops, ∀ e ∈ step o, e ∈ (known.union progress.found).stops := by
      intro o ho e he
      by_cases hknown : e ∈ known.stops
      · exact MatchSet.mem_stops_union.2 (Or.inl hknown)
      · rcases hclosed o ho with ⟨m, hm, rfl⟩ | hold
        · exact MatchSet.mem_stops_union.2
            (Or.inr (hprogress e (Or.inr ⟨⟨m, hm, he⟩, hknown⟩)))
        · exact absurd (hold e he) hknown
    split
    case isTrue hempty =>
      have hnone : progress.found.stops = [] := MatchSet.isEmpty_iff.1 hempty
      have hall : ∀ o ∈ {o | o ∈ known.stops}, step o ⊆ {o | o ∈ known.stops} := by
        intro o ho e he
        simpa [MatchSet.mem_stops_union, hnone] using hstep o ho e he
      exact Relator.pure _ fun k _ e he => reach_subset_of_closed hall k he
    case isFalse =>
      refine (ih (known.union progress.found) progress.found.toList fun o ho => ?_).mono
        fun found hfound k hk e he => ?_
      · rcases MatchSet.mem_stops_union.1 ho with ho | ho
        · exact Or.inr (hstep o ho)
        · exact Or.inl (MatchSet.mem_stops.1 ho)
      · cases k with
        | zero => exact hfound 0 (Nat.zero_le _) e (MatchSet.mem_stops_union.2 (Or.inl he))
        | succ k =>
          refine hfound k (by omega) e (reach_mono ?_ k he)
          rintro e ⟨o, ho, he⟩
          exact hstep o ho e he

theorem repeatBetween_upholds (parser : Parser) (bounds : Bounds) {source : Source}
    (honward : ∀ o, ∀ e ∈ step o, Onward source o e) (start : Nat) :
    (repeatBetween run parser bounds source start).Upholds keeps fun attempt =>
      span bounds step start ⊆ attempt.ends := by
  have hsingle : {o | o ∈ (MatchSet.single (.empty start)).stops} = {start} := by
    ext o
    simp [Match.empty]
  rw [repeatBetween]
  refine Relator.bind _ (repeatExactly_upholds hrun parser start bounds.min _)
    fun attempt hleast => ?_
  rw [hsingle] at hleast
  -- What is reached in all is reached from where the least number of steps leads to.
  have hspan : ∀ e ∈ span bounds step start, ∃ o ∈ attempt.ends, ∃ count,
      (∀ most, bounds.max = some most → count ≤ most - bounds.min) ∧ e ∈ reach step count {o} := by
    rintro e ⟨count, hmin, hmax, he⟩
    rw [← Nat.add_sub_cancel' hmin, reach_add] at he
    obtain ⟨o, ho, he⟩ := mem_reach_iff.1 he
    refine ⟨o, hleast ho, count - bounds.min, fun most hmost => ?_, he⟩
    have := hmax (bounds.min + (most - bounds.min)) (by simp [Bounds.loosened, hmost])
    omega
  cases attempt with
  | error failure =>
    refine Relator.pure _ fun e he => ?_
    obtain ⟨o, ho, -⟩ := hspan e he
    rw [Attempt.ends_error] at ho
    exact absurd ho (Set.notMem_empty o)
  | ok known =>
    refine Relator.bind _ (repeatFurther_upholds hrun _ known known.toList fun o ho =>
      Or.inl (MatchSet.mem_stops.1 ho)) fun found hfound => Relator.pure _ fun e he => ?_
    obtain ⟨o, ho, count, hmost, he⟩ := hspan e he
    rw [Attempt.ends_ok] at ho ⊢
    have hsteps : ∀ k < count, ∀ o' ∈ reach step k {o}, ∀ e ∈ step o', Onward source o' e :=
      fun _ _ o' _ => honward o'
    obtain ⟨k, hk, hlen, he⟩ := mem_reach_shorter hsteps he
    have hreached := related_of_mem_reach (onward_stepping source)
      (fun k _ o' _ => honward o') he
    refine hfound k ?_ e (mem_reach_iff.2 ⟨o, ho, he⟩)
    unfold Onward at hreached
    rw [growthRounds]
    cases hmax : bounds.max with
    | none =>
      dsimp only
      omega
    | some most =>
      have := hmost most hmax
      dsimp only
      omega

end

namespace Catalog

def endsOf (catalog : Catalog) (source : Source) (parser : Parser) (start : Nat) : Set Nat :=
  stopsOf (parser.enumerate catalog.firstMatch (catalog.settled source) source) start

def endsOfParts (catalog : Catalog) (source : Source) : List Parser → Set Nat → Set Nat
  | [], initial => initial
  | part :: rest, initial =>
    endsOfParts catalog source rest {e | ∃ o ∈ initial, e ∈ catalog.endsOf source part o}

variable {catalog : Catalog} {source : Source}

theorem onward_of_mem_endsOf {parser : Parser} {o e : Nat} (h : e ∈ catalog.endsOf source parser o) :
    Onward source o e :=
  (parser.enumerate_onward (catalog.call_onward _ source)).of_mem_stopsOf h

theorem mem_endsOfParts_iff {parts : List Parser} {initial : Set Nat} {e : Nat} :
    e ∈ catalog.endsOfParts source parts initial ↔
      ∃ o ∈ initial, e ∈ catalog.endsOfParts source parts {o} := by
  induction parts generalizing initial with
  | nil => simp [endsOfParts]
  | cons part rest ih =>
    rw [endsOfParts, ih]
    constructor
    · rintro ⟨o, ⟨o', ho', ho⟩, he⟩
      exact ⟨o', ho', ih.2 ⟨o, ⟨o', rfl, ho⟩, he⟩⟩
    · rintro ⟨o', ho', he⟩
      rw [endsOfParts, ih] at he
      obtain ⟨o, ⟨_, rfl, ho⟩, he⟩ := he
      exact ⟨o, ⟨_, ho', ho⟩, he⟩

theorem endsOfParts_mono {parts : List Parser} {A B : Set Nat} (h : A ⊆ B) :
    catalog.endsOfParts source parts A ⊆ catalog.endsOfParts source parts B := by
  intro e he
  obtain ⟨o, ho, he⟩ := mem_endsOfParts_iff.1 he
  exact mem_endsOfParts_iff.2 ⟨o, h ho, he⟩

@[simp] theorem endsOfParts_empty (parts : List Parser) :
    catalog.endsOfParts source parts ∅ = ∅ := by
  ext e
  rw [mem_endsOfParts_iff]
  simp

/-- Whatever the mode of an alternation, it stops where one of its branches does. -/
theorem exists_of_mem_endsOf_alternation {mode : ModeId} {branches : List Parser} {start e : Nat}
    (h : e ∈ catalog.endsOf source (.alternation mode branches) start) :
    ∃ branch ∈ branches, e ∈ catalog.endsOf source branch start := by
  obtain ⟨found, hfound, he⟩ := h
  rw [Parser.enumerate] at hfound
  suffices ∀ (whole : Parser) (onlyFirst : Bool) (progress : Progress),
      Parser.tryBranches catalog.firstMatch (catalog.settled source) source whole onlyFirst start
        branches progress = .ok (.ok found) →
      e ∈ progress.found.stops ∨ ∃ branch ∈ branches, e ∈ catalog.endsOf source branch start from
    (this _ _ _ hfound).resolve_left List.not_mem_nil
  clear hfound
  intro whole onlyFirst
  induction branches with
  | nil =>
    intro progress hfound
    rw [Parser.tryBranches] at hfound
    exact Or.inl (Progress.exists_of_settle_eq_ok (Except.ok.inj hfound) ▸ he)
  | cons branch rest ih =>
    have hrest := @ih
    intro progress hfound
    rw [Parser.tryBranches] at hfound
    obtain ⟨attempt, hbranch, hfound⟩ := exists_of_bind_eq_ok hfound
    have hlater : (∃ branch ∈ rest, e ∈ catalog.endsOf source branch start) →
        ∃ branch' ∈ branch :: rest, e ∈ catalog.endsOf source branch' start :=
      fun ⟨branch', hbranch', he⟩ => ⟨branch', List.mem_cons_of_mem _ hbranch', he⟩
    cases attempt with
    | error failure => exact (ih _ hfound).imp_right hlater
    | ok matched =>
      have hhere : ∀ e ∈ matched.stops, e ∈ catalog.endsOf source branch start :=
        fun e he => ⟨matched, hbranch, he⟩
      dsimp only at hfound
      split at hfound
      · cases hfound
        exact Or.inr ⟨branch, List.mem_cons_self, hhere e he⟩
      · rcases ih _ hfound with he | he
        · rcases MatchSet.mem_stops_union.1 he with he | he
          · exact Or.inl he
          · exact Or.inr ⟨branch, List.mem_cons_self, hhere e he⟩
        · exact Or.inr (hlater he)

theorem endsOf_concatenation_subset (parts : List Parser) (start : Nat) :
    catalog.endsOf source (.concatenation parts) start ⊆
      catalog.endsOfParts source parts {start} := by
  rintro e ⟨found, hfound, he⟩
  rw [Parser.enumerate] at hfound
  suffices ∀ (whole : Parser) (frontier : MatchSet),
      Parser.followParts catalog.firstMatch (catalog.settled source) source whole start parts
        frontier = .ok (.ok found) →
      e ∈ catalog.endsOfParts source parts {o | o ∈ frontier.stops} by
    simpa [Match.empty] using this _ _ hfound
  clear hfound
  intro whole
  induction parts with
  | nil =>
    intro frontier hfound
    rw [Parser.followParts] at hfound
    cases hfound
    exact he
  | cons part rest ih =>
    intro frontier hfound
    rw [Parser.followParts] at hfound
    obtain ⟨progress, hsweep, hfound⟩ := exists_of_bind_eq_ok hfound
    cases hsettle : progress.settle whole start with
    | error failure =>
      rw [hsettle] at hfound
      cases hfound
    | ok next =>
      rw [hsettle] at hfound
      rw [endsOfParts]
      refine endsOfParts_mono (fun o ho => ?_) (ih next hfound)
      rw [← Progress.exists_of_settle_eq_ok hsettle] at ho
      obtain ⟨m, hm, rfl⟩ := MatchSet.mem_stops.1 ho
      rcases sweep_yields (yielding_stopsOf _) hsweep m hm with hm | ⟨head, hhead, tail, htail, rfl⟩
      · cases hm
      · exact ⟨head.stop, MatchSet.mem_stops.2 ⟨head, hhead, rfl⟩, htail⟩

theorem endsOf_optional_subset (cache : CacheId) (element : Parser) (start : Nat) :
    catalog.endsOf source (.optional cache element) start ⊆
      span .atMostOnce (catalog.endsOf source element) start := by
  intro e he
  rw [endsOf, stopsOf, Parser.enumerate_eq_explore, Parser.explore] at he
  exact stopsOf_repeatBetween_subset _ _ _ _ _ he

theorem endsOf_repetition_subset (cache : CacheId) (bounds : Bounds) (element : Parser)
    (start : Nat) : catalog.endsOf source (.repetition cache bounds element) start ⊆
      span bounds (catalog.endsOf source element) start := by
  intro e he
  rw [endsOf, stopsOf, Parser.enumerate_eq_explore, Parser.explore] at he
  exact stopsOf_repeatBetween_subset _ _ _ _ _ he

/-- A rule stops where its definition does. -/
theorem exists_of_mem_endsOf_rule {ref : RuleRef} {start e : Nat}
    (h : e ∈ catalog.endsOf source (.rule ref) start) :
    ∃ rule slot definition, catalog.resolve ref = .ok rule ∧
      catalog.bound rule = .ok (slot, definition) ∧ e ∈ catalog.endsOf source definition start := by
  obtain ⟨found, hfound, he⟩ := h
  rw [Parser.enumerate, settled, depthBound, call] at hfound
  obtain ⟨rule, slot, definition, candidates, hresolve, hbound, henumerate, hwrapped⟩ :=
    exists_of_callOnce_eq_ok hfound
  have hsettled : Approximates GrammarError.TooDeep (.ok (.ok candidates))
      (definition.enumerate catalog.firstMatch (catalog.settled source) source start) := by
    rw [← henumerate, Parser.enumerate_eq_explore, Parser.enumerate_eq_explore]
    exact explore_approximates_settled _ definition source start
  obtain ⟨m, hm, rfl⟩ := MatchSet.mem_stops.1 he
  obtain ⟨m', hm', rfl⟩ := hwrapped m hm
  exact ⟨rule, slot, definition, hresolve, hbound, candidates, hsettled.eq_of_ok,
    MatchSet.mem_stops.2 ⟨m', hm', rfl⟩⟩

end Catalog

inductive Parser.Offers : Parser → Parser → Prop where
  | self (parser : Parser) : Offers parser parser
  | alternation {first other : Parser} (mode : ModeId) (rest : List Parser) : Offers first other →
    Offers (.alternation mode (first :: rest)) other

theorem Parser.Offers.trans {first second third : Parser} (h : first.Offers second)
    (h' : second.Offers third) : first.Offers third := by
  induction h with
  | self => exact h'
  | alternation mode rest _ ih => exact .alternation mode rest (ih h')

theorem Parser.Offers.mem_walk {definition other : Parser} (h : definition.Offers other) :
    other ∈ definition.walk := by
  induction h with
  | self parser => exact parser.self_mem_walk
  | alternation mode rest _ ih =>
    exact List.mem_cons_of_mem _ (Parser.mem_walkAll.2 ⟨_, List.mem_cons_self, ih⟩)

structure Sufficient (catalog : Catalog) (nodes spared : Set Parser) (caches : Caches) : Prop where
  sound : Sound catalog spared caches
  ends : ∀ node ∈ nodes, ∀ id, node.cache? = some id → ∀ key attempt,
    caches.Holds id key attempt → catalog.endsOf key.source node key.start ⊆ attempt.ends

namespace Sufficient

variable {catalog : Catalog} {nodes spared : Set Parser} {caches : Caches}

theorem of_holds {caches' : Caches} (h : Sufficient catalog nodes spared caches)
    (hholds : ∀ id key attempt, caches'.Holds id key attempt → caches.Holds id key attempt) :
    Sufficient catalog nodes spared caches' where
  sound := h.sound.of_holds hholds
  ends node hnode id hid key attempt hattempt :=
    h.ends node hnode id hid key attempt (hholds id key attempt hattempt)

theorem touch (h : Sufficient catalog nodes spared caches) (id : CacheId) (key : CacheKey) :
    Sufficient catalog nodes spared (caches.modify id.index (·.touch key)) :=
  h.of_holds fun _ _ _ => Caches.holds_of_holds_touch

theorem insert (h : Sufficient catalog nodes spared caches) (hspared : spared ⊆ nodes) {node : Parser}
    {id : CacheId} (hid : node.cache? = some id)
    (hapart : ∀ other ∈ nodes, other.cache? = some id → other = node) {source : Source}
    {start : Nat} {attempt : Attempt}
    (hexact : node ∈ spared →
      node.explore catalog.firstMatch (catalog.settled source) source start = .ok attempt)
    (hends : node ∈ nodes → catalog.endsOf source node start ⊆ attempt.ends) :
    Sufficient catalog nodes spared (caches.modify id.index (·.insert ⟨source, start⟩ attempt)) where
  sound := h.sound.insert hid (fun other hother => hapart other (hspared hother)) hexact
  ends := by
    intro other hother id' hid' key attempt' hholds
    rcases Caches.holds_of_holds_insert hholds with ⟨rfl, rfl, rfl⟩ | hholds
    · obtain rfl := hapart other hother hid'
      exact hends hother
    · exact h.ends other hother id' hid' key attempt' hholds

end Sufficient

theorem Catalog.endsOf_eq_ends {catalog : Catalog} {source : Source} {node : Parser} {start : Nat}
    {attempt : Attempt}
    (h : node.explore catalog.firstMatch (catalog.settled source) source start = .ok attempt) :
    catalog.endsOf source node start = attempt.ends :=
  stopsOf_eq_ends ((Parser.enumerate_eq_explore ..).trans h)

theorem Sound.sufficient {catalog : Catalog} {nodes spared : Set Parser} {caches : Caches}
    (h : Sound catalog nodes caches) (hspared : spared ⊆ nodes) :
    Sufficient catalog nodes spared caches where
  sound := h.mono fun _ hnode => hspared hnode
  ends node hnode id hid key attempt hholds :=
    (Catalog.endsOf_eq_ends (h node hnode id hid key attempt hholds)).le

structure Catalog.Grown (scope spared : Scope) (c c' : Catalog) : Prop where
  closed : scope.Closed c
  closed_spared : spared.Closed c
  spared_subset : spared.nodes ⊆ scope.nodes
  same : spared.Same c c'
  bound : ∀ rule ∈ scope.rules, rule ∉ spared.rules → ∀ slot definition,
    c.bound rule = .ok (slot, definition) → ∃ slot' definition',
      c'.bound rule = .ok (slot', definition') ∧ slot'.exclusion = none ∧ definition'.Offers definition
  longest : ∀ mode branches, .alternation mode branches ∈ scope.nodes →
    .alternation mode branches ∉ spared.nodes → c'.firstMatch mode = false
  apart : ∀ rule slot definition, c'.alive rule.grammar = true →
    c'.bound rule = .ok (slot, definition) → Apart {node | node ∈ definition.walk} scope.nodes
  apart_self : Apart scope.nodes scope.nodes

namespace Catalog.Grown

variable {scope spared : Scope} {c c' : Catalog} (h : Grown scope spared c c')
include h

theorem linked_below {depth : Nat}
    (hcall : ∀ source ref, (∀ rule, c.resolve ref = .ok rule → rule ∈ spared.rules) → ∀ start,
      (below (Sufficient c scope.nodes spared.nodes)).rel (StopsIn fun _ => True)
        (c'.call depth source ref start) (c.settled source ref start))
    {parser : Parser} (hparser : parser ∈ spared.nodes) (source : Source) :
    Linked (below (Sufficient c scope.nodes spared.nodes)) (fun _ => True) source c'.firstMatch
      c.firstMatch (c'.call depth source) (c.settled source) parser.walk where
  call ref href o _ := hcall source ref
    (h.closed_spared.target ref (h.closed_spared.inner parser hparser _ href)) o
  mode mode branches hmode :=
    h.same.mode mode branches (h.closed_spared.inner parser hparser _ hmode)
  remember node hnode id hid o _ hrun := by
    have hspared := h.closed_spared.inner parser hparser node hnode
    refine remembered_below_of (fun _ _ _ _ _ => trivial)
      (fun caches attempt hcaches hold => hcaches.sound node hspared id hid ⟨source, o⟩ attempt hold)
      (fun caches hcaches => hcaches.touch id _) (fun caches attempt hcaches hattempt => ?_) hrun
    exact hcaches.insert h.spared_subset hid
      (fun other hother hid' => h.apart_self other hother node (h.spared_subset hspared) id hid' hid)
      (fun _ => hattempt) fun _ => (endsOf_eq_ends hattempt).le

/-- A spared rule is answered in the larger catalog as it is in the smaller one. -/
theorem call_below (depth : Nat) (source : Source) (ref : RuleRef)
    (href : ∀ rule, c.resolve ref = .ok rule → rule ∈ spared.rules) (start : Nat) :
    (below (Sufficient c scope.nodes spared.nodes)).rel (StopsIn fun _ => True)
      (c'.call depth source ref start) (c.settled source ref start) := by
  induction depth generalizing source ref start with
  | zero =>
    exact fun caches hcaches =>
      ⟨Or.inl ⟨_, ⟨ref.name, rfl⟩, rfl⟩, hcaches, fun a heq => by cases heq⟩
  | succ depth ih =>
    have hrule : ∀ rule, c.resolve ref = .ok rule →
        LinkedRule (below (Sufficient c scope.nodes spared.nodes)) (fun _ _ => True) c' c
          (c'.call depth) c.settled source rule := by
      intro rule hresolve
      have hmem := href rule hresolve
      exact
        { bound := h.same.bound_eq hmem
          refer := h.same.refer_eq hmem
          body := fun slot definition hbound => h.linked_below ih
            (h.closed_spared.definition rule hmem slot definition hbound) source
          exclusion := fun slot definition ref' hbound hexclusion => by
            refine ⟨h.same.resolve_eq ref', fun excluded hexcluded source' _ => ?_⟩
            have hmem' := h.closed_spared.exclusion rule hmem slot definition ref' hbound hexclusion
              excluded hexcluded
            refine ⟨StopsIn fun _ => True, fun _ _ => h.same.refer_eq hmem', ?_⟩
            rw [h.same.refer_eq hmem']
            exact ih source' _ (fun rule' hrule' => eq_of_resolve_refer hrule' ▸ hmem') 0 }
    intro caches hcaches
    obtain ⟨happrox, hkeeps, hpost⟩ :=
      (callOnce_rel settling_true trivial (h.same.resolve_eq ref) hrule) caches hcaches
    exact ⟨happrox.trans (callOnce_settled source ref start), hkeeps, hpost⟩

theorem enumerate_below (depth : Nat) {parser : Parser} (hparser : parser ∈ spared.nodes)
    (source : Source) (start : Nat) :
    (below (Sufficient c scope.nodes spared.nodes)).rel (StopsIn fun _ => True)
      (parser.enumerate c'.firstMatch (c'.call depth source) source start)
      (parser.enumerate c.firstMatch (c.settled source) source start) :=
  enumerate_rel (settling_true.consume source) parser
    (h.linked_below (h.call_below depth) hparser source) start trivial

end Catalog.Grown

theorem Run.Upholds.of_below {keeps : Caches → Prop} {α : Type} {post : α → Prop} {run : Run α}
    {answer : Except GrammarError α} (h : (below keeps).rel post run answer) :
    run.Upholds keeps fun a => answer = .ok a := by
  intro caches hcaches
  obtain ⟨happrox, hkeeps, -⟩ := h caches hcaches
  refine ⟨hkeeps, fun a heq => ?_⟩
  rw [heq] at happrox
  exact happrox.eq_of_ok

theorem Apart.mono {nodes nodes' others : Set Parser} (h : Apart nodes others)
    (hsub : nodes' ⊆ nodes) : Apart nodes' others :=
  fun a ha => h a (hsub ha)

def Catalog.owed (catalog : Catalog) (nodes : Set Parser) (source : Source) (parser : Parser)
    (start : Nat) : Set Nat :=
  {e | parser ∈ nodes ∧ e ∈ catalog.endsOf source parser start}

theorem Catalog.owed_eq {catalog : Catalog} {nodes : Set Parser} {parser : Parser}
    (h : parser ∈ nodes) (source : Source) :
    catalog.owed nodes source parser = catalog.endsOf source parser := by
  ext start e
  exact and_iff_right h

abbrev Run.Covers (catalog : Catalog) (scope spared : Scope) (ends : Set Nat) (run : Run Attempt) :
    Prop :=
  run.Upholds (Sufficient catalog scope.nodes spared.nodes) fun attempt => ends ⊆ attempt.ends

section
variable {scope spared : Scope} {c c' : Catalog} {depth : Nat} {source : Source}

theorem remembered_covers (h : Catalog.Grown scope spared c c') {node : Parser}
    (hspared : node ∉ spared.nodes) (hapart : Apart {part | part ∈ node.walk} scope.nodes)
    {id : CacheId} (hid : node.cache? = some id) {start : Nat} {explore : Run Attempt}
    (hexplore : explore.Covers c scope spared (c.owed scope.nodes source node start)) :
    (remembered id ⟨source, start⟩ explore).Covers c scope spared
      (c.owed scope.nodes source node start) := by
  refine remembered_upholds (fun caches attempt hcaches hold => ?_)
    (fun caches hcaches => hcaches.touch id _) (fun caches attempt hcaches hattempt => ?_) hexplore
  · rintro e ⟨hnode, he⟩
    exact hcaches.ends node hnode id hid ⟨source, start⟩ attempt hold he
  · refine hcaches.insert h.spared_subset hid (fun other hother hid' => ?_)
      (fun hnode => absurd hnode hspared) fun hnode e he => hattempt ⟨hnode, he⟩
    exact (hapart node node.self_mem_walk other hother id hid hid').symm

mutual
theorem enumerate_covers (h : Catalog.Grown scope spared c c')
    (hcall : ∀ ref o, Run.Covers c scope spared (c.owed scope.nodes source (.rule ref) o)
      (c'.call depth source ref o)) (parser : Parser)
    (hapart : Apart {node | node ∈ parser.walk} scope.nodes) (start : Nat) :
    Run.Covers c scope spared (c.owed scope.nodes source parser start)
      (parser.enumerate c'.firstMatch (c'.call depth source) source start) := by
  -- What is spared is enumerated as it was. Only for the rest does the kind of parser matter.
  by_cases hspared : parser ∈ spared.nodes
  · refine (Run.Upholds.of_below (h.enumerate_below depth hspared source start)).mono
      fun attempt hattempt => ?_
    rintro e ⟨-, he⟩
    exact (stopsOf_eq_ends hattempt).le he
  cases parser with
  | literal terminal =>
    rw [Parser.enumerate]
    cases hm : terminal.matchAt source start with
    | none =>
      refine Relator.pure _ ?_
      rintro e ⟨-, found, hfound, -⟩
      rw [Parser.enumerate, hm] at hfound
      cases hfound
    | some m =>
      refine Relator.pure _ ?_
      rintro e ⟨-, found, hfound, he⟩
      rw [Parser.enumerate, hm] at hfound
      cases hfound
      exact ⟨_, rfl, he⟩
  | alternation mode branches =>
    rw [Parser.enumerate]
    refine (tryBranches_covers h hcall branches (hapart.mono (by simp +contextual [Parser.walk]))
      _ _ start .none).mono fun attempt hattempt => ?_
    rintro e ⟨hmem, he⟩
    obtain ⟨branch, hbranch, he⟩ := Catalog.exists_of_mem_endsOf_alternation he
    have hwalk : branch ∈ (Parser.alternation mode branches).walk :=
      List.mem_cons_of_mem _ (Parser.mem_walkAll.2 ⟨branch, hbranch, branch.self_mem_walk⟩)
    exact (hattempt (h.longest mode branches hmem hspared)).2 branch hbranch
      ⟨h.closed.inner _ hmem branch hwalk, he⟩
  | concatenation parts =>
    rw [Parser.enumerate]
    refine (followParts_covers h hcall parts (hapart.mono (by simp +contextual [Parser.walk]))
      _ start _).mono fun attempt hattempt => ?_
    rintro e ⟨hmem, he⟩
    refine hattempt (fun part hpart => h.closed.inner _ hmem part ?_) ?_
    · exact List.mem_cons_of_mem _ (Parser.mem_walkAll.2 ⟨part, hpart, part.self_mem_walk⟩)
    · simpa [Match.empty] using Catalog.endsOf_concatenation_subset parts start he
  | optional cache element =>
    rw [Parser.enumerate]
    refine remembered_covers h hspared hapart rfl ?_
    refine (repeatBetween_upholds (enumerate_covers h hcall element
      (hapart.mono (by simp +contextual [Parser.walk]))) _ .atMostOnce
      (fun o e he => Catalog.onward_of_mem_endsOf he.2) start).mono fun attempt hattempt => ?_
    rintro e ⟨hmem, he⟩
    have helement : element ∈ scope.nodes :=
      h.closed.inner _ hmem element (List.mem_cons_of_mem _ element.self_mem_walk)
    rw [Catalog.owed_eq helement] at hattempt
    exact hattempt (Catalog.endsOf_optional_subset cache element start he)
  | repetition cache bounds element =>
    rw [Parser.enumerate]
    refine remembered_covers h hspared hapart rfl ?_
    refine (repeatBetween_upholds (enumerate_covers h hcall element
      (hapart.mono (by simp +contextual [Parser.walk]))) _ bounds
      (fun o e he => Catalog.onward_of_mem_endsOf he.2) start).mono fun attempt hattempt => ?_
    rintro e ⟨hmem, he⟩
    have helement : element ∈ scope.nodes :=
      h.closed.inner _ hmem element (List.mem_cons_of_mem _ element.self_mem_walk)
    rw [Catalog.owed_eq helement] at hattempt
    exact hattempt (Catalog.endsOf_repetition_subset cache bounds element start he)
  | rule ref =>
    rw [Parser.enumerate]
    exact hcall ref start
  | prose text =>
    rw [Parser.enumerate]
    refine Relator.pure _ ?_
    rintro e ⟨-, found, hfound, -⟩
    rw [Parser.enumerate] at hfound
    cases hfound

theorem tryBranches_covers (h : Catalog.Grown scope spared c c')
    (hcall : ∀ ref o, Run.Covers c scope spared (c.owed scope.nodes source (.rule ref) o)
      (c'.call depth source ref o)) (branches : List Parser)
    (hapart : Apart {node | node ∈ Parser.walkAll branches} scope.nodes)
    (whole : Parser) (onlyFirst : Bool) (start : Nat) (progress : Progress) :
    Run.Upholds (Sufficient c scope.nodes spared.nodes)
      (fun attempt => onlyFirst = false → (∀ e ∈ progress.found.stops, e ∈ attempt.ends) ∧
        ∀ branch ∈ branches, c.owed scope.nodes source branch start ⊆ attempt.ends)
      (Parser.tryBranches c'.firstMatch (c'.call depth source) source whole onlyFirst start branches
        progress) := by
  cases branches with
  | nil =>
    rw [Parser.tryBranches]
    refine Relator.pure _ fun _ => ⟨?_, nofun⟩
    rw [Progress.ends_settle]
    exact fun _ he => he
  | cons branch rest =>
    rw [Parser.tryBranches]
    have hrest := tryBranches_covers h hcall rest
      (hapart.mono (by simp +contextual [Parser.walkAll])) whole onlyFirst start
    refine Relator.bind _ (enumerate_covers h hcall branch
      (hapart.mono (by simp +contextual [Parser.walkAll])) start) fun attempt hattempt => ?_
    cases attempt with
    | error failure =>
      refine (hrest { progress with failure := some failure }).mono fun after hafter hmode => ?_
      obtain ⟨hold, hbranches⟩ := hafter hmode
      refine ⟨hold, fun branch' hbranch' e he => ?_⟩
      rcases List.mem_cons.1 hbranch' with rfl | hbranch'
      · exact absurd (hattempt he) (by simp)
      · exact hbranches branch' hbranch' he
    | ok found =>
      cases onlyFirst with
      | true => exact Relator.pure _ nofun
      | false =>
        refine (hrest { progress with found := progress.found.union found }).mono
          fun after hafter hmode => ?_
        obtain ⟨hold, hbranches⟩ := hafter hmode
        refine ⟨fun e he => hold e (MatchSet.mem_stops_union.2 (Or.inl he)),
          fun branch' hbranch' e he => ?_⟩
        rcases List.mem_cons.1 hbranch' with rfl | hbranch'
        · have hfound := hattempt he
          rw [Attempt.ends_ok] at hfound
          exact hold e (MatchSet.mem_stops_union.2 (Or.inr hfound))
        · exact hbranches branch' hbranch' he

theorem followParts_covers (h : Catalog.Grown scope spared c c')
    (hcall : ∀ ref o, Run.Covers c scope spared (c.owed scope.nodes source (.rule ref) o)
      (c'.call depth source ref o)) (parts : List Parser)
    (hapart : Apart {node | node ∈ Parser.walkAll parts} scope.nodes)
    (whole : Parser) (start : Nat) (frontier : MatchSet) :
    Run.Upholds (Sufficient c scope.nodes spared.nodes)
      (fun attempt => (∀ part ∈ parts, part ∈ scope.nodes) →
        c.endsOfParts source parts {o | o ∈ frontier.stops} ⊆ attempt.ends)
      (Parser.followParts c'.firstMatch (c'.call depth source) source whole start parts
        frontier) := by
  cases parts with
  | nil =>
    rw [Parser.followParts]
    exact Relator.pure _ fun _ => (Attempt.ends_ok frontier).ge
  | cons part rest =>
    rw [Parser.followParts]
    refine Relator.bind _ (sweep_upholds (enumerate_covers h hcall part
      (hapart.mono (by simp +contextual [Parser.walkAll]))) ∅ frontier.toList .none)
      fun progress hprogress => ?_
    have hnext : (∀ part' ∈ part :: rest, part' ∈ scope.nodes) →
        {e | ∃ o ∈ {o | o ∈ frontier.stops}, e ∈ c.endsOf source part o} ⊆
          (progress.settle whole start).ends := by
      intro hparts
      rw [Progress.ends_settle]
      rintro e ⟨o, ho, he⟩
      obtain ⟨head, hhead, rfl⟩ := MatchSet.mem_stops.1 ho
      exact hprogress e (Or.inr ⟨⟨head, hhead, hparts part List.mem_cons_self, he⟩, by simp⟩)
    cases hsettle : progress.settle whole start with
    | error failure =>
      refine Relator.pure _ fun hparts => ?_
      have hnone := hnext hparts
      rw [hsettle, Attempt.ends_error] at hnone
      rw [Catalog.endsOfParts]
      refine (Catalog.endsOfParts_mono hnone).trans ?_
      rw [Catalog.endsOfParts_empty]
      exact Set.empty_subset _
    | ok next =>
      refine (followParts_covers h hcall rest (hapart.mono (by simp +contextual [Parser.walkAll]))
        whole start next).mono fun attempt hattempt hparts => ?_
      have hsome := hnext hparts
      rw [hsettle, Attempt.ends_ok] at hsome
      rw [Catalog.endsOfParts]
      exact (Catalog.endsOfParts_mono hsome).trans
        (hattempt fun part' hpart' => hparts part' (List.mem_cons_of_mem _ hpart'))
end

/-- A definition covers what another one finds that it offers. -/
theorem enumerate_covers_of_offers (h : Catalog.Grown scope spared c c')
    (hcall : ∀ ref o, Run.Covers c scope spared (c.owed scope.nodes source (.rule ref) o)
      (c'.call depth source ref o)) {definition other : Parser} (hoffers : definition.Offers other)
    (hapart : Apart {node | node ∈ definition.walk} scope.nodes) (start : Nat) :
    Run.Covers c scope spared (c.owed scope.nodes source other start)
      (definition.enumerate c'.firstMatch (c'.call depth source) source start) := by
  induction hoffers generalizing start with
  | self definition => exact enumerate_covers h hcall definition hapart start
  | @alternation first other mode rest _ ih =>
    have hfirst := ih (hapart.mono (by simp +contextual [Parser.walk, Parser.walkAll])) start
    rw [Parser.enumerate, Parser.tryBranches]
    refine Relator.bind _ hfirst fun attempt hattempt => ?_
    have hrest := tryBranches_covers h hcall rest
      (hapart.mono (by simp +contextual [Parser.walk, Parser.walkAll]))
      (.alternation mode (first :: rest)) (c'.firstMatch mode) start
    cases attempt with
    | error failure =>
      refine (hrest _).mono fun after _ e he => ?_
      exact absurd (hattempt he) (by simp)
    | ok found =>
      cases hmode : c'.firstMatch mode with
      | true => exact Relator.pure _ hattempt
      | false =>
        rw [hmode] at hrest
        refine (hrest _).mono fun after hafter e he => (hafter rfl).1 e ?_
        have hfound := hattempt he
        rw [Attempt.ends_ok] at hfound
        exact MatchSet.mem_stops_union.2 (Or.inr hfound)

/-- A rule of the larger catalog covers what a definition of the smaller one finds that its own
definition offers. -/
theorem callOnce_covers (h : Catalog.Grown scope spared c c')
    (hcall : ∀ source ref o, Run.Covers c scope spared (c.owed scope.nodes source (.rule ref) o)
      (c'.call depth source ref o)) {ref : RuleRef} {start : Nat} {ends : Set Nat}
    (hoffers : ∀ e ∈ ends, ∃ rule slot definition other, c'.resolve ref = .ok rule ∧
      c'.bound rule = .ok (slot, definition) ∧ slot.exclusion = none ∧ definition.Offers other ∧
        e ∈ c.owed scope.nodes source other start) :
    Run.Covers c scope spared ends (c'.callOnce (c'.call depth) source ref start) := by
  rw [Catalog.callOnce]
  refine Relator.bind _ (ofExcept_rel _ _) fun rule hresolve => ?_
  refine Relator.bind _ (ofExcept_rel _ _) fun found hbound => ?_
  obtain ⟨slot, definition⟩ := found
  have halive : c'.alive rule.grammar = true := by
    rw [Catalog.eq_of_resolve hresolve]
    exact Catalog.alive_of_resolve hresolve
  have hapart := h.apart rule slot definition halive hbound
  have hoffered : ∀ e ∈ ends, slot.exclusion = none ∧ ∃ other, definition.Offers other ∧
      e ∈ c.owed scope.nodes source other start := by
    intro e he
    obtain ⟨rule', slot', definition', other, hresolve', hbound', hexclusion, hother⟩ := hoffers e he
    cases hresolve.symm.trans hresolve'
    cases hbound.symm.trans hbound'
    exact ⟨hexclusion, other, hother⟩
  have hbody : Run.Covers c scope spared ends
      (definition.enumerate c'.firstMatch (c'.call depth source) source start) := by
    intro caches hcaches
    refine ⟨(enumerate_covers h (hcall source) definition hapart start caches hcaches).1,
      fun attempt hattempt e he => ?_⟩
    obtain ⟨-, other, hother, howed⟩ := hoffered e he
    exact (enumerate_covers_of_offers h (hcall source) hother hapart start caches hcaches).2
      attempt hattempt howed
  refine Relator.bind _ hbody fun attempt hattempt => ?_
  cases attempt with
  | error failure => exact Relator.pure _ (hattempt.trans (by simp))
  | ok candidates =>
    cases hexclusion : slot.exclusion with
    | none => exact Relator.pure _ (hattempt.trans (by simp))
    | some excluding =>
      have hnone : ∀ e, e ∉ ends := fun e he => by
        cases hexclusion.symm.trans (hoffered e he).1
      refine Relator.bind _ (ofExcept_rel _ _) fun excluded _ => ?_
      refine Relator.bind _ (vetoed_rel source start candidates.toList fun stop =>
        Relator.bind _ (hcall _ _ 0) fun _ _ => Relator.pure _ trivial) fun vetoes _ => ?_
      exact Relator.pure _ fun e he => absurd he (hnone e)

theorem call_covers (h : Catalog.Grown scope spared c c') (depth : Nat) (source : Source)
    (ref : RuleRef) (start : Nat) :
    Run.Covers c scope spared {e | (∀ rule, c.resolve ref = .ok rule → rule ∈ scope.rules) ∧
      e ∈ c.endsOf source (.rule ref) start} (c'.call depth source ref start) := by
  induction depth generalizing source ref start with
  | zero => exact Relator.throw _ _ trivial
  | succ depth ih =>
    by_cases hspared : ∀ rule, c.resolve ref = .ok rule → rule ∈ spared.rules
    · refine (Run.Upholds.of_below (h.call_below (depth + 1) source ref hspared start)).mono
        fun attempt hattempt => ?_
      rintro e ⟨-, found, hfound, he⟩
      rw [Parser.enumerate] at hfound
      exact ⟨found, Except.ok.inj (hattempt.symm.trans hfound), he⟩
    · refine callOnce_covers h (fun source ref o => (ih source ref o).mono
        fun attempt hattempt => ?_) ?_
      · rintro e ⟨hmem, he⟩
        exact hattempt ⟨h.closed.target ref hmem, he⟩
      · rintro e ⟨href, he⟩
        obtain ⟨rule, slot, definition, hresolve, hbound, he⟩ := Catalog.exists_of_mem_endsOf_rule he
        have hrule := href rule hresolve
        have hnot : rule ∉ spared.rules := fun hmem => hspared fun rule' hresolve' => by
          cases hresolve.symm.trans hresolve'
          exact hmem
        obtain ⟨slot', definition', hbound', hexclusion, hoffers⟩ :=
          h.bound rule hrule hnot slot definition hbound
        exact ⟨rule, slot', definition', definition, (h.same.resolve_eq ref).trans hresolve, hbound',
          hexclusion, hoffers, h.closed.definition rule hrule slot definition hbound, he⟩

end

namespace Catalog

variable {catalog : Catalog} {source : Source}

/-- What is found for a rule does not depend on the name that it is referred to by. -/
theorem endsOf_rule_subset {ref ref' : RuleRef} (htarget : ref.target = ref'.target) (start : Nat) :
    catalog.endsOf source (.rule ref) start ⊆ catalog.endsOf source (.rule ref') start := by
  intro e he
  obtain ⟨rule, -, -, hresolve, -, -⟩ := exists_of_mem_endsOf_rule he
  have halive := alive_of_resolve hresolve
  obtain ⟨found, hfound, he⟩ := he
  refine ⟨found, ?_, he⟩
  rw [Parser.enumerate, settled, depthBound, call_refer _ _ _ halive] at hfound
  rw [Parser.enumerate, settled, depthBound, call_refer _ _ _ (htarget ▸ halive), ← htarget]
  exact hfound

end Catalog

def Store.Reports (store : Store) (rule : RuleId) (source : Source) (start e : Nat) : Prop :=
  ∃ found, (Edit.parsing (·.ruleMatches rule source start) store).1 = .ok (.ok found) ∧
    e ∈ found.stops

instance (store : Store) (rule : RuleId) (source : Source) (start e : Nat) :
    Decidable (store.Reports rule source start e) :=
  match h : (Edit.parsing (·.ruleMatches rule source start) store).1 with
  | .ok (.ok found) =>
    decidable_of_iff (e ∈ found.stops)
      ⟨fun he => ⟨found, h, he⟩, fun ⟨_, h', he⟩ => by cases h.symm.trans h'; exact he⟩
  | .ok (.error _) => isFalse fun ⟨_, h', _⟩ => by cases h.symm.trans h'
  | .error _ => isFalse fun ⟨_, h', _⟩ => by cases h.symm.trans h'

def Store.Answers (store : Store) (rule : RuleId) : Prop :=
  ∀ source start, ∃ attempt,
    (Edit.parsing (·.ruleMatches rule source start) store).1 = .ok attempt

/-- Every end that is reported for a rule in one store is reported for another rule in another
store, and every text that is accepted for the one is accepted for the other. -/
structure Store.Widens (rule rule' : RuleId) (store store' : Store) : Prop where
  reports (source : Source) (start e : Nat) :
    store.Reports rule source start e → store'.Reports rule' source start e
  parseAll (source : Source) (node : Node) :
    (Edit.parsing (·.parseAll rule source) store).1 = .ok (.ok node) →
      ∃ node', (Edit.parsing (·.parseAll rule' source) store').1 = .ok (.ok node')

theorem tracing_true : Tracing fun _ _ _ => True where
  empty _ _ := trivial
  matchAt _ := trivial
  followedBy _ _ := trivial
  wrap _ _ := trivial

/-- A text is accepted where an end is reported that lies at its own end. -/
theorem Store.Reports.exists_parseAll {store : Store} {rule : RuleId} {source : Source} {e : Nat}
    (h : store.Reports rule source 0 e) (hsize : source.size ≤ e) :
    ∃ node, (Edit.parsing (·.parseAll rule source) store).1 = .ok (.ok node) := by
  obtain ⟨found, hfound, he⟩ := h
  obtain ⟨m, hm, rfl⟩ := MatchSet.mem_stops.1 he
  change ((store.catalog.ruleMatches rule source 0 : Run _).run store.caches).1 = _ at hfound
  obtain ⟨longest, hlongest⟩ : ∃ longest, found.longest? = some longest := by
    cases hlongest : found.longest? with
    | some longest => exact ⟨longest, rfl⟩
    | none =>
      rw [MatchSet.longest?_eq_head?, List.head?_eq_none_iff] at hlongest
      rw [hlongest] at hm
      cases hm
  have hle := MatchSet.stop_le_of_longest? hlongest hm
  have hmem : longest ∈ found.toList := List.mem_of_mem_head? (Option.mem_def.2 hlongest)
  have hnamed := (Catalog.call_traces tracing_true _ source _ 0 store.caches
    fun _ _ _ _ _ _ _ _ => trivial).2 _ hfound found rfl longest hmem
  obtain ⟨-, children, hnodes⟩ := hnamed
  obtain ⟨nodes, stop⟩ := longest
  obtain rfl : nodes = [.rule (store.catalog.nameOf rule) children] := hnodes
  refine ⟨.rule (store.catalog.nameOf rule) children, ?_⟩
  change ((store.catalog.parseAll rule source : Run _).run store.caches).1 = _
  rcases hrun : (store.catalog.ruleMatches rule source 0 : Run _).run store.caches with
    ⟨result, caches⟩
  obtain rfl : result = .ok (.ok found) := by rw [hrun] at hfound; exact hfound
  have hparse : (store.catalog.parse rule source 0 : Run _).run store.caches =
      (.ok (.ok (.rule (store.catalog.nameOf rule) children, stop)), caches) := by
    rw [Catalog.parse, Run.run_bind_ok hrun]
    dsimp only
    rw [hlongest]
    rfl
  rw [Catalog.parseAll, Run.run_bind_ok hparse]
  dsimp only at hle ⊢
  rw [if_neg (by omega)]
  rfl

namespace Catalog.Grown

variable {scope spared : Scope} {store store' : Store} {rule rule' : RuleId}

theorem ruleMatches_covers (h : Grown scope spared store.catalog store'.catalog)
    (hrule : rule ∈ scope.rules) (source : Source) (start : Nat) :
    Run.Covers store.catalog scope spared
      (store.catalog.endsOf source (.rule (store.catalog.refer rule)) start)
      (store'.catalog.ruleMatches rule source start) := by
  have hsame : (store.catalog.refer rule).target = (store'.catalog.refer rule).target := rfl
  refine (call_covers h _ source (store'.catalog.refer rule) start).mono fun attempt hattempt e he => ?_
  refine hattempt ⟨fun rule' hrule' => ?_, endsOf_rule_subset hsame start he⟩
  obtain rfl : rule' = rule := eq_of_resolve hrule'
  exact hrule

/-- A rule of the larger catalog whose definition offers what that of a rule does covers what is
found for that rule. -/
theorem ruleMatches_covers_of_offers (h : Grown scope spared store.catalog store'.catalog)
    (hrule : rule ∈ scope.rules) (halive : store'.catalog.alive rule'.grammar = true)
    (hoffers : ∀ slot definition, store.catalog.bound rule = .ok (slot, definition) →
      ∃ slot' definition', store'.catalog.bound rule' = .ok (slot', definition') ∧
        slot'.exclusion = none ∧ definition'.Offers definition) (source : Source) (start : Nat) :
    Run.Covers store.catalog scope spared
      (store.catalog.endsOf source (.rule (store.catalog.refer rule)) start)
      (store'.catalog.ruleMatches rule' source start) := by
  obtain ⟨depth, hdepth⟩ : ∃ depth, store'.catalog.depthBound source = depth + 1 := ⟨_, rfl⟩
  rw [Catalog.ruleMatches, hdepth, Catalog.call]
  refine callOnce_covers h (fun source ref o => (call_covers h depth source ref o).mono
    fun attempt hattempt => ?_) fun e he => ?_
  · rintro e ⟨hmem, he⟩
    exact hattempt ⟨h.closed.target ref hmem, he⟩
  · obtain ⟨other, slot, definition, hresolve, hbound, hends⟩ := exists_of_mem_endsOf_rule he
    obtain rfl := eq_of_resolve_refer hresolve
    obtain ⟨slot', definition', hbound', hexclusion, hdefinition⟩ := hoffers slot definition hbound
    exact ⟨rule', slot', definition', definition, if_pos halive, hbound', hexclusion, hdefinition,
      h.closed.definition other hrule slot definition hbound, hends⟩

/-- Where a parse of the larger catalog covers what one of the smaller catalog finds, it reports
what that one reports. -/
theorem widens (h : Grown scope spared store.catalog store'.catalog) (hrule : rule ∈ scope.rules)
    (hsound : Sound store.catalog scope.nodes store.caches)
    (hsufficient : Sufficient store.catalog scope.nodes spared.nodes store'.caches)
    (hanswers : store'.Answers rule') (hcovers : ∀ source start, Run.Covers store.catalog scope spared
      (store.catalog.endsOf source (.rule (store.catalog.refer rule)) start)
      (store'.catalog.ruleMatches rule' source start)) : store.Widens rule rule' store' := by
  have hreports : ∀ source start e, store.Reports rule source start e →
      store'.Reports rule' source start e := by
    rintro source start e ⟨found, hfound, he⟩
    obtain ⟨attempt, hattempt⟩ := hanswers source start
    have hagree := (ruleMatches_agrees h.closed h.apart_self hrule source start _ hsound).1
    have hsettled : Agree (.ok (.ok found)) (store.catalog.ruleMatches rule source start) :=
      hfound ▸ hagree
    obtain ⟨found', rfl, he'⟩ := (hcovers source start _ hsufficient).2 attempt hattempt
      ⟨found, hsettled.symm.eq_of_ok, he⟩
    exact ⟨found', hattempt, he'⟩
  exact
    { reports := hreports
      parseAll := fun source node hnode => by
        obtain ⟨stop, hsize, hparse⟩ := Edit.exists_of_parsing_parseAll hnode
        obtain ⟨found, hfound, m, hm, hstop, -⟩ := Edit.exists_of_parsing_parse hparse
        have hreported := hreports source 0 stop
          ⟨found, hfound, MatchSet.mem_stops.2 ⟨m, hm, hstop⟩⟩
        exact hreported.exists_parseAll hsize }

end Catalog.Grown

end Metasyntax
