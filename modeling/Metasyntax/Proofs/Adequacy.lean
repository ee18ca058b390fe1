import Metasyntax.Proofs.Depth
import Metasyntax.Proofs.Ends

/-!
# Enumeration finds what a parser means

A repetition goes on only from offsets that it has not come to before, and counts
how often it went on. That no end is lost this way is because an offset reached
again is reached no sooner, and because a round that reaches nothing new leaves
nothing to be reached. All else follows the parser.
-/

set_option autoImplicit false

namespace Metasyntax

def Attempt.Found (attempt : Attempt) (ends : Set Nat) : Prop :=
  match attempt with
  | .ok found => ends.Nonempty ∧ ∀ e, e ∈ found.stops ↔ e ∈ ends
  | .error _ => ends = ∅

def Finds (run : Nat → Except GrammarError Attempt) (step : Nat → Set Nat) (o : Nat) : Prop :=
  ∃ attempt, run o = .ok attempt ∧ attempt.Found (step o)

theorem Attempt.Found.unique {attempt : Attempt} {ends ends' : Set Nat} (h : attempt.Found ends)
    (h' : attempt.Found ends') : ends = ends' := by
  cases attempt with
  | error failure => exact (show ends = ∅ from h).trans (show ends' = ∅ from h').symm
  | ok found =>
    ext e
    rw [← h.2 e, h'.2 e]

theorem Progress.found_settle {progress : Progress} {ends : Set Nat}
    (h : ∀ e, e ∈ progress.found.stops ↔ e ∈ ends) (parser : Parser) (start : Nat) :
    (progress.settle parser start).Found ends := by
  rw [settle]
  split
  case isTrue hempty =>
    ext e
    simp [← h e, MatchSet.isEmpty_iff.1 hempty]
  case isFalse hne =>
    obtain ⟨e, he⟩ := List.exists_mem_of_ne_nil _ fun h' => hne (MatchSet.isEmpty_iff.2 h')
    exact ⟨⟨e, (h e).1 he⟩, h⟩

def Bounds.Ordered (bounds : Bounds) : Prop := ∀ most, bounds.max = some most → bounds.min ≤ most

@[simp] theorem reach_empty (step : Nat → Set Nat) (count : Nat) : reach step count ∅ = ∅ := by
  induction count with
  | zero => rfl
  | succ count ih =>
    have hnone : {e | ∃ o ∈ (∅ : Set Nat), e ∈ step o} = ∅ := by
      ext e
      simp
    rw [reach, hnone, ih]

theorem reach_subset_of_closed {step : Nat → Set Nat} {A : Set Nat}
    (h : ∀ o ∈ A, step o ⊆ A) (count : Nat) : reach step count A ⊆ A := by
  induction count with
  | zero => exact subset_rfl
  | succ count ih =>
    rw [reach_succ]
    rintro e ⟨o, ho, he⟩
    exact h o (ih ho) he

theorem mem_reach_union {step : Nat → Set Nat} {count : Nat} {A B : Set Nat} {e : Nat} :
    e ∈ reach step count (A ∪ B) ↔ e ∈ reach step count A ∨ e ∈ reach step count B := by
  rw [mem_reach_iff, @mem_reach_iff step count A, @mem_reach_iff step count B]
  constructor
  · rintro ⟨o, ho | ho, he⟩
    · exact Or.inl ⟨o, ho, he⟩
    · exact Or.inr ⟨o, ho, he⟩
  · rintro (⟨o, ho, he⟩ | ⟨o, ho, he⟩)
    · exact ⟨o, Or.inl ho, he⟩
    · exact ⟨o, Or.inr ho, he⟩

/-- What is reached at all is reached without standing still, so in no more steps than
there are bytes on the way. -/
theorem mem_reach_shorter {source : Source} {step : Nat → Set Nat} {count start e : Nat}
    (h : ∀ k < count, ∀ o ∈ reach step k {start}, ∀ e ∈ step o, Onward source o e)
    (he : e ∈ reach step count {start}) :
    ∃ k ≤ count, k ≤ e - start ∧ e ∈ reach step k {start} := by
  induction count generalizing e with
  | zero => exact ⟨0, le_rfl, Nat.zero_le _, he⟩
  | succ count ih =>
    rw [reach_succ] at he
    obtain ⟨o, ho, he⟩ := he
    have hless : ∀ k < count, ∀ o ∈ reach step k {start}, ∀ e ∈ step o, Onward source o e :=
      fun k hk => h k (by omega)
    obtain ⟨k, hk, hlen, ho'⟩ := ih hless ho
    have hstart := related_of_mem_reach (onward_stepping source) hless ho
    rcases h count (Nat.lt_succ_self _) o ho e he with rfl | ⟨hlt, -⟩
    · exact ⟨k, by omega, hlen, ho'⟩
    · refine ⟨k + 1, by omega, ?_, ?_⟩
      · unfold Onward at hstart
        omega
      · rw [reach_succ]
        exact ⟨o, ho', he⟩

section
variable {run : Nat → Except GrammarError Attempt} {step : Nat → Set Nat}

theorem sweep_finds (known : MatchSet) (heads : List Match)
    (h : ∀ head ∈ heads, Finds run step head.stop) (progress : Progress) :
    ∃ after, sweep run known heads progress = .ok after ∧
      ∀ e, e ∈ after.found.stops ↔ e ∈ progress.found.stops ∨
        (∃ head ∈ heads, e ∈ step head.stop) ∧ e ∉ known.stops := by
  induction heads generalizing progress with
  | nil => exact ⟨progress, rfl, by simp⟩
  | cons head heads ih =>
    obtain ⟨attempt, hrun, hfound⟩ := h head (by simp)
    have hrest := ih fun head' hhead' => h head' (by simp [hhead'])
    rw [sweep, hrun]
    cases attempt with
    | error failure =>
      obtain ⟨after, hafter, hstops⟩ := hrest { progress with failure := some failure }
      have hnone : step head.stop = ∅ := hfound
      refine ⟨after, hafter, fun e => (hstops e).trans ?_⟩
      simp [hnone]
    | ok tails =>
      obtain ⟨after, hafter, hstops⟩ :=
        hrest { progress with found := progress.found.extend known head tails }
      refine ⟨after, hafter, fun e => (hstops e).trans ?_⟩
      simp only [MatchSet.mem_stops_extend, hfound.2 e, List.mem_cons, exists_eq_or_imp]
      tauto

theorem repeatExactly_finds (parser : Parser) (start count : Nat) (frontier : MatchSet)
    (hfrontier : {o | o ∈ frontier.stops}.Nonempty)
    (h : ∀ k < count, ∀ o ∈ reach step k {o | o ∈ frontier.stops}, Finds run step o) :
    ∃ attempt, repeatExactly run parser start count frontier = .ok attempt ∧
      attempt.Found (reach step count {o | o ∈ frontier.stops}) := by
  induction count generalizing frontier with
  | zero => exact ⟨_, rfl, hfrontier, fun e => Iff.rfl⟩
  | succ count ih =>
    obtain ⟨progress, hsweep, hstops⟩ := sweep_finds ∅ frontier.toList
      (fun head hhead => h 0 (Nat.succ_pos _) _ (MatchSet.mem_stops.2 ⟨head, hhead, rfl⟩)) .none
    have hnext : ∀ e, e ∈ progress.found.stops ↔
        e ∈ {e | ∃ o ∈ {o | o ∈ frontier.stops}, e ∈ step o} := by
      intro e
      rw [hstops]
      simp [Progress.none, MatchSet.mem_stops]
    have hsettle := Progress.found_settle hnext parser start
    rw [repeatExactly, hsweep, reach]
    change ∃ attempt, (match progress.settle parser start with
      | .ok next => repeatExactly run parser start count next
      | .error failure => pure (.error failure)) = .ok attempt ∧ _
    cases hprogress : progress.settle parser start with
    | error failure =>
      rw [hprogress] at hsettle
      have hnone : {e | ∃ o ∈ {o | o ∈ frontier.stops}, e ∈ step o} = ∅ := hsettle
      refine ⟨_, rfl, ?_⟩
      rw [hnone, reach_empty]
      rfl
    | ok next =>
      rw [hprogress] at hsettle
      have hsame : {o | o ∈ next.stops} = {e | ∃ o ∈ {o | o ∈ frontier.stops}, e ∈ step o} :=
        Set.ext hsettle.2
      rw [← hsame] at hsettle ⊢
      refine ih next hsettle.1 fun k hk o ho => h (k + 1) (by omega) o ?_
      rw [reach, ← hsame]
      exact ho

theorem repeatFurther_finds (rounds : Nat) (known : MatchSet) (frontier : List Match)
    (hfrontier : ∀ m ∈ frontier, m.stop ∈ known.stops)
    (hclosed : ∀ o ∈ known.stops, (∃ m ∈ frontier, m.stop = o) ∨ ∀ e ∈ step o, e ∈ known.stops)
    (h : ∀ k < rounds, ∀ o ∈ reach step k {o | o ∈ known.stops}, Finds run step o) :
    ∃ found, repeatFurther run rounds known frontier = .ok found ∧
      ∀ e, e ∈ found.stops ↔ ∃ k ≤ rounds, e ∈ reach step k {o | o ∈ known.stops} := by
  induction rounds generalizing known frontier with
  | zero => exact ⟨known, rfl, by simp [reach]⟩
  | succ rounds ih =>
    obtain ⟨progress, hsweep, hstops⟩ := sweep_finds known frontier
      (fun m hm => h 0 (Nat.succ_pos _) _ (hfrontier m hm)) .none
    have hnew : ∀ e, e ∈ progress.found.stops ↔
        (∃ m ∈ frontier, e ∈ step m.stop) ∧ e ∉ known.stops := by
      intro e
      rw [hstops]
      simp [Progress.none]
    -- Only the frontier has not been stepped from, so a round finds all that is a step away
    -- from what is known.
    have hstep : ∀ o ∈ known.stops, ∀ e ∈ step o,
        e ∈ known.stops ∨ e ∈ progress.found.stops := by
      intro o ho e he
      by_cases hknown : e ∈ known.stops
      · exact Or.inl hknown
      · rcases hclosed o ho with ⟨m, hm, rfl⟩ | hold
        · exact Or.inr ((hnew e).2 ⟨⟨m, hm, he⟩, hknown⟩)
        · exact Or.inl (hold e he)
    rw [repeatFurther, hsweep]
    change ∃ found, (if progress.found.isEmpty then pure known else
      repeatFurther run rounds (known.union progress.found) progress.found.toList) = .ok found ∧ _
    split
    case isTrue hempty =>
      have hnone : progress.found.stops = [] := MatchSet.isEmpty_iff.1 hempty
      have hall : ∀ o ∈ {o | o ∈ known.stops}, step o ⊆ {o | o ∈ known.stops} := by
        intro o ho e he
        simpa [hnone] using hstep o ho e he
      refine ⟨known, rfl, fun e => ⟨fun he => ⟨0, Nat.zero_le _, he⟩, ?_⟩⟩
      rintro ⟨k, -, he⟩
      exact reach_subset_of_closed hall k he
    case isFalse =>
      -- What is known for the rounds that are left is what was known and one step more.
      have hunion : {o | o ∈ (known.union progress.found).stops} =
          {o | o ∈ known.stops} ∪ {e | ∃ o ∈ {o | o ∈ known.stops}, e ∈ step o} := by
        ext e
        simp only [MatchSet.mem_stops_union, Set.mem_union]
        constructor
        · rintro (he | he)
          · exact Or.inl he
          · obtain ⟨⟨m, hm, he⟩, -⟩ := (hnew e).1 he
            exact Or.inr ⟨m.stop, hfrontier m hm, he⟩
        · rintro (he | ⟨o, ho, he⟩)
          · exact Or.inl he
          · exact hstep o ho e he
      obtain ⟨found, hfound, hends⟩ := ih (known.union progress.found) progress.found.toList
        (fun m hm => MatchSet.mem_stops_union.2 (Or.inr (MatchSet.mem_stops.2 ⟨m, hm, rfl⟩)))
        (fun o ho => by
          rcases MatchSet.mem_stops_union.1 ho with ho | ho
          · exact Or.inr fun e he => MatchSet.mem_stops_union.2 (hstep o ho e he)
          · exact Or.inl (MatchSet.mem_stops.1 ho))
        (fun k hk o ho => by
          rw [hunion, mem_reach_union] at ho
          rcases ho with ho | ho
          · exact h k (by omega) o ho
          · exact h (k + 1) (by omega) o ho)
      refine ⟨found, hfound, fun e => (hends e).trans ?_⟩
      simp only [hunion, mem_reach_union]
      constructor
      · rintro ⟨k, hk, he | he⟩
        · exact ⟨k, by omega, he⟩
        · exact ⟨k + 1, by omega, he⟩
      · rintro ⟨k, hk, he⟩
        cases k with
        | zero => exact ⟨0, by omega, Or.inl he⟩
        | succ k => exact ⟨k, by omega, Or.inr he⟩

theorem repeatBetween_finds (parser : Parser) {bounds : Bounds} (hbounds : bounds.Ordered)
    (source : Source) (start : Nat)
    (h : ∀ k, (∀ most, bounds.max = some most → k < most) → ∀ o ∈ reach step k {start},
      Finds run step o ∧ ∀ e ∈ step o, Onward source o e) :
    ∃ attempt, repeatBetween run parser bounds source start = .ok attempt ∧
      attempt.Found {e | ∃ count, bounds.min ≤ count ∧
        (∀ most, bounds.max = some most → count ≤ most) ∧ e ∈ reach step count {start}} := by
  have hsingle : {o | o ∈ (MatchSet.single (.empty start)).stops} = {start} := by
    ext o
    simp [Match.empty]
  obtain ⟨attempt, hexactly, hleast⟩ := repeatExactly_finds parser start bounds.min
    (.single (.empty start)) (by rw [hsingle]; exact Set.singleton_nonempty start)
    (fun k hk o ho => (h k (fun most hmost => hk.trans_le (hbounds most hmost)) o
      (by rwa [hsingle] at ho)).1)
  rw [hsingle] at hleast
  rw [repeatBetween, hexactly]
  cases attempt with
  | error failure =>
    have hnone : reach step bounds.min {start} = ∅ := hleast
    refine ⟨_, rfl, ?_⟩
    refine Set.eq_empty_of_forall_notMem ?_
    rintro e ⟨count, hmin, -, he⟩
    rw [← Nat.add_sub_cancel' hmin, reach_add, hnone, reach_empty] at he
    exact he
  | ok known =>
    have hknown : {o | o ∈ known.stops} = reach step bounds.min {start} := Set.ext hleast.2
    have hrounds : ∀ most, bounds.max = some most →
        growthRounds bounds source.size ≤ most - bounds.min := by
      intro most hmost
      simp [growthRounds, hmost]
    obtain ⟨found, hfurther, hends⟩ := repeatFurther_finds (growthRounds bounds source.size) known
      known.toList (fun m hm => MatchSet.mem_stops.2 ⟨m, hm, rfl⟩)
      (fun o ho => Or.inl (MatchSet.mem_stops.1 ho))
      (fun k hk o ho => by
        rw [hknown, ← reach_add] at ho
        refine (h (bounds.min + k) (fun most hmost => ?_) o ho).1
        have := hrounds most hmost
        omega)
    have hall : ∀ e, e ∈ found.stops ↔ ∃ count, bounds.min ≤ count ∧
        (∀ most, bounds.max = some most → count ≤ most) ∧ e ∈ reach step count {start} := by
      intro e
      rw [hends, hknown]
      constructor
      · rintro ⟨k, hk, he⟩
        rw [← reach_add] at he
        refine ⟨bounds.min + k, by omega, fun most hmost => ?_, he⟩
        have := hrounds most hmost
        have := hbounds most hmost
        omega
      · rintro ⟨count, hmin, hmax, he⟩
        rw [← Nat.add_sub_cancel' hmin, reach_add, mem_reach_iff] at he
        obtain ⟨o, ho, he⟩ := he
        -- Each step goes onward or stays in place, so that an end that is reached at all is reached
        -- in no more rounds than there are.
        have honward : ∀ k < count - bounds.min, ∀ o' ∈ reach step k {o}, ∀ e ∈ step o',
            Onward source o' e := by
          intro k hk o' ho'
          refine (h (bounds.min + k) (fun most hmost => ?_) o' ?_).2
          · have := hmax most hmost
            omega
          · rw [reach_add, mem_reach_iff]
            exact ⟨o, ho, ho'⟩
        obtain ⟨k, hk, hlen, he⟩ := mem_reach_shorter honward he
        refine ⟨k, ?_, mem_reach_iff.2 ⟨o, ho, he⟩⟩
        have hsize : k ≤ source.size + 1 := by
          have hreached := related_of_mem_reach (onward_stepping source)
            (fun i hi => honward i (by omega)) he
          rcases hreached with rfl | ⟨hlt, hle⟩ <;> omega
        cases hmost : bounds.max with
        | none => simpa [growthRounds, hmost] using hsize
        | some most =>
          have := hmax most hmost
          simp only [growthRounds, hmost]
          omega
    obtain ⟨e, he⟩ := hleast.1
    refine ⟨.ok found, ?_, ⟨e, bounds.min, le_rfl, hbounds, he⟩, hall⟩
    change (repeatFurther run (growthRounds bounds source.size) known known.toList >>= fun found =>
      (pure (.ok found) : Except GrammarError Attempt)) = _
    rw [hfurther]
    rfl

end

namespace Parser

section
variable {firstMatch : ModeId → Bool} {meaning : RuleRef → Nat → Set Nat} {source : Source}
variable {call : RuleRef → Nat → Except GrammarError Attempt}

def Answered (source : Source) (meaning : RuleRef → Nat → Set Nat)
    (call : RuleRef → Nat → Except GrammarError Attempt) (asks : RuleRef → Nat → Prop) : Prop :=
  ∀ ref o, asks ref o → Finds (call ref) (meaning ref) o ∧ ∀ e ∈ meaning ref o, Onward source o e

def Ordered (nodes : List Parser) : Prop :=
  ∀ cache bounds element, .repetition cache bounds element ∈ nodes → bounds.Ordered

theorem Ordered.mono {nodes nodes' : List Parser} (h : Ordered nodes)
    (hsub : ∀ node ∈ nodes', node ∈ nodes) : Ordered nodes' :=
  fun cache bounds element hnode => h cache bounds element (hsub _ hnode)

mutual
theorem enumerate_finds (parser : Parser) (hordered : Ordered parser.walk) (start : Nat)
    (h : Answered source meaning call (parser.Asks firstMatch meaning source start)) :
    Finds (parser.enumerate firstMatch call source) (parser.ends firstMatch meaning source)
      start := by
  cases parser with
  | literal terminal =>
    rw [Finds, enumerate, ends]
    cases hm : terminal.matchAt source start with
    | none => exact ⟨_, rfl, by simp [Attempt.Found]⟩
    | some m => exact ⟨_, rfl, ⟨m.stop, m, rfl, rfl⟩, by simp [eq_comm]⟩
  | alternation mode branches =>
    have hbranches : Ordered (walkAll branches) := hordered.mono (by simp +contextual [walk])
    rw [Finds, enumerate, ends]
    simp only [Asks] at h
    cases hmode : firstMatch mode with
    | true =>
      simp only [hmode, if_true] at h ⊢
      exact tryBranches_finds_first _ branches hbranches start h _ rfl
    | false =>
      simp only [hmode, Bool.false_eq_true, if_false] at h ⊢
      simpa [Progress.none] using tryBranches_finds_any _ branches hbranches start h .none
  | concatenation parts =>
    have hparts : Ordered (walkAll parts) := hordered.mono (by simp +contextual [walk])
    rw [Finds, enumerate, ends]
    simp only [Asks] at h
    have hfollow := followParts_finds (.concatenation parts) parts hparts start
      (.single (.empty start)) (by simp) (by simpa [Match.empty] using h)
    simpa [Match.empty] using hfollow
  | optional cache element =>
    have helement : Ordered element.walk := hordered.mono (by simp +contextual [walk])
    simp only [Asks] at h
    rw [Finds, enumerate_eq_explore, explore, ends]
    have hbounds : Bounds.atMostOnce.Ordered := fun most hmost => by
      cases hmost
      exact Nat.zero_le 1
    have hbetween := repeatBetween_finds (.optional cache element) hbounds source start
      (fun k hk o ho => by
        obtain rfl : k = 0 := by
          have := hk 1 rfl
          omega
        obtain rfl : o = start := ho
        exact ⟨enumerate_finds element helement o h,
          related_of_mem_ends (onward_stepping source) element o fun ref o' hasks =>
            (h ref o' hasks).2⟩)
    simpa [Bounds.atMostOnce] using hbetween
  | repetition cache bounds element =>
    have helement : Ordered element.walk := hordered.mono (by simp +contextual [walk])
    simp only [Asks] at h
    rw [Finds, enumerate_eq_explore, explore, ends]
    refine repeatBetween_finds (.repetition cache bounds element)
      (hordered cache bounds element (by simp [walk])) source start fun k hk o ho => ?_
    have hasked : Answered source meaning call (element.Asks firstMatch meaning source o) :=
      fun ref o' hasks => h ref o' ⟨k, hk, o, ho, hasks⟩
    exact ⟨enumerate_finds element helement o hasked,
      related_of_mem_ends (onward_stepping source) element o fun ref o' hasks =>
        (hasked ref o' hasks).2⟩
  | rule ref =>
    rw [Finds, enumerate, ends]
    exact (h ref start (by simp [Asks])).1
  | prose text =>
    rw [Finds, enumerate, ends]
    exact ⟨_, rfl, rfl⟩

theorem tryBranches_finds_any (whole : Parser) (branches : List Parser)
    (hordered : Ordered (walkAll branches)) (start : Nat)
    (h : Answered source meaning call (AnyAsks firstMatch meaning source branches start))
    (progress : Progress) :
    ∃ attempt,
      tryBranches firstMatch call source whole false start branches progress = .ok attempt ∧
        attempt.Found ({e | e ∈ progress.found.stops} ∪
          anyEnds firstMatch meaning source branches start) := by
  cases branches with
  | nil =>
    rw [tryBranches, anyEnds]
    exact ⟨_, rfl, Progress.found_settle (by simp) whole start⟩
  | cons branch rest =>
    simp only [AnyAsks] at h
    obtain ⟨attempt, hbranch, hfound⟩ := enumerate_finds branch
      (hordered.mono (by simp +contextual [walkAll])) start fun ref o hasks => h ref o (Or.inl hasks)
    have hrest := fun progress => tryBranches_finds_any whole rest
      (hordered.mono (by simp +contextual [walkAll])) start
      (fun ref o hasks => h ref o (Or.inr hasks)) progress
    rw [tryBranches, hbranch, anyEnds]
    cases attempt with
    | error failure =>
      rw [show ends firstMatch meaning source branch start = ∅ from hfound, Set.empty_union]
      exact hrest { progress with failure := some failure }
    | ok found =>
      obtain ⟨attempt, hattempt, hall⟩ := hrest { progress with found := progress.found.union found }
      refine ⟨attempt, hattempt, ?_⟩
      have hsame : {e | e ∈ (progress.found.union found).stops} =
          {e | e ∈ progress.found.stops} ∪ ends firstMatch meaning source branch start := by
        ext e
        simp [hfound.2 e]
      rw [← Set.union_assoc, ← hsame]
      exact hall

theorem tryBranches_finds_first (whole : Parser) (branches : List Parser)
    (hordered : Ordered (walkAll branches)) (start : Nat)
    (h : Answered source meaning call (FirstAsks firstMatch meaning source branches start))
    (progress : Progress) (hprogress : progress.found.stops = []) :
    ∃ attempt,
      tryBranches firstMatch call source whole true start branches progress = .ok attempt ∧
        attempt.Found (firstEnds firstMatch meaning source branches start) := by
  cases branches with
  | nil =>
    rw [tryBranches, firstEnds]
    exact ⟨_, rfl, Progress.found_settle (by simp [hprogress]) whole start⟩
  | cons branch rest =>
    simp only [FirstAsks] at h
    obtain ⟨attempt, hbranch, hfound⟩ := enumerate_finds branch
      (hordered.mono (by simp +contextual [walkAll])) start fun ref o hasks => h ref o (Or.inl hasks)
    rw [tryBranches, hbranch, firstEnds]
    cases attempt with
    | error failure =>
      have hnone : ends firstMatch meaning source branch start = ∅ := hfound
      obtain ⟨attempt, hattempt, hall⟩ := tryBranches_finds_first whole rest
        (hordered.mono (by simp +contextual [walkAll])) start
        (fun ref o hasks => h ref o (Or.inr ⟨hnone, hasks⟩))
        { progress with failure := some failure } hprogress
      refine ⟨attempt, hattempt, ?_⟩
      simpa [hnone] using hall
    | ok found =>
      have hsome : ends firstMatch meaning source branch start ≠ ∅ :=
        Set.nonempty_iff_ne_empty.1 hfound.1
      refine ⟨.ok found, rfl, ?_⟩
      simpa [hsome] using hfound

theorem followParts_finds (whole : Parser) (parts : List Parser)
    (hordered : Ordered (walkAll parts)) (start : Nat) (frontier : MatchSet)
    (hfrontier : frontier.stops ≠ [])
    (h : ∀ o ∈ frontier.stops,
      Answered source meaning call (ComposedAsks firstMatch meaning source parts o)) :
    ∃ attempt, followParts firstMatch call source whole start parts frontier = .ok attempt ∧
      attempt.Found {e | ∃ o ∈ frontier.stops,
        e ∈ composedEnds firstMatch meaning source parts o} := by
  cases parts with
  | nil =>
    rw [followParts]
    simp only [composedEnds]
    obtain ⟨e, he⟩ := List.exists_mem_of_ne_nil _ hfrontier
    exact ⟨_, rfl, ⟨e, e, he, rfl⟩, by simp⟩
  | cons part rest =>
    simp only [ComposedAsks] at h
    -- What the first part finds everywhere on the frontier is the frontier for the rest.
    obtain ⟨progress, hsweep, hstops⟩ := sweep_finds ∅ frontier.toList (fun head hhead =>
      enumerate_finds part (hordered.mono (by simp +contextual [walkAll])) head.stop
        fun ref o hasks => h head.stop (MatchSet.mem_stops.2 ⟨head, hhead, rfl⟩) ref o
          (Or.inl hasks)) .none
    have hnext : ∀ e, e ∈ progress.found.stops ↔
        e ∈ {e | ∃ o ∈ frontier.stops, e ∈ ends firstMatch meaning source part o} := by
      intro e
      rw [hstops]
      simp [Progress.none, MatchSet.mem_stops]
    have hsettle := Progress.found_settle hnext whole start
    rw [followParts, hsweep]
    simp only [composedEnds]
    change ∃ attempt, (match progress.settle whole start with
      | .ok next => followParts firstMatch call source whole start rest next
      | .error failure => pure (.error failure)) = .ok attempt ∧ _
    cases hprogress : progress.settle whole start with
    | error failure =>
      rw [hprogress] at hsettle
      have hnone : {e | ∃ o ∈ frontier.stops, e ∈ ends firstMatch meaning source part o} = ∅ :=
        hsettle
      refine ⟨_, rfl, Set.eq_empty_of_forall_notMem ?_⟩
      rintro e ⟨o, ho, o', ho', -⟩
      have hmem : o' ∈ {e | ∃ o ∈ frontier.stops, e ∈ ends firstMatch meaning source part o} :=
        ⟨o, ho, ho'⟩
      rw [hnone] at hmem
      exact hmem
    | ok next =>
      rw [hprogress] at hsettle
      obtain ⟨⟨e, he⟩, hsame⟩ := hsettle
      have hne : next.stops ≠ [] := List.ne_nil_of_mem ((hsame e).2 he)
      obtain ⟨attempt, hfollow, hall⟩ := followParts_finds whole rest
        (hordered.mono (by simp +contextual [walkAll])) start next hne fun o ho ref o' hasks => by
          obtain ⟨first, hfirst, ho⟩ := (hsame o).1 ho
          exact h first hfirst ref o' (Or.inr ⟨o, ho, hasks⟩)
      refine ⟨attempt, hfollow, ?_⟩
      have hends : {e | ∃ o ∈ next.stops, e ∈ composedEnds firstMatch meaning source rest o} =
          {e | ∃ o ∈ frontier.stops, e ∈ {e | ∃ o' ∈ ends firstMatch meaning source part o,
            e ∈ composedEnds firstMatch meaning source rest o'}} := by
        ext e
        constructor
        · rintro ⟨o, ho, he⟩
          obtain ⟨first, hfirst, ho⟩ := (hsame o).1 ho
          exact ⟨first, hfirst, o, ho, he⟩
        · rintro ⟨first, hfirst, o, ho, he⟩
          exact ⟨o, (hsame o).2 ⟨first, hfirst, ho⟩, he⟩
      rw [← hends]
      exact hall
end

end

end Parser

end Metasyntax
