import Mathlib.Order.Interval.Finset.Nat
import Metasyntax.Proofs.Termination
import Metasyntax.Proofs.Derivations

/-!
# Parses go forward

A parse never comes to an offset before the one it starts from. So only so many offsets
can be come to in a text, and the rounds that a repetition is allowed are enough to come
to all of them: a longer text that allows more of them changes nothing. A repetition
without a greatest number of occurrences grows until a round reaches nothing new. Its
rounds are counted beside the matches, and they are no more than the offsets it ends up
with. The number of rounds that a text allows for is never what ends it, and neither is
the depth of calls that the text allows for.
-/

set_option autoImplicit false

namespace Metasyntax

section
variable {m : Type → Type} [Monad m]

def countFurther (run : Nat → m Attempt) : Nat → MatchSet → List Match → m (MatchSet × Nat)
  | 0, known, _ => pure (known, 0)
  | rounds + 1, known, frontier => do
    let progress ← sweep run known frontier .none
    if progress.found.isEmpty then pure (known, 1)
    else do
      let result ← countFurther run rounds (known.union progress.found) progress.found.toList
      return (result.1, result.2 + 1)

/-- Counting changes nothing about what is found. -/
theorem repeatFurther_eq_map_countFurther [LawfulMonad m] (run : Nat → m Attempt) (rounds : Nat)
    (known : MatchSet) (frontier : List Match) :
    repeatFurther run rounds known frontier =
      Prod.fst <$> countFurther run rounds known frontier := by
  induction rounds generalizing known frontier with
  | zero => rw [repeatFurther, countFurther, map_pure]
  | succ rounds ih =>
    rw [repeatFurther, countFurther, map_bind]
    refine bind_congr fun progress => ?_
    split
    · rw [map_pure]
    · simp only [ih, map_eq_pure_bind, bind_assoc, pure_bind]

end

theorem MatchSet.nodup_stops (set : MatchSet) : set.stops.Nodup :=
  set.stops_pairwise.imp fun h => h.ne'

theorem MatchSet.length_stops_lt_union {known found : MatchSet} {e : Nat} (he : e ∈ found.stops)
    (hfresh : e ∉ known.stops) : known.stops.length < (known.union found).stops.length := by
  rw [← List.toFinset_card_of_nodup known.nodup_stops,
    ← List.toFinset_card_of_nodup (known.union found).nodup_stops]
  refine Finset.card_lt_card ((Finset.ssubset_iff_of_subset fun o ho => ?_).2
    ⟨e, by simpa using Or.inr he, by simpa using hfresh⟩)
  rw [List.mem_toFinset] at ho ⊢
  exact mem_stops_union.2 (Or.inl ho)

/-- As many different offsets can be come to in a text as it has bytes, and the one that
the parse starts from. -/
theorem length_le_of_onward {source : Source} {start : Nat} {offsets : List Nat}
    (hnodup : offsets.Nodup) (h : ∀ e ∈ offsets, Onward source start e) :
    offsets.length ≤ source.size + 1 := by
  have hsub : offsets.toFinset ⊆ insert start (Finset.Ioc start source.size) := by
    intro e he
    rw [Finset.mem_insert, Finset.mem_Ioc]
    exact h e (List.mem_toFinset.1 he)
  have hcard := (Finset.card_le_card hsub).trans (Finset.card_insert_le _ _)
  rw [List.toFinset_card_of_nodup hnodup, Nat.card_Ioc] at hcard
  omega

section
variable {keeps : Caches → Prop} {run : Nat → Run Attempt} {good : Nat → Prop}
  (hrun : ∀ o, good o → (run o).Finishes keeps (StopsIn good))
include hrun

theorem sweep_finishes_of_good (known : MatchSet) {frontier : List Match}
    (hfrontier : ∀ m ∈ frontier, good m.stop) :
    Run.Finishes keeps (Progress.GoodStops fun e => good e ∧ e ∉ known.stops)
      (sweep run known frontier .none) :=
  sweep_finishes known frontier (fun head hhead => hrun _ (hfrontier head hhead)) .none
    Progress.none_goodStops

/-- Every round but the last adds an offset to those known. -/
theorem countFurther_finishes (rounds : Nat) (known : MatchSet) (frontier : List Match)
    (hfrontier : ∀ m ∈ frontier, good m.stop) :
    Run.Finishes keeps (fun result => result.2 + known.stops.length ≤ result.1.stops.length + 1)
      (countFurther run rounds known frontier) := by
  induction rounds generalizing known frontier with
  | zero => exact .pure (by dsimp only; omega)
  | succ rounds ih =>
    rw [countFurther]
    refine .bind (sweep_finishes_of_good hrun known hfrontier) fun progress hprogress => ?_
    split
    case isTrue => exact .pure (by dsimp only; omega)
    case isFalse hsome =>
      obtain ⟨e, he⟩ := List.exists_mem_of_ne_nil _ fun hnil => hsome (MatchSet.isEmpty_iff.2 hnil)
      have hlarger := MatchSet.length_stops_lt_union he (hprogress e he).2
      refine .bind (ih _ _ fun m hm => (hprogress _ (MatchSet.mem_stops.2 ⟨m, hm, rfl⟩)).1)
        fun result hresult => .pure ?_
      dsimp only
      omega

/-- Where only so many offsets can be come to, growing ends by itself: all numbers of rounds
that are large enough give one outcome. -/
theorem countFurther_eq_of_limit {limit : Nat}
    (hlimit : ∀ offsets : List Nat, offsets.Nodup → (∀ e ∈ offsets, good e) →
      offsets.length ≤ limit)
    {rounds rounds' : Nat} {known : MatchSet} (hknown : ∀ e ∈ known.stops, good e)
    (hrounds : limit < rounds + known.stops.length)
    (hrounds' : limit < rounds' + known.stops.length)
    {frontier : List Match} (hfrontier : ∀ m ∈ frontier, good m.stop) {caches : Caches}
    (hcaches : keeps caches) :
    (countFurther run rounds known frontier).run caches =
      (countFurther run rounds' known frontier).run caches := by
  have hfew := hlimit known.stops known.nodup_stops hknown
  induction rounds generalizing rounds' known frontier caches with
  | zero => omega
  | succ rounds ih =>
    obtain ⟨rounds', rfl⟩ : ∃ k, rounds' = k + 1 := ⟨rounds' - 1, by omega⟩
    obtain ⟨-, hkeeps, hprogress⟩ := sweep_finishes_of_good hrun known hfrontier caches hcaches
    rw [countFurther, countFurther]
    rcases hsweep : (sweep run known frontier .none).run caches with ⟨error | progress, caches'⟩
    · rw [Run.run_bind_error hsweep, Run.run_bind_error hsweep]
    · rw [hsweep] at hkeeps hprogress
      have hprogress := hprogress progress rfl
      rw [Run.run_bind_ok hsweep, Run.run_bind_ok hsweep]
      split
      case isTrue => rfl
      case isFalse hsome =>
        obtain ⟨e, he⟩ := List.exists_mem_of_ne_nil _ fun hnil =>
          hsome (MatchSet.isEmpty_iff.2 hnil)
        have hlarger := MatchSet.length_stops_lt_union he (hprogress e he).2
        have hunion : ∀ e ∈ (known.union progress.found).stops, good e := fun e he =>
          (MatchSet.mem_stops_union.1 he).elim (hknown e) fun he => (hprogress e he).1
        exact Run.run_bind_congr (ih hunion (by omega) (by omega)
          (fun m hm => (hprogress _ (MatchSet.mem_stops.2 ⟨m, hm, rfl⟩)).1) hkeeps
          (hlimit _ (MatchSet.nodup_stops _) hunion)) _

end

theorem approximation_self {leaving : GrammarError → Prop} {α : Type} {post : α → Prop}
    {x : Except GrammarError α} (h : ∀ a, x = .ok a → post a) :
    (approximation leaving).rel post x x :=
  ⟨Approximates.refl x, h⟩

def GoesOnward (source : Source) (run : Nat → Except GrammarError Attempt) : Prop :=
  ∀ start attempt, run start = .ok attempt → StopsIn (Onward source start) attempt

section
variable {source : Source} {run : Nat → Except GrammarError Attempt}

theorem GoesOnward.trans (h : GoesOnward source run) {start o : Nat} (ho : Onward source start o)
    {attempt : Attempt} (hattempt : run o = .ok attempt) :
    StopsIn (Onward source start) attempt :=
  fun found hfound e he => (onward_stepping source).trans ho (h o attempt hattempt found hfound e he)

theorem GoesOnward.related (h : GoesOnward source run) (start o : Nat)
    (ho : Onward source start o) :
    (approximation fun _ => False).rel (StopsIn (Onward source start)) (run o) (run o) :=
  approximation_self fun _ hattempt => h.trans ho hattempt

theorem Parser.enumerate_onward {firstMatch : ModeId → Bool}
    {call : RuleRef → Nat → Except GrammarError Attempt} (hcall : ∀ ref, GoesOnward source (call ref))
    (parser : Parser) : GoesOnward source (parser.enumerate firstMatch call source) := by
  intro start attempt h
  have hconsume : Consuming source (Onward source start) := fun _ _ _ ho hm =>
    (onward_stepping source).trans ho ((onward_stepping source).matchAt hm)
  have hlinked : Linked (approximation fun _ => False) (Onward source start) source firstMatch
      firstMatch call call parser.walk :=
    { call := fun ref _ o ho => (hcall ref).related start o ho
      mode := fun _ _ _ => rfl
      remember := fun _ _ _ _ _ _ h => h }
  exact (enumerate_rel hconsume parser hlinked start (Or.inl rfl)).2 attempt h

namespace Catalog

theorem callOnce_onward {catalog : Catalog}
    {call : Source → RuleRef → Nat → Except GrammarError Attempt}
    (hcall : ∀ ref, GoesOnward source (call source ref)) (ref : RuleRef) :
    GoesOnward source (catalog.callOnce call source ref) := by
  rintro start attempt h found rfl e he
  obtain ⟨_, _, definition, candidates, -, -, henumerate, hwrapped⟩ := exists_of_callOnce_eq_ok h
  obtain ⟨m, hm, rfl⟩ := MatchSet.mem_stops.1 he
  obtain ⟨m', hm', rfl⟩ := hwrapped m hm
  exact definition.enumerate_onward hcall start _ henumerate candidates rfl _
    (MatchSet.mem_stops.2 ⟨m', hm', rfl⟩)

theorem call_onward (catalog : Catalog) (depth : Nat) (source : Source) (ref : RuleRef) :
    GoesOnward source (catalog.call depth source ref) := by
  induction depth generalizing ref with
  | zero =>
    intro start attempt h
    cases h
  | succ depth ih => exact callOnce_onward ih ref

end Catalog

theorem sweep_onward (hrun : GoesOnward source run) {start : Nat} {known : MatchSet}
    {heads : List Match} (hheads : ∀ m ∈ heads, Onward source start m.stop)
    {progress after : Progress} (h : sweep run known heads progress = .ok after) :
    ∀ e ∈ after.found.stops,
      e ∈ progress.found.stops ∨ Onward source start e ∧ e ∉ known.stops := by
  induction heads generalizing progress with
  | nil =>
    cases h
    exact fun e he => Or.inl he
  | cons head heads ih =>
    have hrest : ∀ m ∈ heads, Onward source start m.stop := fun m hm =>
      hheads m (List.mem_cons_of_mem _ hm)
    rw [sweep] at h
    obtain ⟨attempt, hattempt, h⟩ := exists_of_bind_eq_ok h
    cases attempt with
    | error failure =>
      have hafter := ih hrest h
      exact hafter
    | ok tails =>
      intro e he
      rcases ih hrest h e he with he | he
      · rcases MatchSet.mem_stops_extend.1 he with he | ⟨he, hknown⟩
        · exact Or.inl he
        · have htails := hrun.trans (hheads head List.mem_cons_self) hattempt
          exact Or.inr ⟨htails tails rfl e he, hknown⟩
      · exact Or.inr he

/-- Rounds that are more than the offsets still to come to are all alike. -/
theorem repeatFurther_eq_of_onward (hrun : GoesOnward source run) {start rounds rounds' : Nat}
    {known : MatchSet} (hknown : ∀ e ∈ known.stops, Onward source start e)
    (hrounds : source.size + 1 < rounds + known.stops.length)
    (hrounds' : source.size + 1 < rounds' + known.stops.length) {frontier : List Match}
    (hfrontier : ∀ m ∈ frontier, Onward source start m.stop) :
    repeatFurther run rounds known frontier = repeatFurther run rounds' known frontier := by
  have hfew := length_le_of_onward known.nodup_stops hknown
  induction rounds generalizing rounds' known frontier with
  | zero => omega
  | succ rounds ih =>
    obtain ⟨rounds', rfl⟩ : ∃ k, rounds' = k + 1 := ⟨rounds' - 1, by omega⟩
    rw [repeatFurther, repeatFurther]
    cases hsweep : sweep run known frontier .none with
    | error error => rfl
    | ok progress =>
      have hnew : ∀ e ∈ progress.found.stops, Onward source start e ∧ e ∉ known.stops :=
        fun e he => (sweep_onward hrun hfrontier hsweep e he).resolve_left List.not_mem_nil
      rw [ok_bind, ok_bind]
      split
      case isTrue => rfl
      case isFalse hsome =>
        obtain ⟨e, he⟩ := List.exists_mem_of_ne_nil _ fun hnil =>
          hsome (MatchSet.isEmpty_iff.2 hnil)
        have hlarger := MatchSet.length_stops_lt_union he (hnew e he).2
        have hunion : ∀ e ∈ (known.union progress.found).stops, Onward source start e :=
          fun e he => (MatchSet.mem_stops_union.1 he).elim (hknown e) fun he => (hnew e he).1
        exact ih hunion (by omega) (by omega)
          (fun m hm => (hnew _ (MatchSet.mem_stops.2 ⟨m, hm, rfl⟩)).1)
          (length_le_of_onward (MatchSet.nodup_stops _) hunion)

theorem repeatExactly_nonempty {parser : Parser} {start count : Nat} {frontier found : MatchSet}
    (hfrontier : frontier.stops ≠ [])
    (h : repeatExactly run parser start count frontier = .ok (.ok found)) : found.stops ≠ [] := by
  induction count generalizing frontier with
  | zero =>
    cases h
    exact hfrontier
  | succ count ih =>
    rw [repeatExactly] at h
    obtain ⟨progress, -, h⟩ := exists_of_bind_eq_ok h
    cases hsettle : progress.settle parser start with
    | error failure =>
      rw [hsettle] at h
      cases h
    | ok next =>
      rw [hsettle] at h
      refine ih (fun hnil => ?_) h
      rw [Progress.settle] at hsettle
      split at hsettle
      case isTrue => cases hsettle
      case isFalse hsome =>
        cases hsettle
        exact hsome (MatchSet.isEmpty_iff.2 hnil)

/-- A repetition does not come to more in a text when it is allowed the rounds of a longer
one. -/
theorem repeatBetween_eq_of_size_le (hrun : GoesOnward source run) {source' : Source}
    (hsize : source.size ≤ source'.size) (parser : Parser) (bounds : Bounds) (start : Nat) :
    repeatBetween run parser bounds source' start = repeatBetween run parser bounds source start := by
  rw [repeatBetween, repeatBetween]
  cases hleast : repeatExactly run parser start bounds.min (.single (.empty start)) with
  | error error => rfl
  | ok attempt =>
    cases attempt with
    | error failure => rfl
    | ok known =>
      have hknown : ∀ e ∈ known.stops, Onward source start e :=
        (repeatExactly_rel (approximation fun _ => False) (hrun.related start) parser start
          bounds.min (.single (.empty start)) (by simp [Match.empty, Onward])).2 _ hleast known rfl
      have hsome := List.length_pos_of_ne_nil (repeatExactly_nonempty (by simp) hleast)
      have hrounds : growthRounds bounds source'.size = growthRounds bounds source.size ∨
          source.size + 1 ≤ growthRounds bounds source'.size ∧
            source.size + 1 ≤ growthRounds bounds source.size := by
        rw [growthRounds, growthRounds]
        cases bounds.max <;> dsimp only <;> omega
      rcases hrounds with hrounds | ⟨hmore, hless⟩
      · simp only [hrounds]
      · simp only [ok_bind]
        have hsame := repeatFurther_eq_of_onward hrun hknown
          (show source.size + 1 < growthRounds bounds source'.size + known.stops.length by omega)
          (show source.size + 1 < growthRounds bounds source.size + known.stops.length by omega)
          fun m hm => hknown _ (MatchSet.mem_stops.2 ⟨m, hm, rfl⟩)
        rw [hsame]

end

end Metasyntax
