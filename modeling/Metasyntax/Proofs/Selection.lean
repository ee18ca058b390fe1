import Metasyntax.Proofs.Translation

/-!
# Which match is kept

Of all ways to stop at one offset a parser keeps one, and which one it keeps follows from what
its parts keep. A choice keeps what its first branch does that stops there. A sequence goes as
far as it can before its last part, and a repetition uses as few occurrences as it can. The
order in which matches are found does not show beyond this.
-/

set_option autoImplicit false

namespace Metasyntax

theorem Match.mem_insertInto_iff {m x : Match} {l : List Match}
    (hordered : l.Pairwise fun a b => b.stop < a.stop) :
    x ∈ insertInto m l ↔ x ∈ l ∨ x = m ∧ ∀ other ∈ l, other.stop ≠ m.stop := by
  induction l with
  | nil => simp [insertInto]
  | cons first rest ih =>
    obtain ⟨hfirst, hrest⟩ := List.pairwise_cons.1 hordered
    rw [insertInto]
    split
    case isTrue hlt =>
      have hnone : ∀ other ∈ first :: rest, other.stop ≠ m.stop := by
        intro other hother
        rcases List.mem_cons.1 hother with rfl | hother
        · omega
        · have := hfirst other hother
          omega
      rw [List.mem_cons]
      tauto
    case isFalse =>
      split
      case isTrue hsame =>
        have hsome : ¬ ∀ other ∈ first :: rest, other.stop ≠ m.stop := fun hnone =>
          hnone first List.mem_cons_self hsame
        tauto
      case isFalse hne =>
        rw [List.mem_cons, ih hrest, List.mem_cons, List.forall_mem_cons]
        tauto

namespace MatchSet

theorem mem_insert_iff {set : MatchSet} {m x : Match} :
    x ∈ (set.insert m).toList ↔ x ∈ set.toList ∨ x = m ∧ m.stop ∉ set.stops := by
  rw [insert, Match.mem_insertInto_iff set.ordered, mem_stops]
  simp only [not_exists, not_and]

theorem mem_foldl_insert_iff {l : List Match} (hordered : l.Pairwise fun a b => b.stop < a.stop)
    {set : MatchSet} {x : Match} :
    x ∈ (l.foldl insert set).toList ↔ x ∈ set.toList ∨ x ∈ l ∧ x.stop ∉ set.stops := by
  induction l generalizing set with
  | nil => simp
  | cons m rest ih =>
    obtain ⟨hm, hrest⟩ := List.pairwise_cons.1 hordered
    rw [List.foldl_cons, ih hrest, mem_insert_iff, mem_stops_insert, List.mem_cons]
    constructor
    · rintro ((hx | ⟨rfl, hx⟩) | ⟨hx, hnone⟩)
      · exact Or.inl hx
      · exact Or.inr ⟨Or.inl rfl, hx⟩
      · exact Or.inr ⟨Or.inr hx, fun h => hnone (Or.inr h)⟩
    · rintro (hx | ⟨rfl | hx, hnone⟩)
      · exact Or.inl (Or.inl hx)
      · exact Or.inl (Or.inr ⟨rfl, hnone⟩)
      · refine Or.inr ⟨hx, ?_⟩
        rintro (hsame | h)
        · exact absurd hsame (Nat.ne_of_gt (hm x hx))
        · exact hnone h

theorem mem_union_iff {a b : MatchSet} {x : Match} :
    x ∈ (a.union b).toList ↔ x ∈ a.toList ∨ x ∈ b.toList ∧ x.stop ∉ a.stops :=
  mem_foldl_insert_iff b.ordered

theorem mem_extend_iff {set known : MatchSet} {head : Match} {tails : MatchSet} {x : Match} :
    x ∈ (set.extend known head tails).toList ↔ x ∈ set.toList ∨
      (∃ tail ∈ tails.toList, x = head.followedBy tail) ∧ x.stop ∉ known.stops ∧
        x.stop ∉ set.stops := by
  have hordered := tails.ordered
  change x ∈ (tails.toList.foldl (carry known head) set).toList ↔ _
  generalize tails.toList = l at hordered ⊢
  revert set
  induction l with
  | nil => simp
  | cons tail rest ih =>
    intro set
    obtain ⟨htail, hrest⟩ := List.pairwise_cons.1 hordered
    have hcarry : x ∈ (carry known head set tail).toList ↔ x ∈ set.toList ∨
        x = head.followedBy tail ∧ x.stop ∉ known.stops ∧ x.stop ∉ set.stops := by
      rw [carry]
      split
      case isTrue h =>
        simp only [Bool.or_eq_true, hasStop_iff] at h
        refine ⟨Or.inl, ?_⟩
        rintro (hx | ⟨rfl, hknown, hset⟩)
        · exact hx
        · exact (h.elim hknown hset).elim
      case isFalse h =>
        simp only [Bool.or_eq_true, hasStop_iff, not_or] at h
        rw [mem_insert_iff]
        refine or_congr_right (and_congr_right ?_)
        rintro rfl
        exact ⟨fun _ => h, fun hx => hx.2⟩
    rw [List.foldl_cons, @ih hrest (carry known head set tail), hcarry, mem_stops_carry]
    constructor
    · rintro ((hx | ⟨rfl, hx⟩) | ⟨⟨t, ht, rfl⟩, hknown, hset⟩)
      · exact Or.inl hx
      · exact Or.inr ⟨⟨tail, List.mem_cons_self, rfl⟩, hx⟩
      · exact Or.inr ⟨⟨t, List.mem_cons_of_mem _ ht, rfl⟩, hknown, fun h => hset (Or.inl h)⟩
    · rintro (hx | ⟨⟨t, ht, rfl⟩, hknown, hset⟩)
      · exact Or.inl (Or.inl hx)
      · rcases List.mem_cons.1 ht with rfl | ht
        · exact Or.inl (Or.inr ⟨rfl, hknown, hset⟩)
        · refine Or.inr ⟨⟨t, ht, rfl⟩, hknown, ?_⟩
          rintro (h | ⟨hsame, -⟩)
          · exact hset h
          · exact absurd hsame (Nat.ne_of_gt (htail t ht))

end MatchSet

def Attempt.kept : Attempt → List Match
  | .ok found => found.toList
  | .error _ => []

def Keeps (run : Nat → Except GrammarError Attempt) (start : Nat) (m : Match) : Prop :=
  ∃ attempt, run start = .ok attempt ∧ m ∈ Attempt.kept attempt

def Concludes (run : Nat → Except GrammarError Attempt) (start : Nat) : Prop :=
  ∃ attempt, run start = .ok attempt

def endsKept (keeps : Nat → Match → Prop) (start : Nat) : Set Nat :=
  {e | ∃ m, keeps start m ∧ m.stop = e}

def Latest (heads : Match → Prop) (tails : Nat → Match → Prop) (m : Match) : Prop :=
  ∃ head tail, heads head ∧ tails head.stop tail ∧ m = head.followedBy tail ∧
    ∀ other, heads other → m.stop ∈ endsKept tails other.stop → other.stop ≤ head.stop

def Times (step : Nat → Match → Prop) (start : Nat) : Nat → Match → Prop
  | 0, m => m = .empty start
  | count + 1, m => Latest (Times step start count) step m

def Fewest (step : Nat → Match → Prop) (start least count : Nat) (m : Match) : Prop :=
  least ≤ count ∧ Times step start count m ∧
    ∀ fewer, least ≤ fewer → fewer < count → m.stop ∉ reach (endsKept step) fewer {start}

def Bounds.Allows (bounds : Bounds) (count : Nat) : Prop :=
  bounds.min ≤ count ∧ ∀ most, bounds.max = some most → count ≤ most ∨ count = bounds.min

theorem Bounds.Allows.of_le {bounds : Bounds} {count fewer : Nat} (h : bounds.Allows count)
    (hmin : bounds.min ≤ fewer) (hle : fewer ≤ count) : bounds.Allows fewer := by
  refine ⟨hmin, fun most hmost => ?_⟩
  have := h.2 most hmost
  omega

section
variable {heads heads' : Match → Prop} {tails : Nat → Match → Prop} {m : Match}

theorem Latest.congr_of_carried
    (h : ∀ head, m.stop ∈ endsKept tails head.stop → (heads head ↔ heads' head)) :
    Latest heads tails m ↔ Latest heads' tails m := by
  have hcarried : ∀ head tail, tails head.stop tail → m = head.followedBy tail →
      (heads head ↔ heads' head) := by
    rintro head tail htail rfl
    exact h head ⟨tail, htail, rfl⟩
  refine exists_congr fun head => exists_congr fun tail => ?_
  constructor
  · rintro ⟨hhead, htail, hm, hlast⟩
    exact ⟨(hcarried head tail htail hm).1 hhead, htail, hm,
      fun other hother he => hlast other ((h other he).2 hother) he⟩
  · rintro ⟨hhead, htail, hm, hlast⟩
    exact ⟨(hcarried head tail htail hm).2 hhead, htail, hm,
      fun other hother he => hlast other ((h other he).1 hother) he⟩

/-- Where first matches go no further than to a limit, one of them goes furthest. -/
theorem exists_latest {limit : Nat} (hlimit : ∀ head, heads head → head.stop ≤ limit) {e : Nat}
    {head : Match} (hhead : heads head) (he : e ∈ endsKept tails head.stop) :
    ∃ m, Latest heads tails m ∧ m.stop = e := by
  induction hroom : limit - head.stop using Nat.strong_induction_on generalizing head with
  | _ room ih =>
    by_cases hlast : ∀ other, heads other → e ∈ endsKept tails other.stop → other.stop ≤ head.stop
    · obtain ⟨tail, htail, rfl⟩ := he
      exact ⟨head.followedBy tail, ⟨head, tail, hhead, htail, rfl, hlast⟩, rfl⟩
    · push Not at hlast
      obtain ⟨other, hother, he', hlt⟩ := hlast
      have := hlimit other hother
      exact ih (limit - other.stop) (by omega) hother he' rfl

theorem Latest.stop_mem (h : Latest heads tails m) :
    ∃ head, heads head ∧ m.stop ∈ endsKept tails head.stop := by
  obtain ⟨head, tail, hhead, htail, rfl, -⟩ := h
  exact ⟨head, hhead, tail, htail, rfl⟩

/-- Of first matches that come later ones first, the first that can be carried on counts. -/
theorem latest_cons {first : Match} {rest : List Match}
    (hordered : (first :: rest).Pairwise fun a b => b.stop < a.stop) :
    Latest (· ∈ first :: rest) tails m ↔
      (∃ tail, tails first.stop tail ∧ m = first.followedBy tail) ∨
        m.stop ∉ endsKept tails first.stop ∧ Latest (· ∈ rest) tails m := by
  have hfirst := (List.pairwise_cons.1 hordered).1
  constructor
  · rintro ⟨head, tail, hhead, htail, rfl, hlast⟩
    rcases List.mem_cons.1 hhead with rfl | hhead
    · exact Or.inl ⟨tail, htail, rfl⟩
    · refine Or.inr ⟨fun he => ?_, head, tail, hhead, htail, rfl,
        fun other hother => hlast other (List.mem_cons_of_mem _ hother)⟩
      exact absurd (hlast first List.mem_cons_self he) (Nat.not_le_of_gt (hfirst head hhead))
  · rintro (⟨tail, htail, rfl⟩ | ⟨hnone, head, tail, hhead, htail, rfl, hlast⟩)
    · refine ⟨first, tail, List.mem_cons_self, htail, rfl, fun other hother _ => ?_⟩
      rcases List.mem_cons.1 hother with rfl | hother
      · exact Nat.le_refl _
      · exact Nat.le_of_lt (hfirst other hother)
    · refine ⟨head, tail, List.mem_cons_of_mem _ hhead, htail, rfl, fun other hother he => ?_⟩
      rcases List.mem_cons.1 hother with rfl | hother
      · exact absurd he hnone
      · exact hlast other hother he

end

section
variable {run : Nat → Except GrammarError Attempt}

theorem keeps_iff_of_eq_ok {start : Nat} {attempt : Attempt} (h : run start = .ok attempt)
    {m : Match} : Keeps run start m ↔ m ∈ Attempt.kept attempt := by
  rw [Keeps, h]
  exact ⟨fun ⟨_, heq, hm⟩ => by cases heq; exact hm, fun hm => ⟨attempt, rfl, hm⟩⟩

theorem mem_endsKept_iff_of_eq_ok {start : Nat} {attempt : Attempt} (h : run start = .ok attempt)
    {e : Nat} : e ∈ endsKept (Keeps run) start ↔ ∃ m ∈ Attempt.kept attempt, m.stop = e :=
  exists_congr fun _ => and_congr_left fun _ => keeps_iff_of_eq_ok h

theorem Progress.kept_settle (progress : Progress) (parser : Parser) (start : Nat) :
    (progress.settle parser start).kept = progress.found.toList := by
  rw [settle]
  split
  case isTrue hempty => exact (List.isEmpty_iff.1 hempty).symm
  case isFalse => rfl

/-- The first match that can be carried on to an offset is the one that is. -/
theorem sweep_keeps {known : MatchSet} {heads : List Match}
    (hordered : heads.Pairwise fun a b => b.stop < a.stop) {progress after : Progress}
    (h : sweep run known heads progress = .ok after) (m : Match) :
    m ∈ after.found.toList ↔ m ∈ progress.found.toList ∨
      Latest (· ∈ heads) (Keeps run) m ∧ m.stop ∉ known.stops ∧ m.stop ∉ progress.found.stops := by
  induction heads generalizing progress with
  | nil =>
    cases h
    refine ⟨Or.inl, ?_⟩
    rintro (hm | ⟨hlatest, -⟩)
    · exact hm
    · obtain ⟨head, hhead, -⟩ := hlatest.stop_mem
      cases hhead
  | cons head heads ih =>
    have hrest := (List.pairwise_cons.1 hordered).2
    rw [latest_cons hordered]
    rw [sweep] at h
    obtain ⟨attempt, hattempt, h⟩ := exists_of_bind_eq_ok h
    cases attempt with
    | error failure =>
      rw [ih hrest h]
      simp [keeps_iff_of_eq_ok hattempt, mem_endsKept_iff_of_eq_ok hattempt, Attempt.kept]
    | ok tails =>
      simp only [ih hrest h, MatchSet.mem_extend_iff, MatchSet.mem_stops_extend,
        keeps_iff_of_eq_ok hattempt, mem_endsKept_iff_of_eq_ok hattempt, Attempt.kept,
        ← MatchSet.mem_stops]
      have hstop : (∃ tail ∈ tails.toList, m = head.followedBy tail) → m.stop ∈ tails.stops := by
        rintro ⟨tail, htail, rfl⟩
        exact MatchSet.mem_stops.2 ⟨tail, htail, rfl⟩
      generalize (∃ tail ∈ tails.toList, m = head.followedBy tail) = carried at hstop ⊢
      tauto

theorem sweep_concludes {known : MatchSet} {heads : List Match} {progress after : Progress}
    (h : sweep run known heads progress = .ok after) :
    ∀ head ∈ heads, Concludes run head.stop := by
  induction heads generalizing progress with
  | nil => exact nofun
  | cons head heads ih =>
    rw [sweep] at h
    obtain ⟨attempt, hattempt, h⟩ := exists_of_bind_eq_ok h
    refine List.forall_mem_cons.2 ⟨⟨attempt, hattempt⟩, ?_⟩
    cases attempt with
    | error failure => exact ih h
    | ok tails => exact ih h

theorem not_times_add {step : Nat → Match → Prop} {start count : Nat}
    (h : ∀ m, ¬ Times step start count m) (more : Nat) (m : Match) :
    ¬ Times step start (count + more) m := by
  induction more generalizing m with
  | zero => exact h m
  | succ more ih =>
    intro hm
    obtain ⟨head, hhead, -⟩ := Latest.stop_mem hm
    exact ih head hhead

/-- What a number of occurrences gives, and that all occurrences before the last have been looked
for. -/
theorem repeatExactly_keeps {parser : Parser} {start done count : Nat} {frontier : MatchSet}
    {attempt : Attempt} (hfrontier : ∀ m, m ∈ frontier.toList ↔ Times (Keeps run) start done m)
    (h : repeatExactly run parser start count frontier = .ok attempt) :
    (∀ m, m ∈ Attempt.kept attempt ↔ Times (Keeps run) start (done + count) m) ∧
      ∀ k < count, ∀ m, Times (Keeps run) start (done + k) m → Concludes run m.stop := by
  induction count generalizing done frontier with
  | zero =>
    cases h
    exact ⟨hfrontier, by omega⟩
  | succ count ih =>
    rw [repeatExactly] at h
    obtain ⟨progress, hsweep, h⟩ := exists_of_bind_eq_ok h
    have hnext : ∀ m, m ∈ (progress.settle parser start).kept ↔
        Times (Keeps run) start (done + 1) m := by
      intro m
      rw [Progress.kept_settle, sweep_keeps frontier.ordered hsweep,
        Latest.congr_of_carried fun head _ => hfrontier head]
      simp [Progress.none, Times]
    have hhere : ∀ m, Times (Keeps run) start (done + 0) m → Concludes run m.stop :=
      fun m hm => sweep_concludes hsweep m ((hfrontier m).2 hm)
    cases hsettle : progress.settle parser start with
    | error failure =>
      rw [hsettle] at h hnext
      cases h
      have hnone : ∀ more m, ¬ Times (Keeps run) start (done + 1 + more) m :=
        not_times_add fun m hm => List.not_mem_nil ((hnext m).2 hm)
      refine ⟨fun m => ⟨fun hm => absurd hm List.not_mem_nil, fun hm => absurd ?_ (hnone count m)⟩,
        fun k hk m hm => ?_⟩
      · rwa [Nat.add_assoc, Nat.add_comm 1]
      · cases k with
        | zero => exact hhere m hm
        | succ k =>
          refine absurd ?_ (hnone k m)
          rwa [Nat.add_assoc, Nat.add_comm 1]
    | ok next =>
      rw [hsettle] at h hnext
      obtain ⟨hkept, hconcludes⟩ := ih hnext h
      refine ⟨fun m => ?_, fun k hk m hm => ?_⟩
      · rw [hkept, Nat.add_assoc, Nat.add_comm 1]
      · cases k with
        | zero => exact hhere m hm
        | succ k =>
          refine hconcludes k (by omega) m ?_
          rwa [Nat.add_assoc, Nat.add_comm 1]

end

section
variable {step : Nat → Match → Prop} {start least : Nat}

theorem Times.mem_reach {count : Nat} {m : Match} (h : Times step start count m) :
    m.stop ∈ reach (endsKept step) count {start} := by
  induction count generalizing m with
  | zero =>
    cases h
    rfl
  | succ count ih =>
    obtain ⟨head, hhead, he⟩ := Latest.stop_mem h
    rw [reach_succ]
    exact ⟨head.stop, ih hhead, he⟩

variable {source : Source} (honward : ∀ o, ∀ e ∈ endsKept step o, Onward source o e)
include honward

theorem Times.stop_le {count : Nat} {m : Match} (h : Times step start count m) :
    m.stop ≤ max start source.size := by
  have hreached := related_of_mem_reach (onward_stepping source) (fun _ _ o _ => honward o)
    h.mem_reach
  unfold Onward at hreached
  omega

theorem exists_times {count e : Nat} (he : e ∈ reach (endsKept step) count {start}) :
    ∃ m, Times step start count m ∧ m.stop = e := by
  induction count generalizing e with
  | zero => exact ⟨.empty start, rfl, (show e = start from he).symm⟩
  | succ count ih =>
    rw [reach_succ] at he
    obtain ⟨o, ho, he⟩ := he
    obtain ⟨head, hhead, rfl⟩ := ih ho
    exact exists_latest (fun _ hother => hother.stop_le honward) hhead he

theorem exists_fewest {count e : Nat} (hcount : least ≤ count)
    (he : e ∈ reach (endsKept step) count {start}) :
    ∃ fewer ≤ count, ∃ m, Fewest step start least fewer m ∧ m.stop = e := by
  induction count using Nat.strong_induction_on with
  | _ count ih =>
    by_cases hless : ∃ fewer, least ≤ fewer ∧ fewer < count ∧
        e ∈ reach (endsKept step) fewer {start}
    · obtain ⟨fewer, hleast, hlt, he'⟩ := hless
      obtain ⟨fewest, hle, hm⟩ := ih fewer hlt hleast he'
      exact ⟨fewest, by omega, hm⟩
    · obtain ⟨m, hm, rfl⟩ := exists_times honward he
      exact ⟨count, Nat.le_refl _, m,
        ⟨hcount, hm, fun fewer hleast hlt he' => hless ⟨fewer, hleast, hlt, he'⟩⟩, rfl⟩

/-- Where nothing is reached for the first time in so many steps, nothing is in more. -/
theorem Fewest.le_of_none {done count : Nat} (hleast : least ≤ done)
    (hnone : ∀ m, ¬ Fewest step start least (done + 1) m) {m : Match}
    (h : Fewest step start least count m) : count ≤ done := by
  by_contra hlt
  have hreach := h.2.1.mem_reach
  obtain ⟨more, rfl⟩ : ∃ more, count = done + 1 + more := ⟨count - (done + 1), by omega⟩
  rw [reach_add] at hreach
  obtain ⟨o, ho, hreach⟩ := mem_reach_iff.1 hreach
  obtain ⟨fewer, hle, head, hhead, rfl⟩ :=
    exists_fewest honward (Nat.le_succ_of_le hleast) ho
  have hne : fewer ≠ done + 1 := by
    rintro rfl
    exact hnone head hhead
  have hhead' := hhead.1
  refine h.2.2 (fewer + more) (by omega) (by omega) ?_
  rw [reach_add]
  exact mem_reach_iff.2 ⟨head.stop, hhead.2.1.mem_reach, hreach⟩

/-- Fewest occurrences are no more than there are bytes to go on by, after the least number. -/
theorem Fewest.count_le {count : Nat} {m : Match} (h : Fewest step start least count m) :
    count ≤ least + source.size := by
  have hle := h.1
  obtain ⟨more, rfl⟩ : ∃ more, count = least + more := ⟨count - least, by omega⟩
  have hreach := h.2.1.mem_reach
  rw [reach_add] at hreach
  obtain ⟨o, ho, hreach⟩ := mem_reach_iff.1 hreach
  obtain ⟨fewer, -, hshort, hreach'⟩ := mem_reach_shorter (fun _ _ o' _ => honward o') hreach
  have hmost : more ≤ fewer := by
    by_contra hlt
    refine h.2.2 (least + fewer) (by omega) (by omega) ?_
    rw [reach_add]
    exact mem_reach_iff.2 ⟨o, ho, hreach'⟩
  have honwards := related_of_mem_reach (onward_stepping source) (fun _ _ o' _ => honward o') hreach
  unfold Onward at honwards
  omega

end

section
variable {run : Nat → Except GrammarError Attempt} {source : Source} {start : Nat}

theorem GoesOnward.of_mem_endsKept (honward : GoesOnward source run) (o : Nat) :
    ∀ e ∈ endsKept (Keeps run) o, Onward source o e := by
  rintro e ⟨m, ⟨attempt, hattempt, hm⟩, rfl⟩
  cases attempt with
  | error failure => cases hm
  | ok found => exact honward o _ hattempt found rfl _ (MatchSet.mem_stops.2 ⟨m, hm, rfl⟩)

variable (honward : GoesOnward source run)
include honward

/-- A round reaches what takes one occurrence more, although it only goes on from what the last
one reached first: what can be carried on to a new offset has not been reached before. -/
theorem round_keeps {least done : Nat} (hleast : least ≤ done) {known frontier : MatchSet}
    (hknown : ∀ m, m ∈ known.toList ↔ ∃ count ≤ done, Fewest (Keeps run) start least count m)
    (hfrontier : ∀ m, m ∈ frontier.toList ↔ Fewest (Keeps run) start least done m)
    {progress : Progress} (h : sweep run known frontier.toList .none = .ok progress) (m : Match) :
    m ∈ progress.found.toList ↔ Fewest (Keeps run) start least (done + 1) m := by
  have hstops : ∀ e, e ∈ known.stops ↔
      ∃ count, least ≤ count ∧ count ≤ done ∧ e ∈ reach (endsKept (Keeps run)) count {start} := by
    intro e
    rw [MatchSet.mem_stops]
    constructor
    · rintro ⟨m, hm, rfl⟩
      obtain ⟨count, hcount, hm⟩ := (hknown m).1 hm
      exact ⟨count, hm.1, hcount, hm.2.1.mem_reach⟩
    · rintro ⟨count, hle, hcount, he⟩
      obtain ⟨fewer, hfewer, m, hm, rfl⟩ := exists_fewest honward.of_mem_endsKept hle he
      exact ⟨m, (hknown m).2 ⟨fewer, hfewer.trans hcount, hm⟩, rfl⟩
  have hnew : m.stop ∉ known.stops ↔ ∀ fewer, least ≤ fewer → fewer < done + 1 →
      m.stop ∉ reach (endsKept (Keeps run)) fewer {start} := by
    rw [hstops]
    simp only [not_exists, not_and, Nat.lt_succ_iff]
  rw [sweep_keeps frontier.ordered h]
  simp only [Progress.none, MatchSet.toList_empty, MatchSet.stops_empty, List.not_mem_nil,
    not_false_eq_true, and_true, false_or]
  rw [Fewest, ← hnew]
  have hheads : m.stop ∉ known.stops →
      (Latest (· ∈ frontier.toList) (Keeps run) m ↔ Times (Keeps run) start (done + 1) m) := by
    intro hfresh
    refine Latest.congr_of_carried fun head he => ?_
    rw [hfrontier]
    refine ⟨fun hhead => hhead.2.1, fun hhead => ⟨hleast, hhead, fun fewer hle hlt hearlier => ?_⟩⟩
    refine hnew.1 hfresh (fewer + 1) (by omega) (by omega) ?_
    rw [reach_succ]
    exact ⟨head.stop, hearlier, he⟩
  constructor
  · rintro ⟨hlatest, hfresh⟩
    exact ⟨by omega, (hheads hfresh).1 hlatest, hfresh⟩
  · rintro ⟨-, htimes, hfresh⟩
    exact ⟨(hheads hfresh).2 htimes, hfresh⟩

/-- Rounds find what is reached for the first time in no more occurrences, and look for another
occurrence after all of that but what the last of them finds. -/
theorem repeatFurther_keeps {least done rounds : Nat} (hleast : least ≤ done)
    {known frontier found : MatchSet}
    (hknown : ∀ m, m ∈ known.toList ↔ ∃ count ≤ done, Fewest (Keeps run) start least count m)
    (hfrontier : ∀ m, m ∈ frontier.toList ↔ Fewest (Keeps run) start least done m)
    (hearlier : ∀ count < done, ∀ m, Fewest (Keeps run) start least count m → Concludes run m.stop)
    (h : repeatFurther run rounds known frontier.toList = .ok found) :
    (∀ m, m ∈ found.toList ↔ ∃ count ≤ done + rounds, Fewest (Keeps run) start least count m) ∧
      ∀ count < done + rounds, ∀ m, Fewest (Keeps run) start least count m →
        Concludes run m.stop := by
  induction rounds generalizing done known frontier with
  | zero =>
    cases h
    exact ⟨hknown, hearlier⟩
  | succ rounds ih =>
    rw [repeatFurther] at h
    obtain ⟨progress, hsweep, h⟩ := exists_of_bind_eq_ok h
    have hround := round_keeps honward hleast hknown hfrontier hsweep
    have hconcludes : ∀ count < done + 1, ∀ m, Fewest (Keeps run) start least count m →
        Concludes run m.stop := by
      intro count hcount m hm
      rcases Nat.lt_succ_iff_lt_or_eq.1 hcount with hlt | rfl
      · exact hearlier count hlt m hm
      · exact sweep_concludes hsweep m ((hfrontier m).2 hm)
    split at h
    case isTrue hempty =>
      cases h
      have hnone : ∀ m, ¬ Fewest (Keeps run) start least (done + 1) m := by
        intro m hm
        have hmem := (hround m).2 hm
        rw [List.isEmpty_iff.1 hempty] at hmem
        cases hmem
      -- With nothing new in one more occurrence there is nothing new in any more.
      have hmost : ∀ count m, Fewest (Keeps run) start least count m → count ≤ done :=
        fun _ _ hm => hm.le_of_none honward.of_mem_endsKept hleast hnone
      refine ⟨fun m => ?_, fun count _ m hm =>
        hconcludes count (by have := hmost count m hm; omega) m hm⟩
      rw [hknown]
      refine exists_congr fun count => and_congr_left fun hm => ?_
      have := hmost count m hm
      omega
    case isFalse =>
      have hunion : ∀ m, m ∈ (known.union progress.found).toList ↔
          ∃ count ≤ done + 1, Fewest (Keeps run) start least count m := by
        intro m
        rw [MatchSet.mem_union_iff, hknown, hround]
        constructor
        · rintro (⟨count, hcount, hm⟩ | ⟨hm, -⟩)
          · exact ⟨count, by omega, hm⟩
          · exact ⟨done + 1, Nat.le_refl _, hm⟩
        · rintro ⟨count, hcount, hm⟩
          rcases Nat.lt_or_eq_of_le hcount with hlt | rfl
          · exact Or.inl ⟨count, by omega, hm⟩
          · refine Or.inr ⟨hm, fun hstop => ?_⟩
            obtain ⟨m', hm', hsame⟩ := MatchSet.mem_stops.1 hstop
            obtain ⟨fewer, hfewer, hm'⟩ := (hknown m').1 hm'
            exact hm.2.2 fewer hm'.1 (by omega) (hsame ▸ hm'.2.1.mem_reach)
      have hrest := ih (by omega) hunion hround hconcludes h
      rwa [Nat.add_assoc, Nat.add_comm 1] at hrest

/-- A repetition keeps the match of fewest occurrences, and looks for another occurrence wherever
it may have one more. -/
theorem repeatBetween_keeps {parser : Parser} {bounds : Bounds} {attempt : Attempt}
    (h : repeatBetween run parser bounds source start = .ok attempt) :
    (∀ m, m ∈ Attempt.kept attempt ↔
      ∃ count, bounds.Allows count ∧ Fewest (Keeps run) start bounds.min count m) ∧
      ∀ count, (bounds.min ≤ count → bounds.Allows (count + 1)) →
        ∀ m, Times (Keeps run) start count m → Concludes run m.stop := by
  rw [repeatBetween] at h
  obtain ⟨attempt', hexactly, h⟩ := exists_of_bind_eq_ok h
  have hstart : ∀ m, m ∈ (MatchSet.single (.empty start)).toList ↔
      Times (Keeps run) start 0 m := fun m => List.mem_singleton
  obtain ⟨hkept, hconcludes⟩ := repeatExactly_keeps hstart hexactly
  simp only [Nat.zero_add] at hkept hconcludes
  cases attempt' with
  | error failure =>
    cases h
    have hnone : ∀ count, bounds.min ≤ count → ∀ m, ¬ Times (Keeps run) start count m := by
      intro count hcount m hm
      rw [← Nat.add_sub_cancel' hcount] at hm
      exact not_times_add (fun m hm => List.not_mem_nil ((hkept m).2 hm)) _ m hm
    refine ⟨fun m => ⟨fun hm => absurd hm List.not_mem_nil, ?_⟩, fun count _ m hm => ?_⟩
    · rintro ⟨count, -, hm⟩
      exact absurd hm.2.1 (hnone count hm.1 m)
    · by_cases hless : count < bounds.min
      · exact hconcludes count hless m hm
      · exact absurd hm (hnone count (Nat.le_of_not_lt hless) m)
  | ok known =>
    obtain ⟨further, hfurther, heq⟩ := exists_of_bind_eq_ok h
    cases heq
    have hleast : ∀ m, m ∈ known.toList ↔ Fewest (Keeps run) start bounds.min bounds.min m :=
      fun m => (hkept m).trans ⟨fun hm => ⟨Nat.le_refl _, hm, by omega⟩, fun hm => hm.2.1⟩
    have hknown : ∀ m, m ∈ known.toList ↔
        ∃ count ≤ bounds.min, Fewest (Keeps run) start bounds.min count m := by
      intro m
      rw [hleast]
      refine ⟨fun hm => ⟨_, Nat.le_refl _, hm⟩, ?_⟩
      rintro ⟨count, hcount, hm⟩
      obtain rfl := Nat.le_antisymm hcount hm.1
      exact hm
    have hrounds : ∀ count, bounds.min ≤ count → count ≤ bounds.min + source.size →
        (count ≤ bounds.min + growthRounds bounds source.size ↔ bounds.Allows count) := by
      intro count hmin hbytes
      rw [growthRounds, Bounds.Allows]
      cases bounds.max with
      | none =>
        simp only [reduceCtorEq, false_implies, implies_true, and_true]
        omega
      | some most =>
        simp only [Option.some.injEq, forall_eq']
        omega
    obtain ⟨hfound, hlooked⟩ := repeatFurther_keeps honward (Nat.le_refl _) hknown hleast
      (fun count hcount m hm => absurd hm.1 (by omega)) hfurther
    refine ⟨fun m => ?_, fun count hmore m hm => ?_⟩
    · refine (hfound m).trans (exists_congr fun count => and_congr_left fun hm => ?_)
      exact hrounds count hm.1 (hm.count_le honward.of_mem_endsKept)
    · by_cases hless : count < bounds.min
      · exact hconcludes count hless m hm
      · -- What is reached in so many occurrences may be reached in fewer.
        obtain ⟨fewer, hfewer, m', hm', hsame⟩ :=
          exists_fewest honward.of_mem_endsKept (Nat.le_of_not_lt hless) hm.mem_reach
        have hbytes := hm'.count_le honward.of_mem_endsKept
        have hallows := hmore (Nat.le_of_not_lt hless)
        refine hsame ▸ hlooked fewer ?_ m' hm'
        have hmin := hm'.1
        rw [growthRounds]
        rw [Bounds.Allows] at hallows
        cases hmax : bounds.max with
        | none =>
          dsimp only
          omega
        | some most =>
          have := hallows.2 most hmax
          dsimp only
          omega

end

def Foremost (keeps : Parser → Nat → Match → Prop) (branches : List Parser) (start : Nat)
    (m : Match) : Prop :=
  ∃ before branch after, branches = before ++ branch :: after ∧ keeps branch start m ∧
    ∀ other ∈ before, m.stop ∉ endsKept (keeps other) start

theorem foremost_cons {keeps : Parser → Nat → Match → Prop} {branch : Parser} {rest : List Parser}
    {start : Nat} {m : Match} :
    Foremost keeps (branch :: rest) start m ↔ keeps branch start m ∨
      m.stop ∉ endsKept (keeps branch) start ∧ Foremost keeps rest start m := by
  constructor
  · rintro ⟨before, chosen, after, heq, hm, hnone⟩
    cases before with
    | nil =>
      cases heq
      exact Or.inl hm
    | cons first before =>
      cases heq
      exact Or.inr ⟨hnone _ List.mem_cons_self, before, chosen, after, rfl, hm,
        fun other hother => hnone other (List.mem_cons_of_mem _ hother)⟩
  · rintro (hm | ⟨hfirst, before, chosen, after, rfl, hm, hnone⟩)
    · exact ⟨[], branch, rest, rfl, hm, nofun⟩
    · exact ⟨branch :: before, chosen, after, rfl, hm, List.forall_mem_cons.2 ⟨hfirst, hnone⟩⟩

theorem not_foremost_nil {keeps : Parser → Nat → Match → Prop} {start : Nat} {m : Match} :
    ¬ Foremost keeps [] start m := by
  rintro ⟨before, branch, after, heq, -⟩
  cases before <;> cases heq

/-- How a parser comes by a match, said in terms of what its parts keep. -/
def Parser.Selects (firstMatch : ModeId → Bool) (keeps : Parser → Nat → Match → Prop) :
    Parser → Nat → Match → Prop
  | .alternation mode branches, start, m =>
    firstMatch mode = false → Foremost keeps branches start m
  | .concatenation parts, start, m =>
    (parts = [] ∧ m = .empty start) ∨ ∃ before last, parts = before ++ [last] ∧
      Latest (keeps (.concatenation before) start) (keeps last) m
  | .optional _ element, start, m =>
    ∃ count ≤ 1, Fewest (keeps element) start 0 count m
  | .repetition _ bounds element, start, m =>
    ∃ count, bounds.Allows count ∧ Fewest (keeps element) start bounds.min count m
  | .literal _, _, _ | .rule _, _, _ | .prose _, _, _ => True

section
variable {firstMatch : ModeId → Bool} {call : RuleRef → Nat → Except GrammarError Attempt}
  {source : Source} {start : Nat}

abbrev Parser.Finding (firstMatch : ModeId → Bool)
    (call : RuleRef → Nat → Except GrammarError Attempt) (source : Source) (parser : Parser) :
    Nat → Match → Prop :=
  Keeps (parser.enumerate firstMatch call source)

theorem tryBranches_keeps {whole : Parser} {branches : List Parser} {progress : Progress}
    {attempt : Attempt}
    (h : Parser.tryBranches firstMatch call source whole false start branches progress =
      .ok attempt) :
    (∀ m, m ∈ Attempt.kept attempt ↔ m ∈ progress.found.toList ∨
      Foremost (Parser.Finding firstMatch call source) branches start m ∧
        m.stop ∉ progress.found.stops) ∧
      ∀ branch ∈ branches, Concludes (branch.enumerate firstMatch call source) start := by
  induction branches generalizing progress with
  | nil =>
    rw [Parser.tryBranches] at h
    cases h
    refine ⟨fun m => ?_, by rintro _ ⟨⟩⟩
    rw [Progress.kept_settle]
    simp [not_foremost_nil]
  | cons branch rest ih =>
    rw [Parser.tryBranches] at h
    obtain ⟨attempt', hattempt, h⟩ := exists_of_bind_eq_ok h
    cases attempt' with
    | error failure =>
      obtain ⟨hkept, hconcludes⟩ := ih h
      refine ⟨fun m => ?_, List.forall_mem_cons.2 ⟨⟨_, hattempt⟩, hconcludes⟩⟩
      rw [hkept, foremost_cons]
      simp [Parser.Finding, keeps_iff_of_eq_ok hattempt, mem_endsKept_iff_of_eq_ok hattempt,
        Attempt.kept]
    | ok matched =>
      dsimp only at h
      rw [if_neg Bool.false_ne_true] at h
      obtain ⟨hkept, hconcludes⟩ := ih h
      refine ⟨fun m => ?_, List.forall_mem_cons.2 ⟨⟨_, hattempt⟩, hconcludes⟩⟩
      rw [hkept, foremost_cons]
      simp only [MatchSet.mem_union_iff, MatchSet.mem_stops_union, Parser.Finding,
        keeps_iff_of_eq_ok hattempt, mem_endsKept_iff_of_eq_ok hattempt, Attempt.kept,
        ← MatchSet.mem_stops]
      have hstop : m ∈ matched.toList → m.stop ∈ matched.stops :=
        fun hm => MatchSet.mem_stops.2 ⟨m, hm, rfl⟩
      tauto

theorem followParts_append (whole : Parser) (before after : List Parser) (frontier : MatchSet) :
    Parser.followParts firstMatch call source whole start (before ++ after) frontier =
      (Parser.followParts firstMatch call source whole start before frontier >>= fun attempt =>
        match attempt with
        | .ok middle => Parser.followParts firstMatch call source whole start after middle
        | .error failure => pure (.error failure)) := by
  induction before generalizing frontier with
  | nil => rfl
  | cons part before ih =>
    rw [List.cons_append, Parser.followParts, Parser.followParts]
    cases sweep (fun offset => part.enumerate firstMatch call source offset) ∅ frontier.toList
        .none with
    | error error => rfl
    | ok progress =>
      rw [ok_bind, ok_bind]
      cases progress.settle whole start with
      | error failure => rfl
      | ok next => exact ih next

/-- Which parser the parts belong to shows in failures only. -/
theorem followParts_kept {whole : Parser} (whole' : Parser) {parts : List Parser}
    {frontier : MatchSet} {attempt : Attempt}
    (h : Parser.followParts firstMatch call source whole start parts frontier = .ok attempt) :
    ∃ attempt', Parser.followParts firstMatch call source whole' start parts frontier =
      .ok attempt' ∧ Attempt.kept attempt' = Attempt.kept attempt := by
  induction parts generalizing frontier with
  | nil => exact ⟨attempt, h, rfl⟩
  | cons part rest ih =>
    rw [Parser.followParts] at h ⊢
    obtain ⟨progress, hsweep, h⟩ := exists_of_bind_eq_ok h
    rw [hsweep, ok_bind]
    rw [Progress.settle] at h ⊢
    by_cases hempty : progress.found.isEmpty = true
    · rw [if_pos hempty] at h ⊢
      cases h
      exact ⟨_, rfl, rfl⟩
    · rw [if_neg hempty] at h ⊢
      exact ih h

/-- A sequence keeps what its last part carries on from the furthest offset, and looks for the
last part wherever those before it stop. -/
theorem concatenation_keeps {before : List Parser} {last : Parser} {attempt : Attempt}
    (h : (Parser.concatenation (before ++ [last])).enumerate firstMatch call source start =
      .ok attempt) :
    (∀ m, m ∈ Attempt.kept attempt ↔
      Latest (Parser.Finding firstMatch call source (.concatenation before) start)
        (Parser.Finding firstMatch call source last) m) ∧
      Concludes ((Parser.concatenation before).enumerate firstMatch call source) start ∧
      ∀ head, Parser.Finding firstMatch call source (.concatenation before) start head →
        Concludes (last.enumerate firstMatch call source) head.stop := by
  rw [Parser.enumerate, followParts_append] at h
  obtain ⟨first, hfirst, h⟩ := exists_of_bind_eq_ok h
  obtain ⟨first', hfirst', hsame⟩ := followParts_kept (.concatenation before) hfirst
  have hbefore : (Parser.concatenation before).enumerate firstMatch call source start =
      .ok first' := by
    rwa [Parser.enumerate]
  have hheads : ∀ head, head ∈ Attempt.kept first ↔
      Parser.Finding firstMatch call source (.concatenation before) start head := by
    intro head
    rw [Parser.Finding, keeps_iff_of_eq_ok hbefore, hsame]
  cases first with
  | error failure =>
    cases h
    refine ⟨fun m => ⟨nofun, fun hm => ?_⟩, ⟨_, hbefore⟩, fun head hhead => ?_⟩
    · obtain ⟨head, hhead, -⟩ := Latest.stop_mem hm
      exact absurd ((hheads head).2 hhead) List.not_mem_nil
    · exact absurd ((hheads head).2 hhead) List.not_mem_nil
  | ok middle =>
    dsimp only at h
    rw [Parser.followParts] at h
    obtain ⟨progress, hsweep, h⟩ := exists_of_bind_eq_ok h
    have hattempt : Attempt.kept attempt = progress.found.toList := by
      rw [← progress.kept_settle (.concatenation (before ++ [last])) start]
      cases hsettle : progress.settle (.concatenation (before ++ [last])) start with
      | error failure =>
        rw [hsettle] at h
        cases h
        rfl
      | ok next =>
        rw [hsettle] at h
        dsimp only at h
        rw [Parser.followParts] at h
        cases h
        rfl
    refine ⟨fun m => ?_, ⟨_, hbefore⟩, fun head hhead => ?_⟩
    · have hlatest : Latest (· ∈ middle.toList) (Parser.Finding firstMatch call source last) m ↔
          Latest (Parser.Finding firstMatch call source (.concatenation before) start)
            (Parser.Finding firstMatch call source last) m :=
        Latest.congr_of_carried fun head _ => hheads head
      rw [hattempt, sweep_keeps middle.ordered hsweep, ← hlatest]
      simp [Progress.none, Parser.Finding]
    · exact sweep_concludes hsweep head ((hheads head).2 hhead)

theorem Parser.Finding.selects (hcall : ∀ ref, GoesOnward source (call ref)) {parser : Parser}
    {m : Match} (h : Parser.Finding firstMatch call source parser start m) :
    parser.Selects firstMatch (Parser.Finding firstMatch call source) start m := by
  obtain ⟨attempt, hattempt, hm⟩ := h
  cases parser with
  | alternation mode branches =>
    intro hmode
    rw [Parser.enumerate, hmode] at hattempt
    have hforemost := ((tryBranches_keeps hattempt).1 m).1 hm
    simpa [Progress.none] using hforemost
  | concatenation parts =>
    rcases List.eq_nil_or_concat parts with rfl | ⟨before, last, rfl⟩
    · rw [Parser.enumerate, Parser.followParts] at hattempt
      cases hattempt
      exact Or.inl ⟨rfl, List.mem_singleton.1 hm⟩
    · rw [List.concat_eq_append] at hattempt ⊢
      exact Or.inr ⟨before, last, rfl, ((concatenation_keeps hattempt).1 m).1 hm⟩
  | optional cache element =>
    rw [Parser.enumerate_eq_explore, Parser.explore] at hattempt
    obtain ⟨count, hallows, hfewest⟩ :=
      ((repeatBetween_keeps (element.enumerate_onward hcall) hattempt).1 m).1 hm
    refine ⟨count, ?_, hfewest⟩
    rcases hallows.2 1 rfl with hle | rfl
    · exact hle
    · exact Nat.zero_le 1
  | repetition cache bounds element =>
    rw [Parser.enumerate_eq_explore, Parser.explore] at hattempt
    exact ((repeatBetween_keeps (element.enumerate_onward hcall) hattempt).1 m).1 hm
  | literal terminal => trivial
  | rule ref => trivial
  | prose text => trivial

end

/-- Selecting needs to know only what parts of the parser keep, and rows of them. -/
theorem Parser.Selects.congr {firstMatch : ModeId → Bool}
    {keeps keeps' : Parser → Nat → Match → Prop} {parser : Parser}
    (hpart : ∀ part ∈ parser.walk, keeps part = keeps' part)
    (hrow : ∀ parts, (∀ part ∈ parts, part ∈ parser.walk) →
      keeps (.concatenation parts) = keeps' (.concatenation parts))
    {start : Nat} {m : Match} (h : parser.Selects firstMatch keeps start m) :
    parser.Selects firstMatch keeps' start m := by
  cases parser with
  | alternation mode branches =>
    intro hmode
    obtain ⟨before, branch, after, rfl, hm, hnone⟩ := h hmode
    have hbranch : ∀ other ∈ before ++ branch :: after, keeps other = keeps' other :=
      fun other hother => hpart other (List.mem_cons_of_mem _
        (mem_walkAll.2 ⟨other, hother, other.self_mem_walk⟩))
    refine ⟨before, branch, after, rfl, hbranch branch (by simp) ▸ hm, fun other hother => ?_⟩
    rw [← hbranch other (by simp [hother])]
    exact hnone other hother
  | concatenation parts =>
    rcases h with h | ⟨before, last, rfl, hm⟩
    · exact Or.inl h
    · have hparts : ∀ part ∈ before ++ [last],
          part ∈ (Parser.concatenation (before ++ [last])).walk := fun part hmem =>
        List.mem_cons_of_mem _ (mem_walkAll.2 ⟨part, hmem, part.self_mem_walk⟩)
      rw [hrow before fun part hmem => hparts part (by simp [hmem]),
        hpart last (hparts last (by simp))] at hm
      exact Or.inr ⟨before, last, rfl, hm⟩
  | optional cache element | repetition cache bounds element =>
    rw [Selects, hpart element (List.mem_cons_of_mem _ element.self_mem_walk)] at h
    exact h
  | literal terminal | rule ref | prose text => trivial

abbrev Catalog.Reporting (catalog : Catalog) (caches : Caches) (source : Source)
    (parser : Parser) : Nat → Match → Prop :=
  Keeps fun start => ((catalog.matchesOf parser source start : Run Attempt).run caches).1

theorem keeps_congr {run run' : Nat → Except GrammarError Attempt}
    (h : ∀ start, Agree (run start) (run' start)) : Keeps run = Keeps run' := by
  funext start m
  refine propext (exists_congr fun attempt => and_congr_left fun _ => ?_)
  exact ⟨fun heq => (heq ▸ h start).symm.eq_of_ok, fun heq => (heq ▸ h start).eq_of_ok⟩

section
variable {catalog : Catalog} {scope : Scope} {caches : Caches}
variable (hclosed : scope.Closed catalog) (hapart : Apart scope.nodes scope.nodes)
  (hsound : Sound catalog scope.nodes caches)
include hclosed hapart hsound

theorem reporting_eq_finding {parser : Parser} (hparser : parser ∈ scope.nodes) (source : Source) :
    catalog.Reporting caches source parser = parser.Finding catalog.firstMatch
      (catalog.call (catalog.depthBound source) source) source :=
  keeps_congr fun start =>
    (matchesOf_agrees hclosed hapart hparser source start caches hsound).1

/-- A row of parsers of a scope has no cache of its own, so it is as if it were in the scope. -/
theorem reporting_row_eq_finding {parts : List Parser} (hparts : ∀ part ∈ parts, part ∈ scope.nodes)
    (source : Source) :
    catalog.Reporting caches source (.concatenation parts) = Parser.Finding catalog.firstMatch
      (catalog.call (catalog.depthBound source) source) source (.concatenation parts) := by
  let wider : Scope := ⟨scope.rules, insert (.concatenation parts) scope.nodes⟩
  have hcached : ∀ node ∈ wider.nodes, ∀ id, node.cache? = some id → node ∈ scope.nodes := by
    rintro node (rfl | hnode) id hid
    · cases hid
    · exact hnode
  have hwider : wider.Closed catalog :=
    { inner := by
        rintro node (rfl | hnode) part hpart
        · rcases List.mem_cons.1 hpart with rfl | hpart
          · exact Or.inl rfl
          · obtain ⟨whole, hwhole, hpart⟩ := Parser.mem_walkAll.1 hpart
            exact Or.inr (hclosed.inner whole (hparts whole hwhole) part hpart)
        · exact Or.inr (hclosed.inner node hnode part hpart)
      target := by
        rintro ref (href | href)
        · cases href
        · exact hclosed.target ref href
      definition := fun rule hrule slot definition hbound =>
        Or.inr (hclosed.definition rule hrule slot definition hbound)
      exclusion := hclosed.exclusion }
  exact reporting_eq_finding hwider
    (fun a ha b hb id hid hid' => hapart a (hcached a ha id hid) b (hcached b hb id hid') id hid hid')
    (fun node hnode id hid => hsound node (hcached node hnode id hid) id hid) (Or.inl rfl) source

theorem reporting_selects {parser : Parser} (hparser : parser ∈ scope.nodes) {source : Source}
    {start : Nat} {m : Match} (h : catalog.Reporting caches source parser start m) :
    parser.Selects catalog.firstMatch (catalog.Reporting caches source) start m := by
  have hinner : ∀ part ∈ parser.walk, part ∈ scope.nodes := hclosed.inner parser hparser
  rw [reporting_eq_finding hclosed hapart hsound hparser] at h
  refine (h.selects (catalog.call_onward _ source)).congr
    (fun part hpart => (reporting_eq_finding hclosed hapart hsound (hinner part hpart) source).symm)
    (fun parts hparts => (reporting_row_eq_finding hclosed hapart hsound
      (fun part hpart => hinner part (hparts part hpart)) source).symm)

end

/-- In whatever state a session is, as long as no cache on the way is stale: which match a parser
keeps of those that stop at one offset follows by one rule from what its parts keep. -/
theorem Session.Reached.keeps_selected {session : Session} (h : session.Reached) {bench : Bench}
    (hsteps : session.bench.Steps bench) {parser : Parser}
    (huses : bench.store.Uses {held | .parser held ∈ bench.held} parser) {caches : Caches}
    (hsound : Sound bench.store.catalog (bench.store.catalog.scopeOf parser).nodes caches)
    {source : Source} {start : Nat} {m : Match}
    (hm : bench.store.catalog.Reporting caches source parser start m) :
    parser.Selects bench.store.catalog.firstMatch
      (bench.store.catalog.Reporting caches source) start m :=
  reporting_selects (bench.store.catalog.closed_scopeOf parser)
    ((hsteps.orderly h.orderly).sane.apart_scopeOf huses) hsound (Or.inl parser.self_mem_walk) hm

def overlapping (first second : ModeId) : Parser :=
  .concatenation
    [.alternation first [.literal (.text "a"), .literal (.text "aa")],
      .alternation second [.literal (.text "ab"), .literal (.text "b")]]

def Session.keepsLonger (session : Session) (parser : Parser) : Bool :=
  match ((session.store.catalog.matchesOf parser (.ofString "aab") 0 : Run Attempt).run
      session.store.caches).1 with
  | .ok (.ok found) => found.toList.contains ⟨[.literal "aa" 0, .literal "b" 2], 3⟩
  | _ => false

def Session.overlaps (session : Session) : Bool :=
  session.store.caches.all (·.isEmpty) && session.store.catalog.modes.all (!·) &&
    match session.store.catalog.bound ⟨.core, 16⟩ with
    | .ok (_, .concatenation [.alternation first [.literal a, .literal aa],
        .alternation second [.literal ab, .literal b]]) =>
      decide (a = .text "a" ∧ aa = .text "aa" ∧ ab = .text "ab" ∧ b = .text "b") &&
        session.keepsLonger (overlapping first second)
    | _ => false

/-- The longer head is kept, although the other one comes from an earlier branch. -/
theorem Session.exists_overlapping : ∃ (session : Session) (first second : ModeId),
    session.Reached ∧
      session.store.Uses {held | .parser held ∈ session.bench.held} (overlapping first second) ∧
      (∀ mode, session.store.catalog.firstMatch mode = false) ∧
      (∀ nodes, Sound session.store.catalog nodes session.store.caches) ∧
      session.store.catalog.Reporting session.store.caches (.ofString "aab")
        (overlapping first second) 0 ⟨[.literal "aa" 0, .literal "b" 2], 3⟩ := by
  have hcheck : (Session.start.carryOut [.define "core" "a" (.concatenation
      [.alternation false [.literal (.text "a"), .literal (.text "aa")],
        .alternation false [.literal (.text "ab"), .literal (.text "b")]]) none]).any
          Session.overlaps = true := by
    decide +kernel
  obtain ⟨session, hcarry, hcheck⟩ := (Option.any_eq_true _ _).1 hcheck
  have hreached : session.Reached := Session.Reached.start.carryOut hcarry
  rw [Session.overlaps, Bool.and_eq_true, Bool.and_eq_true] at hcheck
  obtain ⟨⟨hempty, hmodes⟩, hcheck⟩ := hcheck
  split at hcheck
  case h_2 => cases hcheck
  case h_1 slot first a aa second ab b hbound =>
    obtain ⟨hliterals, hreports⟩ := (Bool.and_eq_true _ _).mp hcheck
    obtain ⟨rfl, rfl, rfl, rfl⟩ := of_decide_eq_true hliterals
    refine ⟨session, first, second, hreached, Store.uses_definition hbound _, fun mode => ?_,
      fun nodes => .of_all_isEmpty hempty, ?_⟩
    · rw [Catalog.firstMatch]
      cases hmode : session.store.catalog.modes[mode.index]? with
      | none => rfl
      | some firstMatch =>
        simpa using Array.all_eq_true_iff_forall_mem.1 hmodes _ (Array.mem_of_getElem? hmode)
    · rw [Session.keepsLonger] at hreports
      split at hreports
      case h_1 found hfound => exact ⟨.ok found, hfound, List.contains_iff_mem.1 hreports⟩
      case h_2 => cases hreports

theorem Session.Reached.keeps_selected_longer_head :
    ∃ (session : Session) (parser : Parser) (m : Match), session.Reached ∧
      session.store.Uses {held | .parser held ∈ session.bench.held} parser ∧
      Sound session.store.catalog (session.store.catalog.scopeOf parser).nodes
        session.store.caches ∧
      session.store.catalog.Reporting session.store.caches (.ofString "aab") parser 0 m ∧
      parser.Selects session.store.catalog.firstMatch
        (session.store.catalog.Reporting session.store.caches (.ofString "aab")) 0 m := by
  obtain ⟨session, first, second, hreached, huses, -, hsound, hm⟩ := Session.exists_overlapping
  exact ⟨session, _, _, hreached, huses, hsound _, hm,
    hreached.keeps_selected .refl huses (hsound _) hm⟩

end Metasyntax
