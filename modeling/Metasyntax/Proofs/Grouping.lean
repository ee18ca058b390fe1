import Metasyntax.Proofs.Selection

/-!
# Alternatives in groups

An alternation may be one of the alternatives of another. If both have one mode, they
answer as one alternation that tries all alternatives in a row: the first that matches is
the same, and so are the matches of all of them. Only the reports of failures tell the two
apart.
-/

set_option autoImplicit false

namespace Metasyntax

namespace MatchSet

theorem ext_mem {a b : MatchSet} (h : ∀ m, m ∈ a.toList ↔ m ∈ b.toList) : a = b := by
  have hnodup (set : MatchSet) : set.toList.Nodup :=
    set.ordered.imp fun hlt heq => Nat.ne_of_gt hlt (congrArg Match.stop heq)
  refine ext (((List.perm_ext_iff_of_nodup (hnodup a) (hnodup b)).2 h).eq_of_pairwise ?_ a.ordered
    b.ordered)
  exact fun _ _ _ _ hlt hlt' => absurd hlt (Nat.lt_asymm hlt')

theorem empty_union (set : MatchSet) : union ∅ set = set :=
  ext_mem fun m => by simp [mem_union_iff]

theorem union_empty (set : MatchSet) : set.union ∅ = set := rfl

theorem union_assoc (a b c : MatchSet) : (a.union b).union c = a.union (b.union c) := by
  refine ext_mem fun m => ?_
  simp only [mem_union_iff, mem_stops_union]
  tauto

def some? (set : MatchSet) : Option MatchSet := if set.isEmpty then none else some set

theorem some?_getD (set : MatchSet) : set.some?.getD ∅ = set := by
  rw [some?]
  split
  case isTrue h => exact ext (List.isEmpty_iff.1 h).symm
  case isFalse => rfl

end MatchSet

theorem Progress.toOption_settle (progress : Progress) (parser : Parser) (start : Nat) :
    (progress.settle parser start).toOption = progress.found.some? := by
  rw [settle, MatchSet.some?]
  split <;> rfl

namespace Parser

section
variable {m : Type → Type} [Monad m] [Remembering m]
variable (firstMatch : ModeId → Bool) (call : RuleRef → Nat → m Attempt) (source : Source)
  (start : Nat)

def firstOf : List Parser → m (Option MatchSet)
  | [] => pure none
  | branch :: rest => do
    match (← branch.enumerate firstMatch call source start).toOption with
    | some found => pure (some found)
    | none => firstOf rest

def allOf : List Parser → MatchSet → m MatchSet
  | [], found => pure found
  | branch :: rest, found => do
    let more := (← branch.enumerate firstMatch call source start).toOption.getD ∅
    allOf rest (found.union more)

def gathered (onlyFirst : Bool) (branches : List Parser) : m (Option MatchSet) :=
  if onlyFirst then firstOf firstMatch call source start branches
  else MatchSet.some? <$> allOf firstMatch call source start branches ∅

variable {firstMatch call source start}
variable [LawfulMonad m]

theorem toOption_tryBranches_first (whole : Parser) (branches : List Parser) (progress : Progress)
    (hfound : progress.found = ∅) :
    Except.toOption <$>
        tryBranches firstMatch call source whole true start branches progress =
      firstOf firstMatch call source start branches := by
  induction branches generalizing progress with
  | nil =>
    rw [tryBranches, firstOf, map_pure, Progress.toOption_settle, hfound]
    rfl
  | cons branch rest ih =>
    rw [tryBranches, firstOf, map_bind]
    refine bind_congr fun attempt => ?_
    cases attempt with
    | ok found => exact map_pure _ _
    | error failure => exact ih _ hfound

theorem toOption_tryBranches_all (whole : Parser) (branches : List Parser) (progress : Progress) :
    Except.toOption <$>
        tryBranches firstMatch call source whole false start branches progress =
      MatchSet.some? <$> allOf firstMatch call source start branches progress.found := by
  induction branches generalizing progress with
  | nil => rw [tryBranches, allOf, map_pure, map_pure, Progress.toOption_settle]
  | cons branch rest ih =>
    rw [tryBranches, allOf, map_bind, map_bind]
    refine bind_congr fun attempt => ?_
    cases attempt with
    | ok found => exact ih _
    | error failure => exact ih _

theorem toOption_tryBranches (whole : Parser) (onlyFirst : Bool) (branches : List Parser) :
    Except.toOption <$>
        tryBranches firstMatch call source whole onlyFirst start branches .none =
      gathered firstMatch call source start onlyFirst branches := by
  cases onlyFirst with
  | true => exact toOption_tryBranches_first whole branches .none rfl
  | false => exact toOption_tryBranches_all whole branches .none

theorem toOption_alternation (mode : ModeId) (branches : List Parser) :
    Except.toOption <$>
        (Parser.alternation mode branches).enumerate firstMatch call source start =
      gathered firstMatch call source start (firstMatch mode) branches := by
  rw [enumerate, toOption_tryBranches]

theorem firstOf_append (branches others : List Parser) :
    firstOf firstMatch call source start (branches ++ others) = (do
      match ← firstOf firstMatch call source start branches with
      | some found => pure (some found)
      | none => firstOf firstMatch call source start others) := by
  induction branches with
  | nil => rw [firstOf, pure_bind]; rfl
  | cons branch rest ih =>
    rw [List.cons_append, firstOf, firstOf, bind_assoc]
    refine bind_congr fun attempt => ?_
    cases attempt with
    | ok found =>
      simp only [Except.toOption]
      rw [pure_bind]
    | error failure => exact ih

theorem allOf_append (branches others : List Parser) (found : MatchSet) :
    allOf firstMatch call source start (branches ++ others) found =
      allOf firstMatch call source start branches found >>=
        allOf firstMatch call source start others := by
  induction branches generalizing found with
  | nil => rw [allOf, pure_bind]; rfl
  | cons branch rest ih =>
    rw [List.cons_append, allOf, allOf, bind_assoc]
    exact bind_congr fun attempt => ih _

/-- What was found before is not looked at until the end. -/
theorem allOf_eq_map (branches : List Parser) (found : MatchSet) :
    allOf firstMatch call source start branches found =
      found.union <$> allOf firstMatch call source start branches ∅ := by
  induction branches generalizing found with
  | nil => rw [allOf, allOf, map_pure, MatchSet.union_empty]
  | cons branch rest ih =>
    rw [allOf, allOf, map_bind]
    refine bind_congr fun attempt => ?_
    rw [ih, ih (MatchSet.union ∅ _), Functor.map_map, MatchSet.empty_union]
    exact congrArg (· <$> _) (funext fun more => MatchSet.union_assoc ..)

theorem firstOf_singleton (parser : Parser) :
    firstOf firstMatch call source start [parser] =
      Except.toOption <$> parser.enumerate firstMatch call source start := by
  rw [firstOf, ← bind_pure_comp]
  refine bind_congr fun attempt => ?_
  cases attempt <;> rfl

theorem allOf_singleton (parser : Parser) (found : MatchSet) :
    allOf firstMatch call source start [parser] found =
      (fun more : Option MatchSet => found.union (more.getD ∅)) <$>
        (Except.toOption <$> parser.enumerate firstMatch call source start) := by
  rw [Functor.map_map, allOf, ← bind_pure_comp]
  rfl

theorem firstOf_alternation {mode : ModeId} (hmode : firstMatch mode = true)
    (branches : List Parser) :
    firstOf firstMatch call source start [.alternation mode branches] =
      firstOf firstMatch call source start branches := by
  rw [firstOf_singleton, toOption_alternation, hmode]
  rfl

theorem allOf_alternation {mode : ModeId} (hmode : firstMatch mode = false)
    (branches : List Parser) (found : MatchSet) :
    allOf firstMatch call source start [.alternation mode branches] found =
      allOf firstMatch call source start branches found := by
  rw [allOf_singleton, toOption_alternation, hmode, allOf_eq_map branches found]
  change _ <$> (MatchSet.some? <$> _) = _
  rw [Functor.map_map]
  exact congrArg (· <$> _) (funext fun more => congrArg found.union more.some?_getD)

end

inductive Gathers (stands : ModeId → Prop) : List Parser → Parser → Prop
  | one (parser : Parser) : Gathers stands [parser] parser
  | all {mode : ModeId} {branches : List Parser} (hmode : stands mode)
    (hmany : 2 ≤ branches.length) : Gathers stands branches (.alternation mode branches)
  | both {mode : ModeId} {branches others : List Parser} {parser other : Parser}
    (hmode : stands mode) (hbranches : Gathers stands branches parser)
    (hothers : Gathers stands others other) :
    Gathers stands (branches ++ others) (.alternation mode [parser, other])

namespace Gathers

variable {stands stands' : ModeId → Prop} {branches : List Parser} {parser : Parser}

theorem mono (h : Gathers stands branches parser) (hmodes : ∀ mode, stands mode → stands' mode) :
    Gathers stands' branches parser := by
  induction h with
  | one parser => exact .one parser
  | all hmode hmany => exact .all (hmodes _ hmode) hmany
  | both hmode _ _ hbranches hothers => exact .both (hmodes _ hmode) hbranches hothers

theorem length_pos (h : Gathers stands branches parser) : 0 < branches.length := by
  induction h with
  | one parser => exact Nat.one_pos
  | all _ hmany => exact Nat.lt_of_lt_of_le Nat.two_pos hmany
  | both _ _ _ hbranches => exact List.length_append ▸ Nat.add_pos_left hbranches _

theorem eq_singleton (h : Gathers stands branches parser) (hone : branches.length = 1) :
    branches = [parser] := by
  cases h with
  | one parser => rfl
  | all _ hmany => omega
  | both _ hbranches hothers =>
    have := hbranches.length_pos
    have := hothers.length_pos
    rw [List.length_append] at hone
    omega

/-- The parts of the alternatives are parts of what gathers them. -/
theorem mem_walk (h : Gathers stands branches parser) {part : Parser}
    (hpart : part ∈ walkAll branches) : part ∈ parser.walk := by
  induction h with
  | one parser => simpa [walkAll] using hpart
  | all _ _ => exact List.mem_cons_of_mem _ hpart
  | both _ _ _ hbranches hothers =>
    obtain ⟨branch, hbranch, hpart⟩ := mem_walkAll.1 hpart
    rw [walk, walkAll, walkAll, walkAll, List.append_nil, List.mem_cons, List.mem_append]
    rcases List.mem_append.1 hbranch with hbranch | hbranch
    · exact Or.inr (Or.inl (hbranches (mem_walkAll.2 ⟨branch, hbranch, hpart⟩)))
    · exact Or.inr (Or.inr (hothers (mem_walkAll.2 ⟨branch, hbranch, hpart⟩)))

section
variable {m : Type → Type} [Monad m] [LawfulMonad m] [Remembering m]
  {firstMatch : ModeId → Bool} {call : RuleRef → Nat → m Attempt} {source : Source} {start : Nat}

theorem firstOf_eq (h : Gathers (firstMatch · = true) branches parser) :
    firstOf firstMatch call source start [parser] =
      firstOf firstMatch call source start branches := by
  induction h with
  | one parser => rfl
  | all hmode _ => exact firstOf_alternation hmode _
  | both hmode _ _ hbranches hothers =>
    rw [firstOf_alternation hmode, ← List.singleton_append, firstOf_append, firstOf_append,
      hbranches, hothers]

theorem allOf_eq (h : Gathers (firstMatch · = false) branches parser) (found : MatchSet) :
    allOf firstMatch call source start [parser] found =
      allOf firstMatch call source start branches found := by
  induction h generalizing found with
  | one parser => rfl
  | all hmode _ => exact allOf_alternation hmode _ found
  | both hmode _ _ hbranches hothers =>
    rw [allOf_alternation hmode, ← List.singleton_append, allOf_append, allOf_append, hbranches]
    exact bind_congr fun between => hothers between

/-- What gathers several alternatives finds what an alternation of them finds. -/
theorem toOption_enumerate {onlyFirst : Bool}
    (h : Gathers (firstMatch · = onlyFirst) branches parser) (hmany : 2 ≤ branches.length)
    (whole : Parser) :
    Except.toOption <$> parser.enumerate firstMatch call source start =
      Except.toOption <$>
        tryBranches firstMatch call source whole onlyFirst start branches .none := by
  rw [toOption_tryBranches]
  cases h with
  | one parser => exact absurd hmany (by simp)
  | all hmode _ => rw [toOption_alternation, hmode]
  | @both mode branches others parser other hmode hbranches hothers =>
    have hgroup := Gathers.both hmode hbranches hothers
    cases onlyFirst with
    | true => rw [← firstOf_singleton, hgroup.firstOf_eq]; rfl
    | false =>
      rw [toOption_alternation, hmode]
      refine congrArg (MatchSet.some? <$> ·) ?_
      rw [← allOf_alternation hmode, hgroup.allOf_eq]

end

end Gathers

end Parser

end Metasyntax
