import Metasyntax.Proofs.Selection

/-!
# Which derivation a match shows

A text may be derived from a parser in several ways. The match that is kept shows one of them
that comes before all others with the same end: where two choose different branches, the one
that chooses the earlier branch, where a row is divided differently, the one whose last
differing division lies later, and where a repetition has more occurrences in one, the other.
So the branches chosen decide only between derivations that divide the text alike.
-/

set_option autoImplicit false

namespace Metasyntax

/-- How a match is derived: the branches chosen, where rows are divided, and how often
repetitions occur. -/
inductive Derivation where
  | leaf
  | branch (index : Nat) (inner : Derivation)
  | nothing
  | next (before : Derivation) (split : Nat) (last : Derivation)
  | repeated (count : Nat) (row : Derivation)
  | named (inner : Derivation)

namespace Derivation

def choices : Derivation → List Nat
  | .leaf | .nothing => []
  | .branch index inner => index :: inner.choices
  | .next before _ last => before.choices ++ last.choices
  | .repeated _ row => row.choices
  | .named inner => inner.choices

/-- A derivation comes before another one, or is not told from it. -/
def Precedes : Derivation → Derivation → Prop
  | .leaf, .leaf | .nothing, .nothing => True
  | .branch index inner, .branch index' inner' =>
    index < index' ∨ index = index' ∧ inner.Precedes inner'
  | .next before split last, .next before' split' last' =>
    split' < split ∨ split = split' ∧ before.Precedes before' ∧ last.Precedes last'
  | .repeated count row, .repeated count' row' =>
    count < count' ∨ count = count' ∧ row.Precedes row'
  | .named inner, .named inner' => inner.Precedes inner'
  | _, _ => False

/-- Two derivations divide the text alike as far as they choose the same branches. -/
def DividesAlike : Derivation → Derivation → Prop
  | .leaf, .leaf | .nothing, .nothing => True
  | .branch index inner, .branch index' inner' => index = index' → inner.DividesAlike inner'
  | .next before split last, .next before' split' last' =>
    split = split' ∧ before.DividesAlike before' ∧ last.DividesAlike last'
  | .repeated count row, .repeated count' row' => count = count' ∧ row.DividesAlike row'
  | .named inner, .named inner' => inner.DividesAlike inner'
  | _, _ => False

end Derivation

/-- Where two rows of choices first differ, the first one has the earlier branch. -/
def Earlier : List Nat → List Nat → Prop
  | i :: is, j :: js => i < j ∨ i = j ∧ Earlier is js
  | _, _ => False

theorem Earlier.append {is js : List Nat} (h : Earlier is js) (is' js' : List Nat) :
    Earlier (is ++ is') (js ++ js') := by
  induction is generalizing js with
  | nil => exact h.elim
  | cons i is ih =>
    cases js with
    | nil => exact h.elim
    | cons j js =>
      rcases h with hlt | ⟨rfl, h⟩
      · exact Or.inl hlt
      · exact Or.inr ⟨rfl, ih h⟩

theorem Earlier.append_left (common : List Nat) {is js : List Nat} (h : Earlier is js) :
    Earlier (common ++ is) (common ++ js) := by
  induction common with
  | nil => exact h
  | cons i common ih => exact Or.inr ⟨rfl, ih⟩

/-- Of derivations that divide the text alike, the one that comes before the other chooses the
earlier branch where they first choose different ones. -/
theorem Derivation.Precedes.choices {d d' : Derivation} (h : d.Precedes d')
    (halike : d.DividesAlike d') : d.choices = d'.choices ∨ Earlier d.choices d'.choices := by
  induction d generalizing d' with
  | leaf | nothing =>
    cases d' with
    | leaf | nothing => exact Or.inl rfl
    | branch | next | repeated | named => exact h.elim
  | branch index inner ih =>
    cases d' with
    | branch index' inner' =>
      rcases h with hlt | ⟨rfl, h⟩
      · exact Or.inr (Or.inl hlt)
      · rcases ih h (halike rfl) with hsame | hearlier
        · exact Or.inl (congrArg (index :: ·) hsame)
        · exact Or.inr (Or.inr ⟨rfl, hearlier⟩)
    | leaf | nothing | next | repeated | named => exact h.elim
  | next before split last ihBefore ihLast =>
    cases d' with
    | next before' split' last' =>
      obtain ⟨rfl, hbefore, hlast⟩ := halike
      rcases h with hlt | ⟨-, h, h'⟩
      · exact absurd hlt (Nat.lt_irrefl _)
      · rw [Derivation.choices, Derivation.choices]
        rcases ihBefore h hbefore with hsame | hearlier
        · rw [hsame]
          exact (ihLast h' hlast).imp (congrArg _) (.append_left _)
        · exact Or.inr (hearlier.append _ _)
    | leaf | branch | nothing | repeated | named => exact h.elim
  | repeated count row ih =>
    cases d' with
    | repeated count' row' =>
      obtain ⟨rfl, halike⟩ := halike
      rcases h with hlt | ⟨-, h⟩
      · exact absurd hlt (Nat.lt_irrefl _)
      · exact @ih row' h halike
    | leaf | branch | nothing | next | named => exact h.elim
  | named inner ih =>
    cases d' with
    | named inner' => exact @ih inner' h halike
    | leaf | branch | nothing | next | repeated => exact h.elim

namespace Catalog

def Takes (catalog : Catalog) (rule : RuleId) (text : String) : Prop :=
  ∃ attempt, catalog.ruleMatches rule (.ofString text) 0 =
    (.ok attempt : Except GrammarError Attempt) ∧ attempt.takesAll (.ofString text) = true

def Admits (catalog : Catalog) (slot : Slot) (source : Source) (start stop : Nat) : Prop :=
  ∀ exclusion excluded, slot.exclusion = some exclusion →
    catalog.resolve exclusion = .ok excluded →
      ¬ catalog.Takes excluded ((source.slice start stop).getD "")

/-- The derivations of matches from parsers. A repetition is a row of copies of its element. -/
inductive Fits (catalog : Catalog) (source : Source) :
    Parser → Nat → Derivation → Match → Prop
  | literal {terminal : Literal} {start : Nat} {m : Match} :
    terminal.matchAt source start = some m → Fits catalog source (.literal terminal) start .leaf m
  | alternation {mode : ModeId} {branches : List Parser} {index : Nat} {branch : Parser}
      {start : Nat} {inner : Derivation} {m : Match} : branches[index]? = some branch →
    Fits catalog source branch start inner m →
      Fits catalog source (.alternation mode branches) start (.branch index inner) m
  | nothing {start : Nat} :
    Fits catalog source (.concatenation []) start .nothing (.empty start)
  | next {parts rest : List Parser} {part : Parser} {start : Nat} {before last : Derivation}
      {head tail : Match} : parts = rest ++ [part] →
    Fits catalog source (.concatenation rest) start before head →
    Fits catalog source part head.stop last tail →
      Fits catalog source (.concatenation parts) start (.next before head.stop last)
        (head.followedBy tail)
  | optional {cache : CacheId} {element : Parser} {count start : Nat} {row : Derivation}
      {m : Match} : Bounds.atMostOnce.Allows count →
    Fits catalog source (.concatenation (.replicate count element)) start row m →
      Fits catalog source (.optional cache element) start (.repeated count row) m
  | repetition {cache : CacheId} {bounds : Bounds} {element : Parser} {count start : Nat}
      {row : Derivation} {m : Match} : bounds.Allows count →
    Fits catalog source (.concatenation (.replicate count element)) start row m →
      Fits catalog source (.repetition cache bounds element) start (.repeated count row) m
  | rule {ref : RuleRef} {rule : RuleId} {slot : Slot} {definition : Parser} {start : Nat}
      {inner : Derivation} {m : Match} : catalog.resolve ref = .ok rule →
    catalog.bound rule = .ok (slot, definition) → catalog.Admits slot source start m.stop →
    Fits catalog source definition start inner m →
      Fits catalog source (.rule ref) start (.named inner) ⟨[.rule slot.name m.nodes], m.stop⟩

end Catalog

structure Prefers (keeps : Match → Prop) (fits : Derivation → Match → Prop) : Prop where
  best (m : Match) : keeps m → ∃ d, fits d m ∧
    ∀ other m', fits other m' → m'.stop = m.stop → d.Precedes other
  complete (d : Derivation) (m : Match) : fits d m → ∃ m', keeps m' ∧ m'.stop = m.stop

def Joins (fits : Derivation → Match → Prop) (fits' : Nat → Derivation → Match → Prop)
    (d : Derivation) (m : Match) : Prop :=
  ∃ before last head tail, fits before head ∧ fits' head.stop last tail ∧
    d = .next before head.stop last ∧ m = head.followedBy tail

theorem Prefers.latest {heads : Match → Prop} {tails : Nat → Match → Prop}
    {fits : Derivation → Match → Prop} {fits' : Nat → Derivation → Match → Prop}
    (hheads : Prefers heads fits)
    (htails : ∀ head, heads head → Prefers (tails head.stop) (fits' head.stop)) {limit : Nat}
    (hlimit : ∀ head, heads head → head.stop ≤ limit) :
    Prefers (Latest heads tails) (Joins fits fits') where
  best := by
    rintro m ⟨head, tail, hhead, htail, rfl, hlast⟩
    obtain ⟨before, hbefore, hbeforeBest⟩ := hheads.best head hhead
    obtain ⟨last, hlastFits, hlastBest⟩ := (htails head hhead).best tail htail
    refine ⟨.next before head.stop last, ⟨before, last, head, tail, hbefore, hlastFits, rfl, rfl⟩, ?_⟩
    rintro _ _ ⟨before', last', head', tail', hbefore', hlast', rfl, rfl⟩ hstop
    obtain ⟨reached, hreached, hsame⟩ := hheads.complete before' head' hbefore'
    rw [← hsame] at hlast'
    obtain ⟨carried, hcarried, hend⟩ := (htails reached hreached).complete last' tail' hlast'
    have hle := hlast reached hreached ⟨carried, hcarried, hend.trans hstop⟩
    rw [hsame] at hle
    rcases Nat.lt_or_eq_of_le hle with hlt | heq
    · exact Or.inl hlt
    · rw [hsame, heq] at hlast'
      exact Or.inr ⟨heq.symm, hbeforeBest before' head' hbefore' heq,
        hlastBest last' tail' hlast' hstop⟩
  complete := by
    rintro _ _ ⟨before, last, head, tail, hbefore, hlast, rfl, rfl⟩
    obtain ⟨reached, hreached, hsame⟩ := hheads.complete before head hbefore
    rw [← hsame] at hlast
    obtain ⟨carried, hcarried, hend⟩ := (htails reached hreached).complete last tail hlast
    exact exists_latest hlimit hreached ⟨carried, hcarried, hend⟩

theorem Prefers.congr {keeps keeps' : Match → Prop} {fits fits' : Derivation → Match → Prop}
    (h : Prefers keeps fits) (hkeeps : ∀ m, keeps' m ↔ keeps m)
    (hfits : ∀ d m, fits' d m ↔ fits d m) : Prefers keeps' fits' := by
  obtain rfl : keeps' = keeps := funext fun m => propext (hkeeps m)
  obtain rfl : fits' = fits := funext fun d => funext fun m => propext (hfits d m)
  exact h

section
variable {catalog : Catalog} {source : Source}

theorem fits_nothing_iff {start : Nat} {d : Derivation} {m : Match} :
    catalog.Fits source (.concatenation []) start d m ↔ d = .nothing ∧ m = .empty start := by
  constructor
  · intro h
    cases h with
    | nothing => exact ⟨rfl, rfl⟩
    | next hparts => simp at hparts
  · rintro ⟨rfl, rfl⟩
    exact .nothing

theorem fits_next_iff {parts : List Parser} {part : Parser} {start : Nat} {d : Derivation}
    {m : Match} : catalog.Fits source (.concatenation (parts ++ [part])) start d m ↔
      Joins (catalog.Fits source (.concatenation parts) start) (catalog.Fits source part) d m := by
  constructor
  · intro h
    generalize hwhole : parts ++ [part] = whole at h
    cases h with
    | nothing => simp at hwhole
    | next hparts hbefore hlast =>
      obtain ⟨rfl, hpart⟩ := List.append_inj' (hwhole.trans hparts) rfl
      cases hpart
      exact ⟨_, _, _, _, hbefore, hlast, rfl, rfl⟩
  · rintro ⟨before, last, head, tail, hbefore, hlast, rfl, rfl⟩
    exact .next rfl hbefore hlast

theorem fits_alternation_iff {mode : ModeId} {branches : List Parser} {start : Nat} {d : Derivation}
    {m : Match} : catalog.Fits source (.alternation mode branches) start d m ↔
      ∃ index branch inner, branches[index]? = some branch ∧
        catalog.Fits source branch start inner m ∧ d = .branch index inner := by
  constructor
  · intro h
    cases h with
    | alternation hbranch hinner => exact ⟨_, _, _, hbranch, hinner, rfl⟩
  · rintro ⟨index, branch, inner, hbranch, hinner, rfl⟩
    exact .alternation hbranch hinner

theorem fits_optional_iff {cache : CacheId} {element : Parser} {start : Nat} {d : Derivation}
    {m : Match} : catalog.Fits source (.optional cache element) start d m ↔
      ∃ count row, Bounds.atMostOnce.Allows count ∧ d = .repeated count row ∧
        catalog.Fits source (.concatenation (.replicate count element)) start row m := by
  constructor
  · intro h
    cases h with
    | optional hallows hrow => exact ⟨_, _, hallows, rfl, hrow⟩
  · rintro ⟨count, row, hallows, rfl, hrow⟩
    exact .optional hallows hrow

theorem fits_repetition_iff {cache : CacheId} {bounds : Bounds} {element : Parser} {start : Nat}
    {d : Derivation} {m : Match} : catalog.Fits source (.repetition cache bounds element) start d m ↔
      ∃ count row, bounds.Allows count ∧ d = .repeated count row ∧
        catalog.Fits source (.concatenation (.replicate count element)) start row m := by
  constructor
  · intro h
    cases h with
    | repetition hallows hrow => exact ⟨_, _, hallows, rfl, hrow⟩
  · rintro ⟨count, row, hallows, rfl, hrow⟩
    exact .repetition hallows hrow

/-- Only the empty match is kept of an empty row. -/
theorem prefers_nothing (start : Nat) :
    Prefers (· = Match.empty start) (catalog.Fits source (.concatenation []) start) where
  best := by
    rintro _ rfl
    refine ⟨.nothing, .nothing, fun other m' hother _ => ?_⟩
    obtain ⟨rfl, -⟩ := fits_nothing_iff.1 hother
    trivial
  complete := by
    intro d m h
    obtain ⟨-, rfl⟩ := fits_nothing_iff.1 h
    exact ⟨_, rfl, rfl⟩

section
variable {element : Parser} {run : Nat → Except GrammarError Attempt}
variable (helement : ∀ start, Concludes run start →
  Prefers (Keeps run start) (catalog.Fits source element start))
variable (honward : GoesOnward source run)
include helement honward

theorem prefers_times {start count : Nat} (hconcludes : ∀ fewer < count, ∀ m,
      Times (Keeps run) start fewer m → Concludes run m.stop) :
    Prefers (Times (Keeps run) start count)
      (catalog.Fits source (.concatenation (.replicate count element)) start) := by
  induction count with
  | zero => exact prefers_nothing start
  | succ count ih =>
    have hheads := ih fun fewer hfewer => hconcludes fewer (by omega)
    have hlimit : ∀ head, Times (Keeps run) start count head →
        head.stop ≤ max start source.size := fun head hhead => hhead.stop_le honward.of_mem_endsKept
    refine (hheads.latest (fun head hhead => helement head.stop
      (hconcludes count (Nat.lt_succ_self _) head hhead)) hlimit).congr (fun _ => Iff.rfl) ?_
    intro d m
    rw [List.replicate_succ']
    exact fits_next_iff

/-- A repetition prefers fewer occurrences. -/
theorem prefers_fewest {bounds : Bounds} {start : Nat}
    (hconcludes : ∀ count, (bounds.min ≤ count → bounds.Allows (count + 1)) →
      ∀ m, Times (Keeps run) start count m → Concludes run m.stop) :
    Prefers (fun m => ∃ count, bounds.Allows count ∧ Fewest (Keeps run) start bounds.min count m)
      fun d m => ∃ count row, bounds.Allows count ∧ d = .repeated count row ∧
        catalog.Fits source (.concatenation (.replicate count element)) start row m := by
  have htimes : ∀ count, bounds.Allows count → Prefers (Times (Keeps run) start count)
      (catalog.Fits source (.concatenation (.replicate count element)) start) := by
    intro count hallows
    refine prefers_times helement honward fun fewer hfewer => hconcludes fewer fun hmin => ?_
    exact hallows.of_le (by omega) hfewer
  refine ⟨?_, ?_⟩
  · rintro m ⟨count, hallows, hm⟩
    obtain ⟨row, hrow, hbest⟩ := (htimes count hallows).best m hm.2.1
    refine ⟨.repeated count row, ⟨count, row, hallows, rfl, hrow⟩, ?_⟩
    rintro _ m' ⟨count', row', hallows', rfl, hrow'⟩ hstop
    obtain ⟨reached, hreached, hsame⟩ := (htimes count' hallows').complete row' m' hrow'
    have hreach := hreached.mem_reach
    rw [hsame, hstop] at hreach
    rcases Nat.lt_trichotomy count count' with hlt | rfl | hgt
    · exact Or.inl hlt
    · exact Or.inr ⟨rfl, hbest row' m' hrow' hstop⟩
    · exact absurd hreach (hm.2.2 count' hallows'.1 hgt)
  · rintro _ m ⟨count, row, hallows, rfl, hrow⟩
    obtain ⟨reached, hreached, hsame⟩ := (htimes count hallows).complete row m hrow
    obtain ⟨fewer, hfewer, m', hm', hstop⟩ :=
      exists_fewest honward.of_mem_endsKept hallows.1 hreached.mem_reach
    exact ⟨m', ⟨fewer, hallows.of_le hm'.1 hfewer, hm'⟩, hstop.trans hsame⟩

end

end

theorem exists_foremost {keeps : Parser → Nat → Match → Prop} {branches : List Parser}
    {branch : Parser} (hbranch : branch ∈ branches) {start e : Nat}
    (he : e ∈ endsKept (keeps branch) start) :
    ∃ m, Foremost keeps branches start m ∧ m.stop = e := by
  induction branches with
  | nil => cases hbranch
  | cons first rest ih =>
    by_cases hfirst : e ∈ endsKept (keeps first) start
    · obtain ⟨m, hm, hstop⟩ := hfirst
      exact ⟨m, foremost_cons.2 (Or.inl hm), hstop⟩
    · rcases List.mem_cons.1 hbranch with rfl | hbranch
      · exact absurd he hfirst
      · obtain ⟨m, hm, rfl⟩ := ih hbranch
        exact ⟨m, foremost_cons.2 (Or.inr ⟨hfirst, hm⟩), rfl⟩

/-- A choice prefers earlier branches. -/
theorem prefers_foremost {keeps : Parser → Nat → Match → Prop}
    {fits : Parser → Derivation → Match → Prop} {branches : List Parser} {start : Nat}
    (h : ∀ branch ∈ branches, Prefers (keeps branch start) (fits branch)) :
    Prefers (Foremost keeps branches start) fun d m => ∃ index branch inner,
      branches[index]? = some branch ∧ fits branch inner m ∧ d = .branch index inner where
  best := by
    rintro m ⟨before, branch, after, rfl, hm, hnone⟩
    obtain ⟨inner, hinner, hbest⟩ := (h branch (by simp)).best m hm
    refine ⟨.branch before.length inner,
      ⟨before.length, branch, inner, by simp, hinner, rfl⟩, ?_⟩
    rintro _ m' ⟨index, other, inner', hother, hinner', rfl⟩ hstop
    rcases Nat.lt_trichotomy index before.length with hlt | rfl | hgt
    · -- A branch before the one that is kept does not stop there.
      rw [List.getElem?_append_left hlt] at hother
      have hmem := List.mem_of_getElem? hother
      obtain ⟨reached, hreached, hsame⟩ :=
        (h other (List.mem_append_left _ hmem)).complete inner' m' hinner'
      exact absurd ⟨reached, hreached, hsame.trans hstop⟩ (hnone other hmem)
    · simp only [List.getElem?_append_right (Nat.le_refl _), Nat.sub_self,
        List.getElem?_cons_zero, Option.some.injEq] at hother
      subst hother
      exact Or.inr ⟨rfl, hbest inner' m' hinner' hstop⟩
    · exact Or.inl hgt
  complete := by
    rintro _ m ⟨index, branch, inner, hbranch, hinner, rfl⟩
    have hmem := List.mem_of_getElem? hbranch
    exact exists_foremost hmem ((h branch hmem).complete inner m hinner)

/-- The excluded rule has been asked about every candidate. -/
theorem exists_of_vetoed_eq_ok {accepts : String → Except GrammarError Bool} {source : Source}
    {start : Nat} {candidates : List Match} {vetoes : List Nat}
    (h : vetoed accepts source start candidates = .ok vetoes) :
    ∀ m ∈ candidates, ∃ accepted, accepts ((source.slice start m.stop).getD "") = .ok accepted := by
  induction candidates generalizing vetoes with
  | nil => exact nofun
  | cons candidate rest ih =>
    rw [vetoed] at h
    obtain ⟨accepted, haccepted, h⟩ := exists_of_bind_eq_ok h
    obtain ⟨others, hothers, -⟩ := exists_of_bind_eq_ok h
    exact List.forall_mem_cons.2 ⟨⟨accepted, haccepted⟩, ih hothers⟩

theorem mem_vetoed_iff {accepts : String → Except GrammarError Bool} {source : Source}
    {start : Nat} {candidates : List Match} {vetoes : List Nat}
    (h : vetoed accepts source start candidates = .ok vetoes) {m : Match} (hm : m ∈ candidates) :
    m.stop ∈ vetoes ↔ accepts ((source.slice start m.stop).getD "") = .ok true := by
  let accepted (e : Nat) : Bool := (accepts ((source.slice start e).getD "")).toOption == some true
  have haccepted : ∀ m ∈ candidates,
      accepts ((source.slice start m.stop).getD "") = .ok (accepted m.stop) := by
    intro m hm
    obtain ⟨answer, hanswer⟩ := exists_of_vetoed_eq_ok h m hm
    simp only [accepted, hanswer]
    cases answer <;> rfl
  have heq := vetoed_eq source start candidates haccepted
  rw [h] at heq
  rw [Except.ok.inj heq, haccepted m hm, List.mem_filter,
    and_iff_right (List.mem_map_of_mem hm)]
  exact ⟨congrArg _, Except.ok.inj⟩

namespace Catalog

variable {catalog : Catalog} {source : Source} {start depth : Nat}

theorem takes_iff {rule : RuleId} {text : String} {attempt : Attempt}
    (h : catalog.call depth (.ofString text) (catalog.refer rule) 0 =
      (.ok attempt : Except GrammarError Attempt)) :
    catalog.Takes rule text ↔ attempt.takesAll (.ofString text) = true := by
  have hsettled : catalog.ruleMatches rule (.ofString text) 0 =
      (.ok attempt : Except GrammarError Attempt) :=
    (h ▸ call_approximates_settled depth (.ofString text) (catalog.refer rule) 0).eq_of_ok
  rw [Takes, hsettled]
  exact ⟨fun ⟨_, heq, htakes⟩ => by cases heq; exact htakes, fun htakes => ⟨_, rfl, htakes⟩⟩

/-- A rule keeps what its definition does and its exclusion admits. -/
theorem call_keeps_definition {ref : RuleRef} {attempt : Attempt}
    (h : catalog.call (depth + 1) source ref start = (.ok attempt : Except GrammarError Attempt)) :
    ∃ rule slot definition, catalog.resolve ref = .ok rule ∧
      catalog.bound rule = .ok (slot, definition) ∧
      Concludes (definition.enumerate catalog.firstMatch (catalog.call depth source) source) start ∧
      ∀ m, m ∈ Attempt.kept attempt ↔ ∃ m', definition.Finding catalog.firstMatch
        (catalog.call depth source) source start m' ∧ catalog.Admits slot source start m'.stop ∧
          m = ⟨[.rule slot.name m'.nodes], m'.stop⟩ := by
  rw [call, callOnce, ofExcept_eq] at h
  obtain ⟨rule, hresolve, h⟩ := exists_of_bind_eq_ok h
  rw [ofExcept_eq] at h
  obtain ⟨⟨slot, definition⟩, hbound, h⟩ := exists_of_bind_eq_ok h
  obtain ⟨found, henumerate, h⟩ := exists_of_bind_eq_ok h
  refine ⟨rule, slot, definition, hresolve, hbound, ⟨found, henumerate⟩, fun m => ?_⟩
  simp only [Parser.Finding, keeps_iff_of_eq_ok henumerate]
  cases found with
  | error failure =>
    cases h
    refine iff_of_false List.not_mem_nil ?_
    rintro ⟨m', hm', -⟩
    cases hm'
  | ok candidates =>
    dsimp only at h
    cases hexclusion : slot.exclusion with
    | none =>
      rw [hexclusion] at h
      cases h
      have hadmits : ∀ stop, catalog.Admits slot source start stop := by
        intro stop exclusion excluded hexclusion'
        cases hexclusion.symm.trans hexclusion'
      refine MatchSet.mem_mapNodes.trans (exists_congr fun m' => and_congr_right fun _ => ?_)
      rw [and_iff_right (hadmits m'.stop), eq_comm]
    | some exclusion =>
      rw [hexclusion] at h
      dsimp only at h
      rw [ofExcept_eq] at h
      obtain ⟨excluded, hexcluded, h⟩ := exists_of_bind_eq_ok h
      obtain ⟨vetoes, hvetoes, h⟩ := exists_of_bind_eq_ok h
      -- A veto was decided with the depth that was left, and as it came to an answer any more
      -- depth gives the same.
      have hadmits : ∀ m' ∈ candidates.toList,
          (catalog.Admits slot source start m'.stop ↔ m'.stop ∉ vetoes) := by
        intro m' hm'
        obtain ⟨accepted, haccepted⟩ := exists_of_vetoed_eq_ok hvetoes m' hm'
        have hiff := mem_vetoed_iff hvetoes hm'
        rw [haccepted] at hiff
        obtain ⟨attempt', hattempt', heq⟩ := exists_of_bind_eq_ok haccepted
        cases heq
        rw [hiff, Except.ok.injEq, ← takes_iff hattempt']
        constructor
        · exact fun hadmits => hadmits exclusion excluded hexclusion hexcluded
        · intro hnot exclusion' excluded' hexclusion' hexcluded'
          cases hexclusion.symm.trans hexclusion'
          cases hexcluded.symm.trans hexcluded'
          exact hnot
      cases h
      rw [Progress.kept_settle, MatchSet.mem_mapNodes]
      refine exists_congr fun m' => ?_
      rw [MatchSet.mem_filter, and_assoc]
      refine and_congr_right fun hm' => ?_
      simp only [hadmits m' hm', List.contains_eq_mem, Bool.not_eq_true', decide_eq_false_iff_not]
      exact and_congr_right fun _ => eq_comm

end Catalog

def Catalog.Longest (catalog : Catalog) (nodes : Set Parser) : Prop :=
  ∀ mode branches, .alternation mode branches ∈ nodes → catalog.firstMatch mode = false

def Catalog.PrefersFirst (catalog : Catalog) (call : RuleRef → Nat → Except GrammarError Attempt)
    (source : Source) (parser : Parser) : Prop :=
  ∀ start, Concludes (parser.enumerate catalog.firstMatch call source) start →
    Prefers (parser.Finding catalog.firstMatch call source start)
      (catalog.Fits source parser start)

section
variable {catalog : Catalog} {source : Source}
  {call : RuleRef → Nat → Except GrammarError Attempt}

theorem prefersFirst_literal (terminal : Literal) :
    catalog.PrefersFirst call source (.literal terminal) := by
  intro start hconcludes
  have hkeeps : ∀ m, Parser.Finding catalog.firstMatch call source (.literal terminal) start m ↔
      terminal.matchAt source start = some m := by
    intro m
    obtain ⟨attempt, hattempt⟩ := hconcludes
    rw [Parser.Finding, keeps_iff_of_eq_ok hattempt]
    rw [Parser.enumerate] at hattempt
    split at hattempt
    case h_1 found hfound =>
      cases hattempt
      rw [hfound, Option.some.injEq, eq_comm]
      exact List.mem_singleton
    case h_2 hnone =>
      cases hattempt
      rw [hnone]
      exact ⟨nofun, nofun⟩
  refine ⟨fun m hm => ⟨.leaf, .literal ((hkeeps m).1 hm), fun other m' hother _ => ?_⟩,
    fun d m hfits => ?_⟩
  · cases hother
    trivial
  · cases hfits with
    | literal hmatch => exact ⟨m, (hkeeps m).2 hmatch, rfl⟩

theorem prefersFirst_concatenation {parts : List Parser}
    (h : ∀ part ∈ parts, catalog.PrefersFirst call source part)
    (hcall : ∀ ref, GoesOnward source (call ref)) :
    catalog.PrefersFirst call source (.concatenation parts) := by
  induction parts using List.reverseRecOn with
  | nil =>
    intro start hconcludes
    refine (prefers_nothing start).congr (fun m => ?_) fun _ _ => Iff.rfl
    have hattempt : (Parser.concatenation []).enumerate catalog.firstMatch call source start =
        .ok (.ok (.single (.empty start))) := rfl
    rw [Parser.Finding, keeps_iff_of_eq_ok hattempt]
    exact List.mem_singleton
  | append_singleton before last ih =>
    intro start hconcludes
    obtain ⟨attempt, hattempt⟩ := hconcludes
    obtain ⟨hkept, hbefore, hlast⟩ := concatenation_keeps hattempt
    have hheads := ih (fun part hpart => h part (List.mem_append_left _ hpart)) start hbefore
    have htails := h last (by simp)
    have hlimit : ∀ head, Parser.Finding catalog.firstMatch call source (.concatenation before)
        start head → head.stop ≤ max start source.size := by
      intro head hhead
      have honward := ((Parser.concatenation before).enumerate_onward hcall).of_mem_endsKept start
        head.stop ⟨head, hhead, rfl⟩
      unfold Onward at honward
      omega
    refine (hheads.latest (fun head hhead => htails head.stop (hlast head hhead)) hlimit).congr
      (fun m => ?_) fun d m => fits_next_iff
    rw [Parser.Finding, keeps_iff_of_eq_ok hattempt]
    exact hkept m

theorem prefersFirst_alternation {mode : ModeId} {branches : List Parser}
    (hmode : catalog.firstMatch mode = false)
    (h : ∀ branch ∈ branches, catalog.PrefersFirst call source branch) :
    catalog.PrefersFirst call source (.alternation mode branches) := by
  rintro start ⟨attempt, hattempt⟩
  have htry := hattempt
  rw [Parser.enumerate, hmode] at htry
  obtain ⟨hkept, hconcludes⟩ := tryBranches_keeps htry
  refine (prefers_foremost fun branch hbranch =>
    h branch hbranch start (hconcludes branch hbranch)).congr (fun m => ?_)
      fun d m => fits_alternation_iff
  rw [Parser.Finding, keeps_iff_of_eq_ok hattempt, hkept]
  simp [Progress.none]

/-- A repetition and an option alike prefer fewer occurrences. -/
theorem prefers_of_repeatBetween {whole element : Parser} {bounds : Bounds}
    (h : catalog.PrefersFirst call source element) (hcall : ∀ ref, GoesOnward source (call ref))
    {start : Nat} {attempt : Attempt}
    (hattempt : repeatBetween (element.enumerate catalog.firstMatch call source) whole bounds source
      start = .ok attempt) :
    Prefers (· ∈ Attempt.kept attempt) fun d m => ∃ count row, bounds.Allows count ∧
      d = .repeated count row ∧
        catalog.Fits source (.concatenation (.replicate count element)) start row m := by
  have honward : GoesOnward source (element.enumerate catalog.firstMatch call source) :=
    element.enumerate_onward hcall
  obtain ⟨hkept, hconcludes⟩ := repeatBetween_keeps honward hattempt
  exact (prefers_fewest h honward hconcludes).congr hkept fun _ _ => Iff.rfl

structure Favouring (catalog : Catalog) (nodes : Set Parser) (source : Source)
    (call : RuleRef → Nat → Except GrammarError Attempt) : Prop where
  longest : catalog.Longest nodes
  onward (ref : RuleRef) : GoesOnward source (call ref)
  rule (ref : RuleRef) : .rule ref ∈ nodes → catalog.PrefersFirst call source (.rule ref)

variable {nodes : Set Parser}

mutual
theorem enumerate_prefers (h : Favouring catalog nodes source call) (parser : Parser)
    (hnodes : ∀ node ∈ parser.walk, node ∈ nodes) : catalog.PrefersFirst call source parser := by
  cases parser with
  | literal terminal => exact prefersFirst_literal terminal
  | alternation mode branches =>
    exact prefersFirst_alternation (h.longest mode branches (hnodes _ (Parser.self_mem_walk _)))
      (enumerateAll_prefers h branches fun node hnode => hnodes node (by simp [Parser.walk, hnode]))
  | concatenation parts =>
    exact prefersFirst_concatenation
      (enumerateAll_prefers h parts fun node hnode => hnodes node (by simp [Parser.walk, hnode]))
      h.onward
  | optional cache element =>
    have helement := enumerate_prefers h element fun node hnode =>
      hnodes node (by simp [Parser.walk, hnode])
    rintro start ⟨attempt, hattempt⟩
    have hrepeat := hattempt
    rw [Parser.enumerate_eq_explore, Parser.explore] at hrepeat
    exact (prefers_of_repeatBetween helement h.onward hrepeat).congr
      (fun m => keeps_iff_of_eq_ok hattempt) fun _ _ => fits_optional_iff
  | repetition cache bounds element =>
    have helement := enumerate_prefers h element fun node hnode =>
      hnodes node (by simp [Parser.walk, hnode])
    rintro start ⟨attempt, hattempt⟩
    have hrepeat := hattempt
    rw [Parser.enumerate_eq_explore, Parser.explore] at hrepeat
    exact (prefers_of_repeatBetween helement h.onward hrepeat).congr
      (fun m => keeps_iff_of_eq_ok hattempt) fun _ _ => fits_repetition_iff
  | rule ref => exact h.rule ref (hnodes _ (Parser.self_mem_walk _))
  | prose text =>
    rintro start ⟨attempt, hattempt⟩
    have hfails := hattempt
    rw [Parser.enumerate] at hfails
    cases hfails
    refine ⟨fun m hm => ?_, fun d m hfits => by cases hfits⟩
    cases (keeps_iff_of_eq_ok hattempt).1 hm

theorem enumerateAll_prefers (h : Favouring catalog nodes source call) (parsers : List Parser)
    (hnodes : ∀ node ∈ Parser.walkAll parsers, node ∈ nodes) :
    ∀ parser ∈ parsers, catalog.PrefersFirst call source parser := by
  cases parsers with
  | nil => exact nofun
  | cons parser rest =>
    exact List.forall_mem_cons.2
      ⟨enumerate_prefers h parser fun node hnode => hnodes node (by simp [Parser.walkAll, hnode]),
        enumerateAll_prefers h rest fun node hnode => hnodes node (by simp [Parser.walkAll, hnode])⟩
end

/-- Calls prefer what comes first, whatever depth they are allowed. -/
theorem call_prefers {scope : Scope} (hclosed : scope.Closed catalog)
    (hlongest : catalog.Longest scope.nodes) (depth : Nat) {ref : RuleRef}
    (href : .rule ref ∈ scope.nodes) :
    catalog.PrefersFirst (catalog.call depth source) source (.rule ref) := by
  induction depth generalizing ref with
  | zero =>
    rintro start ⟨attempt, hattempt⟩
    rw [Parser.enumerate] at hattempt
    cases hattempt
  | succ depth ih =>
    rintro start ⟨attempt, hattempt⟩
    have hcalled := hattempt
    rw [Parser.enumerate] at hcalled
    obtain ⟨rule, slot, definition, hresolve, hbound, hconcludes, hkept⟩ :=
      Catalog.call_keeps_definition hcalled
    have hnodes := hclosed.inner definition
      (hclosed.definition rule (hclosed.target ref href rule hresolve) slot definition hbound)
    have hfavouring : Favouring catalog scope.nodes source (catalog.call depth source) :=
      ⟨hlongest, catalog.call_onward depth source, fun _ => ih⟩
    have hdefinition := enumerate_prefers hfavouring definition hnodes start hconcludes
    have hfits : ∀ d m, catalog.Fits source (.rule ref) start d m ↔ ∃ inner m',
        catalog.Admits slot source start m'.stop ∧
          catalog.Fits source definition start inner m' ∧ d = .named inner ∧
            m = ⟨[.rule slot.name m'.nodes], m'.stop⟩ := by
      intro d m
      constructor
      · intro h
        cases h with
        | rule hresolve' hbound' hadmits hinner =>
          cases hresolve.symm.trans hresolve'
          cases hbound.symm.trans hbound'
          exact ⟨_, _, hadmits, hinner, rfl, rfl⟩
      · rintro ⟨inner, m', hadmits, hinner, rfl, rfl⟩
        exact .rule hresolve hbound hadmits hinner
    refine ⟨fun m hm => ?_, fun d m hd => ?_⟩
    · obtain ⟨m', hm', hadmits, rfl⟩ := (hkept m).1 ((keeps_iff_of_eq_ok hattempt).1 hm)
      obtain ⟨inner, hinner, hbest⟩ := hdefinition.best m' hm'
      refine ⟨.named inner, (hfits _ _).2 ⟨inner, m', hadmits, hinner, rfl, rfl⟩, ?_⟩
      intro other m₂ hother hstop
      obtain ⟨inner', m₃, -, hinner', rfl, rfl⟩ := (hfits _ _).1 hother
      exact hbest inner' m₃ hinner' hstop
    · -- Whether a stretch of text is excluded does not depend on how it is derived.
      obtain ⟨inner, m', hadmits, hinner, rfl, rfl⟩ := (hfits _ _).1 hd
      obtain ⟨kept, hm, hstop⟩ := hdefinition.complete inner m' hinner
      refine ⟨⟨[.rule slot.name kept.nodes], kept.stop⟩, (keeps_iff_of_eq_ok hattempt).2
        ((hkept _).2 ⟨kept, hm, hstop ▸ hadmits, rfl⟩), hstop⟩

end

/-- In whatever state a session is, as long as no cache on the way is stale and all alternations
on the way are longest-match: a match that is reported shows a derivation that comes before all
others with the same end. Where another one divides the text alike, the leftmost alternation
where the two choose different branches has the earlier one in the match. -/
theorem Session.Reached.shows_first_derivation {session : Session} (h : session.Reached)
    {bench : Bench} (hsteps : session.bench.Steps bench) {parser : Parser}
    (huses : bench.store.Uses {held | .parser held ∈ bench.held} parser)
    (hlongest : bench.store.catalog.Longest (bench.store.catalog.scopeOf parser).nodes)
    {caches : Caches}
    (hsound : Sound bench.store.catalog (bench.store.catalog.scopeOf parser).nodes caches)
    {source : Source} {start : Nat} {m : Match}
    (hm : bench.store.catalog.Reporting caches source parser start m) :
    ∃ d, bench.store.catalog.Fits source parser start d m ∧
      ∀ other m', bench.store.catalog.Fits source parser start other m' → m'.stop = m.stop →
        d.Precedes other ∧
          (d.DividesAlike other → d.choices = other.choices ∨ Earlier d.choices other.choices) := by
  have hclosed := bench.store.catalog.closed_scopeOf parser
  have hparser : parser ∈ (bench.store.catalog.scopeOf parser).nodes := Or.inl parser.self_mem_walk
  rw [reporting_eq_finding hclosed ((hsteps.orderly h.orderly).sane.apart_scopeOf huses) hsound
    hparser] at hm
  have hfavouring : Favouring bench.store.catalog (bench.store.catalog.scopeOf parser).nodes source
      (bench.store.catalog.call (bench.store.catalog.depthBound source) source) :=
    ⟨hlongest, bench.store.catalog.call_onward _ source, fun _ => call_prefers hclosed hlongest _⟩
  have hconcludes := hm.imp fun _ hattempt => hattempt.1
  have hprefers := enumerate_prefers hfavouring parser (hclosed.inner parser hparser) start hconcludes
  obtain ⟨d, hd, hbest⟩ := hprefers.best m hm
  refine ⟨d, hd, fun other m' hother hstop => ?_⟩
  have hprecedes := hbest other m' hother hstop
  exact ⟨hprecedes, hprecedes.choices⟩

/-- A match shows the later branch where the earlier one leads to an earlier division. -/
theorem Session.Reached.shows_first_derivation_later_branch :
    ∃ (session : Session) (parser : Parser) (m : Match), session.Reached ∧
      session.store.Uses {held | .parser held ∈ session.bench.held} parser ∧
      session.store.catalog.Longest (session.store.catalog.scopeOf parser).nodes ∧
      Sound session.store.catalog (session.store.catalog.scopeOf parser).nodes
        session.store.caches ∧
      session.store.catalog.Reporting session.store.caches (.ofString "aab") parser 0 m ∧
      ∃ d, session.store.catalog.Fits (.ofString "aab") parser 0 d m ∧
        ∀ other m', session.store.catalog.Fits (.ofString "aab") parser 0 other m' →
          m'.stop = m.stop → d.Precedes other ∧
            (d.DividesAlike other →
              d.choices = other.choices ∨ Earlier d.choices other.choices) := by
  obtain ⟨session, first, second, hreached, huses, hmodes, hsound, hm⟩ := Session.exists_overlapping
  have hlongest : session.store.catalog.Longest
      (session.store.catalog.scopeOf (overlapping first second)).nodes := fun mode _ _ => hmodes mode
  exact ⟨session, _, _, hreached, huses, hlongest, hsound _, hm,
    hreached.shows_first_derivation .refl huses hlongest (hsound _) hm⟩

/-- One derivation of `aab` chooses the first branch twice. -/
theorem fits_overlapping (catalog : Catalog) (first second : ModeId) :
    catalog.Fits (.ofString "aab") (overlapping first second) 0
      (.next (.next .nothing 0 (.branch 0 .leaf)) 1 (.branch 0 .leaf))
      ⟨[.literal "a" 0, .literal "ab" 1], 3⟩ := by
  have hfirst : catalog.Fits (.ofString "aab")
      (.alternation first [.literal (.text "a"), .literal (.text "aa")]) 0 (.branch 0 .leaf)
      ⟨[.literal "a" 0], 1⟩ :=
    .alternation rfl (.literal (by decide))
  have hsecond : catalog.Fits (.ofString "aab")
      (.alternation second [.literal (.text "ab"), .literal (.text "b")]) 1 (.branch 0 .leaf)
      ⟨[.literal "ab" 1], 3⟩ :=
    .alternation rfl (.literal (by decide))
  have hrow : catalog.Fits (.ofString "aab")
      (.concatenation [.alternation first [.literal (.text "a"), .literal (.text "aa")]]) 0
      (.next .nothing 0 (.branch 0 .leaf)) ⟨[.literal "a" 0], 1⟩ :=
    .next (by rfl) .nothing hfirst
  exact .next (by rfl) hrow hsecond

/-- Every derivation of a match that begins with two letters in one leaf chooses the second branch
first. -/
theorem choices_of_fits_overlapping {catalog : Catalog} {first second : ModeId} {d : Derivation}
    (h : catalog.Fits (.ofString "aab") (overlapping first second) 0 d
      ⟨[.literal "aa" 0, .literal "b" 2], 3⟩) : ∃ rest, d.choices = 1 :: rest := by
  obtain ⟨before, last, head, tail, hbefore, -, rfl, hm⟩ := fits_next_iff.1
    (show catalog.Fits _ (.concatenation ([_] ++ [_])) _ _ _ from h)
  obtain ⟨_, chosen, _, leaf, hnone, hchosen, rfl, rfl⟩ := fits_next_iff.1
    (show catalog.Fits _ (.concatenation ([] ++ [_])) _ _ _ from hbefore)
  obtain ⟨rfl, rfl⟩ := fits_nothing_iff.1 hnone
  obtain ⟨index, branch, inner, hbranch, hinner, rfl⟩ := fits_alternation_iff.1 hchosen
  rcases index with _ | _ | index
  · cases hbranch
    cases hinner with
    | literal hmatch =>
      have hshort : (Literal.text "a").matchAt (.ofString "aab") 0 = some ⟨[.literal "a" 0], 1⟩ := by
        decide
      cases hshort.symm.trans hmatch
      simp [Match.followedBy, Match.empty] at hm
  · exact ⟨_, rfl⟩
  · cases hbranch

/-- Without the condition that the text is divided alike, the match may show a later branch where
another derivation chooses an earlier one. -/
theorem later_branch_shown : ¬ ∀ (session : Session) (parser : Parser) (caches : Caches)
    (source : Source) (start : Nat) (m : Match), session.Reached →
      session.store.Uses {held | .parser held ∈ session.bench.held} parser →
      session.store.catalog.Longest (session.store.catalog.scopeOf parser).nodes →
      Sound session.store.catalog (session.store.catalog.scopeOf parser).nodes caches →
      session.store.catalog.Reporting caches source parser start m →
        ∃ d, session.store.catalog.Fits source parser start d m ∧
          ∀ other m', session.store.catalog.Fits source parser start other m' →
            m'.stop = m.stop → ¬ Earlier other.choices d.choices := by
  intro hall
  obtain ⟨session, first, second, hreached, huses, hmodes, hsound, hm⟩ := Session.exists_overlapping
  obtain ⟨d, hd, hfirst⟩ := hall session (overlapping first second) session.store.caches
    (.ofString "aab") 0 _ hreached huses (fun mode _ _ => hmodes mode) (hsound _) hm
  obtain ⟨rest, hchoices⟩ := choices_of_fits_overlapping hd
  refine hfirst _ _ (fits_overlapping session.store.catalog first second) rfl ?_
  rw [hchoices]
  exact Or.inl Nat.zero_lt_one

end Metasyntax
