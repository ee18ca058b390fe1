import Metasyntax.Proofs.Interning

/-!
# Rules under other identities

Rules that are created in another order have other places, and alternations, repetitions
and options other identities. Two catalogs in which rules of one name have one definition
up to these find the same matches. The names of nodes are compared in any way that the
names of bound rules agree in, and the names in grammar errors without regard to case.
-/

set_option autoImplicit false

namespace Metasyntax

mutual
def Node.respell (spell : String → String) : Node → Node
  | .rule name children => .rule (spell name) (respellAll spell children)
  | .literal value offset => .literal value offset

def Node.respellAll (spell : String → String) : List Node → List Node
  | [] => []
  | node :: rest => node.respell spell :: respellAll spell rest
end

variable {spell : String → String}

theorem Node.respellAll_append (first second : List Node) :
    respellAll spell (first ++ second) = respellAll spell first ++ respellAll spell second := by
  induction first with
  | nil => rfl
  | cons node rest ih => simp [respellAll, ih]

def Match.respell (spell : String → String) (m : Match) : Match :=
  ⟨Node.respellAll spell m.nodes, m.stop⟩

@[simp] theorem Match.respell_empty (offset : Nat) :
    (Match.empty offset).respell spell = .empty offset := rfl

theorem Match.respell_followedBy (first second : Match) :
    (first.followedBy second).respell spell =
      (first.respell spell).followedBy (second.respell spell) := by
  simp [respell, followedBy, Node.respellAll_append]

theorem Match.map_insertInto (m : Match) (l : List Match) :
    (m.insertInto l).map (respell spell) =
      (m.respell spell).insertInto (l.map (respell spell)) := by
  induction l with
  | nil => rfl
  | cons other rest ih =>
    simp only [insertInto, List.map_cons]
    have hstop : ∀ m : Match, (m.respell spell).stop = m.stop := fun _ => rfl
    rw [hstop, hstop]
    split_ifs <;> simp [ih]

namespace MatchSet

def respell (spell : String → String) (set : MatchSet) : MatchSet :=
  set.mapNodes (Node.respellAll spell)

theorem toList_respell (set : MatchSet) :
    (set.respell spell).toList = set.toList.map (Match.respell spell) := rfl

@[simp] theorem respell_empty : (∅ : MatchSet).respell spell = ∅ := rfl

@[simp] theorem respell_single (m : Match) :
    (single m).respell spell = single (m.respell spell) := rfl

@[simp] theorem stops_respell (set : MatchSet) : (set.respell spell).stops = set.stops :=
  stops_mapNodes _ set

@[simp] theorem hasStop_respell (set : MatchSet) (stop : Nat) :
    (set.respell spell).hasStop stop = set.hasStop stop := by
  rw [Bool.eq_iff_iff]
  simp

theorem stops_congr {set set' : MatchSet} (h : set.respell spell = set'.respell spell) :
    set.stops = set'.stops := by
  rw [← stops_respell set, h, stops_respell]

theorem isEmpty_congr {set set' : MatchSet} (h : set.respell spell = set'.respell spell) :
    set.isEmpty = set'.isEmpty := by
  rw [Bool.eq_iff_iff, isEmpty_iff, isEmpty_iff, stops_congr h]

theorem respell_insert (set : MatchSet) (m : Match) :
    (set.insert m).respell spell = (set.respell spell).insert (m.respell spell) :=
  ext (m.map_insertInto set.toList)

theorem respell_union (set other : MatchSet) :
    (set.union other).respell spell = (set.respell spell).union (other.respell spell) := by
  have hfoldl (l : List Match) (set : MatchSet) : (l.foldl insert set).respell spell =
      (l.map (Match.respell spell)).foldl insert (set.respell spell) := by
    induction l generalizing set with
    | nil => rfl
    | cons m rest ih => rw [List.foldl_cons, ih, respell_insert]; rfl
  exact hfoldl other.toList set

theorem respell_carry (known : MatchSet) (head : Match) (found : MatchSet) (tail : Match) :
    (carry known head found tail).respell spell =
      carry (known.respell spell) (head.respell spell) (found.respell spell)
        (tail.respell spell) := by
  have hstop : (tail.respell spell).stop = tail.stop := rfl
  rw [carry, carry, hstop, hasStop_respell, hasStop_respell]
  split_ifs
  · rfl
  · rw [respell_insert, Match.respell_followedBy]

theorem respell_extend (set known : MatchSet) (head : Match) (tails : MatchSet) :
    (set.extend known head tails).respell spell =
      (set.respell spell).extend (known.respell spell) (head.respell spell)
        (tails.respell spell) := by
  have hfoldl (l : List Match) (set : MatchSet) :
      (l.foldl (carry known head) set).respell spell =
        (l.map (Match.respell spell)).foldl (carry (known.respell spell) (head.respell spell))
          (set.respell spell) := by
    induction l generalizing set with
    | nil => rfl
    | cons tail rest ih => rw [List.foldl_cons, ih, respell_carry]; rfl
  exact hfoldl tails.toList set

theorem respell_wrap (name : String) (set : MatchSet) :
    (set.mapNodes fun nodes => [.rule name nodes]).respell spell =
      (set.respell spell).mapNodes fun nodes => [.rule (spell name) nodes] := by
  refine ext ?_
  simp [mapNodes, respell, Node.respellAll, Node.respell]

theorem respell_filter (p : Nat → Bool) (set : MatchSet) :
    (set.filter fun m => p m.stop).respell spell =
      (set.respell spell).filter fun m => p m.stop := by
  refine ext ?_
  simp only [toList_respell, filter, List.filter_map]
  rfl

end MatchSet

def GrammarError.lowered : GrammarError → GrammarError
  | .undefinedRule name => .undefinedRule (lowerText name)
  | .danglingRule name => .danglingRule (lowerText name)
  | .leftRecursion name => .leftRecursion (lowerText name)
  | error => error

def seen {α β : Type} (view : α → β) : Except GrammarError α → Except GrammarError β
  | .ok a => .ok (view a)
  | .error error => .error error.lowered

theorem seen_bind {α β γ δ : Type} {view : α → β} {view' : γ → δ} {x x' : Except GrammarError α}
    {f f' : α → Except GrammarError γ} (h : seen view x = seen view x')
    (hf : ∀ a a', view a = view a' → seen view' (f a) = seen view' (f' a')) :
    seen view' (x >>= f) = seen view' (x' >>= f') := by
  cases x with
  | ok a =>
    cases x' with
    | ok a' => exact hf a a' (Except.ok.inj h)
    | error error => cases h
  | error error =>
    cases x' with
    | ok a' => cases h
    | error error' => exact congrArg Except.error (Except.error.inj h)

def Attempt.respell (spell : String → String) : Attempt → Option MatchSet
  | .ok found => some (found.respell spell)
  | .error _ => none

/-- Attempts that look alike are both matches or both failures. -/
theorem Attempt.respell_eq {attempt attempt' : Attempt}
    (h : attempt.respell spell = attempt'.respell spell) :
    (∃ found found', attempt = .ok found ∧ attempt' = .ok found' ∧
        found.respell spell = found'.respell spell) ∨
      ∃ failure failure', attempt = .error failure ∧ attempt' = .error failure' := by
  cases attempt with
  | ok found =>
    cases attempt' with
    | ok found' => exact Or.inl ⟨found, found', rfl, rfl, Option.some.inj h⟩
    | error failure => cases h
  | error failure =>
    cases attempt' with
    | ok found' => cases h
    | error failure' => exact Or.inr ⟨failure, failure', rfl, rfl⟩

def Progress.respell (spell : String → String) (progress : Progress) : MatchSet :=
  progress.found.respell spell

theorem Progress.respell_settle {progress progress' : Progress}
    (h : progress.respell spell = progress'.respell spell) (parser parser' : Parser)
    (start : Nat) : (progress.settle parser start).respell spell =
      (progress'.settle parser' start).respell spell := by
  rw [settle, settle, MatchSet.isEmpty_congr h]
  split_ifs
  · rfl
  · exact congrArg some h

section
variable {run run' : Nat → Except GrammarError Attempt}
  (hrun : ∀ start, seen (Attempt.respell spell) (run start) =
    seen (Attempt.respell spell) (run' start))
include hrun

theorem seen_sweep {known known' : MatchSet} (hknown : known.respell spell = known'.respell spell)
    (heads heads' : List Match)
    (hheads : heads.map (Match.respell spell) = heads'.map (Match.respell spell))
    {progress progress' : Progress} (hprogress : progress.respell spell = progress'.respell spell) :
    seen (Progress.respell spell) (sweep run known heads progress) =
      seen (Progress.respell spell) (sweep run' known' heads' progress') := by
  induction heads generalizing heads' progress progress' with
  | nil =>
    obtain rfl : heads' = [] := by simpa using hheads
    exact congrArg Except.ok hprogress
  | cons head heads ih =>
    obtain _ | ⟨head', heads'⟩ := heads'
    · cases hheads
    · obtain ⟨hhead, hrest⟩ := List.cons.inj hheads
      have hstop : head.stop = head'.stop := (Match.mk.inj hhead).2
      rw [sweep, sweep, hstop]
      refine seen_bind (hrun head'.stop) fun attempt attempt' hattempt => ?_
      obtain ⟨tails, tails', rfl, rfl, htails⟩ | ⟨failure, failure', rfl, rfl⟩ :=
        Attempt.respell_eq hattempt
      · refine ih heads' hrest ?_
        simp only [Progress.respell, MatchSet.respell_extend] at hprogress ⊢
        rw [hprogress, hknown, hhead, htails]
      · exact ih heads' hrest hprogress

theorem seen_repeatExactly (parser parser' : Parser) (start count : Nat)
    {frontier frontier' : MatchSet} (hfrontier : frontier.respell spell = frontier'.respell spell) :
    seen (Attempt.respell spell) (repeatExactly run parser start count frontier) =
      seen (Attempt.respell spell) (repeatExactly run' parser' start count frontier') := by
  induction count generalizing frontier frontier' with
  | zero => exact congrArg (Except.ok ∘ some) hfrontier
  | succ count ih =>
    rw [repeatExactly, repeatExactly]
    refine seen_bind (seen_sweep hrun rfl _ _ (congrArg MatchSet.toList hfrontier) rfl)
      fun progress progress' hprogress => ?_
    have hsettled := Progress.respell_settle hprogress parser parser' start
    obtain ⟨next, next', heq, heq', hnext⟩ | ⟨failure, failure', heq, heq'⟩ :=
      Attempt.respell_eq hsettled
    · rw [heq, heq']
      exact ih hnext
    · rw [heq, heq']
      rfl

theorem seen_repeatFurther (rounds : Nat) {known known' : MatchSet}
    (hknown : known.respell spell = known'.respell spell) {frontier frontier' : List Match}
    (hfrontier : frontier.map (Match.respell spell) = frontier'.map (Match.respell spell)) :
    seen (MatchSet.respell spell) (repeatFurther run rounds known frontier) =
      seen (MatchSet.respell spell) (repeatFurther run' rounds known' frontier') := by
  induction rounds generalizing known known' frontier frontier' with
  | zero => exact congrArg Except.ok hknown
  | succ rounds ih =>
    rw [repeatFurther, repeatFurther]
    refine seen_bind (seen_sweep hrun hknown _ _ hfrontier rfl) fun progress progress' h => ?_
    rw [MatchSet.isEmpty_congr h]
    split_ifs
    · exact congrArg Except.ok hknown
    · refine ih ?_ (congrArg MatchSet.toList h)
      rw [MatchSet.respell_union, MatchSet.respell_union, hknown]
      exact congrArg _ h

theorem seen_repeatBetween (parser parser' : Parser) (bounds : Bounds) (source : Source)
    (start : Nat) :
    seen (Attempt.respell spell) (repeatBetween run parser bounds source start) =
      seen (Attempt.respell spell) (repeatBetween run' parser' bounds source start) := by
  rw [repeatBetween, repeatBetween]
  refine seen_bind (seen_repeatExactly hrun parser parser' start bounds.min rfl)
    fun attempt attempt' hattempt => ?_
  obtain ⟨known, known', rfl, rfl, hknown⟩ | ⟨failure, failure', rfl, rfl⟩ :=
    Attempt.respell_eq hattempt
  · refine seen_bind (seen_repeatFurther hrun _ hknown (congrArg MatchSet.toList hknown))
      fun found found' hfound => ?_
    exact congrArg (Except.ok ∘ some) hfound
  · rfl

end

mutual
def Parser.Like (modes : ModeId → ModeId → Prop) (refs : RuleRef → RuleRef → Prop) :
    Parser → Parser → Prop
  | .literal terminal, other => other = .literal terminal
  | .alternation mode branches, other => ∃ mode' branches', other = .alternation mode' branches' ∧
    modes mode mode' ∧ LikeAll modes refs branches branches'
  | .concatenation parts, other => ∃ parts', other = .concatenation parts' ∧
    LikeAll modes refs parts parts'
  | .optional _ element, other => ∃ cache' element', other = .optional cache' element' ∧
    element.Like modes refs element'
  | .repetition _ bounds element, other => ∃ cache' element',
    other = .repetition cache' bounds element' ∧ element.Like modes refs element'
  | .rule ref, other => ∃ ref', other = .rule ref' ∧ refs ref ref'
  | .prose text, other => other = .prose text

def Parser.LikeAll (modes : ModeId → ModeId → Prop) (refs : RuleRef → RuleRef → Prop) :
    List Parser → List Parser → Prop
  | [], others => others = []
  | parser :: rest, others => ∃ parser' rest', others = parser' :: rest' ∧
    parser.Like modes refs parser' ∧ LikeAll modes refs rest rest'
end

mutual
/-- A parser is like itself if its modes and references are. -/
theorem Parser.like_self {modes : ModeId → ModeId → Prop} {refs : RuleRef → RuleRef → Prop}
    (parser : Parser)
    (hmode : ∀ mode branches, .alternation mode branches ∈ parser.walk → modes mode mode)
    (href : ∀ ref, .rule ref ∈ parser.walk → refs ref ref) : parser.Like modes refs parser := by
  cases parser with
  | literal terminal => rfl
  | alternation mode branches =>
    rw [Parser.walk] at hmode href
    exact ⟨mode, branches, rfl, hmode mode branches List.mem_cons_self,
      Parser.likeAll_self branches
        (fun mode branches h => hmode mode branches (List.mem_cons_of_mem _ h))
        fun ref h => href ref (List.mem_cons_of_mem _ h)⟩
  | concatenation parts =>
    rw [Parser.walk] at hmode href
    exact ⟨parts, rfl, Parser.likeAll_self parts
      (fun mode branches h => hmode mode branches (List.mem_cons_of_mem _ h))
      fun ref h => href ref (List.mem_cons_of_mem _ h)⟩
  | optional cache element =>
    rw [Parser.walk] at hmode href
    exact ⟨cache, element, rfl, Parser.like_self element
      (fun mode branches h => hmode mode branches (List.mem_cons_of_mem _ h))
      fun ref h => href ref (List.mem_cons_of_mem _ h)⟩
  | repetition cache bounds element =>
    rw [Parser.walk] at hmode href
    exact ⟨cache, element, rfl, Parser.like_self element
      (fun mode branches h => hmode mode branches (List.mem_cons_of_mem _ h))
      fun ref h => href ref (List.mem_cons_of_mem _ h)⟩
  | rule ref => exact ⟨ref, rfl, href ref (List.mem_singleton_self _)⟩
  | prose text => rfl

theorem Parser.likeAll_self {modes : ModeId → ModeId → Prop} {refs : RuleRef → RuleRef → Prop}
    (parsers : List Parser)
    (hmode : ∀ mode branches, .alternation mode branches ∈ walkAll parsers → modes mode mode)
    (href : ∀ ref, .rule ref ∈ walkAll parsers → refs ref ref) :
    LikeAll modes refs parsers parsers := by
  cases parsers with
  | nil => rfl
  | cons parser rest =>
    rw [Parser.walkAll] at hmode href
    exact ⟨parser, rest, rfl,
      Parser.like_self parser
        (fun mode branches h => hmode mode branches (List.mem_append_left _ h))
        fun ref h => href ref (List.mem_append_left _ h),
      Parser.likeAll_self rest
        (fun mode branches h => hmode mode branches (List.mem_append_right _ h))
        fun ref h => href ref (List.mem_append_right _ h)⟩
end

section
variable {firstMatch firstMatch' : ModeId → Bool} {source : Source}
  {call call' : RuleRef → Nat → Except GrammarError Attempt}
  {modes : ModeId → ModeId → Prop} {refs : RuleRef → RuleRef → Prop}

structure Parallel (spell : String → String) (firstMatch firstMatch' : ModeId → Bool)
    (call call' : RuleRef → Nat → Except GrammarError Attempt) (modes : ModeId → ModeId → Prop)
    (refs : RuleRef → RuleRef → Prop) : Prop where
  mode : ∀ mode mode', modes mode mode' → firstMatch mode = firstMatch' mode'
  call : ∀ ref ref', refs ref ref' → ∀ start, seen (Attempt.respell spell) (call ref start) =
    seen (Attempt.respell spell) (call' ref' start)

mutual
/-- Parsers that are alike find the same. -/
theorem seen_enumerate (h : Parallel spell firstMatch firstMatch' call call' modes refs)
    (parser : Parser) {parser' : Parser} (hlike : parser.Like modes refs parser') (start : Nat) :
    seen (Attempt.respell spell) (parser.enumerate firstMatch call source start) =
      seen (Attempt.respell spell) (parser'.enumerate firstMatch' call' source start) := by
  cases parser with
  | literal terminal =>
    rw [Parser.Like] at hlike
    subst hlike
    rw [Parser.enumerate, Parser.enumerate]
  | alternation mode branches =>
    rw [Parser.Like] at hlike
    obtain ⟨mode', branches', rfl, hmode, hbranches⟩ := hlike
    rw [Parser.enumerate, Parser.enumerate, h.mode mode mode' hmode]
    exact seen_tryBranches h branches hbranches _ _ _ start rfl
  | concatenation parts =>
    rw [Parser.Like] at hlike
    obtain ⟨parts', rfl, hparts⟩ := hlike
    rw [Parser.enumerate, Parser.enumerate]
    exact seen_followParts h parts hparts _ _ start rfl
  | optional cache element =>
    rw [Parser.Like] at hlike
    obtain ⟨cache', element', rfl, helement⟩ := hlike
    rw [Parser.enumerate_eq_explore, Parser.enumerate_eq_explore, Parser.explore, Parser.explore]
    exact seen_repeatBetween (seen_enumerate h element helement) _ _ _ source start
  | repetition cache bounds element =>
    rw [Parser.Like] at hlike
    obtain ⟨cache', element', rfl, helement⟩ := hlike
    rw [Parser.enumerate_eq_explore, Parser.enumerate_eq_explore, Parser.explore, Parser.explore]
    exact seen_repeatBetween (seen_enumerate h element helement) _ _ _ source start
  | rule ref =>
    rw [Parser.Like] at hlike
    obtain ⟨ref', rfl, href⟩ := hlike
    rw [Parser.enumerate, Parser.enumerate]
    exact h.call ref ref' href start
  | prose text =>
    rw [Parser.Like] at hlike
    subst hlike
    rfl

theorem seen_tryBranches (h : Parallel spell firstMatch firstMatch' call call' modes refs)
    (branches : List Parser) {branches' : List Parser}
    (hlike : Parser.LikeAll modes refs branches branches') (whole whole' : Parser)
    (onlyFirst : Bool) (start : Nat) {progress progress' : Progress}
    (hprogress : progress.respell spell = progress'.respell spell) :
    seen (Attempt.respell spell)
        (Parser.tryBranches firstMatch call source whole onlyFirst start branches progress) =
      seen (Attempt.respell spell)
        (Parser.tryBranches firstMatch' call' source whole' onlyFirst start branches'
          progress') := by
  cases branches with
  | nil =>
    rw [Parser.LikeAll] at hlike
    subst hlike
    rw [Parser.tryBranches, Parser.tryBranches]
    exact congrArg Except.ok (Progress.respell_settle hprogress whole whole' start)
  | cons branch rest =>
    rw [Parser.LikeAll] at hlike
    obtain ⟨branch', rest', rfl, hbranch, hrest⟩ := hlike
    rw [Parser.tryBranches, Parser.tryBranches]
    refine seen_bind (seen_enumerate h branch hbranch start) fun attempt attempt' hattempt => ?_
    obtain ⟨found, found', rfl, rfl, hfound⟩ | ⟨failure, failure', rfl, rfl⟩ :=
      Attempt.respell_eq hattempt
    · cases onlyFirst with
      | true => exact congrArg (Except.ok ∘ some) hfound
      | false =>
        refine seen_tryBranches h rest hrest _ _ _ start ?_
        simp only [Progress.respell, MatchSet.respell_union] at hprogress ⊢
        rw [hprogress, hfound]
    · exact seen_tryBranches h rest hrest _ _ _ start hprogress

theorem seen_followParts (h : Parallel spell firstMatch firstMatch' call call' modes refs)
    (parts : List Parser) {parts' : List Parser}
    (hlike : Parser.LikeAll modes refs parts parts') (whole whole' : Parser) (start : Nat)
    {frontier frontier' : MatchSet} (hfrontier : frontier.respell spell = frontier'.respell spell) :
    seen (Attempt.respell spell)
        (Parser.followParts firstMatch call source whole start parts frontier) =
      seen (Attempt.respell spell)
        (Parser.followParts firstMatch' call' source whole' start parts' frontier') := by
  cases parts with
  | nil =>
    rw [Parser.LikeAll] at hlike
    subst hlike
    rw [Parser.followParts, Parser.followParts]
    exact congrArg (Except.ok ∘ some) hfrontier
  | cons part rest =>
    rw [Parser.LikeAll] at hlike
    obtain ⟨part', rest', rfl, hpart, hrest⟩ := hlike
    rw [Parser.followParts, Parser.followParts]
    refine seen_bind (seen_sweep (seen_enumerate h part hpart) rfl _ _
      (congrArg MatchSet.toList hfrontier) rfl) fun progress progress' hprogress => ?_
    have hsettled := Progress.respell_settle hprogress whole whole' start
    obtain ⟨next, next', heq, heq', hnext⟩ | ⟨failure, failure', heq, heq'⟩ :=
      Attempt.respell_eq hsettled
    · rw [heq, heq']
      exact seen_followParts h rest hrest whole whole' start hnext
    · rw [heq, heq']
      rfl
end

end

/-- Matches that end at the same places are vetoed alike. -/
theorem seen_vetoed {accepts accepts' : String → Except GrammarError Bool} {source : Source}
    {start : Nat} (haccepts : ∀ text, seen id (accepts text) = seen id (accepts' text))
    (candidates candidates' : List Match)
    (hstops : candidates.map (·.stop) = candidates'.map (·.stop)) :
    seen id (vetoed accepts source start candidates) =
      seen id (vetoed accepts' source start candidates') := by
  induction candidates generalizing candidates' with
  | nil =>
    obtain rfl : candidates' = [] := by simpa using hstops
    rfl
  | cons candidate rest ih =>
    obtain _ | ⟨candidate', rest'⟩ := candidates'
    · cases hstops
    · obtain ⟨hstop, hrest⟩ := List.cons.inj hstops
      replace hstop : candidate.stop = candidate'.stop := hstop
      rw [vetoed, vetoed, hstop]
      refine seen_bind (haccepts _) fun accepted accepted' haccepted => ?_
      refine seen_bind (ih rest' hrest) fun others others' hothers => ?_
      obtain rfl : accepted = accepted' := haccepted
      obtain rfl : others = others' := hothers
      rfl

theorem Attempt.takesAll_congr {attempt attempt' : Attempt}
    (h : attempt.respell spell = attempt'.respell spell) (source : Source) :
    attempt.takesAll source = attempt'.takesAll source := by
  obtain ⟨found, found', rfl, rfl, hfound⟩ | ⟨failure, failure', rfl, rfl⟩ :=
    Attempt.respell_eq h
  · have hany (set : MatchSet) : set.longest?.any (source.size ≤ ·.stop) =
        set.stops.head?.any (source.size ≤ ·) := by
      simp [MatchSet.longest?, MatchSet.stops, Option.any_map]
    rw [takesAll, takesAll, hany, hany, MatchSet.stops_congr hfound]
  · rfl

namespace Catalog

structure Twins (c c' : Catalog) (rule rule' : RuleId) : Prop where
  grammar : rule.grammar = rule'.grammar
  slots : ∃ slot slot', c.slot? rule = some slot ∧ c'.slot? rule' = some slot' ∧
    lowerText slot.name = lowerText slot'.name

structure TwinRefs (c c' : Catalog) (ref ref' : RuleRef) : Prop where
  name : lowerText ref.name = lowerText ref'.name
  target : c.Twins c' ref.target ref'.target

def SameMode (c c' : Catalog) (mode mode' : ModeId) : Prop :=
  c.firstMatch mode = c'.firstMatch mode'

structure Renames (spell : String → String) (c c' : Catalog) : Prop where
  alive : ∀ id, c.alive id = c'.alive id
  definition : ∀ rule rule' slot slot', c.Twins c' rule rule' → c.slot? rule = some slot →
    c'.slot? rule' = some slot' →
      Option.Rel (Parser.Like (c.SameMode c') (c.TwinRefs c')) slot.definition slot'.definition
  exclusion : ∀ rule rule' slot slot', c.Twins c' rule rule' → c.slot? rule = some slot →
    c'.slot? rule' = some slot' → Option.Rel (c.TwinRefs c') slot.exclusion slot'.exclusion
  spelled : ∀ rule rule' slot slot', c.Twins c' rule rule' → c.slot? rule = some slot →
    c'.slot? rule' = some slot' → slot.definition.isSome → spell slot.name = spell slot'.name

theorem Twins.symm {c c' : Catalog} {rule rule' : RuleId} (h : c.Twins c' rule rule') :
    c'.Twins c rule' rule where
  grammar := h.grammar.symm
  slots := by
    obtain ⟨slot, slot', hslot, hslot', hname⟩ := h.slots
    exact ⟨slot', slot, hslot', hslot, hname.symm⟩

theorem Twins.refer {c c' : Catalog} {rule rule' : RuleId} (h : c.Twins c' rule rule') :
    c.TwinRefs c' (c.refer rule) (c'.refer rule') where
  name := by
    obtain ⟨slot, slot', hslot, hslot', hname⟩ := h.slots
    simpa [Catalog.refer, nameOf, hslot, hslot'] using hname
  target := h

namespace Renames
variable {c c' : Catalog} (h : c.Renames spell c')
include h

theorem seen_resolve {ref ref' : RuleRef} (href : c.TwinRefs c' ref ref') :
    (∃ error error', error.lowered = error'.lowered ∧ c.resolve ref = .error error ∧
        c'.resolve ref' = .error error') ∨
      c.resolve ref = .ok ref.target ∧ c'.resolve ref' = .ok ref'.target := by
  rw [resolve, resolve, href.target.grammar, h.alive]
  split
  · exact Or.inr ⟨rfl, rfl⟩
  · exact Or.inl ⟨.danglingRule ref.name, .danglingRule ref'.name,
      congrArg GrammarError.danglingRule href.name, rfl, rfl⟩

theorem seen_bound {rule rule' : RuleId} (hrule : c.Twins c' rule rule') :
    (∃ error error', error.lowered = error'.lowered ∧ c.bound rule = .error error ∧
        c'.bound rule' = .error error') ∨
      ∃ slot slot' definition definition', c.bound rule = .ok (slot, definition) ∧
        c'.bound rule' = .ok (slot', definition') ∧ spell slot.name = spell slot'.name ∧
        definition.Like (c.SameMode c') (c.TwinRefs c') definition' ∧
        Option.Rel (c.TwinRefs c') slot.exclusion slot'.exclusion := by
  obtain ⟨slot, slot', hslot, hslot', hname⟩ := hrule.slots
  have hdefinition := h.definition rule rule' slot slot' hrule hslot hslot'
  have hexclusion := h.exclusion rule rule' slot slot' hrule hslot hslot'
  have hspelled := h.spelled rule rule' slot slot' hrule hslot hslot'
  simp only [bound, hslot, hslot']
  cases heq : slot.definition with
  | none =>
    rw [heq] at hdefinition
    cases heq' : slot'.definition with
    | none =>
      exact Or.inl ⟨.undefinedRule slot.name, .undefinedRule slot'.name,
        congrArg GrammarError.undefinedRule hname, rfl, rfl⟩
    | some definition' => rw [heq'] at hdefinition; cases hdefinition
  | some definition =>
    rw [heq] at hdefinition hspelled
    cases heq' : slot'.definition with
    | none => rw [heq'] at hdefinition; cases hdefinition
    | some definition' =>
      rw [heq'] at hdefinition
      cases hdefinition with
      | some hlike =>
        exact Or.inr ⟨slot, slot', definition, definition', rfl, rfl, hspelled rfl, hlike,
          hexclusion⟩

/-- Rules of one name find the same as soon as all calls do. -/
theorem seen_callOnce {call call' : Source → RuleRef → Nat → Except GrammarError Attempt}
    (hcall : ∀ source ref ref' start, c.TwinRefs c' ref ref' →
      seen (Attempt.respell spell) (call source ref start) =
        seen (Attempt.respell spell) (call' source ref' start))
    (source : Source) {ref ref' : RuleRef} (href : c.TwinRefs c' ref ref') (start : Nat) :
    seen (Attempt.respell spell) (c.callOnce call source ref start) =
      seen (Attempt.respell spell) (c'.callOnce call' source ref' start) := by
  simp only [callOnce, ofExcept_eq]
  obtain ⟨error, error', herror, hresolve, hresolve'⟩ | ⟨hresolve, hresolve'⟩ :=
    h.seen_resolve href
  · rw [hresolve, hresolve']
    exact congrArg Except.error herror
  rw [hresolve, hresolve', ok_bind, ok_bind]
  obtain ⟨error, error', herror, hbound, hbound'⟩ |
    ⟨slot, slot', definition, definition', hbound, hbound', hspelled, hlike, hexclusion⟩ :=
      h.seen_bound href.target
  · rw [hbound, hbound']
    exact congrArg Except.error herror
  rw [hbound, hbound', ok_bind, ok_bind]
  refine seen_bind (seen_enumerate ⟨fun _ _ hmode => hmode,
    fun ref ref' href start => hcall source ref ref' start href⟩ definition hlike start)
    fun attempt attempt' hattempt => ?_
  obtain ⟨candidates, candidates', rfl, rfl, hcandidates⟩ | ⟨failure, failure', rfl, rfl⟩ :=
    Attempt.respell_eq hattempt
  swap
  · rfl
  have hwrap {set set' : MatchSet} (hset : set.respell spell = set'.respell spell) :
      (set.mapNodes fun nodes => [.rule slot.name nodes]).respell spell =
        (set'.mapNodes fun nodes => [.rule slot'.name nodes]).respell spell := by
    rw [MatchSet.respell_wrap, MatchSet.respell_wrap, hset, hspelled]
  cases heq : slot.exclusion with
  | none =>
    rw [heq] at hexclusion
    cases heq' : slot'.exclusion with
    | none => exact congrArg (Except.ok ∘ some) (hwrap hcandidates)
    | some ref => rw [heq'] at hexclusion; cases hexclusion
  | some excluded =>
    rw [heq] at hexclusion
    cases heq' : slot'.exclusion with
    | none => rw [heq'] at hexclusion; cases hexclusion
    | some excluded' =>
      rw [heq'] at hexclusion
      obtain ⟨hexcluded⟩ := hexclusion
      obtain ⟨error, error', herror, hresolve, hresolve'⟩ | ⟨hresolve, hresolve'⟩ :=
        h.seen_resolve hexcluded
      · simp only [hresolve, hresolve']
        exact congrArg Except.error herror
      · simp only [hresolve, hresolve', ok_bind]
        refine seen_bind (seen_vetoed (fun text => ?_) _ _ (MatchSet.stops_congr hcandidates))
          fun vetoes vetoes' hvetoes => ?_
        · refine seen_bind (hcall _ _ _ 0 hexcluded.target.refer) fun attempt attempt' h => ?_
          exact congrArg Except.ok (Attempt.takesAll_congr h _)
        · obtain rfl : vetoes = vetoes' := hvetoes
          have hfound : (candidates.filter fun m => !vetoes.contains m.stop).respell spell =
              (candidates'.filter fun m => !vetoes.contains m.stop).respell spell := by
            rw [MatchSet.respell_filter (fun stop => !vetoes.contains stop),
              MatchSet.respell_filter (fun stop => !vetoes.contains stop), hcandidates]
          refine congrArg Except.ok ?_
          apply Progress.respell_settle
          exact hwrap hfound

theorem seen_call (depth : Nat) (source : Source) {ref ref' : RuleRef}
    (href : c.TwinRefs c' ref ref') (start : Nat) :
    seen (Attempt.respell spell) (c.call depth source ref start) =
      seen (Attempt.respell spell) (c'.call depth source ref' start) := by
  induction depth generalizing source ref ref' start with
  | zero => exact congrArg (Except.error ∘ GrammarError.leftRecursion) href.name
  | succ depth ih =>
    rw [call, call]
    exact h.seen_callOnce (fun source _ _ start href => ih source href start) source href start

theorem seen_ruleMatches (hcount : c.ruleCount = c'.ruleCount) {rule rule' : RuleId}
    (hrule : c.Twins c' rule rule') (source : Source) (start : Nat) :
    seen (Attempt.respell spell) (c.ruleMatches rule source start) =
      seen (Attempt.respell spell) (c'.ruleMatches rule' source start) := by
  have hdepth : c.depthBound source = c'.depthBound source := by
    rw [depthBound, depthBound, hcount]
  rw [ruleMatches, ruleMatches, hdepth]
  exact h.seen_call _ source hrule.refer start

end Renames

end Catalog

end Metasyntax
