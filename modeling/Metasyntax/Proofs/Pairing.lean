import Metasyntax.Proofs.Grouping
import Metasyntax.Proofs.Renaming

/-!
# Runs side by side

Two catalogs may differ in the identities of modes, and in how the alternatives of a rule are
put into groups. Their runs then differ in what they report of failures, and in nothing else.
What relates the two runs is kept open: it has to be kept by sequencing and must not look at
reports. Then it holds of the runs of rules if it holds of the answers that are remembered.
-/

set_option autoImplicit false

namespace Metasyntax

def Attempt.Same (attempt attempt' : Attempt) : Prop := attempt.toOption = attempt'.toOption

theorem Attempt.Same.cases {attempt attempt' : Attempt} (h : attempt.Same attempt') :
    (∃ found, attempt = .ok found ∧ attempt' = .ok found) ∨
      ∃ failure failure', attempt = .error failure ∧ attempt' = .error failure' := by
  cases attempt with
  | ok found =>
    cases attempt' with
    | ok found' => exact Or.inl ⟨found, rfl, congrArg Except.ok (Option.some.inj h).symm⟩
    | error failure => cases h
  | error failure =>
    cases attempt' with
    | ok found' => cases h
    | error failure' => exact Or.inr ⟨failure, failure', rfl, rfl⟩

def Progress.Same (progress progress' : Progress) : Prop := progress.found = progress'.found

theorem Progress.Same.settle {progress progress' : Progress} (h : progress.Same progress')
    (parser parser' : Parser) (start : Nat) :
    (progress.settle parser start).Same (progress'.settle parser' start) := by
  rw [Attempt.Same, toOption_settle, toOption_settle, h]

structure Pairing (m₁ m₂ : Type → Type) [Monad m₁] [Monad m₂] [MonadExceptOf GrammarError m₁]
    [MonadExceptOf GrammarError m₂] where
  rel {α β : Type} (post : α → β → Prop) (x₁ : m₁ α) (x₂ : m₂ β) : Prop
  pure {α β : Type} {post : α → β → Prop} {a : α} {b : β} :
    post a b → rel post (Pure.pure a) (Pure.pure b)
  bind {α β γ δ : Type} {post : α → β → Prop} {post' : γ → δ → Prop} {x₁ : m₁ α} {x₂ : m₂ β}
    {f₁ : α → m₁ γ} {f₂ : β → m₂ δ} :
    rel post x₁ x₂ → (∀ a b, post a b → rel post' (f₁ a) (f₂ b)) → rel post' (x₁ >>= f₁) (x₂ >>= f₂)
  throw {α β : Type} {post : α → β → Prop} (error : GrammarError) :
    rel post (throwThe GrammarError error : m₁ α) (throwThe GrammarError error : m₂ β)
  left {x₁ y₁ : m₁ Attempt} {x₂ : m₂ Attempt} :
    Except.toOption <$> x₁ = Except.toOption <$> y₁ → rel Attempt.Same x₁ x₂ →
      rel Attempt.Same y₁ x₂
  right {x₁ : m₁ Attempt} {x₂ y₂ : m₂ Attempt} :
    Except.toOption <$> x₂ = Except.toOption <$> y₂ → rel Attempt.Same x₁ x₂ →
      rel Attempt.Same x₁ y₂

namespace Pairing

section
variable {m₁ m₂ : Type → Type} [Monad m₁] [Monad m₂] [MonadExceptOf GrammarError m₁]
  [MonadExceptOf GrammarError m₂] [Remembering m₁] [Remembering m₂] (P : Pairing m₁ m₂)

section
variable {run₁ : Nat → m₁ Attempt} {run₂ : Nat → m₂ Attempt}
  (hrun : ∀ start, P.rel Attempt.Same (run₁ start) (run₂ start))
include hrun

omit [Remembering m₁] [Remembering m₂] in
theorem rel_sweep (known : MatchSet) (heads : List Match) {progress progress' : Progress}
    (hprogress : progress.Same progress') :
    P.rel Progress.Same (sweep run₁ known heads progress)
      (sweep run₂ known heads progress') := by
  induction heads generalizing progress progress' with
  | nil => exact P.pure hprogress
  | cons head heads ih =>
    rw [sweep, sweep]
    refine P.bind (hrun head.stop) fun attempt attempt' hattempt => ?_
    obtain ⟨tails, rfl, rfl⟩ | ⟨failure, failure', rfl, rfl⟩ := hattempt.cases
    · exact ih (congrArg (fun found => MatchSet.extend found known head tails) hprogress)
    · exact ih hprogress

omit [Remembering m₁] [Remembering m₂] in
theorem rel_repeatExactly (parser parser' : Parser) (start count : Nat) (frontier : MatchSet) :
    P.rel Attempt.Same (repeatExactly run₁ parser start count frontier)
      (repeatExactly run₂ parser' start count frontier) := by
  induction count generalizing frontier with
  | zero => exact P.pure rfl
  | succ count ih =>
    rw [repeatExactly, repeatExactly]
    refine P.bind (P.rel_sweep hrun ∅ _ rfl) fun progress progress' hprogress => ?_
    obtain ⟨next, hnext, hnext'⟩ | ⟨failure, failure', hfail, hfail'⟩ :=
      (hprogress.settle parser parser' start).cases
    · rw [hnext, hnext']
      exact ih next
    · rw [hfail, hfail']
      exact P.pure rfl

omit [Remembering m₁] [Remembering m₂] in
theorem rel_repeatFurther (rounds : Nat) (known : MatchSet) (frontier : List Match) :
    P.rel (· = ·) (repeatFurther run₁ rounds known frontier)
      (repeatFurther run₂ rounds known frontier) := by
  induction rounds generalizing known frontier with
  | zero => exact P.pure rfl
  | succ rounds ih =>
    rw [repeatFurther, repeatFurther]
    refine P.bind (P.rel_sweep hrun known frontier rfl) fun progress progress' hprogress => ?_
    rw [Progress.Same] at hprogress
    rw [hprogress]
    split
    · exact P.pure rfl
    · exact ih _ _

omit [Remembering m₁] [Remembering m₂] in
theorem rel_repeatBetween (parser parser' : Parser) (bounds : Bounds) (source : Source)
    (start : Nat) :
    P.rel Attempt.Same (repeatBetween run₁ parser bounds source start)
      (repeatBetween run₂ parser' bounds source start) := by
  rw [repeatBetween, repeatBetween]
  refine P.bind (P.rel_repeatExactly hrun parser parser' start bounds.min _)
    fun attempt attempt' hattempt => ?_
  obtain ⟨known, rfl, rfl⟩ | ⟨failure, failure', rfl, rfl⟩ := hattempt.cases
  · refine P.bind (P.rel_repeatFurther hrun _ known known.toList) fun found found' hfound => ?_
    exact P.pure (congrArg some hfound)
  · exact P.pure rfl

end

end

end Pairing

mutual
def Parser.Echoes (modes : ModeId → ModeId → Prop) : Parser → Parser → Prop
  | .literal terminal, other => other = .literal terminal
  | .alternation mode branches, other => ∃ mode' branches', other = .alternation mode' branches' ∧
    modes mode mode' ∧ EchoesAll modes branches branches'
  | .concatenation parts, other => ∃ parts', other = .concatenation parts' ∧
    EchoesAll modes parts parts'
  | .optional cache element, other => ∃ element', other = .optional cache element' ∧
    element.Echoes modes element'
  | .repetition cache bounds element, other => ∃ element',
    other = .repetition cache bounds element' ∧ element.Echoes modes element'
  | .rule ref, other => other = .rule ref
  | .prose text, other => other = .prose text

def Parser.EchoesAll (modes : ModeId → ModeId → Prop) : List Parser → List Parser → Prop
  | [], others => others = []
  | parser :: rest, others => ∃ parser' rest', others = parser' :: rest' ∧
    parser.Echoes modes parser' ∧ EchoesAll modes rest rest'
end

namespace Parser

variable {modes modes' : ModeId → ModeId → Prop}

mutual
theorem Echoes.mono (hmodes : ∀ mode mode', modes mode mode' → modes' mode mode') :
    (parser : Parser) → {parser' : Parser} → parser.Echoes modes parser' →
      parser.Echoes modes' parser'
  | .literal _, _, h | .rule _, _, h | .prose _, _, h => h
  | .alternation _ branches, _, ⟨mode', branches', heq, hmode, hbranches⟩ =>
    ⟨mode', branches', heq, hmodes _ _ hmode, EchoesAll.mono hmodes branches hbranches⟩
  | .concatenation parts, _, ⟨parts', heq, hparts⟩ => ⟨parts', heq, EchoesAll.mono hmodes parts hparts⟩
  | .optional _ element, _, ⟨element', heq, helement⟩ =>
    ⟨element', heq, Echoes.mono hmodes element helement⟩
  | .repetition _ _ element, _, ⟨element', heq, helement⟩ =>
    ⟨element', heq, Echoes.mono hmodes element helement⟩

theorem EchoesAll.mono (hmodes : ∀ mode mode', modes mode mode' → modes' mode mode') :
    (parsers : List Parser) → {parsers' : List Parser} → EchoesAll modes parsers parsers' →
      EchoesAll modes' parsers parsers'
  | [], _, h => h
  | parser :: rest, _, ⟨parser', rest', heq, hparser, hrest⟩ =>
    ⟨parser', rest', heq, Echoes.mono hmodes parser hparser, EchoesAll.mono hmodes rest hrest⟩
end

mutual
/-- A parser echoes itself if its modes are in the relation. -/
theorem echoes_self (parser : Parser)
    (hmode : ∀ mode branches, .alternation mode branches ∈ parser.walk → modes mode mode) :
    parser.Echoes modes parser := by
  cases parser with
  | literal terminal | rule ref | prose text => rfl
  | alternation mode branches =>
    rw [walk] at hmode
    exact ⟨mode, branches, rfl, hmode mode branches List.mem_cons_self,
      echoesAll_self branches fun mode branches h => hmode mode branches (List.mem_cons_of_mem _ h)⟩
  | concatenation parts =>
    rw [walk] at hmode
    exact ⟨parts, rfl,
      echoesAll_self parts fun mode branches h => hmode mode branches (List.mem_cons_of_mem _ h)⟩
  | optional cache element =>
    rw [walk] at hmode
    exact ⟨element, rfl,
      echoes_self element fun mode branches h => hmode mode branches (List.mem_cons_of_mem _ h)⟩
  | repetition cache bounds element =>
    rw [walk] at hmode
    exact ⟨element, rfl,
      echoes_self element fun mode branches h => hmode mode branches (List.mem_cons_of_mem _ h)⟩

theorem echoesAll_self (parsers : List Parser)
    (hmode : ∀ mode branches, .alternation mode branches ∈ walkAll parsers → modes mode mode) :
    EchoesAll modes parsers parsers := by
  cases parsers with
  | nil => rfl
  | cons parser rest =>
    rw [walkAll] at hmode
    exact ⟨parser, rest, rfl,
      echoes_self parser fun mode branches h => hmode mode branches (List.mem_append_left _ h),
      echoesAll_self rest fun mode branches h => hmode mode branches (List.mem_append_right _ h)⟩
end

theorem EchoesAll.append {parsers parsers' others others' : List Parser}
    (h : EchoesAll modes parsers parsers') (h' : EchoesAll modes others others') :
    EchoesAll modes (parsers ++ others) (parsers' ++ others') := by
  induction parsers generalizing parsers' with
  | nil =>
    rw [show parsers' = [] from h]
    exact h'
  | cons parser rest ih =>
    obtain ⟨parser', rest', rfl, hparser, hrest⟩ := h
    exact ⟨parser', rest' ++ others', rfl, hparser, ih hrest⟩

theorem EchoesAll.length_eq {parsers parsers' : List Parser}
    (h : EchoesAll modes parsers parsers') : parsers'.length = parsers.length := by
  induction parsers generalizing parsers' with
  | nil => rw [show parsers' = [] from h]
  | cons parser rest ih =>
    obtain ⟨parser', rest', rfl, -, hrest⟩ := h
    simp [ih hrest]

end Parser

structure Pairing.Links {m₁ m₂ : Type → Type} [Monad m₁] [Monad m₂]
    [MonadExceptOf GrammarError m₁] [MonadExceptOf GrammarError m₂] [Remembering m₁]
    [Remembering m₂] (P : Pairing m₁ m₂) (source : Source) (firstMatch₁ firstMatch₂ : ModeId → Bool)
    (call₁ : RuleRef → Nat → m₁ Attempt) (call₂ : RuleRef → Nat → m₂ Attempt)
    (modes : ModeId → ModeId → Prop) (nodes nodes' : Set Parser) : Prop where
  mode : ∀ mode mode', modes mode mode' → firstMatch₁ mode = firstMatch₂ mode'
  call : ∀ ref start, P.rel Attempt.Same (call₁ ref start) (call₂ ref start)
  remember : ∀ node ∈ nodes, ∀ node' ∈ nodes', node.Echoes modes node' → ∀ cache,
    node.cache? = some cache → node'.cache? = some cache → ∀ start,
      P.rel Attempt.Same (node.explore firstMatch₁ call₁ source start)
        (node'.explore firstMatch₂ call₂ source start) →
      P.rel Attempt.Same
        (Remembering.remember cache ⟨source, start⟩ (node.explore firstMatch₁ call₁ source start))
        (Remembering.remember cache ⟨source, start⟩ (node'.explore firstMatch₂ call₂ source start))

namespace Pairing.Links

variable {m₁ m₂ : Type → Type} [Monad m₁] [Monad m₂] [MonadExceptOf GrammarError m₁]
  [MonadExceptOf GrammarError m₂] [Remembering m₁] [Remembering m₂] {P : Pairing m₁ m₂}
  {source : Source} {firstMatch₁ firstMatch₂ : ModeId → Bool}
  {call₁ : RuleRef → Nat → m₁ Attempt} {call₂ : RuleRef → Nat → m₂ Attempt}
  {modes : ModeId → ModeId → Prop} {nodes nodes' : Set Parser}

mutual
theorem enumerate (h : P.Links source firstMatch₁ firstMatch₂ call₁ call₂ modes nodes nodes')
    (parser : Parser) {parser' : Parser} (hechoes : parser.Echoes modes parser')
    (hnodes : ∀ part ∈ parser.walk, part ∈ nodes) (hnodes' : ∀ part ∈ parser'.walk, part ∈ nodes')
    (start : Nat) :
    P.rel Attempt.Same (parser.enumerate firstMatch₁ call₁ source start)
      (parser'.enumerate firstMatch₂ call₂ source start) := by
  have hself := hnodes _ parser.self_mem_walk
  have hself' := hnodes' _ parser'.self_mem_walk
  cases parser with
  | literal terminal =>
    rw [Parser.Echoes] at hechoes
    subst hechoes
    rw [Parser.enumerate, Parser.enumerate]
    split <;> exact P.pure rfl
  | alternation mode branches =>
    obtain ⟨mode', branches', rfl, hmode, hbranches⟩ := hechoes
    rw [Parser.enumerate, Parser.enumerate, h.mode mode mode' hmode]
    simp only [Parser.walk, List.forall_mem_cons] at hnodes hnodes'
    exact tryBranches h branches hbranches hnodes.2 hnodes'.2 _ _ _ start rfl
  | concatenation parts =>
    obtain ⟨parts', rfl, hparts⟩ := hechoes
    rw [Parser.enumerate, Parser.enumerate]
    simp only [Parser.walk, List.forall_mem_cons] at hnodes hnodes'
    exact followParts h parts hparts hnodes.2 hnodes'.2 _ _ start _
  | optional cache element =>
    have hboth := hechoes
    obtain ⟨element', rfl, helement⟩ := hechoes
    simp only [Parser.walk, List.forall_mem_cons] at hnodes hnodes'
    have hcache (element : Parser) : (Parser.optional cache element).cache? = some cache := rfl
    rw [Parser.enumerate_eq_remember _ _ _ (hcache element),
      Parser.enumerate_eq_remember _ _ _ (hcache element')]
    exact h.remember _ hself _ hself' hboth cache rfl rfl start
      (P.rel_repeatBetween (enumerate h element helement hnodes.2 hnodes'.2) _ _ _ source start)
  | repetition cache bounds element =>
    have hboth := hechoes
    obtain ⟨element', rfl, helement⟩ := hechoes
    simp only [Parser.walk, List.forall_mem_cons] at hnodes hnodes'
    have hcache (element : Parser) :
        (Parser.repetition cache bounds element).cache? = some cache := rfl
    rw [Parser.enumerate_eq_remember _ _ _ (hcache element),
      Parser.enumerate_eq_remember _ _ _ (hcache element')]
    exact h.remember _ hself _ hself' hboth cache rfl rfl start
      (P.rel_repeatBetween (enumerate h element helement hnodes.2 hnodes'.2) _ _ _ source start)
  | rule ref =>
    rw [Parser.Echoes] at hechoes
    subst hechoes
    rw [Parser.enumerate, Parser.enumerate]
    exact h.call ref start
  | prose text =>
    rw [Parser.Echoes] at hechoes
    subst hechoes
    rw [Parser.enumerate, Parser.enumerate]
    exact P.pure rfl

theorem tryBranches (h : P.Links source firstMatch₁ firstMatch₂ call₁ call₂ modes nodes nodes')
    (branches : List Parser) {branches' : List Parser}
    (hechoes : Parser.EchoesAll modes branches branches')
    (hnodes : ∀ part ∈ Parser.walkAll branches, part ∈ nodes)
    (hnodes' : ∀ part ∈ Parser.walkAll branches', part ∈ nodes') (whole whole' : Parser)
    (onlyFirst : Bool) (start : Nat) {progress progress' : Progress}
    (hprogress : progress.Same progress') :
    P.rel Attempt.Same
      (Parser.tryBranches firstMatch₁ call₁ source whole onlyFirst start branches progress)
      (Parser.tryBranches firstMatch₂ call₂ source whole' onlyFirst start branches' progress') := by
  cases branches with
  | nil =>
    rw [show branches' = [] from hechoes, Parser.tryBranches, Parser.tryBranches]
    exact P.pure (hprogress.settle whole whole' start)
  | cons branch rest =>
    obtain ⟨branch', rest', rfl, hbranch, hrest⟩ := hechoes
    simp only [Parser.walkAll, List.forall_mem_append] at hnodes hnodes'
    rw [Parser.tryBranches, Parser.tryBranches]
    refine P.bind (enumerate h branch hbranch hnodes.1 hnodes'.1 start)
      fun attempt attempt' hattempt => ?_
    obtain ⟨found, rfl, rfl⟩ | ⟨failure, failure', rfl, rfl⟩ := hattempt.cases
    · cases onlyFirst with
      | true => exact P.pure rfl
      | false =>
        exact tryBranches h rest hrest hnodes.2 hnodes'.2 _ _ _ start
          (congrArg (fun before => MatchSet.union before found) hprogress)
    · exact tryBranches h rest hrest hnodes.2 hnodes'.2 _ _ _ start hprogress

theorem followParts (h : P.Links source firstMatch₁ firstMatch₂ call₁ call₂ modes nodes nodes')
    (parts : List Parser) {parts' : List Parser}
    (hechoes : Parser.EchoesAll modes parts parts')
    (hnodes : ∀ part ∈ Parser.walkAll parts, part ∈ nodes)
    (hnodes' : ∀ part ∈ Parser.walkAll parts', part ∈ nodes') (whole whole' : Parser) (start : Nat)
    (frontier : MatchSet) :
    P.rel Attempt.Same
      (Parser.followParts firstMatch₁ call₁ source whole start parts frontier)
      (Parser.followParts firstMatch₂ call₂ source whole' start parts' frontier) := by
  cases parts with
  | nil =>
    rw [show parts' = [] from hechoes, Parser.followParts, Parser.followParts]
    exact P.pure rfl
  | cons part rest =>
    obtain ⟨part', rest', rfl, hpart, hrest⟩ := hechoes
    simp only [Parser.walkAll, List.forall_mem_append] at hnodes hnodes'
    rw [Parser.followParts, Parser.followParts]
    refine P.bind (P.rel_sweep (enumerate h part hpart hnodes.1 hnodes'.1) ∅ _ rfl)
      fun progress progress' hprogress => ?_
    obtain ⟨next, hnext, hnext'⟩ | ⟨failure, failure', hfail, hfail'⟩ :=
      (hprogress.settle whole whole' start).cases
    · rw [hnext, hnext']
      exact followParts h rest hrest hnodes.2 hnodes'.2 whole whole' start next
    · rw [hfail, hfail']
      exact P.pure rfl
end

/-- Parsers are run alike that gather alternatives which echo one another. -/
theorem gathered [LawfulMonad m₁] [LawfulMonad m₂]
    (h : P.Links source firstMatch₁ firstMatch₂ call₁ call₂ modes nodes nodes')
    {onlyFirst : Bool} {branches branches' : List Parser} {parser parser' : Parser}
    (hgathers : parser.Gathers (firstMatch₁ · = onlyFirst) branches)
    (hgathers' : parser'.Gathers (firstMatch₂ · = onlyFirst) branches')
    (hechoes : Parser.EchoesAll modes branches branches')
    (hnodes : ∀ part ∈ parser.walk, part ∈ nodes) (hnodes' : ∀ part ∈ parser'.walk, part ∈ nodes')
    (start : Nat) :
    P.rel Attempt.Same (parser.enumerate firstMatch₁ call₁ source start)
      (parser'.enumerate firstMatch₂ call₂ source start) := by
  have hlength := hechoes.length_eq
  by_cases hmany : 2 ≤ branches.length
  · have hnone : Progress.none.Same .none := rfl
    have hbranches := tryBranches h branches hechoes
      (fun part hpart => hnodes part (hgathers.mem_walk hpart))
      (fun part hpart => hnodes' part (hgathers'.mem_walk hpart)) parser parser' onlyFirst start
      hnone
    exact P.right (hgathers'.toOption_enumerate (by omega) parser').symm
      (P.left (hgathers.toOption_enumerate hmany parser).symm hbranches)
  · have hone : branches.length = 1 := by
      have := hgathers.length_pos
      omega
    obtain rfl := hgathers.eq_singleton hone
    obtain rfl := hgathers'.eq_singleton (hlength.trans hone)
    obtain ⟨_, _, heq, hparser, -⟩ := hechoes
    obtain rfl := (List.cons.inj heq).1
    exact enumerate h parser hparser hnodes hnodes' start

end Pairing.Links

namespace Pairing

section
variable {m₁ m₂ : Type → Type} [Monad m₁] [Monad m₂] [MonadExceptOf GrammarError m₁]
  [MonadExceptOf GrammarError m₂] (P : Pairing m₁ m₂)

theorem ofExcept {α β : Type} {x : Except GrammarError α} {y : Except GrammarError β}
    (h : ∀ error, x = .error error ↔ y = .error error) :
    P.rel (fun a b => x = .ok a ∧ y = .ok b) (MonadExcept.ofExcept x) (MonadExcept.ofExcept y) := by
  cases x with
  | ok a =>
    cases y with
    | ok b => exact P.pure ⟨rfl, rfl⟩
    | error error => cases (h error).2 rfl
  | error error =>
    obtain rfl := (h error).1 rfl
    exact P.throw error

theorem rel_vetoed {accepts₁ : String → m₁ Bool} {accepts₂ : String → m₂ Bool}
    (haccepts : ∀ text, P.rel (· = ·) (accepts₁ text) (accepts₂ text)) (source : Source)
    (start : Nat) (candidates : List Match) :
    P.rel (· = ·) (vetoed accepts₁ source start candidates)
      (vetoed accepts₂ source start candidates) := by
  induction candidates with
  | nil => exact P.pure rfl
  | cons candidate rest ih =>
    rw [vetoed, vetoed]
    refine P.bind (haccepts _) fun accepted _ haccepted => P.bind ih fun others _ hothers => ?_
    subst haccepted hothers
    exact P.pure rfl

end

end Pairing

theorem rel_cases {α β : Type} {R : α → β → Prop} {a : Option α} {b : Option β}
    (h : Option.Rel R a b) :
    (a = none ∧ b = none) ∨ ∃ x y, a = some x ∧ b = some y ∧ R x y := by
  cases h with
  | none => exact Or.inl ⟨rfl, rfl⟩
  | some h => exact Or.inr ⟨_, _, rfl, rfl, h⟩

namespace Catalog

def Regroups (c c' : Catalog) (definition definition' : Parser) : Prop :=
  ∃ onlyFirst branches branches', definition.Gathers (c.firstMatch · = onlyFirst) branches ∧
    definition'.Gathers (c'.firstMatch · = onlyFirst) branches' ∧
      Parser.EchoesAll (c.SameMode c') branches branches'

structure SlotRegroups (c c' : Catalog) (slot slot' : Slot) : Prop where
  name : slot'.name = slot.name
  exclusion : slot'.exclusion = slot.exclusion
  definition : Option.Rel (c.Regroups c') slot.definition slot'.definition

structure Reshapes (c c' : Catalog) : Prop where
  alive : ∀ id, c'.alive id = c.alive id
  slot : ∀ rule, Option.Rel (c.SlotRegroups c') (c.slot? rule) (c'.slot? rule)

namespace Reshapes

variable {c c' : Catalog} (h : c.Reshapes c')
include h

theorem refer (rule : RuleId) : c'.refer rule = c.refer rule := by
  rw [Catalog.refer, Catalog.refer, nameOf, nameOf]
  obtain ⟨hold, hnew⟩ | ⟨slot, slot', hold, hnew, hslot⟩ := rel_cases (h.slot rule)
  · rw [hold, hnew]
  · rw [hold, hnew, Option.map_some, Option.map_some, hslot.name]

theorem resolve (ref : RuleRef) : c'.resolve ref = c.resolve ref := by
  rw [Catalog.resolve, Catalog.resolve, h.alive]

theorem ruleCount : c'.ruleCount = c.ruleCount := by
  apply ruleCount_congr
  intro rule
  rw [definition?, definition?]
  obtain ⟨hold, hnew⟩ | ⟨slot, slot', hold, hnew, hslot⟩ := rel_cases (h.slot rule)
  · rw [hold, hnew]
  · rw [hold, hnew, Option.bind_some, Option.bind_some]
    obtain ⟨hbefore, hafter⟩ | ⟨definition, definition', hbefore, hafter, -⟩ :=
      rel_cases hslot.definition
    · rw [hbefore, hafter]
    · rw [hbefore, hafter]
      rfl

theorem bound (rule : RuleId) :
    (∃ error, c.bound rule = .error error ∧ c'.bound rule = .error error) ∨
      ∃ slot definition slot' definition', c.bound rule = .ok (slot, definition) ∧
        c'.bound rule = .ok (slot', definition') ∧ slot'.name = slot.name ∧
          slot'.exclusion = slot.exclusion ∧ c.Regroups c' definition definition' := by
  have hname : c'.nameOf rule = c.nameOf rule := congrArg RuleRef.name (h.refer rule)
  obtain ⟨hold, hnew⟩ | ⟨slot, slot', hold, hnew, hslot⟩ := rel_cases (h.slot rule)
  · refine Or.inl ⟨.danglingRule (c.nameOf rule), ?_, ?_⟩
    · rw [Catalog.bound, hold]
    · rw [Catalog.bound, hnew, hname]
  obtain ⟨hbefore, hafter⟩ | ⟨definition, definition', hbefore, hafter, hregroups⟩ :=
    rel_cases hslot.definition
  · refine Or.inl ⟨.undefinedRule slot.name, ?_, ?_⟩
    · simp only [Catalog.bound, hold, hbefore]
    · simp only [Catalog.bound, hnew, hafter, hslot.name]
  · exact Or.inr ⟨slot, definition, slot', definition', bound_eq_ok_iff.2 ⟨hold, hbefore⟩,
      bound_eq_ok_iff.2 ⟨hnew, hafter⟩, hslot.name, hslot.exclusion, hregroups⟩

section
variable {m₁ m₂ : Type → Type} [Monad m₁] [Monad m₂] [MonadExceptOf GrammarError m₁]
  [MonadExceptOf GrammarError m₂] [Remembering m₁] [Remembering m₂] (P : Pairing m₁ m₂)
  {call₁ : Source → RuleRef → Nat → m₁ Attempt} {call₂ : Source → RuleRef → Nat → m₂ Attempt}

/-- Rules are run alike as soon as calls and definitions are. -/
theorem callOnce (hcall : ∀ source ref start,
      P.rel Attempt.Same (call₁ source ref start) (call₂ source ref start))
    (hdefinition : ∀ rule slot definition slot' definition',
      c.bound rule = .ok (slot, definition) → c'.bound rule = .ok (slot', definition') →
        c.Regroups c' definition definition' → ∀ source start, P.rel Attempt.Same
          (definition.enumerate c.firstMatch (call₁ source) source start)
          (definition'.enumerate c'.firstMatch (call₂ source) source start))
    (source : Source) (ref : RuleRef) (start : Nat) :
    P.rel Attempt.Same (c.callOnce call₁ source ref start) (c'.callOnce call₂ source ref start) := by
  rw [Catalog.callOnce, Catalog.callOnce, h.resolve]
  refine P.bind (P.ofExcept fun error => Iff.rfl) ?_
  rintro rule _ ⟨hresolve, hresolve'⟩
  cases hresolve.symm.trans hresolve'
  have hbound : ∀ error, c.bound rule = .error error ↔ c'.bound rule = .error error := by
    obtain ⟨error, herror, herror'⟩ | ⟨_, _, _, _, hok, hok', -⟩ := h.bound rule
    · rw [herror, herror']
      exact fun _ => Iff.rfl
    · rw [hok, hok']
      exact fun _ => iff_of_false (by rintro ⟨⟩) (by rintro ⟨⟩)
  refine P.bind (P.ofExcept hbound) ?_
  rintro ⟨slot, definition⟩ ⟨slot', definition'⟩ ⟨hok, hok'⟩
  obtain ⟨error, herror, -⟩ | ⟨_, _, _, _, hsame, hsame', hname, hexclusion, hregroups⟩ :=
    h.bound rule
  · cases hok.symm.trans herror
  cases hok.symm.trans hsame
  cases hok'.symm.trans hsame'
  refine P.bind (hdefinition _ _ _ _ _ hok hok' hregroups source start)
    fun attempt attempt' hattempt => ?_
  obtain ⟨candidates, rfl, rfl⟩ | ⟨failure, failure', rfl, rfl⟩ := hattempt.cases
  swap
  · exact P.pure rfl
  dsimp only
  rw [hexclusion, hname]
  cases slot.exclusion with
  | none => exact P.pure rfl
  | some excluded =>
    dsimp only
    rw [h.resolve]
    refine P.bind (P.ofExcept fun error => Iff.rfl) ?_
    rintro target _ ⟨htarget, htarget'⟩
    cases htarget.symm.trans htarget'
    rw [h.refer]
    refine P.bind (P.rel_vetoed (fun text => ?_) source start candidates.toList) ?_
    · refine P.bind (hcall _ _ 0) fun attempt attempt' hattempt => P.pure ?_
      obtain ⟨found, rfl, rfl⟩ | ⟨failure, failure', rfl, rfl⟩ := hattempt.cases <;> rfl
    · rintro vetoes _ rfl
      exact P.pure (Progress.Same.settle rfl _ _ start)

end

end Reshapes

end Catalog

def Pairing.plain : Pairing (Except GrammarError) (Except GrammarError) where
  rel post x y := (∃ error, x = .error error ∧ y = .error error) ∨
    ∃ a b, x = .ok a ∧ y = .ok b ∧ post a b
  pure h := Or.inr ⟨_, _, rfl, rfl, h⟩
  bind {α β γ δ post post' x y f g} h hf := by
    obtain ⟨error, rfl, rfl⟩ | ⟨a, b, rfl, rfl, hpost⟩ := h
    · exact Or.inl ⟨error, rfl, rfl⟩
    · exact hf a b hpost
  throw error := Or.inl ⟨error, rfl, rfl⟩
  left {x y z} hsame h := by
    obtain ⟨error, rfl, rfl⟩ | ⟨a, b, rfl, rfl, hpost⟩ := h
    · cases y with
      | error error' => exact Or.inl ⟨error, congrArg Except.error (Except.error.inj hsame).symm, rfl⟩
      | ok a => cases hsame
    · cases y with
      | error error' => cases hsame
      | ok a' => exact Or.inr ⟨a', b, rfl, rfl, (Except.ok.inj hsame).symm.trans hpost⟩
  right {x y z} hsame h := by
    obtain ⟨error, rfl, rfl⟩ | ⟨a, b, rfl, rfl, hpost⟩ := h
    · cases z with
      | error error' => exact Or.inl ⟨error, rfl, congrArg Except.error (Except.error.inj hsame).symm⟩
      | ok b => cases hsame
    · cases z with
      | error error' => cases hsame
      | ok b' => exact Or.inr ⟨a, b', rfl, rfl, hpost.trans (Except.ok.inj hsame)⟩

def shown (outcome : Except GrammarError Attempt) : Except GrammarError (Option MatchSet) :=
  outcome.map Except.toOption

theorem Pairing.shown_eq_of_plain {x y : Except GrammarError Attempt}
    (h : plain.rel Attempt.Same x y) : shown x = shown y := by
  obtain ⟨error, rfl, rfl⟩ | ⟨a, b, rfl, rfl, hsame⟩ := h
  · rfl
  · exact congrArg Except.ok hsame

namespace Catalog.Reshapes

variable {c c' : Catalog} (h : c.Reshapes c')
include h

theorem call_same (depth : Nat) (source : Source) (ref : RuleRef) (start : Nat) :
    Pairing.plain.rel Attempt.Same (c.call depth source ref start)
      (c'.call depth source ref start) := by
  induction depth generalizing source ref start with
  | zero => exact Pairing.plain.throw _
  | succ depth ih =>
    refine h.callOnce Pairing.plain ih ?_ source ref start
    rintro rule slot definition slot' definition' - -
      ⟨onlyFirst, branches, branches', hgathers, hgathers', hechoes⟩ source start
    have hlinks : Pairing.plain.Links source c.firstMatch c'.firstMatch (c.call depth source)
        (c'.call depth source) (c.SameMode c') Set.univ Set.univ :=
      { mode := fun _ _ hmode => hmode
        call := ih source
        remember := fun _ _ _ _ _ _ _ _ _ hexplore => hexplore }
    exact hlinks.gathered hgathers hgathers' hechoes (fun _ _ => Set.mem_univ _)
      (fun _ _ => Set.mem_univ _) start

theorem depthBound (source : Source) : c'.depthBound source = c.depthBound source := by
  rw [Catalog.depthBound, Catalog.depthBound, h.ruleCount]

theorem shown_ruleMatches (rule : RuleId) (source : Source) (start : Nat) :
    shown (c.ruleMatches rule source start) = shown (c'.ruleMatches rule source start) := by
  rw [ruleMatches, ruleMatches, h.depthBound, h.refer]
  exact Pairing.shown_eq_of_plain (h.call_same _ source _ start)

end Catalog.Reshapes

end Metasyntax
