import Metasyntax.Catalog
import Metasyntax.Match

/-!
# Enumerating matches

A parser asked at an offset answers with every offset it can stop at, so that the
parts around it can find the longest parse together. Of several ways to stop at
one offset the first found is kept.

Repetitions and options remember their answers per text and offset, failures
included. A grammar error ends the whole enumeration and is never remembered.
What remembering means is up to the computation at hand: one that has caches uses
them, and one that has none finds every answer anew.
-/

set_option autoImplicit false

namespace Metasyntax

structure CacheKey where
  source : Source
  start : Nat
  deriving BEq, ReflBEq, LawfulBEq, Hashable

abbrev Attempt := Except ParseError MatchSet

abbrev MatchCache := Cache CacheKey Attempt

abbrev Caches := Array MatchCache

abbrev Run := ExceptT GrammarError (StateM Caches)

class Remembering (m : Type → Type) where
  /-- The answer of a repetition under a key, which exploring would give. -/
  remember (cache : CacheId) (key : CacheKey) (explore : m Attempt) : m Attempt

def consult (cache : CacheId) (key : CacheKey) : Run (Option Attempt) := do
  let found := ((← get)[cache.index]?).bind (·.peek key)
  modify (·.modify cache.index (·.touch key))
  return found

def remembered (cache : CacheId) (key : CacheKey) (explore : Run Attempt) : Run Attempt := do
  match ← consult cache key with
  | some attempt => return attempt
  | none =>
    let attempt ← explore
    modify (·.modify cache.index (·.insert key attempt))
    return attempt

instance : Remembering Run := ⟨remembered⟩

instance : Remembering (Except GrammarError) := ⟨fun _ _ explore => explore⟩

structure Progress where
  found : MatchSet
  failure : Option ParseError

namespace Progress

def none : Progress := ⟨∅, Option.none⟩

def settle (progress : Progress) (parser : Parser) (start : Nat) : Attempt :=
  if progress.found.isEmpty then .error (.ofCause parser start progress.failure)
  else .ok progress.found

end Progress

namespace Literal

def consumeText (same : Char → Char → Bool) : List Char → List Char → Option (List Char)
  | [], _ => some []
  | _ :: _, [] => none
  | expected :: pattern, actual :: rest =>
    if same expected actual then (consumeText same pattern rest).map (actual :: ·) else none

def consume (literal : Literal) (rest : List Char) : Option (List Char) :=
  match literal.pattern, rest with
  -- At the end of the input not even the empty text matches.
  | _, [] => none
  | .text text, _ :: _ =>
    consumeText (if literal.caseSensitive then (· == ·) else sameLetter) text.toList rest
  | .range first last, c :: _ => if first ≤ c ∧ c ≤ last then some [c] else none

def matchAt (literal : Literal) (source : Source) (start : Nat) : Option Match := do
  let rest ← source.rest start
  let taken ← literal.consume rest
  return ⟨[.literal (String.ofList taken) start], start + byteLength taken⟩

end Literal

section
variable {m : Type → Type} [Monad m] [MonadExceptOf GrammarError m] [Remembering m]

@[specialize]
def sweep (run : Nat → m Attempt) (known : MatchSet) : List Match → Progress → m Progress
  | [], progress => pure progress
  | head :: heads, progress => do
    match ← run head.stop with
    | .ok tails =>
      sweep run known heads { progress with found := progress.found.extend known head tails }
    | .error failure => sweep run known heads { progress with failure := some failure }

@[specialize]
def repeatExactly (run : Nat → m Attempt) (parser : Parser) (start : Nat) :
    Nat → MatchSet → m Attempt
  | 0, frontier => pure (.ok frontier)
  | count + 1, frontier => do
    let progress ← sweep run ∅ frontier.toList .none
    match progress.settle parser start with
    | .ok next => repeatExactly run parser start count next
    | .error failure => pure (.error failure)

@[specialize]
def repeatFurther (run : Nat → m Attempt) : Nat → MatchSet → List Match → m MatchSet
  | 0, known, _ => pure known
  | rounds + 1, known, frontier => do
    let progress ← sweep run known frontier .none
    -- A round that reaches no new offset is the last one, although there may be matches.
    if progress.found.isEmpty then pure known
    else repeatFurther run rounds (known.union progress.found) progress.found.toList

/-- How many rounds a repetition may go on after its least number of occurrences. In a
text of `size` bytes every round but the last reaches a new offset. -/
def growthRounds (bounds : Bounds) (size : Nat) : Nat :=
  match bounds.max with
  | some most => min (most - bounds.min) (size + 1)
  | none => size + 1

@[specialize]
def repeatBetween (run : Nat → m Attempt) (parser : Parser) (bounds : Bounds) (source : Source)
    (start : Nat) : m Attempt := do
  match ← repeatExactly run parser start bounds.min (.single (.empty start)) with
  | .ok known =>
    let found ← repeatFurther run (growthRounds bounds source.size) known known.toList
    return .ok found
  | .error failure => return .error failure

mutual
@[specialize]
def Parser.enumerate (firstMatch : ModeId → Bool) (call : RuleRef → Nat → m Attempt)
    (source : Source) : Parser → Nat → m Attempt
  | .literal terminal, start =>
    match terminal.matchAt source start with
    | some m => pure (.ok (.single m))
    | none => pure (.error (.ofCause (.literal terminal) start none))
  | .alternation mode branches, start =>
    Parser.tryBranches firstMatch call source (.alternation mode branches) (firstMatch mode) start
      branches .none
  | .concatenation parts, start =>
    Parser.followParts firstMatch call source (.concatenation parts) start parts
      (.single (.empty start))
  | .optional cache element, start =>
    Remembering.remember cache ⟨source, start⟩ <|
      repeatBetween (fun offset => Parser.enumerate firstMatch call source element offset)
        (.optional cache element) .atMostOnce source start
  | .repetition cache bounds element, start =>
    Remembering.remember cache ⟨source, start⟩ <|
      repeatBetween (fun offset => Parser.enumerate firstMatch call source element offset)
        (.repetition cache bounds element) bounds source start
  | .rule ref, start => call ref start
  | .prose text, start => pure (.error (.ofCause (.prose text) start none))

@[specialize]
def Parser.tryBranches (firstMatch : ModeId → Bool) (call : RuleRef → Nat → m Attempt)
    (source : Source) (whole : Parser) (onlyFirst : Bool) (start : Nat) :
    List Parser → Progress → m Attempt
  | [], progress => pure (progress.settle whole start)
  | branch :: rest, progress => do
    match ← Parser.enumerate firstMatch call source branch start with
    | .ok found =>
      if onlyFirst then pure (.ok found)
      else
        Parser.tryBranches firstMatch call source whole onlyFirst start rest
          { progress with found := progress.found.union found }
    | .error failure =>
      Parser.tryBranches firstMatch call source whole onlyFirst start rest
        { progress with failure := some failure }

@[specialize]
def Parser.followParts (firstMatch : ModeId → Bool) (call : RuleRef → Nat → m Attempt)
    (source : Source) (whole : Parser) (start : Nat) : List Parser → MatchSet → m Attempt
  | [], frontier => pure (.ok frontier)
  | part :: rest, frontier => do
    let progress ← sweep (fun offset => Parser.enumerate firstMatch call source part offset)
      ∅ frontier.toList .none
    match progress.settle whole start with
    | .ok next => Parser.followParts firstMatch call source whole start rest next
    | .error failure => pure (.error failure)
end

@[specialize]
def vetoed (accepts : String → m Bool) (source : Source) (start : Nat) :
    List Match → m (List Nat)
  | [] => pure []
  | candidate :: rest => do
    let accepted ← accepts ((source.slice start candidate.stop).getD "")
    let others ← vetoed accepts source start rest
    return if accepted then candidate.stop :: others else others

def Attempt.takesAll (attempt : Attempt) (source : Source) : Bool :=
  match attempt with
  | .ok found => found.longest?.any (source.size ≤ ·.stop)
  | .error _ => false

namespace Catalog

@[specialize]
def callOnce (catalog : Catalog) (call : Source → RuleRef → Nat → m Attempt) (source : Source)
    (ref : RuleRef) (start : Nat) : m Attempt := do
  let rule ← MonadExcept.ofExcept (catalog.resolve ref)
  let (slot, definition) ← MonadExcept.ofExcept (catalog.bound rule)
  let parser := Parser.rule (catalog.refer rule)
  match ← definition.enumerate catalog.firstMatch (call source) source start with
  | .error failure => return .error (.ofCause parser start (some failure))
  | .ok candidates =>
    let wrap := MatchSet.mapNodes fun nodes => [.rule slot.name nodes]
    match slot.exclusion with
    | none => return .ok (wrap candidates)
    | some ref =>
      let excluded ← MonadExcept.ofExcept (catalog.resolve ref)
      -- The excluded rule sees the candidate as a text of its own, and has to take all of it.
      let accepts (text : String) : m Bool := do
        let source := Source.ofString text
        return (← call source (catalog.refer excluded) 0).takesAll source
      let vetoes ← vetoed accepts source start candidates.toList
      let progress : Progress :=
        ⟨wrap (candidates.filter fun m => !vetoes.contains m.stop),
          if vetoes.isEmpty then none
          else some (.ofCause (.rule (catalog.refer excluded)) start none)⟩
      return progress.settle parser start

/-- The matches of a rule, where calls may nest up to `depth`. -/
@[specialize]
def call (catalog : Catalog) : Nat → Source → RuleRef → Nat → m Attempt
  | 0, _, ref, _ => throw (.leftRecursion ref.name)
  | depth + 1, source, ref, start => callOnce catalog (call catalog depth) source ref start

/-- How deep calls can nest in a text unless a rule calls itself on the same stretch of
it. -/
def depthBound (catalog : Catalog) (source : Source) : Nat :=
  catalog.ruleCount * ((source.size + 1) * (source.size + 1) + 2) + 1

@[specialize]
def matchesOf (catalog : Catalog) (parser : Parser) (source : Source) (start : Nat) : m Attempt :=
  parser.enumerate catalog.firstMatch (catalog.call (catalog.depthBound source) source) source start

@[specialize]
def ruleMatches (catalog : Catalog) (rule : RuleId) (source : Source) (start : Nat) : m Attempt :=
  catalog.call (catalog.depthBound source) source (catalog.refer rule) start

@[specialize]
def parse (catalog : Catalog) (rule : RuleId) (source : Source) (start : Nat) :
    m (Except ParseError (Node × Nat)) := do
  match ← catalog.ruleMatches rule source start with
  | .error failure => return .error failure
  | .ok found =>
    match found.longest? with
    | some ⟨node :: _, stop⟩ => return .ok (node, stop)
    | _ => return .error (.ofCause (.rule (catalog.refer rule)) start none)

@[specialize]
def parseAll (catalog : Catalog) (rule : RuleId) (source : Source) :
    m (Except ParseError Node) := do
  match ← catalog.parse rule source 0 with
  | .error failure => return .error failure
  | .ok (node, stop) =>
    if stop < source.size then
      return .error (.ofCause (.rule (catalog.refer rule)) stop none)
    else return .ok node

end Catalog

end

end Metasyntax
