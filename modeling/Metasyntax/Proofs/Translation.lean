import Metasyntax.Proofs.Headway
import Metasyntax.Proofs.Reconfiguration

/-!
# Parses from an offset on

A parse that starts at an offset finds what a parse of the text from there on finds at the
start of it. Only the offsets differ: where matches stop, where leaves are and where parsers
failed is later by what was skipped, which has no other influence on a parse.
-/

set_option autoImplicit false

namespace Metasyntax

mutual
def Node.shift (skipped : Nat) : Node → Node
  | .rule name children => .rule name (shiftAll skipped children)
  | .literal value offset => .literal value (skipped + offset)

def Node.shiftAll (skipped : Nat) : List Node → List Node
  | [] => []
  | node :: rest => node.shift skipped :: shiftAll skipped rest
end

def Match.shift (skipped : Nat) (m : Match) : Match :=
  ⟨Node.shiftAll skipped m.nodes, skipped + m.stop⟩

def MatchSet.shift (skipped : Nat) (set : MatchSet) : MatchSet :=
  ⟨set.toList.map (Match.shift skipped),
    List.pairwise_map.2 (set.ordered.imp fun h => Nat.add_lt_add_left h skipped)⟩

def Frame.shift (skipped : Nat) (frame : Frame) : Frame :=
  { frame with start := skipped + frame.start }

def ParseError.shift (skipped : Nat) (failure : ParseError) : ParseError :=
  ⟨failure.head.shift skipped, failure.causes.map (Frame.shift skipped)⟩

def Attempt.shift (skipped : Nat) : Attempt → Attempt
  | .ok found => .ok (found.shift skipped)
  | .error failure => .error (failure.shift skipped)

def Progress.shift (skipped : Nat) (progress : Progress) : Progress :=
  ⟨progress.found.shift skipped, progress.failure.map (ParseError.shift skipped)⟩

variable {skipped : Nat}

@[simp] theorem Node.name_shift (node : Node) : (node.shift skipped).name = node.name := by
  cases node <;> rfl

theorem Node.shiftAll_append (first second : List Node) :
    shiftAll skipped (first ++ second) = shiftAll skipped first ++ shiftAll skipped second := by
  induction first with
  | nil => rfl
  | cons node rest ih => simp [shiftAll, ih]

@[simp] theorem Match.stop_shift (m : Match) : (m.shift skipped).stop = skipped + m.stop := rfl

theorem Match.shift_followedBy (first second : Match) :
    (first.followedBy second).shift skipped =
      (first.shift skipped).followedBy (second.shift skipped) := by
  simp [shift, followedBy, Node.shiftAll_append]

theorem Match.map_shift_insertInto (m : Match) (l : List Match) :
    (m.insertInto l).map (shift skipped) =
      (m.shift skipped).insertInto (l.map (shift skipped)) := by
  induction l with
  | nil => rfl
  | cons other rest ih =>
    simp only [insertInto, List.map_cons, stop_shift, Nat.add_lt_add_iff_left, Nat.add_left_cancel_iff]
    split_ifs <;> simp [ih]

namespace MatchSet

theorem toList_shift (set : MatchSet) :
    (set.shift skipped).toList = set.toList.map (Match.shift skipped) := rfl

@[simp] theorem shift_empty : (∅ : MatchSet).shift skipped = ∅ := rfl

@[simp] theorem shift_single (m : Match) :
    (single m).shift skipped = single (m.shift skipped) := rfl

@[simp] theorem isEmpty_shift (set : MatchSet) : (set.shift skipped).isEmpty = set.isEmpty := by
  simp [isEmpty, toList_shift]

@[simp] theorem hasStop_shift (set : MatchSet) (stop : Nat) :
    (set.shift skipped).hasStop (skipped + stop) = set.hasStop stop := by
  rw [Bool.eq_iff_iff, hasStop_iff, hasStop_iff, mem_stops, mem_stops, toList_shift]
  simp

theorem shift_insert (set : MatchSet) (m : Match) :
    (set.insert m).shift skipped = (set.shift skipped).insert (m.shift skipped) :=
  ext (m.map_shift_insertInto set.toList)

theorem shift_union (set other : MatchSet) :
    (set.union other).shift skipped = (set.shift skipped).union (other.shift skipped) := by
  have hfoldl (l : List Match) (set : MatchSet) : (l.foldl insert set).shift skipped =
      (l.map (Match.shift skipped)).foldl insert (set.shift skipped) := by
    induction l generalizing set with
    | nil => rfl
    | cons m rest ih => rw [List.foldl_cons, ih, shift_insert]; rfl
  exact hfoldl other.toList set

theorem shift_carry (known : MatchSet) (head : Match) (found : MatchSet) (tail : Match) :
    (carry known head found tail).shift skipped =
      carry (known.shift skipped) (head.shift skipped) (found.shift skipped)
        (tail.shift skipped) := by
  rw [carry, carry, Match.stop_shift, hasStop_shift, hasStop_shift]
  split_ifs
  · rfl
  · rw [shift_insert, Match.shift_followedBy]

theorem shift_extend (set known : MatchSet) (head : Match) (tails : MatchSet) :
    (set.extend known head tails).shift skipped =
      (set.shift skipped).extend (known.shift skipped) (head.shift skipped)
        (tails.shift skipped) := by
  have hfoldl (l : List Match) (set : MatchSet) :
      (l.foldl (carry known head) set).shift skipped =
        (l.map (Match.shift skipped)).foldl (carry (known.shift skipped) (head.shift skipped))
          (set.shift skipped) := by
    induction l generalizing set with
    | nil => rfl
    | cons tail rest ih => rw [List.foldl_cons, ih, shift_carry]; rfl
  exact hfoldl tails.toList set

theorem shift_wrap (name : String) (set : MatchSet) :
    (set.mapNodes fun nodes => [.rule name nodes]).shift skipped =
      (set.shift skipped).mapNodes fun nodes => [.rule name nodes] := by
  refine ext ?_
  simp [mapNodes, shift, Match.shift, Node.shiftAll, Node.shift]

theorem shift_filter {p q : Nat → Bool} (hp : ∀ stop, p (skipped + stop) = q stop)
    (set : MatchSet) : (set.filter fun m => q m.stop).shift skipped =
      (set.shift skipped).filter fun m => p m.stop := by
  refine ext ?_
  simp only [toList_shift, filter, List.filter_map]
  refine congrArg _ (List.filter_congr fun m _ => ?_)
  exact (hp m.stop).symm

end MatchSet

theorem ParseError.shift_ofCause (parser : Parser) (start : Nat) (cause : Option ParseError) :
    (ofCause parser start cause).shift skipped =
      ofCause parser (skipped + start) (cause.map (shift skipped)) := by
  cases cause <;> rfl

theorem Progress.shift_settle (progress : Progress) (parser : Parser) (start : Nat) :
    (progress.settle parser start).shift skipped =
      (progress.shift skipped).settle parser (skipped + start) := by
  have hempty : (progress.shift skipped).found.isEmpty = progress.found.isEmpty :=
    MatchSet.isEmpty_shift _
  rw [settle, settle, hempty]
  split_ifs
  · exact congrArg Except.error (ParseError.shift_ofCause parser start progress.failure)
  · rfl

theorem Progress.shift_extend (progress : Progress) (known : MatchSet) (head : Match)
    (tails : MatchSet) :
    ({ progress with found := progress.found.extend known head tails } : Progress).shift skipped =
      { progress.shift skipped with
          found := (progress.shift skipped).found.extend (known.shift skipped)
            (head.shift skipped) (tails.shift skipped) } := by
  rw [shift, MatchSet.shift_extend]
  rfl

theorem Progress.shift_union (progress : Progress) (found : MatchSet) :
    ({ progress with found := progress.found.union found } : Progress).shift skipped =
      { progress.shift skipped with
          found := (progress.shift skipped).found.union (found.shift skipped) } := by
  rw [shift, MatchSet.shift_union]
  rfl

theorem bind_eq_map_bind {α β γ δ : Type} {v : α → β} {w : γ → δ}
    {x : Except GrammarError β} {x' : Except GrammarError α} {f : β → Except GrammarError δ}
    {f' : α → Except GrammarError γ} (hx : x = x'.map v)
    (hf : ∀ a, f (v a) = (f' a).map w) : (x >>= f) = (x' >>= f').map w := by
  subst hx
  cases x' with
  | ok a => exact hf a
  | error error => rfl

theorem Agree.map {α β : Type} {x y : Except GrammarError α} (h : Agree x y) (view : α → β) :
    Agree (x.map view) (y.map view) := by
  rcases h with rfl | ⟨⟨error, hdeep, rfl⟩, error', hdeep', rfl⟩
  · exact Or.inl rfl
  · exact Or.inr ⟨⟨error, hdeep, rfl⟩, error', hdeep', rfl⟩

theorem dropBytes_byteLength_add (before cs : List Char) (n : Nat) :
    dropBytes (byteLength before + n) (before ++ cs) = dropBytes n cs := by
  induction before with
  | nil => simp [byteLength]
  | cons c before ih =>
    have hc := c.utf8Size_pos
    rw [byteLength, List.cons_append, dropBytes, if_neg (by omega), if_pos (by omega), ← ih]
    congr 1
    omega

section
variable {source tail : Source} (htail : source.rest skipped = some tail.text.toList)
include htail

theorem Source.rest_skipped (o : Nat) : source.rest (skipped + o) = tail.rest o := by
  obtain ⟨before, htext, rfl⟩ := rest_eq_some_iff.1 htail
  rw [rest_eq, rest_eq, htext, dropBytes_byteLength_add]

theorem Source.slice_skipped (start stop : Nat) :
    source.slice (skipped + start) (skipped + stop) = tail.slice start stop := by
  rw [slice, slice, rest_skipped htail, Nat.add_sub_add_left]
  simp only [Nat.add_le_add_iff_left]

theorem Source.size_le_of_rest : tail.size ≤ source.size := by
  have hsize := add_byteLength_rest htail
  rw [size_eq tail]
  omega

theorem Literal.matchAt_skipped (terminal : Literal) (start : Nat) :
    terminal.matchAt source (skipped + start) =
      (terminal.matchAt tail start).map (Match.shift skipped) := by
  rw [matchAt, matchAt, Source.rest_skipped htail]
  cases tail.rest start with
  | none => rfl
  | some rest =>
    cases htaken : terminal.consume rest with
    | none => simp [htaken]
    | some taken => simp [htaken, Match.shift, Node.shiftAll, Node.shift, Nat.add_assoc]

end

section
variable {run run' : Nat → Except GrammarError Attempt}
  (hrun : ∀ o, run (skipped + o) = (run' o).map (Attempt.shift skipped))
include hrun

theorem sweep_shift (known : MatchSet) (heads : List Match) (progress : Progress) :
    sweep run (known.shift skipped) (heads.map (Match.shift skipped)) (progress.shift skipped) =
      (sweep run' known heads progress).map (Progress.shift skipped) := by
  induction heads generalizing progress with
  | nil => rfl
  | cons head heads ih =>
    rw [List.map_cons, sweep, sweep]
    refine bind_eq_map_bind (hrun head.stop) fun attempt => ?_
    cases attempt with
    | error failure => exact ih { progress with failure := some failure }
    | ok tails =>
      rw [← ih, Progress.shift_extend]
      rfl

theorem repeatExactly_shift (parser : Parser) (start count : Nat) (frontier : MatchSet) :
    repeatExactly run parser (skipped + start) count (frontier.shift skipped) =
      (repeatExactly run' parser start count frontier).map (Attempt.shift skipped) := by
  induction count generalizing frontier with
  | zero => rfl
  | succ count ih =>
    rw [repeatExactly, repeatExactly]
    refine bind_eq_map_bind (sweep_shift hrun ∅ frontier.toList .none) fun progress => ?_
    rw [← Progress.shift_settle]
    cases progress.settle parser start with
    | ok next => exact ih next
    | error failure => rfl

theorem repeatFurther_shift (rounds : Nat) (known : MatchSet) (frontier : List Match) :
    repeatFurther run rounds (known.shift skipped) (frontier.map (Match.shift skipped)) =
      (repeatFurther run' rounds known frontier).map (MatchSet.shift skipped) := by
  induction rounds generalizing known frontier with
  | zero => rfl
  | succ rounds ih =>
    rw [repeatFurther, repeatFurther]
    refine bind_eq_map_bind (sweep_shift hrun known frontier .none) fun progress => ?_
    have hempty : (progress.shift skipped).found.isEmpty = progress.found.isEmpty :=
      MatchSet.isEmpty_shift _
    rw [hempty]
    split_ifs
    · rfl
    · rw [← ih, MatchSet.shift_union]
      rfl

theorem repeatBetween_shift (parser : Parser) (bounds : Bounds) (source : Source) (start : Nat) :
    repeatBetween run parser bounds source (skipped + start) =
      (repeatBetween run' parser bounds source start).map (Attempt.shift skipped) := by
  rw [repeatBetween, repeatBetween]
  refine bind_eq_map_bind (repeatExactly_shift hrun parser start bounds.min
    (.single (.empty start))) fun attempt => ?_
  cases attempt with
  | error failure => rfl
  | ok known =>
    exact bind_eq_map_bind (repeatFurther_shift hrun _ known known.toList) fun _ => rfl

end

structure Shifts (skipped : Nat) (source tail : Source)
    (call call' : RuleRef → Nat → Except GrammarError Attempt) : Prop where
  rest : source.rest skipped = some tail.text.toList
  call (ref : RuleRef) (o : Nat) : call ref (skipped + o) = (call' ref o).map (Attempt.shift skipped)
  onward (ref : RuleRef) : GoesOnward tail (call' ref)

section
variable {source tail : Source} {firstMatch : ModeId → Bool}
  {call call' : RuleRef → Nat → Except GrammarError Attempt}

mutual
theorem enumerate_shift (h : Shifts skipped source tail call call') (parser : Parser) (start : Nat) :
    parser.enumerate firstMatch call source (skipped + start) =
      (parser.enumerate firstMatch call' tail start).map (Attempt.shift skipped) := by
  cases parser with
  | literal terminal =>
    rw [Parser.enumerate, Parser.enumerate, Literal.matchAt_skipped h.rest]
    cases terminal.matchAt tail start <;> rfl
  | alternation mode branches =>
    rw [Parser.enumerate, Parser.enumerate]
    exact tryBranches_shift h branches _ _ start .none
  | concatenation parts =>
    rw [Parser.enumerate, Parser.enumerate]
    exact followParts_shift h parts _ start (.single (.empty start))
  | optional cache element =>
    rw [Parser.enumerate_eq_explore, Parser.enumerate_eq_explore, Parser.explore, Parser.explore,
      repeatBetween_shift (enumerate_shift h element), repeatBetween_eq_of_size_le
        (element.enumerate_onward h.onward) (Source.size_le_of_rest h.rest)]
  | repetition cache bounds element =>
    rw [Parser.enumerate_eq_explore, Parser.enumerate_eq_explore, Parser.explore, Parser.explore,
      repeatBetween_shift (enumerate_shift h element), repeatBetween_eq_of_size_le
        (element.enumerate_onward h.onward) (Source.size_le_of_rest h.rest)]
  | rule ref =>
    rw [Parser.enumerate, Parser.enumerate]
    exact h.call ref start
  | prose text => rfl

theorem tryBranches_shift (h : Shifts skipped source tail call call') (branches : List Parser)
    (whole : Parser) (onlyFirst : Bool) (start : Nat) (progress : Progress) :
    Parser.tryBranches firstMatch call source whole onlyFirst (skipped + start) branches
        (progress.shift skipped) =
      (Parser.tryBranches firstMatch call' tail whole onlyFirst start branches progress).map
        (Attempt.shift skipped) := by
  cases branches with
  | nil =>
    rw [Parser.tryBranches, Parser.tryBranches, ← Progress.shift_settle]
    rfl
  | cons branch rest =>
    rw [Parser.tryBranches, Parser.tryBranches]
    refine bind_eq_map_bind (enumerate_shift h branch start) fun attempt => ?_
    cases attempt with
    | error failure =>
      exact tryBranches_shift h rest whole onlyFirst start { progress with failure := some failure }
    | ok found =>
      cases onlyFirst with
      | true => rfl
      | false =>
        rw [Attempt.shift]
        dsimp only
        rw [if_neg Bool.false_ne_true, if_neg Bool.false_ne_true, ← tryBranches_shift h rest,
          Progress.shift_union]

theorem followParts_shift (h : Shifts skipped source tail call call') (parts : List Parser)
    (whole : Parser) (start : Nat) (frontier : MatchSet) :
    Parser.followParts firstMatch call source whole (skipped + start) parts
        (frontier.shift skipped) =
      (Parser.followParts firstMatch call' tail whole start parts frontier).map
        (Attempt.shift skipped) := by
  cases parts with
  | nil =>
    rw [Parser.followParts, Parser.followParts]
    rfl
  | cons part rest =>
    rw [Parser.followParts, Parser.followParts]
    refine bind_eq_map_bind (sweep_shift (enumerate_shift h part) ∅ frontier.toList .none)
      fun progress => ?_
    rw [← Progress.shift_settle]
    cases progress.settle whole start with
    | ok next => exact followParts_shift h rest whole start next
    | error failure => rfl
end

end

/-- An excluded rule is asked about the same stretches of text. -/
theorem vetoed_shift {source tail : Source} (htail : source.rest skipped = some tail.text.toList)
    (accepts : String → Except GrammarError Bool) (start : Nat) (candidates : List Match) :
    vetoed accepts source (skipped + start) (candidates.map (Match.shift skipped)) =
      (vetoed accepts tail start candidates).map (List.map (skipped + ·)) := by
  induction candidates with
  | nil => rfl
  | cons candidate rest ih =>
    rw [List.map_cons, vetoed, vetoed, Match.stop_shift, Source.slice_skipped htail]
    cases accepts ((tail.slice start candidate.stop).getD "") with
    | error error => rfl
    | ok accepted =>
      refine bind_eq_map_bind (v := List.map (skipped + ·)) ih fun others => ?_
      cases accepted <;> rfl

namespace Catalog

variable {catalog : Catalog} {source tail : Source}

theorem callOnce_shift {call : Source → RuleRef → Nat → Except GrammarError Attempt}
    (hcall : Shifts skipped source tail (call source) (call tail)) (ref : RuleRef) (start : Nat) :
    catalog.callOnce call source ref (skipped + start) =
      (catalog.callOnce call tail ref start).map (Attempt.shift skipped) := by
  simp only [callOnce, ofExcept_eq]
  cases catalog.resolve ref with
  | error error => rfl
  | ok rule =>
    rw [ok_bind, ok_bind]
    cases catalog.bound rule with
    | error error => rfl
    | ok bound =>
      obtain ⟨slot, definition⟩ := bound
      rw [ok_bind, ok_bind]
      refine bind_eq_map_bind (enumerate_shift hcall definition start)
        fun attempt => ?_
      cases attempt with
      | error failure =>
        exact congrArg (Except.ok ∘ Except.error) (ParseError.shift_ofCause _ start (some failure)).symm
      | ok candidates =>
        rw [Attempt.shift]
        dsimp only
        cases slot.exclusion with
        | none => exact congrArg (Except.ok ∘ Except.ok) (MatchSet.shift_wrap _ _).symm
        | some exclusion =>
          dsimp only
          cases catalog.resolve exclusion with
          | error error => rfl
          | ok excluded =>
            rw [ok_bind, ok_bind]
            refine bind_eq_map_bind (vetoed_shift hcall.rest _ start candidates.toList)
              fun vetoes => ?_
            refine congrArg Except.ok ?_
            rw [Progress.shift_settle, Progress.shift, MatchSet.shift_wrap,
              MatchSet.shift_filter (p := fun stop => !(vetoes.map (skipped + ·)).contains stop)
                (q := fun stop => !vetoes.contains stop) (by simp)]
            cases vetoes <;> rfl

theorem call_shift (htail : source.rest skipped = some tail.text.toList) (depth : Nat)
    (ref : RuleRef) (start : Nat) :
    catalog.call depth source ref (skipped + start) =
      (catalog.call depth tail ref start : Except GrammarError Attempt).map
        (Attempt.shift skipped) := by
  induction depth generalizing ref start with
  | zero => rfl
  | succ depth ih => exact callOnce_shift ⟨htail, ih, catalog.call_onward depth tail⟩ ref start

theorem enumerate_mono (catalog : Catalog) {depth depth' : Nat} (h : depth ≤ depth') (parser : Parser)
    (source : Source) (start : Nat) :
    Approximates GrammarError.TooDeep
      (parser.enumerate catalog.firstMatch (catalog.call depth source) source start)
      (parser.enumerate catalog.firstMatch (catalog.call depth' source) source start) := by
  have hlinked : Linked (approximation GrammarError.TooDeep) (fun _ => True) source
      catalog.firstMatch catalog.firstMatch (catalog.call depth source) (catalog.call depth' source)
      parser.walk :=
    { call := fun ref _ o _ => ⟨call_mono h source ref o, fun _ _ _ _ _ _ => trivial⟩
      mode := fun _ _ _ => rfl
      remember := fun _ _ _ _ _ _ h => h }
  exact (enumerate_rel (settling_true.consume source) parser hlinked start trivial).1

theorem depthBound_mono {source source' : Source} (h : source.size ≤ source'.size) :
    catalog.depthBound source ≤ catalog.depthBound source' := by
  have hsize := Nat.add_le_add_right h 1
  have hsquare := Nat.mul_le_mul hsize hsize
  have := Nat.mul_le_mul_left catalog.ruleCount (Nat.add_le_add_right hsquare 2)
  rw [depthBound, depthBound]
  omega

/-- Without caches. The whole text allows for deeper calls than its rest does, which makes no
difference to what ends. -/
theorem matchesOf_shift (htail : source.rest skipped = some tail.text.toList) (parser : Parser) :
    Agree (catalog.matchesOf parser source skipped)
      ((catalog.matchesOf parser tail 0 : Except GrammarError Attempt).map
        (Attempt.shift skipped)) := by
  have hshift : parser.enumerate catalog.firstMatch
      (catalog.call (catalog.depthBound source) source) source (skipped + 0) =
        Except.map (Attempt.shift skipped) (parser.enumerate catalog.firstMatch
          (catalog.call (catalog.depthBound source) tail) tail 0) :=
    enumerate_shift ⟨htail, call_shift htail _, catalog.call_onward _ tail⟩ parser 0
  have hdepth : catalog.depthBound tail ≤ catalog.depthBound source :=
    depthBound_mono (Source.size_le_of_rest htail)
  have hdeeper := enumerate_mono catalog hdepth parser tail 0
  have hsettled : Approximates GrammarError.TooDeep
      (parser.explore catalog.firstMatch (catalog.call (catalog.depthBound source) tail) tail 0)
      (parser.explore catalog.firstMatch (catalog.settled tail) tail 0) :=
    explore_approximates_settled (catalog.depthBound source) parser tail 0
  rw [← Parser.enumerate_eq_explore, ← Parser.enumerate_eq_explore] at hsettled
  rw [matchesOf, matchesOf, ← Nat.add_zero skipped, hshift, Nat.add_zero]
  exact (Agree.of_approximates hsettled hdeeper).map _

end Catalog

/-- In whatever session, a parse that starts at an offset ends as the parse of the text from
there on: with the same matches and failures, all offsets in them later by what was skipped, or
with the same grammar error. Each of the two parses may find anything remembered that is not
stale. -/
theorem Session.Reached.translation_invariant {session : Session} (h : session.Reached)
    {parser : Parser} (huses : session.store.Uses {held | .parser held ∈ session.bench.held} parser)
    {caches caches' : Caches}
    (hsound : Sound session.store.catalog (session.store.catalog.scopeOf parser).nodes caches)
    (hsound' : Sound session.store.catalog (session.store.catalog.scopeOf parser).nodes caches')
    {source tail : Source} (htail : source.rest skipped = some tail.text.toList) :
    Agree ((session.store.catalog.matchesOf parser source skipped : Run Attempt).run caches).1
      (((session.store.catalog.matchesOf parser tail 0 : Run Attempt).run caches').1.map
        (Attempt.shift skipped)) := by
  have hclosed := session.store.catalog.closed_scopeOf parser
  have hapart := h.orderly.sane.apart_scopeOf huses
  have hparser : parser ∈ (session.store.catalog.scopeOf parser).nodes :=
    Or.inl parser.self_mem_walk
  have hwhole := (matchesOf_agrees hclosed hapart hparser source skipped caches hsound).1
  have htail' := (matchesOf_agrees hclosed hapart hparser tail 0 caches' hsound').1
  exact hwhole.trans ((Catalog.matchesOf_shift htail parser).trans (htail'.symm.map _))

theorem Session.Reached.translation_invariant_spaces :
    (Source.ofString "é \t.").rest 2 = some (Source.ofString " \t.").text.toList ∧
      Agree ((Session.start.store.catalog.matchesOf
          (.rule (Session.start.store.catalog.refer ⟨.core, 12⟩)) (.ofString "é \t.") 2 :
            Run Attempt).run Session.start.store.caches).1
        (((Session.start.store.catalog.matchesOf
          (.rule (Session.start.store.catalog.refer ⟨.core, 12⟩)) (.ofString " \t.") 0 :
            Run Attempt).run Session.start.store.caches).1.map (Attempt.shift 2)) := by
  have htail : (Source.ofString "é \t.").rest 2 = some (Source.ofString " \t.").text.toList :=
    Source.rest_eq_some_iff.2 ⟨['é'], rfl, rfl⟩
  have hsound := Session.fresh_start.sound_scopeOf (Session.start.store.catalog.refer ⟨.core, 12⟩)
  exact ⟨htail, Session.Reached.start.translation_invariant (Store.uses_rule _ _ _) hsound hsound
    htail⟩

end Metasyntax
