import Metasyntax.Enumeration
import Metasyntax.Proofs.MatchSets

/-!
# Two runs of one enumeration

The same parser may be run in two ways: with and without caches, with more and
with fewer nested calls, before and after an edit. Whatever relates the two runs
of each call and of each remembered answer relates the two runs of the whole,
provided the relation is kept by sequencing. This is proved here once; all later
comparisons are instances.
-/

set_option autoImplicit false

namespace Metasyntax

/-- A relation between computations of two kinds that give the same values, with a
property that these values have. -/
structure Relator (m₁ m₂ : Type → Type) [Monad m₁] [Monad m₂] [MonadExceptOf GrammarError m₁]
    [MonadExceptOf GrammarError m₂] where
  /-- The errors that may end both computations. -/
  throws : GrammarError → Prop := fun _ => True
  rel {α : Type} (post : α → Prop) (x₁ : m₁ α) (x₂ : m₂ α) : Prop
  pure {α : Type} {post : α → Prop} {a : α} : post a → rel post (Pure.pure a) (Pure.pure a)
  bind {α β : Type} {post : α → Prop} {post' : β → Prop} {x₁ : m₁ α} {x₂ : m₂ α}
    {f₁ : α → m₁ β} {f₂ : α → m₂ β} :
    rel post x₁ x₂ → (∀ a, post a → rel post' (f₁ a) (f₂ a)) → rel post' (x₁ >>= f₁) (x₂ >>= f₂)
  throw {α : Type} {post : α → Prop} (error : GrammarError) : throws error →
    rel post (throwThe GrammarError error) (throwThe GrammarError error)

def StopsIn (good : Nat → Prop) (attempt : Attempt) : Prop :=
  ∀ found, attempt = .ok found → ∀ e ∈ found.stops, good e

def Parser.explore {m : Type → Type} [Monad m] [MonadExceptOf GrammarError m] [Remembering m]
    (firstMatch : ModeId → Bool) (call : RuleRef → Nat → m Attempt) (source : Source) :
    Parser → Nat → m Attempt
  | .optional cache element, start =>
    repeatBetween (fun offset => element.enumerate firstMatch call source offset)
      (.optional cache element) .atMostOnce source start
  | .repetition cache bounds element, start =>
    repeatBetween (fun offset => element.enumerate firstMatch call source offset)
      (.repetition cache bounds element) bounds source start
  | other, start => other.enumerate firstMatch call source start

theorem Parser.enumerate_eq_remember {m : Type → Type} [Monad m] [MonadExceptOf GrammarError m]
    [Remembering m] (firstMatch : ModeId → Bool) (call : RuleRef → Nat → m Attempt)
    (source : Source) {node : Parser} {cache : CacheId} (h : node.cache? = some cache)
    (start : Nat) :
    node.enumerate firstMatch call source start =
      Remembering.remember cache ⟨source, start⟩ (node.explore firstMatch call source start) := by
  cases node with
  | optional c element | repetition c bounds element =>
    cases h
    rw [enumerate, explore]
  | _ => cases h

theorem Parser.enumerate_eq_explore (firstMatch : ModeId → Bool)
    (call : RuleRef → Nat → Except GrammarError Attempt) (source : Source) (node : Parser)
    (start : Nat) :
    node.enumerate firstMatch call source start = node.explore firstMatch call source start := by
  cases node with
  | optional cache element | repetition cache bounds element =>
    rw [enumerate, explore]
    rfl
  | _ => rfl

def Consuming (source : Source) (good : Nat → Prop) : Prop :=
  ∀ (terminal : Literal) (start : Nat) (m : Match),
    good start → terminal.matchAt source start = some m → good m.stop

theorem ofExcept_eq {α : Type} (x : Except GrammarError α) :
    (MonadExcept.ofExcept x : Except GrammarError α) = x := by
  cases x <;> rfl

theorem ok_bind {α β : Type} (a : α) (f : α → Except GrammarError β) : (.ok a >>= f) = f a := rfl

theorem error_bind {α β : Type} (error : GrammarError) (f : α → Except GrammarError β) :
    (.error error >>= f) = .error error := rfl

section
variable {m₁ m₂ : Type → Type} [Monad m₁] [Monad m₂] [MonadExceptOf GrammarError m₁]
  [MonadExceptOf GrammarError m₂] [Remembering m₁] [Remembering m₂]
variable (R : Relator m₁ m₂) {good : Nat → Prop}

def Progress.GoodStops (good : Nat → Prop) (progress : Progress) : Prop :=
  ∀ e ∈ progress.found.stops, good e

theorem Progress.none_goodStops : Progress.none.GoodStops good := by
  simp [GoodStops, none]

theorem Progress.settle_stopsIn {progress : Progress} (h : progress.GoodStops good)
    (parser : Parser) (start : Nat) : StopsIn good (progress.settle parser start) := by
  intro found hfound
  rw [settle] at hfound
  split at hfound
  · cases hfound
  · cases hfound
    exact h

omit [Remembering m₁] [Remembering m₂] in
theorem sweep_rel {run₁ : Nat → m₁ Attempt} {run₂ : Nat → m₂ Attempt}
    (hrun : ∀ o, good o → R.rel (StopsIn good) (run₁ o) (run₂ o)) (known : MatchSet)
    (heads : List Match) (hheads : ∀ m ∈ heads, good m.stop) (progress : Progress)
    (hprogress : progress.GoodStops good) :
    R.rel (Progress.GoodStops good) (sweep run₁ known heads progress)
      (sweep run₂ known heads progress) := by
  induction heads generalizing progress with
  | nil => exact R.pure hprogress
  | cons head heads ih =>
    have hrest : ∀ m ∈ heads, good m.stop := fun m hm => hheads m (by simp [hm])
    rw [sweep, sweep]
    refine R.bind (hrun head.stop (hheads head (by simp))) fun attempt hattempt => ?_
    cases attempt with
    | error failure => exact ih hrest _ hprogress
    | ok tails =>
      refine ih hrest _ fun e he => ?_
      rcases MatchSet.mem_stops_extend.1 he with he | ⟨he, -⟩
      · exact hprogress e he
      · exact hattempt tails rfl e he

omit [Remembering m₁] [Remembering m₂] in
theorem repeatExactly_rel {run₁ : Nat → m₁ Attempt} {run₂ : Nat → m₂ Attempt}
    (hrun : ∀ o, good o → R.rel (StopsIn good) (run₁ o) (run₂ o)) (parser : Parser) (start : Nat)
    (count : Nat) (frontier : MatchSet) (hfrontier : ∀ e ∈ frontier.stops, good e) :
    R.rel (StopsIn good) (repeatExactly run₁ parser start count frontier)
      (repeatExactly run₂ parser start count frontier) := by
  induction count generalizing frontier with
  | zero =>
    refine R.pure fun found h => ?_
    cases h
    exact hfrontier
  | succ count ih =>
    have hheads : ∀ m ∈ frontier.toList, good m.stop := fun m hm =>
      hfrontier _ (MatchSet.mem_stops.2 ⟨m, hm, rfl⟩)
    rw [repeatExactly, repeatExactly]
    refine R.bind (sweep_rel R hrun ∅ _ hheads _ Progress.none_goodStops) fun progress hp => ?_
    have hsettled := Progress.settle_stopsIn hp parser start
    cases hnext : progress.settle parser start with
    | ok next => exact ih next (hsettled next hnext)
    | error failure => exact R.pure (by intro found h; cases h)

omit [Remembering m₁] [Remembering m₂] in
theorem repeatFurther_rel {run₁ : Nat → m₁ Attempt} {run₂ : Nat → m₂ Attempt}
    (hrun : ∀ o, good o → R.rel (StopsIn good) (run₁ o) (run₂ o)) (rounds : Nat)
    (known : MatchSet) (hknown : ∀ e ∈ known.stops, good e) (frontier : List Match)
    (hfrontier : ∀ m ∈ frontier, good m.stop) :
    R.rel (fun found => ∀ e ∈ found.stops, good e) (repeatFurther run₁ rounds known frontier)
      (repeatFurther run₂ rounds known frontier) := by
  induction rounds generalizing known frontier with
  | zero => exact R.pure hknown
  | succ rounds ih =>
    rw [repeatFurther, repeatFurther]
    refine R.bind (sweep_rel R hrun known _ hfrontier _ Progress.none_goodStops)
      fun progress hp => ?_
    split
    · exact R.pure hknown
    · refine ih _ (fun e he => ?_) _ fun m hm => hp _ (MatchSet.mem_stops.2 ⟨m, hm, rfl⟩)
      rcases MatchSet.mem_stops_union.1 he with he | he
      · exact hknown e he
      · exact hp e he

omit [Remembering m₁] [Remembering m₂] in
theorem repeatBetween_rel {run₁ : Nat → m₁ Attempt} {run₂ : Nat → m₂ Attempt}
    (hrun : ∀ o, good o → R.rel (StopsIn good) (run₁ o) (run₂ o)) (parser : Parser)
    (bounds : Bounds) (source : Source) (start : Nat) (hstart : good start) :
    R.rel (StopsIn good) (repeatBetween run₁ parser bounds source start)
      (repeatBetween run₂ parser bounds source start) := by
  rw [repeatBetween, repeatBetween]
  refine R.bind (repeatExactly_rel R hrun parser start bounds.min _ ?_) fun attempt hattempt => ?_
  · simpa [Match.empty] using hstart
  · cases attempt with
    | error failure => exact R.pure (by intro found h; cases h)
    | ok known =>
      have hknown := hattempt known rfl
      refine R.bind (repeatFurther_rel R hrun _ known hknown _ fun m hm => hknown _
        (MatchSet.mem_stops.2 ⟨m, hm, rfl⟩)) fun found hfound => R.pure ?_
      intro found' h
      cases h
      exact hfound

structure Linked (good : Nat → Prop) (source : Source) (firstMatch₁ firstMatch₂ : ModeId → Bool)
    (call₁ : RuleRef → Nat → m₁ Attempt) (call₂ : RuleRef → Nat → m₂ Attempt)
    (nodes : List Parser) : Prop where
  call : ∀ ref, .rule ref ∈ nodes → ∀ o, good o →
    R.rel (StopsIn good) (call₁ ref o) (call₂ ref o)
  mode : ∀ mode branches, .alternation mode branches ∈ nodes → firstMatch₁ mode = firstMatch₂ mode
  remember : ∀ node ∈ nodes, ∀ cache, node.cache? = some cache → ∀ o, good o →
    R.rel (StopsIn good) (node.explore firstMatch₁ call₁ source o)
      (node.explore firstMatch₂ call₂ source o) →
    R.rel (StopsIn good)
      (Remembering.remember cache ⟨source, o⟩ (node.explore firstMatch₁ call₁ source o))
      (Remembering.remember cache ⟨source, o⟩ (node.explore firstMatch₂ call₂ source o))

variable {R}
variable {source : Source} {firstMatch₁ firstMatch₂ : ModeId → Bool}
variable {call₁ : RuleRef → Nat → m₁ Attempt} {call₂ : RuleRef → Nat → m₂ Attempt}

theorem Linked.mono {nodes nodes' : List Parser}
    (h : Linked R good source firstMatch₁ firstMatch₂ call₁ call₂ nodes)
    (hsub : ∀ node ∈ nodes', node ∈ nodes) :
    Linked R good source firstMatch₁ firstMatch₂ call₁ call₂ nodes' where
  call ref href := h.call ref (hsub _ href)
  mode mode branches hmode := h.mode mode branches (hsub _ hmode)
  remember node hnode := h.remember node (hsub _ hnode)

mutual
theorem enumerate_rel (hconsume : Consuming source good) (parser : Parser)
    (h : Linked R good source firstMatch₁ firstMatch₂ call₁ call₂ parser.walk) (start : Nat)
    (hstart : good start) :
    R.rel (StopsIn good) (parser.enumerate firstMatch₁ call₁ source start)
      (parser.enumerate firstMatch₂ call₂ source start) := by
  cases parser with
  | literal terminal =>
    rw [Parser.enumerate, Parser.enumerate]
    cases hm : terminal.matchAt source start with
    | none => exact R.pure (by intro found h; cases h)
    | some m =>
      refine R.pure fun found h => ?_
      cases h
      simpa using hconsume terminal start m hstart hm
  | alternation mode branches =>
    rw [Parser.enumerate, Parser.enumerate, h.mode mode branches (by simp [Parser.walk])]
    exact tryBranches_rel hconsume branches (h.mono (by simp +contextual [Parser.walk])) _ _ start
      hstart _ Progress.none_goodStops
  | concatenation parts =>
    rw [Parser.enumerate, Parser.enumerate]
    exact followParts_rel hconsume parts (h.mono (by simp +contextual [Parser.walk])) _ start _
      (by simpa [Match.empty] using hstart)
  | optional cache element =>
    have hcache : (Parser.optional cache element).cache? = some cache := rfl
    have hrun : ∀ o, good o → R.rel (StopsIn good)
        (element.enumerate firstMatch₁ call₁ source o)
        (element.enumerate firstMatch₂ call₂ source o) :=
      enumerate_rel hconsume element (h.mono (by simp +contextual [Parser.walk]))
    rw [Parser.enumerate_eq_remember _ _ _ hcache, Parser.enumerate_eq_remember _ _ _ hcache]
    exact h.remember _ (by simp [Parser.walk]) cache rfl start hstart
      (repeatBetween_rel R hrun _ _ source start hstart)
  | repetition cache bounds element =>
    have hcache : (Parser.repetition cache bounds element).cache? = some cache := rfl
    have hrun : ∀ o, good o → R.rel (StopsIn good)
        (element.enumerate firstMatch₁ call₁ source o)
        (element.enumerate firstMatch₂ call₂ source o) :=
      enumerate_rel hconsume element (h.mono (by simp +contextual [Parser.walk]))
    rw [Parser.enumerate_eq_remember _ _ _ hcache, Parser.enumerate_eq_remember _ _ _ hcache]
    exact h.remember _ (by simp [Parser.walk]) cache rfl start hstart
      (repeatBetween_rel R hrun _ _ source start hstart)
  | rule ref =>
    rw [Parser.enumerate, Parser.enumerate]
    exact h.call ref (by simp [Parser.walk]) start hstart
  | prose text =>
    rw [Parser.enumerate, Parser.enumerate]
    exact R.pure (by intro found h; cases h)

theorem tryBranches_rel (hconsume : Consuming source good) (branches : List Parser)
    (h : Linked R good source firstMatch₁ firstMatch₂ call₁ call₂ (Parser.walkAll branches))
    (whole : Parser) (onlyFirst : Bool) (start : Nat) (hstart : good start) (progress : Progress)
    (hprogress : progress.GoodStops good) :
    R.rel (StopsIn good)
      (Parser.tryBranches firstMatch₁ call₁ source whole onlyFirst start branches progress)
      (Parser.tryBranches firstMatch₂ call₂ source whole onlyFirst start branches progress) := by
  cases branches with
  | nil =>
    rw [Parser.tryBranches, Parser.tryBranches]
    exact R.pure (Progress.settle_stopsIn hprogress whole start)
  | cons branch rest =>
    have hrest : Linked R good source firstMatch₁ firstMatch₂ call₁ call₂ (Parser.walkAll rest) :=
      h.mono (by simp +contextual [Parser.walkAll])
    rw [Parser.tryBranches, Parser.tryBranches]
    refine R.bind (enumerate_rel hconsume branch (h.mono (by simp +contextual [Parser.walkAll]))
      start hstart) fun attempt hattempt => ?_
    cases attempt with
    | error failure => exact tryBranches_rel hconsume rest hrest _ _ start hstart _ hprogress
    | ok found =>
      cases onlyFirst with
      | true => exact R.pure hattempt
      | false =>
        refine tryBranches_rel hconsume rest hrest _ _ start hstart _ fun e he => ?_
        rcases MatchSet.mem_stops_union.1 he with he | he
        · exact hprogress e he
        · exact hattempt found rfl e he

theorem followParts_rel (hconsume : Consuming source good) (parts : List Parser)
    (h : Linked R good source firstMatch₁ firstMatch₂ call₁ call₂ (Parser.walkAll parts))
    (whole : Parser) (start : Nat) (frontier : MatchSet)
    (hfrontier : ∀ e ∈ frontier.stops, good e) :
    R.rel (StopsIn good)
      (Parser.followParts firstMatch₁ call₁ source whole start parts frontier)
      (Parser.followParts firstMatch₂ call₂ source whole start parts frontier) := by
  cases parts with
  | nil =>
    rw [Parser.followParts, Parser.followParts]
    refine R.pure fun found h => ?_
    cases h
    exact hfrontier
  | cons part rest =>
    have hrest : Linked R good source firstMatch₁ firstMatch₂ call₁ call₂ (Parser.walkAll rest) :=
      h.mono (by simp +contextual [Parser.walkAll])
    have hheads : ∀ m ∈ frontier.toList, good m.stop := fun m hm =>
      hfrontier _ (MatchSet.mem_stops.2 ⟨m, hm, rfl⟩)
    have hpart := enumerate_rel hconsume part (h.mono (by simp +contextual [Parser.walkAll]))
    rw [Parser.followParts, Parser.followParts]
    refine R.bind (sweep_rel R hpart ∅ _ hheads _ Progress.none_goodStops) fun progress hp => ?_
    have hsettled := Progress.settle_stopsIn hp whole start
    cases hnext : progress.settle whole start with
    | ok next => exact followParts_rel hconsume rest hrest whole start next (hsettled next hnext)
    | error failure => exact R.pure (by intro found h; cases h)
end

structure Settling (good : Source → Nat → Prop) : Prop where
  consume (source : Source) : Consuming source (good source)
  slice (source : Source) (start stop : Nat) :
    good source start → good (.ofString ((source.slice start stop).getD "")) 0

omit [Remembering m₁] [Remembering m₂] in
theorem vetoed_rel {accepts₁ : String → m₁ Bool} {accepts₂ : String → m₂ Bool} {known : Prop}
    (source : Source) (start : Nat) (candidates : List Match)
    (haccepts : ∀ stop, R.rel (fun _ => known) (accepts₁ ((source.slice start stop).getD ""))
      (accepts₂ ((source.slice start stop).getD ""))) :
    R.rel (fun vetoes => known ∨ vetoes = []) (vetoed accepts₁ source start candidates)
      (vetoed accepts₂ source start candidates) := by
  induction candidates with
  | nil => exact R.pure (Or.inr rfl)
  | cons candidate rest ih =>
    rw [vetoed, vetoed]
    exact R.bind (haccepts candidate.stop) fun _ hknown =>
      R.bind ih fun _ _ => R.pure (Or.inl hknown)

omit [Remembering m₁] [Remembering m₂] in
theorem ofExcept_rel (R : Relator m₁ m₂) {α : Type} (x : Except GrammarError α)
    (h : ∀ error, x = .error error → R.throws error := by exact fun _ _ => trivial) :
    R.rel (fun a => x = .ok a) (MonadExcept.ofExcept x) (MonadExcept.ofExcept x) := by
  cases x with
  | ok a => exact R.pure rfl
  | error error => exact R.throw error (h error rfl)

structure LinkedRule (R : Relator m₁ m₂) (good : Source → Nat → Prop) (c₁ c₂ : Catalog)
    (call₁ : Source → RuleRef → Nat → m₁ Attempt) (call₂ : Source → RuleRef → Nat → m₂ Attempt)
    (source : Source) (rule : RuleId) : Prop where
  bound : c₁.bound rule = c₂.bound rule
  refer : c₁.refer rule = c₂.refer rule
  body : ∀ slot definition, c₂.bound rule = .ok (slot, definition) →
    Linked R (good source) source c₁.firstMatch c₂.firstMatch (call₁ source) (call₂ source)
      definition.walk
  exclusion : ∀ slot definition ref, c₂.bound rule = .ok (slot, definition) →
    slot.exclusion = some ref → c₁.resolve ref = c₂.resolve ref ∧
      ∀ excluded, c₂.resolve ref = .ok excluded → ∀ source', good source' 0 →
        ∃ post : Attempt → Prop,
          (∀ attempt, post attempt → c₁.refer excluded = c₂.refer excluded) ∧
          R.rel post (call₁ source' (c₁.refer excluded) 0) (call₂ source' (c₂.refer excluded) 0)
  unbound : ∀ error, c₂.bound rule = .error error → R.throws error := by exact fun _ _ => trivial
  dangling : ∀ slot definition ref, c₂.bound rule = .ok (slot, definition) →
    slot.exclusion = some ref → ∀ error, c₂.resolve ref = .error error → R.throws error := by
      exact fun _ _ _ _ _ _ _ => trivial

theorem callOnce_rel {good : Source → Nat → Prop} (hgood : Settling good) {c₁ c₂ : Catalog}
    {call₁ : Source → RuleRef → Nat → m₁ Attempt} {call₂ : Source → RuleRef → Nat → m₂ Attempt}
    {source : Source} {ref : RuleRef} {start : Nat} (hstart : good source start)
    (hresolve : c₁.resolve ref = c₂.resolve ref)
    (hrule : ∀ rule, c₂.resolve ref = .ok rule → LinkedRule R good c₁ c₂ call₁ call₂ source rule)
    (hdangling : ∀ error, c₂.resolve ref = .error error → R.throws error := by
      exact fun _ _ => trivial) :
    R.rel (StopsIn (good source)) (c₁.callOnce call₁ source ref start)
      (c₂.callOnce call₂ source ref start) := by
  rw [Catalog.callOnce, Catalog.callOnce, hresolve]
  refine R.bind (ofExcept_rel R _ hdangling) fun rule hresolved => ?_
  have h := hrule rule hresolved
  rw [h.bound, h.refer]
  refine R.bind (ofExcept_rel R _ h.unbound) fun ⟨slot, definition⟩ hbound => ?_
  have hbody := enumerate_rel (hgood.consume source) definition (h.body slot definition hbound)
    start hstart
  refine R.bind hbody fun attempt hattempt => ?_
  cases attempt with
  | error failure => exact R.pure (by intro found hfound; cases hfound)
  | ok candidates =>
    have hcandidates := hattempt candidates rfl
    cases hexclusion : slot.exclusion with
    | none =>
      refine R.pure fun found hfound => ?_
      cases hfound
      simpa using hcandidates
    | some ref' =>
      obtain ⟨hex, hexcluded⟩ := h.exclusion slot definition ref' hbound hexclusion
      simp only [hex]
      refine R.bind (ofExcept_rel R _ (h.dangling slot definition ref' hbound hexclusion))
        fun excluded hresolved' => ?_
      have haccepts : ∀ stop, R.rel (fun _ => c₁.refer excluded = c₂.refer excluded)
          (call₁ (.ofString ((source.slice start stop).getD "")) (c₁.refer excluded) 0 >>=
            fun attempt => pure (attempt.takesAll (.ofString ((source.slice start stop).getD ""))))
          (call₂ (.ofString ((source.slice start stop).getD "")) (c₂.refer excluded) 0 >>=
            fun attempt => pure (attempt.takesAll (.ofString ((source.slice start stop).getD "")))) := by
        intro stop
        obtain ⟨post, hrefer, hcall⟩ :=
          hexcluded excluded hresolved' _ (hgood.slice source start stop hstart)
        exact R.bind hcall fun attempt hpost => R.pure (hrefer attempt hpost)
      refine R.bind (vetoed_rel source start candidates.toList haccepts) fun vetoes hvetoes => ?_
      -- The excluded rule is named in a failure only, and there is none without a veto.
      · have hcause : (if vetoes.isEmpty then none else
            some (ParseError.ofCause (.rule (c₁.refer excluded)) start none)) =
            if vetoes.isEmpty then none else
              some (ParseError.ofCause (.rule (c₂.refer excluded)) start none) := by
          rcases hvetoes with hrefer | rfl
          · rw [hrefer]
          · rfl
        rw [hcause]
        refine R.pure (Progress.settle_stopsIn (fun e he => ?_) _ _)
        obtain ⟨m, hm, rfl⟩ := MatchSet.mem_stops.1 he
        obtain ⟨m', hm', rfl⟩ := MatchSet.mem_mapNodes.1 hm
        exact hcandidates _ (MatchSet.mem_stops.2 ⟨m', (MatchSet.mem_filter.1 hm').1, rfl⟩)

/-- The longest match is found alike among matches found alike. -/
theorem parse_rel {R : Relator m₁ m₂} {c₁ c₂ : Catalog} {rule : RuleId} {source : Source}
    {start : Nat} {post : Attempt → Prop} (hrefer : c₁.refer rule = c₂.refer rule)
    (h : R.rel post (c₁.ruleMatches rule source start) (c₂.ruleMatches rule source start)) :
    R.rel (fun _ => True) (c₁.parse rule source start) (c₂.parse rule source start) := by
  rw [Catalog.parse, Catalog.parse, hrefer]
  refine R.bind h fun attempt _ => ?_
  cases attempt with
  | error failure => exact R.pure trivial
  | ok found =>
    dsimp only
    split <;> exact R.pure trivial

theorem parseAll_rel {R : Relator m₁ m₂} {c₁ c₂ : Catalog} {rule : RuleId} {source : Source}
    {post : Attempt → Prop} (hrefer : c₁.refer rule = c₂.refer rule)
    (h : R.rel post (c₁.ruleMatches rule source 0) (c₂.ruleMatches rule source 0)) :
    R.rel (fun _ => True) (c₁.parseAll rule source) (c₂.parseAll rule source) := by
  rw [Catalog.parseAll, Catalog.parseAll, hrefer]
  refine R.bind (parse_rel hrefer h) fun result _ => ?_
  cases result with
  | error failure => exact R.pure trivial
  | ok found =>
    dsimp only
    split <;> exact R.pure trivial

end

end Metasyntax
