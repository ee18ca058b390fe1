import Metasyntax.Proofs.InPlace

/-!
# Parses come to an end

Where no rule comes back to itself in place, a parse is never given up: a call stays at
its place and goes to a rule that waits for fewer, or it comes to a place with less room.
An open repetition goes on only as long as it reaches offsets that it had not reached
before, so its rounds are no more than the offsets it ends up with.

What is remembered must not stand against this: an answer that stops where it starts, for
a part that takes some text now, would lead a rule back to itself unseen.
-/

set_option autoImplicit false

namespace Metasyntax

def Run.Finishes (keeps : Caches → Prop) {α : Type} (post : α → Prop) (run : Run α) : Prop :=
  ∀ caches, keeps caches → Catalog.Ended (run.run caches).1 ∧ keeps (run.run caches).2 ∧
    ∀ a, (run.run caches).1 = .ok a → post a

namespace Run.Finishes

variable {keeps : Caches → Prop} {α β : Type} {post : α → Prop} {post' : β → Prop}

theorem pure {a : α} (h : post a) : Run.Finishes keeps post (Pure.pure a) :=
  fun _ hcaches => ⟨(fun _ heq => by cases heq), hcaches, fun _ heq => by cases heq; exact h⟩

theorem bind {x : Run α} {f : α → Run β} (h : x.Finishes keeps post)
    (hf : ∀ a, post a → (f a).Finishes keeps post') : Run.Finishes keeps post' (x >>= f) := by
  intro caches hcaches
  obtain ⟨hended, hkeeps, hpost⟩ := h caches hcaches
  rcases hx : x.run caches with ⟨error | a, caches'⟩
  · rw [Run.run_bind_error hx]
    rw [hx] at hended hkeeps
    exact ⟨(fun _ heq => by cases heq; exact hended error rfl), hkeeps, fun _ heq => by cases heq⟩
  · rw [Run.run_bind_ok hx]
    rw [hx] at hkeeps hpost
    exact hf a (hpost a rfl) caches' hkeeps

theorem mono {run : Run α} {post' : α → Prop} (h : run.Finishes keeps post)
    (himp : ∀ a, post a → post' a) : run.Finishes keeps post' := fun caches hcaches =>
  ⟨(h caches hcaches).1, (h caches hcaches).2.1,
    fun a heq => himp a ((h caches hcaches).2.2 a heq)⟩

theorem ofExcept {x : Except GrammarError α} (h : Catalog.Ended x) :
    Run.Finishes keeps (fun a => x = .ok a) (MonadExcept.ofExcept x) := by
  intro caches hcaches
  cases x with
  | ok a => exact ⟨(fun _ heq => by cases heq), hcaches, fun _ heq => by cases heq; rfl⟩
  | error error =>
    exact ⟨(fun _ heq => by cases heq; exact h error rfl), hcaches, fun _ heq => by cases heq⟩

end Run.Finishes

namespace Catalog

variable {catalog : Catalog}

theorem ended_resolve (catalog : Catalog) (ref : RuleRef) : Ended (catalog.resolve ref) := by
  rw [resolve]
  rintro error heq ⟨name, rfl⟩
  split at heq <;> cases heq

theorem ended_bound (catalog : Catalog) (rule : RuleId) : Ended (catalog.bound rule) := by
  rw [bound]
  rintro error heq ⟨name, rfl⟩
  split at heq
  · cases heq
  · split at heq <;> cases heq

end Catalog

/-- What the caches of some parsers remember goes where these parsers may stop. -/
def Advancing (catalog : Catalog) (nodes : Set Parser) (caches : Caches) : Prop :=
  ∀ node ∈ nodes, ∀ id, node.cache? = some id → ∀ key attempt, caches.Holds id key attempt →
    StopsIn (catalog.Moves node key.source key.start) attempt

namespace Advancing

variable {catalog : Catalog} {nodes : Set Parser} {caches : Caches}

theorem of_isEmpty (h : ∀ cache ∈ caches, cache.isEmpty = true) :
    Advancing catalog nodes caches :=
  fun _ _ _ _ _ _ hholds => absurd hholds (Caches.not_holds_of_isEmpty h)

theorem touch (h : Advancing catalog nodes caches) (id : CacheId) (key : CacheKey) :
    Advancing catalog nodes (caches.modify id.index (·.touch key)) :=
  fun node hnode id' hid key' attempt hholds =>
    h node hnode id' hid key' attempt (Caches.holds_of_holds_touch hholds)

theorem insert (hapart : Apart nodes nodes) (h : Advancing catalog nodes caches) {node : Parser}
    (hnode : node ∈ nodes) {id : CacheId} (hid : node.cache? = some id) {key : CacheKey}
    {attempt : Attempt} (hattempt : StopsIn (catalog.Moves node key.source key.start) attempt) :
    Advancing catalog nodes (caches.modify id.index (·.insert key attempt)) := by
  intro other hother id' hid' key' attempt' hholds
  rcases Caches.holds_of_holds_insert hholds with ⟨rfl, rfl, rfl⟩ | hholds
  · obtain rfl := hapart other hother node hnode _ hid' hid
    exact hattempt
  · exact h other hother id' hid' key' attempt' hholds

end Advancing

abbrev Run.Settles (catalog : Catalog) (nodes : Set Parser) (parser : Parser) (source : Source)
    (start : Nat) (run : Run Attempt) : Prop :=
  run.Finishes (Advancing catalog nodes) (StopsIn (catalog.Moves parser source start))

section
variable {keeps : Caches → Prop} {run : Nat → Run Attempt} {good reached : Nat → Prop}

theorem sweep_finishes (known : MatchSet) (heads : List Match)
    (hrun : ∀ head ∈ heads, (run head.stop).Finishes keeps (StopsIn good)) (progress : Progress)
    (hprogress : progress.GoodStops fun e => good e ∧ e ∉ known.stops) :
    Run.Finishes keeps (Progress.GoodStops fun e => good e ∧ e ∉ known.stops)
      (sweep run known heads progress) := by
  induction heads generalizing progress with
  | nil => exact .pure hprogress
  | cons head heads ih =>
    have hrest : ∀ head ∈ heads, (run head.stop).Finishes keeps (StopsIn good) :=
      fun other hother => hrun other (List.mem_cons_of_mem _ hother)
    rw [sweep]
    refine .bind (hrun head List.mem_cons_self) fun attempt hattempt => ?_
    cases attempt with
    | error failure => exact ih hrest _ hprogress
    | ok tails =>
      refine ih hrest _ fun e he => ?_
      rcases MatchSet.mem_stops_extend.1 he with he | ⟨he, hfresh⟩
      · exact hprogress e he
      · exact ⟨hattempt tails rfl e he, hfresh⟩

variable (hgood : ∀ e, good e → reached e)
  (hrun : ∀ o, reached o → (run o).Finishes keeps (StopsIn good))
include hgood hrun

theorem repeatExactly_finishes (parser : Parser) (start count : Nat) (frontier : MatchSet)
    (hfrontier : ∀ e ∈ frontier.stops, reached e)
    (hdone : count = 0 → ∀ e ∈ frontier.stops, good e) :
    Run.Finishes keeps (StopsIn good) (repeatExactly run parser start count frontier) := by
  induction count generalizing frontier with
  | zero =>
    refine .pure fun found heq => ?_
    cases heq
    exact hdone rfl
  | succ count ih =>
    have hheads : ∀ head ∈ frontier.toList, (run head.stop).Finishes keeps (StopsIn good) :=
      fun head hhead => hrun _ (hfrontier _ (MatchSet.mem_stops.2 ⟨head, hhead, rfl⟩))
    rw [repeatExactly]
    refine .bind (sweep_finishes ∅ _ hheads .none Progress.none_goodStops) fun progress hp => ?_
    have hsettled := Progress.settle_stopsIn hp parser start
    cases hnext : progress.settle parser start with
    | error failure => exact .pure (by intro found heq; cases heq)
    | ok next =>
      have hnext : ∀ e ∈ next.stops, good e := fun e he => (hsettled next hnext e he).1
      exact ih next (fun e he => hgood e (hnext e he)) fun _ => hnext

theorem repeatFurther_finishes (rounds : Nat) (known : MatchSet)
    (hknown : ∀ e ∈ known.stops, good e) (frontier : List Match)
    (hfrontier : ∀ m ∈ frontier, good m.stop) :
    Run.Finishes keeps (fun found => ∀ e ∈ found.stops, good e)
      (repeatFurther run rounds known frontier) := by
  induction rounds generalizing known frontier with
  | zero => exact .pure hknown
  | succ rounds ih =>
    have hheads : ∀ head ∈ frontier, (run head.stop).Finishes keeps (StopsIn good) :=
      fun head hhead => hrun _ (hgood _ (hfrontier head hhead))
    rw [repeatFurther]
    refine .bind (sweep_finishes known _ hheads .none Progress.none_goodStops) fun progress hp => ?_
    split
    · exact .pure hknown
    · refine ih _ (fun e he => ?_) _ fun m hm => (hp _ (MatchSet.mem_stops.2 ⟨m, hm, rfl⟩)).1
      rcases MatchSet.mem_stops_union.1 he with he | he
      · exact hknown e he
      · exact (hp e he).1

theorem repeatBetween_finishes (parser : Parser) (bounds : Bounds) (source : Source) (start : Nat)
    (hstart : reached start) (hdone : bounds.min = 0 → good start) :
    Run.Finishes keeps (StopsIn good) (repeatBetween run parser bounds source start) := by
  rw [repeatBetween]
  refine .bind (repeatExactly_finishes hgood hrun parser start bounds.min _
    (by simpa [Match.empty] using hstart) (by simpa [Match.empty] using hdone))
    fun attempt hattempt => ?_
  cases attempt with
  | error failure => exact .pure (by intro found heq; cases heq)
  | ok known =>
    have hknown := hattempt known rfl
    refine .bind (repeatFurther_finishes hgood hrun _ known hknown _ fun m hm =>
      hknown _ (MatchSet.mem_stops.2 ⟨m, hm, rfl⟩)) fun found hfound => .pure fun found' heq => ?_
    cases heq
    exact hfound

end

/-- An answer is remembered without harm to the end of the run. -/
theorem remembered_settles {catalog : Catalog} {nodes : Set Parser} (hapart : Apart nodes nodes)
    {node : Parser} (hnode : node ∈ nodes) {id : CacheId} (hid : node.cache? = some id)
    {source : Source} {start : Nat} {explore : Run Attempt}
    (h : explore.Settles catalog nodes node source start) :
    (remembered id ⟨source, start⟩ explore).Settles catalog nodes node source start := by
  intro caches hcaches
  by_cases hhit : ∃ attempt, caches.Holds id ⟨source, start⟩ attempt
  · obtain ⟨attempt, hhit⟩ := hhit
    rw [run_remembered_hit hhit]
    refine ⟨(fun _ heq => by cases heq), hcaches.touch id _, fun attempt' heq => ?_⟩
    cases heq
    exact hcaches node hnode id hid _ attempt hhit
  · rw [run_remembered_miss (by simpa using hhit)]
    have hrun := h _ (hcaches.touch id ⟨source, start⟩)
    revert hrun
    rcases explore.run (caches.modify id.index (·.touch ⟨source, start⟩)) with
      ⟨error | attempt, caches'⟩
    · exact fun hrun => hrun
    · rintro ⟨-, hcaches', hattempt⟩
      have hmoves := hattempt attempt rfl
      refine ⟨(fun _ heq => by cases heq), hcaches'.insert hapart hnode hid hmoves,
        fun attempt' heq => ?_⟩
      cases heq
      exact hmoves

namespace Catalog

variable {catalog : Catalog}

structure Ready (catalog : Catalog) (nodes : Set Parser) (call : RuleRef → Nat → Run Attempt)
    (source : Source) (parser : Parser) (start : Nat) : Prop where
  here : ∀ ref, catalog.Leading parser ref →
    (call ref start).Settles catalog nodes (.rule ref) source start
  later : ∀ ref, .rule ref ∈ parser.walk → ∀ o, source.room o < source.room start →
    (call ref o).Settles catalog nodes (.rule ref) source o

section
variable {nodes : Set Parser} {call : RuleRef → Nat → Run Attempt} {source : Source}

/-- What is ready is so further on too, and so are its parts where they are come to. -/
theorem Ready.at {whole part : Parser} {start o : Nat}
    (h : catalog.Ready nodes call source whole start)
    (hpart : ∀ node ∈ part.walk, node ∈ whole.walk) (ho : Goes source start o)
    (hleading : o = start → ∀ ref, catalog.Leading part ref → catalog.Leading whole ref) :
    catalog.Ready nodes call source part o := by
  by_cases hsame : o = start
  · subst hsame
    exact ⟨fun ref href => h.here ref (hleading rfl ref href),
      fun ref href => h.later ref (hpart _ href)⟩
  · have hless := ho.room_lt hsame
    exact ⟨fun ref href => h.later ref (hpart _ href.mem_walk) o hless,
      fun ref href o' ho' => h.later ref (hpart _ href) o' (ho'.trans hless)⟩

theorem repeatBetween_settles (cache : CacheId) (bounds : Bounds) (element : Parser)
    {run : Nat → Run Attempt} {start : Nat}
    (hrun : 0 < bounds.min ∨ bounds.max ≠ some 0 → ∀ o, Goes source start o →
      (run o).Settles catalog nodes element source o) (parser : Parser) :
    (repeatBetween run parser bounds source start).Settles catalog nodes
      (.repetition cache bounds element) source start := by
  have hrefl := (goes_stepping source).refl start
  by_cases hasked : 0 < bounds.min ∨ bounds.max ≠ some 0
  · refine repeatBetween_finishes (fun e he => Moves.goes he) (fun o ho => ?_) parser bounds source
      start hrefl fun hmin => ⟨hrefl, fun hnot => absurd (.never hmin) hnot⟩
    refine (hrun hasked o ho).mono fun attempt hattempt found hfound e he => ?_
    have hmoves := hattempt found hfound e he
    exact ⟨(goes_stepping source).trans ho hmoves.goes, fun hnot =>
      (hmoves.takes fun hnullable => hnot (.repetition hnullable)).trans_le ho.room_le⟩
  · -- no occurrence is allowed and none is tried
    obtain ⟨hmin, hmax⟩ : bounds.min = 0 ∧ bounds.max = some 0 := by
      simpa using hasked
    have hrounds : growthRounds bounds source.size = 0 := by simp [growthRounds, hmax, hmin]
    rw [repeatBetween, hrounds, hmin, repeatExactly, pure_bind]
    refine .pure fun found heq e he => ?_
    cases heq
    obtain rfl : e = start := by simpa [repeatFurther, Match.empty] using he
    exact ⟨hrefl, fun hnot => absurd (.never hmin) hnot⟩

variable {firstMatch : ModeId → Bool}

mutual
theorem enumerate_settles (hapart : Apart nodes nodes) (parser : Parser)
    (hnodes : ∀ node ∈ parser.walk, node ∈ nodes)
    (start : Nat) (h : catalog.Ready nodes call source parser start) :
    (parser.enumerate firstMatch call source start).Settles catalog nodes parser source start := by
  have hrefl := (goes_stepping source).refl start
  cases parser with
  | literal terminal =>
    rw [Parser.enumerate]
    cases hm : terminal.matchAt source start with
    | none => exact .pure (by intro found heq; cases heq)
    | some m =>
      refine .pure fun found heq e he => ?_
      cases heq
      obtain rfl : e = m.stop := by simpa using he
      exact moves_matchAt hm
  | alternation mode branches =>
    rw [Parser.enumerate]
    exact tryBranches_settles hapart branches (fun _ hbranch => hbranch) hnodes start h _ _ .none
      Progress.none_goodStops
  | concatenation parts =>
    rw [Parser.enumerate]
    refine followParts_settles hapart [] parts hnodes start h _ _ fun e he => ?_
    obtain rfl : e = start := by simpa [Match.empty] using he
    exact ⟨hrefl, fun hnot => absurd (.concatenation nofun) hnot⟩
  | optional cache element =>
    have hwalk : ∀ node ∈ element.walk, node ∈ (Parser.optional cache element).walk :=
      fun _ hnode => List.mem_cons_of_mem _ hnode
    rw [Parser.enumerate]
    refine remembered_settles hapart (hnodes _ (Parser.self_mem_walk _)) rfl ?_
    have hsettles := repeatBetween_settles cache .atMostOnce element (fun _ o ho =>
      enumerate_settles hapart element (fun node hnode => hnodes node (hwalk node hnode)) o
        (h.at hwalk ho fun _ _ => .optional)) (.optional cache element)
    exact hsettles.mono fun attempt hattempt found hfound e he =>
      (hattempt found hfound e he).of_imp fun _ => .optional
  | repetition cache bounds element =>
    have hwalk : ∀ node ∈ element.walk, node ∈ (Parser.repetition cache bounds element).walk :=
      fun _ hnode => List.mem_cons_of_mem _ hnode
    rw [Parser.enumerate]
    exact remembered_settles hapart (hnodes _ (Parser.self_mem_walk _)) rfl
      (repeatBetween_settles cache bounds element (fun hasked o ho =>
        enumerate_settles hapart element (fun node hnode => hnodes node (hwalk node hnode)) o
          (h.at hwalk ho fun _ _ => .repetition hasked)) _)
  | rule ref =>
    rw [Parser.enumerate]
    exact h.here ref .rule
  | prose text =>
    rw [Parser.enumerate]
    exact .pure (by intro found heq; cases heq)

theorem tryBranches_settles (hapart : Apart nodes nodes) {mode : ModeId} {all : List Parser}
    (branches : List Parser)
    (hsub : ∀ branch ∈ branches, branch ∈ all)
    (hnodes : ∀ node ∈ (Parser.alternation mode all).walk, node ∈ nodes) (start : Nat)
    (h : catalog.Ready nodes call source (.alternation mode all) start) (whole : Parser)
    (onlyFirst : Bool) (progress : Progress)
    (hprogress : progress.GoodStops (catalog.Moves (.alternation mode all) source start)) :
    (Parser.tryBranches firstMatch call source whole onlyFirst start branches progress).Settles
      catalog nodes (.alternation mode all) source start := by
  cases branches with
  | nil =>
    rw [Parser.tryBranches]
    exact .pure (Progress.settle_stopsIn hprogress whole start)
  | cons branch rest =>
    have hmem : branch ∈ all := hsub branch List.mem_cons_self
    have hwalk : ∀ node ∈ branch.walk, node ∈ (Parser.alternation mode all).walk :=
      fun node hnode => List.mem_cons_of_mem _ (Parser.mem_walkAll.2 ⟨branch, hmem, hnode⟩)
    have hrest := fun onlyFirst progress hprogress => tryBranches_settles hapart rest
      (fun other hother => hsub other (List.mem_cons_of_mem _ hother)) hnodes start h whole
      onlyFirst progress hprogress
    have hbranch := enumerate_settles hapart branch
      (fun node hnode => hnodes node (hwalk node hnode)) start
      (h.at hwalk ((goes_stepping source).refl start) fun _ _ => .alternation hmem)
    rw [Parser.tryBranches]
    refine .bind hbranch fun attempt hattempt => ?_
    have hmoves : StopsIn (catalog.Moves (.alternation mode all) source start) attempt :=
      fun found hfound e he => (hattempt found hfound e he).of_imp (.alternation hmem)
    cases attempt with
    | error failure => exact hrest _ _ hprogress
    | ok found =>
      cases onlyFirst with
      | true => exact .pure hmoves
      | false =>
        refine hrest _ _ fun e he => ?_
        rcases MatchSet.mem_stops_union.1 he with he | he
        · exact hprogress e he
        · exact hmoves found rfl e he

theorem followParts_settles (hapart : Apart nodes nodes) (before parts : List Parser)
    (hnodes : ∀ node ∈ (Parser.concatenation (before ++ parts)).walk, node ∈ nodes) (start : Nat)
    (h : catalog.Ready nodes call source (.concatenation (before ++ parts)) start) (whole : Parser)
    (frontier : MatchSet)
    (hfrontier : ∀ e ∈ frontier.stops, catalog.Moves (.concatenation before) source start e) :
    (Parser.followParts firstMatch call source whole start parts frontier).Settles catalog nodes
      (.concatenation (before ++ parts)) source start := by
  cases parts with
  | nil =>
    rw [Parser.followParts, List.append_nil]
    refine .pure fun found heq => ?_
    cases heq
    exact hfrontier
  | cons part rest =>
    have hwalk : ∀ node ∈ part.walk, node ∈ (Parser.concatenation (before ++ part :: rest)).walk :=
      fun node hnode => List.mem_cons_of_mem _ (Parser.mem_walkAll.2 ⟨part, by simp, hnode⟩)
    have hpart : ∀ head ∈ frontier.toList,
        (part.enumerate firstMatch call source head.stop).Finishes (Advancing catalog nodes)
          (StopsIn (catalog.Moves (.concatenation (before ++ [part])) source start)) := by
      intro head hhead
      have hhere := hfrontier _ (MatchSet.mem_stops.2 ⟨head, hhead, rfl⟩)
      have hsettles := enumerate_settles hapart part
        (fun node hnode => hnodes node (hwalk node hnode)) head.stop
        (h.at hwalk hhere.goes fun hsame ref href =>
          .concatenation (hhere.nullable_of_eq hsame) href)
      exact hsettles.mono fun attempt hattempt found hfound e he =>
        hhere.followed (hattempt found hfound e he)
    rw [Parser.followParts]
    refine .bind (sweep_finishes ∅ _ hpart .none Progress.none_goodStops) fun progress hp => ?_
    have hsettled := Progress.settle_stopsIn hp whole start
    cases hnext : progress.settle whole start with
    | error failure => exact .pure (by intro found heq; cases heq)
    | ok next =>
      rw [List.append_cons] at hnodes h ⊢
      exact followParts_settles hapart (before ++ [part]) rest hnodes start h whole next
        fun e he => (hsettled next hnext e he).1
end

end

theorem vetoed_finishes {keeps : Caches → Prop} {accepts : String → Run Bool}
    {source : Source} {start : Nat} (h : ∀ stop,
      (accepts ((source.slice start stop).getD "")).Finishes keeps fun _ => True)
    (candidates : List Match) :
    (vetoed accepts source start candidates).Finishes keeps fun _ => True := by
  induction candidates with
  | nil => exact .pure trivial
  | cons candidate rest ih =>
    rw [vetoed]
    exact .bind (h candidate.stop) fun _ _ => .bind ih fun _ _ => .pure trivial

theorem callOnce_settles {scope : Scope} (hclosed : scope.Closed catalog)
    (hapart : Apart scope.nodes scope.nodes) {call : Source → RuleRef → Nat → Run Attempt}
    {source : Source} {ref : RuleRef} {start : Nat}
    (href : ∀ rule, catalog.resolve ref = .ok rule → rule ∈ scope.rules)
    (hcall : ∀ rule, catalog.resolve ref = .ok rule → (catalog.definition? rule).isSome →
      ∀ source' ref' o, (∀ rule', catalog.resolve ref' = .ok rule' → rule' ∈ scope.rules) →
        (source' = source ∧ o = start → ∀ rule', catalog.resolve ref' = .ok rule' →
          catalog.CallsInPlace rule rule') → Near source start source' o →
        (call source' ref' o).Settles catalog scope.nodes (.rule ref') source' o) :
    (catalog.callOnce call source ref start).Settles catalog scope.nodes (.rule ref) source
      start := by
  rw [callOnce]
  refine .bind (.ofExcept (ended_resolve catalog ref)) fun rule hresolve => ?_
  refine .bind (.ofExcept (ended_bound catalog rule)) fun found hbound => ?_
  obtain ⟨slot, definition⟩ := found
  have hrule := href rule hresolve
  have hcall := hcall rule hresolve (definition?_isSome_of_bound hbound)
  have hnodes := hclosed.inner _ (hclosed.definition rule hrule slot definition hbound)
  have hready : catalog.Ready scope.nodes (call source) source definition start :=
    { here := fun ref' hleading => hcall source ref' start
        (hclosed.target ref' (hnodes _ hleading.mem_walk))
        (fun _ _ hresolve' => .definition hbound hleading hresolve') (Near.refl source start)
      later := fun ref' href' o ho => hcall source ref' o (hclosed.target ref' (hnodes _ href'))
        (fun hsame => absurd ho (hsame.2 ▸ lt_irrefl _)) (Or.inr ho) }
  refine .bind (enumerate_settles hapart definition hnodes start hready) fun attempt hattempt => ?_
  have hmoves : ∀ found, attempt = .ok found → ∀ e ∈ found.stops,
      catalog.Moves (.rule ref) source start e := fun found hfound e he =>
    (hattempt found hfound e he).of_imp (.rule hresolve hbound)
  cases attempt with
  | error failure => exact .pure (by intro found heq; cases heq)
  | ok candidates =>
    cases hexclusion : slot.exclusion with
    | none =>
      refine .pure fun found heq => ?_
      cases heq
      simpa using hmoves candidates rfl
    | some exclusion =>
      refine .bind (.ofExcept (ended_resolve catalog exclusion)) fun excluded hexcluded => ?_
      have hscope := hclosed.exclusion rule hrule slot definition exclusion hbound hexclusion
        excluded hexcluded
      refine .bind (vetoed_finishes (fun stop => ?_) candidates.toList) fun vetoes _ => .pure
        (Progress.settle_stopsIn (fun e he => ?_) _ _)
      -- The slice is parsed from its beginning and has no more room than there is here. Where it
      -- has as much, the excluded rule is called in place.
      · refine .bind (hcall _ (catalog.refer excluded) 0
          (fun rule' hrule' => eq_of_resolve_refer hrule' ▸ hscope) (fun _ rule' hrule' => ?_)
          (near_slice source start stop)) fun _ _ => .pure trivial
        exact eq_of_resolve_refer hrule' ▸ .exclusion hbound hexclusion hexcluded
      · obtain ⟨m, hm, rfl⟩ := MatchSet.mem_stops.1 he
        obtain ⟨m', hm', rfl⟩ := MatchSet.mem_mapNodes.1 hm
        exact hmoves candidates rfl _
          (MatchSet.mem_stops.2 ⟨m', (MatchSet.mem_filter.1 hm').1, rfl⟩)

def Suffices (catalog : Catalog) (depth : Nat) (source : Source) (ref : RuleRef) (start : Nat) :
    Prop :=
  0 < depth ∧ ∀ rule, catalog.resolve ref = .ok rule → (catalog.definition? rule).isSome →
    source.room start * catalog.ruleCount + catalog.rank rule + 1 < depth

section
variable {scope : Scope} (hclosed : scope.Closed catalog) (hapart : Apart scope.nodes scope.nodes)
  (hacyclic : ∀ rule ∈ scope.rules, ¬ Relation.TransGen catalog.CallsInPlace rule rule)
include hacyclic

/-- A call needs less depth than the one that makes it. -/
theorem Suffices.call {depth : Nat} {source source' : Source} {ref ref' : RuleRef}
    {start o : Nat} {rule : RuleId} (h : catalog.Suffices (depth + 1) source ref start)
    (hresolve : catalog.resolve ref = .ok rule) (hbound : (catalog.definition? rule).isSome)
    (href' : ∀ rule', catalog.resolve ref' = .ok rule' → rule' ∈ scope.rules)
    (hplace : source' = source ∧ o = start → ∀ rule', catalog.resolve ref' = .ok rule' →
      catalog.CallsInPlace rule rule') (hnear : Near source start source' o) :
    catalog.Suffices depth source' ref' o := by
  have hdepth := h.2 rule hresolve hbound
  refine ⟨by omega, fun rule' hresolve' hbound' => ?_⟩
  have hacyclic' := hacyclic rule' (href' rule' hresolve')
  rcases hnear with ⟨rfl, rfl⟩ | hless
  · have hrank := rank_lt_of_callsInPlace (hplace ⟨rfl, rfl⟩ rule' hresolve') hacyclic' hbound'
    omega
  · have hrank := rank_lt_ruleCount hbound' hacyclic'
    have hroom := Nat.mul_le_mul_right catalog.ruleCount (Nat.succ_le_of_lt hless)
    rw [Nat.succ_mul] at hroom
    omega

/-- The depth allowed for a text is enough for every rule at every place in it. -/
theorem suffices_depthBound {depth : Nat} {source : Source}
    (hdepth : catalog.depthBound source ≤ depth) {ref : RuleRef}
    (href : ∀ rule, catalog.resolve ref = .ok rule → rule ∈ scope.rules) (start : Nat) :
    catalog.Suffices depth source ref start := by
  rw [depthBound] at hdepth
  refine ⟨by omega, fun rule hresolve hbound => ?_⟩
  have hrank := rank_lt_ruleCount hbound (hacyclic rule (href rule hresolve))
  have hsquare : source.room start + 1 ≤ (source.size + 1) * (source.size + 1) + 2 := by
    nlinarith [source.room_le start]
  have hroom := Nat.mul_le_mul_left catalog.ruleCount hsquare
  rw [Nat.mul_succ, Nat.mul_comm] at hroom
  omega

include hclosed hapart

theorem call_settles (depth : Nat) {source : Source} {ref : RuleRef} {start : Nat}
    (href : ∀ rule, catalog.resolve ref = .ok rule → rule ∈ scope.rules)
    (hdepth : catalog.Suffices depth source ref start) :
    Run.Settles catalog scope.nodes (.rule ref) source start
      (catalog.call depth source ref start) := by
  induction depth generalizing source ref start with
  | zero => exact absurd hdepth.1 (lt_irrefl 0)
  | succ depth ih =>
    rw [Catalog.call]
    exact callOnce_settles hclosed hapart href fun rule hresolve hbound source' ref' o href' hplace
      hnear => ih href' (hdepth.call hacyclic hresolve hbound href' hplace hnear)

theorem ready_of_depth {depth : Nat} {source : Source} (hdepth : catalog.depthBound source ≤ depth)
    {parser : Parser} (hparser : parser ∈ scope.nodes) (start : Nat) :
    catalog.Ready scope.nodes (catalog.call depth source) source parser start := by
  have href : ∀ ref, .rule ref ∈ parser.walk → ∀ o,
      Run.Settles catalog scope.nodes (.rule ref) source o (catalog.call depth source ref o) := by
    intro ref hwalk o
    have hrules := hclosed.target ref (hclosed.inner parser hparser _ hwalk)
    exact call_settles hclosed hapart hacyclic depth hrules
      (suffices_depthBound hacyclic hdepth hrules o)
  exact ⟨fun ref hleading => href ref hleading.mem_walk start,
    fun ref hwalk o _ => href ref hwalk o⟩

theorem enumerate_settles_of_depth {depth : Nat} {source : Source}
    (hdepth : catalog.depthBound source ≤ depth) {parser : Parser} (hparser : parser ∈ scope.nodes)
    (start : Nat) :
    Run.Settles catalog scope.nodes parser source start
      (parser.enumerate catalog.firstMatch (catalog.call depth source) source start) :=
  enumerate_settles hapart parser (hclosed.inner parser hparser) start
    (ready_of_depth hclosed hapart hacyclic hdepth hparser start)

end

end Catalog

def preceding : Relator Run Run where
  rel post x y := ∀ caches, (∃ error, error.TooDeep ∧ (x.run caches).1 = .error error) ∨
    (x.run caches = y.run caches ∧ ∀ a, (x.run caches).1 = .ok a → post a)
  pure h _ := Or.inr ⟨rfl, fun _ heq => by cases heq; exact h⟩
  throw _ _ _ := Or.inr ⟨rfl, fun _ heq => by cases heq⟩
  bind {α β post post' x y f g} h hf caches := by
    rcases h caches with ⟨error, hdeep, heq⟩ | ⟨hsame, hpost⟩
    · refine Or.inl ⟨error, hdeep, ?_⟩
      rcases hx : x.run caches with ⟨_, caches'⟩
      rw [hx] at heq
      subst heq
      rw [Run.run_bind_error hx]
    · rcases hx : x.run caches with ⟨error | a, caches'⟩
      · rw [Run.run_bind_error hx, Run.run_bind_error (hsame ▸ hx)]
        exact Or.inr ⟨rfl, fun _ heq => by cases heq⟩
      · rw [Run.run_bind_ok hx, Run.run_bind_ok (hsame ▸ hx)]
        rw [hx] at hpost
        exact hf a (hpost a rfl) caches'

theorem remembered_precedes {id : CacheId} {key : CacheKey} {post : Attempt → Prop}
    (hpost : ∀ attempt, post attempt) {x y : Run Attempt} (h : preceding.rel post x y) :
    preceding.rel post (remembered id key x) (remembered id key y) := by
  intro caches
  by_cases hhit : ∃ attempt, caches.Holds id key attempt
  · obtain ⟨attempt, hhit⟩ := hhit
    rw [run_remembered_hit hhit, run_remembered_hit hhit]
    exact Or.inr ⟨rfl, fun a _ => hpost a⟩
  · have hmiss : ∀ attempt, ¬ caches.Holds id key attempt := by simpa using hhit
    rw [run_remembered_miss hmiss, run_remembered_miss hmiss]
    rcases h (caches.modify id.index (·.touch key)) with ⟨error, hdeep, heq⟩ | ⟨hsame, -⟩
    · refine Or.inl ⟨error, hdeep, ?_⟩
      rcases hx : x.run (caches.modify id.index (·.touch key)) with ⟨_, caches'⟩
      rw [hx] at heq
      subst heq
      rfl
    · rw [← hsame]
      exact Or.inr ⟨rfl, fun a _ => hpost a⟩

namespace Catalog

variable {catalog : Catalog}

/-- With caches too, going deeper changes nothing but what is given up. -/
theorem call_precedes {depth depth' : Nat} (h : depth ≤ depth') (source : Source) (ref : RuleRef)
    (start : Nat) :
    preceding.rel (StopsIn fun _ => True) (catalog.call depth source ref start)
      (catalog.call depth' source ref start) := by
  induction depth generalizing depth' source ref start with
  | zero => exact fun _ => Or.inl ⟨_, ⟨ref.name, rfl⟩, rfl⟩
  | succ depth ih =>
    obtain ⟨k, rfl⟩ : ∃ k, depth' = k + 1 := ⟨depth' - 1, by omega⟩
    refine callOnce_rel settling_true trivial rfl fun rule _ => ?_
    exact
      { bound := rfl
        refer := rfl
        body := fun _ _ _ =>
          { call := fun ref' _ o _ => ih (by omega) source ref' o
            mode := fun _ _ _ => rfl
            remember := fun _ _ _ _ _ _ h => remembered_precedes (fun _ _ _ _ _ => trivial) h }
        exclusion := fun _ _ _ _ _ =>
          ⟨rfl, fun _ _ source' _ => ⟨_, fun _ _ => rfl, ih (by omega) source' _ 0⟩⟩ }

theorem enumerate_precedes {depth depth' : Nat} (h : depth ≤ depth') (parser : Parser)
    (source : Source) (start : Nat) :
    preceding.rel (StopsIn fun _ => True)
      (parser.enumerate catalog.firstMatch (catalog.call depth source) source start)
      (parser.enumerate catalog.firstMatch (catalog.call depth' source) source start) :=
  enumerate_rel (settling_true.consume source) parser
    { call := fun ref _ o _ => call_precedes h source ref o
      mode := fun _ _ _ => rfl
      remember := fun _ _ _ _ _ _ h => remembered_precedes (fun _ _ _ _ _ => trivial) h }
    start trivial

/-- What repetitions answer anew goes where they may stop. -/
theorem advancing_of_sound {scope : Scope} (hclosed : scope.Closed catalog)
    (hapart : Apart scope.nodes scope.nodes)
    (hacyclic : ∀ rule ∈ scope.rules, ¬ Relation.TransGen catalog.CallsInPlace rule rule)
    {caches : Caches} (hsound : Sound catalog scope.nodes caches) :
    Advancing catalog scope.nodes caches := by
  intro node hnode id hid key attempt hholds
  have hanew := hsound node hnode id hid key attempt hholds
  rw [← Parser.enumerate_eq_explore] at hanew
  obtain ⟨-, -, hmoves⟩ := enumerate_settles_of_depth hclosed hapart hacyclic
    (Nat.le_refl (catalog.depthBound key.source)) hnode key.start #[] (.of_isEmpty (by simp))
  obtain ⟨hagree, -⟩ := matchesOf_agrees hclosed hapart hnode key.source key.start #[]
    (.of_all_isEmpty (by simp))
  refine hmoves attempt ?_
  rcases hagree with hagree | ⟨-, error, -, hdeep⟩
  · exact hagree.trans hanew
  · cases hanew.symm.trans hdeep

end Catalog

end Metasyntax
