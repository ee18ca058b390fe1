import Metasyntax.Proofs.Transparency

/-!
# What all matches have

A property of matches that literals have, and that sequencing and naming keep, is had by
every match that a parse reports, whatever is remembered from earlier, as long as what is
remembered has the property too. A parse then leaves behind caches of that kind.
-/

set_option autoImplicit false

namespace Metasyntax

structure Tracing (trace : Source → Nat → Match → Prop) : Prop where
  empty (source : Source) (start : Nat) : trace source start (.empty start)
  matchAt {source : Source} {start : Nat} {terminal : Literal} {m : Match} :
    terminal.matchAt source start = some m → trace source start m
  followedBy {source : Source} {start : Nat} {first second : Match} : trace source start first →
    trace source first.stop second → trace source start (first.followedBy second)
  wrap {source : Source} {start : Nat} {m : Match} (name : String) : trace source start m →
    trace source start ⟨[.rule name m.nodes], m.stop⟩

def Attempt.Traced (attempt : Attempt) (trace : Match → Prop) : Prop :=
  ∀ found, attempt = .ok found → ∀ m ∈ found.toList, trace m

def Caches.Traced (caches : Caches) (trace : Source → Nat → Match → Prop) : Prop :=
  ∀ id key attempt, caches.Holds id key attempt → attempt.Traced (trace key.source key.start)

theorem Attempt.traced_error (failure : ParseError) (trace : Match → Prop) :
    Attempt.Traced (.error failure) trace := fun _ h => by cases h

theorem Attempt.traced_ok {found : MatchSet} {trace : Match → Prop}
    (h : ∀ m ∈ found.toList, trace m) : Attempt.Traced (.ok found) trace := by
  intro found' heq
  cases heq
  exact h

theorem Progress.traced_settle {progress : Progress} {trace : Match → Prop}
    (h : ∀ m ∈ progress.found.toList, trace m) (parser : Parser) (start : Nat) :
    (progress.settle parser start).Traced trace := by
  rw [settle]
  split
  · exact Attempt.traced_error _ trace
  · exact Attempt.traced_ok h

namespace Caches.Traced

variable {trace : Source → Nat → Match → Prop} {caches caches' : Caches}

theorem of_holds (h : caches.Traced trace)
    (hholds : ∀ id key attempt, caches'.Holds id key attempt → caches.Holds id key attempt) :
    caches'.Traced trace :=
  fun id key attempt hattempt => h id key attempt (hholds id key attempt hattempt)

theorem touch (h : caches.Traced trace) (id : CacheId) (key : CacheKey) :
    Caches.Traced (caches.modify id.index (·.touch key)) trace :=
  h.of_holds fun _ _ _ => Caches.holds_of_holds_touch

theorem insert (h : caches.Traced trace) (id : CacheId) {key : CacheKey} {attempt : Attempt}
    (hattempt : attempt.Traced (trace key.source key.start)) :
    Caches.Traced (caches.modify id.index (·.insert key attempt)) trace := by
  intro id' key' attempt' hholds
  rcases Caches.holds_of_holds_insert hholds with ⟨rfl, rfl, rfl⟩ | hholds
  · exact hattempt
  · exact h id' key' attempt' hholds

end Caches.Traced

abbrev Run.Traces (trace : Source → Nat → Match → Prop) {α : Type} (post : α → Prop)
    (run : Run α) : Prop :=
  run.Upholds (fun caches => caches.Traced trace) post

theorem remembered_traces {trace : Source → Nat → Match → Prop} {id : CacheId} {source : Source}
    {start : Nat} {explore : Run Attempt}
    (h : explore.Traces trace fun attempt => attempt.Traced (trace source start)) :
    (remembered id ⟨source, start⟩ explore).Traces trace
      fun attempt => attempt.Traced (trace source start) :=
  remembered_upholds (fun _ attempt hcaches => hcaches id ⟨source, start⟩ attempt)
    (fun _ hcaches => hcaches.touch id _)
    (fun _ _ hcaches hattempt => Caches.Traced.insert hcaches id hattempt) h

section
variable {trace : Source → Nat → Match → Prop} (htrace : Tracing trace) {source : Source}
include htrace

section
variable {start : Nat} {run : Nat → Run Attempt}
variable (hrun : ∀ o, (run o).Traces trace fun attempt => attempt.Traced (trace source o))
include hrun

theorem sweep_traces (known : MatchSet) (heads : List Match)
    (hheads : ∀ head ∈ heads, trace source start head) (progress : Progress)
    (hprogress : ∀ m ∈ progress.found.toList, trace source start m) :
    Run.Traces trace (fun after => ∀ m ∈ after.found.toList, trace source start m)
      (sweep run known heads progress) := by
  induction heads generalizing progress with
  | nil => exact Relator.pure _ hprogress
  | cons head heads ih =>
    have hrest : ∀ head ∈ heads, trace source start head :=
      fun other hother => hheads other (List.mem_cons_of_mem _ hother)
    rw [sweep]
    refine Relator.bind _ (hrun head.stop) fun attempt hattempt => ?_
    cases attempt with
    | error failure => exact ih hrest _ hprogress
    | ok tails =>
      refine ih hrest _ fun m hm => ?_
      rcases MatchSet.mem_extend hm with hm | ⟨tail, htail, rfl⟩
      · exact hprogress m hm
      · exact htrace.followedBy (hheads head List.mem_cons_self) (hattempt tails rfl tail htail)

theorem repeatExactly_traces (parser : Parser) (count : Nat) (frontier : MatchSet)
    (hfrontier : ∀ m ∈ frontier.toList, trace source start m) :
    Run.Traces trace (fun attempt => attempt.Traced (trace source start))
      (repeatExactly run parser start count frontier) := by
  induction count generalizing frontier with
  | zero => exact Relator.pure _ (Attempt.traced_ok hfrontier)
  | succ count ih =>
    rw [repeatExactly]
    refine Relator.bind _ (sweep_traces htrace hrun ∅ _ hfrontier .none (by rintro _ ⟨⟩))
      fun progress hprogress => ?_
    have hsettled := Progress.traced_settle hprogress parser start
    cases hnext : progress.settle parser start with
    | error failure => exact Relator.pure _ (Attempt.traced_error failure _)
    | ok next => exact ih next (hsettled next hnext)

theorem repeatFurther_traces (rounds : Nat) (known : MatchSet)
    (hknown : ∀ m ∈ known.toList, trace source start m) (frontier : List Match)
    (hfrontier : ∀ m ∈ frontier, trace source start m) :
    Run.Traces trace (fun found => ∀ m ∈ found.toList, trace source start m)
      (repeatFurther run rounds known frontier) := by
  induction rounds generalizing known frontier with
  | zero => exact Relator.pure _ hknown
  | succ rounds ih =>
    rw [repeatFurther]
    refine Relator.bind _ (sweep_traces htrace hrun known _ hfrontier .none (by rintro _ ⟨⟩))
      fun progress hprogress => ?_
    split
    · exact Relator.pure _ hknown
    · refine ih _ (fun m hm => ?_) _ hprogress
      rcases MatchSet.mem_union hm with hm | hm
      · exact hknown m hm
      · exact hprogress m hm

theorem repeatBetween_traces (parser : Parser) (bounds : Bounds) (start : Nat) :
    Run.Traces trace (fun attempt => attempt.Traced (trace source start))
      (repeatBetween run parser bounds source start) := by
  have hstart : ∀ m ∈ (MatchSet.single (.empty start)).toList, trace source start m := by
    intro m hm
    rw [MatchSet.toList_single, List.mem_singleton] at hm
    exact hm ▸ htrace.empty source start
  rw [repeatBetween]
  refine Relator.bind _ (repeatExactly_traces htrace hrun parser bounds.min _ hstart)
    fun attempt hattempt => ?_
  cases attempt with
  | error failure => exact Relator.pure _ (Attempt.traced_error failure _)
  | ok known =>
    have hknown := hattempt known rfl
    exact Relator.bind _ (repeatFurther_traces htrace hrun _ known hknown _ hknown)
      fun found hfound => Relator.pure _ (Attempt.traced_ok hfound)

end

end

section
variable {trace : Source → Nat → Match → Prop} {source : Source} {firstMatch : ModeId → Bool}
  {call : RuleRef → Nat → Run Attempt}

mutual
theorem enumerate_traces (htrace : Tracing trace) (hcall : ∀ ref o, (call ref o).Traces trace
      fun attempt => attempt.Traced (trace source o)) (parser : Parser) (start : Nat) :
    Run.Traces trace (fun attempt => attempt.Traced (trace source start))
      (parser.enumerate firstMatch call source start) := by
  cases parser with
  | literal terminal =>
    rw [Parser.enumerate]
    cases hm : terminal.matchAt source start with
    | none => exact Relator.pure _ (Attempt.traced_error _ _)
    | some m =>
      refine Relator.pure _ (Attempt.traced_ok fun m' hm' => ?_)
      rw [MatchSet.toList_single, List.mem_singleton] at hm'
      exact hm' ▸ htrace.matchAt hm
  | alternation mode branches =>
    rw [Parser.enumerate]
    exact tryBranches_traces htrace hcall branches _ _ start .none nofun
  | concatenation parts =>
    rw [Parser.enumerate]
    refine followParts_traces htrace hcall parts _ start _ fun m hm => ?_
    rw [MatchSet.toList_single, List.mem_singleton] at hm
    exact hm ▸ htrace.empty source start
  | optional cache element | repetition cache bounds element =>
    rw [Parser.enumerate]
    exact remembered_traces
      (repeatBetween_traces htrace (enumerate_traces htrace hcall element) _ _ start)
  | rule ref =>
    rw [Parser.enumerate]
    exact hcall ref start
  | prose text =>
    rw [Parser.enumerate]
    exact Relator.pure _ (Attempt.traced_error _ _)

theorem tryBranches_traces (htrace : Tracing trace) (hcall : ∀ ref o, (call ref o).Traces trace
      fun attempt => attempt.Traced (trace source o)) (branches : List Parser) (whole : Parser)
    (onlyFirst : Bool) (start : Nat) (progress : Progress)
    (hprogress : ∀ m ∈ progress.found.toList, trace source start m) :
    Run.Traces trace (fun attempt => attempt.Traced (trace source start))
      (Parser.tryBranches firstMatch call source whole onlyFirst start branches progress) := by
  cases branches with
  | nil =>
    rw [Parser.tryBranches]
    exact Relator.pure _ (Progress.traced_settle hprogress whole start)
  | cons branch rest =>
    rw [Parser.tryBranches]
    refine Relator.bind _ (enumerate_traces htrace hcall branch start) fun attempt hattempt => ?_
    cases attempt with
    | error failure => exact tryBranches_traces htrace hcall rest _ _ start _ hprogress
    | ok found =>
      cases onlyFirst with
      | true => exact Relator.pure _ hattempt
      | false =>
        refine tryBranches_traces htrace hcall rest _ _ start _ fun m hm => ?_
        rcases MatchSet.mem_union hm with hm | hm
        · exact hprogress m hm
        · exact hattempt found rfl m hm

theorem followParts_traces (htrace : Tracing trace) (hcall : ∀ ref o, (call ref o).Traces trace
      fun attempt => attempt.Traced (trace source o)) (parts : List Parser) (whole : Parser)
    (start : Nat) (frontier : MatchSet) (hfrontier : ∀ m ∈ frontier.toList, trace source start m) :
    Run.Traces trace (fun attempt => attempt.Traced (trace source start))
      (Parser.followParts firstMatch call source whole start parts frontier) := by
  cases parts with
  | nil =>
    rw [Parser.followParts]
    exact Relator.pure _ (Attempt.traced_ok hfrontier)
  | cons part rest =>
    rw [Parser.followParts]
    refine Relator.bind _ (sweep_traces htrace (enumerate_traces htrace hcall part) ∅ _ hfrontier
      .none nofun) fun progress hprogress => ?_
    have hsettled := Progress.traced_settle hprogress whole start
    cases hnext : progress.settle whole start with
    | error failure => exact Relator.pure _ (Attempt.traced_error failure _)
    | ok next => exact followParts_traces htrace hcall rest whole start next (hsettled next hnext)
end

end

namespace Catalog

section
variable {catalog : Catalog} {trace : Source → Nat → Match → Prop}

theorem vetoed_traces {accepts : String → Run Bool}
    (h : ∀ text, (accepts text).Traces trace fun _ => True) (source : Source) (start : Nat)
    (candidates : List Match) :
    (vetoed accepts source start candidates).Traces trace fun _ => True := by
  induction candidates with
  | nil => exact Relator.pure _ trivial
  | cons candidate rest ih =>
    rw [vetoed]
    exact Relator.bind _ (h _) fun _ _ => Relator.bind _ ih fun _ _ => Relator.pure _ trivial

def Named (catalog : Catalog) (trace : Source → Nat → Match → Prop) (source : Source)
    (rule : RuleId) (start : Nat) (m : Match) : Prop :=
  trace source start m ∧ ∃ children, m.nodes = [.rule (catalog.nameOf rule) children]

theorem traced_of_named {source : Source} {rule : RuleId} {start : Nat} {attempt : Attempt}
    (h : attempt.Traced (catalog.Named trace source rule start)) :
    attempt.Traced (trace source start) :=
  fun found hfound m hm => (h found hfound m hm).1

variable (htrace : Tracing trace)
include htrace

theorem callOnce_traces {call : Source → RuleRef → Nat → Run Attempt}
    (hcall : ∀ source ref o, (call source ref o).Traces trace
      fun attempt => attempt.Traced (trace source o)) (source : Source) (ref : RuleRef)
    (start : Nat) :
    (catalog.callOnce call source ref start).Traces trace
      fun attempt => attempt.Traced (catalog.Named trace source ref.target start) := by
  rw [callOnce]
  refine Relator.bind _ (ofExcept_rel _ _) fun rule hresolve => ?_
  obtain rfl : rule = ref.target := by
    rw [resolve] at hresolve
    split at hresolve
    · exact (Except.ok.inj hresolve).symm
    · cases hresolve
  refine Relator.bind _ (ofExcept_rel _ _) fun found hbound => ?_
  obtain ⟨slot, definition⟩ := found
  have hname : catalog.nameOf ref.target = slot.name := by
    rw [bound] at hbound
    rw [nameOf]
    cases hslot : catalog.slot? ref.target with
    | none => simp [hslot] at hbound
    | some slot' =>
      rw [hslot] at hbound
      dsimp only at hbound
      split at hbound
      · cases hbound
      · cases hbound
        rfl
  refine Relator.bind _ (enumerate_traces htrace (hcall source) definition start)
    fun attempt hattempt => ?_
  cases attempt with
  | error failure => exact Relator.pure _ (Attempt.traced_error _ _)
  | ok candidates =>
    have hwrap : ∀ p : Match → Bool, ∀ m ∈ ((candidates.filter p).mapNodes
        fun nodes => [.rule slot.name nodes]).toList,
          catalog.Named trace source ref.target start m := by
      intro p m hm
      obtain ⟨m', hm', rfl⟩ := MatchSet.mem_mapNodes.1 hm
      exact ⟨htrace.wrap _ (hattempt candidates rfl m' (MatchSet.mem_filter.1 hm').1), m'.nodes,
        by rw [hname]⟩
    cases hexclusion : slot.exclusion with
    | none =>
      refine Relator.pure _ (Attempt.traced_ok fun m hm => ?_)
      obtain ⟨m', hm', rfl⟩ := MatchSet.mem_mapNodes.1 hm
      exact ⟨htrace.wrap _ (hattempt candidates rfl m' hm'), m'.nodes, by rw [hname]⟩
    | some ref' =>
      refine Relator.bind _ (ofExcept_rel _ _) fun excluded _ => ?_
      refine Relator.bind _ (vetoed_traces (fun text => ?_) source start candidates.toList)
        fun vetoes _ => Relator.pure _ (Progress.traced_settle (hwrap _) _ _)
      exact Relator.bind _ (hcall _ _ 0) fun _ _ => Relator.pure _ trivial

theorem call_traces (depth : Nat) (source : Source) (ref : RuleRef) (start : Nat) :
    Run.Traces trace (fun attempt => attempt.Traced (catalog.Named trace source ref.target start))
      (catalog.call depth source ref start) := by
  induction depth generalizing source ref start with
  | zero => exact Relator.throw _ _ trivial
  | succ depth ih =>
    rw [call]
    exact callOnce_traces htrace (fun source ref o => (ih source ref o).mono fun _ => traced_of_named)
      source ref start

end

end Catalog

end Metasyntax
