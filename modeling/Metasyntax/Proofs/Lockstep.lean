import Metasyntax.Proofs.Pairing
import Metasyntax.Proofs.Influence
import Metasyntax.Proofs.Rollback

/-!
# Parses in lockstep

The rules of two catalogs gather the same alternatives, and caches remember the same in both,
stale or not. Then a parse does the same in both, one step after the other, and finds the same.
Only the caches of one closed part of the catalogs may differ, as long as they are sound. The
parses can come apart only where one of them is given up, since what is remembered there is
found without calls.
-/

set_option autoImplicit false

namespace Metasyntax

namespace Cache

variable {κ α : Type} [BEq κ] [LawfulBEq κ] [Hashable κ] {same : α → α → Prop}
  {cache cache' : Cache κ α}

def SameEntry (same : α → α → Prop) (entry entry' : α × Nat) : Prop :=
  same entry.1 entry'.1 ∧ entry'.2 = entry.2

structure Alike (same : α → α → Prop) (cache cache' : Cache κ α) : Prop where
  maxSize : cache'.maxSize = cache.maxSize
  tick : cache'.tick = cache.tick
  recency : cache'.recency = cache.recency
  size : cache'.entries.size = cache.entries.size
  entry (key : κ) : Option.Rel (SameEntry same) cache.entries[key]? cache'.entries[key]?

omit [LawfulBEq κ] in
theorem Alike.refl (h : ∀ a, same a a) (cache : Cache κ α) : cache.Alike same cache where
  maxSize := rfl
  tick := rfl
  recency := rfl
  size := rfl
  entry key := by
    cases cache.entries[key]? with
    | none => exact .none
    | some entry => exact .some ⟨h entry.1, rfl⟩

theorem mem_congr (h : cache.Alike same cache') (key : κ) :
    key ∈ cache'.entries ↔ key ∈ cache.entries := by
  rw [Std.HashMap.mem_iff_isSome_getElem?, Std.HashMap.mem_iff_isSome_getElem?]
  obtain ⟨hold, hnew⟩ | ⟨entry, entry', hold, hnew, -⟩ := rel_cases (h.entry key)
  · rw [hold, hnew]
  · rw [hold, hnew]
    rfl

theorem entry_insert (h : cache.Alike same cache') (key : κ) {a a' : α} (ha : same a a')
    (stamp : Nat) (key' : κ) :
    Option.Rel (SameEntry same) (cache.entries.insert key (a, stamp))[key']?
      (cache'.entries.insert key (a', stamp))[key']? := by
  rw [Std.HashMap.getElem?_insert, Std.HashMap.getElem?_insert]
  split
  · exact .some ⟨ha, rfl⟩
  · exact h.entry key'

theorem size_insert_congr (h : cache.Alike same cache') (key : κ) (a a' : α × Nat) :
    (cache'.entries.insert key a').size = (cache.entries.insert key a).size := by
  rw [Std.HashMap.size_insert, Std.HashMap.size_insert, h.size]
  simp only [mem_congr h]

namespace Alike

omit [LawfulBEq κ] in
theorem peek (h : cache.Alike same cache') (key : κ) :
    Option.Rel same (cache.peek key) (cache'.peek key) := by
  rw [Cache.peek, Cache.peek]
  obtain ⟨hold, hnew⟩ | ⟨entry, entry', hold, hnew, hsame, -⟩ := rel_cases (h.entry key)
  · rw [hold, hnew]
    exact .none
  · rw [hold, hnew]
    exact .some hsame

theorem touch (h : cache.Alike same cache') (key : κ) :
    (cache.touch key).Alike same (cache'.touch key) := by
  obtain ⟨hold, hnew⟩ | ⟨⟨a, stamp⟩, ⟨a', stamp'⟩, hold, hnew, hsame, hstamp⟩ :=
    rel_cases (h.entry key)
  · simp only [Cache.touch, hold, hnew]
    exact { h with tick := congrArg (· + 1) h.tick }
  · obtain rfl : stamp' = stamp := hstamp
    simp only [Cache.touch, hold, hnew, h.tick, h.recency]
    exact
      { maxSize := h.maxSize
        tick := rfl
        recency := rfl
        size := size_insert_congr h key _ _
        entry := entry_insert h key hsame _ }

theorem evict (h : cache.Alike same cache') : cache.evict.Alike same cache'.evict := by
  rw [Cache.evict, Cache.evict, h.recency]
  cases cache.recency.minEntry? with
  | none => exact h
  | some oldest =>
    refine
      { maxSize := h.maxSize
        tick := h.tick
        recency := rfl
        size := ?_
        entry := fun key => ?_ }
    · simp only [Std.HashMap.size_erase, h.size, mem_congr h]
    · simp only [Std.HashMap.getElem?_erase]
      split
      · exact .none
      · exact h.entry key

theorem makeRoom (h : cache.Alike same cache') (key : κ) :
    (cache.makeRoom key).Alike same (cache'.makeRoom key) := by
  obtain ⟨hold, hnew⟩ | ⟨⟨a, stamp⟩, ⟨a', stamp'⟩, hold, hnew, hsame, hstamp⟩ :=
    rel_cases (h.entry key)
  · simp only [Cache.makeRoom, hold, hnew, h.maxSize, h.size]
    split
    · exact h.evict
    · exact h
  · obtain rfl : stamp' = stamp := hstamp
    simp only [Cache.makeRoom, hold, hnew, h.recency]
    exact { h with recency := rfl }

theorem insert (h : cache.Alike same cache') (key : κ) {a a' : α} (ha : same a a') :
    (cache.insert key a).Alike same (cache'.insert key a') := by
  have hroom := h.makeRoom key
  simp only [Cache.insert, h.tick, hroom.recency]
  exact
    { maxSize := hroom.maxSize
      tick := rfl
      recency := rfl
      size := size_insert_congr hroom key _ _
      entry := entry_insert hroom key ha _ }

end Alike

end Cache

inductive EndAbreast (keeps : Caches → Caches → Prop) {α β : Type} (post : α → β → Prop) :
    Except GrammarError α × Caches → Except GrammarError β × Caches → Prop
  | left {error : GrammarError} {caches : Caches} {other : Except GrammarError β × Caches}
    (hdeep : error.TooDeep) : EndAbreast keeps post (.error error, caches) other
  | right {error : GrammarError} {caches : Caches} {other : Except GrammarError α × Caches}
    (hdeep : error.TooDeep) : EndAbreast keeps post other (.error error, caches)
  | error (error : GrammarError) (caches caches' : Caches) :
    EndAbreast keeps post (.error error, caches) (.error error, caches')
  | ok {a : α} {b : β} {caches caches' : Caches} (hpost : post a b) (hkeeps : keeps caches caches') :
    EndAbreast keeps post (.ok a, caches) (.ok b, caches')

theorem EndAbreast.congr {keeps : Caches → Caches → Prop}
    {x x' y y' : Except GrammarError Attempt × Caches} (h : EndAbreast keeps Attempt.Same x y)
    (hx : (shown x.1, x.2) = (shown x'.1, x'.2)) (hy : (shown y.1, y.2) = (shown y'.1, y'.2)) :
    EndAbreast keeps Attempt.Same x' y' := by
  obtain ⟨outcome, caches⟩ := x'
  obtain ⟨outcome', caches'⟩ := y'
  obtain ⟨hx, hcaches⟩ := Prod.mk.inj hx
  obtain ⟨hy, hcaches'⟩ := Prod.mk.inj hy
  dsimp only at hcaches hcaches'
  have herror {outcome : Except GrammarError Attempt} {error : GrammarError}
      (h : shown (.error error) = shown outcome) : outcome = .error error := by
    cases outcome with
    | error error' => exact congrArg Except.error (Except.error.inj h).symm
    | ok attempt => cases h
  have hok {outcome : Except GrammarError Attempt} {attempt : Attempt}
      (h : shown (.ok attempt) = shown outcome) :
      ∃ attempt', outcome = .ok attempt' ∧ attempt.Same attempt' := by
    cases outcome with
    | error error => cases h
    | ok attempt' => exact ⟨attempt', rfl, Except.ok.inj h⟩
  cases h with
  | left hdeep =>
    obtain rfl := herror hx
    exact .left hdeep
  | right hdeep =>
    obtain rfl := herror hy
    exact .right hdeep
  | error error =>
    obtain rfl := herror hx
    obtain rfl := herror hy
    exact .error ..
  | ok hpost hkeeps =>
    obtain ⟨attempt, rfl, hsame⟩ := hok hx
    obtain ⟨attempt', rfl, hsame'⟩ := hok hy
    subst hcaches hcaches'
    exact .ok (hsame.symm.trans (hpost.trans hsame')) hkeeps

def Pairing.abreast (keeps : Caches → Caches → Prop) : Pairing Run Run where
  rel post x y := ∀ caches caches', keeps caches caches' →
    EndAbreast keeps post (x.run caches) (y.run caches')
  pure h _ _ hkeeps := .ok h hkeeps
  bind {α β γ δ post post' x y f g} h hf caches caches' hkeeps := by
    have hend := h caches caches' hkeeps
    generalize hx : x.run caches = left at hend
    generalize hy : y.run caches' = right at hend
    cases hend with
    | left hdeep => rw [Run.run_bind_error hx]; exact .left hdeep
    | right hdeep => rw [Run.run_bind_error hy]; exact .right hdeep
    | error => rw [Run.run_bind_error hx, Run.run_bind_error hy]; exact .error ..
    | ok hpost hkeeps' =>
      rw [Run.run_bind_ok hx, Run.run_bind_ok hy]
      exact hf _ _ hpost _ _ hkeeps'
  throw error _ _ _ := .error error _ _
  left {x x' y} hsame h caches caches' hkeeps := by
    have hrun := congrArg (·.run caches) hsame
    rw [Run.run_map, Run.run_map] at hrun
    exact (h caches caches' hkeeps).congr hrun rfl
  right {x y y'} hsame h caches caches' hkeeps := by
    have hrun := congrArg (·.run caches') hsame
    rw [Run.run_map, Run.run_map] at hrun
    exact (h caches caches' hkeeps).congr rfl hrun

structure Caches.InStep (c c' : Catalog) (nodes : Set Parser) (caches caches' : Caches) : Prop where
  sound : Sound c nodes caches
  sound' : Sound c' nodes caches'
  alike : ∀ id : CacheId, (∀ node ∈ nodes, node.cache? ≠ some id) →
    Option.Rel (Cache.Alike Attempt.Same) caches[id.index]? caches'[id.index]?

namespace Caches.InStep

variable {c c' : Catalog} {nodes : Set Parser} {caches caches' : Caches} {id : CacheId}

theorem modify (h : InStep c c' nodes caches caches') {f g : MatchCache → MatchCache}
    (hsound : Sound c nodes (caches.modify id.index f))
    (hsound' : Sound c' nodes (caches'.modify id.index g))
    (halike : ∀ cache cache', Cache.Alike Attempt.Same cache cache' →
      Cache.Alike Attempt.Same (f cache) (g cache')) :
    InStep c c' nodes (caches.modify id.index f) (caches'.modify id.index g) where
  sound := hsound
  sound' := hsound'
  alike id' hid' := by
    rw [Array.getElem?_modify, Array.getElem?_modify]
    split
    · obtain ⟨hold, hnew⟩ | ⟨cache, cache', hold, hnew, hsame⟩ := rel_cases (h.alike id' hid')
      · rw [hold, hnew]
        exact .none
      · rw [hold, hnew]
        exact .some (halike cache cache' hsame)
    · exact h.alike id' hid'

variable (hid : ∀ node ∈ nodes, node.cache? ≠ some id)
include hid

/-- What one of the caches holds the other holds. -/
theorem holds (h : InStep c c' nodes caches caches') (key : CacheKey) :
    (∃ attempt attempt', caches.Holds id key attempt ∧ caches'.Holds id key attempt' ∧
      attempt.Same attempt') ∨
    (∀ attempt, ¬ caches.Holds id key attempt) ∧ ∀ attempt, ¬ caches'.Holds id key attempt := by
  obtain ⟨hold, hnew⟩ | ⟨cache, cache', hold, hnew, hsame⟩ := rel_cases (h.alike id hid)
  · refine Or.inr ⟨fun attempt ⟨cache, hcache, _⟩ => ?_, fun attempt ⟨cache, hcache, _⟩ => ?_⟩
    · cases hold.symm.trans hcache
    · cases hnew.symm.trans hcache
  · obtain ⟨hnone, hnone'⟩ | ⟨attempt, attempt', hpeek, hpeek', hattempt⟩ :=
      rel_cases (hsame.peek key)
    · refine Or.inr ⟨fun attempt ⟨_, hcache, hpeek⟩ => ?_, fun attempt ⟨_, hcache, hpeek⟩ => ?_⟩
      · cases hold.symm.trans hcache
        cases hnone.symm.trans hpeek
      · cases hnew.symm.trans hcache
        cases hnone'.symm.trans hpeek
    · exact Or.inl ⟨attempt, attempt', ⟨cache, hold, hpeek⟩, ⟨cache', hnew, hpeek'⟩, hattempt⟩

omit hid in
theorem touch (h : InStep c c' nodes caches caches') (key : CacheKey) :
    InStep c c' nodes (caches.modify id.index (·.touch key))
      (caches'.modify id.index (·.touch key)) :=
  h.modify (h.sound.touch id key) (h.sound'.touch id key) fun _ _ halike => halike.touch key

theorem insert (h : InStep c c' nodes caches caches') (key : CacheKey) {attempt attempt' : Attempt}
    (hsame : attempt.Same attempt') :
    InStep c c' nodes (caches.modify id.index (·.insert key attempt))
      (caches'.modify id.index (·.insert key attempt')) := by
  have hsound {c : Catalog} {caches : Caches} (hsound : Sound c nodes caches) (attempt : Attempt) :
      Sound c nodes (caches.modify id.index (·.insert key attempt)) := by
    intro node hnode id' hid' key' attempt' hholds
    obtain ⟨rfl, -⟩ | hholds := Caches.holds_of_holds_insert hholds
    · exact absurd hid' (hid node hnode)
    · exact hsound node hnode id' hid' key' attempt' hholds
  exact h.modify (hsound h.sound attempt) (hsound h.sound' attempt')
    fun _ _ halike => halike.insert key hsame

/-- Answers are remembered alike where they are found alike. -/
theorem rel_remembered {key : CacheKey} {explore explore' : Run Attempt}
    (h : (Pairing.abreast (InStep c c' nodes)).rel Attempt.Same explore explore') :
    (Pairing.abreast (InStep c c' nodes)).rel Attempt.Same
      (remembered id key explore) (remembered id key explore') := by
  intro caches caches' hstep
  have htouch : InStep c c' nodes (caches.modify id.index (·.touch key)) _ := hstep.touch key
  obtain ⟨attempt, attempt', hholds, hholds', hsame⟩ | ⟨hmiss, hmiss'⟩ := hstep.holds hid key
  · rw [run_remembered_hit hholds, run_remembered_hit hholds']
    exact .ok hsame htouch
  · rw [run_remembered_miss hmiss, run_remembered_miss hmiss']
    have hend := h _ _ htouch
    generalize explore.run (caches.modify id.index (·.touch key)) = left at hend
    generalize explore'.run (caches'.modify id.index (·.touch key)) = right at hend
    cases hend with
    | left hdeep => exact .left hdeep
    | right hdeep => exact .right hdeep
    | error => exact .error ..
    | ok hsame hstep' => exact .ok hsame (hstep'.insert hid key hsame)

end Caches.InStep

section
variable {c c' : Catalog} {scope : Scope} (hclosed : scope.Closed c)
  (hapart : Apart scope.nodes scope.nodes)
include hclosed

/-- A parser of a closed part uses no other caches. -/
theorem Scope.Closed.enumerate_spares {id : CacheId}
    (hid : ∀ node ∈ scope.nodes, node.cache? ≠ some id) (cache : Option MatchCache) (depth : Nat)
    {node : Parser} (hnode : node ∈ scope.nodes) (source : Source) (start : Nat) :
    (keeping (Caches.InState id cache)).rel (StopsIn fun _ => True)
      (node.enumerate c.firstMatch (c.call depth source) source start)
      (node.enumerate c.firstMatch (c.call depth source) source start) := by
  refine enumerate_rel (settling_true.consume source) node
    (hclosed.linked (hclosed.call_spares hid cache depth) ?_ hnode source) start trivial
  intro other hother id' hid' source' o hexplore
  have hne : id' ≠ id := fun heq => hid other hother (heq ▸ hid')
  exact remembered_keeps (fun _ hcaches => hcaches.modify hne _)
    (fun _ _ hcaches => hcaches.modify hne _) (fun _ _ _ _ _ => trivial) hexplore

include hapart

/-- A parser of the part that is the same in both ends alike, since what is remembered there is
sound for both. -/
theorem Scope.Same.enumerate_abreast (hsame : scope.Same c c') (depth : Nat) {node : Parser}
    (hnode : node ∈ scope.nodes) (source : Source) (start : Nat) :
    (Pairing.abreast (Caches.InStep c c' scope.nodes)).rel Attempt.Same
      (node.enumerate c.firstMatch (c.call depth source) source start)
      (node.enumerate c'.firstMatch (c'.call depth source) source start) := by
  intro caches caches' hstep
  have hclosed' := hsame.closed hclosed
  obtain ⟨hbelow, hsound, -⟩ :=
    enumerate_below hclosed hapart depth hnode source start caches hstep.sound
  obtain ⟨hbelow', hsound', -⟩ :=
    enumerate_below hclosed' hapart depth hnode source start caches' hstep.sound'
  have hspares (id : CacheId) (hid : ∀ node ∈ scope.nodes, node.cache? ≠ some id) :=
    And.intro (hclosed.enumerate_spares hid _ depth hnode source start caches rfl).1
      (hclosed'.enumerate_spares hid _ depth hnode source start caches' rfl).1
  have hagree : Agree _ _ := .of_approximates (hsame.explore_approximates hclosed hnode source start)
    (hsame.symm.explore_approximates hclosed' hnode source start)
  rw [Parser.enumerate_eq_explore] at hbelow hbelow'
  generalize (node.enumerate c.firstMatch (c.call depth source) source start : Run _).run caches =
    left at *
  generalize (node.enumerate c'.firstMatch (c'.call depth source) source start : Run _).run caches' =
    right at *
  obtain ⟨outcome, after⟩ := left
  obtain ⟨outcome', after'⟩ := right
  obtain ⟨error, hdeep, rfl⟩ | rfl := hbelow
  · exact .left hdeep
  obtain ⟨error, hdeep, rfl⟩ | rfl := hbelow'
  · exact .right hdeep
  obtain hsettled | ⟨⟨error, hdeep, hgiven⟩, -⟩ := hagree
  swap
  · rw [hgiven]
    exact .left hdeep
  rw [← hsettled]
  cases node.explore c.firstMatch (c.settled source) source start with
  | error error => exact .error ..
  | ok attempt =>
    refine .ok rfl ⟨hsound, hsound', fun id hid => ?_⟩
    obtain ⟨hkept, hkept'⟩ := hspares id hid
    rw [show after[id.index]? = caches[id.index]? from hkept,
      show after'[id.index]? = caches'[id.index]? from hkept']
    exact hstep.alike id hid

variable (h : c.Reshapes c') (hsame : scope.Same c c')
  (hall : ∀ rule slot definition, c.bound rule = .ok (slot, definition) →
    Apart {node | node ∈ definition.walk} scope.nodes)
  (hall' : ∀ rule slot definition, c'.bound rule = .ok (slot, definition) →
    Apart {node | node ∈ definition.walk} scope.nodes)
include h hsame hall hall'

theorem Catalog.Reshapes.call_abreast (depth : Nat) (source : Source) (ref : RuleRef)
    (start : Nat) :
    (Pairing.abreast (Caches.InStep c c' scope.nodes)).rel Attempt.Same
      (c.call depth source ref start) (c'.call depth source ref start) := by
  induction depth generalizing source ref start with
  | zero => exact (Pairing.abreast _).throw _
  | succ depth ih =>
    refine h.callOnce (Pairing.abreast _) ih ?_ source ref start
    rintro rule slot definition slot' definition' hbound hbound'
      ⟨onlyFirst, branches, branches', hgathers, hgathers', hechoes⟩ source start
    have hlinks : (Pairing.abreast (Caches.InStep c c' scope.nodes)).Links source c.firstMatch
        c'.firstMatch (c.call depth source) (c'.call depth source) (c.SameMode c')
        {node | node ∈ definition.walk} {node | node ∈ definition'.walk} :=
      { mode := fun _ _ hmode => hmode
        call := ih source
        remember := fun node hnode node' hnode' _ id hid hid' o hexplore => by
          by_cases hscope : ∃ other ∈ scope.nodes, other.cache? = some id
          · obtain ⟨other, hother, hcache⟩ := hscope
            obtain rfl := hall _ _ _ hbound node hnode other hother id hid hcache
            obtain rfl := hall' _ _ _ hbound' node' hnode' node hother id hid' hid
            have hrun := hsame.enumerate_abreast hclosed hapart depth hother source o
            rwa [Parser.enumerate_eq_remember _ _ _ hid, Parser.enumerate_eq_remember _ _ _ hid]
              at hrun
          · have hother : ∀ other ∈ scope.nodes, other.cache? ≠ some id :=
              fun other hother hcache => hscope ⟨other, hother, hcache⟩
            exact Caches.InStep.rel_remembered hother hexplore }
    exact hlinks.gathered hgathers hgathers' hechoes (fun _ hpart => hpart) (fun _ hpart => hpart)
      start

theorem Catalog.Reshapes.ruleMatches_abreast (rule : RuleId) (source : Source) (start : Nat) :
    (Pairing.abreast (Caches.InStep c c' scope.nodes)).rel Attempt.Same
      (c.ruleMatches rule source start) (c'.ruleMatches rule source start) := by
  rw [Catalog.ruleMatches, Catalog.ruleMatches, h.depthBound, h.refer]
  exact h.call_abreast hclosed hapart hsame hall hall' _ source _ start

end

end Metasyntax
