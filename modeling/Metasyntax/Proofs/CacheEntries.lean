import Std.Data.HashMap.Lemmas
import Metasyntax.Enumeration
import Metasyntax.Proofs.MatchSets

/-!
# What a cache remembers

An entry of a cache is one that was put there under its key, whatever was used,
driven out or emptied in between. Nothing else about the order of use matters to
what a parse may read from it.
-/

set_option autoImplicit false

namespace Metasyntax

namespace Cache

variable {κ α : Type} [BEq κ] [LawfulBEq κ] [Hashable κ]

omit [LawfulBEq κ] in
@[simp] theorem peek_empty (maxSize : Capacity) (key : κ) :
    (empty maxSize : Cache κ α).peek key = none := by
  simp [peek, empty]

omit [LawfulBEq κ] in
@[simp] theorem peek_clear (cache : Cache κ α) (key : κ) : cache.clear.peek key = none := by
  simp [peek, clear]

theorem peek_of_isEmpty {cache : Cache κ α} (h : cache.isEmpty = true) (key : κ) :
    cache.peek key = none := by
  rw [peek, Std.HashMap.getElem?_of_isEmpty h, Option.map_none]

@[simp] theorem peek_touch (cache : Cache κ α) (key key' : κ) :
    (cache.touch key).peek key' = cache.peek key' := by
  unfold touch
  cases h : cache.entries[key]? with
  | none => rfl
  | some found =>
    by_cases hkey : key = key'
    · subst hkey
      simp [peek, h]
    · simp [peek, Std.HashMap.getElem?_insert, hkey]

theorem peek_of_peek_evict {cache : Cache κ α} {key : κ} {entry : α}
    (h : cache.evict.peek key = some entry) : cache.peek key = some entry := by
  rw [evict] at h
  split at h
  · simp only [peek, Std.HashMap.getElem?_erase] at h
    split at h
    · cases h
    · exact h
  · exact h

theorem peek_of_peek_makeRoom {cache : Cache κ α} {key key' : κ} {entry : α}
    (h : (cache.makeRoom key).peek key' = some entry) : cache.peek key' = some entry := by
  rw [makeRoom] at h
  split at h
  · exact h
  · split at h
    · exact peek_of_peek_evict h
    · exact h

theorem peek_insert_self (cache : Cache κ α) (key : κ) (entry : α) :
    (cache.insert key entry).peek key = some entry := by
  simp [peek, insert]

theorem peek_of_peek_insert {cache : Cache κ α} {key key' : κ} {entry entry' : α}
    (h : (cache.insert key entry).peek key' = some entry') :
    (key' = key ∧ entry' = entry) ∨ cache.peek key' = some entry' := by
  by_cases hkey : key = key'
  · subst hkey
    simp only [peek, insert, Std.HashMap.getElem?_insert, beq_self_eq_true, if_true,
      Option.map_some, Option.some.injEq] at h
    exact Or.inl ⟨rfl, h.symm⟩
  · have h : (cache.makeRoom key).peek key' = some entry' := by
      simpa [peek, insert, Std.HashMap.getElem?_insert, hkey] using h
    exact Or.inr (peek_of_peek_makeRoom h)

end Cache

namespace Caches

def Holds (caches : Caches) (id : CacheId) (key : CacheKey) (attempt : Attempt) : Prop :=
  ∃ cache, caches[id.index]? = some cache ∧ cache.peek key = some attempt

variable {caches : Caches} {id id' : CacheId} {key key' : CacheKey} {attempt attempt' : Attempt}

theorem not_holds_of_isEmpty (h : ∀ cache ∈ caches, cache.isEmpty = true) :
    ¬ caches.Holds id key attempt := by
  rintro ⟨cache, hcache, hpeek⟩
  rw [Cache.peek_of_isEmpty (h cache (Array.mem_of_getElem? hcache))] at hpeek
  cases hpeek

theorem getElem?_eq_of_modify {caches : Caches} {i j : Nat} {f : MatchCache → MatchCache}
    {cache : MatchCache} (h : (caches.modify i f)[j]? = some cache) :
    (i ≠ j ∧ caches[j]? = some cache) ∨ (i = j ∧ ∃ old, caches[j]? = some old ∧ cache = f old) := by
  rw [Array.getElem?_modify] at h
  split at h
  case isTrue hij =>
    obtain ⟨old, hold, rfl⟩ := Option.map_eq_some_iff.1 h
    exact Or.inr ⟨hij, old, hold, rfl⟩
  case isFalse hij => exact Or.inl ⟨hij, h⟩

theorem holds_of_holds_touch (h : Holds (caches.modify id'.index (·.touch key')) id key attempt) :
    Holds caches id key attempt := by
  obtain ⟨cache, hcache, hpeek⟩ := h
  rcases getElem?_eq_of_modify hcache with ⟨-, h⟩ | ⟨-, old, h, rfl⟩
  · exact ⟨cache, h, hpeek⟩
  · exact ⟨old, h, by simpa using hpeek⟩

theorem holds_of_holds_insert
    (h : Holds (caches.modify id'.index (·.insert key' attempt')) id key attempt) :
    (id = id' ∧ key = key' ∧ attempt = attempt') ∨ Holds caches id key attempt := by
  obtain ⟨cache, hcache, hpeek⟩ := h
  rcases getElem?_eq_of_modify hcache with ⟨-, h⟩ | ⟨hid, old, h, rfl⟩
  · exact Or.inr ⟨cache, h, hpeek⟩
  · rcases Cache.peek_of_peek_insert hpeek with ⟨rfl, rfl⟩ | hpeek
    · exact Or.inl ⟨by cases id; cases id'; cases hid; rfl, rfl, rfl⟩
    · exact Or.inr ⟨old, h, hpeek⟩

theorem holds_of_holds_clear (h : Holds (caches.modify id'.index (·.clear)) id key attempt) :
    id ≠ id' ∧ Holds caches id key attempt := by
  obtain ⟨cache, hcache, hpeek⟩ := h
  rcases getElem?_eq_of_modify hcache with ⟨hid, h⟩ | ⟨-, old, h, rfl⟩
  · exact ⟨fun h => hid (by rw [h]), cache, h, hpeek⟩
  · simp at hpeek

theorem holds_of_holds_clearAll {cleared : List CacheId}
    (h : Holds (cleared.foldl (fun caches cache => caches.modify cache.index (·.clear)) caches)
      id key attempt) : id ∉ cleared ∧ Holds caches id key attempt := by
  induction cleared generalizing caches with
  | nil => exact ⟨by simp, h⟩
  | cons first rest ih =>
    obtain ⟨hrest, h⟩ := ih h
    obtain ⟨hfirst, h⟩ := holds_of_holds_clear h
    exact ⟨by simp [hfirst, hrest], h⟩

theorem holds_of_holds_push {capacity : Capacity}
    (h : Holds (caches.push (.empty capacity)) id key attempt) : Holds caches id key attempt := by
  obtain ⟨cache, hcache, hpeek⟩ := h
  rw [Array.getElem?_push] at hcache
  split at hcache
  · cases hcache
    simp at hpeek
  · exact ⟨cache, hcache, hpeek⟩

theorem Holds.touch (h : caches.Holds id key attempt) (id' : CacheId) (key' : CacheKey) :
    Holds (caches.modify id'.index (·.touch key')) id key attempt := by
  obtain ⟨cache, hcache, hpeek⟩ := h
  rw [Holds, Array.getElem?_modify]
  split
  · exact ⟨cache.touch key', by rw [hcache]; rfl, by rw [Cache.peek_touch, hpeek]⟩
  · exact ⟨cache, hcache, hpeek⟩

theorem holds_insert (h : id.index < caches.size) (key : CacheKey) (attempt : Attempt) :
    Holds (caches.modify id.index (·.insert key attempt)) id key attempt := by
  refine ⟨caches[id.index].insert key attempt, ?_, Cache.peek_insert_self _ key attempt⟩
  rw [Array.getElem?_modify, if_pos rfl, Array.getElem?_eq_getElem h]
  rfl

/-- What is not emptied is still remembered. -/
theorem Holds.clearAll {cleared : List CacheId} (h : caches.Holds id key attempt)
    (hid : id ∉ cleared) : Holds (cleared.foldl
      (fun caches cache => caches.modify cache.index (·.clear)) caches) id key attempt := by
  induction cleared generalizing caches with
  | nil => exact h
  | cons first rest ih =>
    rw [List.mem_cons, not_or] at hid
    refine ih ?_ hid.2
    obtain ⟨cache, hcache, hpeek⟩ := h
    refine ⟨cache, ?_, hpeek⟩
    rw [Array.getElem?_modify, if_neg, hcache]
    intro heq
    cases id
    cases first
    exact hid.1 (congrArg CacheId.mk heq.symm)

end Caches

namespace Run

variable {α β : Type} {x : Run α} {f : α → Run β} {caches caches' : Caches}

theorem run_bind_ok {a : α} (h : x.run caches = (.ok a, caches')) :
    (x >>= f).run caches = (f a).run caches' := by
  change (ExceptT.bindCont f (x.run caches).1 : StateM Caches _) (x.run caches).2 = _
  rw [h]
  rfl

theorem run_bind_error {error : GrammarError} (h : x.run caches = (.error error, caches')) :
    (x >>= f).run caches = (.error error, caches') := by
  change (ExceptT.bindCont f (x.run caches).1 : StateM Caches _) (x.run caches).2 = _
  rw [h]
  rfl

theorem run_bind_congr {y : Run α} (h : x.run caches = y.run caches) (f : α → Run β) :
    (x >>= f).run caches = (y >>= f).run caches := by
  change (ExceptT.bindCont f (x.run caches).1 : StateM Caches _) (x.run caches).2 =
    (ExceptT.bindCont f (y.run caches).1 : StateM Caches _) (y.run caches).2
  rw [h]

theorem run_map (f : α → β) (x : Run α) (caches : Caches) :
    (f <$> x).run caches = ((x.run caches).1.map f, (x.run caches).2) := by
  rw [← bind_pure_comp]
  rcases hx : x.run caches with ⟨error | a, caches'⟩
  · rw [run_bind_error hx]
    rfl
  · rw [run_bind_ok hx]
    rfl

end Run

theorem run_consult (id : CacheId) (key : CacheKey) (caches : Caches) :
    (consult id key).run caches =
      (.ok ((caches[id.index]?).bind (·.peek key)), caches.modify id.index (·.touch key)) :=
  rfl

theorem run_remembered_hit {id : CacheId} {key : CacheKey} {attempt : Attempt} {caches : Caches}
    (h : caches.Holds id key attempt) (explore : Run Attempt) :
    (remembered id key explore).run caches =
      (.ok attempt, caches.modify id.index (·.touch key)) := by
  obtain ⟨cache, hcache, hpeek⟩ := h
  have hfound : (caches[id.index]?).bind (·.peek key) = some attempt := by simp [hcache, hpeek]
  rw [remembered, Run.run_bind_ok (run_consult id key caches), hfound]
  rfl

theorem run_remembered_miss {id : CacheId} {key : CacheKey} {caches : Caches}
    (h : ∀ attempt, ¬ caches.Holds id key attempt) (explore : Run Attempt) :
    (remembered id key explore).run caches =
      match explore.run (caches.modify id.index (·.touch key)) with
      | (.ok attempt, caches') => (.ok attempt, caches'.modify id.index (·.insert key attempt))
      | (.error error, caches') => (.error error, caches') := by
  have hfound : (caches[id.index]?).bind (·.peek key) = none := by
    cases hfound : (caches[id.index]?).bind (·.peek key) with
    | none => rfl
    | some attempt =>
      obtain ⟨cache, hcache, hpeek⟩ := Option.bind_eq_some_iff.1 hfound
      exact absurd ⟨cache, hcache, hpeek⟩ (h attempt)
  rw [remembered, Run.run_bind_ok (run_consult id key caches), hfound]
  rcases hrun : explore.run (caches.modify id.index (·.touch key)) with ⟨_ | _, caches'⟩
  · rw [Run.run_bind_error hrun]
  · rw [Run.run_bind_ok hrun]
    rfl

theorem run_ofExcept_ok {α : Type} (a : α) (caches : Caches) :
    (MonadExcept.ofExcept (.ok a : Except GrammarError α) : Run α).run caches = (.ok a, caches) :=
  rfl

/-- What a repetition answers it remembers. -/
theorem holds_remembered {id : CacheId} {key : CacheKey} {explore : Run Attempt}
    {caches caches' : Caches} {attempt : Attempt}
    (h : (remembered id key explore).run caches = (.ok attempt, caches'))
    (hid : id.index < caches'.size) : caches'.Holds id key attempt := by
  by_cases hhit : ∃ attempt, caches.Holds id key attempt
  · obtain ⟨attempt', hhit⟩ := hhit
    rw [run_remembered_hit hhit] at h
    cases h
    exact hhit.touch id key
  · rw [run_remembered_miss (by simpa using hhit)] at h
    rcases hrun : explore.run (caches.modify id.index (·.touch key)) with ⟨error | answer, caches''⟩
    · rw [hrun] at h
      cases h
    · rw [hrun] at h
      cases h
      rw [Array.size_modify] at hid
      exact Caches.holds_insert hid key _

def Catalog.asRule (catalog : Catalog) (rule : RuleId) (slot : Slot) (start : Nat) :
    Attempt → Attempt
  | .ok found => .ok (found.mapNodes fun nodes => [.rule slot.name nodes])
  | .error failure => .error (.ofCause (.rule (catalog.refer rule)) start (some failure))

/-- A rule that is a repetition matches where the repetition does. -/
theorem exists_run_ruleMatches {catalog : Catalog} {rule : RuleId} {slot : Slot} {id : CacheId}
    {bounds : Bounds} {element : Parser} (halive : catalog.alive rule.grammar = true)
    (hbound : catalog.bound rule = .ok (slot, .repetition id bounds element))
    (hexclusion : slot.exclusion = none) (source : Source) (start : Nat) :
    ∃ (depth : Nat) (named : Attempt → Attempt), (∀ attempt,
      (named attempt).toOption.map (·.stops) = attempt.toOption.map (·.stops)) ∧
      ∀ caches, (catalog.ruleMatches rule source start : Run Attempt).run caches =
        (remembered id ⟨source, start⟩ (repeatBetween (fun offset =>
          element.enumerate catalog.firstMatch (catalog.call depth source) source offset)
            (.repetition id bounds element) bounds source start) >>= fun attempt =>
              pure (named attempt)).run caches := by
  obtain ⟨depth, hdepth⟩ : ∃ depth, catalog.depthBound source = depth + 1 := ⟨_, rfl⟩
  have hresolve : catalog.resolve (catalog.refer rule) = .ok rule := if_pos halive
  refine ⟨depth, catalog.asRule rule slot start, fun attempt => ?_, fun caches => ?_⟩
  · cases attempt with
    | ok found => exact congrArg some (found.stops_mapNodes _)
    | error failure => rfl
  rw [Catalog.ruleMatches, hdepth, Catalog.call, Catalog.callOnce, hresolve,
    Run.run_bind_ok (run_ofExcept_ok rule caches), hbound, Run.run_bind_ok (run_ofExcept_ok _ caches)]
  dsimp only
  rw [Parser.enumerate, hexclusion]
  refine congrArg (fun next => (_ >>= next : Run Attempt).run caches) (funext fun attempt => ?_)
  cases attempt <;> rfl

end Metasyntax
