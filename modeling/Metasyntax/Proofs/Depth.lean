import Mathlib.Combinatorics.Enumerative.DoubleCounting
import Mathlib.Order.Monotone.Basic
import Mathlib.Tactic.Linarith
import Metasyntax.Proofs.Places

/-!
# The depth of calls does not matter

Calls may nest only so deep, and a run that goes deeper is given up. A run that is
not given up has the same answer at every greater depth, and the depth that is
allowed for a text is enough: what is given up there is given up at every depth.
Between two places with different room at most every rule is entered once, so the
bound is a number of rules times an amount of room.
-/

set_option autoImplicit false

namespace Metasyntax

def GrammarError.TooDeep (error : GrammarError) : Prop := ∃ name, error = .leftRecursion name

def Approximates (leaving : GrammarError → Prop) {α : Type} (x y : Except GrammarError α) : Prop :=
  (∃ error, leaving error ∧ x = .error error) ∨ x = y

namespace Approximates

variable {leaving : GrammarError → Prop} {α : Type} {x y z : Except GrammarError α}

theorem refl (x : Except GrammarError α) : Approximates leaving x x := Or.inr rfl

theorem trans (h : Approximates leaving x y) (h' : Approximates leaving y z) :
    Approximates leaving x z := by
  rcases h with h | rfl
  · exact Or.inl h
  · exact h'

theorem eq_of_ok {a : α} (h : Approximates leaving (.ok a) y) : y = .ok a := by
  rcases h with ⟨error, -, h⟩ | rfl
  · cases h
  · rfl

end Approximates

def approximation (leaving : GrammarError → Prop) :
    Relator (Except GrammarError) (Except GrammarError) where
  rel post x y := Approximates leaving x y ∧ ∀ a, x = .ok a → post a
  pure h := ⟨Or.inr rfl, fun a h' => by cases h'; exact h⟩
  bind {α β post post' x₁ x₂ f₁ f₂} h hf := by
    obtain ⟨happrox, hpost⟩ := h
    rcases happrox with ⟨error, hleaving, rfl⟩ | rfl
    · exact ⟨Or.inl ⟨error, hleaving, rfl⟩, fun a h' => by cases h'⟩
    · cases x₁ with
      | error error => exact ⟨Or.inr rfl, fun a h' => by cases h'⟩
      | ok a => exact hf a (hpost a rfl)
  throw error _ := ⟨Or.inr rfl, fun a h' => by cases h'⟩

namespace Catalog

variable {catalog : Catalog}

/-- Without caches, a rule's two runs are related as soon as all calls are. -/
theorem linkedRule_of_calls {leaving : GrammarError → Prop} {good : Source → Nat → Prop}
    {call₁ call₂ : Source → RuleRef → Nat → Except GrammarError Attempt} {source : Source}
    {rule : RuleId}
    (hcall : ∀ source' ref o, good source' o → (approximation leaving).rel (StopsIn (good source'))
      (call₁ source' ref o) (call₂ source' ref o)) :
    LinkedRule (approximation leaving) good catalog catalog call₁ call₂ source rule where
  bound := rfl
  refer := rfl
  body _ _ _ :=
    { call := fun ref _ o ho => hcall source ref o ho
      mode := fun _ _ _ => rfl
      remember := fun _ _ _ _ _ _ h => h }
  exclusion _ _ _ _ _ :=
    ⟨rfl, fun _ _ source' h => ⟨_, fun _ _ => rfl, hcall source' _ 0 h⟩⟩

/-- A call comes to no other places than those it may come to. -/
theorem call_stopsIn {good : Source → Nat → Prop} (hgood : Settling good) (depth : Nat)
    {source : Source} (ref : RuleRef) {start : Nat} (hstart : good source start) {attempt : Attempt}
    (h : catalog.call depth source ref start = (.ok attempt : Except GrammarError Attempt)) :
    StopsIn (good source) attempt := by
  suffices (approximation fun _ => False).rel (StopsIn (good source))
      (catalog.call depth source ref start) (catalog.call depth source ref start) from
    this.2 attempt h
  clear h
  induction depth generalizing source ref start with
  | zero => exact (approximation _).throw _ trivial
  | succ depth ih =>
    exact callOnce_rel hgood hstart rfl fun rule _ =>
      linkedRule_of_calls fun source' ref' o ho => ih ref' ho

theorem callOnce_approximates {leaving : GrammarError → Prop} {depth depth' : Nat} {source : Source}
    {ref : RuleRef} {start : Nat}
    (h : ∀ source' ref' o, Near source start source' o → Approximates leaving
      (catalog.call depth source' ref' o) (catalog.call depth' source' ref' o)) :
    Approximates leaving (catalog.call (depth + 1) source ref start)
      (catalog.call (depth' + 1) source ref start) := by
  have hrule : ∀ rule, LinkedRule (approximation leaving) (Near source start) catalog catalog
      (catalog.call depth) (catalog.call depth') source rule := fun rule =>
    linkedRule_of_calls fun source' ref' o ho => ⟨h source' ref' o ho, fun attempt hattempt =>
      call_stopsIn (near_settling source start) depth ref' ho hattempt⟩
  exact (callOnce_rel (near_settling source start) (Near.refl source start) rfl
    fun rule _ => hrule rule).1

theorem call_mono {depth depth' : Nat} (h : depth ≤ depth') (source : Source) (ref : RuleRef)
    (start : Nat) :
    Approximates GrammarError.TooDeep (catalog.call depth source ref start)
      (catalog.call depth' source ref start) := by
  induction depth generalizing depth' source ref start with
  | zero => exact Or.inl ⟨_, ⟨ref.name, rfl⟩, rfl⟩
  | succ depth ih =>
    obtain ⟨k, rfl⟩ : ∃ k, depth' = k + 1 := ⟨depth' - 1, by omega⟩
    exact callOnce_approximates fun source' ref' o _ => ih (by omega) source' ref' o

def Ended {α : Type} (x : Except GrammarError α) : Prop :=
  ∀ error, x = .error error → ¬ error.TooDeep

theorem Ended.eq_of_approximates {α : Type} {x y : Except GrammarError α} (h : Ended x)
    (happrox : Approximates GrammarError.TooDeep x y) : x = y := by
  rcases happrox with ⟨error, hdeep, rfl⟩ | rfl
  · exact absurd hdeep (h error rfl)
  · rfl

theorem approximates_of_not_ended {α : Type} {x y : Except GrammarError α} (h : ¬ Ended x) :
    Approximates GrammarError.TooDeep x y := by
  rw [Ended] at h
  push Not at h
  obtain ⟨error, rfl, hdeep⟩ := h
  exact Or.inl ⟨error, hdeep, rfl⟩

def allRules (catalog : Catalog) : List RuleId :=
  (List.range catalog.grammars.size).flatMap fun index => catalog.rulesOf ⟨index⟩

def boundRules (catalog : Catalog) : List RuleId :=
  catalog.allRules.filter fun rule => (catalog.definition? rule).isSome

theorem countP_range {α β : Type} (f : α → Option β) (items : List α) :
    (List.range items.length).countP (fun i => (items[i]?.bind f).isSome) =
      items.countP fun a => (f a).isSome := by
  induction items with
  | nil => rfl
  | cons a rest ih =>
    rw [List.length_cons, List.range_succ_eq_map, List.countP_cons, List.countP_cons,
      List.countP_map, ← ih]
    rfl

theorem countP_rulesOf (catalog : Catalog) (id : GrammarId) :
    (catalog.rulesOf id).countP (fun rule => (catalog.definition? rule).isSome) =
      (catalog.grammar id).table.boundCount := by
  rw [rulesOf, List.countP_map, RuleTable.boundCount, ← Array.countP_toList, ← countP_range]
  rw [Array.length_toList]
  refine List.countP_congr fun place _ => ?_
  simp [definition?, slot?]

theorem length_boundRules (catalog : Catalog) : catalog.boundRules.length = catalog.ruleCount := by
  have hmap : (List.range catalog.grammars.size).map
      (fun index => (catalog.grammar ⟨index⟩).table.boundCount) =
      catalog.grammars.toList.map (·.table.boundCount) := by
    apply List.ext_getElem
    · simp
    · intro i h _
      have hi : i < catalog.grammars.size := by simpa using h
      simp [grammar, hi]
  have hsum : ∀ (l : List Grammar) (count : Nat),
      l.foldl (fun count grammar => count + grammar.table.boundCount) count =
        count + (l.map (·.table.boundCount)).sum := by
    intro l
    induction l with
    | nil => simp
    | cons grammar rest ih => intro count; simp [ih, Nat.add_assoc]
  rw [boundRules, allRules, ← List.countP_eq_length_filter, List.countP_flatMap, ruleCount,
    ← Array.foldl_toList, hsum, Nat.zero_add, ← hmap]
  exact congrArg List.sum (List.map_congr_left fun index _ => countP_rulesOf catalog ⟨index⟩)

theorem mem_allRules {rule : RuleId} (h : (catalog.slot? rule).isSome) :
    rule ∈ catalog.allRules := by
  have hslot : rule.slot < (catalog.grammar rule.grammar).table.size := by
    by_contra hle
    simp only [slot?, RuleTable.size] at h hle
    rw [Array.getElem?_eq_none (by omega)] at h
    cases h
  have hgrammar : rule.grammar.index < catalog.grammars.size := by
    by_contra hle
    rw [grammar, Array.getElem?_eq_none (by omega)] at hslot
    exact absurd hslot (Nat.not_lt_zero _)
  simp only [allRules, rulesOf, List.mem_flatMap, List.mem_range, List.mem_map]
  exact ⟨rule.grammar.index, hgrammar, rule.slot, hslot, rfl⟩

theorem mem_boundRules {rule : RuleId} :
    rule ∈ catalog.boundRules ↔ (catalog.definition? rule).isSome := by
  rw [boundRules, List.mem_filter]
  refine and_iff_right_of_imp fun h => mem_allRules ?_
  rw [definition?] at h
  exact Option.isSome_of_isSome_bind h

theorem nodup_boundRules (catalog : Catalog) : catalog.boundRules.Nodup := by
  refine List.Nodup.filter _ (List.nodup_flatMap.2 ⟨fun index _ => ?_, ?_⟩)
  · exact List.nodup_range.map fun place place' h => congrArg RuleId.slot h
  · refine List.nodup_range.imp fun hne rule hrule hrule' => hne ?_
    obtain ⟨place, -, rfl⟩ := List.mem_map.1 hrule
    obtain ⟨place', -, h⟩ := List.mem_map.1 hrule'
    exact (congrArg (·.grammar.index) h).symm

theorem ruleCount_congr {catalog' : Catalog}
    (h : ∀ rule, (catalog.definition? rule).isSome = (catalog'.definition? rule).isSome) :
    catalog.ruleCount = catalog'.ruleCount := by
  have hperm : catalog.boundRules.Perm catalog'.boundRules :=
    (List.perm_ext_iff_of_nodup catalog.nodup_boundRules catalog'.nodup_boundRules).2 fun rule => by
      rw [mem_boundRules, mem_boundRules, h]
  rw [← length_boundRules, ← length_boundRules, hperm.length_eq]

/-- There are no more rules with definitions than there are of those that belong to them, if no
two of them belong to one. -/
theorem ruleCount_le {catalog' : Catalog} (belongs : RuleId → RuleId → Prop)
    (hexists : ∀ rule, (catalog.definition? rule).isSome →
      ∃ rule', (catalog'.definition? rule').isSome ∧ belongs rule rule')
    (hunique : ∀ rule other rule', belongs rule rule' → belongs other rule' → rule = other) :
    catalog.ruleCount ≤ catalog'.ruleCount := by
  classical
  rw [← length_boundRules, ← length_boundRules,
    ← List.toFinset_card_of_nodup catalog.nodup_boundRules,
    ← List.toFinset_card_of_nodup catalog'.nodup_boundRules]
  apply Finset.card_le_card_of_forall_subsingleton belongs
  · intro rule hrule
    obtain ⟨rule', hrule', hbelongs⟩ := hexists rule (mem_boundRules.1 (List.mem_toFinset.1 hrule))
    exact ⟨rule', List.mem_toFinset.2 (mem_boundRules.2 hrule'), hbelongs⟩
  · intro rule' _ rule hrule other hother
    exact hunique rule other rule' hrule.2 hother.2

theorem call_refer {m : Type → Type} [Monad m] [MonadExceptOf GrammarError m] [Remembering m]
    (depth : Nat) (source : Source) {ref : RuleRef} (start : Nat)
    (h : catalog.alive ref.target.grammar = true) :
    (catalog.call (depth + 1) source ref start : m Attempt) =
      catalog.call (depth + 1) source (catalog.refer ref.target) start := by
  have hresolve : catalog.resolve ref = catalog.resolve (catalog.refer ref.target) := by
    simp [resolve, refer, h]
  rw [call, call, callOnce, callOnce, hresolve]

theorem callOnce_of_resolve_error {call : Source → RuleRef → Nat → Except GrammarError Attempt}
    {source : Source} {ref : RuleRef} {start : Nat} {error : GrammarError}
    (h : catalog.resolve ref = .error error) :
    catalog.callOnce call source ref start = .error error := by
  rw [callOnce, h, ofExcept_eq, error_bind]

theorem callOnce_of_bound_error {call : Source → RuleRef → Nat → Except GrammarError Attempt}
    {source : Source} {ref : RuleRef} {start : Nat} {rule : RuleId} {error : GrammarError}
    (h : catalog.resolve ref = .ok rule) (hbound : catalog.bound rule = .error error) :
    catalog.callOnce call source ref start = .error error := by
  rw [callOnce, h, ofExcept_eq, ok_bind, hbound, ofExcept_eq, error_bind]

theorem bound_of_definition?_eq_none {rule : RuleId} (h : catalog.definition? rule = none) :
    ∃ error, catalog.bound rule = .error error ∧ ¬ error.TooDeep := by
  rw [bound]
  cases hslot : catalog.slot? rule with
  | none => exact ⟨_, rfl, nofun⟩
  | some slot =>
    have hdefinition : slot.definition = none := by simpa [definition?, hslot] using h
    simp only [hdefinition]
    exact ⟨_, rfl, nofun⟩

/-- Only a rule that has a definition can be entered and given up below. -/
theorem bound_of_not_ended {depth : Nat} {source : Source} {ref : RuleRef} {start : Nat}
    (h : ¬ Ended (catalog.call (depth + 1) source ref start : Except GrammarError Attempt)) :
    catalog.alive ref.target.grammar = true ∧ (catalog.definition? ref.target).isSome := by
  by_contra hnot
  apply h
  rw [call]
  by_cases halive : catalog.alive ref.target.grammar = true
  · have hunbound : catalog.definition? ref.target = none := by simpa [halive] using hnot
    obtain ⟨error, hbound, herror⟩ := bound_of_definition?_eq_none hunbound
    rw [callOnce_of_bound_error (by rw [resolve, if_pos halive]) hbound]
    rintro _ ⟨⟩
    exact herror
  · rw [callOnce_of_resolve_error (by rw [resolve, if_neg halive])]
    rintro _ ⟨⟩ ⟨name, hname⟩
    cases hname

section
variable (catalog) (source : Source) (start base : Nat)

open Classical in
noncomputable def endedRules (k : Nat) : Finset RuleId :=
  catalog.boundRules.toFinset.filter fun rule =>
    Ended (catalog.call (base + k) source (catalog.refer rule) start : Except GrammarError Attempt)

open Classical in
theorem mem_endedRules {k : Nat} {rule : RuleId} :
    rule ∈ endedRules catalog source start base k ↔ rule ∈ catalog.boundRules ∧
      Ended (catalog.call (base + k) source (catalog.refer rule) start :
        Except GrammarError Attempt) := by
  rw [endedRules, Finset.mem_filter, List.mem_toFinset]

theorem endedRules_mono : Monotone (endedRules catalog source start base) := by
  intro k k' hk rule hrule
  rw [mem_endedRules] at hrule ⊢
  refine ⟨hrule.1, ?_⟩
  rw [← hrule.2.eq_of_approximates (call_mono (Nat.add_le_add_left hk base) source _ start)]
  exact hrule.2

theorem card_endedRules_le (k : Nat) :
    (endedRules catalog source start base k).card ≤ catalog.ruleCount := by
  have hsub : endedRules catalog source start base k ⊆ catalog.boundRules.toFinset :=
    fun rule h => List.mem_toFinset.2 ((mem_endedRules ..).1 h).1
  rw [← length_boundRules]
  exact (Finset.card_le_card hsub).trans (List.toFinset_card_le _)

variable {catalog source start base}

/-- When no more rules end at a greater depth, its calls have no more answers. -/
theorem call_approximates_of_endedRules_subset {k k' : Nat} (hk : k ≤ k') (hbase : 0 < base)
    (h : endedRules catalog source start base k' ⊆ endedRules catalog source start base k)
    (ref : RuleRef) :
    Approximates GrammarError.TooDeep (catalog.call (base + k') source ref start)
      (catalog.call (base + k) source ref start) := by
  by_cases hended : Ended (catalog.call (base + k') source ref start : Except GrammarError Attempt)
  swap
  · exact approximates_of_not_ended hended
  have hlow : Ended (catalog.call (base + k) source ref start : Except GrammarError Attempt) := by
    by_contra hnot
    obtain ⟨d, hd⟩ : ∃ d, base + k = d + 1 := ⟨base + k - 1, by omega⟩
    obtain ⟨d', hd'⟩ : ∃ d', base + k' = d' + 1 := ⟨base + k' - 1, by omega⟩
    rw [hd] at hnot
    obtain ⟨halive, hbound⟩ := bound_of_not_ended hnot
    rw [hd', call_refer _ _ _ halive, ← hd'] at hended
    rw [call_refer _ _ _ halive, ← hd] at hnot
    have hmem := h ((mem_endedRules ..).2 ⟨mem_boundRules.2 hbound, hended⟩)
    exact hnot ((mem_endedRules ..).1 hmem).2
  rw [hlow.eq_of_approximates (call_mono (Nat.add_le_add_left hk base) source ref start)]
  exact Approximates.refl _

/-- With as many nested calls as there are rules beyond what all places with less room
need, every run at a place ends that ends at all. -/
theorem call_approximates_level (hbase : 0 < base)
    (hless : ∀ source' o, source'.room o < source.room start → ∀ ref depth,
      Approximates GrammarError.TooDeep (catalog.call depth source' ref o)
        (catalog.call base source' ref o)) (ref : RuleRef) (depth : Nat) :
    Approximates GrammarError.TooDeep (catalog.call depth source ref start)
      (catalog.call (base + catalog.ruleCount) source ref start) := by
  have hmono := endedRules_mono catalog source start base
  have hstable : ∀ k, (endedRules catalog source start base k).card =
      (endedRules catalog source start base (k + 1)).card →
      (endedRules catalog source start base (k + 1)).card =
        (endedRules catalog source start base (k + 2)).card := by
    intro k hk
    have hsub : endedRules catalog source start base (k + 1) ⊆
        endedRules catalog source start base k :=
      (Finset.eq_of_subset_of_card_le (hmono (Nat.le_succ k)) hk.ge).ge
    refine le_antisymm (Finset.card_le_card (hmono (Nat.le_succ _))) (Finset.card_le_card ?_)
    intro rule hrule
    rw [mem_endedRules] at hrule ⊢
    refine ⟨hrule.1, ?_⟩
    have hstep : Approximates GrammarError.TooDeep
        (catalog.call (base + (k + 2)) source (catalog.refer rule) start)
        (catalog.call (base + (k + 1)) source (catalog.refer rule) start) := by
      refine callOnce_approximates fun source' ref' o hnear => ?_
      rcases hnear with ⟨rfl, rfl⟩ | hroom
      · exact call_approximates_of_endedRules_subset (Nat.le_succ k) hbase hsub ref'
      · exact (hless source' o hroom ref' _).trans
          (call_mono (Nat.le_add_right base k) source' ref' o)
    rw [← hrule.2.eq_of_approximates hstep]
    exact hrule.2
  by_cases hdepth : depth ≤ base + catalog.ruleCount
  · exact call_mono hdepth source ref start
  · obtain ⟨n, rfl⟩ : ∃ n, depth = base + n := ⟨depth - base, by omega⟩
    have hle : catalog.ruleCount ≤ n := by omega
    have hcard := Nat.stabilises_of_monotone (fun _ _ h => Finset.card_le_card (hmono h))
      (card_endedRules_le catalog source start base) hstable hle
    exact call_approximates_of_endedRules_subset hle hbase
      (Finset.eq_of_subset_of_card_le (hmono hle) hcard.le).ge ref

end

theorem call_approximates_of_room {n : Nat} {source : Source} {start : Nat}
    (h : source.room start ≤ n) (ref : RuleRef) (depth : Nat) :
    Approximates GrammarError.TooDeep (catalog.call depth source ref start)
      (catalog.call (1 + catalog.ruleCount * (n + 1)) source ref start) := by
  induction n generalizing source start ref depth with
  | zero =>
    have hless : ∀ source' o, source'.room o < source.room start → ∀ ref depth,
        Approximates GrammarError.TooDeep (catalog.call depth source' ref o)
          (catalog.call 1 source' ref o) := fun source' o hroom => by omega
    simpa using call_approximates_level Nat.one_pos hless ref depth
  | succ n ih =>
    have hless : ∀ source' o, source'.room o < source.room start → ∀ ref depth,
        Approximates GrammarError.TooDeep (catalog.call depth source' ref o)
          (catalog.call (1 + catalog.ruleCount * (n + 1)) source' ref o) :=
      fun source' o hroom ref depth => ih (by omega) ref depth
    simpa [Nat.mul_succ, Nat.add_assoc] using
      call_approximates_level (by omega) hless ref depth

theorem call_approximates_depthBound {source source' : Source} {start : Nat}
    (h : source'.room start ≤ 2 * source.size + 1) (ref : RuleRef) (depth : Nat) :
    Approximates GrammarError.TooDeep (catalog.call depth source' ref start)
      (catalog.call (catalog.depthBound source) source' ref start) := by
  refine (call_approximates_of_room h ref depth).trans (call_mono ?_ source' ref start)
  have hroom : 2 * source.size + 1 + 1 ≤ (source.size + 1) * (source.size + 1) + 2 := by nlinarith
  have := Nat.mul_le_mul_left catalog.ruleCount hroom
  rw [depthBound]
  omega

def settled (catalog : Catalog) (source : Source) (ref : RuleRef) (start : Nat) :
    Except GrammarError Attempt :=
  catalog.call (catalog.depthBound source) source ref start

theorem call_approximates_settled (depth : Nat) (source : Source) (ref : RuleRef) (start : Nat) :
    Approximates GrammarError.TooDeep (catalog.call depth source ref start)
      (catalog.settled source ref start) :=
  call_approximates_depthBound (source.room_le start) ref depth

/-- What comes out of a rule is what comes out of its definition when all its calls have
come out. -/
theorem callOnce_settled (source : Source) (ref : RuleRef) (start : Nat) :
    Approximates GrammarError.TooDeep (catalog.callOnce catalog.settled source ref start)
      (catalog.settled source ref start) := by
  have hstops : ∀ source' ref' o, Near source start source' o → ∀ attempt,
      catalog.settled source' ref' o = .ok attempt → StopsIn (Near source start source') attempt :=
    fun source' ref' o ho attempt h => call_stopsIn (near_settling source start) _ ref' ho h
  have hcalls : ∀ source' ref' o, Near source start source' o →
      (approximation GrammarError.TooDeep).rel (StopsIn (Near source start source'))
        (catalog.settled source' ref' o)
        (catalog.call (catalog.depthBound source) source' ref' o) := by
    intro source' ref' o ho
    refine ⟨call_approximates_depthBound ?_ ref' _, hstops source' ref' o ho⟩
    rcases ho with ⟨rfl, rfl⟩ | hroom
    · exact Source.room_le source' o
    · exact hroom.le.trans (source.room_le start)
  have hdeeper : Approximates GrammarError.TooDeep
      (catalog.callOnce catalog.settled source ref start)
      (catalog.call (catalog.depthBound source + 1) source ref start) :=
    (callOnce_rel (near_settling source start) (Near.refl source start) rfl
      fun rule _ => linkedRule_of_calls hcalls).1
  exact hdeeper.trans (call_approximates_settled _ source ref start)

end Catalog

end Metasyntax
