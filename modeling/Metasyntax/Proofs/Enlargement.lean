import Metasyntax.Proofs.Loads

/-!
What a grammar comes to have without a definition makes no difference to a parse: a store that has
been added to parses as it did before, with what was added left aside, and what was added can be
taken back.
-/

set_option autoImplicit false

namespace Metasyntax

structure Surplus where
  names : List String
  modes : Array Bool
  caches : Caches

def Surplus.none : Surplus := ⟨[], #[], #[]⟩

namespace RuleTable

def intern (table : RuleTable) (name : String) : RuleTable :=
  if (table.find? name).isSome then table else table.push name

variable {table : RuleTable} {name other : String} {place : Nat} {slot : Slot}

theorem ext_iff {table' : RuleTable} :
    table = table' ↔ table.slots = table'.slots ∧ table.index = table'.index := by
  constructor
  · rintro rfl
    exact ⟨rfl, rfl⟩
  · rintro ⟨hslots, hindex⟩
    cases table
    cases table'
    cases hslots
    cases hindex
    rfl

theorem getElem?_intern (h : table.slots[place]? = some slot) :
    (table.intern name).slots[place]? = some slot := by
  rw [intern]
  split
  · exact h
  · have hplace := (Array.getElem?_eq_some_iff.1 h).1
    rw [push, Array.getElem?_push, if_neg (by omega), h]

theorem unbound_of_intern (h : (table.intern name).slots[place]? = some slot) :
    table.slots[place]? = some slot ∨ slot.definition = Option.none := by
  rw [intern] at h
  split at h
  · exact Or.inl h
  · rw [push, Array.getElem?_push] at h
    split at h
    · cases h
      exact Or.inr rfl
    · exact Or.inl h

theorem find?_intern (h : table.find? other = some place) :
    (table.intern name).find? other = some place := by
  rw [intern]
  split
  · exact h
  · rename_i hname
    rw [find?_push, if_neg, h]
    intro heq
    rw [find?, heq, ← find?, h] at hname
    exact hname rfl

theorem truncate_push (hname : table.find? name = none) {known : Nat}
    (hknown : known ≤ table.size) :
    (table.push name).truncate known = table.truncate known := by
  rw [ext_iff]
  constructor
  · apply Array.ext_getElem?
    intro place
    simp only [truncate, push, getElem?_take, Array.getElem?_push]
    rw [size] at hknown
    split
    · rw [if_neg (by omega)]
    · rfl
  · apply Std.ExtTreeMap.ext_getElem?
    intro key
    simp only [truncate, push, Std.ExtTreeMap.getElem?_filter', Std.ExtTreeMap.getElem?_insert,
      Std.LawfulEqCmp.compare_eq_iff_eq]
    split
    case isTrue heq =>
      rw [← heq, ← find?, hname]
      exact Option.filter_eq_none_iff.2 fun place hplace => by
        cases hplace
        simpa [size] using hknown
    case isFalse => rfl

theorem truncate_size (table : RuleTable) : table.truncate table.size = table := by
  rw [ext_iff]
  constructor
  · apply Array.ext_getElem?
    intro place
    rw [truncate, getElem?_take]
    split
    · rfl
    · exact (Array.getElem?_eq_none (by rw [size] at *; omega)).symm
  · apply Std.ExtTreeMap.ext_getElem?
    intro key
    rw [truncate, Std.ExtTreeMap.getElem?_filter']
    cases hplace : table.index[key]? with
    | none => rfl
    | some place => simp [size, table.place_lt key place hplace]

theorem truncate_intern {known : Nat} (hknown : known ≤ table.size) :
    (table.intern name).truncate known = table.truncate known ∧ known ≤ (table.intern name).size := by
  rw [intern]
  split
  case isTrue => exact ⟨rfl, hknown⟩
  case isFalse hname =>
    refine ⟨truncate_push (Option.not_isSome_iff_eq_none.1 hname) hknown, ?_⟩
    rw [size, push, Array.size_push]
    exact Nat.le_succ_of_le hknown

def internAll (table : RuleTable) (names : List String) : RuleTable := names.foldl intern table

theorem truncate_internAll {names : List String} {known : Nat} (hknown : known ≤ table.size) :
    (table.internAll names).truncate known = table.truncate known := by
  induction names generalizing table with
  | nil => rfl
  | cons name rest ih =>
    obtain ⟨hfirst, hsize⟩ := truncate_intern hknown
    exact (ih hsize).trans hfirst

theorem getElem?_internAll {names : List String} (h : table.slots[place]? = some slot) :
    (table.internAll names).slots[place]? = some slot := by
  induction names generalizing table with
  | nil => exact h
  | cons name rest ih => exact ih (getElem?_intern h)

theorem unbound_of_internAll {names : List String}
    (h : (table.internAll names).slots[place]? = some slot) :
    table.slots[place]? = some slot ∨ slot.definition = Option.none := by
  induction names generalizing table with
  | nil => exact Or.inl h
  | cons name rest ih =>
    rcases ih h with h | h
    · exact unbound_of_intern h
    · exact Or.inr h

theorem find?_internAll {names : List String} (h : table.find? other = some place) :
    (table.internAll names).find? other = some place := by
  induction names generalizing table with
  | nil => exact h
  | cons name rest ih => exact ih (find?_intern h)

end RuleTable

namespace Catalog

def plus (catalog : Catalog) (id : GrammarId) (surplus : Surplus) : Catalog :=
  { catalog with
    grammars := catalog.grammars.modify id.index fun grammar =>
      { grammar with table := grammar.table.internAll surplus.names }
    modes := catalog.modes ++ surplus.modes }

variable {catalog : Catalog} {id : GrammarId} {surplus : Surplus} {rule : RuleId} {slot : Slot}

theorem grammar_plus (other : GrammarId) : (catalog.plus id surplus).grammar other =
    if other = id ∧ id.index < catalog.grammars.size then
      { catalog.grammar id with table := (catalog.grammar id).table.internAll surplus.names }
    else catalog.grammar other :=
  Edit.grammar_modifyGrammar id _ ⟨catalog, #[], []⟩ other

theorem slot?_plus (h : catalog.slot? rule = some slot) :
    (catalog.plus id surplus).slot? rule = some slot := by
  rw [slot?, grammar_plus]
  split
  case isTrue heq => exact RuleTable.getElem?_internAll (heq.1 ▸ h)
  case isFalse => exact h

theorem unbound_of_plus (h : (catalog.plus id surplus).slot? rule = some slot) :
    catalog.slot? rule = some slot ∨ slot.definition = none := by
  rw [slot?, grammar_plus] at h
  split at h
  case isTrue heq =>
    rw [slot?, heq.1]
    exact RuleTable.unbound_of_internAll h
  case isFalse => exact Or.inl h

theorem local?_plus {other : GrammarId} {name : String} (h : catalog.local? other name = some rule) :
    (catalog.plus id surplus).local? other name = some rule := by
  rw [local?, grammar_plus]
  split
  case isTrue heq =>
    obtain ⟨place, hplace, hrule⟩ := Option.map_eq_some_iff.1 h
    rw [heq.1] at hplace
    exact Option.map_eq_some_iff.2 ⟨place, RuleTable.find?_internAll hplace, hrule⟩
  case isFalse => exact h

theorem definition?_plus : (catalog.plus id surplus).definition? rule = catalog.definition? rule := by
  rw [definition?, definition?]
  cases hslot : catalog.slot? rule with
  | some slot => rw [slot?_plus hslot]
  | none =>
    cases hadded : (catalog.plus id surplus).slot? rule with
    | none => rfl
    | some slot =>
      rcases unbound_of_plus hadded with h | h
      · rw [hslot] at h
        cases h
      · exact h

theorem depthBound_plus (source : Source) :
    (catalog.plus id surplus).depthBound source = catalog.depthBound source := by
  have hcount : (catalog.plus id surplus).ruleCount = catalog.ruleCount :=
    ruleCount_congr fun rule => by rw [definition?_plus]
  rw [depthBound, depthBound, hcount]

theorem bound_plus (h : (catalog.slot? rule).isSome) :
    (catalog.plus id surplus).bound rule = catalog.bound rule := by
  obtain ⟨slot, hslot⟩ := Option.isSome_iff_exists.1 h
  rw [bound, bound, hslot, slot?_plus hslot]

theorem refer_plus (h : (catalog.slot? rule).isSome) :
    (catalog.plus id surplus).refer rule = catalog.refer rule := by
  obtain ⟨slot, hslot⟩ := Option.isSome_iff_exists.1 h
  rw [refer, refer, nameOf, nameOf, hslot, slot?_plus hslot]

end Catalog

def Concur {α : Type} (post : α → Prop) : Except GrammarError α → Except GrammarError α → Prop
  | .ok a, .ok a' => a = a' ∧ post a
  | .error _, .error _ => True
  | _, _ => False

def beside (size : Nat) (extra : Caches) : Relator Run Run where
  rel post x₁ x₂ := ∀ caches, caches.size = size → (x₁.run caches).2.size = size ∧
    (x₂.run (caches ++ extra)).2 = (x₁.run caches).2 ++ extra ∧
      Concur post (x₁.run caches).1 (x₂.run (caches ++ extra)).1
  pure h _ hsize := ⟨hsize, rfl, rfl, h⟩
  throw _ _ _ hsize := ⟨hsize, rfl, trivial⟩
  bind {α β post post' x₁ x₂ f₁ f₂} h hf caches hsize := by
    obtain ⟨hsize', hcaches, hconcur⟩ := h caches hsize
    rcases hx₁ : x₁.run caches with ⟨error | a, caches'⟩ <;>
      rcases hx₂ : x₂.run (caches ++ extra) with ⟨error' | a', caches''⟩ <;>
        rw [hx₁, hx₂] at hconcur hcaches <;> rw [hx₁] at hsize'
    · rw [Run.run_bind_error hx₁, Run.run_bind_error hx₂]
      exact ⟨hsize', hcaches, trivial⟩
    · exact hconcur.elim
    · exact hconcur.elim
    · obtain ⟨rfl, hpost⟩ := hconcur
      obtain rfl : caches'' = caches' ++ extra := hcaches
      rw [Run.run_bind_ok hx₁, Run.run_bind_ok hx₂]
      exact hf a hpost caches' hsize'

theorem modify_append {α : Type} (items extra : Array α) {place : Nat} (h : place < items.size)
    (change : α → α) : (items ++ extra).modify place change = items.modify place change ++ extra := by
  apply Array.ext_getElem?
  intro other
  simp only [Array.getElem?_modify, Array.getElem?_append, Array.size_modify]
  split
  case isTrue heq => rw [if_pos (heq ▸ h), if_pos (heq ▸ h)]
  case isFalse => rfl

/-- What a cache answers does not depend on the caches beside it. -/
theorem remembered_beside {size : Nat} {extra : Caches} {cache : CacheId} {key : CacheKey}
    (hcache : cache.index < size) {post : Attempt → Prop} (hpost : ∀ attempt, post attempt)
    {explore₁ explore₂ : Run Attempt} (h : (beside size extra).rel post explore₁ explore₂) :
    (beside size extra).rel post (remembered cache key explore₁)
      (remembered cache key explore₂) := by
  have hmodify (change : MatchCache → MatchCache) : (beside size extra).rel (fun _ => True)
      (modify (·.modify cache.index change) : Run Unit)
      (modify (·.modify cache.index change) : Run Unit) := fun caches hsize =>
    ⟨Array.size_modify.trans hsize, modify_append caches extra (hsize ▸ hcache) change, rfl, trivial⟩
  have hconsult : (beside size extra).rel (fun _ => True) (consult cache key)
      (consult cache key) := by
    intro caches hsize
    have hlt : cache.index < caches.size := hsize ▸ hcache
    rw [run_consult, run_consult, Array.getElem?_append, if_pos hlt, modify_append caches extra hlt]
    exact ⟨Array.size_modify.trans hsize, rfl, rfl, trivial⟩
  refine (beside size extra).bind hconsult fun found _ => ?_
  cases found with
  | some attempt => exact (beside size extra).pure (hpost attempt)
  | none =>
    refine (beside size extra).bind h fun attempt _ => ?_
    exact (beside size extra).bind (hmodify _) fun _ _ => (beside size extra).pure (hpost attempt)

structure Store.Furnished (store : Store) : Prop where
  cache_lt : ∀ node ∈ (store.catalog.within Set.univ).nodes, ∀ id, node.cache? = some id →
    id.index < store.caches.size
  mode_lt : ∀ mode branches, .alternation mode branches ∈ (store.catalog.within Set.univ).nodes →
    mode.index < store.catalog.modes.size

theorem Sane.furnished {held : Set Parser} {store : Store} (h : Sane held store) :
    store.Furnished where
  cache_lt node hnode := h.cache_lt node (Or.inr hnode)
  mode_lt mode branches hmode := h.mode_lt mode branches (Or.inr hmode)

section
variable {store : Store} {id : GrammarId} {surplus : Surplus}

theorem firstMatch_plus {mode : ModeId} (h : mode.index < store.catalog.modes.size) :
    (store.catalog.plus id surplus).firstMatch mode = store.catalog.firstMatch mode := by
  rw [Catalog.firstMatch, Catalog.firstMatch, Catalog.plus, Array.getElem?_append, if_pos h]

theorem run_callOnce_of_bound_error {catalog : Catalog} (call : Source → RuleRef → Nat → Run Attempt)
    {ref : RuleRef} {error : GrammarError} (h : catalog.bound ref.target = .error error)
    (source : Source) (start : Nat) (caches : Caches) :
    ∃ error, (catalog.callOnce call source ref start).run caches = (.error error, caches) := by
  rw [Catalog.callOnce]
  cases hresolve : catalog.resolve ref with
  | error error => exact ⟨error, rfl⟩
  | ok rule =>
    rw [← Catalog.eq_of_resolve hresolve] at h
    exact ⟨error, by rw [Run.run_bind_ok (run_ofExcept_ok _ _), h]; rfl⟩

theorem call_beside_of_bound_error {extra : Caches} {rule : RuleId} {error : GrammarError}
    (h : store.catalog.bound rule = .error error) {ref ref' : RuleRef} (href : ref.target = rule)
    (href' : ref'.target = rule) (depth : Nat) (source : Source) (start : Nat)
    (post : Attempt → Prop) :
    (beside store.caches.size extra).rel post (store.catalog.call depth source ref start)
      ((store.catalog.plus id surplus).call depth source ref' start) := by
  obtain ⟨error', h'⟩ : ∃ error, (store.catalog.plus id surplus).bound ref'.target = .error error := by
    cases hbound : (store.catalog.plus id surplus).bound ref'.target with
    | error error => exact ⟨error, rfl⟩
    | ok found =>
      obtain ⟨slot, definition⟩ := found
      rw [href', Catalog.bound_eq_ok_iff] at hbound
      rcases Catalog.unbound_of_plus hbound.1 with hslot | hnone
      · rw [Catalog.bound_eq_ok_iff.2 ⟨hslot, hbound.2⟩] at h
        cases h
      · rw [hnone] at hbound
        cases hbound.2
  cases depth with
  | zero => exact fun _ hsize => ⟨hsize, rfl, trivial⟩
  | succ depth =>
    intro caches hsize
    obtain ⟨_, hfails⟩ :=
      run_callOnce_of_bound_error (store.catalog.call depth) (href ▸ h) source start caches
    obtain ⟨_, hfails'⟩ := run_callOnce_of_bound_error
      ((store.catalog.plus id surplus).call depth) h' source start (caches ++ extra)
    rw [Catalog.call, Catalog.call, hfails, hfails']
    exact ⟨hsize, rfl, trivial⟩

/-- A call is answered alike whatever is added, since no definition leads to it. -/
theorem call_beside (hstore : store.Furnished) (depth : Nat) (source : Source) (ref : RuleRef)
    (start : Nat) :
    (beside store.caches.size surplus.caches).rel (StopsIn fun _ => True)
      (store.catalog.call depth source ref start)
      ((store.catalog.plus id surplus).call depth source ref start) := by
  induction depth generalizing source ref start with
  | zero => exact (beside _ _).throw _ trivial
  | succ depth ih =>
    cases hbound : store.catalog.bound ref.target with
    | error error => exact call_beside_of_bound_error hbound rfl rfl _ source start _
    | ok found =>
      obtain ⟨slot, definition⟩ := found
      obtain ⟨hslot, hdefinition⟩ := Catalog.bound_eq_ok_iff.1 hbound
      have hsome : (store.catalog.slot? ref.target).isSome := by rw [hslot]; rfl
      have hnode : ∀ node ∈ definition.walk, node ∈ (store.catalog.within Set.univ).nodes :=
        fun node hnode => ⟨ref.target, slot, definition, trivial, hbound, hnode⟩
      rw [Catalog.call, Catalog.call]
      refine callOnce_rel settling_true trivial rfl fun rule hrule => ?_
      obtain rfl := Catalog.eq_of_resolve hrule
      exact
        { bound := (Catalog.bound_plus hsome).symm
          refer := (Catalog.refer_plus hsome).symm
          body := fun slot' definition' hbound' => by
            rw [Catalog.bound_plus hsome, hbound] at hbound'
            cases hbound'
            exact
              { call := fun ref' _ o _ => ih source ref' o
                mode := fun mode branches hmode =>
                  (firstMatch_plus (hstore.mode_lt mode branches (hnode _ hmode))).symm
                remember := fun node hmem cache hcache o _ h =>
                  remembered_beside (hstore.cache_lt node (hnode node hmem) cache hcache)
                    (fun _ _ _ _ _ => trivial) h }
          exclusion := fun slot' definition' ref' _ _ => by
            refine ⟨rfl, fun excluded _ source' _ => ?_⟩
            cases hexcluded : store.catalog.bound excluded with
            | error error =>
              exact ⟨fun _ => False, fun _ => False.elim,
                call_beside_of_bound_error hexcluded rfl rfl depth source' 0 _⟩
            | ok found =>
              have hsome' : (store.catalog.slot? excluded).isSome := by
                rw [(Catalog.bound_eq_ok_iff.1 hexcluded).1]
                rfl
              refine ⟨StopsIn fun _ => True, fun _ _ => (Catalog.refer_plus hsome').symm, ?_⟩
              rw [Catalog.refer_plus hsome']
              exact ih source' _ 0 }

end

theorem parseAll_beside {store : Store} (hstore : store.Furnished) {rule : RuleId}
    (hrule : (store.catalog.slot? rule).isSome) (id : GrammarId) (surplus : Surplus)
    (source : Source) : (beside store.caches.size surplus.caches).rel (fun _ => True)
      (store.catalog.parseAll rule source) ((store.catalog.plus id surplus).parseAll rule source) := by
  have hmatches : (beside store.caches.size surplus.caches).rel (StopsIn fun _ => True)
      (store.catalog.ruleMatches rule source 0)
      ((store.catalog.plus id surplus).ruleMatches rule source 0) := by
    rw [Catalog.ruleMatches, Catalog.ruleMatches, Catalog.depthBound_plus, Catalog.refer_plus hrule]
    exact call_beside hstore _ source _ 0
  exact parseAll_rel (Catalog.refer_plus hrule).symm hmatches

/-- Two stores that differ in nothing but what is remembered. -/
structure Store.Alike (store store' : Store) : Prop where
  catalog : store'.catalog = store.catalog
  lost : store'.lostCaches = store.lostCaches
  size : store'.caches.size = store.caches.size

theorem Store.Alike.refl (store : Store) : store.Alike store := ⟨rfl, rfl, rfl⟩

theorem Store.Alike.trans {store store' store'' : Store} (h : store.Alike store')
    (h' : store'.Alike store'') : store.Alike store'' :=
  ⟨h'.catalog.trans h.catalog, h'.lost.trans h.lost, h'.size.trans h.size⟩

theorem Store.Furnished.alike {store store' : Store} (h : store.Furnished) (halike : store.Alike store') :
    store'.Furnished where
  cache_lt := by
    rw [halike.catalog, halike.size]
    exact h.cache_lt
  mode_lt := by
    rw [halike.catalog]
    exact h.mode_lt

def Store.plus (store : Store) (id : GrammarId) (surplus : Surplus) : Store :=
  ⟨store.catalog.plus id surplus, store.caches ++ surplus.caches, store.lostCaches⟩

/-- Whether a text is a name can be told whatever is added, and the telling leaves what is added
as it is. -/
theorem isRuleName_plus {store : Store} (hstore : store.Furnished) {rule : RuleId}
    (hrule : store.catalog.local? .abnf "rulename" = some rule) (id : GrammarId) (surplus : Surplus)
    (text : String) :
    store.Alike (RuleText.isRuleName text store).2 ∧
      RuleText.isRuleName text (store.plus id surplus) =
        ((RuleText.isRuleName text store).1, (RuleText.isRuleName text store).2.plus id surplus) := by
  obtain ⟨hsize, hcaches, hconcur⟩ := parseAll_beside hstore
    (Catalog.isSome_slot?_of_local? hrule) id surplus (.ofString text) store.caches rfl
  have hfound : Edit.rule .abnf "rulename" (store.plus id surplus) = (rule, store.plus id surplus) :=
    Edit.rule_of_local (Catalog.local?_plus hrule)
  simp only [RuleText.isRuleName, Edit.bind_apply, Edit.rule_of_local hrule, hfound]
  simp only [Edit.parsing, Store.plus]
  generalize ((store.catalog.parseAll rule (.ofString text) : Run _).run store.caches) = run at *
  generalize ((store.catalog.plus id surplus).parseAll rule (.ofString text) : Run _).run
    (store.caches ++ surplus.caches) = run' at *
  obtain ⟨result, caches⟩ := run
  obtain ⟨result', caches'⟩ := run'
  obtain rfl : caches' = caches ++ surplus.caches := hcaches
  have halike : store.Alike ⟨store.catalog, caches, store.lostCaches⟩ := ⟨rfl, rfl, hsize⟩
  cases result with
  | error error =>
    cases result' with
    | error error' => exact ⟨halike, rfl⟩
    | ok _ => exact hconcur.elim
  | ok parsed =>
    cases result' with
    | error error => exact hconcur.elim
    | ok parsed' =>
      obtain rfl : parsed = parsed' := hconcur.1
      cases parsed <;> exact ⟨halike, rfl⟩

theorem Edit.snd_truncate (id : GrammarId) (extent : Store.Extent) (store : Store) :
    (Edit.truncate id extent store).2 =
      ⟨⟨store.catalog.grammars.modify id.index fun grammar =>
          { grammar with table := grammar.table.truncate extent.rules },
        store.catalog.modes.take extent.modes, store.catalog.lost⟩,
      store.caches.take extent.caches, store.lostCaches⟩ :=
  rfl

/-- What is added to a store is taken back as if it had never been there. -/
theorem truncate_plus {store after : Store} (h : store.Alike after) (id : GrammarId)
    (surplus : Surplus) : (Edit.truncate id (store.extent id) (after.plus id surplus)).2 = after := by
  have hknown : (store.extent id).rules = (after.catalog.grammar id).table.size := by
    rw [h.catalog]
    rfl
  have hmodes : (store.extent id).modes = after.catalog.modes.size := by
    rw [h.catalog]
    rfl
  have hcaches : (store.extent id).caches = after.caches.size := h.size.symm
  have hgrammars : (after.plus id surplus).catalog.grammars.modify id.index (fun grammar =>
      { grammar with table := grammar.table.truncate (after.catalog.grammar id).table.size }) =
        after.catalog.grammars := by
    apply Array.ext_getElem?
    intro place
    simp only [Store.plus, Catalog.plus, Array.getElem?_modify]
    split
    case isFalse => rfl
    case isTrue hplace =>
      rw [Catalog.grammar, hplace]
      cases after.catalog.grammars[place]? with
      | none => rfl
      | some grammar =>
        simp only [Option.map_some, Option.getD_some, RuleTable.truncate_internAll le_rfl,
          RuleTable.truncate_size]
  rw [Edit.snd_truncate, hknown, hmodes, hcaches, hgrammars]
  simp [Store.plus, Catalog.plus]

end Metasyntax
