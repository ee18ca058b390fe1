import Metasyntax.Proofs.Growth
import Metasyntax.Proofs.Ordering
import Metasyntax.Proofs.Rereading

/-!
# Alternatives that are added

An alternative is added with a parser or with a rule text that says so. Whatever else is
done on the way, rules of other names keep their definitions, and a definition to which
an alternative is added is tried first from then on. A rule that is not bound yet starts
from what its name means in the base of its grammar.
-/

set_option autoImplicit false

namespace Metasyntax

namespace Catalog

variable {id : GrammarId} {rules rules' : RuleId → Prop} {c c' c'' : Catalog}

structure Gains (id : GrammarId) (rules : RuleId → Prop) (c c' : Catalog) : Prop
    extends Develops id (fun _ => True) rules c c' where
  offers : ∀ rule definition, c.definition? rule = some definition → ∃ definition',
    c'.definition? rule = some definition' ∧ definition'.Offers definition

theorem Develops.definition?_eq {wanted : String → Prop} (h : Develops id wanted rules c c')
    {rule : RuleId} (hrule : ¬ rules rule) {definition : Parser}
    (hdefinition : c.definition? rule = some definition) :
    c'.definition? rule = some definition := by
  obtain ⟨slot, hslot, hdefinition⟩ := Option.bind_eq_some_iff.1 hdefinition
  obtain ⟨slot', hslot', -, -, hkept⟩ := h.slot rule slot hslot
  exact Option.bind_eq_some_iff.2 ⟨slot', hslot', (hkept hrule).trans hdefinition⟩

/-- A rule that is not bound anew stays unbound, or is new and unbound. -/
theorem Develops.definition?_eq_none {wanted : String → Prop} (h : Develops id wanted rules c c')
    {rule : RuleId} (hrule : ¬ rules rule) (hnone : c.definition? rule = none) :
    c'.definition? rule = none := by
  rw [definition?, Option.bind_eq_none_iff] at hnone ⊢
  intro slot' hslot'
  cases hslot : c.slot? rule with
  | none => exact (h.fresh rule slot' hslot hslot').2 hrule
  | some slot =>
    obtain ⟨slot'', hslot'', -, -, hkept⟩ := h.slot rule slot hslot
    obtain rfl : slot'' = slot' := Option.some.inj (hslot''.symm.trans hslot')
    exact (hkept hrule).trans (hnone slot hslot)

theorem Develops.gains (h : Develops id (fun _ => True) (fun _ => False) c c') :
    Gains id rules c c' :=
  { h.mono (fun _ h => h) fun _ => False.elim with
    offers := fun _ definition hdefinition =>
      ⟨definition, h.definition?_eq not_false hdefinition, .self definition⟩ }

namespace Gains

theorem refl (id : GrammarId) (rules : RuleId → Prop) (c : Catalog) : Gains id rules c c :=
  { Develops.refl id _ rules c with offers := fun _ _ h => ⟨_, h, .self _⟩ }

theorem trans (h : Gains id rules c c') (h' : Gains id rules c' c'') : Gains id rules c c'' :=
  { h.toDevelops.trans h'.toDevelops with
    offers := fun rule definition hdefinition => by
      obtain ⟨between, hbetween, hfirst⟩ := h.offers rule definition hdefinition
      obtain ⟨definition', hdefinition', hsecond⟩ := h'.offers rule between hbetween
      exact ⟨definition', hdefinition', hsecond.trans hfirst⟩ }

theorem mono (h : Gains id rules c c') (hrules : ∀ rule, rules rule → rules' rule) :
    Gains id rules' c c' :=
  { h.toDevelops.mono (fun _ h => h) hrules with offers := h.offers }

theorem bound (h : Gains id rules c c') {rule : RuleId} {slot : Slot} {definition : Parser}
    (hbound : c.bound rule = .ok (slot, definition)) : ∃ slot' definition',
      c'.bound rule = .ok (slot', definition') ∧ slot'.exclusion = slot.exclusion ∧
        definition'.Offers definition := by
  obtain ⟨hslot, hdefinition⟩ := bound_eq_ok_iff.1 hbound
  obtain ⟨slot', hslot', -, hexclusion, -⟩ := h.slot rule slot hslot
  obtain ⟨definition', hdefinition', hoffers⟩ :=
    h.offers rule definition (Option.bind_eq_some_iff.2 ⟨slot, hslot, hdefinition⟩)
  rw [definition?, hslot'] at hdefinition'
  exact ⟨slot', definition', bound_eq_ok_iff.2 ⟨hslot', hdefinition'⟩, hexclusion, hoffers⟩

end Gains

end Catalog

structure Store.Gains (id : GrammarId) (rules : RuleId → Prop) (store store' : Store) : Prop where
  catalog : store.catalog.Gains id rules store'.catalog
  holds : ∀ cache key attempt, store'.caches.Holds cache key attempt →
    store.caches.Holds cache key attempt

namespace Store.Gains

variable {id : GrammarId} {rules rules' : RuleId → Prop} {store store' store'' : Store}

theorem refl (id : GrammarId) (rules : RuleId → Prop) (store : Store) : Gains id rules store store :=
  ⟨.refl id rules _, fun _ _ _ h => h⟩

theorem trans (h : Gains id rules store store') (h' : Gains id rules store' store'') :
    Gains id rules store store'' where
  catalog := h.catalog.trans h'.catalog
  holds cache key attempt hholds := h.holds cache key attempt (h'.holds cache key attempt hholds)

theorem mono (h : Gains id rules store store') (hrules : ∀ rule, rules rule → rules' rule) :
    Gains id rules' store store' :=
  ⟨h.catalog.mono hrules, h.holds⟩

theorem of_develops (h : store.catalog.Develops id (fun _ => True) (fun _ => False) store'.catalog)
    (hholds : ∀ cache key attempt, store'.caches.Holds cache key attempt →
      store.caches.Holds cache key attempt) : Gains id rules store store' :=
  ⟨h.gains, hholds⟩

end Store.Gains

namespace Edit

variable {id : GrammarId} {rules : RuleId → Prop} {store : Store} {rule : RuleId}

/-- A definition may take the place of one that it offers. -/
theorem gains_setDefinition {definition : Parser} (h : ∀ existing,
    store.catalog.definition? rule = some existing → definition.Offers existing) :
    store.Gains id (· = rule) (setDefinition rule definition store).2 := by
  have hdevelops : store.catalog.Develops id (fun _ => True) (· = rule)
      (setDefinition rule definition store).2.catalog :=
    @develops_setDefinition id _ (· = rule) store rule rfl definition
  refine ⟨{ hdevelops with offers := fun other existing hexisting => ?_ },
    ((Reconfiguration.setDefinition definition).spares rule store).holds⟩
  by_cases hother : other = rule
  · subst hother
    obtain ⟨slot, hslot, -⟩ := Option.bind_eq_some_iff.1 hexisting
    have hindex := Store.index_lt_of_slot? (Option.isSome_of_eq_some hslot)
    exact ⟨definition, Store.definition?_setDefinition hindex hslot definition, h existing hexisting⟩
  · exact ⟨existing, hdevelops.definition?_eq hother hexisting, .self existing⟩

theorem gains_addAlternative (alternative : Parser) :
    store.Gains id (· = rule) (addAlternative rule alternative store).2 := by
  cases hdefinition : store.catalog.definition? rule with
  | none =>
    simp only [addAlternative, bind_apply, get_apply, hdefinition]
    refine gains_setDefinition fun existing hexisting => ?_
    rw [hdefinition] at hexisting
    cases hexisting
  | some existing =>
    simp only [addAlternative, bind_apply, get_apply, hdefinition]
    refine .trans (.of_develops (develops_newMode _) fun _ _ _ h => h)
      (gains_setDefinition fun existing' hexisting' => ?_)
    cases hdefinition.symm.trans hexisting'
    exact .alternation _ _ (.self existing)

def inherited? (catalog : Catalog) (id : GrammarId) (name : String) : Option Parser :=
  (catalog.grammar id).base?.bind fun base =>
    (catalog.lookup? base name).bind catalog.definition?

def inherit (id : GrammarId) (name : String) (rule : RuleId) : Edit Unit := do
  let catalog := (← get).catalog
  match catalog.definition? rule with
  | some _ => return ()
  | none => (inherited? catalog id name).forM (setDefinition rule)

theorem inherit_of_bound {definition : Parser} (h : store.catalog.definition? rule = some definition)
    (id : GrammarId) (name : String) : inherit id name rule store = ((), store) := by
  simp only [inherit, bind_apply, get_apply, h]
  rfl

theorem inherit_of_unbound (h : store.catalog.definition? rule = none) (id : GrammarId)
    (name : String) : inherit id name rule store =
      ((inherited? store.catalog id name).forM (setDefinition rule) : Edit Unit) store := by
  simp only [inherit, bind_apply, get_apply, h]

theorem extend_eq_inherit (id : GrammarId) (name : String) (alternative : Parser) :
    extend id name alternative = (do
      let rule ← localRule id name
      inherit id name rule
      addAlternative rule alternative
      return rule) := by
  rw [extend]
  refine bind_congr fun rule => funext fun store => ?_
  change (if (store.catalog.definition? rule).isNone = true then (do
      (inherited? store.catalog id name).forM (setDefinition rule)
      addAlternative rule alternative
      return rule : Edit RuleId) else do
      addAlternative rule alternative
      return rule) store = _
  cases hdefinition : store.catalog.definition? rule with
  | none =>
    rw [if_pos Option.isNone_none, bind_apply, bind_apply (inherit id name rule),
      inherit_of_unbound hdefinition]
  | some definition =>
    rw [if_neg (by simp), bind_apply (inherit id name rule), inherit_of_bound hdefinition]

theorem gains_inherit (id : GrammarId) (name : String) :
    store.Gains id (· = rule) (inherit id name rule store).2 := by
  cases hdefinition : store.catalog.definition? rule with
  | some definition =>
    rw [inherit_of_bound hdefinition]
    exact .refl ..
  | none =>
    rw [inherit_of_unbound hdefinition]
    cases inherited? store.catalog id name with
    | none => exact .refl ..
    | some definition =>
      refine gains_setDefinition fun existing hexisting => ?_
      rw [hdefinition] at hexisting
      cases hexisting

/-- A rule to which an alternative was added is bound. -/
theorem definition?_addAlternative {slot : Slot} (hslot : store.catalog.slot? rule = some slot)
    (alternative : Parser) : ∃ definition,
      (addAlternative rule alternative store).2.catalog.definition? rule = some definition := by
  cases hdefinition : store.catalog.definition? rule with
  | some existing =>
    have hgains : store.Gains rule.grammar (· = rule) (addAlternative rule alternative store).2 :=
      gains_addAlternative alternative
    exact (hgains.catalog.offers rule existing hdefinition).imp fun _ h => h.1
  | none =>
    simp only [addAlternative, bind_apply, get_apply, hdefinition]
    have hindex := Store.index_lt_of_slot? (Option.isSome_of_eq_some hslot)
    exact ⟨alternative, Store.definition?_setDefinition hindex hslot alternative⟩

end Edit

namespace Catalog

variable {id : GrammarId} {rules : RuleId → Prop} {name : String} {definition : Parser}
  {c c' : Catalog}

structure Grounded (id : GrammarId) (c : Catalog) : Prop where
  lineage : ∀ base, (c.grammar id).base? = some base →
    (c.grammar id).bases = base :: (c.grammar base).bases
  notMem : id ∉ (c.grammar id).bases

structure Starts (id : GrammarId) (name : String) (definition : Parser) (c : Catalog) : Prop where
  inherited : Edit.inherited? c id name = some definition
  offers : ∀ rule existing, c.local? id name = some rule → c.definition? rule = some existing →
    existing.Offers definition

namespace Develops

variable {wanted : String → Prop}

/-- A grammar that does not build on the one that changes knows the names that it did. -/
theorem lookup?_eq (h : Develops id wanted rules c c') {other : GrammarId}
    (hother : id ∉ other :: (c.grammar other).bases) (name : String) :
    c'.lookup? other name = c.lookup? other name := by
  rw [Catalog.lookup?, Catalog.lookup?, h.bases]
  generalize other :: (c.grammar other).bases = chain at hother ⊢
  induction chain with
  | nil => rfl
  | cons first rest ih =>
    obtain ⟨hfirst, hrest⟩ := not_or.1 (mt List.mem_cons.2 hother)
    have hlocal : c'.local? first name = c.local? first name := by
      cases hold : c.local? first name with
      | some own => exact h.found first name own hold
      | none => exact h.local?_eq_none hold fun heq => absurd heq.symm hfirst
    rw [List.findSome?_cons, List.findSome?_cons, hlocal, ih hrest]

/-- What a name means in a base of a grammar does not depend on the grammar. -/
theorem inherited? (h : Develops id wanted rules c c')
    (hrules : ∀ rule, rules rule → rule.grammar = id) (hgrounded : c.Grounded id)
    (hinherited : Edit.inherited? c id name = some definition) :
    Edit.inherited? c' id name = some definition := by
  obtain ⟨base, hbase, hinherited⟩ := Option.bind_eq_some_iff.1 hinherited
  obtain ⟨rule, hrule, hdefinition⟩ := Option.bind_eq_some_iff.1 hinherited
  have hbase' : (c'.grammar id).base? = some base := by
    rw [← hbase, Grammar.base?, Grammar.base?, h.bases]
  have hnotMem : id ∉ base :: (c.grammar base).bases :=
    hgrounded.lineage base hbase ▸ hgrounded.notMem
  have hrule' : c'.lookup? base name = some rule := (h.lookup?_eq hnotMem name).trans hrule
  obtain ⟨other, hother, hown⟩ := List.exists_of_findSome?_eq_some hrule
  obtain ⟨place, -, rfl⟩ := Option.map_eq_some_iff.1 hown
  refine Option.bind_eq_some_iff.2 ⟨base, hbase', Option.bind_eq_some_iff.2 ⟨_, hrule', ?_⟩⟩
  exact h.definition?_eq (fun hbound => hnotMem (hrules _ hbound ▸ hother)) hdefinition

end Develops

theorem Develops.local?_of_slot {wanted : String → Prop} (h : Develops id wanted rules c c')
    (hinterned : c.Interned) (hinterned' : c'.Interned) {rule : RuleId} {slot : Slot}
    (hrule : c'.local? id name = some rule) (hslot : c.slot? rule = some slot) :
    c.local? id name = some rule := by
  obtain ⟨slot', hslot', hname, -⟩ := h.slot rule slot hslot
  obtain ⟨hgrammar, slot'', hslot'', hname'⟩ := hinterned'.local?_eq_some_iff.1 hrule
  obtain rfl : slot'' = slot' := Option.some.inj (hslot''.symm.trans hslot')
  exact hinterned.local?_eq_some_iff.2 ⟨hgrammar, slot, hslot, hname ▸ hname'⟩

/-- A name goes on to start from what it means in the base of its grammar, where that is what
its rule is bound to when it is bound for the first time. -/
theorem Starts.of_gains (hstarts : c.Starts id name definition) (h : Gains id rules c c')
    (hrules : ∀ rule, rules rule → rule.grammar = id) (hgrounded : c.Grounded id)
    (hinterned : c.Interned) (hinterned' : c'.Interned)
    (hnew : ∀ rule existing, rules rule → c'.local? id name = some rule →
      c.definition? rule = none → c'.definition? rule = some existing →
        existing.Offers definition) : c'.Starts id name definition where
  inherited := h.inherited? hrules hgrounded hstarts.inherited
  offers rule existing hrule hexisting := by
    cases hold : c.definition? rule with
    | some old =>
      obtain ⟨existing', hexisting', hoffers⟩ := h.offers rule old hold
      cases hexisting.symm.trans hexisting'
      obtain ⟨slot, hslot, -⟩ := Option.bind_eq_some_iff.1 hold
      exact hoffers.trans (hstarts.offers rule old
        (h.local?_of_slot hinterned hinterned' hrule hslot) hold)
    | none =>
      refine hnew rule existing (by_contra fun hrules => ?_) hrule hold hexisting
      rw [h.definition?_eq_none hrules hold] at hexisting
      cases hexisting

end Catalog

structure Store.Ready (id : GrammarId) (store : Store) : Prop where
  index : id.index < store.catalog.grammars.size
  interned : store.catalog.Interned
  grounded : store.catalog.Grounded id

theorem Store.Ready.of_gains {id : GrammarId} {rules : RuleId → Prop} {store store' : Store}
    (h : store.Ready id) (hgains : store.Gains id rules store')
    (hinterned : store'.catalog.Interned) : store'.Ready id where
  index := hgains.catalog.size ▸ h.index
  interned := hinterned
  grounded :=
    { lineage := fun base hbase => by
        rw [Grammar.base?, hgains.catalog.bases] at hbase
        rw [hgains.catalog.bases, hgains.catalog.bases]
        exact h.grounded.lineage base hbase
      notMem := hgains.catalog.bases id ▸ h.grounded.notMem }

structure Store.Extended (id : GrammarId) (names : List String) (store store' : Store) :
    Prop where
  gains : store.Gains id (fun rule => ∃ name ∈ names, store'.catalog.local? id name = some rule)
    store'
  bound : ∀ name ∈ names, ∃ rule definition, store'.catalog.local? id name = some rule ∧
    store'.catalog.definition? rule = some definition
  starts : ∀ name definition, store.catalog.Starts id name definition →
    store'.catalog.Starts id name definition
  ready : store'.Ready id

namespace Store.Extended

variable {id : GrammarId} {names names' : List String} {store store' store'' : Store}

/-- Nothing has to be said of names where no definition changes. -/
theorem of_develops (hready : store.Ready id) (hinterned : store'.catalog.Interned)
    (h : store.catalog.Develops id (fun _ => True) (fun _ => False) store'.catalog)
    (hholds : ∀ cache key attempt, store'.caches.Holds cache key attempt →
      store.caches.Holds cache key attempt) : Extended id [] store store' where
  gains := .of_develops h hholds
  bound := nofun
  starts _ _ hstarts := hstarts.of_gains (Store.Gains.of_develops h hholds).catalog
    (fun _ => False.elim) hready.grounded hready.interned hinterned fun _ _ => False.elim
  ready := hready.of_gains (.of_develops h hholds : store.Gains id (fun _ => False) store')
    hinterned

theorem trans (h : Extended id names store store') (h' : Extended id names' store' store'') :
    Extended id (names ++ names') store store'' where
  gains := by
    refine (h.gains.mono fun rule => ?_).trans (h'.gains.mono fun rule => ?_)
    · rintro ⟨name, hname, hrule⟩
      exact ⟨name, List.mem_append_left _ hname, h'.gains.catalog.found id name rule hrule⟩
    · rintro ⟨name, hname, hrule⟩
      exact ⟨name, List.mem_append_right _ hname, hrule⟩
  bound name hname := by
    rcases List.mem_append.1 hname with hname | hname
    · obtain ⟨rule, definition, hrule, hdefinition⟩ := h.bound name hname
      obtain ⟨definition', hdefinition', -⟩ := h'.gains.catalog.offers rule definition hdefinition
      exact ⟨rule, definition', h'.gains.catalog.found id name rule hrule, hdefinition'⟩
    · exact h'.bound name hname
  starts name definition hstarts := h'.starts name definition (h.starts name definition hstarts)
  ready := h'.ready

end Store.Extended

namespace Edit

variable {id : GrammarId} {store : Store}

theorem definition?_inherit {name : String} {rule : RuleId} {definition : Parser}
    (hunbound : store.catalog.definition? rule = none)
    (hinherited : inherited? store.catalog id name = some definition)
    (hslot : (store.catalog.slot? rule).isSome) :
    (inherit id name rule store).2.catalog.definition? rule = some definition := by
  obtain ⟨slot, hslot'⟩ := Option.isSome_iff_exists.1 hslot
  rw [inherit_of_unbound hunbound, hinherited]
  exact Store.definition?_setDefinition (Store.index_lt_of_slot? hslot) hslot' definition

/-- What is left to do for an alternative once there is a rule of its name. -/
theorem extended_inherit {name : String} {rule : RuleId} (hready : store.Ready id)
    (hlocal : store.catalog.local? id name = some rule) (alternative : Parser)
    (hinterned : (addAlternative rule alternative
      (inherit id name rule store).2).2.catalog.Interned) :
    store.Extended id [name]
      (addAlternative rule alternative (inherit id name rule store).2).2 := by
  obtain ⟨hgrammar, slot, hslot, -⟩ := hready.interned.local?_eq_some_iff.1 hlocal
  have hinherit : store.Gains id (· = rule) (inherit id name rule store).2 := gains_inherit id name
  have hadd : (inherit id name rule store).2.Gains id (· = rule)
      (addAlternative rule alternative (inherit id name rule store).2).2 :=
    gains_addAlternative alternative
  have hgains := hinherit.trans hadd
  have hrule := hgains.catalog.found id name rule hlocal
  obtain ⟨slot', hslot', -⟩ := hinherit.catalog.slot rule slot hslot
  obtain ⟨bound, hbound⟩ := definition?_addAlternative hslot' alternative
  have hstarts (other : String) (definition : Parser)
      (hstarts : store.catalog.Starts id other definition) :
      (addAlternative rule alternative (inherit id name rule store).2).2.catalog.Starts id other
        definition := by
    refine hstarts.of_gains hgains.catalog (fun _ heq => heq ▸ hgrammar) hready.grounded
      hready.interned hinterned ?_
    rintro rule existing rfl hother hunbound hexisting
    -- the name is that of the rule, though it may be spelled in another way
    obtain ⟨-, slot₁, hslot₁, hname₁⟩ := hinterned.local?_eq_some_iff.1 hother
    obtain ⟨-, slot₂, hslot₂, hname₂⟩ := hinterned.local?_eq_some_iff.1 hrule
    obtain rfl : slot₁ = slot₂ := Option.some.inj (hslot₁.symm.trans hslot₂)
    have hspelled : lowerText other = lowerText name := hname₁.symm.trans hname₂
    have hinherited : inherited? store.catalog id name = some definition := by
      rw [← hstarts.inherited, inherited?, inherited?]
      refine Option.bind_congr fun base _ => ?_
      rw [Catalog.lookup?_congr rfl fun other' => Catalog.local?_congr hspelled other']
    obtain ⟨existing', hexisting', hoffers⟩ := hadd.catalog.offers rule definition
      (definition?_inherit hunbound hinherited (Option.isSome_of_eq_some hslot))
    cases hexisting.symm.trans hexisting'
    exact hoffers
  exact
    { gains := hgains.mono fun other heq => by
        rw [heq]
        exact ⟨name, List.mem_singleton_self name, hrule⟩
      bound := fun other hother => by
        cases List.mem_singleton.1 hother
        exact ⟨rule, bound, hrule, hbound⟩
      starts := hstarts
      ready := hready.of_gains hgains hinterned }

theorem extended_localRule (hready : store.Ready id) (name : String) :
    store.Extended id [] (localRule id name store).2 :=
  .of_develops hready
    (lasting_localRule id name _ Store.Interned.durable store hready.interned)
    (develops_localRule hready.index fun _ _ _ => trivial) (quiet_localRule id name).holds

theorem extended_extend (hready : store.Ready id) (name : String) (alternative : Parser) :
    store.Extended id [name] (extend id name alternative store).2 := by
  have hinterned : (extend id name alternative store).2.catalog.Interned :=
    lasting_extend id name alternative _ Store.Interned.durable store hready.interned
  have hnamed := extended_localRule hready name
  rw [extend_eq_inherit] at hinterned ⊢
  simp only [bind_apply, pure_apply] at hinterned ⊢
  exact hnamed.trans (extended_inherit hnamed.ready (Store.local?_localRule hready.index name)
    alternative hinterned)

/-- Alternatives that are added one after the other extend the rules of their names. -/
theorem extended_bindAll (hready : store.Ready id) (items : List (Production × Parser))
    (hitems : ∀ item ∈ items, item.1.incremental = true) :
    store.Extended id (items.map (·.1.name))
      (items.mapM (fun (production, parser) => bindOne id production parser) store).2 := by
  induction items generalizing store with
  | nil =>
    exact .of_develops hready hready.interned (.refl ..) fun _ _ _ h => h
  | cons item rest ih =>
    have hone : store.Extended id [item.1.name] (bindOne id item.1 item.2 store).2 := by
      rw [bindOne, if_pos (hitems item List.mem_cons_self)]
      exact extended_extend hready _ _
    rw [List.mapM_cons]
    exact hone.trans (ih hone.ready fun other hother => hitems other (List.mem_cons_of_mem _ hother))

theorem extended_forM_localRule (hready : store.Ready id) (productions : List Production) :
    store.Extended id [] ((productions.forM fun production =>
      discard <| localRule id production.name : Edit Unit) store).2 := by
  induction productions generalizing store with
  | nil => exact .of_develops hready hready.interned (.refl ..) fun _ _ _ h => h
  | cons production rest ih =>
    have hone := extended_localRule hready production.name
    exact hone.trans (ih hone.ready)

/-- Productions that only add alternatives extend the rules of their names. -/
theorem extended_bind {held : Set Parser} (hready : store.Ready id) (hsane : Sane held store)
    {productions : List Production} (hincremental : ∀ production ∈ productions,
      production.incremental = true) :
    store.Extended id (productions.map (·.name)) (Edit.bind id productions store).2 := by
  have hnamed := extended_forM_localRule hready productions
  have hsane' := (quiet_forM_localRule productions id).sane hsane
  simp only [Edit.bind, bind_apply, get_apply]
  generalize ((productions.forM fun production =>
    discard <| localRule id production.name : Edit Unit) store).2 = named at hnamed hsane' ⊢
  let options := (named.catalog.grammar id).options
  let bodies := productions.map (·.body)
  have hlength : productions.length = (assembleAll id options bodies named).1.length := by
    rw [length_assembleAll, List.length_map]
  have hassembled : named.Extended id [] (assembleAll id options bodies named).2 :=
    .of_develops hnamed.ready
      (lasting_assembleAll id options bodies _ Store.Interned.durable named hnamed.ready.interned)
      (develops_assembleAll options hnamed.ready.index bodies (fun _ _ _ _ _ => trivial) (.refl ..))
      (assembleAll_ensures id options bodies hsane').1.holds
  have hnames : (productions.zip (assembleAll id options bodies named).1).map (·.1.name) =
      productions.map (·.name) := by
    conv_rhs => rw [← List.map_fst_zip hlength.le, List.map_map]
    rfl
  rw [← hnames]
  exact hnamed.trans (hassembled.trans (extended_bindAll hassembled.ready _ fun item hitem =>
    hincremental item.1 (List.of_mem_zip hitem).1))

end Edit

end Metasyntax
