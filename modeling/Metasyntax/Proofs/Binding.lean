import Metasyntax.Proofs.Batches
import Metasyntax.Proofs.Rulelists

/-!
# Binding in any order

What productions leave in a grammar is said without their order: which names get rules,
and what the bodies describe there. So two catalogs that come from one by the same
productions, bound at once or one after the other, have the same rules.
-/

set_option autoImplicit false

namespace Metasyntax

structure Production.Batch (productions : List Production) : Prop where
  plain : ∀ production ∈ productions, production.incremental = false
  distinct : productions.Pairwise fun a b => lowerText a.name ≠ lowerText b.name

theorem Production.Batch.tail {production : Production} {rest : List Production}
    (h : Batch (production :: rest)) : Batch rest where
  plain other hother := h.plain other (List.mem_cons_of_mem _ hother)
  distinct := (List.pairwise_cons.1 h.distinct).2

theorem Production.Batch.perm {productions productions' : List Production}
    (h : Batch productions) (hperm : productions.Perm productions') : Batch productions' where
  plain production hproduction := h.plain production (hperm.mem_iff.2 hproduction)
  distinct := hperm.pairwise h.distinct fun hne => hne.symm

def Production.Mention (productions : List Production) (name : String) : Prop :=
  ∃ production ∈ productions, ∃ called ∈ production.body.names, lowerText called = lowerText name

def Catalog.Wants (id : GrammarId) (productions : List Production) (c : Catalog)
    (name : String) : Prop :=
  Production.Among productions name ∨
    Production.Mention productions name ∧ c.lookup? id name = none

theorem Expression.mem_namesAll {expressions : List Expression} {called : String} :
    called ∈ namesAll expressions ↔ ∃ expression ∈ expressions, called ∈ expression.names := by
  induction expressions with
  | nil => simp [namesAll]
  | cons expression rest ih => simp [namesAll, ih]

def Catalog.Defines (id : GrammarId) (productions : List Production) (c : Catalog)
    (rule : RuleId) : Prop :=
  ∃ production ∈ productions, c.local? id production.name = some rule

structure Catalog.Binds (id : GrammarId) (productions : List Production) (c c' : Catalog) : Prop
    extends Catalog.Develops id (c.Wants id productions) (c'.Defines id productions) c c' where
  built : ∀ production ∈ productions, ∃ rule slot parser,
    c'.local? id production.name = some rule ∧ c'.slot? rule = some slot ∧
      slot.definition = some parser ∧
      production.body.Builds id (c.grammar id).options.firstMatch c' parser

def Catalog.SpelledAs (id : GrammarId) (productions : List Production) (c c' : Catalog) : Prop :=
  ∀ production ∈ productions, c.local? id production.name = none → ∀ rule slot,
    c'.local? id production.name = some rule → c'.slot? rule = some slot →
      slot.name = production.name

namespace Edit

variable {id : GrammarId} {store : Store}

theorem interned_forM_localRule (productions : List Production) (h : store.catalog.Interned) :
    ((productions.forM fun production => discard <| localRule id production.name : Edit Unit)
      store).2.catalog.Interned := by
  induction productions generalizing store with
  | nil => exact h
  | cons production rest ih =>
    exact ih (lasting_localRule id production.name _ Store.Interned.durable store h)

/-- Every production gets a place under its name, which is new unless the name is known. -/
theorem develops_forM_localRule {productions : List Production}
    (hdistinct : productions.Pairwise fun a b => lowerText a.name ≠ lowerText b.name)
    {wanted : String → Prop} {bound : RuleId → Prop}
    (hwanted : ∀ production ∈ productions, ∀ spelling,
      lowerText production.name = lowerText spelling → wanted spelling)
    (hindex : id.index < store.catalog.grammars.size) :
    let named := ((productions.forM fun production =>
      discard <| localRule id production.name : Edit Unit) store).2
    store.catalog.Develops id wanted bound named.catalog ∧
      store.catalog.SpelledAs id productions named.catalog := by
  induction productions generalizing store with
  | nil => exact ⟨.refl .., fun _ h => by cases h⟩
  | cons production rest ih =>
    obtain ⟨hne, hrest⟩ := List.pairwise_cons.1 hdistinct
    have hfirst : store.catalog.Develops id wanted bound
        (localRule id production.name store).2.catalog :=
      develops_localRule hindex fun _ => hwanted production List.mem_cons_self
    obtain ⟨hdevelops, hspelled⟩ := ih hrest
      (fun other hother => hwanted other (List.mem_cons_of_mem _ hother)) (hfirst.size ▸ hindex)
    refine ⟨hfirst.trans hdevelops, fun other hother hnew rule slot hrule hslot => ?_⟩
    rcases List.mem_cons.1 hother with rfl | hother
    · have hpush : (localRule id other.name store).2 =
          (modifyTable id (·.push other.name) store).2 := by
        simp only [localRule, bind_apply, get_apply, hnew]
        rfl
      have hplace : (localRule id other.name store).2.catalog.local? id other.name =
          some ⟨id, store.rules id⟩ := by
        rw [hpush, Store.local?_push hindex, if_pos ⟨rfl, rfl⟩]
      have hfound := hdevelops.found _ _ _ hplace
      obtain rfl : rule = ⟨id, store.rules id⟩ := Option.some.inj (hrule.symm.trans hfound)
      have hpushed : (localRule id other.name store).2.catalog.slot? ⟨id, store.rules id⟩ =
          some ⟨other.name, none, none⟩ := by
        rw [hpush, Store.slot?_push hindex, if_pos rfl]
      obtain ⟨slot', hslot', hname, -, -⟩ := hdevelops.slot _ _ hpushed
      obtain rfl : slot' = slot := Option.some.inj (hslot'.symm.trans hslot)
      exact hname
    · refine hspelled other hother ?_ rule slot hrule hslot
      rwa [local?_localRule_of_ne (Or.inr (hne other hother))]

/-- What productions are bound to is there in the end, since no two have one name. -/
theorem develops_bindAll {productions : List Production} {parsers : List Parser}
    (hbatch : Production.Batch productions) (hlength : parsers.length = productions.length)
    (hinterned : store.catalog.Interned) (hindex : id.index < store.catalog.grammars.size)
    (hlocal : ∀ production ∈ productions, ∃ rule,
      store.catalog.local? id production.name = some rule) :
    let after := (bindParsers id productions parsers store).2
    store.catalog.Develops id (fun _ => False) (store.catalog.Defines id productions)
        after.catalog ∧
      List.Forall₂ (fun production parser => ∃ rule slot,
        store.catalog.local? id production.name = some rule ∧
          after.catalog.slot? rule = some slot ∧ slot.definition = some parser)
        productions parsers := by
  induction productions generalizing parsers store with
  | nil =>
    obtain rfl := List.length_eq_zero_iff.1 hlength
    exact ⟨.refl .., .nil⟩
  | cons production rest ih =>
    obtain _ | ⟨parser, others⟩ := parsers
    · cases hlength
    obtain ⟨hne, -⟩ := List.pairwise_cons.1 hbatch.distinct
    obtain ⟨target, htarget⟩ := hlocal production List.mem_cons_self
    obtain ⟨rfl, slot, hslot, -⟩ := hinterned.local?_eq_some_iff.1 htarget
    have hfirst : (bindOne target.grammar production parser store).2 =
        (setDefinition target parser store).2 := by
      rw [bindOne, hbatch.plain production List.mem_cons_self, if_neg Bool.false_ne_true]
      simp only [define, bind_apply, Store.localRule_eq_of_local htarget, pure_apply]
    have hdevelops : store.catalog.Develops target.grammar (fun _ => False)
        (store.catalog.Defines target.grammar (production :: rest))
        (setDefinition target parser store).2.catalog :=
      develops_setDefinition ⟨production, List.mem_cons_self, htarget⟩ parser
    obtain ⟨hrest, hall⟩ := ih hbatch.tail (Nat.succ.inj hlength)
      (lasting_setDefinition target parser _ Store.Interned.durable store hinterned)
      (hdevelops.size ▸ hindex) fun other hother =>
        (hlocal other (List.mem_cons_of_mem _ hother)).imp fun rule hrule =>
          hdevelops.found _ _ _ hrule
    have hback {other : Production} {rule : RuleId}
        (hrule : (setDefinition target parser store).2.catalog.local? target.grammar other.name =
          some rule) : store.catalog.local? target.grammar other.name = some rule :=
      (hdevelops.added _ _ _ hrule).resolve_right fun h => h.2
    have hrun : (bindParsers target.grammar (production :: rest) (parser :: others) store).2 =
        (bindParsers target.grammar rest others (setDefinition target parser store).2).2 := by
      rw [← hfirst]
      simp only [bindParsers, List.zip_cons_cons, List.mapM_cons, bind_apply, pure_apply]
    rw [hrun]
    refine ⟨hdevelops.trans (hrest.mono (fun _ h => h) ?_), .cons ?_ (hall.imp ?_)⟩
    · rintro rule ⟨other, hother, hrule⟩
      exact ⟨other, List.mem_cons_of_mem _ hother, hback hrule⟩
    · -- the names of the rest differ from the first, so that its rule stays as it is
      have hset := Store.definition?_setDefinition hindex hslot parser
      obtain ⟨slot', hslot', hdefinition⟩ := Option.bind_eq_some_iff.1 hset
      obtain ⟨slot'', hslot'', -, -, hkept⟩ := hrest.slot target slot' hslot'
      refine ⟨target, slot'', htarget, hslot'', (hkept ?_).trans hdefinition⟩
      rintro ⟨other, hother, hrule⟩
      obtain ⟨-, other', hother', hname⟩ := hinterned.local?_eq_some_iff.1 (hback hrule)
      obtain ⟨-, slot₀, hslot₀, hname₀⟩ := hinterned.local?_eq_some_iff.1 htarget
      obtain rfl : slot₀ = other' := Option.some.inj (hslot₀.symm.trans hother')
      exact hne other hother (hname₀.symm.trans hname)
    · rintro other parser' ⟨rule, slot', hrule, hslot', hdefinition⟩
      exact ⟨rule, slot', hback hrule, hslot', hdefinition⟩

theorem exists_of_forall₂ {α β : Type} {R : α → β → Prop} {as : List α} {bs : List β}
    (h : List.Forall₂ R as bs) {a : α} (ha : a ∈ as) : ∃ b, R a b := by
  obtain ⟨i, hi, rfl⟩ := List.getElem_of_mem ha
  exact ⟨_, h.get hi (h.length_eq ▸ hi)⟩

/-- What binding a batch leaves. -/
theorem binds_bind {productions : List Production} (hbatch : Production.Batch productions)
    (hinterned : store.catalog.Interned) (hindex : id.index < store.catalog.grammars.size) :
    store.catalog.Binds id productions (Edit.bind id productions store).2.catalog ∧
      store.catalog.SpelledAs id productions (Edit.bind id productions store).2.catalog := by
  set after := (Edit.bind id productions store).2 with hafter
  obtain ⟨hnames, hspelled⟩ : store.catalog.Develops id (store.catalog.Wants id productions)
      (after.catalog.Defines id productions) _ ∧ store.catalog.SpelledAs id productions _ :=
    develops_forM_localRule hbatch.distinct (fun production hproduction _ hspelling =>
      Or.inl ⟨production, hproduction, hspelling⟩) hindex
  have hplaces := forM_localRule_found productions hindex
  have hnamed : Catalog.Interned ((productions.forM fun production =>
    discard <| localRule id production.name : Edit Unit) store).2.catalog :=
      interned_forM_localRule productions hinterned
  simp only [Edit.bind, bind_apply, get_apply] at hafter
  generalize ((productions.forM fun production =>
    discard <| localRule id production.name : Edit Unit) store).2 = named at *
  have hoptions := hnames.options id
  obtain ⟨hgrows, -, hdescribes⟩ := assembleAll_describes (named.catalog.grammar id).options
    (productions.map (·.body)) (.refl id named) (hnames.size ▸ hindex)
  have hassembled : Catalog.Interned _ := lasting_assembleAll id
    (named.catalog.grammar id).options (productions.map (·.body)) _ Store.Interned.durable named
    hnamed
  have hmention : ∀ called ∈ Expression.namesAll (productions.map (·.body)),
      store.catalog.lookup? id called = none → ∀ spelling, lowerText called = lowerText spelling →
        store.catalog.Wants id productions spelling := by
    intro called hcalled hnone spelling hspelling
    obtain ⟨body, hbody, hcalled⟩ := Expression.mem_namesAll.1 hcalled
    obtain ⟨production, hproduction, rfl⟩ := List.mem_map.1 hbody
    refine Or.inr ⟨⟨production, hproduction, called, hcalled, hspelling⟩, ?_⟩
    rwa [Catalog.lookup?_congr rfl fun other => Catalog.local?_congr hspelling.symm other]
  have hbodies := develops_assembleAll (named.catalog.grammar id).options hindex
    (productions.map (·.body)) hmention hnames
  generalize assembleAll id (named.catalog.grammar id).options (productions.map (·.body)) named =
    assembled at *
  obtain ⟨parsers, assembled⟩ := assembled
  have hbuilds := (hdescribes.builds hnamed hassembled).forall₂
  rw [List.forall₂_map_left_iff] at hbuilds
  -- The bodies were assembled when all names had their places, so that they refer to the rules
  -- that are bound now.
  obtain ⟨hdefined, hall⟩ := develops_bindAll hbatch hbuilds.length_eq.symm hassembled
    (hbodies.size ▸ hindex) fun production hproduction =>
      (hplaces production hproduction).imp fun rule hrule => hgrows.retains.found _ _ hrule
  rw [bindParsers, ← hafter] at hdefined hall
  have hdevelops := hbodies.trans (hdefined.mono (fun _ h => h.elim) (by
    rintro rule ⟨production, hproduction, hrule⟩
    exact ⟨production, hproduction, hdefined.found _ _ _ hrule⟩))
  refine ⟨{ hdevelops with built := fun production hproduction => ?_ },
    fun production hproduction hnew rule slot hrule hslot => ?_⟩
  · obtain ⟨parser, hbody, rule, slot, hrule, hslot, hdefinition⟩ :=
      exists_of_forall₂ (hbuilds.mp (fun _ _ h h' => And.intro h h') hall) hproduction
    refine ⟨rule, slot, parser, hdefined.found _ _ _ hrule, hslot, hdefinition, ?_⟩
    rw [hoptions] at hbody
    exact hbody.keep hdefined.mode _ fun called _ target htarget =>
      hdefined.lookup? htarget fun h => h.elim
  · obtain ⟨place, hplace⟩ := hplaces production hproduction
    have hassembledPlace := hgrows.retains.found _ _ hplace
    obtain rfl : place = rule :=
      Option.some.inj ((hdefined.found _ _ _ hassembledPlace).symm.trans hrule)
    obtain ⟨-, slot', hslot', -⟩ := hnamed.local?_eq_some_iff.1 hplace
    obtain ⟨slot'', hslot'', hname, -⟩ :=
      hdefined.slot place slot' (hgrows.retains.slot place (Set.notMem_empty _) slot' hslot')
    obtain rfl : slot'' = slot := Option.some.inj (hslot''.symm.trans hslot)
    rw [hname]
    exact hspelled production hproduction hnew place slot' hplace hslot'

end Edit

namespace Catalog

variable {id : GrammarId} {productions : List Production} {c c' c'' : Catalog}

def Unshadowed (id : GrammarId) (productions : List Production) (c : Catalog) : Prop :=
  ∀ production ∈ productions, ∀ base ∈ (c.grammar id).bases, c.local? base production.name = none

/-- A name that means a rule of a base goes on to do so when productions are bound that define
no name of a base. -/
theorem Binds.lookup? (h : c.Binds id productions c') (hbase : c.Unshadowed id productions)
    {name : String} {rule : RuleId} (hrule : c.lookup? id name = some rule) :
    c'.lookup? id name = some rule := by
  refine h.toDevelops.lookup? hrule fun hwanted => ?_
  obtain ⟨production, hproduction, hname⟩ | ⟨-, hnone⟩ := hwanted
  · refine Option.isSome_iff_ne_none.2 fun hlocal => ?_
    rw [lookup?_of_local_none hlocal] at hrule
    obtain ⟨base, hmem, hfound⟩ := List.exists_of_findSome?_eq_some hrule
    rw [← local?_congr hname, hbase production hproduction base hmem] at hfound
    cases hfound
  · rw [hnone] at hrule
    cases hrule

/-- Nothing is lost by binding one production before the others. -/
theorem Binds.cons {production : Production} (hbatch : Production.Batch (production :: productions))
    (hid : id ∉ (c.grammar id).bases) (hbase : c.Unshadowed id productions)
    (hinterned : c''.Interned) (h : c.Binds id [production] c')
    (h' : c'.Binds id productions c'') : c.Binds id (production :: productions) c'' := by
  have hne := (List.pairwise_cons.1 hbatch.distinct).1
  have hbase' : c'.Unshadowed id productions := by
    intro other hother base hmem
    rw [h.bases] at hmem
    exact h.local?_eq_none (hbase other hother base hmem) fun hbase => absurd (hbase ▸ hmem) hid
  have hfirst : c.Develops id (c.Wants id (production :: productions))
      (c''.Defines id (production :: productions)) c' := by
    refine h.toDevelops.mono ?_ ?_
    · rintro name (⟨other, hother, hname⟩ | ⟨⟨other, hother, called, hcalled, hname⟩, hnone⟩)
      · exact Or.inl ⟨other, List.mem_cons.2 (Or.inl (List.mem_singleton.1 hother)), hname⟩
      · exact Or.inr ⟨⟨other, List.mem_cons.2 (Or.inl (List.mem_singleton.1 hother)), called,
          hcalled, hname⟩, hnone⟩
    · rintro rule ⟨other, hother, hrule⟩
      exact ⟨other, List.mem_cons.2 (Or.inl (List.mem_singleton.1 hother)),
        h'.found _ _ _ hrule⟩
  have hrest : c'.Develops id (c.Wants id (production :: productions))
      (c''.Defines id (production :: productions)) c'' := by
    refine h'.toDevelops.mono ?_ ?_
    · rintro name (⟨other, hother, hname⟩ | ⟨⟨other, hother, called, hcalled, hname⟩, hnone⟩)
      · exact Or.inl ⟨other, List.mem_cons_of_mem _ hother, hname⟩
      · refine Or.inr ⟨⟨other, List.mem_cons_of_mem _ hother, called, hcalled, hname⟩, ?_⟩
        refine Option.not_isSome_iff_eq_none.1 fun hsome => ?_
        have hstill := h.lookup?_isSome hsome
        rw [hnone] at hstill
        cases hstill
    · rintro rule ⟨other, hother, hrule⟩
      exact ⟨other, List.mem_cons_of_mem _ hother, hrule⟩
  refine { hfirst.trans hrest with built := fun other hother => ?_ }
  rcases List.mem_cons.1 hother with rfl | hother
  · obtain ⟨rule, slot, parser, hrule, hslot, hdefinition, hbuilds⟩ :=
      h.built other (List.mem_singleton_self other)
    obtain ⟨slot', hslot', -, -, hkept⟩ := h'.slot rule slot hslot
    have hfound := h'.found _ _ _ hrule
    refine ⟨rule, slot', parser, hfound, hslot', (hkept ?_).trans hdefinition, ?_⟩
    · -- no other production defines the rule again
      rintro ⟨later, hlater, hagain⟩
      obtain ⟨-, slot₁, hslot₁, hname₁⟩ := hinterned.local?_eq_some_iff.1 hfound
      obtain ⟨-, slot₂, hslot₂, hname₂⟩ := hinterned.local?_eq_some_iff.1 hagain
      obtain rfl : slot₁ = slot₂ := Option.some.inj (hslot₁.symm.trans hslot₂)
      exact hne later hlater (hname₁.symm.trans hname₂)
    · exact hbuilds.keep h'.mode _ fun called _ target htarget => h'.lookup? hbase' htarget
  · obtain ⟨rule, slot, parser, hrule, hslot, hdefinition, hbuilds⟩ := h'.built other hother
    rw [h.options] at hbuilds
    exact ⟨rule, slot, parser, hrule, hslot, hdefinition, hbuilds⟩

/-- What productions leave depends on which they are, and not on their order. -/
theorem Binds.of_mem {productions' : List Production} (h : c.Binds id productions c')
    (hmem : ∀ production, production ∈ productions ↔ production ∈ productions') :
    c.Binds id productions' c' := by
  have hwants (name : String) (hname : c.Wants id productions name) :
      c.Wants id productions' name := by
    simpa only [Wants, Production.Among, Production.Mention, hmem] using hname
  have hdefines (rule : RuleId) (hrule : c'.Defines id productions rule) :
      c'.Defines id productions' rule := by
    simpa only [Defines, hmem] using hrule
  exact { h.toDevelops.mono hwants hdefines with
    built := fun production hproduction => h.built production ((hmem production).2 hproduction) }

/-- A grammar has rules for the names that it had rules for and for those that are wanted. -/
theorem Binds.exists_local (h : c.Binds id productions c') {name : String}
    (hname : c.Wants id productions name) : ∃ rule, c'.local? id name = some rule := by
  obtain ⟨production, hproduction, hname⟩ |
    ⟨⟨production, hproduction, called, hcalled, hname⟩, hnone⟩ := hname
  · obtain ⟨rule, -, -, hrule, -⟩ := h.built production hproduction
    exact ⟨rule, (local?_congr hname id).symm.trans hrule⟩
  · obtain ⟨-, -, parser, -, -, -, hbuilds⟩ := h.built production hproduction
    have hsome := hbuilds.lookup?_isSome _ called hcalled
    cases hlocal : c'.local? id called with
    | some rule => exact ⟨rule, (local?_congr hname id).symm.trans hlocal⟩
    | none =>
      -- a base has no rule of the name either
      have hcalled : c.lookup? id called = none := by
        rwa [lookup?_congr rfl fun other => local?_congr hname.symm other] at hnone
      rw [lookup?_of_local_none hlocal, h.lookup?_bases hlocal,
        ← lookup?_of_local_none (local?_eq_none_of_lookup? hcalled), hcalled] at hsome
      cases hsome

structure Complete (c : Catalog) : Prop where
  referred : ∀ rule slot, c.slot? rule = some slot → ∀ ref ∈ slot.references,
    (c.slot? ref.target).isSome
  mode_lt : ∀ rule slot definition, c.slot? rule = some slot → slot.definition = some definition →
    ∀ mode branches, .alternation mode branches ∈ definition.walk → mode.index < c.modes.size

structure Siblings (id : GrammarId) (productions : List Production) (c c₁ c₂ : Catalog) :
    Prop where
  interned : c.Interned
  binds₁ : c.Binds id productions c₁
  binds₂ : c.Binds id productions c₂
  interned₁ : c₁.Interned
  interned₂ : c₂.Interned

namespace Siblings

variable {c₁ c₂ : Catalog} (h : Siblings id productions c c₁ c₂)

theorem symm (h : Siblings id productions c c₁ c₂) : Siblings id productions c c₂ c₁ :=
  ⟨h.interned, h.binds₂, h.binds₁, h.interned₂, h.interned₁⟩

include h

theorem exists_local {other : GrammarId} {name : String} {rule : RuleId}
    (hrule : c₁.local? other name = some rule) : ∃ rule', c₂.local? other name = some rule' := by
  obtain hold | ⟨rfl, hwants⟩ := h.binds₁.added _ _ _ hrule
  · exact ⟨rule, h.binds₂.found _ _ _ hold⟩
  · exact h.binds₂.exists_local hwants

theorem exists_twin {rule : RuleId} {slot : Slot} (hslot : c₁.slot? rule = some slot) :
    ∃ rule', c₁.Twins c₂ rule rule' := by
  obtain ⟨rule', hrule'⟩ := h.exists_local (h.interned₁.local?_of_slot hslot)
  obtain ⟨hgrammar, slot', hslot', hname⟩ := h.interned₂.local?_eq_some_iff.1 hrule'
  exact ⟨rule', hgrammar.symm, slot, slot', hslot, hslot', hname.symm⟩

/-- A name means rules of one name in both. -/
theorem twins_of_lookup {name : String} {rule rule' : RuleId}
    (hrule : c₁.lookup? id name = some rule) (hrule' : c₂.lookup? id name = some rule') :
    c₁.Twins c₂ rule rule' := by
  obtain ⟨slot, hslot, hname⟩ := h.interned₁.slot_of_lookup hrule
  obtain ⟨slot', hslot', hname'⟩ := h.interned₂.slot_of_lookup hrule'
  refine ⟨?_, slot, slot', hslot, hslot', hname.trans hname'.symm⟩
  cases hlocal : c₁.local? id name with
  | some own =>
    obtain ⟨own', hlocal'⟩ := h.exists_local hlocal
    obtain rfl := Option.some.inj (hrule.symm.trans (lookup?_of_local hlocal))
    obtain rfl := Option.some.inj (hrule'.symm.trans (lookup?_of_local hlocal'))
    rw [(h.interned₁.local?_eq_some_iff.1 hlocal).1, (h.interned₂.local?_eq_some_iff.1 hlocal').1]
  | none =>
    have hlocal' : c₂.local? id name = none := by
      refine Option.eq_none_iff_forall_not_mem.2 fun own hown => ?_
      obtain ⟨own', hown'⟩ := h.symm.exists_local hown
      rw [hlocal] at hown'
      cases hown'
    rw [lookup?_of_local_none hlocal, h.binds₁.lookup?_bases hlocal] at hrule
    rw [lookup?_of_local_none hlocal', h.binds₂.lookup?_bases hlocal'] at hrule'
    rw [Option.some.inj (hrule.symm.trans hrule')]

theorem defines_twin {rule rule' : RuleId} (htwins : c₁.Twins c₂ rule rule')
    (hrule : c₁.Defines id productions rule) : ∃ production ∈ productions,
      c₁.local? id production.name = some rule ∧ c₂.local? id production.name = some rule' := by
  obtain ⟨production, hproduction, hlocal⟩ := hrule
  obtain ⟨hgrammar, slot, slot', hslot, hslot', hname⟩ := htwins
  obtain ⟨hid, slot₁, hslot₁, hname₁⟩ := h.interned₁.local?_eq_some_iff.1 hlocal
  obtain rfl : slot₁ = slot := Option.some.inj (hslot₁.symm.trans hslot)
  exact ⟨production, hproduction, hlocal, h.interned₂.local?_eq_some_iff.2
    ⟨hgrammar.symm.trans hid, slot', hslot', hname.symm.trans hname₁⟩⟩

theorem twins_cases {rule rule' : RuleId} (htwins : c₁.Twins c₂ rule rule') :
    (rule = rule' ∧ ∃ slot, c.slot? rule = some slot) ∨
      c.slot? rule = none ∧ c.slot? rule' = none :=
  Develops.twins_cases h.interned h.binds₁.toDevelops
    (h.binds₂.toDevelops.mono (fun _ h => h) fun _ h => h) h.interned₁ h.interned₂ htwins

theorem twinRefs_self {ref : RuleRef} (href : (c.slot? ref.target).isSome) :
    c₁.TwinRefs c₂ ref ref := by
  obtain ⟨slot, hslot⟩ := Option.isSome_iff_exists.1 href
  obtain ⟨slot₁, hslot₁, hname₁, -⟩ := h.binds₁.slot _ _ hslot
  obtain ⟨slot₂, hslot₂, hname₂, -⟩ := h.binds₂.slot _ _ hslot
  exact ⟨rfl, rfl, slot₁, slot₂, hslot₁, hslot₂, by rw [hname₁, hname₂]⟩

/-- A definition that there was is the same in both. -/
theorem like_self (hcomplete : c.Complete) {rule : RuleId} {slot : Slot}
    (hslot : c.slot? rule = some slot) {definition : Parser}
    (hdefinition : slot.definition = some definition) :
    definition.Like (c₁.SameMode c₂) (c₁.TwinRefs c₂) definition := by
  refine definition.like_self (fun mode branches hmode => ?_) fun ref href => ?_
  · have hlt := hcomplete.mode_lt rule slot definition hslot hdefinition mode branches hmode
    have hmode := Array.getElem?_eq_getElem hlt
    exact (Expression.firstMatch_of_getElem? (h.binds₁.mode mode _ hmode)).trans
      (Expression.firstMatch_of_getElem? (h.binds₂.mode mode _ hmode)).symm
  · exact h.twinRefs_self (hcomplete.referred rule slot hslot ref
      (Slot.mem_references.2 (Or.inl ⟨definition, hdefinition, Parser.mem_references.2 href⟩)))

/-- Rules of one name have one definition. -/
theorem definition_twin (hcomplete : c.Complete) {rule rule' : RuleId} {slot slot' : Slot}
    (htwins : c₁.Twins c₂ rule rule') (hslot : c₁.slot? rule = some slot)
    (hslot' : c₂.slot? rule' = some slot') :
    Option.Rel (Parser.Like (c₁.SameMode c₂) (c₁.TwinRefs c₂)) slot.definition
      slot'.definition := by
  by_cases hdefines : c₁.Defines id productions rule
  · obtain ⟨production, hproduction, hlocal, hlocal'⟩ := h.defines_twin htwins hdefines
    obtain ⟨own, slot₁, parser, hown, hslot₁, hdefinition, hbuilds⟩ :=
      h.binds₁.built production hproduction
    obtain ⟨own', slot₂, parser', hown', hslot₂, hdefinition', hbuilds'⟩ :=
      h.binds₂.built production hproduction
    obtain rfl := Option.some.inj (hown.symm.trans hlocal)
    obtain rfl := Option.some.inj (hown'.symm.trans hlocal')
    obtain rfl := Option.some.inj (hslot₁.symm.trans hslot)
    obtain rfl := Option.some.inj (hslot₂.symm.trans hslot')
    rw [hdefinition, hdefinition']
    exact .some (hbuilds.like (fun _ _ _ => h.twins_of_lookup) _ hbuilds')
  · have hdefines' : ¬ c₂.Defines id productions rule' := by
      intro hdefines'
      obtain ⟨production, hproduction, -, hlocal⟩ := h.symm.defines_twin htwins.symm hdefines'
      exact hdefines ⟨production, hproduction, hlocal⟩
    obtain ⟨rfl, old, hold⟩ | ⟨hnew, hnew'⟩ := h.twins_cases htwins
    · obtain ⟨slot₁, hslot₁, -, -, hkept⟩ := h.binds₁.slot _ _ hold
      obtain ⟨slot₂, hslot₂, -, -, hkept'⟩ := h.binds₂.slot _ _ hold
      obtain rfl := Option.some.inj (hslot₁.symm.trans hslot)
      obtain rfl := Option.some.inj (hslot₂.symm.trans hslot')
      rw [hkept hdefines, hkept' hdefines']
      cases hdefinition : old.definition with
      | none => exact .none
      | some definition => exact .some (h.like_self hcomplete hold hdefinition)
    · rw [(h.binds₁.fresh _ _ hnew hslot).2 hdefines, (h.binds₂.fresh _ _ hnew' hslot').2 hdefines']
      exact .none

/-- Rules of one name exclude the same. -/
theorem exclusion_twin (hcomplete : c.Complete) {rule rule' : RuleId} {slot slot' : Slot}
    (htwins : c₁.Twins c₂ rule rule') (hslot : c₁.slot? rule = some slot)
    (hslot' : c₂.slot? rule' = some slot') :
    Option.Rel (c₁.TwinRefs c₂) slot.exclusion slot'.exclusion := by
  obtain ⟨rfl, old, hold⟩ | ⟨hnew, hnew'⟩ := h.twins_cases htwins
  · obtain ⟨slot₁, hslot₁, -, hexclusion, -⟩ := h.binds₁.slot _ _ hold
    obtain ⟨slot₂, hslot₂, -, hexclusion', -⟩ := h.binds₂.slot _ _ hold
    obtain rfl := Option.some.inj (hslot₁.symm.trans hslot)
    obtain rfl := Option.some.inj (hslot₂.symm.trans hslot')
    rw [hexclusion, hexclusion']
    cases hexcluded : old.exclusion with
    | none => exact .none
    | some excluded =>
      exact .some (h.twinRefs_self
        (hcomplete.referred rule old hold excluded (Slot.mem_references.2 (Or.inr hexcluded))))
  · rw [(h.binds₁.fresh _ _ hnew hslot).1, (h.binds₂.fresh _ _ hnew' hslot').1]
    exact .none

theorem defines_of_bound {rule : RuleId} {slot : Slot} (hnew : c.slot? rule = none)
    (hslot : c₁.slot? rule = some slot) (hbound : slot.definition.isSome) :
    c₁.Defines id productions rule := by
  by_contra hdefines
  rw [(h.binds₁.fresh _ _ hnew hslot).2 hdefines] at hbound
  cases hbound

/-- What has come from one catalog by the same productions is alike, in any spelling in which the
names of new rules agree. -/
theorem renames (hcomplete : c.Complete) {spell : String → String}
    (hspell : ∀ production ∈ productions, c.local? id production.name = none →
      ∀ rule rule' slot slot', c₁.local? id production.name = some rule →
        c₂.local? id production.name = some rule' → c₁.slot? rule = some slot →
          c₂.slot? rule' = some slot' → spell slot.name = spell slot'.name) :
    c₁.Renames spell c₂ where
  alive other := by rw [alive, alive, h.binds₁.lost, h.binds₂.lost]
  definition _ _ _ _ := h.definition_twin hcomplete
  exclusion _ _ _ _ := h.exclusion_twin hcomplete
  spelled rule rule' slot slot' htwins hslot hslot' hbound := by
    obtain ⟨rfl, old, hold⟩ | ⟨hnew, -⟩ := h.twins_cases htwins
    · obtain ⟨slot₁, hslot₁, hname, -⟩ := h.binds₁.slot _ _ hold
      obtain ⟨slot₂, hslot₂, hname', -⟩ := h.binds₂.slot _ _ hold
      obtain rfl := Option.some.inj (hslot₁.symm.trans hslot)
      obtain rfl := Option.some.inj (hslot₂.symm.trans hslot')
      rw [hname, hname']
    · obtain ⟨production, hproduction, hlocal, hlocal'⟩ :=
        h.defines_twin htwins (h.defines_of_bound hnew hslot hbound)
      refine hspell production hproduction ?_ rule rule' slot slot' hlocal hlocal' hslot hslot'
      refine Option.eq_none_iff_forall_not_mem.2 fun old hold => ?_
      obtain rfl := Option.some.inj ((h.binds₁.found _ _ _ hold).symm.trans hlocal)
      obtain ⟨-, slot₀, hslot₀, -⟩ := h.interned.local?_eq_some_iff.1 hold
      rw [hnew] at hslot₀
      cases hslot₀

/-- No fewer rules have definitions in the one than in the other, since no two have one name. -/
theorem ruleCount_le (hcomplete : c.Complete) : c₁.ruleCount ≤ c₂.ruleCount := by
  apply Catalog.ruleCount_le (c₁.Twins c₂)
  · intro rule hrule
    obtain ⟨definition, hdefinition⟩ := Option.isSome_iff_exists.1 hrule
    obtain ⟨slot, hslot, hdefinition⟩ := Option.bind_eq_some_iff.1 hdefinition
    obtain ⟨rule', htwins⟩ := h.exists_twin hslot
    obtain ⟨-, slot', -, hslot', -⟩ := htwins.slots
    have hsame := h.definition_twin hcomplete htwins hslot hslot'
    refine ⟨rule', ?_, htwins⟩
    rw [definition?, hslot', Option.bind_some]
    cases hdefinition' : slot'.definition with
    | none =>
      rw [hdefinition, hdefinition'] at hsame
      cases hsame
    | some definition' => rfl
  · rintro rule other rule' ⟨hgrammar, slot, slot', hslot, hslot', hname⟩
      ⟨hgrammar', slot₁, slot₁', hslot₁, hslot₁', hname'⟩
    obtain rfl := Option.some.inj (hslot'.symm.trans hslot₁')
    obtain ⟨grammar, place⟩ := rule
    obtain ⟨grammar', place'⟩ := other
    obtain rfl : grammar = grammar' := hgrammar.trans hgrammar'.symm
    exact congrArg (RuleId.mk grammar)
      ((h.interned₁ grammar).place_eq hslot hslot₁ (hname.trans hname'.symm))

theorem ruleCount_eq (hcomplete : c.Complete) : c₁.ruleCount = c₂.ruleCount :=
  le_antisymm (h.ruleCount_le hcomplete) (h.symm.ruleCount_le hcomplete)

end Siblings

end Catalog

end Metasyntax
