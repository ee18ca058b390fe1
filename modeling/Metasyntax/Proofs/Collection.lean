import Metasyntax.Store
import Metasyntax.Proofs.Edits

/-!
# Grammars that come and go

A new grammar is without rules, so nothing that is used changes. What is lost in a
collection is used no longer: whatever a grammar that is left is based on is left as well,
and so are the caches of its definitions and of the parsers held from outside.
-/

set_option autoImplicit false

namespace Metasyntax

theorem grammar_newGrammar (name : String) (base : Option GrammarId) (options : Options)
    (store : Store) (id : GrammarId) :
    (Edit.newGrammar name base options store).2.catalog.grammar id =
      if id.index = store.catalog.grammars.size then
        .empty name (base.elim [] fun base => base :: (store.catalog.grammar base).bases) options
      else store.catalog.grammar id := by
  obtain ⟨i⟩ := id
  have hpush : (Edit.newGrammar name base options store).2.catalog.grammar ⟨i⟩ =
      ((store.catalog.grammars.push (.empty name
        (base.elim [] fun base => base :: (store.catalog.grammar base).bases) options))[i]?).getD
          default := by
    cases base <;> rfl
  rw [hpush, Array.getElem?_push]
  split <;> rfl

theorem slot?_newGrammar (name : String) (base : Option GrammarId) (options : Options)
    (store : Store) (rule : RuleId) :
    (Edit.newGrammar name base options store).2.catalog.slot? rule = store.catalog.slot? rule := by
  rw [Catalog.slot?, Catalog.slot?, grammar_newGrammar]
  split
  case isTrue h =>
    rw [grammar_eq_default (Nat.le_of_eq h.symm)]
    rfl
  case isFalse => rfl

theorem bound_newGrammar (name : String) (base : Option GrammarId) (options : Options)
    (store : Store) (rule : RuleId) :
    (Edit.newGrammar name base options store).2.catalog.bound rule = store.catalog.bound rule := by
  rw [Catalog.bound, Catalog.bound, Catalog.nameOf, Catalog.nameOf, slot?_newGrammar]

theorem Edit.newGrammar_fst (name : String) (base : Option GrammarId) (options : Options)
    (store : Store) :
    (Edit.newGrammar name base options store).1 = ⟨store.catalog.grammars.size⟩ := by
  cases base <;> rfl

theorem agrees_newGrammar (grammars : Set GrammarId) (name : String) (base : Option GrammarId)
    (options : Options) (store : Store) : Catalog.Agrees grammars store.catalog
      (Edit.newGrammar name base options store).2.catalog where
  lost _ h := h
  alive _ _ h := h
  bound rule _ slot definition := by rw [bound_newGrammar]
  name rule _ slot hslot := ⟨slot, by rw [slot?_newGrammar, hslot], rfl⟩
  found id _ name' rule h := by
    rw [Catalog.local?] at h ⊢
    rw [grammar_newGrammar]
    split
    case isTrue hindex =>
      rw [grammar_eq_default (Nat.le_of_eq hindex.symm)] at h
      exact h
    case isFalse => exact h
  mode _ _ _ := rfl

section
variable {held : Set Parser} {store : Store}

theorem Sane.newGrammar (h : Sane held store) (name : String) {base : Option GrammarId}
    (hbase : ∀ id, base = some id → id ∈ store.living ∧ id.index < store.catalog.grammars.size)
    (options : Options) : Sane held (Edit.newGrammar name base options store).2 := by
  have hgrammar := grammar_newGrammar name base options store
  have hbound := bound_newGrammar name base options store
  have hnodes : ∀ grammars,
      ((Edit.newGrammar name base options store).2.catalog.within grammars).nodes =
        (store.catalog.within grammars).nodes := by
    intro grammars
    simp only [Catalog.within, hbound]
  have hused : ∀ grammars, (Edit.newGrammar name base options store).2.used grammars held =
      store.used grammars held := by
    intro grammars
    rw [Store.used, Store.used, hnodes]
  have hnew : default = store.catalog.grammar ⟨store.catalog.grammars.size⟩ :=
    (grammar_eq_default le_rfl).symm
  exact
    { cache_lt := fun node hnode => h.cache_lt node (hused _ ▸ hnode)
      mode_lt := fun mode branches hmode => h.mode_lt mode branches (hused _ ▸ hmode)
      apart := by
        rw [hused]
        exact h.apart
      lost_lt := h.lost_lt
      alive := fun node hnode => h.alive node (hused _ ▸ hnode)
      registered := fun grammar node hnode id hid hlost => by
        rw [hnodes] at hnode
        rw [hgrammar]
        split
        case isTrue hindex =>
          have hempty := h.registered grammar node hnode id hid hlost
          rw [grammar_eq_default (Nat.le_of_eq hindex.symm)] at hempty
          cases hempty
        case isFalse => exact h.registered grammar node hnode id hid hlost
      lineage := fun id base' hbase' => by
        rw [hgrammar] at hbase' ⊢
        split at hbase'
        case isTrue hindex =>
          cases base with
          | none => cases hbase'
          | some base =>
            cases hbase'
            have hlt := (hbase base' rfl).2
            rw [if_pos hindex, hgrammar, if_neg (Nat.ne_of_lt hlt)]
            exact ⟨hindex ▸ hlt, rfl⟩
        case isFalse hindex =>
          obtain ⟨hlt, hbases⟩ := h.lineage id base' hbase'
          have hid : id.index < store.catalog.grammars.size := by
            by_contra hge
            rw [grammar_eq_default (not_lt.1 hge)] at hbase'
            cases hbase'
          rw [if_neg hindex, hgrammar, if_neg (Nat.ne_of_lt (hlt.trans hid))]
          exact ⟨hlt, hbases⟩
      bases_alive := fun id hid base' hbase' => by
        rw [hgrammar] at hbase'
        split at hbase'
        case isTrue =>
          cases base with
          | none => cases hbase'
          | some base =>
            rcases List.mem_cons.1 hbase' with rfl | hbase'
            · exact (hbase _ rfl).1
            · exact h.bases_alive base (hbase base rfl).1 base' hbase'
        case isFalse => exact h.bases_alive id hid base' hbase' }

end

/-- What every step keeps is kept to the end. -/
theorem selfSupporting_induction {α : Type} {P : List α → Prop} {step : List α → List α}
    (hstep : ∀ left, P left → P (step left)) (rounds : Nat) {left : List α} (h : P left) :
    P (selfSupporting step rounds left) := by
  induction rounds generalizing left with
  | zero => exact h
  | succ rounds ih =>
    simp only [selfSupporting]
    split
    · exact h
    · exact ih (hstep left h)

namespace Store

variable {store : Store} {held : Set Parser}

def leftGrammars (store : Store) (roots : Roots) : List GrammarId :=
  let alive := store.grammarIds.filter store.catalog.alive
  selfSupporting (store.keepGrammars roots.grammars) alive.length alive

theorem mem_grammarIds {id : GrammarId} :
    id ∈ store.grammarIds ↔ id.index < store.catalog.grammars.size := by
  obtain ⟨i⟩ := id
  simp [grammarIds]

theorem mem_cacheIds {id : CacheId} : id ∈ store.cacheIds ↔ id.index < store.caches.size := by
  obtain ⟨i⟩ := id
  simp [cacheIds]

theorem mem_alive_filter {id : GrammarId} :
    id ∈ store.grammarIds.filter store.catalog.alive ↔
      id.index < store.catalog.grammars.size ∧ id ∈ store.living := by
  rw [List.mem_filter, mem_grammarIds]
  rfl

theorem mem_living_collect {roots : Roots} {id : GrammarId} :
    id ∈ (store.collect roots).living ↔ id ∈ store.living ∧
      (id.index < store.catalog.grammars.size → id ∈ store.leftGrammars roots) := by
  have hlost : (store.collect roots).catalog.lost = store.catalog.lost ++
      (store.grammarIds.filter store.catalog.alive).filter fun id =>
        !(store.leftGrammars roots).contains id := rfl
  change (!(store.collect roots).catalog.lost.contains id) = true ↔
    (!store.catalog.lost.contains id) = true ∧ _
  rw [hlost]
  by_cases hid : id ∈ store.catalog.lost
  · simp [hid]
  · simp [hid, mem_grammarIds, Catalog.alive, imp_iff_not_or]

theorem mem_leftGrammars_of_mem_roots {roots : Roots} {id : GrammarId} (hroots : id ∈ roots.grammars)
    (hindex : id.index < store.catalog.grammars.size) (hliving : id ∈ store.living) :
    id ∈ store.leftGrammars roots := by
  refine selfSupporting_induction (P := fun left => id ∈ left) ?_ _
    (mem_alive_filter.2 ⟨hindex, hliving⟩)
  intro left hleft
  refine List.mem_filter.2 ⟨hleft, ?_⟩
  rw [List.contains_iff_mem]
  exact List.mem_append_left _ hroots

theorem agrees_collect {roots : Roots} {grammars : Set GrammarId}
    (hroots : ∀ id ∈ grammars, id ∈ roots.grammars) :
    Catalog.Agrees grammars store.catalog (store.collect roots).catalog where
  lost _ h := (mem_living_collect.1 h).1
  alive id hid h := mem_living_collect.2
    ⟨h, fun hindex => mem_leftGrammars_of_mem_roots (hroots id hid) hindex h⟩
  bound _ _ _ _ := Iff.rfl
  name _ _ slot hslot := ⟨slot, hslot, rfl⟩
  found _ _ _ _ h := h
  mode _ _ _ := rfl

/-- What a grammar that is left is based on is left. -/
theorem base_mem_leftGrammars (h : Sane held store) (roots : Roots) {id base : GrammarId}
    (hid : id ∈ store.leftGrammars roots) (hbase : (store.catalog.grammar id).base? = some base) :
    base ∈ store.leftGrammars roots := by
  have hclosed : ∀ id ∈ store.leftGrammars roots, ∀ base,
      (store.catalog.grammar id).base? = some base → base ∈ store.leftGrammars roots := by
    refine selfSupporting_induction (P := fun left => ∀ id ∈ left, ∀ base,
      (store.catalog.grammar id).base? = some base → base ∈ left) ?_ _ ?_
    · intro left hleft id hid base hbase
      obtain ⟨hid, -⟩ := List.mem_filter.1 hid
      refine List.mem_filter.2 ⟨hleft id hid base hbase, ?_⟩
      rw [List.contains_iff_mem]
      refine List.mem_append_right _ (List.mem_flatMap.2 ⟨id, hid, ?_⟩)
      simp [supportedBy, hbase]
    · intro id hid base hbase
      obtain ⟨hlt, hliving⟩ := mem_alive_filter.1 hid
      exact mem_alive_filter.2 ⟨(h.lineage id base hbase).1.trans hlt,
        h.bases_alive id hliving base (List.mem_of_head? hbase)⟩
  exact hclosed id hid base hbase

theorem bases_mem_leftGrammars (h : Sane held store) (roots : Roots) {id : GrammarId}
    (hid : id ∈ store.leftGrammars roots) :
    ∀ base ∈ (store.catalog.grammar id).bases, base ∈ store.leftGrammars roots := by
  obtain ⟨i⟩ := id
  induction i using Nat.strong_induction_on with
  | _ i ih =>
    cases hbase : (store.catalog.grammar ⟨i⟩).base? with
    | none =>
      rw [Grammar.base?, List.head?_eq_none_iff] at hbase
      simp [hbase]
    | some base =>
      obtain ⟨hlt, hbases⟩ := h.lineage _ base hbase
      have hleft := base_mem_leftGrammars h roots hid hbase
      rw [hbases]
      intro other hother
      rcases List.mem_cons.1 hother with rfl | hother
      · exact hleft
      · exact ih base.index hlt hleft other hother

/-- The caches that a collection has to leave are left. -/
theorem not_mem_lostCaches_collect {roots : Roots} {id : CacheId} (hid : id ∉ store.lostCaches)
    (hkept : id ∈ (store.leftGrammars roots).flatMap
        (fun id => definedCaches (store.catalog.grammar id)) ++ roots.parsers.flatMap (·.caches)) :
    id ∉ (store.collect roots).lostCaches := by
  intro hlost
  rcases List.mem_append.1 hlost with hlost | hlost
  · exact hid hlost
  · obtain ⟨hliving, hgone⟩ := List.mem_filter.1 hlost
    rw [Bool.not_eq_true', ← Bool.not_eq_true, List.contains_iff_mem] at hgone
    refine hgone (selfSupporting_induction (P := fun left => id ∈ left) ?_ _ hliving)
    intro left hleft
    refine List.mem_filter.2 ⟨hleft, ?_⟩
    rw [Bool.or_eq_true, Std.HashSet.contains_ofList, List.contains_iff_mem]
    exact Or.inl hkept

end Store

/-- A collection loses nothing that is used by what is held afterwards. -/
theorem Sane.collect {held held' : Set Parser} {store : Store} (h : Sane held store)
    (hheld : held' ⊆ held) {roots : Roots} (hroots : ∀ parser ∈ held', parser ∈ roots.parsers) :
    Sane held' (store.collect roots) := by
  have hsub : ∀ grammars, ∀ node ∈ (store.collect roots).used grammars held',
      node ∈ store.used grammars held := by
    rintro grammars node (⟨parser, hparser, hnode⟩ | hnode)
    · exact Or.inl ⟨parser, hheld hparser, hnode⟩
    · exact Or.inr hnode
  exact
    { cache_lt := fun node hnode => h.cache_lt node (hsub _ node hnode)
      mode_lt := fun mode branches hmode => h.mode_lt mode branches (hsub _ _ hmode)
      apart := fun a ha b hb => h.apart a (hsub _ a ha) b (hsub _ b hb)
      lost_lt := fun id hid => by
        rcases List.mem_append.1 hid with hid | hid
        · exact h.lost_lt id hid
        · exact Store.mem_cacheIds.1 (List.mem_filter.1 (List.mem_filter.1 hid).1).1
      alive := by
        rintro node (⟨parser, hparser, hnode⟩ | ⟨rule, slot, definition, hrule, hbound, hnode⟩) id hid
        · refine Store.not_mem_lostCaches_collect
            (h.alive node (Or.inl ⟨parser, hheld hparser, hnode⟩) id hid) ?_
          exact List.mem_append_right _ (List.mem_flatMap.2 ⟨parser, hroots parser hparser,
            List.mem_filterMap.2 ⟨node, hnode, hid⟩⟩)
        · obtain ⟨hliving, hleft⟩ := Store.mem_living_collect.1 hrule
          have hbound' : store.catalog.bound rule = .ok (slot, definition) := hbound
          obtain ⟨hslot, hdefinition⟩ := Catalog.exists_slot_of_bound hbound'
          have hlt : rule.grammar.index < store.catalog.grammars.size := by
            by_contra hge
            rw [Catalog.slot?, grammar_eq_default (not_lt.1 hge)] at hslot
            cases hslot
          refine Store.not_mem_lostCaches_collect
            (h.alive node (Or.inr ⟨rule, slot, definition, hliving, hbound', hnode⟩) id hid) ?_
          refine List.mem_append_left _ (List.mem_flatMap.2 ⟨rule.grammar, hleft hlt, ?_⟩)
          refine List.mem_flatMap.2 ⟨slot, Array.mem_toList_iff.2 (Array.mem_of_getElem? hslot), ?_⟩
          rw [hdefinition]
          exact List.mem_filterMap.2 ⟨node, hnode, hid⟩
      registered := fun grammar node hnode id hid hlost =>
        h.registered grammar node hnode id hid fun hmem => hlost (List.mem_append_left _ hmem)
      lineage := h.lineage
      bases_alive := fun id hid base hbase => by
        obtain ⟨hliving, hleft⟩ := Store.mem_living_collect.1 hid
        refine Store.mem_living_collect.2 ⟨h.bases_alive id hliving base hbase, fun _ => ?_⟩
        refine Store.bases_mem_leftGrammars h roots (hleft ?_) base hbase
        by_contra hge
        have hbase' : base ∈ (store.catalog.grammar id).bases := hbase
        rw [grammar_eq_default (not_lt.1 hge)] at hbase'
        cases hbase' }

end Metasyntax
