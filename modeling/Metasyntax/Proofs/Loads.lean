import Metasyntax.RuleText
import Metasyntax.Proofs.Composition
import Metasyntax.Proofs.Edits

/-!
# Loads of rule text

What a parse and a quiet edit keep, reading rule text keeps as well, whether it succeeds
or fails. Only when all of the text has been read are rules of the grammar changed, one
after the other.
-/

set_option autoImplicit false

namespace Metasyntax

structure Calm (P : Store → Prop) : Prop where
  quiet : ∀ {store store' : Store}, Quiet store store' → P store → P store'
  parsing : ∀ {α : Type} {run : Catalog → Run α}, (∀ catalog, Respects catalog (run catalog)) →
    ∀ store, P store → P (Edit.parsing run store).2

namespace Edit

theorem run_lift_bind {ε α β : Type} (edit : Edit α) (next : α → ExceptT ε Edit β)
    (store : Store) :
    ((liftM edit >>= next : ExceptT ε Edit β).run store) =
      (next (edit store).1).run (edit store).2 :=
  rfl

theorem run_bind_ok {ε α β : Type} {load : ExceptT ε Edit α} {next : α → ExceptT ε Edit β}
    {store store' : Store} {a : α} (h : load.run store = (.ok a, store')) :
    (load >>= next).run store = (next a).run store' := by
  change (ExceptT.bindCont next (load.run store).1 : Edit _) (load.run store).2 = _
  rw [h]
  rfl

theorem run_bind_error {ε α β : Type} {load : ExceptT ε Edit α} {next : α → ExceptT ε Edit β}
    {store store' : Store} {error : ε} (h : load.run store = (.error error, store')) :
    (load >>= next).run store = (.error error, store') := by
  change (ExceptT.bindCont next (load.run store).1 : Edit _) (load.run store).2 = _
  rw [h]
  rfl

theorem run_bind_congr {ε α β : Type} {load : ExceptT ε Edit α} {next next' : α → ExceptT ε Edit β}
    {store : Store}
    (h : ∀ a, (load.run store).1 = .ok a →
      (next a).run (load.run store).2 = (next' a).run (load.run store).2) :
    (load >>= next).run store = (load >>= next').run store := by
  rcases hload : load.run store with ⟨error | a, after⟩
  · rw [run_bind_error hload, run_bind_error hload]
  · rw [hload] at h
    rw [run_bind_ok hload, run_bind_ok hload]
    exact h a rfl

theorem run_bind_eq_ok {ε α β : Type} {load : ExceptT ε Edit α} {next : α → ExceptT ε Edit β}
    {store after : Store} {b : β} : (load >>= next).run store = (.ok b, after) ↔
      ∃ a between, load.run store = (.ok a, between) ∧ (next a).run between = (.ok b, after) := by
  rcases hload : load.run store with ⟨error | a, between⟩
  · rw [run_bind_error hload]
    constructor
    · exact nofun
    · rintro ⟨_, _, hsame, -⟩
      cases hsame
  · rw [run_bind_ok hload]
    constructor
    · exact fun h => ⟨a, between, rfl, h⟩
    · rintro ⟨_, _, hsame, hnext⟩
      cases hsame
      exact hnext

def givenOf {ε α β : Type} (gives : α → Set β) : Except ε α → Set β
  | .ok a => gives a
  | .error _ => ∅

def Keeps (P : Store → Prop) {α : Type} (edit : Edit α) : Prop :=
  ∀ store, P store → P (edit store).2

namespace Keeps

variable {P : Store → Prop} {ε ε' α β : Type}

theorem pure (a : α) : Keeps P (Pure.pure a : Edit α) := fun _ h => h

theorem bind {edit : Edit α} {next : α → Edit β} (h :
    Keeps P edit) (hnext : ∀ a, Keeps P (next a)) :
    Keeps P (edit >>= next) :=
  fun store hstore => hnext _ _ (h store hstore)

theorem bindWith {edit : Edit α} {next : α → Edit β} {post : α → Prop} (h : Keeps P edit)
    (hpost : ∀ store, P store → post (edit store).1) (hnext : ∀ a, post a → Keeps P (next a)) :
    Keeps P (edit >>= next) :=
  fun store hstore => hnext _ (hpost store hstore) _ (h store hstore)

theorem quiet (hcalm : Calm P) {edit : Edit α} (h : ∀ store, Quiet store (edit store).2) :
    Keeps P edit :=
  fun store hstore => hcalm.quiet (h store) hstore

theorem throw (error : ε) : Keeps P (throwThe ε error : ExceptT ε Edit α).run := fun _ h => h

theorem done (a : α) : Keeps P (Pure.pure a : ExceptT ε Edit α).run := fun _ h => h

theorem andThen {edit : ExceptT ε Edit α} {next : α → ExceptT ε Edit β} (h : Keeps P edit.run)
    (hnext : ∀ a, Keeps P (next a).run) : Keeps P (edit >>= next).run := by
  intro store hstore
  have hfirst := h store hstore
  change P ((ExceptT.bindCont next (edit.run store).1) (edit.run store).2).2
  cases (edit.run store).1 with
  | ok a => exact hnext a _ hfirst
  | error error => exact hfirst

theorem lift {edit : Edit α} (h : Keeps P edit) :
    Keeps P (liftM edit : ExceptT ε Edit α).run :=
  fun store hstore => h store hstore

theorem liftWith {edit : Edit α} {next : α → ExceptT ε Edit β} {post : α → Prop}
    (h : Keeps P edit) (hpost : ∀ store, P store → post (edit store).1)
    (hnext : ∀ a, post a → Keeps P (next a).run) : Keeps P (liftM edit >>= next).run :=
  bindWith h hpost hnext

theorem adapt {edit : ExceptT ε Edit α} (h : Keeps P edit.run) (f : ε → ε') :
    Keeps P (edit.adapt f).run := fun store hstore => h store hstore

end Keeps

namespace Keeps

variable {P : Store → Prop} {ε α β : Type}

theorem tolerant : Tolerant fun {α} (load : ExceptT ε Edit α) => Keeps P load.run where
  done := .done
  throw := .throw
  andThen := .andThen

theorem ofExcept (result : Except ε α) : Keeps P (liftM result : ExceptT ε Edit α).run :=
  tolerant.ofExcept result

theorem mapM {next : α → ExceptT ε Edit β} (h : ∀ a, Keeps P (next a).run) (items : List α) :
    Keeps P (items.mapM next).run :=
  tolerant.mapM h items

end Keeps

def Turns (P Q : Store → Prop) {α : Type} (edit : Edit α) : Prop :=
  ∀ store, P store → P (edit store).2 ∨ Q (edit store).2

namespace Turns

variable {P Q : Store → Prop} {ε α β : Type}

theorem after {edit : ExceptT ε Edit α} {next : α → ExceptT ε Edit β} (h : Keeps P edit.run)
    (hnext : ∀ a, Turns P Q (next a).run) : Turns P Q (edit >>= next).run := by
  intro store hstore
  have hfirst := h store hstore
  change P ((ExceptT.bindCont next (edit.run store).1) (edit.run store).2).2 ∨
    Q ((ExceptT.bindCont next (edit.run store).1) (edit.run store).2).2
  cases (edit.run store).1 with
  | ok a => exact hnext a _ hfirst
  | error error => exact Or.inl hfirst

theorem before {edit : ExceptT ε Edit α} {next : α → ExceptT ε Edit β} (h : Turns P Q edit.run)
    (hnext : ∀ a store, ((next a).run store).2 = store) : Turns P Q (edit >>= next).run := by
  intro store hstore
  have hfirst := h store hstore
  change P ((ExceptT.bindCont next (edit.run store).1) (edit.run store).2).2 ∨
    Q ((ExceptT.bindCont next (edit.run store).1) (edit.run store).2).2
  cases (edit.run store).1 with
  | ok a =>
    change P ((next a).run (edit.run store).2).2 ∨ Q ((next a).run (edit.run store).2).2
    rw [hnext]
    exact hfirst
  | error error => exact hfirst

end Turns

end Edit

open Edit (Keeps Turns givenOf)

def RuleText.entries : List String := ["rulelist", "rule", "rulename"]

def Catalog.Readable (catalog : Catalog) : Prop :=
  ∀ name ∈ RuleText.entries, ∃ rule, catalog.local? .abnf name = some rule

structure Passive (P : Store → Prop) (reader : RuleId → Prop) : Prop where
  rule {name : String} : name ∈ RuleText.entries → Keeps P (Edit.rule .abnf name)
  found {name : String} : name ∈ RuleText.entries → ∀ store, P store →
    reader (Edit.rule .abnf name store).1
  parse {rule : RuleId} (source : Source) (start : Nat) : reader rule →
    Keeps P (Edit.parsing (·.parse rule source start))
  parseAll {rule : RuleId} (source : Source) : reader rule →
    Keeps P (Edit.parsing (·.parseAll rule source))
  clearCaches : Keeps P (Edit.clearCaches .abnf)

theorem Calm.passive {P : Store → Prop} (h : Calm P) : Passive P fun _ => True where
  rule _ := .quiet h fun _ => quiet_rule .abnf _
  found _ _ _ := trivial
  parse source start _ := h.parsing fun catalog => respects_parse catalog _ source start
  parseAll source _ := h.parsing fun catalog => respects_parseAll catalog _ source
  clearCaches := .quiet h fun _ => quiet_clearCaches .abnf

namespace RuleText

variable {P : Store → Prop} {reader : RuleId → Prop}

theorem snd_isRuleName (text : String) (store : Store) : (isRuleName text store).2 =
    (Edit.parsing (·.parseAll (Edit.rule .abnf "rulename" store).1 (.ofString text))
      (Edit.rule .abnf "rulename" store).2).2 := by
  simp only [isRuleName, Edit.bind_apply]
  generalize Edit.parsing _ _ = parsed
  obtain ⟨error | failure | node, after⟩ := parsed <;> rfl

theorem keeps_isRuleName (hpassive : Passive P reader) (text : String) : Keeps P (isRuleName text) := by
  have hentry : "rulename" ∈ entries := by decide
  refine .bindWith (hpassive.rule hentry) (hpassive.found hentry) fun rule hreader => ?_
  refine .bind (hpassive.parseAll _ hreader) fun result => ?_
  split <;> exact .pure _

theorem keeps_readProductions_of (mode : ProseMode) (nodes : List Node)
    (h : ∀ node ∈ nodes, ∀ body ∈ node.proses, Keeps P (isRuleName body)) :
    Keeps P (readProductions mode nodes).run :=
  composed_readProductions Keeps.tolerant mode nodes fun node hnode body hbody =>
    Keeps.lift (h node hnode body hbody)

theorem keeps_readProductions (hpassive : Passive P reader) (mode : ProseMode) (nodes : List Node) :
    Keeps P (readProductions mode nodes).run :=
  keeps_readProductions_of mode nodes fun _ _ _ _ => keeps_isRuleName hpassive _

theorem keeps_parseText (hpassive : Passive P reader) {α : Type} {name : String}
    (hname : name ∈ entries) {parse : Catalog → RuleId → Run (Except ParseError α)}
    (hparse : ∀ rule, reader rule → Keeps P (Edit.parsing (parse · rule))) :
    Keeps P (parseText name parse).run := by
  refine .liftWith (hpassive.rule hname) (hpassive.found hname) fun rule hreader => ?_
  refine .andThen (.lift (hparse rule hreader)) fun result => ?_
  refine .andThen (.lift hpassive.clearCaches) fun _ => ?_
  split
  · exact .done _
  · exact .throw _
  · exact .throw _

theorem keeps_parseRule (hpassive : Passive P reader) (text : String) : Keeps P (parseRule text).run :=
  .andThen (keeps_parseText hpassive (by decide) fun _ => hpassive.parse _ 0) fun _ => .done _

theorem keeps_parseRules (hpassive : Passive P reader) (text : String) : Keeps P (parseRules text).run :=
  .andThen (keeps_parseText hpassive (by decide) fun _ => hpassive.parseAll _) fun _ => .done _

end RuleText

section
variable {home : GrammarId} {foreign : Set GrammarId} {origin : Catalog} {held : Set Parser}
  {store : Store}

theorem enclosed_empty (catalog : Catalog) : catalog.Enclosed ∅ where
  target _ _ _ _ hrule := absurd hrule (Set.notMem_empty _)
  exclusion _ _ _ _ hrule := absurd hrule (Set.notMem_empty _)

theorem loyal_empty (h : Sane held store) (hliving : home ∈ store.living) :
    Loyal home ∅ store.catalog held store where
  sane := h
  living := hliving
  agrees := .refl _ _
  enclosed := enclosed_empty store.catalog
  sound := fun _ ⟨_, _, _, hrule, _⟩ => absurd hrule (Set.notMem_empty _)

theorem calm_sane : Calm (Sane held) where
  quiet h hsane := h.sane hsane
  parsing {_ run} hrun store h := by
    have hkeeps := hrun store.catalog _ (enclosed_empty store.catalog).closed (h.apart_within ∅ ∅)
      (h.apart_definition ∅) _ store.caches
      ⟨fun _ ⟨_, _, _, hrule, _⟩ => absurd hrule (Set.notMem_empty _), rfl⟩
    exact h.of_caches hkeeps.1.2

theorem calm_loyal : Calm (Loyal home foreign origin held) where
  quiet h hloyal := h.loyal hloyal
  parsing {_ run} hrun store h := by
    have hkeeps := hrun store.catalog _ h.enclosed.closed (h.sane.apart_within foreign foreign)
      (h.sane.apart_definition foreign) _ store.caches ⟨h.sound, rfl⟩
    exact
      { sane := h.sane.of_caches hkeeps.1.2
        living := h.living
        agrees := h.agrees
        enclosed := h.enclosed
        sound := hkeeps.1.1 }

theorem calm_steady : Calm (Steady home foreign origin held) where
  quiet h hsteady := h.steady hsteady
  parsing {_ run} hrun store h := by
    have hkeeps := hrun store.catalog _ h.contained.closed (h.sane.apart_within _ _)
      (h.sane.apart_definition _) _ store.caches ⟨h.sound, rfl⟩
    exact
      { sane := h.sane.of_caches hkeeps.1.2
        living := h.living
        agrees := h.agrees
        enclosed := h.enclosed
        contained := h.contained
        sound := hkeeps.1.1 }

theorem enlarges_parsing (hsane : Sane held store) {α : Type} {run : Catalog → Run α}
    (hrun : Respects store.catalog (run store.catalog)) :
    Enlarges store (Edit.parsing run store).2 := by
  have hkeeps := hrun _ (enclosed_empty store.catalog).closed (hsane.apart_within ∅ ∅)
    (hsane.apart_definition ∅) _ store.caches
    ⟨fun _ ⟨_, _, _, hrule, _⟩ => absurd hrule (Set.notMem_empty _), rfl⟩
  exact
    { Enlarges.refl store with
      caches_le := hkeeps.1.2.ge }

theorem quiet_forM_localRule (productions : List Production) (id : GrammarId) :
    Quiet store ((productions.forM fun production =>
      discard <| Edit.localRule id production.name : Edit Unit) store).2 := by
  induction productions generalizing store with
  | nil => exact .refl store
  | cons production rest ih => exact (quiet_localRule id production.name).trans ih

end

theorem getElem?_take {α : Type} (items : Array α) (known place : Nat) :
    (items.take known)[place]? = if place < known then items[place]? else none := by
  rw [Array.take_eq_extract, Array.getElem?_extract, Nat.zero_add, Nat.sub_zero]
  by_cases hknown : place < known
  · rw [if_pos hknown]
    split
    · rfl
    · exact (Array.getElem?_eq_none (by omega)).symm
  · rw [if_neg hknown, if_neg (by omega)]

namespace RuleTable

theorem find?_truncate (table : RuleTable) (known : Nat) (name : String) :
    (table.truncate known).find? name = (table.find? name).filter (· < known) :=
  Std.ExtTreeMap.getElem?_filter'

end RuleTable

section
variable {store read : Store} {held : Set Parser}

theorem Edit.grammar_truncate (id : GrammarId) (extent : Store.Extent) (other : GrammarId) :
    (Edit.truncate id extent read).2.catalog.grammar other =
      if other = id ∧ id.index < read.catalog.grammars.size then
        { read.catalog.grammar id with
          table := (read.catalog.grammar id).table.truncate extent.rules }
      else read.catalog.grammar other :=
  Edit.grammar_modifyGrammar id _ read other

theorem Edit.slot?_truncate (id : GrammarId) (extent : Store.Extent) (rule : RuleId) :
    (Edit.truncate id extent read).2.catalog.slot? rule =
      if rule.grammar = id ∧ extent.rules ≤ rule.slot then none
      else read.catalog.slot? rule := by
  rw [Catalog.slot?, Catalog.slot?, grammar_truncate]
  by_cases hid : rule.grammar = id
  · by_cases hindex : id.index < read.catalog.grammars.size
    · rw [if_pos ⟨hid, hindex⟩, RuleTable.truncate, getElem?_take, hid]
      by_cases hplace : rule.slot < extent.rules
      · rw [if_pos hplace, if_neg fun h => (Nat.not_lt.2 h.2) hplace]
      · rw [if_neg hplace, if_pos ⟨rfl, Nat.not_lt.1 hplace⟩]
    · rw [if_neg fun h => hindex h.2, hid, grammar_eq_default (Nat.not_lt.1 hindex)]
      split <;> rfl
  · rw [if_neg fun h => hid h.1, if_neg fun h => hid h.1]

theorem Edit.local?_truncate (id : GrammarId) (extent : Store.Extent) (other : GrammarId)
    (name : String) : (Edit.truncate id extent read).2.catalog.local? other name =
      if other = id then (read.catalog.local? id name).filter (·.slot < extent.rules)
      else read.catalog.local? other name := by
  rw [Catalog.local?, Catalog.local?, Catalog.local?, grammar_truncate]
  by_cases hid : other = id
  · rw [if_pos hid, hid, Option.filter_map]
    by_cases hindex : id.index < read.catalog.grammars.size
    · rw [if_pos ⟨rfl, hindex⟩, RuleTable.find?_truncate]
      rfl
    · rw [if_neg fun h => hindex h.2, grammar_eq_default (Nat.not_lt.1 hindex)]
      rfl
  · rw [if_neg fun h => hid h.1, if_neg hid]

theorem Edit.slot?_truncate_extent {id : GrammarId} {rule : RuleId} {slot : Slot}
    (h : store.catalog.slot? rule = some slot) :
    (Edit.truncate id (store.extent id) read).2.catalog.slot? rule = read.catalog.slot? rule := by
  rw [slot?_truncate]
  refine if_neg fun hlater => ?_
  have hplace := (Array.getElem?_eq_some_iff.1 h).1
  rw [hlater.1] at hplace
  exact Nat.not_lt.2 hlater.2 hplace

/-- What was added to a store can be taken back. -/
theorem Enlarges.truncate (h : Enlarges store read) (hsane : Sane held store) (id : GrammarId) :
    Enlarges store (Edit.truncate id (store.extent id) read).2 where
  agrees :=
    { lost := h.agrees.lost
      alive := h.agrees.alive
      bound := fun rule hrule slot definition => by
        rw [← h.agrees.bound rule hrule]
        constructor
        · intro hbound
          obtain ⟨hslot, hdefinition⟩ := Catalog.exists_slot_of_bound hbound
          rw [Edit.slot?_truncate] at hslot
          split at hslot
          · cases hslot
          · exact Catalog.bound_eq_ok_iff.2 ⟨hslot, hdefinition⟩
        · intro hbound
          have hslot := (Catalog.exists_slot_of_bound ((h.agrees.bound rule hrule _ _).1 hbound)).1
          rw [Catalog.bound_eq_ok_iff, Edit.slot?_truncate_extent hslot]
          exact Catalog.exists_slot_of_bound hbound
      name := fun rule hrule slot hslot => by
        rw [Edit.slot?_truncate_extent hslot]
        exact h.agrees.name rule hrule slot hslot
      found := fun other hother name rule hrule => by
        rw [Edit.local?_truncate]
        split
        case isTrue heq =>
          subst heq
          obtain ⟨place, hplace, rfl⟩ := Option.map_eq_some_iff.1 hrule
          rw [h.agrees.found other hother name _ hrule]
          exact Option.filter_eq_some_iff.2
            ⟨rfl, decide_eq_true ((store.catalog.grammar other).table.place_lt _ _ hplace)⟩
        case isFalse => exact h.agrees.found other hother name rule hrule
      mode := fun mode branches hmode => by
        rw [← h.agrees.mode mode branches hmode]
        have hlt := hsane.mode_lt mode branches (Or.inr hmode)
        change ((read.catalog.modes.take store.catalog.modes.size)[mode.index]?).getD false = _
        rw [getElem?_take, if_pos hlt]
        rfl }
  caches_le := by
    change _ ≤ (read.caches.take store.caches.size).size
    have := h.caches_le
    simp only [Array.take_eq_extract, Array.size_extract]
    omega
  modes_le := by
    change _ ≤ (read.catalog.modes.take store.catalog.modes.size).size
    have := h.modes_le
    simp only [Array.take_eq_extract, Array.size_extract]
    omega
  lost := h.lost
  grammars := by
    rw [← h.grammars]
    exact Array.size_modify
  registry other cache hcache hlost := by
    rw [Edit.grammar_truncate]
    split
    case isTrue heq => exact heq.1 ▸ h.registry other cache hcache hlost
    case isFalse => exact h.registry other cache hcache hlost
  bases other := by
    rw [← h.bases, Edit.grammar_truncate]
    split
    case isTrue heq => rw [heq.1]
    case isFalse => rfl

/-- What is taken back of the caches was not remembered before. -/
theorem Sound.truncate {grammars : Set GrammarId}
    (hsound : Sound read.catalog (read.catalog.within grammars).nodes read.caches)
    (henclosed : read.catalog.Enclosed grammars) (h : Enlarges store read) (hsane : Sane held store)
    (id : GrammarId) :
    Sound (Edit.truncate id (store.extent id) read).2.catalog
      ((Edit.truncate id (store.extent id) read).2.catalog.within grammars).nodes
      (Edit.truncate id (store.extent id) read).2.caches := by
  have hagrees := (h.truncate hsane id).agrees
  have hnodes : ((Edit.truncate id (store.extent id) read).2.catalog.within grammars).nodes =
      (read.catalog.within grammars).nodes :=
    ((hagrees.mono (Set.subset_univ _)).nodes_eq).trans
      ((h.agrees.mono (Set.subset_univ _)).nodes_eq).symm
  rw [hnodes]
  refine (hsound.subsumed henclosed (h.agrees.subsumed hagrees)).of_holds
    fun cache key attempt hholds => ?_
  obtain ⟨entries, hentries, hentry⟩ := hholds
  change (read.caches.take store.caches.size)[cache.index]? = some entries at hentries
  rw [getElem?_take] at hentries
  split at hentries
  · exact ⟨entries, hentries, hentry⟩
  · cases hentries

end

def Recoverable (P : Store → Prop) : Prop :=
  ∀ store read, Enlarges store read → P store → P read → ∀ id,
    P (Edit.truncate id (store.extent id) read).2

section
variable {home : GrammarId} {foreign : Set GrammarId} {origin : Catalog} {held : Set Parser}

theorem recoverable_loyal : Recoverable (Loyal home foreign origin held) := by
  intro store read h hstore hread id
  have hback := h.truncate hstore.sane id
  exact
    { sane := hback.sane hstore.sane
      living := hback.living_eq ▸ hstore.living
      agrees := hstore.agrees.trans (hback.agrees.mono (Set.subset_univ _))
      enclosed := (hback.agrees.mono (Set.subset_univ _)).enclosed hstore.enclosed
      sound := hread.sound.truncate hread.enclosed h hstore.sane id }

theorem recoverable_steady : Recoverable (Steady home foreign origin held) := by
  intro store read h hstore hread id
  have hback := h.truncate hstore.sane id
  exact
    { sane := hback.sane hstore.sane
      living := hback.living_eq ▸ hstore.living
      agrees := hstore.agrees.trans (hback.agrees.mono (Set.subset_univ _))
      enclosed := (hback.agrees.mono (Set.subset_univ _)).enclosed hstore.enclosed
      contained := (hback.agrees.mono (Set.subset_univ _)).enclosed hstore.contained
      sound := hread.sound.truncate hread.contained h hstore.sane id }

end

structure Added (P : Store → Prop) (held given : Set Parser) (store read : Store) : Prop where
  enlarges : Enlarges store read
  keeps : P read
  sane : Sane (held ∪ given) read

def Adds (P : Store → Prop) {α : Type} (parts : Set Parser) (gives : α → Set Parser)
    (load : RuleText.Reading α) : Prop :=
  ∀ {held : Set Parser} {store : Store}, parts ⊆ held → Sane held store → P store →
    Added P held (givenOf gives (load.run store).1) store (load.run store).2

namespace Adds

variable {P : Store → Prop} {parts : Set Parser} {α β : Type} {gives : α → Set Parser}
  {gives' : β → Set Parser}

theorem done {a : α} (h : gives a ⊆ parts) : Adds P parts gives (pure a) :=
  fun hheld hsane hP => ⟨.refl _, hP, hsane.forget (Set.union_subset subset_rfl (h.trans hheld))⟩

theorem throw (error : GrammarError) :
    Adds P parts gives (throwThe GrammarError error : RuleText.Reading α) :=
  fun _ hsane hP => ⟨.refl _, hP, hsane.forget (Set.union_empty _).subset⟩

theorem andThen {first : RuleText.Reading α} {next : α → RuleText.Reading β}
    (h : Adds P parts gives first) (hnext : ∀ a, Adds P (parts ∪ gives a) gives' (next a)) :
    Adds P parts gives' (first >>= next) := by
  intro held store hheld hsane hP
  have hfirst := h hheld hsane hP
  rcases hrun : first.run store with ⟨error | a, read⟩
  · rw [hrun] at hfirst
    rw [Edit.run_bind_error hrun]
    exact hfirst
  · rw [hrun] at hfirst
    rw [Edit.run_bind_ok hrun]
    have hrest := hnext a (Set.union_subset_union_left _ hheld) hfirst.sane hfirst.keeps
    exact ⟨hfirst.enlarges.trans hrest.enlarges, hrest.keeps,
      hrest.sane.forget (Set.union_subset_union_left _ Set.subset_union_left)⟩

theorem of_quiet (hcalm : Calm P) {edit : Edit α}
    (h : ∀ {held : Set Parser} {store : Store}, parts ⊆ held → Sane held store →
      Quiet store (edit store).2 ∧ Sane (held ∪ gives (edit store).1) (edit store).2) :
    Adds P parts gives (liftM edit) := by
  intro held store hheld hsane hP
  obtain ⟨hquiet, hgiven⟩ := h hheld hsane
  exact ⟨hquiet.toEnlarges, hcalm.quiet hquiet hP, hgiven⟩

theorem of_make (hcalm : Calm P) {edit : Edit Parser}
    (h : ∀ {held : Set Parser} {store : Store}, parts ⊆ held → Sane held store →
      Quiet store (edit store).2 ∧ Sane (insert (edit store).1 held) (edit store).2) :
    Adds P parts ({·}) (liftM edit) :=
  of_quiet hcalm fun hheld hsane => by
    rw [Set.union_singleton]
    exact h hheld hsane

theorem leaf {parser : Parser} (hwalk : parser.walk = [parser]) (hcache : parser.cache? = none)
    (hmode : ∀ mode branches, parser ≠ .alternation mode branches) :
    Adds P parts ({·}) (pure parser) := by
  intro held store _ hsane hP
  refine ⟨.refl store, hP, (hsane.hold_leaf hwalk hcache hmode).forget ?_⟩
  exact (Set.union_singleton ..).subset

end Adds

section
variable {P : Store → Prop} (hcalm : Calm P)
include hcalm

theorem adds_localRule (parts : Set Parser) (id : GrammarId) (name : String) :
    Adds P parts (fun _ => ∅) (liftM (Edit.localRule id name)) :=
  Adds.of_quiet hcalm fun _ hsane => ⟨quiet_localRule id name, by
    rw [Set.union_empty]
    exact (quiet_localRule id name).sane hsane⟩

theorem adds_isRuleName (body : String) : RuleText.Tells (Adds P) body := by
  intro parts held store _ hsane hP
  have hquiet : Quiet store (Edit.rule .abnf "rulename" store).2 := quiet_rule _ _
  have hparse (catalog : Catalog) : Respects catalog
      (catalog.parseAll (Edit.rule .abnf "rulename" store).1 (.ofString body)) :=
    respects_parseAll catalog _ _
  have hstore := RuleText.snd_isRuleName body store
  have henlarges : Enlarges store (RuleText.isRuleName body store).2 := by
    rw [hstore]
    exact hquiet.toEnlarges.trans (enlarges_parsing (hquiet.sane hsane) (hparse _))
  exact
    { enlarges := henlarges
      keeps := by
        change P (RuleText.isRuleName body store).2
        rw [hstore]
        exact hcalm.parsing hparse _ (hcalm.quiet hquiet hP)
      sane := (henlarges.sane hsane).forget (Set.union_empty _).subset }

theorem building_adds (id : GrammarId) (options : Options) :
    RuleText.Building (.parsers id options) (Adds P) where
  done := .done
  throw := .throw
  andThen := .andThen
  literal terminal := Adds.leaf rfl rfl fun _ _ heq => by cases heq
  name name := Adds.of_make hcalm fun {_ store} _ hsane => by
    have hquiet : Quiet store (Edit.rule id name store).2 := quiet_rule id name
    exact ⟨hquiet, (hquiet.sane hsane).hold_leaf rfl rfl fun _ _ heq => by cases heq⟩
  choice hbranches := Adds.of_make hcalm fun hheld hsane =>
    hsane.hold_alternation _ fun branch hbranch => hheld (hbranches branch hbranch)
  sequence hitems := fun {_ store} hheld hsane hP => ⟨.refl store, hP,
    (hsane.hold_concatenation fun item hitem => hheld (hitems item hitem)).forget
      (Set.union_singleton ..).subset⟩
  repeated bounds _ helement := Adds.of_make hcalm fun hheld hsane =>
    hsane.hold_repetition _ bounds (hheld helement)
  optional helement := Adds.of_make hcalm fun hheld hsane => hsane.hold_optional _ (hheld helement)
  prose text := Adds.leaf rfl rfl fun _ _ heq => by cases heq

theorem adds_readDefinitions (id : GrammarId) (options : Options) (nodes : List Node) :
    Adds P ∅ (fun definitions => {parser | ∃ definition ∈ definitions, parser = definition.2})
      (RuleText.readDefinitions id options nodes) :=
  RuleText.composed_readDefinitions (building_adds hcalm id options)
    (fun parts name => adds_localRule hcalm parts id name) nodes
    (fun _ _ body _ => adds_isRuleName hcalm body) ∅

end

/-- Rules are bound once all are read, and if they cannot be read nothing is left of them. -/
theorem RuleText.run_compile (id : GrammarId) (nodes : List Node) (store : Store) :
    (compile id nodes).run store =
      match (readDefinitions id (store.catalog.grammar id).options nodes).run store with
      | (.ok definitions, read) =>
        (.ok (Edit.bindAll id definitions read).1, (Edit.bindAll id definitions read).2)
      | (.error error, read) =>
        (.error (.grammar error), (Edit.truncate id (store.extent id) read).2) := by
  have hget : (get : Loading Store).run store = (.ok store, store) := rfl
  have hread : (liftM (readDefinitions id (store.catalog.grammar id).options nodes).run :
      Loading _).run store =
        (.ok ((readDefinitions id (store.catalog.grammar id).options nodes).run store).1,
          ((readDefinitions id (store.catalog.grammar id).options nodes).run store).2) := rfl
  rw [compile, Edit.run_bind_ok hget, Edit.run_bind_ok hget, Edit.run_bind_ok hread]
  rcases (readDefinitions id (store.catalog.grammar id).options nodes).run store with
    ⟨error | definitions, read⟩ <;> rfl

section
variable {home : GrammarId} {foreign : Set GrammarId} {origin : Catalog} {held : Set Parser}
  {store : Store} (hhome : home ∉ foreign)
include hhome

theorem Loyal.bindAs (h : Loyal home foreign origin held store) (name : String)
    (incremental : Bool) {parser : Parser} (hheld : parser ∈ held) :
    Turned home foreign origin held (Edit.bindAs home name incremental parser store).2 := by
  rw [Edit.bindAs]
  split
  · exact h.extend hhome _ hheld
  · exact h.define hhome _ hheld

theorem Loyal.bindAll (h : Loyal home foreign origin held store)
    (definitions : List ((String × Bool) × Parser))
    (hheld : ∀ definition ∈ definitions, definition.2 ∈ held) :
    (Edit.bindAll home definitions store).2 = store ∨
      Turned home foreign origin held (Edit.bindAll home definitions store).2 := by
  induction definitions generalizing store with
  | nil => exact Or.inl rfl
  | cons definition rest ih =>
    obtain ⟨hfirst, hrest⟩ := List.forall_mem_cons.1 hheld
    have hturned := h.bindAs hhome definition.1.1 definition.1.2 hfirst
    refine Or.inr ?_
    rw [Edit.bindAll, List.mapM_cons]
    rcases ih hturned.toLoyal hrest with heq | hlater
    · rw [← heq] at hturned
      exact hturned
    · exact hlater

variable {P : Store → Prop} (hcalm : Calm P) (hrecoverable : Recoverable P)
  (hP : ∀ store, P store → Loyal home foreign origin held store)
include hcalm hrecoverable hP

/-- Binding the rules of parsed texts touches no other grammar, and if they cannot be read then
not even that of the rules. -/
theorem turns_compile (nodes : List Node) :
    Turns P (Turned home foreign origin held) (RuleText.compile home nodes).run := by
  intro store hstore
  have hadded := adds_readDefinitions hcalm home (store.catalog.grammar home).options nodes
    (Set.empty_subset held) (hP store hstore).sane hstore
  rw [RuleText.run_compile]
  generalize (RuleText.readDefinitions home (store.catalog.grammar home).options nodes).run store =
    run at hadded
  obtain ⟨error | definitions, read⟩ := run
  · exact Or.inl (hrecoverable _ _ hadded.enlarges hstore hadded.keeps home)
  · have hloyal := (hP read hadded.keeps).hold hadded.sane
    rcases hloyal.bindAll hhome definitions
      (fun definition hdefinition => Or.inr ⟨definition, hdefinition, rfl⟩) with heq | hturned
    · refine Or.inl ?_
      change P (Edit.bindAll home definitions read).2
      rw [heq]
      exact hadded.keeps
    · exact Or.inr (hturned.forget Set.subset_union_left)

theorem turns_createRule (text : String) :
    Turns P (Turned home foreign origin held) (Loading.createRule home text).run := by
  refine .after (RuleText.keeps_parseRule hcalm.passive text) fun node => ?_
  refine .before (turns_compile hhome hcalm hrecoverable hP [node]) fun rules store => ?_
  split <;> rfl

theorem turns_loadRules (texts : List String) :
    Turns P (Turned home foreign origin held) (Loading.loadRules home texts).run :=
  .after (.mapM (RuleText.keeps_parseRule hcalm.passive) texts) fun nodes =>
    turns_compile hhome hcalm hrecoverable hP nodes

theorem turns_loadRulelist (text : String) :
    Turns P (Turned home foreign origin held) (Loading.loadRulelist home text).run :=
  .after (RuleText.keeps_parseRules hcalm.passive text) fun nodes =>
    turns_compile hhome hcalm hrecoverable hP nodes

end

end Metasyntax
