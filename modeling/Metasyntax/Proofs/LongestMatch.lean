import Metasyntax.Proofs.Growth
import Metasyntax.Proofs.Invalidation
import Metasyntax.Proofs.Termination

/-!
# First match and longest match

An alternation that ends with its first match commits the parts after it to the offsets of
that match. One that goes on offers these offsets and more. So where nothing is excluded, a
parse finds in longest-match mode all that it finds in any other assignment of modes.
-/

set_option autoImplicit false

namespace Metasyntax

def unfailing : Relator (Except GrammarError) (Except GrammarError) where
  throws := GrammarError.TooDeep
  rel post x _ := (∀ error, x = .error error → error.TooDeep) ∧ ∀ a, x = .ok a → post a
  pure h := ⟨(fun _ heq => by cases heq), fun _ heq => by cases heq; exact h⟩
  throw error hdeep := ⟨(fun _ heq => by cases heq; exact hdeep), fun _ heq => by cases heq⟩
  bind {α β post post' x _ f _} h hf := by
    cases x with
    | error error =>
      exact ⟨(fun _ heq => by cases heq; exact h.1 error rfl), fun _ heq => by cases heq⟩
    | ok a => exact hf a (h.2 a rfl)

namespace Catalog

/-- Every rule that a rule leads to is bound and excludes nothing. -/
def Plain (catalog : Catalog) (rule : RuleId) : Prop :=
  ∀ ref, catalog.Leads (.rule (catalog.refer rule)) ref → ∃ rule' slot definition,
    catalog.resolve ref = .ok rule' ∧ catalog.bound rule' = .ok (slot, definition) ∧
      slot.exclusion = none

/-- No parse of a rule goes on for ever, as one does that comes back to a rule at the offset
where it is at work on that rule. -/
def Finishes (catalog : Catalog) (rule : RuleId) : Prop :=
  ∀ source start, Ended (catalog.ruleMatches rule source start : Except GrammarError Attempt)

section
variable {catalog : Catalog} {rule : RuleId}

theorem Leads.withModes {parser : Parser} {ref : RuleRef} (h : catalog.Leads parser ref)
    (modes : Array Bool) : Leads { catalog with modes } parser ref := by
  induction h with
  | here href => exact .here href
  | definition _ hresolve hbound href ih => exact .definition ih hresolve hbound href
  | exclusion _ hresolve hbound hexclusion ih => exact .exclusion ih hresolve hbound hexclusion

theorem Plain.withModes (h : catalog.Plain rule) (modes : Array Bool) :
    Plain { catalog with modes } rule :=
  fun ref hleads => h ref (hleads.withModes catalog.modes)

theorem Plain.exists_of_mem (h : catalog.Plain rule) {rule' : RuleId}
    (hrule' : rule' ∈ (catalog.scopeOf (.rule (catalog.refer rule))).rules) :
    ∃ slot definition, catalog.bound rule' = .ok (slot, definition) ∧ slot.exclusion = none := by
  obtain ⟨ref, hleads, hresolve⟩ := hrule'
  obtain ⟨_, slot, definition, hresolve', hbound⟩ := h ref hleads
  cases hresolve.symm.trans hresolve'
  exact ⟨slot, definition, hbound⟩

theorem Plain.mem_rules (h : catalog.Plain rule) :
    rule ∈ (catalog.scopeOf (.rule (catalog.refer rule))).rules := by
  obtain ⟨rule', _, _, hresolve, _⟩ := h _ (catalog.leads_self _)
  obtain rfl := eq_of_resolve_refer hresolve
  exact mem_rules_scopeOf_refer (alive_of_resolve hresolve)

/-- Where all that a rule leads to is bound, its parses fail only when they are given up. -/
theorem Plain.call_unfailing (h : catalog.Plain rule) (depth : Nat) (source : Source)
    {ref : RuleRef} (href : catalog.Leads (.rule (catalog.refer rule)) ref) (start : Nat) :
    unfailing.rel (StopsIn fun _ => True) (catalog.call depth source ref start)
      (catalog.call depth source ref start) := by
  induction depth generalizing source ref start with
  | zero => exact unfailing.throw _ ⟨ref.name, rfl⟩
  | succ depth ih =>
    obtain ⟨rule', slot, definition, hresolve, hbound, hexclusion⟩ := h ref href
    refine callOnce_rel settling_true trivial rfl (fun other hother => ?_) fun error herror => ?_
    · cases hresolve.symm.trans hother
      exact
        { bound := rfl
          refer := rfl
          body := fun slot' definition' hbound' =>
            { call := fun ref' href' o _ => ih source
                (.definition href hresolve hbound' (Parser.mem_references.2 href')) o
              mode := fun _ _ _ => rfl
              remember := fun _ _ _ _ _ _ hrun => hrun }
          exclusion := fun slot' definition' ref' hbound' hexclusion' => by
            cases hbound.symm.trans hbound'
            cases hexclusion.symm.trans hexclusion'
          unbound := fun error herror => by cases hbound.symm.trans herror
          dangling := fun slot' definition' ref' hbound' hexclusion' => by
            cases hbound.symm.trans hbound'
            cases hexclusion.symm.trans hexclusion' }
    · cases hresolve.symm.trans herror

/-- A parse that does not go on for ever comes to an answer where all that it leads to is
bound. -/
theorem Plain.exists_ruleMatches (h : catalog.Plain rule) (hfinishes : catalog.Finishes rule)
    (source : Source) (start : Nat) :
    ∃ attempt, catalog.ruleMatches rule source start = (.ok attempt : Except GrammarError Attempt) := by
  have hunfailing := (h.call_unfailing (catalog.depthBound source) source (catalog.leads_self _)
    start).1
  have hended := hfinishes source start
  rw [ruleMatches] at hended ⊢
  cases hrun : (catalog.call (catalog.depthBound source) source (catalog.refer rule) start :
      Except GrammarError Attempt) with
  | error error => exact absurd (hunfailing error hrun) (hended error hrun)
  | ok attempt => exact ⟨attempt, rfl⟩

/-- Where no rule calls itself in place, no parse goes on for ever. -/
theorem finishes_of_acyclic {scope : Scope} (hclosed : scope.Closed catalog)
    (hapart : Apart scope.nodes scope.nodes)
    (hacyclic : ∀ rule ∈ scope.rules, ¬ Relation.TransGen catalog.CallsInPlace rule rule)
    (hrule : rule ∈ scope.rules) : catalog.Finishes rule := by
  intro source start error herror hdeep
  have href : ∀ rule', catalog.resolve (catalog.refer rule) = .ok rule' → rule' ∈ scope.rules :=
    fun rule' hrule' => eq_of_resolve_refer hrule' ▸ hrule
  obtain ⟨hended, -, -⟩ := call_settles hclosed hapart hacyclic _ href
    (suffices_depthBound hacyclic le_rfl href start) #[] (.of_isEmpty (by simp))
  obtain ⟨hagree, -, -⟩ := ruleMatches_agrees hclosed hapart hrule source start #[]
    (.of_all_isEmpty (by simp))
  rw [herror] at hagree
  rcases hagree with hagree | ⟨⟨error', hdeep', hagree⟩, -⟩
  · exact hended error hagree hdeep
  · exact hended error' hagree hdeep'

theorem plain_of_isShallow {steps : Nat} (h : catalog.isShallow steps (catalog.refer rule) = true) :
    catalog.Plain rule := by
  suffices hall : ∀ ref, catalog.Leads (.rule (catalog.refer rule)) ref →
      ∃ steps, catalog.isShallow steps ref = true by
    intro ref hleads
    obtain ⟨steps, hshallow⟩ := hall ref hleads
    obtain ⟨_, rule', slot, definition, -, hresolve, hbound, hexclusion, -⟩ :=
      exists_of_isShallow hshallow
    exact ⟨rule', slot, definition, hresolve, hbound, hexclusion⟩
  intro ref hleads
  induction hleads with
  | here href =>
    cases List.mem_singleton.1 (Parser.mem_references.1 href)
    exact ⟨steps, h⟩
  | definition _ hresolve hbound href ih =>
    obtain ⟨steps, hshallow⟩ := ih
    obtain ⟨fewer, _, _, _, -, hresolve', hbound', -, hreferences⟩ := exists_of_isShallow hshallow
    cases hresolve.symm.trans hresolve'
    cases hbound.symm.trans hbound'
    exact ⟨fewer, hreferences _ href⟩
  | exclusion _ hresolve hbound hexclusion ih =>
    obtain ⟨steps, hshallow⟩ := ih
    obtain ⟨_, _, _, _, -, hresolve', hbound', hnone, -⟩ := exists_of_isShallow hshallow
    cases hresolve.symm.trans hresolve'
    cases hbound.symm.trans hbound'
    cases hnone.symm.trans hexclusion

end

end Catalog

theorem Store.ParsesAnew.finishes {store : Store} {rule : RuleId} (h : store.ParsesAnew rule)
    (hanswers : store.Answers rule) : store.catalog.Finishes rule := by
  intro source start error herror
  obtain ⟨attempt, hattempt⟩ := hanswers source start
  have hanew := h.ruleMatches source start
  rw [hattempt] at hanew
  cases herror.symm.trans hanew.symm.eq_of_ok

theorem Store.Widens.of_parsesAlike {rule rule' : RuleId} {store store' store'' : Store}
    (h : store.Widens rule rule' store') (halike : Store.ParsesAlike rule' store' store'') :
    store.Widens rule rule' store'' where
  reports source start e hreports := by
    obtain ⟨found, hfound, he⟩ := h.reports source start e hreports
    have hagree := halike.ruleMatches source start
    rw [hfound] at hagree
    exact ⟨found, hagree.symm.eq_of_ok, he⟩
  parseAll source node hnode := by
    obtain ⟨node', hnode'⟩ := h.parseAll source node hnode
    have hagree := halike.parseAll source
    rw [hnode'] at hagree
    exact ⟨node', hagree.symm.eq_of_ok⟩

/-- What is apart in a session is so whatever modes alternations have. -/
theorem Session.Reached.apart_used {session : Session} (h : session.Reached)
    {modes : Array Bool} {store : Store}
    (hstore : store.catalog = { session.store.catalog with modes }) :
    Apart (store.used Set.univ {parser | .parser parser ∈ session.bench.held})
      (store.used Set.univ {parser | .parser parser ∈ session.bench.held}) := by
  have hused : ∀ held, store.used Set.univ held = session.store.used Set.univ held := fun held => by
    rw [Store.used, Store.used, hstore]
    rfl
  rw [hused]
  exact h.orderly.sane.apart

/-- Whatever modes alternations have, a parse of a rule that leads to bound rules without
exclusions only reports no end, and accepts no text, that it does not with all alternations in
longest-match mode, as far as the rule leads to no stale cache in either case. -/
theorem Session.Reached.longest_match_widens {session : Session} (h : session.Reached)
    {rule : RuleId} (hplain : session.store.catalog.Plain rule) {modes modes' : Array Bool}
    {store store' : Store} (hstore : store.catalog = { session.store.catalog with modes })
    (hstore' : store'.catalog = { session.store.catalog with modes := modes' })
    (hlongest : ∀ mode, store'.catalog.firstMatch mode = false)
    (hfinishes : store'.catalog.Finishes rule) (hcurrent : store.Current rule)
    (hcurrent' : store'.Current rule) :
    store.Widens rule rule store' := by
  have hplain₁ : store.catalog.Plain rule := hstore ▸ hplain.withModes modes
  have hplain₂ : store'.catalog.Plain rule := hstore' ▸ hplain.withModes modes'
  have hbound : ∀ rule, store'.catalog.bound rule = store.catalog.bound rule := fun rule => by
    rw [hstore, hstore']
    rfl
  have hapart := h.apart_used hstore
  have huses := store.uses_rule {parser | .parser parser ∈ session.bench.held}
    (store.catalog.refer rule)
  let scope := store.catalog.scopeOf (.rule (store.catalog.refer rule))
  let scope' := store'.catalog.scopeOf (.rule (store'.catalog.refer rule))
  -- The caches may remember less in one mode than in another, so the step is made where they
  -- are empty.
  let bare : Store := { store' with caches := #[] }
  have hgrown : Catalog.Grown scope ⟨∅, ∅⟩ store.catalog bare.catalog :=
    { closed := Catalog.closed_scopeOf _ _
      closed_spared := ⟨nofun, nofun, nofun, nofun⟩
      spared_subset := Set.empty_subset _
      same := ⟨fun id => by rw [hstore, hstore']; rfl, nofun, nofun⟩
      bound := fun rule' hrule' _ slot definition hdefinition => by
        obtain ⟨_, _, hdefinition', hexclusion⟩ := hplain₁.exists_of_mem hrule'
        cases hdefinition.symm.trans hdefinition'
        exact ⟨slot, definition, (hbound rule').trans hdefinition, hexclusion, .self _⟩
      longest := fun mode _ _ _ => hlongest mode
      apart := fun rule' slot definition _ hdefinition =>
        (hapart.scopeOf (Store.uses_definition ((hbound rule').symm.trans hdefinition) _)
          huses).mono fun node hnode => Or.inl hnode
      apart_self := hapart.scopeOf huses huses }
  have hempty : ∀ (catalog : Catalog) (nodes : Set Parser), Sound catalog nodes bare.caches :=
    fun _ _ => .of_all_isEmpty (by simp [bare])
  have hclosed' : scope'.Closed bare.catalog := Catalog.closed_scopeOf _ _
  have hapart' : Apart scope'.nodes scope'.nodes :=
    (h.apart_used hstore').scopeOf (store'.uses_rule _ _) (store'.uses_rule _ _)
  have hanew : bare.ParsesAnew rule :=
    Scope.Closed.parsesAnew hclosed' hapart' hplain₂.mem_rules (hempty _ _)
  have hanswers : bare.Answers rule := by
    intro source start
    obtain ⟨attempt, hattempt⟩ := hplain₂.exists_ruleMatches hfinishes source start
    exact ⟨attempt, (hattempt ▸ hanew.ruleMatches source start).eq_of_ok⟩
  have hbare : store.Widens rule rule bare :=
    hgrown.widens hplain₁.mem_rules hcurrent
      ((hempty _ _).sufficient (Set.empty_subset _)) hanswers
      (hgrown.ruleMatches_covers hplain₁.mem_rules)
  have hsame : scope'.Same bare.catalog store'.catalog :=
    ⟨fun _ => rfl, fun _ _ => rfl, fun _ _ _ => rfl⟩
  exact hbare.of_parsesAlike
    (hsame.parsesAlike hclosed' hapart' hplain₂.mem_rules (hempty _ _) hcurrent')

/-- The same parsers are in use whatever modes alternations have. -/
theorem Sane.withModes {held : Set Parser} {store store' : Store} (h : Sane held store)
    {modes : Array Bool} (hmodes : store.catalog.modes.size ≤ modes.size)
    (hcatalog : store'.catalog = { store.catalog with modes })
    (hcaches : store'.caches.size = store.caches.size)
    (hlost : store'.lostCaches = store.lostCaches) : Sane held store' := by
  obtain ⟨catalog, caches, lost⟩ := store'
  cases hcatalog
  cases hlost
  exact
    { cache_lt := fun node hnode id hid => (h.cache_lt node hnode id hid).trans_eq hcaches.symm
      mode_lt := fun mode branches hmode => (h.mode_lt mode branches hmode).trans_le hmodes
      apart := h.apart
      lost_lt := fun id hid => (h.lost_lt id hid).trans_eq hcaches.symm
      alive := h.alive
      registered := h.registered
      lineage := h.lineage
      bases_alive := h.bases_alive }

theorem Session.Reached.longest_match_widens_items :
    ∃ (session : Session) (rule : RuleId) (store store' : Store) (modes : Array Bool),
      session.Reached ∧ session.store.catalog.Plain rule ∧
      store.catalog = session.store.catalog ∧
      store'.catalog = { session.store.catalog with modes } ∧
      (∀ mode, store'.catalog.firstMatch mode = false) ∧ store'.catalog.Finishes rule ∧
      (store.Current rule ∧ ∃ id key attempt, store.caches.Holds id key attempt) ∧
      (store'.Current rule ∧ ∃ id key attempt, store'.caches.Holds id key attempt) ∧
      store.Widens rule rule store' ∧ store.Reports rule (.ofString "xy") 0 1 ∧
      ¬ store.Reports rule (.ofString "xy") 0 2 ∧ store'.Reports rule (.ofString "xy") 0 2 := by
  let items : RuleId := ⟨.core, 16⟩
  let source : Source := .ofString "xy"
  let longest (catalog : Catalog) : Catalog :=
    { catalog with modes := catalog.modes.map fun _ => false }
  let check (session : Session) : Bool :=
    let catalog := session.store.catalog
    session.store.caches.all (·.isEmpty) && (catalog.repetition? items).isSome &&
      catalog.isShallow catalog.ruleCount (catalog.refer items) &&
      (longest catalog).isShallow (longest catalog).ruleCount ((longest catalog).refer items) &&
      catalog.reportsEnd items source 1 && !catalog.reportsEnd items source 2 &&
      (longest catalog).reportsEnd items source 1 && (longest catalog).reportsEnd items source 2
  have hcheck : (Session.start.carryOut [.define "core" "items" (.repetition ⟨1, none⟩
      ⟨8, by decide⟩ (.alternation true
        [.literal ⟨.text "x", false⟩, .literal ⟨.text "xy", false⟩])) none]).any check = true := by
    decide +kernel
  obtain ⟨session, hcarry, hcheck⟩ := (Option.any_eq_true _ _).1 hcheck
  simp only [check, Bool.and_eq_true, Bool.not_eq_true'] at hcheck
  obtain ⟨⟨⟨⟨⟨⟨⟨hempty, hrepetition⟩, hshallow⟩, hshallow'⟩, hshort⟩, hnot⟩, hshort'⟩, hlong⟩ := hcheck
  have hreached : session.Reached := Session.Reached.start.carryOut hcarry
  have hliving : items.grammar ∈ session.store.living := (hreached.orderly.useful _ .core).1
  have hplain := Catalog.plain_of_isShallow hshallow
  let relaxed : Store := { session.store with catalog := longest session.store.catalog }
  have hcatalog : relaxed.catalog = { session.store.catalog with
      modes := session.store.catalog.modes.map fun _ => false } := rfl
  have hsane := hreached.orderly.sane
  have hsize : session.store.catalog.modes.size ≤ (longest session.store.catalog).modes.size :=
    (Array.size_map ..).ge
  have hsane' : Sane {parser | .parser parser ∈ session.bench.held} relaxed :=
    hsane.withModes hsize hcatalog rfl rfl
  obtain ⟨⟨cache, element⟩, hrepetition⟩ := Option.isSome_iff_exists.1 hrepetition
  have hcurrent : session.store.Current items := .of_all_isEmpty hempty
  have hcurrent' : relaxed.Current items := .of_all_isEmpty hempty
  obtain ⟨hafter, hanew, hholds⟩ := hcurrent.remembers hsane hliving hrepetition hshort
  obtain ⟨hafter', hanew', hholds'⟩ := hcurrent'.remembers hsane' hliving hrepetition hshort'
  let parsed (store : Store) : Store := (Edit.parsing (·.ruleMatches items source 0) store).2
  have hfinishes : (parsed relaxed).catalog.Finishes items :=
    hanew'.finishes (Store.answers_of_isShallow hshallow')
  have hmodes : ∀ mode, (longest session.store.catalog).firstMatch mode = false :=
    Catalog.firstMatch_eq_false (by simp [longest])
  have hwidens : (parsed session.store).Widens items items (parsed relaxed) :=
    hreached.longest_match_widens hplain rfl hcatalog hmodes hfinishes hafter hafter'
  exact ⟨session, items, parsed session.store, parsed relaxed, _, hreached, hplain, rfl, hcatalog,
    hmodes, hfinishes, ⟨hafter, cache, _, hholds⟩, ⟨hafter', cache, _, hholds'⟩, hwidens,
    hanew.reports_iff.2 hshort, mt hanew.reports_iff.1 (ne_true_of_eq_false hnot),
    hanew'.reports_iff.2 hlong⟩

/-- Without the condition that the rule leads to no stale cache, an end may be lost: a stale cache
reports it, and is emptied when an alternation is told to go on after its first match. -/
theorem longest_match_loses_recalled_end : ¬ ∀ (session : Session) (bench : Bench)
    (choice rule : RuleId), session.Reached → session.bench.Steps bench →
      .rule choice ∈ bench.held → bench.store.catalog.Plain rule →
        (∀ mode, (Edit.setFirstMatch choice false bench.store).2.catalog.firstMatch mode = false) →
        (Edit.setFirstMatch choice false bench.store).2.catalog.Finishes rule →
          bench.store.Widens rule rule (Edit.setFirstMatch choice false bench.store).2 := by
  intro hall
  let prose : RuleId := ⟨.abnf, 17⟩
  let letters : RuleId := ⟨.core, 0⟩
  let items : RuleId := ⟨.core, 16⟩
  let source : Source := .ofString "<>"
  let terminal : Literal := ⟨.text "x", false⟩
  let shallow (catalog : Catalog) : Bool :=
    catalog.isShallow catalog.ruleCount (catalog.refer items)
  let check (session : Session) : Bool :=
    let first := (Edit.setFirstMatch letters true session.store).2
    let turned := (Edit.setDefinition prose (.literal terminal) first).2
    let longest := (Edit.setFirstMatch letters false turned).2
    session.store.caches.all (·.isEmpty) && first.catalog.repeatsApart prose items &&
      decide (session.store.catalog.lookup? .core "ALPHA" = some letters) &&
      decide (first.catalog.lookup? .abnf "prose-val" = some prose) &&
      first.catalog.reportsEnd items source 2 && turned.catalog.modes.any id &&
      shallow turned.catalog && longest.catalog.modes.all (!·) && shallow longest.catalog &&
      longest.catalog.isConfined .core [items, prose] &&
      !longest.catalog.reportsEnd items source 2
  have hcheck : (Session.start.carryOut [.define "core" "items" (.repetition ⟨1, none⟩
      ⟨8, by decide⟩ (.rule (.named "abnf" "prose-val"))) none]).any check = true := by
    decide +kernel
  obtain ⟨session, hcarry, hcheck⟩ := (Option.any_eq_true _ _).1 hcheck
  simp only [check, Bool.and_eq_true, decide_eq_true_eq, Bool.not_eq_true'] at hcheck
  obtain ⟨⟨⟨⟨⟨⟨⟨⟨⟨⟨hempty, hapart⟩, hletters⟩, hprose⟩, hbefore⟩, hfirst⟩, hshallow⟩, hmodes⟩,
    hshallow'⟩, hconfined⟩, hafter⟩ := hcheck
  have hreached : session.Reached := Session.Reached.start.carryOut hcarry
  let first := (session.bench.hold (.rule letters)).edit (Edit.setFirstMatch letters true)
  have hheld : session.bench.Step (session.bench.hold (.rule letters)) :=
    .lookup Session.Holds.core hletters
  have hset : (session.bench.hold (.rule letters)).Step first := .setFirstMatch true (Or.inl rfl)
  have hsteps : session.bench.Steps first := .tail (.single hheld) hset
  have hcurrent : first.store.Current items := .of_empty fun id key attempt hholds =>
    Caches.not_holds_of_isEmpty (Array.all_eq_true_iff_forall_mem.1 hempty)
      (((Reconfiguration.setFirstMatch true).spares letters session.store).holds id key attempt hholds)
  have habnf : .grammar .abnf ∈ first.held := Or.inr Session.Holds.abnf
  obtain ⟨stale, hsteps', hkept, -, halike, hreports⟩ :=
    (hsteps.orderly hreached.orderly).exists_stale hcurrent (by decide) hapart habnf hprose terminal
      hbefore
  have halike : (Edit.setDefinition prose (.literal terminal)
    (Edit.setFirstMatch letters true session.store).2).2.Alike stale.store := halike
  have hrelaxed := (Edit.blind_setFirstMatch letters false _ _ halike).2
  rw [← halike.catalog] at hfirst hshallow
  rw [← hrelaxed.catalog] at hmodes hshallow' hconfined hafter
  have hsteps'' : session.bench.Steps stale := Relation.ReflTransGen.trans hsteps hsteps'
  have horderly := hsteps''.orderly hreached.orderly
  have hletter : .rule letters ∈ stale.held := hkept (Or.inl rfl)
  have hturned := ((Reconfiguration.setFirstMatch false).turned horderly.sane
    (horderly.useful _ hletter).1 nofun).resolve_left fun hnoop => by
      have hnoop : (Edit.setFirstMatch letters false stale.store).2 = stale.store := hnoop
      rw [hnoop, Array.all_eq_true_iff_forall_mem] at hmodes
      obtain ⟨mode, hmem, hmode⟩ := Array.any_eq_true'.1 hfirst
      obtain rfl : mode = true := hmode
      cases hmodes true hmem
  have hanew := hturned.parsesAnew_of_isConfined hconfined List.mem_cons_self rfl
  have hwidens := hall session stale letters items hreached hsteps'' hletter
    (Catalog.plain_of_isShallow hshallow) (Catalog.firstMatch_eq_false hmodes)
    (hanew.finishes (Store.answers_of_isShallow hshallow'))
  have hreported := hanew.reports_iff.1 (hwidens.reports source 0 2 hreports)
  cases hafter.symm.trans hreported

end Metasyntax
