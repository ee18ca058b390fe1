import Metasyntax.Proofs.Transparency

/-!
# What an edit leaves alone

Two catalogs agree on some grammars when bound rules have the same slots there and
choices have the same modes. If nothing in these grammars leads out of them, what a
parse of them answers in one catalog it answers in the other, so what caches
remember of them stays sound.
-/

set_option autoImplicit false

namespace Metasyntax

namespace Catalog

def within (catalog : Catalog) (grammars : Set GrammarId) : Scope where
  rules := {rule | rule.grammar ∈ grammars}
  nodes := {node | ∃ rule slot definition, rule.grammar ∈ grammars ∧
    catalog.bound rule = .ok (slot, definition) ∧ node ∈ definition.walk}

structure Enclosed (catalog : Catalog) (grammars : Set GrammarId) : Prop where
  target : ∀ rule slot definition ref, rule.grammar ∈ grammars →
    catalog.bound rule = .ok (slot, definition) → ref ∈ definition.references →
      ∀ rule', catalog.resolve ref = .ok rule' → rule'.grammar ∈ grammars
  exclusion : ∀ rule slot definition ref, rule.grammar ∈ grammars →
    catalog.bound rule = .ok (slot, definition) → slot.exclusion = some ref →
      ∀ excluded, catalog.resolve ref = .ok excluded → excluded.grammar ∈ grammars

theorem Enclosed.closed {catalog : Catalog} {grammars : Set GrammarId}
    (h : catalog.Enclosed grammars) : (catalog.within grammars).Closed catalog where
  inner := by
    rintro node ⟨rule, slot, definition, hrule, hbound, hnode⟩ part hpart
    exact ⟨rule, slot, definition, hrule, hbound, definition.walk_trans hnode hpart⟩
  target := by
    rintro ref ⟨rule, slot, definition, hrule, hbound, hnode⟩ rule' hrule'
    exact h.target rule slot definition ref hrule hbound (Parser.mem_references.2 hnode) rule' hrule'
  definition rule hrule slot definition hbound :=
    ⟨rule, slot, definition, hrule, hbound, definition.self_mem_walk⟩
  exclusion rule hrule slot definition ref hbound hexclusion :=
    h.exclusion rule slot definition ref hrule hbound hexclusion

structure Subsumed (grammars : Set GrammarId) (c c' : Catalog) : Prop where
  lost : ∀ id, c'.alive id = true → c.alive id = true
  alive : ∀ id ∈ grammars, c.alive id = true → c'.alive id = true
  bound : ∀ rule, rule.grammar ∈ grammars → ∀ slot definition,
    c.bound rule = .ok (slot, definition) → c'.bound rule = .ok (slot, definition)
  mode : ∀ mode branches, .alternation mode branches ∈ (c.within grammars).nodes →
    c'.firstMatch mode = c.firstMatch mode

structure Completes (grammars : Set GrammarId) (c c' : Catalog) : Prop
    extends Subsumed grammars c c' where
  name : ∀ rule, rule.grammar ∈ grammars → ∀ slot, c.slot? rule = some slot →
    ∃ slot', c'.slot? rule = some slot' ∧ slot'.name = slot.name

theorem Subsumed.resolve_eq {grammars : Set GrammarId} {c c' : Catalog} (h : Subsumed grammars c c')
    {ref : RuleRef} (href : ∀ rule, c.resolve ref = .ok rule → rule.grammar ∈ grammars) :
    c'.resolve ref = c.resolve ref := by
  by_cases halive : c.alive ref.target.grammar = true
  · have hresolve : c.resolve ref = .ok ref.target := if_pos halive
    rw [hresolve, resolve, if_pos (h.alive _ (href _ hresolve) halive)]
  · rw [resolve, resolve, if_neg halive, if_neg fun h' => halive (h.lost _ h')]

namespace Completes

variable {grammars : Set GrammarId} {c c' : Catalog}

theorem nameOf_eq (h : Completes grammars c c') {rule : RuleId} (hrule : rule.grammar ∈ grammars)
    {slot : Slot} (hslot : c.slot? rule = some slot) : c'.nameOf rule = c.nameOf rule := by
  obtain ⟨slot', hslot', hname⟩ := h.name rule hrule slot hslot
  simp [nameOf, hslot, hslot', hname]

end Completes

structure Agrees (grammars : Set GrammarId) (c c' : Catalog) : Prop where
  lost : ∀ id, c'.alive id = true → c.alive id = true
  alive : ∀ id ∈ grammars, c.alive id = true → c'.alive id = true
  bound : ∀ rule, rule.grammar ∈ grammars → ∀ slot definition,
    c'.bound rule = .ok (slot, definition) ↔ c.bound rule = .ok (slot, definition)
  name : ∀ rule, rule.grammar ∈ grammars → ∀ slot, c.slot? rule = some slot →
    ∃ slot', c'.slot? rule = some slot' ∧ slot'.name = slot.name
  found : ∀ id ∈ grammars, ∀ name rule, c.local? id name = some rule → c'.local? id name = some rule
  mode : ∀ mode branches, .alternation mode branches ∈ (c.within grammars).nodes →
    c'.firstMatch mode = c.firstMatch mode

namespace Agrees

variable {grammars : Set GrammarId} {c c' c'' : Catalog}

theorem refl (grammars : Set GrammarId) (c : Catalog) : Agrees grammars c c :=
  ⟨fun _ h => h, fun _ _ h => h, fun _ _ _ _ => Iff.rfl, fun _ _ slot h => ⟨slot, h, rfl⟩,
    fun _ _ _ _ h => h, fun _ _ _ => rfl⟩

theorem mono {grammars' : Set GrammarId} (h : Agrees grammars c c') (hsub : grammars' ⊆ grammars) :
    Agrees grammars' c c' where
  lost := h.lost
  alive id hid := h.alive id (hsub hid)
  bound rule hrule := h.bound rule (hsub hrule)
  name rule hrule := h.name rule (hsub hrule)
  found id hid := h.found id (hsub hid)
  mode mode branches := fun ⟨rule, slot, definition, hrule, hbound, hnode⟩ =>
    h.mode mode branches ⟨rule, slot, definition, hsub hrule, hbound, hnode⟩

theorem completes (h : Agrees grammars c c') : Completes grammars c c' where
  lost := h.lost
  alive := h.alive
  bound rule hrule slot definition := (h.bound rule hrule slot definition).2
  name := h.name
  mode := h.mode

theorem resolve_of_resolve (h : Agrees grammars c c') {ref : RuleRef} {rule : RuleId}
    (hresolve : c'.resolve ref = .ok rule) : c.resolve ref = .ok rule := by
  rw [resolve] at hresolve ⊢
  split at hresolve
  case isTrue halive =>
    cases hresolve
    exact if_pos (h.lost _ halive)
  case isFalse => cases hresolve

theorem nodes_eq (h : Agrees grammars c c') :
    (c'.within grammars).nodes = (c.within grammars).nodes := by
  ext node
  constructor
  · rintro ⟨rule, slot, definition, hrule, hbound, hnode⟩
    exact ⟨rule, slot, definition, hrule, (h.bound rule hrule slot definition).1 hbound, hnode⟩
  · rintro ⟨rule, slot, definition, hrule, hbound, hnode⟩
    exact ⟨rule, slot, definition, hrule, (h.bound rule hrule slot definition).2 hbound, hnode⟩

theorem nameOf_eq (h : Agrees grammars c c') {rule : RuleId} (hrule : rule.grammar ∈ grammars)
    {slot : Slot} (hslot : c.slot? rule = some slot) : c'.nameOf rule = c.nameOf rule :=
  h.completes.nameOf_eq hrule hslot

theorem trans (h : Agrees grammars c c') (h' : Agrees grammars c' c'') :
    Agrees grammars c c'' where
  lost id hid := h.lost id (h'.lost id hid)
  alive id hid halive := h'.alive id hid (h.alive id hid halive)
  found id hid name rule hrule := h'.found id hid name rule (h.found id hid name rule hrule)
  bound rule hrule slot definition :=
    (h'.bound rule hrule slot definition).trans (h.bound rule hrule slot definition)
  name rule hrule slot hslot := by
    obtain ⟨slot', hslot', hname⟩ := h.name rule hrule slot hslot
    obtain ⟨slot'', hslot'', hname'⟩ := h'.name rule hrule slot' hslot'
    exact ⟨slot'', hslot'', hname'.trans hname⟩
  mode mode branches hmode := by
    rw [← h.mode mode branches hmode]
    exact h'.mode mode branches (h.nodes_eq ▸ hmode)

theorem enclosed (h : Agrees grammars c c') (henclosed : c.Enclosed grammars) :
    c'.Enclosed grammars where
  target rule slot definition ref hrule hbound href rule' hrule' :=
    henclosed.target rule slot definition ref hrule ((h.bound rule hrule slot definition).1 hbound)
      href rule' (h.resolve_of_resolve hrule')
  exclusion rule slot definition ref hrule hbound href excluded hexcluded :=
    henclosed.exclusion rule slot definition ref hrule
      ((h.bound rule hrule slot definition).1 hbound) href excluded (h.resolve_of_resolve hexcluded)

end Agrees

theorem exists_slot_of_bound {catalog : Catalog} {rule : RuleId} {slot : Slot} {definition : Parser}
    (h : catalog.bound rule = .ok (slot, definition)) :
    catalog.slot? rule = some slot ∧ slot.definition = some definition := by
  rw [bound] at h
  split at h
  case h_1 => cases h
  case h_2 found hfound =>
    split at h
    case h_1 => cases h
    case h_2 definition' hdefinition =>
      cases h
      exact ⟨hfound, hdefinition⟩

theorem bound_eq_ok_iff {catalog : Catalog} {rule : RuleId} {slot : Slot} {definition : Parser} :
    catalog.bound rule = .ok (slot, definition) ↔
      catalog.slot? rule = some slot ∧ slot.definition = some definition := by
  refine ⟨exists_slot_of_bound, fun ⟨hslot, hdefinition⟩ => ?_⟩
  rw [bound, hslot]
  simp [hdefinition]

/-- A rule that is not bound is entered by no call. -/
theorem call_of_bound_error {catalog : Catalog} {rule : RuleId} {error : GrammarError}
    (h : catalog.bound rule = .error error) (depth : Nat) (source : Source) {ref : RuleRef}
    (href : ref.target = rule) (start : Nat) :
    ∃ error, catalog.call depth source ref start =
      (.error error : Except GrammarError Attempt) := by
  cases depth with
  | zero => exact ⟨_, rfl⟩
  | succ depth =>
    rw [call]
    by_cases halive : catalog.alive ref.target.grammar = true
    · exact ⟨_, callOnce_of_bound_error (by rw [resolve, if_pos halive]) (href ▸ h)⟩
    · exact ⟨_, callOnce_of_resolve_error (by rw [resolve, if_neg halive])⟩

theorem nameOf_of_bound {catalog : Catalog} {rule : RuleId} {slot : Slot} {definition : Parser}
    (h : catalog.bound rule = .ok (slot, definition)) : catalog.nameOf rule = slot.name := by
  simp [nameOf, (exists_slot_of_bound h).1]

/-- Two catalogs that agree with a third cover one another. -/
theorem Agrees.subsumed {grammars : Set GrammarId} {c c' c'' : Catalog} (h : Agrees Set.univ c c')
    (h' : Agrees Set.univ c c'') : Subsumed grammars c' c'' where
  lost id hid := h.alive id (Set.mem_univ id) (h'.lost id hid)
  alive id _ hid := h'.alive id (Set.mem_univ id) (h.lost id hid)
  bound rule _ slot definition hbound :=
    (h'.bound rule (Set.mem_univ _) slot definition).2
      ((h.bound rule (Set.mem_univ _) slot definition).1 hbound)
  mode mode branches hmode := by
    rw [(h.mono (Set.subset_univ _)).nodes_eq] at hmode
    rw [(h.mono (Set.subset_univ grammars)).mode mode branches hmode]
    exact (h'.mono (Set.subset_univ grammars)).mode mode branches hmode

section
variable {grammars : Set GrammarId} {c c' : Catalog}

/-- What is answered in one catalog is answered in another that completes it. -/
theorem call_of_subsumed (henclosed : c.Enclosed grammars) (h : Subsumed grammars c c') (depth : Nat)
    (source : Source) {ref : RuleRef}
    (href : ∀ rule, c.resolve ref = .ok rule → rule.grammar ∈ grammars) (start : Nat) :
    (approximation fun _ => True).rel (StopsIn fun _ => True) (c.call depth source ref start)
      (c'.call depth source ref start) := by
  -- Along the depth, since an exclusion is a call on another source. With no depth left a call
  -- fails, and a call that fails promises nothing.
  induction depth generalizing source ref start with
  | zero => exact (approximation _).throw _ trivial
  | succ depth ih =>
    rw [call, call]
    cases hresolve : c.resolve ref with
    | error error =>
      rw [callOnce_of_resolve_error hresolve]
      exact ⟨Or.inl ⟨error, trivial, rfl⟩, fun a h => by cases h⟩
    | ok rule =>
      cases hbound : c.bound rule with
      | error error =>
        rw [callOnce_of_bound_error hresolve hbound]
        exact ⟨Or.inl ⟨error, trivial, rfl⟩, fun a h => by cases h⟩
      | ok found =>
        obtain ⟨slot, definition⟩ := found
        have hrule := href rule hresolve
        have hbound' := h.bound rule hrule slot definition hbound
        have hname : c'.nameOf rule = c.nameOf rule := by
          rw [nameOf_of_bound hbound, nameOf_of_bound hbound']
        refine callOnce_rel settling_true trivial (h.resolve_eq href).symm fun rule' hrule' => ?_
        rw [h.resolve_eq href] at hrule'
        cases hresolve.symm.trans hrule'
        exact
          { bound := hbound.trans hbound'.symm
            refer := by rw [refer, refer, hname]
            body := fun slot' definition' hbound'' => by
              cases hbound'.symm.trans hbound''
              exact
                { call := fun ref' href' o _ => ih source (henclosed.target rule slot definition ref'
                    hrule hbound (Parser.mem_references.2 href')) o
                  mode := fun mode branches hmode =>
                    (h.mode mode branches ⟨rule, slot, definition, hrule, hbound, hmode⟩).symm
                  remember := fun _ _ _ _ _ _ h => h }
            exclusion := fun slot' definition' ref' hbound'' hexclusion => by
              cases hbound'.symm.trans hbound''
              have href' := henclosed.exclusion rule slot definition ref' hrule hbound hexclusion
              refine ⟨(h.resolve_eq href').symm, fun excluded hexcluded source' _ => ?_⟩
              rw [h.resolve_eq href'] at hexcluded
              have hgrammar := href' excluded hexcluded
              cases hbound' : c.bound excluded with
              | error error =>
                have htarget : (c.refer excluded).target = excluded := rfl
                -- There may be no name to compare where the excluded rule is not bound, but there
                -- is no answer either.
                obtain ⟨error, herror⟩ := call_of_bound_error hbound' depth source' htarget 0
                refine ⟨fun _ => False, fun _ => False.elim, ?_⟩
                rw [herror]
                exact ⟨Or.inl ⟨error, trivial, rfl⟩, fun a h => by cases h⟩
              | ok found =>
                obtain ⟨slot', definition'⟩ := found
                have hrefer : c.refer excluded = c'.refer excluded := by
                  rw [refer, refer, nameOf_of_bound hbound',
                    nameOf_of_bound (h.bound excluded hgrammar slot' definition' hbound')]
                refine ⟨StopsIn fun _ => True, fun _ _ => hrefer, ?_⟩
                rw [← hrefer]
                exact ih source' (fun rule' hrule' => eq_of_resolve_refer hrule' ▸ hgrammar) 0 }

theorem ruleMatches_of_completes (henclosed : c.Enclosed grammars) (h : Completes grammars c c')
    {rule : RuleId} (hrule : rule.grammar ∈ grammars) {slot : Slot}
    (hslot : c.slot? rule = some slot) {source : Source} {start : Nat} {attempt : Attempt}
    (hattempt : c.ruleMatches rule source start = (.ok attempt : Except GrammarError Attempt)) :
    c'.ruleMatches rule source start = (.ok attempt : Except GrammarError Attempt) := by
  have hrefer : c'.refer rule = c.refer rule := by rw [refer, refer, h.nameOf_eq hrule hslot]
  have href : ∀ rule', c.resolve (c.refer rule) = .ok rule' → rule'.grammar ∈ grammars :=
    fun rule' hrule' => eq_of_resolve_refer hrule' ▸ hrule
  have hsame := (call_of_subsumed henclosed h.toSubsumed (c.depthBound source) source href start).1
  have hsettled : Approximates GrammarError.TooDeep
      (c'.call (c.depthBound source) source (c.refer rule) start)
      (c'.settled source (c.refer rule) start) := call_approximates_settled _ _ _ _
  rw [ruleMatches] at hattempt ⊢
  rw [hattempt] at hsame
  rw [hsame.eq_of_ok] at hsettled
  rw [hrefer]
  exact hsettled.eq_of_ok

theorem explore_of_subsumed (henclosed : c.Enclosed grammars) (h : Subsumed grammars c c') {node : Parser}
    (hnode : node ∈ (c.within grammars).nodes) {source : Source} {start : Nat} {attempt : Attempt}
    (hattempt : node.explore c.firstMatch (c.settled source) source start = .ok attempt) :
    node.explore c'.firstMatch (c'.settled source) source start = .ok attempt := by
  have hwalk := henclosed.closed.inner node hnode
  have hlinked : Linked (approximation fun _ => True) (fun _ => True) source c.firstMatch
      c'.firstMatch (c.settled source) (c'.call (c.depthBound source) source) node.walk :=
    { call := fun ref href o _ => call_of_subsumed henclosed h _ source
        (henclosed.closed.target ref (hwalk _ href)) o
      mode := fun mode branches hmode => (h.mode mode branches (hwalk _ hmode)).symm
      remember := fun _ _ _ _ _ _ h => h }
  have hsame := (enumerate_rel (settling_true.consume source) node hlinked start trivial).1
  rw [Parser.enumerate_eq_explore, Parser.enumerate_eq_explore, hattempt] at hsame
  have hsettled : Approximates GrammarError.TooDeep
      (node.explore c'.firstMatch (c'.call (c.depthBound source) source) source start)
      (node.explore c'.firstMatch (c'.settled source) source start) :=
    explore_approximates_settled _ node source start
  rw [hsame.eq_of_ok] at hsettled
  exact hsettled.eq_of_ok

end

end Catalog

theorem Sound.subsumed {grammars : Set GrammarId} {c c' : Catalog} {caches : Caches}
    (hsound : Sound c (c.within grammars).nodes caches) (henclosed : c.Enclosed grammars)
    (h : Catalog.Subsumed grammars c c') : Sound c' (c.within grammars).nodes caches :=
  fun node hnode id hid key attempt hholds =>
    Catalog.explore_of_subsumed henclosed h hnode (hsound node hnode id hid key attempt hholds)

theorem Sound.agrees {grammars : Set GrammarId} {c c' : Catalog} {caches : Caches}
    (hsound : Sound c (c.within grammars).nodes caches) (henclosed : c.Enclosed grammars)
    (h : Catalog.Agrees grammars c c') : Sound c' (c'.within grammars).nodes caches := by
  rw [h.nodes_eq]
  exact hsound.subsumed henclosed h.completes.toSubsumed

end Metasyntax
