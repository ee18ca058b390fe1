import Metasyntax.Proofs.Imports
import Metasyntax.Proofs.Influence
import Metasyntax.Proofs.Joining

/-!
# Rules that refer to nothing

A rule whose definition has no references, and which excludes nothing, decides by itself which
texts it takes. It goes on to take these as long as no rule is changed, whatever is looked up,
put together or parsed in the meantime, since nothing but its own caches has to do with it.
-/

set_option autoImplicit false

namespace Metasyntax

structure Store.Leaf (store : Store) (rule : RuleId) (definition : Parser) : Prop where
  living : rule.grammar ∈ store.living
  bound : ∃ slot, store.catalog.bound rule = .ok (slot, definition) ∧ slot.exclusion = none
  sound : Sound store.catalog {node | node ∈ definition.walk} store.caches

namespace Parser

variable {definition : Parser} {source : Source}

theorem not_asks (h : definition.references = []) {firstMatch : ModeId → Bool}
    {meaning : RuleRef → Nat → Set Nat} {start : Nat} {ref : RuleRef} {o : Nat} :
    ¬ definition.Asks firstMatch meaning source start ref o := by
  intro hasks
  have hmem := Parser.mem_references.2 (mem_walk_of_asks definition hasks)
  rw [h] at hmem
  cases hmem

end Parser

def Scope.single (rule : RuleId) (definition : Parser) : Scope :=
  ⟨{rule}, {node | node ∈ definition.walk}⟩

def Catalog.ownEnds (catalog : Catalog) (definition : Parser) (source : Source) : Set Nat :=
  definition.ends catalog.firstMatch (fun _ _ => ∅) source 0

/-- A parse of a whole text succeeds if some match takes all of it. -/
theorem Catalog.isOk_whole {catalog : Catalog} {rule : RuleId} {source : Source} {attempt : Attempt}
    (h : catalog.ruleMatches rule source 0 = (.ok attempt : Except GrammarError Attempt)) :
    (catalog.whole rule source attempt).isOk = attempt.takesAll source := by
  cases attempt with
  | error failure => rfl
  | ok found =>
    obtain ⟨node, stop, hlongest, -, -⟩ := exists_longest_of_ruleMatches h
    rw [whole, Attempt.takesAll, hlongest, Option.any_some]
    dsimp only
    by_cases hstop : stop < source.size
    · rw [if_pos hstop, decide_eq_false (Nat.not_le_of_lt hstop)]
      rfl
    · rw [if_neg hstop, decide_eq_true (Nat.le_of_not_lt hstop)]
      rfl

structure Parser.Defines (definition : Parser) (language : List Char → Prop) : Prop where
  own : definition.references = []
  ordered : Parser.Ordered definition.walk
  takes (catalog : Catalog) (text : String) :
    (Source.ofString text).size ∈ catalog.ownEnds definition (.ofString text) ↔
      language text.toList

namespace Store.Leaf

variable {store store' : Store} {rule : RuleId} {definition : Parser}

section
variable (h : store.Leaf rule definition) (hown : definition.references = [])
include h hown

theorem closed : (Scope.single rule definition).Closed store.catalog where
  inner node hnode _ hpart := definition.walk_trans hnode hpart
  target ref href := by
    have hmem := Parser.mem_references.2 href
    rw [hown] at hmem
    cases hmem
  definition := by
    rintro _ rfl slot definition' hbound
    obtain ⟨slot', hbound', -⟩ := h.bound
    cases hbound'.symm.trans hbound
    exact definition.self_mem_walk
  exclusion := by
    rintro _ rfl slot definition' ref hbound hexclusion
    obtain ⟨slot', hbound', hnone⟩ := h.bound
    cases hbound'.symm.trans hbound
    cases hnone.symm.trans hexclusion

omit hown in
theorem same_of_quiet (hquiet : Quiet store store') :
    (Scope.single rule definition).Same store.catalog store'.catalog where
  alive id := Bool.eq_iff_iff.2 (Set.ext_iff.1 hquiet.living_eq id)
  slot := by
    rintro _ rfl
    obtain ⟨slot, hbound, -⟩ := h.bound
    have hbound' := (hquiet.agrees.bound _ (Set.mem_univ _) slot definition).2 hbound
    rw [(Catalog.bound_eq_ok_iff.1 hbound).1, (Catalog.bound_eq_ok_iff.1 hbound').1]
  mode mode branches hnode := by
    obtain ⟨slot, hbound, -⟩ := h.bound
    exact hquiet.agrees.mode mode branches
      ⟨rule, slot, definition, Set.mem_univ _, hbound, hnode⟩

theorem quiet (hquiet : Quiet store store') : store'.Leaf rule definition where
  living := hquiet.living_eq ▸ h.living
  bound := by
    obtain ⟨slot, hbound, hexclusion⟩ := h.bound
    exact ⟨slot, (hquiet.agrees.bound _ (Set.mem_univ _) slot definition).2 hbound, hexclusion⟩
  sound := ((h.same_of_quiet hquiet).sound (h.closed hown) h.sound).of_holds hquiet.holds

theorem ruleMatches_finds (hordered : Parser.Ordered definition.walk) (source : Source) :
    ∃ attempt, store.catalog.ruleMatches rule source 0 = (.ok attempt : Except GrammarError _) ∧
      attempt.Found (store.catalog.ownEnds definition source) := by
  obtain ⟨slot, hbound, hexclusion⟩ := h.bound
  rw [Catalog.ruleMatches, Catalog.depthBound, Catalog.call]
  exact Catalog.callOnce_finds (Catalog.resolve_refer_of_alive h.living) hbound hordered
    (fun ref o hasks => absurd hasks (Parser.not_asks hown)) hexclusion

/-- A parse of a whole text by the rule succeeds if the text's end is one of the ends of the
definition, whatever is remembered, and otherwise it fails to parse. -/
theorem parseAll_ends {held : Set Parser} (hsane : Sane held store)
    (hordered : Parser.Ordered definition.walk) (source : Source) :
    ∃ result, (Edit.parsing (·.parseAll rule source) store).1 = .ok result ∧
      (result.isOk = true ↔ source.size ∈ store.catalog.ownEnds definition source) := by
  obtain ⟨slot, hbound, -⟩ := h.bound
  have hclosed := h.closed hown
  have hapart : Apart {node | node ∈ definition.walk} {node | node ∈ definition.walk} :=
    fun a ha b hb => hsane.apart_definition Set.univ rule slot definition hbound a ha b
      ⟨rule, slot, definition, Set.mem_univ _, hbound, hb⟩
  obtain ⟨attempt, hattempt, hfound⟩ := h.ruleMatches_finds hown hordered source
  have hmatches : (Edit.parsing (·.ruleMatches rule source 0) store).1 = .ok attempt := by
    have hagree := (hclosed.parsesAnew hapart rfl h.sound).ruleMatches source 0
    rw [hattempt] at hagree
    exact hagree.eq_of_ok
  refine ⟨store.catalog.whole rule source attempt, ?_, ?_⟩
  · change ((store.catalog.parseAll rule source : Run _).run store.caches).1 = _
    rw [Catalog.run_parseAll]
    exact congrArg (Except.map (store.catalog.whole rule source)) hmatches
  · rw [Catalog.isOk_whole hattempt]
    refine Attempt.takesAll_iff hfound fun e he => ?_
    exact Parser.related_of_mem_ends (onward_stepping source) definition 0
      (fun ref o hasks => absurd hasks (Parser.not_asks hown)) e he

end

end Store.Leaf

/-- What holds of a leaf in a sane store, and is spoiled neither by parses nor by quiet edits. -/
theorem calm_leaf {held : Set Parser} {rule : RuleId} {definition : Parser}
    (hown : definition.references = []) :
    Calm fun store => Sane held store ∧ store.Leaf rule definition where
  quiet hquiet h := ⟨hquiet.sane h.1, h.2.quiet hown hquiet⟩
  parsing {_ run} hrun store h := by
    obtain ⟨hsane, hleaf⟩ := h
    obtain ⟨slot, hbound, hexclusion⟩ := hleaf.bound
    have hwithin {node : Parser} (hnode : node ∈ definition.walk) :
        node ∈ (store.catalog.within Set.univ).nodes :=
      ⟨rule, slot, definition, Set.mem_univ _, hbound, hnode⟩
    have hall (other : RuleId) (slot : Slot) (definition' : Parser)
        (hother : store.catalog.bound other = .ok (slot, definition')) :
        Apart {node | node ∈ definition'.walk} {node | node ∈ definition.walk} :=
      fun a ha b hb => hsane.apart_definition Set.univ other slot definition' hother a ha b
        (hwithin hb)
    have hkeeps := hrun store.catalog _ (hleaf.closed hown) (hall rule slot definition hbound) hall
      _ store.caches ⟨hleaf.sound, rfl⟩
    exact ⟨hsane.of_caches hkeeps.1.2, hleaf.living, ⟨slot, hbound, hexclusion⟩, hkeeps.1.1⟩

namespace Desk

/-- A rule goes by a name in a grammar and decides a language: from now on, as long as no rule is
changed, a parse of a whole text by the rule succeeds if the text is of the language, and otherwise
it fails to parse. -/
structure Decides (desk : Desk) (id : GrammarId) (name : String) (rule : RuleId)
    (language : List Char → Prop) : Prop where
  found : desk.store.catalog.local? id name = some rule
  parses {desk' : Desk} : Relation.ReflTransGen Uses desk desk' → ∀ text : String, ∃ result,
    (Edit.parsing (·.parseAll rule (.ofString text)) desk'.store).1 = .ok result ∧
      (result.isOk = true ↔ language text.toList)

theorem leaf_of_uses {desk desk' : Desk} (huses : Relation.ReflTransGen Uses desk desk')
    (hsane : Sane desk.held desk.store) {rule : RuleId} {definition : Parser}
    (hown : definition.references = []) (h : desk.store.Leaf rule definition) :
    Sane desk'.held desk'.store ∧ desk'.store.Leaf rule definition := by
  induction huses with
  | refl => exact ⟨hsane, h⟩
  | tail _ hstep ih =>
    have hleaf := hstep.calm ih.1 (calm_leaf hown) ⟨ih.1.forget (Set.empty_subset _), ih.2⟩
    exact ⟨hstep.sane ih.1, hleaf.2⟩

/-- A leaf decides the language that its definition has. -/
theorem decides_of_leaf {desk : Desk} (hsane : Sane desk.held desk.store) {id : GrammarId}
    {name : String} {rule : RuleId} {definition : Parser} {language : List Char → Prop}
    (hfound : desk.store.catalog.local? id name = some rule)
    (hdefines : definition.Defines language) (h : desk.store.Leaf rule definition) :
    desk.Decides id name rule language where
  found := hfound
  parses huses text := by
    obtain ⟨hsane', hleaf⟩ := leaf_of_uses huses hsane hdefines.own h
    obtain ⟨result, hparse, hends⟩ :=
      hleaf.parseAll_ends hdefines.own hsane' hdefines.ordered (.ofString text)
    exact ⟨result, hparse, hends.trans (hdefines.takes _ text)⟩

end Desk

namespace Parser

variable {terminal : Literal} {source : Source}

theorem Defines.of_iff {definition : Parser} {language language' : List Char → Prop}
    (h : definition.Defines language) (hiff : ∀ cs, language cs ↔ language' cs) :
    definition.Defines language' :=
  ⟨h.own, h.ordered, fun catalog text => (h.takes catalog text).trans (hiff _)⟩

section
variable {firstMatch : ModeId → Bool} {meaning : RuleRef → Nat → Set Nat}

theorem mem_ends_literal {start e : Nat} :
    e ∈ (Parser.literal terminal).ends firstMatch meaning source start ↔
      ∃ taken after, source.rest start = some (taken ++ after) ∧
        terminal.consume (taken ++ after) = some taken ∧ e = start + byteLength taken := by
  rw [ends]
  constructor
  · rintro ⟨m, hm, rfl⟩
    obtain ⟨taken, after, hrest, htaken, rfl⟩ := Literal.matchAt_eq_some_iff.1 hm
    exact ⟨taken, after, hrest, htaken, rfl⟩
  · rintro ⟨taken, after, hrest, htaken, rfl⟩
    exact ⟨_, Literal.matchAt_eq_some_iff.2 ⟨taken, after, hrest, htaken, rfl⟩, rfl⟩

/-- From the beginning of a text, a terminal that takes one character at a time comes as far as
there are characters that it takes. -/
theorem mem_reach_single {P : Char → Prop} (hterminal : terminal.pattern ≠ .text "")
    (hsingle : ∀ cs, terminal.consume cs = some cs ↔ ∃ c, P c ∧ cs = [c]) {count e : Nat} :
    e ∈ reach (fun o => (Parser.literal terminal).ends firstMatch meaning source o) count {0} ↔
      ∃ taken after, source.text.toList = taken ++ after ∧ taken.length = count ∧
        (∀ c ∈ taken, P c) ∧ e = byteLength taken := by
  have hrest {taken after : List Char} (htext : source.text.toList = taken ++ after) :
      source.rest (byteLength taken) = some after :=
    Source.rest_eq_some_iff.2 ⟨taken, htext, rfl⟩
  induction count generalizing e with
  | zero =>
    simp only [reach, Set.mem_singleton_iff, List.length_eq_zero_iff]
    constructor
    · rintro rfl
      exact ⟨[], _, rfl, rfl, by simp, rfl⟩
    · rintro ⟨_, after, -, rfl, -, rfl⟩
      rfl
  | succ count ih =>
    rw [reach_succ]
    constructor
    · rintro ⟨o, ho, he⟩
      obtain ⟨taken, after, htext, hlength, hall, rfl⟩ := ih.1 ho
      obtain ⟨next, after', hnext, hconsume, rfl⟩ := mem_ends_literal.1 he
      obtain ⟨c, hc, rfl⟩ := (hsingle next).1 ((Literal.consume_append_iff hterminal).1 hconsume)
      rw [hrest htext, Option.some_inj] at hnext
      refine ⟨taken ++ [c], after', by rw [htext, hnext, List.append_assoc], ?_, ?_, ?_⟩
      · rw [List.length_append, hlength, List.length_singleton]
      · simpa [or_imp, forall_and] using ⟨hall, hc⟩
      · rw [byteLength_append]
    · rintro ⟨taken, after, htext, hlength, hall, rfl⟩
      have hne : taken ≠ [] := List.ne_nil_of_length_eq_add_one hlength
      obtain ⟨front, c, rfl⟩ : ∃ front c, taken = front ++ [c] :=
        ⟨_, _, (List.dropLast_append_getLast hne).symm⟩
      obtain ⟨hfront, hc⟩ := List.forall_mem_append.1 hall
      have hplace : source.text.toList = front ++ ([c] ++ after) := by
        rw [htext, List.append_assoc]
      have hconsume : terminal.consume ([c] ++ after) = some [c] :=
        (Literal.consume_append_iff hterminal).2
          ((hsingle _).2 ⟨c, hc c (List.mem_singleton_self c), rfl⟩)
      refine ⟨byteLength front, ih.2 ⟨front, _, hplace, ?_, hfront, rfl⟩, ?_⟩
      · rwa [List.length_append, List.length_singleton, Nat.add_right_cancel_iff] at hlength
      · exact mem_ends_literal.2 ⟨[c], after, hrest hplace, hconsume, byteLength_append _ _⟩

end

/-- A terminal by itself takes what it consumes in its entirety. -/
theorem defines_literal (terminal : Literal) :
    (Parser.literal terminal).Defines fun cs => terminal.consume cs = some cs where
  own := rfl
  ordered _ _ _ hnode := by
    rw [walk, List.mem_singleton] at hnode
    cases hnode
  takes catalog text := by
    rw [Catalog.ownEnds, mem_ends_literal, Source.size_eq]
    constructor
    · rintro ⟨taken, after, hrest, hconsume, hsize⟩
      rw [Source.rest_zero, Option.some_inj] at hrest
      rw [hrest, byteLength_append] at hsize
      obtain rfl : after = [] := byteLength_eq_zero.1 (by omega)
      rw [List.append_nil] at hrest hconsume
      rw [Source.text_ofString] at hrest
      rwa [hrest]
    · intro hconsume
      refine ⟨text.toList, [], ?_, ?_, ?_⟩
      · rw [Source.rest_zero, List.append_nil, Source.text_ofString]
      · rwa [List.append_nil]
      · rw [Nat.zero_add, Source.text_ofString]

/-- A terminal that takes one character at a time, within bounds. -/
theorem defines_repetition {P : Char → Prop} (hterminal : terminal.pattern ≠ .text "")
    (hsingle : ∀ cs, terminal.consume cs = some cs ↔ ∃ c, P c ∧ cs = [c]) (cache : CacheId)
    {bounds : Bounds} (hordered : bounds.Ordered) :
    (Parser.repetition cache bounds (.literal terminal)).Defines fun cs =>
      (∀ c ∈ cs, P c) ∧ bounds.min ≤ cs.length ∧ ∀ most ∈ bounds.max, cs.length ≤ most where
  own := rfl
  ordered cache' bounds' element hnode := by
    simp only [walk, List.mem_cons, List.not_mem_nil, or_false, reduceCtorEq] at hnode
    cases hnode
    exact hordered
  takes catalog text := by
    rw [Catalog.ownEnds, ends, Source.size_eq]
    simp only [Set.mem_ofPred_eq, mem_reach_single hterminal hsingle, Source.text_ofString]
    constructor
    · rintro ⟨_, hmin, hmax, taken, after, htext, rfl, hall, hsize⟩
      rw [htext, byteLength_append] at hsize
      obtain rfl : after = [] := byteLength_eq_zero.1 (by omega)
      rw [htext, List.append_nil]
      exact ⟨hall, hmin, hmax⟩
    · rintro ⟨hall, hmin, hmax⟩
      exact ⟨_, hmin, hmax, text.toList, [], (List.append_nil _).symm, rfl, hall, rfl⟩

end Parser

end Metasyntax
