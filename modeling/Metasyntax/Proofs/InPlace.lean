import Mathlib.Data.Finset.Card
import Metasyntax.Proofs.Meaning

/-!
# What a rule calls in place

A parser asks for some rules where it starts itself, the others only after text has
been taken. The first are read off a definition: they stand where every part before
them may be skipped. Where no rule comes back to itself in this way, the rules have an
order in which each waits only for lower ones, and no more ranks than there are definitions.
-/

set_option autoImplicit false

namespace Metasyntax

namespace Catalog

inductive Nullable (catalog : Catalog) : Parser → Prop
  | literal {terminal : Literal} : terminal.pattern = .text "" →
      Nullable catalog (.literal terminal)
  | alternation {mode : ModeId} {branches : List Parser} {branch : Parser} : branch ∈ branches →
      Nullable catalog branch → Nullable catalog (.alternation mode branches)
  | concatenation {parts : List Parser} : (∀ part ∈ parts, Nullable catalog part) →
      Nullable catalog (.concatenation parts)
  | optional {cache : CacheId} {element : Parser} : Nullable catalog (.optional cache element)
  | never {cache : CacheId} {bounds : Bounds} {element : Parser} : bounds.min = 0 →
      Nullable catalog (.repetition cache bounds element)
  | repetition {cache : CacheId} {bounds : Bounds} {element : Parser} : Nullable catalog element →
      Nullable catalog (.repetition cache bounds element)
  | rule {ref : RuleRef} {rule : RuleId} {slot : Slot} {definition : Parser} :
      catalog.resolve ref = .ok rule → catalog.bound rule = .ok (slot, definition) →
      Nullable catalog definition → Nullable catalog (.rule ref)

inductive Leading (catalog : Catalog) : Parser → RuleRef → Prop
  | rule {ref : RuleRef} : Leading catalog (.rule ref) ref
  | alternation {mode : ModeId} {branches : List Parser} {branch : Parser} {ref : RuleRef} :
      branch ∈ branches → Leading catalog branch ref →
      Leading catalog (.alternation mode branches) ref
  | concatenation {before after : List Parser} {part : Parser} {ref : RuleRef} :
      (∀ part ∈ before, catalog.Nullable part) → Leading catalog part ref →
      Leading catalog (.concatenation (before ++ part :: after)) ref
  | optional {cache : CacheId} {element : Parser} {ref : RuleRef} : Leading catalog element ref →
      Leading catalog (.optional cache element) ref
  | repetition {cache : CacheId} {bounds : Bounds} {element : Parser} {ref : RuleRef} :
      0 < bounds.min ∨ bounds.max ≠ some 0 → Leading catalog element ref →
      Leading catalog (.repetition cache bounds element) ref

/-- A rule calls another at the offset where it is itself asked for: one that its
definition leads with, or the one that it excludes. -/
inductive CallsInPlace (catalog : Catalog) (rule : RuleId) : RuleId → Prop
  | definition {rule' : RuleId} {slot : Slot} {definition : Parser} {ref : RuleRef} :
      catalog.bound rule = .ok (slot, definition) → catalog.Leading definition ref →
      catalog.resolve ref = .ok rule' → CallsInPlace catalog rule rule'
  | exclusion {excluded : RuleId} {slot : Slot} {definition : Parser} {ref : RuleRef} :
      catalog.bound rule = .ok (slot, definition) → slot.exclusion = some ref →
      catalog.resolve ref = .ok excluded → CallsInPlace catalog rule excluded

variable {catalog : Catalog}

theorem Leading.mem_walk {parser : Parser} {ref : RuleRef} (h : catalog.Leading parser ref) :
    .rule ref ∈ parser.walk := by
  induction h with
  | rule => simp [Parser.walk]
  | alternation hbranch _ ih =>
    exact List.mem_cons_of_mem _ (Parser.mem_walkAll.2 ⟨_, hbranch, ih⟩)
  | concatenation _ _ ih =>
    exact List.mem_cons_of_mem _ (Parser.mem_walkAll.2 ⟨_, by simp, ih⟩)
  | optional _ ih | repetition _ _ ih => exact List.mem_cons_of_mem _ ih

theorem definition?_isSome_of_bound {rule : RuleId} {slot : Slot} {definition : Parser}
    (h : catalog.bound rule = .ok (slot, definition)) : (catalog.definition? rule).isSome := by
  by_contra hnone
  obtain ⟨error, herror, -⟩ := bound_of_definition?_eq_none (Option.not_isSome_iff_eq_none.1 hnone)
  cases herror.symm.trans h

section
variable (catalog)

open Classical in
noncomputable def awaited (rule : RuleId) : Finset RuleId :=
  catalog.boundRules.toFinset.filter fun rule' => Relation.TransGen catalog.CallsInPlace rule rule'

noncomputable def rank (rule : RuleId) : Nat := (catalog.awaited rule).card

end

open Classical in
theorem mem_awaited {rule rule' : RuleId} : rule' ∈ catalog.awaited rule ↔
    rule' ∈ catalog.boundRules ∧ Relation.TransGen catalog.CallsInPlace rule rule' := by
  rw [awaited, Finset.mem_filter, List.mem_toFinset]

theorem rank_lt_of_callsInPlace {rule rule' : RuleId} (h : catalog.CallsInPlace rule rule')
    (hacyclic : ¬ Relation.TransGen catalog.CallsInPlace rule' rule')
    (hbound : (catalog.definition? rule').isSome) : catalog.rank rule' < catalog.rank rule := by
  refine Finset.card_lt_card ((Finset.ssubset_iff_of_subset fun other hother => ?_).2
    ⟨rule', mem_awaited.2 ⟨mem_boundRules.2 hbound, .single h⟩,
      fun hself => hacyclic (mem_awaited.1 hself).2⟩)
  obtain ⟨hall, hcalls⟩ := mem_awaited.1 hother
  exact mem_awaited.2 ⟨hall, .head h hcalls⟩

theorem rank_lt_ruleCount {rule : RuleId} (hbound : (catalog.definition? rule).isSome)
    (hacyclic : ¬ Relation.TransGen catalog.CallsInPlace rule rule) :
    catalog.rank rule < catalog.ruleCount := by
  have hproper : catalog.awaited rule ⊂ catalog.boundRules.toFinset :=
    (Finset.ssubset_iff_of_subset fun other hother =>
      List.mem_toFinset.2 (mem_awaited.1 hother).1).2 ⟨rule,
        List.mem_toFinset.2 (mem_boundRules.2 hbound), fun hself => hacyclic (mem_awaited.1 hself).2⟩
  rw [← length_boundRules]
  exact (Finset.card_lt_card hproper).trans_le (List.toFinset_card_le _)

/-- A parse comes from one offset of a text to another: it stays or comes to one that lies
further on in the text and has less room. -/
def Goes (source : Source) (start stop : Nat) : Prop :=
  Near source start source stop ∧ Onward source start stop

theorem goes_stepping (source : Source) : Stepping source (Goes source) where
  refl o := ⟨Near.refl .., (onward_stepping source).refl o⟩
  trans h h' := ⟨h.1.trans h'.1, (onward_stepping source).trans h.2 h'.2⟩
  matchAt h := ⟨near_matchAt h, (onward_stepping source).matchAt h⟩

theorem Goes.room_lt {source : Source} {start stop : Nat} (h : Goes source start stop)
    (hne : stop ≠ start) : source.room stop < source.room start :=
  h.1.resolve_left fun hsame => hne hsame.2

theorem Goes.room_le {source : Source} {start stop : Nat} (h : Goes source start stop) :
    source.room stop ≤ source.room start := by
  rcases h.1 with ⟨-, rfl⟩ | hlt
  · exact Nat.le_refl _
  · exact hlt.le

structure Moves (catalog : Catalog) (parser : Parser) (source : Source) (start stop : Nat) :
    Prop where
  goes : Goes source start stop
  takes : ¬ catalog.Nullable parser → source.room stop < source.room start

theorem moves_matchAt {terminal : Literal} {source : Source} {start : Nat} {m : Match}
    (h : terminal.matchAt source start = some m) :
    catalog.Moves (.literal terminal) source start m.stop where
  goes := (goes_stepping source).matchAt h
  takes hnot := by
    refine ((goes_stepping source).matchAt h).room_lt fun hsame => ?_
    obtain ⟨taken, after, -, hconsume, rfl⟩ := Literal.matchAt_eq_some_iff.1 h
    have htaken := Literal.consume_ne_nil (fun hpattern => hnot (.literal hpattern)) hconsume
    have hzero : byteLength taken = 0 := by simpa using hsame
    exact htaken (byteLength_eq_zero.1 hzero)

theorem Moves.of_imp {parser whole : Parser} {source : Source} {start stop : Nat}
    (h : catalog.Moves parser source start stop)
    (himp : catalog.Nullable parser → catalog.Nullable whole) :
    catalog.Moves whole source start stop :=
  ⟨h.goes, fun hnot => h.takes fun hnullable => hnot (himp hnullable)⟩

theorem Moves.nullable_of_eq {parts : List Parser} {source : Source} {start stop : Nat}
    (h : catalog.Moves (.concatenation parts) source start stop) (hsame : stop = start) :
    ∀ part ∈ parts, catalog.Nullable part := by
  by_contra hnot
  subst hsame
  refine absurd (h.takes fun hnullable => hnot ?_) (lt_irrefl _)
  cases hnullable with
  | concatenation hparts => exact hparts

/-- One more part, after those that come to an offset. -/
theorem Moves.followed {parts : List Parser} {part : Parser} {source : Source}
    {start middle stop : Nat} (h : catalog.Moves (.concatenation parts) source start middle)
    (hpart : catalog.Moves part source middle stop) :
    catalog.Moves (.concatenation (parts ++ [part])) source start stop := by
  refine ⟨(goes_stepping source).trans h.goes hpart.goes, fun hnot => ?_⟩
  by_cases hmiddle : middle = start
  · have hparts := h.nullable_of_eq hmiddle
    subst hmiddle
    refine hpart.takes fun hnullable => hnot (.concatenation fun other hother => ?_)
    rcases List.mem_append.1 hother with hother | hother
    · exact hparts other hother
    · exact List.mem_singleton.1 hother ▸ hnullable
  · exact hpart.goes.room_le.trans_lt (h.goes.room_lt hmiddle)

end Catalog

end Metasyntax
