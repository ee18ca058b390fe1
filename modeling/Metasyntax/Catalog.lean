import Std.Data.ExtTreeMap.Lemmas
import Metasyntax.Cache.Shelf
import Metasyntax.Text.Lowercase

/-!
# Grammars

A grammar is a table of rules under names that are compared without regard to
case. A rule exists as soon as it is referred to and is unbound until it gets a
definition. Names that a grammar does not have are looked up in the grammars it
is based on, nearest first. A catalog has every grammar there is, under its
identity, with the modes of all alternations. It is what a parse reads and never
changes.
-/

set_option autoImplicit false

namespace Metasyntax

inductive ProseMode where
  /-- It is an error. -/
  | reject
  /-- It becomes a part that never matches. -/
  | placeholder
  deriving DecidableEq, Repr, Inhabited

structure Options where
  /-- Whether alternations stop at their first alternative that matches. -/
  firstMatch : Bool
  prose : ProseMode
  /-- The capacity of each cache that comes from a rule's text. -/
  cacheSize : Capacity
  deriving DecidableEq, Repr, Inhabited

def Options.standard : Options := ⟨false, .reject, ⟨10000, by decide⟩⟩

structure Slot where
  name : String
  definition : Option Parser
  /-- The rule whose texts are not accepted as matches of this one. -/
  exclusion : Option RuleRef
  deriving Inhabited

structure RuleTable where
  slots : Array Slot
  index : Std.ExtTreeMap String Nat
  place_lt : ∀ (name : String) (place : Nat), index[name]? = some place → place < slots.size

namespace RuleTable

def empty : RuleTable := ⟨#[], ∅, by simp⟩

instance : Inhabited RuleTable := ⟨empty⟩

def size (table : RuleTable) : Nat := table.slots.size

def find? (table : RuleTable) (name : String) : Option Nat := table.index[lowerText name]?

def push (table : RuleTable) (name : String) : RuleTable where
  slots := table.slots.push ⟨name, none, none⟩
  index := table.index.insert (lowerText name) table.slots.size
  place_lt other place h := by
    rw [Std.ExtTreeMap.getElem?_insert] at h
    rw [Array.size_push]
    split at h
    · exact Option.some.inj h ▸ Nat.lt_succ_self _
    · exact Nat.lt_succ_of_lt (table.place_lt other place h)

def truncate (table : RuleTable) (known : Nat) : RuleTable where
  slots := table.slots.take known
  index := table.index.filter fun _ place => place < known
  place_lt name place h := by
    rw [Std.ExtTreeMap.getElem?_filter', Option.filter_eq_some_iff] at h
    have hplace := table.place_lt name place h.1
    simp only [decide_eq_true_eq] at h
    simp only [Array.take_eq_extract, Array.size_extract]
    omega

def update (table : RuleTable) (place : Nat) (change : Slot → Slot) : RuleTable :=
  { table with
    slots := table.slots.modify place change
    place_lt := fun name found h => by
      rw [Array.size_modify]
      exact table.place_lt name found h }

def boundCount (table : RuleTable) : Nat := table.slots.countP (·.definition.isSome)

def names (table : RuleTable) : List String := table.slots.toList.map (·.name)

def unbound (table : RuleTable) : List String :=
  (table.slots.toList.filter (·.definition.isNone)).map (·.name)

end RuleTable

structure Grammar where
  name : String
  /-- The grammars this one falls back to, nearest first. -/
  bases : List GrammarId
  options : Options
  table : RuleTable
  /-- The caches used in definitions of this grammar. -/
  registry : Registry
  /-- The other grammars that this one keeps alive because it refers to their rules. -/
  retained : List GrammarId
  deriving Inhabited

namespace Grammar

def empty (name : String) (bases : List GrammarId) (options : Options) : Grammar :=
  ⟨name, bases, options, .empty, .empty, []⟩

def base? (grammar : Grammar) : Option GrammarId := grammar.bases.head?

end Grammar

structure Catalog where
  grammars : Array Grammar
  /-- For each alternation whether it stops at its first alternative that matches. -/
  modes : Array Bool
  /-- The grammars that exist no longer. -/
  lost : List GrammarId
  deriving Inhabited

namespace Catalog

def empty : Catalog := ⟨#[], #[], []⟩

def grammar (catalog : Catalog) (id : GrammarId) : Grammar :=
  (catalog.grammars[id.index]?).getD default

def alive (catalog : Catalog) (id : GrammarId) : Bool := !catalog.lost.contains id

def firstMatch (catalog : Catalog) (mode : ModeId) : Bool :=
  (catalog.modes[mode.index]?).getD false

def ruleCount (catalog : Catalog) : Nat :=
  catalog.grammars.foldl (fun count grammar => count + grammar.table.boundCount) 0

def slot? (catalog : Catalog) (rule : RuleId) : Option Slot :=
  (catalog.grammar rule.grammar).table.slots[rule.slot]?

def nameOf (catalog : Catalog) (rule : RuleId) : String :=
  ((catalog.slot? rule).map (·.name)).getD ""

def definition? (catalog : Catalog) (rule : RuleId) : Option Parser :=
  (catalog.slot? rule).bind (·.definition)

def refer (catalog : Catalog) (rule : RuleId) : RuleRef := ⟨rule, catalog.nameOf rule⟩

def resolve (catalog : Catalog) (ref : RuleRef) : Except GrammarError RuleId :=
  if catalog.alive ref.target.grammar then .ok ref.target else .error (.danglingRule ref.name)

def local? (catalog : Catalog) (id : GrammarId) (name : String) : Option RuleId :=
  ((catalog.grammar id).table.find? name).map (⟨id, ·⟩)

def lookup? (catalog : Catalog) (id : GrammarId) (name : String) : Option RuleId :=
  (id :: (catalog.grammar id).bases).findSome? (catalog.local? · name)

def bound (catalog : Catalog) (rule : RuleId) : Except GrammarError (Slot × Parser) :=
  match catalog.slot? rule with
  | none => .error (.danglingRule (catalog.nameOf rule))
  | some slot =>
    match slot.definition with
    | none => .error (.undefinedRule slot.name)
    | some definition => .ok (slot, definition)

def exclusion? (catalog : Catalog) (rule : RuleId) : Option RuleId :=
  ((catalog.slot? rule).bind (·.exclusion)).bind fun ref => (catalog.resolve ref).toOption

def ruleFirstMatch (catalog : Catalog) (rule : RuleId) : Bool :=
  match catalog.definition? rule with
  | some (.alternation mode _) => catalog.firstMatch mode
  | _ => (catalog.grammar rule.grammar).options.firstMatch

def rulesOf (catalog : Catalog) (id : GrammarId) : List RuleId :=
  (List.range (catalog.grammar id).table.size).map (⟨id, ·⟩)

end Catalog

end Metasyntax
