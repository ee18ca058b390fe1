import Metasyntax.RuleText
import Metasyntax.Standard
import Metasyntax.Proofs.Places

/-!
# What expressions yield

What a rule's text states can be told before any of it is built: the name that it
defines and the expression that its body is. An expression stands for texts, each
with the nodes of a way to match it, where names stand for rules as they are written.
Nothing is said here of how a match is found, of offsets, or of the text that follows.
-/

set_option autoImplicit false

namespace Metasyntax

structure Production where
  name : String
  incremental : Bool
  body : Expression
  deriving Inhabited

def Production.header (production : Production) : String × Bool :=
  (production.name, production.incremental)

namespace Edit

def bindOne (id : GrammarId) (production : Production) (parser : Parser) : Edit RuleId :=
  if production.incremental then extend id production.name parser
  else define id production.name parser

def bind (id : GrammarId) (productions : List Production) : Edit (List RuleId) := do
  productions.forM fun production => discard <| localRule id production.name
  let options := ((← get).catalog.grammar id).options
  let parsers ← assembleAll id options (productions.map (·.body))
  (productions.zip parsers).mapM fun (production, parser) => bindOne id production parser

end Edit

namespace RuleText

def Builder.expressions (mode : ProseMode) : Builder Expression where
  mode := mode
  literal terminal := return .literal terminal
  name name := return .name name
  choice branches := return .choice branches
  sequence items := return .sequence items
  repeated bounds element := return .repeated bounds element
  optional element := return .optional element
  prose text := return .prose text

def readProductions (mode : ProseMode) (nodes : List Node) : Reading (List Production) := do
  let headers ← (nodes.mapM readHeader : Except GrammarError _)
  let bodies ← nodes.mapM (readBody (.expressions mode))
  return (headers.zip bodies).map fun ((name, incremental), body) => ⟨name, incremental, body⟩

def bindNodes (id : GrammarId) (nodes : List Node) : Loading (List RuleId) := do
  let options := ((← get).catalog.grammar id).options
  let productions ← (readProductions options.prose nodes).adapt Failure.grammar
  Edit.bind id productions

end RuleText

abbrev Ruleset := List (String × Expression)

namespace Standard

def rules : Ruleset := abnf ++ core

end Standard

inductive Yields (rules : Ruleset) : Expression → List Char → List Node → Prop where
  | literal {terminal : Literal} {taken : List Char} (offset : Nat) :
    terminal.consume taken = some taken →
    Yields rules (.literal terminal) taken [.literal (String.ofList taken) offset]
  | name {name : String} {body : Expression} {taken : List Char} {nodes : List Node} :
    rules.lookup name = some body → Yields rules body taken nodes →
    Yields rules (.name name) taken [.rule name nodes]
  | choice {branches : List Expression} {branch : Expression} {taken : List Char}
    {nodes : List Node} : branch ∈ branches → Yields rules branch taken nodes →
    Yields rules (.choice branches) taken nodes
  | nil : Yields rules (.sequence []) [] []
  | cons {item : Expression} {items : List Expression} {xs ys : List Char}
    {nodes nodes' : List Node} : Yields rules item xs nodes →
    Yields rules (.sequence items) ys nodes' →
    Yields rules (.sequence (item :: items)) (xs ++ ys) (nodes ++ nodes')
  | repeated {bounds : Bounds} {element : Expression} {taken : List Char} {nodes : List Node}
    (count : Nat) : bounds.min ≤ count → (∀ most, bounds.max = some most → count ≤ most) →
    Yields rules (.sequence (List.replicate count element)) taken nodes →
    Yields rules (.repeated bounds element) taken nodes
  | skipped {element : Expression} : Yields rules (.optional element) [] []
  | optional {element : Expression} {taken : List Char} {nodes : List Node} :
    Yields rules element taken nodes → Yields rules (.optional element) taken nodes

namespace Yields

variable {rules : Ruleset}

/-- The nodes hold the text between them. -/
theorem value_eq {expression : Expression} {taken : List Char} {nodes : List Node}
    (h : Yields rules expression taken nodes) : Node.valueOfAll nodes = String.ofList taken := by
  induction h with
  | literal offset hconsume => simp [Node.valueOfAll, Node.value]
  | name hlookup hbody ih => simp [Node.valueOfAll, Node.value, ih]
  | choice hmem hbranch ih => exact ih
  | nil => rfl
  | cons hitem hitems ih ih' => rw [Node.valueOfAll_append, ih, ih', String.ofList_append]
  | repeated count hmin hmax hall ih => exact ih
  | skipped => rfl
  | optional helement ih => exact ih

theorem exists_of_name {name : String} {taken : List Char} {nodes : List Node}
    (h : Yields rules (.name name) taken nodes) : ∃ body children,
      rules.lookup name = some body ∧ nodes = [.rule name children] ∧
        Yields rules body taken children := by
  cases h with
  | name hlookup hbody => exact ⟨_, _, hlookup, rfl, hbody⟩

end Yields

namespace Literal

theorem consumeText_append {same : Char → Char → Bool} {pattern rest taken : List Char}
    (h : consumeText same pattern rest = some taken) (after : List Char) :
    consumeText same pattern (rest ++ after) = some taken := by
  induction pattern generalizing rest taken with
  | nil => exact h
  | cons expected pattern ih =>
    cases rest with
    | nil => cases h
    | cons actual rest =>
      rw [consumeText] at h
      rw [List.cons_append, consumeText]
      split at h
      case isTrue hsame =>
        obtain ⟨taken', h', rfl⟩ := Option.map_eq_some_iff.1 h
        rw [if_pos hsame, ih h']
        rfl
      case isFalse => cases h

theorem consumeText_self {same : Char → Char → Bool} {pattern rest taken : List Char}
    (h : consumeText same pattern rest = some taken) :
    consumeText same pattern taken = some taken := by
  induction pattern generalizing rest taken with
  | nil =>
    cases h
    rfl
  | cons expected pattern ih =>
    cases rest with
    | nil => cases h
    | cons actual rest =>
      rw [consumeText] at h
      split at h
      case isTrue hsame =>
        obtain ⟨taken', h', rfl⟩ := Option.map_eq_some_iff.1 h
        rw [consumeText, if_pos hsame, ih h']
        rfl
      case isFalse => cases h

/-- What a literal takes does not depend on what follows, as long as it takes something. -/
theorem consume_append_iff {terminal : Literal} (hterminal : terminal.pattern ≠ .text "")
    {taken after : List Char} :
    terminal.consume (taken ++ after) = some taken ↔ terminal.consume taken = some taken := by
  obtain ⟨pattern, caseSensitive⟩ := terminal
  constructor
  · intro h
    obtain ⟨c, cs, rfl⟩ := List.exists_cons_of_ne_nil (consume_ne_nil hterminal h)
    cases pattern with
    | text text => exact consumeText_self h
    | range first last =>
      change (if first ≤ c ∧ c ≤ last then some [c] else none) = _ at h
      change (if first ≤ c ∧ c ≤ last then some [c] else none) = _
      exact h
  · intro h
    cases taken with
    | nil => cases pattern <;> cases h
    | cons c cs =>
      cases pattern with
      | text text => exact consumeText_append h after
      | range first last => exact h

end Literal

end Metasyntax
