import Metasyntax.Document
import Metasyntax.RuleText
import Metasyntax.Text.Quoted

/-!
# Commands and answers

What a session can be told to do, and what it says to that: the forms in which a
tree or a set of matches is shown, and summaries of grammars, rules and parsers.
Grammars, rules and parsers go by names that the session gives them.
-/

set_option autoImplicit false

namespace Metasyntax

inductive TreeView where
  | tree
  | value
  | display
  | names
  | format (name : String)
  deriving DecidableEq, Repr

inductive ShownTree where
  | tree (node : Node)
  | text (text : String)
  | names (names : List String)

def TreeView.ofName (name : String) : TreeView :=
  if name = "tree" then .tree
  else if name = "value" then .value
  else if name = "display" then .display
  else if name = "names" then .names
  else .format name

def TreeView.apply (view : TreeView) (node : Node) : Except FormatError ShownTree :=
  match view with
  | .tree => .ok (.tree node)
  | .value => .ok (.text node.value)
  | .display => .ok (.text node.render)
  | .names => .ok (.names (node.descendants.map (·.name)))
  | .format name => (FormatRegistry.full.serialize name node).map .text

inductive MatchView where
  | stop
  | value
  | display
  | full
  deriving DecidableEq, Repr

inductive ShownMatch where
  | stop (stop : Nat)
  | value (text : String) (stop : Nat)
  | text (text : String)
  | full (m : Match)

def MatchView.ofName (name : String) : MatchView :=
  if name = "ends" then .stop
  else if name = "values" then .value
  else if name = "display" then .display
  else .full

def MatchView.apply (view : MatchView) (m : Match) : ShownMatch :=
  match view with
  | .stop => .stop m.stop
  | .value => .value m.value m.stop
  | .display => .text m.render
  | .full => .full m

namespace Session

inductive RuleArg where
  | stored (name : String)
  | named (grammar name : String)

inductive ParserArg where
  | stored (name : String)
  | literal (terminal : Literal)
  | alternation (firstMatch : Bool) (branches : List ParserArg)
  | concatenation (parts : List ParserArg)
  | repetition (bounds : Bounds) (capacity : Capacity) (element : ParserArg)
  | optional (element : ParserArg)
  | rule (target : RuleArg)
  | prose (text : String)
  deriving Inhabited

inductive Basis where
  | core
  | none
  | grammar (name : String)

inductive RuleTexts where
  | separate (texts : List String)
  | joined (text : String)

inductive Matcher where
  | parser (parser : ParserArg)
  | rule (rule : RuleArg)

inductive Subject where
  | grammar (name : String)
  | rule (rule : RuleArg)
  | parser (parser : ParserArg)

inductive Command where
  | newGrammar (store name : String) (basis : Basis) (options : Options)
  | grammarInfo (grammar : String)
  | create (grammar text : String) (store : Option String)
  | load (grammar : String) (texts : RuleTexts)
  | build (store name : String) (texts : RuleTexts) (imports : List (String × RuleArg))
      (options : Options)
  | importRule (grammar name : String) (rule : RuleArg) (store : Option String)
  | rule (grammar name : String) (store : Option String)
  | localRule (grammar name : String) (store : Option String)
  | lookup (grammar name : String) (store : Option String)
  | rules (grammar : String)
  | ruleNames (grammar : String)
  | undefinedRules (grammar : String)
  | define (grammar name : String) (parser : ParserArg) (store : Option String)
  | extend (grammar name : String) (parser : ParserArg) (store : Option String)
  | setDefinition (rule : RuleArg) (parser : ParserArg)
  | addAlternative (rule : RuleArg) (parser : ParserArg)
  | ruleInfo (rule : RuleArg)
  | exclude (rule excluded : RuleArg)
  | clearExclusion (rule : RuleArg)
  | setFirstMatch (rule : RuleArg) (value : Bool)
  | definition (rule : RuleArg) (store : String)
  | sameRule (first second : RuleArg)
  | sameGrammar (first second : String)
  | parse (rule : RuleArg) (text : String) (start : Nat) (view : TreeView)
  | parseAll (rule : RuleArg) (text : String) (view : TreeView)
  | accepts (rule : RuleArg) (texts : List String)
  | matchesOf (matcher : Matcher) (text : String) (start : Nat) (view : MatchView)
  | parser (store : String) (parser : ParserArg)
  | describe (parser : ParserArg)
  | walk (parser : ParserArg)
  | part (parser : ParserArg) (place : Nat) (store : String)
  | upgrade (parser : ParserArg)
  | cacheStats (grammar : String)
  | caches (grammar : String)
  | clearCaches (grammar : String)
  | parserCache (parser : ParserArg)
  | drop (names : List String)
  | debug (subject : Subject)

structure GrammarSummary where
  name : String
  base : Option String
  options : Options

structure RuleSummary where
  name : String
  grammar : String
  definition : Option String
  firstMatch : Bool
  exclusion : Option String

inductive ParserSummary where
  | literal (terminal : Literal)
  | alternation (branches : List String) (firstMatch : Bool)
  | concatenation (parts : List String)
  | option (element : String) (capacity : Nat)
  | repetition (bounds : Bounds) (element : String) (capacity : Nat)
  | rule (name : String)
  | prose (text : String)

inductive Verdict where
  | accepted
  | stopped (start : Nat)
  | failed (error : GrammarError)

inductive EntrySummary where
  | stops (stops : List Nat)
  | failure (message : String)

structure CacheSummary where
  text : String
  entries : List (String × Nat × EntrySummary)

inductive Answer where
  | done
  | flag (value : Bool)
  | text (text : String)
  | texts (texts : List String)
  | grammar (summary : GrammarSummary)
  | rule (summary : RuleSummary)
  | rules (summaries : List RuleSummary)
  | built (summaries : List RuleSummary)
  | parsed (stop : Nat) (node : ShownTree)
  | parsedAll (node : ShownTree)
  | verdicts (verdicts : List Verdict)
  | found (shown : List ShownMatch)
  | parser (summary : ParserSummary)
  | stats (stats : CacheStats)
  | cache (summary : CacheSummary)
  | failed (failure : Failure)
  | unknownFormat (error : FormatError)

end Session

namespace Store
open Session

def grammarSummary (store : Store) (id : GrammarId) : GrammarSummary :=
  let grammar := store.catalog.grammar id
  ⟨grammar.name, grammar.base?.map fun base => (store.catalog.grammar base).name, grammar.options⟩

def ruleSummary (store : Store) (rule : RuleId) : RuleSummary where
  name := store.catalog.nameOf rule
  grammar := (store.catalog.grammar rule.grammar).name
  definition := (store.catalog.definition? rule).map (·.render)
  firstMatch := store.catalog.ruleFirstMatch rule
  exclusion := (store.catalog.exclusion? rule).map store.catalog.nameOf

def parserSummary (store : Store) : Parser → ParserSummary
  | .literal terminal => .literal terminal
  | .alternation mode branches =>
    .alternation (Parser.renderAll branches) (store.catalog.firstMatch mode)
  | .concatenation parts => .concatenation (Parser.renderAll parts)
  | .optional cache element => .option element.render (store.cache cache).maxSize.val
  | .repetition cache bounds element =>
    .repetition bounds element.render (store.cache cache).maxSize.val
  | .rule ref => .rule ref.name
  | .prose text => .prose text

def cacheSummary (store : Store) (id : CacheId) : CacheSummary :=
  let cache := store.cache id
  let entry (key : CacheKey) : EntrySummary :=
    match cache.peek key with
    | some (.ok found) => .stops found.stops
    | some (.error failure) => .failure failure.message
    | none => .stops []
  ⟨cache.render, cache.keys.map fun key => (key.source.text, key.start, entry key)⟩

def grammarDebug (store : Store) (id : GrammarId) : String :=
  let grammar := store.catalog.grammar id
  "Grammar \x7b name: " ++ Quoted.encode grammar.name ++ ", rules: " ++ toString grammar.table.size
    ++ ", .. \x7d"

def ruleDebug (store : Store) (rule : RuleId) : List String :=
  let plain := (store.catalog.refer rule).render
  ["Rule('" ++ store.catalog.nameOf rule ++ "' in "
    ++ Quoted.encode (store.catalog.grammar rule.grammar).name ++ ")", plain, plain]

end Store

def Bounds.debug (bounds : Bounds) : String :=
  let most := match bounds.max with
    | some count => "Some(" ++ toString count ++ ")"
    | none => "None"
  "Repeat \x7b min: " ++ toString bounds.min ++ ", max: " ++ most ++ " \x7d"

def Parser.debug : Parser → String
  | .repetition _ bounds element =>
    "Repetition \x7b repeat: " ++ bounds.debug ++ ", element: " ++ element.render ++ ", .. \x7d"
  | .optional _ element => "Optional(" ++ element.render ++ ")"
  | other => other.render

end Metasyntax
