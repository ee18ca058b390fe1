import Metasyntax.Session.Command

/-!
# Sessions

A session carries out commands one after the other on a store that starts with
the standard grammars. Its names hold grammars, rules and parsers; a rule holds
its grammar. After each command, what nothing holds any longer is gone.
-/

set_option autoImplicit false

namespace Metasyntax

structure Session where
  store : Store
  grammars : Std.HashMap String GrammarId
  rules : Std.HashMap String RuleId
  parsers : Std.HashMap String Parser

namespace Session

def start : Session := ⟨.standard, ∅, ∅, ∅⟩

inductive Trouble where
  /-- It failed. -/
  | failure (failure : Failure)
  /-- Its result cannot be shown as it was asked to be. -/
  | format (error : FormatError)
  /-- It made no sense in the session. -/
  | misuse (message : String)

abbrev Act := ExceptT Trouble (StateM Session)

def edit {α : Type} (change : Edit α) : Act α :=
  modifyGet fun ⟨store, grammars, rules, parsers⟩ =>
    let (result, store) := change store
    (result, ⟨store, grammars, rules, parsers⟩)

def orFail {α : Type} : Except GrammarError α → Act α
  | .ok value => return value
  | .error error => throw (.failure (.grammar error))

def present {α : Type} (shown : Except FormatError α) : Act α :=
  match shown with
  | .ok value => return value
  | .error error => throw (.format error)

def load {α : Type} (loading : Loading α) : Act α := do
  match ← edit loading.run with
  | .ok value => return value
  | .error failure => throw (.failure failure)

def grammarNamed (name : String) : Act GrammarId := do
  if name = "core" then return .core
  else if name = "abnf" then return .abnf
  else
    match (← get).grammars[name]? with
    | some id => return id
    | none => throw (.misuse ("no grammar " ++ name))

def resolveRule : RuleArg → Act RuleId
  | .stored name => do
    match (← get).rules[name]? with
    | some rule => return rule
    | none => throw (.misuse ("no rule " ++ name))
  | .named grammar name => do edit (Edit.rule (← grammarNamed grammar) name)

mutual
def resolveParser : ParserArg → Act Parser
  | .stored name => do
    match (← get).parsers[name]? with
    | some parser => return parser
    | none => throw (.misuse ("no parser " ++ name))
  | .literal terminal => return .literal terminal
  | .alternation firstMatch branches => do
    edit (Edit.alternation firstMatch (← resolveParsers branches))
  | .concatenation parts => return .concatenation (← resolveParsers parts)
  | .repetition bounds capacity element => do
    edit (Edit.repetition capacity bounds (← resolveParser element))
  | .optional element => do
    edit (Edit.optional Options.standard.cacheSize (← resolveParser element))
  | .rule target => do
    let rule ← resolveRule target
    return .rule ((← get).store.catalog.refer rule)
  | .prose text => return .prose text

def resolveParsers : List ParserArg → Act (List Parser)
  | [] => return []
  | arg :: rest => do
    let parser ← resolveParser arg
    return parser :: (← resolveParsers rest)
end

def storeGrammar (name : String) (id : GrammarId) : Act Unit :=
  modify fun session => { session with grammars := session.grammars.insert name id }

def storeRule (name : Option String) (rule : RuleId) : Act Unit :=
  name.forM fun name =>
    modify fun session => { session with rules := session.rules.insert name rule }

def storeParser (name : String) (parser : Parser) : Act Unit :=
  modify fun session => { session with parsers := session.parsers.insert name parser }

def answerRule (rule : RuleId) (name : Option String) : Act Answer := do
  storeRule name rule
  return .rule ((← get).store.ruleSummary rule)

def answerRules (rules : List RuleId) : Act Answer :=
  return .rules (rules.map (← get).store.ruleSummary)

def loadTexts (id : GrammarId) : RuleTexts → Loading (List RuleId)
  | .separate texts => Loading.loadRules id texts
  | .joined text => Loading.loadRulelist id text

def parsing {α : Type} (run : Catalog → Run (Except ParseError α)) : Act α := do
  match ← orFail (← edit (Edit.parsing run)) with
  | .ok value => return value
  | .error failure => throw (.failure (.parse failure))

def judge (rule : RuleId) (text : String) : Act Verdict := do
  match ← edit (Edit.parsing fun catalog => catalog.parseAll rule (.ofString text)) with
  | .ok (.ok _) => return .accepted
  | .ok (.error failure) => return .stopped failure.head.start
  | .error error => return .failed error

def matchesFor (matcher : Matcher) (source : Source) (start : Nat) : Act MatchSet := do
  match matcher with
  | .parser arg => do
    let parser ← resolveParser arg
    parsing fun catalog => catalog.matchesOf parser source start
  | .rule arg => do
    let rule ← resolveRule arg
    parsing fun catalog => catalog.ruleMatches rule source start

def perform : Command → Act Answer
  | .newGrammar store name basis options => do
    let base ← match basis with
      | .core => pure (some GrammarId.core)
      | .none => pure none
      | .grammar name => some <$> grammarNamed name
    let id ← edit (Edit.newGrammar name base options)
    storeGrammar store id
    return .grammar ((← get).store.grammarSummary id)
  | .grammarInfo grammar => do
    let id ← grammarNamed grammar
    return .grammar ((← get).store.grammarSummary id)
  | .create grammar text store => do
    let id ← grammarNamed grammar
    answerRule (← load (Loading.createRule id text)) store
  | .load grammar texts => do
    let id ← grammarNamed grammar
    answerRules (← load (loadTexts id texts))
  | .build store name texts imports options => do
    let imports ← imports.mapM fun (name, rule) => return (name, ← resolveRule rule)
    let id ← load (Loading.newGrammar name options (loadTexts · texts) imports)
    storeGrammar store id
    let store := (← get).store
    return .built ((store.catalog.rulesOf id).map store.ruleSummary)
  | .importRule grammar name rule store => do
    let id ← grammarNamed grammar
    let rule ← resolveRule rule
    answerRule (← orFail (← edit (Edit.importRule id name rule))) store
  | .rule grammar name store => do
    answerRule (← edit (Edit.rule (← grammarNamed grammar) name)) store
  | .localRule grammar name store => do
    answerRule (← edit (Edit.localRule (← grammarNamed grammar) name)) store
  | .lookup grammar name store => do
    let id ← grammarNamed grammar
    match (← get).store.catalog.lookup? id name with
    | some rule => answerRule rule store
    | none => return .done
  | .rules grammar => do
    let id ← grammarNamed grammar
    answerRules ((← get).store.catalog.rulesOf id)
  | .ruleNames grammar => do
    let id ← grammarNamed grammar
    return .texts ((← get).store.catalog.grammar id).table.names
  | .undefinedRules grammar => do
    let id ← grammarNamed grammar
    return .texts ((← get).store.catalog.grammar id).table.unbound
  | .define grammar name parser store => do
    let id ← grammarNamed grammar
    let parser ← resolveParser parser
    answerRule (← edit (Edit.define id name parser)) store
  | .extend grammar name parser store => do
    let id ← grammarNamed grammar
    let parser ← resolveParser parser
    answerRule (← edit (Edit.extend id name parser)) store
  | .setDefinition rule parser => do
    let rule ← resolveRule rule
    edit (Edit.setDefinition rule (← resolveParser parser))
    answerRule rule none
  | .addAlternative rule parser => do
    let rule ← resolveRule rule
    edit (Edit.addAlternative rule (← resolveParser parser))
    answerRule rule none
  | .ruleInfo rule => do answerRule (← resolveRule rule) none
  | .exclude rule excluded => do
    let rule ← resolveRule rule
    edit (Edit.exclude rule (← resolveRule excluded))
    answerRule rule none
  | .clearExclusion rule => do
    let rule ← resolveRule rule
    edit (Edit.clearExclusion rule)
    answerRule rule none
  | .setFirstMatch rule value => do
    let rule ← resolveRule rule
    orFail (← edit (Edit.setFirstMatch rule value))
    answerRule rule none
  | .definition rule store => do
    let rule ← resolveRule rule
    match (← get).store.catalog.definition? rule with
    | some parser =>
      storeParser store parser
      return .text parser.render
    | none => return .done
  | .sameRule first second => do
    let first ← resolveRule first
    return .flag (first = (← resolveRule second))
  | .sameGrammar first second => do
    let first ← grammarNamed first
    return .flag (first = (← grammarNamed second))
  | .parse rule text start view => do
    let rule ← resolveRule rule
    let (node, stop) ← parsing fun catalog => catalog.parse rule (.ofString text) start
    return .parsed stop (← present (view.apply node))
  | .parseAll rule text view => do
    let rule ← resolveRule rule
    let node ← parsing fun catalog => catalog.parseAll rule (.ofString text)
    return .parsedAll (← present (view.apply node))
  | .accepts rule texts => do
    let rule ← resolveRule rule
    return .verdicts (← texts.mapM (judge rule))
  | .matchesOf matcher text start view => do
    let found ← matchesFor matcher (.ofString text) start
    return .found (found.toList.map view.apply)
  | .parser store arg => do
    let parser ← resolveParser arg
    storeParser store parser
    return .text parser.render
  | .describe arg => do
    let parser ← resolveParser arg
    return .parser ((← get).store.parserSummary parser)
  | .walk arg => do return .texts ((← resolveParser arg).walk.map (·.render))
  | .part arg place store => do
    match (← resolveParser arg).walk[place]? with
    | some part =>
      storeParser store part
      return .text part.render
    | none => return .done
  | .upgrade arg => do
    match ← resolveParser arg with
    | .rule ref => do answerRule (← orFail ((← get).store.catalog.resolve ref)) none
    | _ => throw (.misuse "not a rule reference")
  | .cacheStats grammar => do
    let id ← grammarNamed grammar
    return .stats ((← get).store.cacheStats id)
  | .caches grammar => do
    let id ← grammarNamed grammar
    let store := (← get).store
    return .texts ((store.cachesOf id).map fun cache => (store.cache cache).render)
  | .clearCaches grammar => do
    edit (Edit.clearCaches (← grammarNamed grammar))
    return .done
  | .parserCache arg => do
    match (← resolveParser arg).cache? with
    | some cache => return .cache ((← get).store.cacheSummary cache)
    | none => return .done
  | .drop names => do
    modify fun session =>
      { session with
        grammars := names.foldl (·.erase) session.grammars
        rules := names.foldl (·.erase) session.rules
        parsers := names.foldl (·.erase) session.parsers }
    return .done
  | .debug (.grammar name) => do
    let id ← grammarNamed name
    return .text ((← get).store.grammarDebug id)
  | .debug (.rule rule) => do
    let rule ← resolveRule rule
    return .texts ((← get).store.ruleDebug rule)
  | .debug (.parser arg) => do return .text (← resolveParser arg).debug

def roots (session : Session) : Roots where
  grammars := [.core, .abnf] ++ session.grammars.values ++ session.rules.values.map (·.grammar)
  parsers := session.parsers.values

def tidy (session : Session) : Session :=
  let roots := session.roots
  let ⟨store, grammars, rules, parsers⟩ := session
  ⟨store.collect roots, grammars, rules, parsers⟩

def step (command : Command) (session : Session) : Except String (Answer × Session) :=
  -- A failure is an answer. Only a misuse ends the session.
  match (perform command).run session with
  | (.ok answer, session) => .ok (answer, session.tidy)
  | (.error (.failure failure), session) => .ok (.failed failure, session.tidy)
  | (.error (.format error), session) => .ok (.unknownFormat error, session.tidy)
  | (.error (.misuse message), _) => .error message

def runFrom (session : Session) : List Command → Except String (List Answer)
  | [] => .ok []
  | command :: rest =>
    match session.step command with
    | .error message => .error message
    | .ok (answer, session) =>
      match runFrom session rest with
      | .error message => .error message
      | .ok answers => .ok (answer :: answers)

def run (commands : List Command) : Except String (List Answer) := runFrom start commands

end Session

end Metasyntax
