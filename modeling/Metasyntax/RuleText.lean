import Metasyntax.Standard

/-!
# Loading rule text

Rule text is read with the grammar of rule text as it stands, from the tree of a
rule's text to what its body is to be built from: quoted strings, numeric values in
three radixes, the bounds of repetitions, and what is made up of them. A batch of
rules is bound only after all of it has been read. A batch that fails leaves no
trace in the grammar it was meant for.
-/

set_option autoImplicit false

namespace Metasyntax

namespace RuleText

def unexpected (context : String) (node : Node) : GrammarError :=
  .unexpectedNode context node.name

def between (opening closing : Char) (cs : List Char) : Option (List Char) :=
  match cs with
  | c :: rest =>
    if c = opening ∧ rest.getLast? = some closing then some rest.dropLast else none
  | [] => none

def splitOnce (separator : Char) : List Char → Option (List Char × List Char)
  | [] => none
  | c :: rest =>
    if c = separator then some ([], rest)
    else (splitOnce separator rest).map fun (before, after) => (c :: before, after)

def splitAll (separator : Char) : List Char → List (List Char)
  | [] => [[]]
  | c :: rest =>
    if c = separator then [] :: splitAll separator rest
    else
      match splitAll separator rest with
      | part :: parts => (c :: part) :: parts
      | [] => [[c]]

def readCode (radix : Nat) (digits : List Char) : Except GrammarError Char :=
  match readNumeral radix (Nat.pow 2 32) digits with
  | some code =>
    if code.isValidChar then .ok (Char.ofNat code)
    else .error (.invalidNumVal (String.ofList digits))
  | none => .error (.invalidNumVal (String.ofList digits))

def readCharVal (node : Node) : Except GrammarError Literal :=
  match node.children with
  | [] => .error (unexpected "char-val" node)
  | form :: _ =>
    match (form.child? "quoted-string").bind fun quoted => between '"' '"' quoted.value.toList with
    | some text => .ok ⟨.text (String.ofList text), form.isNamed "case-sensitive-string"⟩
    | none => .error (unexpected "char-val" form)

def radixOf (name : String) : Option Nat :=
  if name = "bin-val" then some 2
  else if name = "dec-val" then some 10
  else if name = "hex-val" then some 16
  else none

def readDigits (radix : Nat) (digits : List Char) : Except GrammarError Literal :=
  match splitOnce '-' digits with
  | some (first, last) => do return .range (← readCode radix first) (← readCode radix last)
  | none => do return .exact (String.ofList (← (splitAll '.' digits).mapM (readCode radix)))

def readNumVal (node : Node) : Except GrammarError Literal :=
  match node.children.find? (·.isRule) with
  | none => .error (unexpected "num-val" node)
  | some value =>
    match radixOf value.name with
    | none => .error (unexpected "num-val" value)
    | some radix => readDigits radix ((dropBytes 1 value.value.toList).getD [])

def readBound (whole : String) (digits : List Char) : Except GrammarError (Option Nat) :=
  if digits.isEmpty then .ok none
  else
    match readNumeral 10 (Nat.pow 2 64) digits with
    | some count => .ok (some count)
    | none => .error (.invalidRepeat whole)

def readRepeat (text : String) : Except GrammarError Bounds := do
  let bounds : Bounds ←
    match splitOnce '*' text.toList with
    | some (least, most) => do
      let least ← readBound text least
      let most ← readBound text most
      pure ⟨least.getD 0, most⟩
    | none => do
      let count ← readBound text text.toList
      pure (.exactly (count.getD 0))
  if bounds.max.any (· < bounds.min) then throw (.invalidRepeat text)
  return bounds

abbrev Reading := ExceptT GrammarError Edit

structure Builder (α : Type) where
  mode : ProseMode
  literal : Literal → Reading α
  name : String → Reading α
  choice : List α → Reading α
  sequence : List α → Reading α
  repeated : Bounds → α → Reading α
  optional : α → Reading α
  prose : String → Reading α

def Builder.parsers (id : GrammarId) (options : Options) : Builder Parser where
  mode := options.prose
  literal terminal := return .literal terminal
  name name := Edit.reference id name
  choice branches := Edit.alternation options.firstMatch branches
  sequence parts := return .concatenation parts
  repeated bounds element := Edit.repetition options.cacheSize bounds element
  optional element := Edit.optional options.cacheSize element
  prose text := return .prose text

def requireChild (node : Node) (name context : String) : Except GrammarError Node :=
  match node.child? name with
  | some child => .ok child
  | none => .error (unexpected context node)

def isRuleName (text : String) : Edit Bool := do
  let rule ← Edit.rule .abnf "rulename"
  match ← Edit.parsing fun catalog => catalog.parseAll rule (.ofString text) with
  | .ok (.ok _) => return true
  | _ => return false

section
variable {α : Type}

def collapse (combine : List α → Reading α) (context : String) (node : Node) (items : List α) :
    Reading α :=
  match items with
  | [] => throw (unexpected context node)
  | [item] => return item
  | _ => combine items

variable (builder : Builder α)

def readProse (node : Node) : Reading α := do
  let whole := node.value
  let body := ((between '<' '>' whole.toList).map String.ofList).getD whole
  -- Prose that could be the name of a rule is one.
  if ← isRuleName body then builder.name body
  else
    match builder.mode with
    | .reject => throw (.proseVal body)
    | .placeholder => builder.prose body

mutual
def readAlternation : Node → Reading α
  | .rule name children => do
    collapse builder.choice "alternation" (.rule name children) (← readBranches children)
  | .literal value offset => throw (unexpected "alternation" (.literal value offset))

def readBranches : List Node → Reading (List α)
  | [] => return []
  | node :: rest => do
    if node.isNamed "concatenation" then
      let branch ← readConcatenation node
      return branch :: (← readBranches rest)
    else readBranches rest

def readConcatenation : Node → Reading α
  | .rule name children => do
    collapse builder.sequence "concatenation" (.rule name children) (← readItems children)
  | .literal value offset => throw (unexpected "concatenation" (.literal value offset))

def readItems : List Node → Reading (List α)
  | [] => return []
  | node :: rest => do
    if node.isNamed "repetition" then
      let item ← readRepetition node
      return item :: (← readItems rest)
    else readItems rest

def readRepetition : Node → Reading α
  | .rule name children => do
    -- The element is built before the count in front of it is read.
    let element ← readElementAmong (unexpected "repetition" (.rule name children)) children
    match (Node.rule name children).child? "repeat" with
    | some count => builder.repeated (← readRepeat count.value) element
    | none => return element
  | .literal value offset => throw (unexpected "repetition" (.literal value offset))

def readElementAmong (missing : GrammarError) : List Node → Reading α
  | [] => throw missing
  | node :: rest =>
    if node.isNamed "element" then readElement node
    else readElementAmong missing rest

def readElement : Node → Reading α
  | .rule _ (inner :: _) => readInner inner
  | .rule name [] => throw (unexpected "element" (.rule name []))
  | .literal value offset => throw (unexpected "element" (.literal value offset))

def readInner : Node → Reading α
  | .rule name children => do
    let node := Node.rule name children
    if name = "rulename" then builder.name node.value
    else if name = "group" then readBracketed (unexpected "group" node) children
    else if name = "option" then
      builder.optional (← readBracketed (unexpected "option" node) children)
    else if name = "char-val" then builder.literal (← readCharVal node)
    else if name = "num-val" then builder.literal (← readNumVal node)
    else if name = "prose-val" then readProse builder node
    else throw (unexpected "element" node)
  | .literal value offset => throw (unexpected "element" (.literal value offset))

def readBracketed (missing : GrammarError) : List Node → Reading α
  | [] => throw missing
  | node :: rest =>
    if node.isNamed "alternation" then readAlternation node
    else readBracketed missing rest
end

def readBody (node : Node) : Reading α := do
  let elements ← requireChild node "elements" "rule"
  readAlternation builder (← requireChild elements "alternation" "elements")

end

def readHeader (node : Node) : Except GrammarError (String × Bool) := do
  let name ← requireChild node "rulename" "rule"
  let definedAs ← requireChild node "defined-as" "rule"
  let incremental := definedAs.children.any fun
    | .literal value _ => value == "=/"
    | .rule _ _ => false
  return (name.value, incremental)

end RuleText

abbrev Loading := ExceptT Failure Edit

namespace RuleText

def parseText {α : Type} (name : String)
    (parse : Catalog → RuleId → Run (Except ParseError α)) : Loading α := do
  let rule ← Edit.rule .abnf name
  let result ← Edit.parsing fun catalog => parse catalog rule
  -- What the parse has remembered is forgotten, whether it has succeeded or failed.
  Edit.clearCaches .abnf
  match result with
  | .ok (.ok value) => return value
  | .ok (.error failure) => throw (.parse failure)
  | .error error => throw (.grammar error)

def parseRule (text : String) : Loading Node := do
  let (node, _) ← parseText "rule" fun catalog rule =>
    catalog.parse rule (.ofString (terminated text)) 0
  return node

def parseRules (text : String) : Loading (List Node) := do
  let node ← parseText "rulelist" fun catalog rule =>
    catalog.parseAll rule (.ofString (terminated (trimBlankEnd text)))
  return node.childrenNamed "rule"

def readDefinitions (id : GrammarId) (options : Options) (nodes : List Node) :
    Reading (List ((String × Bool) × Parser)) := do
  -- All names come first, so that bodies refer to these rules even where they hide rules of a base.
  let headers ← nodes.mapM fun node => do
    let header ← readHeader node
    discard <| Edit.localRule id header.1
    return header
  (headers.zip nodes).mapM fun (header, node) => do
    return (header, ← readBody (.parsers id options) node)

/-- Binds the rules of parsed rule texts in a grammar. If one of them cannot be read, the grammar
forgets the rules that it has come to have for the others. -/
def compile (id : GrammarId) (nodes : List Node) : Loading (List RuleId) := do
  let extent := (← get).extent id
  let options := ((← get).catalog.grammar id).options
  match ← (readDefinitions id options nodes).run with
  | .ok definitions => Edit.bindAll id definitions
  | .error error =>
    Edit.truncate id extent
    throw (.grammar error)

end RuleText

namespace Loading

def createRule (id : GrammarId) (text : String) : Loading RuleId := do
  let node ← RuleText.parseRule text
  match (← RuleText.compile id [node]).getLast? with
  | some rule => return rule
  | none => throw (.grammar (RuleText.unexpected "rule" node))

def loadRules (id : GrammarId) (texts : List String) : Loading (List RuleId) := do
  RuleText.compile id (← texts.mapM RuleText.parseRule)

def loadRulelist (id : GrammarId) (text : String) : Loading (List RuleId) := do
  RuleText.compile id (← RuleText.parseRules text)

def importAll (id : GrammarId) (imports : List (String × RuleId)) : Loading Unit :=
  imports.forM fun (name, rule) => do
    match ← Edit.importRule id name rule with
    | .ok _ => return ()
    | .error error => throw (.grammar error)

def newGrammar (name : String) (options : Options) (load : GrammarId → Loading (List RuleId))
    (imports : List (String × RuleId)) : Loading GrammarId := do
  let id ← Edit.newGrammar name (some .core) options
  discard <| load id
  importAll id imports
  return id

end Loading

end Metasyntax
