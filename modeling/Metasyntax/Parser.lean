import Metasyntax.Text

/-!
# Parsers and failures

The parts a grammar is put together from: terminals, ordered choice, sequence,
repetition, references to rules, and prose. A part holds no mutable state of its
own: what can change while a grammar is in use, the mode of a choice and the
remembered results of a repetition, is kept elsewhere under the identity written
here, so that a part shared by several definitions shares it too.

A parse failure is the ordinary outcome of a parser that cannot match where it
was asked to: enclosing parsers catch it and try another way. A grammar error
means that the grammar cannot be used as written, and nothing catches it.
-/

set_option autoImplicit false

namespace Metasyntax

structure GrammarId where
  index : Nat
  deriving DecidableEq, Hashable, Repr, Inhabited

structure CacheId where
  index : Nat
  deriving DecidableEq, Hashable, Repr, Inhabited

structure ModeId where
  index : Nat
  deriving DecidableEq, Repr, Inhabited

structure RuleId where
  grammar : GrammarId
  slot : Nat
  deriving DecidableEq, Repr, Inhabited

/-- A reference to a rule, with the name the rule had when the reference was made. It
does not keep the grammar of the rule alive. -/
structure RuleRef where
  target : RuleId
  name : String
  deriving DecidableEq, Repr, Inhabited

inductive Pattern where
  | text (text : String)
  | range (first last : Char)
  deriving DecidableEq, Repr

structure Literal where
  pattern : Pattern
  caseSensitive : Bool
  deriving DecidableEq, Repr

structure Bounds where
  min : Nat
  max : Option Nat
  deriving DecidableEq, Repr

inductive Parser where
  | literal (terminal : Literal)
  | alternation (mode : ModeId) (branches : List Parser)
  | concatenation (parts : List Parser)
  | optional (cache : CacheId) (element : Parser)
  | repetition (cache : CacheId) (bounds : Bounds) (element : Parser)
  | rule (ref : RuleRef)
  | prose (text : String)
  deriving Inhabited

namespace Literal

def text (text : String) : Literal := ⟨.text text, false⟩

def exact (text : String) : Literal := ⟨.text text, true⟩

def range (first last : Char) : Literal := ⟨.range first last, true⟩

def showChar (c : Char) : String :=
  if c.toNat < 0x20 ∨ (0x7F ≤ c.toNat ∧ c.toNat < 0xA0) then
    "\\x" ++ (if c.toNat < 0x10 then "0" else "") ++ radixText 16 c.toNat
  else c.toString

def render (literal : Literal) : String :=
  match literal.pattern with
  | .text text =>
    "Literal('" ++ String.join (text.toList.map showChar) ++ "'"
      ++ (if literal.caseSensitive then ", case_sensitive" else "") ++ ")"
  | .range first last => "Literal(('" ++ showChar first ++ "', '" ++ showChar last ++ "'))"

end Literal

namespace Bounds

def atMostOnce : Bounds := ⟨0, some 1⟩

def exactly (count : Nat) : Bounds := ⟨count, some count⟩

def renderMax : Option Nat → String
  | some max => toString max
  | none => "None"

def render (bounds : Bounds) : String :=
  "Repeat(" ++ toString bounds.min ++ ", " ++ renderMax bounds.max ++ ")"

end Bounds

def RuleRef.render (ref : RuleRef) : String := "Rule('" ++ ref.name ++ "')"

namespace Parser

mutual
def render : Parser → String
  | .literal terminal => terminal.render
  | .alternation _ branches => "Alternation(" ++ ", ".intercalate (renderAll branches) ++ ")"
  | .concatenation parts => "Concatenation(" ++ ", ".intercalate (renderAll parts) ++ ")"
  | .optional _ element => "Option(" ++ element.render ++ ")"
  | .repetition _ bounds element =>
    "Repetition(" ++ bounds.render ++ ", " ++ element.render ++ ")"
  | .rule ref => ref.render
  | .prose text => "Prose(<" ++ text ++ ">)"

def renderAll : List Parser → List String
  | [] => []
  | part :: rest => part.render :: renderAll rest
end

mutual
def walk : Parser → List Parser
  | .alternation mode branches => .alternation mode branches :: walkAll branches
  | .concatenation parts => .concatenation parts :: walkAll parts
  | .optional cache element => .optional cache element :: element.walk
  | .repetition cache bounds element => .repetition cache bounds element :: element.walk
  | .literal terminal => [.literal terminal]
  | .rule ref => [.rule ref]
  | .prose text => [.prose text]

def walkAll : List Parser → List Parser
  | [] => []
  | part :: rest => part.walk ++ walkAll rest
end

def cache? : Parser → Option CacheId
  | .repetition cache _ _ => some cache
  | .optional cache _ => some cache
  | _ => none

def caches (parser : Parser) : List CacheId := parser.walk.filterMap cache?

def references (parser : Parser) : List RuleRef :=
  parser.walk.filterMap fun
    | .rule ref => some ref
    | _ => none

end Parser

structure Frame where
  parser : Parser
  start : Nat
  deriving Inhabited

structure ParseError where
  head : Frame
  causes : List Frame
  deriving Inhabited

namespace ParseError

def frames (failure : ParseError) : List Frame := failure.head :: failure.causes

def ofCause (parser : Parser) (start : Nat) (cause : Option ParseError) : ParseError :=
  ⟨⟨parser, start⟩, (cause.map frames).getD []⟩

def message (failure : ParseError) : String :=
  failure.head.parser.render ++ ": " ++ toString failure.head.start

end ParseError

inductive GrammarError where
  | undefinedRule (name : String)
  | proseVal (text : String)
  | invalidRepeat (text : String)
  | invalidNumVal (digits : String)
  | danglingRule (name : String)
  | unexpectedNode (context found : String)
  /-- A rule reached itself again without consuming input. -/
  | leftRecursion (name : String)
  deriving DecidableEq, Repr

def GrammarError.message : GrammarError → String
  | .undefinedRule name => "Undefined rule \"" ++ name ++ "\"."
  | .proseVal text => "Grammar contains a prose-val: <" ++ text ++ ">."
  | .invalidRepeat text => "Invalid repeat \"" ++ text ++ "\"."
  | .invalidNumVal digits => "Invalid numeric value \"" ++ digits ++ "\"."
  | .danglingRule name => "Rule \"" ++ name ++ "\" belongs to a grammar that no longer exists."
  | .unexpectedNode context found =>
    "Unexpected node \"" ++ found ++ "\" while compiling " ++ context ++ "."
  | .leftRecursion name => "Rule \"" ++ name ++ "\" calls itself at the same offset."

inductive Failure where
  | parse (error : ParseError)
  | grammar (error : GrammarError)

def Failure.message : Failure → String
  | .parse error => error.message
  | .grammar error => error.message

end Metasyntax
