import Metasyntax.Store

/-!
# Expressions and the standard grammars

The right-hand side of a rule as it is written, with names in place of rules. An
expression is assembled into a parser for a grammar: its names are looked up there,
and the mode of its choices and the size of its caches are those that the grammar's
options say. Everything starts from a store with the sixteen core rules and, on top
of them, the grammar that rule text is read with: augmented Backus-Naur form in
terms of itself, with the string forms that say whether the case of letters counts.
-/

set_option autoImplicit false

namespace Metasyntax

inductive Expression where
  | literal (terminal : Literal)
  | name (name : String)
  | choice (branches : List Expression)
  | sequence (items : List Expression)
  | repeated (bounds : Bounds) (element : Expression)
  | optional (element : Expression)
  | prose (text : String)
  deriving Inhabited

namespace Expression

def text (text : String) : Expression := .literal (.text text)

def exact (text : String) : Expression := .literal (.exact text)

def range (first last : Char) : Expression := .literal (.range first last)

def star (element : Expression) : Expression := .repeated ⟨0, none⟩ element

def plus (element : Expression) : Expression := .repeated ⟨1, none⟩ element

end Expression

namespace Edit

mutual
def assemble (id : GrammarId) (options : Options) : Expression → Edit Parser
  | .literal terminal => return .literal terminal
  | .name name => do
    let rule ← Edit.rule id name
    return .rule ((← get).catalog.refer rule)
  | .choice branches => do alternation options.firstMatch (← assembleAll id options branches)
  | .sequence items => return .concatenation (← assembleAll id options items)
  | .repeated bounds element => do
    repetition options.cacheSize bounds (← assemble id options element)
  | .optional element => do Edit.optional options.cacheSize (← assemble id options element)
  | .prose text => return .prose text

def assembleAll (id : GrammarId) (options : Options) : List Expression → Edit (List Parser)
  | [] => return []
  | expression :: rest => do
    let parser ← assemble id options expression
    return parser :: (← assembleAll id options rest)
end

end Edit

namespace Standard
open Expression

def core : List (String × Expression) :=
  [("ALPHA", .choice [range '\x41' '\x5A', range '\x61' '\x7A']),
   ("BIT", .choice [text "0", text "1"]),
   ("CHAR", range '\x01' '\x7F'),
   ("CTL", .choice [range '\x00' '\x1F', exact "\x7F"]),
   ("CR", exact "\r"),
   ("CRLF", .sequence [.name "CR", .name "LF"]),
   ("DIGIT", range '\x30' '\x39'),
   ("DQUOTE", exact "\""),
   ("HEXDIG",
     .choice [.name "DIGIT", text "A", text "B", text "C", text "D", text "E", text "F"]),
   ("HTAB", exact "\t"),
   ("LF", exact "\n"),
   ("LWSP", star (.choice [.name "WSP", .sequence [.name "CRLF", .name "WSP"]])),
   ("OCTET", range '\x00' '\xFF'),
   ("SP", exact " "),
   ("VCHAR", range '\x21' '\x7E'),
   ("WSP", .choice [.name "SP", .name "HTAB"])]

def bracketed (opening closing : String) : Expression :=
  .sequence [text opening, star (.name "c-wsp"), .name "alternation", star (.name "c-wsp"),
    text closing]

def numeric (marker digit : String) : Expression :=
  let digits := plus (.name digit)
  .sequence [text marker,
    .sequence [digits,
      .optional (.choice
        [plus (.sequence [text ".", digits]), .sequence [text "-", digits]])]]

def abnf : List (String × Expression) :=
  [("rulelist", plus (.choice [.name "rule", .sequence [star (.name "c-wsp"), .name "c-nl"]])),
   ("rule", .sequence [.name "rulename", .name "defined-as", .name "elements", .name "c-nl"]),
   ("rulename",
     .sequence [.name "ALPHA", star (.choice [.name "ALPHA", .name "DIGIT", text "-"])]),
   ("defined-as",
     .sequence [star (.name "c-wsp"), .choice [text "=/", text "="], star (.name "c-wsp")]),
   ("elements", .sequence [.name "alternation", star (.name "c-wsp")]),
   ("c-wsp", .choice [.name "WSP", .sequence [.name "c-nl", .name "WSP"]]),
   ("c-nl", .choice [.name "comment", .name "CRLF"]),
   ("comment",
     .sequence [text ";", star (.choice [.name "WSP", .name "VCHAR"]), .name "CRLF"]),
   ("alternation",
     .sequence [.name "concatenation",
       star (.sequence
         [star (.name "c-wsp"), text "/", star (.name "c-wsp"), .name "concatenation"])]),
   ("concatenation",
     .sequence [.name "repetition", star (.sequence [plus (.name "c-wsp"), .name "repetition"])]),
   ("repetition", .sequence [.optional (.name "repeat"), .name "element"]),
   ("repeat",
     .choice [.sequence [star (.name "DIGIT"), text "*", star (.name "DIGIT")],
       plus (.name "DIGIT")]),
   ("element",
     .choice [.name "rulename", .name "group", .name "option", .name "char-val",
       .name "num-val", .name "prose-val"]),
   ("group", bracketed "(" ")"),
   ("option", bracketed "[" "]"),
   ("num-val",
     .sequence [text "%", .choice [.name "bin-val", .name "dec-val", .name "hex-val"]]),
   ("bin-val", numeric "b" "BIT"),
   ("dec-val", numeric "d" "DIGIT"),
   ("hex-val", numeric "x" "HEXDIG"),
   ("prose-val",
     .sequence [text "<", star (.choice [range '\x20' '\x3D', range '\x3F' '\x7E']), text ">"]),
   ("char-val", .choice [.name "case-insensitive-string", .name "case-sensitive-string"]),
   ("case-insensitive-string",
     .sequence [.optional (text "%i"), .name "quoted-string"]),
   ("case-sensitive-string", .sequence [text "%s", .name "quoted-string"]),
   ("quoted-string",
     .sequence [.name "DQUOTE", star (.choice [range '\x20' '\x21', range '\x23' '\x7E']),
       .name "DQUOTE"])]

end Standard

def GrammarId.core : GrammarId := ⟨0⟩

def GrammarId.abnf : GrammarId := ⟨1⟩

namespace Edit

def defineAll (id : GrammarId) (options : Options) (rules : List (String × Expression)) :
    Edit Unit :=
  rules.forM fun (name, body) => do discard <| define id name (← assemble id options body)

def standard : Edit Unit := do
  let core ← newGrammar "core" none .standard
  defineAll core .standard Standard.core
  let abnf ← newGrammar "abnf" (some core) .standard
  defineAll abnf .standard Standard.abnf

end Edit

@[irreducible]
def Store.standard : Store := (Edit.standard.run .empty).2

end Metasyntax
