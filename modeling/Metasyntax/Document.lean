import Metasyntax.Document.Yaml

/-!
# Documents

The formats that a tree can be written in, and the selections of formats that a
program offers under their names. A drawing has one line for each node in document
order: a bar for each ancestor that has more siblings to come and a blank for each
that has not, then a corner for the root and for a last child and a tee for any
other, written in one go by a writer that knows what stands to their left. JSON has
two spaces of indentation for each level, fields in the order they are given, and
nothing between the brackets of an empty list.
-/

set_option autoImplicit false

namespace Metasyntax

namespace Drawing

def visible (text : String) : List Char :=
  text.toList.flatMap fun c =>
    if c = '\r' then ['\\', 'r']
    else if c = '\n' then ['\\', 'n']
    else if c = '\t' then ['\\', 't']
    else [c]

def shorten (limit : Nat) (cs : List Char) : String :=
  if limit < cs.length then String.ofList (cs.take limit) ++ "..." else String.ofList cs

def label (name value : String) : String := name ++ ": " ++ shorten 30 (visible value)

structure Writer where
  out : String
  rails : String
  last : Bool

namespace Writer

def line (writer : Writer) (name value : String) : Writer :=
  let connector := if writer.last || writer.rails.isEmpty then "└─" else "├─"
  { writer with
    out := writer.out ++ (writer.rails ++ connector ++ " " ++ label name value ++ "\n") }

mutual
def visit (writer : Writer) : Node → Writer
  | .rule name children =>
    let named := writer.line name (Node.rule name children).value
    let wasLast := named.last || named.rails.isEmpty
    let inner := { named with rails := named.rails ++ (if wasLast then "  " else "│ ") }
    -- The rails are put back, and whether it is the last one is left as the children had it.
    { inner.visitAll children.length 0 children with rails := named.rails }
  | .literal value _ => writer.line Node.leafName value

def visitAll (writer : Writer) (count place : Nat) : List Node → Writer
  | [] => writer
  | child :: rest =>
    (visit { writer with last := place == count - 1 } child).visitAll count (place + 1) rest
end

end Writer

def draw (node : Node) : String := (Writer.visit ⟨"", "", false⟩ node).out

end Drawing

inductive JsonValue where
  | number (value : Nat)
  | text (text : String)
  | list (items : List JsonValue)
  | record (fields : List (String × JsonValue))
  deriving Inhabited

namespace JsonValue

def escapeChar (c : Char) : String :=
  if c = '"' then "\\\""
  else if c = '\\' then "\\\\"
  else if c.toNat = 0x08 then "\\b"
  else if c.toNat = 0x0C then "\\f"
  else if c = '\n' then "\\n"
  else if c = '\r' then "\\r"
  else if c = '\t' then "\\t"
  else if c.toNat < 0x20 then
    "\\u00" ++ (if c.toNat < 0x10 then "0" else "") ++ radixText 16 c.toNat
  else c.toString

def quote (text : String) : String :=
  "\"" ++ String.join (text.toList.map escapeChar) ++ "\""

def newLine (level : Nat) : String := "\n" ++ String.ofList (List.replicate (2 * level) ' ')

mutual
def render (level : Nat) : JsonValue → String
  | .number value => toString value
  | .text content => quote content
  | .list [] => "[]"
  | .list (item :: rest) =>
    "[" ++ newLine (level + 1) ++ render (level + 1) item ++ renderItems (level + 1) rest
      ++ newLine level ++ "]"
  | .record [] => "\x7b\x7d"
  | .record ((key, value) :: rest) =>
    "\x7b" ++ newLine (level + 1) ++ quote key ++ ": " ++ render (level + 1) value
      ++ renderFields (level + 1) rest ++ newLine level ++ "\x7d"

def renderItems (level : Nat) : List JsonValue → String
  | [] => ""
  | item :: rest => "," ++ newLine level ++ render level item ++ renderItems level rest

def renderFields (level : Nat) : List (String × JsonValue) → String
  | [] => ""
  | (key, value) :: rest =>
    "," ++ newLine level ++ quote key ++ ": " ++ render level value ++ renderFields level rest
end

def pretty (value : JsonValue) : String := render 0 value

end JsonValue

namespace Node

mutual
def toJson : Node → JsonValue
  | .rule name children =>
    .record [("name", .text name), ("children", .list (toJsonAll children))]
  | .literal value offset =>
    .record [("value", .text value), ("offset", .number offset),
      ("length", .number (byteLength value.toList))]

def toJsonAll : List Node → List JsonValue
  | [] => []
  | node :: rest => node.toJson :: toJsonAll rest
end

end Node

inductive Format where
  | json
  | treeviz
  | yaml
  deriving DecidableEq, Repr

namespace Format

def name : Format → String
  | .json => "json"
  | .treeviz => "treeviz"
  | .yaml => "yaml"

def description : Format → String
  | .json => "Pretty-printed JSON"
  | .treeviz => "One line per node with box-drawing connectors"
  | .yaml => "YAML document"

def write : Format → Node → String
  | .json, node => node.toJson.pretty
  | .treeviz, node => Drawing.draw node
  | .yaml, node => Yaml.render node

def all : List Format := [.json, .treeviz, .yaml]

end Format

inductive FormatError where
  | notFound (name : String)
  deriving DecidableEq, Repr

def FormatError.message : FormatError → String
  | .notFound name => "Format '" ++ name ++ "' not found"

structure FormatRegistry where
  offered : Format → Bool

namespace FormatRegistry

def empty : FormatRegistry := ⟨fun _ => false⟩

def full : FormatRegistry := ⟨fun _ => true⟩

def register (registry : FormatRegistry) (format : Format) : FormatRegistry :=
  ⟨fun other => other = format || registry.offered other⟩

def formats (registry : FormatRegistry) : List Format := Format.all.filter registry.offered

def names (registry : FormatRegistry) : List String := registry.formats.map (·.name)

def find? (registry : FormatRegistry) (name : String) : Option Format :=
  registry.formats.find? (·.name == name)

def serialize (registry : FormatRegistry) (name : String) (node : Node) :
    Except FormatError String :=
  match registry.find? name with
  | some format => .ok (format.write node)
  | none => .error (.notFound name)

end FormatRegistry

end Metasyntax
