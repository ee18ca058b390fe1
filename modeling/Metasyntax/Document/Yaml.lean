import Metasyntax.Text
import Metasyntax.Node

/-!
# Trees as YAML

Block mappings, with the items of a list at the indentation of its key. A text is
written plain where that is safe, else between single quotes, as a literal block if
it has lines, and between double quotes if it has characters that only an escape can
show. What would be read as a null, a truth value or a number is recognised and
quoted.
-/

set_option autoImplicit false

namespace Metasyntax.Yaml

def spanDigits (cs : List Char) : List Char × List Char :=
  (cs.takeWhile Char.isDigit, cs.dropWhile Char.isDigit)

def isDigits (cs : List Char) : Bool := !cs.isEmpty && cs.all Char.isDigit

def withoutPlus : List Char → Option (List Char)
  | '+' :: rest => if rest.head? = some '+' ∨ rest.head? = some '-' then none else some rest
  | other => some other

def hasLeadingZero (cs : List Char) : Bool :=
  let digits := match cs with
    | '-' :: rest => rest
    | '+' :: rest => rest
    | other => other
  match digits with
  | '0' :: rest => isDigits rest
  | _ => false

def radixMark : List Char → Option (Nat × List Char)
  | '0' :: 'x' :: rest => some (16, rest)
  | '0' :: 'o' :: rest => some (8, rest)
  | '0' :: 'b' :: rest => some (2, rest)
  | _ => none

def fits (radix most : Nat) (digits : List Char) : Bool :=
  (digitRow radix digits).any (· ≤ most)

def isInteger (cs : List Char) : Bool :=
  !hasLeadingZero cs &&
    match withoutPlus cs with
    | none => false
    | some ('-' :: rest) =>
      match radixMark rest with
      | some (radix, digits) => fits radix (Nat.pow 2 127) digits
      | none => fits 10 (Nat.pow 2 127) rest
    | some rest =>
      match radixMark rest with
      | some (radix, digits) => fits radix (Nat.pow 2 128 - 1) digits
      | none => fits 10 (Nat.pow 2 128 - 1) rest

def exponent? : List Char → Option Int
  | [] => some 0
  | c :: rest =>
    if c = 'e' ∨ c = 'E' then
      match rest with
      | '-' :: digits => (digitRow 10 digits).map fun value => -(value : Int)
      | '+' :: digits => (digitRow 10 digits).map fun value => (value : Int)
      | digits => (digitRow 10 digits).map fun value => (value : Int)
    else none

def decimal? (cs : List Char) : Option (Nat × Int) :=
  let (whole, rest) := spanDigits cs
  let (fraction, rest) := match rest with
    | '.' :: rest => spanDigits rest
    | other => ([], other)
  if whole.isEmpty && fraction.isEmpty then none
  else do
    let power ← exponent? rest
    let value ← digitRow 10 (whole ++ fraction)
    return (value, power - fraction.length)

def isFinite (value : Nat) (power : Int) : Bool :=
  let length : Int := ((Nat.toDigits 10 value).length : Int) + power
  -- Very long and very short numbers are told by their length alone.
  if value = 0 then true
  else if 400 < length then false
  else if length < 300 then true
  else
    let limit := Nat.pow 2 1024 - Nat.pow 2 970
    if 0 ≤ power then value * Nat.pow 10 power.toNat < limit
    else value < limit * Nat.pow 10 (-power).toNat

def isFloat (cs : List Char) : Bool :=
  match withoutPlus cs with
  | none => false
  | some unsigned =>
    let text := String.ofList cs
    String.ofList unsigned ∈ [".inf", ".Inf", ".INF"]
      || text ∈ ["-.inf", "-.Inf", "-.INF", ".nan", ".NaN", ".NAN"]
      || (decimal? (if unsigned.head? = some '-' then unsigned.tail else unsigned)).any
          fun (value, power) => isFinite value power

def isAmbiguous (text : String) : Bool :=
  text ∈ ["", "~", "null", "Null", "NULL", "true", "True", "TRUE", "false", "False", "FALSE"]
    || hasLeadingZero text.toList || isInteger text.toList || isFloat text.toList

inductive Style where
  | plain
  | single
  | double
  | block
  deriving DecidableEq, Repr

def isBreak (c : Char) : Bool :=
  c = '\n' || c = '\r' || c = '\u0085' || c = '\u2028' || c = '\u2029'

def isGap (c : Char) : Bool := c = ' ' || c = '\t' || isBreak c || c.toNat = 0

def isShowable (c : Char) : Bool :=
  c = '\n' || (0x20 ≤ c.toNat && c.toNat ≤ 0x7E)
    || (0xA0 ≤ c.toNat && c.toNat ≤ 0xFFFD && c.toNat ≠ 0xFEFF) || 0x10000 ≤ c.toNat

def anyNeighbours (related : Char → Char → Bool) (cs : List Char) : Bool :=
  (cs.zip cs.tail).any fun (a, b) => related a b

def isIndicator (c : Char) : Bool := c ∈ "#,[]\x7b\x7d&*!|>'\"%@\x60".toList

def hasIndicator (cs : List Char) : Bool :=
  ['-', '-', '-'].isPrefixOf cs || ['.', '.', '.'].isPrefixOf cs
    || cs.head?.any isIndicator
    || (cs.head?.any (· ∈ ['?', '-']) && cs.tail.head?.all isGap)
    || cs.getLast? = some ':'
    || anyNeighbours (fun a b => (a = ':' && isGap b) || (isGap a && b = '#')) cs

def spaceBeforeBreak (cs : List Char) : Bool := anyNeighbours (fun a b => a = ' ' && isBreak b) cs

def spaceAfterBreak (cs : List Char) : Bool := anyNeighbours (fun a b => isBreak a && b = ' ') cs

def needsEscapes (cs : List Char) : Bool := !cs.all isShowable || spaceBeforeBreak cs

def singleAllowed (cs : List Char) : Bool := !needsEscapes cs && !spaceAfterBreak cs

def plainAllowed (cs : List Char) : Bool :=
  !needsEscapes cs && !cs.any isBreak && cs.head? ≠ some ' ' && cs.getLast? ≠ some ' '
    && !hasIndicator cs

def blockAllowed (cs : List Char) : Bool := !needsEscapes cs && cs.getLast? ≠ some ' '

def styleOf (text : String) : Style :=
  let cs := text.toList
  if cs.contains '\n' then if blockAllowed cs then .block else .double
  else if plainAllowed cs && !isAmbiguous text then .plain
  else if singleAllowed cs then .single
  else .double

def hexCode (width code : Nat) : String :=
  let digits := (Nat.toDigits 16 code).map Char.toUpper
  String.ofList (List.replicate (width - digits.length) '0' ++ digits)

def escapeChar (c : Char) : String :=
  match c.toNat with
  | 0x00 => "\\0"
  | 0x07 => "\\a"
  | 0x08 => "\\b"
  | 0x09 => "\\t"
  | 0x0A => "\\n"
  | 0x0B => "\\v"
  | 0x0C => "\\f"
  | 0x0D => "\\r"
  | 0x1B => "\\e"
  | 0x22 => "\\\""
  | 0x5C => "\\\\"
  | 0x85 => "\\N"
  | 0x2028 => "\\L"
  | 0x2029 => "\\P"
  | code =>
    if isShowable c then c.toString
    else if code ≤ 0xFF then "\\x" ++ hexCode 2 code
    else if code ≤ 0xFFFF then "\\u" ++ hexCode 4 code
    else "\\U" ++ hexCode 8 code

def doubleQuoted (cs : List Char) : String := "\"" ++ String.join (cs.map escapeChar) ++ "\""

def spaces (count : Nat) : String := String.ofList (List.replicate count ' ')

def singleBody (indent : Nat) (owed : Bool) : List Char → String
  | [] => if owed then spaces indent else ""
  | c :: rest =>
    if isBreak c then c.toString ++ singleBody indent true rest
    else if c = ' ' then " " ++ singleBody indent owed rest
    else
      (if owed then spaces indent else "") ++ (if c = '\'' then "''" else c.toString)
        ++ singleBody indent false rest

def singleQuoted (indent : Nat) (cs : List Char) : String :=
  "'" ++ singleBody indent false cs ++ "'"

def chomping (cs : List Char) : String :=
  match cs.reverse with
  | [] => "-"
  | [last] => if isBreak last then "+" else "-"
  | last :: before :: _ =>
    if !isBreak last then "-" else if isBreak before then "+" else ""

def blockBody (indent : Nat) (owed : Bool) : List Char → String
  | [] => ""
  | c :: rest =>
    if isBreak c then c.toString ++ blockBody indent true rest
    else (if owed then spaces indent else "") ++ c.toString ++ blockBody indent false rest

def block (indent : Nat) (cs : List Char) : String :=
  "|" ++ (if cs.head?.any fun c => c = ' ' || isBreak c then "2" else "") ++ chomping cs ++ "\n"
    ++ blockBody indent true cs

def endsItsLine (text : String) : Bool :=
  styleOf text = .block && text.toList.getLast?.any isBreak

def scalar (indent : Nat) (text : String) : String :=
  match styleOf text with
  | .plain => text
  | .single => singleQuoted indent text.toList
  | .double => doubleQuoted text.toList
  | .block => block indent text.toList

def textField (indent : Nat) (key text : String) : String :=
  key ++ ": " ++ scalar (indent + 2) text ++ (if endsItsLine text then "" else "\n")

mutual
def mapping (indent : Nat) : Node → String
  | .rule name children =>
    textField indent "name" name ++ spaces indent
      ++ (match children with
        | [] => "children: []\n"
        | _ :: _ => "children:\n")
      ++ items indent children
  | .literal value offset =>
    textField indent "value" value
      ++ spaces indent ++ "offset: " ++ toString offset ++ "\n"
      ++ spaces indent ++ "length: " ++ toString (byteLength value.toList) ++ "\n"

def items (indent : Nat) : List Node → String
  | [] => ""
  | node :: rest => spaces indent ++ "- " ++ mapping (indent + 2) node ++ items indent rest
end

def render (node : Node) : String := mapping 0 node

end Metasyntax.Yaml
