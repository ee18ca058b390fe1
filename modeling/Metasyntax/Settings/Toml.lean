import Metasyntax.Text.Lowercase

/-!
# Settings files

Values under keys, and tables of them. Keys are kept in lowercase, whatever the
case they are written in. A table laid over another is merged with it key by key;
any other value takes the place of what was there. They are read from texts in TOML:
tables under headers, keys with dots in them, comments, and values that are strings,
integers or truth values. A key has one value, and a table is stated once.
-/

set_option autoImplicit false

namespace Metasyntax

inductive Setting where
  | null
  | flag (value : Bool)
  | integer (value : Int)
  | text (text : String)
  | table (fields : List (String × Setting))
  deriving Inhabited

namespace Setting

def fields : Setting → List (String × Setting)
  | .table fields => fields
  | _ => []

def field? (setting : Setting) (key : String) : Option Setting :=
  setting.fields.lookup (lowerText key)

def upsert (key : String) (value : Setting) : List (String × Setting) → List (String × Setting)
  | [] => [(key, value)]
  | (other, held) :: rest =>
    if other = key then (key, value) :: rest else (other, held) :: upsert key value rest

def setField (setting : Setting) (key : String) (value : Setting) : Setting :=
  .table (upsert (lowerText key) value setting.fields)

mutual
def overlay : Setting → Option Setting → Setting
  | .table fields, below => overlayAll fields (below.getD (.table []))
  | .null, _ => .null
  | .flag value, _ => .flag value
  | .integer value, _ => .integer value
  | .text content, _ => .text content

def overlayAll : List (String × Setting) → Setting → Setting
  | [], below => below
  | (key, value) :: rest, below =>
    overlayAll rest (below.setField key (overlay value (below.field? key)))
end

def put (root : Setting) (value : Setting) : List String → Setting
  | [] => root
  | [key] => root.setField key (overlay value (root.field? key))
  | key :: path => root.setField key (put ((root.field? key).getD .null) value path)

end Setting

def isPathChar (c : Char) : Bool := c.isAlphanum || c = ' ' || c = '_' || c = '-'

def parsePath (path : String) : Option (List String) :=
  let keys := path.splitOn "."
  if keys.all fun key => !key.isEmpty && key.all isPathChar then some keys else none

namespace Toml

inductive Origin where
  /-- It lies on the path to a table under a header. -/
  | path
  /-- It has a header of its own. -/
  | header
  /-- It lies on the path of a dotted key. -/
  | dotted
  deriving DecidableEq, Repr

inductive Item where
  | value (value : Setting)
  | table (origin : Origin) (fields : List (String × Item))
  deriving Inhabited

abbrev Reader (α : Type) := List Char → Option (α × List Char)

def isLineBlank (c : Char) : Bool := c = ' ' || c = '\t'

def skipBlanks (cs : List Char) : List Char := cs.dropWhile isLineBlank

def isForbidden (c : Char) : Bool := (c.toNat < 0x20 && c ≠ '\t') || c.toNat = 0x7F

def lineEnd? : List Char → Option (List Char)
  | '\n' :: rest => some rest
  | '\r' :: '\n' :: rest => some rest
  | _ => none

def skipComment : List Char → List Char
  | '#' :: rest => rest.dropWhile fun c => !isForbidden c
  | other => other

def finishLine (cs : List Char) : Option (List Char) :=
  match skipComment (skipBlanks cs) with
  | [] => some []
  | rest => lineEnd? rest

def codeEscape (digits : List Char) : Option Char :=
  match digitRow 16 digits with
  | some code => if code.isValidChar then some (Char.ofNat code) else none
  | none => none

def escape : Reader Char
  | 'b' :: rest => some ('\x08', rest)
  | 't' :: rest => some ('\t', rest)
  | 'n' :: rest => some ('\n', rest)
  | 'f' :: rest => some ('\x0C', rest)
  | 'r' :: rest => some ('\r', rest)
  | '"' :: rest => some ('"', rest)
  | '\\' :: rest => some ('\\', rest)
  | 'u' :: rest =>
    if rest.length < 4 then none else (codeEscape (rest.take 4)).map (·, rest.drop 4)
  | 'U' :: rest =>
    if rest.length < 8 then none else (codeEscape (rest.take 8)).map (·, rest.drop 8)
  | _ => none

def basicString (fuel : Nat) (cs : List Char) : Option (List Char × List Char) :=
  match fuel, cs with
  | 0, _ => none
  | _, [] => none
  | _, '"' :: rest => some ([], rest)
  | fuel + 1, '\\' :: rest => do
    let (c, rest) ← escape rest
    let (text, rest) ← basicString fuel rest
    return (c :: text, rest)
  | fuel + 1, c :: rest =>
    if isForbidden c then none
    else do
      let (text, rest) ← basicString fuel rest
      return (c :: text, rest)

def literalString : Reader (List Char)
  | [] => none
  | '\'' :: rest => some ([], rest)
  | c :: rest =>
    if isForbidden c then none else (literalString rest).map fun (text, rest) => (c :: text, rest)

def skipSpace : List Char → List Char
  | [] => []
  | '\n' :: rest => skipSpace rest
  | '\r' :: '\n' :: rest => skipSpace rest
  | c :: rest => if isLineBlank c then skipSpace rest else c :: rest

def longString (quote : Char) (escapes : Bool) (fuel : Nat) (cs : List Char) :
    Option (List Char × List Char) :=
  match fuel, cs with
  | 0, _ => none
  | _, [] => none
  | fuel + 1, c :: rest =>
    if c = quote && rest.take 2 = [quote, quote] then
      let quotes := (rest.drop 2).takeWhile (· = quote)
      let extra := quotes.take 2
      some (extra, rest.drop (2 + extra.length))
    else if c = '\\' && escapes then
      match lineEnd? (skipBlanks rest) with
      | some rest => longString quote escapes fuel (skipSpace rest)
      | none => do
        let (c, rest) ← escape rest
        let (text, rest) ← longString quote escapes fuel rest
        return (c :: text, rest)
    else
      match lineEnd? (c :: rest) with
      | some rest => do
        let (text, rest) ← longString quote escapes fuel rest
        return ('\n' :: text, rest)
      | none =>
        if isForbidden c then none
        else do
          let (text, rest) ← longString quote escapes fuel rest
          return (c :: text, rest)

def skipFirstEnd (cs : List Char) : List Char := (lineEnd? cs).getD cs

def string : Reader (List Char)
  | '"' :: '"' :: '"' :: rest => longString '"' true (rest.length + 1) (skipFirstEnd rest)
  | '\'' :: '\'' :: '\'' :: rest => longString '\'' false (rest.length + 1) (skipFirstEnd rest)
  | '"' :: rest => basicString (rest.length + 1) rest
  | '\'' :: rest => literalString rest
  | _ => none

def digitsBetween : List Char → Option (List Char)
  | [] => none
  | ['_'] => none
  | [c] => some [c]
  | '_' :: _ => none
  | c :: '_' :: rest => (digitsBetween rest).map (c :: ·)
  | c :: rest => (digitsBetween rest).map (c :: ·)

def decimal (cs : List Char) : Option Nat :=
  match digitsBetween cs with
  | some digits => if digits.head? = some '0' && digits.length ≠ 1 then none else digitRow 10 digits
  | none => none

def integerOf (token : List Char) : Option Int :=
  let value : Option Int :=
    match token with
    | '0' :: 'x' :: digits => ((digitsBetween digits).bind (digitRow 16)).map fun n => (n : Int)
    | '0' :: 'o' :: digits => ((digitsBetween digits).bind (digitRow 8)).map fun n => (n : Int)
    | '0' :: 'b' :: digits => ((digitsBetween digits).bind (digitRow 2)).map fun n => (n : Int)
    | '+' :: digits => (decimal digits).map fun n => (n : Int)
    | '-' :: digits => (decimal digits).map fun n => -(n : Int)
    | digits => (decimal digits).map fun n => (n : Int)
  value.filter fun n => -(Int.pow 2 63) ≤ n && n < Int.pow 2 63

def isBareKeyChar (c : Char) : Bool := c.isAlphanum || c = '_' || c = '-'

def simpleKey (cs : List Char) : Option (String × List Char) :=
  match cs with
  | '"' :: rest =>
    (basicString (rest.length + 1) rest).map fun (key, rest) => (String.ofList key, rest)
  | '\'' :: rest => (literalString rest).map fun (key, rest) => (String.ofList key, rest)
  | _ =>
    let key := cs.takeWhile isBareKeyChar
    if key.isEmpty then none else some (String.ofList key, cs.dropWhile isBareKeyChar)

def maxKeys : Nat := 79

def keysUpTo (limit : Nat) (cs : List Char) : Option (List String × List Char) :=
  match limit with
  | 0 => none
  | limit + 1 => do
    let (key, rest) ← simpleKey (skipBlanks cs)
    match skipBlanks rest with
    | '.' :: rest => do
      let (keys, rest) ← keysUpTo limit rest
      return (key :: keys, rest)
    | rest => return ([key], rest)

def dottedKey : Reader (List String) := keysUpTo maxKeys

def isTokenChar (c : Char) : Bool := c.isAlphanum || c = '_' || c = '+' || c = '-'

def value (cs : List Char) : Option (Setting × List Char) :=
  match string cs with
  | some (text, rest) => some (.text (String.ofList text), rest)
  | none =>
    let token := cs.takeWhile isTokenChar
    let rest := cs.dropWhile isTokenChar
    if token = ['t', 'r', 'u', 'e'] then some (.flag true, rest)
    else if token = ['f', 'a', 'l', 's', 'e'] then some (.flag false, rest)
    else (integerOf token).map fun n => (.integer n, rest)

abbrev Fields := List (String × Item)

def place (key : String) (item : Item) : Fields → Fields
  | [] => [(key, item)]
  | (other, held) :: rest =>
    if other = key then (key, item) :: rest else (other, held) :: place key item rest

def openTable (fields : Fields) : List String → Option Fields
  | [] => none
  | [key] =>
    match fields.lookup key with
    | none => some (place key (.table .header []) fields)
    | some (.table .path held) => some (place key (.table .header held) fields)
    | some _ => none
  | key :: path =>
    match fields.lookup key with
    | none => (openTable [] path).map fun inner => place key (.table .path inner) fields
    | some (.table origin held) =>
      (openTable held path).map fun inner => place key (.table origin inner) fields
    | some (.value _) => none

def assign (value : Setting) (fields : Fields) : List String → Option Fields
  | [] => none
  | [key] =>
    match fields.lookup key with
    | none => some (place key (.value value) fields)
    | some _ => none
  | key :: path =>
    match fields.lookup key with
    | none => (assign value [] path).map fun inner => place key (.table .dotted inner) fields
    | some (.table origin held) =>
      if origin = .dotted ∨ (origin = .path ∧ path.length ≠ 1) then
        (assign value held path).map fun inner => place key (.table origin inner) fields
      else none
    | some (.value _) => none

def assignIn (key : List String) (value : Setting) (fields : Fields) : List String → Option Fields
  | [] => assign value fields key
  | name :: path =>
    match fields.lookup name with
    | some (.table origin held) =>
      (assignIn key value held path).map fun inner => place name (.table origin inner) fields
    | _ => none

def document (fuel : Nat) (fields : Fields) (header : List String) (cs : List Char) :
    Option Fields :=
  match fuel with
  | 0 => none
  | fuel + 1 =>
    match skipBlanks cs with
    | [] => some fields
    | '[' :: rest => do
      let (path, rest) ← dottedKey rest
      match rest with
      | ']' :: rest =>
        let fields ← openTable fields path
        document fuel fields path (← finishLine rest)
      | _ => none
    | c :: rest =>
      if c = '#' ∨ c = '\n' ∨ c = '\r' then do
        document fuel fields header (← finishLine (c :: rest))
      else do
        let (key, rest) ← dottedKey (c :: rest)
        match rest with
        | '=' :: rest =>
          let (value, rest) ← value (skipBlanks rest)
          let fields ← assignIn key value fields header
          document fuel fields header (← finishLine rest)
        | _ => none

mutual
def Item.toSetting : Item → Setting
  | .value value => value
  | .table _ fields => .table (fieldsToSettings fields)

def fieldsToSettings : List (String × Item) → List (String × Setting)
  | [] => []
  | (key, item) :: rest => (key, item.toSetting) :: fieldsToSettings rest
end

def withoutMark : List Char → List Char
  | '\uFEFF' :: rest => rest
  | other => other

def parse (text : String) : Option (List (String × Setting)) :=
  let cs := withoutMark text.toList
  (document (cs.length + 1) [] [] cs).map fieldsToSettings

end Toml

end Metasyntax
