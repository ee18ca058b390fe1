import Mathlib.Algebra.Group.Nat.Defs
import Metasyntax.Proofs.Yields

/-!
# Rules as they are written

Rules in abstract form, and the texts that spell them: every layout with blanks, comments
and continued lines wherever these are allowed. An abstract rule also states what it
stands for, a production, unless a number in it is out of range or prose is no name.
-/

set_option autoImplicit false

namespace Metasyntax.Notation

def IsLetter (c : Char) : Prop := ('A' ≤ c ∧ c ≤ 'Z') ∨ ('a' ≤ c ∧ c ≤ 'z')

def IsDecimal (c : Char) : Prop := '0' ≤ c ∧ c ≤ '9'

def IsNameChar (c : Char) : Prop := IsLetter c ∨ IsDecimal c ∨ c = '-'

def IsSpace (c : Char) : Prop := c = ' ' ∨ c = '\t'

def IsPrintable (c : Char) : Prop := ' ' ≤ c ∧ c ≤ '~'

def IsRemark (c : Char) : Prop := IsPrintable c ∨ c = '\t'

def IsQuotable (c : Char) : Prop := IsPrintable c ∧ c ≠ '"'

def IsProse (c : Char) : Prop := IsPrintable c ∧ c ≠ '>'

def IsName : List Char → Prop
  | [] => False
  | c :: cs => IsLetter c ∧ ∀ d ∈ cs, IsNameChar d

instance decidableForallMem {p : Char → Prop} [DecidablePred p] (cs : List Char) :
    Decidable (∀ c ∈ cs, p c) :=
  List.decidableBAll p cs

instance : DecidablePred IsLetter := fun c =>
  inferInstanceAs (Decidable (('A' ≤ c ∧ c ≤ 'Z') ∨ ('a' ≤ c ∧ c ≤ 'z')))

instance : DecidablePred IsDecimal := fun c => inferInstanceAs (Decidable ('0' ≤ c ∧ c ≤ '9'))

instance : DecidablePred IsNameChar := fun c =>
  inferInstanceAs (Decidable (IsLetter c ∨ IsDecimal c ∨ c = '-'))

instance : DecidablePred IsSpace := fun c => inferInstanceAs (Decidable (c = ' ' ∨ c = '\t'))

instance : DecidablePred IsPrintable := fun c => inferInstanceAs (Decidable (' ' ≤ c ∧ c ≤ '~'))

instance : DecidablePred IsRemark := fun c =>
  inferInstanceAs (Decidable (IsPrintable c ∨ c = '\t'))

instance : DecidablePred IsQuotable := fun c =>
  inferInstanceAs (Decidable (IsPrintable c ∧ c ≠ '"'))

instance : DecidablePred IsProse := fun c =>
  inferInstanceAs (Decidable (IsPrintable c ∧ c ≠ '>'))

instance : DecidablePred IsName
  | [] => inferInstanceAs (Decidable False)
  | c :: cs => inferInstanceAs (Decidable (IsLetter c ∧ ∀ d ∈ cs, IsNameChar d))

def LineEnd (cs : List Char) : Prop :=
  cs = ['\r', '\n'] ∨ ∃ remark, (∀ c ∈ remark, IsRemark c) ∧ cs = ';' :: remark ++ ['\r', '\n']

def Gap (cs : List Char) : Prop :=
  ∃ line c, (line = [] ∨ LineEnd line) ∧ IsSpace c ∧ cs = line ++ [c]

inductive Gaps : List Char → Prop where
  | nil : Gaps []
  | cons {first rest : List Char} : Gap first → Gaps rest → Gaps (first ++ rest)

inductive Radix where
  | binary
  | decimal
  | hexadecimal
  deriving DecidableEq

namespace Radix

def base : Radix → Nat
  | binary => 2
  | decimal => 10
  | hexadecimal => 16

def Marks : Radix → Char → Prop
  | binary, c => c = 'b' ∨ c = 'B'
  | decimal, c => c = 'd' ∨ c = 'D'
  | hexadecimal, c => c = 'x' ∨ c = 'X'

def IsDigit : Radix → Char → Prop
  | binary, c => c = '0' ∨ c = '1'
  | decimal, c => IsDecimal c
  | hexadecimal, c => IsDecimal c ∨ ('A' ≤ c ∧ c ≤ 'F') ∨ ('a' ≤ c ∧ c ≤ 'f')

def IsNumber (radix : Radix) (digits : List Char) : Prop :=
  digits ≠ [] ∧ ∀ c ∈ digits, radix.IsDigit c

instance (radix : Radix) : DecidablePred radix.IsDigit := fun c =>
  match radix with
  | binary => inferInstanceAs (Decidable (c = '0' ∨ c = '1'))
  | decimal => inferInstanceAs (Decidable (IsDecimal c))
  | hexadecimal =>
    inferInstanceAs (Decidable (IsDecimal c ∨ ('A' ≤ c ∧ c ≤ 'F') ∨ ('a' ≤ c ∧ c ≤ 'f')))

instance (radix : Radix) : DecidablePred radix.IsNumber := fun digits =>
  inferInstanceAs (Decidable (digits ≠ [] ∧ ∀ c ∈ digits, radix.IsDigit c))

def weight (c : Char) : Nat :=
  if c ≤ '9' then c.toNat - '0'.toNat
  else if c ≤ 'F' then c.toNat - 'A'.toNat + 10
  else c.toNat - 'a'.toNat + 10

def number (radix : Radix) (digits : List Char) : Nat :=
  digits.foldl (fun value c => value * radix.base + weight c) 0

def character (radix : Radix) (digits : List Char) : Except GrammarError Char :=
  if (radix.number digits).isValidChar then .ok (Char.ofNat (radix.number digits))
  else .error (.invalidNumVal (String.ofList digits))

end Radix

inductive Numeral where
  | series (first : List Char) (rest : List (List Char))
  | range (first last : List Char)

namespace Numeral

def WellFormed (radix : Radix) : Numeral → Prop
  | series first rest => radix.IsNumber first ∧ ∀ digits ∈ rest, radix.IsNumber digits
  | range first last => radix.IsNumber first ∧ radix.IsNumber last

instance (radix : Radix) : DecidablePred (WellFormed radix)
  | series first rest =>
    inferInstanceAs (Decidable (radix.IsNumber first ∧ ∀ digits ∈ rest, radix.IsNumber digits))
  | range first last => inferInstanceAs (Decidable (radix.IsNumber first ∧ radix.IsNumber last))

def text : Numeral → List Char
  | series first rest => first ++ rest.flatMap ('.' :: ·)
  | range first last => first ++ '-' :: last

def literal (radix : Radix) : Numeral → Except GrammarError Literal
  | series first rest => do
    return .exact (String.ofList (← (first :: rest).mapM radix.character))
  | range first last => do return .range (← radix.character first) (← radix.character last)

end Numeral

inductive Count where
  | exactly (digits : List Char)
  | between (least most : List Char)

namespace Count

def WellFormed : Count → Prop
  | exactly digits => Radix.decimal.IsNumber digits
  | between least most => (∀ c ∈ least, IsDecimal c) ∧ ∀ c ∈ most, IsDecimal c

instance : DecidablePred WellFormed
  | exactly digits => inferInstanceAs (Decidable (Radix.decimal.IsNumber digits))
  | between least most =>
    inferInstanceAs (Decidable ((∀ c ∈ least, IsDecimal c) ∧ ∀ c ∈ most, IsDecimal c))

def text : Count → List Char
  | exactly digits => digits
  | between least most => least ++ '*' :: most

def bound (count : Count) (digits : List Char) : Except GrammarError (Option Nat) :=
  if digits = [] then .ok none
  else if Radix.decimal.number digits < 2 ^ 64 then .ok (some (Radix.decimal.number digits))
  else .error (.invalidRepeat (String.ofList count.text))

def bounds (count : Count) : Except GrammarError Bounds :=
  match count with
  | exactly digits => do return .exactly ((← count.bound digits).getD 0)
  | between least most => do
    let least := (← count.bound least).getD 0
    let most ← count.bound most
    if most.any (· < least) then throw (.invalidRepeat (String.ofList count.text))
    return ⟨least, most⟩

end Count

inductive Quotation where
  | plain
  | insensitive
  | sensitive
  deriving DecidableEq

def Quotation.Opens : Quotation → List Char → Prop
  | plain, cs => cs = []
  | insensitive, cs => cs = ['%', 'i'] ∨ cs = ['%', 'I']
  | sensitive, cs => cs = ['%', 's'] ∨ cs = ['%', 'S']

mutual
inductive Element where
  | name (name : List Char)
  | group (choice : Choice)
  | option (choice : Choice)
  | quoted (quotation : Quotation) (text : List Char)
  | numeral (radix : Radix) (value : Numeral)
  | prose (text : List Char)

inductive Item where
  | once (element : Element)
  | repeated (count : Count) (element : Element)

inductive Row where
  | last (item : Item)
  | more (item : Item) (rest : Row)

inductive Choice where
  | last (row : Row)
  | more (row : Row) (rest : Choice)
end

structure Rule where
  name : List Char
  /-- Whether the body is added to what is defined already. -/
  incremental : Bool
  body : Choice

mutual
def Element.Spelled : Element → List Char → Prop
  | .name name, cs => IsName name ∧ cs = name
  | .group choice, cs => ∃ gaps inner gaps', Gaps gaps ∧ choice.Spelled inner ∧ Gaps gaps' ∧
    cs = '(' :: (gaps ++ inner ++ gaps' ++ [')'])
  | .option choice, cs => ∃ gaps inner gaps', Gaps gaps ∧ choice.Spelled inner ∧ Gaps gaps' ∧
    cs = '[' :: (gaps ++ inner ++ gaps' ++ [']'])
  | .quoted quotation text, cs => (∀ c ∈ text, IsQuotable c) ∧
    ∃ opening, quotation.Opens opening ∧ cs = opening ++ '"' :: text ++ ['"']
  | .numeral radix value, cs => value.WellFormed radix ∧
    ∃ mark, radix.Marks mark ∧ cs = '%' :: mark :: value.text
  | .prose text, cs => (∀ c ∈ text, IsProse c) ∧ cs = '<' :: text ++ ['>']

def Item.Spelled : Item → List Char → Prop
  | .once element, cs => element.Spelled cs
  | .repeated count element, cs => count.WellFormed ∧
    ∃ inner, element.Spelled inner ∧ cs = count.text ++ inner

def Row.Spelled : Row → List Char → Prop
  | .last item, cs => item.Spelled cs
  | .more item rest, cs => ∃ first gaps others, item.Spelled first ∧ Gaps gaps ∧ gaps ≠ [] ∧
    rest.Spelled others ∧ cs = first ++ gaps ++ others

def Choice.Spelled : Choice → List Char → Prop
  | .last row, cs => row.Spelled cs
  | .more row rest, cs => ∃ first gaps gaps' others, row.Spelled first ∧ Gaps gaps ∧ Gaps gaps' ∧
    rest.Spelled others ∧ cs = first ++ gaps ++ '/' :: gaps' ++ others
end

def Rule.sign (rule : Rule) : List Char := if rule.incremental then ['=', '/'] else ['=']

/-- A text spells a rule, up to the end of its last line. -/
def Rule.Spelled (rule : Rule) (cs : List Char) : Prop :=
  IsName rule.name ∧ ∃ gaps gaps' inner gaps'' line, Gaps gaps ∧ Gaps gaps' ∧
    rule.body.Spelled inner ∧ Gaps gaps'' ∧ LineEnd line ∧
    cs = rule.name ++ gaps ++ rule.sign ++ gaps' ++ inner ++ gaps'' ++ line

/-- A text spells rules in order, with lines between them that hold no rule. -/
inductive Listing : List Rule → List Char → Prop where
  | nil : Listing [] []
  | rule {rule : Rule} {rules : List Rule} {first rest : List Char} : rule.Spelled first →
    Listing rules rest → Listing (rule :: rules) (first ++ rest)
  | blank {rules : List Rule} {gaps line rest : List Char} : Gaps gaps → LineEnd line →
    Listing rules rest → Listing rules (gaps ++ line ++ rest)

def collapsed (combine : List Expression → Expression) : List Expression → Expression
  | [part] => part
  | parts => combine parts

def proseExpression (mode : ProseMode) (text : List Char) : Except GrammarError Expression :=
  if IsName text then .ok (.name (String.ofList text))
  else
    match mode with
    | .reject => .error (.proseVal (String.ofList text))
    | .placeholder => .ok (.prose (String.ofList text))

mutual
def Element.expression (mode : ProseMode) : Element → Except GrammarError Expression
  | .name name => .ok (.name (String.ofList name))
  | .group choice => do return collapsed .choice (← choice.expressions mode)
  | .option choice => do return .optional (collapsed .choice (← choice.expressions mode))
  | .quoted quotation text =>
    .ok (.literal ⟨.text (String.ofList text), quotation = .sensitive⟩)
  | .numeral radix value => do return .literal (← value.literal radix)
  | .prose text => proseExpression mode text

def Item.expression (mode : ProseMode) : Item → Except GrammarError Expression
  | .once element => element.expression mode
  | .repeated count element => do
    let element ← element.expression mode
    return .repeated (← count.bounds) element

def Row.expressions (mode : ProseMode) : Row → Except GrammarError (List Expression)
  | .last item => do return [← item.expression mode]
  | .more item rest => do
    let first ← item.expression mode
    return first :: (← rest.expressions mode)

def Choice.expressions (mode : ProseMode) : Choice → Except GrammarError (List Expression)
  | .last row => do return [collapsed .sequence (← row.expressions mode)]
  | .more row rest => do
    let first ← row.expressions mode
    return collapsed .sequence first :: (← rest.expressions mode)
end

def Row.expression (mode : ProseMode) (row : Row) : Except GrammarError Expression := do
  return collapsed .sequence (← row.expressions mode)

def Choice.expression (mode : ProseMode) (choice : Choice) : Except GrammarError Expression := do
  return collapsed .choice (← choice.expressions mode)

def Rule.production (mode : ProseMode) (rule : Rule) : Except GrammarError Production := do
  return ⟨String.ofList rule.name, rule.incremental, ← rule.body.expression mode⟩

end Metasyntax.Notation
