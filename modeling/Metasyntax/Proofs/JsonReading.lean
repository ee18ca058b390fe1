import Mathlib.Data.List.Basic
import Metasyntax.Document

/-!
# Reading JSON

A reader of JSON that knows nothing of how trees are written: blanks may stand between any two
parts, characters may be escaped in any way, and an object may have its members in any order.
-/

set_option autoImplicit false

namespace Metasyntax

inductive Json where
  | null
  | boolean (value : Bool)
  | number (mantissa exponent : Int)
  | text (text : String)
  | array (items : List Json)
  | object (members : List (String × Json))
  deriving Inhabited

namespace Json

abbrev Reader (α : Type) := List Char → Option (α × List Char)

def isGap (c : Char) : Bool := c == ' ' || c == '\n' || c == '\r' || c == '\t'

def skipGap (cs : List Char) : List Char := cs.dropWhile isGap

def readUnit : Reader Nat
  | a :: b :: c :: d :: rest => (digitsValue 16 0 [a, b, c, d]).map (·, rest)
  | _ => none

def readCode : Reader Char := fun cs => do
  let (first, rest) ← readUnit cs
  if first.isValidChar then return (Char.ofNat first, rest)
  match rest with
  | '\\' :: 'u' :: rest =>
    let (second, rest) ← readUnit rest
    if first < 0xDC00 ∧ 0xDC00 ≤ second ∧ second < 0xE000 then
      return (Char.ofNat (0x10000 + (first - 0xD800) * 0x400 + (second - 0xDC00)), rest)
    else none
  | _ => none

def escaped? : Char → Option Char
  | '"' => some '"'
  | '\\' => some '\\'
  | '/' => some '/'
  | 'b' => some '\x08'
  | 'f' => some '\x0c'
  | 'n' => some '\n'
  | 'r' => some '\r'
  | 't' => some '\t'
  | _ => none

def readChar : Reader Char
  | '\\' :: 'u' :: rest => readCode rest
  | '\\' :: c :: rest => (escaped? c).map (·, rest)
  | c :: rest => if c = '\\' ∨ c.toNat < 0x20 then none else some (c, rest)
  | [] => none

def readText (cs : List Char) : Option (List Char × List Char) :=
  match cs with
  | '"' :: rest => some ([], rest)
  | cs =>
    match readChar cs with
    | some (c, rest) =>
      if rest.length < cs.length then
        (readText rest).map fun (content, rest) => (c :: content, rest)
      else none
    | none => none
termination_by cs.length

def readDigits : Reader (List Char) := fun cs =>
  if (cs.takeWhile Char.isDigit).isEmpty then none
  else some (cs.takeWhile Char.isDigit, cs.dropWhile Char.isDigit)

def readWhole : Reader (List Char) := fun cs =>
  (readDigits cs).filter fun (digits, _) => digits.head? ≠ some '0' || digits == ['0']

def readFraction : Reader (List Char)
  | '.' :: rest => readDigits rest
  | rest => some ([], rest)

def readPlain : Reader Nat := fun cs =>
  (readDigits cs).map fun (digits, rest) => (Nat.ofDigitChars 10 digits 0, rest)

def readExponent : Reader Int
  | 'e' :: rest | 'E' :: rest =>
    match rest with
    | '-' :: rest => (readPlain rest).map fun (exponent, rest) => (-(exponent : Int), rest)
    | '+' :: rest => (readPlain rest).map fun (exponent, rest) => (exponent, rest)
    | rest => (readPlain rest).map fun (exponent, rest) => (exponent, rest)
  | rest => some (0, rest)

def readUnsigned : Reader (Nat × Int) := fun cs => do
  let (whole, rest) ← readWhole cs
  let (fraction, rest) ← readFraction rest
  let (exponent, rest) ← readExponent rest
  return ((Nat.ofDigitChars 10 (whole ++ fraction) 0, exponent - fraction.length), rest)

def readNumber : Reader Json
  | '-' :: rest => (readUnsigned rest).map fun ((mantissa, exponent), rest) =>
    (.number (-mantissa) exponent, rest)
  | cs => (readUnsigned cs).map fun ((mantissa, exponent), rest) =>
    (.number mantissa exponent, rest)

def readScalar : Reader Json
  | '"' :: rest => (readText rest).map fun (content, rest) => (.text (String.ofList content), rest)
  | 'n' :: 'u' :: 'l' :: 'l' :: rest => some (.null, rest)
  | 't' :: 'r' :: 'u' :: 'e' :: rest => some (.boolean true, rest)
  | 'f' :: 'a' :: 'l' :: 's' :: 'e' :: rest => some (.boolean false, rest)
  | cs => readNumber cs

section
variable {α : Type} (element : Reader α) (close : Char)

def readSeries (cs : List Char) : Option (List α × List Char) :=
  match element cs with
  | none => none
  | some (first, rest) =>
    match skipGap rest with
    | [] => none
    | c :: rest =>
      if c = close then some ([first], rest)
      else if c = ',' ∧ rest.length < cs.length then
        (readSeries rest).map fun (others, rest) => (first :: others, rest)
      else none
termination_by cs.length

def readList : Reader (List α) := fun cs =>
  match skipGap cs with
  | c :: rest => if c = close then some ([], rest) else readSeries element close cs
  | [] => none

end

def readMember (value : Reader Json) : Reader (String × Json) := fun cs =>
  match skipGap cs with
  | '"' :: rest => do
    let (key, rest) ← readText rest
    match skipGap rest with
    | ':' :: rest => (value rest).map fun (value, rest) => ((String.ofList key, value), rest)
    | _ => none
  | _ => none

def readValue : Nat → Reader Json
  | 0, cs => readScalar (skipGap cs)
  | depth + 1, cs =>
    match skipGap cs with
    | '[' :: rest =>
      (readList (readValue depth) ']' rest).map fun (items, rest) => (.array items, rest)
    | '\x7b' :: rest =>
      (readList (readMember (readValue depth)) '\x7d' rest).map fun (members, rest) =>
        (.object members, rest)
    | rest => readScalar rest

def ofText? (text : String) : Option Json :=
  match readValue text.length text.toList with
  | some (value, rest) => if skipGap rest = [] then some value else none
  | none => none

def Follows (rest : List Char) : Prop := ∀ c ∈ rest.head?, c = ',' ∨ c = '\n'

def Reads {α : Type} (element : Reader α) (text : List Char) (a : α) : Prop :=
  ∀ gap rest, gap.all isGap = true → Follows rest → element (gap ++ (text ++ rest)) = some (a, rest)

theorem follows_cons {c : Char} {cs : List Char} (hc : c = ',' ∨ c = '\n') : Follows (c :: cs) := by
  intro d hd
  cases hd
  exact hc

theorem skipGap_append {gap : List Char} (h : gap.all isGap = true) (cs : List Char) :
    skipGap (gap ++ cs) = skipGap cs :=
  List.dropWhile_append_of_pos (List.all_eq_true.1 h)

theorem skipGap_cons {c : Char} (h : isGap c = false) (cs : List Char) :
    skipGap (c :: cs) = c :: cs := by
  rw [skipGap, List.dropWhile_cons, if_neg (by rw [h]; decide)]

theorem escapeChar_eq_cons (c : Char) :
    ∃ d rest, (JsonValue.escapeChar c).toList = d :: rest ∧ d ≠ '"' := by
  fun_cases JsonValue.escapeChar c with
  | case8 =>
    rw [String.toList_append, String.toList_append]
    exact ⟨'\\', _, rfl, by decide⟩
  | case9 hquote => exact ⟨c, [], by simp, hquote⟩
  | _ => exact ⟨'\\', _, rfl, by decide⟩

theorem readUnit_control : ∀ n < 0x20, ∃ a b,
    ("\\u00" ++ (if n < 0x10 then "0" else "") ++ radixText 16 n).toList =
      ['\\', 'u', '0', '0', a, b] ∧ digitsValue 16 0 ['0', '0', a, b] = some n := by
  have hdigits : ∀ n < 0x20,
      ("\\u00" ++ (if n < 0x10 then "0" else "") ++ radixText 16 n).toList =
          ['\\', 'u', '0', '0', Nat.digitChar (n / 16), Nat.digitChar (n % 16)] ∧
        digitsValue 16 0 ['0', '0', Nat.digitChar (n / 16), Nat.digitChar (n % 16)] = some n := by
    decide +kernel
  exact fun n hn => ⟨_, _, hdigits n hn⟩

theorem readChar_escapeChar (c : Char) (rest : List Char) :
    readChar ((JsonValue.escapeChar c).toList ++ rest) = some (c, rest) := by
  have hcode {n : Nat} (h : c.toNat = n) : c = Char.ofNat n := by rw [← h, Char.ofNat_toNat]
  fun_cases JsonValue.escapeChar c with
  | case1 h => rw [h]; rfl
  | case2 _ h => rw [h]; rfl
  | case3 _ _ h => rw [hcode h]; rfl
  | case4 _ _ _ h => rw [hcode h]; rfl
  | case5 _ _ _ _ h => rw [h]; rfl
  | case6 _ _ _ _ _ h => rw [h]; rfl
  | case7 _ _ _ _ _ _ h => rw [h]; rfl
  | case8 _ _ _ _ _ _ _ h =>
    -- a control without a letter of its own is written by its code
    obtain ⟨a, b, hunit, hvalue⟩ := readUnit_control c.toNat h
    have hvalid : c.toNat.isValidChar := Or.inl (by omega)
    rw [hunit]
    simp only [List.cons_append, List.nil_append, readChar, readCode, readUnit, hvalue]
    simp [hvalid]
  | case9 _ hback _ _ _ _ _ hcontrol =>
    have hplain : ¬(c = '\\' ∨ c.toNat < 0x20) := not_or.2 ⟨hback, hcontrol⟩
    rw [Char.toString, String.toList_singleton, List.singleton_append, readChar, if_neg hplain]
    all_goals
      intros
      exact hback (by assumption)

/-- The quote that ends a text is none of the characters in it. -/
theorem readText_escaped (content rest : List Char) :
    readText ((content.flatMap fun c => (JsonValue.escapeChar c).toList) ++ '"' :: rest) =
      some (content, rest) := by
  induction content with
  | nil => rw [List.flatMap_nil, List.nil_append, readText]
  | cons c content ih =>
    obtain ⟨d, more, hcons, hquote⟩ := escapeChar_eq_cons c
    have hread := readChar_escapeChar c
      ((content.flatMap fun c => (JsonValue.escapeChar c).toList) ++ '"' :: rest)
    rw [List.flatMap_cons, List.append_assoc]
    rw [hcons, List.cons_append] at hread ⊢
    rw [readText]
    · have hshort : ∀ tail : List Char, tail.length < (d :: (more ++ tail)).length := by
        intro tail
        rw [List.length_cons, List.length_append]
        omega
      simp only [hread, ih, hshort, if_true, Option.map_some]
    · rintro _ ⟨⟩
      exact hquote rfl

theorem Follows.not_isDigit {rest : List Char} (h : Follows rest) :
    rest.takeWhile Char.isDigit = [] ∧ rest.dropWhile Char.isDigit = rest := by
  cases rest with
  | nil => exact ⟨rfl, rfl⟩
  | cons c rest =>
    rcases h c rfl with rfl | rfl <;> exact ⟨rfl, rfl⟩

/-- Only zero itself has a numeral that begins with a zero. -/
theorem eq_zero_of_head?_toDigits (n : Nat) (h : (Nat.toDigits 10 n).head? = some '0') : n = 0 := by
  induction n using Nat.strongRecOn with
  | _ n ih =>
    by_cases hn : n < 10
    · rw [Nat.toDigits_of_lt_base hn] at h
      have hdigit : ∀ m < 10, [Nat.digitChar m].head? = some '0' → m = 0 := by decide
      exact hdigit n hn h
    · rw [Nat.toDigits_of_base_le (by decide) (by omega),
        List.head?_append_of_ne_nil _ Nat.toDigits_ne_nil] at h
      have hfirst := ih (n / 10) (by omega) h
      omega

theorem readDigits_append {digits rest : List Char} (hdigits : ∀ c ∈ digits, c.isDigit = true)
    (hne : digits ≠ []) (hrest : Follows rest) :
    readDigits (digits ++ rest) = some (digits, rest) := by
  rw [readDigits, List.takeWhile_append_of_pos hdigits, List.dropWhile_append_of_pos hdigits,
    hrest.not_isDigit.1, hrest.not_isDigit.2, List.append_nil, if_neg (by simpa using hne)]

theorem readUnsigned_numeral (n : Nat) {rest : List Char} (hrest : Follows rest) :
    readUnsigned (Nat.toDigits 10 n ++ rest) = some ((n, 0), rest) := by
  have hdigits : readDigits (Nat.toDigits 10 n ++ rest) = some (Nat.toDigits 10 n, rest) :=
    readDigits_append (fun _ => Nat.isDigit_of_mem_toDigits (by decide) (by decide))
      Nat.toDigits_ne_nil hrest
  have hwhole : readWhole (Nat.toDigits 10 n ++ rest) = some (Nat.toDigits 10 n, rest) := by
    rw [readWhole, hdigits, Option.filter_some_pos]
    by_cases hzero : (Nat.toDigits 10 n).head? = some '0'
    · rw [eq_zero_of_head?_toDigits n hzero]
      rfl
    · simp [hzero]
  have hfraction : readFraction rest = some ([], rest) := by
    rw [readFraction]
    rintro _ rfl
    rcases hrest _ rfl with h | h <;> cases h
  have hexponent : readExponent rest = some (0, rest) := by
    rw [readExponent]
    · rintro _ rfl
      rcases hrest _ rfl with h | h <;> cases h
    · rintro _ rfl
      rcases hrest _ rfl with h | h <;> cases h
  simp [readUnsigned, hwhole, hfraction, hexponent, Nat.ofDigitChars_toDigits]

/-- A numeral begins with a digit, so with nothing that another value begins with. -/
theorem toDigits_eq_cons (n : Nat) : ∃ c digits, Nat.toDigits 10 n = c :: digits ∧
    isGap c = false ∧ ∀ d : Char, d.isDigit = false → c ≠ d := by
  obtain ⟨c, digits, hcons⟩ := List.exists_cons_of_ne_nil (Nat.toDigits_ne_nil (n := n) (b := 10))
  have hc : c.isDigit = true :=
    Nat.isDigit_of_mem_toDigits (by decide) (by decide) (hcons ▸ List.mem_cons_self)
  have hne (d : Char) (hd : d.isDigit = false) : c ≠ d := by
    rintro rfl
    rw [hc] at hd
    cases hd
  have hgap : isGap c = false := by
    simp [isGap, hne ' ' rfl, hne '\n' rfl, hne '\r' rfl, hne '\t' rfl]
  exact ⟨c, digits, hcons, hgap, hne⟩

theorem readScalar_numeral (n : Nat) {rest : List Char} (hrest : Follows rest) :
    readScalar (Nat.toDigits 10 n ++ rest) = some (.number n 0, rest) := by
  have hread := readUnsigned_numeral n hrest
  obtain ⟨c, digits, hcons, -, hdigit⟩ := toDigits_eq_cons n
  have hne (d : Char) (hd : d.isDigit = false) (after : List Char) :
      c :: (digits ++ rest) ≠ d :: after :=
    fun h => hdigit d hd (List.cons_eq_cons.1 h).1
  rw [hcons, List.cons_append] at hread ⊢
  rw [readScalar, readNumber, hread]
  · rfl
  · exact fun _ => hne '-' (by decide) _
  · exact fun _ => hne '"' (by decide) _
  · exact fun _ => hne 'n' (by decide) _
  · exact fun _ => hne 't' (by decide) _
  · exact fun _ => hne 'f' (by decide) _

theorem toList_quote (text : String) : (JsonValue.quote text).toList =
    '"' :: ((text.toList.flatMap fun c => (JsonValue.escapeChar c).toList) ++ ['"']) := by
  simp [JsonValue.quote, String.toList_append, String.toList_join, List.flatMap_map]

theorem readScalar_quote (text : String) (rest : List Char) :
    readScalar ((JsonValue.quote text).toList ++ rest) = some (.text text, rest) := by
  rw [toList_quote, List.cons_append, List.append_assoc, List.singleton_append, readScalar,
    readText_escaped]
  exact congrArg (fun text => some (Json.text text, rest)) String.ofList_toList

theorem reads_member {read : Reader Json} {text : List Char} {value : Json}
    (h : Reads read text value) (key : String) :
    Reads (readMember read) ((JsonValue.quote key).toList ++ ':' :: ' ' :: text) (key, value) := by
  intro gap rest hgap hrest
  have hvalue := h [' '] rest rfl hrest
  rw [readMember, skipGap_append hgap, toList_quote]
  simp only [List.cons_append, List.append_assoc, List.nil_append, skipGap_cons (c := '"') rfl,
    readText_escaped]
  simp only [List.cons_append, List.nil_append] at hvalue
  simp [skipGap_cons (c := ':') rfl, hvalue]

theorem readValue_gap (depth : Nat) {gap : List Char} (hgap : gap.all isGap = true)
    (cs : List Char) : readValue depth (gap ++ cs) = readValue depth cs := by
  cases depth with
  | zero => rw [readValue, readValue, skipGap_append hgap]
  | succ depth => rw [readValue, readValue, skipGap_append hgap]

theorem readValue_scalar (depth : Nat) {c : Char} {cs : List Char} (hgap : isGap c = false)
    (harray : c ≠ '[') (hobject : c ≠ '\x7b') :
    readValue depth (c :: cs) = readScalar (c :: cs) := by
  cases depth with
  | zero => rw [readValue, skipGap_cons hgap]
  | succ depth =>
    rw [readValue, skipGap_cons hgap]
    simp [harray, hobject]

def following (gap : List Char) (parts : List (List Char)) : List Char :=
  parts.flatMap fun part => ',' :: (gap ++ part)

def listing (gap tail : List Char) (close : Char) : List (List Char) → List Char
  | [] => [close]
  | part :: parts => gap ++ (part ++ (following gap parts ++ (tail ++ [close])))

section
variable {gap tail : List Char} {close : Char}

theorem following_cons (part : List Char) (parts : List (List Char)) :
    following gap (part :: parts) = ',' :: (gap ++ part) ++ following gap parts :=
  List.flatMap_cons

theorem listing_cons_cons (part next : List Char) (parts : List (List Char)) :
    listing gap tail close (part :: next :: parts) =
      gap ++ (part ++ ',' :: listing gap tail close (next :: parts)) := by
  simp [listing, following]

theorem length_following_lt (parts : List (List Char)) :
    (following gap parts).length < (listing gap tail close parts).length + 1 := by
  cases parts with
  | nil => simp [following]
  | cons part parts =>
    rw [listing, following_cons]
    simp only [List.length_cons, List.length_append]
    omega

variable {α β : Type} {element : Reader α} {text : β → List Char} {value : β → α}
  (hclose : isGap close = false) (hcomma : close ≠ ',') (hgap : gap.all isGap = true)
  (htail : tail.all isGap = true) (hfollows : ∀ cs, Follows (tail ++ cs)) (rest : List Char)
include hclose hcomma hgap htail hfollows

/-- A series is read back part by part: what ends a part is the comma before the next, or the
gap before the closing bracket. -/
theorem readSeries_listing (first : β) (others : List β)
    (hread : ∀ part ∈ first :: others, Reads element (text part) (value part)) :
    readSeries element close (listing gap tail close ((first :: others).map text) ++ rest) =
      some ((first :: others).map value, rest) := by
  induction others generalizing first with
  | nil =>
    have hfirst := hread first List.mem_cons_self gap (tail ++ close :: rest) hgap (hfollows _)
    have hlisting : listing gap tail close ([first].map text) ++ rest =
        gap ++ (text first ++ (tail ++ close :: rest)) := by
      simp [listing, following]
    rw [hlisting, readSeries, hfirst]
    simp only [skipGap_append htail, skipGap_cons hclose, if_true]
    rfl
  | cons next others ih =>
    -- what follows the comma is a series as well, without the first part
    have hnext := ih next fun part hpart => hread part (List.mem_cons_of_mem _ hpart)
    rw [List.map_cons, List.map_cons, listing_cons_cons, List.append_assoc, List.append_assoc,
      List.cons_append, ← List.map_cons]
    generalize listing gap tail close ((next :: others).map text) ++ rest = more at hnext
    have hfirst := hread first List.mem_cons_self gap (',' :: more) hgap (follows_cons (Or.inl rfl))
    have hshort : more.length < (gap ++ (text first ++ ',' :: more)).length := by
      rw [List.length_append, List.length_append, List.length_cons]
      omega
    rw [readSeries, hfirst]
    simp only [skipGap_cons (c := ',') rfl, if_neg hcomma.symm, hshort, and_self, if_true, hnext]
    rfl

theorem readList_listing {parts : List β}
    (hopens : ∀ part, ∃ c cs, text part = c :: cs ∧ isGap c = false ∧ c ≠ close)
    (hread : ∀ part ∈ parts, Reads element (text part) (value part)) :
    readList element close (listing gap tail close (parts.map text) ++ rest) =
      some (parts.map value, rest) := by
  cases parts with
  | nil => simp [readList, listing, skipGap_cons hclose]
  | cons first others =>
    have hseries := readSeries_listing hclose hcomma hgap htail hfollows rest first others hread
    obtain ⟨c, cs, hcons, hc, hne⟩ := hopens first
    rw [← hseries, List.map_cons, listing, hcons, readList, List.append_assoc, List.append_assoc,
      List.cons_append, skipGap_append hgap, skipGap_cons hc]
    exact if_neg hne

end

end Json

end Metasyntax
