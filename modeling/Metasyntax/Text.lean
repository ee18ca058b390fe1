/-!
# Texts

Sets of characters, given by ranges of code points; texts without blank characters
at their end; numerals; and line ends, which are a carriage return, a line feed or
both in that order, where both is the canonical form. Positions in a text are
counted in the bytes of its UTF-8 form, so an offset may fall inside a character:
cutting a text there, or beyond its end, gives nothing. A source is a text with
what every look-up in it needs computed once. That is a function of the text, so
two sources with one text are one source.
-/

set_option autoImplicit false

namespace Metasyntax

structure CharSet where
  ranges : List (Nat × Nat)

namespace CharSet

def ofRanges (ranges : List (Nat × Nat)) : CharSet := ⟨ranges⟩

def contains (set : CharSet) (c : Char) : Bool :=
  set.ranges.any fun range => range.1 ≤ c.toNat && c.toNat ≤ range.2

end CharSet

def CharSet.blank : CharSet := .ofRanges
  [(0x09, 0x0D), (0x20, 0x20), (0x85, 0x85), (0xA0, 0xA0), (0x1680, 0x1680), (0x2000, 0x200A),
   (0x2028, 0x2029), (0x202F, 0x202F), (0x205F, 0x205F), (0x3000, 0x3000)]

def isBlank (c : Char) : Bool := CharSet.blank.contains c

def trimBlankEnd (text : String) : String :=
  String.ofList (text.toList.reverse.dropWhile isBlank).reverse

def byteLength : List Char → Nat
  | [] => 0
  | c :: rest => c.utf8Size + byteLength rest

def takeBytes (n : Nat) : List Char → Option (List Char)
  | [] => if n = 0 then some [] else none
  | c :: rest =>
    if n = 0 then some []
    else if c.utf8Size ≤ n then (takeBytes (n - c.utf8Size) rest).map (c :: ·) else none

def dropBytes (n : Nat) : List Char → Option (List Char)
  | [] => if n = 0 then some [] else none
  | c :: rest =>
    if n = 0 then some (c :: rest)
    else if c.utf8Size ≤ n then dropBytes (n - c.utf8Size) rest else none

def suffixes : List Char → List (Option (List Char))
  | [] => [some []]
  | c :: rest => some (c :: rest) :: (List.replicate (c.utf8Size - 1) none ++ suffixes rest)

theorem length_suffixes (cs : List Char) : (suffixes cs).length = byteLength cs + 1 := by
  induction cs with
  | nil => rfl
  | cons c rest ih =>
    have := c.utf8Size_pos
    simp only [suffixes, byteLength, List.length_cons, List.length_append, List.length_replicate,
      ih]
    omega

/-- The table of suffixes answers as cutting does. -/
theorem getElem?_suffixes (cs : List Char) (n : Nat) :
    ((suffixes cs)[n]?).join = dropBytes n cs := by
  induction cs generalizing n with
  | nil => cases n <;> simp [suffixes, dropBytes]
  | cons c rest ih =>
    have hc := c.utf8Size_pos
    cases n with
    | zero => simp [suffixes, dropBytes]
    | succ n =>
      simp only [suffixes, dropBytes, List.getElem?_cons_succ, Nat.add_one_ne_zero, if_false]
      by_cases h : c.utf8Size ≤ n + 1
      · rw [if_pos h, List.getElem?_append_right (by simp; omega), ← ih]
        congr 2
        simp
        omega
      · rw [if_neg h, List.getElem?_append_left (by simp; omega)]
        rw [List.getElem?_replicate, if_pos (by omega)]
        rfl

theorem byteLength_append (xs ys : List Char) :
    byteLength (xs ++ ys) = byteLength xs + byteLength ys := by
  induction xs with
  | nil => simp [byteLength]
  | cons c rest ih => simp [byteLength, ih, Nat.add_assoc]

theorem takeBytes_append (xs ys : List Char) : takeBytes (byteLength xs) (xs ++ ys) = some xs := by
  induction xs with
  | nil => cases ys <;> simp [takeBytes, byteLength]
  | cons c rest ih =>
    have hc := c.utf8Size_pos
    rw [byteLength, List.cons_append, takeBytes, if_neg (by omega), if_pos (by omega),
      Nat.add_sub_cancel_left, ih]
    rfl

def digitValue (c : Char) : Option Nat :=
  if '0' ≤ c ∧ c ≤ '9' then some (c.toNat - '0'.toNat)
  else if 'a' ≤ c ∧ c ≤ 'f' then some (c.toNat - 'a'.toNat + 10)
  else if 'A' ≤ c ∧ c ≤ 'F' then some (c.toNat - 'A'.toNat + 10)
  else none

def digitsValue (radix : Nat) (acc : Nat) : List Char → Option Nat
  | [] => some acc
  | c :: rest =>
    match digitValue c with
    | some digit => if digit < radix then digitsValue radix (acc * radix + digit) rest else none
    | none => none

def digitRow (radix : Nat) (cs : List Char) : Option Nat :=
  if cs.isEmpty then none else digitsValue radix 0 cs

def readNumeral (radix limit : Nat) (cs : List Char) : Option Nat :=
  let digits := match cs with
    | '+' :: rest => rest
    | other => other
  (digitRow radix digits).filter (· < limit)

def radixText (radix value : Nat) : String := String.ofList (Nat.toDigits radix value)

/-- A way to replace the words of a list wherever they are found in a text. -/
abbrev Replacer := List (List Char) → List Char → List Char → List Char

def replaceFrom (words : List (List Char)) (new : List Char) : Nat → List Char → List Char
  | _, [] => []
  | passed + 1, _ :: rest => replaceFrom words new passed rest
  | 0, c :: rest =>
    match words.find? (·.isPrefixOf (c :: rest)) with
    | some word => new ++ replaceFrom words new (word.length - 1) rest
    | none => c :: replaceFrom words new 0 rest

def replaceLeftmost : Replacer := fun words new => replaceFrom words new 0

def lineBreaks : List (List Char) := [['\r', '\n'], ['\r'], ['\n']]

def endsLine (cs : List Char) : Bool := ['\r', '\n'].isSuffixOf cs

section
variable (replaceAll : Replacer)

def canonicalBy (cs : List Char) : List Char := replaceAll lineBreaks ['\r', '\n'] cs

def linesBy (cs : List Char) : List Char :=
  let canonical := canonicalBy replaceAll cs
  if endsLine canonical then canonical else canonical ++ ['\r', '\n']

def normalizedBy (text : String) : String := String.ofList (canonicalBy replaceAll text.toList)

def terminatedBy (text : String) : String := String.ofList (linesBy replaceAll text.toList)

end

def withCanonicalEndings : List Char → List Char := canonicalBy replaceLeftmost

def asLines : List Char → List Char := linesBy replaceLeftmost

theorem asLines_eq (cs : List Char) : asLines cs = if endsLine (withCanonicalEndings cs) then
    withCanonicalEndings cs else withCanonicalEndings cs ++ ['\r', '\n'] := rfl

def normalizeLineEndings : String → String := normalizedBy replaceLeftmost

def terminated : String → String := terminatedBy replaceLeftmost

@[simp]
theorem toList_terminated (text : String) : (terminated text).toList = asLines text.toList :=
  String.toList_ofList

structure Source where
  text : String
  /-- What follows each offset, nothing where the offset is inside a character. -/
  rests : Array (Option (List Char))
  digest : UInt64
  rests_eq : rests = (suffixes text.toList).toArray
  digest_eq : digest = hash text

namespace Source

def ofString (text : String) : Source :=
  ⟨text, (suffixes text.toList).toArray, hash text, rfl, rfl⟩

theorem ext_text {s t : Source} (h : s.text = t.text) : s = t := by
  obtain ⟨text, rests, digest, hr, hd⟩ := s
  obtain ⟨text', rests', digest', hr', hd'⟩ := t
  cases h
  cases hr
  cases hr'
  cases hd
  cases hd'
  rfl

instance : BEq Source := ⟨fun s t => s.digest == t.digest && s.text == t.text⟩

instance : LawfulBEq Source where
  eq_of_beq h := ext_text (by simpa using (Bool.and_eq_true_iff.1 h).2)
  rfl := by simp [BEq.beq]

instance : Hashable Source := ⟨Source.digest⟩

def size (s : Source) : Nat := s.rests.size - 1

theorem size_eq (s : Source) : s.size = byteLength s.text.toList := by
  simp [size, s.rests_eq, length_suffixes]

def rest (s : Source) (start : Nat) : Option (List Char) := (s.rests[start]?).join

theorem rest_eq (s : Source) (start : Nat) : s.rest start = dropBytes start s.text.toList := by
  simp [rest, s.rests_eq, getElem?_suffixes]

def slice (s : Source) (start stop : Nat) : Option String :=
  if start ≤ stop then ((s.rest start).bind (takeBytes (stop - start))).map String.ofList
  else none

end Source

end Metasyntax
