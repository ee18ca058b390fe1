import Metasyntax.Proofs.Notation

/-!
# Scanning rules off a text

A scanner for rules as they are written, without the grammar that rule text is read with.
It takes the longest number, name or gap, and what it takes always spells what it returns,
so that a text can be seen to spell rules by running it.
-/

set_option autoImplicit false

namespace Metasyntax.Notation

abbrev Scan (α : Type) := List Char → Option (α × List Char)

namespace Scan

variable {α β : Type}

def map (f : α → β) (scan : Scan α) : Scan β := fun cs =>
  (scan cs).map fun (a, rest) => (f a, rest)

def or (first second : Scan α) : Scan α := fun cs => (first cs).or (second cs)

def Sound (scan : Scan α) (Spelled : α → List Char → Prop) : Prop :=
  ∀ ⦃cs : List Char⦄ ⦃a : α⦄ ⦃rest : List Char⦄, scan cs = some (a, rest) →
    ∃ taken, cs = taken ++ rest ∧ Spelled a taken

variable {scan second : Scan α} {P : α → List Char → Prop} {Q : β → List Char → Prop}

theorem Sound.map (h : scan.Sound P) {f : α → β} (hf : ∀ a taken, P a taken → Q (f a) taken) :
    (scan.map f).Sound Q := by
  intro cs b rest hscan
  obtain ⟨⟨a, rest'⟩, ha, heq⟩ := Option.map_eq_some_iff.1 hscan
  cases heq
  obtain ⟨taken, rfl, htaken⟩ := h ha
  exact ⟨taken, rfl, hf a taken htaken⟩

theorem Sound.or (h : scan.Sound P) (h' : second.Sound P) : (scan.or second).Sound P := by
  intro cs a rest hscan
  rcases Option.or_eq_some_iff.1 hscan with hfirst | ⟨-, hsecond⟩
  · exact h hfirst
  · exact h' hsecond

end Scan

def expect (c : Char) : List Char → Option (List Char)
  | [] => none
  | d :: cs => if d = c then some cs else none

theorem eq_of_expect {c : Char} {cs rest : List Char} (h : expect c cs = some rest) :
    cs = c :: rest := by
  cases cs with
  | nil => cases h
  | cons d cs =>
    rw [expect] at h
    split at h
    case isTrue hd => cases h; rw [hd]
    case isFalse => cases h

section
variable (p : Char → Prop) [DecidablePred p]

def takeAll (cs : List Char) : List Char × List Char :=
  (cs.takeWhile (p ·), cs.dropWhile (p ·))

theorem exists_takeAll (cs : List Char) :
    ∃ text rest, takeAll p cs = (text, rest) ∧ cs = text ++ rest ∧ ∀ c ∈ text, p c := by
  refine ⟨_, _, rfl, List.takeWhile_append_dropWhile.symm, fun c hc => ?_⟩
  simpa using List.all_eq_true.1 List.all_takeWhile c hc

end

def scanLineEnd (cs : List Char) : Option (List Char) :=
  match expect ';' cs with
  | some cs => expect '\r' (takeAll IsRemark cs).2 >>= expect '\n'
  | none => expect '\r' cs >>= expect '\n'

theorem scanLineEnd_spec {cs rest : List Char} (h : scanLineEnd cs = some rest) :
    ∃ line, LineEnd line ∧ cs = line ++ rest := by
  rw [scanLineEnd] at h
  split at h
  case h_1 cs' hremark =>
    obtain ⟨remark, after, htake, rfl, hall⟩ := exists_takeAll IsRemark cs'
    rw [htake] at h
    obtain ⟨after', hreturn, hfeed⟩ := Option.bind_eq_some_iff.1 h
    obtain rfl : after = _ := eq_of_expect hreturn
    refine ⟨_, Or.inr ⟨remark, hall, rfl⟩, ?_⟩
    rw [eq_of_expect hremark, eq_of_expect hfeed]
    simp
  case h_2 =>
    obtain ⟨after, hreturn, hfeed⟩ := Option.bind_eq_some_iff.1 h
    refine ⟨_, Or.inl rfl, ?_⟩
    rw [eq_of_expect hreturn, eq_of_expect hfeed]
    rfl

def skipGaps : Nat → List Char → List Char
  | 0, cs => cs
  | bound + 1, cs =>
    match (scanLineEnd cs).getD cs with
    | [] => cs
    | c :: rest => if IsSpace c then skipGaps bound rest else cs

theorem skipGaps_spec (bound : Nat) (cs : List Char) :
    ∃ gaps, Gaps gaps ∧ cs = gaps ++ skipGaps bound cs := by
  induction bound generalizing cs with
  | zero => exact ⟨[], .nil, rfl⟩
  | succ bound ih =>
    rw [skipGaps]
    split
    case h_1 => exact ⟨[], .nil, rfl⟩
    case h_2 c rest heq =>
      split
      case isFalse => exact ⟨[], .nil, rfl⟩
      case isTrue hc =>
        obtain ⟨gaps, hgaps, hrest⟩ := ih rest
        obtain ⟨line, hline, hcs⟩ : ∃ line, (line = [] ∨ LineEnd line) ∧
            cs = line ++ c :: rest := by
          cases hscan : scanLineEnd cs with
          | none =>
            rw [hscan] at heq
            exact ⟨[], Or.inl rfl, heq⟩
          | some after =>
            rw [hscan] at heq
            obtain ⟨line, hline, hcs⟩ := scanLineEnd_spec hscan
            exact ⟨line, Or.inr hline, by rw [hcs]; exact congrArg _ heq⟩
        refine ⟨_, .cons ⟨line, c, hline, hc, rfl⟩ hgaps, ?_⟩
        rw [hcs, List.append_assoc, List.append_assoc, ← hrest]
        rfl

def scanDelimited (p : Char → Prop) [DecidablePred p] (opening closing : Char) :
    Scan (List Char) := fun cs => do
  let (text, cs) := takeAll p (← expect opening cs)
  return (text, ← expect closing cs)

theorem scanDelimited_sound (p : Char → Prop) [DecidablePred p] (opening closing : Char) :
    (scanDelimited p opening closing).Sound fun text taken =>
      (∀ c ∈ text, p c) ∧ taken = opening :: text ++ [closing] := by
  intro cs text rest h
  obtain ⟨cs', hopening, h⟩ := Option.bind_eq_some_iff.1 h
  obtain ⟨text', after, htake, rfl, hall⟩ := exists_takeAll p cs'
  rw [htake] at h
  obtain ⟨after', hclosing, h⟩ := Option.bind_eq_some_iff.1 h
  cases h
  refine ⟨_, ?_, hall, rfl⟩
  rw [eq_of_expect hopening, eq_of_expect hclosing]
  simp

def scanNumber (radix : Radix) : Scan (List Char) := fun cs =>
  let (digits, rest) := takeAll radix.IsDigit cs
  if digits = [] then none else some (digits, rest)

theorem scanNumber_sound (radix : Radix) :
    (scanNumber radix).Sound fun digits taken => radix.IsNumber digits ∧ taken = digits := by
  intro cs digits rest h
  obtain ⟨digits', after, htake, rfl, hall⟩ := exists_takeAll radix.IsDigit cs
  rw [scanNumber, htake] at h
  dsimp only at h
  split at h
  case isTrue => cases h
  case isFalse hne =>
    cases h
    exact ⟨_, rfl, ⟨hne, hall⟩, rfl⟩

def scanSeries (radix : Radix) : Nat → List Char → List (List Char) × List Char
  | 0, cs => ([], cs)
  | bound + 1, cs =>
    match expect '.' cs >>= scanNumber radix with
    | some (digits, rest) =>
      let (others, rest) := scanSeries radix bound rest
      (digits :: others, rest)
    | none => ([], cs)

theorem scanSeries_spec (radix : Radix) (bound : Nat) (cs : List Char) :
    ∃ others rest, scanSeries radix bound cs = (others, rest) ∧
      (∀ digits ∈ others, radix.IsNumber digits) ∧ cs = others.flatMap ('.' :: ·) ++ rest := by
  induction bound generalizing cs with
  | zero => exact ⟨[], cs, rfl, by simp, rfl⟩
  | succ bound ih =>
    rw [scanSeries]
    split
    case h_1 digits rest h =>
      obtain ⟨after, hdot, h⟩ := Option.bind_eq_some_iff.1 h
      obtain ⟨taken, rfl, hdigits, htaken⟩ := scanNumber_sound radix h
      subst htaken
      obtain ⟨others, rest, hothers, hall, rfl⟩ := ih rest
      refine ⟨taken :: others, rest, by rw [hothers], ?_, ?_⟩
      · exact List.forall_mem_cons.2 ⟨hdigits, hall⟩
      · rw [eq_of_expect hdot]
        simp
    case h_2 => exact ⟨[], cs, rfl, by simp, rfl⟩

def scanNumeral (radix : Radix) (bound : Nat) : Scan Numeral := fun cs => do
  let (first, cs) ← scanNumber radix cs
  match expect '-' cs with
  | some cs =>
    let (last, cs) ← scanNumber radix cs
    return (.range first last, cs)
  | none =>
    let (others, cs) := scanSeries radix bound cs
    return (.series first others, cs)

theorem scanNumeral_sound (radix : Radix) (bound : Nat) :
    (scanNumeral radix bound).Sound fun value taken =>
      value.WellFormed radix ∧ taken = value.text := by
  intro cs value rest h
  obtain ⟨⟨first, cs'⟩, hfirst, h⟩ := Option.bind_eq_some_iff.1 h
  obtain ⟨_, rfl, hnumber, rfl⟩ := scanNumber_sound radix hfirst
  dsimp only at h
  split at h
  case h_1 after hhyphen =>
    obtain ⟨⟨last, after'⟩, hlast, h⟩ := Option.bind_eq_some_iff.1 h
    cases h
    obtain ⟨_, rfl, hnumber', rfl⟩ := scanNumber_sound radix hlast
    refine ⟨_, ?_, ⟨hnumber, hnumber'⟩, rfl⟩
    rw [eq_of_expect hhyphen, Numeral.text]
    simp
  case h_2 =>
    obtain ⟨others, after, hothers, hall, rfl⟩ := scanSeries_spec radix bound cs'
    rw [hothers] at h
    cases h
    exact ⟨_, (List.append_assoc ..).symm, ⟨hnumber, hall⟩, rfl⟩

def scanCount : Scan Count := fun cs =>
  let (digits, cs) := takeAll IsDecimal cs
  match expect '*' cs with
  | some cs =>
    let (most, cs) := takeAll IsDecimal cs
    some (.between digits most, cs)
  | none => if digits = [] then none else some (.exactly digits, cs)

theorem scanCount_sound :
    scanCount.Sound fun count taken => count.WellFormed ∧ taken = count.text := by
  intro cs count rest h
  obtain ⟨digits, after, htake, rfl, hall⟩ := exists_takeAll IsDecimal cs
  rw [scanCount, htake] at h
  dsimp only at h
  split at h
  case h_1 after' hstar =>
    obtain ⟨most, after', htake', rfl, hall'⟩ := exists_takeAll IsDecimal after'
    rw [htake'] at h
    cases h
    refine ⟨_, ?_, ⟨hall, hall'⟩, rfl⟩
    rw [eq_of_expect hstar, Count.text]
    simp
  case h_2 =>
    split at h
    case isTrue => cases h
    case isFalse hne =>
      cases h
      exact ⟨_, rfl, ⟨hne, hall⟩, rfl⟩

def scanName : Scan (List Char) := fun cs =>
  let (name, rest) := takeAll IsNameChar cs
  if IsName name then some (name, rest) else none

theorem scanName_sound : scanName.Sound fun name taken => IsName name ∧ taken = name := by
  intro cs name rest h
  obtain ⟨name', after, htake, rfl, -⟩ := exists_takeAll IsNameChar cs
  rw [scanName, htake] at h
  dsimp only at h
  split at h
  case isTrue hname =>
    cases h
    exact ⟨_, rfl, hname, rfl⟩
  case isFalse => cases h

def markedRadix (c : Char) : Option Radix :=
  if c = 'b' ∨ c = 'B' then some .binary
  else if c = 'd' ∨ c = 'D' then some .decimal
  else if c = 'x' ∨ c = 'X' then some .hexadecimal
  else none

theorem marks_of_markedRadix {c : Char} {radix : Radix} (h : markedRadix c = some radix) :
    radix.Marks c := by
  rw [markedRadix] at h
  split at h
  case isTrue hc => cases h; exact hc
  case isFalse =>
    split at h
    case isTrue hc => cases h; exact hc
    case isFalse =>
      split at h
      case isTrue hc => cases h; exact hc
      case isFalse => cases h

def scanMarked (bound : Nat) : Scan Element := fun cs =>
  match expect '%' cs with
  | some (mark :: cs) =>
    match markedRadix mark with
    | some radix => Scan.map (.numeral radix) (scanNumeral radix bound) cs
    | none =>
      if mark = 'i' ∨ mark = 'I' then
        Scan.map (.quoted .insensitive) (scanDelimited IsQuotable '"' '"') cs
      else if mark = 's' ∨ mark = 'S' then
        Scan.map (.quoted .sensitive) (scanDelimited IsQuotable '"' '"') cs
      else none
  | _ => none

theorem scanMarked_sound (bound : Nat) : (scanMarked bound).Sound Element.Spelled := by
  intro cs element rest h
  rw [scanMarked] at h
  split at h
  case h_2 => cases h
  case h_1 mark cs' hpercent =>
    rw [eq_of_expect hpercent]
    split at h
    case h_1 radix hradix =>
      have hsound : (Scan.map (Element.numeral radix) (scanNumeral radix bound)).Sound
          fun element taken => element.Spelled ('%' :: mark :: taken) :=
        (scanNumeral_sound radix bound).map fun value taken hvalue =>
          ⟨hvalue.1, mark, marks_of_markedRadix hradix, by rw [hvalue.2]⟩
      obtain ⟨taken, rfl, htaken⟩ := hsound h
      exact ⟨_, rfl, htaken⟩
    case h_2 =>
      have hsound : ∀ quotation : Quotation, quotation.Opens ['%', mark] →
          (Scan.map (Element.quoted quotation) (scanDelimited IsQuotable '"' '"')).Sound
            fun element taken => element.Spelled ('%' :: mark :: taken) :=
        fun quotation hopens => (scanDelimited_sound IsQuotable '"' '"').map
          fun text taken htext => ⟨htext.1, _, hopens, by rw [htext.2]; rfl⟩
      split at h
      case isTrue hmark =>
        obtain ⟨taken, rfl, htaken⟩ := hsound .insensitive (by simpa [Quotation.Opens] using hmark) h
        exact ⟨_, rfl, htaken⟩
      case isFalse =>
        split at h
        case isTrue hmark =>
          obtain ⟨taken, rfl, htaken⟩ := hsound .sensitive (by simpa [Quotation.Opens] using hmark) h
          exact ⟨_, rfl, htaken⟩
        case isFalse => cases h

def scanItem (element : Scan Element) : Scan Item := fun cs =>
  match scanCount cs with
  | some (count, cs) => Scan.map (.repeated count) element cs
  | none => Scan.map .once element cs

def scanRow (element : Scan Element) : Nat → Scan Row
  | 0, _ => none
  | bound + 1, cs => do
    let (item, rest) ← scanItem element cs
    let next := skipGaps bound rest
    if next.length < rest.length then
      match scanRow element bound next with
      | some (row, rest) => return (.more item row, rest)
      | none => return (.last item, rest)
    else return (.last item, rest)

def scanChoice (element : Scan Element) : Nat → Scan Choice
  | 0, _ => none
  | bound + 1, cs => do
    let (row, rest) ← scanRow element bound cs
    match expect '/' (skipGaps bound rest) with
    | some next =>
      let (choice, rest) ← scanChoice element bound (skipGaps bound next)
      return (.more row choice, rest)
    | none => return (.last row, rest)

def scanBracketed (choice : Scan Choice) (bound : Nat) (opening closing : Char) :
    Scan Choice := fun cs => do
  let (choice, cs) ← choice (skipGaps bound (← expect opening cs))
  return (choice, ← expect closing (skipGaps bound cs))

def scanElement (bound : Nat) : Nat → Scan Element
  | 0 => fun _ => none
  | depth + 1 =>
    let inner := scanChoice (scanElement bound depth) bound
    ((scanBracketed inner bound '(' ')').map .group).or <|
      ((scanBracketed inner bound '[' ']').map .option).or <|
        ((scanDelimited IsQuotable '"' '"').map (.quoted .plain)).or <|
          ((scanDelimited IsProse '<' '>').map .prose).or <|
            (scanMarked bound).or (scanName.map .name)

section
variable {element : Scan Element} (h : element.Sound Element.Spelled)
include h

theorem scanItem_sound : (scanItem element).Sound Item.Spelled := by
  intro cs item rest hscan
  rw [scanItem] at hscan
  split at hscan
  case h_1 count cs' hcount =>
    obtain ⟨_, rfl, hformed, rfl⟩ := scanCount_sound hcount
    have hsound : (Scan.map (Item.repeated count) element).Sound fun item taken =>
        item.Spelled (count.text ++ taken) :=
      h.map fun element taken helement => ⟨hformed, taken, helement, rfl⟩
    obtain ⟨taken, rfl, htaken⟩ := hsound hscan
    exact ⟨_, (List.append_assoc ..).symm, htaken⟩
  case h_2 =>
    have hsound : (Scan.map Item.once element).Sound Item.Spelled :=
      h.map fun element taken helement => helement
    exact hsound hscan

theorem scanRow_sound (bound : Nat) : (scanRow element bound).Sound Row.Spelled := by
  induction bound with
  | zero => exact nofun
  | succ bound ih =>
    intro cs row rest hscanned
    obtain ⟨⟨item, cs'⟩, hitem, hscan⟩ := Option.bind_eq_some_iff.1 hscanned
    obtain ⟨first, rfl, hfirst⟩ := scanItem_sound h hitem
    obtain ⟨gaps, hgaps, hskip⟩ := skipGaps_spec bound cs'
    dsimp only at hscan
    split at hscan
    case isFalse => cases hscan; exact ⟨first, rfl, hfirst⟩
    case isTrue hlt =>
      split at hscan
      case h_2 => cases hscan; exact ⟨first, rfl, hfirst⟩
      case h_1 row' rest' hrow =>
        cases hscan
        obtain ⟨others, hothers, hspelled⟩ := ih hrow
        have hne : gaps ≠ [] := by
          rintro rfl
          rw [List.nil_append] at hskip
          rw [← hskip] at hlt
          exact Nat.lt_irrefl _ hlt
        refine ⟨first ++ gaps ++ others, ?_, first, gaps, others, hfirst, hgaps, hne, hspelled, rfl⟩
        rw [hskip, hothers]
        simp

theorem scanChoice_sound (bound : Nat) : (scanChoice element bound).Sound Choice.Spelled := by
  induction bound with
  | zero => exact nofun
  | succ bound ih =>
    intro cs choice rest hscanned
    obtain ⟨⟨row, cs'⟩, hrow, hscan⟩ := Option.bind_eq_some_iff.1 hscanned
    obtain ⟨first, rfl, hfirst⟩ := scanRow_sound h bound hrow
    dsimp only at hscan
    split at hscan
    case h_2 => cases hscan; exact ⟨first, rfl, hfirst⟩
    case h_1 next hslash =>
      obtain ⟨⟨choice', rest'⟩, hchoice, hscan⟩ := Option.bind_eq_some_iff.1 hscan
      cases hscan
      obtain ⟨others, hothers, hspelled⟩ := ih hchoice
      obtain ⟨gaps, hgaps, hskip⟩ := skipGaps_spec bound cs'
      obtain ⟨gaps', hgaps', hskip'⟩ := skipGaps_spec bound next
      refine ⟨first ++ gaps ++ '/' :: gaps' ++ others, ?_, first, gaps, gaps', others, hfirst,
        hgaps, hgaps', hspelled, rfl⟩
      rw [hskip, eq_of_expect hslash, hskip', hothers]
      simp

end

theorem scanBracketed_sound {choice : Scan Choice} (h : choice.Sound Choice.Spelled)
    (bound : Nat) (opening closing : Char) :
    (scanBracketed choice bound opening closing).Sound fun choice taken =>
      ∃ gaps inner gaps', Gaps gaps ∧ choice.Spelled inner ∧ Gaps gaps' ∧
        taken = opening :: (gaps ++ inner ++ gaps' ++ [closing]) := by
  intro cs choice rest hscan
  obtain ⟨cs', hopening, hscan⟩ := Option.bind_eq_some_iff.1 hscan
  obtain ⟨⟨choice', after⟩, hchoice, hscan⟩ := Option.bind_eq_some_iff.1 hscan
  obtain ⟨after', hclosing, hscan⟩ := Option.bind_eq_some_iff.1 hscan
  cases hscan
  obtain ⟨inner, hinner, hspelled⟩ := h hchoice
  obtain ⟨gaps, hgaps, hskip⟩ := skipGaps_spec bound cs'
  obtain ⟨gaps', hgaps', hskip'⟩ := skipGaps_spec bound after
  refine ⟨_, ?_, gaps, inner, gaps', hgaps, hspelled, hgaps', rfl⟩
  rw [eq_of_expect hopening, hskip, hinner, hskip', eq_of_expect hclosing]
  simp

theorem scanElement_sound (bound depth : Nat) :
    (scanElement bound depth).Sound Element.Spelled := by
  induction depth with
  | zero => exact nofun
  | succ depth ih =>
    have hinner := scanBracketed_sound (scanChoice_sound ih bound) bound
    rw [scanElement]
    refine ((hinner '(' ')').map fun choice taken h => h).or ?_
    refine ((hinner '[' ']').map fun choice taken h => h).or ?_
    refine ((scanDelimited_sound IsQuotable '"' '"').map
      fun text taken h => ⟨h.1, [], rfl, h.2⟩).or ?_
    refine ((scanDelimited_sound IsProse '<' '>').map fun text taken h => h).or ?_
    exact (scanMarked_sound bound).or (scanName_sound.map fun name taken h => h)

def scanRule (bound : Nat) : Scan Rule := fun cs => do
  let (name, cs) ← scanName cs
  let cs ← expect '=' (skipGaps bound cs)
  let incremental := (expect '/' cs).isSome
  let (body, cs) ← scanChoice (scanElement bound bound) bound
    (skipGaps bound ((expect '/' cs).getD cs))
  return (⟨name, incremental, body⟩, ← scanLineEnd (skipGaps bound cs))

theorem scanRule_sound (bound : Nat) : (scanRule bound).Sound Rule.Spelled := by
  intro cs rule rest hscan
  obtain ⟨⟨name, cs'⟩, hname, hscan⟩ := Option.bind_eq_some_iff.1 hscan
  obtain ⟨cs'', hsign, hscan⟩ := Option.bind_eq_some_iff.1 hscan
  obtain ⟨⟨body, after⟩, hbody, hscan⟩ := Option.bind_eq_some_iff.1 hscan
  obtain ⟨after', hline, hscan⟩ := Option.bind_eq_some_iff.1 hscan
  cases hscan
  obtain ⟨taken, rfl, hspelled, htaken⟩ := scanName_sound hname
  subst htaken
  obtain ⟨gaps, hgaps, hskip⟩ := skipGaps_spec bound cs'
  obtain ⟨gaps', hgaps', hskip'⟩ := skipGaps_spec bound ((expect '/' cs'').getD cs'')
  obtain ⟨inner, hinner, hchoice⟩ := scanChoice_sound (scanElement_sound bound bound) bound hbody
  obtain ⟨gaps'', hgaps'', hskip''⟩ := skipGaps_spec bound after
  obtain ⟨line, hend, hrest⟩ := scanLineEnd_spec hline
  refine ⟨taken ++ gaps ++ Rule.sign ⟨taken, (expect '/' cs'').isSome, body⟩ ++ gaps' ++ inner ++
    gaps'' ++ line, ?_, hspelled, gaps, gaps', inner, gaps'', line, hgaps, hgaps', hchoice, hgaps'',
    hend, rfl⟩
  have hsplit : '=' :: cs'' = Rule.sign ⟨taken, (expect '/' cs'').isSome, body⟩ ++
      (expect '/' cs'').getD cs'' := by
    cases hslash : expect '/' cs'' with
    | none => rfl
    | some next => rw [eq_of_expect hslash]; rfl
  rw [hskip, eq_of_expect hsign, hsplit, hskip', hinner, hskip'', hrest]
  simp

def scanListing (bound : Nat) : Nat → List Char → Option (List Rule)
  | 0, cs => if cs = [] then some [] else none
  | lines + 1, cs =>
    if cs = [] then some []
    else
      match scanRule bound cs with
      | some (rule, rest) => (scanListing bound lines rest).map (rule :: ·)
      | none => scanLineEnd (skipGaps bound cs) >>= scanListing bound lines

/-- A text spells the rules that are scanned off it. -/
theorem scanListing_sound (bound lines : Nat) {cs : List Char} {rules : List Rule}
    (h : scanListing bound lines cs = some rules) : Listing rules cs := by
  induction lines generalizing cs rules with
  | zero =>
    rw [scanListing] at h
    split at h
    case isTrue hcs => cases h; exact hcs ▸ .nil
    case isFalse => cases h
  | succ lines ih =>
    rw [scanListing] at h
    split at h
    case isTrue hcs => cases h; exact hcs ▸ .nil
    case isFalse =>
      split at h
      case h_1 rule rest hrule =>
        obtain ⟨rules, hrules, rfl⟩ := Option.map_eq_some_iff.1 h
        obtain ⟨first, rfl, hfirst⟩ := scanRule_sound bound hrule
        exact .rule hfirst (ih hrules)
      case h_2 =>
        obtain ⟨rest, hline, hrules⟩ := Option.bind_eq_some_iff.1 h
        obtain ⟨gaps, hgaps, hskip⟩ := skipGaps_spec bound cs
        obtain ⟨line, hend, hrest⟩ := scanLineEnd_spec hline
        rw [hskip, hrest, ← List.append_assoc]
        exact .blank hgaps hend (ih hrules)

end Metasyntax.Notation
