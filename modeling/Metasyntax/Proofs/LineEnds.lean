import Mathlib.Data.List.Basic
import Mathlib.Data.Nat.Find
import Metasyntax.Text

/-!
# Lines and their ends

A text is its lines, with a line end between each two. Making the line ends canonical changes
none of the lines, so that texts come to the same when they have the same lines.
-/

set_option autoImplicit false

namespace Metasyntax

structure FoundFirst (words : List (List Char)) (text : List Char) (place : Nat)
    (word : List Char) : Prop where
  earliest : ∀ i < place, ∀ other ∈ words, ¬ other <+: text.drop i
  stands : word <+: text.drop place
  preferred : ∃ earlier later, words = earlier ++ word :: later ∧
    ∀ other ∈ earlier, ¬ other <+: text.drop place

/-- All words are replaced that are found one behind the other from left to right. -/
structure LeftmostFirst (replaceAll : Replacer) : Prop where
  keeps : ∀ {words : List (List Char)} (new : List Char) {text : List Char}, [] ∉ words →
    (∀ i, ∀ word ∈ words, ¬ word <+: text.drop i) → replaceAll words new text = text
  replaces : ∀ {words : List (List Char)} (new : List Char) {text : List Char} {place : Nat}
    {word : List Char}, [] ∉ words → FoundFirst words text place word →
    replaceAll words new text =
      text.take place ++ new ++ replaceAll words new (text.drop (place + word.length))

section
variable {words : List (List Char)} {text word : List Char} {place : Nat}

theorem FoundFirst.mem (h : FoundFirst words text place word) : word ∈ words := by
  obtain ⟨earlier, later, heq, _⟩ := h.preferred
  rw [heq]
  exact List.mem_append_right _ List.mem_cons_self

theorem FoundFirst.exceeds (h : FoundFirst words text place word) (hwords : [] ∉ words) :
    place < place + word.length ∧ place + word.length ≤ text.length := by
  have hne : word ≠ [] := fun heq => hwords (heq ▸ h.mem)
  have hpositive := List.length_pos_iff.2 hne
  have hlength := h.stands.length_le
  rw [List.length_drop] at hlength
  omega

theorem not_isPrefixOf {word text : List Char} :
    (!word.isPrefixOf text) = true ↔ ¬ word <+: text := by
  rw [Bool.not_eq_true', ← Bool.not_eq_true, List.isPrefixOf_iff_prefix]

theorem find?_of_preferred (hstands : word <+: text) {earlier later : List (List Char)}
    (hearlier : ∀ other ∈ earlier, ¬ other <+: text) :
    (earlier ++ word :: later).find? (·.isPrefixOf text) = some word := by
  rw [List.find?_eq_some_iff_append]
  exact ⟨List.isPrefixOf_iff_prefix.2 hstands, earlier, later, rfl,
    fun other hother => not_isPrefixOf.2 (hearlier other hother)⟩

theorem exists_foundFirst (h : ∃ i, ∃ word ∈ words, word <+: text.drop i) :
    ∃ place word, FoundFirst words text place word := by
  classical
  obtain ⟨hmem, hstands⟩ := (Nat.find_spec h).choose_spec
  have hfind : (words.find? (·.isPrefixOf (text.drop (Nat.find h)))).isSome := by
    rw [List.find?_isSome]
    exact ⟨_, hmem, List.isPrefixOf_iff_prefix.2 hstands⟩
  obtain ⟨word, hword⟩ := Option.isSome_iff_exists.1 hfind
  obtain ⟨hfits, earlier, later, heq, hearlier⟩ := List.find?_eq_some_iff_append.1 hword
  refine ⟨Nat.find h, word, fun i hi other hother hpre => ?_, List.isPrefixOf_iff_prefix.1 hfits,
    earlier, later, heq, fun other hother => not_isPrefixOf.1 (hearlier other hother)⟩
  exact Nat.find_min h hi ⟨other, hother, hpre⟩

/-- What is found first says what is replaced, whichever way it is looked for. -/
theorem LeftmostFirst.unique {replaceAll replaceAll' : Replacer} (h : LeftmostFirst replaceAll)
    (h' : LeftmostFirst replaceAll') (hwords : [] ∉ words) (new text : List Char) :
    replaceAll words new text = replaceAll' words new text := by
  induction hlength : text.length using Nat.strong_induction_on generalizing text with
  | _ length ih =>
    by_cases hfound : ∃ i, ∃ word ∈ words, word <+: text.drop i
    · obtain ⟨place, word, hfirst⟩ := exists_foundFirst hfound
      have hexceeds := hfirst.exceeds hwords
      have hrest := ih (text.drop (place + word.length)).length
        (by rw [List.length_drop]; omega) _ rfl
      rw [h.replaces new hwords hfirst, h'.replaces new hwords hfirst, hrest]
    · have hnone : ∀ i, ∀ word ∈ words, ¬ word <+: text.drop i :=
        fun i word hword hpre => hfound ⟨i, word, hword, hpre⟩
      rw [h.keeps new hwords hnone, h'.keeps new hwords hnone]

theorem replaceFrom_passed (new : List Char) (passed : Nat) (text : List Char) :
    replaceFrom words new passed text = replaceFrom words new 0 (text.drop passed) := by
  induction passed generalizing text with
  | zero => rfl
  | succ passed ih =>
    cases text with
    | nil => rfl
    | cons c rest => exact ih rest

theorem replaceLeftmost_of_none (new : List Char) {c : Char} {rest : List Char}
    (h : ∀ word ∈ words, ¬ word <+: c :: rest) :
    replaceLeftmost words new (c :: rest) = c :: replaceLeftmost words new rest := by
  have hnone : words.find? (·.isPrefixOf (c :: rest)) = none :=
    List.find?_eq_none.2 fun word hword => by simpa using h word hword
  rw [replaceLeftmost, replaceFrom, hnone]

theorem replaceLeftmost_of_preferred (new : List Char) {text : List Char} (hword : word ≠ [])
    (hstands : word <+: text) {earlier later : List (List Char)}
    (hearlier : ∀ other ∈ earlier, ¬ other <+: text) :
    replaceLeftmost (earlier ++ word :: later) new text =
      new ++ replaceLeftmost (earlier ++ word :: later) new (text.drop word.length) := by
  cases text with
  | nil => exact absurd (List.prefix_nil.1 hstands) hword
  | cons c rest =>
    cases word with
    | nil => exact absurd rfl hword
    | cons d word =>
      rw [replaceLeftmost, replaceFrom, find?_of_preferred hstands hearlier]
      exact congrArg (new ++ ·) (replaceFrom_passed new word.length rest)

theorem leftmostFirst_replaceLeftmost : LeftmostFirst replaceLeftmost where
  keeps {words} new {text} hwords h := by
    induction text with
    | nil => rfl
    | cons c rest ih => rw [replaceLeftmost_of_none new (h 0), ih fun i => h (i + 1)]
  replaces {words} new {text} place {word} hwords h := by
    induction place generalizing text with
    | zero =>
      obtain ⟨earlier, later, heq, hearlier⟩ := h.preferred
      have hne : word ≠ [] := fun hnil => hwords (hnil ▸ h.mem)
      rw [Nat.zero_add, List.take_zero, List.nil_append]
      subst heq
      exact replaceLeftmost_of_preferred new hne h.stands hearlier
    | succ place ih =>
      have hexceeds := h.exceeds hwords
      cases text with
      | nil => simp at hexceeds
      | cons c rest =>
        have hrest : FoundFirst words rest place word :=
          ⟨fun i hi => h.earliest (i + 1) (Nat.succ_lt_succ hi), h.stands, h.preferred⟩
        rw [replaceLeftmost_of_none new (h.earliest 0 (Nat.succ_pos place)), ih hrest,
          Nat.succ_add_eq_add_succ]
        rfl

end

theorem withCanonicalEndings_nil : withCanonicalEndings [] = [] := rfl

theorem withCanonicalEndings_pair (rest : List Char) :
    withCanonicalEndings ('\r' :: '\n' :: rest) = '\r' :: '\n' :: withCanonicalEndings rest := rfl

theorem withCanonicalEndings_single {c : Char} {rest : List Char} (hc : c = '\r' ∨ c = '\n')
    (hsingle : ∀ after, c = '\r' → rest = '\n' :: after → False) :
    withCanonicalEndings (c :: rest) = '\r' :: '\n' :: withCanonicalEndings rest := by
  have hpair : ¬ ['\r', '\n'] <+: c :: rest := by
    rw [List.cons_prefix_cons]
    rintro ⟨rfl, after, rfl⟩
    exact hsingle after rfl rfl
  rcases hc with rfl | rfl
  · have hearlier : ∀ other ∈ [['\r', '\n']], ¬ other <+: '\r' :: rest := by simpa using hpair
    exact replaceLeftmost_of_preferred _ (List.cons_ne_nil _ _) (List.prefix_append ['\r'] rest)
      hearlier
  · rfl

theorem withCanonicalEndings_other {c : Char} (rest : List Char) (hc : ¬(c = '\r' ∨ c = '\n')) :
    withCanonicalEndings (c :: rest) = c :: withCanonicalEndings rest := by
  apply replaceLeftmost_of_none
  intro word hword hpre
  simp only [lineBreaks, List.mem_cons, List.not_mem_nil, or_false] at hword
  rcases hword with rfl | rfl | rfl <;> rw [List.cons_prefix_cons] at hpre
  · exact hc (Or.inl hpre.1.symm)
  · exact hc (Or.inl hpre.1.symm)
  · exact hc (Or.inr hpre.1.symm)

/-- A text begins with both characters of an ending, with one of them or with another one. -/
@[elab_as_elim]
theorem endingInduction {motive : List Char → Prop} (nil : motive [])
    (pair : ∀ rest, motive rest → motive ('\r' :: '\n' :: rest))
    (single : ∀ c rest, (∀ after, c = '\r' → rest = '\n' :: after → False) →
      (c = '\r' ∨ c = '\n') → motive rest → motive (c :: rest))
    (other : ∀ c rest, ¬(c = '\r' ∨ c = '\n') → motive rest → motive (c :: rest)) :
    ∀ cs, motive cs
  | [] => nil
  | c :: rest => by
    have ih := endingInduction nil pair single other rest
    by_cases hc : c = '\r' ∨ c = '\n'
    · by_cases hpair : ∃ after, c = '\r' ∧ rest = '\n' :: after
      · obtain ⟨after, rfl, rfl⟩ := hpair
        exact pair after (endingInduction nil pair single other after)
      · exact single c rest (fun after hreturn hfeed => hpair ⟨after, hreturn, hfeed⟩) hc ih
    · exact other c rest hc ih

def lineEnd : List Char → Nat
  | '\r' :: '\n' :: _ => 2
  | '\r' :: _ => 1
  | '\n' :: _ => 1
  | _ => 0

def canonicalEnd : List Char → Nat
  | '\r' :: '\n' :: _ => 2
  | _ => 0

/-- The lines of a text, which is cut at its line ends. What comes after the last of them is a
line as well. -/
def cutAt (ending : List Char → Nat) : List Char → List (List Char)
  | [] => [[]]
  | c :: rest =>
    match ending (c :: rest) with
    | 0 => (cutAt ending rest).modifyHead (c :: ·)
    | length + 1 => [] :: cutAt ending (rest.drop length)
termination_by cs => cs.length

section
variable {ending : List Char → Nat}

theorem cutAt_ne_nil (cs : List Char) : cutAt ending cs ≠ [] := by
  cases cs with
  | nil => simp [cutAt]
  | cons c rest =>
    rw [cutAt]
    split <;> simp [cutAt_ne_nil rest]

theorem cutAt_of_two {c d : Char} {rest : List Char} (h : ending (c :: d :: rest) = 2) :
    cutAt ending (c :: d :: rest) = [] :: cutAt ending rest := by
  rw [cutAt, h]
  rfl

theorem cutAt_of_one {c : Char} {rest : List Char} (h : ending (c :: rest) = 1) :
    cutAt ending (c :: rest) = [] :: cutAt ending rest := by
  rw [cutAt, h]
  rfl

theorem cutAt_of_zero {c : Char} {rest : List Char} (h : ending (c :: rest) = 0) :
    cutAt ending (c :: rest) = (cutAt ending rest).modifyHead (c :: ·) := by
  rw [cutAt, h]

end

theorem lineEnd_of_single {c : Char} {rest : List Char} (hc : c = '\r' ∨ c = '\n')
    (hsingle : ∀ after, c = '\r' → rest = '\n' :: after → False) : lineEnd (c :: rest) = 1 := by
  rcases hc with rfl | rfl
  · rw [lineEnd]
    exact fun after => hsingle after rfl
  · rfl

theorem lineEnd_of_other {c : Char} (rest : List Char) (hc : ¬(c = '\r' ∨ c = '\n')) :
    lineEnd (c :: rest) = 0 := by
  rw [lineEnd]
  · rintro _ ⟨⟩
    exact hc (Or.inl rfl)
  · rintro _ ⟨⟩
    exact hc (Or.inl rfl)
  · rintro _ ⟨⟩
    exact hc (Or.inr rfl)

theorem canonicalEnd_of_other {c : Char} (rest : List Char) (hc : ¬(c = '\r' ∨ c = '\n')) :
    canonicalEnd (c :: rest) = 0 := by
  rw [canonicalEnd]
  rintro _ ⟨⟩
  exact hc (Or.inl rfl)

/-- Canonical endings leave the lines as they are, whether or not a return or a feed alone would
end a line. -/
theorem cutAt_withCanonicalEndings {ending : List Char → Nat}
    (hpair : ∀ rest, ending ('\r' :: '\n' :: rest) = 2)
    (hother : ∀ c rest, ¬(c = '\r' ∨ c = '\n') → ending (c :: rest) = 0) (cs : List Char) :
    cutAt ending (withCanonicalEndings cs) = cutAt lineEnd cs := by
  induction cs using endingInduction with
  | nil => rw [withCanonicalEndings_nil, cutAt, cutAt]
  | pair rest ih =>
    rw [withCanonicalEndings_pair, cutAt_of_two (hpair _), cutAt_of_two rfl, ih]
  | single c rest hsingle hc ih =>
    rw [withCanonicalEndings_single hc hsingle, cutAt_of_two (hpair _),
      cutAt_of_one (lineEnd_of_single hc hsingle), ih]
  | other c rest hc ih =>
    rw [withCanonicalEndings_other rest hc, cutAt_of_zero (hother c _ hc),
      cutAt_of_zero (lineEnd_of_other rest hc), ih]

theorem canonicalLines_eq (cs : List Char) :
    cutAt canonicalEnd (withCanonicalEndings cs) = cutAt lineEnd cs :=
  cutAt_withCanonicalEndings (fun _ => rfl) (fun _ => canonicalEnd_of_other) cs

theorem lines_eq (cs : List Char) :
    cutAt lineEnd (withCanonicalEndings cs) = cutAt lineEnd cs :=
  cutAt_withCanonicalEndings (fun _ => rfl) (fun _ => lineEnd_of_other) cs

/-- A return stands right before each feed, and a feed right after each return. -/
structure Canonical (cs : List Char) : Prop where
  fed : ∀ i, cs[i]? = some '\r' → cs[i + 1]? = some '\n'
  returned : ∀ i, cs[i]? = some '\n' → ∃ before, i = before + 1 ∧ cs[before]? = some '\r'

theorem Canonical.nil : Canonical [] := ⟨fun _ h => (nomatch h), fun _ h => (nomatch h)⟩

theorem Canonical.ended {cs : List Char} (h : Canonical cs) : Canonical ('\r' :: '\n' :: cs) where
  fed i hi := by
    match i with
    | 0 => rfl
    | 1 => cases hi
    | i + 2 => exact h.fed i hi
  returned i hi := by
    match i with
    | 0 => cases hi
    | 1 => exact ⟨0, rfl, rfl⟩
    | i + 2 =>
      obtain ⟨before, rfl, hbefore⟩ := h.returned i hi
      exact ⟨before + 2, rfl, hbefore⟩

theorem Canonical.cons {cs : List Char} (h : Canonical cs) {c : Char}
    (hc : ¬(c = '\r' ∨ c = '\n')) : Canonical (c :: cs) where
  fed i hi := by
    match i with
    | 0 => exact absurd (Or.inl (Option.some.inj hi)) hc
    | i + 1 => exact h.fed i hi
  returned i hi := by
    match i with
    | 0 => exact absurd (Or.inr (Option.some.inj hi)) hc
    | i + 1 =>
      obtain ⟨before, rfl, hbefore⟩ := h.returned i hi
      exact ⟨before + 1, rfl, hbefore⟩

theorem canonical_withCanonicalEndings (cs : List Char) : Canonical (withCanonicalEndings cs) := by
  induction cs using endingInduction with
  | nil => exact .nil
  | pair rest ih => exact ih.ended
  | single c rest hsingle hc ih =>
    rw [withCanonicalEndings_single hc hsingle]
    exact ih.ended
  | other c rest hc ih =>
    rw [withCanonicalEndings_other rest hc]
    exact ih.cons hc

theorem intercalate_cons_of_ne_nil {sep line : List Char} {lines : List (List Char)}
    (h : lines ≠ []) : sep.intercalate (line :: lines) = line ++ sep ++ sep.intercalate lines := by
  cases lines with
  | nil => exact absurd rfl h
  | cons next lines => exact List.intercalate_cons_cons

theorem intercalate_modifyHead {sep : List Char} {lines : List (List Char)} (h : lines ≠ [])
    (c : Char) : sep.intercalate (lines.modifyHead (c :: ·)) = c :: sep.intercalate lines := by
  cases lines with
  | nil => exact absurd rfl h
  | cons line lines =>
    rw [List.modifyHead_cons]
    cases lines with
    | nil => rw [List.intercalate_singleton, List.intercalate_singleton]
    | cons next lines => rw [List.intercalate_cons_cons, List.intercalate_cons_cons]; rfl

/-- A text with canonical endings is its lines with such an ending between each two. -/
theorem intercalate_lines (cs : List Char) :
    ['\r', '\n'].intercalate (cutAt lineEnd cs) = withCanonicalEndings cs := by
  induction cs using endingInduction with
  | nil => rw [cutAt, List.intercalate_singleton, withCanonicalEndings_nil]
  | pair rest ih =>
    rw [cutAt_of_two rfl, intercalate_cons_of_ne_nil (cutAt_ne_nil rest), ih]
    rfl
  | single c rest hsingle hc ih =>
    rw [cutAt_of_one (lineEnd_of_single hc hsingle), intercalate_cons_of_ne_nil (cutAt_ne_nil rest),
      ih, withCanonicalEndings_single hc hsingle]
    rfl
  | other c rest hc ih =>
    rw [cutAt_of_zero (lineEnd_of_other rest hc), intercalate_modifyHead (cutAt_ne_nil rest), ih,
      withCanonicalEndings_other rest hc]

theorem withCanonicalEndings_eq_iff {cs others : List Char} :
    withCanonicalEndings cs = withCanonicalEndings others ↔
      cutAt lineEnd cs = cutAt lineEnd others := by
  constructor
  · intro h
    rw [← lines_eq cs, h, lines_eq others]
  · intro h
    rw [← intercalate_lines cs, h, intercalate_lines others]

theorem withCanonicalEndings_idem (cs : List Char) :
    withCanonicalEndings (withCanonicalEndings cs) = withCanonicalEndings cs :=
  withCanonicalEndings_eq_iff.2 (lines_eq cs)

theorem withCanonicalEndings_eq_nil {cs : List Char} : withCanonicalEndings cs = [] ↔ cs = [] := by
  induction cs using endingInduction with
  | nil => simp [withCanonicalEndings_nil]
  | pair rest ih => simp [withCanonicalEndings_pair]
  | single c rest hsingle hc ih => simp [withCanonicalEndings_single hc hsingle]
  | other c rest hc ih => simp [withCanonicalEndings_other rest hc]

theorem withCanonicalEndings_ne_feed (cs : List Char) : withCanonicalEndings cs ≠ ['\n'] := by
  induction cs using endingInduction with
  | nil => simp [withCanonicalEndings_nil]
  | pair rest ih => simp [withCanonicalEndings_pair]
  | single c rest hsingle hc ih => simp [withCanonicalEndings_single hc hsingle]
  | other c rest hc ih =>
    rw [withCanonicalEndings_other rest hc]
    intro h
    exact hc (Or.inr (List.cons_eq_cons.1 h).1)

theorem withCanonicalEndings_cons {c : Char} {cs : List Char}
    (h : c = '\r' → cs.head? ≠ some '\n') : withCanonicalEndings (c :: cs) =
      (if c = '\r' ∨ c = '\n' then ['\r', '\n'] else [c]) ++ withCanonicalEndings cs := by
  split
  case isTrue hc =>
    apply withCanonicalEndings_single hc
    rintro after hreturn rfl
    exact h hreturn rfl
  case isFalse hc => exact withCanonicalEndings_other cs hc

/-- Endings are made canonical part by part, where no return is parted from its feed. -/
theorem withCanonicalEndings_append {xs ys : List Char}
    (h : xs.getLast? = some '\r' → ys.head? ≠ some '\n') :
    withCanonicalEndings (xs ++ ys) = withCanonicalEndings xs ++ withCanonicalEndings ys := by
  have hrest {c : Char} {xs : List Char}
      (h : (c :: xs).getLast? = some '\r' → ys.head? ≠ some '\n') :
      xs.getLast? = some '\r' → ys.head? ≠ some '\n' :=
    fun hlast => h (by rw [List.getLast?_cons, hlast]; rfl)
  have hsingle {c : Char} {xs : List Char} (hne : ∀ rest, c = '\r' → xs = '\n' :: rest → False)
      (h : (c :: xs).getLast? = some '\r' → ys.head? ≠ some '\n') :
      c = '\r' → (xs ++ ys).head? ≠ some '\n' := by
    rintro rfl
    cases xs with
    | nil => exact h rfl
    | cons d xs =>
      intro heq
      cases heq
      exact hne xs rfl rfl
  induction xs using endingInduction with
  | nil => rfl
  | pair xs ih => exact congrArg (['\r', '\n'] ++ ·) (ih (hrest (hrest h)))
  | single c xs hne hc ih =>
    rw [List.cons_append, withCanonicalEndings_cons (hsingle hne h), if_pos hc, ih (hrest h),
      withCanonicalEndings_single hc hne]
    rfl
  | other c xs hc ih =>
    rw [List.cons_append, withCanonicalEndings_other _ hc, ih (hrest h),
      withCanonicalEndings_other xs hc]
    rfl

theorem endsLine_append {xs ys : List Char} (hne : ys ≠ []) (hfeed : ys ≠ ['\n']) :
    endsLine (xs ++ ys) = endsLine ys := by
  have hsplit : ys.reverse ≠ [] ∧ ys.reverse ≠ ['\n'] := by
    refine ⟨by simpa using hne, fun h => hfeed ?_⟩
    rw [← List.reverse_reverse ys, h]
    rfl
  simp only [endsLine, List.isSuffixOf, List.reverse_append]
  generalize ys.reverse = zs at hsplit
  match zs, hsplit with
  | [c], ⟨_, hc⟩ =>
    have hne : ('\n' == c) = false := beq_eq_false_iff_ne.2 fun h => hc (by rw [h])
    simp [List.isPrefixOf, hne]
  | c :: d :: rest, _ => simp [List.isPrefixOf]

theorem endsLine_lineEnd (xs : List Char) : endsLine (xs ++ ['\r', '\n']) = true :=
  endsLine_append (List.cons_ne_nil _ _) (by decide)

theorem withCanonicalEndings_ended (cs : List Char) :
    withCanonicalEndings (withCanonicalEndings cs ++ ['\r', '\n']) =
      withCanonicalEndings cs ++ ['\r', '\n'] := by
  rw [withCanonicalEndings_append fun _ => by decide, withCanonicalEndings_idem]
  rfl

theorem suffix_asLines (cs : List Char) : ['\r', '\n'] <:+ asLines cs := by
  rw [asLines_eq]
  split
  case isTrue h => exact List.isSuffixOf_iff_suffix.1 h
  case isFalse => exact List.suffix_append _ _

theorem asLines_cases (cs : List Char) : asLines cs = withCanonicalEndings cs ∨
    asLines cs = withCanonicalEndings cs ++ ['\r', '\n'] := by
  rw [asLines_eq]
  split
  · exact Or.inl rfl
  · exact Or.inr rfl

theorem withCanonicalEndings_asLines (cs : List Char) :
    withCanonicalEndings (asLines cs) = asLines cs := by
  rcases asLines_cases cs with h | h
  · rw [h, withCanonicalEndings_idem]
  · rw [h, withCanonicalEndings_ended]

theorem asLines_idem (cs : List Char) : asLines (asLines cs) = asLines cs := by
  have hends : endsLine (asLines cs) = true := List.isSuffixOf_iff_suffix.2 (suffix_asLines cs)
  rw [asLines_eq, withCanonicalEndings_asLines, if_pos hends]

theorem asLines_congr {cs others : List Char} (h : cutAt lineEnd cs = cutAt lineEnd others) :
    asLines cs = asLines others := by
  rw [asLines_eq, asLines_eq, withCanonicalEndings_eq_iff.2 h]

def linesOf (text : String) : List (List Char) := cutAt lineEnd text.toList

theorem normalizedBy_eq {replaceAll : Replacer} (h : LeftmostFirst replaceAll) :
    normalizedBy replaceAll = normalizeLineEndings := by
  funext text
  exact congrArg String.ofList (h.unique leftmostFirst_replaceLeftmost (by decide) _ _)

theorem terminatedBy_eq {replaceAll : Replacer} (h : LeftmostFirst replaceAll) :
    terminatedBy replaceAll = terminated := by
  have hcanonical : canonicalBy replaceAll = withCanonicalEndings :=
    funext fun cs => h.unique leftmostFirst_replaceLeftmost (by decide) _ cs
  funext text
  rw [terminatedBy, linesBy, hcanonical]
  rfl

/-- A text with canonical line endings has the lines that it had, is the same for all texts that
have these lines, and stays as it is when its line endings are made canonical once more. So is a
text that ends in such an ending as well, for which at most one is added. -/
theorem endings_canonical {replaceAll : Replacer} (h : LeftmostFirst replaceAll) (text : String) :
    Canonical (normalizedBy replaceAll text).toList ∧
      cutAt canonicalEnd (normalizedBy replaceAll text).toList = linesOf text ∧
      normalizedBy replaceAll (normalizedBy replaceAll text) = normalizedBy replaceAll text ∧
      (∀ other, normalizedBy replaceAll text = normalizedBy replaceAll other ↔
        linesOf text = linesOf other) ∧
      ['\r', '\n'] <:+ (terminatedBy replaceAll text).toList ∧
      (terminatedBy replaceAll text = normalizedBy replaceAll text ∨
        terminatedBy replaceAll text = normalizedBy replaceAll text ++ "\r\n") ∧
      terminatedBy replaceAll (terminatedBy replaceAll text) = terminatedBy replaceAll text ∧
      ∀ other, linesOf text = linesOf other →
        terminatedBy replaceAll text = terminatedBy replaceAll other := by
  rw [normalizedBy_eq h, terminatedBy_eq h]
  have hnormalized (text : String) :
      normalizeLineEndings text = String.ofList (withCanonicalEndings text.toList) := rfl
  have hterminated (text : String) : terminated text = String.ofList (asLines text.toList) := rfl
  simp only [hnormalized, hterminated, linesOf, String.toList_ofList]
  refine ⟨canonical_withCanonicalEndings _, canonicalLines_eq _, ?_, fun other => ?_,
    suffix_asLines _, ?_, ?_, fun other hlines => ?_⟩
  · rw [withCanonicalEndings_idem]
  · rw [String.ofList_inj]
    exact withCanonicalEndings_eq_iff
  · rcases asLines_cases text.toList with hcases | hcases
    · exact Or.inl (congrArg String.ofList hcases)
    · exact Or.inr (by rw [hcases, String.ofList_append])
  · rw [asLines_idem]
  · rw [asLines_congr hlines]

/-- A return before a return with its feed ends a line of its own, and so does a return after a
feed. -/
theorem endings_canonical_mixed : LeftmostFirst replaceLeftmost ∧
    linesOf "a\r\r\nb\n\r" = [['a'], [], ['b'], [], []] ∧
      linesOf "a\r\r\nb\n\r" = linesOf "a\n\rb\r\n\n" ∧
      terminated "a\r\r\nb\n\r" = terminated "a\n\rb\r\n\n" := by
  have hlines : linesOf "a\r\r\nb\n\r" = [['a'], [], ['b'], [], []] := by cbv
  have hother : linesOf "a\n\rb\r\n\n" = [['a'], [], ['b'], [], []] := by cbv
  have hsame := hlines.trans hother.symm
  have hended :=
    (endings_canonical leftmostFirst_replaceLeftmost "a\r\r\nb\n\r").2.2.2.2.2.2.2
  exact ⟨leftmostFirst_replaceLeftmost, hlines, hsame, hended _ hsame⟩

end Metasyntax
