import Metasyntax.Proofs.OneRule

/-!
# What counts mean

The count in front of an element is any number of digits, with or without a star among them. It is
refused if a bound is too large for a machine word or the bounds are out of order, and otherwise
the element occurs as often as it says, to the occurrence.
-/

set_option autoImplicit false

namespace Metasyntax
open Notation

namespace Notation.Count

def parts : Count → List (List Char)
  | exactly digits => [digits]
  | between least most => [least, most]

def least : Count → Nat
  | exactly digits => Radix.decimal.number digits
  | between least _ => Radix.decimal.number least

def most? : Count → Option Nat
  | exactly digits => some (Radix.decimal.number digits)
  | between _ most => if most = [] then none else some (Radix.decimal.number most)

def Refused (count : Count) : Prop :=
  (∃ digits ∈ count.parts, 2 ^ 64 ≤ Radix.decimal.number digits) ∨
    ∃ most ∈ count.most?, most < count.least

/-- Without digits there is no bound, which leaves the least number of occurrences at zero. -/
theorem bound_of_lt {count : Count} {digits : List Char}
    (h : Radix.decimal.number digits < 2 ^ 64) : ∃ bound, count.bound digits = .ok bound ∧
      bound = (if digits = [] then none else some (Radix.decimal.number digits)) ∧
      bound.getD 0 = Radix.decimal.number digits := by
  refine ⟨_, bound_eq h, rfl, ?_⟩
  split
  case isTrue hnil =>
    rw [hnil]
    rfl
  case isFalse => rfl

theorem bound_of_le {count : Count} {digits : List Char}
    (h : 2 ^ 64 ≤ Radix.decimal.number digits) :
    count.bound digits = .error (.invalidRepeat (String.ofList count.text)) := by
  have hne : digits ≠ [] := by
    rintro rfl
    exact absurd h (by decide)
  rw [bound, if_neg hne, if_neg (Nat.not_lt_of_le h)]

theorem bounds_between {least most : List Char} (hleast : Radix.decimal.number least < 2 ^ 64)
    (hmost : Radix.decimal.number most < 2 ^ 64) : (between least most).bounds =
      if (between least most).most?.any (· < Radix.decimal.number least) then
        .error (.invalidRepeat (String.ofList (between least most).text))
      else .ok ⟨Radix.decimal.number least, (between least most).most?⟩ := by
  obtain ⟨first, hfirst, -, hvalue⟩ := @bound_of_lt (between least most) least hleast
  obtain ⟨last, hlast, hlimit, -⟩ := @bound_of_lt (between least most) most hmost
  rw [bounds, hfirst, hlast, most?, ← hlimit, ← hvalue]
  change (if last.any (· < first.getD 0) then _ else _) = _
  split <;> rfl

/-- The error names the whole count. -/
theorem bounds_of_refused {count : Count} (h : count.Refused) :
    count.bounds = .error (.invalidRepeat (String.ofList count.text)) := by
  cases count with
  | exactly digits =>
    rcases h with ⟨_, hmem, hlarge⟩ | ⟨_, hmost, hlt⟩
    · obtain rfl := List.mem_singleton.1 hmem
      rw [bounds, bound_of_le hlarge]
      rfl
    · cases hmost
      exact absurd hlt (Nat.lt_irrefl _)
  | between least most =>
    by_cases hleast : 2 ^ 64 ≤ Radix.decimal.number least
    · rw [bounds, bound_of_le hleast]
      rfl
    by_cases hmost : 2 ^ 64 ≤ Radix.decimal.number most
    · obtain ⟨bound, hbound, -⟩ :=
        @bound_of_lt (between least most) least (Nat.lt_of_not_le hleast)
      rw [bounds, hbound, bound_of_le hmost]
      rfl
    rw [bounds_between (Nat.lt_of_not_le hleast) (Nat.lt_of_not_le hmost), if_pos]
    rcases h with ⟨digits, hmem, hlarge⟩ | ⟨limit, hlimit, hlt⟩
    · simp only [parts, List.mem_cons, List.not_mem_nil, or_false] at hmem
      rcases hmem with rfl | rfl
      · exact absurd hlarge hleast
      · exact absurd hlarge hmost
    · exact (Option.any_eq_true _ _).2 ⟨limit, hlimit, decide_eq_true hlt⟩

theorem bounds_of_not_refused {count : Count} (h : ¬ count.Refused) :
    count.bounds = .ok ⟨count.least, count.most?⟩ := by
  have hsmall : ∀ digits ∈ count.parts, Radix.decimal.number digits < 2 ^ 64 :=
    fun digits hmem => Nat.lt_of_not_le fun hlarge => h (Or.inl ⟨digits, hmem, hlarge⟩)
  cases count with
  | exactly digits =>
    obtain ⟨bound, hbound, -, hvalue⟩ :=
      @bound_of_lt (exactly digits) digits (hsmall _ (List.mem_singleton_self _))
    rw [bounds, hbound]
    change Except.ok (Bounds.exactly (bound.getD 0)) = _
    rw [hvalue]
    rfl
  | between least most =>
    rw [bounds_between (hsmall least (by simp [parts])) (hsmall most (by simp [parts])), if_neg]
    · rfl
    · intro hany
      obtain ⟨limit, hlimit, hlt⟩ := (Option.any_eq_true _ _).1 hany
      exact h (Or.inr ⟨limit, hlimit, of_decide_eq_true hlt⟩)

theorem ordered_of_not_refused {count : Count} (h : ¬ count.Refused) :
    Bounds.Ordered ⟨count.least, count.most?⟩ :=
  fun most hmost => Nat.le_of_not_lt fun hlt => h (Or.inr ⟨most, hmost, hlt⟩)

theorem WellFormed.printable {count : Count} (h : count.WellFormed) :
    ∀ c ∈ count.text, ' ' ≤ c := by
  intro c hc
  cases count with
  | exactly digits => exact IsDecimal.printable (h.2 c hc)
  | between least most =>
    rw [text, List.mem_append, List.mem_cons] at hc
    rcases hc with hc | rfl | hc
    · exact (h.1 c hc).printable
    · decide
    · exact (h.2 c hc).printable

def Repeats (count : Count) (letter : Char) (cs : List Char) : Prop :=
  (∀ c ∈ cs, IsSpelling letter c) ∧ count.least ≤ cs.length ∧
    ∀ most ∈ count.most?, cs.length ≤ most

end Notation.Count

def Notation.counted (name : List Char) (count : Count) (letter : Char) : Notation.Rule :=
  ⟨name, false, .last (.last (.repeated count (.quoted .plain [letter])))⟩

/-- A repeated letter of ASCII. -/
theorem Expression.defines_repeated {count : Count} (hcount : ¬ count.Refused) {letter : Char}
    (hletter : letter.toNat < 0x80 ∧ letter.toLower ≠ 'k') :
    (Expression.repeated ⟨count.least, count.most?⟩
      (.literal ⟨.text (String.ofList [letter]), false⟩)).Defines (count.Repeats letter) := by
  rintro id options before after _ ⟨cache, inner, rfl, -, -, hinner⟩
  obtain rfl : inner = .literal ⟨.text (String.ofList [letter]), false⟩ := hinner
  have hpattern : (Literal.mk (.text (String.ofList [letter])) false).pattern ≠ .text "" := by
    intro heq
    have hnil := congrArg String.toList (Pattern.text.inj heq)
    rw [String.toList_ofList] at hnil
    cases hnil
  have hsingle : Single [] (.text (String.ofList [letter])) (IsSpelling letter) :=
    single_text String.toList_ofList hletter
  exact Parser.defines_repetition hpattern (fun cs => accepts_literal_iff.symm.trans (hsingle cs))
    cache (Count.ordered_of_not_refused hcount)

section
variable {mode : ProseMode} {name : List Char} {count : Count} {letter : Char}

theorem Notation.counted_error (h : count.Refused) :
    (counted name count letter).production mode =
      .error (.invalidRepeat (String.ofList count.text)) := by
  have hitem : Item.expression mode (.repeated count (.quoted .plain [letter])) =
      .error (.invalidRepeat (String.ofList count.text)) := by
    rw [Item.expression, Count.bounds_of_refused h]
    rfl
  rw [counted, production_single, hitem]
  rfl

theorem Notation.counted_ok (h : ¬ count.Refused) :
    (counted name count letter).production mode = .ok ⟨String.ofList name, false,
      .repeated ⟨count.least, count.most?⟩ (.literal ⟨.text (String.ofList [letter]), false⟩)⟩ := by
  have hitem : Item.expression mode (.repeated count (.quoted .plain [letter])) =
      .ok (.repeated ⟨count.least, count.most?⟩
        (.literal ⟨.text (String.ofList [letter]), false⟩)) := by
    rw [Item.expression, Count.bounds_of_not_refused h]
    rfl
  rw [counted, production_single, hitem]
  rfl

theorem Notation.spelled_counted (hname : IsName name) (hcount : count.WellFormed)
    (hletter : IsQuotable letter) : (counted name count letter).Spelled
      (asLines (name ++ [' ', '=', ' '] ++ (count.text ++ ['"', letter, '"']))) := by
  refine spelled_spaced hname ⟨hcount, ['"', letter, '"'], ⟨?_, [], rfl, rfl⟩, rfl⟩ ?_
  · simpa using hletter
  · intro c hc
    rcases List.mem_append.1 hc with hc | hc
    · exact hcount.printable c hc
    · simp only [List.mem_cons, List.not_mem_nil, or_false] at hc
      rcases hc with rfl | rfl | rfl
      · decide
      · exact hletter.1.1
      · decide

end

/-- The count in front of a quoted letter means what it says, in whatever layout and however the
rule is loaded. It is refused, and named whole, if a bound does not fit into a machine word or the
bounds are out of order. Otherwise the rule decides the texts that repeat the letter so often, in
either case. -/
theorem Desk.Untouched.counts_repetitions {desk : Desk} (h : desk.Untouched) {id : GrammarId}
    (hliving : id ∈ desk.store.living) (hindex : id.index < desk.store.catalog.grammars.size)
    {name : List Char} (hname : IsName name) {count : Count} (hcount : count.WellFormed) :
    (counted name count 'x').Spelled
        (asLines (name ++ [' ', '=', ' '] ++ (count.text ++ ['"', 'x', '"']))) ∧
      ∀ text, (counted name count 'x').Spelled (asLines text.toList) →
        ∀ load, Loading.Loads id text load →
          (count.Refused → (load.run desk.store).1 =
            .error (.grammar (.invalidRepeat (String.ofList count.text)))) ∧
          (¬ count.Refused → ∃ rule, (load.run desk.store).1 = .ok [rule] ∧
            ((desk.store.catalog.localSlot id (String.ofList name)).exclusion = none →
              (desk.edit load.run).Decides id (String.ofList name) rule fun cs =>
                (∀ c ∈ cs, c = 'x' ∨ c = 'X') ∧ count.least ≤ cs.length ∧
                  ∀ most ∈ count.most?, cs.length ≤ most)) := by
  refine ⟨spelled_counted hname hcount (by decide), fun text hspelled load hload => ⟨?_, ?_⟩⟩
  · exact fun hrefused => h.loads_error hspelled hload (counted_error hrefused)
  · intro hrefused
    have hletter : 'x'.toNat < 0x80 ∧ 'x'.toLower ≠ 'k' := by decide
    have hbody := Expression.defines_repeated hrefused hletter
    exact h.loads_deciding hspelled hload hliving hindex (counted_ok hrefused) rfl hbody

/-- A count whose first number has a zero in front of it. -/
theorem Desk.counts_repetitions_padded :
    ⟨2⟩ ∈ Store.drafting.living ∧ 2 < Store.drafting.catalog.grammars.size ∧ IsName ['r'] ∧
      (Count.between ['0', '2'] ['3']).WellFormed ∧
      (counted ['r'] (.between ['0', '2'] ['3']) 'x').Spelled (asLines "r = 02*3\"x\"".toList) ∧
      ∃ rule, ((Loading.loadRulelist ⟨2⟩ "r = 02*3\"x\"").run Store.drafting).1 = .ok [rule] ∧
        (Desk.edit ⟨.drafting, ∅⟩ (Loading.loadRulelist ⟨2⟩ "r = 02*3\"x\"").run).Decides ⟨2⟩
          "r" rule fun cs => (∀ c ∈ cs, c = 'x' ∨ c = 'X') ∧ 2 ≤ cs.length ∧
            ∀ most ∈ some 3, cs.length ≤ most := by
  obtain ⟨halive, hindex, -⟩ := Store.drafting_checked
  have hname : IsName ['r'] := by decide
  have hcount : (Count.between ['0', '2'] ['3']).WellFormed := by decide
  obtain ⟨hspelled, hloads⟩ := @Desk.Untouched.counts_repetitions _ Desk.untouched_drafting ⟨2⟩
    halive hindex _ hname _ hcount
  have htext : ['r'] ++ [' ', '=', ' '] ++
      ((Count.between ['0', '2'] ['3']).text ++ ['"', 'x', '"']) =
        "r = 02*3\"x\"".toList := by decide
  rw [htext] at hspelled
  have hfine : ¬ (Count.between ['0', '2'] ['3']).Refused := by
    simp only [Count.Refused]
    decide
  obtain ⟨rule, hload, hdecides⟩ := (hloads _ hspelled _ .joined).2 hfine
  exact ⟨halive, hindex, hname, hcount, hspelled, rule, hload,
    hdecides Store.exclusion_drafting⟩

end Metasyntax
