import Mathlib.Data.List.Forall2
import Metasyntax.Proofs.Letters
import Metasyntax.Proofs.Yields

/-!
# What expressions accept

The texts of an expression, whatever nodes they give, in terms of the texts of its parts.
Terminals and choices among them accept single characters.
-/

set_option autoImplicit false

namespace Metasyntax

/-- A text that an expression stands for. -/
def Accepts (rules : Ruleset) (expression : Expression) (cs : List Char) : Prop :=
  ∃ nodes, Yields rules expression cs nodes

section
variable {rules : Ruleset} {cs : List Char} {element : Expression}

theorem accepts_literal_iff {terminal : Literal} :
    Accepts rules (.literal terminal) cs ↔ terminal.consume cs = some cs := by
  constructor
  · rintro ⟨nodes, h⟩
    cases h with
    | literal offset hconsume => exact hconsume
  · intro h
    exact ⟨_, .literal 0 h⟩

theorem accepts_name_iff {name : String} {body : Expression}
    (hlookup : rules.lookup name = some body) :
    Accepts rules (.name name) cs ↔ Accepts rules body cs := by
  constructor
  · rintro ⟨nodes, h⟩
    cases h with
    | name hlookup' hbody =>
      obtain rfl := Option.some.inj (hlookup.symm.trans hlookup')
      exact ⟨_, hbody⟩
  · rintro ⟨nodes, h⟩
    exact ⟨_, .name hlookup h⟩

theorem accepts_choice_iff {branches : List Expression} :
    Accepts rules (.choice branches) cs ↔ ∃ branch ∈ branches, Accepts rules branch cs := by
  constructor
  · rintro ⟨nodes, h⟩
    cases h with
    | choice hmem hbranch => exact ⟨_, hmem, nodes, hbranch⟩
  · rintro ⟨branch, hmem, nodes, h⟩
    exact ⟨nodes, .choice hmem h⟩

theorem accepts_nil_iff : Accepts rules (.sequence []) cs ↔ cs = [] := by
  constructor
  · rintro ⟨nodes, h⟩
    cases h
    rfl
  · rintro rfl
    exact ⟨[], .nil⟩

theorem accepts_cons_iff {item : Expression} {items : List Expression} :
    Accepts rules (.sequence (item :: items)) cs ↔
      ∃ xs ys, cs = xs ++ ys ∧ Accepts rules item xs ∧ Accepts rules (.sequence items) ys := by
  constructor
  · rintro ⟨nodes, h⟩
    cases h with
    | cons hitem hitems => exact ⟨_, _, rfl, ⟨_, hitem⟩, _, hitems⟩
  · rintro ⟨xs, ys, rfl, ⟨nodes, hitem⟩, nodes', hitems⟩
    exact ⟨_, .cons hitem hitems⟩

theorem accepts_last_iff {item : Expression} :
    Accepts rules (.sequence [item]) cs ↔ Accepts rules item cs := by
  rw [accepts_cons_iff]
  constructor
  · rintro ⟨xs, ys, rfl, hitem, hnil⟩
    rwa [accepts_nil_iff.1 hnil, List.append_nil]
  · intro h
    exact ⟨cs, [], (List.append_nil cs).symm, h, accepts_nil_iff.2 rfl⟩

theorem accepts_optional_iff :
    Accepts rules (.optional element) cs ↔ cs = [] ∨ Accepts rules element cs := by
  constructor
  · rintro ⟨nodes, h⟩
    cases h with
    | skipped => exact Or.inl rfl
    | optional helement => exact Or.inr ⟨_, helement⟩
  · rintro (rfl | ⟨nodes, h⟩)
    · exact ⟨[], .skipped⟩
    · exact ⟨nodes, .optional h⟩

theorem accepts_replicate_iff {count : Nat} :
    Accepts rules (.sequence (List.replicate count element)) cs ↔
      ∃ parts : List (List Char), parts.length = count ∧
        (∀ part ∈ parts, Accepts rules element part) ∧ cs = parts.flatten := by
  induction count generalizing cs with
  | zero =>
    rw [List.replicate_zero, accepts_nil_iff]
    constructor
    · rintro rfl
      exact ⟨[], rfl, by simp, rfl⟩
    · rintro ⟨parts, hlength, -, rfl⟩
      rw [List.length_eq_zero_iff.1 hlength]
      rfl
  | succ count ih =>
    rw [List.replicate_succ, accepts_cons_iff]
    constructor
    · rintro ⟨xs, ys, rfl, hxs, hys⟩
      obtain ⟨parts, rfl, hparts, rfl⟩ := ih.1 hys
      refine ⟨xs :: parts, rfl, fun part hpart => ?_, rfl⟩
      rcases List.mem_cons.1 hpart with rfl | hpart
      · exact hxs
      · exact hparts part hpart
    · rintro ⟨parts, hlength, hparts, rfl⟩
      obtain ⟨part, parts, rfl⟩ := List.exists_cons_of_length_eq_add_one hlength
      refine ⟨part, parts.flatten, rfl, hparts part List.mem_cons_self, ih.2 ⟨parts, ?_, ?_, rfl⟩⟩
      · simpa using hlength
      · exact fun part hpart => hparts part (List.mem_cons_of_mem _ hpart)

theorem accepts_repeated_iff {bounds : Bounds} : Accepts rules (.repeated bounds element) cs ↔
    ∃ parts : List (List Char), bounds.min ≤ parts.length ∧
      (∀ most, bounds.max = some most → parts.length ≤ most) ∧
      (∀ part ∈ parts, Accepts rules element part) ∧ cs = parts.flatten := by
  constructor
  · rintro ⟨nodes, h⟩
    cases h with
    | repeated count hmin hmax hall =>
      obtain ⟨parts, rfl, hparts, rfl⟩ := accepts_replicate_iff.1 ⟨_, hall⟩
      exact ⟨parts, hmin, hmax, hparts, rfl⟩
  · rintro ⟨parts, hmin, hmax, hparts, rfl⟩
    obtain ⟨nodes, hall⟩ := accepts_replicate_iff.2 ⟨parts, rfl, hparts, rfl⟩
    exact ⟨nodes, .repeated _ hmin hmax hall⟩

theorem accepts_star_iff : Accepts rules (.star element) cs ↔
    ∃ parts : List (List Char), (∀ part ∈ parts, Accepts rules element part) ∧
      cs = parts.flatten := by
  rw [Expression.star, accepts_repeated_iff]
  simp

theorem accepts_plus_iff : Accepts rules (.plus element) cs ↔
    ∃ xs ys, cs = xs ++ ys ∧ Accepts rules element xs ∧ Accepts rules (.star element) ys := by
  rw [Expression.plus, accepts_repeated_iff]
  constructor
  · rintro ⟨parts, hmin, -, hparts, rfl⟩
    cases parts with
    | nil => exact absurd hmin (by decide)
    | cons part parts =>
      refine ⟨part, parts.flatten, rfl, hparts part List.mem_cons_self, ?_⟩
      exact accepts_star_iff.2 ⟨parts, fun part hpart => hparts part (List.mem_cons_of_mem _ hpart),
        rfl⟩
  · rintro ⟨xs, ys, rfl, hxs, hys⟩
    obtain ⟨parts, hparts, rfl⟩ := accepts_star_iff.1 hys
    refine ⟨xs :: parts, by simp, by simp, fun part hpart => ?_, rfl⟩
    rcases List.mem_cons.1 hpart with rfl | hpart
    · exact hxs
    · exact hparts part hpart

def Single (rules : Ruleset) (element : Expression) (P : Char → Prop) : Prop :=
  ∀ cs, Accepts rules element cs ↔ ∃ c, P c ∧ cs = [c]

variable {P Q : Char → Prop}

theorem Single.star (h : Single rules element P) :
    Accepts rules (.star element) cs ↔ ∀ c ∈ cs, P c := by
  rw [accepts_star_iff]
  constructor
  · rintro ⟨parts, hparts, rfl⟩ c hc
    obtain ⟨part, hpart, hc⟩ := List.mem_flatten.1 hc
    obtain ⟨d, hd, rfl⟩ := (h part).1 (hparts part hpart)
    rw [List.mem_singleton.1 hc]
    exact hd
  · intro hall
    refine ⟨cs.map fun c => [c], fun part hpart => ?_, ?_⟩
    · obtain ⟨c, hc, rfl⟩ := List.mem_map.1 hpart
      exact (h _).2 ⟨c, hall c hc, rfl⟩
    · induction cs with
      | nil => rfl
      | cons c cs ih =>
        rw [List.map_cons, List.flatten_cons, ← ih fun d hd => hall d (List.mem_cons_of_mem _ hd)]
        rfl

theorem Single.plus (h : Single rules element P) :
    Accepts rules (.plus element) cs ↔ cs ≠ [] ∧ ∀ c ∈ cs, P c := by
  rw [accepts_plus_iff]
  constructor
  · rintro ⟨xs, ys, rfl, hxs, hys⟩
    obtain ⟨c, hc, rfl⟩ := (h xs).1 hxs
    refine ⟨by simp, fun d hd => ?_⟩
    rcases List.mem_cons.1 hd with rfl | hd
    · exact hc
    · exact h.star.1 hys d hd
  · rintro ⟨hne, hall⟩
    obtain ⟨c, cs, rfl⟩ := List.exists_cons_of_ne_nil hne
    exact ⟨[c], cs, rfl, (h _).2 ⟨c, hall c List.mem_cons_self, rfl⟩,
      h.star.2 fun d hd => hall d (List.mem_cons_of_mem _ hd)⟩

theorem Single.of_iff (h : Single rules element P) (hiff : ∀ c, P c ↔ Q c) :
    Single rules element Q := by
  intro cs
  simp only [h cs, hiff]

theorem Single.name {name : String} {body : Expression}
    (hlookup : rules.lookup name = some body) (h : Single rules body P) :
    Single rules (.name name) P := fun cs => (accepts_name_iff hlookup).trans (h cs)

theorem single_range (first last : Char) :
    Single rules (.range first last) fun c => first ≤ c ∧ c ≤ last := by
  intro cs
  rw [Expression.range, accepts_literal_iff]
  constructor
  · intro h
    cases cs with
    | nil => cases h
    | cons c cs =>
      change (if first ≤ c ∧ c ≤ last then some [c] else none) = _ at h
      split at h
      case isTrue hc =>
        cases h
        exact ⟨c, hc, rfl⟩
      case isFalse => cases h
  · rintro ⟨c, hc, rfl⟩
    exact if_pos hc

theorem single_none : Single rules (.choice []) fun _ => False := by
  intro cs
  rw [accepts_choice_iff]
  simp

theorem Single.or {branches : List Expression} (h : Single rules element P)
    (h' : Single rules (.choice branches) Q) :
    Single rules (.choice (element :: branches)) fun c => P c ∨ Q c := by
  intro cs
  have hcs := h cs
  have hcs' := h' cs
  rw [accepts_choice_iff] at hcs' ⊢
  rw [List.exists_mem_cons_iff, hcs, hcs']
  simp only [or_and_right, exists_or]

theorem single_exact {pattern : String} {e : Char} (hpattern : pattern.toList = [e]) :
    Single rules (.exact pattern) (· = e) := by
  intro cs
  rw [Expression.exact, accepts_literal_iff]
  cases cs with
  | nil => simp [Literal.consume]
  | cons c cs =>
    change Literal.consumeText _ pattern.toList (c :: cs) = _ ↔ _
    rw [hpattern]
    by_cases hc : e = c
    · simp [Literal.consumeText, Literal.exact, hc, eq_comm]
    · simp [Literal.consumeText, Literal.exact, hc, Ne.symm hc]

theorem consumeText_eq_some_iff {same : Char → Char → Bool} {pattern cs : List Char} :
    Literal.consumeText same pattern cs = some cs ↔
      List.Forall₂ (fun e c => same e c = true) pattern cs := by
  induction pattern generalizing cs with
  | nil =>
    rw [List.forall₂_nil_left_iff, Literal.consumeText, Option.some.injEq]
    exact eq_comm
  | cons e pattern ih =>
    cases cs with
    | nil => simp [Literal.consumeText]
    | cons c cs =>
      rw [List.forall₂_cons, Literal.consumeText, ← ih]
      split
      case isTrue hsame => simp [hsame]
      case isFalse hsame => simp [hsame]

theorem accepts_text_iff {pattern : String} (hpattern : pattern.toList ≠ []) {cs : List Char} :
    Accepts rules (.text pattern) cs ↔
      List.Forall₂ (fun e c => sameLetter e c = true) pattern.toList cs := by
  rw [Expression.text, accepts_literal_iff]
  cases cs with
  | nil => simp [Literal.consume, hpattern]
  | cons c cs => exact consumeText_eq_some_iff

def IsSpelling (e c : Char) : Prop := c = e.toLower ∨ c = e.toUpper

theorem single_text {pattern : String} {e : Char} (hpattern : pattern.toList = [e])
    (he : e.toNat < 0x80 ∧ e.toLower ≠ 'k') : Single rules (.text pattern) (IsSpelling e) := by
  intro cs
  rw [accepts_text_iff (by simp [hpattern]), hpattern, List.forall₂_cons_left_iff]
  simp only [List.forall₂_nil_left_iff, sameLetter_iff_spelling he.1 he.2, exists_eq_left,
    exists_and_left]
  rfl

theorem single_mark {pattern : String} {e : Char} (hpattern : pattern.toList = [e])
    (he : e.toNat < 0x80 ∧ e.toLower ≠ 'k' ∧ e.toLower = e ∧ e.toUpper = e) :
    Single rules (.text pattern) (· = e) :=
  (single_text hpattern ⟨he.1, he.2.1⟩).of_iff fun c => by
    rw [IsSpelling, he.2.2.1, he.2.2.2, or_self]

/-- A mark with a letter after it. -/
theorem accepts_marked_iff (mark e : Char) {pattern : String}
    (hpattern : pattern.toList = [mark, e])
    (hmark : mark.toNat < 0x80 ∧ mark.toLower ≠ 'k' ∧ mark.toLower = mark ∧ mark.toUpper = mark)
    (he : e.toNat < 0x80 ∧ e.toLower ≠ 'k') {cs : List Char} :
    Accepts rules (.text pattern) cs ↔ ∃ c, IsSpelling e c ∧ cs = [mark, c] := by
  rw [accepts_text_iff (by simp [hpattern]), hpattern]
  simp only [List.forall₂_cons_left_iff, List.forall₂_nil_left_iff,
    sameLetter_iff_spelling hmark.1 hmark.2.1, sameLetter_iff_spelling he.1 he.2, hmark.2.2.1,
    hmark.2.2.2, or_self, exists_eq_left, exists_and_left]
  constructor
  · rintro ⟨rest, ⟨c, hc, rfl⟩, rfl⟩
    exact ⟨c, hc, rfl⟩
  · rintro ⟨c, hc, rfl⟩
    exact ⟨[c], ⟨c, hc, rfl⟩, rfl⟩

end

end Metasyntax
