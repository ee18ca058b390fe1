import Metasyntax.Proofs.Notation

/-!
# One rule for one text

No text spells two things, whatever layout it has. What a text spells is told apart from
what follows by the character that follows, or by the first that follows all gaps.
-/

set_option autoImplicit false

namespace Metasyntax.Notation

/-- The first part of a text with a property, where what follows begins without it, is one. -/
theorem span_unique {P : Char → Prop} {xs ys k k' : List Char} (hxs : ∀ c ∈ xs, P c)
    (hys : ∀ c ∈ ys, P c) (hk : ∀ c ∈ k.head?, ¬ P c) (hk' : ∀ c ∈ k'.head?, ¬ P c)
    (h : xs ++ k = ys ++ k') : xs = ys ∧ k = k' := by
  induction xs generalizing ys with
  | nil =>
    cases ys with
    | nil => exact ⟨rfl, h⟩
    | cons y ys =>
      rw [List.nil_append, List.cons_append] at h
      exact absurd (hys y List.mem_cons_self) (hk y (by simp [h]))
  | cons x xs ih =>
    cases ys with
    | nil =>
      rw [List.nil_append, List.cons_append] at h
      exact absurd (hxs x List.mem_cons_self) (hk' x (by simp [← h]))
    | cons y ys =>
      obtain ⟨rfl, hrest⟩ := List.cons_eq_cons.1 h
      obtain ⟨rfl, rfl⟩ := ih (fun c hc => hxs c (List.mem_cons_of_mem _ hc))
        (fun c hc => hys c (List.mem_cons_of_mem _ hc)) hrest
      exact ⟨rfl, rfl⟩

theorem LineEnd.unique {xs ys k k' : List Char} (hxs : LineEnd xs) (hys : LineEnd ys)
    (h : xs ++ k = ys ++ k') : xs = ys ∧ k = k' := by
  have hreturn : ∀ rest : List Char, ∀ c ∈ ('\r' :: rest).head?, ¬ IsRemark c := by
    rintro rest c hc
    cases hc
    decide
  rcases hxs with rfl | ⟨remark, hremarks, rfl⟩ <;> rcases hys with rfl | ⟨remark', hremarks', rfl⟩
  · simpa using h
  · simp at h
  · simp at h
  · simp only [List.cons_append, List.append_assoc, List.cons.injEq, true_and,
      List.nil_append] at h
    obtain ⟨rfl, hrest⟩ := span_unique hremarks hremarks' (hreturn _) (hreturn _) h
    simpa using hrest

theorem LineEnd.head {cs : List Char} (h : LineEnd cs) :
    ∃ c rest, cs = c :: rest ∧ (c = '\r' ∨ c = ';') := by
  rcases h with rfl | ⟨remark, -, rfl⟩
  · exact ⟨_, _, rfl, Or.inl rfl⟩
  · exact ⟨_, _, rfl, Or.inr rfl⟩

theorem LineEnd.ne_space {line rest : List Char} (h : LineEnd line) {c : Char} {cs : List Char}
    (hc : IsSpace c) : c :: cs ≠ line ++ rest := by
  intro heq
  obtain ⟨d, line, rfl, hd⟩ := h.head
  obtain ⟨rfl, -⟩ := List.cons_eq_cons.1 heq
  rcases hd with rfl | rfl <;> revert hc <;> decide

def gapStarts : List Char := [' ', '\t', '\r', ';']

theorem Gap.head {cs : List Char} (h : Gap cs) : ∃ c rest, cs = c :: rest ∧ c ∈ gapStarts := by
  obtain ⟨line, c, rfl | hline, hc, rfl⟩ := h
  · exact ⟨c, [], rfl, by rcases hc with rfl | rfl <;> decide⟩
  · obtain ⟨d, rest, rfl, hd⟩ := hline.head
    exact ⟨d, rest ++ [c], rfl, by rcases hd with rfl | rfl <;> decide⟩

theorem Gap.unique {xs ys k k' : List Char} (hxs : Gap xs) (hys : Gap ys)
    (h : xs ++ k = ys ++ k') : xs = ys ∧ k = k' := by
  obtain ⟨line, c, hline, hc, rfl⟩ := hxs
  obtain ⟨line', c', hline', hc', rfl⟩ := hys
  rw [List.append_assoc, List.append_assoc] at h
  rcases hline with rfl | hline <;> rcases hline' with rfl | hline'
  · simpa using h
  · exact absurd h (hline'.ne_space hc)
  · exact absurd h.symm (hline.ne_space hc')
  · obtain ⟨rfl, hrest⟩ := hline.unique hline' h
    simpa using hrest

def NoGap (k : List Char) : Prop := ∀ gap rest, Gap gap → k ≠ gap ++ rest

theorem noGap_cons {c : Char} (hc : c ∉ gapStarts) (k : List Char) : NoGap (c :: k) := by
  rintro gap rest hgap heq
  obtain ⟨d, gap, rfl, hd⟩ := hgap.head
  obtain ⟨rfl, -⟩ := List.cons_eq_cons.1 heq
  exact hc hd

theorem Gaps.unique {xs ys k k' : List Char} (hxs : Gaps xs) (hys : Gaps ys) (hk : NoGap k)
    (hk' : NoGap k') (h : xs ++ k = ys ++ k') : xs = ys ∧ k = k' := by
  induction hxs generalizing ys with
  | nil =>
    cases hys with
    | nil => exact ⟨rfl, h⟩
    | @cons first rest hfirst _ =>
      rw [List.append_assoc] at h
      exact absurd h (hk _ _ hfirst)
  | @cons first rest hfirst _ ih =>
    cases hys with
    | nil =>
      rw [List.append_assoc] at h
      exact absurd h.symm (hk' _ _ hfirst)
    | @cons first' rest' hfirst' hrest' =>
      rw [List.append_assoc, List.append_assoc] at h
      obtain ⟨rfl, heq⟩ := hfirst.unique hfirst' h
      obtain ⟨rfl, rfl⟩ := ih hrest' heq
      exact ⟨rfl, rfl⟩

theorem Gaps.append {xs ys : List Char} (hxs : Gaps xs) (hys : Gaps ys) : Gaps (xs ++ ys) := by
  induction hxs with
  | nil => exact hys
  | cons hfirst _ ih =>
    rw [List.append_assoc]
    exact .cons hfirst ih

theorem Gaps.head {xs : List Char} (h : Gaps xs) : ∀ c ∈ xs.head?, c ∈ gapStarts := by
  cases h with
  | nil => simp
  | cons hfirst _ =>
    obtain ⟨d, first, rfl, hd⟩ := hfirst.head
    simpa using hd

def stoppers : List Char := gapStarts ++ ['/', ')', ']']

def Stops (k : List Char) : Prop := ∀ c ∈ k.head?, c ∈ stoppers

def Begins (k : List Char) : Prop := ∃ c rest, k = c :: rest ∧ c ∉ stoppers

def Closes (closers k : List Char) : Prop :=
  ∃ gaps c rest, Gaps gaps ∧ k = gaps ++ c :: rest ∧ NoGap (c :: rest) ∧ c ∈ closers

def closers : List Char := [')', ']', '\r', ';']

theorem Begins.noGap {k : List Char} (h : Begins k) : NoGap k := by
  obtain ⟨c, rest, rfl, hc⟩ := h
  exact noGap_cons (fun hmem => hc (List.mem_append_left _ hmem)) _

theorem Begins.append {k : List Char} (h : Begins k) (rest : List Char) : Begins (k ++ rest) := by
  obtain ⟨c, k, rfl, hc⟩ := h
  exact ⟨c, k ++ rest, rfl, hc⟩

theorem stops_of_gaps {gaps : List Char} (h : Gaps gaps) (hne : gaps ≠ []) (k : List Char) :
    Stops (gaps ++ k) := by
  intro c hc
  obtain ⟨d, gaps, rfl⟩ := List.exists_cons_of_ne_nil hne
  exact List.mem_append_left _ (h.head c hc)

theorem closes_of_gaps {gaps : List Char} {c : Char} {cs : List Char} (h : Gaps gaps)
    (hc : c ∉ gapStarts) (hcs : c ∈ cs) (k : List Char) : Closes cs (gaps ++ c :: k) :=
  ⟨gaps, c, k, h, rfl, noGap_cons hc k, hcs⟩

theorem Closes.mono {cs cs' k : List Char} (h : Closes cs k) (hsub : cs ⊆ cs') :
    Closes cs' k := by
  obtain ⟨gaps, c, rest, hgaps, rfl, hrest, hc⟩ := h
  exact ⟨gaps, c, rest, hgaps, rfl, hrest, hsub hc⟩

theorem Closes.stops {k : List Char} (h : Closes ('/' :: closers) k) : Stops k := by
  obtain ⟨gaps, c, rest, hgaps, rfl, -, hc⟩ := h
  by_cases hne : gaps = []
  · subst hne
    intro d hd
    cases hd
    have hsub : '/' :: closers ⊆ stoppers := by decide
    exact hsub hc
  · exact stops_of_gaps hgaps hne _

theorem Closes.ne {cs : List Char} {k gaps : List Char} {c : Char} {rest : List Char}
    (h : Closes cs k) (hgaps : Gaps gaps) (hrest : NoGap (c :: rest)) (hc : c ∉ cs) :
    k ≠ gaps ++ c :: rest := by
  obtain ⟨gaps', c', rest', hgaps', rfl, hrest', hc'⟩ := h
  intro heq
  obtain ⟨-, heq⟩ := hgaps'.unique hgaps hrest' hrest heq
  obtain ⟨rfl, -⟩ := List.cons_eq_cons.1 heq
  exact hc hc'

theorem Closes.ne_begins {cs : List Char} {k gaps rest : List Char} (h : Closes cs k)
    (hgaps : Gaps gaps) (hrest : Begins rest) (hcs : cs ⊆ stoppers) (after : List Char) :
    k ≠ gaps ++ (rest ++ after) := by
  obtain ⟨c, rest, rfl, hc⟩ := hrest
  exact h.ne hgaps (Begins.noGap ⟨c, _, rfl, hc⟩) fun hmem => hc (hcs hmem)

theorem Stops.not {k : List Char} (hk : Stops k) {P : Char → Prop} (hP : ∀ c ∈ stoppers, ¬ P c) :
    ∀ c ∈ k.head?, ¬ P c :=
  fun c hc => hP c (hk c hc)

namespace Radix

theorem not_isDigit (radix : Radix) {c : Char} (hc : c ∈ '.' :: '-' :: stoppers) :
    ¬ radix.IsDigit c := by
  have hall : ∀ c ∈ '.' :: '-' :: stoppers, ¬ radix.IsDigit c :=
    by cases radix <;> decide
  exact hall c hc

end Radix

namespace Numeral

theorem head_series {xss : List (List Char)} {k : List Char} (hk : Stops k) :
    ∀ c ∈ (xss.flatMap ('.' :: ·) ++ k).head?, c = '.' ∨ c ∈ stoppers := by
  intro c hc
  cases xss with
  | nil => exact Or.inr (hk c hc)
  | cons digits xss =>
    cases hc
    exact Or.inl rfl

theorem series_unique {radix : Radix} {xss yss : List (List Char)} {k k' : List Char}
    (hxss : ∀ digits ∈ xss, radix.IsNumber digits) (hyss : ∀ digits ∈ yss, radix.IsNumber digits)
    (hk : Stops k) (hk' : Stops k')
    (h : xss.flatMap ('.' :: ·) ++ k = yss.flatMap ('.' :: ·) ++ k') : xss = yss ∧ k = k' := by
  have hdot : '.' ∉ stoppers := by decide
  have hdigit : ∀ {xss : List (List Char)} {k : List Char}, Stops k →
      ∀ c ∈ (xss.flatMap ('.' :: ·) ++ k).head?, ¬ radix.IsDigit c := by
    intro xss k hk c hc
    rcases head_series hk c hc with rfl | hmem
    · exact radix.not_isDigit List.mem_cons_self
    · exact radix.not_isDigit (List.mem_cons_of_mem _ (List.mem_cons_of_mem _ hmem))
  induction xss generalizing yss with
  | nil =>
    cases yss with
    | nil => exact ⟨rfl, h⟩
    | cons digits yss =>
      rw [List.flatMap_nil, List.nil_append] at h
      exact absurd (hk '.' (by rw [h]; rfl)) hdot
  | cons digits xss ih =>
    cases yss with
    | nil =>
      rw [List.flatMap_nil, List.nil_append] at h
      exact absurd ( hk' '.' (by rw [← h]; rfl)) hdot
    | cons digits' yss =>
      simp only [List.flatMap_cons, List.cons_append, List.append_assoc, List.cons.injEq,
        true_and] at h
      obtain ⟨rfl, heq⟩ := span_unique (hxss digits List.mem_cons_self).2
        (hyss digits' List.mem_cons_self).2 (hdigit hk) (hdigit hk') h
      obtain ⟨rfl, rfl⟩ := ih (fun _ hmem => hxss _ (List.mem_cons_of_mem _ hmem))
        (fun _ hmem => hyss _ (List.mem_cons_of_mem _ hmem)) heq
      exact ⟨rfl, rfl⟩

theorem series_ne_hyphen {xss : List (List Char)} {k : List Char} (hk : Stops k)
    (rest : List Char) : xss.flatMap ('.' :: ·) ++ k ≠ '-' :: rest := by
  intro heq
  rcases head_series hk '-' (by rw [heq]; rfl) with h | h <;> revert h <;> decide

def first : Numeral → List Char
  | series first _ => first
  | range first _ => first

def others : Numeral → List Char
  | series _ rest => rest.flatMap ('.' :: ·)
  | range _ last => '-' :: last

theorem text_eq (value : Numeral) : value.text = value.first ++ value.others := by
  cases value <;> rfl

theorem WellFormed.first {radix : Radix} {value : Numeral} (h : value.WellFormed radix) :
    radix.IsNumber value.first := by
  cases value <;> exact h.1

theorem not_isDigit_others (radix : Radix) (value : Numeral) {k : List Char} (hk : Stops k) :
    ∀ c ∈ (value.others ++ k).head?, ¬ radix.IsDigit c := by
  intro c hc
  apply radix.not_isDigit
  cases value with
  | series first rest =>
    rcases head_series hk c hc with rfl | hmem
    · exact List.mem_cons_self
    · exact List.mem_cons_of_mem _ (List.mem_cons_of_mem _ hmem)
  | range first last =>
    cases hc
    decide

theorem unique {radix : Radix} {value value' : Numeral} {k k' : List Char}
    (hvalue : value.WellFormed radix) (hvalue' : value'.WellFormed radix) (hk : Stops k)
    (hk' : Stops k') (h : value.text ++ k = value'.text ++ k') : value = value' ∧ k = k' := by
  rw [text_eq, text_eq, List.append_assoc, List.append_assoc] at h
  obtain ⟨hfirst, heq⟩ := span_unique hvalue.first.2 hvalue'.first.2
    (not_isDigit_others radix value hk) (not_isDigit_others radix value' hk') h
  cases value with
  | series first rest =>
    cases value' with
    | series first' rest' =>
      obtain ⟨rfl, rfl⟩ := series_unique hvalue.2 hvalue'.2 hk hk' heq
      exact ⟨congrArg (series · rest) hfirst, rfl⟩
    | range first' last' => exact absurd heq (series_ne_hyphen hk _)
  | range first last =>
    cases value' with
    | series first' rest' => exact absurd heq.symm (series_ne_hyphen hk' _)
    | range first' last' =>
      simp only [others, List.cons_append, List.cons.injEq, true_and] at heq
      have hdigit : ∀ c ∈ stoppers, ¬ radix.IsDigit c := fun c hc =>
        radix.not_isDigit (List.mem_cons_of_mem _ (List.mem_cons_of_mem _ hc))
      obtain ⟨rfl, rfl⟩ := span_unique hvalue.2.2 hvalue'.2.2 (hk.not hdigit) (hk'.not hdigit) heq
      exact ⟨congrArg (range · last) hfirst, rfl⟩

end Numeral

def Uncounted (k : List Char) : Prop := ∀ c ∈ k.head?, ¬ IsDecimal c ∧ c ≠ '*'

theorem Count.unique {count count' : Count} {k k' : List Char} (hcount : count.WellFormed)
    (hcount' : count'.WellFormed) (hk : Uncounted k) (hk' : Uncounted k')
    (h : count.text ++ k = count'.text ++ k') : count = count' ∧ k = k' := by
  have hstar : ∀ k : List Char, ∀ c ∈ ('*' :: k).head?, ¬ IsDecimal c := by
    rintro k c hc
    cases hc
    decide
  cases count with
  | exactly digits =>
    cases count' with
    | exactly digits' =>
      obtain ⟨rfl, rfl⟩ := span_unique hcount.2 hcount'.2 (fun c hc => (hk c hc).1)
        (fun c hc => (hk' c hc).1) h
      exact ⟨rfl, rfl⟩
    | between least' most' =>
      simp only [text, List.append_assoc] at h
      obtain ⟨-, heq⟩ := span_unique hcount.2 hcount'.1 (fun c hc => (hk c hc).1) (hstar _) h
      exact absurd rfl (hk '*' (by simp [heq])).2
  | between least most =>
    simp only [text, List.append_assoc, List.cons_append] at h
    cases count' with
    | exactly digits' =>
      obtain ⟨-, heq⟩ := span_unique hcount.1 hcount'.2 (hstar _) (fun c hc => (hk' c hc).1) h
      exact absurd rfl ( hk' '*' (by simp [← heq])).2
    | between least' most' =>
      simp only [List.append_assoc, List.cons_append] at h
      obtain ⟨rfl, heq⟩ := span_unique hcount.1 hcount'.1 (hstar _) (hstar _) h
      simp only [List.cons.injEq, true_and] at heq
      obtain ⟨rfl, rfl⟩ := span_unique hcount.2 hcount'.2 (fun c hc => (hk c hc).1)
        (fun c hc => (hk' c hc).1) heq
      exact ⟨rfl, rfl⟩

theorem IsLetter.not_isDecimal {c : Char} (h : IsLetter c) : ¬ IsDecimal c := by
  simp only [IsLetter, IsDecimal, Char.le_def, UInt32.le_iff_toNat_le] at h ⊢
  simp only [Char.reduceVal, UInt32.reduceToNat] at h ⊢
  omega

theorem begins_of_isLetter {c : Char} (h : IsLetter c) (cs : List Char) :
    Begins (c :: cs) ∧ Uncounted (c :: cs) := by
  refine ⟨⟨c, cs, rfl, fun hc => ?_⟩, fun d hd => ?_⟩
  · have hall : ∀ c ∈ stoppers, ¬ IsLetter c := by decide
    exact hall c hc h
  · cases hd
    refine ⟨h.not_isDecimal, ?_⟩
    rintro rfl
    revert h
    decide

theorem Element.begins {element : Element} {cs : List Char} (h : element.Spelled cs) :
    Begins cs ∧ Uncounted cs := by
  have hmark : ∀ c : Char, c ∉ stoppers → ¬ IsDecimal c → c ≠ '*' → ∀ cs,
      Begins (c :: cs) ∧ Uncounted (c :: cs) := by
    intro c hstop hdecimal hstar cs
    refine ⟨⟨c, cs, rfl, hstop⟩, fun d hd => ?_⟩
    cases hd
    exact ⟨hdecimal, hstar⟩
  cases element with
  | name name =>
    obtain ⟨hname, rfl⟩ := h
    cases cs with
    | nil => exact absurd hname id
    | cons c cs => exact begins_of_isLetter hname.1 cs
  | group choice =>
    obtain ⟨gaps, inner, gaps', -, -, -, rfl⟩ := h
    exact hmark '(' (by decide) (by decide) (by decide) _
  | option choice =>
    obtain ⟨gaps, inner, gaps', -, -, -, rfl⟩ := h
    exact hmark '[' (by decide) (by decide) (by decide) _
  | quoted quotation text =>
    obtain ⟨-, opening, hopening, rfl⟩ := h
    cases quotation with
    | plain =>
      cases hopening
      exact hmark '"' (by decide) (by decide) (by decide) _
    | insensitive | sensitive =>
      rcases hopening with rfl | rfl <;> exact hmark '%' (by decide) (by decide) (by decide) _
  | numeral radix value =>
    obtain ⟨-, mark, -, rfl⟩ := h
    exact hmark '%' (by decide) (by decide) (by decide) _
  | prose text =>
    obtain ⟨-, rfl⟩ := h
    exact hmark '<' (by decide) (by decide) (by decide) _

/-- A count begins with a digit or a star. -/
theorem Count.head {count : Count} (h : count.WellFormed) :
    ∃ c cs, count.text = c :: cs ∧ (IsDecimal c ∨ c = '*') := by
  cases count with
  | exactly digits =>
    obtain ⟨c, digits, rfl⟩ := List.exists_cons_of_ne_nil h.1
    exact ⟨c, digits, rfl, Or.inl (h.2 c List.mem_cons_self)⟩
  | between least most =>
    cases least with
    | nil => exact ⟨'*', most, rfl, Or.inr rfl⟩
    | cons c least => exact ⟨c, _, rfl, Or.inl (h.1 c List.mem_cons_self)⟩

theorem Item.begins {item : Item} {cs : List Char} (h : item.Spelled cs) : Begins cs := by
  cases item with
  | once element => exact (Element.begins h).1
  | repeated count element =>
    obtain ⟨hcount, inner, -, rfl⟩ := h
    obtain ⟨c, digits, htext, hc⟩ := Count.head hcount
    have hall : ∀ c ∈ stoppers, ¬ IsDecimal c ∧ c ≠ '*' := by decide
    refine ⟨c, digits ++ inner, by rw [htext]; rfl, fun hmem => ?_⟩
    rcases hc with hc | rfl
    · exact (hall c hmem).1 hc
    · exact (hall _ hmem).2 rfl

theorem Row.begins {row : Row} {cs : List Char} (h : row.Spelled cs) : Begins cs := by
  cases row with
  | last item => exact Item.begins h
  | more item rest =>
    obtain ⟨first, gaps, others, hfirst, -, -, -, rfl⟩ := h
    exact ((Item.begins hfirst).append gaps).append others

theorem Choice.begins {choice : Choice} {cs : List Char} (h : choice.Spelled cs) : Begins cs := by
  cases choice with
  | last row => exact Row.begins h
  | more row rest =>
    obtain ⟨first, gaps, gaps', others, hfirst, -, -, -, rfl⟩ := h
    rw [List.append_assoc, List.append_assoc]
    exact (Row.begins hfirst).append _

inductive Kind where
  | name
  | group
  | option
  | quoted (quotation : Quotation)
  | numeral (radix : Radix)
  | prose
  | count

def Element.kind : Element → Kind
  | .name _ => .name
  | .group _ => .group
  | .option _ => .option
  | .quoted quotation _ => .quoted quotation
  | .numeral radix _ => .numeral radix
  | .prose _ => .prose

def kindOf : List Char → Kind
  | '(' :: _ => .group
  | '[' :: _ => .option
  | '"' :: _ => .quoted .plain
  | '<' :: _ => .prose
  | '%' :: mark :: _ =>
    if mark ∈ ['i', 'I'] then .quoted .insensitive
    else if mark ∈ ['s', 'S'] then .quoted .sensitive
    else if mark ∈ ['b', 'B'] then .numeral .binary
    else if mark ∈ ['d', 'D'] then .numeral .decimal
    else .numeral .hexadecimal
  | c :: _ => if IsLetter c then .name else .count
  | [] => .count

theorem kindOf_cons {c : Char} (hc : c ∉ ['(', '[', '"', '<', '%']) (cs : List Char) :
    kindOf (c :: cs) = if IsLetter c then .name else .count := by
  simp only [List.mem_cons, List.not_mem_nil, or_false, not_or] at hc
  rw [kindOf] <;> simp [hc]

theorem kindOf_eq_name {c : Char} (h : IsLetter c) (cs : List Char) : kindOf (c :: cs) = .name := by
  have hmarks : ∀ c ∈ ['(', '[', '"', '<', '%'], ¬ IsLetter c := by decide
  rw [kindOf_cons fun hc => hmarks c hc h, if_pos h]

theorem kindOf_eq_count {c : Char} (h : IsDecimal c ∨ c = '*') (cs : List Char) :
    kindOf (c :: cs) = .count := by
  have hmarks : ∀ c ∈ ['(', '[', '"', '<', '%'], ¬ (IsDecimal c ∨ c = '*') :=
    by decide
  rw [kindOf_cons fun hc => hmarks c hc h, if_neg]
  rcases h with h | rfl
  · exact fun hletter => hletter.not_isDecimal h
  · decide

theorem Element.kindOf_eq {element : Element} {cs : List Char} (h : element.Spelled cs)
    (k : List Char) : kindOf (cs ++ k) = element.kind := by
  cases element with
  | name name =>
    obtain ⟨hname, rfl⟩ := h
    cases cs with
    | nil => exact absurd hname id
    | cons c cs => exact kindOf_eq_name hname.1 _
  | group choice | option choice =>
    obtain ⟨gaps, inner, gaps', -, -, -, rfl⟩ := h
    rfl
  | quoted quotation text =>
    obtain ⟨-, opening, hopening, rfl⟩ := h
    cases quotation with
    | plain =>
      cases hopening
      rfl
    | insensitive | sensitive => rcases hopening with rfl | rfl <;> rfl
  | numeral radix value =>
    obtain ⟨-, mark, hmark, rfl⟩ := h
    cases radix <;> rcases hmark with rfl | rfl <;> rfl
  | prose text =>
    obtain ⟨-, rfl⟩ := h
    rfl

def Element.Unique (element : Element) : Prop := ∀ {element' : Element} {cs cs' k k' : List Char},
  element.Spelled cs → element'.Spelled cs' → Stops k → Stops k' → cs ++ k = cs' ++ k' →
    element = element' ∧ k = k'

def Item.Unique (item : Item) : Prop := ∀ {item' : Item} {cs cs' k k' : List Char},
  item.Spelled cs → item'.Spelled cs' → Stops k → Stops k' → cs ++ k = cs' ++ k' →
    item = item' ∧ k = k'

def Row.Unique (row : Row) : Prop := ∀ {row' : Row} {cs cs' k k' : List Char},
  row.Spelled cs → row'.Spelled cs' → Closes ('/' :: closers) k → Closes ('/' :: closers) k' →
    cs ++ k = cs' ++ k' → row = row' ∧ k = k'

def Choice.Unique (choice : Choice) : Prop := ∀ {choice' : Choice} {cs cs' k k' : List Char},
  choice.Spelled cs → choice'.Spelled cs' → Closes closers k → Closes closers k' →
    cs ++ k = cs' ++ k' → choice = choice' ∧ k = k'

/-- A choice between brackets, with gaps around it. -/
theorem Choice.Unique.bracketed {choice choice' : Choice} (hchoice : choice.Unique)
    {opening closing : Char} (hclosing : closing ∈ [')', ']']) {cs cs' k k' : List Char}
    (h : ∃ gaps inner gaps', Gaps gaps ∧ choice.Spelled inner ∧ Gaps gaps' ∧
      cs = opening :: (gaps ++ inner ++ gaps' ++ [closing]))
    (h' : ∃ gaps inner gaps', Gaps gaps ∧ choice'.Spelled inner ∧ Gaps gaps' ∧
      cs' = opening :: (gaps ++ inner ++ gaps' ++ [closing]))
    (heq : cs ++ k = cs' ++ k') : choice = choice' ∧ k = k' := by
  obtain ⟨gaps, inner, gaps', hgaps, hinner, hgaps', rfl⟩ := h
  obtain ⟨others, inner', others', hothers, hinner', hothers', rfl⟩ := h'
  have hgap : closing ∉ gapStarts :=
    (show ∀ c ∈ [')', ']'], c ∉ gapStarts by decide) closing hclosing
  have hcloses : closing ∈ closers := (show [')', ']'] ⊆ closers by decide) hclosing
  simp only [List.cons_append, List.append_assoc, List.nil_append, List.cons.injEq,
    true_and] at heq
  obtain ⟨-, heq⟩ := hgaps.unique hothers ((Choice.begins hinner).append _).noGap
    ((Choice.begins hinner').append _).noGap heq
  obtain ⟨rfl, heq⟩ := hchoice hinner hinner' (closes_of_gaps hgaps' hgap hcloses k)
    (closes_of_gaps hothers' hgap hcloses k') heq
  obtain ⟨-, heq⟩ := hgaps'.unique hothers' (noGap_cons hgap k) (noGap_cons hgap k') heq
  exact ⟨rfl, (List.cons_eq_cons.1 heq).2⟩

theorem Element.kind_eq {element element' : Element} {cs cs' k k' : List Char}
    (h : element.Spelled cs) (h' : element'.Spelled cs') (heq : cs ++ k = cs' ++ k') :
    element.kind = element'.kind := by
  rw [← Element.kindOf_eq h k, heq, Element.kindOf_eq h' k']

theorem IsName.chars {name : List Char} (h : IsName name) : ∀ c ∈ name, IsNameChar c := by
  intro c hc
  cases name with
  | nil => exact absurd h id
  | cons d name =>
    rcases List.mem_cons.1 hc with rfl | hc
    · exact Or.inl h.1
    · exact h.2 c hc

theorem Element.unique_name (name : List Char) : (Element.name name).Unique := by
  intro element' cs cs' k k' h h' hk hk' heq
  have hkind := Element.kind_eq h h' heq
  cases element' with
  | name name' =>
    have hstop : ∀ c ∈ stoppers, ¬ IsNameChar c := by decide
    obtain ⟨hname, rfl⟩ := h
    obtain ⟨hname', rfl⟩ := h'
    obtain ⟨rfl, rfl⟩ := span_unique hname.chars hname'.chars (hk.not hstop) (hk'.not hstop) heq
    exact ⟨rfl, rfl⟩
  | _ => cases hkind

theorem Element.unique_group {choice : Choice} (hchoice : choice.Unique) :
    (Element.group choice).Unique := by
  intro element' cs cs' k k' h h' hk hk' heq
  have hkind := Element.kind_eq h h' heq
  cases element' with
  | group choice' =>
    obtain ⟨rfl, rfl⟩ := hchoice.bracketed (by decide) h h' heq
    exact ⟨rfl, rfl⟩
  | _ => cases hkind

theorem Element.unique_option {choice : Choice} (hchoice : choice.Unique) :
    (Element.option choice).Unique := by
  intro element' cs cs' k k' h h' hk hk' heq
  have hkind := Element.kind_eq h h' heq
  cases element' with
  | option choice' =>
    obtain ⟨rfl, rfl⟩ := hchoice.bracketed (by decide) h h' heq
    exact ⟨rfl, rfl⟩
  | _ => cases hkind

theorem Quotation.Opens.length_eq {quotation : Quotation} {cs cs' : List Char}
    (h : quotation.Opens cs) (h' : quotation.Opens cs') : cs.length = cs'.length := by
  cases quotation with
  | plain => rw [h, h']
  | insensitive | sensitive => rcases h with rfl | rfl <;> rcases h' with rfl | rfl <;> rfl

theorem Element.unique_quoted (quotation : Quotation) (text : List Char) :
    (Element.quoted quotation text).Unique := by
  intro element' cs cs' k k' h h' hk hk' heq
  have hkind := Element.kind_eq h h' heq
  have hquote : ∀ rest : List Char, ∀ c ∈ ('"' :: rest).head?, ¬ IsQuotable c := by
    rintro rest c hc
    cases hc
    decide
  cases element' with
  | quoted quotation' text' =>
    cases hkind
    obtain ⟨htext, opening, hopening, rfl⟩ := h
    obtain ⟨htext', opening', hopening', rfl⟩ := h'
    simp only [List.append_assoc, List.cons_append, List.nil_append] at heq
    obtain ⟨rfl, hquoted⟩ := List.append_inj heq (hopening.length_eq hopening')
    obtain ⟨rfl, hrest⟩ := span_unique htext htext' (hquote _) (hquote _)
      (List.cons_eq_cons.1 hquoted).2
    exact ⟨rfl, (List.cons_eq_cons.1 hrest).2⟩
  | _ => cases hkind

theorem Element.unique_numeral (radix : Radix) (value : Numeral) :
    (Element.numeral radix value).Unique := by
  intro element' cs cs' k k' h h' hk hk' heq
  have hkind := Element.kind_eq h h' heq
  cases element' with
  | numeral radix' value' =>
    cases hkind
    obtain ⟨hvalue, mark, -, rfl⟩ := h
    obtain ⟨hvalue', mark', -, rfl⟩ := h'
    obtain ⟨rfl, rfl⟩ := Numeral.unique hvalue hvalue' hk hk'
      (List.cons_eq_cons.1 (List.cons_eq_cons.1 heq).2).2
    exact ⟨rfl, rfl⟩
  | _ => cases hkind

theorem Element.unique_prose (text : List Char) : (Element.prose text).Unique := by
  intro element' cs cs' k k' h h' hk hk' heq
  have hkind := Element.kind_eq h h' heq
  have hbracket : ∀ rest : List Char, ∀ c ∈ ('>' :: rest).head?, ¬ IsProse c := by
    rintro rest c hc
    cases hc
    decide
  cases element' with
  | prose text' =>
    obtain ⟨htext, rfl⟩ := h
    obtain ⟨htext', rfl⟩ := h'
    simp only [List.append_assoc, List.cons_append, List.nil_append] at heq
    obtain ⟨rfl, hrest⟩ := span_unique htext htext' (hbracket _) (hbracket _)
      (List.cons_eq_cons.1 heq).2
    exact ⟨rfl, (List.cons_eq_cons.1 hrest).2⟩
  | _ => cases hkind

theorem Count.kindOf_eq {count : Count} (h : count.WellFormed) (k : List Char) :
    kindOf (count.text ++ k) = .count := by
  obtain ⟨c, cs, htext, hc⟩ := count.head h
  rw [htext]
  exact kindOf_eq_count hc _

theorem Element.kind_ne_count (element : Element) : element.kind ≠ .count := by
  cases element <;> exact nofun

theorem Item.unique_once {element : Element} (helement : element.Unique) :
    (Item.once element).Unique := by
  intro item' cs cs' k k' h h' hk hk' heq
  cases item' with
  | once element' =>
    obtain ⟨rfl, rfl⟩ := helement h h' hk hk' heq
    exact ⟨rfl, rfl⟩
  | repeated count' element' =>
    obtain ⟨hcount', inner', -, rfl⟩ := h'
    have hkind := Element.kindOf_eq h k
    rw [heq, List.append_assoc, Count.kindOf_eq hcount'] at hkind
    exact absurd hkind.symm element.kind_ne_count

theorem Item.unique_repeated (count : Count) {element : Element} (helement : element.Unique) :
    (Item.repeated count element).Unique := by
  intro item' cs cs' k k' h h' hk hk' heq
  obtain ⟨hcount, inner, hinner, rfl⟩ := h
  cases item' with
  | once element' =>
    have hkind := Element.kindOf_eq h' k'
    rw [← heq, List.append_assoc, Count.kindOf_eq hcount] at hkind
    exact absurd hkind.symm element'.kind_ne_count
  | repeated count' element' =>
    obtain ⟨hcount', inner', hinner', rfl⟩ := h'
    have huncounted : ∀ {element : Element} {inner k : List Char}, element.Spelled inner →
        Uncounted (inner ++ k) := by
      intro element inner k hinner
      obtain ⟨⟨c, inner, rfl, -⟩, huncounted⟩ := Element.begins hinner
      exact huncounted
    rw [List.append_assoc, List.append_assoc] at heq
    obtain ⟨rfl, hrest⟩ := Count.unique hcount hcount' (huncounted hinner) (huncounted hinner') heq
    obtain ⟨rfl, rfl⟩ := helement hinner hinner' hk hk' hrest
    exact ⟨rfl, rfl⟩

theorem Row.unique_last {item : Item} (hitem : item.Unique) : (Row.last item).Unique := by
  intro row' cs cs' k k' h h' hk hk' heq
  cases row' with
  | last item' =>
    obtain ⟨rfl, rfl⟩ := hitem h h' hk.stops hk'.stops heq
    exact ⟨rfl, rfl⟩
  | more item' rest' =>
    obtain ⟨first', gaps', others', hfirst', hgaps', hne', hothers', rfl⟩ := h'
    rw [List.append_assoc, List.append_assoc] at heq
    obtain ⟨-, heq⟩ := hitem h hfirst' hk.stops (stops_of_gaps hgaps' hne' _) heq
    exact absurd heq (hk.ne_begins hgaps' (Row.begins hothers') (by decide) _)

theorem Row.unique_more {item : Item} {rest : Row} (hitem : item.Unique) (hrest : rest.Unique) :
    (Row.more item rest).Unique := by
  intro row' cs cs' k k' h h' hk hk' heq
  obtain ⟨first, gaps, others, hfirst, hgaps, hne, hothers, rfl⟩ := h
  cases row' with
  | last item' =>
    rw [List.append_assoc, List.append_assoc] at heq
    obtain ⟨-, heq⟩ := hitem hfirst h' (stops_of_gaps hgaps hne _) hk'.stops heq
    exact absurd heq.symm (hk'.ne_begins hgaps (Row.begins hothers) (by decide) _)
  | more item' rest' =>
    obtain ⟨first', gaps', others', hfirst', hgaps', hne', hothers', rfl⟩ := h'
    simp only [List.append_assoc] at heq
    obtain ⟨rfl, heq⟩ := hitem hfirst hfirst' (stops_of_gaps hgaps hne _)
      (stops_of_gaps hgaps' hne' _) heq
    obtain ⟨-, heq⟩ := hgaps.unique hgaps' ((Row.begins hothers).append _).noGap
      ((Row.begins hothers').append _).noGap heq
    obtain ⟨rfl, rfl⟩ := hrest hothers hothers' hk hk' heq
    exact ⟨rfl, rfl⟩

theorem closes_slash {gaps : List Char} (h : Gaps gaps) (k : List Char) :
    Closes ('/' :: closers) (gaps ++ '/' :: k) :=
  closes_of_gaps h (by decide) List.mem_cons_self k

theorem Choice.unique_last {row : Row} (hrow : row.Unique) : (Choice.last row).Unique := by
  intro choice' cs cs' k k' h h' hk hk' heq
  cases choice' with
  | last row' =>
    obtain ⟨rfl, rfl⟩ := hrow h h' (hk.mono (List.subset_cons_self _ _))
      (hk'.mono (List.subset_cons_self _ _)) heq
    exact ⟨rfl, rfl⟩
  | more row' rest' =>
    obtain ⟨first', gaps', spread', others', hfirst', hgaps', -, -, rfl⟩ := h'
    simp only [List.append_assoc, List.cons_append] at heq
    obtain ⟨-, heq⟩ := hrow h hfirst' (hk.mono (List.subset_cons_self _ _))
      (closes_slash hgaps' _) heq
    exact absurd heq (hk.ne hgaps' (noGap_cons (by decide) _) (by decide))

theorem Choice.unique_more {row : Row} {rest : Choice} (hrow : row.Unique) (hrest : rest.Unique) :
    (Choice.more row rest).Unique := by
  intro choice' cs cs' k k' h h' hk hk' heq
  obtain ⟨first, gaps, spread, others, hfirst, hgaps, hspread, hothers, rfl⟩ := h
  simp only [List.append_assoc, List.cons_append] at heq
  cases choice' with
  | last row' =>
    obtain ⟨-, heq⟩ := hrow hfirst h' (closes_slash hgaps _)
      (hk'.mono (List.subset_cons_self _ _)) heq
    exact absurd heq.symm (hk'.ne hgaps (noGap_cons (by decide) _) (by decide))
  | more row' rest' =>
    obtain ⟨first', gaps', spread', others', hfirst', hgaps', hspread', hothers', rfl⟩ := h'
    simp only [List.append_assoc, List.cons_append] at heq
    obtain ⟨rfl, heq⟩ := hrow hfirst hfirst' (closes_slash hgaps _) (closes_slash hgaps' _) heq
    obtain ⟨-, heq⟩ := hgaps.unique hgaps' (noGap_cons (by decide) _) (noGap_cons (by decide) _) heq
    obtain ⟨-, heq⟩ := hspread.unique hspread' ((Choice.begins hothers).append _).noGap
      ((Choice.begins hothers').append _).noGap (List.cons_eq_cons.1 heq).2
    obtain ⟨rfl, rfl⟩ := hrest hothers hothers' hk hk' heq
    exact ⟨rfl, rfl⟩

mutual
theorem Element.unique : (element : Element) → element.Unique
  | .name name => Element.unique_name name
  | .group choice => Element.unique_group choice.unique
  | .option choice => Element.unique_option choice.unique
  | .quoted quotation text => Element.unique_quoted quotation text
  | .numeral radix value => Element.unique_numeral radix value
  | .prose text => Element.unique_prose text

theorem Item.unique : (item : Item) → item.Unique
  | .once element => Item.unique_once element.unique
  | .repeated count element => Item.unique_repeated count element.unique

theorem Row.unique : (row : Row) → row.Unique
  | .last item => Row.unique_last item.unique
  | .more item rest => Row.unique_more item.unique rest.unique

theorem Choice.unique : (choice : Choice) → choice.Unique
  | .last row => Choice.unique_last row.unique
  | .more row rest => Choice.unique_more row.unique rest.unique
end

theorem LineEnd.noGap {line k : List Char} (h : LineEnd line) (hk : ∀ c ∈ k.head?, ¬ IsSpace c) :
    NoGap (line ++ k) := by
  rintro gap rest ⟨line', c, hline', hc, rfl⟩ heq
  rw [List.append_assoc] at heq
  rcases hline' with rfl | hline'
  · exact h.ne_space hc heq.symm
  · obtain ⟨-, rfl⟩ := h.unique hline' heq
    exact hk c rfl hc

theorem LineEnd.head_append {line : List Char} (h : LineEnd line) (k : List Char) :
    ∀ c ∈ (line ++ k).head?, ¬ IsSpace c := by
  intro c hc
  obtain ⟨d, line, rfl, hd⟩ := h.head
  cases hc
  rcases hd with rfl | rfl <;> decide

theorem Rule.Spelled.head {rule : Rule} {cs : List Char} (h : rule.Spelled cs) :
    ∃ c rest, cs = c :: rest ∧ IsLetter c := by
  obtain ⟨hname, gaps, gaps', inner, gaps'', line, -, -, -, -, -, rfl⟩ := h
  obtain ⟨name, incremental, body⟩ := rule
  cases name with
  | nil => exact absurd hname id
  | cons c name => exact ⟨c, _, rfl, hname.1⟩

theorem closes_of_lineEnd {gaps line k : List Char} (hgaps : Gaps gaps) (hline : LineEnd line)
    (hk : ∀ c ∈ k.head?, ¬ IsSpace c) : Closes closers (gaps ++ (line ++ k)) := by
  obtain ⟨c, rest, rfl, hc⟩ := hline.head
  refine ⟨gaps, c, rest ++ k, hgaps, rfl, hline.noGap hk, ?_⟩
  rcases hc with rfl | rfl <;> decide

/-- What follows the body of a rule ends it. -/
theorem Listing.closes {rules : List Rule} {gaps line k : List Char} (hgaps : Gaps gaps)
    (hline : LineEnd line) (h : Listing rules k) : Closes closers (gaps ++ (line ++ k)) := by
  induction h generalizing gaps line with
  | nil => exact closes_of_lineEnd hgaps hline (by simp)
  | rule hfirst _ _ =>
    refine closes_of_lineEnd hgaps hline fun c hc => ?_
    obtain ⟨d, rest, rfl, hd⟩ := hfirst.head
    cases hc
    rintro (rfl | rfl) <;> revert hd <;> decide
  | @blank rules gaps' line' rest hgaps' hline' _ ih =>
    cases hgaps' with
    | nil => exact closes_of_lineEnd hgaps hline (hline'.head_append rest)
    | @cons gap others hgap hothers =>
      obtain ⟨line'', c, rfl | hline'', hc, rfl⟩ := hgap
      · have hall := ih ((hgaps.append (.cons ⟨line, c, Or.inr hline, hc, rfl⟩ hothers))) hline'
        simpa using hall
      · simp only [List.append_assoc]
        exact closes_of_lineEnd hgaps hline (hline''.head_append _)

theorem Rule.sign_unique {rule rule' : Rule} {k k' : List Char} (hk : k.head? ≠ some '/')
    (hk' : k'.head? ≠ some '/') (h : rule.sign ++ k = rule'.sign ++ k') :
    rule.incremental = rule'.incremental ∧ k = k' := by
  cases hrule : rule.incremental <;> cases hrule' : rule'.incremental <;>
    simp [sign, hrule, hrule'] at h ⊢
  · exact h
  · exact absurd (by rw [h]; rfl) hk
  · exact absurd (by rw [← h]; rfl) hk'
  · exact h

theorem Gaps.head_append {gaps k : List Char} (h : Gaps gaps) :
    ∀ c ∈ (gaps ++ k).head?, c ∈ gapStarts ∨ c ∈ k.head? := by
  intro c hc
  cases gaps with
  | nil => exact Or.inr hc
  | cons d gaps => exact Or.inl (h.head c hc)

/-- A rule in front of a list, and the list that is left with the end of its last line. -/
theorem Rule.Spelled.unique {rule rule' : Rule} {rules rules' : List Rule}
    {cs cs' k k' : List Char} (h : rule.Spelled cs) (h' : rule'.Spelled cs')
    (hk : Listing rules k) (hk' : Listing rules' k') (heq : cs ++ k = cs' ++ k') :
    rule = rule' ∧ ∃ others, others.length < (cs ++ k).length ∧ Listing rules others ∧
      Listing rules' others := by
  have hsign : ∀ (rule : Rule) (k : List Char), ∃ rest, rule.sign ++ k = '=' :: rest := by
    intro rule k
    rw [sign]
    split
    case isTrue => exact ⟨_, rfl⟩
    case isFalse => exact ⟨_, rfl⟩
  have hnoGap : ∀ (rule : Rule) (k : List Char), NoGap (rule.sign ++ k) := by
    intro rule k
    obtain ⟨rest, hrest⟩ := hsign rule k
    rw [hrest]
    exact noGap_cons (by decide) _
  have hchar : ∀ {gaps : List Char} (rule : Rule) (k : List Char), Gaps gaps →
      ∀ c ∈ (gaps ++ (rule.sign ++ k)).head?, ¬ IsNameChar c := by
    intro gaps rule k hgaps c hc
    obtain ⟨rest, hrest⟩ := hsign rule k
    rcases hgaps.head_append c hc with hmem | hmem
    · exact (show ∀ c ∈ gapStarts, ¬ IsNameChar c by decide) c hmem
    · rw [hrest] at hmem
      cases hmem
      decide
  have hslash : ∀ {gaps k : List Char}, Gaps gaps → Begins k → (gaps ++ k).head? ≠ some '/' := by
    rintro gaps k hgaps ⟨c, k, rfl, hc⟩ hhead
    rcases hgaps.head_append '/' hhead with hmem | hmem
    · exact absurd hmem (by decide)
    · cases hmem
      exact hc (by decide)
  obtain ⟨hname, gaps, spread, inner, after, line, hgaps, hspread, hinner, hafter, hline, rfl⟩ := h
  obtain ⟨hname', gaps', spread', inner', after', line', hgaps', hspread', hinner', hafter',
    hline', rfl⟩ := h'
  have hlength : rule.name.length ≠ 0 := by
    intro hzero
    rw [List.length_eq_zero_iff.1 hzero] at hname
    exact hname
  have hbody := (Choice.begins hinner).append (after ++ (line ++ k))
  have hbody' := (Choice.begins hinner').append (after' ++ (line' ++ k'))
  simp only [List.append_assoc] at heq
  -- Each part of the rule is cut off where the character after it cannot belong to it.
  obtain ⟨hname, heq⟩ := span_unique hname.chars hname'.chars (hchar rule _ hgaps)
    (hchar rule' _ hgaps') heq
  obtain ⟨-, heq⟩ := hgaps.unique hgaps' (hnoGap rule _) (hnoGap rule' _) heq
  obtain ⟨hincremental, heq⟩ := sign_unique (hslash hspread hbody) (hslash hspread' hbody') heq
  obtain ⟨-, heq⟩ := hspread.unique hspread' hbody.noGap hbody'.noGap heq
  obtain ⟨hbody, heq⟩ := Choice.unique _ hinner hinner' (hk.closes hafter hline)
    (hk'.closes hafter' hline') heq
  refine ⟨?_, after ++ line ++ k, ?_, .blank hafter hline hk, ?_⟩
  · obtain ⟨name, incremental, body⟩ := rule
    simp_all
  · simp only [List.length_append]
    omega
  · rw [List.append_assoc, heq, ← List.append_assoc]
    exact .blank hafter' hline' hk'

def Blank (cs : List Char) : Prop := LineEnd cs ∨ ∃ c, IsSpace c ∧ cs = [c]

theorem Blank.unique {xs ys k k' : List Char} (hxs : Blank xs) (hys : Blank ys)
    (h : xs ++ k = ys ++ k') : xs = ys ∧ k = k' := by
  rcases hxs with hline | ⟨c, hc, rfl⟩ <;> rcases hys with hline' | ⟨c', hc', rfl⟩
  · exact hline.unique hline' h
  · exact absurd h.symm (hline.ne_space hc')
  · exact absurd h (hline'.ne_space hc)
  · simpa using h

theorem Blank.head {cs : List Char} (h : Blank cs) :
    ∃ c rest, cs = c :: rest ∧ ¬ IsLetter c := by
  rcases h with hline | ⟨c, hc, rfl⟩
  · obtain ⟨c, rest, rfl, hc⟩ := hline.head
    exact ⟨c, rest, rfl, by rcases hc with rfl | rfl <;> decide⟩
  · exact ⟨c, [], rfl, by rcases hc with rfl | rfl <;> decide⟩

/-- How a list of rules begins. -/
theorem Listing.cases_head {rules : List Rule} {cs : List Char} (h : Listing rules cs) :
    (rules = [] ∧ cs = []) ∨
    (∃ rule others first rest, rules = rule :: others ∧ cs = first ++ rest ∧ rule.Spelled first ∧
      Listing others rest) ∨
    ∃ blank rest, Blank blank ∧ cs = blank ++ rest ∧ Listing rules rest := by
  cases h with
  | nil => exact Or.inl ⟨rfl, rfl⟩
  | rule hfirst hrest => exact Or.inr (Or.inl ⟨_, _, _, _, rfl, rfl, hfirst, hrest⟩)
  | @blank _ gaps line rest hgaps hline hrest =>
    refine Or.inr (Or.inr ?_)
    cases hgaps with
    | nil => exact ⟨line, rest, Or.inl hline, rfl, hrest⟩
    | @cons gap gaps hgap hgaps =>
      have htail := Listing.blank hgaps hline hrest
      obtain ⟨line', c, rfl | hline', hc, rfl⟩ := hgap
      · exact ⟨[c], gaps ++ line ++ rest, Or.inr ⟨c, hc, rfl⟩, by simp, htail⟩
      · have hgap : Gap [c] := ⟨[], c, Or.inl rfl, hc, rfl⟩
        exact ⟨line', [c] ++ gaps ++ line ++ rest, Or.inl hline', by simp,
          .blank (.cons hgap hgaps) hline hrest⟩

theorem Blank.ne_rule {blank first rest rest' : List Char} {rule : Rule} (h : Blank blank)
    (hfirst : rule.Spelled first) : blank ++ rest ≠ first ++ rest' := by
  intro heq
  obtain ⟨c, blank, rfl, hc⟩ := h.head
  obtain ⟨d, first, rfl, hd⟩ := hfirst.head
  obtain ⟨rfl, -⟩ := List.cons_eq_cons.1 heq
  exact hc hd

/-- No text spells two lists of rules. -/
theorem Listing.unique {rules rules' : List Rule} {cs : List Char} (h : Listing rules cs)
    (h' : Listing rules' cs) : rules = rules' := by
  induction hlength : cs.length using Nat.strongRecOn generalizing rules rules' cs with
  | ind n ih =>
    subst hlength
    rcases h.cases_head with ⟨rfl, rfl⟩ | ⟨rule, others, first, rest, rfl, rfl, hfirst, hrest⟩ |
      ⟨blank, rest, hblank, rfl, hrest⟩
    · rcases h'.cases_head with ⟨rfl, -⟩ | ⟨rule', others', first', rest', -, heq, hfirst', -⟩ |
        ⟨blank', rest', hblank', heq, -⟩
      · rfl
      · obtain ⟨c, first', rfl, -⟩ := hfirst'.head
        cases heq
      · obtain ⟨c, blank', rfl, -⟩ := hblank'.head
        cases heq
    · rcases h'.cases_head with ⟨-, heq⟩ | ⟨rule', others', first', rest', rfl, heq, hfirst', hrest'⟩ |
        ⟨blank', rest', hblank', heq, -⟩
      · obtain ⟨c, first, rfl, -⟩ := hfirst.head
        cases heq
      · obtain ⟨rfl, between, hshort, hbetween, hbetween'⟩ :=
          hfirst.unique hfirst' hrest hrest' heq
        rw [ih _ hshort hbetween hbetween' rfl]
      · exact absurd heq.symm (hblank'.ne_rule hfirst)
    · rcases h'.cases_head with ⟨-, heq⟩ | ⟨rule', others', first', rest', -, heq, hfirst', -⟩ |
        ⟨blank', rest', hblank', heq, hrest'⟩
      · obtain ⟨c, blank, rfl, -⟩ := hblank.head
        cases heq
      · exact absurd heq (hblank.ne_rule hfirst')
      · obtain ⟨rfl, rfl⟩ := hblank.unique hblank' heq
        obtain ⟨c, blank, rfl, -⟩ := hblank.head
        exact ih rest.length (by rw [List.length_append, List.length_cons]; omega) hrest hrest' rfl

end Metasyntax.Notation
