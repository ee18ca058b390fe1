import Metasyntax.Proofs.Acceptance

/-!
# Languages that include others

One set of written rules accepts what another accepts when each body of the other, its
names replaced by what stands for them here, is accepted under its name here. Between
bodies that differ only in the order of alternatives and in brackets around parts of a
sequence, this is decided by looking at the bodies.
-/

set_option autoImplicit false

namespace Metasyntax

namespace Expression

section
variable (meaning : String → Expression)

mutual
def subst : Expression → Expression
  | .literal terminal => .literal terminal
  | .name called => meaning called
  | .choice branches => .choice (substAll branches)
  | .sequence items => .sequence (substAll items)
  | .repeated bounds element => .repeated bounds (subst element)
  | .optional element => .optional (subst element)
  | .prose text => .prose text

def substAll : List Expression → List Expression
  | [] => []
  | expression :: rest => subst expression :: substAll rest
end

theorem mem_substAll {expression : Expression} {expressions : List Expression}
    (h : expression ∈ expressions) : expression.subst meaning ∈ substAll meaning expressions := by
  induction expressions with
  | nil => cases h
  | cons first rest ih =>
    rw [substAll]
    rcases List.mem_cons.1 h with rfl | h
    · exact List.mem_cons_self
    · exact List.mem_cons_of_mem _ (ih h)

theorem substAll_replicate (count : Nat) (element : Expression) :
    substAll meaning (List.replicate count element) =
      List.replicate count (element.subst meaning) := by
  induction count with
  | zero => rfl
  | succ count ih => rw [List.replicate_succ, substAll, ih, List.replicate_succ]

end

def items : Expression → List Expression
  | .sequence items => items
  | other => [other]

mutual
def flat : Expression → Expression
  | .literal terminal => .literal terminal
  | .name called => .name called
  | .choice branches => .choice (flatEach branches)
  | .sequence items => .sequence (flatItems items)
  | .repeated bounds element => .repeated bounds (flat element)
  | .optional element => .optional (flat element)
  | .prose text => .prose text

def flatEach : List Expression → List Expression
  | [] => []
  | expression :: rest => flat expression :: flatEach rest

def flatItems : List Expression → List Expression
  | [] => []
  | item :: rest => (flat item).items ++ flatItems rest
end

mutual
def within : Expression → Expression → Bool
  | .literal terminal, .literal terminal' => terminal = terminal'
  | .name called, .name called' => called = called'
  | .choice branches, .choice branches' => someWithin branches branches'
  | .sequence items, .sequence items' => eachWithin items items'
  | .repeated bounds element, .repeated bounds' element' =>
    bounds = bounds' && within element element'
  | .optional element, .optional element' => within element element'
  | _, _ => false

def someWithin : List Expression → List Expression → Bool
  | [], _ => true
  | branch :: rest, others => others.any (within branch ·) && someWithin rest others

def eachWithin : List Expression → List Expression → Bool
  | [], [] => true
  | item :: rest, item' :: rest' => within item item' && eachWithin rest rest'
  | _, _ => false
end

end Expression

section
variable {rules rules' : Ruleset}

theorem accepts_append_iff {items items' : List Expression} {cs : List Char} :
    Accepts rules (.sequence (items ++ items')) cs ↔ ∃ xs ys, cs = xs ++ ys ∧
      Accepts rules (.sequence items) xs ∧ Accepts rules (.sequence items') ys := by
  induction items generalizing cs with
  | nil => simp [accepts_nil_iff]
  | cons item items ih =>
    rw [List.cons_append, accepts_cons_iff]
    constructor
    · rintro ⟨xs, ys, rfl, hitem, hrest⟩
      obtain ⟨ys, zs, rfl, hitems, hothers⟩ := ih.1 hrest
      exact ⟨xs ++ ys, zs, (List.append_assoc ..).symm, accepts_cons_iff.2 ⟨xs, ys, rfl, hitem,
        hitems⟩, hothers⟩
    · rintro ⟨_, zs, rfl, hitems, hothers⟩
      obtain ⟨xs, ys, rfl, hitem, hitems⟩ := accepts_cons_iff.1 hitems
      exact ⟨xs, ys ++ zs, List.append_assoc .., hitem, ih.2 ⟨ys, zs, rfl, hitems, hothers⟩⟩

theorem accepts_items_iff {expression : Expression} {cs : List Char} :
    Accepts rules (.sequence expression.items) cs ↔ Accepts rules expression cs := by
  cases expression with
  | sequence items => exact Iff.rfl
  | _ => exact accepts_last_iff

theorem accepts_sequence_congr {item item' : Expression} {items items' : List Expression}
    (hitem : ∀ cs, Accepts rules item cs → Accepts rules' item' cs)
    (hitems : ∀ cs, Accepts rules (.sequence items) cs → Accepts rules' (.sequence items') cs)
    {cs : List Char} (h : Accepts rules (.sequence (item :: items)) cs) :
    Accepts rules' (.sequence (item' :: items')) cs := by
  obtain ⟨xs, ys, rfl, hxs, hys⟩ := accepts_cons_iff.1 h
  exact accepts_cons_iff.2 ⟨xs, ys, rfl, hitem xs hxs, hitems ys hys⟩

theorem accepts_repeated_congr {element element' : Expression}
    (h : ∀ cs, Accepts rules element cs → Accepts rules' element' cs) {bounds : Bounds}
    {cs : List Char} (hcs : Accepts rules (.repeated bounds element) cs) :
    Accepts rules' (.repeated bounds element') cs := by
  obtain ⟨parts, hmin, hmax, hparts, rfl⟩ := accepts_repeated_iff.1 hcs
  exact accepts_repeated_iff.2
    ⟨parts, hmin, hmax, fun part hpart => h part (hparts part hpart), rfl⟩

theorem accepts_optional_congr {element element' : Expression}
    (h : ∀ cs, Accepts rules element cs → Accepts rules' element' cs) {cs : List Char}
    (hcs : Accepts rules (.optional element) cs) : Accepts rules' (.optional element') cs :=
  accepts_optional_iff.2 ((accepts_optional_iff.1 hcs).imp_right (h cs))

mutual
/-- Brackets around parts of sequences make no difference. -/
theorem accepts_flat_iff (expression : Expression) {cs : List Char} :
    Accepts rules expression.flat cs ↔ Accepts rules expression cs := by
  cases expression with
  | literal terminal => exact Iff.rfl
  | name called => exact Iff.rfl
  | prose text => exact Iff.rfl
  | choice branches =>
    rw [Expression.flat, accepts_choice_iff, accepts_choice_iff]
    exact exists_accepts_flatEach_iff branches
  | sequence items =>
    rw [Expression.flat]
    exact accepts_flatItems_iff items
  | repeated bounds element =>
    rw [Expression.flat]
    exact ⟨accepts_repeated_congr fun cs => (accepts_flat_iff element).1,
      accepts_repeated_congr fun cs => (accepts_flat_iff element).2⟩
  | optional element =>
    rw [Expression.flat, accepts_optional_iff, accepts_optional_iff, accepts_flat_iff element]

theorem exists_accepts_flatEach_iff (branches : List Expression) {cs : List Char} :
    (∃ branch ∈ Expression.flatEach branches, Accepts rules branch cs) ↔
      ∃ branch ∈ branches, Accepts rules branch cs := by
  cases branches with
  | nil => rw [Expression.flatEach]
  | cons branch rest =>
    rw [Expression.flatEach, List.exists_mem_cons_iff, List.exists_mem_cons_iff,
      accepts_flat_iff branch, exists_accepts_flatEach_iff rest]

theorem accepts_flatItems_iff (items : List Expression) {cs : List Char} :
    Accepts rules (.sequence (Expression.flatItems items)) cs ↔
      Accepts rules (.sequence items) cs := by
  cases items with
  | nil => rw [Expression.flatItems]
  | cons item rest =>
    simp only [Expression.flatItems, accepts_append_iff, accepts_items_iff, accepts_cons_iff,
      accepts_flat_iff item, accepts_flatItems_iff rest]
end

mutual
/-- What is seen to be within another expression accepts no other texts. -/
theorem accepts_of_within (expression : Expression) {expression' : Expression}
    (h : expression.within expression' = true) {cs : List Char}
    (hcs : Accepts rules expression cs) : Accepts rules expression' cs := by
  cases expression with
  | literal terminal =>
    cases expression' <;> simp only [Expression.within, decide_eq_true_eq, reduceCtorEq] at h
    exact h ▸ hcs
  | name called =>
    cases expression' <;> simp only [Expression.within, decide_eq_true_eq, reduceCtorEq] at h
    exact h ▸ hcs
  | prose text => cases expression' <;> simp [Expression.within] at h
  | choice branches =>
    cases expression' <;> simp only [Expression.within, reduceCtorEq] at h
    obtain ⟨branch, hbranch, hcs⟩ := accepts_choice_iff.1 hcs
    exact accepts_choice_iff.2 (accepts_of_someWithin branches h ⟨branch, hbranch, hcs⟩)
  | sequence items =>
    cases expression' <;> simp only [Expression.within, reduceCtorEq] at h
    exact accepts_of_eachWithin items h hcs
  | repeated bounds element =>
    cases expression' <;>
      simp only [Expression.within, Bool.and_eq_true, decide_eq_true_eq, reduceCtorEq] at h
    exact h.1 ▸ accepts_repeated_congr (fun cs => accepts_of_within element h.2) hcs
  | optional element =>
    cases expression' <;> simp only [Expression.within, reduceCtorEq] at h
    exact accepts_optional_congr (fun cs => accepts_of_within element h) hcs

theorem accepts_of_someWithin (branches : List Expression) {branches' : List Expression}
    (h : Expression.someWithin branches branches' = true) {cs : List Char}
    (hcs : ∃ branch ∈ branches, Accepts rules branch cs) :
    ∃ branch ∈ branches', Accepts rules branch cs := by
  cases branches with
  | nil => simp at hcs
  | cons branch rest =>
    simp only [Expression.someWithin, Bool.and_eq_true, List.any_eq_true] at h
    obtain ⟨⟨branch', hbranch', hwithin⟩, hrest⟩ := h
    rcases (List.exists_mem_cons_iff ..).1 hcs with hcs | hcs
    · exact ⟨branch', hbranch', accepts_of_within branch hwithin hcs⟩
    · exact accepts_of_someWithin rest hrest hcs

theorem accepts_of_eachWithin (items : List Expression) {items' : List Expression}
    (h : Expression.eachWithin items items' = true) {cs : List Char}
    (hcs : Accepts rules (.sequence items) cs) : Accepts rules (.sequence items') cs := by
  cases items with
  | nil =>
    cases items' <;> simp only [Expression.eachWithin, reduceCtorEq] at h
    exact hcs
  | cons item rest =>
    cases items' <;> simp only [Expression.eachWithin, Bool.and_eq_true, reduceCtorEq] at h
    exact accepts_sequence_congr (fun cs => accepts_of_within item h.1)
      (fun cs => accepts_of_eachWithin rest h.2) hcs
end

theorem accepts_of_flat_within {expression expression' : Expression}
    (h : expression.flat.within expression'.flat = true) {cs : List Char}
    (hcs : Accepts rules expression cs) : Accepts rules expression' cs :=
  (accepts_flat_iff expression').1
    (accepts_of_within _ h ((accepts_flat_iff expression).2 hcs))

/-- A text that some rules yield is accepted by others under a translation of the names, if
each body is accepted under what stands for its name. Only texts with a property that their
parts have too need be considered. -/
theorem Yields.accepts_subst {meaning : String → Expression} {P : List Char → Prop}
    (hP : ∀ xs ys, P (xs ++ ys) → P xs ∧ P ys)
    (hrules : ∀ name body, rules.lookup name = some body → ∀ cs, P cs →
      Accepts rules' (body.subst meaning) cs → Accepts rules' (meaning name) cs)
    {expression : Expression} {cs : List Char} {nodes : List Node}
    (h : Yields rules expression cs nodes) (hcs : P cs) :
    Accepts rules' (expression.subst meaning) cs := by
  induction h with
  | literal offset hconsume => exact accepts_literal_iff.2 hconsume
  | name hlookup _ ih => exact hrules _ _ hlookup _ hcs (ih hcs)
  | choice hmem _ ih =>
    exact accepts_choice_iff.2 ⟨_, Expression.mem_substAll meaning hmem, ih hcs⟩
  | nil => exact accepts_nil_iff.2 rfl
  | cons _ _ ih ih' =>
    obtain ⟨hxs, hys⟩ := hP _ _ hcs
    have hrest := ih' hys
    rw [Expression.subst] at hrest ⊢
    exact accepts_cons_iff.2 ⟨_, _, rfl, ih hxs, hrest⟩
  | repeated count hmin hmax _ ih =>
    have hall := ih hcs
    rw [Expression.subst, Expression.substAll_replicate] at hall
    obtain ⟨nodes, hall⟩ := hall
    exact ⟨nodes, .repeated count hmin hmax hall⟩
  | skipped => exact accepts_optional_iff.2 (Or.inl rfl)
  | optional _ ih => exact accepts_optional_iff.2 (Or.inr (ih hcs))

def Ruleset.into (rules rules' : Ruleset) (rename : String → String) (apart : List String) : Bool :=
  rules.all fun (name, body) => apart.contains name ||
    (rules'.lookup (rename name)).any fun body' =>
      (body.subst fun called => .name (rename called)).flat.within body'.flat

/-- Rules that are within others accept no other texts under their names, if those that are set
apart do not. -/
theorem Ruleset.accepts_of_into {rename : String → String} {apart : List String}
    (h : rules.into rules' rename apart = true) {P : List Char → Prop}
    (hP : ∀ xs ys, P (xs ++ ys) → P xs ∧ P ys)
    (hapart : ∀ name ∈ apart, ∀ body, rules.lookup name = some body → ∀ cs, P cs →
      Accepts rules' (body.subst fun called => .name (rename called)) cs →
        Accepts rules' (.name (rename name)) cs)
    {name : String} {cs : List Char} (hcs : P cs) (haccepts : Accepts rules (.name name) cs) :
    Accepts rules' (.name (rename name)) cs := by
  obtain ⟨nodes, hyields⟩ := haccepts
  change Accepts rules' ((Expression.name name).subst fun called => .name (rename called)) cs
  refine hyields.accepts_subst hP (fun name body hlookup cs hcs hbody => ?_) hcs
  have hmem : (name, body) ∈ rules := by
    obtain ⟨before, after, rfl, -⟩ := List.lookup_eq_some_iff.1 hlookup
    simp
  rcases Bool.or_eq_true_iff.1 (List.all_eq_true.1 h _ hmem) with hname | hwithin
  · exact hapart name (List.contains_iff_mem.1 hname) body hlookup cs hcs hbody
  · obtain ⟨body', hlookup', hwithin⟩ := (Option.any_eq_true _ _).1 hwithin
    exact (accepts_name_iff hlookup').2 (accepts_of_flat_within hwithin hbody)

end

end Metasyntax
