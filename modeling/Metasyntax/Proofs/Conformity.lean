import Metasyntax.Proofs.Advance
import Metasyntax.Proofs.Derivations
import Metasyntax.Proofs.Yields

/-!
# Parsers that conform to expressions

A parser fits an expression when it has its shape, each of its choices tries all
alternatives, and its references lead to rules of the names written, in some grammars. What such
parsers match is what the expressions yield.
-/

set_option autoImplicit false

namespace Metasyntax

namespace Catalog

def Has (catalog : Catalog) (home : Set GrammarId) (rule : RuleId) : Prop :=
  rule.grammar ∈ home ∧ (catalog.definition? rule).isSome

instance (catalog : Catalog) (home : Set GrammarId) [DecidablePred (· ∈ home)] (rule : RuleId) :
    Decidable (catalog.Has home rule) :=
  inferInstanceAs (Decidable (_ ∧ _))

end Catalog

namespace Standard

def grammars : Set GrammarId := {.core, .abnf}

instance : DecidablePred (· ∈ grammars) := fun id =>
  inferInstanceAs (Decidable (id = .core ∨ id = .abnf))

end Standard

section
variable (catalog : Catalog) (home : Set GrammarId) [DecidablePred (· ∈ home)]

mutual
def Expression.fits : Expression → Parser → Bool
  | .literal terminal, .literal terminal' => terminal = terminal' ∧ terminal.pattern ≠ .text ""
  | .name called, .rule ref => catalog.Has home ref.target ∧ catalog.nameOf ref.target = called
  | .choice branches, .alternation mode parsers =>
    !catalog.firstMatch mode && fitsAll branches parsers
  | .sequence items, .concatenation parsers => fitsAll items parsers
  | .repeated bounds element, .repetition _ bounds' parser =>
    (bounds = bounds' && bounds.max.all (bounds.min ≤ ·)) && element.fits parser
  | .optional element, .optional _ parser => element.fits parser
  | _, _ => false

def Expression.fitsAll : List Expression → List Parser → Bool
  | [], [] => true
  | expression :: expressions, parser :: parsers =>
    expression.fits parser && fitsAll expressions parsers
  | _, _ => false
end

end

namespace Expression

variable {catalog : Catalog} {home : Set GrammarId} [DecidablePred (· ∈ home)]

mutual
/-- Every part of a parser that fits an expression fits one. -/
theorem exists_fits_of_mem_walk (parser : Parser) {expression : Expression}
    (h : expression.fits catalog home parser = true) :
    ∀ node ∈ parser.walk, ∃ part, Expression.fits catalog home part node = true := by
  intro node hnode
  cases parser with
  | literal terminal | rule ref | prose text =>
    simp only [Parser.walk, List.mem_singleton] at hnode
    exact ⟨expression, hnode ▸ h⟩
  | alternation mode branches =>
    rcases List.mem_cons.1 (by simpa only [Parser.walk] using hnode) with rfl | hnode
    · exact ⟨expression, h⟩
    · cases expression <;> simp [fits] at h
      exact exists_fits_of_mem_walkAll branches h.2 node hnode
  | concatenation parts =>
    rcases List.mem_cons.1 (by simpa only [Parser.walk] using hnode) with rfl | hnode
    · exact ⟨expression, h⟩
    · cases expression <;> simp [fits] at h
      exact exists_fits_of_mem_walkAll parts h node hnode
  | optional cache element =>
    rcases List.mem_cons.1 (by simpa only [Parser.walk] using hnode) with rfl | hnode
    · exact ⟨expression, h⟩
    · cases expression <;> simp [fits] at h
      exact exists_fits_of_mem_walk element h node hnode
  | repetition cache bounds element =>
    rcases List.mem_cons.1 (by simpa only [Parser.walk] using hnode) with rfl | hnode
    · exact ⟨expression, h⟩
    · cases expression <;> simp [fits] at h
      exact exists_fits_of_mem_walk element h.2 node hnode

theorem exists_fits_of_mem_walkAll (parsers : List Parser) {expressions : List Expression}
    (h : fitsAll catalog home expressions parsers = true) :
    ∀ node ∈ Parser.walkAll parsers, ∃ part, Expression.fits catalog home part node = true := by
  intro node hnode
  cases parsers with
  | nil => simp [Parser.walkAll] at hnode
  | cons parser rest =>
    cases expressions with
    | nil => simp [fitsAll] at h
    | cons expression expressions =>
      simp only [fitsAll, Bool.and_eq_true] at h
      rw [Parser.walkAll, List.mem_append] at hnode
      rcases hnode with hnode | hnode
      · exact exists_fits_of_mem_walk parser h.1 node hnode
      · exact exists_fits_of_mem_walkAll rest h.2 node hnode
end

theorem target_of_fits {expression : Expression} {ref : RuleRef}
    (h : expression.fits catalog home (.rule ref) = true) :
    expression = .name (catalog.nameOf ref.target) ∧ catalog.Has home ref.target := by
  cases expression with
  | name called =>
    simp only [fits, decide_eq_true_eq] at h
    exact ⟨by rw [h.2], h.1⟩
  | _ => simp [fits] at h

theorem bounds_of_fits {expression : Expression} {cache : CacheId} {bounds : Bounds}
    {element : Parser}
    (h : expression.fits catalog home (.repetition cache bounds element) = true) :
    bounds.Ordered := by
  cases expression with
  | repeated bounds' element' =>
    simp only [fits, Bool.and_eq_true, decide_eq_true_eq] at h
    obtain ⟨⟨rfl, hbounds⟩, -⟩ := h
    intro most hmost
    simpa [hmost] using hbounds
  | _ => simp [fits] at h

end Expression

def Match.Yielded (rules : Ruleset) (expression : Expression) (rest : List Char) (start : Nat)
    (m : Match) : Prop :=
  ∃ taken after, rest = taken ++ after ∧ m.stop = start + byteLength taken ∧
    Yields rules expression taken m.nodes

namespace Match

variable {rules : Ruleset}

theorem Yielded.followedBy {item : Expression} {items : List Expression} {source : Source}
    {rest : List Char} {start : Nat} {first tail : Match} (h : first.Yielded rules item rest start)
    (hrest : source.rest start = some rest)
    (htail : ∀ after, source.rest first.stop = some after →
      tail.Yielded rules (.sequence items) after first.stop) :
    (first.followedBy tail).Yielded rules (.sequence (item :: items)) rest start := by
  obtain ⟨xs, after, rfl, hstop, hfirst⟩ := h
  obtain ⟨ys, after, rfl, hstop', htail⟩ := htail after (hstop ▸ Source.rest_add hrest)
  refine ⟨xs ++ ys, after, (List.append_assoc ..).symm, ?_, .cons hfirst htail⟩
  change tail.stop = _
  rw [hstop', hstop, byteLength_append, Nat.add_assoc]

theorem yielded_of_repeats {step : Nat → Match → Prop} {expression : Expression} {source : Source}
    (h : ∀ start m, step start m → ∀ rest, source.rest start = some rest →
      m.Yielded rules expression rest start) {count start : Nat} {m : Match}
    (hrepeats : Repeats step count start m) {rest : List Char}
    (hrest : source.rest start = some rest) :
    m.Yielded rules (.sequence (List.replicate count expression)) rest start := by
  induction count generalizing start rest m with
  | zero =>
    cases hrepeats
    exact ⟨[], rest, rfl, rfl, .nil⟩
  | succ count ih =>
    obtain ⟨first, tail, hfirst, htail, rfl⟩ := hrepeats
    exact (h start first hfirst rest hrest).followedBy hrest fun after hafter => ih htail hafter

end Match

namespace Parser

def CallsYield (catalog : Catalog) (home : Set GrammarId) (rules : Ruleset) (source : Source)
    (calls : RuleRef → Nat → Match → Prop) :
    Prop :=
  ∀ ref start m, calls ref start m → catalog.Has home ref.target →
    ∀ rest, source.rest start = some rest →
      m.Yielded rules (.name (catalog.nameOf ref.target)) rest start

section
variable {catalog : Catalog} {home : Set GrammarId} [DecidablePred (· ∈ home)] {rules : Ruleset}
  {source : Source} {calls : RuleRef → Nat → Match → Prop}

mutual
theorem yielded_of_derives (hcalls : CallsYield catalog home rules source calls) (parser : Parser)
    {expression : Expression}
    (hfits : expression.fits catalog home parser = true) {start : Nat} {m : Match}
    (h : parser.Derives calls source start m) {rest : List Char}
    (hrest : source.rest start = some rest) : m.Yielded rules expression rest start := by
  cases parser with
  | literal terminal =>
    cases expression with
    | literal terminal' =>
      simp only [Expression.fits, decide_eq_true_eq] at hfits
      obtain ⟨rfl, hterminal⟩ := hfits
      rw [Derives, Literal.matchAt_eq_some_iff] at h
      obtain ⟨taken, after, hrest', hconsume, rfl⟩ := h
      cases hrest.symm.trans hrest'
      exact ⟨taken, after, rfl, rfl,
        .literal start ((Literal.consume_append_iff hterminal).1 hconsume)⟩
    | _ => simp [Expression.fits] at hfits
  | alternation mode branches =>
    cases expression with
    | choice expressions =>
      simp only [Expression.fits, Bool.and_eq_true] at hfits
      rw [Derives] at h
      obtain ⟨branch, hbranch, taken, after, hrest', hstop, hyields⟩ :=
        yielded_of_someDerives hcalls branches hfits.2 h hrest
      exact ⟨taken, after, hrest', hstop, .choice hbranch hyields⟩
    | _ => simp [Expression.fits] at hfits
  | concatenation parts =>
    cases expression with
    | sequence items =>
      simp only [Expression.fits] at hfits
      rw [Derives] at h
      exact yielded_of_eachDerives hcalls parts hfits h hrest
    | _ => simp [Expression.fits] at hfits
  | optional cache element =>
    cases expression with
    | optional expression =>
      simp only [Expression.fits] at hfits
      rw [Derives] at h
      obtain ⟨count, hcount, hrepeats⟩ := h
      match count with
      | 0 =>
        cases hrepeats
        exact ⟨[], rest, rfl, rfl, .skipped⟩
      | 1 =>
        obtain ⟨first, last, hfirst, rfl, rfl⟩ := hrepeats
        rw [Match.followedBy_empty]
        obtain ⟨taken, after, hrest', hstop, hyields⟩ :=
          yielded_of_derives hcalls element hfits hfirst hrest
        exact ⟨taken, after, hrest', hstop, .optional hyields⟩
    | _ => simp [Expression.fits] at hfits
  | repetition cache bounds element =>
    cases expression with
    | repeated bounds' expression =>
      simp only [Expression.fits, Bool.and_eq_true, decide_eq_true_eq] at hfits
      obtain ⟨⟨rfl, -⟩, hfits⟩ := hfits
      rw [Derives] at h
      obtain ⟨count, hmin, hmax, hrepeats⟩ := h
      obtain ⟨taken, after, hrest', hstop, hyields⟩ := Match.yielded_of_repeats
        (fun _ _ h _ hrest => yielded_of_derives hcalls element hfits h hrest) hrepeats hrest
      exact ⟨taken, after, hrest', hstop, .repeated count hmin hmax hyields⟩
    | _ => simp [Expression.fits] at hfits
  | rule ref =>
    obtain ⟨rfl, hhas⟩ := Expression.target_of_fits hfits
    rw [Derives] at h
    exact hcalls ref start m h hhas rest hrest
  | prose text => exact absurd h (by simp [Derives])

theorem yielded_of_someDerives (hcalls : CallsYield catalog home rules source calls)
    (branches : List Parser) {expressions : List Expression}
    (hfits : Expression.fitsAll catalog home expressions branches = true) {start : Nat} {m : Match}
    (h : SomeDerives calls source branches start m) {rest : List Char}
    (hrest : source.rest start = some rest) :
    ∃ expression ∈ expressions, m.Yielded rules expression rest start := by
  cases branches with
  | nil => exact absurd h (by simp [SomeDerives])
  | cons branch branches =>
    cases expressions with
    | nil => simp [Expression.fitsAll] at hfits
    | cons expression expressions =>
      simp only [Expression.fitsAll, Bool.and_eq_true] at hfits
      rw [SomeDerives] at h
      rcases h with h | h
      · exact ⟨expression, List.mem_cons_self, yielded_of_derives hcalls branch hfits.1 h hrest⟩
      · obtain ⟨found, hfound, hyielded⟩ := yielded_of_someDerives hcalls branches hfits.2 h hrest
        exact ⟨found, List.mem_cons_of_mem _ hfound, hyielded⟩

theorem yielded_of_eachDerives (hcalls : CallsYield catalog home rules source calls)
    (parts : List Parser) {items : List Expression}
    (hfits : Expression.fitsAll catalog home items parts = true) {start : Nat} {m : Match}
    (h : EachDerives calls source parts start m) {rest : List Char}
    (hrest : source.rest start = some rest) : m.Yielded rules (.sequence items) rest start := by
  cases parts with
  | nil =>
    cases items with
    | nil =>
      rw [EachDerives] at h
      rw [h]
      exact ⟨[], rest, rfl, rfl, .nil⟩
    | cons item items => simp [Expression.fitsAll] at hfits
  | cons part parts =>
    cases items with
    | nil => simp [Expression.fitsAll] at hfits
    | cons item items =>
      simp only [Expression.fitsAll, Bool.and_eq_true] at hfits
      rw [EachDerives] at h
      obtain ⟨first, tail, hfirst, htail, rfl⟩ := h
      have hpart := yielded_of_derives hcalls part hfits.1 hfirst hrest
      exact hpart.followedBy hrest fun after hafter =>
        yielded_of_eachDerives hcalls parts hfits.2 htail hafter
end

end

def MeansYields (catalog : Catalog) (home : Set GrammarId) [DecidablePred (· ∈ home)]
    (rules : Ruleset) (source : Source) (meaning : RuleRef → Nat → Set Nat) : Prop :=
  ∀ ref body, catalog.Has home ref.target →
    rules.lookup (catalog.nameOf ref.target) = some body →
      ∃ definition : Parser, body.fits catalog home definition = true ∧
        ∀ start, definition.ends catalog.firstMatch meaning source start ⊆ meaning ref start

section
variable {catalog : Catalog} {home : Set GrammarId} [DecidablePred (· ∈ home)] {rules : Ruleset}
  {source : Source} {meaning : RuleRef → Nat → Set Nat}

theorem mem_anyEnds_of_fitsAll {branches : List Expression} {branch : Expression}
    (hbranch : branch ∈ branches) {parsers : List Parser}
    (hfits : Expression.fitsAll catalog home branches parsers = true) {start e : Nat}
    (h : ∀ parser, branch.fits catalog home parser = true →
      e ∈ parser.ends catalog.firstMatch meaning source start) :
    e ∈ anyEnds catalog.firstMatch meaning source parsers start := by
  induction branches generalizing parsers with
  | nil => cases hbranch
  | cons first rest ih =>
    cases parsers with
    | nil => simp [Expression.fitsAll] at hfits
    | cons parser parsers =>
      simp only [Expression.fitsAll, Bool.and_eq_true] at hfits
      rw [anyEnds]
      rcases List.mem_cons.1 hbranch with rfl | hbranch
      · exact Or.inl (h parser hfits.1)
      · exact Or.inr (ih hbranch hfits.2)

theorem fitsAll_replicate {element : Expression} {parser : Parser}
    (h : element.fits catalog home parser = true) (count : Nat) :
    Expression.fitsAll catalog home (List.replicate count element) (List.replicate count parser) =
      true := by
  induction count with
  | zero => rfl
  | succ count ih => simp [List.replicate_succ, Expression.fitsAll, h, ih]

theorem composedEnds_replicate (parser : Parser) (count start : Nat) :
    composedEnds catalog.firstMatch meaning source (List.replicate count parser) start =
      reach (fun o => parser.ends catalog.firstMatch meaning source o) count {start} := by
  induction count generalizing start with
  | zero => rfl
  | succ count ih =>
    ext e
    rw [List.replicate_succ, composedEnds, reach, mem_reach_iff]
    simp [ih]

/-- Whatever an expression yields, a parser that fits it finds. -/
theorem mem_ends_of_yields (hmeaning : MeansYields catalog home rules source meaning)
    {expression : Expression} {taken : List Char} {nodes : List Node}
    (h : Yields rules expression taken nodes) {parser : Parser}
    (hfits : expression.fits catalog home parser = true) {start : Nat} {after : List Char}
    (hrest : source.rest start = some (taken ++ after)) :
    start + byteLength taken ∈ parser.ends catalog.firstMatch meaning source start := by
  -- Along the derivation and not along the parser: what a name stands for is no part of the
  -- parser that refers to it.
  induction h generalizing parser start after with
  | @literal terminal taken offset hconsume =>
    cases parser with
    | literal terminal' =>
      simp only [Expression.fits, decide_eq_true_eq] at hfits
      obtain ⟨rfl, hterminal⟩ := hfits
      rw [ends]
      exact ⟨_, Literal.matchAt_eq_some_iff.2 ⟨taken, after, hrest,
        (Literal.consume_append_iff hterminal).2 hconsume, rfl⟩, rfl⟩
    | _ => simp [Expression.fits] at hfits
  | name hlookup hbody ih =>
    cases parser with
    | rule ref =>
      obtain ⟨heq, hhas⟩ := Expression.target_of_fits hfits
      cases heq
      obtain ⟨definition, hdefinition, hsub⟩ := hmeaning ref _ hhas hlookup
      rw [ends]
      exact hsub start (ih hdefinition hrest)
    | _ => simp [Expression.fits] at hfits
  | choice hmem hbranch ih =>
    cases parser with
    | alternation mode parsers =>
      simp only [Expression.fits, Bool.and_eq_true, Bool.not_eq_true'] at hfits
      rw [ends, if_neg (by simp [hfits.1])]
      exact mem_anyEnds_of_fitsAll hmem hfits.2 fun parser hparser => ih hparser hrest
    | _ => simp [Expression.fits] at hfits
  | nil =>
    cases parser with
    | concatenation parts =>
      cases parts with
      | nil =>
        rw [ends, composedEnds]
        exact rfl
      | cons part parts => simp [Expression.fits, Expression.fitsAll] at hfits
    | _ => simp [Expression.fits] at hfits
  | @cons item items xs ys nodes nodes' hitem hitems ih ih' =>
    cases parser with
    | concatenation parts =>
      cases parts with
      | nil => simp [Expression.fits, Expression.fitsAll] at hfits
      | cons part parts =>
        simp only [Expression.fits, Expression.fitsAll, Bool.and_eq_true] at hfits
        rw [List.append_assoc] at hrest
        have hitems : start + byteLength xs + byteLength ys ∈
            (concatenation parts).ends catalog.firstMatch meaning source (start + byteLength xs) :=
          ih' (by simpa only [Expression.fits] using hfits.2) (Source.rest_add hrest)
        rw [ends] at hitems
        rw [ends, composedEnds, byteLength_append, ← Nat.add_assoc]
        exact ⟨_, ih hfits.1 hrest, hitems⟩
    | _ => simp [Expression.fits] at hfits
  | @repeated bounds expression taken nodes count hmin hmax hall ih =>
    cases parser with
    | repetition cache bounds' element =>
      simp only [Expression.fits, Bool.and_eq_true, decide_eq_true_eq] at hfits
      obtain ⟨⟨rfl, -⟩, hfits⟩ := hfits
      have hall : Expression.fits catalog home (.sequence (List.replicate count expression))
          (.concatenation (List.replicate count element)) = true := by
        simpa only [Expression.fits] using fitsAll_replicate hfits count
      have hreach := ih hall hrest
      rw [ends, composedEnds_replicate] at hreach
      rw [ends]
      exact ⟨count, hmin, hmax, hreach⟩
    | _ => simp [Expression.fits] at hfits
  | skipped =>
    cases parser with
    | optional cache element =>
      rw [ends]
      exact ⟨0, Nat.zero_le 1, rfl⟩
    | _ => simp [Expression.fits] at hfits
  | optional helement ih =>
    cases parser with
    | optional cache element =>
      simp only [Expression.fits] at hfits
      rw [ends]
      exact ⟨1, le_rfl, start, rfl, ih hfits hrest⟩
    | _ => simp [Expression.fits] at hfits

end

end Parser

end Metasyntax
