import Metasyntax.Proofs.Advance
import Metasyntax.Proofs.Conformity
import Metasyntax.Proofs.Frame

/-!
# Grammars that hold rules as they are written

Some grammars host a set of rules when the definition of each of their rules fits what is
written under its name. Where what is written can be ranked so that calls at one offset
lead down, each of the hosted rules finds, at every offset of every text, what its name
yields.
-/

set_option autoImplicit false

namespace Metasyntax

namespace Expression

section
variable (takes : String → Bool)

mutual
def consumes : Expression → Bool
  | .literal terminal => terminal.pattern ≠ .text ""
  | .name called => takes called
  | .choice branches => allConsume branches
  | .sequence items => someConsumes items
  | .repeated bounds element => 0 < bounds.min && consumes element
  | .optional _ => false
  | .prose _ => true

def allConsume : List Expression → Bool
  | [] => true
  | branch :: rest => consumes branch && allConsume rest

def someConsumes : List Expression → Bool
  | [] => false
  | item :: rest => consumes item || someConsumes rest
end

mutual
def heads : Expression → List String
  | .literal _ => []
  | .name called => [called]
  | .choice branches => allHeads branches
  | .sequence items => leadingHeads items
  | .repeated _ element => heads element
  | .optional element => heads element
  | .prose _ => []

def allHeads : List Expression → List String
  | [] => []
  | branch :: rest => heads branch ++ allHeads rest

def leadingHeads : List Expression → List String
  | [] => []
  | item :: rest => heads item ++ if consumes takes item then [] else leadingHeads rest
end

end

end Expression

def Ruleset.ranked (rules : Ruleset) (level : String → Nat) (takes : String → Bool) : Bool :=
  rules.all fun (name, body) =>
    (body.heads takes).all (level · < level name) && (!takes name || body.consumes takes)

theorem Ruleset.of_ranked {rules : Ruleset} {level : String → Nat} {takes : String → Bool}
    (h : rules.ranked level takes = true) {name : String} {body : Expression}
    (hlookup : rules.lookup name = some body) :
    (∀ called ∈ body.heads takes, level called < level name) ∧
      (takes name = true → body.consumes takes = true) := by
  have hmem : (name, body) ∈ rules := by
    obtain ⟨before, after, rfl, -⟩ := List.lookup_eq_some_iff.1 hlookup
    simp
  have hrule := List.all_eq_true.1 h _ hmem
  simp only [Bool.and_eq_true, List.all_eq_true, decide_eq_true_eq, Bool.or_eq_true,
    Bool.not_eq_true'] at hrule
  exact ⟨hrule.1, fun htakes => hrule.2.resolve_left (by simp [htakes])⟩

namespace Catalog

theorem has_iff {catalog : Catalog} {home : Set GrammarId} {rule : RuleId} :
    catalog.Has home rule ↔ rule.grammar ∈ home ∧
      ∃ slot definition, catalog.bound rule = .ok (slot, definition) := by
  refine and_congr_right fun _ => ?_
  simp only [bound_eq_ok_iff, definition?, Option.isSome_iff_exists, Option.bind_eq_some_iff]
  exact exists_comm

section
variable (catalog : Catalog) (home : Set GrammarId) [DecidablePred (· ∈ home)]

structure Hosts (rules : Ruleset) : Prop where
  alive : ∀ id ∈ home, catalog.alive id = true
  bound : ∀ rule, catalog.Has home rule → ∃ slot definition body,
    catalog.bound rule = .ok (slot, definition) ∧ slot.name = catalog.nameOf rule ∧
    slot.exclusion = none ∧ rules.lookup (catalog.nameOf rule) = some body ∧
    body.fits catalog home definition = true
  apart : Apart (catalog.within home).nodes (catalog.within home).nodes

def takesOf (takes : String → Bool) (ref : RuleRef) : Bool :=
  catalog.Has home ref.target && takes (catalog.nameOf ref.target)

end

theorem has_of_bound {catalog : Catalog} {home : Set GrammarId} {rule : RuleId}
    (hrule : rule.grammar ∈ home) {slot : Slot} {definition : Parser}
    (hbound : catalog.bound rule = .ok (slot, definition)) : catalog.Has home rule :=
  has_iff.2 ⟨hrule, slot, definition, hbound⟩

end Catalog

namespace Expression

variable {catalog : Catalog} {home : Set GrammarId} [DecidablePred (· ∈ home)]
  {takes : String → Bool}

mutual
theorem consumes_of_fits (parser : Parser) {expression : Expression}
    (h : expression.fits catalog home parser = true) :
    parser.consumes (catalog.takesOf home takes) = expression.consumes takes := by
  cases parser with
  | literal terminal =>
    cases expression <;> simp [fits] at h
    simp [Parser.consumes, consumes, h.1]
  | rule ref =>
    obtain ⟨rfl, hhas⟩ := target_of_fits h
    simp [Parser.consumes, consumes, Catalog.takesOf, hhas]
  | prose text => cases expression <;> simp [fits] at h
  | alternation mode branches =>
    cases expression <;> simp [fits] at h
    simpa only [Parser.consumes, consumes] using allConsume_of_fitsAll branches h.2
  | concatenation parts =>
    cases expression <;> simp [fits] at h
    simpa only [Parser.consumes, consumes] using someConsumes_of_fitsAll parts h
  | optional cache element =>
    cases expression <;> simp [fits] at h
    simp [Parser.consumes, consumes]
  | repetition cache bounds element =>
    cases expression <;> simp [fits] at h
    simp [Parser.consumes, consumes, h.1.1, consumes_of_fits element h.2]

theorem allConsume_of_fitsAll (parsers : List Parser) {expressions : List Expression}
    (h : fitsAll catalog home expressions parsers = true) :
    Parser.allConsume (catalog.takesOf home takes) parsers = allConsume takes expressions := by
  cases parsers with
  | nil => cases expressions <;> simp [fitsAll] at h; rfl
  | cons parser rest =>
    cases expressions with
    | nil => simp [fitsAll] at h
    | cons expression expressions =>
      simp only [fitsAll, Bool.and_eq_true] at h
      rw [Parser.allConsume, allConsume, consumes_of_fits parser h.1,
        allConsume_of_fitsAll rest h.2]

theorem someConsumes_of_fitsAll (parsers : List Parser) {expressions : List Expression}
    (h : fitsAll catalog home expressions parsers = true) :
    Parser.someConsumes (catalog.takesOf home takes) parsers = someConsumes takes expressions := by
  cases parsers with
  | nil => cases expressions <;> simp [fitsAll] at h; rfl
  | cons parser rest =>
    cases expressions with
    | nil => simp [fitsAll] at h
    | cons expression expressions =>
      simp only [fitsAll, Bool.and_eq_true] at h
      rw [Parser.someConsumes, someConsumes, consumes_of_fits parser h.1,
        someConsumes_of_fitsAll rest h.2]
end

mutual
/-- The references that a parser may ask for first are to names that an expression that it
fits may ask for first. -/
theorem nameOf_mem_heads (parser : Parser) {expression : Expression}
    (h : expression.fits catalog home parser = true) :
    ∀ ref ∈ parser.heads (catalog.takesOf home takes),
      catalog.nameOf ref.target ∈ expression.heads takes := by
  intro ref href
  cases parser with
  | literal terminal => simp [Parser.heads] at href
  | prose text => simp [Parser.heads] at href
  | rule ref' =>
    obtain ⟨rfl, -⟩ := target_of_fits h
    rw [Parser.heads, List.mem_singleton] at href
    rw [heads, href]
    exact List.mem_singleton_self _
  | alternation mode branches =>
    cases expression <;> simp [fits] at h
    rw [Parser.heads] at href
    rw [heads]
    exact nameOf_mem_allHeads branches h.2 ref href
  | concatenation parts =>
    cases expression <;> simp [fits] at h
    rw [Parser.heads] at href
    rw [heads]
    exact nameOf_mem_leadingHeads parts h ref href
  | optional cache element =>
    cases expression <;> simp [fits] at h
    rw [Parser.heads] at href
    rw [heads]
    exact nameOf_mem_heads element h ref href
  | repetition cache bounds element =>
    cases expression <;> simp [fits] at h
    rw [Parser.heads] at href
    rw [heads]
    exact nameOf_mem_heads element h.2 ref href

theorem nameOf_mem_allHeads (parsers : List Parser) {expressions : List Expression}
    (h : fitsAll catalog home expressions parsers = true) :
    ∀ ref ∈ Parser.allHeads (catalog.takesOf home takes) parsers,
      catalog.nameOf ref.target ∈ allHeads takes expressions := by
  intro ref href
  cases parsers with
  | nil => simp [Parser.allHeads] at href
  | cons parser rest =>
    cases expressions with
    | nil => simp [fitsAll] at h
    | cons expression expressions =>
      simp only [fitsAll, Bool.and_eq_true] at h
      rw [Parser.allHeads, List.mem_append] at href
      rw [allHeads, List.mem_append]
      exact href.imp (nameOf_mem_heads parser h.1 ref) (nameOf_mem_allHeads rest h.2 ref)

theorem nameOf_mem_leadingHeads (parsers : List Parser) {expressions : List Expression}
    (h : fitsAll catalog home expressions parsers = true) :
    ∀ ref ∈ Parser.leadingHeads (catalog.takesOf home takes) parsers,
      catalog.nameOf ref.target ∈ leadingHeads takes expressions := by
  intro ref href
  cases parsers with
  | nil => simp [Parser.leadingHeads] at href
  | cons parser rest =>
    cases expressions with
    | nil => simp [fitsAll] at h
    | cons expression expressions =>
      simp only [fitsAll, Bool.and_eq_true] at h
      rw [Parser.leadingHeads, List.mem_append, consumes_of_fits parser h.1] at href
      rw [leadingHeads, List.mem_append]
      refine href.imp (nameOf_mem_heads parser h.1 ref) fun href => ?_
      split at href
      case isTrue => cases href
      case isFalse hconsumes =>
        rw [if_neg hconsumes]
        exact nameOf_mem_leadingHeads rest h.2 ref href
end

end Expression

structure Attempt.Reports (attempt : Attempt) (rules : Ruleset) (name : String)
    (rest : List Char) (start : Nat) : Prop where
  found : attempt.Found {e | ∃ taken after nodes, rest = taken ++ after ∧
    e = start + byteLength taken ∧ Yields rules (.name name) taken nodes}
  yielded : ∀ set, attempt = .ok set → ∀ m ∈ set.toList, m.Yielded rules (.name name) rest start

namespace Catalog.Hosts

variable {catalog : Catalog} {home : Set GrammarId} [DecidablePred (· ∈ home)] {rules : Ruleset}
  {rule : RuleId}

section
variable (h : catalog.Hosts home rules)
include h

theorem resolve_eq {ref : RuleRef} (href : ref.target.grammar ∈ home) :
    catalog.resolve ref = .ok ref.target :=
  if_pos (h.alive _ href)

theorem has_of_mem_walk (hrule : catalog.Has home rule) {slot : Slot} {definition : Parser}
    (hbound : catalog.bound rule = .ok (slot, definition)) {ref : RuleRef}
    (href : .rule ref ∈ definition.walk) : catalog.Has home ref.target := by
  obtain ⟨slot', definition', body, hbound', -, -, -, hfits⟩ := h.bound rule hrule
  cases hbound.symm.trans hbound'
  obtain ⟨part, hpart⟩ := Expression.exists_fits_of_mem_walk definition hfits _ href
  exact (Expression.target_of_fits hpart).2

theorem exclusion_eq_none (hrule : catalog.Has home rule) {slot : Slot} {definition : Parser}
    (hbound : catalog.bound rule = .ok (slot, definition)) : slot.exclusion = none := by
  obtain ⟨slot', definition', body, hbound', -, hexclusion, -⟩ := h.bound rule hrule
  cases hbound.symm.trans hbound'
  exact hexclusion

theorem ordered_of_bound (hrule : catalog.Has home rule) {slot : Slot} {definition : Parser}
    (hbound : catalog.bound rule = .ok (slot, definition)) :
    Parser.Ordered definition.walk := by
  obtain ⟨slot', definition', body, hbound', -, -, -, hfits⟩ := h.bound rule hrule
  cases hbound.symm.trans hbound'
  intro cache bounds element hnode
  obtain ⟨part, hpart⟩ := Expression.exists_fits_of_mem_walk definition hfits _ hnode
  exact Expression.bounds_of_fits hpart

theorem enclosed : catalog.Enclosed home where
  target rule slot definition ref hrule hbound href rule' hrule' := by
    have htarget := h.has_of_mem_walk (has_of_bound hrule hbound) hbound
      (Parser.mem_references.1 href)
    rw [h.resolve_eq htarget.1] at hrule'
    cases hrule'
    exact htarget.1
  exclusion rule slot definition ref hrule hbound hexclusion := by
    rw [h.exclusion_eq_none (has_of_bound hrule hbound) hbound] at hexclusion
    cases hexclusion

section
variable (hrule : catalog.Has home rule)
include hrule

theorem has_of_leads {ref : RuleRef} (href : catalog.Leads (.rule (catalog.refer rule)) ref) :
    catalog.Has home ref.target := by
  induction href with
  | @here ref href =>
    obtain rfl : ref = catalog.refer rule := by
      simpa [Parser.references, Parser.walk] using href
    exact hrule
  | definition _ hresolve hbound href ih =>
    rw [h.resolve_eq ih.1] at hresolve
    cases hresolve
    exact h.has_of_mem_walk ih hbound (Parser.mem_references.1 href)
  | exclusion _ hresolve hbound hexclusion ih =>
    rw [h.resolve_eq ih.1] at hresolve
    cases hresolve
    rw [h.exclusion_eq_none ih hbound] at hexclusion
    cases hexclusion

theorem has_of_mem_rules {rule' : RuleId}
    (hrule' : rule' ∈ (catalog.scopeOf (.rule (catalog.refer rule))).rules) :
    catalog.Has home rule' := by
  obtain ⟨ref, href, hresolve⟩ := hrule'
  have hhas := h.has_of_leads hrule href
  rw [h.resolve_eq hhas.1] at hresolve
  cases hresolve
  exact hhas

theorem mem_within_of_mem_scopeOf {node : Parser}
    (hnode : node ∈ (catalog.scopeOf (.rule (catalog.refer rule))).nodes) :
    node = .rule (catalog.refer rule) ∨ node ∈ (catalog.within home).nodes := by
  rcases hnode with hnode | ⟨ref, rule', slot, definition, href, hresolve, hbound, hnode⟩
  · exact Or.inl (by simpa [Parser.walk] using hnode)
  · have hhas := h.has_of_mem_rules hrule ⟨ref, href, hresolve⟩
    exact Or.inr ⟨rule', slot, definition, hhas.1, hbound, hnode⟩

variable {level : String → Nat} {takes : String → Bool} (hranked : rules.ranked level takes = true)
include hranked

theorem ranked : catalog.Ranked (catalog.scopeOf (.rule (catalog.refer rule)))
    (catalog.takesOf home takes) fun rule => level (catalog.nameOf rule) where
  bound rule' hrule' := by
    obtain ⟨slot, definition, -, hbound, -⟩ := h.bound rule' (h.has_of_mem_rules hrule hrule')
    exact ⟨slot, definition, hbound⟩
  consumes ref rule' slot definition htakes hresolve hbound := by
    simp only [takesOf, Bool.and_eq_true, decide_eq_true_eq] at htakes
    obtain ⟨hhas, htakes⟩ := htakes
    rw [h.resolve_eq hhas.1] at hresolve
    cases hresolve
    obtain ⟨slot', definition', body, hbound', -, -, hlookup, hfits⟩ := h.bound _ hhas
    cases hbound.symm.trans hbound'
    rw [Expression.consumes_of_fits definition hfits]
    exact (Ruleset.of_ranked hranked hlookup).2 htakes
  heads rule' hrule' slot definition hbound ref href rule'' hresolve := by
    have hhas := h.has_of_mem_rules hrule hrule'
    obtain ⟨slot', definition', body, hbound', -, -, hlookup, hfits⟩ := h.bound rule' hhas
    cases hbound.symm.trans hbound'
    rw [Catalog.eq_of_resolve hresolve]
    exact (Ruleset.of_ranked hranked hlookup).1 _
      (Expression.nameOf_mem_heads definition hfits ref href)
  exclusion rule' hrule' slot definition ref hbound hexclusion := by
    rw [h.exclusion_eq_none (h.has_of_mem_rules hrule hrule') hbound] at hexclusion
    cases hexclusion

theorem usable : catalog.Usable (.rule (catalog.refer rule)) where
  bound ref href := by
    have hhas := h.has_of_leads hrule href
    obtain ⟨slot, definition, -, hbound, -⟩ := h.bound _ hhas
    exact ⟨ref.target, slot, definition, h.resolve_eq hhas.1, hbound⟩
  ordered cache bounds element hnode := by
    rcases h.mem_within_of_mem_scopeOf hrule hnode with
      heq | ⟨rule', slot, definition, hgrammar, hbound, hnode⟩
    · cases heq
    · exact h.ordered_of_bound (has_of_bound hgrammar hbound) hbound cache bounds element hnode
  apart a ha b hb id hida hidb := by
    rcases h.mem_within_of_mem_scopeOf hrule ha with rfl | ha
    · cases hida
    · rcases h.mem_within_of_mem_scopeOf hrule hb with rfl | hb
      · cases hidb
      · exact h.apart a ha b hb id hida hidb
  acyclic question := (h.ranked hrule hranked).acyclic (catalog.closed_scopeOf _)

end

section
variable {level : String → Nat} {takes : String → Bool} (hranked : rules.ranked level takes = true)
include hranked

theorem means {ref : RuleRef} (href : catalog.Has home ref.target) (source : Source)
    (start : Nat) : catalog.Means source ref start (catalog.meaning source ref start) := by
  have hresolve := h.resolve_eq href.1
  have hscope : ∀ rule, catalog.resolve ref = .ok rule →
      rule ∈ (catalog.scopeOf (.rule (catalog.refer ref.target))).rules := fun rule hrule => by
    rw [hresolve] at hrule
    cases hrule
    exact ⟨_, .here (Parser.mem_references.2 (Parser.self_mem_walk _)), h.resolve_eq href.1⟩
  obtain ⟨ends, hmeans⟩ : ∃ ends, catalog.Means source ref start ends :=
    (h.usable href hranked).exists_means hresolve (hscope _ hresolve)
  rwa [Catalog.meaning_eq (catalog.closed_scopeOf _) (h.usable href hranked).ordered hmeans
    hscope]

theorem meansYields (source : Source) :
    Parser.MeansYields catalog home rules source (catalog.meaning source) := by
  intro ref body hhas hlookup
  obtain ⟨slot, definition, body', hbound, -, hexclusion, hlookup', hfits⟩ := h.bound _ hhas
  cases hlookup.symm.trans hlookup'
  refine ⟨definition, hfits, fun start e he => ⟨_, ?_, he⟩⟩
  exact .unrestricted _ (h.resolve_eq hhas.1) hbound hexclusion fun ref' o hasks =>
    h.means hranked (h.has_of_mem_walk hhas hbound
      (Parser.mem_walk_of_asks definition hasks)) source o

/-- A hosted rule finds, at any place in any text, what its name yields there. -/
theorem ruleMatches_reports (hrule : catalog.Has home rule) (source : Source) {start : Nat}
    {rest : List Char} (hrest : source.rest start = some rest) :
    ∃ attempt, catalog.ruleMatches rule source start = (.ok attempt : Except GrammarError _) ∧
      attempt.Reports rules (catalog.nameOf rule) rest start := by
  have htarget : catalog.Has home (catalog.refer rule).target := hrule
  -- That what is found is yielded goes by induction along the calls; that what is yielded is
  -- found goes by the ends that the rule stands for.
  have hyielded : ∀ set, catalog.ruleMatches rule source start =
      (.ok (.ok set) : Except GrammarError Attempt) →
        ∀ m ∈ set.toList, m.Yielded rules (.name (catalog.nameOf rule)) rest start := by
    intro set hset m hm
    have hordered : ∀ rule ∈ {rule | catalog.Has home rule}, ∀ slot definition,
        catalog.bound rule = .ok (slot, definition) → Parser.Ordered definition.walk :=
      fun _ hrule _ _ hbound => h.ordered_of_bound hrule hbound
    refine Catalog.call_induction (P := fun source ref start m => ref.target.grammar ∈ home →
      ∀ rest, source.rest start = some rest →
        m.Yielded rules (.name (catalog.nameOf ref.target)) rest start)
      hordered ?_ _ source _ start hset (fun rule' hrule' => by
        rw [h.resolve_eq htarget.1] at hrule'
        cases hrule'
        exact hrule) m hm hrule.1 rest hrest
    intro source ref rule slot definition start m hrule hresolve hbound hderives hgrammar rest hrest
    rw [h.resolve_eq hgrammar] at hresolve
    cases hresolve
    obtain ⟨slot', definition', body, hbound', hname, -, hlookup, hfits⟩ := h.bound _ hrule
    cases hbound.symm.trans hbound'
    obtain ⟨taken, after, rfl, hstop, hyields⟩ := Parser.yielded_of_derives
      (fun ref' o m' hm' hhas rest' hrest' => hm' (fun rule' hrule' => by
        rw [h.resolve_eq hhas.1] at hrule'
        cases hrule'
        exact hhas) hhas.1 rest' hrest') definition hfits hderives hrest
    rw [hname]
    exact ⟨taken, after, rfl, hstop, .name hlookup hyields⟩
  obtain ⟨attempt, hattempt, hfound⟩ := (h.means hranked htarget source start).settled_finds
    (catalog.closed_scopeOf (.rule (catalog.refer rule))) (h.usable hrule hranked).ordered
    fun rule' hrule' => ⟨_, .here (Parser.mem_references.2 (Parser.self_mem_walk _)), hrule'⟩
  refine ⟨attempt, hattempt, ?_, fun set hset => hyielded set (hset ▸ hattempt)⟩
  have hends : catalog.meaning source (catalog.refer rule) start = {e | ∃ taken after nodes,
      rest = taken ++ after ∧ e = start + byteLength taken ∧
        Yields rules (.name (catalog.nameOf rule)) taken nodes} := by
    ext e
    constructor
    · intro he
      cases attempt with
      | error failure =>
        have hnone : catalog.meaning source (catalog.refer rule) start = ∅ := hfound
        rw [hnone] at he
        exact absurd he (Set.notMem_empty e)
      | ok set =>
        obtain ⟨m, hm, rfl⟩ := MatchSet.mem_stops.1 ((hfound.2 e).2 he)
        obtain ⟨taken, after, heq, hstop, hyields⟩ := hyielded set hattempt m hm
        exact ⟨taken, after, m.nodes, heq, hstop, hyields⟩
    · rintro ⟨taken, after, nodes, rfl, rfl, hyields⟩
      have hfits : Expression.fits catalog home (.name (catalog.nameOf rule))
          (.rule (catalog.refer rule)) = true := by
        rw [Expression.fits, decide_eq_true_eq]
        exact ⟨htarget, rfl⟩
      have hend := Parser.mem_ends_of_yields (h.meansYields hranked source) hyields hfits hrest
      rwa [Parser.ends] at hend
  rw [← hends]
  exact hfound

end

end

end Catalog.Hosts

end Metasyntax
