import Metasyntax.Proofs.Hosting
import Metasyntax.Proofs.Runs

/-!
# The standard grammars as they are assembled

The definitions of the standard rules fit the expressions that they were assembled from,
and what is written can be ranked so that calls at one offset lead down. Hence each of the
rules finds at every offset of every text what its name yields.
-/

set_option autoImplicit false

namespace Metasyntax

namespace Standard

@[irreducible]
def catalog : Catalog := Store.standard.catalog

def levels : List (List String) :=
  [["ALPHA", "BIT", "CHAR", "CTL", "CR", "LF", "HTAB", "SP", "DIGIT", "DQUOTE", "VCHAR", "OCTET",
      "comment", "prose-val", "num-val", "bin-val", "dec-val", "hex-val", "group", "option",
      "case-sensitive-string"],
    ["CRLF", "HEXDIG", "WSP", "rulename", "quoted-string", "repeat"],
    ["LWSP", "c-nl", "case-insensitive-string"],
    ["c-wsp", "char-val"], ["defined-as", "element"], ["repetition"], ["concatenation"],
    ["alternation"], ["elements"], ["rule"], ["rulelist"]]

def level (name : String) : Nat := levels.findIdx (·.contains name)

def takes (name : String) : Bool := name ≠ "LWSP"

theorem ranked : rules.ranked level takes = true := by decide +kernel

end Standard

namespace Catalog

def conforms (catalog : Catalog) (home : Set GrammarId) [DecidablePred (· ∈ home)]
    (rules : Ruleset) (rule : RuleId) : Bool :=
  match catalog.slot? rule with
  | some ⟨name, some definition, none⟩ =>
    (rules.lookup name).any (·.fits catalog home definition)
  | _ => false

theorem bound_of_conforms {catalog : Catalog} {home : Set GrammarId} [DecidablePred (· ∈ home)]
    {rules : Ruleset} {rule : RuleId} (h : catalog.conforms home rules rule = true) :
    ∃ slot definition body, catalog.bound rule = .ok (slot, definition) ∧
      slot.name = catalog.nameOf rule ∧ slot.exclusion = none ∧
      rules.lookup (catalog.nameOf rule) = some body ∧
      body.fits catalog home definition = true := by
  rw [conforms] at h
  split at h
  case h_1 name definition hslot =>
    obtain ⟨body, hlookup, hfits⟩ := (Option.any_eq_true _ _).1 h
    have hname : catalog.nameOf rule = name := by simp [nameOf, hslot]
    rw [hname]
    exact ⟨_, definition, body, bound_eq_ok_iff.2 ⟨hslot, rfl⟩, rfl, rfl, hlookup, hfits⟩
  case h_2 => cases h

theorem mem_rulesOf {catalog : Catalog} {rule : RuleId} (h : (catalog.slot? rule).isSome = true) :
    rule ∈ catalog.rulesOf rule.grammar := by
  obtain ⟨slot, hslot⟩ := Option.isSome_iff_exists.1 h
  have hplace : rule.slot < (catalog.grammar rule.grammar).table.size :=
    (Array.getElem?_eq_some_iff.1 hslot).1
  exact List.mem_map.2 ⟨rule.slot, List.mem_range.2 hplace, rfl⟩

theorem Has.mem_rulesOf {catalog : Catalog} {home : Set GrammarId} {rule : RuleId}
    (h : catalog.Has home rule) : rule ∈ catalog.rulesOf rule.grammar := by
  obtain ⟨-, slot, definition, hbound⟩ := has_iff.1 h
  exact Catalog.mem_rulesOf (Option.isSome_of_eq_some (exists_slot_of_bound hbound).1)

end Catalog

namespace Standard

theorem checked :
    (catalog.rulesOf .core ++ catalog.rulesOf .abnf).all (catalog.conforms grammars rules) = true ∧
      RuleText.entries.all (fun name =>
        (catalog.local? .abnf name).map catalog.nameOf = some name) = true ∧
      catalog.lost = [] ∧ catalog.grammars.size = 2 ∧
        Store.standard.caches.all (·.isEmpty) = true := by
  decide +kernel

abbrev IsRule (rule : RuleId) : Prop := catalog.Has grammars rule

theorem alive (id : GrammarId) : catalog.alive id = true := by
  rw [Catalog.alive, checked.2.2.1]
  rfl

end Standard

theorem Edit.defineAll_cons (id : GrammarId) (options : Options) (name : String)
    (body : Expression) (rest : List (String × Expression)) (store : Store) :
    Edit.defineAll id options ((name, body) :: rest) store =
      Edit.defineAll id options rest (Edit.define id name (Edit.assemble id options body store).1
        (Edit.assemble id options body store).2).2 :=
  rfl

namespace Desk

/-- Rules that are defined one after the other can be come to. -/
theorem Reached.defineAll {store : Store} {held : Set Parser} (h : Reached ⟨store, held⟩)
    {id : GrammarId} (hid : id ∈ store.living) (options : Options)
    (rules : List (String × Expression)) :
    (∃ held', Reached ⟨(Edit.defineAll id options rules store).2, held'⟩) ∧
      (Edit.defineAll id options rules store).2.living = store.living ∧
      (Edit.defineAll id options rules store).2.catalog.grammars.size =
        store.catalog.grammars.size := by
  induction rules generalizing store held with
  | nil => exact ⟨⟨held, h⟩, rfl, rfl⟩
  | cons rule rest ih =>
    obtain ⟨name, body⟩ := rule
    have hassembled := h.uses (.assemble id options body)
    have hquiet : Quiet store (Edit.assemble id options body store).2 :=
      (assemble_ensures id options body h.sane).1
    rw [make] at hassembled
    rw [Edit.defineAll_cons]
    generalize Edit.assemble id options body store = assembled at hassembled hquiet ⊢
    have hdefined := hassembled.changes (hquiet.living_eq ▸ hid) (.define name (Set.mem_insert _ _))
    have hliving := (living_define id name assembled.1).trans hquiet.living_eq
    have hsize := (size_define id name assembled.1).trans hquiet.grammars
    obtain ⟨hreached, hliving', hsize'⟩ := ih hdefined (hliving ▸ hid)
    exact ⟨hreached, hliving'.trans hliving, hsize'.trans hsize⟩

/-- A program may come to the store that everything starts from. -/
theorem exists_reached_standard : ∃ held, Reached ⟨.standard, held⟩ := by
  have hfirst : (Edit.newGrammar "core" none .standard .empty).1 = .core := rfl
  have hempty : Reached ⟨(Edit.newGrammar "core" none .standard .empty).2, ∅⟩ :=
    @Reached.newGrammar _ "core" none .standard .empty fun id hid => by cases hid
  obtain ⟨⟨held, hcore⟩, hliving, hsize⟩ :=
    hempty.defineAll (show GrammarId.core ∈ _ from rfl) .standard Standard.core
  rw [Store.standard, Edit.standard, StateT.run]
  simp only [Edit.bind_apply, hfirst]
  generalize (Edit.defineAll .core .standard Standard.core
    (Edit.newGrammar "core" none .standard .empty).2).2 = store at hcore hliving hsize ⊢
  have hsize' : store.catalog.grammars.size = 1 := hsize
  have hnew : Reached ⟨(Edit.newGrammar "abnf" (some .core) .standard store).2, held⟩ :=
    hcore.newGrammar "abnf" .standard fun id hid => by
      cases hid
      rw [hliving, hsize']
      exact ⟨rfl, Nat.zero_lt_one⟩
  rw [Edit.newGrammar_fst, hsize']
  have habnf : GrammarId.abnf ∈ (Edit.newGrammar "abnf" (some .core) .standard store).2.living := by
    change GrammarId.abnf ∈ store.living
    rw [hliving]
    rfl
  exact (hnew.defineAll habnf .standard Standard.abnf).1

end Desk

namespace Standard

theorem hosts : catalog.Hosts grammars rules where
  alive id _ := alive id
  bound rule h := by
    refine Catalog.bound_of_conforms (List.all_eq_true.1 checked.1 rule (List.mem_append.2 ?_))
    have hmem := h.mem_rulesOf
    rcases h.1 with hgrammar | hgrammar
    · exact Or.inl (hgrammar ▸ hmem)
    · exact Or.inr (hgrammar ▸ hmem)
  apart := by
    obtain ⟨held, hreached⟩ := Desk.exists_reached_standard
    rw [catalog]
    exact hreached.sane.apart_within _ _

end Standard

section
variable {catalog : Catalog} {rule : RuleId} {source : Source} {rules : Ruleset} {name : String}

/-- A parse takes the longest text that the name of its rule yields. -/
theorem Catalog.parse_of_reports {start : Nat} {rest : List Char} {attempt : Attempt}
    (hmatches : catalog.ruleMatches rule source start = (.ok attempt : Except GrammarError _))
    (hreports : attempt.Reports rules name rest start) :
    (∃ node taken after, rest = taken ++ after ∧ Yields rules (.name name) taken [node] ∧
      catalog.parse rule source start =
        (.ok (.ok (node, start + byteLength taken)) : Except GrammarError _) ∧
      ∀ taken' after' nodes, rest = taken' ++ after' → Yields rules (.name name) taken' nodes →
        byteLength taken' ≤ byteLength taken) ∨
    (∃ failure, catalog.parse rule source start = (.ok (.error failure) : Except GrammarError _)) ∧
      ∀ taken after nodes, rest = taken ++ after → ¬ Yields rules (.name name) taken nodes := by
  rw [Catalog.parse, hmatches, ok_bind]
  cases attempt with
  | error failure =>
    refine Or.inr ⟨⟨failure, rfl⟩, fun taken after nodes hrest hyields => ?_⟩
    have hnone : {e | ∃ taken after nodes, rest = taken ++ after ∧ e = start + byteLength taken ∧
      Yields rules (.name name) taken nodes} = ∅ := hreports.found
    exact Set.eq_empty_iff_forall_notMem.1 hnone _ ⟨taken, after, nodes, hrest, rfl, hyields⟩
  | ok set =>
    obtain ⟨⟨e, he⟩, hstops⟩ := hreports.found
    obtain ⟨m', hm', -⟩ := MatchSet.mem_stops.1 ((hstops e).2 he)
    cases hlongest : set.longest? with
    | none =>
      rw [MatchSet.longest?_eq_head?, List.head?_eq_none_iff] at hlongest
      rw [hlongest] at hm'
      cases hm'
    | some m =>
      have hm : m ∈ set.toList := List.mem_of_head? hlongest
      obtain ⟨taken, after, hrest, hstop, hyields⟩ := hreports.yielded set rfl m hm
      obtain ⟨body, children, hlookup, hnodes, hbody⟩ := hyields.exists_of_name
      obtain ⟨nodes, stop⟩ := m
      cases hnodes
      obtain rfl : stop = start + byteLength taken := hstop
      refine Or.inl ⟨_, taken, after, hrest, hyields, by simp only [hlongest]; rfl,
        fun taken' after' nodes hrest' hyields' => ?_⟩
      obtain ⟨m'', hm'', hstop⟩ := MatchSet.mem_stops.1
        ((hstops _).2 ⟨taken', after', nodes, hrest', rfl, hyields'⟩)
      have hle := MatchSet.stop_le_of_longest? hlongest hm''
      dsimp only at hle
      omega

theorem Catalog.parseAll_of_reports {attempt : Attempt}
    (hmatches : catalog.ruleMatches rule source 0 = (.ok attempt : Except GrammarError _))
    (hreports : attempt.Reports rules name source.text.toList 0) :
    (∃ node, Yields rules (.name name) source.text.toList [node] ∧
      catalog.parseAll rule source = (.ok (.ok node) : Except GrammarError _)) ∨
    (∃ failure, catalog.parseAll rule source = (.ok (.error failure) : Except GrammarError _)) ∧
      ∀ nodes, ¬ Yields rules (.name name) source.text.toList nodes := by
  rw [Catalog.parseAll]
  rcases Catalog.parse_of_reports hmatches hreports with
    ⟨node, taken, after, hrest, hyields, hparse, hlongest⟩ | ⟨⟨failure, hparse⟩, hnone⟩
  · rw [hparse, ok_bind]
    have hsize : source.size = byteLength taken + byteLength after := by
      rw [Source.size_eq, hrest, byteLength_append]
    dsimp only
    split
    case isTrue hlt =>
      refine Or.inr ⟨⟨_, rfl⟩, fun nodes hall => ?_⟩
      have hle := hlongest _ [] nodes (List.append_nil _).symm hall
      rw [hrest, byteLength_append] at hle
      omega
    case isFalse hge =>
      obtain rfl : after = [] := byteLength_eq_zero.1 (by omega)
      rw [List.append_nil] at hrest
      exact Or.inl ⟨node, hrest ▸ hyields, rfl⟩
  · rw [hparse]
    exact Or.inr ⟨⟨failure, rfl⟩, fun nodes => hnone _ [] nodes (List.append_nil _).symm⟩

end

end Metasyntax
