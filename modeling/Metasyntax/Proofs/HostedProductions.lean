import Metasyntax.Proofs.Binding

/-!
# Productions that are bound in a new grammar

Productions that each have a name of their own and refer only to one another and to the rules
of a base are hosted by the grammar that they are bound in, together with the base: each of the
grammar's rules then matches what is written under its name. What some grammars host they go on
to host as long as they are left alone, and whatever is remembered of them.
-/

set_option autoImplicit false

namespace Metasyntax

instance (base : GrammarId) : DecidablePred (· ∈ ({base} : Set GrammarId)) := fun id =>
  inferInstanceAs (Decidable (id = base))

instance (base home : GrammarId) : DecidablePred (· ∈ ({base, home} : Set GrammarId)) := fun id =>
  inferInstanceAs (Decidable (id = base ∨ id = home))

section
variable {catalog catalog' : Catalog} {home home' : Set GrammarId} [DecidablePred (· ∈ home)]
  [DecidablePred (· ∈ home')]

mutual
/-- A parser goes on to fit an expression where its rules and modes are what they were. -/
theorem Expression.fits_of_same
    (hrules : ∀ rule, catalog.Has home rule →
      catalog'.Has home' rule ∧ catalog'.nameOf rule = catalog.nameOf rule)
    (parser : Parser) (hmodes : ∀ mode branches, .alternation mode branches ∈ parser.walk →
      catalog'.firstMatch mode = catalog.firstMatch mode)
    {expression : Expression} (h : expression.fits catalog home parser = true) :
    expression.fits catalog' home' parser = true := by
  cases parser with
  | literal terminal =>
    cases expression <;> simp only [fits, decide_eq_true_eq, Bool.false_eq_true] at h ⊢
    exact h
  | prose text => cases expression <;> simp [fits] at h
  | rule ref =>
    obtain ⟨rfl, hhas⟩ := target_of_fits h
    obtain ⟨hhas', hname⟩ := hrules _ hhas
    rw [fits, decide_eq_true_eq]
    exact ⟨hhas', hname⟩
  | alternation mode branches =>
    rw [Parser.walk] at hmodes
    cases expression <;> simp only [fits, Bool.and_eq_true, Bool.false_eq_true] at h ⊢
    rw [hmodes mode branches List.mem_cons_self]
    exact ⟨h.1, fitsAll_of_same hrules branches
      (fun mode branches hmem => hmodes mode branches (List.mem_cons_of_mem _ hmem)) h.2⟩
  | concatenation parts =>
    rw [Parser.walk] at hmodes
    cases expression <;> simp only [fits, Bool.false_eq_true] at h ⊢
    exact fitsAll_of_same hrules parts
      (fun mode branches hmem => hmodes mode branches (List.mem_cons_of_mem _ hmem)) h
  | repetition cache bounds element =>
    rw [Parser.walk] at hmodes
    cases expression <;> simp only [fits, Bool.and_eq_true, Bool.false_eq_true] at h ⊢
    exact ⟨h.1, fits_of_same hrules element
      (fun mode branches hmem => hmodes mode branches (List.mem_cons_of_mem _ hmem)) h.2⟩
  | optional cache element =>
    rw [Parser.walk] at hmodes
    cases expression <;> simp only [fits, Bool.false_eq_true] at h ⊢
    exact fits_of_same hrules element
      (fun mode branches hmem => hmodes mode branches (List.mem_cons_of_mem _ hmem)) h

theorem Expression.fitsAll_of_same
    (hrules : ∀ rule, catalog.Has home rule →
      catalog'.Has home' rule ∧ catalog'.nameOf rule = catalog.nameOf rule)
    (parsers : List Parser) (hmodes : ∀ mode branches, .alternation mode branches ∈
      Parser.walkAll parsers → catalog'.firstMatch mode = catalog.firstMatch mode)
    {expressions : List Expression} (h : fitsAll catalog home expressions parsers = true) :
    fitsAll catalog' home' expressions parsers = true := by
  cases parsers with
  | nil => cases expressions <;> simp [fitsAll] at h ⊢
  | cons parser rest =>
    cases expressions with
    | nil => simp [fitsAll] at h
    | cons expression expressions =>
      simp only [fitsAll, Bool.and_eq_true] at h ⊢
      simp only [Parser.walkAll, List.mem_append] at hmodes
      exact ⟨fits_of_same hrules parser
          (fun mode branches hmem => hmodes mode branches (Or.inl hmem)) h.1,
        fitsAll_of_same hrules rest
          (fun mode branches hmem => hmodes mode branches (Or.inr hmem)) h.2⟩
end

end

namespace Catalog

variable {catalog catalog' : Catalog} {home home' : Set GrammarId} [DecidablePred (· ∈ home)]
  [DecidablePred (· ∈ home')] {rules : Ruleset}

omit [DecidablePred (· ∈ home)] [DecidablePred (· ∈ home')] in
theorem Has.mono {rule : RuleId} (h : catalog.Has home rule) (hsub : home ⊆ home') :
    catalog.Has home' rule :=
  ⟨hsub h.1, h.2⟩

/-- Grammars host in a catalog what they host in another that agrees with it on them. -/
theorem Hosts.of_agrees (h : catalog.Hosts home rules) (hagrees : Agrees home catalog catalog') :
    catalog'.Hosts home rules where
  alive id hid := hagrees.alive id hid (h.alive id hid)
  bound rule hrule := by
    have hkept {rule : RuleId} (hrule : catalog.Has home rule) :
        catalog'.Has home rule ∧ catalog'.nameOf rule = catalog.nameOf rule := by
      obtain ⟨hgrammar, slot, definition, hbound⟩ := has_iff.1 hrule
      exact ⟨has_of_bound hgrammar ((hagrees.bound rule hgrammar slot definition).2 hbound),
        hagrees.nameOf_eq hgrammar (exists_slot_of_bound hbound).1⟩
    obtain ⟨hgrammar, slot, definition, hbound'⟩ := has_iff.1 hrule
    have hbound := (hagrees.bound rule hgrammar slot definition).1 hbound'
    have hold := has_of_bound hgrammar hbound
    obtain ⟨slot', definition', body, hsame, hname, hexclusion, hlookup, hfits⟩ := h.bound rule hold
    cases hbound.symm.trans hsame
    rw [← (hkept hold).2] at hname hlookup
    exact ⟨slot, definition, body, hbound', hname, hexclusion, hlookup,
      Expression.fits_of_same (fun _ => hkept) definition (fun mode branches hmem =>
        hagrees.mode mode branches ⟨rule, slot, definition, hgrammar, hbound, hmem⟩) hfits⟩
  apart := by
    rw [hagrees.nodes_eq]
    exact h.apart

/-- A parse of a whole text by a hosted rule succeeds if the rule's name accepts the text, and
otherwise it fails to parse, whatever is remembered. -/
theorem Hosts.parseAll_ends {store : Store} (h : store.catalog.Hosts home rules)
    {level : String → Nat} {takes : String → Bool} (hranked : rules.ranked level takes = true)
    (hsound : Sound store.catalog (store.catalog.within home).nodes store.caches) {rule : RuleId}
    (hrule : store.catalog.Has home rule) (text : String) :
    (Accepts rules (.name (store.catalog.nameOf rule)) text.toList ∧
      ∃ node, (Edit.parsing (·.parseAll rule (.ofString text)) store).1 = .ok (.ok node)) ∨
    (¬ Accepts rules (.name (store.catalog.nameOf rule)) text.toList ∧
      ∃ failure, (Edit.parsing (·.parseAll rule (.ofString text)) store).1 =
        .ok (.error failure)) := by
  obtain ⟨attempt, hattempt, hreports⟩ :=
    h.ruleMatches_reports hranked hrule (.ofString text) (Source.rest_zero _)
  have hagreement := ruleMatches_agrees h.enclosed.closed h.apart hrule.1 (.ofString text) 0
  have hagree : Agree (Edit.parsing (·.parseAll rule (.ofString text)) store).1
      (store.catalog.parseAll rule (.ofString text)) :=
    (parseAll_rel rfl hagreement store.caches hsound).1
  have heq {result : Except ParseError Node}
      (hparse : store.catalog.parseAll rule (.ofString text) =
        (.ok result : Except GrammarError _)) :
      (Edit.parsing (·.parseAll rule (.ofString text)) store).1 = .ok result := by
    rw [hparse] at hagree
    rcases hagree with hsame | ⟨-, _, -, hsame⟩
    · exact hsame
    · cases hsame
  rcases parseAll_of_reports hattempt hreports with
    ⟨node, hyields, hparse⟩ | ⟨⟨failure, hparse⟩, hnone⟩
  · exact Or.inl ⟨⟨_, hyields⟩, node, heq hparse⟩
  · exact Or.inr ⟨fun ⟨nodes, hyields⟩ => hnone nodes hyields, failure, heq hparse⟩

end Catalog

def Store.parsed (store : Store) (id : GrammarId) (name text : String) :
    Except GrammarError (Except ParseError Node) :=
  let (rule, store) := Edit.rule id name store
  (Edit.parsing (·.parseAll rule (.ofString text)) store).1

/-- Where some grammars are as they were, a rule that they hosted parses a whole text if its name
accepts the text, and otherwise the text fails to parse. -/
theorem Loyal.parsed_ends {other : GrammarId} {foreign : Set GrammarId} {origin : Catalog}
    {held : Set Parser} {store : Store} (h : Loyal other foreign origin held store)
    {home : Set GrammarId} [DecidablePred (· ∈ home)] (hhome : home ⊆ foreign) {rules : Ruleset}
    (hhosts : origin.Hosts home rules) {level : String → Nat} {takes : String → Bool}
    (hranked : rules.ranked level takes = true) {id : GrammarId} {name : String} {rule : RuleId}
    (hlocal : origin.local? id name = some rule) (hrule : origin.Has home rule)
    (hname : origin.nameOf rule = name) (text : String) :
    ∃ result, store.parsed id name text = .ok result ∧
      (result.isOk = true ↔ Accepts rules (.name name) text.toList) := by
  obtain ⟨hgrammar, slot, definition, hbound⟩ := Catalog.has_iff.1 hrule
  have hid : id = rule.grammar := by
    obtain ⟨place, -, rfl⟩ := Option.map_eq_some_iff.1 hlocal
    rfl
  have hlookup : store.catalog.lookup? id name = some rule := by
    rw [Catalog.lookup?, List.findSome?_cons,
      h.agrees.found id (hid ▸ hhome hgrammar) name rule hlocal]
  have hfound : Edit.rule id name store = (rule, store) := by
    simp only [Edit.rule, Edit.bind_apply, Edit.get_apply, hlookup, Edit.pure_apply]
  have hnameOf : store.catalog.nameOf rule = name := by
    rw [h.agrees.nameOf_eq (hhome hgrammar) (Catalog.exists_slot_of_bound hbound).1, hname]
  have hhas : store.catalog.Has home rule := Catalog.has_of_bound hgrammar
    ((h.agrees.bound rule (hhome hgrammar) slot definition).2 hbound)
  have hsound : Sound store.catalog (store.catalog.within home).nodes store.caches := by
    refine h.sound.mono ?_
    rintro node ⟨rule, slot, definition, hrule, hnode⟩
    exact ⟨rule, slot, definition, hhome hrule, hnode⟩
  have hends := (hhosts.of_agrees (h.agrees.mono hhome)).parseAll_ends hranked hsound hhas text
  rw [hnameOf] at hends
  rw [Store.parsed, hfound]
  rcases hends with ⟨haccepts, node, hparse⟩ | ⟨hnot, failure, hparse⟩
  · exact ⟨_, hparse, iff_of_true rfl haccepts⟩
  · exact ⟨_, hparse, iff_of_false Bool.false_ne_true hnot⟩

namespace Expression

mutual
def plain : Expression → Bool
  | .literal terminal => terminal.pattern ≠ .text ""
  | .name _ => true
  | .choice branches => allPlain branches
  | .sequence items => allPlain items
  | .repeated bounds element => bounds.max.all (bounds.min ≤ ·) && plain element
  | .optional element => plain element
  | .prose _ => false

def allPlain : List Expression → Bool
  | [] => true
  | expression :: rest => plain expression && allPlain rest
end

section
variable {id : GrammarId} {catalog : Catalog} {home : Set GrammarId} [DecidablePred (· ∈ home)]

mutual
/-- A parser that a plain expression describes fits it, where the names in it lead home. -/
theorem Builds.fits : (expression : Expression) → {parser : Parser} → expression.plain = true →
    (∀ called ∈ expression.names, ∀ rule, catalog.lookup? id called = some rule →
      catalog.Has home rule ∧ catalog.nameOf rule = called) →
    expression.Builds id false catalog parser → expression.fits catalog home parser = true
  | .literal terminal, _, hplain, _, h => by
    obtain rfl := h
    rw [plain, decide_eq_true_eq] at hplain
    rw [Expression.fits, decide_eq_true_eq]
    exact ⟨rfl, hplain⟩
  | .name called, _, _, hnames, h => by
    obtain ⟨ref, rfl, hlookup, -⟩ := h
    rw [Expression.fits, decide_eq_true_eq]
    exact hnames called (List.mem_singleton_self called) _ hlookup
  | .choice branches, _, hplain, hnames, h => by
    obtain ⟨mode, parsers, rfl, hmode, hall⟩ := h
    rw [Expression.fits, firstMatch_of_getElem? hmode, Bool.not_false, Bool.true_and]
    exact BuildsAll.fits branches hplain hnames hall
  | .sequence items, _, hplain, hnames, h => by
    obtain ⟨parsers, rfl, hall⟩ := h
    rw [Expression.fits]
    exact BuildsAll.fits items hplain hnames hall
  | .repeated bounds element, _, hplain, hnames, h => by
    obtain ⟨cache, inner, rfl, hinner⟩ := h
    rw [plain, Bool.and_eq_true] at hplain
    rw [Expression.fits, Builds.fits element hplain.2 hnames hinner, hplain.1,
      decide_eq_true rfl]
    rfl
  | .optional element, _, hplain, hnames, h => by
    obtain ⟨cache, inner, rfl, hinner⟩ := h
    rw [Expression.fits]
    exact Builds.fits element hplain hnames hinner
  | .prose text, _, hplain, _, _ => by cases hplain

theorem BuildsAll.fits : (expressions : List Expression) → {parsers : List Parser} →
    allPlain expressions = true →
    (∀ called ∈ namesAll expressions, ∀ rule, catalog.lookup? id called = some rule →
      catalog.Has home rule ∧ catalog.nameOf rule = called) →
    BuildsAll id false catalog expressions parsers →
      fitsAll catalog home expressions parsers = true
  | [], _, _, _, h => by
    obtain rfl := h
    rfl
  | expression :: rest, _, hplain, hnames, h => by
    obtain ⟨parser, others, rfl, hfirst, hrest⟩ := h
    rw [allPlain, Bool.and_eq_true] at hplain
    rw [namesAll] at hnames
    rw [fitsAll, Builds.fits expression hplain.1
        (fun called hcalled => hnames called (List.mem_append_left _ hcalled)) hfirst,
      BuildsAll.fits rest hplain.2
        (fun called hcalled => hnames called (List.mem_append_right _ hcalled)) hrest]
    rfl
end

end

end Expression

structure Production.Standalone (written : Ruleset) (productions : List Production) : Prop where
  batch : Batch productions
  plain : ∀ production ∈ productions, production.body.plain = true
  own : ∀ production ∈ productions, ∀ name ∈ written.map Prod.fst,
    lowerText production.name ≠ lowerText name
  known : ∀ production ∈ productions, ∀ called ∈ production.body.names,
    called ∈ productions.map (·.name) ∨ called ∈ written.map Prod.fst

def Production.ruleset (productions : List Production) : Ruleset :=
  productions.map fun production => (production.name, production.body)

/-- Of productions that define each name once, each is found under its name. -/
theorem Production.Batch.lookup {productions : List Production} (h : Batch productions)
    {production : Production} (hproduction : production ∈ productions) :
    (ruleset productions).lookup production.name = some production.body := by
  induction productions with
  | nil => cases hproduction
  | cons first rest ih =>
    rw [ruleset, List.map_cons, List.lookup_cons]
    rcases List.mem_cons.1 hproduction with rfl | hproduction
    · rw [beq_self_eq_true]
    · have hne : production.name ≠ first.name := fun heq =>
        (List.pairwise_cons.1 h.distinct).1 production hproduction (by rw [heq])
      rw [beq_eq_false_iff_ne.2 hne]
      exact ih h.tail hproduction

structure Catalog.Founded (base id : GrammarId) (written : Ruleset)
    (productions : List Production) (c c' : Catalog) : Prop where
  standalone : Production.Standalone written productions
  interned : c.Interned
  interned' : c'.Interned
  new : ∀ name, c.local? id name = none
  bases : (c.grammar id).bases = [base]
  tried : (c.grammar id).options.firstMatch = false
  named : ∀ name ∈ written.map Prod.fst, ∃ rule, c.local? base name = some rule ∧
    c'.Has {base} rule ∧ c'.nameOf rule = name
  binds : c.Binds id productions c'
  spelled : c.SpelledAs id productions c'

namespace Catalog.Founded

variable {base id : GrammarId} {written : Ruleset} {productions : List Production}
  {c c' : Catalog} (h : Founded base id written productions c c')
include h

/-- The rules of the grammar that have definitions are those that the productions define. -/
theorem exists_production {rule : RuleId} (hrule : rule.grammar = id) {slot : Slot}
    {definition : Parser} (hbound : c'.bound rule = .ok (slot, definition)) :
    slot.exclusion = none ∧ ∃ production ∈ productions, slot.name = production.name ∧
      production.body.Builds id false c' definition := by
  obtain ⟨hslot, hdefinition⟩ := exists_slot_of_bound hbound
  have hnone : c.slot? rule = none := by
    refine Option.eq_none_iff_forall_not_mem.2 fun old hold => ?_
    have hlocal := h.interned.local?_of_slot hold
    rw [hrule, h.new] at hlocal
    cases hlocal
  -- A rule that no production defines was added for a name in a body, and stays unbound.
  obtain ⟨hexclusion, hunbound⟩ := h.binds.fresh rule slot hnone hslot
  obtain ⟨production, hproduction, hlocal⟩ : c'.Defines id productions rule := by
    by_contra hnot
    rw [hunbound hnot] at hdefinition
    cases hdefinition
  obtain ⟨rule', slot', parser, hlocal', hslot', hparser, hbuilds⟩ :=
    h.binds.built production hproduction
  obtain rfl : rule' = rule := Option.some.inj (hlocal'.symm.trans hlocal)
  obtain rfl : slot' = slot := Option.some.inj (hslot'.symm.trans hslot)
  obtain rfl : parser = definition := Option.some.inj (hparser.symm.trans hdefinition)
  rw [h.tried] at hbuilds
  exact ⟨hexclusion, production, hproduction,
    h.spelled production hproduction (h.new _) _ _ hlocal hslot, hbuilds⟩

theorem exists_rule {production : Production} (hproduction : production ∈ productions) :
    ∃ rule, c'.local? id production.name = some rule ∧ c'.Has {base, id} rule ∧
      c'.nameOf rule = production.name := by
  obtain ⟨rule, slot, parser, hlocal, hslot, hparser, -⟩ := h.binds.built production hproduction
  refine ⟨rule, hlocal, ⟨Or.inr (h.interned'.local?_eq_some_iff.1 hlocal).1, ?_⟩, ?_⟩
  · rw [definition?, hslot, Option.bind_some, hparser]
    rfl
  · rw [nameOf, hslot]
    exact h.spelled production hproduction (h.new _) _ _ hlocal hslot

/-- A name in a production means the rule that a production defines, or else a rule of the
base, under this very name. -/
theorem leads_home {production : Production} (hproduction : production ∈ productions)
    {called : String} (hcalled : called ∈ production.body.names) {rule : RuleId}
    (hlookup : c'.lookup? id called = some rule) :
    c'.Has {base, id} rule ∧ c'.nameOf rule = called := by
  rcases h.standalone.known production hproduction called hcalled with hown | hwritten
  · obtain ⟨other, hother, rfl⟩ := List.mem_map.1 hown
    obtain ⟨rule', hlocal, hrule⟩ := h.exists_rule hother
    obtain rfl : rule' = rule := Option.some.inj ((lookup?_of_local hlocal).symm.trans hlookup)
    exact hrule
  · obtain ⟨rule', hlocal, hhas, hname⟩ := h.named called hwritten
    -- The base had the name before, so no rule of the grammar's own was made for it.
    have hold : c.lookup? id called = some rule' := by
      rw [lookup?_of_local_none (h.new _), h.bases, List.findSome?_cons, hlocal]
    have hnone : c'.local? id called = none := by
      refine h.binds.local?_eq_none (h.new _) fun _ hwants => ?_
      rcases hwants with ⟨other, hother, hsame⟩ | ⟨-, hlookup⟩
      · exact h.standalone.own other hother called hwritten hsame
      · rw [hold] at hlookup
        cases hlookup
    rw [lookup?_of_local_none hnone, h.binds.lookup?_bases hnone, h.bases, List.findSome?_cons,
      hlocal] at hlookup
    cases hlookup
    exact ⟨hhas.mono (Set.singleton_subset_iff.2 (Or.inl rfl)), hname⟩

/-- The base and the grammar host what is written for the base together with what the productions
say. -/
theorem hosts (hbase : c'.Hosts {base} written) (halive : c'.alive id = true)
    (hapart : Apart (c'.within {base, id}).nodes (c'.within {base, id}).nodes) :
    c'.Hosts {base, id} (written ++ Production.ruleset productions) where
  alive
    | _, Or.inl rfl => hbase.alive _ rfl
    | _, Or.inr rfl => halive
  bound rule hrule := by
    obtain ⟨hgrammar, slot, definition, hbound⟩ := has_iff.1 hrule
    rcases hgrammar with hgrammar | hgrammar
    · obtain ⟨slot, definition, body, hbound, hname, hexclusion, hlookup, hfits⟩ :=
        hbase.bound rule (has_of_bound hgrammar hbound)
      refine ⟨slot, definition, body, hbound, hname, hexclusion, ?_,
        Expression.fits_of_same (fun _ hrule => ⟨hrule.mono ?_, rfl⟩) definition
          (fun _ _ _ => rfl) hfits⟩
      · rw [List.lookup_append, hlookup, Option.some_or]
      · exact Set.singleton_subset_iff.2 (Or.inl rfl)
    · obtain ⟨hexclusion, production, hproduction, hname, hbuilds⟩ :=
        h.exists_production hgrammar hbound
      have hnameOf : c'.nameOf rule = production.name := by
        rw [nameOf, (exists_slot_of_bound hbound).1]
        exact hname
      have hwritten : written.lookup production.name = none := by
        refine List.lookup_eq_none_iff.2 fun entry hentry => ?_
        rw [bne_iff_ne]
        exact fun heq => h.standalone.own production hproduction entry.1
          (List.mem_map_of_mem hentry) (congrArg lowerText heq)
      refine ⟨slot, definition, production.body, hbound, hname.trans hnameOf.symm, hexclusion, ?_,
        Expression.Builds.fits production.body (h.standalone.plain production hproduction)
          (fun called hcalled rule => h.leads_home hproduction hcalled) hbuilds⟩
      rw [hnameOf, List.lookup_append, hwritten, Option.none_or,
        h.standalone.batch.lookup hproduction]
  apart := hapart

end Catalog.Founded

/-- A grammar that exists no longer is one that has existed. -/
theorem Store.lost_lt_revocable : Revocable fun store => ∀ id ∈ store.catalog.lost,
    id.index < store.catalog.grammars.size where
  newGrammar _ _ _ _ h id hid := 
    (h id hid).trans ((Nat.lt_succ_self _).trans_eq (Array.size_push _).symm)
  newMode _ _ h := h
  newCache _ _ h := h
  newRule _ h id hid := (h id hid).trans_eq Array.size_modify.symm
  setMode _ _ _ h := h
  update _ _ _ _ h id hid := (h id hid).trans_eq Array.size_modify.symm
  register _ _ _ h id hid := (h id hid).trans_eq Array.size_modify.symm
  retain _ _ _ h id hid := (h id hid).trans_eq Array.size_modify.symm
  truncate _ _ _ h id hid := (h id hid).trans_eq Array.size_modify.symm
  clearCaches _ _ h := h
  matchesOf _ _ _ _ h := h
  collect _ h id hid := by
    rcases List.mem_append.1 hid with hid | hid
    · exact h id hid
    · exact (Store.mem_alive_filter.1 (List.mem_filter.1 hid).1).1

section
variable {home : GrammarId} {foreign : Set GrammarId} {origin : Catalog} {held : Set Parser}
  {store : Store}

theorem Catalog.Enclosed.union {catalog : Catalog} {grammars grammars' : Set GrammarId}
    (h : catalog.Enclosed grammars) (h' : catalog.Enclosed grammars') :
    catalog.Enclosed (grammars ∪ grammars') where
  target rule slot definition ref hrule hbound href rule' hresolve := hrule.imp
    (fun hrule => h.target rule slot definition ref hrule hbound href rule' hresolve)
    fun hrule => h'.target rule slot definition ref hrule hbound href rule' hresolve
  exclusion rule slot definition ref hrule hbound href rule' hresolve := hrule.imp
    (fun hrule => h.exclusion rule slot definition ref hrule hbound href rule' hresolve)
    fun hrule => h'.exclusion rule slot definition ref hrule hbound href rule' hresolve

/-- Nothing is remembered of a grammar without rules. -/
theorem Loyal.steady_of_new {other : GrammarId} (h : Loyal other foreign origin held store)
    (hliving : home ∈ store.living)
    (hnew : ∀ rule, rule.grammar = home → store.catalog.slot? rule = none) :
    Steady home foreign origin held store := by
  have hbound {rule : RuleId} {slot : Slot} {definition : Parser}
      (hrule : rule.grammar ∈ insert home foreign)
      (hbound : store.catalog.bound rule = .ok (slot, definition)) : rule.grammar ∈ foreign := by
    refine hrule.resolve_left fun hhome => ?_
    have hslot := (Catalog.exists_slot_of_bound hbound).1
    rw [hnew rule hhome] at hslot
    cases hslot
  exact
    { sane := h.sane
      living := hliving
      agrees := h.agrees
      enclosed := h.enclosed
      contained :=
        { target := fun rule slot definition ref hrule hrule' href rule' hresolve =>
            Or.inr (h.enclosed.target rule slot definition ref (hbound hrule hrule') hrule' href
              rule' hresolve)
          exclusion := fun rule slot definition ref hrule hrule' href rule' hresolve =>
            Or.inr (h.enclosed.exclusion rule slot definition ref (hbound hrule hrule') hrule' href
              rule' hresolve) }
      sound := h.sound.mono fun _ ⟨rule, slot, definition, hrule, hrule', hnode⟩ =>
        ⟨rule, slot, definition, hbound hrule hrule', hrule', hnode⟩ }

end

namespace Standard

theorem core_checked :
    (catalog.rulesOf .core).all (catalog.conforms {.core} core) = true ∧
      core.all (fun (name, _) =>
        (catalog.local? .core name).map catalog.nameOf = some name) = true := by
  decide +kernel

theorem core_hosts : catalog.Hosts {.core} core where
  alive id _ := alive id
  bound
    | _, h => Catalog.bound_of_conforms (List.all_eq_true.1 core_checked.1 _
        ((show _ = GrammarId.core from h.1) ▸ h.mem_rulesOf))
  apart := by
    obtain ⟨held, hreached⟩ := Desk.exists_reached_standard
    rw [catalog]
    exact hreached.sane.apart_within _ _

theorem interned : catalog.Interned := by
  rw [catalog]
  exact Desk.Untouched.standard.revocable Store.Interned.revocable fun _ => .empty

theorem insert_grammars (id : GrammarId) :
    insert id grammars = ({.core, id} : Set GrammarId) ∪ grammars := by
  ext other
  simp only [grammars, Set.mem_union, Set.mem_insert_iff, Set.mem_singleton_iff]
  tauto

/-- Every core rule is found under its name. -/
theorem exists_core {name : String} (hname : name ∈ core.map Prod.fst) :
    ∃ rule, catalog.local? .core name = some rule ∧ catalog.Has {.core} rule ∧
      catalog.nameOf rule = name := by
  obtain ⟨⟨_, body⟩, hmem, rfl⟩ := List.mem_map.1 hname
  have hentry := List.all_eq_true.1 core_checked.2 _ hmem
  rw [decide_eq_true_eq, Option.map_eq_some_iff] at hentry
  obtain ⟨rule, hrule, hnameOf⟩ := hentry
  obtain ⟨hgrammar, slot, hslot, -⟩ := interned.local?_eq_some_iff.1 hrule
  have hplace : rule ∈ catalog.rulesOf .core := by
    refine List.mem_map.2 ⟨rule.slot, List.mem_range.2 ?_, by rw [← hgrammar]⟩
    rw [← hgrammar]
    exact (Array.getElem?_eq_some_iff.1 hslot).1
  obtain ⟨_, _, _, hbound, -⟩ := Catalog.bound_of_conforms
    (List.all_eq_true.1 core_checked.1 rule hplace)
  exact ⟨rule, hrule, Catalog.has_of_bound hgrammar hbound, hnameOf⟩

theorem exists_core_of_agrees {c c' : Catalog} (h : Catalog.Agrees grammars catalog c)
    (h' : Catalog.Agrees grammars catalog c') {name : String} (hname : name ∈ core.map Prod.fst) :
    ∃ rule, c.local? .core name = some rule ∧ c'.Has {.core} rule ∧ c'.nameOf rule = name := by
  obtain ⟨rule, hlocal, hhas, hnameOf⟩ := exists_core hname
  obtain ⟨hcore, slot, definition, hbound⟩ := Catalog.has_iff.1 hhas
  have hstandard : rule.grammar ∈ grammars := Or.inl hcore
  refine ⟨rule, h.found .core (Or.inl rfl) _ _ hlocal, Catalog.has_of_bound hcore
    ((h'.bound rule hstandard slot definition).2 hbound), ?_⟩
  rw [h'.nameOf_eq hstandard (Catalog.exists_slot_of_bound hbound).1, hnameOf]

end Standard

namespace Desk

structure Hosting (id : GrammarId) (productions : List Production) (desk : Desk) : Prop where
  loyal : Loyal .abnf (insert id Standard.grammars) desk.store.catalog desk.held desk.store
  standard : Catalog.Agrees Standard.grammars Standard.catalog desk.store.catalog
  hosts : desk.store.catalog.Hosts {.core, id} (Standard.core ++ Production.ruleset productions)
  rule : ∀ production ∈ productions, ∃ rule,
    desk.store.catalog.local? id production.name = some rule ∧
      desk.store.catalog.Has {.core, id} rule ∧ desk.store.catalog.nameOf rule = production.name

structure Blank (id : GrammarId) (options : Options) (desk : Desk) : Prop where
  untouched : desk.Untouched
  other : id ∉ Standard.grammars
  living : id ∈ desk.store.living
  bases : (desk.store.catalog.grammar id).bases = [.core]
  options : (desk.store.catalog.grammar id).options = options
  new : ∀ name, desk.store.catalog.local? id name = none
  index_lt : id.index < desk.store.catalog.grammars.size

section
variable {desk : Desk} (h : desk.Untouched)
include h

theorem Untouched.interned : desk.store.catalog.Interned :=
  h.revocable Store.Interned.revocable fun _ => .empty

theorem Untouched.size_le : 2 ≤ desk.store.catalog.grammars.size := by
  obtain ⟨rule, -, hlocal, -⟩ := Standard.exists_entry (show "rulelist" ∈ RuleText.entries by decide)
  exact Catalog.index_lt_of_local (h.faithful.agrees.found .abnf (Or.inr rfl) _ _ hlocal)

/-- A new grammar on top of the core rules is none of the standard grammars. -/
theorem Untouched.newGrammar_blank (name : String) (options : Options) :
    Blank ⟨desk.store.catalog.grammars.size⟩ options
      (desk.edit (Edit.newGrammar name (some .core) options)) := by
  have hsize := h.size_le
  have hplace : GrammarId.core.index < desk.store.catalog.grammars.size :=
    Nat.lt_of_succ_le (Nat.le_of_succ_le hsize)
  obtain ⟨hindex, hbases, hnew, -⟩ := h.faithful.sane.newGrammar_blank hplace name options
  refine
    { untouched := h.newGrammar name options fun _ hbase => ?_
      other := ?_
      living := ?_
      bases := hbases
      options := ?_
      new := hnew
      index_lt := hindex }
  · obtain rfl := Option.some.inj hbase
    exact ⟨h.faithful.agrees.alive .core (Or.inl rfl) (Standard.alive _), hplace⟩
  · rintro (heq | heq)
    · have hsmall : desk.store.catalog.grammars.size = 0 := congrArg GrammarId.index heq
      omega
    · have hsmall : desk.store.catalog.grammars.size = 1 := congrArg GrammarId.index heq
      omega
  · have hlost := h.revocable Store.lost_lt_revocable fun _ hid => by cases hid
    change (!desk.store.catalog.lost.contains _) = true
    rw [Bool.not_eq_true', ← Bool.not_eq_true, List.contains_iff_mem]
    exact fun hid => absurd (hlost _ hid) (Nat.lt_irrefl _)
  · change ((Edit.newGrammar name (some .core) options desk.store).2.catalog.grammar _).options = _
    rw [grammar_newGrammar, if_pos rfl]
    rfl

end

section
variable {desk : Desk} {id : GrammarId} {options : Options} (h : Blank id options desk)
include h

/-- What is remembered once rules have been loaded in a grammar that had none is right, as long
as they lead nowhere else. -/
theorem Blank.loadRulelist_sound {text : String} {result : Except Failure (List RuleId)}
    {loaded : Store} (hload : (Loading.loadRulelist id text).run desk.store = (result, loaded)) :
    loaded.catalog.Interned ∧ Loyal id Standard.grammars Standard.catalog desk.held loaded ∧
      (loaded.catalog.Enclosed (insert id Standard.grammars) →
        Sound loaded.catalog (loaded.catalog.within (insert id Standard.grammars)).nodes
          loaded.caches) := by
  have hchanges : desk.Changes id Standard.grammars ⟨loaded, desk.held⟩ := by
    have hedit : desk.edit (Loading.loadRulelist id text).run = ⟨loaded, desk.held⟩ := by
      rw [edit, hload]
    exact hedit ▸ .loadRulelist text
  have hsteady : Steady id Standard.grammars Standard.catalog desk.held desk.store :=
    h.untouched.faithful.steady_of_new h.living fun rule hrule =>
      Option.eq_none_iff_forall_not_mem.2 fun slot hslot => by
        have hlocal := h.untouched.interned.local?_of_slot hslot
        rw [hrule, h.new] at hlocal
        cases hlocal
  refine ⟨(h.untouched.changes h.living h.other hchanges).interned, ?_⟩
  rcases hchanges.turns h.other calm_steady recoverable_steady (fun _ h => h.loyal)
    hsteady with hafter | hafter
  · exact ⟨hafter.loyal, fun _ => hafter.sound⟩
  · exact ⟨hafter.toLoyal, fun hcontained => (hafter.steady hcontained).sound⟩

/-- A list of rules that mention one another and core rules only is hosted by the grammar that it
is loaded in, together with the core rules. -/
theorem Blank.loadRulelist_hosts (hfirst : options.firstMatch = false) {text : String}
    {rules : List Notation.Rule}
    (hrules : Notation.Listing rules (asLines (trimBlankEnd text).toList))
    {productions : List Production}
    (hproductions : rules.mapM (·.production options.prose) = .ok productions)
    (hstandalone : Production.Standalone Standard.core productions) :
    ∃ bound built, (Loading.loadRulelist id text).run desk.store = (.ok bound, built) ∧
      Hosting id productions ⟨built, desk.held⟩ := by
  obtain ⟨read, halike, hload⟩ := h.untouched.loadRulelist_of_listing id hrules
  rw [h.options, hproductions, RuleText.concluded] at hload
  have hinterned : read.catalog.Interned := halike.catalog ▸ h.untouched.interned
  have hplace : id.index < read.catalog.grammars.size := halike.catalog ▸ h.index_lt
  obtain ⟨hbinds, hspelled⟩ := Edit.binds_bind hstandalone.batch hinterned hplace
  rcases hresult : Edit.bind id productions read with ⟨bound, built⟩
  rw [hresult] at hload hbinds hspelled
  rw [halike.catalog] at hbinds hspelled
  obtain ⟨hinterned', hloyal, hsound⟩ := h.loadRulelist_sound hload
  have hfounded : Catalog.Founded .core id Standard.core productions desk.store.catalog
      built.catalog :=
    { standalone := hstandalone
      interned := h.untouched.interned
      interned' := hinterned'
      new := h.new
      bases := h.bases
      tried := by rw [h.options, hfirst]
      named := fun _ => Standard.exists_core_of_agrees h.untouched.faithful.agrees hloyal.agrees
      binds := hbinds
      spelled := hspelled }
  have hcore : built.catalog.Hosts {.core} Standard.core := Standard.core_hosts.of_agrees
    (hloyal.agrees.mono (Set.singleton_subset_iff.2 (Or.inl rfl)))
  have hhosts := hfounded.hosts hcore hloyal.living (hloyal.sane.apart_within _ _)
  -- What is hosted leads nowhere else, so what is remembered of all three grammars is sound.
  have hcontained : built.catalog.Enclosed (insert id Standard.grammars) := by
    rw [Standard.insert_grammars]
    exact hhosts.enclosed.union (Standard.hosts.of_agrees hloyal.agrees).enclosed
  refine ⟨bound, built, hload, ?_⟩
  exact
    { loyal :=
        { sane := hloyal.sane
          living := hloyal.agrees.alive .abnf (Or.inr rfl) (Standard.alive _)
          agrees := .refl _ _
          enclosed := hcontained
          sound := hsound hcontained }
      standard := hloyal.agrees
      hosts := hhosts
      rule := fun _ => hfounded.exists_rule }

end

/-- The same for a grammar that is new. -/
theorem Untouched.hosts_listing {desk : Desk} (h : desk.Untouched) (name : String)
    {options : Options} (hfirst : options.firstMatch = false) {text : String}
    {rules : List Notation.Rule}
    (hrules : Notation.Listing rules (asLines (trimBlankEnd text).toList))
    {productions : List Production}
    (hproductions : rules.mapM (·.production options.prose) = .ok productions)
    (hstandalone : Production.Standalone Standard.core productions) :
    ∃ id built, (Loading.newGrammar name options (Loading.loadRulelist · text) []).run desk.store =
      (.ok id, built) ∧ Hosting id productions ⟨built, desk.held⟩ := by
  obtain ⟨bound, built, hload, hhosting⟩ :=
    (h.newGrammar_blank name options).loadRulelist_hosts hfirst hrules hproductions hstandalone
  have himports : (Loading.importAll ⟨desk.store.catalog.grammars.size⟩ []).run built =
      (.ok (), built) := rfl
  exact ⟨_, built, Loading.newGrammar_eq_ok.2 ⟨rfl, bound, built, hload, himports⟩, hhosting⟩

/-- From when rules have been loaded, as long as the grammar and the standard ones are left alone,
each rule parses the texts that its name accepts, and others fail to parse. -/
theorem Hosting.parsed_ends {id : GrammarId} {productions : List Production} {start desk : Desk}
    (h : Hosting id productions start) (hspares : Spares (insert id Standard.grammars) start desk)
    {level : String → Nat} {takes : String → Bool}
    (hranked : Ruleset.ranked (Standard.core ++ Production.ruleset productions) level takes = true)
    {production : Production} (hproduction : production ∈ productions) (text : String) :
    ∃ result, desk.store.parsed id production.name text = .ok result ∧
      (result.isOk = true ↔ Accepts (Standard.core ++ Production.ruleset productions)
        (.name production.name) text.toList) := by
  have hloyal := hspares.loyal (Or.inr (Or.inr rfl)) h.loyal
  obtain ⟨rule, hlocal, hrule, hname⟩ := h.rule production hproduction
  refine hloyal.parsed_ends ?_ h.hosts hranked hlocal hrule hname text
  rw [Standard.insert_grammars]
  exact Set.subset_union_left

/-- The rules that rule text is read with parse what they did before. -/
theorem Hosting.parsed_standard {id : GrammarId} {productions : List Production} {start desk : Desk}
    (h : Hosting id productions start) (hspares : Spares (insert id Standard.grammars) start desk)
    {name : String} (hname : name ∈ RuleText.entries) (text : String) :
    ∃ result, desk.store.parsed .abnf name text = .ok result ∧
      (result.isOk = true ↔ Accepts Standard.rules (.name name) text.toList) := by
  have hloyal := hspares.loyal (Or.inr (Or.inr rfl)) h.loyal
  obtain ⟨rule, hrule, hlocal, hnameOf⟩ := Standard.exists_entry hname
  obtain ⟨hgrammar, slot, definition, hbound⟩ := Catalog.has_iff.1 hrule
  refine hloyal.parsed_ends (Set.subset_insert _ _) (Standard.hosts.of_agrees h.standard)
    Standard.ranked (h.standard.found .abnf (Or.inr rfl) _ _ hlocal) (Catalog.has_of_bound hgrammar
      ((h.standard.bound rule hgrammar slot definition).2 hbound)) ?_ text
  rw [h.standard.nameOf_eq hgrammar (Catalog.exists_slot_of_bound hbound).1, hnameOf]

end Desk

end Metasyntax
