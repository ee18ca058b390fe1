import Metasyntax.Proofs.Leaves

/-!
# Loading one rule

The text of one rule can be loaded by itself, as the only one of several texts and as a list of
rules. This comes to the same thing. Where the rule that the text spells refers to no other one,
it decides from then on what its definition says.
-/

set_option autoImplicit false

namespace Metasyntax
open Notation

namespace Notation

theorem withCanonicalEndings_eq_self {cs : List Char} (h : ∀ c ∈ cs, c ≠ '\r' ∧ c ≠ '\n') :
    withCanonicalEndings cs = cs := by
  induction cs with
  | nil => rfl
  | cons c cs ih =>
    obtain ⟨hc, hcs⟩ := List.forall_mem_cons.1 h
    rw [withCanonicalEndings_cons fun heq => absurd heq hc.1, ih hcs,
      if_neg fun heq => heq.elim hc.1 hc.2]
    rfl

theorem asLines_of_line {cs : List Char} (h : ∀ c ∈ cs, c ≠ '\r' ∧ c ≠ '\n') :
    asLines cs = cs ++ ['\r', '\n'] := by
  have hends : endsLine cs = false := by
    rw [← Bool.not_eq_true, endsLine, List.isSuffixOf_iff_suffix]
    exact fun hsuffix => (h _ (hsuffix.subset (List.mem_cons_self ..))).1 rfl
  rw [asLines_eq, withCanonicalEndings_eq_self h, hends]
  rfl

/-- A rule is spelled by its name and its body, with a sign between them that has blanks around
it. -/
theorem spelled_spaced {name inner : List Char} {body : Choice} (hname : IsName name)
    (hbody : body.Spelled inner) (hinner : ∀ c ∈ inner, ' ' ≤ c) :
    Rule.Spelled ⟨name, false, body⟩ (asLines (name ++ [' ', '=', ' '] ++ inner)) := by
  have hspace : Gaps [' '] := .cons ⟨[], ' ', Or.inl rfl, Or.inl rfl, rfl⟩ .nil
  have hblank : ∀ c ∈ name ++ [' ', '=', ' '] ++ inner, c ≠ '\r' ∧ c ≠ '\n' := by
    intro c hc
    rw [List.append_assoc, List.mem_append, List.mem_append] at hc
    rcases hc with hc | hc | hc
    · have hunblank := (hname.chars c hc).unblank
      constructor <;> rintro rfl <;> exact absurd hunblank (by decide)
    · revert c
      decide
    · have hle := hinner c hc
      constructor <;> rintro rfl <;> exact absurd hle (by decide)
  refine ⟨hname, [' '], [' '], inner, [], ['\r', '\n'], hspace, hspace, hbody, .nil, Or.inl rfl, ?_⟩
  rw [asLines_of_line hblank]
  simp [Rule.sign]

theorem production_single {mode : ProseMode} {name : List Char} {item : Item} :
    Rule.production mode ⟨name, false, .last (.last item)⟩ =
      (item.expression mode).map fun body => ⟨String.ofList name, false, body⟩ := by
  rw [Rule.production, Choice.expression, Choice.expressions, Row.expressions]
  cases item.expression mode <;> rfl

theorem IsDecimal.printable {c : Char} (h : IsDecimal c) : ' ' ≤ c :=
  Char.le_trans (by decide) h.1

end Notation

inductive Loading.Loads (id : GrammarId) (text : String) : Loading (List RuleId) → Prop where
  | create : Loads id text (List.singleton <$> Loading.createRule id text)
  | separate : Loads id text (Loading.loadRules id [text])
  | joined : Loads id text (Loading.loadRulelist id text)

/-- A rule that is created by itself is the only one of a list. -/
theorem RuleText.run_createRule {id : GrammarId} {text : String} {node : Node}
    {store parsed read : Store} {production : Except GrammarError Production}
    (hparse : (RuleText.parseRule text).run store = (.ok node, parsed))
    (hbind : (RuleText.compile id [node]).run parsed =
      RuleText.concluded id read (production.map ([·]))) :
    (List.singleton <$> Loading.createRule id text).run store =
      RuleText.concluded id read (production.map ([·])) := by
  rw [← bind_pure_comp]
  cases production with
  | error error =>
    have hcreate : (Loading.createRule id text).run store = (.error (.grammar error), read) := by
      rw [Loading.createRule, Edit.run_bind_ok hparse, Edit.run_bind_error hbind]
    rw [Edit.run_bind_error hcreate]
    rfl
  | ok production =>
    change _ = RuleText.concluded id read (.ok [production]) at hbind
    change _ = RuleText.concluded id read (.ok [production])
    rw [RuleText.concluded, Edit.bind_singleton] at hbind ⊢
    rw [Loading.createRule, bind_assoc, Edit.run_bind_ok hparse, bind_assoc,
      Edit.run_bind_ok hbind]
    rfl

/-- However the text of one rule is loaded, its production is bound, or else the error in it is
reported. -/
theorem Desk.Untouched.loads_one {desk : Desk} (h : desk.Untouched) {id : GrammarId} {text : String}
    {rule : Notation.Rule} (hspelled : rule.Spelled (asLines text.toList))
    {load : Loading (List RuleId)} (hload : Loading.Loads id text load) :
    ∃ read, desk.store.Alike read ∧ load.run desk.store = RuleText.concluded id read
      ((rule.production (desk.store.catalog.grammar id).options.prose).map ([·])) := by
  have hmapM : [rule].mapM (·.production (desk.store.catalog.grammar id).options.prose) =
      (rule.production (desk.store.catalog.grammar id).options.prose).map ([·]) := by
    rw [List.mapM_cons]
    cases rule.production (desk.store.catalog.grammar id).options.prose <;> rfl
  have hlisting : Listing [rule] (asLines (trimBlankEnd text).toList) := by
    rw [toList_trimBlankEnd]
    have hjoined := Listing.joined (.cons hspelled .nil)
    rwa [List.intercalate_singleton] at hjoined
  obtain ⟨nodes, hyields⟩ := Notation.Rule.accepts hspelled
  obtain ⟨node, hyields', hgives⟩ := RuleText.gives_parseRule hyields
  obtain ⟨parsed, hparse, hparsed, hfaithful⟩ := hgives desk.store h.faithful
  obtain ⟨rule', node', hnode, -, hspelled', hreads⟩ := RuleText.rule_of_yields hyields'
  cases hnode
  obtain ⟨rfl, -⟩ := hspelled.unique hspelled' .nil .nil rfl
  obtain ⟨read, hread, hbind⟩ := RuleText.compile_of_readsAs (.cons hreads .nil) id hfaithful
  rw [hparsed.catalog, hmapM] at hbind
  cases hload with
  | create =>
    exact ⟨read, hparsed.trans hread, RuleText.run_createRule hparse hbind⟩
  | separate =>
    refine ⟨read, hparsed.trans hread, ?_⟩
    have hall : ([text].mapM RuleText.parseRule).run desk.store = (.ok [node], parsed) := by
      rw [List.mapM_cons, Edit.run_bind_ok hparse]
      rfl
    rw [Loading.loadRules, Edit.run_bind_ok hall, hbind]
  | joined =>
    rw [← hmapM]
    exact h.loadRulelist_of_listing id hlisting

theorem Store.Alike.sane {held : Set Parser} {store store' : Store} (h : store.Alike store')
    (hsane : Sane held store) : Sane held store' := by
  have hcaches := hsane.of_caches h.size
  rw [← h.catalog, ← h.lost] at hcaches
  exact hcaches

section
variable {held : Set Parser} {store : Store} {id : GrammarId} {production : Production}

theorem Edit.bindOne_of_local {target : RuleId} (hplain : production.incremental = false)
    (hlocal : store.catalog.local? id production.name = some target) (parser : Parser) :
    bindOne id production parser store = (target, (setDefinition target parser store).2) := by
  rw [bindOne, if_neg (by simp [hplain]), define, bind_apply, Store.localRule_eq_of_local hlocal]
  rfl

/-- A production that replaces what there is, and whose parser refers to nothing, makes a leaf of
the rule of its name, unless the rule excludes another one. -/
theorem Edit.bind_leaf (hsane : Sane held store) (hliving : id ∈ store.living)
    (hinterned : store.Interned) (hindex : id.index < store.catalog.grammars.size)
    (hplain : production.incremental = false) :
    ∃ before target parser after, Edit.bind id [production] store = ([target], after) ∧
      production.body.Describes id (store.catalog.grammar id).options before after parser ∧
      Sane held after ∧ after.catalog.local? id production.name = some target ∧
      ((store.catalog.localSlot id production.name).exclusion = none →
        after.Leaf target parser) := by
  have hbind := bind_singleton id production store
  simp only [Store.options_localRule] at hbind
  have hlocal := Store.local?_localRule hindex production.name
  have hself := Store.slot?_localRule_self hinterned hindex production.name
  have hnamed : Quiet store (localRule id production.name store).2 := quiet_localRule _ _
  generalize (localRule id production.name store).1 = target at hlocal hself
  generalize (localRule id production.name store).2 = named at hlocal hself hnamed hbind
  have hindex' : id.index < named.catalog.grammars.size := by rwa [hnamed.grammars]
  obtain ⟨hgrows, -, hdescribes⟩ := assemble_describes (store.catalog.grammar id).options
    production.body (.refl id named) hindex'
  obtain ⟨hquiet, hheld⟩ := assemble_ensures id (store.catalog.grammar id).options
    production.body (hnamed.sane hsane)
  generalize assemble id (store.catalog.grammar id).options production.body named = assembled
    at hgrows hdescribes hquiet hheld hbind
  obtain ⟨parser, assembled⟩ := assembled
  have hlocal' := hgrows.retains.found _ _ hlocal
  have hslot := hgrows.retains.slot target (Set.notMem_empty _) _ hself
  have hgrammar : target.grammar = id := by
    obtain ⟨place, -, rfl⟩ := Option.map_eq_some_iff.1 hlocal
    rfl
  have hliving' : id ∈ assembled.living := by rwa [hquiet.living_eq, hnamed.living_eq]
  have hturned := (loyal_empty hheld hliving').setDefinition (Set.notMem_empty id) hgrammar
    (Set.mem_insert parser held)
  have hretains : assembled.Retains id {target} (setDefinition target parser assembled).2 :=
    Store.retains_setDefinition target parser
  have hset := Store.slot?_setDefinition_self
    (show target.grammar.index < assembled.catalog.grammars.size by
      rwa [hgrammar, hgrows.grammars]) hslot parser
  refine ⟨named, target, parser, (setDefinition target parser assembled).2, ?_, ?_,
    hturned.sane.forget (Set.subset_insert _ _), hretains.found _ _ hlocal', fun hexclusion => ?_⟩
  · rw [hbind, bindOne_of_local hplain hlocal']
  · refine hdescribes.retains hretains ?_
    rintro _ rfl
    exact hgrammar ▸ (Array.getElem?_eq_some_iff.1 hself).1
  · have hdefinition := Catalog.bound_eq_ok_iff.2 ⟨hset, rfl⟩
    exact
      { living := hgrammar ▸ hturned.living
        bound := ⟨_, hdefinition, hexclusion⟩
        sound := fun node hnode cache hcache key attempt hholds => absurd hholds
          (hturned.fresh node ⟨target, _, parser, hgrammar, hdefinition, hnode⟩ cache hcache key
            attempt) }

end

def Expression.Defines (expression : Expression) (language : List Char → Prop) : Prop :=
  ∀ id options before after parser, expression.Describes id options before after parser →
    parser.Defines language

namespace Desk.Untouched

variable {desk : Desk} (h : desk.Untouched) {id : GrammarId} {text : String}
  {rule : Notation.Rule} (hspelled : rule.Spelled (asLines text.toList))
  {load : Loading (List RuleId)} (hload : Loading.Loads id text load)
include h hspelled hload

theorem loads_error {error : GrammarError}
    (herror : rule.production (desk.store.catalog.grammar id).options.prose = .error error) :
    (load.run desk.store).1 = .error (.grammar error) := by
  obtain ⟨read, -, hrun⟩ := h.loads_one hspelled hload
  rw [hrun, herror]
  rfl

/-- Loading a rule whose body defines a language makes the rule of its name decide that language. -/
theorem loads_deciding (hliving : id ∈ desk.store.living)
    (hindex : id.index < desk.store.catalog.grammars.size) {production : Production}
    (hproduction : rule.production (desk.store.catalog.grammar id).options.prose = .ok production)
    (hplain : production.incremental = false) {language : List Char → Prop}
    (hbody : production.body.Defines language) :
    ∃ target, (load.run desk.store).1 = .ok [target] ∧
      ((desk.store.catalog.localSlot id production.name).exclusion = none →
        (desk.edit load.run).Decides id production.name target language) := by
  obtain ⟨read, halike, hrun⟩ := h.loads_one hspelled hload
  have hinterned : desk.store.Interned := h.revocable Store.Interned.revocable fun _ => .empty
  obtain ⟨before, target, parser, after, hbind, hdescribes, hsane, hfound, hleaf⟩ :=
    Edit.bind_leaf (halike.sane h.faithful.sane) (by rwa [Store.living, halike.catalog])
      (by rwa [Store.Interned, halike.catalog]) (by rwa [halike.catalog]) hplain
  rw [hproduction] at hrun
  change _ = RuleText.concluded id read (.ok [production]) at hrun
  rw [RuleText.concluded, hbind] at hrun
  refine ⟨target, by rw [hrun], fun hexclusion => ?_⟩
  rw [halike.catalog] at hleaf
  rw [edit, hrun]
  exact decides_of_leaf hsane hfound (hbody _ _ _ _ _ hdescribes) (hleaf hexclusion)

end Desk.Untouched

theorem Store.exclusion_drafting :
    (Store.drafting.catalog.localSlot ⟨2⟩ "r").exclusion = none := by
  decide +kernel

end Metasyntax
