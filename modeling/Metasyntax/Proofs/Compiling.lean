import Metasyntax.Proofs.Assembly
import Metasyntax.Proofs.Faithful
import Metasyntax.Proofs.Spelling

/-!
# Rules as they are compiled

Creating a rule from a text that spells one inverts the spelling: whatever the layout, the
rule of that name is bound to the parser that the abstract rule describes. This holds as
long as the numbers in it can be decoded and its prose is allowed.
-/

set_option autoImplicit false

namespace Metasyntax

namespace RuleText
open Notation

variable {held : Set Parser}

theorem gives_adapt {α ε ε' : Type} {edit : ExceptT ε Edit α} {outcome : Except ε α}
    (h : Edit.Gives held edit.run outcome) (f : ε → ε') :
    Edit.Gives held (edit.adapt f).run (outcome.mapError f) := by
  intro store hstore
  obtain ⟨store', hedit, halike, hstore'⟩ := h store hstore
  refine ⟨store', ?_, halike, hstore'⟩
  change (Except.mapError f (edit.run store).1, (edit.run store).2) = _
  rw [hedit]

def readNodes (id : GrammarId) (nodes : List Node) : Loading (List Production) := do
  let options := ((← get).catalog.grammar id).options
  (readProductions options.prose nodes).adapt Failure.grammar

theorem bindNodes_eq_readNodes (id : GrammarId) (nodes : List Node) :
    bindNodes id nodes = (do
      let productions ← readNodes id nodes
      Edit.bind id productions) := by
  simp only [bindNodes, readNodes, bind_assoc]

/-- Nodes that are read as rules state the productions that these stand for. -/
theorem readNodes_of_readsAs {nodes : List Node} {rules : List Rule}
    (h : List.Forall₂ ReadsAs nodes rules) (id : GrammarId) {store : Store}
    (hstore : store.Faithful held) : ∃ read, store.Alike read ∧
      (readNodes id nodes).run store =
        (Except.mapError Failure.grammar
          (rules.mapM (·.production (store.catalog.grammar id).options.prose)), read) := by
  have hreads : Reads held (readProductions (store.catalog.grammar id).options.prose nodes) _ :=
    reads_productions h
  obtain ⟨read, hread, halike, -⟩ := gives_adapt hreads Failure.grammar store hstore
  exact ⟨read, halike, (Edit.run_lift_bind get _ store).trans hread⟩

def concluded (id : GrammarId) (store : Store) :
    Except GrammarError (List Production) → Except Failure (List RuleId) × Store
  | .ok productions => (.ok (Edit.bind id productions store).1, (Edit.bind id productions store).2)
  | .error error => (.error (.grammar error), store)

/-- Nodes that are read as rules are bound as the productions that these state. -/
theorem compile_of_readsAs {nodes : List Node} {rules : List Rule}
    (h : List.Forall₂ ReadsAs nodes rules) (id : GrammarId) {store : Store}
    (hstore : store.Faithful held) : ∃ read, store.Alike read ∧
      (compile id nodes).run store =
        concluded id read (rules.mapM (·.production (store.catalog.grammar id).options.prose)) := by
  obtain ⟨read, halike, hread⟩ := readNodes_of_readsAs h id hstore
  refine ⟨read, halike, ?_⟩
  rw [hstore.loadable.compile_eq, bindNodes_eq_readNodes]
  cases hproductions : rules.mapM (·.production (store.catalog.grammar id).options.prose) with
  | error error =>
    rw [hproductions] at hread
    exact Edit.run_bind_error hread
  | ok productions =>
    rw [hproductions] at hread
    rw [Edit.run_bind_ok hread]
    rfl

end RuleText

namespace Notation

def Numeral.Decodable (radix : Radix) : Numeral → Prop
  | .series first rest => ∀ digits ∈ first :: rest, (radix.number digits).isValidChar
  | .range first last => (radix.number first).isValidChar ∧ (radix.number last).isValidChar

def Count.Decodable : Count → Prop
  | .exactly digits => Radix.decimal.number digits < 2 ^ 64
  | .between least most => Radix.decimal.number least < 2 ^ 64 ∧
    Radix.decimal.number most < 2 ^ 64 ∧
    (most ≠ [] → Radix.decimal.number least ≤ Radix.decimal.number most)

mutual
def Element.Decodable (mode : ProseMode) : Element → Prop
  | .name _ | .quoted _ _ => True
  | .group choice | .option choice => choice.Decodable mode
  | .numeral radix value => value.Decodable radix
  | .prose text => IsName text ∨ mode = .placeholder

def Item.Decodable (mode : ProseMode) : Item → Prop
  | .once element => element.Decodable mode
  | .repeated count element => count.Decodable ∧ element.Decodable mode

def Row.Decodable (mode : ProseMode) : Row → Prop
  | .last item => item.Decodable mode
  | .more item rest => item.Decodable mode ∧ rest.Decodable mode

def Choice.Decodable (mode : ProseMode) : Choice → Prop
  | .last row => row.Decodable mode
  | .more row rest => row.Decodable mode ∧ rest.Decodable mode
end

theorem Radix.character_eq {radix : Radix} {digits : List Char}
    (h : (radix.number digits).isValidChar) :
    radix.character digits = .ok (Char.ofNat (radix.number digits)) :=
  if_pos h

theorem exists_mapM_character {radix : Radix} {numbers : List (List Char)}
    (h : ∀ digits ∈ numbers, (radix.number digits).isValidChar) :
    ∃ cs, numbers.mapM radix.character = .ok cs := by
  induction numbers with
  | nil => exact ⟨[], rfl⟩
  | cons digits numbers ih =>
    obtain ⟨cs, hcs⟩ := ih fun other hother => h other (List.mem_cons_of_mem _ hother)
    rw [List.mapM_cons, Radix.character_eq (h digits List.mem_cons_self), hcs]
    exact ⟨_, rfl⟩

theorem Numeral.exists_literal {radix : Radix} {value : Numeral} (h : value.Decodable radix) :
    ∃ terminal, value.literal radix = .ok terminal := by
  cases value with
  | series first rest =>
    obtain ⟨cs, hcs⟩ := exists_mapM_character h
    rw [literal, hcs]
    exact ⟨_, rfl⟩
  | range first last =>
    rw [literal, Radix.character_eq h.1, Radix.character_eq h.2]
    exact ⟨_, rfl⟩

theorem Count.bound_eq {count : Count} {digits : List Char}
    (h : Radix.decimal.number digits < 2 ^ 64) : count.bound digits =
      .ok (if digits = [] then none else some (Radix.decimal.number digits)) := by
  rw [bound, if_pos h]
  split <;> rfl

theorem Count.exists_bounds {count : Count} (h : count.Decodable) :
    ∃ bounds, count.bounds = .ok bounds := by
  cases count with
  | exactly digits =>
    have hbound : (Count.exactly digits).bound digits = .ok _ := Count.bound_eq h
    rw [bounds, hbound]
    exact ⟨_, rfl⟩
  | between least most =>
    obtain ⟨hleast, hmost, hle⟩ := h
    have hfirst : (Count.between least most).bound least = .ok _ := Count.bound_eq hleast
    have hlast : (Count.between least most).bound most = .ok _ := Count.bound_eq hmost
    have hordered : (if most = [] then none else some (Radix.decimal.number most)).any
        (· < ((if least = [] then none else some (Radix.decimal.number least)).getD 0)) =
          false := by
      by_cases hnil : most = []
      · rw [if_pos hnil]
        rfl
      · have hleast' : ((if least = [] then none else some (Radix.decimal.number least)).getD 0) ≤
            Radix.decimal.number least := by
          split <;> simp
        rw [if_neg hnil, Option.any_some, decide_eq_false_iff_not, not_lt]
        exact hleast'.trans (hle hnil)
    rw [bounds, hfirst, hlast]
    exact ⟨_, if_neg (by rw [hordered]; exact Bool.false_ne_true)⟩

mutual
theorem Element.exists_expression {mode : ProseMode} : (element : Element) →
    element.Decodable mode → ∃ expression, element.expression mode = .ok expression
  | .name name, _ => ⟨_, rfl⟩
  | .group choice, h => by
    obtain ⟨branches, hbranches⟩ := choice.exists_expressions h
    rw [Element.expression, hbranches]
    exact ⟨_, rfl⟩
  | .option choice, h => by
    obtain ⟨branches, hbranches⟩ := choice.exists_expressions h
    rw [Element.expression, hbranches]
    exact ⟨_, rfl⟩
  | .quoted _ _, _ => ⟨_, rfl⟩
  | .numeral radix value, h => by
    obtain ⟨terminal, hterminal⟩ := Numeral.exists_literal h
    rw [Element.expression, hterminal]
    exact ⟨_, rfl⟩
  | .prose text, h => by
    rw [Element.expression]
    by_cases hname : IsName text
    · exact ⟨_, if_pos hname⟩
    · obtain rfl := h.resolve_left hname
      exact ⟨_, if_neg hname⟩

theorem Item.exists_expression {mode : ProseMode} : (item : Item) →
    item.Decodable mode → ∃ expression, item.expression mode = .ok expression
  | .once element, h => element.exists_expression h
  | .repeated count element, h => by
    obtain ⟨inner, hinner⟩ := element.exists_expression h.2
    obtain ⟨bounds, hbounds⟩ := Count.exists_bounds h.1
    rw [Item.expression, hinner, hbounds]
    exact ⟨_, rfl⟩

theorem Row.exists_expressions {mode : ProseMode} : (row : Row) →
    row.Decodable mode → ∃ items, row.expressions mode = .ok items
  | .last item, h => by
    obtain ⟨first, hfirst⟩ := item.exists_expression h
    rw [Row.expressions, hfirst]
    exact ⟨_, rfl⟩
  | .more item rest, h => by
    obtain ⟨first, hfirst⟩ := item.exists_expression h.1
    obtain ⟨others, hothers⟩ := rest.exists_expressions h.2
    rw [Row.expressions, hfirst, hothers]
    exact ⟨_, rfl⟩

theorem Choice.exists_expressions {mode : ProseMode} : (choice : Choice) →
    choice.Decodable mode → ∃ branches, choice.expressions mode = .ok branches
  | .last row, h => by
    obtain ⟨items, hitems⟩ := row.exists_expressions h
    rw [Choice.expressions, hitems]
    exact ⟨_, rfl⟩
  | .more row rest, h => by
    obtain ⟨items, hitems⟩ := row.exists_expressions h.1
    obtain ⟨others, hothers⟩ := rest.exists_expressions h.2
    rw [Choice.expressions, hitems, hothers]
    exact ⟨_, rfl⟩
end

theorem Choice.exists_expression {mode : ProseMode} {choice : Choice}
    (h : choice.Decodable mode) : ∃ body, choice.expression mode = .ok body := by
  obtain ⟨branches, hbranches⟩ := choice.exists_expressions h
  rw [Choice.expression, hbranches]
  exact ⟨_, rfl⟩

end Notation

namespace Store

variable {id : GrammarId} {store : Store} {name : String}

theorem local?_localRule (hindex : id.index < store.catalog.grammars.size) (name : String) :
    (Edit.localRule id name store).2.catalog.local? id name =
      some (Edit.localRule id name store).1 := by
  cases hlocal : store.catalog.local? id name with
  | some rule => rw [localRule_eq_of_local hlocal, hlocal]
  | none =>
    simp only [Edit.localRule, Edit.bind_apply, Edit.get_apply, Edit.pure_apply, hlocal]
    rw [local?_push hindex, if_pos ⟨rfl, rfl⟩]
    rfl

theorem options_localRule (id : GrammarId) (name : String) (other : GrammarId) :
    ((Edit.localRule id name store).2.catalog.grammar other).options =
      (store.catalog.grammar other).options := by
  cases hlocal : store.catalog.local? id name with
  | some rule => rw [localRule_eq_of_local hlocal]
  | none =>
    simp only [Edit.localRule, Edit.bind_apply, Edit.get_apply, Edit.pure_apply, hlocal]
    rw [Edit.modifyTable, Edit.grammar_modifyGrammar]
    split
    case isTrue h => rw [h.1]
    case isFalse => rfl

end Store

namespace Edit

variable {id : GrammarId} {store : Store}

theorem bind_singleton (id : GrammarId) (production : Production) (store : Store) :
    Edit.bind id [production] store =
      let named := (localRule id production.name store).2
      let assembled := assemble id (named.catalog.grammar id).options production.body named
      ([(bindOne id production assembled.1 assembled.2).1],
        (bindOne id production assembled.1 assembled.2).2) := by
  have hforM : ∀ next : Production → Edit Unit, ([production].forM next : Edit Unit) store =
      ((), (next production store).2) := fun _ => rfl
  simp only [Edit.bind, bind_apply, get_apply, hforM, List.map_cons, List.map_nil, assembleAll,
    pure_apply, List.zip_cons_cons, List.zip_nil_right, List.mapM_cons, List.mapM_nil]
  rfl

theorem retains_bindOne {production : Production} {target : RuleId}
    (hlocal : store.catalog.local? id production.name = some target) (parser : Parser) :
    (bindOne id production parser store).1 = target ∧
      store.Retains id {target} (bindOne id production parser store).2 := by
  rw [bindOne]
  split
  · exact Store.retains_extend hlocal parser
  · exact Store.retains_define hlocal parser

theorem definition?_bindOne (hindex : id.index < store.catalog.grammars.size)
    {production : Production} {target : RuleId} {slot : Slot}
    (hlocal : store.catalog.local? id production.name = some target)
    (hslot : store.catalog.slot? target = some slot) (hplain : production.incremental = false)
    (parser : Parser) :
    (bindOne id production parser store).2.catalog.definition? target = some parser := by
  have hgrammar : target.grammar = id := by
    obtain ⟨place, -, rfl⟩ := Option.map_eq_some_iff.1 hlocal
    rfl
  subst hgrammar
  rw [bindOne, if_neg (by simp [hplain]), define, bind_apply, Store.localRule_eq_of_local hlocal]
  exact Store.definition?_setDefinition hindex hslot parser

end Edit

/-- What binding a production comes to: once its name has a place, its body is assembled
into a parser that it describes, no two nodes of which have a cache or a mode in common, and
that parser is given to the rule of the name, or added to it. No other rule changes. -/
def Store.Binds (id : GrammarId) (production : Production) (store : Store) (target : RuleId)
    (after : Store) : Prop :=
  let named := (Edit.localRule id production.name store).2
  ∃ assembled parser, named.Grows id assembled ∧
    production.body.Describes id (store.catalog.grammar id).options named after parser ∧
    parser.Separate ∧
    (if production.incremental then Edit.extend id production.name parser assembled
      else Edit.define id production.name parser assembled) = (target, after) ∧
    after.catalog.local? id production.name = some target ∧
    (production.incremental = false → after.catalog.definition? target = some parser) ∧
    named.Retains id {target} after

theorem Edit.bind_binds {id : GrammarId} {store : Store}
    (hindex : id.index < store.catalog.grammars.size) (production : Production) :
    ∃ target after, Edit.bind id [production] store = ([target], after) ∧
      store.Binds id production target after := by
  have hlocal := Store.local?_localRule hindex production.name
  have hindex' : id.index < (localRule id production.name store).2.catalog.grammars.size := by
    rwa [(quiet_localRule id production.name).grammars]
  have hbind := bind_singleton id production store
  simp only [Store.options_localRule] at hbind
  simp only [Store.Binds]
  generalize (localRule id production.name store).1 = target at hlocal
  generalize (localRule id production.name store).2 = named at hlocal hindex' hbind ⊢
  obtain ⟨hgrows, -, hdescribes⟩ := assemble_describes (store.catalog.grammar id).options
    production.body (.refl id named) hindex'
  have hseparate :=
    (coined_assemble id (store.catalog.grammar id).options production.body named).separate
  generalize assemble id (store.catalog.grammar id).options production.body named = assembled
    at hgrows hdescribes hseparate hbind
  obtain ⟨slot, hslot⟩ := Option.isSome_iff_exists.1 (Catalog.isSome_slot?_of_local? hlocal)
  have hlocal' := hgrows.retains.found _ _ hlocal
  have hslot' := hgrows.retains.slot target (Set.notMem_empty _) slot hslot
  obtain ⟨htarget, hretains⟩ := retains_bindOne hlocal' assembled.1
  have hplace : target.slot < named.rules id := by
    obtain ⟨place, -, rfl⟩ := Option.map_eq_some_iff.1 hlocal
    exact (Array.getElem?_eq_some_iff.1 hslot).1
  refine ⟨target, _, by rw [hbind, htarget], assembled.2, assembled.1, hgrows,
    hdescribes.retains hretains ?_, hseparate, ?_, hretains.found _ _ hlocal',
    fun hplain => definition?_bindOne (by rwa [hgrows.grammars]) hlocal' hslot' hplain _,
    (hgrows.retains.mono (Set.empty_subset _)).trans hretains⟩
  · rintro rule rfl
    exact hplace
  · have hbound : bindOne id production assembled.1 assembled.2 = (target, _) :=
      Prod.ext htarget rfl
    rw [← hbound, bindOne]
    split <;> rfl

theorem Notation.Rule.exists_production {rule : Notation.Rule} {mode : ProseMode}
    (h : rule.body.Decodable mode) : ∃ production, rule.production mode = .ok production := by
  obtain ⟨body, hbody⟩ := Notation.Choice.exists_expression h
  rw [Notation.Rule.production, hbody]
  exact ⟨_, rfl⟩

/-- Creating a rule inverts spelling it. -/
theorem Desk.Untouched.createRule_binds {desk : Desk} (h : desk.Untouched) {id : GrammarId}
    (hindex : id.index < desk.store.catalog.grammars.size) {rule : Notation.Rule} {text : String}
    (hspelled : rule.Spelled (asLines text.toList))
    (hdecodable : rule.body.Decodable (desk.store.catalog.grammar id).options.prose) :
    ∃ production read target after,
      rule.production (desk.store.catalog.grammar id).options.prose = .ok production ∧
      desk.store.Alike read ∧ read.Binds id production target after ∧
      (Loading.createRule id text).run desk.store = (.ok target, after) := by
  obtain ⟨production, hproduction⟩ := Notation.Rule.exists_production hdecodable
  obtain ⟨nodes, hyields⟩ := Notation.Rule.accepts hspelled
  obtain ⟨node, hyields, hgives⟩ := RuleText.gives_parseRule hyields
  obtain ⟨parsed, hparse, hparsed, hfaithful⟩ := hgives desk.store h.faithful
  obtain ⟨rule', node', hnode, -, hspelled', hreads⟩ := RuleText.rule_of_yields hyields
  cases hnode
  obtain ⟨rfl, -⟩ := hspelled.unique hspelled' .nil .nil rfl
  obtain ⟨read, hread, hbind⟩ :=
    RuleText.compile_of_readsAs (.cons hreads .nil) id hfaithful
  have halike := hparsed.trans hread
  obtain ⟨target, after, hbound, hbinds⟩ :=
    Edit.bind_binds (by rwa [halike.catalog]) production
  refine ⟨production, read, target, after, hproduction, halike, hbinds, ?_⟩
  have hproductions : [rule].mapM (·.production (parsed.catalog.grammar id).options.prose) =
      .ok [production] := by
    rw [hparsed.catalog, List.mapM_cons, hproduction]
    rfl
  rw [hproductions, RuleText.concluded, hbound] at hbind
  rw [Loading.createRule, Edit.run_bind_ok hparse, Edit.run_bind_ok hbind]
  rfl

theorem Notation.spelled_tight (incremental : Bool) {name inner cs : List Char} {body : Notation.Choice}
    (hname : Notation.IsName name) (hbody : body.Spelled inner)
    (hcs : cs = name ++ (if incremental then ['=', '/'] else ['=']) ++ inner ++ ['\r', '\n']) :
    (⟨name, incremental, body⟩ : Notation.Rule).Spelled cs :=
  ⟨hname, [], [], inner, [], ['\r', '\n'], .nil, .nil, hbody, .nil, Or.inl rfl,
    by simp [hcs, Notation.Rule.sign]⟩

def Notation.sample : Notation.Rule where
  name := ['l', 'i', 's', 't']
  incremental := false
  body := .last (.more
    (.repeated (.between ['1'] []) (.group (.more (.last (.once (.quoted .plain ['a'])))
      (.last (.last (.once (.name ['b'])))))))
    (.last (.once (.option (.last (.last (.once (.numeral .hexadecimal
      (.range ['4', '1'] ['5', 'A'])))))))))

theorem Notation.spelled_sample :
    Notation.sample.Spelled (asLines "list = 1*(\"a\" / b) ;\n [%x41-5A]".toList) := by
  have hspace : Notation.Gap [' '] := ⟨[], ' ', Or.inl rfl, Or.inl rfl, rfl⟩
  have hgaps : Notation.Gaps [' '] := .cons hspace .nil
  have hline : Notation.Gap [';', '\r', '\n', ' '] :=
    ⟨[';', '\r', '\n'], ' ', Or.inr (Or.inr ⟨[], by simp, rfl⟩), Or.inl rfl, rfl⟩
  have hitem : Notation.Item.Spelled (.repeated (.between ['1'] []) (.group (.more
      (.last (.once (.quoted .plain ['a']))) (.last (.last (.once (.name ['b'])))))))
      ['1', '*', '(', '"', 'a', '"', ' ', '/', ' ', 'b', ')'] := by
    refine ⟨by decide, ['(', '"', 'a', '"', ' ', '/', ' ', 'b', ')'], ?_, rfl⟩
    refine ⟨[], ['"', 'a', '"', ' ', '/', ' ', 'b'], [], .nil, ?_, .nil, rfl⟩
    exact ⟨['"', 'a', '"'], [' '], [' '], ['b'], ⟨by decide, [], rfl, rfl⟩, hgaps, hgaps,
      ⟨by decide, rfl⟩, rfl⟩
  have hrest : Notation.Item.Spelled (.once (.option (.last (.last (.once (.numeral .hexadecimal
      (.range ['4', '1'] ['5', 'A']))))))) ['[', '%', 'x', '4', '1', '-', '5', 'A', ']'] :=
    ⟨[], ['%', 'x', '4', '1', '-', '5', 'A'], [], .nil, ⟨by decide, 'x', Or.inl rfl, rfl⟩,
      .nil, rfl⟩
  have hbody : Notation.sample.body.Spelled
      (['1', '*', '(', '"', 'a', '"', ' ', '/', ' ', 'b', ')'] ++
      [' ', ';', '\r', '\n', ' '] ++ ['[', '%', 'x', '4', '1', '-', '5', 'A', ']']) :=
    ⟨_, _, _, hitem, .cons hspace (.cons hline .nil), List.cons_ne_nil _ _, hrest, rfl⟩
  exact ⟨by decide, [' '], [' '], _, [], ['\r', '\n'], hgaps, hgaps, hbody, .nil,
    Or.inl rfl, by decide +kernel⟩

theorem Desk.createRule_binds_sample :
    2 < Store.drafting.catalog.grammars.size ∧ Notation.sample.body.Decodable .reject ∧
      ∃ production read target after, Notation.sample.production .reject = .ok production ∧
        Store.drafting.Alike read ∧ read.Binds ⟨2⟩ production target after ∧
        (Loading.createRule ⟨2⟩ "list = 1*(\"a\" / b) ;\n [%x41-5A]").run Store.drafting =
          (.ok target, after) := by
  have hstore := Store.drafting_checked.2
  have hdecodable : Notation.sample.body.Decodable .reject := by
    refine ⟨⟨⟨by decide, by decide, fun h => absurd rfl h⟩, trivial, trivial⟩, ?_⟩
    exact ⟨by decide, by decide⟩
  have hbinds := @Desk.Untouched.createRule_binds _ Desk.untouched_drafting ⟨2⟩ hstore.1 _ _
    Notation.spelled_sample (by rw [hstore.2]; exact hdecodable)
  rw [hstore.2] at hbinds
  exact ⟨hstore.1, hdecodable, hbinds⟩

end Metasyntax
