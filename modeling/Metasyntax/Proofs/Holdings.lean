import Std.Data.DHashMap.Internal.WF
import Std.Data.HashMap.Lemmas
import Metasyntax.Proofs.Faithful
import Metasyntax.Proofs.LoadSteps

/-!
# What a session holds

A session holds the grammars, rules and parsers that it has names for, and the standard
grammars. Every command is a row of steps of a program that holds these.
-/

set_option autoImplicit false

namespace Metasyntax

section
variable {α β : Type} [BEq α] [Hashable α]

theorem values_eq_map_toList (map : Std.HashMap α β) : map.values = map.toList.map Prod.snd := by
  have hvalues : map.values = _ :=
    Std.DHashMap.Internal.Raw.values_eq_values_toListModel (m := map.inner.1)
  have hlist : map.toList = _ :=
    Std.DHashMap.Internal.Raw.Const.toList_eq_toListModel_map (m := map.inner.1)
  rw [hvalues, hlist, Std.Internal.List.values_eq_map, List.map_map]
  rfl

theorem mem_values_of_getElem? [LawfulBEq α] {map : Std.HashMap α β} {key : α} {value : β}
    (h : map[key]? = some value) : value ∈ map.values := by
  rw [values_eq_map_toList]
  exact List.mem_map.2 ⟨(key, value), Std.HashMap.mem_toList_iff_getElem?_eq_some.2 h, rfl⟩

theorem getElem?_of_eraseAll [LawfulBEq α] {keys : List α} {map : Std.HashMap α β} {key : α}
    {value : β} (h : (keys.foldl (·.erase) map)[key]? = some value) : map[key]? = some value := by
  induction keys generalizing map with
  | nil => exact h
  | cons first rest ih =>
    have hrest := ih h
    rw [Std.HashMap.getElem?_erase] at hrest
    split at hrest
    · cases hrest
    · exact hrest

end

theorem Edit.works_defineAll (id : GrammarId) (options : Options)
    (rules : List (String × Expression)) :
    Edit.Works {.grammar id} (Edit.defineAll id options rules) fun _ => ∅ := by
  refine .forM rules fun ⟨name, body⟩ _ => .bind (Edit.works_assemble id options body)
    fun parser => .discarded (.mono (Edit.works_define id name parser) ?_ fun _ => subset_rfl)
  simp [Set.insert_subset_iff]

theorem Edit.works_standard : Edit.Works ∅ Edit.standard fun _ => ∅ := by
  have hnew (base : Option GrammarId) (name : String) :
      Edit.Works {x | ∃ id, base = some id ∧ .grammar id = x}
        (Edit.newGrammar name base .standard) fun id => {.grammar id} := fun bench hneeds =>
    .of_make (.newGrammar name .standard fun id hid => hneeds ⟨id, hid, rfl⟩)
  refine .bind (.mono (hnew none "core") (by simp) fun _ => subset_rfl) fun core => ?_
  refine .bind (.mono (Edit.works_defineAll core .standard _) (by simp) fun _ => subset_rfl)
    fun _ => ?_
  refine .bind (.mono (hnew (some core) "abnf") (by simp) fun _ => subset_rfl) fun abnf => ?_
  exact .mono (Edit.works_defineAll abnf .standard _) (by simp) fun _ => subset_rfl

theorem Bench.orderly_empty : Bench.Orderly ⟨.empty, ∅⟩ where
  sane := Desk.Reached.empty.sane
  useful _ h := h.elim
  referred _ _ h := by cases h
  supported _ _ h := by cases h
  links _ _ _ _ := rfl
  lost_lt _ h := by cases h

namespace Session

open Edit (givenOf)

theorem run_bind_ok {session session' : Session} {α β : Type} {act : Act α} {next : α → Act β}
    {a : α} (h : act.run session = (.ok a, session')) :
    (act >>= next).run session = (next a).run session' := by
  change ExceptT.bindCont next (act.run session).1 (act.run session).2 = _
  rw [h]
  rfl

theorem run_edit (session : Session) {α : Type} (change : Edit α) : (edit change).run session =
    (.ok (change session.store).1, { session with store := (change session.store).2 }) :=
  rfl

inductive Holds (session : Session) : Handle → Prop where
  | core : Holds session (.grammar .core)
  | abnf : Holds session (.grammar .abnf)
  | grammar {name : String} {id : GrammarId} : session.grammars[name]? = some id →
    Holds session (.grammar id)
  | rule {name : String} {rule : RuleId} : session.rules[name]? = some rule →
    Holds session (.rule rule)
  | parser {name : String} {parser : Parser} : session.parsers[name]? = some parser →
    Holds session (.parser parser)

theorem Holds.of_names {session session' : Session} {x : Handle} (h : session.Holds x)
    (hgrammars : session'.grammars = session.grammars) (hrules : session'.rules = session.rules)
    (hparsers : session'.parsers = session.parsers) : session'.Holds x := by
  cases h with
  | core => exact .core
  | abnf => exact .abnf
  | grammar h => exact .grammar (hgrammars ▸ h)
  | rule h => exact .rule (hrules ▸ h)
  | parser h => exact .parser (hparsers ▸ h)

def bench (session : Session) : Bench := ⟨session.store, {x | session.Holds x}⟩

def benchWith (session : Session) (held : Set Handle) : Bench :=
  ⟨session.store, held ∪ {x | session.Holds x}⟩

def Does (session : Session) (held : Set Handle) {α : Type} (act : Act α)
    (gives : α → Set Handle) : Prop :=
  (session.benchWith held).Steps
    ((act.run session).2.benchWith (held ∪ givenOf gives (act.run session).1))

theorem Does.pure {session : Session} {held : Set Handle} {α : Type} {a : α}
    {gives : α → Set Handle} (h : gives a ⊆ held ∪ {x | session.Holds x}) :
    session.Does held (Pure.pure a) gives := by
  refine Bench.Steps.keep (session.benchWith held) ?_
  exact Set.union_subset (Set.union_subset Set.subset_union_left h) Set.subset_union_right

/-- What the session comes to through what it holds it may hold as well. -/
theorem Does.after {session : Session} {held : Set Handle} {α : Type} {act : Act α}
    {gives : α → Set Handle} {handle : Handle} (hable : (session.benchWith held).Able)
    (h : (session.benchWith held).Step ((session.benchWith held).hold handle))
    (hact : (session.benchWith (insert handle held)).Able →
      session.Does (insert handle held) act gives) : session.Does held act gives := by
  have hhold : (session.benchWith held).hold handle = session.benchWith (insert handle held) := by
    rw [Bench.hold, benchWith, benchWith, Set.insert_union]
  rw [hhold] at h
  have hdoes := hact (Bench.Steps.able (.single h) hable)
  refine Bench.Steps.forget (hdoes.head h) (Set.union_subset_union_left _ ?_)
  exact Set.union_subset_union_left _ (Set.subset_insert _ _)

def Works (needs : Set Handle) {α : Type} (act : Act α) (gives : α → Set Handle) : Prop :=
  ∀ (session : Session) (held : Set Handle), (session.benchWith held).Able → needs ⊆ held →
    session.Does held act gives

namespace Works

variable {needs : Set Handle} {α β : Type}

theorem pure {a : α} {gives : α → Set Handle} (h : gives a ⊆ needs) :
    Works needs (Pure.pure a : Act α) gives :=
  fun _ _ _ hneeds => .pure ((h.trans hneeds).trans Set.subset_union_left)

theorem throw {gives : α → Set Handle} (trouble : Trouble) :
    Works needs (throwThe Trouble trouble : Act α) gives :=
  fun session held _ _ => Bench.Steps.keep (session.benchWith held)
    (Set.union_subset_union_left _ (Set.union_empty _).subset)

theorem bind {act : Act α} {next : α → Act β} {gives : α → Set Handle} {gives' : β → Set Handle}
    (h : Works needs act gives) (hnext : ∀ a, Works (needs ∪ gives a) (next a) gives') :
    Works needs (act >>= next) gives' := by
  intro session held hable hneeds
  have hfirst := h session held hable hneeds
  rw [Does] at hfirst ⊢
  change Bench.Steps _ (((ExceptT.bindCont next (act.run session).1) (act.run session).2).2.benchWith
    (held ∪ givenOf gives' ((ExceptT.bindCont next (act.run session).1) (act.run session).2).1))
  cases hresult : (act.run session).1 with
  | error trouble =>
    rw [hresult] at hfirst
    exact hfirst
  | ok a =>
    rw [hresult] at hfirst
    have hrest := hnext a _ _ (Bench.Steps.able hfirst hable) (Set.union_subset_union_left _ hneeds)
    refine Bench.Steps.forget (hfirst.trans hrest) ?_
    exact Set.union_subset_union_left _ (Set.union_subset_union_left _ Set.subset_union_left)

theorem get {next : Session → Act α} {gives : α → Set Handle}
    (h : ∀ (session : Session) (held : Set Handle), (session.benchWith held).Able → needs ⊆ held →
      session.Does held (next session) gives) : Works needs (MonadState.get >>= next) gives :=
  fun session held hable hneeds => h session held hable hneeds

theorem mono {needs' : Set Handle} {act : Act α} {gives gives' : α → Set Handle}
    (h : Works needs act gives) (hneeds : needs ⊆ needs') (hgives : ∀ a, gives' a ⊆ gives a) :
    Works needs' act gives' := by
  intro session held hable hheld
  refine Bench.Steps.forget (h session held hable (hneeds.trans hheld))
    (Set.union_subset_union_left _ (Set.union_subset_union_right _ ?_))
  cases (act.run session).1 with
  | ok a => exact hgives a
  | error trouble => exact subset_rfl

theorem standard_subset {session : Session} {held : Set Handle} (h : needs ⊆ held) :
    needs ∪ {.grammar .core, .grammar .abnf} ⊆ (session.benchWith held).held := by
  refine Set.union_subset (h.trans Set.subset_union_left) ?_
  rintro x (rfl | rfl)
  · exact Or.inr .core
  · exact Or.inr .abnf

/-- An edit needs what the session holds for it, the standard grammars always included. -/
theorem edit {change : Edit α} {gives : α → Set Handle}
    (h : ∀ bench : Bench, bench.Able → needs ∪ {.grammar .core, .grammar .abnf} ⊆ bench.held →
      bench.Does change gives) : Works needs (Session.edit change) gives := by
  intro session held hable hneeds
  have hdoes := h (session.benchWith held) hable (standard_subset hneeds)
  refine Bench.Steps.forget hdoes ?_
  rintro x ((hx | hx) | hx)
  · exact Or.inl (Or.inl hx)
  · exact Or.inr hx
  · exact Or.inl (Or.inr (hx.of_names rfl rfl rfl))

theorem edited {change : Edit α} {gives : α → Set Handle} {needs' : Set Handle}
    (h : Edit.Works needs' change gives)
    (hneeds : needs' ⊆ needs ∪ {.grammar .core, .grammar .abnf}) :
    Works needs (Session.edit change) gives :=
  edit fun bench _ hheld => h bench (hneeds.trans hheld)

theorem modify {change : Session → Session} {gives : Unit → Set Handle}
    (hstore : ∀ session, (change session).store = session.store)
    (hholds : ∀ session x, (change session).Holds x → session.Holds x ∨ x ∈ needs)
    (hgives : gives () ⊆ needs) :
    Works needs (MonadState.modifyGet fun session => ((), change session) : Act Unit) gives := by
  intro session held _ hneeds
  have hstore' : (change session).benchWith (held ∪ gives ()) =
      ⟨session.store, (held ∪ gives ()) ∪ {x | (change session).Holds x}⟩ := by
    rw [benchWith, hstore]
  change Bench.Steps _ ((change session).benchWith (held ∪ gives ()))
  rw [hstore']
  refine Bench.Steps.keep (session.benchWith held) ?_
  rintro x ((hx | hx) | hx)
  · exact Or.inl hx
  · exact Or.inl (hneeds (hgives hx))
  · rcases hholds session x hx with hx | hx
    · exact Or.inr hx
    · exact Or.inl (hneeds hx)

theorem mapM {next : α → Act β} {gives : β → Set Handle} (items : List α)
    (h : ∀ a, Works needs (next a) gives) :
    Works needs (items.mapM next) fun bs => {x | ∃ b ∈ bs, x ∈ gives b} := by
  induction items with
  | nil => exact .pure (by simp)
  | cons a rest ih =>
    rw [List.mapM_cons]
    refine .bind (h a) fun b => .bind (.mono ih Set.subset_union_left fun _ => subset_rfl)
      fun bs => .pure ?_
    rintro x ⟨b', hb', hx⟩
    rcases List.mem_cons.1 hb' with rfl | hb'
    · exact Or.inl (Or.inr hx)
    · exact Or.inr ⟨b', hb', hx⟩

end Works

section
variable {needs : Set Handle}

theorem works_orFail {α : Type} {gives : α → Set Handle} (result : Except GrammarError α)
    (h : givenOf gives result ⊆ needs) : Works needs (orFail result) gives := by
  cases result with
  | ok value => exact .pure h
  | error error => exact .throw _

theorem works_present {α : Type} (shown : Except FormatError α) :
    Works needs (present shown) fun _ => ∅ := by
  cases shown with
  | ok value => exact .pure (Set.empty_subset _)
  | error error => exact .throw _

theorem works_load {α : Type} {loading : Loading α} {gives : α → Set Handle}
    {needs' : Set Handle} (h : Loading.Works needs' loading gives)
    (hneeds : needs' ⊆ needs ∪ {.grammar .core, .grammar .abnf}) :
    Works needs (load loading) gives := by
  have hrun : Works needs (Session.edit loading.run) (givenOf gives) :=
    .edit fun bench hable hheld => h bench hable (hneeds.trans hheld)
  refine .bind hrun fun result => ?_
  cases result with
  | ok value => exact .pure Set.subset_union_right
  | error failure => exact .throw _

theorem works_grammarNamed (name : String) :
    Works needs (grammarNamed name) fun id => {.grammar id} := by
  rw [grammarNamed]
  split
  · exact fun _ _ _ _ => .pure (Set.singleton_subset_iff.2 (Or.inr .core))
  split
  · exact fun _ _ _ _ => .pure (Set.singleton_subset_iff.2 (Or.inr .abnf))
  refine .get fun session held hable _ => ?_
  split
  case h_1 id hid => exact .pure (Set.singleton_subset_iff.2 (Or.inr (.grammar hid)))
  case h_2 => exact Works.throw _ session held hable subset_rfl

theorem works_resolveRule (arg : RuleArg) :
    Works needs (resolveRule arg) fun rule => {.rule rule} := by
  cases arg with
  | stored name =>
    refine .get fun session held hable _ => ?_
    split
    case h_1 rule hrule => exact .pure (Set.singleton_subset_iff.2 (Or.inr (.rule hrule)))
    case h_2 => exact Works.throw _ session held hable subset_rfl
  | named grammar name =>
    exact .bind (works_grammarNamed grammar) fun id => .edited (Edit.works_rule id name) (by simp)

theorem Does.hold {session : Session} {held : Set Handle} {parser : Parser}
    (hable : (session.benchWith held).Able)
    (h : (session.benchWith held).Step ((session.benchWith held).hold (.parser parser))) :
    session.Does held (Pure.pure parser) fun parser => {.parser parser} :=
  .after hable h fun _ => .pure (Set.singleton_subset_iff.2 (Or.inl (Or.inl rfl)))

mutual
theorem works_resolveParser (arg : ParserArg) :
    Works needs (resolveParser arg) fun parser => {.parser parser} := by
  cases arg with
  | stored name =>
    rw [resolveParser]
    refine .get fun session held hable _ => ?_
    split
    case h_1 parser hparser => exact .pure (Set.singleton_subset_iff.2 (Or.inr (.parser hparser)))
    case h_2 => exact Works.throw _ session held hable subset_rfl
  | literal terminal =>
    rw [resolveParser]
    exact fun _ _ hable _ => .hold hable (.literal terminal)
  | prose text =>
    rw [resolveParser]
    exact fun _ _ hable _ => .hold hable (.prose text)
  | alternation firstMatch branches =>
    rw [resolveParser]
    exact .bind (works_resolveParsers branches) fun parsers =>
      .edited (Edit.works_alternation firstMatch parsers)
        (Set.subset_union_right.trans Set.subset_union_left)
  | concatenation parts =>
    rw [resolveParser]
    exact .bind (works_resolveParsers parts) fun parsers _ _ hable hneeds => .hold hable
      (.concatenation fun part hpart => Or.inl (hneeds (Or.inr ⟨part, hpart, rfl⟩)))
  | repetition bounds capacity element =>
    rw [resolveParser]
    exact .bind (works_resolveParser element) fun parser =>
      .edited (Edit.works_repetition capacity bounds parser) (by simp)
  | optional element =>
    rw [resolveParser]
    exact .bind (works_resolveParser element) fun parser =>
      .edited (Edit.works_optional _ parser) (by simp)
  | rule target =>
    rw [resolveParser]
    exact .bind (works_resolveRule target) fun rule => .get fun _ _ hable hneeds =>
      .hold hable (.reference (Or.inl (hneeds (Or.inr rfl))))

theorem works_resolveParsers (args : List ParserArg) :
    Works needs (resolveParsers args) fun parsers => {x | ∃ parser ∈ parsers, .parser parser = x} := by
  cases args with
  | nil =>
    rw [resolveParsers]
    exact .pure (by simp)
  | cons arg rest =>
    rw [resolveParsers]
    refine .bind (works_resolveParser arg) fun parser => .bind
      (.mono (works_resolveParsers rest) Set.subset_union_left fun _ => subset_rfl)
      fun parsers => .pure ?_
    rintro x ⟨parser', hparser, rfl⟩
    rcases List.mem_cons.1 hparser with rfl | hparser
    · exact Or.inl (Or.inr rfl)
    · exact Or.inr ⟨parser', hparser, rfl⟩
end

theorem getElem?_insert_or {α : Type} {table : Std.HashMap String α} {name other : String}
    {value found : α} (handle : α → Handle) (hvalue : handle value ∈ needs)
    (h : (table.insert name value)[other]? = some found) :
    table[other]? = some found ∨ handle found ∈ needs := by
  rw [Std.HashMap.getElem?_insert] at h
  split at h
  · exact Or.inr (Option.some.inj h ▸ hvalue)
  · exact Or.inl h

/-- A change of the names alone works with what it needs where it gives no name to anything
that had none and is not needed. -/
theorem works_naming {change : Session → Session}
    (hstore : ∀ session, (change session).store = session.store)
    (hgrammar : ∀ (session : Session) (name : String) (id : GrammarId),
      (change session).grammars[name]? = some id →
        session.grammars[name]? = some id ∨ .grammar id ∈ needs)
    (hrule : ∀ (session : Session) (name : String) (rule : RuleId),
      (change session).rules[name]? = some rule →
        session.rules[name]? = some rule ∨ .rule rule ∈ needs)
    (hparser : ∀ (session : Session) (name : String) (parser : Parser),
      (change session).parsers[name]? = some parser →
        session.parsers[name]? = some parser ∨ .parser parser ∈ needs) :
    Works needs (MonadState.modifyGet fun session => ((), change session) : Act Unit)
      fun _ => ∅ := by
  refine .modify hstore (fun session x hx => ?_) (Set.empty_subset _)
  cases hx with
  | core => exact Or.inl .core
  | abnf => exact Or.inl .abnf
  | grammar h => exact (hgrammar session _ _ h).imp_left .grammar
  | rule h => exact (hrule session _ _ h).imp_left .rule
  | parser h => exact (hparser session _ _ h).imp_left .parser

theorem works_storeGrammar {id : GrammarId} (hid : .grammar id ∈ needs) (name : String) :
    Works needs (storeGrammar name id) fun _ => ∅ :=
  works_naming (fun _ => rfl) (fun _ _ _ => getElem?_insert_or .grammar hid)
    (fun _ _ _ => Or.inl) fun _ _ _ => Or.inl

theorem works_storeRule {rule : RuleId} (hrule : .rule rule ∈ needs) (name : Option String) :
    Works needs (storeRule name rule) fun _ => ∅ := by
  cases name with
  | none => exact .pure (Set.empty_subset _)
  | some name =>
    exact works_naming (fun _ => rfl) (fun _ _ _ => Or.inl)
      (fun _ _ _ => getElem?_insert_or .rule hrule) fun _ _ _ => Or.inl

theorem works_storeParser {parser : Parser} (hparser : .parser parser ∈ needs) (name : String) :
    Works needs (storeParser name parser) fun _ => ∅ :=
  works_naming (fun _ => rfl) (fun _ _ _ => Or.inl) (fun _ _ _ => Or.inl)
    fun _ _ _ => getElem?_insert_or .parser hparser

theorem works_drop (names : List String) : Works needs (MonadState.modifyGet fun session =>
    ((), { session with
      grammars := names.foldl (·.erase) session.grammars
      rules := names.foldl (·.erase) session.rules
      parsers := names.foldl (·.erase) session.parsers }) : Act Unit) fun _ => ∅ :=
  works_naming (fun _ => rfl) (fun _ _ _ h => Or.inl (getElem?_of_eraseAll h))
    (fun _ _ _ h => Or.inl (getElem?_of_eraseAll h))
    fun _ _ _ h => Or.inl (getElem?_of_eraseAll h)

theorem works_show {α : Type} (shown : Session → α) :
    Works needs (do return shown (← get) : Act α) fun _ => ∅ :=
  .get fun _ _ _ _ => .pure (Set.empty_subset _)

theorem works_answerRule {rule : RuleId} (hrule : .rule rule ∈ needs) (name : Option String) :
    Works needs (answerRule rule name) fun _ => ∅ :=
  .bind (works_storeRule hrule name) fun _ => works_show _

theorem works_answerRule_none (rule : RuleId) : Works needs (answerRule rule none) fun _ => ∅ :=
  works_show _

theorem works_answerRules (rules : List RuleId) : Works needs (answerRules rules) fun _ => ∅ :=
  works_show _

theorem works_loadTexts (id : GrammarId) (texts : RuleTexts) :
    Loading.Works {.grammar .abnf, .grammar id} (loadTexts id texts)
      fun rules => {x | ∃ rule ∈ rules, .rule rule = x} := by
  cases texts with
  | separate texts => exact works_loadRules id texts
  | joined text => exact works_loadRulelist id text

theorem works_parsing {α : Type} {run : Catalog → Run (Except ParseError α)}
    {needs' : Set Handle} (h : Edit.Works needs' (Edit.parsing run) fun _ => ∅)
    (hneeds : needs' ⊆ needs ∪ {.grammar .core, .grammar .abnf}) :
    Works needs (Session.parsing run) fun _ => ∅ := by
  refine .bind (.edited h hneeds) fun result => ?_
  have hresult : Works (needs ∪ ∅) (orFail result) fun _ => ∅ :=
    works_orFail result (by cases result <;> exact Set.empty_subset _)
  refine .bind hresult fun outcome => ?_
  cases outcome with
  | ok value => exact .pure (Set.empty_subset _)
  | error failure => exact .throw _

theorem works_judge (rule : RuleId) (text : String) :
    Works needs (judge rule text) fun _ => ∅ := by
  refine .bind (.edited (Edit.works_parseAll rule _) (Set.empty_subset _)) fun result => ?_
  split <;> exact .pure (Set.empty_subset _)

theorem works_matchesFor (matcher : Matcher) (source : Source) (start : Nat) :
    Works needs (matchesFor matcher source start) fun _ => ∅ := by
  cases matcher with
  | parser arg =>
    exact .bind (works_resolveParser arg) fun parser =>
      works_parsing (Edit.works_matchesOf (Set.mem_singleton _) source start) (by simp)
  | rule arg =>
    exact .bind (works_resolveRule arg) fun rule =>
      works_parsing (Edit.works_ruleMatches rule source start) (Set.empty_subset _)

end

abbrev Stepwise (act : Act Answer) : Prop := Works ∅ act fun _ => ∅

section
variable {next : GrammarId → Act Answer}

theorem stepwise_grammar (name : String)
    (h : ∀ id, Works (∅ ∪ {.grammar id}) (next id) fun _ => ∅) :
    Stepwise (grammarNamed name >>= next) :=
  .bind (works_grammarNamed name) h

end

section
variable {next : RuleId → Act Answer}

theorem stepwise_rule (arg : RuleArg) (h : ∀ rule, Works (∅ ∪ {.rule rule}) (next rule) fun _ => ∅) :
    Stepwise (resolveRule arg >>= next) :=
  .bind (works_resolveRule arg) h

end

theorem works_answered {needs needs' : Set Handle} {change : Edit RuleId}
    (h : Edit.Works needs' change fun rule => {.rule rule})
    (hneeds : needs' ⊆ needs ∪ {.grammar .core, .grammar .abnf}) (store : Option String) :
    Works needs (Session.edit change >>= fun rule => answerRule rule store) fun _ => ∅ :=
  .bind (.edited h hneeds) fun _ => works_answerRule (Or.inr rfl) store

theorem works_changed {needs needs' : Set Handle} {change : Edit Unit}
    (h : Edit.Works needs' change fun _ => ∅)
    (hneeds : needs' ⊆ needs ∪ {.grammar .core, .grammar .abnf}) (rule : RuleId) :
    Works needs (Session.edit change >>= fun _ => answerRule rule none) fun _ => ∅ :=
  .bind (.edited h hneeds) fun _ => works_answerRule_none rule

theorem stepwise_newGrammar (store name : String) (basis : Basis) (options : Options) :
    Stepwise (perform (.newGrammar store name basis options)) := by
  have hnew (base : Option GrammarId) {needs : Set Handle}
      (hbase : ∀ id, base = some id → .grammar id ∈ needs ∪ {.grammar .core, .grammar .abnf}) :
      Works needs (do
        let id ← Session.edit (Edit.newGrammar name base options)
        storeGrammar store id
        return .grammar ((← get).store.grammarSummary id) : Act Answer) fun _ => ∅ := by
    have hmake : Edit.Works (needs ∪ {.grammar .core, .grammar .abnf})
        (Edit.newGrammar name base options) fun id => {.grammar id} := fun bench hneeds =>
      .of_make (.newGrammar name options fun id hid => hneeds (hbase id hid))
    exact .bind (.edited hmake subset_rfl) fun id =>
      .bind (works_storeGrammar (Or.inr rfl) store) fun _ => works_show _
  cases basis with
  | core => exact hnew (some .core) fun id hid => by cases hid; simp
  | none => exact hnew none nofun
  | grammar base =>
    have hsome : Works ∅ (some <$> grammarNamed base)
        fun base => {x | ∃ id, base = some id ∧ .grammar id = x} :=
      .bind (works_grammarNamed base) fun id => .pure (by simp)
    exact .bind hsome fun base => hnew base fun id hid => Or.inl (Or.inr ⟨id, hid, rfl⟩)

theorem stepwise_create (grammar text : String) (store : Option String) :
    Stepwise (perform (.create grammar text store)) :=
  stepwise_grammar grammar fun id => .bind (works_load (works_createRule id text) (by simp))
    fun _ => works_answerRule (Or.inr rfl) store

theorem stepwise_load (grammar : String) (texts : RuleTexts) :
    Stepwise (perform (.load grammar texts)) :=
  stepwise_grammar grammar fun id => .bind (works_load (works_loadTexts id texts) (by simp))
    fun rules => works_answerRules rules

theorem stepwise_build (store name : String) (texts : RuleTexts) (imports : List (String × RuleArg))
    (options : Options) : Stepwise (perform (.build store name texts imports options)) := by
  have hload (id : GrammarId) : Loading.Works {.grammar .abnf, .grammar id} (loadTexts id texts)
      fun _ => ∅ :=
    (works_loadTexts id texts).mono subset_rfl fun _ => Set.empty_subset _
  have himport (item : String × RuleArg) : Works ∅ (do
      return (item.1, ← resolveRule item.2) : Act (String × RuleId)) fun item => {.rule item.2} :=
    .bind (works_resolveRule item.2) fun rule => .pure Set.subset_union_right
  refine .bind (.mapM imports himport) fun imports => .bind
    (works_load (works_builtGrammar name options hload imports) ?_)
    fun id => .bind (works_storeGrammar (Or.inr rfl) store) fun _ => works_show _
  rintro x (rfl | rfl | ⟨item, hitem, rfl⟩)
  · simp
  · simp
  · exact Or.inl (Or.inr ⟨item, hitem, rfl⟩)

theorem stepwise_importRule (grammar name : String) (rule : RuleArg) (store : Option String) :
    Stepwise (perform (.importRule grammar name rule store)) :=
  stepwise_grammar grammar fun id => .bind (works_resolveRule rule) fun rule =>
    .bind (.edited (Edit.works_importRule id name rule) (by simp [Set.insert_subset_iff]))
      fun result => .bind (works_orFail result Set.subset_union_right) fun _ =>
        works_answerRule (Or.inr rfl) store

theorem stepwise_lookup (grammar name : String) (store : Option String) :
    Stepwise (perform (.lookup grammar name store)) := by
  refine stepwise_grammar grammar fun id => .get fun session held hable hneeds => ?_
  split
  case h_1 rule hrule =>
    exact .after hable (.lookup (Or.inl (hneeds (Or.inr rfl))) hrule) fun hable' =>
      works_answerRule (Set.mem_insert _ _) store session _ hable' subset_rfl
  case h_2 => exact .pure (Set.empty_subset _)

theorem works_storedParser {needs : Set Handle} {parser : Parser} (hparser : .parser parser ∈ needs)
    (store : String) : Works needs (do
      storeParser store parser
      return .text parser.render : Act Answer) fun _ => ∅ :=
  .bind (works_storeParser hparser store) fun _ => .pure (Set.empty_subset _)

theorem stepwise_definition (rule : RuleArg) (store : String) :
    Stepwise (perform (.definition rule store)) := by
  refine stepwise_rule rule fun rule => .get fun session held hable hneeds => ?_
  split
  case h_1 definition hdefinition =>
    exact .after hable (.definition (Or.inl (hneeds (Or.inr rfl))) hdefinition) fun hable' =>
      works_storedParser (Set.mem_singleton _) store session _ hable'
        (Set.singleton_subset_iff.2 (Set.mem_insert _ _))
  case h_2 => exact .pure (Set.empty_subset _)

theorem stepwise_part (arg : ParserArg) (place : Nat) (store : String) :
    Stepwise (perform (.part arg place store)) := by
  refine .bind (works_resolveParser arg) fun parser session held hable hneeds => ?_
  cases hpart : parser.walk[place]? with
  | none => exact .pure (Set.empty_subset _)
  | some part =>
    exact .after hable (.part (Or.inl (hneeds (Or.inr rfl))) (List.mem_of_getElem? hpart))
      fun hable' => works_storedParser (Set.mem_singleton _) store session _ hable'
        (Set.singleton_subset_iff.2 (Set.mem_insert _ _))

theorem stepwise_setFirstMatch (rule : RuleArg) (value : Bool) :
    Stepwise (perform (.setFirstMatch rule value)) := by
  refine stepwise_rule rule fun rule =>
    .bind (.edited (Edit.works_setFirstMatch rule value) (by simp)) fun result => ?_
  have hresult : Works (∅ ∪ {.rule rule} ∪ ∅) (orFail result) fun _ => ∅ :=
    works_orFail result (by cases result <;> exact Set.empty_subset _)
  exact .bind hresult fun _ => works_answerRule_none _

theorem stepwise_upgrade (arg : ParserArg) : Stepwise (perform (.upgrade arg)) := by
  refine .bind (works_resolveParser arg) fun parser => ?_
  split
  · refine .get fun session held hable _ => ?_
    have hresult {ref : RuleRef} : Works held (orFail (session.store.catalog.resolve ref))
        fun _ => ∅ :=
      works_orFail _ (by cases session.store.catalog.resolve ref <;> exact Set.empty_subset _)
    exact Works.bind hresult (fun rule => works_answerRule_none rule) session held hable subset_rfl
  · exact .throw _

theorem stepwise_parserCache (arg : ParserArg) : Stepwise (perform (.parserCache arg)) := by
  refine .bind (works_resolveParser arg) fun parser => ?_
  split
  · exact works_show _
  · exact .pure (Set.empty_subset _)

theorem stepwise_debug (subject : Subject) : Stepwise (perform (.debug subject)) := by
  cases subject with
  | grammar name => exact stepwise_grammar name fun _ => works_show _
  | rule rule => exact stepwise_rule rule fun _ => works_show _
  | parser arg => exact .bind (works_resolveParser arg) fun _ => .pure (Set.empty_subset _)

/-- Every command is a row of steps of a program that holds what the session holds. -/
theorem stepwise_perform (command : Command) : Stepwise (perform command) := by
  cases command with
  | newGrammar store name basis options => exact stepwise_newGrammar store name basis options
  | create grammar text store => exact stepwise_create grammar text store
  | load grammar texts => exact stepwise_load grammar texts
  | build store name texts imports options => exact stepwise_build store name texts imports options
  | importRule grammar name rule store => exact stepwise_importRule grammar name rule store
  | rule grammar name store =>
    exact stepwise_grammar grammar fun id => works_answered (Edit.works_rule id name) (by simp) store
  | localRule grammar name store =>
    exact stepwise_grammar grammar fun id =>
      works_answered (Edit.works_localRule id name) (by simp) store
  | lookup grammar name store => exact stepwise_lookup grammar name store
  | grammarInfo grammar | rules grammar | ruleNames grammar | undefinedRules grammar
    | cacheStats grammar | caches grammar => exact stepwise_grammar grammar fun _ => works_show _
  | define grammar name parser store =>
    exact stepwise_grammar grammar fun id => .bind (works_resolveParser parser) fun parser =>
      works_answered (Edit.works_define id name parser) (by simp [Set.insert_subset_iff]) store
  | extend grammar name parser store =>
    exact stepwise_grammar grammar fun id => .bind (works_resolveParser parser) fun parser =>
      works_answered (Edit.works_extend id name parser) (by simp [Set.insert_subset_iff]) store
  | setDefinition rule parser =>
    exact stepwise_rule rule fun rule => .bind (works_resolveParser parser) fun parser =>
      works_changed (Edit.works_setDefinition rule parser) (by simp [Set.insert_subset_iff]) rule
  | addAlternative rule parser =>
    exact stepwise_rule rule fun rule => .bind (works_resolveParser parser) fun parser =>
      works_changed (Edit.works_addAlternative rule parser) (by simp [Set.insert_subset_iff]) rule
  | exclude rule excluded =>
    exact stepwise_rule rule fun rule => .bind (works_resolveRule excluded) fun excluded =>
      works_changed (Edit.works_exclude rule excluded) (by simp [Set.insert_subset_iff]) rule
  | clearExclusion rule =>
    exact stepwise_rule rule fun rule =>
      works_changed (Edit.works_clearExclusion rule) (by simp) rule
  | setFirstMatch rule value => exact stepwise_setFirstMatch rule value
  | ruleInfo rule => exact stepwise_rule rule fun rule => works_answerRule_none rule
  | definition rule store => exact stepwise_definition rule store
  | sameRule first second =>
    exact stepwise_rule first fun _ => .bind (works_resolveRule second) fun _ =>
      .pure (Set.empty_subset _)
  | sameGrammar first second =>
    exact stepwise_grammar first fun _ => .bind (works_grammarNamed second) fun _ =>
      .pure (Set.empty_subset _)
  | parse rule text start view =>
    exact stepwise_rule rule fun rule =>
      .bind (works_parsing (Edit.works_parse rule _ start) (Set.empty_subset _)) fun found =>
        .bind (works_present _) fun _ => .pure (Set.empty_subset _)
  | parseAll rule text view =>
    exact stepwise_rule rule fun rule =>
      .bind (works_parsing (Edit.works_parseAll rule _) (Set.empty_subset _)) fun node =>
        .bind (works_present _) fun _ => .pure (Set.empty_subset _)
  | accepts rule texts =>
    exact stepwise_rule rule fun rule => .bind (.mapM texts (works_judge rule)) fun _ =>
      .pure (Set.empty_subset _)
  | matchesOf matcher text start view =>
    exact .bind (works_matchesFor matcher _ start) fun _ => .pure (Set.empty_subset _)
  | parser store arg =>
    exact .bind (works_resolveParser arg) fun parser => works_storedParser (Or.inr rfl) store
  | describe arg => exact .bind (works_resolveParser arg) fun _ => works_show _
  | walk arg => exact .bind (works_resolveParser arg) fun _ => .pure (Set.empty_subset _)
  | part arg place store => exact stepwise_part arg place store
  | upgrade arg => exact stepwise_upgrade arg
  | clearCaches grammar =>
    exact stepwise_grammar grammar fun id =>
      .bind (.edited (Edit.works_clearCaches id) (Set.empty_subset _)) fun _ =>
        .pure (Set.empty_subset _)
  | parserCache arg => exact stepwise_parserCache arg
  | drop names => exact .bind (works_drop names) fun _ => .pure (Set.empty_subset _)
  | debug subject => exact stepwise_debug subject

def Next (session session' : Session) : Prop :=
  ∃ command answer, session.step command = .ok (answer, session')

def carryOut (session : Session) : List Command → Option Session
  | [] => some session
  | command :: rest =>
    match session.step command with
    | .ok (_, session) => session.carryOut rest
    | .error _ => none

theorem Reached.carryOut {session session' : Session} (h : session.Reached)
    {commands : List Command} (hcarry : session.carryOut commands = some session') :
    session'.Reached := by
  induction commands generalizing session with
  | nil => exact Option.some.inj hcarry ▸ h
  | cons command rest ih =>
    rw [Session.carryOut] at hcarry
    split at hcarry
    case h_1 answer next hstep => exact ih (h.step hstep) hcarry
    case h_2 => cases hcarry

/-- Whatever a session holds is left in place when it is tidied up. -/
theorem collects_tidy (session : Session) : session.bench.Collects session.tidy.bench := by
  have hheld : {x | session.tidy.Holds x} = {x | session.Holds x} := by
    ext x
    exact ⟨fun h => h.of_names rfl rfl rfl, fun h => h.of_names rfl rfl rfl⟩
  have htidy : session.tidy.bench = ⟨session.store.collect session.roots, session.bench.held⟩ := by
    rw [bench, hheld]
    rfl
  rw [htidy]
  refine .collect (fun id hid => ?_) (fun rule hrule => ?_) fun parser hparser => ?_
  · cases hid with
    | core => simp [roots]
    | abnf => simp [roots]
    | grammar h => simp [roots, mem_values_of_getElem? h]
  · cases hrule with
    | rule h =>
      exact List.mem_append_right _ (List.mem_map.2 ⟨rule, mem_values_of_getElem? h, rfl⟩)
  · cases hparser with
    | parser h => exact mem_values_of_getElem? h

/-- A session that carries out a command carries it out step by step, and lets go of the rest
in the end. -/
theorem Next.exists_steps {session session' : Session} (h : session.Next session')
    (hable : session.bench.Able) :
    ∃ bench, session.bench.Steps bench ∧ bench.Collects session'.bench := by
  obtain ⟨command, answer, hstep⟩ := h
  have hstart : session.benchWith ∅ = session.bench := by rw [benchWith, bench, Set.empty_union]
  have hend (result : Except Trouble Answer) (after : Session) :
      after.benchWith (∅ ∪ givenOf (fun _ => ∅) result) = after.bench := by
    cases result <;> simp [benchWith, bench, givenOf]
  rw [← hstart] at hable
  have hperform := stepwise_perform command session ∅ hable subset_rfl
  rw [Does, hstart, hend] at hperform
  rw [Session.step] at hstep
  split at hstep
  case h_4 => cases hstep
  all_goals
    rename_i heq
    rw [heq] at hperform
    cases hstep
    exact ⟨_, hperform, collects_tidy _⟩

theorem orderly_start : start.bench.Orderly := by
  have hstandard : Bench.Orderly ⟨.standard, ∅⟩ := by
    have hsteps := Edit.works_standard ⟨.empty, ∅⟩ subset_rfl
    rw [Bench.Does, Set.union_empty] at hsteps
    rw [Store.standard, StateT.run]
    exact hsteps.orderly Bench.orderly_empty
  have hheld (parser : Parser) : ¬ start.Holds (.parser parser) := fun h => by
    cases h with
    | parser h => simp [start] at h
  obtain ⟨-, -, hlost, hsize, -⟩ := Standard.checked
  rw [Standard.catalog] at hlost hsize
  have huseful {id : GrammarId} (hid : id.index < 2) : Store.standard.Useful (.grammar id) :=
    ⟨by simp [Store.living, Catalog.alive, hlost], hsize.symm ▸ hid⟩
  exact
    { hstandard with
      sane := hstandard.sane.forget fun parser hparser => (hheld parser hparser).elim
      useful := fun handle hhandle => by
        cases hhandle with
        | core => exact huseful Nat.zero_lt_two
        | abnf => exact huseful Nat.one_lt_two
        | grammar h | rule h | parser h => simp [start] at h }

theorem able_start : start.bench.Able where
  orderly := orderly_start
  readable name hname := by
    obtain ⟨rule, -, hrule, -⟩ := Standard.exists_entry hname
    rw [Standard.catalog] at hrule
    exact ⟨rule, hrule⟩

theorem Next.able {session session' : Session} (h : session.Next session')
    (hable : session.bench.Able) : session'.bench.Able := by
  obtain ⟨bench, hsteps, hcollects⟩ := h.exists_steps hable
  exact hcollects.able (hsteps.able hable)

theorem Reached.able {session : Session} (h : session.Reached) : session.bench.Able := by
  induction h with
  | start => exact able_start
  | step _ hnext ih => exact Next.able ⟨_, _, hnext⟩ ih

theorem Reached.loadable {session : Session} (h : session.Reached) : session.store.Loadable :=
  h.able.loadable

theorem Reached.orderly {session : Session} (h : session.Reached) : session.bench.Orderly :=
  h.able.orderly

theorem Next.durable {P : Store → Prop} (hP : Durable P) {session session' : Session}
    (h : session.Next session') (hable : session.bench.Able) (hsession : P session.store) :
    P session'.store := by
  obtain ⟨bench, hsteps, hcollects⟩ := h.exists_steps hable
  exact hcollects.durable hP (hsteps.durable hP hsession)

theorem Reached.holds {P : Store → Prop} (hP : Durable P) (hstandard : P .standard)
    {session : Session} (h : session.Reached) : P session.store := by
  induction h with
  | start => exact hstandard
  | step hreached hnext ih => exact Next.durable hP ⟨_, _, hnext⟩ hreached.able ih

end Session

end Metasyntax
