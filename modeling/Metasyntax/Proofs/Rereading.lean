import Metasyntax.Proofs.Resolution

/-!
# Reading texts one by one

Where rule text is read with rules that give the same answers in all stores of some kind,
and reading leaves the kind of the store alone, what a text states does not depend on
what was read before it. So the productions of a list of texts are those of each of them,
in the order of the list.
-/

set_option autoImplicit false

namespace Metasyntax

open Edit (Keeps)

namespace Edit

variable {P : Store → Prop} {ε ε' α β : Type}

structure Firm (P : Store → Prop) (load : ExceptT ε Edit α) : Prop where
  keeps : Keeps P load.run
  same : ∀ store store', P store → P store' →
    (load.run store).1.toOption = (load.run store').1.toOption

theorem toOption_run_bind (load : ExceptT ε Edit α) (next : α → ExceptT ε Edit β) (store : Store) :
    ((load >>= next).run store).1.toOption =
      (load.run store).1.toOption.bind fun a =>
        ((next a).run (load.run store).2).1.toOption := by
  rcases hload : load.run store with ⟨error | a, between⟩
  · rw [run_bind_error hload]
    rfl
  · rw [run_bind_ok hload]
    rfl

theorem toOption_run_adapt (load : ExceptT ε Edit α) (f : ε → ε') (store : Store) :
    ((load.adapt f).run store).1.toOption = (load.run store).1.toOption := by
  change (Except.mapError f (load.run store).1).toOption = (load.run store).1.toOption
  cases (load.run store).1 <;> rfl

namespace Firm

theorem andThen {load : ExceptT ε Edit α} {next : α → ExceptT ε Edit β} (h : Firm P load)
    (hnext : ∀ a, Firm P (next a)) : Firm P (load >>= next) where
  keeps := .andThen h.keeps fun a => (hnext a).keeps
  same store store' hstore hstore' := by
    rw [toOption_run_bind, toOption_run_bind, h.same store store' hstore hstore']
    exact Option.bind_congr fun a _ =>
      (hnext a).same _ _ (h.keeps store hstore) (h.keeps store' hstore')

theorem done (a : α) : Firm P (Pure.pure a : ExceptT ε Edit α) := ⟨.done a, fun _ _ _ _ => rfl⟩

theorem throw (error : ε) : Firm P (throwThe ε error : ExceptT ε Edit α) :=
  ⟨.throw error, fun _ _ _ _ => rfl⟩

theorem ofExcept (result : Except ε α) : Firm P (liftM result : ExceptT ε Edit α) :=
  ⟨.ofExcept result, fun _ _ _ _ => rfl⟩

theorem lift {edit : Edit α} (h : Keeps P edit)
    (hsame : ∀ store store', P store → P store' → (edit store).1 = (edit store').1) :
    Firm P (liftM edit : ExceptT ε Edit α) where
  keeps := .lift h
  same store store' hstore hstore' :=
    congrArg (fun a => some a) (hsame store store' hstore hstore')

theorem adapt {load : ExceptT ε Edit α} (h : Firm P load) (f : ε → ε') : Firm P (load.adapt f) where
  keeps := .adapt h.keeps f
  same store store' hstore hstore' := by
    have hsame := h.same store store' hstore hstore'
    rwa [← toOption_run_adapt load f, ← toOption_run_adapt load f] at hsame

theorem tolerant : Tolerant fun {_} (load : ExceptT ε Edit _) => Firm P load where
  done := done
  throw := throw
  andThen := andThen

theorem mapM {next : α → ExceptT ε Edit β} (h : ∀ a, Firm P (next a)) (items : List α) :
    Firm P (items.mapM next) :=
  tolerant.mapM h items

end Firm

def outcome (store : Store) (load : ExceptT ε Edit α) : Option α := (load.run store).1.toOption

section
variable {store : Store} (hstore : P store)
include hstore

theorem outcome_bind {load : ExceptT ε Edit α} {next : α → ExceptT ε Edit β} (h : Firm P load)
    (hnext : ∀ a, Firm P (next a)) :
    outcome store (load >>= next) = (outcome store load).bind fun a => outcome store (next a) :=
  (toOption_run_bind load next store).trans
    (Option.bind_congr fun a _ => (hnext a).same _ _ (h.keeps store hstore) hstore)

theorem outcome_mapM {next : α → ExceptT ε Edit β} (h : ∀ a, Firm P (next a)) (items : List α) :
    outcome store (items.mapM next) = items.mapM fun a => outcome store (next a) := by
  induction items with
  | nil => rfl
  | cons item rest ih =>
    rw [List.mapM_cons, List.mapM_cons,
      outcome_bind hstore (h item) fun b => (Firm.mapM h rest).andThen fun bs => .done (b :: bs)]
    refine Option.bind_congr fun b _ => ?_
    rw [outcome_bind hstore (Firm.mapM h rest) fun bs => .done (b :: bs), ih]
    rfl

end

end Edit

open Edit (Firm outcome)

def accepted {α : Type} : Except GrammarError (Except ParseError α) → Option α
  | .ok (.ok value) => some value
  | _ => none

theorem Agree.accepted_eq {α : Type} {x y : Except GrammarError (Except ParseError α)}
    (h : Agree x y) : accepted x = accepted y := by
  obtain rfl | ⟨⟨error, -, rfl⟩, error', -, rfl⟩ := h
  · rfl
  · rfl

structure Attentive (P : Store → Prop) (reader : RuleId → Prop) : Prop
    extends Passive P reader where
  entry {name : String} : name ∈ RuleText.entries → ∀ store store', P store → P store' →
    (Edit.rule .abnf name store).1 = (Edit.rule .abnf name store').1
  parses {rule : RuleId} (source : Source) (start : Nat) : reader rule → ∀ store store',
    P store → P store' → Agree (Edit.parsing (·.parse rule source start) store).1
      (Edit.parsing (·.parse rule source start) store').1
  parsesAll {rule : RuleId} (source : Source) : reader rule → ∀ store store',
    P store → P store' → Agree (Edit.parsing (·.parseAll rule source) store).1
      (Edit.parsing (·.parseAll rule source) store').1

namespace RuleText

variable {P : Store → Prop} {reader : RuleId → Prop} (h : Attentive P reader)

theorem isRuleName_eq (text : String) (store : Store) : (isRuleName text store).1 =
    (accepted (Edit.parsing (·.parseAll (Edit.rule .abnf "rulename" store).1 (.ofString text))
      (Edit.rule .abnf "rulename" store).2).1).isSome := by
  simp only [isRuleName, Edit.bind_apply]
  generalize Edit.parsing _ _ = parsed
  obtain ⟨error | failure | node, after⟩ := parsed <;> rfl

theorem toOption_parseText {α : Type} (name : String)
    (parse : Catalog → RuleId → Run (Except ParseError α)) (store : Store) :
    ((parseText name parse).run store).1.toOption =
      accepted (Edit.parsing (parse · (Edit.rule .abnf name store).1)
        (Edit.rule .abnf name store).2).1 := by
  simp only [parseText, Edit.run_lift_bind]
  generalize Edit.parsing _ _ = parsed
  obtain ⟨error | failure | node, after⟩ := parsed <;> rfl

section
include h

theorem firm_isRuleName {ε : Type} (text : String) :
    Firm P (liftM (isRuleName text) : ExceptT ε Edit Bool) := by
  have hentry : "rulename" ∈ entries := by decide
  refine .lift (keeps_isRuleName h.toPassive text) fun store store' hstore hstore' => ?_
  have hagree := h.parsesAll (.ofString text) (h.found hentry store hstore) _ _
    (h.rule hentry store hstore) (h.rule hentry store' hstore')
  rw [isRuleName_eq, isRuleName_eq, ← h.entry hentry store store' hstore hstore',
    hagree.accepted_eq]

theorem firm_parseRule (text : String) : Firm P (parseRule text) := by
  have hentry : "rule" ∈ entries := by decide
  refine .andThen ⟨keeps_parseText h.toPassive hentry fun _ => h.parse _ 0,
    fun store store' hstore hstore' => ?_⟩ fun _ => .done _
  have hagree := h.parses (.ofString (terminated text)) 0 (h.found hentry store hstore) _ _
    (h.rule hentry store hstore) (h.rule hentry store' hstore')
  rw [toOption_parseText, toOption_parseText, ← h.entry hentry store store' hstore hstore',
    hagree.accepted_eq]

theorem firm_readBody (mode : ProseMode) (node : Node) : Firm P (readBody (.expressions mode) node) :=
  composed_readBody (building_expressions Firm.tolerant mode) ∅ node fun body _ _ =>
    firm_isRuleName h body

theorem firm_readProductions (mode : ProseMode) (nodes : List Node) :
    Firm P (readProductions mode nodes) :=
  composed_readProductions Firm.tolerant mode nodes fun _ _ body _ => firm_isRuleName h body

end

end RuleText

theorem mapM_option_cons {α β : Type} (f : α → Option β) (item : α) (rest : List α) :
    (item :: rest).mapM f = (f item).bind fun b => (rest.mapM f).bind fun bs => some (b :: bs) :=
  List.mapM_cons

/-- What is found for a list in three rounds is found for one item after the other as well. -/
theorem mapM_rounds {α β γ δ ζ : Type} (f : α → Option β) (g : β → Option γ) (h : β → Option δ)
    (combine : γ → δ → ζ) (items : List α) :
    ((items.mapM f).bind fun bs => (bs.mapM g).bind fun cs => (bs.mapM h).bind fun ds =>
        some ((cs.zip ds).map fun (c, d) => combine c d)) =
      items.mapM fun a => (f a).bind fun b => (g b).bind fun c => (h b).bind fun d =>
        some (combine c d) := by
  induction items with
  | nil => rfl
  | cons item rest ih =>
    simp only [mapM_option_cons, ← ih]
    cases f item with
    | none => rfl
    | some b =>
      cases rest.mapM f with
      | none => cases hg : g b <;> cases hh : h b <;> simp [hg, hh]
      | some bs =>
        cases hg : g b <;> cases hh : h b <;> cases hgs : bs.mapM g <;> cases hhs : bs.mapM h <;>
          simp [hg, hh, hgs, hhs]

/-- What is found for a list is found for it in any order. -/
theorem mapM_perm {α β : Type} (f : α → Option β) {items items' : List α}
    (hperm : items.Perm items') {results : List β} (h : items.mapM f = some results) :
    ∃ results', items'.mapM f = some results' ∧ results.Perm results' := by
  induction hperm generalizing results with
  | nil => exact ⟨results, h, .refl _⟩
  | cons item _ ih =>
    rw [mapM_option_cons] at h
    obtain ⟨b, hb, h⟩ := Option.bind_eq_some_iff.1 h
    obtain ⟨bs, hbs, h⟩ := Option.bind_eq_some_iff.1 h
    obtain ⟨bs', hbs', hperm⟩ := ih hbs
    cases h
    exact ⟨b :: bs', by rw [mapM_option_cons, hb, hbs']; rfl, hperm.cons b⟩
  | swap first second rest =>
    simp only [mapM_option_cons] at h
    obtain ⟨b, hb, h⟩ := Option.bind_eq_some_iff.1 h
    obtain ⟨_, h', h⟩ := Option.bind_eq_some_iff.1 h
    obtain ⟨a, ha, h'⟩ := Option.bind_eq_some_iff.1 h'
    obtain ⟨bs, hbs, h'⟩ := Option.bind_eq_some_iff.1 h'
    cases h'
    cases h
    exact ⟨a :: b :: bs, by simp only [mapM_option_cons, ha, hb, hbs]; rfl, .swap ..⟩
  | trans _ _ ih ih' =>
    obtain ⟨between, hbetween, hperm⟩ := ih h
    obtain ⟨results', hresults', hperm'⟩ := ih' hbetween
    exact ⟨results', hresults', hperm.trans hperm'⟩

namespace RuleText

def stated (store : Store) (mode : ProseMode) (text : String) : Option Production :=
  (outcome store (parseRule text)).bind fun node => (readHeader node).toOption.bind fun header =>
    (outcome store (readBody (.expressions mode) node)).bind fun body => some ⟨header.1, header.2, body⟩

theorem toOption_mapM {ε α β : Type} (f : α → Except ε β) (items : List α) :
    (items.mapM f).toOption = items.mapM fun a => (f a).toOption := by
  induction items with
  | nil => rfl
  | cons item rest ih =>
    rw [List.mapM_cons, mapM_option_cons, ← ih]
    cases f item with
    | error error => rfl
    | ok b => cases rest.mapM f <;> rfl

theorem run_readNodes (id : GrammarId) (nodes : List Node) (store : Store) :
    (readNodes id nodes).run store =
      ((readProductions (store.catalog.grammar id).options.prose nodes).adapt
        Failure.grammar).run store :=
  Edit.run_lift_bind get _ store

section
variable {P : Store → Prop} {reader : RuleId → Prop} (h : Attentive P reader) {id : GrammarId}
  {mode : ProseMode} (hmode : ∀ store, P store → (store.catalog.grammar id).options.prose = mode)
include h hmode

theorem firm_readNodes (nodes : List Node) : Firm P (readNodes id nodes) := by
  have hfirm := (firm_readProductions h mode nodes).adapt Failure.grammar
  refine ⟨fun store hstore => ?_, fun store store' hstore hstore' => ?_⟩
  · rw [run_readNodes, hmode store hstore]
    exact hfirm.keeps store hstore
  · rw [run_readNodes, run_readNodes, hmode store hstore, hmode store' hstore']
    exact hfirm.same store store' hstore hstore'

theorem firm_readTexts (texts : List String) : Firm P (Session.readTexts id (.separate texts)) :=
  .andThen (.mapM (firm_parseRule h) texts) fun nodes => firm_readNodes h hmode nodes

/-- A list of texts states what its texts state, in their order. -/
theorem outcome_readTexts {store : Store} (hstore : P store) (texts : List String) :
    outcome store (Session.readTexts id (.separate texts)) = texts.mapM (stated store mode) := by
  have hnodes (nodes : List Node) : outcome store (readNodes id nodes) =
      (nodes.mapM fun node => (readHeader node).toOption).bind fun headers =>
        (nodes.mapM fun node => outcome store (readBody (.expressions mode) node)).bind fun bodies =>
          some ((headers.zip bodies).map fun (header, body) => ⟨header.1, header.2, body⟩) := by
    have hread : outcome store (readNodes id nodes) =
        outcome store (readProductions mode nodes) := by
      rw [outcome, run_readNodes, hmode store hstore]
      exact Edit.toOption_run_adapt _ Failure.grammar store
    rw [hread, readProductions, Edit.outcome_bind hstore (.ofExcept _) fun _ =>
      .andThen (.mapM (firm_readBody h mode) nodes) fun _ => .done _]
    rw [← toOption_mapM]
    refine Option.bind_congr fun headers _ => ?_
    rw [Edit.outcome_bind hstore (.mapM (firm_readBody h mode) nodes) fun _ => .done _,
      Edit.outcome_mapM hstore (firm_readBody h mode)]
    rfl
  have hread : Session.readTexts id (.separate texts) =
      texts.mapM parseRule >>= readNodes id := rfl
  rw [hread, Edit.outcome_bind hstore (.mapM (firm_parseRule h) texts) (firm_readNodes h hmode),
    Edit.outcome_mapM hstore (firm_parseRule h)]
  simp only [hnodes]
  exact mapM_rounds (fun text => outcome store (parseRule text))
    (fun node => (readHeader node).toOption)
    (fun node => outcome store (readBody (.expressions mode) node))
    (fun header body => (⟨header.1, header.2, body⟩ : Production)) texts

end

end RuleText

namespace Loading

open RuleText

variable {id : GrammarId} {text : String} {store read : Store}

theorem run_readTexts_singleton (id : GrammarId) (text : String) (store : Store) :
    (Session.readTexts id (.separate [text])).run store =
      ((do readNodes id [← parseRule text] : Loading (List Production)).run store) := by
  have hread : Session.readTexts id (.separate [text]) = [text].mapM parseRule >>= readNodes id :=
    rfl
  rw [hread, List.mapM_cons, List.mapM_nil]
  simp only [bind_assoc, pure_bind]

theorem run_compile_parsed (id : GrammarId) (hloadable : store.Loadable) {node : Node} {between : Store}
    (hparse : (parseRule text).run store = (.ok node, between)) :
    (compile id [node]).run between = (do
      let productions ← readNodes id [node]
      Edit.bind id productions : Loading (List RuleId)).run between := by
  have halike := keeps_parseRule (passive_alike hloadable.readable) text store (.refl store)
  rw [hparse] at halike
  rw [(hloadable.alike halike).compile_eq, bindNodes_eq_readNodes]

/-- Where a text cannot be read, no rule is created from it. -/
theorem createRule_of_unread (hloadable : store.Loadable) {failure : Failure}
    (h : (Session.readTexts id (.separate [text])).run store = (.error failure, read)) :
    (createRule id text).run store = (.error failure, read) := by
  rw [run_readTexts_singleton] at h
  rcases hparse : (parseRule text).run store with ⟨error | node, between⟩
  · rw [Edit.run_bind_error hparse] at h
    rw [createRule, Edit.run_bind_error hparse]
    cases h
    rfl
  · have hcompile := run_compile_parsed id hloadable hparse
    rw [Edit.run_bind_ok hparse] at h
    rw [Edit.run_bind_error h] at hcompile
    rw [createRule, Edit.run_bind_ok hparse, Edit.run_bind_error hcompile]

/-- A rule is created by binding the production that its text states. -/
theorem createRule_of_read (hloadable : store.Loadable) {production : Production}
    (h : (Session.readTexts id (.separate [text])).run store = (.ok [production], read)) :
    ∃ rule, (createRule id text).run store = (.ok rule, (Edit.bind id [production] read).2) := by
  rw [run_readTexts_singleton, Edit.run_bind_eq_ok] at h
  obtain ⟨node, between, hparse, hread⟩ := h
  have hlength := Edit.length_bind id [production] read
  have hcompile := run_compile_parsed id hloadable hparse
  have hbind : (liftM (Edit.bind id [production]) : Loading (List RuleId)).run read =
      (.ok (Edit.bind id [production] read).1, (Edit.bind id [production] read).2) := rfl
  rw [Edit.run_bind_ok hread, hbind] at hcompile
  generalize Edit.bind id [production] read = bound at hlength hcompile ⊢
  obtain ⟨rules, after⟩ := bound
  obtain ⟨rule, rfl⟩ := List.length_eq_one_iff.1 hlength
  refine ⟨rule, ?_⟩
  rw [createRule, Edit.run_bind_ok hparse, Edit.run_bind_ok hcompile]
  rfl

end Loading

end Metasyntax
