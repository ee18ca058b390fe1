import Metasyntax.Proofs.Compilation
import Metasyntax.Proofs.Upkeep

/-!
Every load of rule text is a row of steps of a program, as long as all is in order: a program that
reads all of the rules before it builds anything comes to the same store.
-/

set_option autoImplicit false

namespace Metasyntax

open Bench (Does)
open Edit (Keeps givenOf)

namespace Bench

structure Able (bench : Bench) : Prop where
  orderly : bench.Orderly
  readable : bench.store.catalog.Readable

variable {bench bench' : Bench}

theorem Steps.able (h : bench.Steps bench') (hable : bench.Able) : bench'.Able where
  orderly := h.orderly hable.orderly
  readable name hname := (hable.readable name hname).imp fun rule hrule =>
    h.durable (Store.local?_durable .abnf name rule) hrule

theorem Able.loadable (h : bench.Able) : bench.store.Loadable := ⟨h.orderly.sane.furnished, h.readable⟩

theorem Collects.able (h : bench.Collects bench') (hable : bench.Able) : bench'.Able where
  orderly := h.orderly hable.orderly
  readable := by
    cases h
    exact hable.readable

end Bench

def Loading.Works (needs : Set Handle) {ε α : Type} (load : ExceptT ε Edit α)
    (gives : α → Set Handle) : Prop :=
  ∀ bench : Bench, bench.Able → needs ⊆ bench.held → bench.Does load.run (givenOf gives)

open Loading (Works)

namespace Loading.Works

variable {needs : Set Handle} {ε α β : Type}

theorem andThen {load : ExceptT ε Edit α} {next : α → ExceptT ε Edit β} {gives : α → Set Handle}
    {gives' : β → Set Handle} (h : Works needs load gives)
    (hnext : ∀ a, Works (needs ∪ gives a) (next a) gives') :
    Works needs (load >>= next) gives' := by
  intro bench hable hneeds
  have hfirst := h bench hable hneeds
  change bench.Does (load.run >>= ExceptT.bindCont next) _
  refine hfirst.bind ?_
  rw [Does] at hfirst
  cases hresult : (load.run bench.store).1 with
  | error error => exact .pure (Set.empty_subset _)
  | ok a =>
    rw [hresult] at hfirst
    exact hnext a _ (hfirst.able hable) (Set.union_subset_union_left _ hneeds)

theorem lift {edit : Edit α} {gives : α → Set Handle} (h : Edit.Works needs edit gives) :
    Works needs (liftM edit : ExceptT ε Edit α) gives := by
  have hlift : Edit.Works needs (liftM edit : ExceptT ε Edit α).run (givenOf gives) :=
    .bind h fun _ => .pure Set.subset_union_right
  exact fun bench _ hneeds => hlift bench hneeds

theorem throw {gives : α → Set Handle} (error : ε) :
    Works needs (throwThe ε error : ExceptT ε Edit α) gives :=
  fun _ _ _ => .pure (Set.empty_subset _)

theorem done {gives : α → Set Handle} {a : α} (h : gives a ⊆ needs) :
    Works needs (Pure.pure a : ExceptT ε Edit α) gives :=
  fun _ _ hneeds => .pure (h.trans hneeds)

theorem mono {needs' : Set Handle} {load : ExceptT ε Edit α} {gives gives' : α → Set Handle}
    (h : Works needs load gives) (hneeds : needs ⊆ needs') (hgives : ∀ a, gives' a ⊆ gives a) :
    Works needs' load gives' :=
  fun bench hable hbench => (h bench hable (hneeds.trans hbench)).mono fun result => by
    cases result with
    | ok a => exact hgives a
    | error error => exact subset_rfl

theorem discard {load : ExceptT ε Edit α} {gives : α → Set Handle} (h : Works needs load gives) :
    Works needs (Functor.discard load) fun _ => ∅ := by
  rw [Functor.discard, map_const, Function.comp_apply, ← bind_pure_comp]
  exact .andThen h fun _ => .done (Set.empty_subset _)

end Loading.Works

/-- What a program can come to without taking hold of anything. -/
theorem Bench.passive (bench : Bench) (habnf : .grammar .abnf ∈ bench.held) :
    Passive (fun store => bench.Steps ⟨store, bench.held⟩) fun _ => True := by
  have hkeeps {α : Type} {edit : Edit α} {gives : α → Set Handle}
      (h : Edit.Works {.grammar .abnf} edit gives) :
      Keeps (fun store => bench.Steps ⟨store, bench.held⟩) edit := fun store hstore =>
    Steps.forget (hstore.trans (h ⟨store, bench.held⟩ (Set.singleton_subset_iff.2 habnf)))
      Set.subset_union_left
  exact
    { rule := fun _ => hkeeps (Edit.works_rule .abnf _)
      found := fun _ _ _ => trivial
      parse := fun source start _ => hkeeps (Edit.works_parse _ source start)
      parseAll := fun source _ => hkeeps (Edit.works_parseAll _ source)
      clearCaches := hkeeps (Edit.works_clearCaches .abnf) }

theorem Loading.Works.of_passive {needs : Set Handle} {ε α : Type} {load : ExceptT ε Edit α}
    (h : ∀ P : Store → Prop, Passive P (fun _ => True) → Keeps P load.run)
    (habnf : .grammar .abnf ∈ needs) : Works needs load fun _ => ∅ := by
  intro bench _ hneeds
  have hsteps := h _ (bench.passive (hneeds habnf)) bench.store .refl
  refine Bench.Steps.forget hsteps ?_
  cases (load.run bench.store).1 <;> exact (Set.union_empty _).subset

/-- Rules are bound by steps that read all of them first, so that what is added for rules that
cannot be read is never there. -/
theorem works_compile (id : GrammarId) (nodes : List Node) :
    Works {.grammar .abnf, .grammar id} (RuleText.compile id nodes)
      fun rules => {x | ∃ rule ∈ rules, .rule rule = x} := by
  have hbind : Works {.grammar .abnf, .grammar id} (RuleText.bindNodes id nodes)
      fun rules => {x | ∃ rule ∈ rules, .rule rule = x} :=
    .andThen (.lift .get) fun _ => .andThen (.of_passive
      (fun _ hpassive => .adapt (RuleText.keeps_readProductions hpassive _ _) _) (by simp))
        fun productions => .lift (.mono (Edit.works_bind id productions) (by simp) fun _ => subset_rfl)
  intro bench hable hneeds
  have hsteps := hbind bench hable hneeds
  rw [Does] at hsteps ⊢
  rwa [hable.loadable.compile_eq]

theorem works_createRule (id : GrammarId) (text : String) :
    Works {.grammar .abnf, .grammar id} (Loading.createRule id text)
      fun rule => {.rule rule} := by
  refine .andThen (.of_passive (fun _ hpassive => RuleText.keeps_parseRule hpassive text) (by simp))
    fun node => .andThen (.mono (works_compile id [node]) Set.subset_union_left
      fun _ => subset_rfl) fun rules => ?_
  split
  case h_1 rule hrule =>
    exact .done (Set.singleton_subset_iff.2 (Or.inr ⟨rule, List.mem_of_getLast? hrule, rfl⟩))
  case h_2 => exact .throw _

theorem works_loadRules (id : GrammarId) (texts : List String) :
    Works {.grammar .abnf, .grammar id} (Loading.loadRules id texts)
      fun rules => {x | ∃ rule ∈ rules, .rule rule = x} :=
  .andThen (.of_passive (fun _ hpassive => .mapM (RuleText.keeps_parseRule hpassive) texts)
    (by simp)) fun nodes => .mono (works_compile id nodes) Set.subset_union_left
      fun _ => subset_rfl

theorem works_loadRulelist (id : GrammarId) (text : String) :
    Works {.grammar .abnf, .grammar id} (Loading.loadRulelist id text)
      fun rules => {x | ∃ rule ∈ rules, .rule rule = x} :=
  .andThen (.of_passive (fun _ hpassive => RuleText.keeps_parseRules hpassive text) (by simp))
    fun nodes => .mono (works_compile id nodes) Set.subset_union_left fun _ => subset_rfl

theorem works_importAll (id : GrammarId) (imports : List (String × RuleId)) :
    Works {x | x = .grammar id ∨ ∃ item ∈ imports, .rule item.2 = x}
      (Loading.importAll id imports) fun _ => ∅ := by
  induction imports with
  | nil => exact .done (Set.empty_subset _)
  | cons item rest ih =>
    have himport : Edit.Works {.grammar id, .rule item.2} (Edit.importRule id item.1 item.2)
        fun _ => ∅ :=
      .mono (Edit.works_importRule id item.1 item.2) subset_rfl fun _ => Set.empty_subset _
    have hone (next : Except GrammarError RuleId → Loading Unit)
        (hok : ∀ rule, next (.ok rule) = pure ())
        (herror : ∀ error, next (.error error) = throw (.grammar error)) :
        Works {.grammar id, .rule item.2}
          (Edit.importRule id item.1 item.2 >>= next : Loading Unit) fun _ => ∅ := by
      refine .andThen (.lift himport) fun result => ?_
      cases result with
      | ok rule =>
        rw [hok]
        exact .done (Set.empty_subset _)
      | error error =>
        rw [herror]
        exact .throw _
    refine .andThen (.mono (hone _ (fun _ => rfl) fun _ => rfl) ?_ fun _ => subset_rfl)
      fun _ => .mono ih ?_ fun _ => subset_rfl
    · exact Set.insert_subset (Or.inl rfl)
        (Set.singleton_subset_iff.2 (Or.inr ⟨item, List.mem_cons_self, rfl⟩))
    · rintro x (rfl | ⟨item', hitem, rfl⟩)
      · exact Or.inl (Or.inl rfl)
      · exact Or.inl (Or.inr ⟨item', List.mem_cons_of_mem _ hitem, rfl⟩)

theorem works_builtGrammar (name : String) (options : Options)
    {load : GrammarId → Loading (List RuleId)}
    (hload : ∀ id, Works {.grammar .abnf, .grammar id} (load id) fun _ => ∅)
    (imports : List (String × RuleId)) :
    Works {x | x = .grammar .core ∨ x = .grammar .abnf ∨ ∃ item ∈ imports, .rule item.2 = x}
      (Loading.newGrammar name options load imports) fun id => {.grammar id} := by
  have hnew : Edit.Works {.grammar .core} (Edit.newGrammar name (some .core) options)
      fun id => {.grammar id} := fun bench hneeds =>
    .of_make (.newGrammar name options fun id hid => by cases hid; exact hneeds rfl)
  refine .andThen (.lift (.mono hnew (by simp) fun _ => subset_rfl)) fun id => ?_
  refine .andThen (.discard (.mono (hload id) ?_ fun _ => subset_rfl)) fun _ =>
    .andThen (.mono (works_importAll id imports) ?_ fun _ => subset_rfl) fun _ => .done (by simp)
  · exact Set.insert_subset (by simp) (Set.singleton_subset_iff.2 (by simp))
  · rintro x (rfl | ⟨item, hitem, rfl⟩)
    · exact Or.inl (Or.inr rfl)
    · exact Or.inl (Or.inl (Or.inr (Or.inr ⟨item, hitem, rfl⟩)))

end Metasyntax
