import Metasyntax.Proofs.Faithful

/-!
# Edits that remembered results do not reach

What is bound in a grammar does not depend on what caches hold. From stores that differ in
nothing else, an edit that builds parsers or changes rules gives the same result, and stores
that differ in nothing else again.
-/

set_option autoImplicit false

namespace Metasyntax

namespace Store.Alike

variable {store store' : Store}

theorem symm (h : store.Alike store') : store'.Alike store :=
  ⟨h.catalog.symm, h.lost.symm, h.size.symm⟩

theorem cachesOf (h : store.Alike store') (id : GrammarId) :
    store'.cachesOf id = store.cachesOf id := by
  rw [Store.cachesOf, Store.cachesOf, h.catalog, cacheAlive_congr h.lost]

theorem ruleMatches (store : Store) (rule : RuleId) (source : Source) (start : Nat) :
    store.Alike (Edit.parsing (·.ruleMatches rule source start) store).2 where
  catalog := rfl
  lost := rfl
  size := by
    change ((store.catalog.ruleMatches rule source start : Run Attempt).run store.caches).2.size = _
    exact (call_keeps_size store.catalog _ _ source (store.catalog.refer rule) start _ rfl).1

end Store.Alike

namespace Edit

def Blind {α : Type} (edit : Edit α) : Prop :=
  ∀ store store' : Store, store.Alike store' →
    (edit store').1 = (edit store).1 ∧ (edit store).2.Alike (edit store').2

namespace Blind

variable {α β : Type}

theorem pure (a : α) : Blind (Pure.pure a : Edit α) := fun _ _ h => ⟨rfl, h⟩

theorem bind {edit : Edit α} {next : α → Edit β} (h : Blind edit)
    (hnext : ∀ a, Blind (next a)) : Blind (edit >>= next) := by
  intro store store' halike
  obtain ⟨hresult, hafter⟩ := h store store' halike
  rw [bind_apply, bind_apply, hresult]
  exact hnext _ _ _ hafter

theorem get {next : Store → Edit β} (hnext : ∀ store, Blind (next store))
    (hsame : ∀ store store' : Store, store'.catalog = store.catalog →
      next store' = next store) : Blind (MonadState.get >>= next) := by
  intro store store' halike
  rw [bind_apply, bind_apply, get_apply, get_apply, hsame store store' halike.catalog]
  exact hnext store store store' halike

theorem compositional : Compositional Edit @Blind where
  done := pure
  andThen := bind

theorem forM {next : α → Edit Unit} (h : ∀ a, Blind (next a)) (items : List α) :
    Blind (items.forM next) :=
  compositional.forM h items

theorem mapM {next : α → Edit β} (h : ∀ a, Blind (next a)) (items : List α) :
    Blind (items.mapM next) :=
  compositional.mapM h items

end Blind

theorem blind_modifyCatalog (change : Catalog → Catalog) : Blind (modifyCatalog change) :=
  fun _ _ h => ⟨rfl, congrArg change h.catalog, h.lost, h.size⟩

theorem blind_newMode (firstMatch : Bool) : Blind (newMode firstMatch) := by
  intro store store' h
  simp only [newMode, modifyGet, MonadStateOf.modifyGet, StateT.modifyGet, h.catalog]
  exact ⟨rfl, rfl, h.lost, h.size⟩

theorem blind_newCache (capacity : Capacity) : Blind (newCache capacity) :=
  fun _ _ h => ⟨congrArg CacheId.mk h.size, h.catalog, h.lost, by
    simp only [newCache, modifyGet, MonadStateOf.modifyGet, StateT.modifyGet]
    exact (Array.size_push _).trans ((congrArg (· + 1) h.size).trans (Array.size_push _).symm)⟩

theorem blind_clearCaches (id : GrammarId) : Blind (clearCaches id) :=
  fun _ _ h => ⟨rfl, h.catalog, h.lost, (size_clearCaches id).trans
    (h.size.trans (size_clearCaches id).symm)⟩

theorem blind_alternation (firstMatch : Bool) (branches : List Parser) :
    Blind (alternation firstMatch branches) :=
  .bind (blind_newMode firstMatch) fun _ => .pure _

theorem blind_repetition (capacity : Capacity) (bounds : Bounds) (element : Parser) :
    Blind (repetition capacity bounds element) :=
  .bind (blind_newCache capacity) fun _ => .pure _

theorem blind_optional (capacity : Capacity) (element : Parser) :
    Blind (Edit.optional capacity element) :=
  .bind (blind_newCache capacity) fun _ => .pure _

theorem blind_localRule (id : GrammarId) (name : String) : Blind (localRule id name) := by
  refine .get (fun store => ?_) fun _ _ h => by simp only [h]
  dsimp only
  split
  · exact .pure _
  · exact .bind (blind_modifyCatalog _) fun _ => .pure _

theorem blind_rule (id : GrammarId) (name : String) : Blind (Edit.rule id name) := by
  refine .get (fun store => ?_) fun _ _ h => by simp only [h]
  split
  · exact .pure _
  · exact blind_localRule id name

theorem blind_retain (id other : GrammarId) : Blind (retain id other) := blind_modifyCatalog _

theorem blind_register (id : GrammarId) (caches : List CacheId) : Blind (register id caches) := by
  intro store store' h
  rw [register, bind_apply, bind_apply, get_apply, get_apply, Store.cacheAlive_congr h.lost]
  exact blind_modifyCatalog _ store store' h

theorem blind_adopt (id : GrammarId) (parser : Parser) : Blind (adopt id parser) := by
  refine .bind (blind_register _ _) fun _ => .get (fun _ => ?_) fun _ _ h => by simp only [h]
  exact .forM (fun target : RuleId => blind_retain id target.grammar) _

theorem blind_setDefinition (rule : RuleId) (definition : Parser) :
    Blind (setDefinition rule definition) :=
  .bind (blind_adopt _ _) fun _ => .bind (blind_modifyCatalog _) fun _ => blind_clearCaches _

theorem blind_addAlternative (rule : RuleId) (alternative : Parser) :
    Blind (addAlternative rule alternative) := by
  refine .get (fun store => ?_) fun _ _ h => by simp only [h]
  dsimp only
  split
  · exact .bind (blind_alternation _ _) fun _ => blind_setDefinition rule _
  · exact blind_setDefinition rule alternative

theorem blind_setFirstMatch (rule : RuleId) (firstMatch : Bool) :
    Blind (setFirstMatch rule firstMatch) := by
  refine .get (fun store => ?_) fun _ _ h => by simp only [h]
  dsimp only
  split
  · exact .bind (blind_modifyCatalog _) fun _ => .bind (blind_clearCaches _) fun _ => .pure _
  · exact .pure _
  · exact .pure _

theorem blind_define (id : GrammarId) (name : String) (definition : Parser) :
    Blind (define id name definition) :=
  .bind (blind_localRule id name) fun rule => .bind (blind_setDefinition rule definition)
    fun _ => .pure _

theorem blind_extend (id : GrammarId) (name : String) (alternative : Parser) :
    Blind (extend id name alternative) := by
  refine .bind (blind_localRule id name) fun rule =>
    .get (fun store => ?_) fun _ _ h => by simp only [h]
  have hadd : Blind (addAlternative rule alternative >>= fun _ => Pure.pure rule) :=
    .bind (blind_addAlternative rule alternative) fun _ => .pure _
  dsimp only
  split
  · refine .bind ?_ fun _ => hadd
    cases (store.catalog.grammar id).base?.bind fun base =>
        (store.catalog.lookup? base name).bind store.catalog.definition? with
    | none => exact .pure ()
    | some definition => exact blind_setDefinition rule definition
  · exact hadd

theorem blind_assembleAll (id : GrammarId) (options : Options) (expressions : List Expression) :
    Blind (assembleAll id options expressions) := by
  refine composed_assembleAll ⟨Blind.compositional, blind_alternation _, blind_repetition _,
    blind_optional _⟩ expressions fun name _ => ?_
  rw [assemble]
  exact .bind (blind_rule id name) fun _ => .get (fun _ => .pure _) fun _ _ h => by simp only [h]

theorem blind_bindOne (id : GrammarId) (production : Production) (parser : Parser) :
    Blind (bindOne id production parser) := by
  rw [bindOne]
  split
  · exact blind_extend id _ _
  · exact blind_define id _ _

theorem blind_bind (id : GrammarId) (productions : List Production) :
    Blind (Edit.bind id productions) := by
  refine .bind (.forM (fun production => ?_) _) fun _ =>
    .get (fun _ => ?_) fun _ _ h => by simp only [h]
  · exact .bind (blind_localRule id production.name) fun _ => .pure _
  · exact .bind (blind_assembleAll id _ _) fun parsers =>
      .mapM (fun item => blind_bindOne id item.1 item.2) (productions.zip parsers)

end Edit

end Metasyntax
