import Metasyntax.Proofs.Enlargement

/-!
Rules are bound as if all of their texts had been read before any of it was built in the grammar.
What is built on the way is a surplus that reading does not notice. If the reading comes to its
end, the surplus is the one that building makes of what has been read; if it fails, the surplus is
taken back.
-/

set_option autoImplicit false

namespace Metasyntax

namespace Edit

def Makes (base : Store) (id : GrammarId) {α : Type} (edit : Edit α) (surplus : Surplus) (a : α)
    (surplus' : Surplus) : Prop :=
  ∀ store, base.Alike store → edit (store.plus id surplus) = (a, store.plus id surplus')

def Expands (base : Store) (id : GrammarId) {α : Type} (edit : Edit α) : Prop :=
  ∀ surplus, ∃ a surplus', Makes base id edit surplus a surplus'

section
variable {base : Store} {id : GrammarId} {α β : Type} {surplus surplus' surplus'' : Surplus}

theorem Makes.pure (a : α) : Makes base id (Pure.pure a) surplus a surplus := fun _ _ => rfl

theorem Makes.bind {edit : Edit α} {next : α → Edit β} {a : α} {b : β}
    (h : Makes base id edit surplus a surplus') (hnext : Makes base id (next a) surplus' b surplus'') :
    Makes base id (edit >>= next) surplus b surplus'' := by
  intro store halike
  rw [bind_apply, h store halike]
  exact hnext store halike

theorem expands_compositional : Compositional Edit (Expands base id) where
  done a surplus := ⟨a, surplus, .pure a⟩
  andThen h hnext surplus := by
    obtain ⟨a, surplus', hmakes⟩ := h surplus
    obtain ⟨b, surplus'', hnext⟩ := hnext a surplus'
    exact ⟨b, surplus'', hmakes.bind hnext⟩

/-- A name that is new even with what has been added is added to the surplus. -/
theorem plus_push {store : Store} {name : String}
    (hname : (store.catalog.plus id surplus).local? id name = none) :
    (modifyTable id (·.push name) (store.plus id surplus)).2 =
      store.plus id { surplus with names := surplus.names ++ [name] } := by
  have hgrammars : (store.catalog.grammars.modify id.index fun grammar =>
        { grammar with table := grammar.table.internAll surplus.names }).modify id.index
          (fun grammar => { grammar with table := grammar.table.push name }) =
      store.catalog.grammars.modify id.index fun grammar =>
        { grammar with table := grammar.table.internAll (surplus.names ++ [name]) } := by
    apply Array.ext_getElem?
    intro place
    simp only [Array.getElem?_modify]
    split
    case isFalse => rfl
    case isTrue hplace =>
      subst hplace
      cases hgrammar : store.catalog.grammars[id.index]? with
      | none => rfl
      | some grammar =>
        have hlt := (Array.getElem?_eq_some_iff.1 hgrammar).1
        rw [Catalog.local?, Catalog.grammar_plus, if_pos ⟨rfl, hlt⟩, Option.map_eq_none_iff,
          Catalog.grammar, hgrammar] at hname
        have hintern : grammar.table.internAll (surplus.names ++ [name]) =
            (grammar.table.internAll surplus.names).intern name := by
          rw [RuleTable.internAll, List.foldl_append]
          rfl
        have hnew : ¬ ((grammar.table.internAll surplus.names).find? name).isSome := by
          simpa using hname
        simp only [Option.map_some, hintern, RuleTable.intern, if_neg hnew]
  exact congrArg (fun grammars : Array Grammar =>
    (⟨⟨grammars, store.catalog.modes ++ surplus.modes, store.catalog.lost⟩,
      store.caches ++ surplus.caches, store.lostCaches⟩ : Store)) hgrammars

theorem expands_localRule (name : String) : Expands base id (localRule id name) := by
  intro surplus
  cases hlocal : (base.catalog.plus id surplus).local? id name with
  | some rule =>
    refine ⟨rule, surplus, fun store halike => ?_⟩
    rw [← halike.catalog] at hlocal
    exact Store.localRule_eq_of_local hlocal
  | none =>
    refine ⟨⟨id, ((base.catalog.plus id surplus).grammar id).table.size⟩,
      { surplus with names := surplus.names ++ [name] }, fun store halike => ?_⟩
    rw [← halike.catalog] at hlocal ⊢
    have hstore : (store.plus id surplus).catalog.local? id name = none := hlocal
    rw [Store.localRule_eq_push hstore, plus_push hlocal]
    rfl

theorem expands_rule (name : String) : Expands base id (Edit.rule id name) := by
  intro surplus
  cases hlookup : (base.catalog.plus id surplus).lookup? id name with
  | some rule =>
    refine ⟨rule, surplus, fun store halike => ?_⟩
    rw [← halike.catalog] at hlookup
    exact Store.rule_eq_of_lookup hlookup
  | none =>
    have hlocal : Expands base id (localRule id name) := expands_localRule name
    obtain ⟨rule, surplus', hmakes⟩ := hlocal surplus
    refine ⟨rule, surplus', fun store halike => ?_⟩
    rw [← halike.catalog] at hlookup
    have hstore : (store.plus id surplus).catalog.lookup? id name = none := hlookup
    rw [Store.rule_eq_localRule hstore]
    exact hmakes store halike

theorem expands_reference (name : String) : Expands base id (reference id name) := by
  intro surplus
  have hrule : Expands base id (Edit.rule id name) := expands_rule name
  obtain ⟨rule, surplus', hmakes⟩ := hrule surplus
  refine ⟨.rule ((base.catalog.plus id surplus').refer rule), surplus', hmakes.bind ?_⟩
  intro store halike
  rw [← halike.catalog]
  rfl

theorem expands_newMode (firstMatch : Bool) : Expands base id (newMode firstMatch) := by
  intro surplus
  refine ⟨⟨(base.catalog.modes ++ surplus.modes).size⟩,
    { surplus with modes := surplus.modes.push firstMatch }, fun store halike => ?_⟩
  rw [← halike.catalog]
  simp only [Store.plus, Catalog.plus, Array.append_push]
  rfl

theorem expands_newCache (capacity : Capacity) : Expands base id (newCache capacity) := by
  intro surplus
  refine ⟨⟨base.caches.size + surplus.caches.size⟩,
    { surplus with caches := surplus.caches.push (.empty capacity) }, fun store halike => ?_⟩
  rw [← halike.size, ← Array.size_append]
  simp only [Store.plus, Array.append_push]
  rfl

theorem expands_assembling (options : Options) : Assembling options (Expands base id) where
  toCompositional := expands_compositional
  alternation _ := expands_compositional.andThen (expands_newMode _) fun _ =>
    expands_compositional.done _
  repetition _ _ := expands_compositional.andThen (expands_newCache _) fun _ =>
    expands_compositional.done _
  optional _ := expands_compositional.andThen (expands_newCache _) fun _ =>
    expands_compositional.done _

end

end Edit

open Edit (Makes Expands)

namespace RuleText

def Fuses (base : Store) (id : GrammarId) {α β : Type} (made : α → β → Surplus → Prop)
    (surplus : Surplus) (reading : Reading α) (building : Reading β) : Prop :=
  ∀ before, base.Alike before → base.Alike (reading.run before).2 ∧
    match (reading.run before).1 with
    | .ok a => ∃ b surplus', made a b surplus' ∧
        building.run (before.plus id surplus) = (.ok b, (reading.run before).2.plus id surplus')
    | .error error => ∃ surplus', building.run (before.plus id surplus) =
        (.error error, (reading.run before).2.plus id surplus')

namespace Fuses

variable {base : Store} {id : GrammarId} {α β γ δ : Type} {made : α → β → Surplus → Prop}
  {made' : γ → δ → Surplus → Prop} {surplus : Surplus}

theorem done {a : α} {b : β} (h : made a b surplus) :
    Fuses base id made surplus (pure a) (pure b) :=
  fun _ halike => ⟨halike, b, surplus, h, rfl⟩

theorem throw (error : GrammarError) : Fuses base id made surplus
    (throwThe GrammarError error) (throwThe GrammarError error) :=
  fun _ halike => ⟨halike, surplus, rfl⟩

theorem step {edit : Edit β} {a : α} (hexpands : Expands base id edit)
    (h : ∀ b surplus', Makes base id edit surplus b surplus' → made a b surplus') :
    Fuses base id made surplus (pure a) (liftM edit) := by
  intro before halike
  obtain ⟨b, surplus', hmakes⟩ := hexpands surplus
  refine ⟨halike, b, surplus', h b surplus' hmakes, ?_⟩
  change (Except.ok (edit (before.plus id surplus)).1, (edit (before.plus id surplus)).2) = _
  rw [hmakes before halike]
  rfl

theorem bind {reading : Reading α} {next : α → Reading γ} {building : Reading β}
    {next' : β → Reading δ} (h : Fuses base id made surplus reading building)
    (hnext : ∀ a b surplus', made a b surplus' → Fuses base id made' surplus' (next a) (next' b)) :
    Fuses base id made' surplus (reading >>= next) (building >>= next') := by
  intro before halike
  obtain ⟨hread, hmade⟩ := h before halike
  rcases hreading : reading.run before with ⟨error | a, read⟩
  · rw [hreading] at hmade hread
    obtain ⟨surplus', hbuilding⟩ := hmade
    rw [Edit.run_bind_error hreading, Edit.run_bind_error hbuilding]
    exact ⟨hread, surplus', rfl⟩
  · rw [hreading] at hmade hread
    obtain ⟨b, surplus', hmade, hbuilding⟩ := hmade
    rw [Edit.run_bind_ok hreading, Edit.run_bind_ok hbuilding]
    exact hnext a b surplus' hmade read hread

end Fuses

section
variable (base : Store) (id : GrammarId) (options : Options) (surplus : Surplus)

def Assembled (expression : Expression) (parser : Parser) (surplus' : Surplus) : Prop :=
  Makes base id (Edit.assemble id options expression) surplus parser surplus'

def AssembledAll (expressions : List Expression) (parsers : List Parser) (surplus' : Surplus) : Prop :=
  Makes base id (Edit.assembleAll id options expressions) surplus parsers surplus'

end

section
variable {base : Store} {id : GrammarId} {options : Options} {surplus surplus' surplus'' : Surplus}

theorem assembledAll_nil : AssembledAll base id options surplus [] [] surplus := by
  rw [AssembledAll, Edit.assembleAll]
  exact .pure _

theorem assembledAll_cons {expression : Expression} {expressions : List Expression}
    {parser : Parser} {parsers : List Parser}
    (h : Assembled base id options surplus expression parser surplus')
    (hrest : AssembledAll base id options surplus' expressions parsers surplus'') :
    AssembledAll base id options surplus (expression :: expressions) (parser :: parsers) surplus'' := by
  rw [AssembledAll, Edit.assembleAll]
  exact h.bind (hrest.bind (.pure _))

/-- One item is assembled alone as it is among others. -/
theorem fuses_collapse {combine : List Expression → Reading Expression}
    {combine' : List Parser → Reading Parser} (context : String) (node : Node)
    {expressions : List Expression} {parsers : List Parser}
    (h : AssembledAll base id options surplus expressions parsers surplus')
    (hcombine : Fuses base id (Assembled base id options surplus) surplus' (combine expressions)
      (combine' parsers)) :
    Fuses base id (Assembled base id options surplus) surplus'
      (collapse combine context node expressions) (collapse combine' context node parsers) := by
  have hbase := h base (.refl base)
  match expressions with
  | [] =>
    rw [Edit.assembleAll] at hbase
    cases congrArg Prod.fst hbase
    exact .throw _
  | [expression] =>
    simp only [Edit.assembleAll, Edit.bind_apply, Edit.pure_apply] at hbase
    cases congrArg Prod.fst hbase
    refine .done fun store halike => ?_
    have hstore := h store halike
    simp only [Edit.assembleAll, Edit.bind_apply, Edit.pure_apply] at hstore
    have hparser := congrArg Prod.fst hstore
    have hafter := congrArg Prod.snd hstore
    exact Prod.ext (List.head_eq_of_cons_eq hparser) hafter
  | _ :: _ :: _ =>
    simp only [Edit.assembleAll, Edit.bind_apply, Edit.pure_apply] at hbase
    cases congrArg Prod.fst hbase
    exact hcombine

theorem fuses_name (name : String) : Fuses base id (Assembled base id options surplus) surplus
    ((Builder.expressions options.prose).name name) ((Builder.parsers id options).name name) :=
  .step (Edit.expands_reference name) fun parser surplus' h => by
    rw [Assembled, Edit.assemble]
    exact h

theorem fuses_ofExcept {α : Type} (result : Except GrammarError α)
    {next : α → Reading Expression} {next' : α → Reading Parser}
    (h : ∀ a, Fuses base id (Assembled base id options surplus) surplus' (next a) (next' a)) :
    Fuses base id (Assembled base id options surplus) surplus' (liftM result >>= next)
      (liftM result >>= next') := by
  cases result with
  | ok a => exact h a
  | error error => exact .throw error

theorem fuses_literal (result : Except GrammarError Literal) :
    Fuses base id (Assembled base id options surplus) surplus
      (liftM result >>= (Builder.expressions options.prose).literal)
      (liftM result >>= (Builder.parsers id options).literal) :=
  fuses_ofExcept result fun _ => .done fun _ _ => by rw [Edit.assemble]; rfl

end

section
variable {base : Store} {id : GrammarId} (hbase : base.Furnished) {rule : RuleId}
  (hrule : base.catalog.local? .abnf "rulename" = some rule)
include hbase hrule

theorem fuses_isRuleName (surplus : Surplus) (text : String) :
    Fuses base id (fun named named' surplus' => named = named' ∧ surplus' = surplus) surplus
      (liftM (isRuleName text)) (liftM (isRuleName text)) := by
  intro before halike
  have hfound : before.catalog.local? .abnf "rulename" = some rule := halike.catalog.symm ▸ hrule
  obtain ⟨hafter, hplus⟩ := isRuleName_plus (hbase.alike halike) hfound id surplus text
  refine ⟨halike.trans hafter, (isRuleName text before).1, surplus, ⟨rfl, rfl⟩, ?_⟩
  change (Except.ok (isRuleName text (before.plus id surplus)).1,
    (isRuleName text (before.plus id surplus)).2) = _
  rw [hplus]
  rfl

variable (options : Options) (surplus : Surplus)

theorem fuses_readProse (node : Node) : Fuses base id (Assembled base id options surplus) surplus
    (readProse (.expressions options.prose) node) (readProse (.parsers id options) node) := by
  refine .bind (fuses_isRuleName hbase hrule surplus _) ?_
  rintro named _ _ ⟨rfl, rfl⟩
  cases named with
  | true => exact fuses_name _
  | false =>
    obtain ⟨firstMatch, prose, cacheSize⟩ := options
    cases prose with
    | reject => exact .throw _
    | placeholder => exact .done fun _ _ => by rw [Edit.assemble]; rfl

-- By the functions that read a tree, which call one another. What has been built of a list so far
-- goes into the surplus that the rest of it begins with.
set_option linter.unusedSectionVars false in
mutual
theorem fuses_readAlternation (surplus : Surplus) (node : Node) :
    Fuses base id (Assembled base id options surplus) surplus
      (readAlternation (.expressions options.prose) node)
      (readAlternation (.parsers id options) node) := by
  cases node with
  | literal value offset => rw [readAlternation, readAlternation]; exact .throw _
  | rule name children =>
    rw [readAlternation, readAlternation]
    refine .bind (fuses_readBranches surplus children) fun branches parsers surplus' h => ?_
    refine fuses_collapse _ _ h (.step ?_ fun parser surplus'' hparser => ?_)
    · exact (Edit.expands_assembling options).alternation parsers
    · rw [Assembled, Edit.assemble]
      exact h.bind hparser

theorem fuses_readBranches (surplus : Surplus) (nodes : List Node) :
    Fuses base id (AssembledAll base id options surplus) surplus
      (readBranches (.expressions options.prose) nodes)
      (readBranches (.parsers id options) nodes) := by
  cases nodes with
  | nil =>
    rw [readBranches, readBranches]
    exact .done assembledAll_nil
  | cons node rest =>
    rw [readBranches, readBranches]
    split
    · refine .bind (fuses_readConcatenation surplus node) fun branch parser surplus' hbranch => ?_
      refine .bind (fuses_readBranches surplus' rest) fun branches parsers surplus'' hbranches => ?_
      exact .done (assembledAll_cons hbranch hbranches)
    · exact fuses_readBranches surplus rest

theorem fuses_readConcatenation (surplus : Surplus) (node : Node) :
    Fuses base id (Assembled base id options surplus) surplus
      (readConcatenation (.expressions options.prose) node)
      (readConcatenation (.parsers id options) node) := by
  cases node with
  | literal value offset => rw [readConcatenation, readConcatenation]; exact .throw _
  | rule name children =>
    rw [readConcatenation, readConcatenation]
    refine .bind (fuses_readItems surplus children) fun items parsers surplus' h => ?_
    refine fuses_collapse _ _ h (.done ?_)
    rw [Assembled, Edit.assemble]
    exact h.bind (.pure _)

theorem fuses_readItems (surplus : Surplus) (nodes : List Node) :
    Fuses base id (AssembledAll base id options surplus) surplus
      (readItems (.expressions options.prose) nodes) (readItems (.parsers id options) nodes) := by
  cases nodes with
  | nil =>
    rw [readItems, readItems]
    exact .done assembledAll_nil
  | cons node rest =>
    rw [readItems, readItems]
    split
    · refine .bind (fuses_readRepetition surplus node) fun item parser surplus' hitem => ?_
      refine .bind (fuses_readItems surplus' rest) fun items parsers surplus'' hitems => ?_
      exact .done (assembledAll_cons hitem hitems)
    · exact fuses_readItems surplus rest

theorem fuses_readRepetition (surplus : Surplus) (node : Node) :
    Fuses base id (Assembled base id options surplus) surplus
      (readRepetition (.expressions options.prose) node)
      (readRepetition (.parsers id options) node) := by
  cases node with
  | literal value offset => rw [readRepetition, readRepetition]; exact .throw _
  | rule name children =>
    rw [readRepetition, readRepetition]
    refine .bind (fuses_readElementAmong surplus _ children) fun element parser surplus' h => ?_
    split
    · refine fuses_ofExcept _ fun bounds => ?_
      refine .step ((Edit.expands_assembling options).repetition bounds parser)
        fun built surplus'' hbuilt => ?_
      rw [Assembled, Edit.assemble]
      exact h.bind hbuilt
    · exact .done h

theorem fuses_readElementAmong (surplus : Surplus) (missing : GrammarError) (nodes : List Node) :
    Fuses base id (Assembled base id options surplus) surplus
      (readElementAmong (.expressions options.prose) missing nodes)
      (readElementAmong (.parsers id options) missing nodes) := by
  cases nodes with
  | nil => rw [readElementAmong, readElementAmong]; exact .throw _
  | cons node rest =>
    rw [readElementAmong, readElementAmong]
    split
    · exact fuses_readElement surplus node
    · exact fuses_readElementAmong surplus missing rest

theorem fuses_readElement (surplus : Surplus) (node : Node) :
    Fuses base id (Assembled base id options surplus) surplus
      (readElement (.expressions options.prose) node) (readElement (.parsers id options) node) := by
  cases node with
  | literal value offset => rw [readElement, readElement]; exact .throw _
  | rule name children =>
    cases children with
    | nil => rw [readElement, readElement]; exact .throw _
    | cons inner rest =>
      rw [readElement, readElement]
      exact fuses_readInner surplus inner

theorem fuses_readInner (surplus : Surplus) (node : Node) :
    Fuses base id (Assembled base id options surplus) surplus
      (readInner (.expressions options.prose) node) (readInner (.parsers id options) node) := by
  cases node with
  | literal value offset => rw [readInner, readInner]; exact .throw _
  | rule name children =>
    rw [readInner, readInner]
    split
    · exact fuses_name _
    split
    · exact fuses_readBracketed surplus _ children
    split
    · refine .bind (fuses_readBracketed surplus _ children) fun element parser surplus' h => ?_
      refine .step ((Edit.expands_assembling options).optional parser)
        fun built surplus'' hbuilt => ?_
      rw [Assembled, Edit.assemble]
      exact h.bind hbuilt
    split
    · exact fuses_literal _
    split
    · exact fuses_literal _
    split
    · exact fuses_readProse hbase hrule options surplus _
    · exact .throw _

theorem fuses_readBracketed (surplus : Surplus) (missing : GrammarError) (nodes : List Node) :
    Fuses base id (Assembled base id options surplus) surplus
      (readBracketed (.expressions options.prose) missing nodes)
      (readBracketed (.parsers id options) missing nodes) := by
  cases nodes with
  | nil => rw [readBracketed, readBracketed]; exact .throw _
  | cons node rest =>
    rw [readBracketed, readBracketed]
    split
    · exact fuses_readAlternation surplus node
    · exact fuses_readBracketed surplus missing rest
end

theorem fuses_readBody (node : Node) : Fuses base id (Assembled base id options surplus) surplus
    (readBody (.expressions options.prose) node) (readBody (.parsers id options) node) :=
  fuses_ofExcept _ fun _ => fuses_ofExcept _ fun alternation =>
    fuses_readAlternation hbase hrule options surplus alternation

theorem fuses_readBodies (headers : List (String × Bool)) (nodes : List Node)
    (hlength : headers.length = nodes.length) :
    Fuses base id (fun bodies definitions surplus' => bodies.length = headers.length ∧
        ∃ parsers, definitions = headers.zip parsers ∧
          AssembledAll base id options surplus bodies parsers surplus') surplus
      (nodes.mapM (readBody (.expressions options.prose)))
      ((headers.zip nodes).mapM fun (header, node) => do
        return (header, ← readBody (.parsers id options) node)) := by
  induction nodes generalizing headers surplus with
  | nil =>
    obtain rfl := List.eq_nil_of_length_eq_zero hlength
    exact .done ⟨rfl, [], rfl, assembledAll_nil⟩
  | cons node rest ih =>
    cases headers with
    | nil => cases hlength
    | cons header headers =>
      rw [List.zip_cons_cons, List.mapM_cons, List.mapM_cons]
      simp only [bind_assoc, pure_bind]
      refine .bind (fuses_readBody hbase hrule options surplus node) fun body parser surplus' h => ?_
      refine .bind (ih surplus' headers (Nat.succ.inj hlength)) ?_
      rintro bodies _ surplus'' ⟨hbodies, parsers, rfl, hrest⟩
      exact .done ⟨congrArg Nat.succ hbodies, parser :: parsers, rfl, assembledAll_cons h hrest⟩

end

section
variable {base : Store} {id : GrammarId}

theorem liftM_mapM_readHeader (nodes : List Node) :
    (liftM (nodes.mapM readHeader) : Reading (List (String × Bool))) =
      nodes.mapM fun node => liftM (readHeader node) := by
  induction nodes with
  | nil => rfl
  | cons node rest ih =>
    rw [List.mapM_cons, List.mapM_cons, ← ih]
    cases readHeader node with
    | error error => rfl
    | ok header => cases rest.mapM readHeader <;> rfl

/-- Names are declared as if all of them had been read before. -/
theorem fuses_readHeaders (surplus : Surplus) (nodes : List Node) :
    Fuses base id (fun headers headers' surplus' => headers' = headers ∧
        headers.length = nodes.length ∧
          Makes base id (headers.forM fun header => discard <| Edit.localRule id header.1) surplus ⟨⟩
            surplus') surplus (nodes.mapM fun node => liftM (readHeader node))
      (nodes.mapM fun node => do
        let header ← readHeader node
        discard <| Edit.localRule id header.1
        return header) := by
  have hheader (surplus : Surplus) (node : Node) :
      Fuses base id (fun header header' surplus' => header' = header ∧
          Makes base id (discard <| Edit.localRule id header.1) surplus ⟨⟩ surplus') surplus
        (liftM (readHeader node)) (do
          let header ← readHeader node
          discard <| Edit.localRule id header.1
          return header) := by
    cases readHeader node with
    | error error => exact .throw error
    | ok header =>
      have hexpands : Expands base id (Edit.localRule id header.1) := Edit.expands_localRule _
      obtain ⟨rule, surplus', hmakes⟩ := hexpands surplus
      have hdiscard : Makes base id (discard <| Edit.localRule id header.1) surplus ⟨⟩ surplus' :=
        fun store hstore =>
          congrArg (fun after : RuleId × Store => (PUnit.unit, after.2)) (hmakes store hstore)
      intro before halike
      refine ⟨halike, header, surplus', ⟨rfl, hdiscard⟩, ?_⟩
      change (Except.ok header, (Edit.localRule id header.1 (before.plus id surplus)).2) = _
      rw [hmakes before halike]
      rfl
  induction nodes generalizing surplus with
  | nil => exact .done ⟨rfl, rfl, .pure _⟩
  | cons node rest ih =>
    rw [List.mapM_cons, List.mapM_cons]
    refine .bind (hheader surplus node) ?_
    rintro header _ surplus' ⟨rfl, hfirst⟩
    refine .bind (ih surplus') ?_
    rintro headers _ surplus'' ⟨rfl, hlength, hrest⟩
    exact .done ⟨rfl, congrArg Nat.succ hlength, hfirst.bind hrest⟩

end

section
variable {base : Store} {id : GrammarId} (hbase : base.Furnished) {rule : RuleId}
  (hrule : base.catalog.local? .abnf "rulename" = some rule)
include hbase hrule

/-- What is made of a batch of rules is what binding its productions makes before it changes any
rule. -/
theorem fuses_readDefinitions (options : Options) (nodes : List Node) :
    Fuses base id (fun productions definitions surplus => ∃ parsers declared,
        definitions = (productions.map (·.header)).zip parsers ∧
          Makes base id (productions.forM fun production =>
            discard <| Edit.localRule id production.name) .none ⟨⟩ declared ∧
          AssembledAll base id options declared (productions.map (·.body)) parsers surplus) .none
      (readProductions options.prose nodes) (readDefinitions id options nodes) := by
  rw [readProductions, readDefinitions, liftM_mapM_readHeader]
  refine .bind (fuses_readHeaders .none nodes) ?_
  rintro headers headers' declared ⟨heq, hlength, hdeclared⟩
  subst heq
  rw [← bind_pure (List.mapM _ (headers'.zip nodes))]
  refine .bind (fuses_readBodies hbase hrule options declared headers' nodes hlength) ?_
  rintro bodies _ surplus ⟨hbodies, parsers, rfl, hassembled⟩
  have hmade (productions : List Production) (hheaders : productions.map (·.header) = headers')
      (hbodies' : productions.map (·.body) = bodies) :
      Fuses base id (fun productions definitions surplus => ∃ parsers declared,
        definitions = (productions.map (·.header)).zip parsers ∧
          Makes base id (productions.forM fun production =>
            discard <| Edit.localRule id production.name) .none ⟨⟩ declared ∧
          AssembledAll base id options declared (productions.map (·.body)) parsers surplus) surplus
        (pure productions) (pure (headers'.zip parsers)) := by
    rw [← hheaders, List.forM_eq_forM, List.forM_map] at hdeclared
    exact .done ⟨parsers, declared, by rw [hheaders], hdeclared, hbodies'.symm ▸ hassembled⟩
  apply hmade
  · rw [List.map_map]
    exact List.map_snd_zip hbodies.le
  · rw [List.map_map]
    exact List.map_fst_zip hbodies.ge

end

theorem plus_none (store : Store) (id : GrammarId) : store.plus id .none = store := by
  have hgrammars : (store.catalog.grammars.modify id.index fun grammar =>
      { grammar with table := grammar.table.internAll [] }) = store.catalog.grammars := by
    apply Array.ext_getElem?
    intro place
    rw [Array.getElem?_modify]
    split
    · cases store.catalog.grammars[place]? <;> rfl
    · rfl
  simp only [Store.plus, Catalog.plus, Surplus.none, Array.append_empty, hgrammars]

theorem bindAll_eq_mapM (id : GrammarId) (productions : List Production) (parsers : List Parser) :
    Edit.bindAll id ((productions.map (·.header)).zip parsers) =
      (productions.zip parsers).mapM fun (production, parser) => Edit.bindOne id production parser := by
  rw [Edit.bindAll, List.zip_map_left, List.mapM_map]
  rfl

theorem run_adapt {ε ε' α : Type} (load : ExceptT ε Edit α) (f : ε → ε') (store : Store) :
    (load.adapt f).run store = ((load.run store).1.mapError f, (load.run store).2) :=
  rfl

theorem run_bindNodes (id : GrammarId) (nodes : List Node) (store : Store) :
    (bindNodes id nodes).run store =
      match (readProductions (store.catalog.grammar id).options.prose nodes).run store with
      | (.ok productions, read) =>
        (.ok (Edit.bind id productions read).1, (Edit.bind id productions read).2)
      | (.error error, read) => (.error (.grammar error), read) := by
  have hget : (get : Loading Store).run store = (.ok store, store) := rfl
  rw [bindNodes, Edit.run_bind_ok hget]
  have hadapt := run_adapt (readProductions (store.catalog.grammar id).options.prose nodes)
    Failure.grammar store
  rcases hread : (readProductions (store.catalog.grammar id).options.prose nodes).run store with
    ⟨error | productions, read⟩
  · rw [hread] at hadapt
    exact Edit.run_bind_error hadapt
  · rw [hread] at hadapt
    exact Edit.run_bind_ok hadapt

theorem run_bind {productions : List Production} {base read : Store} {id : GrammarId}
    {parsers : List Parser} {declared surplus : Surplus} (halike : base.Alike read)
    (hdeclared : Makes base id (productions.forM fun production =>
      discard <| Edit.localRule id production.name) .none ⟨⟩ declared)
    (hassembled : AssembledAll base id (base.catalog.grammar id).options declared
      (productions.map (·.body)) parsers surplus) :
    Edit.bind id productions read =
      Edit.bindAll id ((productions.map (·.header)).zip parsers) (read.plus id surplus) := by
  have hfirst := hdeclared read halike
  rw [plus_none] at hfirst
  have hoptions : ((read.plus id declared).catalog.grammar id).options =
      (base.catalog.grammar id).options := by
    rw [← halike.catalog, Store.plus, Catalog.grammar_plus]
    split <;> rfl
  have hsecond := hassembled read halike
  rw [← hoptions] at hsecond
  rw [Edit.bind, Edit.bind_apply, hfirst, Edit.bind_apply, Edit.get_apply, Edit.bind_apply, hsecond,
    bindAll_eq_mapM]

/-- Binding parsed rules as they are read is binding them when all have been read. -/
theorem compile_eq_bindNodes {store : Store} (hstore : store.Furnished) {rule : RuleId}
    (hrule : store.catalog.local? .abnf "rulename" = some rule) (id : GrammarId)
    (nodes : List Node) : (compile id nodes).run store = (bindNodes id nodes).run store := by
  have hreads : Fuses store id _ _ _ _ :=
    fuses_readDefinitions hstore hrule (store.catalog.grammar id).options nodes
  obtain ⟨halike, hfuses⟩ := hreads store (.refl store)
  rw [plus_none] at hfuses
  rw [run_compile, run_bindNodes]
  rcases hread : (readProductions (store.catalog.grammar id).options.prose nodes).run store with
    ⟨error | productions, read⟩
  · rw [hread] at hfuses halike
    obtain ⟨surplus, hbuilt⟩ := hfuses
    rw [hbuilt]
    simp only [truncate_plus halike]
  · rw [hread] at hfuses halike
    obtain ⟨definitions, surplus, ⟨parsers, declared, rfl, hdeclared, hassembled⟩, hbuilt⟩ := hfuses
    rw [hbuilt]
    simp only [run_bind halike hdeclared hassembled]

end RuleText

structure Store.Loadable (store : Store) : Prop where
  furnished : store.Furnished
  readable : store.catalog.Readable

theorem Store.Loadable.alike {store store' : Store} (h : store.Loadable) (halike : store.Alike store') :
    store'.Loadable where
  furnished := h.furnished.alike halike
  readable := halike.catalog.symm ▸ h.readable

theorem Store.Loadable.compile_eq {store : Store} (h : store.Loadable) (id : GrammarId)
    (nodes : List Node) :
    (RuleText.compile id nodes).run store = (RuleText.bindNodes id nodes).run store := by
  obtain ⟨rule, hrule⟩ := h.readable "rulename" (by decide)
  exact RuleText.compile_eq_bindNodes h.furnished hrule id nodes

end Metasyntax
