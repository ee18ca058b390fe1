import Mathlib.Data.Set.Insert
import Metasyntax.Node
import Metasyntax.Proofs.Yields

/-!
# What is composed

Most of what an edit or a load does is put together from parts: one step after the other,
one step for each item of a list. What holds of doing nothing and of two steps where it holds
of both holds of the whole. Assembling an expression and reading the tree of a rule are
put together so, too, and it is enough to know the steps taken at their leaves.
-/

set_option autoImplicit false

namespace Metasyntax

structure Compositional (m : Type → Type) [Monad m] (K : {α : Type} → m α → Prop) : Prop where
  done {α : Type} (a : α) : K (pure a : m α)
  andThen {α β : Type} {first : m α} {next : α → m β} :
    K first → (∀ a, K (next a)) → K (first >>= next)

namespace Compositional

variable {m : Type → Type} [Monad m] {K : {α : Type} → m α → Prop} {α β : Type}
  (hK : Compositional m K)
include hK

theorem forM {next : α → m PUnit} (h : ∀ a, K (next a)) : ∀ items : List α, K (items.forM next)
  | [] => hK.done _
  | a :: rest => hK.andThen (h a) fun _ => forM h rest

variable [LawfulMonad m]

theorem mapM_mem {next : α → m β} (items : List α) (h : ∀ a ∈ items, K (next a)) :
    K (items.mapM next) := by
  induction items with
  | nil => exact hK.done []
  | cons item rest ih =>
    obtain ⟨hfirst, hrest⟩ := List.forall_mem_cons.1 h
    rw [List.mapM_cons]
    exact hK.andThen hfirst fun b => hK.andThen (ih hrest) fun bs => hK.done (b :: bs)

theorem mapM {next : α → m β} (h : ∀ a, K (next a)) (items : List α) : K (items.mapM next) :=
  hK.mapM_mem items fun a _ => h a

end Compositional

mutual
def Expression.names : Expression → List String
  | .literal _ => []
  | .name called => [called]
  | .choice branches => namesAll branches
  | .sequence items => namesAll items
  | .repeated _ element => element.names
  | .optional element => element.names
  | .prose _ => []

def Expression.namesAll : List Expression → List String
  | [] => []
  | expression :: rest => expression.names ++ namesAll rest
end

namespace Edit

structure Assembling (options : Options) (K : {α : Type} → Edit α → Prop) : Prop
    extends Compositional Edit K where
  alternation (branches : List Parser) : K (Edit.alternation options.firstMatch branches)
  repetition (bounds : Bounds) (element : Parser) :
    K (Edit.repetition options.cacheSize bounds element)
  optional (element : Parser) : K (Edit.optional options.cacheSize element)

section
variable {id : GrammarId} {options : Options} {K : {α : Type} → Edit α → Prop}
  (hK : Assembling options K)
include hK

mutual
theorem composed_assemble (expression : Expression)
    (h : ∀ name ∈ expression.names, K (assemble id options (.name name))) :
    K (assemble id options expression) := by
  cases expression with
  | literal terminal | prose text => rw [assemble]; exact hK.done _
  | name name => exact h name (List.mem_singleton_self name)
  | choice branches =>
    rw [assemble]
    exact hK.andThen (composed_assembleAll branches h) hK.alternation
  | sequence items =>
    rw [assemble]
    exact hK.andThen (composed_assembleAll items h) fun _ => hK.done _
  | repeated bounds element =>
    rw [assemble]
    exact hK.andThen (composed_assemble element h) (hK.repetition bounds)
  | optional element =>
    rw [assemble]
    exact hK.andThen (composed_assemble element h) hK.optional

theorem composed_assembleAll (expressions : List Expression)
    (h : ∀ name ∈ Expression.namesAll expressions, K (assemble id options (.name name))) :
    K (assembleAll id options expressions) := by
  cases expressions with
  | nil => rw [assembleAll]; exact hK.done _
  | cons expression rest =>
    rw [Expression.namesAll, List.forall_mem_append] at h
    rw [assembleAll]
    exact hK.andThen (composed_assemble expression h.1) fun _ =>
      hK.andThen (composed_assembleAll rest h.2) fun _ => hK.done _
end

end

end Edit

structure Tolerant {ε : Type} (K : {α : Type} → ExceptT ε Edit α → Prop) : Prop
    extends Compositional (ExceptT ε Edit) K where
  throw {α : Type} (error : ε) : K (throwThe ε error : ExceptT ε Edit α)

namespace Tolerant

variable {ε α β : Type} {K : {α : Type} → ExceptT ε Edit α → Prop} (hK : Tolerant K)
include hK

theorem ofExcept (result : Except ε α) : K (liftM result : ExceptT ε Edit α) := by
  cases result with
  | ok a => exact hK.done a
  | error error => exact hK.throw error

end Tolerant

def RuleText.proseBody (node : Node) : String :=
  ((between '<' '>' node.value.toList).map String.ofList).getD node.value

namespace Node

def proses (node : Node) : List String :=
  (node.preorder.filter (·.name = "prose-val")).map RuleText.proseBody

theorem mem_preorderOfAll {nodes : List Node} {node : Node} :
    node ∈ preorderOfAll nodes ↔ ∃ top ∈ nodes, node ∈ top.preorder := by
  induction nodes with
  | nil => simp [preorderOfAll]
  | cons top rest ih => simp [preorderOfAll, ih]

theorem mem_proses {name : String} {children : List Node} {body : String} :
    body ∈ (Node.rule name children).proses ↔
      (name = "prose-val" ∧ RuleText.proseBody (.rule name children) = body) ∨
        ∃ child ∈ children, body ∈ child.proses := by
  simp only [proses, List.mem_map, List.mem_filter, decide_eq_true_eq, preorder, List.mem_cons,
    mem_preorderOfAll]
  constructor
  · rintro ⟨node, ⟨rfl | ⟨child, hchild, hnode⟩, hname⟩, rfl⟩
    · exact Or.inl ⟨hname, rfl⟩
    · exact Or.inr ⟨child, hchild, node, ⟨hnode, hname⟩, rfl⟩
  · rintro (⟨rfl, rfl⟩ | ⟨child, hchild, node, ⟨hnode, hname⟩, rfl⟩)
    · exact ⟨_, ⟨Or.inl rfl, rfl⟩, rfl⟩
    · exact ⟨node, ⟨Or.inr ⟨child, hchild, hnode⟩, hname⟩, rfl⟩

theorem proses_of_mem_children {node child : Node} (h : child ∈ node.children) {body : String}
    (hbody : body ∈ child.proses) : body ∈ node.proses := by
  cases node with
  | literal value offset => cases h
  | rule name children => exact mem_proses.2 (Or.inr ⟨child, h, hbody⟩)

end Node

namespace RuleText

def ProseOf (N : String → Prop) (node : Node) : Prop := ∀ body ∈ node.proses, N body

theorem ProseOf.children {N : String → Prop} {node : Node} (h : ProseOf N node) :
    ∀ child ∈ node.children, ProseOf N child :=
  fun _ hchild body hbody => h body (Node.proses_of_mem_children hchild hbody)

theorem ProseOf.of_requireChild {N : String → Prop} {node child : Node} {name context : String}
    (h : ProseOf N node) (hchild : requireChild node name context = .ok child) :
    ProseOf N child := by
  rw [requireChild] at hchild
  split at hchild
  · cases hchild
    exact h.children child (List.mem_of_find?_eq_some ‹_›)
  · cases hchild

structure Building {α : Type} (builder : Builder α)
    (K : {β : Type} → Set α → (β → Set α) → Reading β → Prop) : Prop where
  done {β : Type} {parts : Set α} {gives : β → Set α} {b : β} :
    gives b ⊆ parts → K parts gives (pure b)
  throw {β : Type} {parts : Set α} {gives : β → Set α} (error : GrammarError) :
    K parts gives (throwThe GrammarError error : Reading β)
  andThen {β γ : Type} {parts : Set α} {gives : β → Set α} {gives' : γ → Set α}
    {first : Reading β} {next : β → Reading γ} : K parts gives first →
      (∀ b, K (parts ∪ gives b) gives' (next b)) → K parts gives' (first >>= next)
  literal {parts : Set α} (terminal : Literal) : K parts ({·}) (builder.literal terminal)
  name {parts : Set α} (name : String) : K parts ({·}) (builder.name name)
  choice {parts : Set α} {branches : List α} : (∀ branch ∈ branches, branch ∈ parts) →
    K parts ({·}) (builder.choice branches)
  sequence {parts : Set α} {items : List α} : (∀ item ∈ items, item ∈ parts) →
    K parts ({·}) (builder.sequence items)
  repeated {parts : Set α} (bounds : Bounds) {element : α} : element ∈ parts →
    K parts ({·}) (builder.repeated bounds element)
  optional {parts : Set α} {element : α} : element ∈ parts →
    K parts ({·}) (builder.optional element)
  prose {parts : Set α} (text : String) : K parts ({·}) (builder.prose text)

/-- Expressions are built without any doing. -/
theorem building_expressions {K : {α : Type} → Reading α → Prop} (hK : Tolerant K)
    (mode : ProseMode) : Building (.expressions mode) fun _ _ load => K load where
  done _ := hK.done _
  throw := hK.throw
  andThen := hK.andThen
  literal _ := hK.done _
  name _ := hK.done _
  choice _ := hK.done _
  sequence _ := hK.done _
  repeated _ _ _ := hK.done _
  optional _ := hK.done _
  prose _ := hK.done _

abbrev Tells {α : Type} (K : {β : Type} → Set α → (β → Set α) → Reading β → Prop)
    (body : String) : Prop :=
  ∀ parts, K parts (fun _ => ∅) (liftM (isRuleName body))

section
variable {α : Type} {builder : Builder α}
  {K : {β : Type} → Set α → (β → Set α) → Reading β → Prop} (hK : Building builder K)
include hK

theorem Building.ofExcept {β : Type} {parts : Set α} (result : Except GrammarError β) :
    K parts (fun _ => ∅) (liftM result : Reading β) := by
  cases result with
  | ok b => exact hK.done (Set.empty_subset _)
  | error error => exact hK.throw error

theorem Building.ofExceptWith {β γ : Type} {parts : Set α} {gives : γ → Set α}
    {result : Except GrammarError β} {next : β → Reading γ}
    (h : ∀ b, result = .ok b → K parts gives (next b)) :
    K parts gives (liftM result >>= next) := by
  cases result with
  | ok b => exact h b rfl
  | error error => exact hK.throw error

omit hK in
theorem mem_cons_subset {parts : Set α} {item : α} {items : List α} :
    {other | other ∈ item :: items} ⊆ parts ∪ {item} ∪ {other | other ∈ items} := by
  intro other hother
  rcases List.mem_cons.1 hother with rfl | hother
  · exact Or.inl (Or.inr rfl)
  · exact Or.inr hother

theorem composed_collapse {parts : Set α} {combine : List α → Reading α} {items : List α}
    (hcombine : (∀ item ∈ items, item ∈ parts) → K parts ({·}) (combine items))
    (context : String) (node : Node) (hitems : ∀ item ∈ items, item ∈ parts) :
    K parts ({·}) (collapse combine context node items) := by
  match items with
  | [] => exact hK.throw _
  | [item] => exact hK.done (Set.singleton_subset_iff.2 (hitems item List.mem_cons_self))
  | _ :: _ :: _ => exact hcombine hitems

theorem composed_readProse (parts : Set α) (node : Node)
    (h : Tells K (proseBody node)) : K parts ({·}) (readProse builder node) := by
  refine hK.andThen (h parts) fun named => ?_
  cases named with
  | true => exact hK.name _
  | false =>
    cases builder.mode with
    | reject => exact hK.throw _
    | placeholder => exact hK.prose _

-- Nothing but telling names from prose looks at the store, so the induction along the functions
-- that read a tree has one case in which the kind of the load is not given by how it is composed.
mutual
theorem composed_readAlternation (parts : Set α) (node : Node) (h : ProseOf (Tells K) node) :
    K parts ({·}) (readAlternation builder node) := by
  cases node with
  | literal value offset => rw [readAlternation]; exact hK.throw _
  | rule name children =>
    rw [readAlternation]
    refine hK.andThen (composed_readBranches parts children h.children) fun branches => ?_
    exact composed_collapse hK hK.choice _ _ fun _ => Or.inr

theorem composed_readBranches (parts : Set α) (nodes : List Node)
    (h : ∀ node ∈ nodes, ProseOf (Tells K) node) :
    K parts (fun branches => {branch | branch ∈ branches}) (readBranches builder nodes) := by
  cases nodes with
  | nil => rw [readBranches]; exact hK.done (by simp)
  | cons node rest =>
    obtain ⟨hfirst, hrest⟩ := List.forall_mem_cons.1 h
    rw [readBranches]
    split
    · refine hK.andThen (composed_readConcatenation parts node hfirst) fun branch => ?_
      refine hK.andThen (composed_readBranches _ rest hrest) fun branches => hK.done mem_cons_subset
    · exact composed_readBranches parts rest hrest

theorem composed_readConcatenation (parts : Set α) (node : Node) (h : ProseOf (Tells K) node) :
    K parts ({·}) (readConcatenation builder node) := by
  cases node with
  | literal value offset => rw [readConcatenation]; exact hK.throw _
  | rule name children =>
    rw [readConcatenation]
    refine hK.andThen (composed_readItems parts children h.children) fun items => ?_
    exact composed_collapse hK hK.sequence _ _ fun _ => Or.inr

theorem composed_readItems (parts : Set α) (nodes : List Node)
    (h : ∀ node ∈ nodes, ProseOf (Tells K) node) :
    K parts (fun items => {item | item ∈ items}) (readItems builder nodes) := by
  cases nodes with
  | nil => rw [readItems]; exact hK.done (by simp)
  | cons node rest =>
    obtain ⟨hfirst, hrest⟩ := List.forall_mem_cons.1 h
    rw [readItems]
    split
    · refine hK.andThen (composed_readRepetition parts node hfirst) fun item => ?_
      refine hK.andThen (composed_readItems _ rest hrest) fun items => hK.done mem_cons_subset
    · exact composed_readItems parts rest hrest

theorem composed_readRepetition (parts : Set α) (node : Node) (h : ProseOf (Tells K) node) :
    K parts ({·}) (readRepetition builder node) := by
  cases node with
  | literal value offset => rw [readRepetition]; exact hK.throw _
  | rule name children =>
    rw [readRepetition]
    refine hK.andThen (composed_readElementAmong parts _ children h.children) fun element => ?_
    split
    · exact hK.andThen (hK.ofExcept _) fun _ => hK.repeated _ (Or.inl (Or.inr rfl))
    · exact hK.done Set.subset_union_right

theorem composed_readElementAmong (parts : Set α) (missing : GrammarError) (nodes : List Node)
    (h : ∀ node ∈ nodes, ProseOf (Tells K) node) :
    K parts ({·}) (readElementAmong builder missing nodes) := by
  cases nodes with
  | nil => rw [readElementAmong]; exact hK.throw _
  | cons node rest =>
    obtain ⟨hfirst, hrest⟩ := List.forall_mem_cons.1 h
    rw [readElementAmong]
    split
    · exact composed_readElement parts node hfirst
    · exact composed_readElementAmong parts missing rest hrest

theorem composed_readElement (parts : Set α) (node : Node) (h : ProseOf (Tells K) node) :
    K parts ({·}) (readElement builder node) := by
  cases node with
  | literal value offset => rw [readElement]; exact hK.throw _
  | rule name children =>
    cases children with
    | nil => rw [readElement]; exact hK.throw _
    | cons inner rest =>
      rw [readElement]
      exact composed_readInner parts inner (h.children inner List.mem_cons_self)

theorem composed_readInner (parts : Set α) (node : Node) (h : ProseOf (Tells K) node) :
    K parts ({·}) (readInner builder node) := by
  cases node with
  | literal value offset => rw [readInner]; exact hK.throw _
  | rule name children =>
    rw [readInner]
    split
    · exact hK.name _
    split
    · exact composed_readBracketed parts _ children h.children
    split
    · exact hK.andThen (composed_readBracketed parts _ children h.children) fun _ =>
        hK.optional (Or.inr rfl)
    split
    · exact hK.andThen (hK.ofExcept _) hK.literal
    split
    · exact hK.andThen (hK.ofExcept _) hK.literal
    split
    · exact composed_readProse hK parts _ (h _ (Node.mem_proses.2 (Or.inl ⟨‹_›, rfl⟩)))
    · exact hK.throw _

theorem composed_readBracketed (parts : Set α) (missing : GrammarError) (nodes : List Node)
    (h : ∀ node ∈ nodes, ProseOf (Tells K) node) :
    K parts ({·}) (readBracketed builder missing nodes) := by
  cases nodes with
  | nil => rw [readBracketed]; exact hK.throw _
  | cons node rest =>
    obtain ⟨hfirst, hrest⟩ := List.forall_mem_cons.1 h
    rw [readBracketed]
    split
    · exact composed_readAlternation parts node hfirst
    · exact composed_readBracketed parts missing rest hrest
end

theorem composed_readBody (parts : Set α) (node : Node) (h : ProseOf (Tells K) node) :
    K parts ({·}) (readBody builder node) :=
  hK.ofExceptWith fun _ helements => hK.ofExceptWith fun alternation halternation =>
    composed_readAlternation hK parts alternation
      ((h.of_requireChild helements).of_requireChild halternation)

end

section
variable {α : Type} {builder : Builder α}
  {K : {β : Type} → Set α → (β → Set α) → Reading β → Prop} (hK : Building builder K)
include hK

theorem Building.mapM {β γ : Type} {gives : γ → Set α} {next : β → Reading γ} (items : List β)
    (h : ∀ b ∈ items, ∀ parts, K parts gives (next b)) (parts : Set α) :
    K parts (fun results => {part | ∃ result ∈ results, part ∈ gives result})
      (items.mapM next) := by
  induction items generalizing parts with
  | nil => exact hK.done (by simp)
  | cons item rest ih =>
    obtain ⟨hfirst, hrest⟩ := List.forall_mem_cons.1 h
    rw [List.mapM_cons]
    refine hK.andThen (hfirst parts) fun result => ?_
    refine hK.andThen (ih hrest _) fun results => hK.done ?_
    rintro part ⟨other, hother, hpart⟩
    rcases List.mem_cons.1 hother with rfl | hother
    · exact Or.inl (Or.inr hpart)
    · exact Or.inr ⟨other, hother, hpart⟩

end

/-- What is told of the parsers that a batch of rules is to be bound to. -/
theorem composed_readDefinitions {id : GrammarId} {options : Options}
    {K : {β : Type} → Set Parser → (β → Set Parser) → Reading β → Prop}
    (hK : Building (.parsers id options) K)
    (hdeclare : ∀ parts name, K parts (fun _ => ∅) (liftM (Edit.localRule id name)))
    (nodes : List Node) (h : ∀ node ∈ nodes, ProseOf (Tells K) node) (parts : Set Parser) :
    K parts (fun definitions => {parser | ∃ definition ∈ definitions, parser = definition.2})
      (readDefinitions id options nodes) := by
  have hnothing {β : Type} (b : β) (parts : Set Parser) :
      K parts (fun _ => ∅) (pure b : Reading β) := hK.done (Set.empty_subset _)
  have hheader (node : Node) (parts : Set Parser) : K parts (fun _ => ∅) (do
      let header ← readHeader node
      discard <| Edit.localRule id header.1
      return header) := by
    refine hK.andThen (hK.ofExcept _) fun header => ?_
    rw [Functor.discard, map_const, Function.comp_apply, ← bind_pure_comp]
    exact hK.andThen (hK.andThen (hdeclare _ _) fun _ => hnothing _ _) fun _ => hnothing _ _
  have hdefinition (headers : List (String × Bool)) (item : (String × Bool) × Node)
      (hitem : item ∈ headers.zip nodes) (parts : Set Parser) :
      K parts (fun definition => {definition.2}) (do
        return (item.1, ← readBody (.parsers id options) item.2)) :=
    hK.andThen (composed_readBody hK parts item.2 (h _ (List.of_mem_zip hitem).2)) fun _ =>
      hK.done Set.subset_union_right
  exact hK.andThen (hK.mapM nodes (fun node _ => hheader node) parts) fun headers =>
    hK.mapM (headers.zip nodes) (hdefinition headers) _

theorem composed_readProductions {K : {α : Type} → Reading α → Prop} (hK : Tolerant K)
    (mode : ProseMode) (nodes : List Node)
    (h : ∀ node ∈ nodes, ProseOf (fun body => K (liftM (isRuleName body))) node) :
    K (readProductions mode nodes) :=
  hK.andThen (hK.ofExcept _) fun _ => hK.andThen (hK.mapM_mem nodes fun node hnode =>
    composed_readBody (building_expressions hK mode) ∅ node fun body hbody _ =>
      h node hnode body hbody) fun _ => hK.done _

end RuleText

end Metasyntax
