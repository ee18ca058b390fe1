import Mathlib.Data.Set.Basic
import Metasyntax.Proofs.CacheEntries
import Metasyntax.Proofs.Depth

/-!
# Caches do not show

A cache is sound when what it remembers is what its repetition would answer anew.
Sound caches stay sound in every parse, and a parse that uses them ends as one that
has none. Two runs that are both given up count as ending alike: what they stand
for does not end.
-/

set_option autoImplicit false

namespace Metasyntax

namespace Parser

mutual
theorem walk_trans (parser : Parser) {a b : Parser} (ha : a ∈ parser.walk) (hb : b ∈ a.walk) :
    b ∈ parser.walk := by
  cases parser with
  | alternation mode branches =>
    rcases List.mem_cons.1 (by simpa only [walk] using ha) with rfl | ha
    · exact hb
    · simp [walk, walkAll_trans branches ha hb]
  | concatenation parts =>
    rcases List.mem_cons.1 (by simpa only [walk] using ha) with rfl | ha
    · exact hb
    · simp [walk, walkAll_trans parts ha hb]
  | optional cache element | repetition cache bounds element =>
    rcases List.mem_cons.1 (by simpa only [walk] using ha) with rfl | ha
    · exact hb
    · simp [walk, walk_trans element ha hb]
  | literal terminal | rule ref | prose text =>
    obtain rfl := List.mem_singleton.1 (by simpa only [walk] using ha)
    exact hb

theorem walkAll_trans (parsers : List Parser) {a b : Parser} (ha : a ∈ walkAll parsers)
    (hb : b ∈ a.walk) : b ∈ walkAll parsers := by
  cases parsers with
  | nil => exact absurd ha (by simp [walkAll])
  | cons parser rest =>
    rw [walkAll, List.mem_append] at ha ⊢
    rcases ha with ha | ha
    · exact Or.inl (walk_trans parser ha hb)
    · exact Or.inr (walkAll_trans rest ha hb)
end

theorem mem_walkAll {parsers : List Parser} {node : Parser} :
    node ∈ walkAll parsers ↔ ∃ parser ∈ parsers, node ∈ parser.walk := by
  induction parsers with
  | nil => simp [walkAll]
  | cons parser rest ih => simp [walkAll, ih]

theorem self_mem_walk (parser : Parser) : parser ∈ parser.walk := by
  cases parser <;> simp [walk]

theorem mem_references {parser : Parser} {ref : RuleRef} :
    ref ∈ parser.references ↔ .rule ref ∈ parser.walk := by
  rw [references, List.mem_filterMap]
  constructor
  · rintro ⟨node, hnode, h⟩
    cases node <;> simp_all
  · exact fun h => ⟨_, h, rfl⟩

end Parser

/-- A number of rules, and of parsers that have to do with them. -/
structure Scope where
  rules : Set RuleId
  nodes : Set Parser

namespace Scope

structure Closed (scope : Scope) (catalog : Catalog) : Prop where
  inner : ∀ node ∈ scope.nodes, ∀ part ∈ node.walk, part ∈ scope.nodes
  target : ∀ ref, .rule ref ∈ scope.nodes → ∀ rule, catalog.resolve ref = .ok rule →
    rule ∈ scope.rules
  definition : ∀ rule ∈ scope.rules, ∀ slot definition,
    catalog.bound rule = .ok (slot, definition) → definition ∈ scope.nodes
  exclusion : ∀ rule ∈ scope.rules, ∀ slot definition ref,
    catalog.bound rule = .ok (slot, definition) → slot.exclusion = some ref →
      ∀ excluded, catalog.resolve ref = .ok excluded → excluded ∈ scope.rules

end Scope

/-- The parsers of two collections that have one cache are one parser. -/
def Apart (nodes nodes' : Set Parser) : Prop :=
  ∀ a ∈ nodes, ∀ b ∈ nodes', ∀ id, a.cache? = some id → b.cache? = some id → a = b

/-- What the caches of some parsers remember is what these answer without caches. -/
def Sound (catalog : Catalog) (nodes : Set Parser) (caches : Caches) : Prop :=
  ∀ node ∈ nodes, ∀ id, node.cache? = some id → ∀ key attempt, caches.Holds id key attempt →
    node.explore catalog.firstMatch (catalog.settled key.source) key.source key.start = .ok attempt

namespace Sound

variable {catalog : Catalog} {nodes : Set Parser} {caches : Caches}

theorem of_holds {caches' : Caches} (h : Sound catalog nodes caches)
    (hholds : ∀ id key attempt, caches'.Holds id key attempt → caches.Holds id key attempt) :
    Sound catalog nodes caches' :=
  fun node hnode id hid key attempt hattempt =>
    h node hnode id hid key attempt (hholds id key attempt hattempt)

theorem of_empty (h : ∀ id key attempt, ¬ caches.Holds id key attempt) :
    Sound catalog nodes caches :=
  fun _ _ id _ key attempt hattempt => absurd hattempt (h id key attempt)

theorem of_all_isEmpty (h : caches.all (·.isEmpty) = true) : Sound catalog nodes caches :=
  .of_empty fun _ _ _ => Caches.not_holds_of_isEmpty (Array.all_eq_true_iff_forall_mem.1 h)

theorem mono {nodes' : Set Parser} (h : Sound catalog nodes caches)
    (hsub : ∀ node ∈ nodes', node ∈ nodes) : Sound catalog nodes' caches :=
  fun node hnode => h node (hsub node hnode)

theorem touch (h : Sound catalog nodes caches) (id : CacheId) (key : CacheKey) :
    Sound catalog nodes (caches.modify id.index (·.touch key)) :=
  h.of_holds fun _ _ _ => Caches.holds_of_holds_touch

/-- What a parser answers may be remembered as long as no other parser has its cache. -/
theorem insert (h : Sound catalog nodes caches) {node : Parser} {id : CacheId}
    (hid : node.cache? = some id) {source : Source} {start : Nat} {attempt : Attempt}
    (hapart : ∀ other ∈ nodes, other.cache? = some id → other = node)
    (hattempt : node ∈ nodes →
      node.explore catalog.firstMatch (catalog.settled source) source start = .ok attempt) :
    Sound catalog nodes (caches.modify id.index (·.insert ⟨source, start⟩ attempt)) := by
  intro other hother id' hid' key attempt' hholds
  rcases Caches.holds_of_holds_insert hholds with ⟨rfl, rfl, rfl⟩ | hholds
  · obtain rfl := hapart other hother hid'
    exact hattempt hother
  · exact h other hother id' hid' key attempt' hholds

end Sound

theorem Catalog.eq_of_resolve {catalog : Catalog} {ref : RuleRef} {rule : RuleId}
    (h : catalog.resolve ref = .ok rule) : rule = ref.target := by
  rw [resolve] at h
  split at h
  · cases h
    rfl
  · cases h

theorem Catalog.alive_of_resolve {catalog : Catalog} {ref : RuleRef} {rule : RuleId}
    (h : catalog.resolve ref = .ok rule) : catalog.alive ref.target.grammar = true := by
  rw [resolve] at h
  split at h
  · assumption
  · cases h

theorem Catalog.eq_of_resolve_refer {catalog : Catalog} {rule rule' : RuleId}
    (h : catalog.resolve (catalog.refer rule) = .ok rule') : rule' = rule :=
  eq_of_resolve h

/-- Two outcomes that are one, or both of a run that was given up. -/
def Agree {α : Type} (x y : Except GrammarError α) : Prop :=
  x = y ∨ (∃ error, error.TooDeep ∧ x = .error error) ∧ ∃ error, error.TooDeep ∧ y = .error error

def below (keeps : Caches → Prop) : Relator Run (Except GrammarError) where
  rel post x y := ∀ caches, keeps caches →
    Approximates GrammarError.TooDeep (x.run caches).1 y ∧ keeps (x.run caches).2 ∧
      ∀ a, (x.run caches).1 = .ok a → post a
  pure h caches hcaches := ⟨Or.inr rfl, hcaches, fun a h' => by cases h'; exact h⟩
  throw error _ caches hcaches := ⟨Or.inr rfl, hcaches, fun a h' => by cases h'⟩
  bind {α β post post' x y f g} h hf caches hcaches := by
    obtain ⟨happrox, hkeeps, hpost⟩ := h caches hcaches
    rcases hx : x.run caches with ⟨error | a, caches'⟩
    · rw [Run.run_bind_error hx]
      rw [hx] at happrox hkeeps
      refine ⟨?_, hkeeps, fun a h' => by cases h'⟩
      rcases happrox with ⟨error', hdeep, heq⟩ | rfl
      · cases heq
        exact Or.inl ⟨error, hdeep, rfl⟩
      · exact Or.inr rfl
    · rw [Run.run_bind_ok hx]
      rw [hx] at happrox hkeeps hpost
      rw [happrox.eq_of_ok]
      exact hf a (hpost a rfl) caches' hkeeps

def above (keeps : Caches → Prop) : Relator (Except GrammarError) Run where
  rel post x y := ∀ caches, keeps caches →
    (∃ error, error.TooDeep ∧ x = .error error) ∨
      (y.run caches).1 = x ∧ keeps (y.run caches).2 ∧ ∀ a, x = .ok a → post a
  pure h caches hcaches := Or.inr ⟨rfl, hcaches, fun a h' => by cases h'; exact h⟩
  throw error _ caches hcaches := Or.inr ⟨rfl, hcaches, fun a h' => by cases h'⟩
  bind {α β post post' x y f g} h hf caches hcaches := by
    rcases h caches hcaches with ⟨error, hdeep, rfl⟩ | ⟨hsame, hkeeps, hpost⟩
    · exact Or.inl ⟨error, hdeep, rfl⟩
    · rcases hy : y.run caches with ⟨error | a, caches'⟩
      · rw [hy] at hsame hkeeps
        subst hsame
        rw [Run.run_bind_error hy]
        exact Or.inr ⟨rfl, hkeeps, fun a h' => by cases h'⟩
      · rw [hy] at hsame hkeeps
        subst hsame
        rw [Run.run_bind_ok hy]
        exact hf a (hpost a rfl) caches' hkeeps

def agreement (keeps : Caches → Prop) : Relator Run (Except GrammarError) where
  rel post x y := ∀ caches, keeps caches →
    Agree (x.run caches).1 y ∧ keeps (x.run caches).2 ∧ ∀ a, (x.run caches).1 = .ok a → post a
  pure h caches hcaches := ⟨Or.inl rfl, hcaches, fun a h' => by cases h'; exact h⟩
  throw error _ caches hcaches := ⟨Or.inl rfl, hcaches, fun a h' => by cases h'⟩
  bind {α β post post' x y f g} h hf caches hcaches := by
    obtain ⟨hagree, hkeeps, hpost⟩ := h caches hcaches
    rcases hx : x.run caches with ⟨error | a, caches'⟩
    · rw [Run.run_bind_error hx]
      rw [hx] at hagree hkeeps
      refine ⟨?_, hkeeps, fun a h' => by cases h'⟩
      rcases hagree with rfl | ⟨hdeep, error', hdeep', rfl⟩
      · exact Or.inl rfl
      · obtain ⟨_, hdeep, ⟨⟩⟩ := hdeep
        exact Or.inr ⟨⟨error, hdeep, rfl⟩, error', hdeep', rfl⟩
    · rw [Run.run_bind_ok hx]
      rw [hx] at hagree hkeeps hpost
      rcases hagree with rfl | ⟨⟨_, _, ⟨⟩⟩, _⟩
      exact hf a (hpost a rfl) caches' hkeeps

theorem agreement_of_below_of_above {keeps : Caches → Prop} {α : Type} {post post' : α → Prop}
    {x : Run α} {y : Except GrammarError α} (hbelow : (below keeps).rel post x y)
    (habove : (above keeps).rel post' y x) : (agreement keeps).rel post x y := by
  intro caches hcaches
  obtain ⟨happrox, hkeeps, hpost⟩ := hbelow caches hcaches
  refine ⟨?_, hkeeps, hpost⟩
  rcases habove caches hcaches with hdeep | ⟨hsame, -⟩
  · rcases happrox with hdeep' | hsame
    · exact Or.inr ⟨hdeep', hdeep⟩
    · exact Or.inl hsame
  · exact Or.inl hsame

section
variable {catalog : Catalog} {scope : Scope}

theorem explore_approximates_settled (depth : Nat) (node : Parser) (source : Source)
    (start : Nat) :
    Approximates GrammarError.TooDeep
      (node.explore catalog.firstMatch (catalog.call depth source) source start)
      (node.explore catalog.firstMatch (catalog.settled source) source start) := by
  rw [← Parser.enumerate_eq_explore, ← Parser.enumerate_eq_explore]
  have hlinked : Linked (approximation GrammarError.TooDeep) (fun _ => True) source
      catalog.firstMatch catalog.firstMatch (catalog.call depth source) (catalog.settled source)
      node.walk :=
    { call := fun ref _ o _ =>
        ⟨Catalog.call_approximates_settled depth source ref o, fun _ _ _ _ _ _ => trivial⟩
      mode := fun _ _ _ => rfl
      remember := fun _ _ _ _ _ _ h => h }
  exact (enumerate_rel (settling_true.consume source) node hlinked start trivial).1

/-- Remembering an answer does not show where what is remembered is what would be found, and
noting that down keeps the caches as they should be. -/
theorem remembered_below_of {keeps : Caches → Prop} {id : CacheId} {key : CacheKey}
    {post : Attempt → Prop} {explore : Run Attempt} {answer : Except GrammarError Attempt}
    (hpost : ∀ attempt, post attempt)
    (hhit : ∀ caches attempt, keeps caches → caches.Holds id key attempt → answer = .ok attempt)
    (htouch : ∀ caches, keeps caches → keeps (caches.modify id.index (·.touch key)))
    (hinsert : ∀ caches attempt, keeps caches → answer = .ok attempt →
      keeps (caches.modify id.index (·.insert key attempt)))
    (h : (below keeps).rel post explore answer) :
    (below keeps).rel post (remembered id key explore) answer := by
  intro caches hcaches
  by_cases hold : ∃ attempt, caches.Holds id key attempt
  · obtain ⟨attempt, hold⟩ := hold
    rw [run_remembered_hit hold]
    exact ⟨Or.inr (hhit caches attempt hcaches hold).symm, htouch caches hcaches, fun a _ => hpost a⟩
  · rw [run_remembered_miss (by simpa using hold)]
    have hrun := h _ (htouch caches hcaches)
    revert hrun
    rcases explore.run (caches.modify id.index (·.touch key)) with ⟨error | attempt, caches'⟩
    · exact fun h => h
    · rintro ⟨happrox, hkeeps, -⟩
      exact ⟨happrox, hinsert caches' attempt hkeeps happrox.eq_of_ok, fun a _ => hpost a⟩

theorem remembered_below {nodes : Set Parser} (hapart : Apart nodes nodes) {node : Parser}
    (hnode : node ∈ nodes) {id : CacheId} (hid : node.cache? = some id) {source : Source}
    {start : Nat} {post : Attempt → Prop} {explore : Run Attempt}
    (hpost : ∀ attempt, post attempt)
    (h : (below (Sound catalog nodes)).rel post explore
      (node.explore catalog.firstMatch (catalog.settled source) source start)) :
    (below (Sound catalog nodes)).rel post (remembered id ⟨source, start⟩ explore)
      (node.explore catalog.firstMatch (catalog.settled source) source start) :=
  remembered_below_of hpost
    (fun _ attempt hcaches hold => hcaches node hnode id hid ⟨source, start⟩ attempt hold)
    (fun _ hcaches => hcaches.touch id _)
    (fun _ _ hcaches hattempt => hcaches.insert hid
      (fun other hother hid' => hapart other hother node hnode id hid' hid) fun _ => hattempt) h

theorem remembered_above {nodes : Set Parser} (hapart : Apart nodes nodes) {node : Parser}
    (hnode : node ∈ nodes) {id : CacheId} (hid : node.cache? = some id) {depth : Nat}
    {source : Source} {start : Nat} {post : Attempt → Prop} {explore : Run Attempt}
    (hpost : ∀ attempt, post attempt)
    (h : (above (Sound catalog nodes)).rel post
      (node.explore catalog.firstMatch (catalog.call depth source) source start) explore) :
    (above (Sound catalog nodes)).rel post
      (node.explore catalog.firstMatch (catalog.call depth source) source start)
      (remembered id ⟨source, start⟩ explore) := by
  intro caches hcaches
  have hsettled : Approximates GrammarError.TooDeep
      (node.explore catalog.firstMatch (catalog.call depth source) source start)
      (node.explore catalog.firstMatch (catalog.settled source) source start) :=
    explore_approximates_settled depth node source start
  by_cases hhit : ∃ attempt, caches.Holds id ⟨source, start⟩ attempt
  · obtain ⟨attempt, hhit⟩ := hhit
    rw [run_remembered_hit hhit]
    rcases hsettled with hdeep | hsame
    · exact Or.inl hdeep
    · rw [hsame, hcaches node hnode id hid _ attempt hhit]
      exact Or.inr ⟨rfl, hcaches.touch id _, fun a _ => hpost a⟩
  · rw [run_remembered_miss (by simpa using hhit)]
    rcases h _ (hcaches.touch id ⟨source, start⟩) with hdeep | hrun
    · exact Or.inl hdeep
    · refine Or.inr ?_
      revert hrun
      rcases explore.run (caches.modify id.index (·.touch ⟨source, start⟩)) with
        ⟨error | attempt, caches'⟩
      · exact fun h => h
      · rintro ⟨hsame, hkeeps, -⟩
        rw [← hsame] at hsettled
        exact ⟨hsame, hkeeps.insert hid (fun other hother hid' => hapart other hother node hnode id
          hid' hid) fun _ => hsettled.eq_of_ok, fun a _ => hpost a⟩

section
variable {m₁ m₂ : Type → Type} [Monad m₁] [Monad m₂] [MonadExceptOf GrammarError m₁]
  [MonadExceptOf GrammarError m₂] [Remembering m₁] [Remembering m₂] {R : Relator m₁ m₂}
variable {call₁ : Source → RuleRef → Nat → m₁ Attempt} {call₂ : Source → RuleRef → Nat → m₂ Attempt}

def Scope.CallsRelated (scope : Scope) (catalog : Catalog) (R : Relator m₁ m₂)
    (call₁ : Source → RuleRef → Nat → m₁ Attempt) (call₂ : Source → RuleRef → Nat → m₂ Attempt) :
    Prop :=
  ∀ source ref, (∀ rule, catalog.resolve ref = .ok rule → rule ∈ scope.rules) → ∀ o,
    R.rel (StopsIn fun _ => True) (call₁ source ref o) (call₂ source ref o)

def Scope.AnswersRelated (scope : Scope) (catalog : Catalog) (R : Relator m₁ m₂)
    (call₁ : Source → RuleRef → Nat → m₁ Attempt) (call₂ : Source → RuleRef → Nat → m₂ Attempt) :
    Prop :=
  ∀ node ∈ scope.nodes, ∀ id, node.cache? = some id → ∀ source o,
    R.rel (StopsIn fun _ => True) (node.explore catalog.firstMatch (call₁ source) source o)
      (node.explore catalog.firstMatch (call₂ source) source o) →
    R.rel (StopsIn fun _ => True)
      (Remembering.remember id ⟨source, o⟩
        (node.explore catalog.firstMatch (call₁ source) source o))
      (Remembering.remember id ⟨source, o⟩
        (node.explore catalog.firstMatch (call₂ source) source o))

variable (hclosed : scope.Closed catalog) (hcalls : scope.CallsRelated catalog R call₁ call₂)
  (hanswers : scope.AnswersRelated catalog R call₁ call₂)
include hclosed hcalls hanswers

theorem Scope.Closed.linked {parser : Parser} (hparser : parser ∈ scope.nodes) (source : Source) :
    Linked R (fun _ => True) source catalog.firstMatch catalog.firstMatch (call₁ source)
      (call₂ source) parser.walk where
  call ref href o _ := hcalls source ref (hclosed.target ref (hclosed.inner _ hparser _ href)) o
  mode _ _ _ := rfl
  remember node hnode id hid o _ h :=
    hanswers node (hclosed.inner parser hparser node hnode) id hid source o h

theorem Scope.Closed.callOnce_rel {source : Source} {ref : RuleRef}
    (href : ∀ rule, catalog.resolve ref = .ok rule → rule ∈ scope.rules) (start : Nat)
    (hthrows : ∀ error, R.throws error := by exact fun _ => trivial) :
    R.rel (StopsIn fun _ => True) (catalog.callOnce call₁ source ref start)
      (catalog.callOnce call₂ source ref start) := by
  refine Metasyntax.callOnce_rel settling_true trivial rfl (fun rule hrule => ?_)
    fun error _ => hthrows error
  exact
    { bound := rfl
      refer := rfl
      unbound := fun error _ => hthrows error
      dangling := fun _ _ _ _ _ error _ => hthrows error
      body := fun slot definition hbound => hclosed.linked hcalls hanswers
        (hclosed.definition rule (href rule hrule) slot definition hbound) source
      exclusion := fun slot definition ref' hbound href' =>
        ⟨rfl, fun excluded hexcluded source' _ => ⟨_, fun _ _ => rfl, hcalls source' _
          (fun rule' hrule' => Catalog.eq_of_resolve_refer hrule' ▸ hclosed.exclusion rule
            (href rule hrule) slot definition ref' hbound href' excluded hexcluded) 0⟩⟩ }

end

variable (hclosed : scope.Closed catalog) (hapart : Apart scope.nodes scope.nodes)
include hclosed hapart

theorem call_below (depth : Nat) :
    scope.CallsRelated catalog (below (Sound catalog scope.nodes)) (catalog.call depth)
      catalog.settled := by
  induction depth with
  | zero =>
    intro source ref _ start caches hcaches
    exact ⟨Or.inl ⟨_, ⟨ref.name, rfl⟩, rfl⟩, hcaches, fun a h => by cases h⟩
  | succ depth ih =>
    intro source ref href start caches hcaches
    have hanswers : scope.AnswersRelated catalog (below (Sound catalog scope.nodes))
        (catalog.call depth) catalog.settled := fun node hnode id hid source o h =>
      remembered_below hapart hnode hid (fun _ _ _ _ _ => trivial) h
    obtain ⟨happrox, hkeeps, hpost⟩ :=
      hclosed.callOnce_rel ih hanswers href start (fun _ => trivial) caches hcaches
    exact ⟨happrox.trans (Catalog.callOnce_settled source ref start), hkeeps, hpost⟩

theorem call_above (depth : Nat) :
    scope.CallsRelated catalog (above (Sound catalog scope.nodes)) (catalog.call depth)
      (catalog.call depth) := by
  induction depth with
  | zero => exact fun _ ref _ _ _ _ => Or.inl ⟨_, ⟨ref.name, rfl⟩, rfl⟩
  | succ depth ih =>
    exact fun source ref href start => hclosed.callOnce_rel ih
      (fun node hnode id hid source o h =>
        remembered_above hapart hnode hid (fun _ _ _ _ _ => trivial) h) href start

theorem enumerate_below (depth : Nat) {parser : Parser} (hparser : parser ∈ scope.nodes)
    (source : Source) (start : Nat) :
    (below (Sound catalog scope.nodes)).rel (StopsIn fun _ => True)
      (parser.enumerate catalog.firstMatch (catalog.call depth source) source start)
      (parser.enumerate catalog.firstMatch (catalog.settled source) source start) :=
  enumerate_rel (settling_true.consume source) parser
    (hclosed.linked (call_below hclosed hapart depth)
      (fun _ hnode _ hid _ _ h => remembered_below hapart hnode hid (fun _ _ _ _ _ => trivial) h)
      hparser source)
    start trivial

theorem enumerate_above (depth : Nat) {parser : Parser} (hparser : parser ∈ scope.nodes)
    (source : Source) (start : Nat) :
    (above (Sound catalog scope.nodes)).rel (StopsIn fun _ => True)
      (parser.enumerate catalog.firstMatch (catalog.call depth source) source start)
      (parser.enumerate catalog.firstMatch (catalog.call depth source) source start) :=
  enumerate_rel (settling_true.consume source) parser
    (hclosed.linked (call_above hclosed hapart depth)
      (fun _ hnode _ hid _ _ h => remembered_above hapart hnode hid (fun _ _ _ _ _ => trivial) h)
      hparser source)
    start trivial

/-- The matches of a parser are those that come out without caches. -/
theorem matchesOf_agrees {parser : Parser} (hparser : parser ∈ scope.nodes) (source : Source)
    (start : Nat) :
    (agreement (Sound catalog scope.nodes)).rel (fun _ => True)
      (catalog.matchesOf parser source start) (catalog.matchesOf parser source start) := by
  intro caches hcaches
  obtain ⟨hagree, hkeeps, -⟩ := agreement_of_below_of_above
    (enumerate_below hclosed hapart (catalog.depthBound source) hparser source start)
    (enumerate_above hclosed hapart (catalog.depthBound source) hparser source start)
    caches hcaches
  exact ⟨hagree, hkeeps, fun _ _ => trivial⟩

theorem ruleMatches_agrees {rule : RuleId} (hrule : rule ∈ scope.rules) (source : Source)
    (start : Nat) :
    (agreement (Sound catalog scope.nodes)).rel (fun _ => True)
      (catalog.ruleMatches rule source start) (catalog.ruleMatches rule source start) := by
  have href : ∀ rule', catalog.resolve (catalog.refer rule) = .ok rule' → rule' ∈ scope.rules :=
    fun rule' h => Catalog.eq_of_resolve_refer h ▸ hrule
  intro caches hcaches
  obtain ⟨hagree, hkeeps, -⟩ := agreement_of_below_of_above
    (call_below hclosed hapart (catalog.depthBound source) source _ href start)
    (call_above hclosed hapart (catalog.depthBound source) source _ href start) caches hcaches
  exact ⟨hagree, hkeeps, fun _ _ => trivial⟩

def keeping (keeps : Caches → Prop) : Relator Run Run where
  rel post x _ := ∀ caches, keeps caches →
    keeps (x.run caches).2 ∧ ∀ a, (x.run caches).1 = .ok a → post a
  pure h caches hcaches := ⟨hcaches, fun a h' => by cases h'; exact h⟩
  throw _ _ caches hcaches := ⟨hcaches, fun a h' => by cases h'⟩
  bind {α β post post' x _ f _} h hf caches hcaches := by
    obtain ⟨hkeeps, hpost⟩ := h caches hcaches
    rcases hx : x.run caches with ⟨error | a, caches'⟩
    · rw [Run.run_bind_error hx]
      rw [hx] at hkeeps
      exact ⟨hkeeps, fun a h' => by cases h'⟩
    · rw [Run.run_bind_ok hx]
      rw [hx] at hkeeps hpost
      exact hf a (hpost a rfl) caches' hkeeps

abbrev Run.Upholds (keeps : Caches → Prop) {α : Type} (post : α → Prop) (run : Run α) : Prop :=
  (keeping keeps).rel post run run

omit hclosed hapart in
theorem Run.Upholds.mono {keeps : Caches → Prop} {α : Type} {post post' : α → Prop} {run : Run α}
    (h : run.Upholds keeps post) (himp : ∀ a, post a → post' a) : run.Upholds keeps post' :=
  fun caches hcaches =>
    ⟨(h caches hcaches).1, fun a heq => himp a ((h caches hcaches).2 a heq)⟩

omit hclosed hapart in
/-- A remembered answer is as said where all that is remembered is, and such answers are noted
down. -/
theorem remembered_upholds {keeps : Caches → Prop} {id : CacheId} {key : CacheKey}
    {post : Attempt → Prop} {explore : Run Attempt}
    (hhit : ∀ caches attempt, keeps caches → caches.Holds id key attempt → post attempt)
    (htouch : ∀ caches, keeps caches → keeps (caches.modify id.index (·.touch key)))
    (hinsert : ∀ caches attempt, keeps caches → post attempt →
      keeps (caches.modify id.index (·.insert key attempt)))
    (h : explore.Upholds keeps post) : (remembered id key explore).Upholds keeps post := by
  intro caches hcaches
  by_cases hold : ∃ attempt, caches.Holds id key attempt
  · obtain ⟨attempt, hold⟩ := hold
    rw [run_remembered_hit hold]
    refine ⟨htouch caches hcaches, fun a heq => ?_⟩
    cases heq
    exact hhit caches attempt hcaches hold
  · rw [run_remembered_miss (by simpa using hold)]
    have hrun := h _ (htouch caches hcaches)
    revert hrun
    rcases explore.run (caches.modify id.index (·.touch key)) with ⟨error | attempt, caches'⟩
    · exact fun hrun => ⟨hrun.1, fun _ heq => by cases heq⟩
    · rintro ⟨hkeeps, hattempt⟩
      have hfound := hattempt attempt rfl
      refine ⟨hinsert caches' attempt hkeeps hfound, fun a heq => ?_⟩
      cases heq
      exact hfound

omit hclosed hapart in
/-- An answer is remembered without harm where neither looking it up nor noting it down does
any. -/
theorem remembered_keeps {keeps : Caches → Prop} {id : CacheId} {source : Source} {start : Nat}
    (htouch : ∀ caches, keeps caches → keeps (caches.modify id.index (·.touch ⟨source, start⟩)))
    (hinsert : ∀ caches attempt, keeps caches →
      keeps (caches.modify id.index (·.insert ⟨source, start⟩ attempt)))
    {post : Attempt → Prop} {explore explore' : Run Attempt} (hpost : ∀ attempt, post attempt)
    (h : (keeping keeps).rel post explore explore') :
    (keeping keeps).rel post (remembered id ⟨source, start⟩ explore)
      (remembered id ⟨source, start⟩ explore') :=
  remembered_upholds (fun _ attempt _ _ => hpost attempt) htouch
    (fun caches attempt hcaches _ => hinsert caches attempt hcaches) h

/-- A parse of any rule at all keeps what the caches of a scope remember sound. -/
theorem call_keeps (hall : ∀ rule slot definition, catalog.bound rule = .ok (slot, definition) →
      Apart {node | node ∈ definition.walk} scope.nodes) (depth : Nat) (source : Source)
    (ref : RuleRef) (start : Nat) :
    (keeping (Sound catalog scope.nodes)).rel (StopsIn fun _ => True)
      (catalog.call depth source ref start) (catalog.call depth source ref start) := by
  induction depth generalizing source ref start with
  | zero => exact Relator.throw _ _ trivial
  | succ depth ih =>
    refine callOnce_rel settling_true trivial rfl fun rule _ => ?_
    exact
      { bound := rfl
        refer := rfl
        body := fun slot definition hbound =>
          { call := fun ref' _ o _ => ih source ref' o
            mode := fun _ _ _ => rfl
            remember := fun node hnode id hid o _ h => by
              by_cases hscope : node ∈ scope.nodes
              · intro caches hcaches
                have hkeeps := enumerate_below hclosed hapart depth hscope source o caches hcaches
                rw [Parser.enumerate_eq_remember _ _ _ hid] at hkeeps
                exact hkeeps.2
              · have hother : ∀ other ∈ scope.nodes, other.cache? ≠ some id :=
                  fun other hother hid' => hscope
                    (hall rule slot definition hbound node hnode other hother id hid hid' ▸ hother)
                exact remembered_keeps (fun caches hcaches => hcaches.touch id _)
                  (fun caches attempt hcaches => hcaches.insert hid
                    (fun other hnode hid' => absurd hid' (hother other hnode))
                    fun hnode => absurd hnode hscope) (fun _ _ _ _ _ => trivial) h }
        exclusion := fun _ _ _ _ _ =>
          ⟨rfl, fun _ _ source' _ => ⟨_, fun _ _ => rfl, ih source' _ 0⟩⟩ }

end

/-- A call looks up and notes down nothing but answers about the text it is made on and about
stretches of it. -/
theorem call_keeps_within {keeps : Caches → Prop} (within : Source → Prop)
    (hslice : ∀ source start stop, within source →
      within (.ofString ((source.slice start stop).getD ""))) (catalog : Catalog)
    (htouch : ∀ caches (id : CacheId) key, within key.source → keeps caches →
      keeps (caches.modify id.index (·.touch key)))
    (hinsert : ∀ caches (id : CacheId) key attempt, within key.source → keeps caches →
      keeps (caches.modify id.index (·.insert key attempt))) (depth : Nat) {source : Source}
    (hsource : within source) (ref : RuleRef) (start : Nat) :
    (keeping keeps).rel (StopsIn fun _ => within source) (catalog.call depth source ref start)
      (catalog.call depth source ref start) := by
  induction depth generalizing source ref start with
  | zero => exact Relator.throw _ _ trivial
  | succ depth ih =>
    have hsettling : Settling fun source _ => within source := ⟨fun _ _ _ _ h _ => h, hslice⟩
    refine callOnce_rel hsettling hsource rfl fun rule _ => ?_
    exact
      { bound := rfl
        refer := rfl
        body := fun _ _ _ =>
          { call := fun ref' _ o _ => ih hsource ref' o
            mode := fun _ _ _ => rfl
            remember := fun _ _ id _ _ _ h =>
              remembered_keeps (fun caches => htouch caches id _ hsource)
                (fun caches attempt => hinsert caches id _ attempt hsource)
                (fun _ _ _ _ _ => hsource) h }
        exclusion := fun _ _ _ _ _ =>
          ⟨rfl, fun _ _ _ hwithin => ⟨_, fun _ _ => rfl, ih hwithin _ 0⟩⟩ }

/-- What looking answers up and noting them down keeps in all caches, a call keeps. -/
theorem call_keeps_always {keeps : Caches → Prop} (catalog : Catalog)
    (htouch : ∀ caches (id : CacheId) key, keeps caches →
      keeps (caches.modify id.index (·.touch key)))
    (hinsert : ∀ caches (id : CacheId) key attempt, keeps caches →
      keeps (caches.modify id.index (·.insert key attempt))) (depth : Nat) (source : Source)
    (ref : RuleRef) (start : Nat) :
    (keeping keeps).rel (StopsIn fun _ => True) (catalog.call depth source ref start)
      (catalog.call depth source ref start) :=
  call_keeps_within (fun _ => True) (fun _ _ _ _ => trivial) catalog
    (fun caches id key _ => htouch caches id key)
    (fun caches id key attempt _ => hinsert caches id key attempt) depth trivial ref start

theorem call_keeps_size (catalog : Catalog) (size depth : Nat) (source : Source) (ref : RuleRef)
    (start : Nat) :
    (keeping (·.size = size)).rel (StopsIn fun _ => True) (catalog.call depth source ref start)
      (catalog.call depth source ref start) :=
  call_keeps_always catalog (fun _ _ _ hcaches => Array.size_modify.trans hcaches)
    (fun _ _ _ _ hcaches => Array.size_modify.trans hcaches) depth source ref start

def Respects (catalog : Catalog) {α : Type} (run : Run α) : Prop :=
  ∀ scope : Scope, scope.Closed catalog → Apart scope.nodes scope.nodes →
    (∀ rule slot definition, catalog.bound rule = .ok (slot, definition) →
      Apart {node | node ∈ definition.walk} scope.nodes) → ∀ size,
    (keeping fun caches => Sound catalog scope.nodes caches ∧ caches.size = size).rel
      (fun _ => True) run run

theorem respects_ruleMatches (catalog : Catalog) (rule : RuleId) (source : Source) (start : Nat) :
    Respects catalog (catalog.ruleMatches rule source start) :=
  fun _ hclosed hapart hall size caches ⟨hsound, hsize⟩ =>
    ⟨⟨(call_keeps hclosed hapart hall _ source _ start caches hsound).1,
      (call_keeps_size catalog size _ source _ start caches hsize).1⟩, fun _ _ => trivial⟩

theorem respects_parse (catalog : Catalog) (rule : RuleId) (source : Source) (start : Nat) :
    Respects catalog (catalog.parse rule source start) :=
  fun scope hclosed hapart hall size =>
    parse_rel rfl (respects_ruleMatches catalog rule source start scope hclosed hapart hall size)

theorem respects_parseAll (catalog : Catalog) (rule : RuleId) (source : Source) :
    Respects catalog (catalog.parseAll rule source) :=
  fun scope hclosed hapart hall size =>
    parseAll_rel rfl (respects_ruleMatches catalog rule source 0 scope hclosed hapart hall size)

end Metasyntax
