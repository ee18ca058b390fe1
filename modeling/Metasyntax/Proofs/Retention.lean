import Metasyntax.Proofs.Meaning
import Metasyntax.Proofs.Holdings

/-!
# What the rules of a living grammar refer to

A grammar keeps alive the grammars of the rules that its own rules refer to, from the moment
at which a reference is bound. So a reference that could be followed when it was bound can be
followed for as long as its grammar lives, and only one that could not be followed ends a
parse.
-/

set_option autoImplicit false

namespace Metasyntax

def failing (allowed : GrammarError → Prop) : Relator Run Run where
  throws := allowed
  rel post x _ := ∀ caches, (∀ error, (x.run caches).1 = .error error → allowed error) ∧
    ∀ a, (x.run caches).1 = .ok a → post a
  pure h _ := ⟨nofun, fun a h' => by cases h'; exact h⟩
  throw _ hallowed _ := ⟨fun _ h' => (by cases h'; exact hallowed), nofun⟩
  bind {α β post post' x _ f _} h hf caches := by
    obtain ⟨hallowed, hpost⟩ := h caches
    rcases hx : x.run caches with ⟨error | a, caches'⟩
    · rw [Run.run_bind_error hx]
      rw [hx] at hallowed
      exact ⟨fun _ h' => (by cases h'; exact hallowed error rfl), nofun⟩
    · rw [Run.run_bind_ok hx]
      rw [hx] at hpost
      exact hf a (hpost a rfl) caches'

/-- No error is remembered, so looking answers up adds none. -/
theorem remembered_fails {allowed : GrammarError → Prop} {id : CacheId} {key : CacheKey}
    {post : Attempt → Prop} (hpost : ∀ attempt, post attempt) {explore explore' : Run Attempt}
    (h : (failing allowed).rel post explore explore') :
    (failing allowed).rel post (remembered id key explore) (remembered id key explore') := by
  intro caches
  refine ⟨fun error herror => ?_, fun a _ => hpost a⟩
  by_cases hhit : ∃ attempt, caches.Holds id key attempt
  · obtain ⟨attempt, hhit⟩ := hhit
    rw [run_remembered_hit hhit] at herror
    cases herror
  · rw [run_remembered_miss (by simpa using hhit)] at herror
    refine (h (caches.modify id.index (·.touch key))).1 error ?_
    revert herror
    rcases explore.run (caches.modify id.index (·.touch key)) with ⟨error | attempt, caches'⟩
    · exact fun herror => herror
    · exact fun herror => by cases herror

structure Scope.Fails (scope : Scope) (catalog : Catalog) (allowed : GrammarError → Prop) :
    Prop where
  deep : ∀ name, allowed (.leftRecursion name)
  reference : ∀ ref, .rule ref ∈ scope.nodes → ∀ error, catalog.resolve ref = .error error →
    allowed error
  unbound : ∀ rule ∈ scope.rules, ∀ error, catalog.bound rule = .error error → allowed error
  exclusion : ∀ rule ∈ scope.rules, ∀ slot definition ref,
    catalog.bound rule = .ok (slot, definition) → slot.exclusion = some ref →
      ∀ error, catalog.resolve ref = .error error → allowed error

section
variable {catalog : Catalog} {scope : Scope} {allowed : GrammarError → Prop}

theorem Scope.Closed.call_fails (hclosed : scope.Closed catalog)
    (hfails : scope.Fails catalog allowed) (depth : Nat) (source : Source) {ref : RuleRef}
    (href : ∀ rule, catalog.resolve ref = .ok rule → rule ∈ scope.rules)
    (hdangling : ∀ error, catalog.resolve ref = .error error → allowed error) (start : Nat) :
    (failing allowed).rel (StopsIn fun _ => True) (catalog.call depth source ref start)
      (catalog.call depth source ref start) := by
  induction depth generalizing source ref start with
  | zero => exact (failing allowed).throw _ (hfails.deep _)
  | succ depth ih =>
    refine Metasyntax.callOnce_rel settling_true trivial rfl (fun rule hrule => ?_) hdangling
    exact
      { bound := rfl
        refer := rfl
        body := fun slot definition hbound =>
          { call := fun ref' href' o _ => by
              have hnode := hclosed.inner _ (hclosed.definition rule (href rule hrule) slot
                definition hbound) _ href'
              exact ih source (hclosed.target ref' hnode) (hfails.reference ref' hnode) o
            mode := fun _ _ _ => rfl
            remember := fun _ _ _ _ _ _ h => remembered_fails (fun _ _ _ _ _ => trivial) h }
        exclusion := fun slot definition ref' hbound href' =>
          ⟨rfl, fun excluded hexcluded source' _ => ⟨_, fun _ _ => rfl, by
            have hrefer := Catalog.resolve_refer hexcluded
            refine ih source' (fun other hother => ?_) (fun error herror => ?_) 0
            · rw [Catalog.eq_of_resolve_refer hother]
              exact hclosed.exclusion rule (href rule hrule) slot definition ref' hbound href'
                excluded hexcluded
            · rw [hrefer] at herror
              cases herror⟩⟩
        unbound := hfails.unbound rule (href rule hrule)
        dangling := hfails.exclusion rule (href rule hrule) }

end

def Catalog.Refers (catalog : Catalog) (rule : RuleId) (ref : RuleRef) : Prop :=
  ∃ slot, catalog.slot? rule = some slot ∧ ref ∈ slot.references

theorem Catalog.eq_danglingRule_of_resolve {catalog : Catalog} {ref : RuleRef}
    {error : GrammarError} (h : catalog.resolve ref = .error error) :
    error = .danglingRule ref.name := by
  rw [resolve] at h
  split at h
  · cases h
  · exact (Except.error.inj h).symm

theorem Catalog.eq_undefinedRule_of_bound {catalog : Catalog} {rule : RuleId}
    (hslot : (catalog.slot? rule).isSome) {error : GrammarError}
    (h : catalog.bound rule = .error error) : ∃ name, error = .undefinedRule name := by
  obtain ⟨slot, hslot⟩ := Option.isSome_iff_exists.1 hslot
  rw [bound, hslot] at h
  cases hdefinition : slot.definition with
  | none =>
    simp only [hdefinition] at h
    exact ⟨slot.name, (Except.error.inj h).symm⟩
  | some definition =>
    simp only [hdefinition] at h
    cases h

/-- What is referred to in the scope of a reference is that reference or is referred to by a
rule of the scope. -/
theorem Catalog.Leads.exists_refers {catalog : Catalog} {ref ref' : RuleRef}
    (h : catalog.Leads (.rule ref) ref') : ref' = ref ∨
      ∃ rule ∈ (catalog.scopeOf (.rule ref)).rules, catalog.Refers rule ref' := by
  cases h with
  | here href => exact Or.inl (by simpa [Parser.references, Parser.walk] using href)
  | @definition other _ rule slot definition hleads hresolve hbound href =>
    obtain ⟨hslot, hdefinition⟩ := exists_slot_of_bound hbound
    exact Or.inr ⟨rule, ⟨other, hleads, hresolve⟩, slot, hslot,
      Slot.mem_references.2 (Or.inl ⟨definition, hdefinition, href⟩)⟩
  | @exclusion other _ rule slot definition hleads hresolve hbound hexclusion =>
    exact Or.inr ⟨rule, ⟨other, hleads, hresolve⟩, slot, (exists_slot_of_bound hbound).1,
      Slot.mem_references.2 (Or.inr hexclusion)⟩

/-- What no step leaves is left out in the end. -/
theorem not_mem_selfSupporting {α : Type} {step : List α → List α}
    (hstep : ∀ left, (step left).Sublist left) {x : α} (hx : ∀ left, x ∉ step left) {rounds : Nat}
    {left : List α} (hrounds : left.length ≤ rounds) : x ∉ selfSupporting step rounds left := by
  cases rounds with
  | zero =>
    rw [List.eq_nil_of_length_eq_zero (Nat.le_zero.1 hrounds)]
    exact List.not_mem_nil
  | succ rounds =>
    simp only [selfSupporting]
    split
    case isTrue hlength =>
      rw [← (hstep left).eq_of_length hlength]
      exact hx left
    case isFalse =>
      refine selfSupporting_induction (P := fun left => x ∉ left) ?_ rounds (hx left)
      intro other hother hmem
      exact hother ((hstep other).subset hmem)

/-- A grammar that is not held from outside, and that no grammar supports, does not live on. -/
theorem Store.not_mem_living_collect {store : Store} {roots : Roots} {id : GrammarId}
    (hindex : id.index < store.catalog.grammars.size) (hroots : id ∉ roots.grammars)
    (hsupported : ∀ other, id ∉ supportedBy (store.catalog.grammar other)) :
    id ∉ (store.collect roots).living := by
  intro hmem
  refine not_mem_selfSupporting (fun left => List.filter_sublist) (fun left hleft => ?_) le_rfl
    ((mem_living_collect.1 hmem).2 hindex)
  have hkept := (List.mem_filter.1 hleft).2
  rw [List.contains_iff_mem, List.mem_append, List.mem_flatMap] at hkept
  rcases hkept with hheld | ⟨other, -, hother⟩
  · exact hroots hheld
  · exact hsupported other hother

theorem Bench.Collects.living_subset {bench bench' : Bench} (h : bench.Collects bench') :
    bench'.store.living ⊆ bench.store.living := by
  cases h with
  | collect => exact fun id hid => (Store.mem_living_collect.1 hid).1

theorem Bench.Collects.size_eq {bench bench' : Bench} (h : bench.Collects bench') :
    bench'.store.catalog.grammars.size = bench.store.catalog.grammars.size := by
  cases h with
  | collect => rfl

theorem exists_getElem?_of_mem_values {α β : Type} [BEq α] [Hashable α] [LawfulBEq α]
    {map : Std.HashMap α β} {value : β} (h : value ∈ map.values) :
    ∃ key : α, map[key]? = some value := by
  rw [values_eq_map_toList] at h
  obtain ⟨⟨key, _⟩, hmem, rfl⟩ := List.mem_map.1 h
  exact ⟨key, Std.HashMap.mem_toList_iff_getElem?_eq_some.1 hmem⟩

namespace Session

variable {session session' : Session}

/-- What a session holds it has a name for. -/
theorem holds_of_mem_roots {id : GrammarId} (h : id ∈ session.roots.grammars) :
    session.Holds (.grammar id) ∨ ∃ rule, session.Holds (.rule rule) ∧ rule.grammar = id := by
  rw [roots, List.mem_append, List.mem_append, List.mem_pair, List.mem_map] at h
  rcases h with ((rfl | rfl) | hgrammar) | ⟨rule, hrule, rfl⟩
  · exact Or.inl .core
  · exact Or.inl .abnf
  · obtain ⟨name, hname⟩ := exists_getElem?_of_mem_values hgrammar
    exact Or.inl (.grammar hname)
  · obtain ⟨name, hname⟩ := exists_getElem?_of_mem_values hrule
    exact Or.inr ⟨rule, .rule hname, rfl⟩

theorem notMem_living_tidy (session : Session) {id : GrammarId}
    (hindex : id.index < session.store.catalog.grammars.size)
    (hheld : ¬ session.Holds (.grammar id))
    (hrules : ∀ rule, session.Holds (.rule rule) → rule.grammar ≠ id)
    (hsupported : ∀ other, id ∉ Store.supportedBy (session.store.catalog.grammar other)) :
    id ∉ session.tidy.store.living := by
  refine Store.not_mem_living_collect hindex (fun hroots => ?_) hsupported
  rcases holds_of_mem_roots hroots with hgrammar | ⟨rule, hrule, hid⟩
  · exact hheld hgrammar
  · exact hrules rule hrule hid

theorem Next.living_subset (h : session.Next session')
    (hable : session.bench.Able) : session'.store.living ⊆ session.store.living := by
  obtain ⟨bench, hsteps, hcollects⟩ := h.exists_steps hable
  exact fun id hid => (hsteps.extends.alive id).symm.trans (hcollects.living_subset hid)

theorem Next.size_le (h : session.Next session') (hable : session.bench.Able) :
    session.store.catalog.grammars.size ≤ session'.store.catalog.grammars.size := by
  obtain ⟨bench, hsteps, hcollects⟩ := h.exists_steps hable
  exact hsteps.extends.size.trans_eq hcollects.size_eq.symm

theorem Reached.next (h : session.Reached) (hnext : session.Next session') :
    session'.Reached := by
  obtain ⟨command, answer, hstep⟩ := hnext
  exact h.step hstep

theorem Next.supports (h : session.Next session') (hable : session.bench.Able)
    {id other : GrammarId} (hsupports : session.store.catalog.Supports id other) :
    session'.store.catalog.Supports id other := by
  obtain ⟨bench, hsteps, hcollects⟩ := h.exists_steps hable
  exact hcollects.supports_iff.2 (hsteps.extends.supports id other hsupports)

theorem Next.slot (h : session.Next session') (hable : session.bench.Able) {rule : RuleId}
    (hslot : (session.store.catalog.slot? rule).isSome) :
    (session'.store.catalog.slot? rule).isSome := by
  obtain ⟨bench, hsteps, hcollects⟩ := h.exists_steps hable
  exact (congrArg _ (hcollects.slot?_eq rule)).trans (hsteps.extends.slot rule hslot)

theorem Next.supports_of_refers (h : session.Next session') (hable : session.bench.Able)
    {rule : RuleId} {ref : RuleRef} (hrefers : session'.store.catalog.Refers rule ref)
    (halive : session.store.catalog.alive ref.target.grammar = true) :
    session'.store.catalog.Supports rule.grammar ref.target.grammar := by
  obtain ⟨bench, hsteps, hcollects⟩ := h.exists_steps hable
  obtain ⟨slot, hslot, href⟩ := hrefers
  exact hcollects.supports_iff.2 ((hsteps.able hable).orderly.supported rule slot
    ((hcollects.slot?_eq rule).symm.trans hslot) ref href ((hsteps.extends.alive _).trans halive))

/-- On the way to a session a reference that led to a rule was bound: a command carried out
before, or the standard grammars, gave it to the rule that has it. -/
inductive Bound (session : Session) (rule : RuleId) (ref : RuleRef) (target : RuleId) : Prop where
  | intro {before after : Session} : before.Reached → Relation.ReflGen Next before after →
    Relation.ReflTransGen Next after session → after.store.catalog.Refers rule ref →
      before.store.catalog.resolve ref = .ok target → Bound session rule ref target

/-- What holds when a reference is bound, every later command keeps. -/
theorem Bound.kept {rule target : RuleId} {ref : RuleRef} (h : session.Bound rule ref target) :
    session.bench.Able ∧ session.store.catalog.Supports rule.grammar target.grammar ∧
      (session.store.catalog.slot? target).isSome := by
  obtain @⟨before, after, hbefore, hbound, hlater, hrefers, hresolve⟩ := h
  obtain rfl := Catalog.eq_of_resolve hresolve
  have halive := Catalog.alive_of_resolve hresolve
  have hafter : after.bench.Able ∧
      after.store.catalog.Supports rule.grammar ref.target.grammar := by
    cases hbound with
    | refl =>
      obtain ⟨slot, hslot, href⟩ := hrefers
      exact ⟨hbefore.able, hbefore.orderly.supported rule slot hslot ref href halive⟩
    | single hnext =>
      exact ⟨hnext.able hbefore.able,
        hnext.supports_of_refers hbefore.able hrefers halive⟩
  induction hlater with
  | refl =>
    obtain ⟨slot, hslot, href⟩ := hrefers
    exact ⟨hafter.1, hafter.2, hafter.1.orderly.referred rule slot hslot ref href⟩
  | tail _ hnext ih =>
    exact ⟨hnext.able ih.1, hnext.supports ih.1 ih.2.1, hnext.slot ih.1 ih.2.2⟩

theorem Bound.resolves {rule target : RuleId} {ref : RuleRef} (h : session.Bound rule ref target)
    (hliving : rule.grammar ∈ session.store.living) :
    session.store.catalog.resolve ref = .ok target ∧
      (session.store.catalog.slot? target).isSome := by
  obtain ⟨hable, hsupports, hslot⟩ := h.kept
  obtain ⟨-, -, -, -, hresolve⟩ := h
  obtain rfl := Catalog.eq_of_resolve hresolve
  exact ⟨if_pos (hable.orderly.links _ hliving _ hsupports), hslot⟩

end Session

def Catalog.Explains (catalog : Catalog) (rules : Set RuleId) (error : GrammarError) : Prop :=
  ∀ name, error = .danglingRule name → ∃ rule ∈ rules, ∃ ref, catalog.Refers rule ref ∧
    ref.name = name ∧ catalog.resolve ref = .error error

theorem Catalog.explains_of_refers {catalog : Catalog} {rules : Set RuleId} {rule : RuleId}
    (hrule : rule ∈ rules) {ref : RuleRef} (hrefers : catalog.Refers rule ref)
    {error : GrammarError} (h : catalog.resolve ref = .error error) :
    catalog.Explains rules error := by
  intro name hname
  refine ⟨rule, hrule, ref, hrefers, ?_, h⟩
  rw [eq_danglingRule_of_resolve h] at hname
  exact GrammarError.danglingRule.inj hname

/-- In a store that is in order, what a rule leads to ends in no dangling reference but those
that its rules have. -/
theorem Bench.Orderly.fails_scopeOf {bench : Bench} (h : bench.Orderly) {ref : RuleRef}
    {rule : RuleId} (hrule : bench.store.catalog.resolve ref = .ok rule)
    (hslot : (bench.store.catalog.slot? rule).isSome) :
    (bench.store.catalog.scopeOf (.rule ref)).Fails bench.store.catalog
      (bench.store.catalog.Explains (bench.store.catalog.scopeOf (.rule ref)).rules) where
  deep := nofun
  reference ref' href error herror := by
    rcases (Catalog.leads_of_mem_scopeOf href).exists_refers with rfl | ⟨other, hother, hrefers⟩
    · rw [hrule] at herror
      cases herror
    · exact Catalog.explains_of_refers hother hrefers herror
  unbound other hother error herror := by
    obtain ⟨ref', hleads, hresolve⟩ := hother
    have hexists : (bench.store.catalog.slot? other).isSome := by
      rcases hleads.exists_refers with rfl | ⟨_, -, slot, hslot, href⟩
      · rw [hrule] at hresolve
        exact Except.ok.inj hresolve ▸ hslot
      · rw [Catalog.eq_of_resolve hresolve]
        exact h.referred _ slot hslot ref' href
    obtain ⟨_, rfl⟩ := Catalog.eq_undefinedRule_of_bound hexists herror
    exact nofun
  exclusion other hother slot definition ref' hbound hexclusion error :=
    Catalog.explains_of_refers hother
      ⟨slot, (Catalog.exists_slot_of_bound hbound).1, Slot.mem_references.2 (Or.inr hexclusion)⟩

inductive Store.Fails (store : Store) (rule : RuleId) (error : GrammarError) : Prop where
  | ruleMatches {source : Source} {start : Nat} :
    (Edit.parsing (·.ruleMatches rule source start) store).1 = .error error →
      Fails store rule error
  | parse {source : Source} {start : Nat} :
    (Edit.parsing (·.parse rule source start) store).1 = .error error → Fails store rule error
  | parseAll {source : Source} :
    (Edit.parsing (·.parseAll rule source) store).1 = .error error → Fails store rule error

theorem Store.Fails.allowed {store : Store} {rule : RuleId} {error : GrammarError}
    {allowed : GrammarError → Prop} (h : store.Fails rule error)
    (hmatches : ∀ source start, (failing allowed).rel (StopsIn fun _ => True)
      (store.catalog.ruleMatches rule source start)
      (store.catalog.ruleMatches rule source start)) : allowed error := by
  cases h with
  | ruleMatches herror => exact (hmatches _ _ store.caches).1 error herror
  | parse herror => exact (parse_rel rfl (hmatches _ _) store.caches).1 error herror
  | parseAll herror => exact (parseAll_rel rfl (hmatches _ 0) store.caches).1 error herror

namespace Session

variable {session : Session}

/-- A parse that ends in a dangling reference has come to a rule that has it, and the reference
could not be followed when it was bound either. -/
theorem exists_refers_of_dangling (horderly : session.bench.Orderly) {rule : RuleId}
    (hliving : rule.grammar ∈ session.store.living)
    (hslot : (session.store.catalog.slot? rule).isSome) {name : String}
    (h : session.store.Fails rule (.danglingRule name)) :
    ∃ other ∈ (session.store.catalog.scopeOf (.rule (session.store.catalog.refer rule))).rules,
      ∃ ref, session.store.catalog.Refers other ref ∧ ref.name = name ∧
        ∀ target, ¬ session.Bound other ref target := by
  have hrule : session.store.catalog.resolve (session.store.catalog.refer rule) = .ok rule :=
    if_pos hliving
  have hfails := horderly.fails_scopeOf hrule hslot
  obtain ⟨other, hother, ref, hrefers, hname, herror⟩ := h.allowed (fun source start =>
    (Catalog.closed_scopeOf _ _).call_fails hfails _ source
      (fun other hother => ⟨_, Catalog.leads_self _ _, hother⟩)
        (fun _ herror => nomatch hrule.symm.trans herror) start) name rfl
  refine ⟨other, hother, ref, hrefers, hname, fun target hbound => ?_⟩
  obtain ⟨_, -, hresolve⟩ := hother
  have hother : other.grammar ∈ session.store.living := by
    rw [Catalog.eq_of_resolve hresolve]
    exact Catalog.alive_of_resolve hresolve
  exact nomatch herror.symm.trans (hbound.resolves hother).1

/-- In a living grammar every reference that led to a rule when it was bound leads to that rule,
which exists, and a parse of one of the grammar's rules ends in a dangling reference only where
the reference could not be followed when it was bound. -/
theorem Reached.never_dangles (h : session.Reached) {rule : RuleId}
    (hliving : rule.grammar ∈ session.store.living) :
    (∀ ref target, session.Bound rule ref target →
      session.store.catalog.resolve ref = .ok target ∧
        (session.store.catalog.slot? target).isSome) ∧
    ((session.store.catalog.slot? rule).isSome → ∀ name,
      session.store.Fails rule (.danglingRule name) →
        ∃ other ∈ (session.store.catalog.scopeOf
            (.rule (session.store.catalog.refer rule))).rules,
          ∃ ref, session.store.catalog.Refers other ref ∧ ref.name = name ∧
            ∀ target, ¬ session.Bound other ref target) :=
  ⟨fun _ _ hbound => hbound.resolves hliving, fun hslot _ hfails =>
    exists_refers_of_dangling h.orderly hliving hslot hfails⟩

theorem run_grammarNamed {name : String} {id : GrammarId} (hcore : name ≠ "core")
    (habnf : name ≠ "abnf") (h : session.grammars[name]? = some id) :
    (grammarNamed name).run session = (.ok id, session) := by
  rw [grammarNamed, if_neg hcore, if_neg habnf]
  have hget : (get : Act Session).run session = (.ok session, session) := rfl
  rw [run_bind_ok hget, h]
  rfl

def making (session : Session) (key : String) : Session :=
  tidy ⟨(Edit.newGrammar key none .standard session.store).2,
    session.grammars.insert key (Edit.newGrammar key none .standard session.store).1,
    session.rules, session.parsers⟩

def defining (session : Session) (id : GrammarId) (name : String) (definition : Parser) : Session :=
  tidy ⟨(Edit.define id name definition session.store).2, session.grammars, session.rules,
    session.parsers⟩

def without (session : Session) (key : String) : Session :=
  ⟨session.store, session.grammars.erase key, session.rules.erase key, session.parsers.erase key⟩

theorem next_making (session : Session) (key : String) : session.Next (session.making key) :=
  ⟨.newGrammar key key .none .standard, _, rfl⟩

theorem next_without (session : Session) (key : String) : session.Next (session.without key).tidy :=
  ⟨.drop [key], _, rfl⟩

theorem next_defining {key : String} {id : GrammarId} {arg : ParserArg} {parser : Parser}
    (hid : (grammarNamed key).run session = (.ok id, session))
    (hparser : (resolveParser arg).run session = (.ok parser, session)) (name : String) :
    session.Next (session.defining id name parser) := by
  refine ⟨.define key name arg none, ?_⟩
  rw [step, perform, run_bind_ok hid, run_bind_ok hparser]
  exact ⟨_, rfl⟩

theorem grammars_defining (session : Session) (id : GrammarId) (name : String)
    (definition : Parser) : (session.defining id name definition).grammars = session.grammars :=
  rfl

theorem slot?_defining (session : Session) (id : GrammarId) (name : String) (definition : Parser)
    (rule : RuleId) : (session.defining id name definition).store.catalog.slot? rule =
      (Edit.define id name definition session.store).2.catalog.slot? rule :=
  rfl

def forsaking : Session := (start.making "spare").without "spare"

def forsaken : Session := forsaking.tidy

def written : Session :=
  (forsaken.making "words").defining ⟨3⟩ "word" (.literal ⟨.text "a", false⟩)

theorem reached_forsaken : forsaken.Reached :=
  (Reached.start.next (next_making start "spare")).next (next_without _ "spare")

/-- What the grammars of these sessions are like. -/
theorem written_checked :
    let word : RuleId := ⟨⟨3⟩, 0⟩
    let named := Edit.localRule .core "gap" written.store
    (2 < forsaking.store.catalog.grammars.size ∧ forsaking.store.grammarIds.all (fun other =>
      !(Store.supportedBy (forsaking.store.catalog.grammar other)).contains ⟨2⟩) = true) ∧
    (Edit.newGrammar "words" none .standard forsaken.store).1 = ⟨3⟩ ∧
    2 < written.store.catalog.grammars.size ∧
    written.store.catalog.lookup? ⟨3⟩ "word" = some word ∧
    written.store.catalog.refer word = ⟨word, "word"⟩ ∧ named.1 = ⟨.core, 16⟩ ∧
    (named.2.catalog.slot? ⟨.core, 16⟩).isSome = true ∧ 0 < named.2.catalog.grammars.size := by
  decide +kernel

theorem getElem?_making : (forsaken.making "words").grammars["words"]? = some ⟨3⟩ := by
  rw [making, written_checked.2.1]
  exact Std.HashMap.getElem?_insert_self

theorem getElem?_written : written.grammars["words"]? = some ⟨3⟩ := by
  rw [written, grammars_defining]
  exact getElem?_making

theorem next_written : (forsaken.making "words").Next written := by
  have hnamed := run_grammarNamed (by decide) (by decide) getElem?_making
  have hparser : (resolveParser (.literal ⟨.text "a", false⟩)).run (forsaken.making "words") =
      (.ok (.literal ⟨.text "a", false⟩), forsaken.making "words") := rfl
  exact next_defining hnamed hparser "word"

theorem reached_written : written.Reached :=
  (reached_forsaken.next (next_making forsaken "words")).next next_written

theorem notMem_living_forsaken : (⟨2⟩ : GrammarId) ∉ forsaken.store.living := by
  obtain ⟨⟨hsize, hsupported⟩, -⟩ := written_checked
  apply forsaking.notMem_living_tidy hsize
  · intro hheld
    cases hheld with
    | grammar h =>
      simp [forsaking, without, making, tidy, start] at h
  · intro rule hrule
    cases hrule with
    | rule h => simp [forsaking, without, making, tidy, start] at h
  · intro other hother
    by_cases hindex : other.index < forsaking.store.catalog.grammars.size
    · have h := List.all_eq_true.1 hsupported other (Store.mem_grammarIds.2 hindex)
      rw [Bool.not_eq_true', ← Bool.not_eq_true, List.contains_iff_mem] at h
      exact h hother
    · rw [grammar_eq_default (Nat.le_of_not_lt hindex)] at hother
      cases hother

theorem notMem_living_written : (⟨2⟩ : GrammarId) ∉ written.store.living := by
  intro h
  have hmaking := next_making forsaken "words"
  have hable := reached_forsaken.able
  exact notMem_living_forsaken
    (hmaking.living_subset hable (next_written.living_subset (hmaking.able hable) h))

theorem define_eq_setDefinition {store : Store} {id : GrammarId} {name : String} {rule : RuleId}
    (h : (Edit.localRule id name store).1 = rule) (definition : Parser) :
    (Edit.define id name definition store).2 =
      (Edit.setDefinition rule definition (Edit.localRule id name store).2).2 := by
  simp only [Edit.define, Edit.bind_apply, Edit.pure_apply, h]

def referring : Session := written.defining .core "gap" (.rule ⟨⟨⟨3⟩, 0⟩, "word"⟩)

theorem run_rule_written : (resolveParser (.rule (.named "words" "word"))).run written =
    (.ok (.rule ⟨⟨⟨3⟩, 0⟩, "word"⟩), written) := by
  obtain ⟨-, -, -, hlookup, hrefer, -⟩ := written_checked
  have hnamed : (grammarNamed "words").run written = (.ok ⟨3⟩, written) :=
    run_grammarNamed (by decide) (by decide) getElem?_written
  have hresolve : (resolveRule (.named "words" "word")).run written =
      (.ok ⟨⟨3⟩, 0⟩, written) := by
    rw [resolveRule, run_bind_ok hnamed]
    rw [run_edit, Store.rule_eq_of_lookup hlookup]
  rw [resolveParser, run_bind_ok hresolve]
  change (Except.ok (Parser.rule (written.store.catalog.refer ⟨⟨3⟩, 0⟩)), written) = _
  rw [hrefer]

theorem next_referring : written.Next referring := by
  have hcore : (grammarNamed "core").run written = (.ok .core, written) := rfl
  exact next_defining hcore run_rule_written "gap"

theorem refers_referring :
    referring.store.catalog.Refers ⟨.core, 16⟩ ⟨⟨⟨3⟩, 0⟩, "word"⟩ := by
  obtain ⟨-, -, -, -, -, hgap, hslot, hcore⟩ := written_checked
  obtain ⟨slot, hslot⟩ := Option.isSome_iff_exists.1 hslot
  have hdefined := Store.definition?_setDefinition hcore hslot (.rule ⟨⟨⟨3⟩, 0⟩, "word"⟩)
  rw [← define_eq_setDefinition hgap] at hdefined
  obtain ⟨slot, hslot, hdefinition⟩ := Option.bind_eq_some_iff.1 hdefined
  rw [← slot?_defining] at hslot
  exact ⟨slot, hslot, Slot.mem_references.2 (Or.inl ⟨_, hdefinition, List.mem_singleton_self _⟩)⟩

/-- A core rule goes on referring to a rule whose grammar is no longer held, while a grammar that
nothing refers to is gone. -/
theorem Reached.never_dangles_word : ∃ (session : Session) (rule target : RuleId)
    (ref : RuleRef) (lost : GrammarId), session.Reached ∧
      lost.index < session.store.catalog.grammars.size ∧ lost ∉ session.store.living ∧
      ¬ session.Holds (.grammar target.grammar) ∧ rule.grammar ∈ session.store.living ∧
      session.Bound rule ref target ∧ rule.grammar ≠ target.grammar ∧
      session.store.catalog.resolve ref = .ok target ∧
        (session.store.catalog.slot? target).isSome := by
  have hlast : referring.Next (referring.without "words").tidy := next_without referring "words"
  have hreached := (reached_written.next next_referring).next hlast
  have halive : written.store.catalog.alive ⟨3⟩ = true :=
    (reached_written.orderly.useful _ (.grammar getElem?_written)).1
  have hbound : Bound _ ⟨.core, 16⟩ ⟨⟨⟨3⟩, 0⟩, "word"⟩ ⟨⟨3⟩, 0⟩ :=
    .intro reached_written (.single next_referring) (.single hlast) refers_referring (if_pos halive)
  have hliving : GrammarId.core ∈ (referring.without "words").tidy.store.living :=
    (hreached.orderly.useful _ .core).1
  obtain ⟨hresolve, hexists⟩ := (hreached.never_dangles hliving).1 _ _ hbound
  have hable := reached_written.able
  have hable' := next_referring.able hable
  refine ⟨_, ⟨.core, 16⟩, _, _, ⟨2⟩, hreached, ?_, ?_, ?_, hliving, hbound, by decide, hresolve, hexists⟩
  · exact written_checked.2.2.1.trans_le ((next_referring.size_le hable).trans (hlast.size_le hable'))
  · exact fun hlost => notMem_living_written
      (next_referring.living_subset hable (hlast.living_subset hable' hlost))
  · intro hheld
    cases hheld with
    | grammar h =>
      simp [referring, defining, without, tidy, written, making, forsaken, forsaking,
        Session.start] at h

/-- Whatever can be come to from what a session holds, along bases and what is retained, is
alive. -/
theorem Reached.mem_living_of_links (h : session.Reached) {id other : GrammarId}
    (hheld : session.Holds (.grammar id) ∨ ∃ rule, session.Holds (.rule rule) ∧ rule.grammar = id)
    (hlinks : Relation.ReflTransGen session.store.catalog.Supports id other) :
    other ∈ session.store.living := by
  induction hlinks with
  | refl =>
    rcases hheld with hid | ⟨rule, hrule, rfl⟩
    · exact (h.orderly.useful _ hid).1
    · exact (h.orderly.useful _ hrule).1
  | tail _ hsupports ih => exact h.orderly.links _ ih _ hsupports

end Session

end Metasyntax
