import Metasyntax.Proofs.Likeness
import Metasyntax.Proofs.Renewal

/-!
# What reading leaves behind

The caches of the grammar that rule text is read with are emptied when a text has been
parsed. What is parsed after that is prose in angle brackets, which may be the name of a rule.
So all that is remembered in the end is about stretches of prose, and where there is no prose
the caches are as good as new.
-/

set_option autoImplicit false

namespace Metasyntax

structure Recalls (texts : List String) (cache : MatchCache) : Prop where
  about : ∀ key attempt, cache.peek key = some attempt →
    ∃ text ∈ texts, key.source.text.toList <:+: text.toList
  unused : texts = [] → cache.size = 0 ∧ cache.hits = 0 ∧ cache.misses = 0

namespace Recalls

variable {texts : List String} {cache : MatchCache}

theorem of_nil (h : Recalls [] cache) : Recalls texts cache where
  about key attempt hpeek := by
    obtain ⟨text, htext, -⟩ := h.about key attempt hpeek
    cases htext
  unused _ := h.unused rfl

theorem empty (capacity : Capacity) : Recalls texts (.empty capacity) where
  about key attempt h := by
    rw [Cache.peek_empty] at h
    cases h
  unused _ := ⟨rfl, rfl, rfl⟩

theorem clear (cache : MatchCache) : Recalls texts cache.clear where
  about key attempt h := by
    rw [Cache.peek_clear] at h
    cases h
  unused _ := ⟨rfl, rfl, rfl⟩

theorem touch (h : Recalls texts cache) (htexts : texts ≠ []) (key : CacheKey) :
    Recalls texts (cache.touch key) where
  about key' attempt hpeek := h.about key' attempt (by rwa [Cache.peek_touch] at hpeek)
  unused hnil := absurd hnil htexts

theorem insert (h : Recalls texts cache) {text : String} (htext : text ∈ texts) {key : CacheKey}
    (hkey : key.source.text.toList <:+: text.toList) (attempt : Attempt) :
    Recalls texts (cache.insert key attempt) where
  about key' attempt' hpeek := by
    rcases Cache.peek_of_peek_insert hpeek with ⟨rfl, -⟩ | hpeek
    · exact ⟨text, htext, hkey⟩
    · exact h.about key' attempt' hpeek
  unused hnil := absurd (hnil ▸ htext) List.not_mem_nil

end Recalls

/-- What the caches of a grammar remember is about stretches of some texts. -/
def Store.Recalls (id : GrammarId) (texts : List String) (store : Store) : Prop :=
  ∀ cache ∈ store.cachesOf id, Metasyntax.Recalls texts (store.cache cache)

namespace Store

variable {id home : GrammarId} {texts : List String} {store store' : Store}

theorem Recalls.of_nil (h : store.Recalls id []) : store.Recalls id texts :=
  fun cache hcache => (h cache hcache).of_nil

/-- The same caches are registered, and none of them has come to remember more. -/
theorem Recalls.step (h : store.Recalls id texts)
    (hregistry : (store'.catalog.grammar id).registry = (store.catalog.grammar id).registry)
    (hlost : store'.lostCaches = store.lostCaches)
    (hcaches : ∀ cache, Metasyntax.Recalls texts (store.cache cache) →
      Metasyntax.Recalls texts (store'.cache cache)) : store'.Recalls id texts := by
  intro cache hcache
  rw [cachesOf, hregistry, cacheAlive_congr hlost] at hcache
  exact hcaches cache (h cache hcache)

theorem cache_newCache (capacity : Capacity) (store : Store) (cache : CacheId) :
    (Edit.newCache capacity store).2.cache cache = .empty capacity ∨
      (Edit.newCache capacity store).2.cache cache = store.cache cache := by
  change ((store.caches.push (.empty capacity))[cache.index]?).getD default = _ ∨
    ((store.caches.push (.empty capacity))[cache.index]?).getD default = _
  rw [Array.getElem?_push]
  split
  · exact Or.inl rfl
  · exact Or.inr rfl

/-- A cache that belongs to the grammar is emptied, and all others stay as they are. -/
theorem cache_clearCaches (id : GrammarId) (store : Store) (cache : CacheId) :
    (cache ∈ store.cachesOf id → ∃ old : MatchCache,
      (Edit.clearCaches id store).2.cache cache = old.clear) ∧
    (cache ∉ store.cachesOf id →
      (Edit.clearCaches id store).2.cache cache = store.cache cache) := by
  have hclear := Caches.getElem?_clearAll (store.cachesOf id) store.caches cache
  constructor
  · intro hcache
    change ∃ old : MatchCache, (((store.cachesOf id).foldl _ store.caches)[cache.index]?).getD
      default = old.clear
    rw [hclear.2 hcache]
    cases store.caches[cache.index]? with
    | none => exact ⟨default, rfl⟩
    | some old => exact ⟨old, rfl⟩
  · intro hcache
    exact congrArg (·.getD default) (hclear.1 hcache)

theorem recalls_clearCaches (id : GrammarId) (store : Store) :
    (Edit.clearCaches id store).2.Recalls id texts := by
  intro cache hcache
  obtain ⟨old, hold⟩ := (cache_clearCaches id store cache).1 hcache
  rw [hold]
  exact .clear old

/-- To change another grammar does not make a grammar remember anything. -/
theorem recalls_robust (h : home ≠ id) : Robust home (Recalls id texts) := by
  have hother (change : Grammar → Grammar) (store : Store) :
      (Edit.modifyGrammar home change store).2.catalog.grammar id = store.catalog.grammar id := by
    rw [Edit.grammar_modifyGrammar, if_neg fun heq => h heq.1.symm]
  have hmodify (change : Grammar → Grammar) :
      Edit.Keeps (Recalls id texts) (Edit.modifyGrammar home change) := fun store hstore =>
    hstore.step (by rw [hother]) rfl fun _ hcache => hcache
  exact
    { newMode := fun _ _ hstore => hstore
      newCache := fun capacity store hstore => hstore.step rfl rfl fun cache hcache => by
        rcases cache_newCache capacity store cache with heq | heq
        · rw [heq]
          exact .empty capacity
        · rwa [heq]
      newRule := fun _ hstore => hmodify _ _ hstore
      update := fun _ _ _ store hstore => hmodify _ store hstore
      register := fun caches store hstore => hmodify (fun grammar =>
        { grammar with registry := grammar.registry.registerAll store.cacheAlive caches }) store hstore
      retain := fun _ store hstore => hmodify _ store hstore
      clearCaches := fun store hstore => hstore.step rfl rfl fun cache hcache => by
        by_cases hmem : cache ∈ store.cachesOf home
        · obtain ⟨old, hold⟩ := (cache_clearCaches home store cache).1 hmem
          rw [hold]
          exact .clear old
        · rwa [(cache_clearCaches home store cache).2 hmem] }

/-- To change a cache as a cache may be changed changes it in the store. -/
theorem recalls_modify {ids : List CacheId} {caches : Caches}
    (h : ∀ cache ∈ ids, Metasyntax.Recalls texts ((caches[cache.index]?).getD default))
    {change : MatchCache → MatchCache}
    (hchange : ∀ cache, Metasyntax.Recalls texts cache → Metasyntax.Recalls texts (change cache))
    (place : Nat) : ∀ cache ∈ ids,
      Metasyntax.Recalls texts (((caches.modify place change)[cache.index]?).getD default) := by
  intro cache hcache
  have hold := h cache hcache
  rw [Array.getElem?_modify]
  split
  · cases hget : caches[cache.index]? with
    | none => exact .empty default
    | some old =>
      rw [hget] at hold
      exact hchange old hold
  · exact hold

/-- A parse of a text remembers nothing but what is about stretches of it. -/
theorem keeps_parseAll {text : String} (htext : text ∈ texts) (rule : RuleId) :
    Edit.Keeps (Recalls id texts) (Edit.parsing (·.parseAll rule (.ofString text))) := by
  intro store hstore
  have hslice (source : Source) (start stop : Nat) (h : source.text.toList <:+: text.toList) :
      (Source.ofString ((source.slice start stop).getD "")).text.toList <:+: text.toList := by
    cases hslice : source.slice start stop with
    | none => exact List.nil_infix
    | some taken =>
      obtain ⟨after, hrest, -⟩ := Source.slice_eq_some_iff.1 hslice
      obtain ⟨before, hsource, -⟩ := Source.rest_eq_some_iff.1 hrest
      exact List.IsInfix.trans ⟨before, after, by rw [hsource]; exact List.append_assoc ..⟩ h
  have hcall : (keeping fun caches => ∀ cache ∈ store.cachesOf id,
        Metasyntax.Recalls texts ((caches[cache.index]?).getD default)).rel
      (StopsIn fun _ => (Source.ofString text).text.toList <:+: text.toList)
      (store.catalog.ruleMatches rule (.ofString text) 0)
      (store.catalog.ruleMatches rule (.ofString text) 0) :=
    call_keeps_within (fun source => source.text.toList <:+: text.toList) hslice store.catalog
      (fun caches cache key _ h => recalls_modify h
        (fun _ hcache => hcache.touch (List.ne_nil_of_mem htext) key) cache.index)
      (fun caches cache key attempt hkey h => recalls_modify h
        (fun _ hcache => hcache.insert htext hkey attempt) cache.index) _
      (List.infix_refl text.toList) _ 0
  rw [Edit.parsing_parseAll, Edit.parsing_parse]
  exact (hcall store.caches hstore).1

theorem keeps_rule (name : String) : Edit.Keeps (Recalls id texts) (Edit.rule .abnf name) := by
  have hlocal : Edit.Keeps (Recalls id texts) (Edit.localRule .abnf name) := fun store hstore => by
    cases hlocal : store.catalog.local? .abnf name with
    | some rule => rwa [localRule_eq_of_local hlocal]
    | none =>
      simp only [Edit.localRule, Edit.bind_apply, Edit.get_apply, Edit.pure_apply, hlocal]
      exact hstore.step (Edit.registry_modifyTable ..) rfl fun _ hcache => hcache
  intro store hstore
  cases hlookup : store.catalog.lookup? .abnf name with
  | some rule =>
    simp only [Edit.rule, Edit.bind_apply, Edit.get_apply, Edit.pure_apply, hlookup]
    exact hstore
  | none =>
    simp only [Edit.rule, Edit.bind_apply, Edit.get_apply, hlookup]
    exact hlocal store hstore

theorem keeps_isRuleName {text : String} (htext : text ∈ texts) :
    Edit.Keeps (Recalls id texts) (RuleText.isRuleName text) := by
  refine .bind (keeps_rule "rulename") fun rule => ?_
  refine .bind (keeps_parseAll htext rule) fun result => ?_
  split <;> exact .pure _

end Store

section
variable {texts : List String}

def Edit.Leaves (P : Store → Prop) {α : Type} (edit : Edit α) : Prop := ∀ store, P (edit store).2

theorem Edit.Leaves.andThen {P : Store → Prop} {ε α β : Type} {load : ExceptT ε Edit α}
    {next : α → ExceptT ε Edit β} (h : Leaves P load.run) (hnext : ∀ a, Keeps P (next a).run) :
    Leaves P (load >>= next).run := by
  intro store
  have hload := h store
  rcases hrun : load.run store with ⟨error | a, after⟩
  · rw [run_bind_error hrun]
    rwa [hrun] at hload
  · rw [run_bind_ok hrun]
    rw [hrun] at hload
    exact hnext a after hload

theorem RuleText.leaves_parseText {α : Type} (name : String)
    (parse : Catalog → RuleId → Run (Except ParseError α)) :
    Edit.Leaves (Store.Recalls .abnf texts) (parseText name parse).run := by
  intro store
  rw [parseText, Edit.run_lift_bind, Edit.run_lift_bind, Edit.run_lift_bind]
  split <;> exact Store.recalls_clearCaches .abnf _

theorem RuleText.leaves_parseRule (text : String) :
    Edit.Leaves (Store.Recalls .abnf texts) (parseRule text).run :=
  .andThen (leaves_parseText _ _) fun _ => .done _

theorem RuleText.leaves_parseRules (text : String) :
    Edit.Leaves (Store.Recalls .abnf texts) (parseRules text).run :=
  .andThen (leaves_parseText _ _) fun _ => .done _

def Session.readTrees : RuleTexts → Loading (List Node)
  | .separate texts => texts.mapM RuleText.parseRule
  | .joined text => RuleText.parseRules text

/-- The bodies of the prose in rule texts, none if these cannot be parsed. -/
def Store.proses (store : Store) (rules : Session.RuleTexts) : List String :=
  match ((Session.readTrees rules).run store).1 with
  | .ok trees => trees.flatMap Node.proses
  | .error _ => []

/-- To parse no text at all is the one way to leave the caches as they were. -/
theorem Session.leaves_readTrees {rules : RuleTexts} (h : rules ≠ .separate []) :
    Edit.Leaves (Store.Recalls .abnf texts) (readTrees rules).run := by
  cases rules with
  | joined text => exact RuleText.leaves_parseRules text
  | separate rules =>
    cases rules with
    | nil => exact absurd rfl h
    | cons first rest =>
      rw [readTrees, List.mapM_cons]
      exact (RuleText.leaves_parseRule first).andThen fun _ =>
        .andThen (.mapM (fun text store _ => RuleText.leaves_parseRule text store) rest) fun _ =>
          .done _

/-- To take back what another grammar has got leaves no more behind. -/
theorem Store.keeps_truncate {id : GrammarId} (hid : id ≠ .abnf) (extent : Store.Extent) :
    Edit.Keeps (Recalls .abnf texts) (Edit.truncate id extent) := by
  intro store hstore
  refine hstore.step ?_ rfl fun cache hcache => ?_
  · rw [Edit.grammar_truncate, if_neg fun heq => hid heq.1.symm]
  · change Metasyntax.Recalls texts (((store.caches.take extent.caches)[cache.index]?).getD default)
    rw [getElem?_take]
    split
    · exact hcache
    · exact .empty default

theorem Store.keeps_compile {id : GrammarId} (hid : id ≠ .abnf) {trees : List Node}
    (h : ∀ tree ∈ trees, ∀ body ∈ tree.proses, body ∈ texts) :
    Edit.Keeps (Recalls .abnf texts) (RuleText.compile id trees).run :=
  (recalls_robust hid).compile (fun tree htree body hbody => keeps_isRuleName (h tree htree body hbody))
    (keeps_truncate hid)

/-- After rule texts are read for another grammar, with success or not, the caches of the grammar
they are read with remember stretches of prose only. -/
theorem Store.recalls_of_readTrees {id : GrammarId} (hid : id ≠ .abnf) {rules : Session.RuleTexts}
    {store : Store} (h : rules = .separate [] → store.Recalls .abnf []) :
    ((Session.readTrees rules >>= RuleText.compile id).run store).2.Recalls .abnf
      (store.proses rules) := by
  have hread : ((Session.readTrees rules).run store).2.Recalls .abnf [] := by
    by_cases hrules : rules = .separate []
    · subst hrules
      exact h rfl
    · exact Session.leaves_readTrees hrules store
  rcases hrun : (Session.readTrees rules).run store with ⟨failure | trees, read⟩
  · rw [Edit.run_bind_error hrun]
    rw [hrun] at hread
    exact hread.of_nil
  · rw [hrun] at hread
    have hproses : store.proses rules = trees.flatMap Node.proses := by rw [proses, hrun]
    rw [Edit.run_bind_ok hrun, hproses]
    exact keeps_compile hid (fun tree htree body hbody => List.mem_flatMap.2 ⟨tree, htree, hbody⟩)
      read hread.of_nil

end

theorem Session.loadTexts_eq_readTrees (id : GrammarId) (rules : RuleTexts) :
    loadTexts id rules = Session.readTrees rules >>= RuleText.compile id := by
  cases rules <;> rfl

theorem Session.readTrees_singleton (id : GrammarId) (text : String) :
    (Session.readTrees (.separate [text]) >>= RuleText.compile id) = (do
      let tree ← RuleText.parseRule text
      RuleText.compile id [tree]) := by
  simp [readTrees]

/-- Whatever rule texts are loaded into another grammar, with success or with any error, the
caches of the grammar that they are read with then remember nothing but stretches of prose in
these texts. If there is no prose they hold nothing and nothing has been asked of them since they
were emptied, or, if there was no text to read either, since before. -/
theorem Store.loads_leave_prose (store : Store) {id : GrammarId} (hid : id ≠ .abnf) :
    (∀ text, ((Loading.createRule id text).run store).2.Recalls .abnf
      (store.proses (.separate [text]))) ∧
    ∀ rules : Session.RuleTexts, (rules = .separate [] → store.Recalls .abnf []) →
      ((Session.loadTexts id rules).run store).2.Recalls .abnf (store.proses rules) := by
  refine ⟨fun text => ?_, fun rules h => ?_⟩
  · have hread : ((Session.readTrees (.separate [text]) >>= RuleText.compile id).run
        store).2.Recalls .abnf (store.proses (.separate [text])) := recalls_of_readTrees hid nofun
    rw [Session.readTrees_singleton] at hread
    rcases hrun : (RuleText.parseRule text).run store with ⟨failure | tree, read⟩
    · rw [Edit.run_bind_error hrun] at hread
      rwa [Loading.createRule, Edit.run_bind_error hrun]
    · rw [Edit.run_bind_ok hrun] at hread
      rw [Loading.createRule, Edit.run_bind_ok hrun]
      rcases hbind : (RuleText.compile id [tree]).run read with ⟨failure | bound, after⟩
      · rw [hbind] at hread
        rwa [Edit.run_bind_error hbind]
      · rw [hbind] at hread
        rw [Edit.run_bind_ok hbind]
        split <;> exact hread
  · rw [Session.loadTexts_eq_readTrees]
    exact recalls_of_readTrees hid h

theorem Store.loads_leave_prose_none : (⟨2⟩ : GrammarId) ≠ .abnf ∧
    Store.drafting.proses (.separate ["a=b"]) = [] ∧
    ∀ cache ∈ ((Session.loadTexts ⟨2⟩ (.separate ["a=b"])).run .drafting).2.cachesOf .abnf,
      (((Session.loadTexts ⟨2⟩ (.separate ["a=b"])).run .drafting).2.cache cache).size = 0 ∧
      (((Session.loadTexts ⟨2⟩ (.separate ["a=b"])).run .drafting).2.cache cache).hits = 0 ∧
      (((Session.loadTexts ⟨2⟩ (.separate ["a=b"])).run .drafting).2.cache cache).misses = 0 := by
  have hother : (⟨2⟩ : GrammarId) ≠ .abnf := by decide
  have hproses : Store.drafting.proses (.separate ["a=b"]) = [] := by
    have hchecked : (Standard.ruleTree? "a=b").any (fun tree => tree.proses = []) = true := by
      decide +kernel
    cases htree : Standard.ruleTree? "a=b" with
    | none =>
      rw [htree] at hchecked
      cases hchecked
    | some tree =>
      rw [htree, Option.any_some, decide_eq_true_eq] at hchecked
      obtain ⟨read, hread, -⟩ :=
        RuleText.gives_parseRule_of_ruleTree htree _ Desk.untouched_drafting.faithful
      have htrees : (Session.readTrees (.separate ["a=b"])).run .drafting = (.ok [tree], read) := by
        rw [Session.readTrees, List.mapM_cons, Edit.run_bind_ok hread]
        rfl
      rw [proses, htrees]
      simpa using hchecked
  exact ⟨hother, hproses, fun cache hcache =>
    ((Store.loads_leave_prose .drafting hother).2 (.separate ["a=b"]) nofun cache hcache).unused
      hproses⟩

theorem asked_bind {id : CacheId} {α β : Type} {x : Run α} {f : α → Run β} {caches : Caches}
    (h : Caches.Asked id (x.run caches).2)
    (hf : ∀ a, (keeping (Caches.Asked id)).rel (fun _ => True) (f a) (f a)) :
    Caches.Asked id ((x >>= f).run caches).2 := by
  rcases hx : x.run caches with ⟨error | a, caches'⟩
  · rw [Run.run_bind_error hx]
    rwa [hx] at h
  · rw [Run.run_bind_ok hx]
    rw [hx] at h
    exact (hf a caches' h).1

/-- Where the first part of a row matches, a repetition that comes second is asked. -/
theorem asked_followParts {catalog : Catalog} {id : CacheId} {first element : Parser}
    (bounds : Bounds) (rest : List Parser) {depth : Nat} {source : Source} {start stop : Nat}
    {found : MatchSet} {caches caches' : Caches}
    (hfirst : (first.enumerate catalog.firstMatch (catalog.call depth source) source start :
      Run _).run caches = (.ok (.ok found), caches')) (hstop : stop ∈ found.stops)
    (hid : id.index < caches'.size) (whole : Parser) :
    Caches.Asked id ((Parser.followParts catalog.firstMatch (catalog.call depth source) source whole
      start (first :: .repetition id bounds element :: rest) (.single (.empty start)) :
        Run _).run caches).2 := by
  have hlinked := asked_linked catalog id depth source
  let reached := (∅ : MatchSet).extend ∅ (.empty start) found
  have hreached : stop ∈ reached.stops :=
    MatchSet.mem_stops_extend.2 (Or.inr ⟨hstop, by simp⟩)
  have hsweep : (sweep (fun o => first.enumerate catalog.firstMatch (catalog.call depth source)
      source o) ∅ [.empty start] .none : Run Progress).run caches =
        (.ok ⟨reached, none⟩, caches') := by
    exact Run.run_bind_ok hfirst
  have hsettle : (Progress.mk reached none).settle whole start = .ok reached := by
    rw [Progress.settle, if_neg]
    intro hempty
    rw [MatchSet.isEmpty_iff.1 hempty] at hreached
    cases hreached
  rw [Parser.followParts, MatchSet.toList_single, Run.run_bind_ok hsweep, hsettle]
  dsimp only
  obtain ⟨m, hm, -⟩ := MatchSet.mem_stops.1 hreached
  obtain ⟨head, heads, hheads⟩ := List.exists_cons_of_ne_nil (List.ne_nil_of_mem hm)
  rw [Parser.followParts, hheads, sweep]
  have helement (o : Nat) := enumerate_rel (settling_true.consume source)
    (.repetition id bounds element) (hlinked _) o trivial
  refine asked_bind (asked_bind (asked_repetition catalog bounds element depth source head.stop hid)
    fun attempt => ?_) fun progress => ?_
  · have hsweeps (progress : Progress) := sweep_rel (keeping (Caches.Asked id))
      (fun o _ => helement o) ∅ heads (fun _ _ => trivial) progress fun _ _ => trivial
    cases attempt <;> exact fun caches h => ⟨(hsweeps _ caches h).1, fun _ _ => trivial⟩
  · cases hnext : progress.settle whole start with
    | ok next =>
      have hrest := followParts_rel (settling_true.consume source) rest (hlinked _) whole start next
        fun _ _ => trivial
      exact fun caches h => ⟨(hrest caches h).1, fun _ _ => trivial⟩
    | error failure => exact (keeping _).pure trivial

/-- A rule that is a call and a repetition asks the repetition's cache where the call matches. -/
theorem asked_ruleMatches_of_sequence {catalog : Catalog} {id : CacheId} {rule : RuleId}
    {slot : Slot} {called : RuleRef} {bounds : Bounds} {element : Parser}
    (halive : catalog.alive rule.grammar = true)
    (hbound : catalog.bound rule =
      .ok (slot, .concatenation [.rule called, .repetition id bounds element]))
    (hexclusion : slot.exclusion = none) {source : Source} {start stop : Nat} {found : MatchSet}
    {caches : Caches} (hid : id.index < caches.size)
    (hfirst : ((catalog.call (catalog.depthBound source - 1) source called start : Run _).run
      caches).1 = .ok (.ok found)) (hstop : stop ∈ found.stops) :
    Caches.Asked id ((catalog.ruleMatches rule source start : Run _).run caches).2 := by
  obtain ⟨depth, hdepth⟩ : ∃ depth, catalog.depthBound source = depth + 1 := ⟨_, rfl⟩
  rw [hdepth, Nat.add_sub_cancel] at hfirst
  have hsize := (call_keeps_size catalog _ depth source called start caches rfl).1
  have hresolve : catalog.resolve (catalog.refer rule) = .ok rule := if_pos halive
  rw [Catalog.ruleMatches, hdepth, Catalog.call, Catalog.callOnce, hresolve,
    Run.run_bind_ok (run_ofExcept_ok rule caches), hbound, Run.run_bind_ok (run_ofExcept_ok _ caches)]
  dsimp only
  rw [Parser.enumerate, hexclusion]
  have hparts : ((Parser.rule called).enumerate catalog.firstMatch (catalog.call depth source)
      source start : Run _).run caches =
        (.ok (.ok found), ((catalog.call depth source called start : Run _).run caches).2) := by
    rw [Parser.enumerate]
    exact Prod.ext hfirst rfl
  refine asked_bind (asked_followParts bounds [] hparts hstop (hsize.symm ▸ hid) _)
    fun attempt => ?_
  cases attempt <;> exact (keeping _).pure trivial

def Node.prosaic : Node :=
  .rule "rule"
    [.rule "rulename" [.rule "ALPHA" [.literal "a" 0]],
     .rule "defined-as" [.literal "=" 1],
     .rule "elements" [.rule "alternation" [.rule "concatenation" [.rule "repetition"
       [.rule "element" [.rule "prose-val" [.literal "<" 2, .literal "b" 3, .literal ">" 4]]]]]],
     .rule "c-nl" [.rule "CRLF" [.rule "CR" [.literal "\r" 5], .rule "LF" [.literal "\n" 6]]]]

theorem RuleText.readAlternation_prose (mode : ProseMode) (parts : List Node) :
    readAlternation (.expressions mode) (.rule "alternation" [.rule "concatenation"
      [.rule "repetition" [.rule "element" [.rule "prose-val" parts]]]]) =
        readProse (.expressions mode) (.rule "prose-val" parts) := by
  have hnamed (name : String) (children : List Node) :
      (Node.rule name children).isNamed name = true := by
    simp [Node.isNamed, sameName, Node.name]
  have hrepeat : sameName "element" "repeat" = false := by decide +kernel
  have hchild :
      (Node.rule "repetition" [.rule "element" [.rule "prose-val" parts]]).child? "repeat" =
        none := by
    simp [Node.child?, Node.children, Node.isNamed, Node.name, hrepeat]
  have hinner :
      readInner (.expressions mode) (.rule "prose-val" parts) =
        readProse (.expressions mode) (.rule "prose-val" parts) := by
    simp [readInner]
  simp only [readAlternation, readBranches, readConcatenation, readItems, readRepetition,
    readElementAmong, readElement, hnamed, if_true, hchild, hinner, bind_pure_comp, map_pure,
    bind_map_left, collapse, bind_pure]

theorem RuleText.readProductions_prosaic (mode : ProseMode) :
    readProductions mode [.prosaic] = (fun body => [⟨"a", false, body⟩]) <$>
      readProse (.expressions mode)
        (.rule "prose-val" [.literal "<" 2, .literal "b" 3, .literal ">" 4]) := by
  have hname : Node.prosaic.child? "rulename" =
      some (.rule "rulename" [.rule "ALPHA" [.literal "a" 0]]) := by decide +kernel
  have hdefined : Node.prosaic.child? "defined-as" =
      some (.rule "defined-as" [.literal "=" 1]) := by decide +kernel
  have helements : Node.prosaic.child? "elements" = some (.rule "elements" [.rule "alternation"
      [.rule "concatenation" [.rule "repetition" [.rule "element" [.rule "prose-val"
        [.literal "<" 2, .literal "b" 3, .literal ">" 4]]]]]]) := by decide +kernel
  have halternation (children : List Node) :
      (Node.rule "elements" [.rule "alternation" children]).child? "alternation" =
        some (.rule "alternation" children) := by
    simp [Node.child?, Node.children, Node.isNamed, Node.name, sameName]
  have hheaders : [Node.prosaic].mapM readHeader = .ok [("a", false)] := by
    rw [List.mapM_cons, readHeader, requireChild, requireChild, hname, hdefined]
    rfl
  have hbody : readBody (.expressions mode) .prosaic =
      readProse (.expressions mode)
        (.rule "prose-val" [.literal "<" 2, .literal "b" 3, .literal ">" 4]) := by
    rw [← readAlternation_prose, readBody, requireChild, helements]
    change (liftM (requireChild _ "alternation" "elements") >>= readAlternation (.expressions mode)) = _
    rw [requireChild, halternation]
    rfl
  rw [readProductions, hheaders]
  change ([Node.prosaic].mapM (readBody (.expressions mode)) >>= fun bodies => pure _) = _
  simp [hbody]

def Store.asksLater (store : Store) (rule : RuleId) (text : String) (other : GrammarId) : Bool :=
  match store.catalog.bound rule with
  | .ok (⟨_, _, none⟩, .concatenation [.rule called, .repetition cache _ _]) =>
    store.catalog.alive rule.grammar && (store.cachesOf rule.grammar).contains cache &&
      !(store.cachesOf other).contains cache && decide (cache.index < store.caches.size) &&
      match (store.catalog.call (store.catalog.depthBound (.ofString text) - 1) (.ofString text)
        called 0 : Except GrammarError Attempt) with
      | .ok (.ok found) => !found.isEmpty
      | _ => false
  | _ => false

theorem Store.Faithful.asked_of_asksLater {held : Set Parser} {store : Store}
    (h : store.Faithful held) {rule : RuleId} (hrule : rule.grammar ∈ Standard.grammars)
    {text : String} {other : GrammarId} (hasks : store.asksLater rule text other = true) :
    ∃ cache ∈ store.cachesOf rule.grammar, cache ∉ store.cachesOf other ∧
      (Edit.parsing (·.parseAll rule (.ofString text)) store).2.caches.Asked cache := by
  rw [asksLater] at hasks
  split at hasks
  case h_1 name definition called cache bounds element hbound =>
    simp only [Bool.and_eq_true, List.contains_eq_mem, decide_eq_true_eq, Bool.not_eq_true',
      decide_eq_false_iff_not] at hasks
    obtain ⟨⟨⟨⟨halive, hown⟩, hother⟩, hlt⟩, hcall⟩ := hasks
    split at hcall
    case h_1 found hfound =>
      have hcalled (rule' : RuleId) (hresolve : store.catalog.resolve called = .ok rule') :
          rule'.grammar ∈ Standard.grammars :=
        h.enclosed.target rule _ _ called hrule hbound
          (by simp [Parser.references, Parser.walk, Parser.walkAll]) rule' hresolve
      have hrun := call_above h.enclosed.closed (h.sane.apart_within _ _)
        (store.catalog.depthBound (.ofString text) - 1) (.ofString text) called hcalled 0
        store.caches h.sound
      rw [hfound] at hrun
      obtain ⟨_, _, ⟨⟩⟩ | ⟨hrun, -, -⟩ := hrun
      obtain ⟨stop, hstop⟩ : ∃ stop, stop ∈ found.stops := by
        refine List.exists_mem_of_ne_nil _ fun hnil => ?_
        rw [MatchSet.isEmpty_iff.2 hnil] at hcall
        cases hcall
      refine ⟨cache, hown, hother, ?_⟩
      rw [Edit.parsing_parseAll, Edit.parsing_parse]
      exact asked_ruleMatches_of_sequence halive hbound rfl hlt hrun hstop
    case h_2 => cases hcall
  case h_2 => cases hasks

theorem RuleText.run_readProse {mode : ProseMode} {node : Node} {store after : Store}
    (h : isRuleName (proseBody node) store = (true, after)) :
    (readProse (.expressions mode) node).run store = (.ok (.name (proseBody node)), after) := by
  rw [proseBody] at h
  unfold readProse
  rw [Edit.run_lift_bind, h]
  rfl

def Catalog.parsesWhole (catalog : Catalog) (rule : RuleId) (text : String) : Bool :=
  match (catalog.parseAll rule (.ofString text) :
    Except GrammarError (Except ParseError Node)) with
  | .ok (.ok _) => true
  | _ => false

/-- Reading a rule whose body is a name in angle brackets asks a cache of the grammar that it is
read with. -/
theorem Session.exists_read_prosaic : ∃ after : Store, ∃ cache ∈ after.cachesOf .abnf,
    (readTexts ⟨2⟩ (.separate ["a=<b>"])).run .drafting = (.ok [⟨"a", false, .name "b"⟩], after) ∧
      Store.drafting.Alike after ∧ after.Faithful ∅ ∧ cache ∉ after.cachesOf ⟨2⟩ ∧
        after.caches.Asked cache := by
  obtain ⟨named, hnamed, hlocal, -⟩ :=
    Standard.exists_entry (show "rulename" ∈ RuleText.entries by decide)
  have htree : Standard.ruleTree? "a=<b>" = some .prosaic := by decide +kernel
  have hchecked : (Standard.catalog.local? .abnf "rulename").any (fun rule =>
      Store.drafting.asksLater rule "b" ⟨2⟩ && decide (rule.grammar = .abnf) &&
        Standard.catalog.parsesWhole rule "b") = true ∧
      (Store.drafting.catalog.grammar ⟨2⟩).options.prose = .reject := by
    decide +kernel
  rw [hlocal, Option.any_some, Bool.and_eq_true, Bool.and_eq_true, decide_eq_true_eq] at hchecked
  obtain ⟨⟨⟨hasks, hgrammar⟩, hwhole⟩, hoptions⟩ := hchecked
  rw [Catalog.parsesWhole] at hwhole
  split at hwhole
  case h_2 => cases hwhole
  case h_1 node hparsed =>
  obtain ⟨read, hread, halike, hfaithful⟩ :=
    RuleText.gives_parseRule_of_ruleTree htree _ Desk.untouched_drafting.faithful
  -- The prose turns out to be a name, which is found with the help of a cache.
  have hgives : Edit.Gives ∅ _ _ := Standard.gives_parseAll hnamed (.ofString "b")
  rw [hparsed] at hgives
  obtain ⟨after, hparsing, halike', hfaithful'⟩ := hgives _ hfaithful
  have hasks' : read.asksLater named "b" ⟨2⟩ = true := by
    simp only [Store.asksLater, halike.catalog, halike.cachesOf, halike.size] at hasks ⊢
    exact hasks
  obtain ⟨cache, hown, hother, hasked⟩ := hfaithful.asked_of_asksLater hnamed.1 hasks'
  rw [hparsing] at hasked
  have hname : RuleText.isRuleName "b" read = (true, after) := by
    rw [RuleText.isRuleName, Edit.bind_apply, hfaithful.rule_eq hlocal, Edit.bind_apply, hparsing]
    rfl
  have hbody : RuleText.proseBody
      (.rule "prose-val" [.literal "<" 2, .literal "b" 3, .literal ">" 4]) = "b" := by
    decide +kernel
  have hprose : (RuleText.readProse (.expressions .reject) _).run read = _ :=
    RuleText.run_readProse (hbody.symm ▸ hname)
  rw [hbody] at hprose
  have hreject : (read.catalog.grammar ⟨2⟩).options.prose = .reject := by
    rw [halike.catalog]
    exact hoptions
  have hproductions : (RuleText.readProductions .reject [.prosaic]).run read =
      (.ok [⟨"a", false, .name "b"⟩], after) := by
    rw [RuleText.readProductions_prosaic, ← bind_pure_comp, Edit.run_bind_ok hprose]
    rfl
  refine ⟨after, cache, ?_, ?_, halike.trans halike', hfaithful', ?_, hasked⟩
  · rw [halike'.cachesOf, ← hgrammar]
    exact hown
  · rw [Loading.run_readTexts_singleton, Edit.run_bind_ok hread, RuleText.run_readNodes, hreject]
    exact congrArg (fun result => (result.1.mapError Failure.grammar, result.2)) hproductions
  · rwa [halike'.cachesOf]

/-- Prose that is a name stays behind in the caches of the grammar that rule text is read with. -/
theorem prose_stays_remembered : ¬ ∀ desk : Desk, desk.Untouched → ∀ id ∉ Standard.grammars,
    ∀ text, ∀ cache ∈ ((Loading.createRule id text).run desk.store).2.cachesOf .abnf,
      (((Loading.createRule id text).run desk.store).2.cache cache).size = 0 ∧
      (((Loading.createRule id text).run desk.store).2.cache cache).hits = 0 ∧
      (((Loading.createRule id text).run desk.store).2.cache cache).misses = 0 := by
  intro hall
  obtain ⟨after, cache, hcache, hread, halike, hfaithful, hother, hasked⟩ :=
    Session.exists_read_prosaic
  have hindex : 2 < after.catalog.grammars.size := by
    rw [halike.catalog]
    decide +kernel
  have hinterned : after.Interned := by
    have hdrafting : Store.drafting.Interned :=
      Desk.untouched_drafting.revocable Store.Interned.revocable fun _ => .empty
    rwa [Store.Interned, ← halike.catalog] at hdrafting
  have hlt : cache.index < after.caches.size := by
    obtain ⟨entry, hentry, -⟩ := hasked
    exact (Array.getElem?_eq_some_iff.1 hentry).1
  -- Binding the rule empties caches of its own grammar only.
  have hrenewed : after.Renewed Set.univ (after.catalog.grammar ⟨2⟩).options.cacheSize
      (insert ⟨2⟩ ∅) (Edit.bind ⟨2⟩ [⟨"a", false, .name "b"⟩] after).2 :=
    ((Store.Renewed.refl after Set.univ (after.catalog.grammar ⟨2⟩).options.cacheSize).bind
      hfaithful.sane hinterned hindex (by simp) (by simp)).1
  have hkept := hrenewed.kept cache (Set.mem_univ _) hlt fun id hid => by
    rcases Set.mem_insert_iff.1 hid with rfl | hid
    · exact hother
    · exact hid.elim
  obtain ⟨rule, hload⟩ := Loading.createRule_of_read Desk.untouched_drafting.faithful.loadable hread
  have hunused : ∀ cache ∈ ((Loading.createRule ⟨2⟩ "a=<b>").run .drafting).2.cachesOf .abnf,
      (((Loading.createRule ⟨2⟩ "a=<b>").run .drafting).2.cache cache).hits = 0 ∧
      (((Loading.createRule ⟨2⟩ "a=<b>").run .drafting).2.cache cache).misses = 0 :=
    fun cache hmem =>
      (hall ⟨.drafting, ∅⟩ Desk.untouched_drafting ⟨2⟩ (by decide) "a=<b>" cache hmem).2
  rw [hload] at hunused
  dsimp only at hunused
  obtain ⟨hhits, hmisses⟩ := hunused cache ((hrenewed.mem_cachesOf hlt).2 hcache)
  obtain ⟨entry, hentry, hlookups⟩ := hasked
  rw [Store.cache, hkept, hentry] at hhits hmisses
  have hnone : entry.lookups = 0 := congrArg₂ (· + ·) hhits hmisses
  exact hlookups.ne hnone.symm

end Metasyntax
