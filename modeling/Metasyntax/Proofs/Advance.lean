import Metasyntax.Proofs.Meaning

/-!
# Rules that come back to themselves

A rule calls another at its own offset when it asks for it before it has matched any
text. Which rules it may ask for there is read off its definition, given which rules match
no empty text. Where the rules can be ranked so that such calls lead down, none comes back
to itself, and every parser of these rules can be used.
-/

set_option autoImplicit false

namespace Metasyntax

namespace Parser

section
variable (takes : RuleRef → Bool)

mutual
def consumes : Parser → Bool
  | .literal terminal => terminal.pattern ≠ .text ""
  | .alternation _ branches => allConsume branches
  | .concatenation parts => someConsumes parts
  | .optional _ _ => false
  | .repetition _ bounds element => 0 < bounds.min && consumes element
  | .rule ref => takes ref
  | .prose _ => true

def allConsume : List Parser → Bool
  | [] => true
  | branch :: rest => consumes branch && allConsume rest

def someConsumes : List Parser → Bool
  | [] => false
  | part :: rest => consumes part || someConsumes rest
end

mutual
def heads : Parser → List RuleRef
  | .literal _ => []
  | .alternation _ branches => allHeads branches
  | .concatenation parts => leadingHeads parts
  | .optional _ element => heads element
  | .repetition _ _ element => heads element
  | .rule ref => [ref]
  | .prose _ => []

def allHeads : List Parser → List RuleRef
  | [] => []
  | branch :: rest => heads branch ++ allHeads rest

def leadingHeads : List Parser → List RuleRef
  | [] => []
  | part :: rest => heads part ++ if consumes takes part then [] else leadingHeads rest
end

end

variable {firstMatch : ModeId → Bool} {meaning : RuleRef → Nat → Set Nat} {source : Source}
  {takes : RuleRef → Bool}

def Advances (source : Source) (takes : RuleRef → Bool) (meaning : RuleRef → Nat → Set Nat)
    (asks : RuleRef → Nat → Prop) : Prop :=
  ∀ ref o, asks ref o → ∀ e ∈ meaning ref o, Onward source o e ∧ (takes ref = true → o < e)

theorem Advances.onward {asks : RuleRef → Nat → Prop} (h : Advances source takes meaning asks) :
    ∀ ref o, asks ref o → ∀ e ∈ meaning ref o, Onward source o e :=
  fun ref o hasks e he => (h ref o hasks e he).1

theorem lt_of_onward {a b c : Nat} (h : a < b) (h' : Onward source b c) : a < c := by
  unfold Onward at h'
  omega

theorem le_of_onward {a b : Nat} (h : Onward source a b) : a ≤ b := by
  unfold Onward at h
  omega

theorem lt_of_matchAt {terminal : Literal} {start : Nat} {m : Match}
    (hterminal : terminal.pattern ≠ .text "") (h : terminal.matchAt source start = some m) :
    start < m.stop := by
  obtain ⟨taken, after, -, hconsume, rfl⟩ := Literal.matchAt_eq_some_iff.1 h
  have hpos : 0 < byteLength taken :=
    Nat.pos_of_ne_zero fun h => Literal.consume_ne_nil hterminal hconsume (byteLength_eq_zero.1 h)
  exact Nat.lt_add_of_pos_right hpos

mutual
theorem lt_of_mem_ends (parser : Parser) (start : Nat)
    (h : Advances source takes meaning (parser.Asks firstMatch meaning source start))
    (hconsumes : parser.consumes takes = true) :
    ∀ e ∈ parser.ends firstMatch meaning source start, start < e := by
  intro e he
  cases parser with
  | literal terminal =>
    rw [ends] at he
    obtain ⟨m, hm, rfl⟩ := he
    exact lt_of_matchAt (by simpa [consumes] using hconsumes) hm
  | alternation mode branches =>
    rw [ends] at he
    simp only [Asks] at h
    rw [consumes] at hconsumes
    split at he
    case isTrue hmode =>
      simp only [hmode, if_true] at h
      exact lt_of_mem_firstEnds branches start h hconsumes e he
    case isFalse hmode =>
      simp only [hmode, Bool.false_eq_true, if_false] at h
      exact lt_of_mem_anyEnds branches start h hconsumes e he
  | concatenation parts =>
    rw [ends] at he
    rw [consumes] at hconsumes
    exact lt_of_mem_composedEnds parts start (by simpa only [Asks] using h) hconsumes e he
  | optional cache element => simp [consumes] at hconsumes
  | repetition cache bounds element =>
    rw [ends] at he
    simp only [Asks] at h
    simp only [consumes, Bool.and_eq_true, decide_eq_true_eq] at hconsumes
    obtain ⟨count, hmin, hcount, he⟩ := he
    -- The last occurrence consumes, and those before it do not go back.
    obtain ⟨count, rfl⟩ : ∃ k, count = k + 1 := ⟨count - 1, by omega⟩
    rw [reach_succ] at he
    obtain ⟨o, ho, he⟩ := he
    have hasks : ∀ k < count + 1, ∀ o ∈ reach (fun o => ends firstMatch meaning source element o) k
        {start}, Advances source takes meaning (element.Asks firstMatch meaning source o) :=
      fun k hk o ho ref o' hasks =>
        h ref o' ⟨k, fun most hmost => hk.trans_le (hcount most hmost), o, ho, hasks⟩
    have hstart : Onward source start o :=
      related_of_mem_reach (onward_stepping source) (fun k hk o ho =>
        related_of_mem_ends (onward_stepping source) element o (hasks k (by omega) o ho).onward) ho
    have hlast := lt_of_mem_ends element o (hasks count (by omega) o ho) hconsumes.2 e he
    exact (le_of_onward hstart).trans_lt hlast
  | rule ref =>
    rw [ends] at he
    rw [consumes] at hconsumes
    exact (h ref start (by simp [Asks]) e he).2 hconsumes
  | prose text =>
    rw [ends] at he
    exact absurd he (Set.notMem_empty e)

theorem lt_of_mem_anyEnds (branches : List Parser) (start : Nat)
    (h : Advances source takes meaning (AnyAsks firstMatch meaning source branches start))
    (hconsumes : allConsume takes branches = true) :
    ∀ e ∈ anyEnds firstMatch meaning source branches start, start < e := by
  intro e he
  cases branches with
  | nil =>
    rw [anyEnds] at he
    exact absurd he (Set.notMem_empty e)
  | cons branch rest =>
    rw [anyEnds] at he
    simp only [AnyAsks] at h
    simp only [allConsume, Bool.and_eq_true] at hconsumes
    rcases he with he | he
    · exact lt_of_mem_ends branch start (fun ref o hasks => h ref o (Or.inl hasks)) hconsumes.1 e he
    · exact lt_of_mem_anyEnds rest start (fun ref o hasks => h ref o (Or.inr hasks)) hconsumes.2 e he

theorem lt_of_mem_firstEnds (branches : List Parser) (start : Nat)
    (h : Advances source takes meaning (FirstAsks firstMatch meaning source branches start))
    (hconsumes : allConsume takes branches = true) :
    ∀ e ∈ firstEnds firstMatch meaning source branches start, start < e := by
  intro e he
  cases branches with
  | nil =>
    rw [firstEnds] at he
    exact absurd he (Set.notMem_empty e)
  | cons branch rest =>
    rw [firstEnds] at he
    simp only [FirstAsks] at h
    simp only [allConsume, Bool.and_eq_true] at hconsumes
    rcases he with he | ⟨hempty, he⟩
    · exact lt_of_mem_ends branch start (fun ref o hasks => h ref o (Or.inl hasks)) hconsumes.1 e he
    · exact lt_of_mem_firstEnds rest start (fun ref o hasks => h ref o (Or.inr ⟨hempty, hasks⟩))
        hconsumes.2 e he

theorem lt_of_mem_composedEnds (parts : List Parser) (start : Nat)
    (h : Advances source takes meaning (ComposedAsks firstMatch meaning source parts start))
    (hconsumes : someConsumes takes parts = true) :
    ∀ e ∈ composedEnds firstMatch meaning source parts start, start < e := by
  intro e he
  cases parts with
  | nil => simp [someConsumes] at hconsumes
  | cons part rest =>
    rw [composedEnds] at he
    simp only [ComposedAsks] at h
    simp only [someConsumes, Bool.or_eq_true] at hconsumes
    obtain ⟨o, ho, he⟩ := he
    have hpart : Advances source takes meaning (part.Asks firstMatch meaning source start) :=
      fun ref o hasks => h ref o (Or.inl hasks)
    have hrest : Advances source takes meaning (ComposedAsks firstMatch meaning source rest o) :=
      fun ref o' hasks => h ref o' (Or.inr ⟨o, ho, hasks⟩)
    have honward := related_of_mem_ends (onward_stepping source) part start hpart.onward o ho
    rcases hconsumes with hconsumes | hconsumes
    · exact lt_of_onward (lt_of_mem_ends part start hpart hconsumes o ho)
        (related_of_mem_composedEnds (onward_stepping source) rest o hrest.onward e he)
    · exact (le_of_onward honward).trans_lt (lt_of_mem_composedEnds rest o hrest hconsumes e he)
end

mutual
theorem mem_heads_of_asks (parser : Parser) (start : Nat)
    (h : Advances source takes meaning (parser.Asks firstMatch meaning source start))
    {ref : RuleRef} (hasks : parser.Asks firstMatch meaning source start ref start) :
    ref ∈ parser.heads takes := by
  cases parser with
  | literal terminal | prose text => exact absurd hasks (by simp [Asks])
  | alternation mode branches =>
    rw [Asks] at hasks
    simp only [Asks] at h
    rw [heads]
    split at hasks
    case isTrue hmode =>
      simp only [hmode, if_true] at h
      exact mem_allHeads_of_firstAsks branches start h hasks
    case isFalse hmode =>
      simp only [hmode, Bool.false_eq_true, if_false] at h
      exact mem_allHeads_of_anyAsks branches start h hasks
  | concatenation parts =>
    rw [Asks] at hasks
    rw [heads]
    exact mem_leadingHeads_of_composedAsks parts start (by simpa only [Asks] using h) hasks
  | optional cache element =>
    rw [Asks] at hasks
    rw [heads]
    exact mem_heads_of_asks element start (by simpa only [Asks] using h) hasks
  | repetition cache bounds element =>
    rw [Asks] at hasks
    simp only [Asks] at h
    rw [heads]
    obtain ⟨count, hcount, o, ho, hasks⟩ := hasks
    have hbefore : ∀ k ≤ count, ∀ o ∈ reach (fun o => ends firstMatch meaning source element o) k
        {start}, Advances source takes meaning (element.Asks firstMatch meaning source o) :=
      fun k hk o ho ref o' hasks =>
        h ref o' ⟨k, fun most hmost => hk.trans_lt (hcount most hmost), o, ho, hasks⟩
    have hstart : Onward source start o :=
      related_of_mem_reach (onward_stepping source) (fun k hk o ho =>
        related_of_mem_ends (onward_stepping source) element o (hbefore k hk.le o ho).onward) ho
    have hback := related_of_asks (onward_stepping source) element o
      (hbefore count le_rfl o ho).onward hasks
    obtain rfl : o = start := le_antisymm (le_of_onward hback) (le_of_onward hstart)
    exact mem_heads_of_asks element o (hbefore count le_rfl o ho) hasks
  | rule ref' =>
    rw [Asks] at hasks
    simp [heads, hasks.1]

theorem mem_allHeads_of_anyAsks (branches : List Parser) (start : Nat)
    (h : Advances source takes meaning (AnyAsks firstMatch meaning source branches start))
    {ref : RuleRef} (hasks : AnyAsks firstMatch meaning source branches start ref start) :
    ref ∈ allHeads takes branches := by
  cases branches with
  | nil => exact absurd hasks (by simp [AnyAsks])
  | cons branch rest =>
    rw [AnyAsks] at hasks
    simp only [AnyAsks] at h
    rw [allHeads, List.mem_append]
    rcases hasks with hasks | hasks
    · exact Or.inl (mem_heads_of_asks branch start (fun ref o hasks => h ref o (Or.inl hasks)) hasks)
    · exact Or.inr (mem_allHeads_of_anyAsks rest start (fun ref o hasks => h ref o (Or.inr hasks))
        hasks)

theorem mem_allHeads_of_firstAsks (branches : List Parser) (start : Nat)
    (h : Advances source takes meaning (FirstAsks firstMatch meaning source branches start))
    {ref : RuleRef} (hasks : FirstAsks firstMatch meaning source branches start ref start) :
    ref ∈ allHeads takes branches := by
  cases branches with
  | nil => exact absurd hasks (by simp [FirstAsks])
  | cons branch rest =>
    rw [FirstAsks] at hasks
    simp only [FirstAsks] at h
    rw [allHeads, List.mem_append]
    rcases hasks with hasks | ⟨hempty, hasks⟩
    · exact Or.inl (mem_heads_of_asks branch start (fun ref o hasks => h ref o (Or.inl hasks)) hasks)
    · exact Or.inr (mem_allHeads_of_firstAsks rest start
        (fun ref o hasks => h ref o (Or.inr ⟨hempty, hasks⟩)) hasks)

theorem mem_leadingHeads_of_composedAsks (parts : List Parser) (start : Nat)
    (h : Advances source takes meaning (ComposedAsks firstMatch meaning source parts start))
    {ref : RuleRef} (hasks : ComposedAsks firstMatch meaning source parts start ref start) :
    ref ∈ leadingHeads takes parts := by
  cases parts with
  | nil => exact absurd hasks (by simp [ComposedAsks])
  | cons part rest =>
    rw [ComposedAsks] at hasks
    simp only [ComposedAsks] at h
    rw [leadingHeads, List.mem_append]
    have hpart : Advances source takes meaning (part.Asks firstMatch meaning source start) :=
      fun ref o hasks => h ref o (Or.inl hasks)
    rcases hasks with hasks | ⟨o, ho, hasks⟩
    · exact Or.inl (mem_heads_of_asks part start hpart hasks)
    · have hrest : Advances source takes meaning (ComposedAsks firstMatch meaning source rest o) :=
        fun ref o' hasks => h ref o' (Or.inr ⟨o, ho, hasks⟩)
      have hstart := related_of_mem_ends (onward_stepping source) part start hpart.onward o ho
      have hback := related_of_composedAsks (onward_stepping source) rest o hrest.onward hasks
      obtain rfl : o = start := le_antisymm (le_of_onward hback) (le_of_onward hstart)
      have hconsumes : ¬ part.consumes takes = true := fun hconsumes =>
        Nat.lt_irrefl _ (lt_of_mem_ends part o hpart hconsumes o ho)
      rw [if_neg hconsumes]
      exact Or.inr (mem_leadingHeads_of_composedAsks rest o hrest hasks)
end

end Parser

namespace Catalog

structure Ranked (catalog : Catalog) (scope : Scope) (takes : RuleRef → Bool)
    (rank : RuleId → Nat) : Prop where
  bound : ∀ rule ∈ scope.rules, ∃ slot definition, catalog.bound rule = .ok (slot, definition)
  consumes : ∀ ref rule slot definition, takes ref = true → catalog.resolve ref = .ok rule →
    catalog.bound rule = .ok (slot, definition) → definition.consumes takes = true
  heads : ∀ rule ∈ scope.rules, ∀ slot definition, catalog.bound rule = .ok (slot, definition) →
    ∀ ref ∈ definition.heads takes, ∀ rule', catalog.resolve ref = .ok rule' → rank rule' < rank rule
  exclusion : ∀ rule ∈ scope.rules, ∀ slot definition ref,
    catalog.bound rule = .ok (slot, definition) → slot.exclusion = some ref →
      ∀ excluded, catalog.resolve ref = .ok excluded → rank excluded < rank rule

variable {catalog : Catalog} {scope : Scope} {takes : RuleRef → Bool} {rank : RuleId → Nat}

theorem Means.lt_of_takes (htakes : ∀ ref rule slot definition, takes ref = true →
      catalog.resolve ref = .ok rule → catalog.bound rule = .ok (slot, definition) →
        definition.consumes takes = true) {source : Source} {ref : RuleRef} {start : Nat}
    {ends : Set Nat} (h : catalog.Means source ref start ends) (href : takes ref = true) :
    ∀ e ∈ ends, start < e := by
  induction h with
  | unrestricted meaning hresolve hbound hexclusion hmeans ih =>
    refine Parser.lt_of_mem_ends _ _ (fun ref' o hasks e he => ⟨?_, fun hrefs => ?_⟩)
      (htakes _ _ _ _ href hresolve hbound)
    · exact (hmeans ref' o hasks).related onward_stepping e he
    · exact ih ref' o hasks hrefs e he
  | restricted meaning vetoes hresolve hbound hexclusion hexcluded hmeans hvetoes ih ihvetoes =>
    intro e he
    refine Parser.lt_of_mem_ends _ _ (fun ref' o hasks e he => ⟨?_, fun hrefs => ?_⟩)
      (htakes _ _ _ _ href hresolve hbound) e he.1
    · exact (hmeans ref' o hasks).related onward_stepping e he
    · exact ih ref' o hasks hrefs e he

/-- A call of ranked rules comes to a place with less room or to a rule of lower rank. -/
theorem Ranked.descends (h : catalog.Ranked scope takes rank) (hclosed : scope.Closed catalog)
    {question question' : Question} (hrule : question.rule ∈ scope.rules)
    (hcalls : catalog.Calls question question') :
    question'.rule ∈ scope.rules ∧
      (question'.source.room question'.start < question.source.room question.start ∨
        question'.source.room question'.start = question.source.room question.start ∧
          rank question'.rule < rank question.rule) := by
  have hnear := near_of_calls hcalls
  cases hcalls with
  | @definition source rule rule' start o slot definition ref hbound hasks hresolve =>
    have hdefinition := hclosed.definition rule hrule slot definition hbound
    refine ⟨hclosed.target ref (hclosed.inner _ hdefinition _ (definition.mem_walk_of_asks hasks))
      rule' hresolve, ?_⟩
    rcases hnear with ⟨-, hsame⟩ | hless
    · dsimp only at hsame
      subst hsame
      refine Or.inr ⟨rfl, h.heads rule hrule slot definition hbound ref ?_ rule' hresolve⟩
      refine definition.mem_heads_of_asks o (fun ref' o' hasks' e he => ?_) hasks
      obtain ⟨ends, hmeans, he⟩ := he
      exact ⟨hmeans.related onward_stepping e he, fun href => hmeans.lt_of_takes h.consumes href e he⟩
    · exact Or.inl hless
  | @exclusion source rule excluded start e slot definition ref hbound hexclusion he hresolve =>
    refine ⟨hclosed.exclusion rule hrule slot definition ref hbound hexclusion excluded hresolve, ?_⟩
    rcases hnear with ⟨hsource, hsame⟩ | hless
    · exact Or.inr ⟨by rw [hsource, hsame],
        h.exclusion rule hrule slot definition ref hbound hexclusion excluded hresolve⟩
    · exact Or.inl hless

theorem Ranked.acyclic (h : catalog.Ranked scope takes rank) (hclosed : scope.Closed catalog)
    {question : Question} (hrule : question.rule ∈ scope.rules) :
    ¬ Relation.TransGen catalog.Calls question question := by
  have hdescends : ∀ {question'}, Relation.TransGen catalog.Calls question question' →
      question'.rule ∈ scope.rules ∧
        (question'.source.room question'.start < question.source.room question.start ∨
          question'.source.room question'.start = question.source.room question.start ∧
            rank question'.rule < rank question.rule) := by
    intro question' hcalls
    induction hcalls with
    | single hcalls => exact h.descends hclosed hrule hcalls
    | tail _ hcalls ih =>
      obtain ⟨hrule', hless⟩ := h.descends hclosed ih.1 hcalls
      exact ⟨hrule', by omega⟩
  intro hcycle
  have hless := (hdescends hcycle).2
  omega

end Catalog

end Metasyntax
