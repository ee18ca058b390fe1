import Metasyntax.Proofs.Holdings
import Metasyntax.Proofs.Tracing
import Metasyntax.Proofs.Foundation

/-!
# Matches reproduce their text

The leaves of a match stand side by side from where it starts to where it stops, each with
the text that stands there. So the value of a match is the stretch of text that it takes up.
No change of a session's grammars spoils this, also for the answers that are remembered from
before the change.
-/

set_option autoImplicit false

namespace Metasyntax

namespace Node

mutual
def leaves : Node → List (String × Nat)
  | .rule _ children => leavesOfAll children
  | .literal value offset => [(value, offset)]

def leavesOfAll : List Node → List (String × Nat)
  | [] => []
  | node :: rest => node.leaves ++ leavesOfAll rest
end

@[simp] theorem leavesOfAll_append (xs ys : List Node) :
    leavesOfAll (xs ++ ys) = leavesOfAll xs ++ leavesOfAll ys := by
  induction xs with
  | nil => rfl
  | cons node rest ih => simp [leavesOfAll, ih]

@[simp] theorem leavesOfAll_singleton_rule (name : String) (children : List Node) :
    leavesOfAll [.rule name children] = leavesOfAll children := by
  simp [leavesOfAll, leaves]

end Node

def joinLeaves : List (String × Nat) → String
  | [] => ""
  | (text, _) :: rest => text ++ joinLeaves rest

theorem joinLeaves_append (xs ys : List (String × Nat)) :
    joinLeaves (xs ++ ys) = joinLeaves xs ++ joinLeaves ys := by
  induction xs with
  | nil => simp [joinLeaves]
  | cons leaf rest ih => simp [joinLeaves, ih, String.append_assoc]

mutual
theorem Node.joinLeaves_leaves (node : Node) : joinLeaves node.leaves = node.value := by
  cases node with
  | rule name children => exact joinLeaves_leavesOfAll children
  | literal value offset => simp [leaves, joinLeaves, Node.value]

theorem Node.joinLeaves_leavesOfAll (nodes : List Node) :
    joinLeaves (leavesOfAll nodes) = valueOfAll nodes := by
  cases nodes with
  | nil => rfl
  | cons node rest =>
    rw [leavesOfAll, joinLeaves_append, joinLeaves_leaves node, joinLeaves_leavesOfAll rest,
      valueOfAll]
end

namespace Source

theorem slice_self {source : Source} {start : Nat} {rest : List Char}
    (h : source.rest start = some rest) : source.slice start start = some "" :=
  slice_eq_some_iff.2 ⟨rest, h, rfl⟩

theorem slice_trans {source : Source} {a b c : Nat} {first second : String}
    (hfirst : source.slice a b = some first) (hsecond : source.slice b c = some second) :
    source.slice a c = some (first ++ second) := by
  obtain ⟨after, hrest, rfl⟩ := slice_eq_some_iff.1 hfirst
  obtain ⟨after', hrest', rfl⟩ := slice_eq_some_iff.1 hsecond
  obtain rfl : after = second.toList ++ after' :=
    Option.some.inj ((rest_add hrest).symm.trans hrest')
  refine slice_eq_some_iff.2 ⟨after', by simpa using hrest, ?_⟩
  rw [String.toList_append, byteLength_append, Nat.add_assoc]

theorem slice_all {source : Source} {text : String} (h : source.slice 0 source.size = some text) :
    text = source.text := by
  obtain ⟨after, hrest, hsize⟩ := slice_eq_some_iff.1 h
  rw [rest_zero, Option.some.injEq] at hrest
  rw [size_eq, hrest, byteLength_append] at hsize
  obtain rfl : after = [] := byteLength_eq_zero.1 (by omega)
  exact String.toList_injective (by simpa using hrest.symm)

end Source

def Contiguous (source : Source) : Nat → List (String × Nat) → Nat → Prop
  | start, [], stop => start = stop
  | start, (text, offset) :: rest, stop =>
    offset = start ∧ source.slice start (start + byteLength text.toList) = some text ∧
      Contiguous source (start + byteLength text.toList) rest stop

namespace Contiguous

variable {source : Source} {start middle stop : Nat} {leaves leaves' : List (String × Nat)}

theorem append (h : Contiguous source start leaves middle)
    (h' : Contiguous source middle leaves' stop) :
    Contiguous source start (leaves ++ leaves') stop := by
  induction leaves generalizing start with
  | nil =>
    obtain rfl : start = middle := h
    exact h'
  | cons leaf rest ih => exact ⟨h.1, h.2.1, ih h.2.2⟩

theorem slice_eq (h : Contiguous source start leaves stop) {rest : List Char}
    (hrest : source.rest start = some rest) :
    source.slice start stop = some (joinLeaves leaves) := by
  induction leaves generalizing start rest with
  | nil =>
    obtain rfl : start = stop := h
    exact Source.slice_self hrest
  | cons leaf others ih =>
    obtain ⟨-, hslice, hothers⟩ := h
    obtain ⟨after, hafter, -⟩ := Source.slice_eq_some_iff.1 hslice
    exact Source.slice_trans hslice (ih hothers (Source.rest_add hafter))

theorem eq_nil (h : Contiguous source start leaves stop) (hrest : source.rest start = none) :
    leaves = [] ∧ stop = start := by
  cases leaves with
  | nil => exact ⟨rfl, h.symm⟩
  | cons leaf others =>
    obtain ⟨-, hslice, -⟩ := h
    obtain ⟨after, hafter, -⟩ := Source.slice_eq_some_iff.1 hslice
    rw [hrest] at hafter
    cases hafter

end Contiguous

namespace Match

def Covers (source : Source) (start : Nat) (m : Match) : Prop :=
  Contiguous source start (Node.leavesOfAll m.nodes) m.stop

theorem tracing_covers : Tracing Covers where
  empty _ _ := rfl
  matchAt := by
    intro source start terminal m h
    obtain ⟨taken, after, hrest, -, rfl⟩ := Literal.matchAt_eq_some_iff.1 h
    refine ⟨rfl, ?_, ?_⟩
    · exact Source.slice_eq_some_iff.2 ⟨after, by simpa using hrest, rfl⟩
    · change start + _ = start + _
      rw [String.toList_ofList]
  followedBy h h' := by
    rw [Covers, Match.followedBy, Node.leavesOfAll_append]
    exact Contiguous.append h h'
  wrap name h := by
    rw [Covers, Node.leavesOfAll_singleton_rule]
    exact h

structure Reproduces (source : Source) (start : Nat) (m : Match) : Prop where
  contiguous : Contiguous source start (Node.leavesOfAll m.nodes) m.stop
  inside : (source.rest start).isSome → start ≤ m.stop ∧ m.stop ≤ source.size ∧
    (source.rest m.stop).isSome ∧ source.slice start m.stop = some m.value
  outside : source.rest start = none → m.stop = start ∧ m.value = ""

theorem Covers.reproduces {source : Source} {start : Nat} {m : Match} (h : m.Covers source start) :
    m.Reproduces source start where
  contiguous := h
  inside hrest := by
    obtain ⟨rest, hrest⟩ := Option.isSome_iff_exists.1 hrest
    have hslice := Contiguous.slice_eq h hrest
    rw [Node.joinLeaves_leavesOfAll] at hslice
    obtain ⟨after, hafter, hstop⟩ := Source.slice_eq_some_iff.1 hslice
    have hstoprest := Source.rest_add hafter
    rw [← hstop] at hstoprest
    have hsize := Source.add_byteLength_rest hstoprest
    exact ⟨by omega, by omega, by rw [hstoprest]; rfl, hslice⟩
  outside hrest := by
    obtain ⟨hleaves, hstop⟩ := Contiguous.eq_nil h hrest
    exact ⟨hstop, by rw [value, ← Node.joinLeaves_leavesOfAll, hleaves]; rfl⟩

end Match

namespace Edit

variable {store : Store} {rule : RuleId} {source : Source} {start : Nat}

/-- What is parsed is the node of a match. -/
theorem exists_of_parsing_parse {node : Node} {stop : Nat}
    (h : (parsing (·.parse rule source start) store).1 = .ok (.ok (node, stop))) :
    ∃ found, (parsing (·.ruleMatches rule source start) store).1 = .ok (.ok found) ∧
      ∃ m ∈ found.toList, m.stop = stop ∧ ∃ others, m.nodes = node :: others := by
  change ((store.catalog.parse rule source start : Run _).run store.caches).1 = _ at h
  change ∃ found, ((store.catalog.ruleMatches rule source start : Run _).run store.caches).1 = _ ∧ _
  rw [Catalog.parse] at h
  rcases hrun : (store.catalog.ruleMatches rule source start : Run _).run store.caches with
    ⟨error | attempt, caches⟩
  · rw [Run.run_bind_error hrun] at h
    cases h
  · rw [Run.run_bind_ok hrun] at h
    cases attempt with
    | error failure => cases h
    | ok found =>
      dsimp only at h
      split at h
      · rename_i node' others stop' hlongest
        cases h
        rw [MatchSet.longest?_eq_head?] at hlongest
        exact ⟨found, rfl, _, List.mem_of_mem_head? (Option.mem_def.2 hlongest), rfl, others, rfl⟩
      · cases h

/-- What is parsed in whole is what is parsed as far as to the end. -/
theorem exists_of_parsing_parseAll {node : Node}
    (h : (parsing (·.parseAll rule source) store).1 = .ok (.ok node)) :
    ∃ stop, source.size ≤ stop ∧
      (parsing (·.parse rule source 0) store).1 = .ok (.ok (node, stop)) := by
  change ((store.catalog.parseAll rule source : Run _).run store.caches).1 = _ at h
  change ∃ stop, _ ∧ ((store.catalog.parse rule source 0 : Run _).run store.caches).1 = _
  rw [Catalog.parseAll] at h
  rcases hrun : (store.catalog.parse rule source 0 : Run _).run store.caches with
    ⟨error | result, caches⟩
  · rw [Run.run_bind_error hrun] at h
    cases h
  · rw [Run.run_bind_ok hrun] at h
    cases result with
    | error failure => cases h
    | ok found =>
      obtain ⟨node', stop⟩ := found
      dsimp only at h
      split at h
      case isTrue => cases h
      case isFalse hstop =>
        cases h
        exact ⟨stop, Nat.not_lt.1 hstop, rfl⟩

end Edit

section
variable {trace : Source → Nat → Match → Prop} (htrace : Tracing trace) {store : Store}
include htrace

theorem Caches.Traced.matchesOf (h : store.caches.Traced trace) (parser : Parser)
    (source : Source) (start : Nat) :
    (Edit.parsing (·.matchesOf parser source start) store).2.caches.Traced trace ∧
      ∀ found, (Edit.parsing (·.matchesOf parser source start) store).1 = .ok (.ok found) →
        ∀ m ∈ found.toList, trace source start m := by
  obtain ⟨hcaches, hattempt⟩ := enumerate_traces htrace (fun ref o =>
    (Catalog.call_traces htrace _ source ref o).mono fun _ => Catalog.traced_of_named)
      parser start store.caches h
  exact ⟨hcaches, fun found hfound => hattempt _ hfound found rfl⟩

/-- Caches stay traced through whatever is done in a session. -/
theorem Tracing.durable : Durable fun store => store.caches.Traced trace where
  newGrammar _ _ _ _ h := h
  newMode _ _ h := h
  newCache _ _ h := h.of_holds fun _ _ _ => Caches.holds_of_holds_push
  newRule _ h := h
  setMode _ _ _ h := h
  update _ _ _ _ h := h
  register _ _ _ h := h
  retain _ _ _ h := h
  clearCaches _ _ h := h.of_holds fun _ _ _ hholds => (Caches.holds_of_holds_clearAll hholds).2
  matchesOf parser source start _ h := (h.matchesOf htrace parser source start).1
  collect _ h := h

theorem Session.Reached.traced {session : Session} (h : session.Reached) :
    session.store.caches.Traced trace :=
  h.holds htrace.durable fun _ _ _ hholds =>
    absurd hholds <| Caches.not_holds_of_isEmpty fun cache hcache =>
      Array.all_eq_true_iff_forall_mem.1 Standard.checked.2.2.2.2 cache hcache

end

end Metasyntax
