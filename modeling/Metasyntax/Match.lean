import Metasyntax.Node

/-!
# Matches

One way to match: the nodes produced and the offset right after them. All matches
of a set start at one offset, so two that stop at one offset matched the same
text, and a set keeps only the first of them. A set is held longest first.
-/

set_option autoImplicit false

namespace Metasyntax

structure Match where
  nodes : List Node
  stop : Nat
  deriving Inhabited, DecidableEq

namespace Match

def empty (offset : Nat) : Match := ⟨[], offset⟩

def value (m : Match) : String := Node.valueOfAll m.nodes

def followedBy (first second : Match) : Match := ⟨first.nodes ++ second.nodes, second.stop⟩

def render (m : Match) : String :=
  "Match(nodes=[" ++ ", ".intercalate (Node.renderAll m.nodes) ++ "], end=" ++ toString m.stop
    ++ ")"

def insertInto (m : Match) : List Match → List Match
  | [] => [m]
  | other :: rest =>
    if other.stop < m.stop then m :: other :: rest
    else if other.stop = m.stop then other :: rest
    else other :: insertInto m rest

theorem mem_insertInto {m x : Match} {l : List Match} (h : x ∈ insertInto m l) :
    x = m ∨ x ∈ l := by
  induction l with
  | nil => exact Or.inl (by simpa [insertInto] using h)
  | cons other rest ih =>
    rw [insertInto] at h
    split at h
    · simpa using h
    · split at h
      · exact Or.inr h
      · rcases List.mem_cons.1 h with rfl | h
        · exact Or.inr (by simp)
        · rcases ih h with h | h
          · exact Or.inl h
          · exact Or.inr (List.mem_cons_of_mem _ h)

theorem pairwise_insertInto {m : Match} {l : List Match}
    (h : l.Pairwise fun a b => b.stop < a.stop) :
    (insertInto m l).Pairwise fun a b => b.stop < a.stop := by
  induction l with
  | nil => simp [insertInto]
  | cons other rest ih =>
    obtain ⟨hother, hrest⟩ := List.pairwise_cons.1 h
    rw [insertInto]
    split
    case isTrue hlt =>
      refine List.pairwise_cons.2 ⟨fun x hx => ?_, h⟩
      rcases List.mem_cons.1 hx with rfl | hx
      · exact hlt
      · exact Nat.lt_trans (hother x hx) hlt
    case isFalse hlt =>
      split
      case isTrue => exact h
      case isFalse hne =>
        refine List.pairwise_cons.2 ⟨fun x hx => ?_, ih hrest⟩
        rcases mem_insertInto hx with rfl | hx
        · omega
        · exact hother x hx

end Match

/-- Matches from one start, longest first, one for each offset where some match stops. -/
structure MatchSet where
  toList : List Match
  ordered : toList.Pairwise fun a b => b.stop < a.stop

namespace MatchSet

def empty : MatchSet := ⟨[], List.Pairwise.nil⟩

instance : EmptyCollection MatchSet := ⟨empty⟩

instance : Inhabited MatchSet := ⟨empty⟩

def single (m : Match) : MatchSet := ⟨[m], List.pairwise_singleton _ _⟩

def isEmpty (set : MatchSet) : Bool := set.toList.isEmpty

def stops (set : MatchSet) : List Nat := set.toList.map (·.stop)

def hasStop (set : MatchSet) (stop : Nat) : Bool := search set.toList
where
  -- The longest match comes first: after one that stops earlier there is nothing to find.
  search : List Match → Bool
    | [] => false
    | m :: rest => if m.stop = stop then true else if m.stop < stop then false else search rest

def insert (set : MatchSet) (m : Match) : MatchSet :=
  ⟨m.insertInto set.toList, Match.pairwise_insertInto set.ordered⟩

def union (set other : MatchSet) : MatchSet := other.toList.foldl insert set

def ofList (matched : List Match) : MatchSet := matched.foldl insert ∅

def extend (set known : MatchSet) (head : Match) (tails : MatchSet) : MatchSet :=
  tails.toList.foldl (fun found tail =>
    if known.hasStop tail.stop || found.hasStop tail.stop then found
    else found.insert (head.followedBy tail)) set

def longest? (set : MatchSet) : Option Match := set.toList.head?

def mapNodes (f : List Node → List Node) (set : MatchSet) : MatchSet :=
  ⟨set.toList.map fun m => ⟨f m.nodes, m.stop⟩,
    List.pairwise_map.2 set.ordered⟩

def filter (p : Match → Bool) (set : MatchSet) : MatchSet :=
  ⟨set.toList.filter p, set.ordered.filter p⟩

end MatchSet

end Metasyntax
