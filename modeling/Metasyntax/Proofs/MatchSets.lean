import Mathlib.Tactic.Tauto
import Metasyntax.Match

/-!
# What a match set holds

Every operation on match sets is known by two facts: which offsets its matches
stop at, and where each of its matches comes from. Nothing else about their
order of insertion is used further on.
-/

set_option autoImplicit false

namespace Metasyntax

namespace Match

theorem exists_stop_insertInto (m : Match) (l : List Match) (e : Nat) :
    (∃ x ∈ insertInto m l, x.stop = e) ↔ m.stop = e ∨ ∃ x ∈ l, x.stop = e := by
  induction l with
  | nil => simp [insertInto]
  | cons other rest ih =>
    rw [insertInto]
    split
    · simp
    · split
      case isTrue hsame => simp [hsame]
      case isFalse => simp only [List.mem_cons, exists_eq_or_imp, ih]; tauto

end Match

namespace MatchSet

@[ext] theorem ext {a b : MatchSet} (h : a.toList = b.toList) : a = b := by
  cases a
  cases b
  cases h
  rfl

theorem mem_stops {set : MatchSet} {e : Nat} : e ∈ set.stops ↔ ∃ m ∈ set.toList, m.stop = e := by
  simp [stops]

theorem stops_pairwise (set : MatchSet) : set.stops.Pairwise (· > ·) :=
  List.pairwise_map.2 set.ordered

@[simp] theorem toList_empty : (∅ : MatchSet).toList = [] := rfl

@[simp] theorem stops_empty : (∅ : MatchSet).stops = [] := rfl

@[simp] theorem toList_single (m : Match) : (single m).toList = [m] := rfl

@[simp] theorem stops_single (m : Match) : (single m).stops = [m.stop] := rfl

theorem isEmpty_iff {set : MatchSet} : set.isEmpty = true ↔ set.stops = [] := by
  simp [isEmpty, stops]

theorem hasStop_search_iff (e : Nat) (l : List Match)
    (ordered : l.Pairwise fun a b => b.stop < a.stop) :
    hasStop.search e l = true ↔ ∃ m ∈ l, m.stop = e := by
  induction l with
  | nil => simp [hasStop.search]
  | cons m rest ih =>
    obtain ⟨hm, hrest⟩ := List.pairwise_cons.1 ordered
    rw [hasStop.search]
    split
    case isTrue h => simp [h]
    case isFalse h =>
      split
      case isTrue hlt =>
        simp only [Bool.false_eq_true, List.mem_cons, exists_eq_or_imp, h, false_or, false_iff]
        rintro ⟨x, hx, rfl⟩
        have := hm x hx
        omega
      case isFalse => simp [h, ih hrest]

@[simp] theorem hasStop_iff {set : MatchSet} {e : Nat} : set.hasStop e = true ↔ e ∈ set.stops := by
  rw [hasStop, hasStop_search_iff e _ set.ordered, mem_stops]

theorem mem_insert {set : MatchSet} {m x : Match} (h : x ∈ (set.insert m).toList) :
    x = m ∨ x ∈ set.toList :=
  Match.mem_insertInto h

@[simp] theorem mem_stops_insert {set : MatchSet} {m : Match} {e : Nat} :
    e ∈ (set.insert m).stops ↔ m.stop = e ∨ e ∈ set.stops := by
  simp only [mem_stops]
  exact Match.exists_stop_insertInto m set.toList e

theorem mem_foldl_insert {l : List Match} {set : MatchSet} {x : Match}
    (h : x ∈ (l.foldl insert set).toList) : x ∈ set.toList ∨ x ∈ l := by
  induction l generalizing set with
  | nil => exact Or.inl h
  | cons m rest ih =>
    rcases ih h with h | h
    · rcases mem_insert h with rfl | h
      · exact Or.inr (by simp)
      · exact Or.inl h
    · exact Or.inr (List.mem_cons_of_mem _ h)

theorem mem_stops_foldl_insert (l : List Match) (set : MatchSet) (e : Nat) :
    e ∈ (l.foldl insert set).stops ↔ e ∈ set.stops ∨ ∃ m ∈ l, m.stop = e := by
  induction l generalizing set with
  | nil => simp
  | cons m rest ih =>
    simp only [List.foldl_cons, ih, mem_stops_insert, List.mem_cons, exists_eq_or_imp]
    tauto

theorem mem_union {a b : MatchSet} {x : Match} (h : x ∈ (a.union b).toList) :
    x ∈ a.toList ∨ x ∈ b.toList :=
  mem_foldl_insert h

@[simp] theorem mem_stops_union {a b : MatchSet} {e : Nat} :
    e ∈ (a.union b).stops ↔ e ∈ a.stops ∨ e ∈ b.stops := by
  rw [union, mem_stops_foldl_insert, @mem_stops b]

def carry (known : MatchSet) (head : Match) (found : MatchSet) (tail : Match) : MatchSet :=
  if known.hasStop tail.stop || found.hasStop tail.stop then found
  else found.insert (head.followedBy tail)

theorem mem_carry {known found : MatchSet} {head tail x : Match}
    (h : x ∈ (carry known head found tail).toList) : x = head.followedBy tail ∨ x ∈ found.toList := by
  rw [carry] at h
  split at h
  · exact Or.inr h
  · exact mem_insert h

theorem mem_stops_carry {known found : MatchSet} {head tail : Match} {e : Nat} :
    e ∈ (carry known head found tail).stops ↔
      e ∈ found.stops ∨ tail.stop = e ∧ e ∉ known.stops := by
  rw [carry]
  split
  case isTrue h =>
    simp only [Bool.or_eq_true, hasStop_iff] at h
    grind
  case isFalse h =>
    simp only [Bool.or_eq_true, hasStop_iff, not_or] at h
    simp only [mem_stops_insert, Match.followedBy]
    grind

theorem mem_extend {set known : MatchSet} {head : Match} {tails : MatchSet} {x : Match}
    (h : x ∈ (set.extend known head tails).toList) :
    x ∈ set.toList ∨ ∃ tail ∈ tails.toList, x = head.followedBy tail := by
  change x ∈ (tails.toList.foldl (carry known head) set).toList at h
  generalize tails.toList = l at h ⊢
  induction l generalizing set with
  | nil => exact Or.inl h
  | cons tail rest ih =>
    rcases ih h with h | ⟨t, ht, rfl⟩
    · rcases mem_carry h with rfl | h
      · exact Or.inr ⟨tail, by simp, rfl⟩
      · exact Or.inl h
    · exact Or.inr ⟨t, by simp [ht], rfl⟩

@[simp] theorem mem_stops_extend {set known : MatchSet} {head : Match} {tails : MatchSet}
    {e : Nat} :
    e ∈ (set.extend known head tails).stops ↔
      e ∈ set.stops ∨ e ∈ tails.stops ∧ e ∉ known.stops := by
  change e ∈ (tails.toList.foldl (carry known head) set).stops ↔ _
  rw [@mem_stops tails]
  induction tails.toList generalizing set with
  | nil => simp
  | cons tail rest ih =>
    simp only [List.foldl_cons, ih, mem_stops_carry, List.mem_cons, exists_eq_or_imp]
    tauto

@[simp] theorem stops_mapNodes (f : List Node → List Node) (set : MatchSet) :
    (set.mapNodes f).stops = set.stops := by
  simp [stops, mapNodes]

theorem mem_mapNodes {f : List Node → List Node} {set : MatchSet} {x : Match} :
    x ∈ (set.mapNodes f).toList ↔ ∃ m ∈ set.toList, (⟨f m.nodes, m.stop⟩ : Match) = x := by
  simp [mapNodes]

theorem mem_filter {p : Match → Bool} {set : MatchSet} {x : Match} :
    x ∈ (set.filter p).toList ↔ x ∈ set.toList ∧ p x = true := by
  simp [filter]

theorem mem_stops_filter (p : Nat → Bool) {set : MatchSet} {e : Nat} :
    e ∈ (set.filter fun m => p m.stop).stops ↔ e ∈ set.stops ∧ p e = true := by
  simp only [mem_stops, mem_filter]
  constructor
  · rintro ⟨m, ⟨hm, hp⟩, rfl⟩
    exact ⟨⟨m, hm, rfl⟩, hp⟩
  · rintro ⟨⟨m, hm, rfl⟩, hp⟩
    exact ⟨m, ⟨hm, hp⟩, rfl⟩

theorem longest?_eq_head? (set : MatchSet) : set.longest? = set.toList.head? := rfl

theorem stop_le_of_longest? {set : MatchSet} {m x : Match} (hm : set.longest? = some m)
    (hx : x ∈ set.toList) : x.stop ≤ m.stop := by
  obtain ⟨l, hl⟩ := List.head?_eq_some_iff.1 hm
  have hordered := set.ordered
  rw [hl] at hordered hx
  rcases List.mem_cons.1 hx with rfl | hx
  · exact Nat.le_refl _
  · exact Nat.le_of_lt ((List.pairwise_cons.1 hordered).1 x hx)

end MatchSet

end Metasyntax
