import Mathlib.Data.List.Nodup
import Std.Data.HashMap.Lemmas
import Std.Data.TreeMap.Lemmas
import Metasyntax.Cache
import Metasyntax.Enumeration

/-!
# The order of use

A cache behaves as a list of entries, least recently used first, of bounded length. The
stamps of the entries are what ties the two together: they grow along the list, and the
cache's clock is never behind them, so that a use with the next tick goes to the end of the
list and the least stamp is the head's.
-/

set_option autoImplicit false

namespace Metasyntax

/-- Entries under keys, least recently used first, and the number of them that there may be. -/
structure Recents (κ α : Type) where
  capacity : Capacity
  entries : List (κ × α)

namespace Recents

variable {κ α : Type}

def empty (capacity : Capacity) : Recents κ α := ⟨capacity, []⟩

def keys (recents : Recents κ α) : List κ := recents.entries.map (·.1)

def append (recents : Recents κ α) (key : κ) (entry : α) : Recents κ α :=
  { recents with entries := recents.entries ++ [(key, entry)] }

def dropHead (recents : Recents κ α) : Recents κ α :=
  { recents with entries := recents.entries.tail }

variable [BEq κ]

def find? (recents : Recents κ α) (key : κ) : Option α := recents.entries.lookup key

def without (recents : Recents κ α) (key : κ) : Recents κ α :=
  { recents with entries := recents.entries.filter (·.1 != key) }

def get (recents : Recents κ α) (key : κ) : Option α × Recents κ α :=
  match recents.find? key with
  | some entry => (some entry, (recents.without key).append key entry)
  | none => (none, recents)

def insert (recents : Recents κ α) (key : κ) (entry : α) : Recents κ α :=
  match recents.find? key with
  | some _ => (recents.without key).append key entry
  | none =>
    if recents.capacity.val ≤ recents.entries.length then recents.dropHead.append key entry
    else recents.append key entry

def perform : CacheCommand κ α → Recents κ α → CacheResult α × Recents κ α
  | .get key, recents =>
    let (found, recents) := recents.get key
    (.ofOption found, recents)
  | .peek key, recents => (.ofOption (recents.find? key), recents)
  | .contains key, recents => (.flag (recents.find? key).isSome, recents)
  | .remove key, recents => (.ofOption (recents.find? key), recents.without key)
  | .insert key entry, recents => (.nothing, recents.insert key entry)
  | .clear, recents => (.nothing, .empty recents.capacity)

end Recents

namespace CacheCommand

variable {κ α : Type}

def performAll {σ : Type} (perform : CacheCommand κ α → σ → CacheResult α × σ) :
    List (CacheCommand κ α) → σ → List (CacheResult α) × σ
  | [], state => ([], state)
  | command :: rest, state =>
    let (result, state) := perform command state
    let (results, state) := performAll perform rest state
    (result :: results, state)

def lookups (count : Nat) : List (CacheCommand κ α) → Nat
  | [] => count
  | .get _ :: rest => lookups (count + 1) rest
  | .clear :: rest => lookups 0 rest
  | _ :: rest => lookups count rest

end CacheCommand

/-- No command changes how many entries there may be. -/
theorem Recents.capacity_performAll {κ α : Type} [BEq κ] (commands : List (CacheCommand κ α))
    (recents : Recents κ α) :
    (CacheCommand.performAll Recents.perform commands recents).2.capacity = recents.capacity := by
  induction commands generalizing recents with
  | nil => rfl
  | cons command rest ih =>
    refine (ih (recents.perform command).2).trans ?_
    cases command with
    | get key =>
      change (recents.get key).2.capacity = recents.capacity
      unfold get
      split <;> rfl
    | insert key entry =>
      change (recents.insert key entry).capacity = recents.capacity
      unfold insert
      split
      · rfl
      · split <;> rfl
    | peek key => rfl
    | contains key => rfl
    | remove key => rfl
    | clear => rfl

structure Use (κ α : Type) where
  key : κ
  entry : α
  stamp : Nat

section
variable {κ α : Type}

structure Timeline (tick : Nat) (uses : List (Use κ α)) : Prop where
  sorted : uses.Pairwise fun first second => first.stamp < second.stamp
  distinct : (uses.map (·.key)).Nodup
  stamped : ∀ use ∈ uses, use.stamp ≤ tick

namespace Timeline

variable {tick : Nat} {uses rest : List (Use κ α)}

theorem sublist (h : Timeline tick uses) (hrest : rest.Sublist uses) : Timeline tick rest where
  sorted := h.sorted.sublist hrest
  distinct := h.distinct.sublist (hrest.map _)
  stamped use huse := h.stamped use (hrest.subset huse)

/-- The next tick goes to the end. -/
theorem append (h : Timeline tick uses) {key : κ} (hnew : ∀ use ∈ uses, use.key ≠ key) (entry : α) :
    Timeline (tick + 1) (uses ++ [⟨key, entry, tick + 1⟩]) where
  sorted := by
    refine List.pairwise_append.2
      ⟨h.sorted, List.pairwise_singleton _ _, fun use huse next hnext => ?_⟩
    rw [List.mem_singleton.1 hnext]
    exact Nat.lt_succ_of_le (h.stamped use huse)
  distinct := by
    rw [List.map_append, List.map_singleton, List.nodup_append]
    refine ⟨h.distinct, List.nodup_singleton _, fun first hfirst second hsecond => ?_⟩
    obtain ⟨use, huse, rfl⟩ := List.mem_map.1 hfirst
    rw [List.mem_singleton.1 hsecond]
    exact hnew use huse
  stamped use huse := by
    rcases List.mem_append.1 huse with huse | huse
    · exact Nat.le_succ_of_le (h.stamped use huse)
    · obtain rfl := List.mem_singleton.1 huse
      exact Nat.le_refl _

theorem eq_of_key (h : Timeline tick uses) {first second : Use κ α} (hfirst : first ∈ uses)
    (hsecond : second ∈ uses) (hkey : first.key = second.key) : first = second :=
  List.inj_on_of_nodup_map h.distinct hfirst hsecond hkey

theorem nodup_stamps (h : Timeline tick uses) : (uses.map (·.stamp)).Nodup :=
  List.pairwise_map.2 (h.sorted.imp Nat.ne_of_lt)

theorem eq_of_stamp (h : Timeline tick uses) {first second : Use κ α} (hfirst : first ∈ uses)
    (hsecond : second ∈ uses) (hstamp : first.stamp = second.stamp) : first = second :=
  List.inj_on_of_nodup_map h.nodup_stamps hfirst hsecond hstamp

end Timeline

def entriesOf (uses : List (Use κ α)) : List (κ × α) := uses.map fun use => (use.key, use.entry)

variable [BEq κ]

theorem filter_entriesOf (uses : List (Use κ α)) (key : κ) :
    (entriesOf uses).filter (·.1 != key) = entriesOf (uses.filter (·.key != key)) := by
  rw [entriesOf, entriesOf, List.filter_map]
  rfl

theorem lookup_entriesOf [LawfulBEq κ] {uses : List (Use κ α)}
    (h : (uses.map (·.key)).Nodup) {key : κ} {entry : α} :
    (entriesOf uses).lookup key = some entry ↔ ∃ stamp, ⟨key, entry, stamp⟩ ∈ uses := by
  induction uses with
  | nil => simp [entriesOf]
  | cons use rest ih =>
    obtain ⟨hnew, hrest⟩ := List.nodup_cons.1 h
    rw [entriesOf, List.map_cons, List.lookup_cons]
    by_cases hkey : key = use.key
    · subst hkey
      rw [beq_self_eq_true, Option.some_inj]
      refine ⟨fun hentry => ⟨use.stamp, by rw [← hentry]; exact List.mem_cons_self⟩, ?_⟩
      rintro ⟨stamp, huse⟩
      rcases List.mem_cons.1 huse with huse | huse
      · rw [← huse]
      · exact absurd (List.mem_map_of_mem huse) hnew
    · rw [beq_false_of_ne hkey]
      refine (ih hrest).trans (exists_congr fun stamp => ⟨List.mem_cons_of_mem _, fun huse => ?_⟩)
      rcases List.mem_cons.1 huse with huse | huse
      · exact absurd (by rw [← huse]) hkey
      · exact huse

end

section
open Std.DTreeMap.Internal
variable {κ α : Type}

theorem values_eq_map_snd_toList (map : Std.TreeMap Nat κ) :
    map.values = map.toList.map Prod.snd := by
  have hvalues : map.values = map.inner.inner.toListModel.map Sigma.snd := Impl.values_eq_map_snd
  have hlist : map.toList = map.inner.inner.toListModel.map fun e => (e.1, e.2) :=
    Impl.Const.toList_eq_toListModel_map
  rw [hvalues, hlist, List.map_map]
  rfl

theorem minEntry?_eq_head?_toListModel (tree : Impl Nat fun _ => κ) :
    Impl.Const.minEntry? tree = tree.toListModel.head?.map fun e => (e.1, e.2) := by
  fun_induction Impl.Const.minEntry? tree with
  | case1 => rfl
  | case2 => rfl
  | case3 size key value size' key' value' left right rest ih =>
    rw [ih, Impl.toListModel_inner (l := .inner size' key' value' left right)]
    rw [List.head?_append_of_ne_nil]
    simp [Impl.toListModel_inner]

theorem minEntry?_eq_head?_toList (map : Std.TreeMap Nat κ) : map.minEntry? = map.toList.head? := by
  have hlist : map.toList = map.inner.inner.toListModel.map fun e => (e.1, e.2) :=
    Impl.Const.toList_eq_toListModel_map
  rw [hlist, List.head?_map]
  exact minEntry?_eq_head?_toListModel _

end

namespace Cache

variable {κ α : Type} [BEq κ] [Hashable κ]

structure Ordered (cache : Cache κ α) (uses : List (Use κ α)) : Prop where
  timeline : Timeline cache.tick uses
  recency : ∀ stamp key, cache.recency[stamp]? = some key ↔ ∃ entry, ⟨key, entry, stamp⟩ ∈ uses
  entries : ∀ key entry stamp,
    cache.entries[key]? = some (entry, stamp) ↔ ⟨key, entry, stamp⟩ ∈ uses
  bounded : uses.length ≤ cache.maxSize.val

structure Vacant (cache : Cache κ α) (key : κ) (uses : List (Use κ α)) : Prop where
  timeline : Timeline cache.tick uses
  recency : ∀ stamp other, cache.recency[stamp]? = some other ↔
    ∃ entry, ⟨other, entry, stamp⟩ ∈ uses
  entries : ∀ other, other ≠ key → ∀ entry stamp,
    cache.entries[other]? = some (entry, stamp) ↔ ⟨other, entry, stamp⟩ ∈ uses
  new : ∀ use ∈ uses, use.key ≠ key
  room : uses.length < cache.maxSize.val

def place (cache : Cache κ α) (key : κ) (entry : α) : Cache κ α :=
  { cache with
    tick := cache.tick + 1
    recency := cache.recency.insert (cache.tick + 1) key
    entries := cache.entries.insert key (entry, cache.tick + 1) }

variable {cache : Cache κ α} {uses : List (Use κ α)} {key : κ}

theorem Vacant.place [LawfulBEq κ] (h : cache.Vacant key uses) (entry : α) :
    (cache.place key entry).Ordered (uses ++ [⟨key, entry, cache.tick + 1⟩]) where
  timeline := h.timeline.append h.new entry
  recency stamp other := by
    simp only [Cache.place, Std.TreeMap.getElem?_insert, Std.LawfulEqCmp.compare_eq_iff_eq]
    split
    case isTrue hstamp =>
      subst hstamp
      simp only [Option.some_inj, List.mem_append, List.mem_singleton, Use.mk.injEq]
      refine ⟨fun hkey => ⟨entry, Or.inr ⟨hkey.symm, rfl, trivial⟩⟩, ?_⟩
      rintro ⟨entry', huse | ⟨rfl, -, -⟩⟩
      · exact absurd (h.timeline.stamped _ huse) (Nat.not_succ_le_self _)
      · rfl
    case isFalse hstamp =>
      simp only [h.recency, List.mem_append, List.mem_singleton, Use.mk.injEq]
      exact exists_congr fun _ =>
        ⟨Or.inl, fun huse => huse.resolve_right fun h => hstamp h.2.2.symm⟩
  entries other entry' stamp := by
    rw [Cache.place, Std.HashMap.getElem?_insert, List.mem_append, List.mem_singleton, Use.mk.injEq]
    by_cases hkey : key = other
    · subst hkey
      rw [beq_self_eq_true, if_pos rfl, Option.some_inj, Prod.mk.injEq]
      refine ⟨fun h => Or.inr ⟨rfl, h.1.symm, h.2.symm⟩, ?_⟩
      rintro (huse | ⟨-, rfl, rfl⟩)
      · exact absurd rfl (h.new _ huse)
      · exact ⟨rfl, rfl⟩
    · rw [beq_false_of_ne hkey, if_neg Bool.false_ne_true, h.entries other (Ne.symm hkey)]
      exact ⟨Or.inl, fun huse => huse.resolve_right fun h => hkey h.1.symm⟩
  bounded := by
    rw [List.length_append]
    exact h.room

namespace Ordered

/-- A key that is found loses its place in the order. -/
theorem vacant_of_found [LawfulBEq κ] (h : cache.Ordered uses) {entry : α} {stamp : Nat}
    (hfound : cache.entries[key]? = some (entry, stamp)) :
    Vacant { cache with recency := cache.recency.erase stamp } key
      (uses.filter (·.key != key)) where
  timeline := h.timeline.sublist List.filter_sublist
  recency stamp' other := by
    have huse := (h.entries key entry stamp).1 hfound
    simp only [Std.TreeMap.getElem?_erase, Std.LawfulEqCmp.compare_eq_iff_eq, List.mem_filter,
      bne_iff_ne]
    split
    case isTrue hstamp =>
      subst hstamp
      refine ⟨nofun, ?_⟩
      rintro ⟨entry', huse', hne⟩
      exact absurd (congrArg Use.key (h.timeline.eq_of_stamp huse' huse rfl)) hne
    case isFalse hstamp =>
      rw [h.recency]
      refine exists_congr fun entry' => ⟨fun huse' => ⟨huse', fun hkey => hstamp ?_⟩, And.left⟩
      exact congrArg Use.stamp (h.timeline.eq_of_key huse huse' hkey.symm)
  entries other hother entry' stamp' := by
    rw [h.entries, List.mem_filter, bne_iff_ne]
    exact (and_iff_left hother).symm
  new use huse := by simpa using (List.mem_filter.1 huse).2
  room := by
    have huse := (h.entries key entry stamp).1 hfound
    refine Nat.lt_of_lt_of_le ?_ h.bounded
    exact List.length_filter_lt_length_iff_exists.2 ⟨_, huse, by simp⟩

theorem ne_of_new (h : cache.Ordered uses) (hnew : cache.entries[key]? = none) :
    ∀ use ∈ uses, use.key ≠ key := by
  intro use huse hkey
  have hfound := (h.entries use.key use.entry use.stamp).2 huse
  rw [hkey, hnew] at hfound
  cases hfound

theorem vacant_of_room (h : cache.Ordered uses) (hnew : cache.entries[key]? = none)
    (hroom : uses.length < cache.maxSize.val) : cache.Vacant key uses where
  timeline := h.timeline
  recency := h.recency
  entries other _ := h.entries other
  new := h.ne_of_new hnew
  room := hroom

/-- The index of stamps lists the keys in the order of their uses. -/
theorem toList_recency (h : cache.Ordered uses) :
    cache.recency.toList = uses.map fun use => (use.stamp, use.key) := by
  have hsorted : cache.recency.toList.Pairwise fun first second => first.1 < second.1 :=
    Std.TreeMap.ordered_keys_toList.imp Nat.compare_eq_lt.1
  have hsorted' : (uses.map fun use => (use.stamp, use.key)).Pairwise
      fun first second => first.1 < second.1 := List.pairwise_map.2 h.timeline.sorted
  have hnodup {l : List (Nat × κ)} (hl : l.Pairwise fun first second => first.1 < second.1) :
      l.Nodup := hl.imp fun hlt heq => absurd hlt (by rw [heq]; exact Nat.lt_irrefl _)
  refine List.Perm.eq_of_pairwise
    (fun first second _ _ hlt hlt' => absurd hlt (Nat.lt_asymm hlt')) hsorted hsorted'
    ((List.perm_ext_iff_of_nodup (hnodup hsorted) (hnodup hsorted')).2 fun ⟨stamp, key⟩ => ?_)
  rw [Std.TreeMap.mem_toList_iff_getElem?_eq_some, h.recency, List.mem_map]
  constructor
  · rintro ⟨entry, huse⟩
    exact ⟨_, huse, rfl⟩
  · rintro ⟨use, huse, heq⟩
    cases heq
    exact ⟨use.entry, huse⟩

theorem keys_eq (h : cache.Ordered uses) : cache.keys = uses.map (·.key) := by
  rw [keys, values_eq_map_snd_toList, h.toList_recency, List.map_map]
  rfl

theorem minEntry?_eq (h : cache.Ordered uses) :
    cache.recency.minEntry? = uses.head?.map fun use => (use.stamp, use.key) := by
  rw [minEntry?_eq_head?_toList, h.toList_recency, List.head?_map]

theorem size_eq [LawfulBEq κ] (h : cache.Ordered uses) : cache.entries.size = uses.length := by
  have hnodup : cache.entries.toList.Nodup :=
    Std.HashMap.distinct_keys_toList.imp fun hne heq => by simp [heq] at hne
  have hnodup' : (uses.map fun use => (use.key, use.entry, use.stamp)).Nodup :=
    List.Nodup.of_map Prod.fst (by rw [List.map_map]; exact h.timeline.distinct)
  rw [← Std.HashMap.length_toList, ← List.length_map (f := fun use : Use κ α =>
    (use.key, use.entry, use.stamp))]
  refine ((List.perm_ext_iff_of_nodup hnodup hnodup').2 fun ⟨key, entry, stamp⟩ => ?_).length_eq
  rw [Std.HashMap.mem_toList_iff_getElem?_eq_some, h.entries, List.mem_map]
  constructor
  · exact fun huse => ⟨_, huse, rfl⟩
  · rintro ⟨use, huse, heq⟩
    cases heq
    exact huse

/-- The head of a full cache gives way to a new key. -/
theorem vacant_evict [LawfulBEq κ] (h : cache.Ordered uses) (hnew : cache.entries[key]? = none)
    (hfull : cache.maxSize.val ≤ uses.length) : cache.evict.Vacant key uses.tail := by
  obtain ⟨oldest, rest, rfl⟩ := List.exists_cons_of_length_pos
    (Nat.lt_of_lt_of_le cache.maxSize.pos hfull)
  obtain ⟨hstamps, -⟩ := List.pairwise_cons.1 h.timeline.sorted
  have hkeys := (List.nodup_cons.1 h.timeline.distinct).1
  have hevict : cache.evict = { cache with
      recency := cache.recency.erase oldest.stamp, entries := cache.entries.erase oldest.key } := by
    rw [evict, h.minEntry?_eq]
    rfl
  rw [hevict]
  refine ⟨h.timeline.sublist (List.sublist_cons_self _ _), fun stamp other => ?_,
    fun other hother entry stamp => ?_,
    fun use huse => h.ne_of_new hnew use (List.mem_cons_of_mem _ huse), h.bounded⟩
  · simp only [Std.TreeMap.getElem?_erase, Std.LawfulEqCmp.compare_eq_iff_eq]
    split
    case isTrue hstamp =>
      subst hstamp
      refine ⟨nofun, fun ⟨entry, huse⟩ => absurd (hstamps _ huse) (Nat.lt_irrefl _)⟩
    case isFalse hstamp =>
      rw [h.recency]
      refine exists_congr fun entry => ⟨fun huse => ?_, List.mem_cons_of_mem _⟩
      exact (List.mem_cons.1 huse).resolve_left fun heq => hstamp (congrArg Use.stamp heq).symm
  · rw [Std.HashMap.getElem?_erase]
    by_cases hkey : oldest.key = other
    · subst hkey
      rw [beq_self_eq_true, if_pos rfl]
      exact ⟨nofun, fun huse => absurd (List.mem_map_of_mem huse) hkeys⟩
    · rw [beq_false_of_ne hkey, if_neg Bool.false_ne_true, h.entries]
      refine ⟨fun huse => ?_, List.mem_cons_of_mem _⟩
      exact (List.mem_cons.1 huse).resolve_left fun heq => hkey (congrArg Use.key heq).symm

theorem vacant_makeRoom [LawfulBEq κ] (h : cache.Ordered uses) (hnew : cache.entries[key]? = none) :
    (cache.makeRoom key).Vacant key
      (if cache.maxSize.val ≤ uses.length then uses.tail else uses) := by
  simp only [makeRoom, hnew, h.size_eq]
  split
  case isTrue hfull => exact h.vacant_evict hnew hfull
  case isFalse hroom => exact h.vacant_of_room hnew (Nat.lt_of_not_le hroom)

/-- A key that is removed leaves both maps. -/
theorem remove [LawfulBEq κ] (h : cache.Ordered uses) {entry : α} {stamp : Nat}
    (hfound : cache.entries[key]? = some (entry, stamp)) :
    Ordered { cache with
      entries := cache.entries.erase key, recency := cache.recency.erase stamp }
      (uses.filter (·.key != key)) := by
  have hvacant := h.vacant_of_found hfound
  refine ⟨hvacant.timeline, hvacant.recency, fun other entry' stamp' => ?_,
    Nat.le_of_lt hvacant.room⟩
  rw [Std.HashMap.getElem?_erase]
  by_cases hkey : key = other
  · subst hkey
    rw [beq_self_eq_true, if_pos rfl]
    exact ⟨nofun, fun huse => absurd rfl (hvacant.new _ huse)⟩
  · rw [beq_false_of_ne hkey, if_neg Bool.false_ne_true]
    exact hvacant.entries other (Ne.symm hkey) entry' stamp'

/-- What the maps have under a key is what the list has. -/
theorem lookup_eq [LawfulBEq κ] (h : cache.Ordered uses) (key : κ) :
    (entriesOf uses).lookup key = cache.peek key := by
  apply Option.ext
  intro entry
  rw [lookup_entriesOf h.timeline.distinct, peek, Option.map_eq_some_iff]
  constructor
  · rintro ⟨stamp, huse⟩
    exact ⟨(entry, stamp), (h.entries key entry stamp).2 huse, rfl⟩
  · rintro ⟨⟨entry', stamp⟩, hfound, rfl⟩
    exact ⟨stamp, (h.entries key entry' stamp).1 hfound⟩

end Ordered

def Represents (cache : Cache κ α) (recents : Recents κ α) : Prop :=
  ∃ uses, cache.Ordered uses ∧ recents = ⟨cache.maxSize, entriesOf uses⟩

theorem makeRoom_tick (cache : Cache κ α) (key : κ) : (cache.makeRoom key).tick = cache.tick := by
  unfold makeRoom evict
  split
  · rfl
  · split
    · split <;> rfl
    · rfl

theorem makeRoom_maxSize (cache : Cache κ α) (key : κ) :
    (cache.makeRoom key).maxSize = cache.maxSize := by
  unfold makeRoom evict
  split
  · rfl
  · split
    · split <;> rfl
    · rfl

theorem insert_eq_place (cache : Cache κ α) (key : κ) (entry : α) :
    cache.insert key entry = (cache.makeRoom key).place key entry := by
  rw [insert, place, makeRoom_tick]

namespace Represents

variable {recents : Recents κ α}

theorem empty (capacity : Capacity) :
    (Cache.empty capacity : Cache κ α).Represents (.empty capacity) :=
  ⟨[], ⟨⟨.nil, .nil, nofun⟩, fun _ _ => by simp [Cache.empty],
    fun _ _ _ => by simp [Cache.empty], Nat.zero_le _⟩, rfl⟩

theorem clear (h : cache.Represents recents) :
    cache.clear.Represents (.empty recents.capacity) := by
  obtain ⟨uses, -, rfl⟩ := h
  exact ⟨[], ⟨⟨.nil, .nil, nofun⟩, fun _ _ => by simp [Cache.clear],
    fun _ _ _ => by simp [Cache.clear], Nat.zero_le _⟩, rfl⟩

variable [LawfulBEq κ]

theorem find?_eq (h : cache.Represents recents) (key : κ) : recents.find? key = cache.peek key := by
  obtain ⟨uses, huses, rfl⟩ := h
  exact huses.lookup_eq key

theorem place (h : cache.Vacant key uses) (entry : α) :
    (cache.place key entry).Represents
      (Recents.append ⟨cache.maxSize, entriesOf uses⟩ key entry) :=
  ⟨_, h.place entry, by simp [Recents.append, entriesOf, Cache.place]⟩

theorem renew (huses : cache.Ordered uses) {entry : α} {stamp : Nat}
    (hfound : cache.entries[key]? = some (entry, stamp)) (entry' : α) :
    (Cache.place { cache with recency := cache.recency.erase stamp } key entry').Represents
      ((Recents.without ⟨cache.maxSize, entriesOf uses⟩ key).append key entry') := by
  rw [Recents.without, filter_entriesOf]
  exact place (huses.vacant_of_found hfound) entry'

theorem touch (h : cache.Represents recents) (key : κ) :
    (cache.touch key).Represents (recents.get key).2 := by
  rw [Recents.get, h.find?_eq, peek]
  obtain ⟨uses, huses, rfl⟩ := h
  unfold Cache.touch
  cases hfound : cache.entries[key]? with
  | none =>
    have htimeline := huses.timeline
    exact ⟨uses, ⟨⟨htimeline.sorted, htimeline.distinct, fun use huse =>
      Nat.le_succ_of_le (htimeline.stamped use huse)⟩, huses.recency, huses.entries,
      huses.bounded⟩, rfl⟩
  | some found =>
    obtain ⟨uses', huses', hentries⟩ := renew huses hfound found.1
    exact ⟨uses', ⟨huses'.timeline, huses'.recency, huses'.entries, huses'.bounded⟩, hentries⟩

theorem insert (h : cache.Represents recents) (key : κ) (entry : α) :
    (cache.insert key entry).Represents (recents.insert key entry) := by
  rw [Recents.insert, h.find?_eq, insert_eq_place, peek]
  obtain ⟨uses, huses, rfl⟩ := h
  cases hfound : cache.entries[key]? with
  | none =>
    have hplace := place (huses.vacant_makeRoom hfound) entry
    rw [makeRoom_maxSize] at hplace
    simp only [Option.map_none, entriesOf, List.length_map]
    split at hplace
    case isTrue hfull =>
      rw [if_pos hfull, Recents.dropHead, ← List.map_tail]
      exact hplace
    case isFalse hroom =>
      rw [if_neg hroom]
      exact hplace
  | some found =>
    simp only [makeRoom, hfound]
    exact renew huses hfound entry

theorem remove (h : cache.Represents recents) (key : κ) :
    (cache.remove key).2.Represents (recents.without key) := by
  obtain ⟨uses, huses, rfl⟩ := h
  rw [Recents.without, filter_entriesOf]
  unfold Cache.remove
  cases hfound : cache.entries[key]? with
  | none =>
    rw [List.filter_eq_self.2 fun use huse => bne_iff_ne.2 (huses.ne_of_new hfound use huse)]
    exact ⟨uses, huses, rfl⟩
  | some found => exact ⟨_, huses.remove hfound, rfl⟩

/-- Each command does to a cache what it does to the list, and gives the same result. -/
theorem perform (h : cache.Represents recents) (command : CacheCommand κ α) :
    (command.perform cache).1 = (recents.perform command).1 ∧
      (command.perform cache).2.Represents (recents.perform command).2 := by
  cases command with
  | get key =>
    refine ⟨?_, h.touch key⟩
    change CacheResult.ofOption (cache.peek key) = .ofOption (recents.get key).1
    rw [← h.find?_eq, Recents.get]
    split <;> simp [*]
  | peek key => exact ⟨congrArg CacheResult.ofOption (h.find?_eq key).symm, h⟩
  | contains key =>
    refine ⟨congrArg CacheResult.flag ?_, h⟩
    rw [h.find?_eq, contains, peek, Option.isSome_map, Std.HashMap.contains_eq_isSome_getElem?]
  | remove key =>
    refine ⟨?_, h.remove key⟩
    change CacheResult.ofOption (cache.remove key).1 = .ofOption (recents.find? key)
    rw [h.find?_eq, peek, Cache.remove]
    split <;> simp [*]
  | insert key entry => exact ⟨rfl, h.insert key entry⟩
  | clear => exact ⟨rfl, h.clear⟩

theorem performAll (h : cache.Represents recents) (commands : List (CacheCommand κ α)) :
    (CacheCommand.performAll CacheCommand.perform commands cache).1 =
        (CacheCommand.performAll Recents.perform commands recents).1 ∧
      (CacheCommand.performAll CacheCommand.perform commands cache).2.Represents
        (CacheCommand.performAll Recents.perform commands recents).2 := by
  induction commands generalizing cache recents with
  | nil => exact ⟨rfl, h⟩
  | cons command rest ih =>
    obtain ⟨hresult, hnext⟩ := h.perform command
    obtain ⟨hresults, hlast⟩ := ih hnext
    exact ⟨congrArg₂ List.cons hresult hresults, hlast⟩

end Represents

/-- A command counts as a look-up if it is one, and emptying the cache starts the count anew. -/
theorem lookups_perform (cache : Cache κ α) (command : CacheCommand κ α) :
    (command.perform cache).2.hits + (command.perform cache).2.misses =
      CacheCommand.lookups (cache.hits + cache.misses) [command] := by
  cases command with
  | get key =>
    change (cache.touch key).hits + (cache.touch key).misses = cache.hits + cache.misses + 1
    unfold touch
    split <;> simp only <;> omega
  | peek key => rfl
  | contains key => rfl
  | remove key =>
    change (cache.remove key).2.hits + (cache.remove key).2.misses = cache.hits + cache.misses
    unfold remove
    split <;> rfl
  | insert key entry =>
    change (cache.insert key entry).hits + (cache.insert key entry).misses =
      cache.hits + cache.misses
    unfold insert makeRoom evict
    split
    · rfl
    · split
      · split <;> rfl
      · rfl
  | clear => rfl

theorem lookups_performAll (commands : List (CacheCommand κ α)) (cache : Cache κ α) :
    let after := (CacheCommand.performAll CacheCommand.perform commands cache).2
    after.hits + after.misses = CacheCommand.lookups (cache.hits + cache.misses) commands := by
  induction commands generalizing cache with
  | nil => rfl
  | cons command rest ih =>
    refine (ih (command.perform cache).2).trans ?_
    rw [lookups_perform]
    cases command <;> rfl

/-- The maps of a cache are inverse to each other, and do not grow beyond its capacity. -/
structure Consistent (cache : Cache κ α) : Prop where
  bounded : cache.size ≤ cache.maxSize.val
  listed : cache.keys.Nodup ∧ ∀ key, key ∈ cache.keys ↔ cache.contains key = true
  inverse : ∀ (stamp : Nat) (key : κ), cache.recency[stamp]? = some key ↔
    ∃ entry : α, cache.entries[key]? = some (entry, stamp)
  distinct : ∀ (first second : κ) (entry entry' : α) (stamp : Nat),
    cache.entries[first]? = some (entry, stamp) →
      cache.entries[second]? = some (entry', stamp) → first = second
  stamped : ∀ (key : κ) (entry : α) (stamp : Nat),
    cache.entries[key]? = some (entry, stamp) → stamp ≤ cache.tick

theorem Ordered.consistent [LawfulBEq κ] (h : cache.Ordered uses) : cache.Consistent where
  bounded := by
    rw [size, h.size_eq]
    exact h.bounded
  listed := by
    rw [h.keys_eq]
    refine ⟨h.timeline.distinct, fun key => ?_⟩
    rw [contains, Std.HashMap.contains_eq_isSome_getElem?, Option.isSome_iff_exists, List.mem_map]
    constructor
    · rintro ⟨use, huse, rfl⟩
      exact ⟨_, (h.entries use.key use.entry use.stamp).2 huse⟩
    · rintro ⟨⟨entry, stamp⟩, hfound⟩
      exact ⟨_, (h.entries key entry stamp).1 hfound, rfl⟩
  inverse stamp key := (h.recency stamp key).trans
    (exists_congr fun entry => (h.entries key entry stamp).symm)
  distinct first second entry entry' stamp hfirst hsecond :=
    congrArg Use.key (h.timeline.eq_of_stamp ((h.entries _ _ _).1 hfirst)
      ((h.entries _ _ _).1 hsecond) rfl)
  stamped key entry stamp hfound := h.timeline.stamped _ ((h.entries _ _ _).1 hfound)

theorem Represents.keys_eq {recents : Recents κ α} (h : cache.Represents recents) :
    cache.keys = recents.keys := by
  obtain ⟨uses, huses, rfl⟩ := h
  rw [huses.keys_eq, Recents.keys, entriesOf, List.map_map]
  rfl

/-- From an empty cache, any commands give the results that they give on a list of entries in
the order of use. The keys come in that order, the two maps of the cache stay inverse to each
other within its capacity, and hits and misses together count the look-ups since it was last
emptied. -/
theorem behaves_as_recents [LawfulBEq κ] (capacity : Capacity)
    (commands : List (CacheCommand κ α)) :
    let ran := CacheCommand.performAll CacheCommand.perform commands (Cache.empty capacity)
    let listed := CacheCommand.performAll Recents.perform commands (Recents.empty capacity)
    ran.1 = listed.1 ∧ ran.2.keys = listed.2.keys ∧ ran.2.size = listed.2.entries.length ∧
      ran.2.maxSize = capacity ∧ ran.2.Consistent ∧
      ran.2.hits + ran.2.misses = CacheCommand.lookups 0 commands := by
  intro ran listed
  obtain ⟨hresults, hrepresents⟩ := (Represents.empty capacity).performAll commands
  have hkeys := hrepresents.keys_eq
  obtain ⟨uses, huses, hrecents⟩ := hrepresents
  refine ⟨hresults, hkeys, ?_, ?_, huses.consistent, lookups_performAll commands _⟩
  · rw [size, huses.size_eq, hrecents, entriesOf, List.length_map]
  · exact (congrArg Recents.capacity hrecents).symm.trans (Recents.capacity_performAll commands _)

def crowding (source : Source) : List (CacheCommand CacheKey Attempt) :=
  [.insert ⟨source, 0⟩ (.ok (.single (.empty 1))), .insert ⟨source, 1⟩ (.ok (.single (.empty 1))),
    .get ⟨source, 0⟩, .insert ⟨source, 2⟩ (.ok (.single (.empty 2))), .get ⟨source, 1⟩]

theorem behaves_as_recents_crowding : LawfulBEq CacheKey ∧
    let source := Source.ofString "abc"
    let ran := CacheCommand.performAll CacheCommand.perform (crowding source)
      (Cache.empty ⟨2, by decide⟩)
    ran.1 = [.nothing, .nothing, .entry (.ok (.single (.empty 1))), .nothing, .nothing] ∧
      ran.2.keys = [⟨source, 0⟩, ⟨source, 2⟩] ∧ ran.2.size = 2 ∧ ran.2.Consistent ∧
      ran.2.hits + ran.2.misses = 2 := by
  have hlisted : CacheCommand.performAll Recents.perform (crowding (.ofString "abc"))
      (Recents.empty ⟨2, by decide⟩) =
        ([.nothing, .nothing, .entry (.ok (.single (.empty 1))), .nothing, .nothing],
          ⟨⟨2, by decide⟩, [(⟨.ofString "abc", 0⟩, .ok (.single (.empty 1))),
            (⟨.ofString "abc", 2⟩, .ok (.single (.empty 2)))]⟩) := by
    have hkeys (source : Source) (first second : Nat) :
        ((⟨source, first⟩ : CacheKey) == ⟨source, second⟩) = (first == second) := by
      rw [Bool.eq_iff_iff, beq_iff_eq, beq_iff_eq, CacheKey.mk.injEq, and_iff_right rfl]
    simp [crowding, CacheCommand.performAll, Recents.perform, Recents.empty, Recents.insert,
      Recents.get, Recents.find?, Recents.without, Recents.append, Recents.dropHead,
      List.lookup_cons, CacheResult.ofOption, hkeys]
  obtain ⟨hresults, hkeys, hsize, -, hconsistent, hlookups⟩ :=
    behaves_as_recents ⟨2, by decide⟩ (crowding (.ofString "abc"))
  rw [hlisted] at hresults hkeys hsize
  exact ⟨inferInstance, hresults, hkeys, hsize, hconsistent, hlookups⟩

end Cache

end Metasyntax
