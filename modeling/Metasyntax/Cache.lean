import Std.Data.HashMap.Basic
import Std.Data.TreeMap.Basic

/-!
# Bounded caches

A map of limited size that forgets the entry used longest ago. Each use is
stamped with a tick of the cache's clock; an index from stamps to keys keeps the
order of use. Look-ups are counted as hits and misses. The operations of a cache are
values too, as commands with their results.
-/

set_option autoImplicit false

namespace Metasyntax

structure Capacity where
  val : Nat
  pos : 0 < val := by decide
  deriving DecidableEq, Repr

instance : Inhabited Capacity := ⟨⟨1, Nat.one_pos⟩⟩

def Capacity.ofNat? (n : Nat) : Option Capacity := if h : 0 < n then some ⟨n, h⟩ else none

structure Cache (κ α : Type) [BEq κ] [Hashable κ] where
  maxSize : Capacity
  /-- The entries, each with the stamp of its last use. -/
  entries : Std.HashMap κ (α × Nat)
  /-- The key that each stamp belongs to. -/
  recency : Std.TreeMap Nat κ
  tick : Nat
  hits : Nat
  misses : Nat

namespace Cache

variable {κ α : Type} [BEq κ] [Hashable κ]

def empty (maxSize : Capacity) : Cache κ α := ⟨maxSize, ∅, ∅, 0, 0, 0⟩

instance : Inhabited (Cache κ α) := ⟨empty default⟩

def peek (cache : Cache κ α) (key : κ) : Option α := (cache.entries[key]?).map (·.1)

def touch (cache : Cache κ α) (key : κ) : Cache κ α :=
  let tick := cache.tick + 1
  match cache.entries[key]? with
  | some (entry, stamp) =>
    { cache with
      tick
      entries := cache.entries.insert key (entry, tick)
      recency := (cache.recency.erase stamp).insert tick key
      hits := cache.hits + 1 }
  | none => { cache with tick, misses := cache.misses + 1 }

def get (cache : Cache κ α) (key : κ) : Option α × Cache κ α := (cache.peek key, cache.touch key)

def evict (cache : Cache κ α) : Cache κ α :=
  match cache.recency.minEntry? with
  | some (stamp, key) =>
    { cache with recency := cache.recency.erase stamp, entries := cache.entries.erase key }
  | none => cache

def makeRoom (cache : Cache κ α) (key : κ) : Cache κ α :=
  match cache.entries[key]? with
  -- An entry that is replaced only gives up its place in the order of use.
  | some (_, stamp) => { cache with recency := cache.recency.erase stamp }
  | none => if cache.maxSize.val ≤ cache.entries.size then cache.evict else cache

def insert (cache : Cache κ α) (key : κ) (entry : α) : Cache κ α :=
  let tick := cache.tick + 1
  let cache := cache.makeRoom key
  { cache with
    tick
    recency := cache.recency.insert tick key
    entries := cache.entries.insert key (entry, tick) }

def remove (cache : Cache κ α) (key : κ) : Option α × Cache κ α :=
  match cache.entries[key]? with
  | some (entry, stamp) =>
    (some entry,
      { cache with entries := cache.entries.erase key, recency := cache.recency.erase stamp })
  | none => (none, cache)

def contains (cache : Cache κ α) (key : κ) : Bool := cache.entries.contains key

def size (cache : Cache κ α) : Nat := cache.entries.size

def isEmpty (cache : Cache κ α) : Bool := cache.entries.isEmpty

def keys (cache : Cache κ α) : List κ := cache.recency.values

def clear (cache : Cache κ α) : Cache κ α :=
  -- The clock goes on.
  { cache with entries := ∅, recency := ∅, hits := 0, misses := 0 }

def render (cache : Cache κ α) : String :=
  "ParseCache(len=" ++ toString cache.size ++ ", max_size=" ++ toString cache.maxSize.val
    ++ ", hits=" ++ toString cache.hits ++ ", misses=" ++ toString cache.misses ++ ")"

end Cache

inductive CacheCommand (κ α : Type) where
  | get (key : κ)
  | peek (key : κ)
  | contains (key : κ)
  | remove (key : κ)
  | insert (key : κ) (entry : α)
  | clear

inductive CacheResult (α : Type) where
  | nothing
  | flag (value : Bool)
  | entry (entry : α)

namespace CacheResult

def ofOption {α : Type} : Option α → CacheResult α
  | some found => .entry found
  | none => .nothing

end CacheResult

namespace CacheCommand

variable {κ α : Type} [BEq κ] [Hashable κ]

def perform : CacheCommand κ α → Cache κ α → CacheResult α × Cache κ α
  | .get key, cache =>
    let (found, cache) := cache.get key
    (.ofOption found, cache)
  | .peek key, cache => (.ofOption (cache.peek key), cache)
  | .contains key, cache => (.flag (cache.contains key), cache)
  | .remove key, cache =>
    let (found, cache) := cache.remove key
    (.ofOption found, cache)
  | .insert key entry, cache => (.nothing, cache.insert key entry)
  | .clear, cache => (.nothing, cache.clear)

end CacheCommand

end Metasyntax
