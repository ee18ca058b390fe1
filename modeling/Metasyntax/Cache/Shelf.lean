import Metasyntax.Cache
import Metasyntax.Parser

/-!
# Registries and shelves of caches

The caches that belong together, in the order they were registered. A registry
does not keep its caches alive, and lists those that are. A shelf has caches under
names and one registry of them, where a cache lives as long as a name stands for it.
-/

set_option autoImplicit false

namespace Metasyntax

structure Registry where
  members : List CacheId
  deriving Inhabited

namespace Registry

def empty : Registry := ⟨[]⟩

def living (registry : Registry) (alive : CacheId → Bool) : List CacheId :=
  registry.members.filter alive

def register (registry : Registry) (alive : CacheId → Bool) (cache : CacheId) : Registry :=
  -- Members that are gone give up their places.
  let known := registry.living alive
  if cache ∈ known then ⟨known⟩ else ⟨known ++ [cache]⟩

def registerAll (registry : Registry) (alive : CacheId → Bool) (caches : List CacheId) : Registry :=
  caches.foldl (·.register alive) registry

end Registry

structure CacheStats where
  caches : Nat
  entries : Nat
  hits : Nat
  misses : Nat
  deriving DecidableEq, Repr

namespace CacheStats

def zero : CacheStats := ⟨0, 0, 0, 0⟩

def add {κ α : Type} [BEq κ] [Hashable κ] (stats : CacheStats) (cache : Cache κ α) : CacheStats :=
  ⟨stats.caches + 1, stats.entries + cache.size, stats.hits + cache.hits,
    stats.misses + cache.misses⟩

def ofCaches {κ α : Type} [BEq κ] [Hashable κ] (caches : List (Cache κ α)) : CacheStats :=
  caches.foldl add zero

end CacheStats

structure Shelf (κ α : Type) [BEq κ] [Hashable κ] where
  caches : Array (Cache κ α)
  names : List (String × CacheId)
  registry : Registry

inductive ShelfCommand (κ α : Type) where
  /-- A new cache under a name, in place of the one that had it. -/
  | new (name : String) (capacity : Capacity)
  | register (name : String)
  | drop (name : String)
  /-- Empties every registered cache but the one under the name given. -/
  | clearAll (held : Option String)
  | use (name : String) (command : CacheCommand κ α)

namespace Shelf

variable {κ α : Type} [BEq κ] [Hashable κ]

def empty : Shelf κ α := ⟨#[], [], .empty⟩

def find? (shelf : Shelf κ α) (name : String) : Option CacheId := shelf.names.lookup name

def alive (shelf : Shelf κ α) (cache : CacheId) : Bool := shelf.names.any (·.2 = cache)

def living (shelf : Shelf κ α) : List (Cache κ α) :=
  (shelf.registry.living shelf.alive).filterMap fun cache => shelf.caches[cache.index]?

def stats (shelf : Shelf κ α) : CacheStats := .ofCaches shelf.living

def forget (shelf : Shelf κ α) (name : String) : List (String × CacheId) :=
  shelf.names.filter (·.1 ≠ name)

def perform (shelf : Shelf κ α) : ShelfCommand κ α → Option (CacheResult α × Shelf κ α)
  | .new name capacity =>
    some (.nothing,
      { shelf with
        caches := shelf.caches.push (.empty capacity)
        names := (name, ⟨shelf.caches.size⟩) :: shelf.forget name })
  | .register name => do
    let cache ← shelf.find? name
    return (.nothing, { shelf with registry := shelf.registry.register shelf.alive cache })
  | .drop name => some (.nothing, { shelf with names := shelf.forget name })
  | .clearAll held => do
    let spared ← match held with
      | some name => (shelf.find? name).map some
      | none => some none
    let cleared := (shelf.registry.living shelf.alive).filter fun cache => some cache ≠ spared
    return (.nothing,
      { shelf with
        caches := cleared.foldl (fun caches cache => caches.modify cache.index (·.clear))
          shelf.caches })
  | .use name command => do
    let id ← shelf.find? name
    let cache ← shelf.caches[id.index]?
    let (result, cache) := command.perform cache
    return (result, { shelf with caches := shelf.caches.setIfInBounds id.index cache })

end Shelf

end Metasyntax
