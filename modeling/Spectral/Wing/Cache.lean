import Spectral.Lib.Cache
import Spectral.Wing.Search

/-!
# The wing cache

A store keeps the rows of the wings last searched.  `wingSearch` answers from the cache and
fills it on a miss; what it returns is `rankWing` of the cached rows, so the cache is
invisible exactly as long as it is coherent with `Store.wingRows`.
-/

namespace Spectral

open Spectral.Lib

/-- A cache of the rows of wings. -/
abbrev WingCache := Cache String (List MemoryHit)

/-- `WING_CACHE_CAPACITY`. -/
def wingCacheCapacity : ℕ := 32

/-- The LRU cache of a store. -/
def wingCache : WingCache := Cache.lru String (List MemoryHit) wingCacheCapacity (by decide)

/-- A store and its wing cache. -/
structure CachedStore (L : WingCache) where
  store : Store
  cache : L.State

namespace CachedStore

variable {L : WingCache} (toLowercase : String → String)

/-- The same rows, with nothing cached. -/
def uncached (c : CachedStore L) : CachedStore L := { c with cache := L.empty }

/-- `wing_search`. -/
def wingSearch (c : CachedStore L) (wing : String) (queryTerms : List String)
    (maxResults : ℕ) : CachedStore L × List MemoryHit :=
  match L.peek c.cache wing with
  | some cached =>
    ({ c with cache := L.touch c.cache wing }, rankWing toLowercase queryTerms maxResults cached)
  | none =>
    let fetched := c.store.wingRows wing
    ({ c with cache := L.put (L.touch c.cache wing) wing fetched },
      rankWing toLowercase queryTerms maxResults fetched)

/-- Every cached wing is what the store has for it. -/
def Coherent (c : CachedStore L) : Prop := L.Coherent c.cache c.store.wingRows

variable {toLowercase} {c : CachedStore L} {wing : String} {queryTerms : List String}
  {maxResults : ℕ}

@[simp] theorem store_wingSearch :
    (c.wingSearch toLowercase wing queryTerms maxResults).1.store = c.store := by
  unfold wingSearch
  split <;> rfl

/-- What a search returns when the cache is coherent. -/
theorem wingSearch_of_coherent (h : c.Coherent) :
    (c.wingSearch toLowercase wing queryTerms maxResults).2 =
      rankWing toLowercase queryTerms maxResults (c.store.wingRows wing) := by
  unfold wingSearch
  split
  · rename_i cached hcached
    rw [h wing cached hcached]
  · rfl

theorem coherent_uncached : c.uncached.Coherent := Cache.coherent_empty _

/-- A search keeps the cache coherent. -/
theorem coherent_wingSearch (h : c.Coherent) :
    (c.wingSearch toLowercase wing queryTerms maxResults).1.Coherent := by
  unfold wingSearch Coherent
  split
  · exact Cache.Coherent.touch h wing
  · exact (Cache.Coherent.touch h wing).put wing

/-- **A coherent cache is invisible.** -/
theorem wingSearch_eq_uncached (h : c.Coherent) :
    (c.wingSearch toLowercase wing queryTerms maxResults).2 =
      (c.uncached.wingSearch toLowercase wing queryTerms maxResults).2 :=
  (wingSearch_of_coherent h).trans (wingSearch_of_coherent coherent_uncached).symm

end CachedStore

end Spectral
