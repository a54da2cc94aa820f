import Mathlib.Data.List.Basic
import Mathlib.Data.List.Nodup

/-!
# Caches of a changing source

A cache holds, for some keys, the value a source had for them.  `Cache` bundles the
operations of a bounded cache with what they promise: a cache may drop an entry whenever it
likes, but a value it returns for a key is the last one put under that key, and neither
popped nor cleared since.

`CoherentExcept c f dirty` says that every entry is what the source `f` gives now, the keys
in `dirty` excepted.  Each operation has its rule (`put`, `pop`, `clear`, and `change` for a
step of the source itself), so that the coherence of a program that keeps a cache beside its
source follows from what it does, in the order it does it.

`lru` is the cache that drops the entry used longest ago.
-/

namespace Spectral.Lib

/-- A cache, by its operations and what they promise. -/
structure Cache (κ ν : Type) where
  /-- What the cache holds. -/
  State : Type
  empty : State
  /-- The value a `get` returns. -/
  peek : State → κ → Option ν
  /-- What a `get` leaves. -/
  touch : State → κ → State
  put : State → κ → ν → State
  pop : State → κ → State
  clear : State → State
  peek_empty : ∀ k, peek empty k = none
  peek_touch : ∀ c j k, peek (touch c j) k = peek c k
  peek_put_self : ∀ c k v, peek (put c k v) k = some v
  peek_put_of_ne : ∀ c j k v w, k ≠ j → peek (put c j v) k = some w → peek c k = some w
  peek_pop_self : ∀ c k, peek (pop c k) k = none
  peek_pop_of_ne : ∀ c j k, k ≠ j → peek (pop c j) k = peek c k
  peek_clear : ∀ c k, peek (clear c) k = none

namespace Cache

attribute [simp] peek_empty peek_touch peek_put_self peek_pop_self peek_clear

variable {κ ν : Type} {L : Cache κ ν}

/-! ## Coherence -/

/-- Every entry is what the source gives, the keys in `dirty` excepted. -/
def CoherentExcept (L : Cache κ ν) (c : L.State) (f : κ → ν) (dirty : κ → Prop) : Prop :=
  ∀ k v, L.peek c k = some v → v = f k ∨ dirty k

/-- Every entry is what the source gives. -/
def Coherent (L : Cache κ ν) (c : L.State) (f : κ → ν) : Prop :=
  ∀ k v, L.peek c k = some v → v = f k

theorem coherentExcept_false {c : L.State} {f : κ → ν} :
    L.CoherentExcept c f (fun _ => False) ↔ L.Coherent c f := by
  simp [CoherentExcept, Coherent]

theorem coherent_of_forall_none {c : L.State} {f : κ → ν} (h : ∀ k, L.peek c k = none) :
    L.Coherent c f := by
  intro k v hv
  rw [h k] at hv
  cases hv

theorem coherent_empty (f : κ → ν) : L.Coherent L.empty f :=
  coherent_of_forall_none L.peek_empty

theorem coherent_clear (c : L.State) (f : κ → ν) : L.Coherent (L.clear c) f :=
  coherent_of_forall_none (L.peek_clear c)

namespace CoherentExcept

variable {c : L.State} {f f' : κ → ν} {dirty dirty' : κ → Prop}

theorem mono (h : L.CoherentExcept c f dirty) (hd : ∀ k, dirty k → dirty' k) :
    L.CoherentExcept c f dirty' := fun k v hv => (h k v hv).imp_right (hd k)

/-- A step of the source: the keys it changes become dirty. -/
theorem change (h : L.CoherentExcept c f dirty) (hf : ∀ k, ¬ dirty' k → f' k = f k)
    (hd : ∀ k, dirty k → dirty' k) : L.CoherentExcept c f' dirty' := by
  intro k v hv
  by_cases hk : dirty' k
  · exact Or.inr hk
  · rcases h k v hv with rfl | hdirty
    · exact Or.inl (hf k hk).symm
    · exact absurd (hd k hdirty) hk

theorem touch (h : L.CoherentExcept c f dirty) (j : κ) :
    L.CoherentExcept (L.touch c j) f dirty := by
  intro k v hv
  rw [L.peek_touch] at hv
  exact h k v hv

/-- A put of the value the source gives, or under a dirty key. -/
theorem put [DecidableEq κ] (h : L.CoherentExcept c f dirty) {j : κ} {v : ν}
    (hv : v = f j ∨ dirty j) : L.CoherentExcept (L.put c j v) f dirty := by
  intro k w hw
  by_cases hk : k = j
  · subst hk
    rw [L.peek_put_self] at hw
    cases hw
    exact hv
  · exact h k w (L.peek_put_of_ne c j k v w hk hw)

/-- A popped key is no longer dirty. -/
theorem pop [DecidableEq κ] {j : κ} (h : L.CoherentExcept c f fun k => k = j ∨ dirty k) :
    L.CoherentExcept (L.pop c j) f dirty := by
  intro k v hv
  by_cases hk : k = j
  · subst hk
    rw [L.peek_pop_self] at hv
    cases hv
  · rw [L.peek_pop_of_ne c j k hk] at hv
    rcases h k v hv with hf | hj | hd
    · exact Or.inl hf
    · exact absurd hj hk
    · exact Or.inr hd

end CoherentExcept

theorem Coherent.touch {c : L.State} {f : κ → ν} (h : L.Coherent c f) (j : κ) :
    L.Coherent (L.touch c j) f :=
  coherentExcept_false.1 ((coherentExcept_false.2 h).touch j)

theorem Coherent.put [DecidableEq κ] {c : L.State} {f : κ → ν} (h : L.Coherent c f) (j : κ) :
    L.Coherent (L.put c j (f j)) f :=
  coherentExcept_false.1 ((coherentExcept_false.2 h).put (Or.inl rfl))

/-- Pop a list of keys, one after the other. -/
def popAll (L : Cache κ ν) (c : L.State) (ks : List κ) : L.State := ks.foldl L.pop c

/-- **Invalidation.**  When the source changes at most at the keys that are then popped, the
cache is coherent again. -/
theorem Coherent.popAll [DecidableEq κ] {c : L.State} {f f' : κ → ν} {ks : List κ}
    (h : L.Coherent c f) (hf : ∀ k ∉ ks, f' k = f k) : L.Coherent (L.popAll c ks) f' := by
  have hdirty : L.CoherentExcept c f' (· ∈ ks) :=
    (coherentExcept_false.2 h).change hf fun _ => False.elim
  clear h hf
  rw [← coherentExcept_false]
  induction ks generalizing c with
  | nil => exact hdirty.mono fun k hk => absurd hk List.not_mem_nil
  | cons j ks ih => exact ih (CoherentExcept.pop (hdirty.mono fun _ => List.mem_cons.1))

/-- A source that does not change needs no invalidation. -/
theorem Coherent.of_eq {c : L.State} {f f' : κ → ν} (h : L.Coherent c f) (hf : ∀ k, f' k = f k) :
    L.Coherent c f' := fun k v hv => (h k v hv).trans (hf k).symm

/-! ## Least recently used -/

/-- The entries of an LRU cache, the one used last first. -/
structure LruList (κ ν : Type) (cap : ℕ) where
  entries : List (κ × ν)
  /-- A key has one entry. -/
  nodup : (entries.map Prod.fst).Nodup
  /-- The cache is bounded. -/
  bounded : entries.length ≤ cap

namespace LruList

variable [DecidableEq κ] {cap : ℕ}

/-- The value under a key. -/
def peek (c : LruList κ ν cap) (k : κ) : Option ν := c.entries.lookup k

/-- The entries without the one under `k`. -/
def without (l : List (κ × ν)) (k : κ) : List (κ × ν) := l.filter fun e => !(k == e.1)

theorem lookup_without_self (l : List (κ × ν)) (k : κ) : (without l k).lookup k = none := by
  rw [List.lookup_eq_none_iff]
  intro p hp
  have := (List.mem_filter.1 hp).2
  simpa using this

theorem lookup_without_of_ne {l : List (κ × ν)} {j k : κ} (h : k ≠ j) :
    (without l j).lookup k = l.lookup k := by
  induction l with
  | nil => rfl
  | cons e l ih =>
    obtain ⟨a, v⟩ := e
    unfold without at ih ⊢
    by_cases hja : j = a
    · subst hja
      rw [List.filter_cons_of_neg (by simp), ih, List.lookup_cons, beq_eq_false_iff_ne.2 h]
    · rw [List.filter_cons_of_pos (by simpa using hja), List.lookup_cons, List.lookup_cons, ih]

theorem nodup_cons_without {l : List (κ × ν)} (h : (l.map Prod.fst).Nodup) (k : κ) (v : ν) :
    (((k, v) :: without l k).map Prod.fst).Nodup := by
  rw [List.map_cons, List.nodup_cons]
  constructor
  · intro hk
    obtain ⟨p, hp, hpk⟩ := List.mem_map.1 hk
    have := (List.mem_filter.1 hp).2
    simp [hpk] at this
  · exact h.sublist (List.filter_sublist.map Prod.fst)

/-- Dropping entries from the end answers less, and nothing else. -/
theorem lookup_take {l : List (κ × ν)} {n : ℕ} {k : κ} {v : ν}
    (h : (l.take n).lookup k = some v) : l.lookup k = some v := by
  rw [← List.take_append_drop n l, List.lookup_append, h]
  rfl

/-- `put`: the new entry comes first, and past the bound the last one goes. -/
def put (c : LruList κ ν cap) (k : κ) (v : ν) : LruList κ ν cap where
  entries := ((k, v) :: without c.entries k).take cap
  nodup := (nodup_cons_without c.nodup k v).sublist ((List.take_sublist _ _).map _)
  bounded := List.length_take_le _ _

/-- `get`: an entry that is used comes first. -/
def touch (c : LruList κ ν cap) (k : κ) : LruList κ ν cap :=
  match c.peek k with
  | none => c
  | some v => c.put k v

/-- `pop`. -/
def pop (c : LruList κ ν cap) (k : κ) : LruList κ ν cap where
  entries := without c.entries k
  nodup := c.nodup.sublist (List.filter_sublist.map Prod.fst)
  bounded := Nat.le_trans (List.length_filter_le _ _) c.bounded

/-- An entry that is already there makes no other one go. -/
theorem length_without_lt {l : List (κ × ν)} {k : κ} {v : ν} (h : l.lookup k = some v) :
    (without l k).length < l.length := by
  unfold without
  rw [List.length_filter_lt_length_iff_exists]
  by_contra hno
  push Not at hno
  rw [List.lookup_eq_none_iff.2 fun p hp => by simpa using hno p hp] at h
  cases h

theorem peek_put_self (hcap : 0 < cap) (c : LruList κ ν cap) (k : κ) (v : ν) :
    (c.put k v).peek k = some v := by
  obtain ⟨n, rfl⟩ : ∃ n, cap = n + 1 := ⟨cap - 1, by omega⟩
  simp [peek, put]

theorem peek_put_of_ne {c : LruList κ ν cap} {j k : κ} {v w : ν} (h : k ≠ j)
    (hw : (c.put j v).peek k = some w) : c.peek k = some w := by
  have hall := lookup_take hw
  rw [List.lookup_cons] at hall
  simp only [beq_eq_false_iff_ne.2 h] at hall
  rwa [lookup_without_of_ne h] at hall

theorem peek_touch (c : LruList κ ν cap) (j k : κ) : (c.touch j).peek k = c.peek k := by
  unfold touch
  cases hj : c.peek j with
  | none => rfl
  | some v =>
    -- nothing is dropped: the entry is taken out before it is put in front
    have hroom : ((j, v) :: without c.entries j).length ≤ cap := by
      have := length_without_lt hj
      have := c.bounded
      rw [List.length_cons]
      omega
    unfold put peek
    simp only [List.take_of_length_le hroom]
    by_cases hk : k = j
    · subst hk
      rw [List.lookup_cons_self]
      exact hj.symm
    · rw [List.lookup_cons]
      simp only [beq_eq_false_iff_ne.2 hk]
      exact lookup_without_of_ne hk

end LruList

/-- `LruCache::new`: at most `cap` entries, the one used longest ago goes first. -/
def lru (κ ν : Type) [DecidableEq κ] (cap : ℕ) (hcap : 0 < cap) : Cache κ ν where
  State := LruList κ ν cap
  empty := ⟨[], List.nodup_nil, Nat.zero_le _⟩
  peek := LruList.peek
  touch := LruList.touch
  put := LruList.put
  pop := LruList.pop
  clear _ := ⟨[], List.nodup_nil, Nat.zero_le _⟩
  peek_empty _ := rfl
  peek_touch := LruList.peek_touch
  peek_put_self := LruList.peek_put_self hcap
  peek_put_of_ne _ _ _ _ _ := LruList.peek_put_of_ne
  peek_pop_self c k := LruList.lookup_without_self c.entries k
  peek_pop_of_ne _ _ _ h := LruList.lookup_without_of_ne h
  peek_clear _ _ := rfl

theorem popAll_append (c : L.State) (ks ks' : List κ) :
    L.popAll c (ks ++ ks') = L.popAll (L.popAll c ks) ks' := List.foldl_append

section Lru

variable [DecidableEq κ] {cap : ℕ} {hcap : 0 < cap}

theorem entries_popAll_lru (c : LruList κ ν cap) (ks : List κ) :
    LruList.entries ((lru κ ν cap hcap).popAll c ks) =
      c.entries.filter fun e => decide (e.1 ∉ ks) := by
  induction ks generalizing c with
  | nil => exact (List.filter_eq_self.2 fun _ _ => rfl).symm
  | cons k ks ih =>
    refine (ih (c.pop k)).trans ?_
    unfold LruList.pop LruList.without
    rw [List.filter_filter]
    refine List.filter_congr fun e _ => ?_
    by_cases hk : e.1 = k
    · simp [hk]
    · simp [hk, Ne.symm hk]

/-- In which order the keys are popped, and how often, is of no consequence. -/
theorem popAll_lru_congr {ks ks' : List κ} (h : ∀ k, k ∈ ks ↔ k ∈ ks') (c : LruList κ ν cap) :
    (lru κ ν cap hcap).popAll c ks = (lru κ ν cap hcap).popAll c ks' := by
  have hentries : LruList.entries ((lru κ ν cap hcap).popAll c ks) =
      LruList.entries ((lru κ ν cap hcap).popAll c ks') := by
    rw [entries_popAll_lru, entries_popAll_lru]
    exact List.filter_congr fun e _ => decide_eq_decide.2 (not_congr (h e.1))
  generalize (lru κ ν cap hcap).popAll c ks = l at hentries ⊢
  generalize (lru κ ν cap hcap).popAll c ks' = l' at hentries ⊢
  obtain ⟨entries, nodup, bounded⟩ := l
  obtain ⟨entries', nodup', bounded'⟩ := l'
  obtain rfl : entries = entries' := hentries
  rfl

end Lru

end Cache

end Spectral.Lib
