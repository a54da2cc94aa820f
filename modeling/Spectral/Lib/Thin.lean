import Mathlib.Data.List.Dedup
import Mathlib.Data.List.Perm.Lattice
import Mathlib.Data.List.Perm.Subperm
import Mathlib.Data.List.Nodup
import Mathlib.Order.Basic
import Mathlib.Order.Lattice.Nat

/-!
# Thinning out

To make room in a list, elements are taken out from its end, but never the last one of a tag.

* `thinned` — the places to clear.  The state is those so far, and the tags of what is left.
* `Thins` — the invariant: the bag holds the tags of what is left, every tag is still in it, and
  while there is not enough room what was passed over is the last of its tag.
* `length_thinned` — how many places that makes: as many as asked for, or all but one of each tag.
-/

namespace Spectral.Lib

variable {α τ : Type*} [DecidableEq τ] (tag : α → τ)

/-- One element: its place is cleared if there is not enough room and it is not the last of its
tag. -/
def thinOne (room : ℕ) (acc : List ℕ × List τ) (p : α × ℕ) : List ℕ × List τ :=
  if room ≤ acc.1.length then acc
  else if 1 < acc.2.count (tag p.1) then (p.2 :: acc.1, acc.2.erase (tag p.1))
  else acc

/-- The places to clear. -/
def thinned (l : List α) (room : ℕ) : List ℕ :=
  (l.zipIdx.reverse.foldl (thinOne tag room) ([], l.map tag)).1

/-- What is left where some places are cleared. -/
def cleared (l : List α) (places : List ℕ) : List α :=
  (l.zipIdx.filter fun p => decide (p.2 ∉ places)).map Prod.fst

/-- What holds in the loop, once some elements were met. -/
structure Thins (l : List α) (room : ℕ) (met : List (α × ℕ)) (acc : List ℕ × List τ) : Prop where
  le_room : acc.1.length ≤ room
  total : acc.1.length + acc.2.length = l.length
  places : ∀ i ∈ acc.1, ∃ p ∈ met, p.2 = i
  bag : acc.2.Perm ((cleared l acc.1).map tag)
  tags : ∀ a ∈ l, tag a ∈ acc.2
  sole : acc.1.length < room → ∀ p ∈ met, p.2 ∉ acc.1 → acc.2.count (tag p.1) ≤ 1

variable {tag} {l : List α} {room : ℕ} {met : List (α × ℕ)} {acc : List ℕ × List τ} {p : α × ℕ}

omit [DecidableEq τ] in
/-- Clearing a place takes out its element. -/
theorem perm_cleared_cons {places : List ℕ} (hp : p ∈ l.zipIdx) (hfree : p.2 ∉ places) :
    ((cleared l places).map tag).Perm (tag p.1 :: (cleared l (p.2 :: places)).map tag) := by
  classical
  unfold cleared
  set kept := l.zipIdx.filter fun p => decide (p.2 ∉ places) with hkept
  have hmem : p ∈ kept := List.mem_filter.2 ⟨hp, decide_eq_true hfree⟩
  have hnodup : (l.zipIdx.map Prod.snd).Nodup := by
    rw [List.zipIdx_map_snd]
    exact List.nodup_range'
  have hrest : (l.zipIdx.filter fun q => decide (q.2 ∉ p.2 :: places)) = kept.erase p := by
    rw [(hnodup.of_map.filter _).erase_eq_filter, List.filter_filter]
    refine List.filter_congr fun q hq => ?_
    by_cases hplace : q.2 = p.2
    · simp [List.inj_on_of_nodup_map hnodup hq hp hplace]
    · have hne : q ≠ p := fun h => hplace (congrArg Prod.snd h)
      simp [hplace, hne]
  rw [hrest, List.map_map, List.map_map]
  exact (List.perm_cons_erase hmem).map _

/-- Once there is room, nothing more is cleared. -/
theorem Thins.full (h : Thins tag l room met acc) (hfull : room ≤ acc.1.length) :
    Thins tag l room (met ++ [p]) acc where
  le_room := h.le_room
  total := h.total
  places i hi := (h.places i hi).imp fun _ hq => hq.imp_left (List.mem_append_left _)
  bag := h.bag
  tags := h.tags
  sole hlt := absurd hlt (not_lt.2 hfull)

/-- The last of a tag is passed over. -/
theorem Thins.pass (h : Thins tag l room met acc) (hsole : acc.2.count (tag p.1) ≤ 1) :
    Thins tag l room (met ++ [p]) acc where
  le_room := h.le_room
  total := h.total
  places i hi := (h.places i hi).imp fun _ hq => hq.imp_left (List.mem_append_left _)
  bag := h.bag
  tags := h.tags
  sole hlt q hq hleft := by
    rcases List.mem_append.1 hq with hq | hq
    · exact h.sole hlt q hq hleft
    · rwa [List.mem_singleton.1 hq]

/-- An element that is not the last of its tag is taken out. -/
theorem Thins.clear (h : Thins tag l room met acc) (hp : p ∈ l.zipIdx)
    (hnew : ∀ q ∈ met, q.2 ≠ p.2) (hroom : acc.1.length < room)
    (hcount : 1 < acc.2.count (tag p.1)) :
    Thins tag l room (met ++ [p]) (p.2 :: acc.1, acc.2.erase (tag p.1)) where
  le_room := hroom
  total := by
    have htotal := h.total
    have hmem : tag p.1 ∈ acc.2 := List.count_pos_iff.1 (by omega)
    have hlen := List.length_erase_of_mem hmem
    have hpos := List.length_pos_of_mem hmem
    simp only [List.length_cons]
    omega
  places i hi := by
    rcases List.mem_cons.1 hi with rfl | hi
    · exact ⟨p, List.mem_append_right _ (List.mem_singleton_self p), rfl⟩
    · exact (h.places i hi).imp fun _ hq => hq.imp_left (List.mem_append_left _)
  bag := by
    have hfree : p.2 ∉ acc.1 := fun hin => by
      obtain ⟨q, hq, hplace⟩ := h.places p.2 hin
      exact hnew q hq hplace
    have hperm := (h.bag.trans (perm_cleared_cons hp hfree)).erase (tag p.1)
    rwa [List.erase_cons_head] at hperm
  tags a ha := by
    by_cases htag : tag a = tag p.1
    · rw [htag, ← List.count_pos_iff, List.count_erase_self]
      omega
    · exact (List.mem_erase_of_ne htag).2 (h.tags a ha)
  sole hlt q hq hleft := by
    rw [List.mem_cons, not_or] at hleft
    have hq : q ∈ met := by
      rcases List.mem_append.1 hq with hq | hq
      · exact hq
      · exact absurd (congrArg Prod.snd (List.mem_singleton.1 hq)) hleft.1
    exact (List.erase_sublist.count_le _).trans (h.sole (Nat.lt_of_succ_lt hlt) q hq hleft.2)

theorem Thins.one (h : Thins tag l room met acc) (hp : p ∈ l.zipIdx)
    (hnew : ∀ q ∈ met, q.2 ≠ p.2) : Thins tag l room (met ++ [p]) (thinOne tag room acc p) := by
  unfold thinOne
  split
  · rename_i hfull
    exact h.full hfull
  · rename_i hroom
    split
    · rename_i hcount
      exact h.clear hp hnew (not_le.1 hroom) hcount
    · rename_i hcount
      exact h.pass (not_lt.1 hcount)

variable (tag l room) in
/-- **The loop** keeps the invariant. -/
theorem thins_foldl : Thins tag l room l.zipIdx.reverse
    (l.zipIdx.reverse.foldl (thinOne tag room) ([], l.map tag)) := by
  have hstart : Thins tag l room [] ([], l.map tag) :=
    { le_room := Nat.zero_le room
      total := by simp
      places := fun i hi => absurd hi List.not_mem_nil
      bag := by simp [cleared]
      tags := fun a ha => List.mem_map_of_mem ha
      sole := fun _ p hp => absurd hp List.not_mem_nil }
  -- over the elements that were met, a first part of the list
  have hrun : ∀ rest met acc, met ++ rest = l.zipIdx.reverse → Thins tag l room met acc →
      Thins tag l room l.zipIdx.reverse (rest.foldl (thinOne tag room) acc) := by
    intro rest
    induction rest with
    | nil =>
      intro met acc hmet h
      rwa [← hmet, List.append_nil]
    | cons p rest ih =>
      intro met acc hmet h
      have hnodup : ((met ++ p :: rest).map Prod.snd).Nodup := by
        rw [hmet, List.map_reverse, List.zipIdx_map_snd]
        exact List.nodup_reverse.2 List.nodup_range'
      have hp : p ∈ l.zipIdx := List.mem_reverse.1 (hmet ▸ by simp)
      refine ih (met ++ [p]) _ (by rw [← hmet]; simp) (h.one hp fun q hq hplace => ?_)
      rw [List.map_append, List.map_cons] at hnodup
      exact (List.disjoint_of_nodup_append hnodup) (List.mem_map_of_mem hq)
        (hplace ▸ List.mem_cons_self)
  exact hrun _ [] _ rfl hstart

variable (tag)

/-- **How many places** are cleared: as many as asked for, or all but one of each tag. -/
theorem length_thinned (l : List α) (room : ℕ) :
    (thinned tag l room).length = min room (l.length - (l.map tag).dedup.length) := by
  have h := thins_foldl tag l room
  unfold thinned
  set acc := l.zipIdx.reverse.foldl (thinOne tag room) ([], l.map tag)
  have htotal := h.total
  have hroom := h.le_room
  -- each tag is still there
  have htags : (l.map tag).dedup.length ≤ acc.2.length := by
    refine ((List.nodup_dedup _).subperm fun t ht => ?_).length_le
    obtain ⟨a, ha, rfl⟩ := List.mem_map.1 (List.mem_dedup.1 ht)
    exact h.tags a ha
  by_cases hlt : acc.1.length < room
  · -- what is left is one of each tag
    have hcount : ∀ t ∈ acc.2, acc.2.count t ≤ 1 := by
      intro t ht
      obtain ⟨a, ha, rfl⟩ := List.mem_map.1 (h.bag.mem_iff.1 ht)
      obtain ⟨p, hp, rfl⟩ := List.mem_map.1 ha
      obtain ⟨hin, hleft⟩ := List.mem_filter.1 hp
      exact h.sole hlt p (List.mem_reverse.2 hin) (of_decide_eq_true hleft)
    have hnodup : acc.2.Nodup := by
      refine List.nodup_iff_count_le_one.2 fun t => ?_
      by_cases ht : t ∈ acc.2
      · exact hcount t ht
      · simp [List.count_eq_zero_of_not_mem ht]
    have hle : acc.2.length ≤ (l.map tag).dedup.length := by
      refine (hnodup.subperm fun t ht => List.mem_dedup.2 ?_).length_le
      obtain ⟨a, ha, rfl⟩ := List.mem_map.1 (h.bag.mem_iff.1 ht)
      obtain ⟨p, hp, rfl⟩ := List.mem_map.1 ha
      exact List.mem_map_of_mem (List.fst_mem_of_mem_zipIdx (List.mem_filter.1 hp).1)
    omega
  · omega

theorem length_cleared_thinned (l : List α) (room : ℕ) :
    (cleared l (thinned tag l room)).length + (thinned tag l room).length = l.length := by
  have h := thins_foldl tag l room
  have hlen := h.bag.length_eq
  rw [List.length_map] at hlen
  have htotal := h.total
  unfold thinned
  omega

/-- **No tag is lost**. -/
theorem exists_mem_cleared_thinned {a : α} (ha : a ∈ l) (room : ℕ) :
    ∃ b ∈ cleared l (thinned tag l room), tag b = tag a := by
  have h := thins_foldl tag l room
  exact List.mem_map.1 (h.bag.mem_iff.1 (h.tags a ha))

omit [DecidableEq τ] in
theorem cleared_sublist (l : List α) (places : List ℕ) : (cleared l places).Sublist l := by
  have := (List.filter_sublist (p := fun p => decide (p.2 ∉ places)) (l := l.zipIdx)).map Prod.fst
  rwa [List.zipIdx_map_fst] at this

end Spectral.Lib
