import Mathlib.Data.List.Dedup
import Mathlib.Data.List.SplitBy
import Mathlib.Order.Basic
import Mathlib.Order.Lattice

/-!
# Groups of a sorted list

Rows that are sorted by a key are grouped by it where the key changes.

* `flatMap_filter_dedup` — a list that is sorted by a key is made of the rows of its keys.
* `splitBy_eq_map_dedup` — where neighbours with one key are grouped, there is one group for each key,
  of all the rows with the key.
-/

namespace Spectral.Lib

variable {α κ : Type*} [LinearOrder κ] {key : α → κ} {l : List α}

/-- The rows with a key. -/
def withKey (key : α → κ) (l : List α) (k : κ) : List α := l.filter fun a => key a = k

theorem mem_withKey {k : κ} {a : α} : a ∈ withKey key l k ↔ a ∈ l ∧ key a = k := by
  simp [withKey]

theorem withKey_cons_of_ne {k : κ} {a : α} (h : key a ≠ k) :
    withKey key (a :: l) k = withKey key l k := List.filter_cons_of_neg (by simp [h])

theorem withKey_cons_self {a : α} : withKey key (a :: l) (key a) = a :: withKey key l (key a) :=
  List.filter_cons_of_pos (by simp)

/-- The first key of a sorted list is the least one. -/
theorem dedup_eq_cons_of_le {ks : List κ} (hsorted : ks.Pairwise (· ≤ ·)) {k : κ} (hk : k ∈ ks)
    (hle : ∀ k' ∈ ks, k ≤ k') : ∃ ks', ks.dedup = k :: ks' ∧ k ∉ ks' := by
  have hpair : ks.dedup.Pairwise (· ≤ ·) := hsorted.sublist ks.dedup_sublist
  have hmem := List.mem_dedup.2 hk
  have hnodup := ks.nodup_dedup
  cases hks : ks.dedup with
  | nil => rw [hks] at hmem; exact absurd hmem List.not_mem_nil
  | cons k' ks' =>
    rw [hks] at hmem hpair hnodup
    have hin : k' ∈ ks := List.mem_dedup.1 (hks ▸ List.mem_cons_self)
    have hfirst : k' = k := by
      rcases List.mem_cons.1 hmem with rfl | htail
      · rfl
      · exact le_antisymm ((List.pairwise_cons.1 hpair).1 k htail) (hle k' hin)
    subst hfirst
    exact ⟨ks', rfl, (List.nodup_cons.1 hnodup).1⟩

/-- **A sorted list** is made of the rows of its keys, in the order of the keys. -/
theorem flatMap_withKey_dedup (h : (l.map key).Pairwise (· ≤ ·)) :
    (l.map key).dedup.flatMap (withKey key l) = l := by
  induction l with
  | nil => rfl
  | cons a l ih =>
    obtain ⟨hle, hsorted⟩ := List.pairwise_cons.1 h
    -- the rows of the other keys are those of the tail
    have hothers : ∀ ks : List κ, key a ∉ ks →
        ks.flatMap (withKey key (a :: l)) = ks.flatMap (withKey key l) := fun ks hks =>
      List.flatMap_congr fun k hk => withKey_cons_of_ne fun hak => hks (hak ▸ hk)
    by_cases hin : key a ∈ l.map key
    · obtain ⟨ks, hks, hfresh⟩ := dedup_eq_cons_of_le hsorted hin hle
      have htail := ih hsorted
      rw [hks, List.flatMap_cons] at htail
      rw [List.map_cons, List.dedup_cons_of_mem hin, hks, List.flatMap_cons, withKey_cons_self,
        hothers ks hfresh, List.cons_append, htail]
    · have hnone : withKey key l (key a) = [] := List.filter_eq_nil_iff.2 fun b hb hba =>
        hin (of_decide_eq_true hba ▸ List.mem_map_of_mem hb)
      rw [List.map_cons, List.dedup_cons_of_notMem hin, List.flatMap_cons, withKey_cons_self, hnone,
        hothers _ fun hmem => hin (List.mem_dedup.1 hmem), ih hsorted, List.cons_append,
        List.nil_append]

/-- **The groups of a sorted list.** -/
theorem splitBy_eq_map_dedup (h : (l.map key).Pairwise (· ≤ ·)) :
    l.splitBy (fun a b => key a = key b) = (l.map key).dedup.map (withKey key l) := by
  have hkeys : ∀ k ∈ (l.map key).dedup, withKey key l k ≠ [] := by
    intro k hk
    obtain ⟨a, ha, rfl⟩ := List.mem_map.1 (List.mem_dedup.1 hk)
    exact List.ne_nil_of_mem (mem_withKey.2 ⟨ha, rfl⟩)
  refine List.splitBy_eq_iff.2 ⟨?_, ?_, ?_, ?_⟩
  · rw [← List.flatMap_def]
    exact (flatMap_withKey_dedup h).symm
  · intro hnil
    obtain ⟨k, hk, hempty⟩ := List.mem_map.1 hnil
    exact hkeys k hk hempty
  · intro g hg
    obtain ⟨k, -, rfl⟩ := List.mem_map.1 hg
    refine List.Pairwise.isChain (List.Pairwise.imp_of_mem (R := fun _ _ => True) ?_ ?_)
    · intro a b ha hb _
      exact decide_eq_true ((mem_withKey.1 ha).2.trans (mem_withKey.1 hb).2.symm)
    · exact List.pairwise_of_forall fun _ _ => trivial
  · refine List.Pairwise.isChain (List.pairwise_map.2 ?_)
    refine List.Pairwise.imp_of_mem ?_ (List.nodup_dedup (l.map key))
    intro k k' hk hk' hne
    refine ⟨hkeys k hk, hkeys k' hk', decide_eq_false ?_⟩
    rw [(mem_withKey.1 (List.getLast_mem (hkeys k hk))).2,
      (mem_withKey.1 (List.head_mem (hkeys k' hk'))).2]
    exact hne

end Spectral.Lib
