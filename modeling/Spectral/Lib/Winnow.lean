import Mathlib.Data.List.Induction
import Mathlib.Data.List.Infix
import Mathlib.Data.List.MinMax

/-!
# Winnowing

A list of hashes is thinned out: of every `window` consecutive ones the first least is kept, and
not kept again while it stays the least.  What is kept of a list is not settled by its parts, but
two lists with `window` consecutive elements in common keep a common hash (`exists_common_winnow`).

* `windows` — the sublists of consecutive elements, in their order.
* `winnow` — the selection; a list of at most one window keeps its least element.
-/

namespace Spectral.Lib

variable {α β κ : Type*}

/-! ## Windows -/

/-- `slice::windows`: the sublists of `n` consecutive elements, for `n` at least one. -/
def windows (n : ℕ) : List α → List (List α)
  | [] => []
  | a :: l => if n ≤ l.length + 1 then (a :: l).take n :: windows n l else []

variable {n : ℕ} {l r w : List α}

theorem windows_eq_nil (h : l.length < n) : windows n l = [] := by
  cases l with
  | nil => rfl
  | cons a l =>
    rw [windows, if_neg]
    rw [List.length_cons] at h
    omega

theorem length_windows (hn : 0 < n) : (windows n l).length = l.length + 1 - n := by
  induction l with
  | nil =>
    show 0 = 0 + 1 - n
    omega
  | cons a l ih =>
    rw [windows]
    split
    · rw [List.length_cons, ih, List.length_cons]
      omega
    · rw [List.length_nil, List.length_cons]
      omega

/-- A window is a stretch of the list, of the length of a window. -/
theorem infix_of_mem_windows (h : w ∈ windows n l) : w <:+: l ∧ w.length = n := by
  induction l with
  | nil => exact absurd h List.not_mem_nil
  | cons a l ih =>
    rw [windows] at h
    split at h
    · rename_i hlong
      rcases List.mem_cons.1 h with rfl | h
      · refine ⟨(List.take_prefix n _).isInfix, ?_⟩
        rw [List.length_take, List.length_cons]
        omega
      · exact ⟨(ih h).1.trans (List.suffix_cons a l).isInfix, (ih h).2⟩
    · exact absurd h List.not_mem_nil

/-- The windows of the end of a list are the last ones. -/
theorem windows_suffix (s : List α) : windows n l <:+ windows n (s ++ l) := by
  induction s with
  | nil => exact List.suffix_rfl
  | cons a s ih =>
    rw [List.cons_append, windows]
    split
    · exact ih.trans (List.suffix_cons _ _)
    · rename_i hshort
      rw [windows_eq_nil]
      rw [List.length_append] at hshort
      omega

/-- The windows of the beginning of a list are the first ones. -/
theorem windows_append (s : List α) : windows n l <+: windows n (l ++ s) := by
  induction l with
  | nil => exact List.nil_prefix
  | cons a l ih =>
    rw [List.cons_append, windows, windows]
    by_cases hlong : n ≤ l.length + 1
    · have hlonger : n ≤ (l ++ s).length + 1 := by
        rw [List.length_append]
        omega
      have htake : (a :: (l ++ s)).take n = (a :: l).take n := by
        rw [← List.cons_append, List.take_append_of_le_length]
        rwa [List.length_cons]
      rw [if_pos hlong, if_pos hlonger, htake]
      exact (List.prefix_cons_inj _).2 ih
    · rw [if_neg hlong]
      exact List.nil_prefix

/-- The windows of a stretch of a list are a stretch of its windows. -/
theorem windows_stretch (h : r <:+: l) : windows n r <:+: windows n l := by
  obtain ⟨s, t, rfl⟩ := h
  have hsuffix : windows n (r ++ t) <:+ windows n (s ++ (r ++ t)) := windows_suffix s
  rw [List.append_assoc]
  exact (windows_append t).isInfix.trans hsuffix.isInfix

/-- A list of the length of a window is its only window. -/
theorem mem_windows_of_stretch (hn : 0 < n) (h : r <:+: l) (hr : r.length = n) :
    r ∈ windows n l := by
  refine (windows_stretch h).subset ?_
  cases r with
  | nil =>
    rw [List.length_nil] at hr
    omega
  | cons a r =>
    rw [List.length_cons] at hr
    rw [windows, if_pos hr.ge, ← hr, ← List.length_cons, List.take_length]
    exact List.mem_cons_self

/-! ## The selection -/

variable [LinearOrder κ] {key : α → κ} {window : ℕ} {l' : List α} {m : α}

/-- One window of the loop: its first least element, unless the last one kept has its key. -/
def keepLeast (key : α → κ) (acc : List α × Option κ) (w : List α) : List α × Option κ :=
  match w.argmin key with
  | some m => if acc.2 = some (key m) then acc else (acc.1 ++ [m], some (key m))
  | none => acc

/-- **Winnowing.** -/
def winnow (key : α → κ) (window : ℕ) (l : List α) : List α :=
  if l.length ≤ window then (l.argmin key).toList
  else ((windows window l).foldl (keepLeast key) ([], none)).1

/-- What the loop has kept: elements of windows, and the least key of each of them; the last key
kept is among them. -/
theorem foldl_keepLeast (key : α → κ) (ws : List (List α)) :
    (∀ m ∈ (ws.foldl (keepLeast key) ([], none)).1, ∃ w ∈ ws, m ∈ w) ∧
      (∀ k ∈ (ws.foldl (keepLeast key) ([], none)).2,
        ∃ m ∈ (ws.foldl (keepLeast key) ([], none)).1, key m = k) ∧
      ∀ w ∈ ws, ∀ m ∈ w.argmin key,
        ∃ m' ∈ (ws.foldl (keepLeast key) ([], none)).1, key m' = key m := by
  induction ws using List.reverseRecOn with
  | nil => simp
  | append_singleton ws w ih =>
    obtain ⟨hkept, hlast, hleast⟩ := ih
    rw [List.foldl_append, List.foldl_cons, List.foldl_nil]
    generalize ws.foldl (keepLeast key) ([], none) = acc at hkept hlast hleast ⊢
    unfold keepLeast
    cases hmin : w.argmin key with
    | none =>
      refine ⟨fun m hm => ?_, hlast, fun w' hw' m hm => ?_⟩
      · obtain ⟨w', hw', hmem⟩ := hkept m hm
        exact ⟨w', List.mem_append_left _ hw', hmem⟩
      · rcases List.mem_append.1 hw' with hw' | hw'
        · exact hleast w' hw' m hm
        · rw [List.mem_singleton.1 hw', hmin] at hm
          cases hm
    | some least =>
      dsimp only
      split
      · rename_i hsame
        refine ⟨fun m hm => ?_, hlast, fun w' hw' m hm => ?_⟩
        · obtain ⟨w', hw', hmem⟩ := hkept m hm
          exact ⟨w', List.mem_append_left _ hw', hmem⟩
        · rcases List.mem_append.1 hw' with hw' | hw'
          · exact hleast w' hw' m hm
          · rw [List.mem_singleton.1 hw', hmin] at hm
            cases hm
            exact hlast _ hsame
      · refine ⟨fun m hm => ?_, fun k hk => ?_, fun w' hw' m hm => ?_⟩
        · rcases List.mem_append.1 hm with hm | hm
          · obtain ⟨w', hw', hmem⟩ := hkept m hm
            exact ⟨w', List.mem_append_left _ hw', hmem⟩
          · rw [List.mem_singleton.1 hm]
            exact ⟨w, by simp, List.argmin_mem hmin⟩
        · cases hk
          exact ⟨least, by simp, rfl⟩
        · rcases List.mem_append.1 hw' with hw' | hw'
          · obtain ⟨m', hm', hkey⟩ := hleast w' hw' m hm
            exact ⟨m', List.mem_append_left _ hm', hkey⟩
          · rw [List.mem_singleton.1 hw', hmin] at hm
            cases hm
            exact ⟨least, by simp, rfl⟩

/-- What is kept is in the list. -/
theorem mem_of_mem_winnow (h : m ∈ winnow key window l) : m ∈ l := by
  unfold winnow at h
  split at h
  · exact List.argmin_mem (Option.mem_toList.1 h)
  · obtain ⟨w, hw, hm⟩ := (foldl_keepLeast key _).1 m h
    exact (infix_of_mem_windows hw).1.subset hm

/-- **The least key of every window is kept.** -/
theorem exists_winnow_of_stretch (hwindow : 0 < window) (h : w <:+: l) (hw : w.length = window)
    (hm : m ∈ w.argmin key) : ∃ m' ∈ winnow key window l, key m' = key m := by
  unfold winnow
  split
  · rename_i hshort
    -- the window is the whole list
    have hall : w = l := h.eq_of_length_le (by omega)
    exact ⟨m, Option.mem_toList.2 (hall ▸ hm), rfl⟩
  · exact (foldl_keepLeast key _).2.2 w (mem_windows_of_stretch hwindow h hw) m hm

/-- **Lists with a window in common** keep a common key. -/
theorem exists_common_winnow (hwindow : 0 < window) (h : r <:+: l) (h' : r <:+: l')
    (hr : window ≤ r.length) :
    ∃ m ∈ winnow key window l, ∃ m' ∈ winnow key window l', key m = key m' := by
  have hlength : (r.take window).length = window := by
    rw [List.length_take]
    omega
  have htake : r.take window <:+: r := (List.take_prefix window r).isInfix
  cases hmin : (r.take window).argmin key with
  | none =>
    rw [List.argmin_eq_none.1 hmin, List.length_nil] at hlength
    omega
  | some least =>
    obtain ⟨m, hm, hkey⟩ := exists_winnow_of_stretch hwindow (htake.trans h) hlength hmin
    obtain ⟨m', hm', hkey'⟩ := exists_winnow_of_stretch hwindow (htake.trans h') hlength hmin
    exact ⟨m, hm, m', hm', hkey.trans hkey'.symm⟩

end Spectral.Lib
