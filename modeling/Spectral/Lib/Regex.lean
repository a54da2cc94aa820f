import Mathlib.Data.List.Forall2
import Mathlib.Data.List.Infix
import Mathlib.Data.List.Induction
import Mathlib.Order.Basic

/-!
# Backtracking regular expressions

Regular expressions over characters, with the search that tries their alternatives in order: a
repetition takes as much as it can, and gives back one character at a time.  What is repeated is a
class of characters.

* `Regex.candidates` — the matches at the start of a text, the preferred one first: `matchAt`.
* `Regex.Accepts` — the texts an expression stands for.  `matchAt_eq_none_iff`: there is a match at the
  start of a text exactly if it starts with such a text.
* `Regex.replaceAll` — every match is replaced, the leftmost first, going on behind it;
  `replaced_replaceAll` describes the result piece by piece.
* `Regex.NoMatch` — no part of a text is one of them.  `noMatch_of_replaced` says when a replacement
  leaves a text so.
-/

namespace Spectral.Lib

/-- A regular expression. -/
inductive Regex where
  | eps
  | cls (p : Char → Bool)
  | many (p : Char → Bool)
  | seq (r t : Regex)
  | alt (r t : Regex)
  | group (n : ℕ) (r : Regex)

namespace Regex

/-! ## Derived forms -/

/-- The characters of a word, one after the other, each up to some sameness. -/
def word (same : Char → Char → Bool) : List Char → Regex
  | [] => eps
  | x :: xs => seq (cls (same x)) (word same xs)

/-- `[p]+`. -/
def plus (p : Char → Bool) : Regex := seq (cls p) (many p)

/-- `[p]{n}`. -/
def times (p : Char → Bool) : ℕ → Regex
  | 0 => eps
  | n + 1 => seq (cls p) (times p n)

/-- `[p]{n,}`. -/
def atLeast (n : ℕ) (p : Char → Bool) : Regex := seq (times p n) (many p)

/-- `r|...|t`, of one expression at least. -/
def anyOf (r : Regex) : List Regex → Regex
  | [] => r
  | t :: ts => alt r (anyOf t ts)

/-! ## Matches -/

/-- A match: its text, what is behind it, and the texts of its groups, the last one first. -/
structure Match where
  text : List Char
  rest : List Char
  groups : List (ℕ × List Char) := []
  deriving DecidableEq

namespace Match

/-- `$n`: the text of a group. -/
def group (M : Match) (n : ℕ) : List Char := (M.groups.lookup n).getD []

/-- One match behind another. -/
def append (M N : Match) : Match := ⟨M.text ++ N.text, N.rest, N.groups ++ M.groups⟩

end Match

/-- The matches of `[p]*`, the longest first. -/
def manyCandidates (p : Char → Bool) : List Char → List Match
  | [] => [⟨[], [], []⟩]
  | c :: s =>
    if p c then (manyCandidates p s).map (fun M => { M with text := c :: M.text }) ++ [⟨[], c :: s, []⟩]
    else [⟨[], c :: s, []⟩]

/-- The matches at the start of a text, in the order in which they are tried. -/
def candidates : Regex → List Char → List Match
  | eps, s => [⟨[], s, []⟩]
  | cls _, [] => []
  | cls p, c :: s => if p c then [⟨[c], s, []⟩] else []
  | many p, s => manyCandidates p s
  | seq r t, s => (r.candidates s).flatMap fun M => (t.candidates M.rest).map M.append
  | alt r t, s => r.candidates s ++ t.candidates s
  | group n r, s => (r.candidates s).map fun M => { M with groups := (n, M.text) :: M.groups }

/-- The match that is preferred. -/
def matchAt (r : Regex) (s : List Char) : Option Match := (r.candidates s).head?

/-- The texts an expression stands for. -/
def Accepts : Regex → List Char → Prop
  | eps, m => m = []
  | cls p, m => ∃ c, p c = true ∧ m = [c]
  | many p, m => ∀ c ∈ m, p c = true
  | seq r t, m => ∃ x y, r.Accepts x ∧ t.Accepts y ∧ m = x ++ y
  | alt r t, m => r.Accepts m ∨ t.Accepts m
  | group _ r, m => r.Accepts m

section

variable {p : Char → Bool} {r t : Regex} {s m : List Char} {M : Match}

theorem accepts_plus : (plus p).Accepts m ↔ m ≠ [] ∧ ∀ c ∈ m, p c = true := by
  constructor
  · rintro ⟨_, y, ⟨c, hc, rfl⟩, hy, rfl⟩
    refine ⟨by simp, fun d hd => ?_⟩
    rcases List.mem_cons.1 hd with rfl | hd
    · exact hc
    · exact hy d hd
  · rintro ⟨hne, hm⟩
    obtain ⟨c, y, rfl⟩ := List.exists_cons_of_ne_nil hne
    exact ⟨[c], y, ⟨c, hm c List.mem_cons_self, rfl⟩, fun d hd => hm d (List.mem_cons_of_mem c hd), rfl⟩

theorem accepts_times {n : ℕ} : (times p n).Accepts m ↔ m.length = n ∧ ∀ c ∈ m, p c = true := by
  induction n generalizing m with
  | zero =>
    refine ⟨fun h => ?_, fun h => List.length_eq_zero_iff.1 h.1⟩
    rw [show m = [] from h]
    exact ⟨rfl, by simp⟩
  | succ n ih =>
    constructor
    · rintro ⟨_, y, ⟨c, hc, rfl⟩, hy, rfl⟩
      obtain ⟨hlength, hall⟩ := ih.1 hy
      refine ⟨by simp [hlength], fun d hd => ?_⟩
      rcases List.mem_cons.1 hd with rfl | hd
      · exact hc
      · exact hall d hd
    · rintro ⟨hlength, hall⟩
      obtain ⟨c, y, rfl⟩ := List.exists_cons_of_length_eq_add_one hlength
      refine ⟨[c], y, ⟨c, hall c List.mem_cons_self, rfl⟩, ih.2 ⟨?_, ?_⟩, rfl⟩
      · simpa using hlength
      · exact fun d hd => hall d (List.mem_cons_of_mem c hd)

theorem accepts_atLeast {n : ℕ} :
    (atLeast n p).Accepts m ↔ n ≤ m.length ∧ ∀ c ∈ m, p c = true := by
  constructor
  · rintro ⟨x, y, hx, hy, rfl⟩
    obtain ⟨hlength, hall⟩ := accepts_times.1 hx
    refine ⟨by simp [hlength], fun d hd => ?_⟩
    rcases List.mem_append.1 hd with hd | hd
    · exact hall d hd
    · exact hy d hd
  · rintro ⟨hlength, hall⟩
    refine ⟨m.take n, m.drop n, accepts_times.2 ⟨List.length_take_of_le hlength, ?_⟩, ?_,
      (List.take_append_drop n m).symm⟩
    · exact fun c hc => hall c (List.mem_of_mem_take hc)
    · exact fun c hc => hall c (List.mem_of_mem_drop hc)

theorem accepts_word {same : Char → Char → Bool} {xs : List Char} :
    (word same xs).Accepts m ↔ List.Forall₂ (fun x c => same x c = true) xs m := by
  induction xs generalizing m with
  | nil =>
    rw [List.forall₂_nil_left_iff]
    exact Iff.rfl
  | cons x xs ih =>
    rw [List.forall₂_cons_left_iff]
    constructor
    · rintro ⟨_, y, ⟨c, hc, rfl⟩, hy, rfl⟩
      exact ⟨c, y, hc, ih.1 hy, rfl⟩
    · rintro ⟨c, y, hc, hy, rfl⟩
      exact ⟨[c], y, ⟨c, hc, rfl⟩, ih.2 hy, rfl⟩

theorem accepts_anyOf {ts : List Regex} :
    (anyOf r ts).Accepts m ↔ ∃ t ∈ r :: ts, t.Accepts m := by
  induction ts generalizing r with
  | nil => simp [anyOf]
  | cons t ts ih =>
    rw [List.exists_mem_cons_iff, ← ih]
    exact Iff.rfl

/-! ## What is found -/

/-! ### A repetition -/

/-- Its candidates are runs of the class, without groups. -/
theorem of_mem_manyCandidates (h : M ∈ manyCandidates p s) :
    s = M.text ++ M.rest ∧ (∀ c ∈ M.text, p c = true) ∧ M.groups = [] := by
  induction s generalizing M with
  | nil =>
    obtain rfl := List.mem_singleton.1 h
    exact ⟨rfl, by simp, rfl⟩
  | cons c s ih =>
    unfold manyCandidates at h
    split at h
    · rename_i hc
      rcases List.mem_append.1 h with h | h
      · obtain ⟨M, hM, rfl⟩ := List.mem_map.1 h
        obtain ⟨hs, hall, hgroups⟩ := ih hM
        refine ⟨congrArg (List.cons c) hs, fun d hd => ?_, hgroups⟩
        rcases List.mem_cons.1 hd with rfl | hd
        · exact hc
        · exact hall d hd
      · obtain rfl := List.mem_singleton.1 h
        exact ⟨rfl, by simp, rfl⟩
    · obtain rfl := List.mem_singleton.1 h
      exact ⟨rfl, by simp, rfl⟩

/-- Every run of the class is one of them. -/
theorem exists_manyCandidate (h : ∀ c ∈ m, p c = true) (s : List Char) :
    ∃ M ∈ manyCandidates p (m ++ s), M.text = m ∧ M.rest = s := by
  induction m with
  | nil =>
    refine ⟨⟨[], s, []⟩, ?_, rfl, rfl⟩
    cases s with
    | nil => exact List.mem_singleton_self _
    | cons c s =>
      rw [List.nil_append, manyCandidates]
      split
      · exact List.mem_append_right _ (List.mem_singleton_self _)
      · exact List.mem_singleton_self _
  | cons c m ih =>
    obtain ⟨M, hM, hmtext, hmrest⟩ := ih fun d hd => h d (List.mem_cons_of_mem c hd)
    refine ⟨{ M with text := c :: M.text }, ?_, congrArg (List.cons c) hmtext, hmrest⟩
    rw [List.cons_append, manyCandidates, if_pos (h c List.mem_cons_self)]
    exact List.mem_append_left _ (List.mem_map_of_mem hM)

/-- The first of them takes all it can. -/
theorem rest_of_head?_manyCandidates (h : (manyCandidates p s).head? = some M) :
    ∀ c ∈ M.rest.head?, p c = false := by
  induction s generalizing M with
  | nil =>
    cases h
    simp
  | cons c s ih =>
    unfold manyCandidates at h
    split at h
    · obtain ⟨N, hN⟩ : ∃ N, (manyCandidates p s).head? = some N := by
        cases s with
        | nil => exact ⟨_, rfl⟩
        | cons d s =>
          unfold manyCandidates
          split <;> simp
      rw [List.head?_append, List.head?_map, hN] at h
      cases h
      have hrest := ih hN
      exact hrest
    · rename_i hc
      cases h
      simpa using hc

/-! ### All expressions -/

/-- **Soundness**: a candidate is a text the expression stands for, at the start. -/
theorem of_mem_candidates (h : M ∈ r.candidates s) : s = M.text ++ M.rest ∧ r.Accepts M.text := by
  induction r generalizing s M with
  | eps =>
    obtain rfl := List.mem_singleton.1 h
    exact ⟨rfl, rfl⟩
  | cls p =>
    cases s with
    | nil => cases h
    | cons c s =>
      unfold candidates at h
      split at h
      · rename_i hc
        obtain rfl := List.mem_singleton.1 h
        exact ⟨rfl, c, hc, rfl⟩
      · cases h
  | many p =>
    obtain ⟨hs, hall, -⟩ := of_mem_manyCandidates h
    exact ⟨hs, hall⟩
  | seq r t ihr iht =>
    obtain ⟨N, hN, h⟩ := List.mem_flatMap.1 h
    obtain ⟨N', hN', rfl⟩ := List.mem_map.1 h
    obtain ⟨hs, hfirst⟩ := ihr hN
    obtain ⟨hrest, hsecond⟩ := iht hN'
    refine ⟨?_, N.text, N'.text, hfirst, hsecond, rfl⟩
    rw [Match.append, List.append_assoc, ← hrest]
    exact hs
  | alt r t ihr iht =>
    rcases List.mem_append.1 h with h | h
    · exact ⟨(ihr h).1, Or.inl (ihr h).2⟩
    · exact ⟨(iht h).1, Or.inr (iht h).2⟩
  | group n r ih =>
    obtain ⟨N, hN, rfl⟩ := List.mem_map.1 h
    have hfound := ih hN
    exact hfound

/-- **Completeness**: every text the expression stands for, at the start, is a candidate. -/
theorem exists_candidate (h : r.Accepts m) (s : List Char) :
    ∃ M ∈ r.candidates (m ++ s), M.text = m ∧ M.rest = s := by
  induction r generalizing m s with
  | eps =>
    rw [show m = [] from h]
    exact ⟨⟨[], s, []⟩, List.mem_singleton_self _, rfl, rfl⟩
  | cls p =>
    obtain ⟨c, hc, rfl⟩ := h
    refine ⟨⟨[c], s, []⟩, ?_, rfl, rfl⟩
    rw [List.singleton_append, candidates, if_pos hc]
    exact List.mem_singleton_self _
  | many p => exact exists_manyCandidate h s
  | seq r t ihr iht =>
    obtain ⟨x, y, hx, hy, rfl⟩ := h
    obtain ⟨M, hM, hMtext, hMrest⟩ := ihr hx (y ++ s)
    obtain ⟨N, hN, hNtext, hNrest⟩ := iht hy s
    refine ⟨M.append N, List.mem_flatMap.2 ⟨M, ?_, List.mem_map_of_mem ?_⟩, ?_, hNrest⟩
    · rwa [List.append_assoc]
    · rwa [hMrest]
    · rw [Match.append, hMtext, hNtext]
  | alt r t ihr iht =>
    rcases h with h | h
    · obtain ⟨M, hM, hsame⟩ := ihr h s
      exact ⟨M, List.mem_append_left _ hM, hsame⟩
    · obtain ⟨M, hM, hsame⟩ := iht h s
      exact ⟨M, List.mem_append_right _ hM, hsame⟩
  | group n r ih =>
    obtain ⟨M, hM, hsame⟩ := ih h s
    exact ⟨_, List.mem_map_of_mem hM, hsame⟩

theorem of_matchAt (h : r.matchAt s = some M) : s = M.text ++ M.rest ∧ r.Accepts M.text :=
  of_mem_candidates (List.mem_of_head? h)

/-- **No match** at the start of a text. -/
theorem matchAt_eq_none_iff : r.matchAt s = none ↔ ∀ m, m <+: s → ¬ r.Accepts m := by
  constructor
  · rintro h _ ⟨rest, rfl⟩ haccepts
    obtain ⟨M, hM, -⟩ := exists_candidate haccepts rest
    rw [List.head?_eq_none_iff.1 h] at hM
    cases hM
  · intro h
    cases hM : r.matchAt s with
    | none => rfl
    | some M =>
      obtain ⟨hs, haccepts⟩ := of_matchAt hM
      exact absurd haccepts (h M.text ⟨M.rest, hs.symm⟩)

/-! ### Groups -/

/-- The expression has no group. -/
def groupless : Regex → Bool
  | seq r t => r.groupless && t.groupless
  | alt r t => r.groupless && t.groupless
  | group _ _ => false
  | _ => true

theorem groups_of_groupless (hr : r.groupless = true) (h : M ∈ r.candidates s) : M.groups = [] := by
  induction r generalizing s M with
  | eps =>
    obtain rfl := List.mem_singleton.1 h
    rfl
  | cls p =>
    cases s with
    | nil => cases h
    | cons c s =>
      unfold candidates at h
      split at h
      · obtain rfl := List.mem_singleton.1 h
        rfl
      · cases h
  | many p => exact (of_mem_manyCandidates h).2.2
  | seq r t ihr iht =>
    obtain ⟨hr, ht⟩ := (Bool.and_eq_true _ _ ▸ hr : r.groupless = true ∧ t.groupless = true)
    obtain ⟨N, hN, h⟩ := List.mem_flatMap.1 h
    obtain ⟨N', hN', rfl⟩ := List.mem_map.1 h
    rw [Match.append, ihr hr hN, iht ht hN', List.append_nil]
  | alt r t ihr iht =>
    obtain ⟨hr, ht⟩ := (Bool.and_eq_true _ _ ▸ hr : r.groupless = true ∧ t.groupless = true)
    rcases List.mem_append.1 h with h | h
    · exact ihr hr h
    · exact iht ht h
  | group n r ih => cases hr

/-! ### Repetitions that come last -/

/-- The expression ends with `[p]*`. -/
def EndsIn (p : Char → Bool) : Regex → Prop
  | many q => q = p
  | seq _ t => t.EndsIn p
  | group _ r => r.EndsIn p
  | _ => False

/-- The preferred match of two expressions ends in one that the second prefers. -/
theorem matchAt_seq (h : (seq r t).matchAt s = some M) :
    ∃ N ∈ r.candidates s, ∃ N', t.matchAt N.rest = some N' ∧ N.append N' = M := by
  unfold matchAt candidates at h
  generalize r.candidates s = l at h ⊢
  induction l with
  | nil => cases h
  | cons N l ih =>
    rw [List.flatMap_cons, List.head?_append, List.head?_map] at h
    cases hN' : (t.candidates N.rest).head? with
    | none =>
      rw [hN'] at h
      obtain ⟨N₁, hN₁, hmatch⟩ := ih h
      exact ⟨N₁, List.mem_cons_of_mem N hN₁, hmatch⟩
    | some N' =>
      rw [hN'] at h
      exact ⟨N, List.mem_cons_self, N', hN', Option.some.inj h⟩

/-- **A repetition that comes last** takes all it can. -/
theorem rest_of_matchAt (hr : r.EndsIn p) (h : r.matchAt s = some M) :
    ∀ c ∈ M.rest.head?, p c = false := by
  induction r generalizing s M with
  | eps => cases hr
  | cls q => cases hr
  | many q =>
    obtain rfl : q = p := hr
    exact rest_of_head?_manyCandidates h
  | seq r t ihr iht =>
    obtain ⟨N, -, N', hN', rfl⟩ := matchAt_seq h
    have hrest := iht hr hN'
    exact hrest
  | alt r t => cases hr
  | group n r ih =>
    unfold matchAt candidates at h
    rw [List.head?_map] at h
    obtain ⟨N, hN, rfl⟩ := Option.map_eq_some_iff.1 h
    have hrest := ih hr hN
    exact hrest

end

/-! ## Replacement -/

section

variable (r : Regex) (f : Match → List Char)

/-- Replace what matches, once some characters are skipped. -/
def replaceFrom : ℕ → List Char → List Char
  | _, [] => []
  | skip + 1, _ :: s => replaceFrom skip s
  | 0, c :: s =>
    match r.matchAt (c :: s) with
    | some M => f M ++ replaceFrom (M.text.length - 1) s
    | none => c :: replaceFrom 0 s

/-- Every match is replaced, for an expression that matches no empty text. -/
def replaceAll (s : List Char) : List Char := replaceFrom r f 0 s

/-- A text and the one in which the matches are replaced, piece by piece. -/
inductive Replaced : List Char → List Char → Prop
  | nil : Replaced [] []
  | keep {c : Char} {s s' : List Char} (h : r.matchAt (c :: s) = none) (hs : Replaced s s') :
    Replaced (c :: s) (c :: s')
  | subst {s rest' : List Char} {M : Match} (h : r.matchAt s = some M)
      (hs : Replaced M.rest rest') : Replaced s (f M ++ rest')

/-- No part of the text is one that the expression stands for. -/
def NoMatch (s : List Char) : Prop := ∀ m, m <:+: s → ¬ r.Accepts m

end

section

variable {P r : Regex} {f : Match → List Char} {s s' x y' : List Char}

theorem replaceFrom_eq_drop (n : ℕ) (s : List Char) :
    replaceFrom r f n s = replaceAll r f (s.drop n) := by
  induction s generalizing n with
  | nil => cases n <;> rfl
  | cons c s ih =>
    cases n with
    | zero => rfl
    | succ n => exact ih n

/-- **The replacement**, piece by piece. -/
theorem replaced_replaceAll (hr : ¬ r.Accepts []) (s : List Char) :
    Replaced r f s (replaceAll r f s) := by
  induction hn : s.length using Nat.strong_induction_on generalizing s with
  | _ n ih =>
    cases s with
    | nil => exact .nil
    | cons c s =>
      unfold replaceAll replaceFrom
      cases hM : r.matchAt (c :: s) with
      | none => exact .keep hM (ih s.length (by rw [← hn]; simp) s rfl)
      | some M =>
        obtain ⟨hs, haccepts⟩ := of_matchAt hM
        dsimp only
        cases htext : M.text with
        | nil => exact absurd (htext ▸ haccepts) hr
        | cons d m =>
          rw [htext, List.cons_append] at hs
          obtain ⟨-, rfl⟩ := List.cons_eq_cons.1 hs
          rw [replaceFrom_eq_drop, List.length_cons, Nat.add_sub_cancel, List.drop_left]
          refine .subst hM (ih _ ?_ _ rfl)
          rw [← hn, List.length_cons, List.length_append]
          omega

/-- Where every match is replaced by itself, the text stays. -/
theorem Replaced.eq_self (h : Replaced r f s s')
    (hf : ∀ z M, z <:+ s → r.matchAt z = some M → f M = M.text) : s' = s := by
  induction h with
  | nil => rfl
  | @keep c s s' _ _ ih =>
    rw [ih fun z M hz => hf z M (hz.trans (List.suffix_cons c s))]
  | @subst s rest' M hM _ ih =>
    have hs := (of_matchAt hM).1
    have hrest : M.rest <:+ s := ⟨M.text, hs.symm⟩
    rw [ih fun z M' hz => hf z M' (hz.trans hrest), hf s M List.suffix_rfl hM]
    exact hs.symm

/-- **What is kept**: characters that no replacement begins with. -/
theorem Replaced.keeps {o : Char → Prop} (h : Replaced r f s (x ++ y'))
    (hopen : ∀ z M, r.matchAt z = some M → ∃ c t, f M = c :: t ∧ o c) (hx : ∀ c ∈ x, ¬ o c) :
    ∃ y, s = x ++ y ∧ Replaced r f y y' := by
  induction x generalizing s with
  | nil => exact ⟨s, rfl, h⟩
  | cons c x ih =>
    generalize hs' : c :: x ++ y' = s' at h
    cases h with
    | nil => cases hs'
    | keep hnone hrest =>
      obtain ⟨rfl, rfl⟩ := List.cons_eq_cons.1 hs'
      obtain ⟨y, rfl, hy⟩ := ih hrest fun d hd => hx d (List.mem_cons_of_mem c hd)
      exact ⟨y, rfl, hy⟩
    | subst hM hrest =>
      obtain ⟨d, t, hd, ho⟩ := hopen _ _ hM
      rw [hd] at hs'
      exact absurd ((List.cons_eq_cons.1 hs').1 ▸ ho) (hx c List.mem_cons_self)

/-- **Where an end of the result begins**: between two pieces, or behind the first character of a
replacement. -/
theorem Replaced.suffix {z' : List Char} (h : Replaced r f s s') (hz : z' <:+ s') :
    (∃ z, z <:+ s ∧ Replaced r f z z') ∨
      ∃ z M c R t, r.matchAt z = some M ∧ c :: R <:+ f M ∧ R ≠ [] ∧ z' = R ++ t := by
  induction h with
  | nil =>
    rw [List.suffix_nil.1 hz]
    exact Or.inl ⟨[], List.suffix_rfl, .nil⟩
  | @keep c s s' hnone hrest ih =>
    rcases List.suffix_cons_iff.1 hz with rfl | hz
    · exact Or.inl ⟨c :: s, List.suffix_rfl, .keep hnone hrest⟩
    · exact (ih hz).imp_left fun ⟨z, hzs, hreplaced⟩ =>
        ⟨z, hzs.trans (List.suffix_cons c s), hreplaced⟩
  | @subst s rest' M hM hrest ih =>
    have hlater : z' <:+ rest' → (∃ z, z <:+ s ∧ Replaced r f z z') ∨ _ := fun hz =>
      (ih hz).imp_left fun ⟨z, hzs, hreplaced⟩ =>
        ⟨z, hzs.trans ⟨M.text, (of_matchAt hM).1.symm⟩, hreplaced⟩
    obtain ⟨u, hu⟩ := hz
    rcases List.append_eq_append_iff.1 hu with ⟨R, hR, rfl⟩ | ⟨v, -, hv⟩
    · by_cases hnil : R = []
      · rw [hnil] at hlater ⊢
        exact hlater List.suffix_rfl
      · cases u using List.reverseRecOn with
        | nil =>
          rw [List.nil_append] at hR
          exact Or.inl ⟨s, List.suffix_rfl, hR ▸ .subst hM hrest⟩
        | append_singleton u c =>
          refine Or.inr ⟨s, M, c, R, rest', hM, ⟨u, ?_⟩, hnil, rfl⟩
          rw [hR, List.append_assoc, List.singleton_append]
    · exact hlater ⟨v, hv.symm⟩

theorem NoMatch.matchAt (h : P.NoMatch s) {z : List Char} (hz : z <:+ s) : P.matchAt z = none :=
  matchAt_eq_none_iff.2 fun m hm => h m (hm.isInfix.trans hz.isInfix)

/-- Where nothing matches, nothing is replaced. -/
theorem NoMatch.eq_self (hs : r.NoMatch s) (h : Replaced r f s s') : s' = s :=
  h.eq_self fun z M hz hM => absurd (hs.matchAt hz) (by rw [hM]; exact Option.some_ne_none M)

/-- **A replacement creates no match** when none begins in what it puts in, and one that begins
between two pieces has one in the text there. -/
theorem NoMatch.replaced (hs : P.NoMatch s) (h : Replaced r f s s')
    (hinside : ∀ z M R t m, r.matchAt z = some M → R <:+ f M → R ≠ [] → P.Accepts m → ¬ m <+: R ++ t)
    (hborder : ∀ z z' m, Replaced r f z z' → P.Accepts m → m <+: z' → ∃ m₀, P.Accepts m₀ ∧ m₀ <+: z) :
    P.NoMatch s' := by
  rintro m hm haccepts
  obtain ⟨z', hmz, hz⟩ := List.infix_iff_prefix_suffix.1 hm
  rcases h.suffix hz with ⟨z, hzs, hreplaced⟩ | ⟨z, M, c, R, t, hM, hR, hne, rfl⟩
  · obtain ⟨m₀, hm₀, hstarts⟩ := hborder z z' m hreplaced haccepts hmz
    exact hs m₀ (hstarts.isInfix.trans hzs.isInfix) hm₀
  · exact hinside z M R t m hM ((List.suffix_cons c R).trans hR) hne haccepts hmz

/-- **A replacement leaves no match** of its own expression, under the same conditions. -/
theorem noMatch_of_replaced (hr : ¬ r.Accepts []) (h : Replaced r f s s')
    (hinside : ∀ z M R t m, r.matchAt z = some M → R <:+ f M → R ≠ [] → r.Accepts m → ¬ m <+: R ++ t)
    (hborder : ∀ z z' m, Replaced r f z z' → r.Accepts m → m <+: z' → ∃ m₀, r.Accepts m₀ ∧ m₀ <+: z)
    (hf : ∀ z M, r.matchAt z = some M → f M ≠ []) : r.NoMatch s' := by
  rintro m hm haccepts
  obtain ⟨z', hmz, hz⟩ := List.infix_iff_prefix_suffix.1 hm
  rcases h.suffix hz with ⟨z, -, hreplaced⟩ | ⟨z, M, c, R, t, hM, hR, hne, rfl⟩
  · obtain ⟨m₀, hm₀, hstarts⟩ := hborder z z' m hreplaced haccepts hmz
    cases hreplaced with
    | nil => exact hr (List.prefix_nil.1 hmz ▸ haccepts)
    | keep hnone => exact matchAt_eq_none_iff.1 hnone m₀ hstarts hm₀
    | subst hM hrest => exact hinside _ _ _ _ m hM List.suffix_rfl (hf _ _ hM) haccepts hmz
  · exact hinside z M R t m hM ((List.suffix_cons c R).trans hR) hne haccepts hmz

end

end Regex

end Spectral.Lib
