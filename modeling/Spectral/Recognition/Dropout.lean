import Mathlib.Data.List.NodupEquivFin
import Spectral.Recognition.Audit

/-!
# Dropout

A probe that is a text with some of its tokens deleted.  The landmarks of the text that are left are
landmarks of the probe, and nearer to each other; but a landmark that the text had no room for may
become one of the probe, and stand between two of the others.

* `mem_candidates`, `mem_extractLandmarks` — the landmarks are the candidates that few others
  outrank.
* `mem_landmarkPairs` — two landmarks are paired when they are near, and few others between them.
* `Embeds` — the tokens of the probe are among those of the text, in the same order.
* `pair_survives_iff` — which of the pairs that are left the probe has.
-/

namespace Spectral

open Spectral.Lib

namespace Extractor

variable {x : Extractor}

/-! ## Candidates -/

/-- The candidates for landmarks. -/
def candidates (x : Extractor) (content : String) : List Landmark :=
  (x.tables.tokenize content).zipIdx.foldl addCandidate []

/-- The landmark of a token at its place. -/
def landmarkOf (t : Token × ℕ) : Landmark := ⟨t.1.key, t.2, t.1.anchor⟩

/-- A token that can be a landmark. -/
def CanBeLandmark (t : Token) : Prop := ¬ (t.anchor = false ∧ (t.stop = true ∨ t.key.utf8ByteSize < 3))

instance (t : Token) : Decidable (CanBeLandmark t) :=
  inferInstanceAs (Decidable (¬ (t.anchor = false ∧ (t.stop = true ∨ t.key.utf8ByteSize < 3))))

/-- Of tokens with distinct keys none is passed over for its key. -/
theorem foldl_addCandidate {ts : List (Token × ℕ)} (h : (ts.map fun t => t.1.key).Nodup) :
    ts.foldl addCandidate [] = (ts.filter fun t => CanBeLandmark t.1).map landmarkOf := by
  induction ts using List.reverseRecOn with
  | nil => rfl
  | append_singleton ts t ih =>
    rw [List.map_append, List.nodup_append] at h
    obtain ⟨hts, -, hdisjoint⟩ := h
    have hnew : t.1.key ∉ ((ts.filter fun t => CanBeLandmark t.1).map landmarkOf).map Landmark.key := by
      rw [List.map_map]
      intro hmem
      obtain ⟨t', ht', hkey⟩ := List.mem_map.1 hmem
      exact hdisjoint _ (List.mem_map_of_mem (List.mem_of_mem_filter ht')) _
        (List.mem_map_of_mem (List.mem_singleton_self t)) hkey
    rw [List.foldl_append, List.foldl_cons, List.foldl_nil, ih hts, List.filter_append, List.map_append,
      addCandidate]
    by_cases hcan : CanBeLandmark t.1
    · rw [if_neg hcan, if_neg hnew]
      simp [hcan, landmarkOf]
    · rw [if_pos (not_not.1 hcan)]
      simp [hcan]

section

variable {content : String} (hnodup : (x.tables.normalizedTokens content).Nodup)

include hnodup

theorem candidates_eq : x.candidates content =
    ((x.tables.tokenize content).zipIdx.filter fun t => CanBeLandmark t.1).map landmarkOf := by
  refine foldl_addCandidate ?_
  have hkeys : ((x.tables.tokenize content).zipIdx.map fun t => t.1.key) =
      x.tables.normalizedTokens content := by
    rw [CharTables.normalizedTokens, ← List.zipIdx_map_fst 0 (x.tables.tokenize content), List.map_map]
    simp [Function.comp_def]
  rwa [hkeys]

/-- A candidate is a token that can be a landmark. -/
theorem mem_candidates {l : Landmark} : l ∈ x.candidates content ↔
    ∃ t, (x.tables.tokenize content)[l.position]? = some t ∧ CanBeLandmark t ∧ t.key = l.key ∧
      t.anchor = l.anchor := by
  rw [candidates_eq hnodup, List.mem_map]
  constructor
  · rintro ⟨⟨t, i⟩, ht, rfl⟩
    obtain ⟨ht, hcan⟩ := List.mem_filter.1 ht
    exact ⟨t, List.mk_mem_zipIdx_iff_getElem?.1 ht, of_decide_eq_true hcan, rfl, rfl⟩
  · rintro ⟨t, ht, hcan, hkey, hanchor⟩
    refine ⟨(t, l.position), List.mem_filter.2 ⟨List.mk_mem_zipIdx_iff_getElem?.2 ht,
      decide_eq_true hcan⟩, ?_⟩
    cases l
    simp only [landmarkOf] at hkey hanchor ⊢
    rw [hkey, hanchor]

theorem pairwise_candidates : (x.candidates content).Pairwise fun a b => a.position < b.position := by
  rw [candidates_eq hnodup, List.pairwise_map]
  refine List.Pairwise.filter _ ?_
  have hplaces : ((x.tables.tokenize content).zipIdx.map Prod.snd).Pairwise (· < ·) := by
    rw [List.zipIdx_map_snd]
    exact List.pairwise_lt_range'
  exact List.pairwise_map.1 hplaces

end

/-! ## Landmarks -/

instance : Std.Total x.MoreSalient :=
  Lib.total_then Landmark.anchor (Lib.total_then (fun l => x.rarityOf l.key)
    (Lib.total_then (fun l => l.key.utf8ByteSize) (Lib.total_key Landmark.position)))

instance : IsTrans Landmark x.MoreSalient :=
  Lib.isTrans_then Landmark.anchor (Lib.isTrans_then (fun l => x.rarityOf l.key)
    (Lib.isTrans_then (fun l => l.key.utf8ByteSize) (Lib.isTrans_key Landmark.position)))

instance : Std.Total fun a b : Landmark => a.position ≤ b.position := Lib.total_key _

instance : IsTrans Landmark fun a b : Landmark => a.position ≤ b.position := Lib.isTrans_key _

/-- A landmark outranks another one. -/
def Outranks (x : Extractor) (a b : Landmark) : Prop := x.MoreSalient a b ∧ ¬ x.MoreSalient b a

instance : DecidableRel x.Outranks := fun a b =>
  inferInstanceAs (Decidable (x.MoreSalient a b ∧ ¬ x.MoreSalient b a))

/-- Landmarks that rank alike are at one place. -/
theorem position_eq_of_moreSalient {a b : Landmark} (hab : x.MoreSalient a b)
    (hba : x.MoreSalient b a) : a.position = b.position := by
  unfold MoreSalient at hab hba
  grind

section

variable {content : String} (hnodup : (x.tables.normalizedTokens content).Nodup)

include hnodup

/-- **The landmarks are the candidates that fewer than `maxPeaks` others outrank.** -/
theorem mem_extractLandmarks {l : Landmark} : l ∈ x.extractLandmarks content ↔
    l ∈ x.candidates content ∧
      (x.candidates content).countP (fun c => x.Outranks c l) < x.config.maxPeaks := by
  have hperm := List.perm_insertionSort x.MoreSalient (x.candidates content)
  have hplaces : ((x.candidates content).insertionSort x.MoreSalient).Pairwise
      fun a b => a.position ≠ b.position := by
    refine (hperm.pairwise_iff fun {a b} h => Ne.symm h).2 ?_
    exact (pairwise_candidates hnodup).imp fun {a b} h => ne_of_lt h
  have hranked : ((x.candidates content).insertionSort x.MoreSalient).Pairwise x.Outranks := by
    have hsorted := List.pairwise_insertionSort x.MoreSalient (x.candidates content)
    refine (hsorted.and hplaces).imp ?_
    rintro a b ⟨hab, hne⟩
    exact ⟨hab, fun hba => hne (position_eq_of_moreSalient hab hba)⟩
  have hmem : l ∈ x.extractLandmarks content ↔
      l ∈ ((x.candidates content).insertionSort x.MoreSalient).take x.config.maxPeaks :=
    List.mem_insertionSort _
  have htake : ∀ h : l ∈ (x.candidates content).insertionSort x.MoreSalient,
      l ∈ ((x.candidates content).insertionSort x.MoreSalient).take x.config.maxPeaks ↔
        (x.candidates content).countP (fun c => x.Outranks c l) < x.config.maxPeaks := by
    intro h
    rw [mem_take_iff_of_pairwise (fun a h => h.2 h.1) (fun a b h h' => h.2 h'.1) hranked h,
      hperm.countP_eq]
  rw [hmem]
  constructor
  · intro h
    have hl := List.mem_of_mem_take h
    exact ⟨hperm.mem_iff.1 hl, (htake hl).1 h⟩
  · rintro ⟨hl, hcount⟩
    exact (htake (hperm.mem_iff.2 hl)).2 hcount

/-- They come in the order of the text. -/
theorem pairwise_extractLandmarks :
    (x.extractLandmarks content).Pairwise fun a b => a.position < b.position := by
  have hsorted : (x.extractLandmarks content).Pairwise fun a b => a.position ≤ b.position :=
    List.pairwise_insertionSort _ _
  have hperm : (x.extractLandmarks content).Perm
      (((x.candidates content).insertionSort x.MoreSalient).take x.config.maxPeaks) :=
    List.perm_insertionSort _ _
  have hplaces : (x.extractLandmarks content).Pairwise fun a b => a.position ≠ b.position := by
    refine (hperm.pairwise_iff fun {a b} h => Ne.symm h).2 (List.Pairwise.sublist
      (List.take_sublist _ _) ?_)
    refine ((List.perm_insertionSort _ _).pairwise_iff fun {a b} h => Ne.symm h).2 ?_
    exact (pairwise_candidates hnodup).imp fun {a b} h => ne_of_lt h
  exact (hsorted.and hplaces).imp fun {a b} h => lt_of_le_of_ne h.1 h.2

end

/-- Landmarks in the order of the text are distinct. -/
theorem nodup_of_positions {l : List Landmark} (h : l.Pairwise fun a b => a.position < b.position) :
    l.Nodup := by
  refine h.imp fun {a b} hlt heq => ?_
  rw [heq] at hlt
  exact lt_irrefl _ hlt

/-! ## Pairs -/

/-- The pairs of landmarks that are fingerprinted. -/
def landmarkPairs (x : Extractor) : List Landmark → List (Landmark × Landmark)
  | [] => []
  | a :: rest => (((rest.takeWhile fun b => b.position - a.position ≤ x.config.pairWindow).take
      x.config.fanOut).map fun b => (a, b)) ++ landmarkPairs x rest

theorem pairHashes_eq (peaks : List Landmark) :
    x.pairHashes peaks = (x.landmarkPairs peaks).map fun p => x.pairHash p.1 p.2 := by
  induction peaks with
  | nil => rfl
  | cons a rest ih =>
    rw [pairHashes, landmarkPairs, List.map_append, List.map_map, ih]
    rfl

/-- The landmarks between two others. -/
def between (peaks : List Landmark) (a b : Landmark) : ℕ :=
  peaks.countP fun c => a.position < c.position ∧ c.position < b.position

/-- In a list by position, what is within a distance comes before the rest. -/
theorem takeWhile_eq_filter {n : ℕ} {l : List Landmark}
    (h : l.Pairwise fun a b => a.position < b.position) :
    l.takeWhile (fun c => c.position ≤ n) = l.filter fun c => c.position ≤ n := by
  induction l with
  | nil => rfl
  | cons c l ih =>
    obtain ⟨hc, hl⟩ := List.pairwise_cons.1 h
    by_cases hn : c.position ≤ n
    · simp [hn, ih hl]
    · have hlater : (l.filter fun c => c.position ≤ n) = [] := by
        refine List.filter_eq_nil_iff.2 fun b hb => ?_
        have := hc b hb
        simp only [decide_eq_true_eq]
        omega
      simp [hn, hlater]

/-- The first landmark of a list is paired with the next ones that are near. -/
theorem mem_take_near {c b : Landmark} {rest : List Landmark}
    (h : (c :: rest).Pairwise fun a b => a.position < b.position) :
    b ∈ (rest.takeWhile fun b => b.position - c.position ≤ x.config.pairWindow).take x.config.fanOut ↔
      b ∈ rest ∧ b.position - c.position ≤ x.config.pairWindow ∧
        between (c :: rest) c b < x.config.fanOut := by
  obtain ⟨hc, hrest⟩ := List.pairwise_cons.1 h
  have hnear : (rest.takeWhile fun b => b.position - c.position ≤ x.config.pairWindow) =
      rest.filter fun b => b.position ≤ c.position + x.config.pairWindow := by
    rw [← takeWhile_eq_filter hrest]
    congr 1
    funext b
    exact decide_eq_decide.2 (by omega)
  rw [hnear]
  have hmem : b ∈ (rest.filter fun b => b.position ≤ c.position + x.config.pairWindow) ↔
      b ∈ rest ∧ b.position - c.position ≤ x.config.pairWindow := by
    rw [List.mem_filter, decide_eq_true_eq]
    exact and_congr_right fun _ => by omega
  have htake : ∀ hb : b ∈ rest.filter fun b => b.position ≤ c.position + x.config.pairWindow,
      b ∈ (rest.filter fun b => b.position ≤ c.position + x.config.pairWindow).take x.config.fanOut ↔
        between (c :: rest) c b < x.config.fanOut := by
    intro hb
    have hle := of_decide_eq_true (List.mem_filter.1 hb).2
    rw [mem_take_iff_of_pairwise (fun a => lt_irrefl a.position) (fun a b hab => lt_asymm hab)
      (hrest.filter _) hb, List.countP_filter, between, List.countP_cons_of_neg (by simp)]
    -- what comes before `b` is near too
    have hcount : rest.countP (fun a => decide (a.position < b.position) &&
        decide (a.position ≤ c.position + x.config.pairWindow)) =
          rest.countP fun d => c.position < d.position ∧ d.position < b.position := by
      refine List.countP_congr fun d hd => ?_
      have := hc d hd
      simp only [Bool.and_eq_true, decide_eq_true_eq]
      omega
    rw [hcount]
  constructor
  · intro h
    have hb := List.mem_of_mem_take h
    exact and_assoc.1 ⟨hmem.1 hb, (htake hb).1 h⟩
  · rintro ⟨hb, hwindow, hbetween⟩
    exact (htake (hmem.2 ⟨hb, hwindow⟩)).2 hbetween

/-- **Two landmarks are paired** when they are within the window, and fewer than `fanOut` others
between them. -/
theorem mem_landmarkPairs {peaks : List Landmark}
    (h : peaks.Pairwise fun a b => a.position < b.position) {a b : Landmark} :
    (a, b) ∈ x.landmarkPairs peaks ↔ a ∈ peaks ∧ b ∈ peaks ∧ a.position < b.position ∧
      b.position - a.position ≤ x.config.pairWindow ∧ between peaks a b < x.config.fanOut := by
  induction peaks with
  | nil => simp [landmarkPairs]
  | cons c rest ih =>
    obtain ⟨hc, hrest⟩ := List.pairwise_cons.1 h
    have hfirst : (a, b) ∈ ((rest.takeWhile fun b => b.position - c.position ≤ x.config.pairWindow).take
        x.config.fanOut).map (fun b => (c, b)) ↔ a = c ∧ b ∈ rest ∧
          b.position - c.position ≤ x.config.pairWindow ∧ between (c :: rest) c b < x.config.fanOut := by
      rw [List.mem_map]
      constructor
      · rintro ⟨b', hb', heq⟩
        obtain ⟨rfl, rfl⟩ := Prod.mk.inj heq
        exact ⟨rfl, (mem_take_near h).1 hb'⟩
      · rintro ⟨rfl, hb⟩
        exact ⟨b, (mem_take_near h).2 hb, rfl⟩
    rw [landmarkPairs, List.mem_append, hfirst, ih hrest]
    constructor
    · rintro (⟨rfl, hb, hwindow, hbetween⟩ | ⟨ha, hb, hlt, hwindow, hbetween⟩)
      · exact ⟨List.mem_cons_self, List.mem_cons_of_mem _ hb, hc b hb, hwindow, hbetween⟩
      · refine ⟨List.mem_cons_of_mem _ ha, List.mem_cons_of_mem _ hb, hlt, hwindow, ?_⟩
        have hca := hc a ha
        rwa [between, List.countP_cons_of_neg (by simp; omega)]
    · rintro ⟨ha, hb, hlt, hwindow, hbetween⟩
      rcases List.mem_cons.1 ha with rfl | ha
      · refine Or.inl ⟨rfl, (List.mem_cons.1 hb).resolve_left ?_, hwindow, hbetween⟩
        rintro rfl
        exact lt_irrefl _ hlt
      · have hca := hc a ha
        refine Or.inr ⟨ha, (List.mem_cons.1 hb).resolve_left ?_, hlt, hwindow, ?_⟩
        · rintro rfl
          omega
        · rwa [between, List.countP_cons_of_neg (by simp; omega)] at hbetween

/-! ## Deletion -/

/-- `Embeds f tokens tokens'`: the tokens are among the others, at the places `f` says. -/
def Embeds (f : ℕ ↪o ℕ) (tokens tokens' : List Token) : Prop := ∀ i : ℕ, tokens[i]? = tokens'[f i]?

/-- A landmark of the probe, at its place in the text. -/
def lift (f : ℕ ↪o ℕ) (l : Landmark) : Landmark := { l with position := f l.position }

section

variable {f : ℕ ↪o ℕ} {a b l m : Landmark}

theorem lift_injective : Function.Injective (lift f) := by
  rintro ⟨key, i, anchor⟩ ⟨key', j, anchor'⟩ h
  simp only [lift, Landmark.mk.injEq, EmbeddingLike.apply_eq_iff_eq] at h ⊢
  exact h

theorem moreSalient_lift : x.MoreSalient (lift f a) (lift f b) ↔ x.MoreSalient a b := by
  unfold MoreSalient lift
  simp only [OrderEmbedding.le_iff_le]

theorem outranks_lift : x.Outranks (lift f a) (lift f b) ↔ x.Outranks a b := by
  unfold Outranks
  rw [moreSalient_lift, moreSalient_lift]

/-- **Deletion shrinks distances.** -/
theorem distance_le_lift (h : a.position ≤ b.position) :
    b.position - a.position ≤ (lift f b).position - (lift f a).position := by
  have hstep := f.strictMono.add_le_nat (b.position - a.position) a.position
  rw [Nat.sub_add_cancel h] at hstep
  show b.position - a.position ≤ f b.position - f a.position
  omega

variable {content probe : String} (hnodup : (x.tables.normalizedTokens content).Nodup)
  (hnodup' : (x.tables.normalizedTokens probe).Nodup)
  (hf : Embeds f (x.tables.tokenize probe) (x.tables.tokenize content))

include hnodup hnodup' hf

theorem lift_mem_candidates : lift f l ∈ x.candidates content ↔ l ∈ x.candidates probe := by
  rw [mem_candidates hnodup, mem_candidates hnodup', hf l.position]
  rfl

/-- A candidate of the text that is left is one of the probe. -/
theorem exists_lift_eq (hm : m ∈ x.candidates content) (hkey : m.key ∈ x.tables.normalizedTokens probe) :
    ∃ l ∈ x.candidates probe, lift f l = m := by
  obtain ⟨t, ht, -, htkey, -⟩ := (mem_candidates hnodup).1 hm
  obtain ⟨t', ht', htkey'⟩ := List.mem_map.1 hkey
  obtain ⟨i, hi⟩ := List.getElem?_of_mem ht'
  rw [hf i] at hi
  -- the two tokens have one key, and so one place
  have hplace : ∀ {j : ℕ} {s : Token}, (x.tables.tokenize content)[j]? = some s →
      (x.tables.normalizedTokens content)[j]? = some s.key := by
    intro j s hs
    rw [CharTables.normalizedTokens, List.getElem?_map, hs]
    rfl
  have hsame : f i = m.position := by
    have hlt := (List.getElem?_eq_some_iff.1 (hplace hi)).1
    refine (List.getElem?_inj hlt hnodup).1 ?_
    rw [hplace hi, hplace ht, htkey, htkey']
  refine ⟨⟨m.key, i, m.anchor⟩, ?_, ?_⟩
  · have hlift : lift f ⟨m.key, i, m.anchor⟩ = m := by
      unfold lift
      rw [hsame]
    rwa [← lift_mem_candidates hnodup hnodup' hf, hlift]
  · unfold lift
    rw [hsame]

/-- The candidates of the probe are some of those of the text. -/
theorem subperm_candidates : ((x.candidates probe).map (lift f)).Subperm (x.candidates content) := by
  have hplaces := nodup_of_positions (pairwise_candidates hnodup')
  refine (hplaces.map lift_injective).subperm fun m hm => ?_
  obtain ⟨l, hl, rfl⟩ := List.mem_map.1 hm
  exact (lift_mem_candidates hnodup hnodup' hf).2 hl

/-- **A landmark that is left is a landmark of the probe**: no more candidates outrank it there. -/
theorem mem_extractLandmarks_of_lift (hl : lift f l ∈ x.extractLandmarks content) :
    l ∈ x.extractLandmarks probe := by
  obtain ⟨hcandidate, hcount⟩ := (mem_extractLandmarks hnodup).1 hl
  refine (mem_extractLandmarks hnodup').2
    ⟨(lift_mem_candidates hnodup hnodup' hf).1 hcandidate, lt_of_le_of_lt ?_ hcount⟩
  have hle := (subperm_candidates hnodup hnodup' hf).countP_le fun c => x.Outranks c (lift f l)
  rw [List.countP_map] at hle
  refine le_trans (le_of_eq (List.countP_congr fun c _ => ?_)) hle
  simp only [Function.comp_apply, decide_eq_true_eq]
  exact outranks_lift.symm

/-- Where the text has room for all its candidates, nothing comes between two landmarks. -/
theorem between_le (hroom : (x.candidates content).length ≤ x.config.maxPeaks) :
    between (x.extractLandmarks probe) a b ≤
      between (x.extractLandmarks content) (lift f a) (lift f b) := by
  have hall : ∀ l ∈ x.candidates content, l ∈ x.extractLandmarks content := by
    intro l hl
    refine (mem_extractLandmarks hnodup).2 ⟨hl, lt_of_lt_of_le ?_ hroom⟩
    have hself : decide (x.Outranks l l) = false := decide_eq_false fun h => h.2 h.1
    exact List.countP_lt_length_iff.2 ⟨l, hl, hself⟩
  have hsub : ((x.extractLandmarks probe).map (lift f)).Subperm (x.extractLandmarks content) := by
    have hplaces := nodup_of_positions (pairwise_extractLandmarks hnodup')
    refine (hplaces.map lift_injective).subperm fun m hm => ?_
    obtain ⟨l, hl, rfl⟩ := List.mem_map.1 hm
    exact hall _ ((lift_mem_candidates hnodup hnodup' hf).2 ((mem_extractLandmarks hnodup').1 hl).1)
  have hle := hsub.countP_le fun c =>
    decide ((lift f a).position < c.position ∧ c.position < (lift f b).position)
  rw [List.countP_map] at hle
  refine le_trans (le_of_eq (List.countP_congr fun c _ => ?_)) hle
  simp only [lift, Function.comp_apply, decide_eq_true_eq, OrderEmbedding.lt_iff_lt]

end

/-! ## Pairs that are left -/

section

variable {probe : String} {a b c d : Landmark}

/-- A key is that of one landmark. -/
theorem eq_of_key_eq (hnodup : (x.tables.normalizedTokens probe).Nodup)
    (ha : a ∈ x.extractLandmarks probe) (hb : b ∈ x.extractLandmarks probe) (hkey : a.key = b.key) :
    a = b := by
  obtain ⟨t, ht, -, htkey, htanchor⟩ :=
    (mem_candidates hnodup).1 ((mem_extractLandmarks hnodup).1 ha).1
  obtain ⟨t', ht', -, htkey', htanchor'⟩ :=
    (mem_candidates hnodup).1 ((mem_extractLandmarks hnodup).1 hb).1
  have hplace : a.position = b.position := by
    have hlt : a.position < (x.tables.normalizedTokens probe).length := by
      rw [CharTables.normalizedTokens, List.length_map]
      exact (List.getElem?_eq_some_iff.1 ht).1
    refine (List.getElem?_inj hlt hnodup).1 ?_
    rw [CharTables.normalizedTokens, List.getElem?_map, List.getElem?_map, ht, ht', Option.map_some,
      Option.map_some, htkey, htkey', hkey]
  have hsame : t = t' := by
    rw [hplace, ht'] at ht
    exact (Option.some.inj ht).symm
  rw [hsame] at htanchor
  cases a
  cases b
  simp only [Landmark.mk.injEq] at hkey hplace htanchor htanchor' ⊢
  exact ⟨hkey, hplace, htanchor.symm.trans htanchor'⟩

/-- What is hashed of a pair tells its keys. -/
theorem keys_of_pairHash_eq (hhash : x.CollisionFree [probe]) (ha : a ∈ x.extractLandmarks probe)
    (hb : b ∈ x.extractLandmarks probe) (hc : c ∈ x.extractLandmarks probe)
    (hd : d ∈ x.extractLandmarks probe) (h : x.pairHash a b = x.pairHash c d) :
    a.key = c.key ∧ b.key = d.key ∨ a.key = d.key ∧ b.key = c.key := by
  have htexts : ∀ {a b c d : Landmark}, a ∈ x.extractLandmarks probe → b ∈ x.extractLandmarks probe →
      c ∈ x.extractLandmarks probe → d ∈ x.extractLandmarks probe →
      x.hash64 (pairText a.key b.key) = x.hash64 (pairText c.key d.key) →
      a.key = c.key ∧ b.key = d.key := by
    intro a b c d ha hb hc hd heq
    have hmem : ∀ {a b : Landmark}, a ∈ x.extractLandmarks probe → b ∈ x.extractLandmarks probe →
        pairText a.key b.key ∈ [probe].flatMap x.hashedTexts := by
      intro a b ha hb
      rw [List.flatMap_singleton]
      exact pairText_mem_hashedTexts ha hb
    exact pairText_inj (key_of_mem_extractLandmarks ha) (key_of_mem_extractLandmarks hb)
      (hhash _ (hmem ha hb) _ (hmem hc hd) heq)
  have hhashes := congrArg Prod.fst h
  unfold pairHash at hhashes
  by_cases hab : a.key ≤ b.key <;> by_cases hcd : c.key ≤ d.key <;>
    simp only [hab, hcd, if_true, if_false] at hhashes
  · exact Or.inl (htexts ha hb hc hd hhashes)
  · exact Or.inr (htexts ha hb hd hc hhashes)
  · exact Or.inr (htexts hb ha hc hd hhashes).symm
  · exact Or.inl (htexts hb ha hd hc hhashes).symm

end

/-- **Which pairs survive dropout.**  A pair of landmarks whose keys are left is a pair of landmarks of
the probe, no farther apart.  The probe has its fingerprint exactly when fewer than `fanOut` landmarks
of the probe are between the two; so it is where the text had room for all its candidates. -/
theorem pair_survives_iff (x : Extractor) {content probe : String} {a b : Landmark}
    (hnodup : (x.tables.normalizedTokens content).Nodup)
    (hdeleted : (x.tables.tokenize probe).Sublist (x.tables.tokenize content))
    (hpair : (a, b) ∈ x.landmarkPairs (x.extractLandmarks content))
    (ha : a.key ∈ x.tables.normalizedTokens probe) (hb : b.key ∈ x.tables.normalizedTokens probe) :
    ∃ a' ∈ x.extractLandmarks probe, ∃ b' ∈ x.extractLandmarks probe,
      a'.key = a.key ∧ b'.key = b.key ∧ a'.position < b'.position ∧
      b'.position - a'.position ≤ b.position - a.position ∧
      (between (x.extractLandmarks probe) a' b' < x.config.fanOut →
        x.pairHash a b ∈ (x.fingerprintStimulus probe).pairHashes) ∧
      (x.CollisionFree [probe] → x.pairHash a b ∈ (x.fingerprintStimulus probe).pairHashes →
        between (x.extractLandmarks probe) a' b' < x.config.fanOut) ∧
      ((x.candidates content).length ≤ x.config.maxPeaks →
        between (x.extractLandmarks probe) a' b' < x.config.fanOut) := by
  have hnodup' : (x.tables.normalizedTokens probe).Nodup := hnodup.sublist (hdeleted.map Token.key)
  obtain ⟨f, hf⟩ := List.sublist_iff_exists_orderEmbedding_getElem?_eq.1 hdeleted
  obtain ⟨hmema, hmemb, hlt, hwindow, hbetween⟩ :=
    (mem_landmarkPairs (pairwise_extractLandmarks hnodup)).1 hpair
  obtain ⟨a', -, rfl⟩ := exists_lift_eq hnodup hnodup' hf ((mem_extractLandmarks hnodup).1 hmema).1 ha
  obtain ⟨b', -, rfl⟩ := exists_lift_eq hnodup hnodup' hf ((mem_extractLandmarks hnodup).1 hmemb).1 hb
  have ha' := mem_extractLandmarks_of_lift hnodup hnodup' hf hmema
  have hb' := mem_extractLandmarks_of_lift hnodup hnodup' hf hmemb
  have hlt' : a'.position < b'.position := f.lt_iff_lt.1 hlt
  have hshorter := distance_le_lift (f := f) hlt'.le
  have hpairs : ∀ {c d : Landmark}, (c, d) ∈ x.landmarkPairs (x.extractLandmarks probe) ↔ _ :=
    mem_landmarkPairs (pairwise_extractLandmarks hnodup')
  have hprints : (x.fingerprintStimulus probe).pairHashes =
      (x.landmarkPairs (x.extractLandmarks probe)).map fun p => x.pairHash p.1 p.2 := pairHashes_eq _
  refine ⟨a', ha', b', hb', rfl, rfl, hlt', hshorter, fun hfew => ?_, fun hhash hmem => ?_,
    fun hroom => (between_le hnodup hnodup' hf hroom).trans_lt hbetween⟩
  · rw [hprints]
    exact List.mem_map.2 ⟨(a', b'), hpairs.2 ⟨ha', hb', hlt', hshorter.trans hwindow, hfew⟩, rfl⟩
  · rw [hprints] at hmem
    obtain ⟨⟨c, d⟩, hcd, heq⟩ := List.mem_map.1 hmem
    obtain ⟨hc, hd, hcdlt, -, hfew⟩ := hpairs.1 hcd
    -- a pair of the same keys is the same pair
    rcases keys_of_pairHash_eq hhash hc hd ha' hb' heq with ⟨hca, hdb⟩ | ⟨hcb, hda⟩
    · rwa [eq_of_key_eq hnodup' hc ha' hca, eq_of_key_eq hnodup' hd hb' hdb] at hfew
    · have hcb := eq_of_key_eq hnodup' hc hb' hcb
      have hda := eq_of_key_eq hnodup' hd ha' hda
      rw [hcb, hda] at hcdlt
      exact absurd hcdlt (lt_asymm hlt')

/-- An extractor of three landmarks, each paired with the next one. -/
def narrowExtractor : Extractor where
  tables := .ascii
  numerics := { ln := fun _ => 0, twoDecimals := fun _ => "" }
  hash64 s :=
    (List.lookup s [("rp1|alphabet|omicron", 0x4be0c689ea8715de), ("rp1|omicron|telescope", 0xbb82b5c018762022),
      ("rp1|alphabet|cat", 0x7e38060c1f0250c1), ("rp1|cat|omicron", 0xe223290d6113e508)]).getD 0
  hashSeeded _ := 0
  config :=
    { maxPeaks := 3, fanOut := 1, kgram_pos := RecognitionConfig.five_pos
      window_pos := RecognitionConfig.eight_pos }

/-- Without its last word the text has room for "cat", and the first word is paired with that. -/
theorem pair_lost_to_dropout :
    (narrowExtractor.tables.normalizedTokens "alphabet cat omicron telescope").Nodup ∧
    (narrowExtractor.tables.tokenize "alphabet cat omicron").Sublist
      (narrowExtractor.tables.tokenize "alphabet cat omicron telescope") ∧
    (⟨"alphabet", 0, false⟩, ⟨"omicron", 2, false⟩) ∈ narrowExtractor.landmarkPairs
      (narrowExtractor.extractLandmarks "alphabet cat omicron telescope") ∧
    "alphabet" ∈ narrowExtractor.tables.normalizedTokens "alphabet cat omicron" ∧
    "omicron" ∈ narrowExtractor.tables.normalizedTokens "alphabet cat omicron" ∧
    narrowExtractor.pairHash ⟨"alphabet", 0, false⟩ ⟨"omicron", 2, false⟩ ∈
      (narrowExtractor.fingerprintStimulus "alphabet cat omicron telescope").pairHashes ∧
    narrowExtractor.pairHash ⟨"alphabet", 0, false⟩ ⟨"omicron", 2, false⟩ ∉
      (narrowExtractor.fingerprintStimulus "alphabet cat omicron").pairHashes := by
  decide +kernel

/-- Without the word between them the two are neighbours. -/
theorem pair_survives_iff_neighbours :
    narrowExtractor.pairHash ⟨"alphabet", 0, false⟩ ⟨"omicron", 2, false⟩ ∈
      (narrowExtractor.fingerprintStimulus "alphabet omicron telescope").pairHashes := by
  have hpair : ((⟨"alphabet", 0, false⟩, ⟨"omicron", 2, false⟩) : Landmark × Landmark) ∈
      narrowExtractor.landmarkPairs
        (narrowExtractor.extractLandmarks "alphabet cat omicron telescope") := by decide +kernel
  have hdeleted : (narrowExtractor.tables.tokenize "alphabet omicron telescope").Sublist
      (narrowExtractor.tables.tokenize "alphabet cat omicron telescope") := by decide +kernel
  obtain ⟨a', ha', b', hb', hkeya, hkeyb, hlt, hdistance, hfew, -⟩ := pair_survives_iff narrowExtractor
    (by decide +kernel) hdeleted hpair (by decide +kernel) (by decide +kernel)
  refine hfew ?_
  have hnone : ∀ a ∈ narrowExtractor.extractLandmarks "alphabet omicron telescope",
      ∀ b ∈ narrowExtractor.extractLandmarks "alphabet omicron telescope", a.key = "alphabet" →
        b.key = "omicron" →
        between (narrowExtractor.extractLandmarks "alphabet omicron telescope") a b < 1 := by
    decide +kernel
  exact hnone a' ha' b' hb' hkeya hkeyb

end Extractor

end Spectral
