import Mathlib.Data.List.NodupEquivFin
import Mathlib.Data.Rat.Floor
import Mathlib.Data.List.Perm.Subperm
import Spectral.Lib.Fill
import Spectral.Lib.Utf8
import Spectral.Ingest.Fingerprints
import Spectral.Ingest.Strongest
import Spectral.Recall.Signals

/-!
# The block for a system prompt

`aaak` puts the strongest memories of some halls into a text that is to keep a budget of tokens.

* `Store.aaak` — the listing, the filter by hall, and the loop over the lines.
* `BestPrefix` — the block keeps the budget, is the longest beginning that fits of the memories that
  qualify, in the order of their scores, and what it leaves out is counted.
* `aaak_best_iff` — if and only if the strongest of them fits by itself (the loop takes it in any
  case), no wing of theirs is named twice, and no 1000 memories are stronger than one of them (the
  listing of all wings is cut before the filter by hall).
-/

namespace Spectral

open Spectral.Lib

/-- `AaakOpts`. -/
structure AaakOpts where
  maxTokens : ℕ := 170
  minSignalScore : ℚ := 7 / 10
  includeHalls : List String := ["fact", "preference", "decision", "rule"]
  /-- `None` is all wings. -/
  includeWings : Option (List String) := none
  charsPerToken : ℚ := 4

/-- `AaakResult`. -/
structure AaakResult where
  formatted : List Char
  estimatedTokens : ℕ
  factCount : ℕ
  excludedCount : ℕ
  wingsRepresented : List String
  deriving DecidableEq

/-- `as usize`: a number that is too large is the largest one. -/
def asUsize (n : ℤ) : ℕ := min n.toNat (2 ^ 64 - 1)

/-- `max_chars`, in bytes. -/
def AaakOpts.maxChars (opts : AaakOpts) : ℕ := asUsize (opts.maxTokens * opts.charsPerToken).floor

/-- The hall of the memory is one of those to include. -/
def AaakOpts.HasHall (opts : AaakOpts) (r : MemoryRow) : Prop := ∃ h ∈ r.hall, h ∈ opts.includeHalls

instance (opts : AaakOpts) (r : MemoryRow) : Decidable (opts.HasHall r) :=
  inferInstanceAs (Decidable (∃ h ∈ r.hall, h ∈ opts.includeHalls))

/-- The line of a memory: its content, with blanks for what separates its words. -/
def MemoryRow.aaakLine (u : CharTables) (r : MemoryRow) : List Char :=
  ['-', ' '] ++ [' '].intercalate (u.splitWhitespace r.content.toList) ++ ['\n']

namespace Store

section

variable (u : CharTables) (opts : AaakOpts) (s : Store)

/-- The memories of the wings, or the strongest 1000 of all. -/
def aaakMemories : List MemoryRow :=
  match opts.includeWings with
  | some wings => (wings.flatMap fun w => s.listWingMemories w opts.minSignalScore).insertionSort
      fun a b => b.signalScore ≤ a.signalScore
  | none => s.listMemoriesBySignal opts.minSignalScore 1000

/-- `aaak`. -/
def aaak : AaakResult :=
  let candidates := (s.aaakMemories opts).filter fun m => opts.HasHall m
  let included := fillAtLeastOne (fun m => utf8Len (m.aaakLine u)) opts.maxChars candidates
  let formatted := included.flatMap (MemoryRow.aaakLine u)
  { formatted
    estimatedTokens := asUsize (utf8Len formatted / opts.charsPerToken : ℚ).ceil
    factCount := included.length
    excludedCount := candidates.length - included.length
    wingsRepresented := (included.filterMap MemoryRow.wing).dedup.insertionSort (· ≤ ·) }

/-! ## What it is to be -/

/-- The memory is of a hall and a wing that are included, and strong enough. -/
def Qualifies (r : MemoryRow) : Prop :=
  opts.HasHall r ∧ (∀ wings ∈ opts.includeWings, ∃ w ∈ r.wing, w ∈ wings) ∧
    opts.minSignalScore ≤ r.signalScore

instance (r : MemoryRow) : Decidable (Qualifies opts r) :=
  inferInstanceAs (Decidable (_ ∧ _ ∧ _))

/-- The memories that qualify. -/
def qualifying : List MemoryRow := s.memories.rows.filter fun r => Qualifies opts r

/-- **The best beginning within the budget.** -/
structure BestPrefix (result : AaakResult) : Prop where
  within : result.estimatedTokens ≤ opts.maxTokens
  facts : ∃ all included : List MemoryRow, all.Perm (s.qualifying opts) ∧
    all.Pairwise (fun a b => b.signalScore ≤ a.signalScore) ∧ included <+: all ∧
    utf8Len (included.flatMap (MemoryRow.aaakLine u)) ≤ opts.maxChars ∧
    (∀ first, first <+: all → utf8Len (first.flatMap (MemoryRow.aaakLine u)) ≤ opts.maxChars →
      first.length ≤ included.length) ∧
    result.formatted = included.flatMap (MemoryRow.aaakLine u) ∧
    result.factCount = included.length
  counted : result.factCount + result.excludedCount = (s.qualifying opts).length

/-- Of equal scores, the place of the wing among those that are included. -/
def wingPlace (r : MemoryRow) : ℕ :=
  match opts.includeWings with
  | some wings => wings.findIdx fun w => r.wing = some w
  | none => 0

/-- The order of the facts: by score, by the place of the wing, by id. -/
def Before (a b : MemoryRow) : Prop :=
  b.signalScore < a.signalScore ∨ a.signalScore = b.signalScore ∧
    (wingPlace opts a < wingPlace opts b ∨ wingPlace opts a = wingPlace opts b ∧ a.id ≤ b.id)

/-- **The condition.**  Of the memories that qualify: no wing is named twice; when all wings are
included, fewer than 1000 memories are stronger than each of them; and the first one fits. -/
structure AaakFits : Prop where
  wings : ∀ wings ∈ opts.includeWings, ∀ r ∈ s.qualifying opts, ∀ w ∈ r.wing, wings.count w ≤ 1
  listed : opts.includeWings = none → ∀ r ∈ s.qualifying opts, s.stronger r < 1000
  first : ∀ r ∈ s.qualifying opts, (∀ r' ∈ s.qualifying opts, Before opts r r') →
    utf8Len (r.aaakLine u) ≤ opts.maxChars

end

variable {u : CharTables} {opts : AaakOpts} {s : Store} {r : MemoryRow}

/-- What is left of the listing when it is filtered by hall. -/
def aaakCandidates (opts : AaakOpts) (s : Store) : List MemoryRow :=
  (s.aaakMemories opts).filter fun m => opts.HasHall m

theorem mem_qualifying : r ∈ s.qualifying opts ↔ r ∈ s.memories ∧ Qualifies opts r := by
  rw [qualifying, List.mem_filter, decide_eq_true_iff]
  rfl

theorem nodup_qualifying : (s.qualifying opts).Nodup := s.memories.nodup_rows.filter _

/-! ## The candidates -/

/-- The memories of a wing that pass the filter by hall. -/
def wingCandidates (opts : AaakOpts) (s : Store) (w : String) : List MemoryRow :=
  (s.listWingMemories w opts.minSignalScore).filter fun m => opts.HasHall m

theorem mem_wingCandidates {w : String} : r ∈ s.wingCandidates opts w ↔
    r ∈ s.memories ∧ r.wing = some w ∧ opts.minSignalScore ≤ r.signalScore ∧ opts.HasHall r := by
  rw [wingCandidates, listWingMemories, List.mem_filter, List.mem_insertionSort, List.mem_filter,
    Bool.and_eq_true, decide_eq_true_iff, decide_eq_true_iff, decide_eq_true_iff]
  simp only [and_assoc]
  rfl

/-- With wings to include, the candidates are those of each wing, sorted. -/
theorem aaakCandidates_of_wings {wings : List String} (h : opts.includeWings = some wings) :
    s.aaakCandidates opts = (wings.flatMap (s.wingCandidates opts)).insertionSort
      fun a b => b.signalScore ≤ a.signalScore := by
  have htotal : Std.Total fun a b : MemoryRow => b.signalScore ≤ a.signalScore :=
    ⟨fun a b => le_total b.signalScore a.signalScore⟩
  have htrans : IsTrans MemoryRow fun a b => b.signalScore ≤ a.signalScore :=
    ⟨fun _ _ _ hab hbc => hbc.trans hab⟩
  unfold aaakCandidates aaakMemories
  rw [h]
  dsimp only
  rw [filter_insertionSort, List.filter_flatMap]
  rfl

theorem mem_aaakCandidates_of_wings {wings : List String} (h : opts.includeWings = some wings) :
    r ∈ s.aaakCandidates opts ↔ r ∈ s.qualifying opts := by
  rw [aaakCandidates_of_wings h, List.mem_insertionSort, List.mem_flatMap, mem_qualifying, Qualifies]
  simp only [mem_wingCandidates, h, Option.mem_def, Option.some.injEq, forall_eq']
  constructor
  · rintro ⟨w, hw, hr, hwing, hsignal, hhall⟩
    exact ⟨hr, hhall, ⟨w, hwing, hw⟩, hsignal⟩
  · rintro ⟨hr, hhall, ⟨w, hwing, hw⟩, hsignal⟩
    exact ⟨w, hw, hr, hwing, hsignal, hhall⟩

theorem mem_aaakCandidates_of_none (h : opts.includeWings = none) :
    r ∈ s.aaakCandidates opts ↔ r ∈ s.qualifying opts ∧ s.stronger r < 1000 := by
  unfold aaakCandidates aaakMemories
  rw [h, mem_qualifying, Qualifies]
  dsimp only
  rw [List.mem_filter, decide_eq_true_iff, h]
  constructor
  · rintro ⟨hlisted, hhall⟩
    have hr := mem_of_mem_listMemoriesBySignal hlisted
    have hsignal := signalScore_of_mem_listMemoriesBySignal hlisted
    exact ⟨⟨hr, hhall, nofun, hsignal⟩,
      (mem_listMemoriesBySignal_iff (by norm_num) hr hsignal).1 hlisted⟩
  · rintro ⟨⟨hr, hhall, -, hsignal⟩, hfew⟩
    exact ⟨(mem_listMemoriesBySignal_iff (by norm_num) hr hsignal).2 hfew, hhall⟩

/-! ### Each of them once -/

/-- A wing is named twice if and only if it is at two places. -/
theorem one_lt_count_iff {wings : List String} {w : String} :
    1 < wings.count w ↔ ∃ i j : Fin wings.length, i < j ∧ wings.get i = w ∧ wings.get j = w := by
  rw [← Nat.succ_le_iff, ← List.duplicate_iff_two_le_count, List.duplicate_iff_exists_distinct_get]
  constructor
  · rintro ⟨i, j, hij, hi, hj⟩
    exact ⟨i, j, hij, hi.symm, hj.symm⟩
  · rintro ⟨i, j, hij, hi, hj⟩
    exact ⟨i, j, hij, hi.symm, hj.symm⟩

theorem nodup_wingCandidates (w : String) : (s.wingCandidates opts w).Nodup :=
  (((List.perm_insertionSort _ _).nodup_iff).2 (s.memories.nodup_rows.filter _)).filter _

/-- The candidates of some wings are the memories that qualify, each once, if and only if no wing of
these is named twice. -/
theorem perm_of_wings_iff {wings : List String} (h : opts.includeWings = some wings) :
    (s.aaakCandidates opts).Perm (s.qualifying opts) ↔
      ∀ r ∈ s.qualifying opts, ∀ w ∈ r.wing, wings.count w ≤ 1 := by
  have hmem : ∀ r, r ∈ s.aaakCandidates opts ↔ r ∈ s.qualifying opts :=
    fun _ => mem_aaakCandidates_of_wings h
  have hnodup : (s.aaakCandidates opts).Perm (s.qualifying opts) ↔
      (s.aaakCandidates opts).Nodup :=
    ⟨fun hperm => hperm.nodup_iff.2 nodup_qualifying,
      fun hn => (List.perm_ext_iff_of_nodup hn nodup_qualifying).2 hmem⟩
  rw [hnodup, aaakCandidates_of_wings h, (List.perm_insertionSort _ _).nodup_iff, List.nodup_flatMap,
    and_iff_right fun w _ => nodup_wingCandidates w, List.pairwise_iff_get]
  constructor
  · intro hdisjoint r hr w hw
    by_contra htwice
    obtain ⟨i, j, hij, hi, hj⟩ := one_lt_count_iff.1 (not_le.1 htwice)
    obtain ⟨hrow, hhall, -, hsignal⟩ := mem_qualifying.1 hr
    have hin : r ∈ s.wingCandidates opts w := mem_wingCandidates.2 ⟨hrow, hw, hsignal, hhall⟩
    have hapart := hdisjoint i j hij
    rw [Function.onFun, hi, hj] at hapart
    exact hapart hin hin
  · intro honce i j hij r hri hrj
    obtain ⟨hrow, hwing, hsignal, hhall⟩ := mem_wingCandidates.1 hri
    have hsame : wings.get j = wings.get i :=
      Option.some.inj ((mem_wingCandidates.1 hrj).2.1.symm.trans hwing)
    have hqualifies : r ∈ s.qualifying opts := by
      rw [← mem_aaakCandidates_of_wings h, aaakCandidates_of_wings h, List.mem_insertionSort]
      exact List.mem_flatMap.2 ⟨wings.get i, List.get_mem wings i, hri⟩
    have htwice : 1 < wings.count (wings.get i) := one_lt_count_iff.2 ⟨i, j, hij, rfl, hsame⟩
    exact absurd (honce r hqualifies _ hwing) (not_le.2 htwice)

/-- The candidates of all wings are the memories that qualify if and only if fewer than 1000
memories are stronger than each of these. -/
theorem perm_of_none_iff (h : opts.includeWings = none) :
    (s.aaakCandidates opts).Perm (s.qualifying opts) ↔
      ∀ r ∈ s.qualifying opts, s.stronger r < 1000 := by
  have hnodup : (s.aaakCandidates opts).Nodup := by
    unfold aaakCandidates aaakMemories
    rw [h]
    exact (nodup_listMemoriesBySignal _ _).filter _
  rw [List.perm_ext_iff_of_nodup hnodup nodup_qualifying]
  simp only [mem_aaakCandidates_of_none h, and_iff_left_iff_imp]

/-! ### Their order -/

/-- A wing that is named once is found at its place. -/
theorem wingPlace_lt {wings : List String} (h : opts.includeWings = some wings) {a b : MemoryRow}
    {i j : Fin wings.length} (hij : i < j) (ha : a.wing = some (wings.get i))
    (hb : b.wing = some (wings.get j)) (honce : wings.count (wings.get j) ≤ 1) :
    wingPlace opts a < wingPlace opts b := by
  have hplace : ∀ r : MemoryRow, wingPlace opts r = wings.findIdx fun w => r.wing = some w := by
    intro r
    rw [wingPlace, h]
  rw [hplace, hplace]
  have hle : (wings.findIdx fun w => a.wing = some w) ≤ i := by
    by_contra hlt
    have hnot := List.not_of_lt_findIdx (not_le.1 hlt)
    simp [ha] at hnot
  have hfound : (wings.findIdx fun w => b.wing = some w) < wings.length :=
    List.findIdx_lt_length_of_exists ⟨wings.get j, List.get_mem wings j, decide_eq_true hb⟩
  have hat : wings.get ⟨_, hfound⟩ = wings.get j := by
    have hwing : b.wing = some (wings.get ⟨_, hfound⟩) :=
      of_decide_eq_true (List.findIdx_getElem (w := hfound))
    exact Option.some.inj (hwing.symm.trans hb)
  have hge : (j : ℕ) ≤ wings.findIdx fun w => b.wing = some w := by
    by_contra hlt
    have htwice : 1 < wings.count (wings.get j) :=
      one_lt_count_iff.2 ⟨⟨_, hfound⟩, j, not_le.1 hlt, hat, rfl⟩
    exact absurd honce (not_le.2 htwice)
  have hij' : (i : ℕ) < j := hij
  omega

theorem pairwise_wingCandidates {wings : List String} (h : opts.includeWings = some wings)
    (honce : ∀ r ∈ s.qualifying opts, ∀ w ∈ r.wing, wings.count w ≤ 1) :
    (s.aaakCandidates opts).Pairwise (Before opts) := by
  rw [aaakCandidates_of_wings h]
  refine (pairwise_stable (r := fun a b => a.signalScore = b.signalScore →
    wingPlace opts a < wingPlace opts b ∨ wingPlace opts a = wingPlace opts b ∧ a.id ≤ b.id) ?_).imp
      fun hab => hab.imp_right fun ⟨heq, htie⟩ => ⟨heq, htie heq⟩
  rw [List.pairwise_flatMap, List.pairwise_iff_get]
  constructor
  · intro w _
    have hsorted : (s.wingCandidates opts w).Pairwise MemoryRow.StrongerFirst :=
      (pairwise_strongerFirst _).sublist List.filter_sublist
    refine hsorted.imp_of_mem fun {a b} ha hb hab heq => Or.inr ⟨?_, ?_⟩
    · have hwing : a.wing = b.wing :=
        (mem_wingCandidates.1 ha).2.1.trans (mem_wingCandidates.1 hb).2.1.symm
      unfold wingPlace
      rw [hwing]
    · rcases hab with hlt | ⟨-, hid⟩
      · exact absurd heq hlt.ne'
      · exact hid
  · intro i j hij a ha b hb _
    have hqualifies : b ∈ s.qualifying opts := by
      rw [← mem_aaakCandidates_of_wings h, aaakCandidates_of_wings h, List.mem_insertionSort]
      exact List.mem_flatMap.2 ⟨wings.get j, List.get_mem wings j, hb⟩
    have hwing := (mem_wingCandidates.1 hb).2.1
    exact Or.inl (wingPlace_lt h hij (mem_wingCandidates.1 ha).2.1 hwing
      (honce b hqualifies _ hwing))

theorem pairwise_noWings (h : opts.includeWings = none) :
    (s.aaakCandidates opts).Pairwise (Before opts) := by
  have hplace : ∀ r : MemoryRow, wingPlace opts r = 0 := by
    intro r
    rw [wingPlace, h]
  unfold aaakCandidates aaakMemories
  rw [h]
  refine ((pairwise_listMemoriesBySignal _ _).sublist List.filter_sublist).imp fun {a b} hab =>
    hab.imp_right fun ⟨heq, hid⟩ => ⟨heq, Or.inr ⟨?_, hid⟩⟩
  rw [hplace, hplace]

/-! ## The block -/

/-- The candidates are the memories that qualify, each once. -/
theorem perm_aaakCandidates_iff : (s.aaakCandidates opts).Perm (s.qualifying opts) ↔
    (∀ wings ∈ opts.includeWings, ∀ r ∈ s.qualifying opts, ∀ w ∈ r.wing, wings.count w ≤ 1) ∧
      (opts.includeWings = none → ∀ r ∈ s.qualifying opts, s.stronger r < 1000) := by
  cases h : opts.includeWings with
  | none => simp [perm_of_none_iff h]
  | some wings => simp [perm_of_wings_iff h]

theorem pairwise_aaakCandidates (h : (s.aaakCandidates opts).Perm (s.qualifying opts)) :
    (s.aaakCandidates opts).Pairwise (Before opts) := by
  cases hwings : opts.includeWings with
  | none => exact pairwise_noWings hwings
  | some wings => exact pairwise_wingCandidates hwings ((perm_of_wings_iff hwings).1 h)

theorem Before.refl (r : MemoryRow) : Before opts r r := Or.inr ⟨rfl, Or.inr ⟨rfl, le_rfl⟩⟩

theorem Before.signalScore_le {a b : MemoryRow} (h : Before opts a b) :
    b.signalScore ≤ a.signalScore := by
  rcases h with h | ⟨heq, -⟩
  · exact h.le
  · exact heq.ge

theorem Before.id_eq {a b : MemoryRow} (h : Before opts a b) (h' : Before opts b a) :
    a.id = b.id := by
  rcases h with h | ⟨heq, h⟩
  · exact absurd h'.signalScore_le (not_le.2 h)
  · rcases h' with h' | ⟨-, h'⟩
    · exact absurd heq h'.ne'.symm
    · rcases h with h | ⟨hplace, hid⟩
      · rcases h' with h' | ⟨hplace', -⟩
        · exact absurd h (lt_asymm h')
        · exact absurd hplace' h.ne'
      · rcases h' with h' | ⟨-, hid'⟩
        · exact absurd hplace h'.ne'
        · exact le_antisymm hid hid'

/-- The first candidate is the one that comes before all that qualify. -/
theorem head_aaakCandidates_iff (h : (s.aaakCandidates opts).Perm (s.qualifying opts)) :
    (∀ r ∈ s.qualifying opts, (∀ r' ∈ s.qualifying opts, Before opts r r') →
        utf8Len (r.aaakLine u) ≤ opts.maxChars) ↔
      ∀ r ∈ (s.aaakCandidates opts).head?, utf8Len (r.aaakLine u) ≤ opts.maxChars := by
  have hsorted := pairwise_aaakCandidates h
  cases hlist : s.aaakCandidates opts with
  | nil =>
    rw [hlist] at h
    simp [h.nil_eq.symm]
  | cons a l =>
    rw [hlist] at h hsorted
    have hbefore : ∀ r' ∈ s.qualifying opts, Before opts a r' := by
      intro r' hr'
      rcases List.mem_cons.1 (h.mem_iff.2 hr') with rfl | hr'
      · exact .refl r'
      · exact (List.pairwise_cons.1 hsorted).1 r' hr'
    have ha : a ∈ s.qualifying opts := h.mem_iff.1 List.mem_cons_self
    simp only [List.head?_cons, Option.mem_def, Option.some.injEq, forall_eq']
    constructor
    · intro hall
      exact hall a ha hbefore
    · intro hfits r hr hfirst
      have hsame : r = a := eq_of_id (mem_qualifying.1 hr).1 (mem_qualifying.1 ha).1
        ((hfirst a ha).id_eq (hbefore r hr))
      rwa [hsame]

theorem utf8Len_flatMap_aaakLine (included : List MemoryRow) :
    utf8Len (included.flatMap (MemoryRow.aaakLine u)) =
      totalSize (fun m => utf8Len (m.aaakLine u)) included := by
  induction included with
  | nil => rfl
  | cons a l ih => rw [List.flatMap_cons, utf8Len_append, totalSize_cons, ih]

/-- A text within the budget is estimated within the tokens. -/
theorem asUsize_ceil_le {n : ℕ} (hpos : 0 < opts.charsPerToken) (h : n ≤ opts.maxChars) :
    asUsize (n / opts.charsPerToken : ℚ).ceil ≤ opts.maxTokens := by
  have hn : (n : ℤ) ≤ (opts.maxTokens * opts.charsPerToken).floor := by
    have hfloor : n ≤ (opts.maxTokens * opts.charsPerToken).floor.toNat := h.trans (min_le_left _ _)
    have hnonneg : (0 : ℤ) ≤ (opts.maxTokens * opts.charsPerToken).floor := by
      rw [Rat.le_floor_iff]
      simpa using mul_nonneg (Nat.cast_nonneg opts.maxTokens) hpos.le
    omega
  have hle : (n : ℚ) ≤ opts.maxTokens * opts.charsPerToken := by
    exact_mod_cast Rat.le_floor_iff.1 hn
  have hceil : (n / opts.charsPerToken : ℚ).ceil ≤ opts.maxTokens := by
    rw [Rat.ceil_le_iff]
    exact_mod_cast (div_le_iff₀ hpos).2 hle
  exact (min_le_left _ _).trans (by omega)

/-- What is counted are the candidates. -/
theorem factCount_add_excludedCount : (s.aaak u opts).factCount + (s.aaak u opts).excludedCount =
    (s.aaakCandidates opts).length := by
  have hbegins : fillAtLeastOne (fun m => utf8Len (m.aaakLine u)) opts.maxChars
      (s.aaakCandidates opts) <+: s.aaakCandidates opts := fillAtLeastOne_prefix
  exact Nat.add_sub_of_le hbegins.length_le

/-- The count is right if and only if the candidates are the memories that qualify, each once. -/
theorem perm_of_counted (h : (s.aaakCandidates opts).length = (s.qualifying opts).length) :
    (s.aaakCandidates opts).Perm (s.qualifying opts) := by
  cases hwings : opts.includeWings with
  | none =>
    have hnodup : (s.aaakCandidates opts).Nodup := by
      unfold aaakCandidates aaakMemories
      rw [hwings]
      exact (nodup_listMemoriesBySignal _ _).filter _
    exact (List.subperm_of_subset hnodup fun r hr =>
      ((mem_aaakCandidates_of_none hwings).1 hr).1).perm_of_length_le h.ge
  | some wings =>
    exact ((List.subperm_of_subset nodup_qualifying fun r hr =>
      (mem_aaakCandidates_of_wings hwings).2 hr).perm_of_length_le h.le).symm

/-- **Every store and all options**: the block is the best beginning within the budget if and only
if the condition holds. -/
theorem aaak_best_iff (u : CharTables) (opts : AaakOpts) (s : Store)
    (hpos : 0 < opts.charsPerToken) :
    BestPrefix u opts s (s.aaak u opts) ↔ AaakFits u opts s := by
  have hformatted : (s.aaak u opts).formatted =
      (fillAtLeastOne (fun m => utf8Len (m.aaakLine u)) opts.maxChars
        (s.aaakCandidates opts)).flatMap (MemoryRow.aaakLine u) := rfl
  constructor
  · intro h
    have hperm : (s.aaakCandidates opts).Perm (s.qualifying opts) :=
      perm_of_counted (factCount_add_excludedCount.symm.trans h.counted)
    obtain ⟨hwings, hlisted⟩ := perm_aaakCandidates_iff.1 hperm
    refine ⟨hwings, hlisted, (head_aaakCandidates_iff hperm).2 fun a ha => ?_⟩
    -- were the first one too long, it would be the whole block
    by_contra hlong
    obtain ⟨l, hl⟩ := List.head?_eq_some_iff.1 ha
    obtain ⟨-, included, -, -, -, hfits, -, htext, -⟩ := h.facts
    have hwhole : fillAtLeastOne (fun m => utf8Len (m.aaakLine u)) opts.maxChars (a :: l) = [a] :=
      fillAtLeastOne_of_lt (not_le.1 hlong)
    rw [← htext, hformatted, hl, hwhole, List.flatMap_singleton] at hfits
    exact hlong hfits
  · intro h
    have hperm := perm_aaakCandidates_iff.2 ⟨h.wings, h.listed⟩
    have hfill := fillAtLeastOne_eq ((head_aaakCandidates_iff hperm).1 h.first)
    rw [hfill] at hformatted
    have hfits : utf8Len (s.aaak u opts).formatted ≤ opts.maxChars := by
      have hspent : 0 + totalSize (fun m => utf8Len (m.aaakLine u))
          (fill (fun m => utf8Len (m.aaakLine u)) opts.maxChars 0 (s.aaakCandidates opts)) ≤
            opts.maxChars := fill_fits (Nat.zero_le opts.maxChars)
      rwa [hformatted, utf8Len_flatMap_aaakLine, ← Nat.zero_add (totalSize _ _)]
    refine ⟨asUsize_ceil_le hpos hfits, ⟨s.aaakCandidates opts, _, hperm,
      (pairwise_aaakCandidates hperm).imp fun hab => hab.signalScore_le, fill_prefix,
      hformatted ▸ hfits, fun first hfirst hlen => ?_, hformatted, ?_⟩, ?_⟩
    · rw [utf8Len_flatMap_aaakLine] at hlen
      exact fill_longest hfirst (by rwa [Nat.zero_add])
    · exact congrArg List.length hfill
    · rw [factCount_add_excludedCount, hperm.length_eq]

end Store

/-! ## A line that is too long -/

/-- A fact, and an event. -/
def factAndEvent : Store :=
  { memories := .ofList
      [{ id := "0aa1", key := "auth", content := "use  OAuth", hall := some "fact",
         signalScore := 9 / 10, createdAt := "2026-01-01 09:00:00",
         updatedAt := "2026-01-01 09:00:00" },
        { id := "0bb2", key := "lunch", content := "a sandwich", hall := some "event",
          signalScore := 8 / 10, createdAt := "2026-01-02 09:00:00",
          updatedAt := "2026-01-02 09:00:00" }] }

theorem aaak_best_fact :
    Store.BestPrefix .ascii {} factAndEvent (factAndEvent.aaak .ascii {}) := by
  have hshort : ∀ r ∈ factAndEvent.qualifying {},
      factAndEvent.stronger r < 1000 ∧ utf8Len (r.aaakLine .ascii) ≤ AaakOpts.maxChars {} := by
    decide +kernel
  exact (Store.aaak_best_iff .ascii {} factAndEvent (by decide +kernel)).2
    ⟨nofun, fun _ r hr => (hshort r hr).1, fun r hr _ => (hshort r hr).2⟩

/-- **A long fact**: with two tokens to spend, a line of three is the block. -/
theorem fact_exceeds_budget :
    String.ofList (factAndEvent.aaak .ascii { maxTokens := 2 }).formatted = "- use OAuth\n" ∧
      (factAndEvent.aaak .ascii { maxTokens := 2 }).estimatedTokens = 3 ∧
      ¬ Store.BestPrefix .ascii { maxTokens := 2 } factAndEvent
        (factAndEvent.aaak .ascii { maxTokens := 2 }) := by
  have hblock : String.ofList (factAndEvent.aaak .ascii { maxTokens := 2 }).formatted =
      "- use OAuth\n" := by decide +kernel
  have htokens : (factAndEvent.aaak .ascii { maxTokens := 2 }).estimatedTokens = 3 := by
    decide +kernel
  refine ⟨hblock, htokens, fun h => ?_⟩
  have hwithin := h.within
  rw [htokens] at hwithin
  exact absurd hwithin (by decide)

end Spectral
