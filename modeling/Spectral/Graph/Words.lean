import Spectral.Graph.Canonicalize
import Spectral.Lib.Utf8

/-!
# The words of a text

`extract_words` goes through a text once and remembers where the current word started.

* `IsWord` — a longest run of word characters.
* `isWord_of_mem_extractWords`, `pairwise_extractWords` — what it extracts are such runs, from left
  to right and apart from each other.
* `extractWords_slice` — the words of the part of a text that goes from the start of one of its
  words to the end of another.
* `extractWordsBytes_eq` — the offsets in bytes that the code reports.
-/

namespace Spectral

open Spectral.Lib

/-- The byte at which the character at a place starts. -/
def byteOffset (text : List Char) (i : ℕ) : ℕ := ((text.take i).map Char.utf8Size).sum

@[simp] theorem byteOffset_zero (text : List Char) : byteOffset text 0 = 0 := by
  simp [byteOffset]

theorem byteOffset_succ {text : List Char} {i : ℕ} {c : Char} (h : text[i]? = some c) :
    byteOffset text (i + 1) = byteOffset text i + c.utf8Size := by
  rw [byteOffset, byteOffset, List.take_add_one, h]
  simp

theorem byteOffset_length (s : String) : byteOffset s.toList s.toList.length = s.utf8ByteSize := by
  rw [byteOffset, List.take_length, utf8ByteSize_eq]
  rfl

/-- A character takes at least one byte. -/
theorem byteOffset_lt {text : List Char} {i j : ℕ} (h : i < j) (hj : j ≤ text.length) :
    byteOffset text i < byteOffset text j := by
  refine (utf8Len_lt_iff (List.take_prefix i text) (List.take_prefix j text)).2 ?_
  rw [List.length_take, List.length_take]
  omega

/-- No two places start at the same byte. -/
theorem byteOffset_inj {text : List Char} {i j : ℕ} (hi : i ≤ text.length) (hj : j ≤ text.length) :
    byteOffset text i = byteOffset text j ↔ i = j := by
  refine ⟨fun h => ?_, fun h => by rw [h]⟩
  rcases Nat.lt_trichotomy i j with hlt | heq | hlt
  · have := byteOffset_lt hlt hj
    omega
  · exact heq
  · have := byteOffset_lt hlt hi
    omega

theorem length_toList_slice {text : List Char} {p q : ℕ} (h : p ≤ q) (hq : q ≤ text.length) :
    (slice text p q).toList.length = q - p := by
  rw [slice, String.toList_ofList, List.length_take, List.length_drop]
  omega

/-- A place further to the right, by so many characters. -/
def shiftWord (k : ℕ) (w : ℕ × ℕ) : ℕ × ℕ := (k + w.1, k + w.2)

namespace TextLibrary

variable (lib : TextLibrary)

/-- `extract_words` as the code counts, in bytes, from the byte `i` on. -/
def extractWordsBytesFrom (i : ℕ) (start : Option ℕ) : List Char → List (ℕ × ℕ)
  | [] => (start.map fun s => (s, i)).toList
  | c :: cs =>
    if lib.isWordChar c then extractWordsBytesFrom (i + c.utf8Size) (start.or (some i)) cs
    else (start.map fun s => (s, i)).toList ++ extractWordsBytesFrom (i + c.utf8Size) none cs

/-- `extract_words`, in bytes. -/
def extractWordsBytes (text : List Char) : List (ℕ × ℕ) := lib.extractWordsBytesFrom 0 none text

/-- A longest run of word characters. -/
structure IsWord (text : List Char) (w : ℕ × ℕ) : Prop where
  lt : w.1 < w.2
  le_length : w.2 ≤ text.length
  inside : ∀ k c, w.1 ≤ k → k < w.2 → text[k]? = some c → lib.isWordChar c = true
  before : ∀ k c, k + 1 = w.1 → text[k]? = some c → lib.isWordChar c = false
  after : ∀ c, text[w.2]? = some c → lib.isWordChar c = false

/-- The text begins and ends with a word character. -/
def wordEnds (text : List Char) : Bool :=
  text.head?.any lib.isWordChar && text.getLast?.any lib.isWordChar

/-- What is known where the text was read up to a place: of the word that started, or that none
did. -/
def Reading (before : List Char) : Option ℕ → Prop
  | none => ∀ k c, k + 1 = before.length → before[k]? = some c → lib.isWordChar c = false
  | some s => s < before.length ∧
      (∀ k c, s ≤ k → before[k]? = some c → lib.isWordChar c = true) ∧
      ∀ k c, k + 1 = s → before[k]? = some c → lib.isWordChar c = false

variable {lib : TextLibrary} {before text : List Char} {start : Option ℕ} {c : Char} {w : ℕ × ℕ}

/-! ## Longest runs -/

theorem Reading.wordChar (h : lib.Reading before start) (hc : lib.isWordChar c = true) :
    lib.Reading (before ++ [c]) (start.or (some before.length)) := by
  cases start with
  | none =>
    refine ⟨by simp, fun k d hk hd => ?_, fun k d hk hd => h k d hk (by grind)⟩
    have hd' : d = c := by grind
    rwa [hd']
  | some s =>
    obtain ⟨hs, hin, hbefore⟩ := h
    refine ⟨by simp only [List.length_append]; omega, fun k d hk hd => ?_, fun k d hk hd => ?_⟩
    · by_cases hlast : k < before.length
      · exact hin k d hk (by grind)
      · have hd' : d = c := by grind
        rwa [hd']
    · exact hbefore k d hk (by grind)

theorem Reading.otherChar (hc : lib.isWordChar c = false) : lib.Reading (before ++ [c]) none := by
  intro k d hk hd
  have hd' : d = c := by grind
  rwa [hd']

/-- Where the next character belongs to no word, the word that started is a longest run. -/
theorem Reading.isWord {s : ℕ} {cs : List Char} (h : lib.Reading before (some s))
    (hnext : ∀ d, cs[0]? = some d → lib.isWordChar d = false) :
    lib.IsWord (before ++ cs) (s, before.length) := by
  obtain ⟨hs, hin, hbefore⟩ := h
  exact
    { lt := hs
      le_length := by simp
      inside := fun k d hk hlt hd => hin k d hk (by grind)
      before := fun k d hk hd => hbefore k d hk (by grind)
      after := fun d hd => hnext d (by grind) }

theorem isWord_of_mem_extractWordsFrom (before cs : List Char) (h : lib.Reading before start)
    (hw : w ∈ lib.extractWordsFrom before.length start cs) : lib.IsWord (before ++ cs) w := by
  induction cs generalizing before start with
  | nil =>
    cases start with
    | none => cases hw
    | some s =>
      obtain rfl : w = (s, before.length) := by simpa [extractWordsFrom] using hw
      exact h.isWord (by simp)
  | cons c cs ih =>
    have happend : before ++ c :: cs = before ++ [c] ++ cs := by simp
    have hlength : before.length + 1 = (before ++ [c]).length := by simp
    rw [extractWordsFrom] at hw
    split at hw
    · rename_i hc
      rw [hlength] at hw
      rw [happend]
      exact ih _ (h.wordChar hc) hw
    · rename_i hc
      have hc : lib.isWordChar c = false := by simpa using hc
      rcases List.mem_append.1 hw with hw | hw
      · cases start with
        | none => cases hw
        | some s =>
          obtain rfl : w = (s, before.length) := by simpa using hw
          exact h.isWord (by simp [hc])
      · rw [hlength] at hw
        rw [happend]
        exact ih _ (Reading.otherChar hc) hw

/-- **What is extracted are longest runs of word characters.** -/
theorem isWord_of_mem_extractWords (h : w ∈ lib.extractWords text) : lib.IsWord text w :=
  isWord_of_mem_extractWordsFrom [] text (show lib.Reading [] none by simp [Reading]) h

/-! ## From left to right -/

theorem le_of_mem_extractWordsFrom (i : ℕ) (start : Option ℕ) (cs : List Char)
    (hstart : ∀ s ∈ start, s ≤ i)
    (hw : w ∈ lib.extractWordsFrom i start cs) : start.getD i ≤ w.1 := by
  induction cs generalizing i start with
  | nil =>
    cases start with
    | none => cases hw
    | some s =>
      obtain rfl : w = (s, i) := by simpa [extractWordsFrom] using hw
      exact le_rfl
  | cons c cs ih =>
    have hle : start.getD i ≤ i := by
      cases start with
      | none => exact le_rfl
      | some s => exact hstart s rfl
    rw [extractWordsFrom] at hw
    split at hw
    · cases start with
      | none => exact ih (i + 1) (some i) (by simp) hw
      | some s => exact ih (i + 1) (some s) (fun t ht => (hstart t ht).trans (Nat.le_succ i)) hw
    · rcases List.mem_append.1 hw with hw | hw
      · cases start with
        | none => cases hw
        | some s =>
          obtain rfl : w = (s, i) := by simpa using hw
          exact le_rfl
      · have hlater := ih (i + 1) none (by simp) hw
        simp only [Option.getD_none] at hlater
        omega

theorem pairwise_extractWordsFrom (i : ℕ) (start : Option ℕ) (cs : List Char) :
    (lib.extractWordsFrom i start cs).Pairwise fun w w' => w.2 < w'.1 := by
  induction cs generalizing i start with
  | nil => cases start <;> simp [extractWordsFrom]
  | cons c cs ih =>
    rw [extractWordsFrom]
    split
    · exact ih _ _
    · refine List.pairwise_append.2 ⟨by cases start <;> simp, ih _ _, fun w hw w' hw' => ?_⟩
      have hlater := le_of_mem_extractWordsFrom (i + 1) none cs (by simp) hw'
      have hend : w.2 = i := by
        cases start with
        | none => cases hw
        | some s =>
          obtain rfl : w = (s, i) := by simpa using hw
          rfl
      simp only [Option.getD_none] at hlater
      omega

/-- **The words stand one after the other**, each apart from the next. -/
theorem pairwise_extractWords (lib : TextLibrary) (text : List Char) :
    (lib.extractWords text).Pairwise fun w w' => w.2 < w'.1 :=
  pairwise_extractWordsFrom 0 none text

/-! ## The words of a part -/

theorem extractWordsFrom_shift (lib : TextLibrary) (k i : ℕ) (start : Option ℕ) (cs : List Char) :
    lib.extractWordsFrom (k + i) (start.map (k + ·)) cs =
      (lib.extractWordsFrom i start cs).map (shiftWord k) := by
  induction cs generalizing i start with
  | nil => cases start <;> simp [extractWordsFrom, shiftWord]
  | cons c cs ih =>
    have hor : (start.map (k + ·)).or (some (k + i)) = (start.or (some i)).map (k + ·) := by
      cases start <;> rfl
    rw [extractWordsFrom, extractWordsFrom]
    split
    · rw [hor, Nat.add_assoc, ih]
    · have hrest := ih (i + 1) none
      rw [Option.map_none] at hrest
      rw [Nat.add_assoc, hrest, List.map_append]
      cases start <;> simp [shiftWord]

/-- A text whose second part begins with no word character has the words of its parts. -/
theorem extractWordsFrom_append (i : ℕ) (start : Option ℕ) (cs : List Char) {rest : List Char}
    (hrest : ∀ c, rest[0]? = some c → lib.isWordChar c = false) :
    lib.extractWordsFrom i start (cs ++ rest) =
      lib.extractWordsFrom i start cs ++ lib.extractWordsFrom (i + cs.length) none rest := by
  induction cs generalizing i start with
  | nil =>
    cases rest with
    | nil => simp [extractWordsFrom]
    | cons c rest => simp [extractWordsFrom, hrest c rfl]
  | cons c cs ih =>
    have hlength : i + (c :: cs).length = i + 1 + cs.length := by
      simp only [List.length_cons]
      omega
    rw [List.cons_append, extractWordsFrom, extractWordsFrom, hlength]
    split
    · exact ih _ _
    · rw [ih, List.append_assoc]

/-- A text whose first part ends with no word character has the words of its parts. -/
theorem extractWords_append (cs rest : List Char)
    (hcs : ∀ k c, k + 1 = cs.length → cs[k]? = some c → lib.isWordChar c = false) :
    lib.extractWords (cs ++ rest) =
      lib.extractWords cs ++ lib.extractWordsFrom cs.length none rest := by
  rcases List.eq_nil_or_concat cs with rfl | ⟨cs', c, rfl⟩
  · simp [extractWords, extractWordsFrom]
  · have hc : lib.isWordChar c = false := hcs cs'.length c (by simp) (by simp)
    have hboth : ∀ rest' : List Char, lib.extractWordsFrom 0 none (cs' ++ c :: rest') =
        lib.extractWordsFrom 0 none cs' ++ lib.extractWordsFrom (cs'.length + 1) none rest' := by
      intro rest'
      rw [extractWordsFrom_append 0 none cs' (by simp [hc]), extractWordsFrom, Nat.zero_add]
      simp [hc]
    have hshort := hboth []
    have hlong := hboth rest
    rw [extractWordsFrom, Option.map_none, Option.toList_none, List.append_nil] at hshort
    simp only [extractWords, List.append_assoc, List.concat_eq_append, List.length_append,
      List.length_singleton, List.singleton_append]
    rw [hshort, hlong]

/-- The words from the one to the other, picked out of all of them. -/
theorem filter_between (before inner after : List (ℕ × ℕ)) {p q : ℕ}
    (hbefore : ∀ w ∈ before, w.1 < p) (hinner : ∀ w ∈ inner, p ≤ w.1 ∧ w.2 ≤ q)
    (hafter : ∀ w ∈ after, q < w.2) :
    (before ++ (inner ++ after)).filter (fun w => decide (p ≤ w.1 ∧ w.2 ≤ q)) = inner := by
  have hnone : before.filter (fun w => decide (p ≤ w.1 ∧ w.2 ≤ q)) = [] := by
    simp only [List.filter_eq_nil_iff, decide_eq_true_eq]
    intro w hw h
    have := hbefore w hw
    omega
  have hnone' : after.filter (fun w => decide (p ≤ w.1 ∧ w.2 ≤ q)) = [] := by
    simp only [List.filter_eq_nil_iff, decide_eq_true_eq]
    intro w hw h
    have := hafter w hw
    omega
  have hall : inner.filter (fun w => decide (p ≤ w.1 ∧ w.2 ≤ q)) = inner := by
    simpa using fun a b hw => hinner (a, b) hw
  rw [List.filter_append, List.filter_append, hnone, hnone', hall, List.nil_append, List.append_nil]

/-- The words of a stretch lie between the start of the first and the end of the last. -/
theorem between_of_pairwise {inner : List (ℕ × ℕ)} {first last : ℕ × ℕ}
    (hsorted : inner.Pairwise fun w w' => w.2 < w'.1) (hlt : ∀ w ∈ inner, w.1 < w.2)
    (hfirst : inner.head? = some first) (hlast : inner.getLast? = some last) :
    ∀ w ∈ inner, first.1 ≤ w.1 ∧ w.2 ≤ last.2 := by
  intro w hw
  constructor
  · obtain ⟨tail, rfl⟩ := List.head?_eq_some_iff.1 hfirst
    rcases List.mem_cons.1 hw with rfl | htail
    · exact le_rfl
    · have hnext := List.rel_of_pairwise_cons hsorted htail
      have := hlt first (by simp)
      omega
  · obtain ⟨init, rfl⟩ := List.getLast?_eq_some_iff.1 hlast
    rcases List.mem_append.1 hw with hinit | hw
    · have hnext := (List.pairwise_append.1 hsorted).2.2 w hinit last (by simp)
      have := hlt last (by simp)
      omega
    · rw [List.mem_singleton.1 hw]

/-- A text that is cut where no word goes on has the words of the three parts. -/
theorem extractWords_cut {p q : ℕ} (hle : p ≤ q) (hq : q ≤ text.length)
    (hbefore : ∀ k c, k + 1 = p → text[k]? = some c → lib.isWordChar c = false)
    (hafter : ∀ c, text[q]? = some c → lib.isWordChar c = false) :
    lib.extractWords text = lib.extractWords (text.take p) ++
      ((lib.extractWords (slice text p q).toList).map (shiftWord p) ++
        lib.extractWordsFrom q none (text.drop q)) := by
  have htake : (text.take p).length = p := by
    rw [List.length_take]
    omega
  have hlength := length_toList_slice hle hq
  have htext : text = text.take p ++ ((slice text p q).toList ++ text.drop q) := by
    have hrest : text.drop q = (text.drop p).drop (q - p) := by
      rw [List.drop_drop]
      congr 1
      omega
    rw [slice, String.toList_ofList, hrest, List.take_append_drop, List.take_append_drop]
  have hcut := extractWords_append (text.take p) ((slice text p q).toList ++ text.drop q)
    (fun k c hk hc => hbefore k c (by omega) (by grind))
  have hshift := lib.extractWordsFrom_shift p 0 none (slice text p q).toList
  have hend : p + (slice text p q).toList.length = q := by omega
  rw [Option.map_none, Nat.add_zero] at hshift
  rw [← htext, htake, extractWordsFrom_append p none _ (fun c hc => hafter c (by simpa using hc)), hend,
    hshift] at hcut
  exact hcut

/-- **The words of a part.**  The part of a text from the start of a word to the end of a word has
the words from the one to the other. -/
theorem extractWords_slice {before inner after : List (ℕ × ℕ)} {first last : ℕ × ℕ}
    (h : lib.extractWords text = before ++ inner ++ after) (hfirst : inner.head? = some first)
    (hlast : inner.getLast? = some last) :
    (lib.extractWords (slice text first.1 last.2).toList).map (shiftWord first.1) = inner := by
  have hword : ∀ w ∈ before ++ inner ++ after, lib.IsWord text w :=
    fun w hw => isWord_of_mem_extractWords (h ▸ hw)
  have hsorted := lib.pairwise_extractWords text
  rw [h, List.append_assoc, List.pairwise_append, List.pairwise_append] at hsorted
  obtain ⟨-, ⟨hinner, -, hafter⟩, hbefore⟩ := hsorted
  have hfirstmem : first ∈ inner := List.mem_of_mem_head? hfirst
  have hlastmem : last ∈ inner := List.mem_of_mem_getLast? hlast
  have hwordfirst := hword first (by simp [hfirstmem])
  have hwordlast := hword last (by simp [hlastmem])
  have hbetween := between_of_pairwise hinner (fun w hw => (hword w (by simp [hw])).lt) hfirst hlast
  have hle : first.1 ≤ last.2 := (hwordfirst.lt.trans_le (hbetween first hfirstmem).2).le
  have hcut := extractWords_cut hle hwordlast.le_length hwordfirst.before hwordlast.after
  -- the words of the part are those of the text between the two places, and so are these
  have hpart := filter_between (lib.extractWords (text.take first.1))
    ((lib.extractWords (slice text first.1 last.2).toList).map (shiftWord first.1))
    (lib.extractWordsFrom last.2 none (text.drop last.2)) (p := first.1) (q := last.2)
    (fun w hw => ?_) (fun w hw => ?_) (fun w hw => ?_)
  · rw [← hpart, ← hcut, h, List.append_assoc]
    refine filter_between before inner after (fun w hw => ?_) hbetween (fun w hw => ?_)
    · have hlt := (hword w (by simp [hw])).lt
      have := hbefore w hw first (List.mem_append_left _ hfirstmem)
      omega
    · have hlt := (hword w (by simp [hw])).lt
      have := hafter last hlastmem w hw
      omega
  · have hw' := isWord_of_mem_extractWords hw
    have hlt := hw'.lt
    have hshort := hw'.le_length
    rw [List.length_take] at hshort
    omega
  · obtain ⟨v, hv, rfl⟩ := List.mem_map.1 hw
    have hshort := (isWord_of_mem_extractWords hv).le_length
    rw [length_toList_slice hle hwordlast.le_length] at hshort
    simp only [shiftWord]
    omega
  · have hlow := le_of_mem_extractWordsFrom _ none _ (by simp) hw
    have hlt : w.1 < w.2 :=
      (show lib.IsWord text w from isWord_of_mem_extractWords (by simp [hcut, hw])).lt
    rw [Option.getD_none] at hlow
    omega

/-! ## Where a text begins and ends -/

theorem head?_extractWordsFrom (lib : TextLibrary) (i s : ℕ) (cs : List Char) :
    ∃ j, (lib.extractWordsFrom i (some s) cs).head? = some (s, j) := by
  induction cs generalizing i with
  | nil => exact ⟨i, rfl⟩
  | cons c cs ih =>
    rw [extractWordsFrom]
    split
    · exact ih _
    · exact ⟨i, rfl⟩

theorem getLast?_extractWordsFrom (i : ℕ) (start : Option ℕ) (cs : List Char)
    (hc : lib.isWordChar c = true) :
    ∃ s, (lib.extractWordsFrom i start (cs ++ [c])).getLast? = some (s, i + cs.length + 1) := by
  induction cs generalizing i start with
  | nil =>
    cases start with
    | none => exact ⟨i, by simp [extractWordsFrom, hc]⟩
    | some s => exact ⟨s, by simp [extractWordsFrom, hc]⟩
  | cons d cs ih =>
    have hlength : i + (d :: cs).length + 1 = i + 1 + cs.length + 1 := by
      simp only [List.length_cons]
      omega
    rw [List.cons_append, extractWordsFrom, hlength]
    split
    · exact ih _ _
    · obtain ⟨s, hs⟩ := ih (i + 1) none
      exact ⟨s, by rw [List.getLast?_append, hs, Option.some_or]⟩

/-- **The first word starts with the text and the last one ends with it** where the text begins and
ends with a word character. -/
theorem wordEnds_iff : lib.wordEnds text = true ↔
    ∃ first last, (lib.extractWords text).head? = some first ∧
      (lib.extractWords text).getLast? = some last ∧ first.1 = 0 ∧ last.2 = text.length := by
  simp only [wordEnds, Bool.and_eq_true, Option.any_eq_true]
  constructor
  · rintro ⟨⟨c, hc, hcword⟩, d, hd, hdword⟩
    obtain ⟨tail, htail⟩ := List.head?_eq_some_iff.1 hc
    obtain ⟨init, hinit⟩ := List.getLast?_eq_some_iff.1 hd
    obtain ⟨j, hj⟩ := lib.head?_extractWordsFrom 1 0 tail
    obtain ⟨s, hs⟩ := getLast?_extractWordsFrom 0 none init hdword
    have hwords : lib.extractWords text = lib.extractWordsFrom 1 (some 0) tail := by
      rw [extractWords, htail, extractWordsFrom, if_pos hcword]
      rfl
    refine ⟨(0, j), (s, text.length), by rw [hwords, hj], ?_, rfl, rfl⟩
    rw [extractWords, hinit, hs]
    simp
  · rintro ⟨first, last, hfirst, hlast, hzero, hlength⟩
    have hwordfirst := isWord_of_mem_extractWords (List.mem_of_mem_head? hfirst)
    have hwordlast := isWord_of_mem_extractWords (List.mem_of_mem_getLast? hlast)
    have hlt := hwordfirst.lt
    have hle := hwordfirst.le_length
    obtain ⟨c, hc⟩ : ∃ c, text[0]? = some c :=
      ⟨_, List.getElem?_eq_getElem (by omega : 0 < text.length)⟩
    obtain ⟨d, hd⟩ : ∃ d, text[text.length - 1]? = some d :=
      ⟨_, List.getElem?_eq_getElem (by omega : text.length - 1 < text.length)⟩
    have hlt' := hwordlast.lt
    refine ⟨⟨c, by rw [List.head?_eq_getElem?, hc], ?_⟩, d, by rw [List.getLast?_eq_getElem?, hd], ?_⟩
    · exact hwordfirst.inside 0 c (by omega) (by omega) hc
    · exact hwordlast.inside _ d (by omega) (by omega) hd

/-! ## Bytes -/

theorem extractWordsBytesFrom_eq (lib : TextLibrary) (before cs : List Char) (start : Option ℕ) :
    lib.extractWordsBytesFrom (byteOffset (before ++ cs) before.length)
        (start.map (byteOffset (before ++ cs))) cs =
      (lib.extractWordsFrom before.length start cs).map fun w =>
        (byteOffset (before ++ cs) w.1, byteOffset (before ++ cs) w.2) := by
  induction cs generalizing before start with
  | nil => cases start <;> simp [extractWordsFrom, extractWordsBytesFrom]
  | cons c cs ih =>
    have happend : before ++ c :: cs = before ++ [c] ++ cs := by simp
    have hnext : byteOffset (before ++ c :: cs) before.length + c.utf8Size =
        byteOffset (before ++ c :: cs) (before ++ [c]).length := by
      rw [List.length_append, List.length_singleton, byteOffset_succ (c := c) (by simp)]
    have hlength : before.length + 1 = (before ++ [c]).length := by simp
    rw [extractWordsFrom, extractWordsBytesFrom, hnext, hlength]
    have hrest := ih (before ++ [c])
    rw [← happend] at hrest
    split
    · rw [← hrest]
      cases start <;> rfl
    · have hnone := hrest none
      rw [Option.map_none] at hnone
      rw [hnone, List.map_append]
      cases start <;> simp

/-- **The words in bytes** are the words, each place at its byte. -/
theorem extractWordsBytes_eq (lib : TextLibrary) (text : List Char) :
    lib.extractWordsBytes text =
      (lib.extractWords text).map fun w => (byteOffset text w.1, byteOffset text w.2) := by
  simpa [extractWordsBytes, extractWords] using
    lib.extractWordsBytesFrom_eq [] text none

end TextLibrary

end Spectral
