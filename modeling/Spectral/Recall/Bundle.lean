import Spectral.Lib.Utf8
import Spectral.Recall.Search

/-!
# Context bundles

The entries of a prompt are added until one does not fit; of that one as much is added as the budget
has room for, if that is more than a stub.  The running count has one byte for the separator after
each entry.

* `buildContextBundle` — the bundle; `none` where a slice panics.
* `Bundled` — what a bundle is to be: the entries that fit, with at most the next one clipped, in the
  budget.
* `bundled_buildContextBundle` — it is that, and no slice panics.
* `buildContextBundle_eq` — the parts are those that prompts are put together from.
-/

namespace Spectral

open Spectral.Lib

/-- The entry for a hit. -/
def bundleEntry (m : MemoryHit) : String :=
  "[" ++ m.wing.getD "unknown" ++ "/" ++ m.hall.getD "unknown" ++ "] " ++ m.key ++ ": " ++ m.content

/-- The loop of `build_context_bundle`, from a running count on. -/
def bundleLoop (maxChars : ℕ) : ℕ → List MemoryHit → Option (List String)
  | _, [] => some []
  | charCount, m :: memories =>
    let entry := bundleEntry m
    if maxChars < charCount + entry.utf8ByteSize then
      let remaining := maxChars - charCount
      if 50 < remaining then
        let cut := floorBoundary entry (min remaining entry.utf8ByteSize)
        (sliceTo entry cut).map fun text => [text ++ "..."]
      else some []
    else (bundleLoop maxChars (charCount + entry.utf8ByteSize + 1) memories).map (entry :: ·)

/-- `build_context_bundle`. -/
def buildContextBundle (memories : List MemoryHit) (maxChars : ℕ) : Option String :=
  (bundleLoop maxChars 0 memories).map ("\n".intercalate ·)

/-! ## What the loop leaves -/

/-- The bytes of some entries, with a separator after each. -/
def lineBytes (entries : List String) : ℕ := (entries.map fun e => e.utf8ByteSize + 1).sum

@[simp] theorem lineBytes_nil : lineBytes [] = 0 := rfl

@[simp] theorem lineBytes_cons (e : String) (es : List String) :
    lineBytes (e :: es) = e.utf8ByteSize + 1 + lineBytes es := by
  simp [lineBytes]

@[simp] theorem lineBytes_append (es es' : List String) :
    lineBytes (es ++ es') = lineBytes es + lineBytes es' := by
  simp [lineBytes]

/-- Joined, the last entry has no separator behind it. -/
theorem utf8ByteSize_intercalate {es : List String} (h : es ≠ []) :
    ("\n".intercalate es).utf8ByteSize + 1 = lineBytes es := by
  induction es with
  | nil => exact absurd rfl h
  | cons e es ih =>
    cases es with
    | nil =>
      rw [String.intercalate_singleton]
      simp
    | cons e' es =>
      rw [String.intercalate_cons_cons, String.utf8ByteSize_append, String.utf8ByteSize_append,
        lineBytes_cons, ← ih (List.cons_ne_nil _ _)]
      have hsep : "\n".utf8ByteSize = 1 := by decide
      omega

/-- The first `k` entries in full, and nothing else or the beginning of the next one, marked as
clipped, with so many bytes. -/
inductive Clipped (entries : List String) (k : ℕ) : Option ℕ → List String → Prop
  | whole : Clipped entries k none (entries.take k)
  | clipped {text rest : String} (hnext : entries[k]? = some (text ++ rest)) (hrest : rest ≠ "") :
      Clipped entries k (some text.utf8ByteSize) (entries.take k ++ [text ++ "..."])

/-- **The loop**: the entries that fit, and what is left of the budget, or less, of the next one. -/
theorem bundleLoop_spec (maxChars charCount : ℕ) (memories : List MemoryHit) :
    ∃ k ≤ memories.length, ∃ clip parts, bundleLoop maxChars charCount memories = some parts ∧
      (∀ n ≤ memories.length, n ≤ k ↔
        n = 0 ∨ charCount + lineBytes ((memories.map bundleEntry).take n) ≤ maxChars + 1) ∧
      Clipped (memories.map bundleEntry) k clip parts ∧
      ∀ n ∈ clip, charCount + lineBytes ((memories.map bundleEntry).take k) + n ≤ maxChars := by
  induction memories generalizing charCount with
  | nil =>
    exact ⟨0, le_rfl, none, [], rfl, fun n hn => ⟨fun h => Or.inl (by simpa using h),
      fun _ => by simpa using hn⟩, .whole, nofun⟩
  | cons m memories ih =>
    unfold bundleLoop
    dsimp only
    split
    · -- the entry does not fit
      rename_i hlong
      have hfits : ∀ n ≤ (m :: memories).length, n ≤ 0 ↔
          n = 0 ∨ charCount + lineBytes (((m :: memories).map bundleEntry).take n) ≤ maxChars + 1 := by
        intro n _
        cases n with
        | zero => simp
        | succ n =>
          rw [List.map_cons, List.take_succ_cons, lineBytes_cons]
          omega
      split
      · rename_i hroom
        obtain ⟨text, rest, hslice, hentry, hbytes⟩ := sliceTo_floorBoundary (bundleEntry m)
          (min (maxChars - charCount) (bundleEntry m).utf8ByteSize)
        have hcut := floorBoundary_le (bundleEntry m)
          (min (maxChars - charCount) (bundleEntry m).utf8ByteSize)
        have hrest : rest ≠ "" := by
          rintro rfl
          rw [String.append_empty] at hentry
          rw [hentry] at hlong hbytes hcut
          omega
        have hnext : ((m :: memories).map bundleEntry)[0]? = some (text ++ rest) := by
          rw [← hentry]
          rfl
        refine ⟨0, Nat.zero_le _, some text.utf8ByteSize, [text ++ "..."], by rw [hslice]; rfl, hfits,
          .clipped hnext hrest, ?_⟩
        rintro n ⟨⟩
        rw [List.take_zero, lineBytes_nil]
        omega
      · exact ⟨0, Nat.zero_le _, none, [], rfl, hfits, .whole, nofun⟩
    · rename_i hshort
      obtain ⟨k, hk, clip, parts, hloop, hfits, hclipped, hbytes⟩ :=
        ih (charCount + (bundleEntry m).utf8ByteSize + 1)
      refine ⟨k + 1, Nat.succ_le_succ hk, clip, bundleEntry m :: parts, by rw [hloop]; rfl, ?_, ?_, ?_⟩
      · intro n hn
        cases n with
        | zero => simp
        | succ n =>
          have := hfits n (Nat.le_of_succ_le_succ hn)
          rw [List.map_cons, List.take_succ_cons, lineBytes_cons]
          constructor
          · intro hnk
            rcases this.1 (Nat.le_of_succ_le_succ hnk) with rfl | hle
            · right
              rw [List.take_zero, lineBytes_nil]
              omega
            · omega
          · rintro (h0 | hle)
            · omega
            · exact Nat.succ_le_succ (this.2 (Or.inr (by omega)))
      · cases hclipped with
        | whole => exact .whole
        | clipped hnext hrest => exact .clipped hnext hrest
      · intro n hn
        rw [List.map_cons, List.take_succ_cons, lineBytes_cons]
        have := hbytes n hn
        omega

/-- What a bundle is to be: the entries, as many as fit, and nothing else or the beginning of the next
one; and no more bytes than the budget, and those of a mark. -/
structure Bundled (entries : List String) (maxChars : ℕ) (bundle : String) : Prop where
  parts : ∃ k ≤ entries.length,
    (∀ n ≤ entries.length, n ≤ k ↔ ("\n".intercalate (entries.take n)).utf8ByteSize ≤ maxChars) ∧
    (bundle = "\n".intercalate (entries.take k) ∨
      ∃ text rest, entries[k]? = some (text ++ rest) ∧ rest ≠ "" ∧
        bundle = "\n".intercalate (entries.take k ++ [text ++ "..."]))
  size : bundle.utf8ByteSize ≤ maxChars + 3

/-- **A context bundle** keeps to its budget, is made of the first entries, and clips only the last one,
between two characters. -/
theorem bundled_buildContextBundle (memories : List MemoryHit) (maxChars : ℕ) :
    ∃ bundle, buildContextBundle memories maxChars = some bundle ∧
      Bundled (memories.map bundleEntry) maxChars bundle := by
  obtain ⟨k, hk, clip, parts, hloop, hfits, hclipped, hbytes⟩ := bundleLoop_spec maxChars 0 memories
  have hjoined : ∀ n ≤ memories.length,
      (n = 0 ∨ 0 + lineBytes ((memories.map bundleEntry).take n) ≤ maxChars + 1) ↔
        ("\n".intercalate ((memories.map bundleEntry).take n)).utf8ByteSize ≤ maxChars := by
    intro n hn
    by_cases h0 : n = 0
    · subst h0
      rw [List.take_zero, String.intercalate_nil]
      simp
    · have hne : (memories.map bundleEntry).take n ≠ [] := by
        rw [ne_eq, List.take_eq_nil_iff, List.map_eq_nil_iff]
        rintro (h | rfl)
        · exact h0 h
        · exact h0 (Nat.le_zero.1 hn)
      rw [← utf8ByteSize_intercalate hne]
      omega
  have hk' : k ≤ (memories.map bundleEntry).length := by rwa [List.length_map]
  have hcount : ∀ n ≤ (memories.map bundleEntry).length, n ≤ k ↔
      ("\n".intercalate ((memories.map bundleEntry).take n)).utf8ByteSize ≤ maxChars := by
    rw [List.length_map]
    exact fun n hn => (hfits n hn).trans (hjoined n hn)
  refine ⟨"\n".intercalate parts, by rw [buildContextBundle, hloop]; rfl, ?_⟩
  cases hclipped with
  | whole =>
    have hsize := (hcount k hk').1 le_rfl
    exact ⟨⟨k, hk', hcount, Or.inl rfl⟩, by omega⟩
  | @clipped text rest hnext hrest =>
    refine ⟨⟨k, hk', hcount, Or.inr ⟨text, rest, hnext, hrest, rfl⟩⟩, ?_⟩
    have hsize := utf8ByteSize_intercalate
      (show (memories.map bundleEntry).take k ++ [text ++ "..."] ≠ [] by simp)
    have hmark : "...".utf8ByteSize = 3 := by decide
    rw [lineBytes_append, lineBytes_cons, lineBytes_nil, String.utf8ByteSize_append] at hsize
    have := hbytes _ rfl
    omega

/-! ## The parts of a prompt -/

theorem exists_takeBytes (n : ℕ) (text : List Char) :
    ∃ rest, takeBytes n text ++ rest = text ∧ utf8Len (takeBytes n text) ≤ n := by
  induction text generalizing n with
  | nil => exact ⟨[], rfl, Nat.zero_le n⟩
  | cons c text ih =>
    unfold takeBytes
    split
    · rename_i hle
      obtain ⟨rest, htext, hlen⟩ := ih (n - c.utf8Size)
      exact ⟨rest, congrArg (c :: ·) htext, by rw [utf8Len_cons]; omega⟩
    · exact ⟨c :: text, rfl, Nat.zero_le n⟩

theorem utf8Len_le_takeBytes {n : ℕ} (cs rest : List Char) (h : utf8Len cs ≤ n) :
    utf8Len cs ≤ utf8Len (takeBytes n (cs ++ rest)) := by
  induction cs generalizing n with
  | nil => exact Nat.zero_le _
  | cons c cs ih =>
    rw [utf8Len_cons] at h ⊢
    rw [List.cons_append, takeBytes, if_pos (by omega), utf8Len_cons]
    have := ih (n := n - c.utf8Size) (by omega)
    omega

/-- The characters up to the last boundary are those that have room. -/
theorem charsTo_floorBoundary (text : String) (n : ℕ) :
    charsTo (floorBoundary text n) text.toList = some (takeBytes n text.toList) := by
  obtain ⟨cs, hcs⟩ := Option.isSome_iff_exists.1 (isCharBoundary_floorBoundary text n)
  obtain ⟨rest, htext, hlen⟩ := charsTo_eq_some.1 hcs
  obtain ⟨rest', htext', hlen'⟩ := exists_takeBytes n text.toList
  have hroom : charsTo (utf8Len (takeBytes n text.toList)) text.toList =
      some (takeBytes n text.toList) := charsTo_eq_some.2 ⟨rest', htext'.symm, rfl⟩
  have hle : floorBoundary text n ≤ utf8Len (takeBytes n text.toList) := by
    rw [← hlen, htext]
    exact utf8Len_le_takeBytes cs rest (hlen ▸ floorBoundary_le text n)
  have hge : utf8Len (takeBytes n text.toList) ≤ floorBoundary text n :=
    le_floorBoundary hlen' (by rw [isCharBoundary, hroom]; rfl)
  rw [le_antisymm hle hge, hroom]

theorem bundleParts_cons (maxChars charCount : ℕ) (m : MemoryHit) (memories : List MemoryHit) :
    bundleParts maxChars charCount (m :: memories) =
      if maxChars < charCount + (bundleEntry m).utf8ByteSize then
        if 50 < maxChars - charCount then
          [String.ofList (takeBytes (maxChars - charCount) (bundleEntry m).toList) ++ "..."]
        else []
      else bundleEntry m :: bundleParts maxChars (charCount + (bundleEntry m).utf8ByteSize + 1)
        memories := rfl

/-- The loop is the one that prompts are put together with. -/
theorem bundleLoop_eq (maxChars charCount : ℕ) (memories : List MemoryHit) :
    bundleLoop maxChars charCount memories = some (bundleParts maxChars charCount memories) := by
  induction memories generalizing charCount with
  | nil => rfl
  | cons m memories ih =>
    rw [bundleParts_cons]
    unfold bundleLoop
    dsimp only
    split
    · rename_i hlong
      split
      · -- the entry is longer than what remains
        rw [min_eq_left (by omega), sliceTo, charsTo_floorBoundary]
        rfl
      · rfl
    · rw [ih]
      rfl

/-- The bundle is the one that prompts are put together from. -/
theorem buildContextBundle_eq (memories : List MemoryHit) (maxChars : ℕ) :
    buildContextBundle memories maxChars = some ("\n".intercalate (bundleParts maxChars 0 memories)) := by
  rw [buildContextBundle, bundleLoop_eq, Option.map_some]

end Spectral
