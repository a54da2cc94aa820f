import Mathlib.Data.Char
import Mathlib.Data.List.Forall2
import Mathlib.Data.List.Infix
import Mathlib.Data.List.Sections
import Mathlib.Data.List.TakeWhile
import Spectral.Lib.Utf8

/-!
# Phrases in a text

A phrase is a pattern for some words with blanks between them, `\b…\s+…\b`.  Where the words of the
patterns are made of letters, a match begins and ends where words of the text do.

* `Slot`, `readPhrase`, `matchesAt` — the matches at a place, in the order a backtracking engine tries
  them; `Occurs` — a match somewhere in a text, and `Occurs.spelled`: what it is made of.
* `findIter` — the matches of a scan, which goes on behind a match; `exists_mem_findIter`: any match is
  inside one that the scan finds.
* `Match.Inside`, `inside_of_overlap` — a match that begins inside another one ends inside it, if no
  phrase ends with words that another one begins with (`crosses`).
* `spellings` — what a phrase without digits can be.
-/

namespace Spectral.Lib

/-- The classes `\w`, `\s` and `\d`. -/
structure CharClasses where
  word : Char → Bool
  space : Char → Bool
  digit : Char → Bool
  word_of_lower : ∀ c, c.isLower = true → word c = true
  word_of_digit : ∀ c, digit c = true → word c = true
  not_digit_of_lower : ∀ c, c.isLower = true → digit c = false
  not_space_of_word : ∀ c, word c = true → space c = false

/-- The classes of ASCII. -/
def CharClasses.ascii : CharClasses where
  word c := c.isAlphanum || c == '_'
  space := Char.isWhitespace
  digit := Char.isDigit
  word_of_lower c h := by
    show ((c.isUpper || c.isLower || c.isDigit) || c == '_') = true
    simp [h]
  word_of_digit c h := by simp [Char.isAlphanum, h]
  not_digit_of_lower c h := by
    have hlower : (97 : UInt32) ≤ c.val := of_decide_eq_true (Bool.and_eq_true_iff.1 h).1
    have hnot : ¬ c.val ≤ 57 := fun hle => absurd (UInt32.le_trans hlower hle) (by decide)
    simp [Char.isDigit, hnot]
  not_space_of_word c h := by
    cases hspace : c.isWhitespace with
    | false => rfl
    | true =>
      simp only [Char.isWhitespace, Bool.or_eq_true, decide_eq_true_eq] at hspace
      rcases hspace with ((rfl | rfl) | rfl) | rfl <;> exact absurd h (by decide)

/-- One place of a phrase: `\d{1,3}` if it takes digits, or one of some words. -/
structure Slot where
  digits : Bool := false
  words : List String

/-- A phrase. -/
abbrev Phrase := List Slot

/-- What was read of a text: the words, the text they are spelled with, and what follows. -/
structure Reading where
  words : List (List Char)
  text : List Char
  rest : List Char

/-- A match: what is before it in the text, its words, and its text. -/
structure Match where
  before : List Char
  words : List (List Char)
  text : List Char

namespace Match

/-- `start`. -/
def start (m : Match) : ℕ := utf8Len m.before

/-- `end`. -/
def stop (m : Match) : ℕ := utf8Len m.before + utf8Len m.text

end Match

/-! ## The engine -/

section

variable (cls : CharClasses)

/-- `\d{1,3}`: the runs of digits a text begins with, the longest first. -/
def digitRuns (text : List Char) : List (List Char × List Char) :=
  [3, 2, 1].filterMap fun n =>
    if n ≤ (text.takeWhile cls.digit).length then some (text.take n, text.drop n) else none

/-- `\s+`: the runs of blanks a text begins with, the longest first. -/
def gaps (text : List Char) : List (List Char × List Char) :=
  (List.range (text.takeWhile cls.space).length).reverse.map fun n =>
    (text.take (n + 1), text.drop (n + 1))

/-- What a slot reads, with the rest of the text. -/
def Slot.reads (s : Slot) (text : List Char) : List (List Char × List Char) :=
  (if s.digits then digitRuns cls text else []) ++
    s.words.filterMap fun w =>
      if w.toList <+: text then some (w.toList, text.drop w.toList.length) else none

/-- What a phrase reads. -/
def readPhrase : Phrase → List Char → List Reading
  | [], _ => []
  | [s], text => (s.reads cls text).map fun p => ⟨[p.1], p.1, p.2⟩
  | s :: s' :: ss, text =>
    (s.reads cls text).flatMap fun p => (gaps cls p.2).flatMap fun q =>
      (readPhrase (s' :: ss) q.2).map fun r => ⟨p.1 :: r.words, p.1 ++ (q.1 ++ r.text), r.rest⟩

/-- Is there a word character? -/
def isWord (c : Option Char) : Bool := c.any cls.word

/-- `\b`, between two texts. -/
def isBoundary (before after : List Char) : Bool :=
  isWord cls before.getLast? != isWord cls after.head?

/-- The matches of a pattern, made of phrases, at a place. -/
def matchesAt (pattern : List Phrase) (before after : List Char) : List Match :=
  if isBoundary cls before after then
    ((pattern.flatMap fun ph => readPhrase cls ph after).filter fun r =>
      isBoundary cls (before ++ r.text) r.rest).map fun r => ⟨before, r.words, r.text⟩
  else []

/-- The scan, with so many characters yet to skip. -/
def scan (pattern : List Phrase) : List Char → ℕ → List Char → List Match
  | _, _, [] => []
  | before, skip + 1, c :: rest => scan pattern (before ++ [c]) skip rest
  | before, 0, c :: rest =>
    match (matchesAt cls pattern before (c :: rest)).head? with
    | some m => m :: scan pattern (before ++ [c]) (m.text.length - 1) rest
    | none => scan pattern (before ++ [c]) 0 rest

/-- `find_iter`. -/
def findIter (pattern : List Phrase) (text : List Char) : List Match := scan cls pattern [] 0 text

/-- The pattern has a match in the text. -/
def Occurs (pattern : List Phrase) (text : List Char) (m : Match) : Prop :=
  ∃ after, text = m.before ++ after ∧ m ∈ matchesAt cls pattern m.before after

end

/-! ## What is read -/

/-- The word is one for the slot. -/
def Slot.Admits (cls : CharClasses) (s : Slot) (w : List Char) : Prop :=
  s.digits = true ∧ w ≠ [] ∧ w.length ≤ 3 ∧ w.all cls.digit = true ∨ ∃ v ∈ s.words, w = v.toList

/-- Words with blanks between them. -/
inductive Spells (cls : CharClasses) : List (List Char) → List Char → Prop
  | one (w : List Char) : Spells cls [w] w
  | more {w gap : List Char} {ws : List (List Char)} {text : List Char} (hgap : gap ≠ [])
      (hblank : gap.all cls.space = true) (hws : Spells cls ws text) :
      Spells cls (w :: ws) (w ++ (gap ++ text))

variable {cls : CharClasses} {s : Slot} {ph : Phrase} {pattern : List Phrase} {m m' : Match}
  {text before after : List Char}

theorem all_take_takeWhile {p : Char → Bool} {n : ℕ} (h : n ≤ (text.takeWhile p).length) :
    (text.take n).all p = true := by
  obtain ⟨rest, hrest⟩ := List.takeWhile_prefix (l := text) p
  rw [← hrest, List.take_append_of_le_length h, List.all_eq_true]
  exact fun c hc => List.mem_takeWhile_imp (List.mem_of_mem_take hc)

theorem of_mem_digitRuns {p : List Char × List Char} (h : p ∈ digitRuns cls text) :
    text = p.1 ++ p.2 ∧ p.1 ≠ [] ∧ p.1.length ≤ 3 ∧ p.1.all cls.digit = true := by
  obtain ⟨n, hn, hp⟩ := List.mem_filterMap.1 h
  rw [Option.ite_none_right_eq_some] at hp
  obtain ⟨hle, hp⟩ := hp
  obtain rfl := Option.some.inj hp
  have hlen : n ≤ text.length := hle.trans (List.takeWhile_prefix cls.digit).length_le
  have hrange : 1 ≤ n ∧ n ≤ 3 := by
    simp only [List.mem_cons, List.not_mem_nil, or_false] at hn
    omega
  refine ⟨(List.take_append_drop n text).symm, ?_, ?_, all_take_takeWhile hle⟩
  · rw [ne_eq, ← List.length_eq_zero_iff, List.length_take]
    omega
  · rw [List.length_take]
    omega

theorem of_mem_gaps {p : List Char × List Char} (h : p ∈ gaps cls text) :
    text = p.1 ++ p.2 ∧ p.1 ≠ [] ∧ p.1.all cls.space = true := by
  obtain ⟨n, hn, rfl⟩ := List.mem_map.1 h
  have hlt : n < (text.takeWhile cls.space).length := List.mem_range.1 (List.mem_reverse.1 hn)
  have hlen : (text.takeWhile cls.space).length ≤ text.length :=
    (List.takeWhile_prefix cls.space).length_le
  refine ⟨(List.take_append_drop (n + 1) text).symm, ?_, all_take_takeWhile hlt⟩
  rw [ne_eq, ← List.length_eq_zero_iff, List.length_take]
  omega

theorem of_mem_reads {p : List Char × List Char} (h : p ∈ s.reads cls text) :
    text = p.1 ++ p.2 ∧ s.Admits cls p.1 := by
  rcases List.mem_append.1 h with h | h
  · split at h
    · rename_i hdigits
      obtain ⟨heq, hne, hlen, hall⟩ := of_mem_digitRuns h
      exact ⟨heq, Or.inl ⟨hdigits, hne, hlen, hall⟩⟩
    · exact absurd h List.not_mem_nil
  · obtain ⟨w, hw, hp⟩ := List.mem_filterMap.1 h
    rw [Option.ite_none_right_eq_some] at hp
    obtain ⟨⟨rest, rfl⟩, hp⟩ := hp
    obtain rfl := Option.some.inj hp
    exact ⟨by rw [List.drop_left], Or.inr ⟨w, hw, rfl⟩⟩

/-- **What a phrase reads**: words for its slots, with blanks between them. -/
theorem of_mem_readPhrase {r : Reading} (h : r ∈ readPhrase cls ph text) :
    text = r.text ++ r.rest ∧ List.Forall₂ (Slot.Admits cls) ph r.words ∧
      Spells cls r.words r.text := by
  induction ph generalizing text r with
  | nil => exact absurd h List.not_mem_nil
  | cons s ss ih =>
    cases ss with
    | nil =>
      obtain ⟨p, hp, rfl⟩ := List.mem_map.1 h
      obtain ⟨heq, hadmits⟩ := of_mem_reads hp
      exact ⟨heq, .cons hadmits .nil, .one p.1⟩
    | cons s' ss =>
      obtain ⟨p, hp, h⟩ := List.mem_flatMap.1 h
      obtain ⟨q, hq, h⟩ := List.mem_flatMap.1 h
      obtain ⟨r, hr, rfl⟩ := List.mem_map.1 h
      obtain ⟨heq, hadmits⟩ := of_mem_reads hp
      obtain ⟨heq', hne, hblank⟩ := of_mem_gaps hq
      obtain ⟨heq'', hwords, hspells⟩ := ih hr
      refine ⟨?_, .cons hadmits hwords, .more hne hblank hspells⟩
      rw [heq, heq', heq'', List.append_assoc, List.append_assoc]

/-! ## Words of the text -/

/-- A word of word characters. -/
def IsToken (cls : CharClasses) (w : List Char) : Prop := w ≠ [] ∧ ∀ c ∈ w, cls.word c = true

/-- The words of a slot are lower-case letters. -/
def Slot.plain (s : Slot) : Bool := s.words.all fun w => decide (w ≠ "") && w.toList.all Char.isLower

variable {w w' : List Char} {ws as bs : List (List Char)} {a b u v ra rb rest : List Char}

theorem Slot.Admits.isToken (h : s.Admits cls w) (hs : s.plain = true) : IsToken cls w := by
  rcases h with ⟨-, hne, -, hdigits⟩ | ⟨v, hv, rfl⟩
  · exact ⟨hne, fun c hc => cls.word_of_digit c (List.all_eq_true.1 hdigits c hc)⟩
  · obtain ⟨hne, hlower⟩ := Bool.and_eq_true_iff.1 (List.all_eq_true.1 hs v hv)
    refine ⟨fun hnil => of_decide_eq_true hne (String.toList_eq_nil_iff.1 hnil), fun c hc => ?_⟩
    exact cls.word_of_lower c (List.all_eq_true.1 hlower c hc)

/-- The words read are tokens. -/
theorem isToken_of_forall₂ (h : List.Forall₂ (Slot.Admits cls) ph ws) (hph : ∀ s ∈ ph, s.plain = true) :
    ∀ w ∈ ws, IsToken cls w := by
  induction h with
  | nil => exact fun w hw => absurd hw List.not_mem_nil
  | cons hadmits _ ih =>
    intro w hw
    rcases List.mem_cons.1 hw with rfl | hw
    · exact hadmits.isToken (hph _ List.mem_cons_self)
    · exact ih (fun s hs => hph s (List.mem_cons_of_mem _ hs)) w hw

theorem not_word_of_space {c : Char} (h : cls.space c = true) : cls.word c = false := by
  by_contra hword
  rw [cls.not_space_of_word c (Bool.not_eq_false _ ▸ hword)] at h
  cases h

/-- What comes first, up to where it stops. -/
theorem takeWhile_append_stop {p : Char → Bool} (h : ∀ c ∈ w, p c = true)
    (hstop : rest.head?.any p = false) : (w ++ rest).takeWhile p = w := by
  rw [List.takeWhile_append_of_pos h]
  cases rest with
  | nil => simp
  | cons c rest => rw [List.takeWhile_cons_of_neg (by simpa using hstop), List.append_nil]

theorem not_isWord_gap (hne : a ≠ []) (hblank : a.all cls.space = true) (rest : List Char) :
    isWord cls (a ++ rest).head? = false := by
  cases a with
  | nil => exact absurd rfl hne
  | cons c a => exact not_word_of_space (Bool.and_eq_true_iff.1 hblank).1

theorem isWord_token (h : IsToken cls w) (rest : List Char) : isWord cls (w ++ rest).head? = true := by
  cases w with
  | nil => exact absurd rfl h.1
  | cons c w => exact h.2 c List.mem_cons_self

/-- A text that is spelled begins with its first word. -/
theorem Spells.isWord_head (h : Spells cls as a) (htokens : ∀ w ∈ as, IsToken cls w)
    (rest : List Char) : isWord cls (a ++ rest).head? = true := by
  cases h with
  | one => exact isWord_token (htokens a List.mem_cons_self) rest
  | more hgap hblank hws =>
    rw [List.append_assoc]
    exact isWord_token (htokens _ List.mem_cons_self) _

/-- The blanks between words are all there are. -/
theorem Spells.takeWhile_space (h : Spells cls as a) (htokens : ∀ w ∈ as, IsToken cls w)
    (hblank : v.all cls.space = true) : (v ++ (a ++ rest)).takeWhile cls.space = v := by
  refine takeWhile_append_stop (List.all_eq_true.1 hblank) ?_
  have hword := h.isWord_head htokens rest
  cases hhead : (a ++ rest).head? with
  | none => rfl
  | some c =>
    rw [hhead] at hword
    exact cls.not_space_of_word c hword

/-- **Words that begin at one place** are the same, as far as both go. -/
theorem Spells.compare (ha : Spells cls as a) (hb : Spells cls bs b)
    (has : ∀ w ∈ as, IsToken cls w) (hbs : ∀ w ∈ bs, IsToken cls w)
    (hra : isWord cls ra.head? = false) (hrb : isWord cls rb.head? = false)
    (h : a ++ ra = b ++ rb) :
    bs <+: as ∧ b <+: a ∨ as <+: bs ∧ a <+: b ∧ as.length < bs.length := by
  induction ha generalizing bs b with
  | one w =>
    have hw := (has w List.mem_cons_self).2
    cases hb with
    | one =>
      have hword := congrArg (List.takeWhile cls.word) h
      rw [takeWhile_append_stop hw hra, takeWhile_append_stop (hbs b List.mem_cons_self).2 hrb] at hword
      subst hword
      exact Or.inl ⟨List.prefix_rfl, List.prefix_rfl⟩
    | @more w' gap ws text hgap hblank hws =>
      have hword := congrArg (List.takeWhile cls.word) h
      rw [List.append_assoc, List.append_assoc, takeWhile_append_stop hw hra,
        takeWhile_append_stop (hbs w' List.mem_cons_self).2 (not_isWord_gap hgap hblank _)] at hword
      subst hword
      have hlen : 0 < ws.length := by cases hws <;> simp
      exact Or.inr ⟨by simp, List.prefix_append _ _, by simpa using hlen⟩
  | @more w gap ws text hgap hblank hws ih =>
    have hw := (has w List.mem_cons_self).2
    cases hb with
    | one =>
      have hword := congrArg (List.takeWhile cls.word) h
      rw [List.append_assoc, List.append_assoc, takeWhile_append_stop hw (not_isWord_gap hgap hblank _),
        takeWhile_append_stop (hbs b List.mem_cons_self).2 hrb] at hword
      subst hword
      exact Or.inl ⟨by simp, List.prefix_append _ _⟩
    | @more w' gap' ws' text' hgap' hblank' hws' =>
      have has' : ∀ w ∈ ws, IsToken cls w := fun w hw => has w (List.mem_cons_of_mem _ hw)
      have hbs' : ∀ w ∈ ws', IsToken cls w := fun w hw => hbs w (List.mem_cons_of_mem _ hw)
      simp only [List.append_assoc] at h
      have hword := congrArg (List.takeWhile cls.word) h
      rw [takeWhile_append_stop hw (not_isWord_gap hgap hblank _),
        takeWhile_append_stop (hbs w' List.mem_cons_self).2 (not_isWord_gap hgap' hblank' _)] at hword
      subst hword
      have h := List.append_cancel_left h
      have hspace := congrArg (List.takeWhile cls.space) h
      rw [hws.takeWhile_space has' hblank, hws'.takeWhile_space hbs' hblank'] at hspace
      subst hspace
      rcases ih hws' has' hbs' (List.append_cancel_left h) with ⟨hwords, htext⟩ | ⟨hwords, htext, hlt⟩
      · exact Or.inl ⟨List.cons_prefix_cons.2 ⟨rfl, hwords⟩, (List.prefix_append_right_inj _).2
          ((List.prefix_append_right_inj _).2 htext)⟩
      · exact Or.inr ⟨List.cons_prefix_cons.2 ⟨rfl, hwords⟩, (List.prefix_append_right_inj _).2
          ((List.prefix_append_right_inj _).2 htext), Nat.succ_lt_succ hlt⟩

theorem not_isToken_append (hu : isWord cls u.getLast? = false) (hne : u ≠ []) (v : List Char) :
    ¬ IsToken cls (u ++ v) := by
  intro h
  have hlast := h.2 _ (List.mem_append_left v (List.getLast_mem hne))
  rw [List.getLast?_eq_some_getLast hne] at hu
  exact absurd hlast (by simpa [isWord] using hu)

/-- **Words that begin inside others** begin where one of these does. -/
theorem Spells.inside (ha : Spells cls as a) (hb : Spells cls bs b)
    (has : ∀ w ∈ as, IsToken cls w) (hbs : ∀ w ∈ bs, IsToken cls w)
    (hu : isWord cls u.getLast? = false) (hlt : u.length < a.length)
    (h : a ++ ra = u ++ (b ++ rb)) :
    ∃ k a', k < as.length ∧ a = u ++ a' ∧ Spells cls (as.drop k) a' ∧ (k = 0 ↔ u = []) := by
  induction ha generalizing u with
  | one w =>
    by_cases hnil : u = []
    · exact ⟨0, w, Nat.one_pos, by rw [hnil, List.nil_append], .one w, iff_of_true rfl hnil⟩
    · obtain ⟨c, rfl⟩ := List.prefix_of_prefix_length_le (List.prefix_append u (b ++ rb))
        (h ▸ List.prefix_append w ra) hlt.le
      exact absurd (has _ List.mem_cons_self) (not_isToken_append hu hnil c)
  | @more w gap ws text hgap hblank hws ih =>
    by_cases hnil : u = []
    · exact ⟨0, _, Nat.succ_pos _, by rw [hnil, List.nil_append], .more hgap hblank hws,
        iff_of_true rfl hnil⟩
    rw [List.append_assoc, List.append_assoc] at h
    rcases List.append_eq_append_iff.1 h with ⟨u', rfl, h'⟩ | ⟨c, rfl, -⟩
    · rcases List.append_eq_append_iff.1 h' with ⟨u'', rfl, h''⟩ | ⟨c, hc, h''⟩
      · -- the place is behind the blanks
        have hu'' : isWord cls u''.getLast? = false := by
          by_cases hnil'' : u'' = []
          · rw [hnil'']; rfl
          · rwa [← List.append_assoc, List.getLast?_append_of_ne_nil _ hnil''] at hu
        have hlt'' : u''.length < text.length := by
          simp only [List.length_append] at hlt
          omega
        obtain ⟨k, a', hk, rfl, hspells, -⟩ := ih (fun w hw => has w (List.mem_cons_of_mem _ hw)) hu''
          hlt'' h''
        exact ⟨k + 1, a', Nat.succ_lt_succ hk, by simp, hspells, iff_of_false (by omega) hnil⟩
      · by_cases hcnil : c = []
        · obtain rfl : gap = u' := by rw [hc, hcnil, List.append_nil]
          have hlen : 0 < ws.length := by cases hws <;> simp
          exact ⟨1, text, Nat.succ_lt_succ hlen, by simp, hws, iff_of_false (by omega) hnil⟩
        · -- it is among the blanks, where no word begins
          have hblank' : c.all cls.space = true := by
            rw [hc, List.all_append, Bool.and_eq_true_iff] at hblank
            exact hblank.2
          have hword := hb.isWord_head hbs rb
          rw [h'', not_isWord_gap hcnil hblank'] at hword
          cases hword
    · exact absurd (has _ List.mem_cons_self) (not_isToken_append hu hnil c)

theorem Spells.ne_nil (h : Spells cls as a) (htokens : ∀ w ∈ as, IsToken cls w) : a ≠ [] := by
  rintro rfl
  have hword := h.isWord_head htokens []
  cases hword

/-- A text that is spelled ends with its last word. -/
theorem Spells.isWord_getLast (h : Spells cls as a) (htokens : ∀ w ∈ as, IsToken cls w)
    (before : List Char) : isWord cls (before ++ a).getLast? = true := by
  induction h generalizing before with
  | one w =>
    have hw := htokens w List.mem_cons_self
    rw [List.getLast?_append_of_ne_nil _ hw.1, List.getLast?_eq_some_getLast hw.1]
    exact hw.2 _ (List.getLast_mem hw.1)
  | @more w gap ws text hgap hblank hws ih =>
    rw [← List.append_assoc, ← List.append_assoc]
    exact ih (fun w hw => htokens w (List.mem_cons_of_mem _ hw)) _

/-! ## Matches -/

theorem before_of_mem_matchesAt (h : m ∈ matchesAt cls pattern before after) : m.before = before := by
  unfold matchesAt at h
  split at h
  · obtain ⟨r, -, rfl⟩ := List.mem_map.1 h
    rfl
  · exact absurd h List.not_mem_nil

/-- **A match**: its words are for a phrase of the pattern, and neither before them nor behind does a
word go on. -/
theorem Occurs.spelled (hplain : ∀ ph ∈ pattern, ∀ s ∈ ph, s.plain = true)
    (h : Occurs cls pattern text m) :
    ∃ ph ∈ pattern, ∃ rest, text = m.before ++ (m.text ++ rest) ∧
      isWord cls m.before.getLast? = false ∧ isWord cls rest.head? = false ∧
      List.Forall₂ (Slot.Admits cls) ph m.words ∧ (∀ w ∈ m.words, IsToken cls w) ∧
      Spells cls m.words m.text := by
  obtain ⟨after, rfl, h⟩ := h
  unfold matchesAt at h
  split at h
  · rename_i hstart
    obtain ⟨r, hr, hm⟩ := List.mem_map.1 h
    obtain ⟨hr, hstop⟩ := List.mem_filter.1 hr
    obtain ⟨ph, hph, hr⟩ := List.mem_flatMap.1 hr
    obtain ⟨hafter, hwords, hspells⟩ := of_mem_readPhrase hr
    have htokens := isToken_of_forall₂ hwords (hplain ph hph)
    rw [isBoundary, hafter, hspells.isWord_head htokens] at hstart
    rw [isBoundary, hspells.isWord_getLast htokens] at hstop
    have hmwords : r.words = m.words := congrArg Match.words hm
    have hmtext : r.text = m.text := congrArg Match.text hm
    rw [hmwords] at hwords hspells htokens
    rw [hmtext] at hafter hspells
    exact ⟨ph, hph, r.rest, by rw [hafter], by simpa using hstart, by simpa using hstop, hwords,
      htokens, hspells⟩
  · exact absurd h List.not_mem_nil

/-- What a scan finds stands there, in front of what was skipped. -/
theorem of_mem_scan {skip : ℕ} (h : m ∈ scan cls pattern before skip after) :
    Occurs cls pattern (before ++ after) m := by
  induction after generalizing before skip with
  | nil => cases skip <;> exact absurd h List.not_mem_nil
  | cons c rest ih =>
    cases skip with
    | succ skip =>
      rw [List.append_cons]
      exact ih h
    | zero =>
      unfold scan at h
      split at h
      · rename_i f hf
        rcases List.mem_cons.1 h with rfl | h
        · have hmem := List.mem_of_mem_head? (Option.mem_def.2 hf)
          have hbefore := before_of_mem_matchesAt hmem
          exact ⟨c :: rest, by rw [hbefore], hbefore ▸ hmem⟩
        · rw [List.append_cons]
          exact ih h
      · rw [List.append_cons]
        exact ih h

/-- **No match begins** where the scan has found none: it begins inside one that was found. -/
theorem exists_covering {skip : ℕ} (h : m ∈ matchesAt cls pattern (before ++ u) v)
    (hafter : after = u ++ v) (hv : v ≠ []) (hskip : skip ≤ u.length) :
    ∃ f ∈ scan cls pattern before skip after, f.before.length ≤ (before ++ u).length ∧
      (before ++ u).length < f.before.length + max f.text.length 1 := by
  induction after generalizing before skip u with
  | nil =>
    obtain ⟨-, rfl⟩ := List.append_eq_nil_iff.1 hafter.symm
    exact absurd rfl hv
  | cons c rest ih =>
    cases u with
    | nil =>
      obtain rfl : skip = 0 := Nat.le_zero.1 hskip
      obtain rfl : c :: rest = v := hafter
      rw [List.append_nil] at h ⊢
      unfold scan
      cases hf : (matchesAt cls pattern before (c :: rest)).head? with
      | none =>
        rw [List.head?_eq_none_iff.1 hf] at h
        exact absurd h List.not_mem_nil
      | some f =>
        have hbefore := before_of_mem_matchesAt (List.mem_of_mem_head? (Option.mem_def.2 hf))
        refine ⟨f, List.mem_cons_self, ?_, ?_⟩
        · rw [hbefore]
        · rw [hbefore]
          omega
    | cons c' u =>
      obtain ⟨rfl, hrest⟩ := List.cons.inj hafter
      rw [List.append_cons] at h ⊢
      cases skip with
      | succ skip => exact ih h hrest (Nat.le_of_succ_le_succ hskip)
      | zero =>
        unfold scan
        cases hf : (matchesAt cls pattern before (c :: rest)).head? with
        | none => exact ih h hrest (Nat.zero_le _)
        | some f =>
          have hbefore := before_of_mem_matchesAt (List.mem_of_mem_head? (Option.mem_def.2 hf))
          dsimp only
          by_cases hin : f.text.length - 1 ≤ u.length
          · obtain ⟨g, hg, hcovers⟩ := ih h hrest hin
            exact ⟨g, List.mem_cons_of_mem _ hg, hcovers⟩
          · refine ⟨f, List.mem_cons_self, ?_, ?_⟩
            · rw [hbefore]
              simp only [List.length_append, List.length_singleton]
              omega
            · rw [hbefore]
              simp only [List.length_append, List.length_singleton]
              omega

/-! ## Phrases that share words -/

/-- There may be a word for both slots. -/
def Slot.meets (s s' : Slot) : Bool :=
  s.digits && s'.digits || s.words.any fun w => s'.words.contains w

/-- What is read for the first phrase may be what the second begins with, and not all of it. -/
def startsLonger : Phrase → Phrase → Bool
  | [], ph => !ph.isEmpty
  | _ :: _, [] => false
  | s :: ss, s' :: ss' => s.meets s' && startsLonger ss ss'

/-- What is read for the first phrase may begin with what is read for the second. -/
def startsWith : Phrase → Phrase → Bool
  | _, [] => true
  | [], _ :: _ => false
  | s :: ss, s' :: ss' => s.meets s' && startsWith ss ss'

/-- The first phrase may end with what the second begins with, and not all of it. -/
def crosses (ph ph' : Phrase) : Bool :=
  ph.tails.any fun suffix => !suffix.isEmpty && startsLonger suffix ph'

variable {s' : Slot} {ph' : Phrase} {pattern' : List Phrase} {ws' : List (List Char)}

theorem Slot.meets_of_admits (hs : s.plain = true) (hs' : s'.plain = true) (h : s.Admits cls w)
    (h' : s'.Admits cls w) : s.meets s' = true := by
  have hletters : ∀ {s : Slot} {v : String}, s.plain = true → v ∈ s.words → v.toList ≠ [] →
      v.toList.all cls.digit = true → False := by
    intro s v hs hv hne hdigits
    obtain ⟨c, hc⟩ := List.exists_mem_of_ne_nil _ hne
    have hlower := (Bool.and_eq_true_iff.1 (List.all_eq_true.1 hs v hv)).2
    have hnot := cls.not_digit_of_lower c (List.all_eq_true.1 hlower c hc)
    rw [List.all_eq_true.1 hdigits c hc] at hnot
    cases hnot
  rw [Slot.meets, Bool.or_eq_true_iff]
  rcases h with ⟨hdigits, hne, -, hall⟩ | ⟨v, hv, rfl⟩
  · rcases h' with ⟨hdigits', -⟩ | ⟨v, hv, rfl⟩
    · exact Or.inl (by rw [hdigits, hdigits']; rfl)
    · exact (hletters hs' hv hne hall).elim
  · rcases h' with ⟨-, hne, -, hall⟩ | ⟨v', hv', heq⟩
    · exact (hletters hs hv hne hall).elim
    · obtain rfl := String.toList_injective heq
      exact Or.inr (List.any_eq_true.2 ⟨v, hv, by simpa using hv'⟩)

theorem startsLonger_of_prefix (hph : ∀ s ∈ ph, s.plain = true) (hph' : ∀ s ∈ ph', s.plain = true)
    (h : List.Forall₂ (Slot.Admits cls) ph ws) (h' : List.Forall₂ (Slot.Admits cls) ph' ws')
    (hbegins : ws <+: ws') (hlt : ws.length < ws'.length) : startsLonger ph ph' = true := by
  induction h generalizing ph' ws' with
  | nil =>
    cases h' with
    | nil => exact absurd hlt (lt_irrefl _)
    | cons => rfl
  | cons hadmits hss ih =>
    cases h' with
    | nil => exact absurd hlt (by simp)
    | cons hadmits' hss' =>
      obtain ⟨rfl, htail⟩ := List.cons_prefix_cons.1 hbegins
      rw [startsLonger, Bool.and_eq_true_iff]
      exact ⟨Slot.meets_of_admits (hph _ List.mem_cons_self) (hph' _ List.mem_cons_self) hadmits
          hadmits',
        ih (fun s hs => hph s (List.mem_cons_of_mem _ hs))
          (fun s hs => hph' s (List.mem_cons_of_mem _ hs)) hss' htail (Nat.lt_of_succ_lt_succ hlt)⟩

theorem startsWith_of_prefix (hph : ∀ s ∈ ph, s.plain = true) (hph' : ∀ s ∈ ph', s.plain = true)
    (h : List.Forall₂ (Slot.Admits cls) ph ws) (h' : List.Forall₂ (Slot.Admits cls) ph' ws')
    (hbegins : ws' <+: ws) : startsWith ph ph' = true := by
  induction h' generalizing ph ws with
  | nil => cases ph <;> rfl
  | cons hadmits' hss' ih =>
    cases h with
    | nil => exact absurd (List.prefix_nil.1 hbegins) (List.cons_ne_nil _ _)
    | cons hadmits hss =>
      obtain ⟨rfl, htail⟩ := List.cons_prefix_cons.1 hbegins
      rw [startsWith, Bool.and_eq_true_iff]
      exact ⟨Slot.meets_of_admits (hph _ List.mem_cons_self) (hph' _ List.mem_cons_self) hadmits
          hadmits',
        ih (fun s hs => hph s (List.mem_cons_of_mem _ hs))
          (fun s hs => hph' s (List.mem_cons_of_mem _ hs)) hss htail⟩

/-- A match is inside another one, and its words are some of the other's in a row. -/
def Match.Inside (m m' : Match) : Prop :=
  ∃ k u v, m.before = m'.before ++ u ∧ m'.text = u ++ (m.text ++ v) ∧ k < m'.words.length ∧
    m.words <+: m'.words.drop k ∧ (k = 0 ↔ u = [])

/-- **A match that begins inside another one** ends inside it, if no phrase crosses another one. -/
theorem nested_of_overlap (hplain : ∀ ph ∈ pattern, ∀ s ∈ ph, s.plain = true)
    (hplain' : ∀ ph ∈ pattern', ∀ s ∈ ph, s.plain = true)
    (hcross : ∀ ph ∈ pattern, ∀ ph' ∈ pattern', crosses ph ph' = false)
    (h : Occurs cls pattern text m) (h' : Occurs cls pattern' text m')
    (hle : m.before.length ≤ m'.before.length)
    (hlt : m'.before.length < m.before.length + m.text.length) : m'.Inside m := by
  obtain ⟨ph, hph, rest, htext, -, hstop, hwords, htokens, hspells⟩ := h.spelled hplain
  obtain ⟨ph', hph', rest', htext', hstart', hstop', hwords', htokens', hspells'⟩ := h'.spelled hplain'
  have hbegins : m.before <+: m'.before := List.prefix_of_prefix_length_le
    (htext ▸ List.prefix_append _ _) (htext' ▸ List.prefix_append _ _) hle
  obtain ⟨u, hu⟩ := hbegins
  have hlen : m'.before.length = m.before.length + u.length := by rw [← hu, List.length_append]
  have hsame : m.text ++ rest = u ++ (m'.text ++ rest') := by
    have heq := htext.symm.trans htext'
    rw [← hu, List.append_assoc] at heq
    exact List.append_cancel_left heq
  have hedge : isWord cls u.getLast? = false := by
    by_cases hnil : u = []
    · rw [hnil]
      rfl
    · rwa [← hu, List.getLast?_append_of_ne_nil _ hnil] at hstart'
  obtain ⟨k, a, hk, ha, hinside, hzero⟩ :=
    hspells.inside hspells' htokens htokens' hedge (by omega) hsame
  have hsame' : a ++ rest = m'.text ++ rest' := by
    rw [ha, List.append_assoc] at hsame
    exact List.append_cancel_left hsame
  have htokens'' : ∀ w ∈ m.words.drop k, IsToken cls w := fun w hw =>
    htokens w (List.mem_of_mem_drop hw)
  rcases hinside.compare hspells' htokens'' htokens' hstop hstop' hsame' with
    ⟨hbegins, v, hv⟩ | ⟨hbegins, -, hshort⟩
  · exact ⟨k, u, v, hu.symm, by rw [ha, ← hv], hk, hbegins, hzero⟩
  · -- the words from here on are the beginning of a phrase that crosses
    have hsuffix : ∀ s ∈ ph.drop k, s.plain = true := fun s hs =>
      hplain ph hph s (List.mem_of_mem_drop hs)
    have hlonger := startsLonger_of_prefix hsuffix (hplain' ph' hph') (List.forall₂_drop k hwords)
      hwords' hbegins hshort
    have hcrosses : crosses ph ph' = true := by
      refine List.any_eq_true.2 ⟨ph.drop k, (List.mem_tails _ _).2 (List.drop_suffix k ph), ?_⟩
      have hne : ph.drop k ≠ [] := by
        rw [ne_eq, List.drop_eq_nil_iff, hwords.length_eq]
        omega
      rw [hlonger, Bool.and_true, Bool.not_eq_true', List.isEmpty_eq_false_iff]
      exact hne
    rw [hcross ph hph ph' hph'] at hcrosses
    cases hcrosses

/-- The places of matches, by their bytes. -/
theorem inside_of_overlap (hplain : ∀ ph ∈ pattern, ∀ s ∈ ph, s.plain = true)
    (hplain' : ∀ ph ∈ pattern', ∀ s ∈ ph, s.plain = true)
    (hcross : ∀ ph ∈ pattern, ∀ ph' ∈ pattern', crosses ph ph' = false)
    (h : Occurs cls pattern text m) (h' : Occurs cls pattern' text m') (hle : m.start ≤ m'.start)
    (hlt : m'.start < m.stop) : m'.Inside m := by
  obtain ⟨-, -, rest, htext, -⟩ := h.spelled hplain
  obtain ⟨-, -, rest', htext', -⟩ := h'.spelled hplain'
  have hstart : m.before <+: text := htext ▸ List.prefix_append _ _
  have hstart' : m'.before <+: text := htext' ▸ List.prefix_append _ _
  have hstop : m.before ++ m.text <+: text := by
    rw [htext, ← List.append_assoc]
    exact List.prefix_append _ _
  refine nested_of_overlap hplain hplain' hcross h h' (not_lt.1 fun hback => ?_) ?_
  · exact absurd ((utf8Len_lt_iff hstart' hstart).2 hback) (not_lt.2 hle)
  · rw [← List.length_append]
    refine (utf8Len_lt_iff hstart' hstop).1 ?_
    rw [utf8Len_append]
    exact hlt

theorem Match.Inside.trans {m'' : Match} (h : m.Inside m') (h' : m'.Inside m'') : m.Inside m'' := by
  obtain ⟨k, u, v, hbefore, htext, hk, hwords, hzero⟩ := h
  obtain ⟨k', u', v', hbefore', htext', hk', hwords', hzero'⟩ := h'
  have hlen := hwords'.length_le
  rw [List.length_drop] at hlen
  refine ⟨k' + k, u' ++ u, v ++ v', ?_, ?_, by omega, ?_, ?_⟩
  · rw [hbefore, hbefore', List.append_assoc]
  · rw [htext', htext]
    simp only [List.append_assoc]
  · rw [← List.drop_drop]
    exact hwords.trans (hwords'.drop k)
  · rw [Nat.add_eq_zero_iff, List.append_eq_nil_iff, hzero, hzero']

theorem Match.Inside.span (h : m.Inside m') : m'.start ≤ m.start ∧ m.stop ≤ m'.stop := by
  obtain ⟨k, u, v, hbefore, htext, -⟩ := h
  simp only [Match.start, Match.stop, hbefore, htext, utf8Len_append]
  omega

/-- Matches inside each other stand in one place. -/
theorem Match.Inside.antisymm (h : m.Inside m') (h' : m'.Inside m) :
    m.before = m'.before ∧ m.text = m'.text := by
  obtain ⟨k, u, v, hbefore, htext, -⟩ := h
  obtain ⟨k', u', v', hbefore', htext', -⟩ := h'
  have hlen := congrArg List.length htext
  have hlen' := congrArg List.length htext'
  simp only [List.length_append] at hlen hlen'
  obtain rfl : u = [] := List.length_eq_zero_iff.1 (by omega)
  obtain rfl : v = [] := List.length_eq_zero_iff.1 (by omega)
  exact ⟨by rw [hbefore, List.append_nil], by rw [htext, List.nil_append, List.append_nil]⟩

/-- **The scan finds** a match that is around any other. -/
theorem exists_mem_findIter (hplain : ∀ ph ∈ pattern, ∀ s ∈ ph, s.plain = true)
    (hcross : ∀ ph ∈ pattern, ∀ ph' ∈ pattern, crosses ph ph' = false)
    (h : Occurs cls pattern text m) :
    ∃ f ∈ findIter cls pattern text, Occurs cls pattern text f ∧ m.Inside f := by
  obtain ⟨ph, -, rest, htext, -, -, -, htokens, hspells⟩ := h.spelled hplain
  obtain ⟨after, heq, hmem⟩ := h
  have hafter : after = m.text ++ rest := List.append_cancel_left (heq.symm.trans htext)
  have hne : after ≠ [] := by
    rw [hafter]
    exact List.append_ne_nil_of_left_ne_nil (hspells.ne_nil htokens) rest
  have hcover : ∃ f ∈ findIter cls pattern text, f.before.length ≤ m.before.length ∧
      m.before.length < f.before.length + max f.text.length 1 :=
    exists_covering (u := m.before) hmem heq hne (Nat.zero_le _)
  obtain ⟨f, hf, hle, hlt⟩ := hcover
  have hfound : Occurs cls pattern text f := of_mem_scan hf
  obtain ⟨-, -, -, -, -, -, -, htokens', hspells'⟩ := hfound.spelled hplain
  have hpos := List.length_pos_iff.2 (hspells'.ne_nil htokens')
  exact ⟨f, hf, hfound, nested_of_overlap hplain hplain hcross hfound ⟨after, heq, hmem⟩ hle (by omega)⟩

/-! ## Phrases of words alone -/

/-- No slot takes digits. -/
def wordy (ph : Phrase) : Bool := ph.all fun s => !s.digits

/-- What a phrase of words alone can be. -/
def spellings (ph : Phrase) : List (List (List Char)) :=
  (ph.map fun s => s.words.map String.toList).sections

theorem exists_mem_of_wordy (hwordy : wordy ph = true) (hs : s ∈ ph) (h : s.Admits cls w) :
    ∃ v ∈ s.words, w = v.toList := by
  rcases h with ⟨hdigits, -⟩ | hword
  · have hnot := List.all_eq_true.1 hwordy s hs
    rw [hdigits] at hnot
    cases hnot
  · exact hword

/-- **The words of such a phrase** are among finitely many. -/
theorem mem_spellings (hwordy : wordy ph = true) (h : List.Forall₂ (Slot.Admits cls) ph ws) :
    ws ∈ spellings ph := by
  rw [spellings, List.mem_sections, List.forall₂_map_right_iff]
  refine List.forall₂_iff_get.2 ⟨h.length_eq.symm, fun i hi hi' => ?_⟩
  obtain ⟨v, hv, hw⟩ := exists_mem_of_wordy hwordy (List.get_mem ph ⟨i, hi'⟩)
    ((List.forall₂_iff_get.1 h).2 i hi' hi)
  rw [hw]
  exact List.mem_map_of_mem hv

/-- No word of such a phrase has a digit. -/
theorem not_digit_of_wordy (hplain : ∀ s ∈ ph, s.plain = true) (hwordy : wordy ph = true)
    (h : List.Forall₂ (Slot.Admits cls) ph ws) (hw : w ∈ ws) {c : Char} (hc : c ∈ w) :
    cls.digit c = false := by
  obtain ⟨i, hi, rfl⟩ := List.getElem_of_mem hw
  have hi' : i < ph.length := h.length_eq ▸ hi
  have hslot : ph.get ⟨i, hi'⟩ ∈ ph := List.get_mem ph ⟨i, hi'⟩
  obtain ⟨v, hv, hword⟩ := exists_mem_of_wordy hwordy hslot ((List.forall₂_iff_get.1 h).2 i hi' hi)
  have hletters := (Bool.and_eq_true_iff.1 (List.all_eq_true.1 (hplain _ hslot) v hv)).2
  refine cls.not_digit_of_lower c (List.all_eq_true.1 hletters c ?_)
  rw [← hword]
  exact hc

end Spectral.Lib
