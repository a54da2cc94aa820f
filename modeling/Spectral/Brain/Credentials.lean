import Mathlib.Tactic.Tauto
import Spectral.Lib.Regex

/-!
# Credentials in a text

The five patterns of `DefaultRedactionPolicy`, and the words they stand for.

* `CredentialPattern.regex`, `replacement` — the patterns, and what their matches are replaced by.
* `redactWith` — all matches of one of them are replaced.
* `accepts_ssh`, `accepts_urlToken`, `accepts_bearer`, `of_accepts_apiKey`, `of_accepts_email` — the
  shapes of the words.
* `Foreign` — a word that has no bracket, and a character that is in no placeholder.
-/

namespace Spectral

open Spectral.Lib

/-! ## Characters -/

/-- The code points with the property `White_Space`. -/
def whiteSpaceCodes : List ℕ :=
  [9, 10, 11, 12, 13, 32, 133, 160, 5760, 8192, 8193, 8194, 8195, 8196, 8197, 8198, 8199, 8200, 8201,
    8202, 8232, 8233, 8239, 8287, 12288]

/-- `\s`. -/
def isWhiteSpace (c : Char) : Bool := decide (c.toNat ∈ whiteSpaceCodes)

/-- `\S`. -/
def isNonSpace (c : Char) : Bool := !isWhiteSpace c

/-- The simple case folding, as far as it leads to a letter of ASCII. -/
def foldCase (c : Char) : Char :=
  if c.toNat = 0x17F then 's' else if c.toNat = 0x212A then 'k' else c.toLower

/-- `(?i)`: the same letter, up to its case. -/
def sameFold (x c : Char) : Bool := decide (foldCase c = x)

/-- The same character. -/
def sameChar (x c : Char) : Bool := decide (c = x)

/-- `[A-Za-z0-9._\-]` under `(?i)`. -/
def isBearerChar (c : Char) : Bool :=
  (foldCase c).isAlphanum || c = '.' || c = '_' || c = '-'

/-- `[^&\s]`. -/
def isValueChar (c : Char) : Bool := c ≠ '&' && isNonSpace c

/-- `[A-Za-z0-9_\-]`. -/
def isKeyChar (c : Char) : Bool := c.isAlphanum || c = '_' || c = '-'

/-- `[a-zA-Z0-9._%+\-]`. -/
def isLocalChar (c : Char) : Bool :=
  c.isAlphanum || c = '.' || c = '_' || c = '%' || c = '+' || c = '-'

/-- `[a-zA-Z0-9.\-]`. -/
def isDomainChar (c : Char) : Bool := c.isAlphanum || c = '.' || c = '-'

/-- The characters that the placeholders are made of, but for the space of one of them. -/
def isPlaceholderChar (c : Char) : Bool := c.isUpper || c = '_' || c = '[' || c = ']'

/-! ## Patterns -/

/-- The patterns, in the order in which they are applied. -/
inductive CredentialPattern where
  | ssh
  | urlToken
  | bearer
  | apiKey
  | email
  deriving DecidableEq, Repr

/-- The names of the query parameters that hold a credential, but for the first one. -/
def laterTokenNames : List (List Char) :=
  ["key", "password", "secret", "auth", "api_key", "access_token", "refresh_token"].map String.toList

/-- The placeholder of a value, with the sign in front of it. -/
def valuePlaceholder : List Char := "=[REDACTED]".toList

namespace CredentialPattern

/-- The expression of a pattern. -/
def regex : CredentialPattern → Regex
  | ssh => .seq (.word sameFold "ssh".toList) (.seq (.plus isWhiteSpace) (.seq (.plus isNonSpace)
      (.seq (.cls (sameChar ':')) (.seq (.plus isNonSpace) (.seq (.cls (sameChar '@'))
        (.plus isNonSpace))))))
  | urlToken => .seq (.group 1 (.cls fun c => c = '?' || c = '&'))
      (.seq (.group 2 (.anyOf (.word sameFold "token".toList)
        (laterTokenNames.map (.word sameFold)))) (.seq (.cls (sameChar '=')) (.many isValueChar)))
  | bearer => .seq (.word sameFold "bearer".toList) (.seq (.plus isWhiteSpace) (.plus isBearerChar))
  | apiKey => .anyOf (.seq (.word sameChar "sk-".toList) (.atLeast 20 Char.isAlphanum))
      [.seq (.word sameChar "ghp_".toList) (.atLeast 36 Char.isAlphanum),
        .seq (.word sameChar "AIzaSy".toList) (.times isKeyChar 33)]
  | email => .seq (.plus isLocalChar) (.seq (.cls (sameChar '@')) (.seq (.plus isDomainChar)
      (.seq (.cls (sameChar '.')) (.atLeast 2 Char.isAlpha))))

/-- What a match is replaced by. -/
def replacement : CredentialPattern → Regex.Match → List Char
  | ssh, _ => "[SSH_REDACTED]".toList
  | urlToken, M => M.group 1 ++ M.group 2 ++ valuePlaceholder
  | bearer, _ => "Bearer [REDACTED]".toList
  | apiKey, _ => "[API_KEY_REDACTED]".toList
  | email, _ => "[EMAIL_REDACTED]".toList

/-- All matches of the pattern are replaced. -/
def redactWith (P : CredentialPattern) (text : List Char) : List Char :=
  P.regex.replaceAll P.replacement text

end CredentialPattern

/-! ## What the patterns stand for -/

/-- Every character of a folded word folds to one of the word. -/
theorem foldCase_mem_of_word {xs m : List Char}
    (h : List.Forall₂ (fun x c => sameFold x c = true) xs m) : ∀ c ∈ m, foldCase c ∈ xs := by
  induction h with
  | nil => simp
  | cons hc _ ih =>
    intro d hd
    rcases List.mem_cons.1 hd with rfl | hd
    · rw [of_decide_eq_true hc]
      exact List.mem_cons_self
    · exact List.mem_cons_of_mem _ (ih d hd)

/-- A class without white space. -/
theorem isNonSpace_of {p : Char → Bool}
    (hp : whiteSpaceCodes.all (fun n => !p (Char.ofNat n)) = true) {c : Char} (hc : p c = true) :
    isNonSpace c = true := by
  by_contra hspace
  have hcode : c.toNat ∈ whiteSpaceCodes := by
    simpa [isNonSpace, isWhiteSpace] using hspace
  have hnot := List.all_eq_true.1 hp _ hcode
  rw [Char.ofNat_toNat, hc] at hnot
  cases hnot

/-- White space folds to itself. -/
theorem isNonSpace_of_foldCase {xs : List Char}
    (hxs : whiteSpaceCodes.all (fun n => decide (foldCase (Char.ofNat n) ∉ xs)) = true) {c : Char}
    (h : foldCase c ∈ xs) : isNonSpace c = true :=
  isNonSpace_of (p := fun c => decide (foldCase c ∈ xs)) (by simpa using hxs) (decide_eq_true h)

theorem isNonSpace_of_isBearerChar {c : Char} (h : isBearerChar c = true) : isNonSpace c = true :=
  isNonSpace_of (by decide +kernel) h

theorem isNonSpace_of_isKeyChar {c : Char} (h : isKeyChar c = true) : isNonSpace c = true :=
  isNonSpace_of (by decide +kernel) h

theorem isNonSpace_of_isPlaceholderChar {c : Char} (h : isPlaceholderChar c = true) :
    isNonSpace c = true :=
  isNonSpace_of (by decide +kernel) h

theorem isNonSpace_of_isLocalChar {c : Char} (h : isLocalChar c = true) : isNonSpace c = true :=
  isNonSpace_of (by decide +kernel) h

namespace CredentialPattern

variable {m : List Char}

theorem accepts_ssh : ssh.regex.Accepts m ↔ ∃ x w a b d,
    List.Forall₂ (fun x c => sameFold x c = true) "ssh".toList x ∧
      (w ≠ [] ∧ ∀ c ∈ w, isWhiteSpace c = true) ∧ (a ≠ [] ∧ ∀ c ∈ a, isNonSpace c = true) ∧
      (b ≠ [] ∧ ∀ c ∈ b, isNonSpace c = true) ∧ (d ≠ [] ∧ ∀ c ∈ d, isNonSpace c = true) ∧
      m = x ++ (w ++ (a ++ ':' :: (b ++ '@' :: d))) := by
  constructor
  · rintro ⟨x, _, hx, ⟨w, _, hw, ⟨a, _, ha, ⟨_, _, ⟨c, hc, rfl⟩, ⟨b, _, hb, ⟨_, d, ⟨c', hc', rfl⟩, hd,
      rfl⟩, rfl⟩, rfl⟩, rfl⟩, rfl⟩, rfl⟩
    obtain rfl := of_decide_eq_true hc
    obtain rfl := of_decide_eq_true hc'
    exact ⟨x, w, a, b, d, Regex.accepts_word.1 hx, Regex.accepts_plus.1 hw, Regex.accepts_plus.1 ha,
      Regex.accepts_plus.1 hb, Regex.accepts_plus.1 hd, rfl⟩
  · rintro ⟨x, w, a, b, d, hx, hw, ha, hb, hd, rfl⟩
    exact ⟨x, _, Regex.accepts_word.2 hx, ⟨w, _, Regex.accepts_plus.2 hw,
      ⟨a, _, Regex.accepts_plus.2 ha, ⟨[':'], _, ⟨':', by decide, rfl⟩,
        ⟨b, _, Regex.accepts_plus.2 hb, ⟨['@'], d, ⟨'@', by decide, rfl⟩, Regex.accepts_plus.2 hd, rfl⟩,
          rfl⟩, rfl⟩, rfl⟩, rfl⟩, rfl⟩

theorem accepts_bearer : bearer.regex.Accepts m ↔ ∃ x w d,
    List.Forall₂ (fun x c => sameFold x c = true) "bearer".toList x ∧
      (w ≠ [] ∧ ∀ c ∈ w, isWhiteSpace c = true) ∧ (d ≠ [] ∧ ∀ c ∈ d, isBearerChar c = true) ∧
      m = x ++ (w ++ d) := by
  constructor
  · rintro ⟨x, _, hx, ⟨w, d, hw, hd, rfl⟩, rfl⟩
    exact ⟨x, w, d, Regex.accepts_word.1 hx, Regex.accepts_plus.1 hw, Regex.accepts_plus.1 hd, rfl⟩
  · rintro ⟨x, w, d, hx, hw, hd, rfl⟩
    exact ⟨x, _, Regex.accepts_word.2 hx,
      ⟨w, d, Regex.accepts_plus.2 hw, Regex.accepts_plus.2 hd, rfl⟩, rfl⟩

/-- A name of a query parameter with a credential. -/
def IsTokenName (name : List Char) : Prop :=
  ∃ w ∈ "token".toList :: laterTokenNames,
    List.Forall₂ (fun x c => sameFold x c = true) w name

/-- Its characters are letters that the names have. -/
theorem IsTokenName.mem {name : List Char} (h : IsTokenName name) :
    ∀ c ∈ name, foldCase c ∈ "acdefhiknoprstuwy_".toList := by
  obtain ⟨w, hw, hname⟩ := h
  intro c hc
  have hletters : ("token".toList :: laterTokenNames).all (fun w =>
      w.all fun x => decide (x ∈ "acdefhiknoprstuwy_".toList)) = true := by decide +kernel
  have hword := List.all_eq_true.1 hletters w hw
  exact of_decide_eq_true (List.all_eq_true.1 hword _ (foldCase_mem_of_word hname c hc))

theorem IsTokenName.isNonSpace {name : List Char} (h : IsTokenName name) :
    ∀ c ∈ name, isNonSpace c = true := fun c hc =>
  isNonSpace_of_foldCase (by decide +kernel) (h.mem c hc)

theorem accepts_tokenName {name : List Char} : (Regex.anyOf (.word sameFold "token".toList)
    (laterTokenNames.map (.word sameFold))).Accepts name ↔ IsTokenName name := by
  rw [Regex.accepts_anyOf, ← List.map_cons]
  unfold IsTokenName
  simp only [List.mem_map, exists_exists_and_eq_and, Regex.accepts_word]

theorem accepts_urlToken : urlToken.regex.Accepts m ↔ ∃ q name v, (q = '?' ∨ q = '&') ∧
    IsTokenName name ∧ (∀ c ∈ v, isValueChar c = true) ∧ m = q :: (name ++ '=' :: v) := by
  constructor
  · rintro ⟨_, _, ⟨q, hq, rfl⟩, ⟨name, _, hn, ⟨_, v, ⟨c, hc, rfl⟩, hv, rfl⟩, rfl⟩, rfl⟩
    obtain rfl := of_decide_eq_true hc
    exact ⟨q, name, v, by simpa using hq, accepts_tokenName.1 hn, hv, rfl⟩
  · rintro ⟨q, name, v, hq, hn, hv, rfl⟩
    exact ⟨[q], _, ⟨q, by simpa using hq, rfl⟩, ⟨name, _, accepts_tokenName.2 hn,
      ⟨['='], v, ⟨'=', by decide, rfl⟩, hv, rfl⟩, rfl⟩, rfl⟩

/-- **A match of a query parameter**: sign, name and value are as it says, and nothing more of a value
follows. -/
theorem of_matchAt_urlToken {s : List Char} {M : Regex.Match} (h : urlToken.regex.matchAt s = some M) :
    ∃ q name v, (q = '?' ∨ q = '&') ∧ IsTokenName name ∧ (∀ c ∈ v, isValueChar c = true) ∧
      (∀ c ∈ M.rest.head?, isValueChar c = false) ∧ M.text = q :: (name ++ '=' :: v) ∧
      s = M.text ++ M.rest ∧ urlToken.replacement M = q :: (name ++ valuePlaceholder) := by
  have hends : urlToken.regex.EndsIn isValueChar := rfl
  have hrest := Regex.rest_of_matchAt hends h
  have hs := (Regex.of_matchAt h).1
  have hcandidate := List.mem_of_head? h
  obtain ⟨N, hN, hcandidate⟩ := List.mem_flatMap.1 hcandidate
  obtain ⟨N', hN', rfl⟩ := List.mem_map.1 hcandidate
  obtain ⟨K, hK, hN'⟩ := List.mem_flatMap.1 hN'
  obtain ⟨K', hK', rfl⟩ := List.mem_map.1 hN'
  -- the groups are those of the sign and of the name
  obtain ⟨N, hsign, rfl⟩ := List.mem_map.1 hN
  obtain ⟨K, hword, rfl⟩ := List.mem_map.1 hK
  have hNgroups := Regex.groups_of_groupless rfl hsign
  have hKgroups := Regex.groups_of_groupless rfl hword
  have hK'groups := Regex.groups_of_groupless rfl hK'
  obtain ⟨q, hq, hNtext⟩ := (Regex.of_mem_candidates hsign).2
  have hname := accepts_tokenName.1 (Regex.of_mem_candidates hword).2
  obtain ⟨_, v, ⟨c, hc, rfl⟩, hv, hK'text⟩ := (Regex.of_mem_candidates hK').2
  obtain rfl := of_decide_eq_true hc
  refine ⟨q, K.text, v, by simpa using hq, hname, hv, hrest, ?_, hs, ?_⟩
  · simp [Regex.Match.append, hNtext, hK'text]
  · have hgroups : K'.groups ++ (2, K.text) :: K.groups ++ (1, N.text) :: N.groups =
        [(2, K.text), (1, [q])] := by
      rw [hNgroups, hKgroups, hK'groups, hNtext]
      rfl
    change (List.lookup 1 (K'.groups ++ (2, K.text) :: K.groups ++ (1, N.text) :: N.groups)).getD [] ++
      (List.lookup 2 (K'.groups ++ (2, K.text) :: K.groups ++ (1, N.text) :: N.groups)).getD [] ++
      valuePlaceholder = _
    rw [hgroups]
    rfl

/-- An API key is made of key characters, with a small letter among them. -/
theorem of_accepts_apiKey (h : apiKey.regex.Accepts m) :
    (∀ c ∈ m, isKeyChar c = true) ∧ ∃ c ∈ m, isPlaceholderChar c = false := by
  have hword : ∀ {xs x : List Char}, (Regex.word sameChar xs).Accepts x → x = xs := by
    intro xs x hx
    have heq := (Regex.accepts_word.1 hx).imp fun a c hc => (of_decide_eq_true hc).symm
    exact (List.forall₂_eq_eq_eq ▸ heq : xs = x).symm
  have hkey : ∀ c : Char, c.isAlphanum = true → isKeyChar c = true := fun c hc => by
    simp [isKeyChar, hc]
  rcases h with ⟨x, y, hx, hy, rfl⟩ | ⟨x, y, hx, hy, rfl⟩ | ⟨x, y, hx, hy, rfl⟩
  · obtain rfl := hword hx
    refine ⟨fun c hc => ?_, 's', by simp, by decide⟩
    rcases List.mem_append.1 hc with hc | hc
    · exact List.all_eq_true.1 (by decide : "sk-".toList.all isKeyChar = true) c hc
    · exact hkey c ((Regex.accepts_atLeast.1 hy).2 c hc)
  · obtain rfl := hword hx
    refine ⟨fun c hc => ?_, 'g', by simp, by decide⟩
    rcases List.mem_append.1 hc with hc | hc
    · exact List.all_eq_true.1 (by decide : "ghp_".toList.all isKeyChar = true) c hc
    · exact hkey c ((Regex.accepts_atLeast.1 hy).2 c hc)
  · obtain rfl := hword hx
    refine ⟨fun c hc => ?_, 'z', by simp, by decide⟩
    rcases List.mem_append.1 hc with hc | hc
    · exact List.all_eq_true.1 (by decide : "AIzaSy".toList.all isKeyChar = true) c hc
    · exact (Regex.accepts_times.1 hy).2 c hc

theorem of_accepts_email (h : email.regex.Accepts m) : ∃ a d, (a ≠ [] ∧ ∀ c ∈ a, isLocalChar c = true) ∧
    (∀ c ∈ d, isDomainChar c = true) ∧ m = a ++ '@' :: d := by
  obtain ⟨a, _, ha, ⟨_, _, ⟨c, hc, rfl⟩, ⟨d, _, hd, ⟨_, t, ⟨c', hc', rfl⟩, ht, rfl⟩, rfl⟩, rfl⟩, rfl⟩ :=
    h
  obtain rfl := of_decide_eq_true hc
  obtain rfl := of_decide_eq_true hc'
  refine ⟨a, d ++ '.' :: t, Regex.accepts_plus.1 ha, fun c hc => ?_, rfl⟩
  rcases List.mem_append.1 hc with hc | hc
  · exact (Regex.accepts_plus.1 hd).2 c hc
  · rcases List.mem_cons.1 hc with rfl | hc
    · decide
    · have halpha := (Regex.accepts_atLeast.1 ht).2 c hc
      simp [isDomainChar, Char.isAlphanum, halpha]

/-! ### Their characters -/

/-- A text that no placeholder could be a part of. -/
structure Foreign (m : List Char) : Prop where
  noOpen : '[' ∉ m
  noClose : ']' ∉ m
  foreign : ∃ c ∈ m, isPlaceholderChar c = false

theorem foreign_of_accepts {P : CredentialPattern} (hssh : P ≠ .ssh) (hurl : P ≠ .urlToken)
    (h : P.regex.Accepts m) : Foreign m := by
  cases P with
  | ssh => exact absurd rfl hssh
  | urlToken => exact absurd rfl hurl
  | bearer =>
    obtain ⟨x, w, d, hx, ⟨hne, hw⟩, ⟨-, hd⟩, rfl⟩ := accepts_bearer.1 h
    have hbracket : ∀ c, foldCase c ∉ "bearer".toList → isNonSpace c = true → isBearerChar c = false →
        c ∉ x ++ (w ++ d) := by
      intro c hfold hspace htoken hc
      rcases List.mem_append.1 hc with hc | hc
      · exact hfold (foldCase_mem_of_word hx c hc)
      rcases List.mem_append.1 hc with hc | hc
      · rw [isNonSpace, hw c hc] at hspace
        cases hspace
      · rw [hd c hc] at htoken
        cases htoken
    obtain ⟨c, t, rfl⟩ := List.exists_cons_of_ne_nil hne
    refine ⟨hbracket _ (by decide) (by decide) (by decide),
      hbracket _ (by decide) (by decide) (by decide), c, by simp, ?_⟩
    by_contra hplaceholder
    have hspace := isNonSpace_of_isPlaceholderChar (Bool.not_eq_false _ ▸ hplaceholder)
    rw [isNonSpace, hw c List.mem_cons_self] at hspace
    cases hspace
  | apiKey =>
    obtain ⟨hkey, hforeign⟩ := of_accepts_apiKey h
    exact ⟨fun hc => absurd (hkey _ hc) (by decide), fun hc => absurd (hkey _ hc) (by decide), hforeign⟩
  | email =>
    obtain ⟨a, d, ⟨-, ha⟩, hd, rfl⟩ := of_accepts_email h
    have hbracket : ∀ c, isLocalChar c = false → isDomainChar c = false → c ≠ '@' →
        c ∉ a ++ '@' :: d := by
      intro c hlocal hdomain hat hc
      rcases List.mem_append.1 hc with hc | hc
      · rw [ha c hc] at hlocal
        cases hlocal
      rcases List.mem_cons.1 hc with hc | hc
      · exact hat hc
      · rw [hd c hc] at hdomain
        cases hdomain
    exact ⟨hbracket _ (by decide) (by decide) (by decide),
      hbracket _ (by decide) (by decide) (by decide), '@', by simp, by decide⟩

/-- **How a match begins**. -/
theorem head_of_accepts {P : CredentialPattern} (h : P.regex.Accepts m) :
    ∃ c t, m = c :: t ∧ isNonSpace c = true ∧ c ≠ '|' ∧ (P ≠ .urlToken → c ≠ '&') := by
  have hfolded : ∀ {x : Char} {xs x' y : List Char}, x ∈ "abcdefghijklmnopqrstuvwxyz_-".toList →
      List.Forall₂ (fun x c => sameFold x c = true) (x :: xs) x' →
      ∃ c t, x' ++ y = c :: t ∧ isNonSpace c = true ∧ c ≠ '|' ∧ (P ≠ .urlToken → c ≠ '&') := by
    intro x xs x' y hx hword
    obtain ⟨c, t, hc, -, rfl⟩ := List.forall₂_cons_left_iff.1 hword
    have hfold : foldCase c ∈ "abcdefghijklmnopqrstuvwxyz_-".toList := of_decide_eq_true hc ▸ hx
    refine ⟨c, t ++ y, rfl, isNonSpace_of_foldCase (by decide +kernel) hfold, ?_, fun _ => ?_⟩
    · rintro rfl
      exact absurd hfold (by decide)
    · rintro rfl
      exact absurd hfold (by decide)
  cases P with
  | ssh =>
    obtain ⟨x, w, a, b, d, hx, -, -, -, -, rfl⟩ := accepts_ssh.1 h
    exact hfolded (by decide) hx
  | urlToken =>
    obtain ⟨q, name, v, hq, -, -, rfl⟩ := accepts_urlToken.1 h
    refine ⟨q, _, rfl, ?_, ?_, fun hne => absurd rfl hne⟩ <;> rcases hq with rfl | rfl <;> decide
  | bearer =>
    obtain ⟨x, w, d, hx, -, -, rfl⟩ := accepts_bearer.1 h
    exact hfolded (by decide) hx
  | apiKey =>
    obtain ⟨hkey, c, hc, -⟩ := of_accepts_apiKey h
    obtain ⟨c, t, rfl⟩ := List.exists_cons_of_ne_nil (List.ne_nil_of_mem hc)
    have hhead := hkey c List.mem_cons_self
    refine ⟨c, t, rfl, isNonSpace_of_isKeyChar hhead, ?_, fun _ => ?_⟩
    · rintro rfl
      exact absurd hhead (by decide)
    · rintro rfl
      exact absurd hhead (by decide)
  | email =>
    obtain ⟨a, d, ⟨hne, ha⟩, -, rfl⟩ := of_accepts_email h
    obtain ⟨c, t, rfl⟩ := List.exists_cons_of_ne_nil hne
    have hhead := ha c List.mem_cons_self
    refine ⟨c, t ++ '@' :: d, rfl, isNonSpace_of_isLocalChar hhead, ?_, fun _ => ?_⟩
    · rintro rfl
      exact absurd hhead (by decide)
    · rintro rfl
      exact absurd hhead (by decide)

theorem not_accepts_nil (P : CredentialPattern) : ¬ P.regex.Accepts [] := by
  intro h
  obtain ⟨c, t, hnil, -⟩ := head_of_accepts h
  cases hnil

/-- The patterns without white space. -/
theorem isNonSpace_of_accepts {P : CredentialPattern} (hssh : P ≠ .ssh) (hbearer : P ≠ .bearer)
    (h : P.regex.Accepts m) : ∀ c ∈ m, isNonSpace c = true := by
  cases P with
  | ssh => exact absurd rfl hssh
  | urlToken =>
    obtain ⟨q, name, v, hq, hname, hv, rfl⟩ := accepts_urlToken.1 h
    intro c hc
    rcases List.mem_cons.1 hc with rfl | hc
    · rcases hq with rfl | rfl <;> decide
    rcases List.mem_append.1 hc with hc | hc
    · exact hname.isNonSpace c hc
    rcases List.mem_cons.1 hc with rfl | hc
    · decide
    · exact (Bool.and_eq_true _ _ ▸ hv c hc : _ ∧ isNonSpace c = true).2
  | bearer => exact absurd rfl hbearer
  | apiKey => exact fun c hc => isNonSpace_of_isKeyChar ((of_accepts_apiKey h).1 c hc)
  | email =>
    obtain ⟨a, d, ⟨-, ha⟩, hd, rfl⟩ := of_accepts_email h
    intro c hc
    rcases List.mem_append.1 hc with hc | hc
    · exact isNonSpace_of_isLocalChar (ha c hc)
    rcases List.mem_cons.1 hc with rfl | hc
    · decide
    · refine isNonSpace_of_isLocalChar ?_
      have hdomain := hd c hc
      simp only [isDomainChar, Bool.or_eq_true, decide_eq_true_eq] at hdomain
      rcases hdomain with (hc | rfl) | rfl
      · simp [isLocalChar, hc]
      · decide
      · decide

end CredentialPattern

end Spectral
