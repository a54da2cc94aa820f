import Spectral.Brain.Credentials
import Spectral.Lib.Pieces

/-!
# Placeholders for credentials

What replacing the matches of one pattern does to the matches of another.  A match never begins in
what is put in, and one that begins between two pieces was there before; so the text gets rid of the
matches of a pattern, and keeps rid of them.

* `noMatch_ssh`, `noMatch_bearer`, `noMatch_last` — what a replacement leaves of its own pattern.
* `noMatch_ssh_redactWith`, `noMatch_redactWith` — and of the patterns before it.
* `ParamsRedacted` — every query parameter with the name of a credential has the placeholder for its
  value; `paramsRedacted_redactWith`, `ParamsRedacted.redactWith`.
-/

namespace Spectral

open Spectral.Lib

namespace CredentialPattern

variable {P Q : CredentialPattern} {s s' t x' y' z z' m : List Char} {M : Regex.Match} {c : Char}

theorem replaced_redactWith (P : CredentialPattern) (s : List Char) :
    Regex.Replaced P.regex P.replacement s (P.redactWith s) :=
  Regex.replaced_replaceAll (not_accepts_nil P) s

/-! ## What is put in -/

/-- The characters that a replacement begins with. -/
def openings : CredentialPattern → List Char
  | urlToken => ['?', '&']
  | bearer => ['B']
  | _ => ['[']

theorem replacement_opens (h : P.regex.matchAt z = some M) :
    ∃ c t, P.replacement M = c :: t ∧ c ∈ P.openings := by
  cases P with
  | urlToken =>
    obtain ⟨q, name, v, hq, -, -, -, -, -, hM⟩ := of_matchAt_urlToken h
    exact ⟨q, _, hM, by simpa [openings] using hq⟩
  | ssh => exact ⟨'[', _, rfl, by decide⟩
  | bearer => exact ⟨'B', _, rfl, by decide⟩
  | apiKey => exact ⟨'[', _, rfl, by decide⟩
  | email => exact ⟨'[', _, rfl, by decide⟩

/-- It ends with a bracket, and has no white space but for that of one pattern. -/
theorem replacement_closes (hP : P ≠ .bearer) (h : P.regex.matchAt z = some M) :
    ∃ S, P.replacement M = S ++ [']'] ∧ ∀ c ∈ S, isNonSpace c = true ∧ c ≠ ':' ∧ c ≠ '@' := by
  have hconst : ∀ S : List Char,
      S.all (fun c => isNonSpace c && (c ≠ ':') && (c ≠ '@')) = true →
      ∀ c ∈ S, isNonSpace c = true ∧ c ≠ ':' ∧ c ≠ '@' := by
    intro S hS c hc
    simpa [and_assoc] using List.all_eq_true.1 hS c hc
  cases P with
  | ssh => exact ⟨"[SSH_REDACTED".toList, rfl, hconst _ (by decide +kernel)⟩
  | urlToken =>
    obtain ⟨q, name, v, hq, hname, -, -, -, -, hM⟩ := of_matchAt_urlToken h
    refine ⟨q :: (name ++ "=[REDACTED".toList), ?_, fun c hc => ?_⟩
    · rw [hM, List.cons_append, List.append_assoc]
      rfl
    rcases List.mem_cons.1 hc with rfl | hc
    · rcases hq with rfl | rfl <;> decide
    rcases List.mem_append.1 hc with hc | hc
    · refine ⟨hname.isNonSpace c hc, ?_, ?_⟩
      · rintro rfl
        exact absurd (hname.mem _ hc) (by decide)
      · rintro rfl
        exact absurd (hname.mem _ hc) (by decide)
    · exact hconst _ (by decide +kernel) c hc
  | bearer => exact absurd rfl hP
  | apiKey => exact ⟨"[API_KEY_REDACTED".toList, rfl, hconst _ (by decide +kernel)⟩
  | email => exact ⟨"[EMAIL_REDACTED".toList, rfl, hconst _ (by decide +kernel)⟩

theorem not_mem_replacement (h : P.regex.matchAt z = some M) (hc : c = ':' ∨ c = '@') :
    c ∉ P.replacement M := by
  by_cases hP : P = .bearer
  · subst hP
    rcases hc with rfl | rfl
    · exact (by decide : ':' ∉ "Bearer [REDACTED]".toList)
    · exact (by decide : '@' ∉ "Bearer [REDACTED]".toList)
  · obtain ⟨S, hS, hall⟩ := replacement_closes hP h
    rw [hS]
    intro hmem
    rcases List.mem_append.1 hmem with hmem | hmem
    · exact hc.elim (hall c hmem).2.1 (hall c hmem).2.2
    · rw [List.mem_singleton.1 hmem] at hc
      exact absurd hc (by decide)

/-! ## What is kept

How a match of another pattern, or of this one, comes through the replacement. -/

/-- Where a text begins with no white space after a replacement, it did before. -/
theorem head_of_replaced (h : Regex.Replaced P.regex P.replacement s (c :: s'))
    (hc : isNonSpace c = true) : ∃ d t, s = d :: t ∧ isNonSpace d = true := by
  generalize hs' : c :: s' = s'' at h
  cases h with
  | nil => cases hs'
  | keep hnone hrest =>
    obtain ⟨rfl, -⟩ := List.cons_eq_cons.1 hs'
    exact ⟨c, _, rfl, hc⟩
  | subst hM hrest =>
    obtain ⟨hs, haccepts⟩ := Regex.of_matchAt hM
    obtain ⟨d, t, hd, hspace, -⟩ := head_of_accepts haccepts
    exact ⟨d, _, by rw [hs, hd, List.cons_append], hspace⟩

/-- A match without white space, or the text goes on with some. -/
theorem text_or_rest_of_matchAt (hP : P ≠ .bearer) (h : P.regex.matchAt z = some M) :
    (∀ c ∈ M.text, isNonSpace c = true) ∨ ∀ c ∈ M.rest.head?, isNonSpace c = false := by
  by_cases hssh : P = .ssh
  · subst hssh
    have hends : ssh.regex.EndsIn isNonSpace := rfl
    exact Or.inr (Regex.rest_of_matchAt hends h)
  · exact Or.inl (isNonSpace_of_accepts hssh hP (Regex.of_matchAt h).2)

/-- **A run of no white space up to a colon or an at sign** was one before. -/
theorem exists_run (h : Regex.Replaced P.regex P.replacement s (x' ++ c :: y'))
    (hc : c = ':' ∨ c = '@') (hx' : ∀ d ∈ x', isNonSpace d = true) :
    ∃ x y, s = x ++ c :: y ∧ (∀ d ∈ x, isNonSpace d = true) ∧ (x' ≠ [] → x ≠ []) ∧
      Regex.Replaced P.regex P.replacement y y' := by
  generalize hs' : x' ++ c :: y' = s' at h
  induction h generalizing x' with
  | nil => simp at hs'
  | @keep d s s' hnone hrest ih =>
    cases x' with
    | nil =>
      obtain ⟨rfl, rfl⟩ := List.cons_eq_cons.1 hs'
      exact ⟨[], s, rfl, by simp, fun hne => hne, hrest⟩
    | cons e x' =>
      obtain ⟨rfl, htail⟩ := List.cons_eq_cons.1 hs'
      obtain ⟨x, y, rfl, hx, -, hy⟩ := ih (fun f hf => hx' f (List.mem_cons_of_mem e hf)) htail
      refine ⟨e :: x, y, rfl, fun f hf => ?_, fun _ => List.cons_ne_nil e x, hy⟩
      rcases List.mem_cons.1 hf with rfl | hf
      · exact hx' f List.mem_cons_self
      · exact hx f hf
  | @subst s rest' M hM hrest ih =>
    -- the sign is behind what is put in
    obtain ⟨v, rfl, hv⟩ : ∃ v, x' = P.replacement M ++ v ∧ v ++ c :: y' = rest' := by
      rcases List.append_eq_append_iff.1 hs' with ⟨u, hu, hcu⟩ | ⟨v, hv, hrest'⟩
      · cases u with
        | nil => exact ⟨[], by simpa using hu.symm, by simpa using hcu⟩
        | cons d u =>
          obtain ⟨rfl, -⟩ := List.cons_eq_cons.1 hcu
          exact absurd (by rw [hu]; simp) (not_mem_replacement hM hc)
      · exact ⟨v, hv, hrest'.symm⟩
    have hP : P ≠ .bearer := by
      rintro rfl
      have hspace : ' ' ∈ "Bearer [REDACTED]".toList := by decide
      exact absurd (hx' _ (List.mem_append_left v hspace)) (by decide)
    obtain ⟨x, y, hy, hx, -, hreplaced⟩ := ih (fun d hd => hx' d (List.mem_append_right _ hd)) hv
    obtain ⟨hs, haccepts⟩ := Regex.of_matchAt hM
    have htext : ∀ d ∈ M.text, isNonSpace d = true := by
      refine (text_or_rest_of_matchAt hP hM).resolve_right fun hspace => ?_
      rw [hy] at hspace
      cases x with
      | nil => rcases hc with rfl | rfl <;> exact absurd (hspace _ rfl) (by decide)
      | cons d x => exact absurd (hx d List.mem_cons_self) (by rw [hspace d rfl]; decide)
    refine ⟨M.text ++ x, y, ?_, fun d hd => ?_, fun _ hnil => ?_, hreplaced⟩
    · rw [hs, hy, List.append_assoc]
    · exact (List.mem_append.1 hd).elim (htext d) (hx d)
    · exact not_accepts_nil P ((List.append_eq_nil_iff.1 hnil).1 ▸ haccepts)

/-! ### The first pattern -/

theorem foldCase_of_openings (hc : c ∈ P.openings) :
    foldCase c ∉ "ssh".toList ∧ isNonSpace c = true := by
  have hall : ∀ P : CredentialPattern, P.openings.all (fun c =>
      decide (foldCase c ∉ "ssh".toList) && isNonSpace c) = true := by
    intro P
    cases P <;> decide +kernel
  simpa using List.all_eq_true.1 (hall P) c hc

/-- **A match of the first pattern** in a text where another is replaced was one before. -/
theorem exists_ssh (h : Regex.Replaced P.regex P.replacement z z') (hm : ssh.regex.Accepts m)
    (hz : m <+: z') : ∃ m₀, ssh.regex.Accepts m₀ ∧ m₀ <+: z := by
  obtain ⟨x, w, a, b, d, hx, hw, ha, hb, hd, rfl⟩ := accepts_ssh.1 hm
  obtain ⟨t, rfl⟩ := hz
  obtain ⟨e, d, rfl⟩ := List.exists_cons_of_ne_nil hd.1
  rw [show x ++ (w ++ (a ++ ':' :: (b ++ '@' :: e :: d))) ++ t =
    (x ++ w) ++ (a ++ ':' :: (b ++ '@' :: e :: (d ++ t))) by simp] at h
  obtain ⟨y, rfl, hy⟩ := h.keeps (fun _ _ hM => replacement_opens hM) fun c hc hopen => by
    obtain ⟨hfold, hspace⟩ := foldCase_of_openings hopen
    rcases List.mem_append.1 hc with hc | hc
    · exact hfold (foldCase_mem_of_word hx c hc)
    · rw [isNonSpace, hw.2 c hc] at hspace
      cases hspace
  obtain ⟨a₀, y₁, rfl, ha₀, hane, hy₁⟩ := exists_run hy (Or.inl rfl) ha.2
  obtain ⟨b₀, y₂, rfl, hb₀, hbne, hy₂⟩ := exists_run hy₁ (Or.inr rfl) hb.2
  obtain ⟨e₀, y₃, rfl, he₀⟩ := head_of_replaced hy₂ (hd.2 e List.mem_cons_self)
  refine ⟨x ++ (w ++ (a₀ ++ ':' :: (b₀ ++ '@' :: [e₀]))), accepts_ssh.2 ⟨x, w, a₀, b₀, [e₀], hx, hw,
    ⟨hane ha.1, ha₀⟩, ⟨hbne hb.1, hb₀⟩, ⟨List.cons_ne_nil _ _, by simpa using he₀⟩, rfl⟩, y₃, by simp⟩

/-- None begins in what is put in. -/
theorem not_prefix_of_ssh {R : List Char} (hM : P.regex.matchAt z = some M)
    (hR : R <:+ P.replacement M) (hne : R ≠ []) (hm : ssh.regex.Accepts m) : ¬ m <+: R ++ t := by
  obtain ⟨x, w, a, b, d, hx, ⟨hwne, hw⟩, -, -, -, rfl⟩ := accepts_ssh.1 hm
  obtain ⟨e, w, rfl⟩ := List.exists_cons_of_ne_nil hwne
  intro hstarts
  have hword : x ++ [e] <+: R ++ t := by
    refine List.IsPrefix.trans ?_ hstarts
    exact ⟨w ++ (a ++ ':' :: (b ++ '@' :: d)), by simp⟩
  by_cases hP : P = .bearer
  · subst hP
    obtain ⟨c, x, hc, -, rfl⟩ := List.forall₂_cons_left_iff.1 hx
    obtain ⟨f, R, rfl⟩ := List.exists_cons_of_ne_nil hne
    obtain ⟨rfl, -⟩ := List.cons_prefix_cons.1 hword
    have hletters : "Bearer [REDACTED]".toList.all (fun c => !sameFold 's' c) = true := by
      decide +kernel
    have hnot := List.all_eq_true.1 hletters c (hR.subset List.mem_cons_self)
    rw [show sameFold 's' c = true from hc] at hnot
    cases hnot
  · obtain ⟨S, hS, hspace⟩ := replacement_closes hP hM
    rw [hS] at hR
    rcases List.suffix_concat_iff.1 hR with rfl | ⟨R, rfl, hRS⟩
    · exact hne rfl
    · rw [List.append_assoc, List.singleton_append] at hword
      have hinside : x ++ [e] <+: R := prefix_of_notMem hword fun hmem => by
        rcases List.mem_append.1 hmem with hmem | hmem
        · exact absurd (foldCase_mem_of_word hx _ hmem) (by decide)
        · obtain rfl := List.mem_singleton.1 hmem
          exact absurd (hw _ List.mem_cons_self) (by decide)
      have hnonspace := (hspace e (hRS.subset (hinside.subset (by simp)))).1
      rw [isNonSpace, hw e List.mem_cons_self] at hnonspace
      cases hnonspace

/-- **The first pattern** is gone, -/
theorem noMatch_ssh (s : List Char) : ssh.regex.NoMatch (ssh.redactWith s) :=
  Regex.noMatch_of_replaced (not_accepts_nil ssh) (replaced_redactWith ssh s)
    (fun _ _ _ _ _ hM hR hne hm => not_prefix_of_ssh hM hR hne hm)
    (fun _ _ _ h hm hz => exists_ssh h hm hz)
    fun _ _ hM hnil => by
      obtain ⟨c, t, hc, -⟩ := replacement_opens hM
      rw [hc] at hnil
      cases hnil

/-- and stays away. -/
theorem noMatch_ssh_redactWith (P : CredentialPattern) (h : ssh.regex.NoMatch s) :
    ssh.regex.NoMatch (P.redactWith s) :=
  h.replaced (replaced_redactWith P s)
    (fun _ _ _ _ _ hM hR hne hm => not_prefix_of_ssh hM hR hne hm)
    fun _ _ _ h hm hz => exists_ssh h hm hz

/-! ### The words that no placeholder could be a part of -/

/-- The two placeholders that are made of such characters. -/
theorem replacement_placeholder (hP : P = .apiKey ∨ P = .email) (M : Regex.Match) :
    ∃ S, P.replacement M = '[' :: (S ++ [']']) ∧ ∀ c ∈ S, isPlaceholderChar c = true := by
  rcases hP with rfl | rfl
  · exact ⟨"API_KEY_REDACTED".toList, rfl, List.all_eq_true.1 (by decide)⟩
  · exact ⟨"EMAIL_REDACTED".toList, rfl, List.all_eq_true.1 (by decide)⟩

/-- Such a word does not begin in a text that ends with a bracket. -/
theorem Foreign.not_begins {S : List Char} (hm : Foreign m) (hS : ∀ c ∈ S, isPlaceholderChar c = true) :
    ¬ m <+: S ++ ']' :: t := by
  intro h
  obtain ⟨c, hc, hforeign⟩ := hm.foreign
  have hall := hS c ((prefix_of_notMem h hm.noClose).subset hc)
  rw [hforeign] at hall
  cases hall

theorem Foreign.not_begins_of_suffix {S R : List Char} (hm : Foreign m)
    (hS : ∀ c ∈ S, isPlaceholderChar c = true) (hR : R <:+ S ++ [']']) (hne : R ≠ []) :
    ¬ m <+: R ++ t := by
  rcases List.suffix_concat_iff.1 hR with rfl | ⟨R, rfl, hRS⟩
  · exact absurd rfl hne
  · rw [List.append_assoc, List.singleton_append]
    exact hm.not_begins fun c hc => hS c (hRS.subset hc)

theorem not_prefix_of_foreign {R : List Char} (hP : P = .apiKey ∨ P = .email)
    (hR : R <:+ P.replacement M) (hne : R ≠ []) (hm : Foreign m) : ¬ m <+: R ++ t := by
  obtain ⟨S, hS, hall⟩ := replacement_placeholder hP M
  rw [hS, ← List.cons_append] at hR
  refine hm.not_begins_of_suffix (fun c hc => ?_) hR hne
  rcases List.mem_cons.1 hc with rfl | hc
  · decide
  · exact hall c hc

/-- One of them in the result was there before. -/
theorem prefix_of_replaced (hP : P = .apiKey ∨ P = .email)
    (h : Regex.Replaced P.regex P.replacement z z') (hm : Foreign m) (hz : m <+: z') : m <+: z := by
  obtain ⟨t, rfl⟩ := hz
  obtain ⟨y, rfl, -⟩ := h.keeps (fun _ _ hM => replacement_opens hM) fun c hc hopen => by
    rcases hP with rfl | rfl
    · exact hm.noOpen (List.mem_singleton.1 hopen ▸ hc)
    · exact hm.noOpen (List.mem_singleton.1 hopen ▸ hc)
  exact List.prefix_append m y

/-- **The last two patterns** are gone, -/
theorem noMatch_last (hP : P = .apiKey ∨ P = .email) (s : List Char) :
    P.regex.NoMatch (P.redactWith s) := by
  have hforeign : ∀ {m}, P.regex.Accepts m → Foreign m := fun hm =>
    foreign_of_accepts (by rcases hP with rfl | rfl <;> decide)
      (by rcases hP with rfl | rfl <;> decide) hm
  refine Regex.noMatch_of_replaced (not_accepts_nil P) (replaced_redactWith P s)
    (fun _ _ _ _ _ _ hR hne hm => not_prefix_of_foreign hP hR hne (hforeign hm))
    (fun _ _ m h hm hz => ⟨m, hm, prefix_of_replaced hP h (hforeign hm) hz⟩) fun _ _ hM hnil => ?_
  obtain ⟨c, t, hc, -⟩ := replacement_opens hM
  rw [hc] at hnil
  cases hnil

/-- and leave the others away. -/
theorem noMatch_redactWith (hP : P = .apiKey ∨ P = .email) (hssh : Q ≠ .ssh) (hurl : Q ≠ .urlToken)
    (h : Q.regex.NoMatch s) : Q.regex.NoMatch (P.redactWith s) :=
  h.replaced (replaced_redactWith P s)
    (fun _ _ _ _ _ _ hR hne hm => not_prefix_of_foreign hP hR hne (foreign_of_accepts hssh hurl hm))
    fun _ _ m h hm hz => ⟨m, hm, prefix_of_replaced hP h (foreign_of_accepts hssh hurl hm) hz⟩

/-! ### Bearer tokens -/

/-- A match of this pattern does not begin in what is put in for it. -/
theorem not_prefix_of_bearer {R : List Char} (hR : R <:+ "Bearer [REDACTED]".toList) (hne : R ≠ [])
    (hm : bearer.regex.Accepts m) : ¬ m <+: R ++ t := by
  have hforeign := foreign_of_accepts (by decide) (by decide) hm
  have hplaceholder : ∀ c ∈ "[REDACTED".toList, isPlaceholderChar c = true :=
    List.all_eq_true.1 (by decide)
  have hend : "[REDACTED]".toList <:+ "Bearer [REDACTED]".toList := ⟨"Bearer ".toList, rfl⟩
  rcases List.suffix_or_suffix_of_suffix hR hend with hinside | ⟨S, rfl⟩
  · exact hforeign.not_begins_of_suffix hplaceholder hinside hne
  · -- the word, the space and a character of the token are more than what is in front of the bracket
    intro hstarts
    obtain ⟨x, w, d, hx, ⟨hw, -⟩, ⟨hd, -⟩, rfl⟩ := accepts_bearer.1 hm
    rw [List.append_assoc] at hstarts
    have hlength := (prefix_of_notMem hstarts hforeign.noOpen).length_le
    have hx := hx.length_eq
    have hS := hR.length_le
    simp only [List.length_append] at hlength hS
    have hw := List.length_pos_iff.2 hw
    have hd := List.length_pos_iff.2 hd
    simp at hx hS
    omega

theorem exists_bearer (h : Regex.Replaced bearer.regex bearer.replacement z z')
    (hm : bearer.regex.Accepts m) (hz : m <+: z') : ∃ m₀, bearer.regex.Accepts m₀ ∧ m₀ <+: z := by
  obtain ⟨x, w, d, hx, hw, hd, rfl⟩ := accepts_bearer.1 hm
  obtain ⟨c, x₁, hc, hx₁, rfl⟩ := List.forall₂_cons_left_iff.1 hx
  obtain ⟨e, d, rfl⟩ := List.exists_cons_of_ne_nil hd.1
  cases h with
  | nil => cases List.prefix_nil.1 hz
  | subst hM hrest =>
    obtain ⟨hs, haccepts⟩ := Regex.of_matchAt hM
    exact ⟨_, haccepts, _, hs.symm⟩
  | @keep c' s s' hnone hrest =>
    obtain ⟨t, ht⟩ := hz
    rw [List.cons_append, List.cons_append,
      show x₁ ++ (w ++ e :: d) ++ t = x₁ ++ w ++ e :: (d ++ t) by simp] at ht
    obtain ⟨rfl, rfl⟩ := List.cons_eq_cons.1 ht
    obtain ⟨y, rfl, hy⟩ := hrest.keeps (fun _ _ hM => replacement_opens hM) fun c hc hopen => by
      obtain rfl := List.mem_singleton.1 hopen
      rcases List.mem_append.1 hc with hc | hc
      · have hfold : foldCase 'B' ∈ "earer".toList := foldCase_mem_of_word hx₁ _ hc
        exact absurd hfold (by decide)
      · exact absurd (hw.2 _ hc) (by decide)
    obtain ⟨e₀, y, rfl, he₀⟩ : ∃ e₀ y₀, y = e₀ :: y₀ ∧ isBearerChar e₀ = true := by
      generalize hs' : e :: (d ++ t) = s' at hy
      cases hy with
      | nil => cases hs'
      | keep _ _ =>
        obtain ⟨rfl, -⟩ := List.cons_eq_cons.1 hs'
        exact ⟨e, _, rfl, hd.2 e List.mem_cons_self⟩
      | subst hM _ =>
        obtain ⟨hs, haccepts⟩ := Regex.of_matchAt hM
        obtain ⟨x₀, w₀, d₀, hx₀, -, -, htext⟩ := accepts_bearer.1 haccepts
        obtain ⟨b, x₀, hb, -, rfl⟩ := List.forall₂_cons_left_iff.1 hx₀
        refine ⟨b, _, by rw [hs, htext]; rfl, ?_⟩
        rw [isBearerChar, show foldCase b = 'b' from of_decide_eq_true hb]
        rfl
    refine ⟨c :: x₁ ++ (w ++ [e₀]), accepts_bearer.2 ⟨c :: x₁, w, [e₀], hx, hw,
      ⟨List.cons_ne_nil _ _, by simpa using he₀⟩, rfl⟩, y, by simp⟩

theorem noMatch_bearer (s : List Char) : bearer.regex.NoMatch (bearer.redactWith s) :=
  Regex.noMatch_of_replaced (not_accepts_nil bearer) (replaced_redactWith bearer s)
    (fun _ _ _ _ _ _ hR hne hm => not_prefix_of_bearer hR hne hm)
    (fun _ _ _ h hm hz => exists_bearer h hm hz) fun _ _ _ => List.cons_ne_nil 'B' _

/-! ### Query parameters -/

/-- Every query parameter with the name of a credential has the placeholder for its value. -/
def ParamsRedacted (s : List Char) : Prop :=
  ∀ q name rest, q :: (name ++ '=' :: rest) <:+ s → (q = '?' ∨ q = '&') → IsTokenName name →
    ∃ t, rest = "[REDACTED]".toList ++ t ∧ ∀ c ∈ t.head?, isValueChar c = false

/-- What begins a value does so before the replacement. -/
theorem head?_of_replaced_urlToken (h : Regex.Replaced urlToken.regex urlToken.replacement s s') :
    s'.head? = s.head? := by
  cases h with
  | nil => rfl
  | keep _ _ => rfl
  | subst hM _ =>
    obtain ⟨q, name, v, -, -, -, -, htext, hs, hreplacement⟩ := of_matchAt_urlToken hM
    rw [hs, htext, hreplacement]
    rfl

theorem eq_of_append_sign {name name' u u' : List Char} (hname : IsTokenName name)
    (hname' : IsTokenName name') (h : name ++ '=' :: u = name' ++ '=' :: u') :
    name = name' ∧ u = u' := by
  have hsign : ∀ {name : List Char}, IsTokenName name → '=' ∉ name := fun hname hc =>
    absurd (hname.mem _ hc) (by decide)
  have hstarts : name <+: name' := prefix_of_notMem ⟨_, h⟩ (hsign hname)
  have hstarts' : name' <+: name := prefix_of_notMem ⟨_, h.symm⟩ (hsign hname')
  obtain rfl := hstarts.eq_of_length (hstarts.length_le.antisymm hstarts'.length_le)
  exact ⟨rfl, (List.cons_eq_cons.1 (List.append_cancel_left h)).2⟩

/-- **The second pattern**: the parameters have the placeholder. -/
theorem paramsRedacted_redactWith (s : List Char) : ParamsRedacted (urlToken.redactWith s) := by
  intro q name rest hz hq hname
  have hnotSign : ∀ c ∈ name ++ ['='], c ∉ urlToken.openings := by
    intro c hc hopen
    rcases List.mem_append.1 hc with hc | hc
    · have hletter := hname.mem c hc
      rcases List.mem_pair.1 hopen with rfl | rfl <;> exact absurd hletter (by decide)
    · rw [List.mem_singleton.1 hc] at hopen
      exact absurd hopen (by decide)
  rcases (replaced_redactWith urlToken s).suffix hz with ⟨z, -, h⟩ | ⟨z, M, c, R, t, hM, hR, hne, hRt⟩
  · generalize hz' : q :: (name ++ '=' :: rest) = z' at h
    cases h with
    | nil => cases hz'
    | @keep c s s' hnone hrest =>
      -- a parameter that is kept would have matched
      obtain ⟨rfl, rfl⟩ := List.cons_eq_cons.1 hz'
      rw [List.append_cons] at hrest
      obtain ⟨y, rfl, -⟩ := hrest.keeps (fun _ _ hM => replacement_opens hM) hnotSign
      refine absurd ?_ (Regex.matchAt_eq_none_iff.1 hnone (q :: (name ++ ['='])) ⟨y, rfl⟩)
      exact accepts_urlToken.2 ⟨q, name, [], hq, hname, by simp, rfl⟩
    | @subst s rest' M hM hrest =>
      obtain ⟨q', name', v, -, hname', -, hend, -, -, hreplacement⟩ := of_matchAt_urlToken hM
      rw [hreplacement, List.cons_append, List.append_assoc] at hz'
      obtain ⟨-, hvalue⟩ := eq_of_append_sign hname hname' (List.cons_eq_cons.1 hz').2
      exact ⟨rest', hvalue, by rwa [head?_of_replaced_urlToken hrest]⟩
  · -- what is put in has no further sign
    obtain ⟨q', name', v, -, hname', -, -, -, -, hreplacement⟩ := of_matchAt_urlToken hM
    obtain ⟨d, R, rfl⟩ := List.exists_cons_of_ne_nil hne
    obtain ⟨rfl, -⟩ := List.cons_eq_cons.1 hRt
    rw [hreplacement] at hR
    have hmem : q ∈ name' ++ valuePlaceholder := by
      rcases List.suffix_cons_iff.1 hR with hR | hR
      · rw [← (List.cons_eq_cons.1 hR).2]
        exact List.mem_cons_self
      · exact hR.subset (by simp)
    rcases List.mem_append.1 hmem with hmem | hmem
    · have hletter := hname'.mem q hmem
      rcases hq with rfl | rfl <;> exact absurd hletter (by decide)
    · rcases hq with rfl | rfl <;> exact absurd hmem (by decide)

/-- A value that is the placeholder is kept by the patterns of such words. -/
theorem keeps_value {V u : List Char} (hP : ∀ {m}, P.regex.Accepts m → Foreign m)
    (hV : V <:+ "[REDACTED".toList ++ [']']) (h : Regex.Replaced P.regex P.replacement (V ++ u) s') :
    ∃ u', s' = V ++ u' ∧ Regex.Replaced P.regex P.replacement u u' := by
  induction V generalizing s' with
  | nil => exact ⟨s', rfl, h⟩
  | cons c V ih =>
    generalize hs : c :: V ++ u = s at h
    cases h with
    | nil => cases hs
    | keep hnone hrest =>
      obtain ⟨rfl, rfl⟩ := List.cons_eq_cons.1 hs
      obtain ⟨u', rfl, hu⟩ := ih ((List.suffix_cons c V).trans hV) hrest
      exact ⟨u', rfl, hu⟩
    | subst hM hrest =>
      obtain ⟨htext, haccepts⟩ := Regex.of_matchAt hM
      have hnone := (hP haccepts).not_begins_of_suffix (t := u) (List.all_eq_true.1 (by decide)) hV
        (List.cons_ne_nil c V)
      exact absurd ⟨_, htext.symm.trans hs.symm⟩ hnone

/-- The end of a value stays one. -/
theorem end_of_replaced (hP : P ≠ .urlToken) (h : Regex.Replaced P.regex P.replacement s s')
    (hs : ∀ c ∈ s.head?, isValueChar c = false) : ∀ c ∈ s'.head?, isValueChar c = false := by
  cases h with
  | nil => simp
  | keep _ _ => exact hs
  | subst hM _ =>
    obtain ⟨htext, haccepts⟩ := Regex.of_matchAt hM
    obtain ⟨c, t, hc, hspace, -, hsign⟩ := head_of_accepts haccepts
    rw [htext, hc] at hs
    have hvalue := hs c rfl
    simp [isValueChar, hspace, hsign hP] at hvalue

/-- **The later patterns** leave the placeholders alone. -/
theorem ParamsRedacted.redactWith (hP : P = .bearer ∨ P = .apiKey ∨ P = .email)
    (hs : ParamsRedacted s) : ParamsRedacted (P.redactWith s) := by
  have hurl : P ≠ .urlToken := by rcases hP with rfl | rfl | rfl <;> decide
  have hforeign : ∀ {m}, P.regex.Accepts m → Foreign m := fun hm =>
    foreign_of_accepts (by rcases hP with rfl | rfl | rfl <;> decide) hurl hm
  have hopenings : ∀ c ∈ P.openings, c = 'B' ∨ c = '[' := by
    rcases hP with rfl | rfl | rfl <;> simp [openings]
  intro q name rest hz hq hname
  rcases (replaced_redactWith P s).suffix hz with ⟨z, hzs, h⟩ | ⟨z, M, c, R, t, hM, hR, hne, hRt⟩
  · rw [List.append_cons, ← List.cons_append] at h
    obtain ⟨y, rfl, hy⟩ := h.keeps (fun _ _ hM => replacement_opens hM) fun c hc hopen => by
      have hc' : c = q ∨ foldCase c ∈ "acdefhiknoprstuwy_".toList ∨ c = '=' := by
        rcases List.mem_cons.1 hc with rfl | hc
        · exact Or.inl rfl
        · exact Or.inr ((List.mem_append.1 hc).imp (hname.mem c) List.mem_singleton.1)
      rcases hopenings c hopen with rfl | rfl <;> rcases hc' with rfl | hletter | heq
      · exact absurd hq (by decide)
      · exact absurd hletter (by decide)
      · exact absurd heq (by decide)
      · exact absurd hq (by decide)
      · exact absurd hletter (by decide)
      · exact absurd heq (by decide)
    rw [List.cons_append, ← List.append_cons] at hzs
    obtain ⟨u, rfl, hu⟩ := hs q name y hzs hq hname
    obtain ⟨u', rfl, hu'⟩ := keeps_value hforeign List.suffix_rfl hy
    exact ⟨u', rfl, end_of_replaced hurl hu' hu⟩
  · have hall : (P.replacement M).all (fun c => c ≠ '?' && c ≠ '&') = true := by
      rcases hP with rfl | rfl | rfl <;> rfl
    obtain ⟨d, R, rfl⟩ := List.exists_cons_of_ne_nil hne
    obtain ⟨rfl, -⟩ := List.cons_eq_cons.1 hRt
    have hsign := List.all_eq_true.1 hall q (hR.subset (by simp))
    rcases hq with rfl | rfl <;> exact absurd hsign (by decide)

end CredentialPattern

end Spectral
