import Spectral.Brain.Keys
import Spectral.Brain.Placeholders
import Spectral.Lib.Phrases

/-!
# The redaction of activity

`DefaultRedactionPolicy`: the patterns are replaced one after another over the same text.

* `DefaultRedactionPolicy.redactString`, `redact` — the policy.
* `CredentialPattern.Clean` — no match of a pattern, but for a query parameter with the placeholder;
  `Gone` implies it.
* `gone_redactString` — what redaction leaves of the patterns that are applied.
* `gone_joined` — no match reaches over the sign between two texts of a content.
* `redact_leaves_no_credential` — the fields of a redacted episode, its content, and redacting twice.
-/

namespace Spectral

open Spectral.Lib

namespace CredentialPattern

variable {P : CredentialPattern} {s t m x y : List Char} {M : Regex.Match}

/-! ## Clean texts -/

/-- No match of the pattern, but for a query parameter that has the placeholder for its value. -/
def Clean (P : CredentialPattern) (text : List Char) : Prop :=
  ∀ z M, z <:+ text → P.regex.matchAt z = some M →
    P = .urlToken ∧ M.text = M.group 1 ++ M.group 2 ++ valuePlaceholder

theorem clean_of_noMatch (h : P.regex.NoMatch s) : P.Clean s := by
  intro z M hz hM
  rw [h.matchAt hz] at hM
  cases hM

/-- The pattern is gone from the text: a stronger form of being clean. -/
def Gone : CredentialPattern → List Char → Prop
  | urlToken, s => ParamsRedacted s
  | P, s => P.regex.NoMatch s

theorem gone_iff_noMatch (hP : P ≠ .urlToken) : P.Gone s ↔ P.regex.NoMatch s := by
  cases P with
  | urlToken => exact absurd rfl hP
  | ssh => exact Iff.rfl
  | bearer => exact Iff.rfl
  | apiKey => exact Iff.rfl
  | email => exact Iff.rfl

theorem ParamsRedacted.clean (h : ParamsRedacted s) : urlToken.Clean s := by
  intro z M hz hM
  refine ⟨rfl, ?_⟩
  obtain ⟨q, name, v, hq, hname, hv, hrest, htext, rfl, hreplacement⟩ := of_matchAt_urlToken hM
  have hz' : q :: (name ++ '=' :: (v ++ M.rest)) <:+ s := by
    rw [htext] at hz
    simpa using hz
  obtain ⟨t, hvalue, ht⟩ := h q name _ hz' hq hname
  have hplaceholder : v = "[REDACTED]".toList := by
    have hstop : ∀ {u : List Char}, (∀ c ∈ u.head?, isValueChar c = false) →
        u.head?.any isValueChar = false := by
      intro u hu
      cases u with
      | nil => rfl
      | cons c u => exact hu c rfl
    rw [← takeWhile_append_stop hv (hstop hrest), hvalue]
    exact takeWhile_append_stop (List.all_eq_true.1 (by decide)) (hstop ht)
  have hM : M.text = urlToken.replacement M := by
    rw [htext, hreplacement, hplaceholder]
    rfl
  exact hM

theorem Gone.clean (h : P.Gone s) : P.Clean s := by
  by_cases hP : P = .urlToken
  · subst hP
    have hparams : ParamsRedacted s := h
    exact hparams.clean
  · exact clean_of_noMatch ((gone_iff_noMatch hP).1 h)

/-- **Nothing is left to replace** in a clean text. -/
theorem Clean.redactWith (h : P.Clean s) : P.redactWith s = s :=
  (replaced_redactWith P s).eq_self fun z M hz hM => by
    obtain ⟨rfl, htext⟩ := h z M hz hM
    exact htext.symm

/-! ### Joined texts -/

/-- How a word with white space in it goes over a sign: not at all. -/
theorem prefix_of_words {w r : List Char} {e : Char} (hx : ∀ c ∈ x, isNonSpace c = true)
    (hw : ∀ c ∈ w, isWhiteSpace c = true) (hr : ∀ c ∈ e :: r, isNonSpace c = true)
    (he : e ≠ '|' ∨ r ≠ []) (h : x ++ (w ++ e :: r) <+: s ++ ' ' :: '|' :: ' ' :: t) :
    x ++ (w ++ e :: r) <+: s := by
  have hspace : ∀ {c}, isNonSpace c = true → c ≠ ' ' := by
    rintro _ hc rfl
    exact absurd hc (by decide)
  rcases List.prefix_or_prefix_of_prefix h (List.prefix_append s _) with hs | ⟨u, hu⟩
  · exact hs
  rw [← hu, List.prefix_append_right_inj] at h
  cases u with
  | nil =>
    rw [List.append_nil] at hu
    rw [hu]
  | cons c u =>
    -- the space is among the white space of the word, and what follows it is not
    obtain ⟨rfl, hu₁⟩ := List.cons_prefix_cons.1 h
    obtain ⟨w₁, w₂, rfl, rfl⟩ := append_eq_append_cons (fun hc => hspace (hx _ hc) rfl)
      (fun hc => hspace (hr _ hc) rfl) hu.symm
    cases w₂ with
    | nil =>
      obtain ⟨rfl, hr₁⟩ := List.cons_prefix_cons.1 hu₁
      cases r with
      | nil => exact absurd rfl (he.resolve_right fun hne => hne rfl)
      | cons d r =>
        obtain ⟨rfl, -⟩ := List.cons_prefix_cons.1 hr₁
        exact absurd rfl (hspace (hr _ (by simp)))
    | cons d w₂ =>
      obtain ⟨rfl, -⟩ := List.cons_prefix_cons.1 hu₁
      exact absurd (hw '|' (by simp)) (by decide)

/-- **No match reaches over the sign** between two texts. -/
theorem prefix_of_joined (hm : P.regex.Accepts m) (h : m <+: s ++ ' ' :: '|' :: ' ' :: t) :
    m <+: s := by
  have hplain : (∀ c ∈ m, isNonSpace c = true) → m <+: s := fun hall =>
    prefix_of_notMem h fun hc => absurd (hall _ hc) (by decide)
  cases P with
  | ssh =>
    obtain ⟨x, w, a, b, d, hx, hw, ⟨hane, ha⟩, hb, hd, rfl⟩ := accepts_ssh.1 hm
    obtain ⟨e, a, rfl⟩ := List.exists_cons_of_ne_nil hane
    refine prefix_of_words (r := a ++ ':' :: (b ++ '@' :: d)) (fun c hc => ?_) hw.2 (fun c hc => ?_)
      (Or.inr (by simp)) h
    · exact isNonSpace_of_foldCase (by decide +kernel) (foldCase_mem_of_word hx c hc)
    · rw [← List.cons_append] at hc
      rcases List.mem_append.1 hc with hc | hc
      · exact ha c hc
      rcases List.mem_cons.1 hc with rfl | hc
      · decide
      rcases List.mem_append.1 hc with hc | hc
      · exact hb.2 c hc
      rcases List.mem_cons.1 hc with rfl | hc
      · decide
      · exact hd.2 c hc
  | urlToken => exact hplain (isNonSpace_of_accepts (by decide) (by decide) hm)
  | bearer =>
    obtain ⟨x, w, d, hx, hw, ⟨hdne, hd⟩, rfl⟩ := accepts_bearer.1 hm
    obtain ⟨e, d, rfl⟩ := List.exists_cons_of_ne_nil hdne
    refine prefix_of_words (fun c hc => ?_) hw.2 (fun c hc => ?_) (Or.inl ?_) h
    · exact isNonSpace_of_foldCase (by decide +kernel) (foldCase_mem_of_word hx c hc)
    · exact isNonSpace_of_isBearerChar (hd c hc)
    · rintro rfl
      exact absurd (hd _ List.mem_cons_self) (by decide)
  | apiKey => exact hplain (isNonSpace_of_accepts (by decide) (by decide) hm)
  | email => exact hplain (isNonSpace_of_accepts (by decide) (by decide) hm)

/-- Where a match begins in texts that are joined, and what is behind the text there. -/
theorem exists_suffix_of_joined {texts : List (List Char)} {c : Char} {z : List Char}
    (h : c :: z <:+ texts.flatMap fun text => " | ".toList ++ text) (hspace : c ≠ ' ')
    (hsign : c ≠ '|') :
    ∃ text ∈ texts, ∃ z₀ tail, c :: z₀ <:+ text ∧ z = z₀ ++ tail ∧
      (tail = [] ∨ ∃ u, tail = ' ' :: '|' :: ' ' :: u) := by
  induction texts with
  | nil => cases List.suffix_nil.1 h
  | cons text texts ih =>
    rw [List.flatMap_cons] at h
    generalize hjoined : texts.flatMap (fun text => " | ".toList ++ text) = joined at h ih
    by_cases hlater : c :: z <:+ joined
    · obtain ⟨t, ht, hrest⟩ := ih hlater
      exact ⟨t, List.mem_cons_of_mem text ht, hrest⟩
    have htail : joined = [] ∨ ∃ u, joined = ' ' :: '|' :: ' ' :: u := by
      rw [← hjoined]
      cases texts with
      | nil => exact Or.inl rfl
      | cons t texts => exact Or.inr ⟨_, rfl⟩
    -- it does not begin in the sign
    rcases List.suffix_cons_iff.1 h with h | h
    · exact absurd (List.cons_eq_cons.1 h).1 hspace
    rcases List.suffix_cons_iff.1 h with h | h
    · exact absurd (List.cons_eq_cons.1 h).1 hsign
    rcases List.suffix_cons_iff.1 h with h | h
    · exact absurd (List.cons_eq_cons.1 h).1 hspace
    obtain ⟨z₁, hz₁⟩ :=
      (List.suffix_or_suffix_of_suffix h (List.suffix_append text joined)).resolve_left hlater
    cases z₁ with
    | nil => exact absurd ⟨[], hz₁.symm⟩ hlater
    | cons d z₁ =>
      obtain ⟨rfl, rfl⟩ := List.cons_eq_cons.1 hz₁
      exact ⟨text, List.mem_cons_self, z₁, joined, List.suffix_append_self_iff.1 h, rfl, htail⟩

/-- **Joined texts** are rid of the pattern if each of them is. -/
theorem gone_joined {texts : List (List Char)} (h : ∀ text ∈ texts, P.Gone text) :
    P.Gone (texts.flatMap fun text => " | ".toList ++ text) := by
  by_cases hP : P = .urlToken
  · subst hP
    intro q name rest hz hq hname
    obtain ⟨text, ht, z₀, tail, hz₀, hrest, htail⟩ := exists_suffix_of_joined hz
      (by rcases hq with rfl | rfl <;> decide) (by rcases hq with rfl | rfl <;> decide)
    have hword : urlToken.regex.Accepts (q :: (name ++ ['='])) :=
      accepts_urlToken.2 ⟨q, name, [], hq, hname, by simp, rfl⟩
    have hstarts : q :: (name ++ ['=']) <+: q :: z₀ ++ tail := ⟨rest, by simp [← hrest]⟩
    have hinside : q :: (name ++ ['=']) <+: q :: z₀ := by
      rcases htail with rfl | ⟨u, rfl⟩
      · rwa [List.append_nil] at hstarts
      · exact prefix_of_joined hword hstarts
    obtain ⟨rest₀, hrest₀⟩ := hinside
    obtain ⟨-, rfl⟩ := List.cons_eq_cons.1 hrest₀
    have hparams : ParamsRedacted text := h text ht
    obtain ⟨t, rfl, hend⟩ := hparams q name rest₀ (by simpa using hz₀) hq hname
    refine ⟨t ++ tail, ?_, ?_⟩
    · simpa using hrest
    · cases t with
      | nil =>
        rcases htail with rfl | ⟨u, rfl⟩
        · simp
        · rintro c ⟨⟩
          decide
      | cons c t => exact hend
  · rw [gone_iff_noMatch hP]
    rintro m hm haccepts
    obtain ⟨z, hmz, hz⟩ := List.infix_iff_prefix_suffix.1 hm
    obtain ⟨c, t, rfl, hspace, hsign, -⟩ := head_of_accepts haccepts
    obtain ⟨u, rfl⟩ := hmz
    obtain ⟨text, ht, z₀, tail, hz₀, htu, htail⟩ := exists_suffix_of_joined hz
      (by rintro rfl; exact absurd hspace (by decide)) hsign
    have hstarts : c :: t <+: c :: z₀ ++ tail := ⟨u, congrArg (List.cons c) htu⟩
    have hinside : c :: t <+: c :: z₀ := by
      rcases htail with rfl | ⟨u, rfl⟩
      · rwa [List.append_nil] at hstarts
      · exact prefix_of_joined haccepts hstarts
    exact (gone_iff_noMatch hP).1 (h text ht) _ (hinside.isInfix.trans hz₀.isInfix) haccepts

/-- **Behind a text of any kind**, a match is in that text or is one of a clean text. -/
theorem clean_or_within {head before z : List Char} {texts : List (List Char)}
    (h : ∀ text ∈ texts, P.Gone text) (hM : P.regex.matchAt z = some M)
    (hz : head ++ texts.flatMap (fun text => " | ".toList ++ text) = before ++ z) :
    (P = .urlToken ∧ M.text = M.group 1 ++ M.group 2 ++ valuePlaceholder) ∨
      before ++ M.text <+: head := by
  obtain ⟨hMz, haccepts⟩ := Regex.of_matchAt hM
  rcases List.append_eq_append_iff.1 hz with ⟨a, -, hjoined⟩ | ⟨z₀, rfl, hz₀⟩
  · exact Or.inl ((gone_joined h).clean z M ⟨a, hjoined.symm⟩ hM)
  · refine Or.inr ((List.prefix_append_right_inj before).2 ?_)
    have hstarts : M.text <+: z₀ ++ texts.flatMap fun text => " | ".toList ++ text :=
      hz₀ ▸ ⟨M.rest, hMz.symm⟩
    cases texts with
    | nil => simpa using hstarts
    | cons t texts => exact prefix_of_joined haccepts hstarts

end CredentialPattern

/-! ## The policy -/

open CredentialPattern

/-- `DefaultRedactionPolicy`. -/
structure DefaultRedactionPolicy where
  redactEmails : Bool := false

namespace DefaultRedactionPolicy

variable (policy : DefaultRedactionPolicy)

/-- `redact_string`. -/
def redactString (s : String) : String :=
  let result := s.toList
  let result := ssh.redactWith result
  let result := urlToken.redactWith result
  let result := bearer.redactWith result
  let result := apiKey.redactWith result
  let result := if policy.redactEmails then email.redactWith result else result
  String.ofList result

/-- `redact`. -/
def redact (episode : ActivityEpisode) : Option ActivityEpisode :=
  some { episode with
    windowTitle := episode.windowTitle.map policy.redactString
    url := episode.url.map policy.redactString
    excerpt := episode.excerpt.map policy.redactString }

/-- The patterns that are applied. -/
def patterns : List CredentialPattern :=
  [.ssh, .urlToken, .bearer, .apiKey] ++ if policy.redactEmails then [.email] else []

example : redactString {} "ssh u:p@h https://x/?token=a&key=b" =
    "[SSH_REDACTED] https://x/?token=[REDACTED]&key=[REDACTED]" := by decide +kernel

/-- **A redacted text** is rid of the patterns that are applied. -/
theorem gone_redactString (text : String) :
    ∀ P ∈ policy.patterns, P.Gone (policy.redactString text).toList := by
  -- each pattern is gone after its own replacement, and stays away in the later ones
  have hssh := noMatch_ssh_redactWith .apiKey (noMatch_ssh_redactWith .bearer
    (noMatch_ssh_redactWith .urlToken (noMatch_ssh text.toList)))
  have hparams := ((paramsRedacted_redactWith (ssh.redactWith text.toList)).redactWith
    (P := .bearer) (Or.inl rfl)).redactWith (P := .apiKey) (Or.inr (Or.inl rfl))
  have hbearer := noMatch_redactWith (P := .apiKey) (Or.inl rfl) (by decide) (by decide)
    (noMatch_bearer (urlToken.redactWith (ssh.redactWith text.toList)))
  have hapiKey := noMatch_last (P := .apiKey) (Or.inl rfl)
    (bearer.redactWith (urlToken.redactWith (ssh.redactWith text.toList)))
  unfold patterns redactString
  rw [String.toList_ofList]
  intro P
  cases policy.redactEmails with
  | false =>
    intro hP
    cases P with
    | ssh => exact hssh
    | urlToken => exact hparams
    | bearer => exact hbearer
    | apiKey => exact hapiKey
    | email => simp at hP
  | true =>
    intro _
    have hlast : email = apiKey ∨ email = email := Or.inr rfl
    cases P with
    | ssh => exact noMatch_ssh_redactWith .email hssh
    | urlToken => exact hparams.redactWith (P := .email) (Or.inr (Or.inr rfl))
    | bearer => exact noMatch_redactWith hlast (by decide) (by decide) hbearer
    | apiKey => exact noMatch_redactWith hlast (by decide) (by decide) hapiKey
    | email => exact noMatch_last hlast _

/-- **To redact once more** changes nothing. -/
theorem redactString_redactString (text : String) :
    policy.redactString (policy.redactString text) = policy.redactString text := by
  have hclean := fun P hP => (policy.gone_redactString text P hP).clean.redactWith
  generalize policy.redactString text = t at hclean
  have hfirst : ∀ P ∈ [ssh, urlToken, bearer, apiKey], P.redactWith t.toList = t.toList := fun P hP =>
    hclean P (List.mem_append_left _ hP)
  dsimp only [redactString]
  rw [hfirst ssh (by simp), hfirst urlToken (by simp), hfirst bearer (by simp), hfirst apiKey (by simp)]
  split
  · rename_i hemails
    rw [hclean email (by simp [patterns, hemails]), String.ofList_toList]
  · exact String.ofList_toList

/-- The content of an episode: the application, and its texts behind it. -/
theorem toList_intercalate (text : String) (texts : List String) :
    (" | ".intercalate (text :: texts)).toList =
      text.toList ++ (texts.map String.toList).flatMap fun t => " | ".toList ++ t := by
  induction texts generalizing text with
  | nil => simp
  | cons t texts ih =>
    rw [String.intercalate_cons_cons, String.toList_append, String.toList_append, ih t]
    simp

/-- **Redaction leaves no credential**: no field of a redacted episode has a match of a pattern that is
applied, but for a query parameter with the placeholder; neither has its content outside the name of
the application and its bundle; and to redact once more changes nothing. -/
theorem redact_leaves_no_credential (episode : ActivityEpisode) :
    ∃ redacted, policy.redact episode = some redacted ∧
      (∀ field ∈ [redacted.windowTitle, redacted.url, redacted.excerpt], ∀ text ∈ field,
        ∀ P ∈ policy.patterns, P.Clean text.toList) ∧
      (∀ P ∈ policy.patterns, ∀ before z M, redacted.toContent.toList = before ++ z →
        P.regex.matchAt z = some M →
          (P = .urlToken ∧ M.text = M.group 1 ++ M.group 2 ++ valuePlaceholder) ∨
            before ++ M.text <+: ("[" ++ redacted.appName ++ "] " ++ redacted.bundleId).toList) ∧
      policy.redact redacted = some redacted := by
  have hfields : ∀ field ∈ [episode.windowTitle, episode.url, episode.excerpt].map
      (Option.map policy.redactString), ∀ text ∈ field, ∀ P ∈ policy.patterns, P.Gone text.toList := by
    intro field hfield text htext
    obtain ⟨original, -, rfl⟩ := List.mem_map.1 hfield
    obtain ⟨t, -, rfl⟩ := Option.map_eq_some_iff.1 htext
    exact policy.gone_redactString t
  refine ⟨_, rfl, fun field hfield text htext P hP => (hfields field hfield text htext P hP).clean, ?_,
    ?_⟩
  · intro P hP before z M hz hM
    unfold ActivityEpisode.toContent at hz
    rw [toList_intercalate] at hz
    refine clean_or_within (fun t ht => ?_) hM hz
    obtain ⟨text, htext, rfl⟩ := List.mem_map.1 ht
    obtain ⟨field, hfield, hsome⟩ := List.mem_filterMap.1 (List.mem_of_mem_filter htext)
    exact hfields field hfield text hsome P hP
  · unfold redact
    simp only [Option.map_map, Function.comp_def, redactString_redactString]

end DefaultRedactionPolicy

end Spectral
