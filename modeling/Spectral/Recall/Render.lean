import Mathlib.Data.List.MinMax
import Mathlib.Order.Bounds.Basic
import Spectral.Lib.BTreeMap
import Spectral.Lib.Calendar
import Spectral.Lib.Numerals
import Spectral.Lib.Orderless
import Spectral.Lib.Ranking
import Spectral.Lib.Stamp
import Spectral.Lib.Utf8
import Spectral.Recall.Supersession

/-!
# Rendering

The hits of a recall become the text that an actor reads: the turns of each session in the order of
their keys, under a header with the date of the session.

* `sessions` — the sessions as `session_grouped` orders them; `sessionGrouped` — the lines.
* `Conversation` — what the sessions are to be: nothing is lost, the oldest session comes first, and the
  turns are in the order of the conversation.
* `Leads` — the hit a session is dated by, which is the first by key.
* `sessionGrouped_conversation_iff` — the sessions are as they are to be exactly if the leads have the
  dates of their sessions and the keys of the turns are in the order of their numbers.
-/

namespace Spectral.Render

open Spectral.Lib

/-- `CAP_MIN_LEN`. -/
def capMinLen : ℕ := 120

/-- `FILLER_MIN_LEN`. -/
def fillerMinLen : ℕ := 40

/-- What rendering reads of a `MemoryHit`. -/
structure Hit extends Supersession.Hit where
  description : Option String
  deriving DecidableEq

/-- `SessionOrder`. -/
inductive SessionOrder
  | chronological
  | byRank
  deriving DecidableEq

/-- `RenderOptions`; the fraction of `cap_frac` is given by what it makes of a length. -/
structure RenderOptions where
  capFrac : Option (ℕ → ℕ) := none
  questionDate : Option String := none
  relativeOffsets : Bool := false
  showDescriptions : Bool := false
  sessionOrder : SessionOrder := .chronological

/-- `offset_anchor`. -/
def RenderOptions.offsetAnchor (opts : RenderOptions) : Option String :=
  opts.questionDate.filter fun _ => opts.relativeOffsets

/-! ## Dates -/

/-- `extract_ymd`. -/
def extractYmd (s : String) : Option (ℤ × ℕ × ℕ) :=
  if s.toList.length < 10 then none
  else do
    let y ← (getSlice s 0 4).bind parseSigned
    let m ← (getSlice s 5 7).bind parseUnsigned
    let d ← (getSlice s 8 10).bind parseUnsigned
    if s.toList[4]? ∈ [some '-', some '/'] ∧ s.toList[7]? ∈ [some '-', some '/'] then some (y, m, d)
    else none

/-- The text for a number of days. -/
def offsetText (days : ℤ) : String :=
  if days ≤ -1 then "in the future"
  else if days = 0 then "same day"
  else if days = 1 then "1 day ago"
  else if days ≤ 13 then toString days ++ " days ago"
  else if days ≤ 59 then toString (days / 7) ++ " weeks ago"
  else if days ≤ 729 then toString (days / 30) ++ " months ago"
  else
    let years := days / 365
    let months := days % 365 / 30
    if months = 0 then toString years ++ " years ago"
    else toString years ++ " years, " ++ toString months ++ " months ago"

/-- `relative_offset`. -/
def relativeOffset (dateStr questionDate : String) : Option String := do
  let (sy, sm, sd) ← extractYmd dateStr
  let (qy, qm, qd) ← extractYmd questionDate
  let session ← NaiveDate.ofYmd? sy sm sd
  let question ← NaiveDate.ofYmd? qy qm qd
  some (offsetText (question.dayNumber - session.dayNumber))

/-- `date_tag`. -/
def dateTag (date : String) (anchor : Option String) : String :=
  match anchor.bind (relativeOffset date) with
  | some offset => date ++ ", " ++ offset
  | none => date

/-! ## Lines -/

/-- `cap_content`; the slice is at a boundary (`sliceTo_floorBoundary`). -/
def capContent (content : String) (frac : ℕ → ℕ) : String :=
  if content.utf8ByteSize ≤ capMinLen then content
  else
    let cap := max (frac content.utf8ByteSize) capMinLen
    if content.utf8ByteSize ≤ cap then content
    else
      let stop := floorBoundary content (min (max cap 1) content.utf8ByteSize)
      (sliceTo content stop).getD "" ++ "…"

/-- What `role_of` returns. -/
inductive Role
  | user
  | asst
  | turn
  deriving DecidableEq

/-- The text of a role. -/
def Role.text : Role → String
  | user => "user"
  | asst => "asst"
  | turn => "turn"

/-- `role_of`. -/
def roleOf (hit : Hit) : Role :=
  if ":user".toList <:+: hit.key.toList then .user
  else if ":assistant".toList <:+: hit.key.toList then .asst
  else .turn

/-- A turn that is dropped. -/
def isFiller (hit : Hit) : Bool :=
  decide (roleOf hit = .asst) && decide (hit.content.utf8ByteSize < fillerMinLen)

section

variable (u : CharTables)

/-- `with_description`. -/
def withDescription (line : String) (hit : Hit) (show' : Bool) : String :=
  match show', hit.description with
  | true, some desc =>
    if trimMatches u.isWhitespace desc.toList ≠ [] then
      line ++ " [librarian: " ++ String.ofList (trimMatches u.isWhitespace desc.toList) ++ "]"
    else line
  | _, _ => line

/-- The line of a hit. -/
def hitLine (opts : RenderOptions) (hit : Hit) : String :=
  let line :=
    match roleOf hit, opts.capFrac with
    | .asst, some f => "[" ++ (roleOf hit).text ++ "] " ++ capContent hit.content f
    | _, _ => "[" ++ (roleOf hit).text ++ "] " ++ hit.content
  withDescription u line hit opts.showDescriptions

end

/-! ## Sessions -/

/-- The session of a hit: its episode, or what its key begins with. -/
def epKey (hit : Hit) : String := Supersession.sessionOf hit.toHit

/-- The hits of each session, in the order of their keys. -/
def byEpisode (hits : List Hit) : List (String × List Hit) :=
  (BTreeMap.groups epKey hits).entries.map fun e => (e.1, e.2.insertionSort fun a b => a.key ≤ b.key)

/-- The best rank of each session. -/
def bestRank (hits : List Hit) : BTreeMap String ℕ :=
  hits.zipIdx.foldl (fun m p => m.entry (epKey p.1) p.2 (min · p.2)) BTreeMap.empty

/-- The date of a hit as text; nothing if it has none. -/
def dateText (h : Hit) : String := h.createdAt.getD ""

/-- What sessions are ordered by: the date of the first hit. -/
def firstDate (s : String × List Hit) : String := (s.2.head?.map dateText).getD ""

/-- The sessions in their order. -/
def sessions (opts : RenderOptions) (hits : List Hit) : List (String × List Hit) :=
  match opts.sessionOrder with
  | .chronological => (byEpisode hits).insertionSort fun a b => firstDate a ≤ firstDate b
  | .byRank =>
    let rank (s : String × List Hit) := ((bestRank hits).get? s.1).getD (2 ^ 64 - 1)
    (byEpisode hits).insertionSort fun a b => rank a < rank b ∨ rank a = rank b ∧ a.1 ≤ b.1

/-- A date without the time of day. -/
def dayPart (date : String) : String := String.ofList (date.toList.takeWhile fun c => c ≠ ' ')

/-- The date of a hit, as headers show it. -/
def shownDate (h : Hit) : String := (h.createdAt.map dayPart).getD "unknown-date"

/-- The date a header shows: that of the first hit. -/
def headerDate (s : String × List Hit) : String := (s.2.head?.map shownDate).getD "unknown-date"

/-- The lines of a session. -/
def sessionLines (u : CharTables) (opts : RenderOptions) (s : String × List Hit) : List String :=
  ("--- Session " ++ s.1 ++ " (" ++ dateTag (headerDate s) opts.offsetAnchor ++ ") ---") ::
    (s.2.filter fun hit => !isFiller hit).map (hitLine u opts)

/-- `session_grouped`. -/
def sessionGrouped (u : CharTables) (opts : RenderOptions) (hits : List Hit) : List String :=
  if hits = [] then [] else (sessions opts hits).flatMap (sessionLines u opts)

/-! ## What the sessions are to be -/

/-- The earliest date of the hits of a session. -/
def Earliest (hits : List Hit) (session date : String) : Prop :=
  IsLeast { d | ∃ h ∈ hits, epKey h = session ∧ h.createdAt = some d } date

/-- The hit is turn `n` of its session: its key is `session:turn:n:role`. -/
def IsTurn (h : Hit) (n : ℕ) : Prop :=
  ∃ digits role : List Char, (digits ≠ [] ∧ digits.all Char.isDigit = true) ∧
    h.key.toList = (epKey h).toList ++ ":turn:".toList ++ (digits ++ ':' :: role) ∧ numeral digits = n

/-- The sessions of some hits, complete and chronological. -/
structure Conversation (hits : List Hit) (sessions : List (String × List Hit)) : Prop where
  /-- What is no filler is rendered once. -/
  complete : (sessions.flatMap fun s => s.2.filter fun h => !isFiller h).Perm
    (hits.filter fun h => !isFiller h)
  own : ∀ s ∈ sessions, ∀ h ∈ s.2, epKey h = s.1
  once : (sessions.map Prod.fst).Nodup
  dated : ∀ s ∈ sessions, ∀ d, Earliest hits s.1 d → headerDate s = dayPart d
  ordered : sessions.Pairwise fun s s' => ∀ d d', Earliest hits s.1 d → Earliest hits s'.1 d' → d ≤ d'
  turns : ∀ s ∈ sessions, (s.2.filter fun h => !isFiller h).Pairwise fun h h' =>
    ∀ n n', IsTurn h n → IsTurn h' n' → n ≤ n'

/-- The hit is the first by key of its session. -/
def Leads (hits : List Hit) (h : Hit) : Prop :=
  (withKey epKey hits (epKey h)).argmin (·.key) = some h

/-- The leads have the dates of their sessions, and the keys of turns are in the order of their
numbers. -/
structure InStep (hits : List Hit) : Prop where
  dated : ∀ h, Leads hits h → ∀ d, Earliest hits (epKey h) d → shownDate h = dayPart d
  ordered : ∀ h h', Leads hits h → Leads hits h' →
    toLex (dateText h, epKey h) < toLex (dateText h', epKey h') →
      ∀ d d', Earliest hits (epKey h) d → Earliest hits (epKey h') d' → d ≤ d'
  turns : ∀ h ∈ hits, ∀ h' ∈ hits, isFiller h = false → isFiller h' = false → epKey h = epKey h' →
    ∀ n n', IsTurn h n → IsTurn h' n' → n < n' → h.key < h'.key

variable {hits : List Hit} {opts : RenderOptions} {s s' : String × List Hit} {h h' : Hit} {n n' : ℕ}

/-! ## Turns -/

/-- Digits before a colon are what comes before it. -/
theorem digits_inj {ds ds' role role' : List Char} (hds : ds.all Char.isDigit = true)
    (hds' : ds'.all Char.isDigit = true) (h : ds ++ ':' :: role = ds' ++ ':' :: role') : ds = ds' := by
  have hbefore : ∀ {ds role : List Char}, ds.all Char.isDigit = true →
      (ds ++ ':' :: role).takeWhile Char.isDigit = ds := by
    intro ds role hall
    rw [List.takeWhile_append_of_pos (List.all_eq_true.1 hall), List.takeWhile_cons_of_neg (by decide),
      List.append_nil]
  rw [← hbefore hds, h, hbefore hds']

/-- A key has one number. -/
theorem IsTurn.unique (h₁ : IsTurn h n) (h₂ : IsTurn h' n') (hsession : epKey h = epKey h')
    (hkey : h.key = h'.key) : n = n' := by
  obtain ⟨ds, role, ⟨-, hall⟩, htext, rfl⟩ := h₁
  obtain ⟨ds', role', ⟨-, hall'⟩, htext', rfl⟩ := h₂
  rw [hkey, htext', hsession, List.append_cancel_left_eq] at htext
  rw [digits_inj hall' hall htext]

/-- **Turns numbered with as many digits each** have keys in the order of their numbers. -/
theorem key_lt_of_padded {ds ds' role role' : List Char} (hlen : ds.length = ds'.length)
    (hds : ds.all Char.isDigit = true) (hds' : ds'.all Char.isDigit = true)
    (hkey : h.key.toList = (epKey h).toList ++ ":turn:".toList ++ (ds ++ ':' :: role))
    (hkey' : h'.key.toList = (epKey h').toList ++ ":turn:".toList ++ (ds' ++ ':' :: role'))
    (hsession : epKey h = epKey h') (hlt : numeral ds < numeral ds') : h.key < h'.key := by
  rw [String.lt_iff_toList_lt, hkey, hkey', hsession, append_lt_append_iff rfl]
  refine Or.inr ⟨rfl, ?_⟩
  rw [append_lt_append_iff hlen]
  exact Or.inl ((numeral_lt_iff hlen hds hds').1 hlt)

/-! ## What the sessions are -/

theorem perm_sessions (opts : RenderOptions) (hits : List Hit) :
    (sessions opts hits).Perm (byEpisode hits) := by
  unfold sessions
  split
  · exact List.perm_insertionSort _ _
  · exact List.perm_insertionSort _ _

/-- **The sessions**: those of the hits, each with its hits in the order of their keys. -/
theorem mem_sessions : s ∈ sessions opts hits ↔ s.1 ∈ hits.map epKey ∧
    s.2 = (withKey epKey hits s.1).insertionSort fun a b => a.key ≤ b.key := by
  rw [(perm_sessions opts hits).mem_iff, byEpisode, List.mem_map]
  constructor
  · rintro ⟨e, he, rfl⟩
    obtain ⟨hsession, hgroup⟩ := BTreeMap.mem_entries_groups.1 he
    exact ⟨hsession, by rw [hgroup]⟩
  · rintro ⟨hsession, hgroup⟩
    exact ⟨(s.1, withKey epKey hits s.1), BTreeMap.mem_entries_groups.2 ⟨hsession, rfl⟩,
      Prod.ext rfl hgroup.symm⟩

theorem map_fst_byEpisode (hits : List Hit) :
    (byEpisode hits).map Prod.fst = (BTreeMap.groups epKey hits).entries.map Prod.fst := by
  rw [byEpisode, List.map_map]
  rfl

theorem mem_session (hs : s ∈ sessions opts hits) : h ∈ s.2 ↔ h ∈ hits ∧ epKey h = s.1 := by
  rw [(mem_sessions.1 hs).2, List.mem_insertionSort, mem_withKey]

/-- Nothing is lost, and nothing is there twice. -/
theorem perm_shown (opts : RenderOptions) (hits : List Hit) :
    ((sessions opts hits).flatMap fun s => s.2.filter fun h => !isFiller h).Perm
      (hits.filter fun h => !isFiller h) := by
  have hsorted : ((byEpisode hits).flatMap Prod.snd).Perm
      ((BTreeMap.groups epKey hits).entries.flatMap Prod.snd) := by
    rw [byEpisode, List.flatMap_map]
    exact List.Perm.flatMap_left _ fun e _ => List.perm_insertionSort _ _
  have hall := ((perm_sessions opts hits).flatMap_right Prod.snd).trans
    (hsorted.trans (BTreeMap.perm_flatMap_entries_groups epKey hits))
  rw [← List.filter_flatMap]
  exact hall.filter _

/-- The first hit of a session leads it. -/
theorem exists_leads (hs : s ∈ sessions opts hits) :
    ∃ h, s.2.head? = some h ∧ Leads hits h ∧ epKey h = s.1 := by
  obtain ⟨hsession, hgroup⟩ := mem_sessions.1 hs
  obtain ⟨h₀, hh₀, hkey⟩ := List.mem_map.1 hsession
  cases hargmin : (withKey epKey hits s.1).argmin (·.key) with
  | none =>
    have hnone : withKey epKey hits s.1 = [] := List.argmin_eq_none.1 hargmin
    exact absurd (mem_withKey.2 ⟨hh₀, hkey⟩) (by simp [hnone])
  | some h =>
    have hmem := mem_withKey.1 (List.argmin_mem (Option.mem_def.2 hargmin))
    refine ⟨h, ?_, ?_, hmem.2⟩
    · rw [hgroup, head?_insertionSort (fun h : Hit => h.key), hargmin]
    · rw [Leads, hmem.2, hargmin]

/-- What leads a session is its first hit. -/
theorem Leads.exists_session (opts : RenderOptions) (hlead : Leads hits h) :
    ∃ s ∈ sessions opts hits, s.2.head? = some h ∧ s.1 = epKey h := by
  have hmem := mem_withKey.1 (List.argmin_mem (Option.mem_def.2 hlead))
  refine ⟨(epKey h, (withKey epKey hits (epKey h)).insertionSort fun a b => a.key ≤ b.key),
    mem_sessions.2 ⟨List.mem_map_of_mem hmem.1, rfl⟩, ?_, rfl⟩
  rw [head?_insertionSort (fun h : Hit => h.key), hlead]

/-- The sessions are in the order of their first dates, and where these are equal of their names. -/
theorem pairwise_sessions (hopts : opts.sessionOrder = .chronological) :
    (sessions opts hits).Pairwise fun s s' =>
      toLex (firstDate s, s.1) < toLex (firstDate s', s'.1) := by
  rw [sessions, hopts]
  have hids : (byEpisode hits).Pairwise fun s s' =>
      firstDate s ≤ firstDate s' → firstDate s' ≤ firstDate s → s.1 < s'.1 := by
    have hsorted := (BTreeMap.groups epKey hits).sorted
    rw [← map_fst_byEpisode, List.pairwise_map] at hsorted
    exact hsorted.imp fun hlt _ _ => hlt
  refine ((pairwise_sort_key firstDate (byEpisode hits)).and
    (pairwise_insertionSort_of_tied hids)).imp fun ⟨hle, htied⟩ => ?_
  rw [Prod.Lex.toLex_lt_toLex]
  rcases lt_or_eq_of_le hle with hlt | heq
  · exact Or.inl hlt
  · exact Or.inr ⟨heq, htied hle heq.ge⟩

theorem headerDate_eq (hhead : s.2.head? = some h) : headerDate s = shownDate h := by
  rw [headerDate, hhead]
  rfl

theorem firstDate_eq (hhead : s.2.head? = some h) : firstDate s = dateText h := by
  rw [firstDate, hhead]
  rfl

/-- The turns of a session are in order exactly if their keys are in that of the numbers. -/
theorem pairwise_turns_iff (hs : s ∈ sessions opts hits) :
    ((s.2.filter fun h => !isFiller h).Pairwise fun h h' =>
        ∀ n n', IsTurn h n → IsTurn h' n' → n ≤ n') ↔
      ∀ h ∈ hits, ∀ h' ∈ hits, isFiller h = false → isFiller h' = false →
        epKey h = s.1 → epKey h' = s.1 →
        ∀ n n', IsTurn h n → IsTurn h' n' → n < n' → h.key < h'.key := by
  have hmem : ∀ h, h ∈ s.2.filter (fun h => !isFiller h) ↔
      (h ∈ hits ∧ epKey h = s.1) ∧ isFiller h = false := by
    intro h
    rw [List.mem_filter, mem_session hs, Bool.not_eq_true']
  have hsorted : (s.2.filter fun h => !isFiller h).Pairwise fun h h' => h.key ≤ h'.key := by
    rw [(mem_sessions.1 hs).2]
    exact (pairwise_sort_key (fun h : Hit => h.key) _).filter _
  constructor
  · intro hturns h hh h' hh' hfiller hfiller' hsession hsession' n n' hn hn' hlt
    by_contra hkey
    rcases lt_or_eq_of_le (not_lt.1 hkey) with hkey | hkey
    · have hle := of_pairwise_of_not (fun h h' : Hit => h.key < h'.key) (fun _ => lt_irrefl _)
        (hsorted.imp not_lt.2) hturns ((hmem h').2 ⟨⟨hh', hsession'⟩, hfiller'⟩)
        ((hmem h).2 ⟨⟨hh, hsession⟩, hfiller⟩) hkey
      exact absurd (hle n' n hn' hn) (not_le.2 hlt)
    · exact absurd (hn.unique hn' (hsession.trans hsession'.symm) hkey.symm) hlt.ne
  · intro hkeys
    refine hsorted.imp_of_mem fun {h h'} hh hh' hle n n' hn hn' => ?_
    by_contra hlt
    obtain ⟨⟨hh, hsession⟩, hfiller⟩ := (hmem h).1 hh
    obtain ⟨⟨hh', hsession'⟩, hfiller'⟩ := (hmem h').1 hh'
    exact absurd hle (not_le.2 (hkeys h' hh' h hh hfiller' hfiller hsession' hsession n' n hn' hn
      (not_le.1 hlt)))

/-- **The sessions** are complete, and in the order of the conversation exactly if the hits are in
step. -/
theorem conversation_sessions_iff (hopts : opts.sessionOrder = .chronological) :
    Conversation hits (sessions opts hits) ↔ InStep hits := by
  constructor
  · intro hconv
    refine ⟨fun h hlead d hd => ?_, fun h h' hlead hlead' hlt d d' hd hd' => ?_,
      fun h hh h' hh' hfiller hfiller' hsession n n' hn hn' hlt => ?_⟩
    · obtain ⟨s, hs, hhead, hsession⟩ := hlead.exists_session opts
      rw [← headerDate_eq hhead]
      exact hconv.dated s hs d (hsession ▸ hd)
    · obtain ⟨s, hs, hhead, hsession⟩ := hlead.exists_session opts
      obtain ⟨s', hs', hhead', hsession'⟩ := hlead'.exists_session opts
      rw [← firstDate_eq hhead, ← firstDate_eq hhead', ← hsession, ← hsession'] at hlt
      exact of_pairwise_of_not (fun s s' : String × List Hit =>
          toLex (firstDate s, s.1) < toLex (firstDate s', s'.1)) (fun _ => lt_irrefl _)
        ((pairwise_sessions hopts).imp lt_asymm) hconv.ordered hs hs' hlt d d' (hsession ▸ hd)
        (hsession' ▸ hd')
    · have hs : (epKey h, (withKey epKey hits (epKey h)).insertionSort fun a b => a.key ≤ b.key) ∈
          sessions opts hits := mem_sessions.2 ⟨List.mem_map_of_mem hh, rfl⟩
      exact (pairwise_turns_iff hs).1 (hconv.turns _ hs) h hh h' hh' hfiller hfiller' rfl
        hsession.symm n n' hn hn' hlt
  · intro hstep
    refine ⟨perm_shown opts hits, fun s hs h hh => ((mem_session hs).1 hh).2, ?_, fun s hs d hd => ?_,
      ?_, fun s hs => ?_⟩
    · have hids := ((perm_sessions opts hits).map Prod.fst).nodup_iff
      rw [hids, map_fst_byEpisode]
      exact BTreeMap.nodup_keys _
    · obtain ⟨h, hhead, hlead, hsession⟩ := exists_leads hs
      rw [headerDate_eq hhead]
      exact hstep.dated h hlead d (hsession ▸ hd)
    · refine (pairwise_sessions hopts).imp_of_mem fun {s s'} hs hs' hlt d d' hd hd' => ?_
      obtain ⟨h, hhead, hlead, hsession⟩ := exists_leads hs
      obtain ⟨h', hhead', hlead', hsession'⟩ := exists_leads hs'
      rw [firstDate_eq hhead, firstDate_eq hhead', ← hsession, ← hsession'] at hlt
      exact hstep.ordered h h' hlead hlead' hlt d d' (hsession ▸ hd) (hsession' ▸ hd')
    · refine (pairwise_turns_iff hs).2 fun h hh h' hh' hfiller hfiller' hsession hsession' => ?_
      exact hstep.turns h hh h' hh' hfiller hfiller' (hsession.trans hsession'.symm)

/-- **Rendering by sessions**: the lines are those of the sessions, which are complete, and in the order
of the conversation exactly if the hits are in step. -/
theorem sessionGrouped_conversation_iff (u : CharTables) (hopts : opts.sessionOrder = .chronological)
    (hits : List Hit) :
    sessionGrouped u opts hits = (sessions opts hits).flatMap (sessionLines u opts) ∧
      (Conversation hits (sessions opts hits) ↔ InStep hits) := by
  refine ⟨?_, conversation_sessions_iff hopts⟩
  unfold sessionGrouped
  split
  · rename_i hnil
    rw [hnil, sessions, hopts]
    rfl
  · rfl

/-! ## The tenth turn -/

/-- A turn of a session. -/
def turnHit (key content : String) : Hit :=
  { key, content, createdAt := some "2023/02/01 10:00", episodeId := none, description := none }

/-- The second turn of a session and the tenth. -/
def secondAndTenth : List Hit :=
  [turnHit "s1:turn:2:user" "I bought a bike", turnHit "s1:turn:10:user" "I sold the bike"]

theorem sessionGrouped_secondAndTenth :
    sessionGrouped .ascii {} secondAndTenth = (sessions {} secondAndTenth).flatMap
        (sessionLines .ascii {}) ∧
      (Conversation secondAndTenth (sessions {} secondAndTenth) ↔ InStep secondAndTenth) :=
  sessionGrouped_conversation_iff .ascii rfl secondAndTenth

/-- The tenth turn is rendered before the second. -/
theorem tenth_before_second :
    sessionGrouped .ascii {} secondAndTenth =
        ["--- Session s1 (2023/02/01) ---", "[user] I sold the bike", "[user] I bought a bike"] ∧
      ¬ Conversation secondAndTenth (sessions {} secondAndTenth) := by
  constructor
  · decide
  · rw [conversation_sessions_iff rfl]
    intro hstep
    have htwo : IsTurn (turnHit "s1:turn:2:user" "I bought a bike") 2 :=
      ⟨['2'], "user".toList, by decide, by decide, rfl⟩
    have hten : IsTurn (turnHit "s1:turn:10:user" "I sold the bike") 10 :=
      ⟨['1', '0'], "user".toList, by decide, by decide, rfl⟩
    have hlt := hstep.turns _ (by simp [secondAndTenth]) _ (by simp [secondAndTenth]) (by decide)
      (by decide) (by decide) 2 10 htwo hten (by decide)
    exact absurd hlt (by decide)

end Spectral.Render
