import Spectral.Brain.CoRetrieval
import Spectral.Brain.Reading

/-!
# What a forget adds to the access log

A forget scrubs the log of retrievals: it deletes the events whose text has the quoted id of the
memory.  Then it probes recall with the deleted content, and a recall logs what it returns.

* `RetrievalEvent.Lists` — an event lists a memory.
* `likeContains_jsonIds_iff` — of ids in hexadecimal the quoted id is found exactly where it is
  listed.
* `AddsNoUsage` — the log of after a forget is that of before without the events that list the
  memory.  `addsNoUsage_iff`: if and only if the probe does not run, and the text test is exact.
-/

namespace Spectral

open Spectral.Lib

/-- The event lists the memory: its text parses to a list of ids with this one in it. -/
def RetrievalEvent.Lists (parseIds : String → Option (List String)) (id : String)
    (e : RetrievalEvent) : Prop :=
  ∃ ids ∈ parseIds e.memoryIdsJson, id ∈ ids

instance (parseIds : String → Option (List String)) (id : String) (e : RetrievalEvent) :
    Decidable (e.Lists parseIds id) :=
  inferInstanceAs (Decidable (∃ ids ∈ parseIds e.memoryIdsJson, id ∈ ids))

/-! ## Ids in hexadecimal -/

/-- The digits of `{:02x}`. -/
def hexDigits : List Char := "0123456789abcdef".toList

/-- A text of hexadecimal digits. -/
def HexText (s : String) : Prop := ∀ c ∈ s.toList, c ∈ hexDigits

instance (s : String) : Decidable (HexText s) :=
  inferInstanceAs (Decidable (∀ c ∈ s.toList, c ∈ hexDigits))

theorem hexDigit_mem {n : ℕ} (h : n < 16) : hexDigit n ∈ hexDigits := by
  have hall : ∀ n < 16, hexDigit n ∈ hexDigits := by decide
  exact hall n h

/-- The ids that a brain makes are in hexadecimal. -/
theorem hexText_keyToId (env : Env) (key : String) : HexText (env.keyToId key) := by
  intro c hc
  rw [Env.keyToId, toHex, String.toList_ofList] at hc
  obtain ⟨b, -, hb⟩ := List.mem_flatMap.1 hc
  have hbyte : b.toNat < 256 := b.toNat_lt
  rcases List.mem_pair.1 hb with rfl | rfl
  · exact hexDigit_mem (by omega)
  · exact hexDigit_mem (by omega)

/-- What follows the closing quote of an id in an array: the other ids, and the bracket. -/
def quotedTail : List String → List Char
  | [] => [']']
  | id :: rest => ',' :: '"' :: (id.toList ++ '"' :: quotedTail rest)

/-- The text of an array of ids that need no escapes. -/
theorem toList_jsonIds_cons {id : String} {ids : List String}
    (h : ∀ other ∈ id :: ids, other.toList.flatMap jsonEscape = other.toList) :
    (jsonIds (id :: ids)).toList = '[' :: '"' :: (id.toList ++ '"' :: quotedTail ids) := by
  have hquoted : ∀ other ∈ id :: ids,
      quotedId (String.ofList (other.toList.flatMap jsonEscape)) = quotedId other := by
    intro other hother
    rw [h other hother, String.ofList_toList]
  have hid : ∀ id : String, (quotedId id).toList = '"' :: (id.toList ++ ['"']) := by
    intro id
    simp [quotedId, String.toList_append]
  have hrest : ∀ (ids : List String) (id : String),
      (",".intercalate ((id :: ids).map quotedId)).toList ++ [']'] =
        '"' :: (id.toList ++ '"' :: quotedTail ids) := by
    intro ids
    induction ids with
    | nil =>
      intro id
      simp [quotedTail, hid]
    | cons next rest ih =>
      intro id
      have hnext := ih next
      rw [String.toList_intercalate] at hnext ⊢
      simp only [List.map_cons] at hnext ⊢
      rw [List.intercalate_cons_cons, List.append_assoc, List.append_assoc, hnext, hid]
      simp [quotedTail]
  rw [jsonIds, List.map_congr_left hquoted, String.toList_append, String.toList_append]
  rw [List.append_assoc]
  exact congrArg ('[' :: ·) (hrest ids id)

/-- A text that starts with a quote is not found where there is none. -/
theorem infix_append_iff {p text rest : List Char} (h : '"' ∉ p) :
    '"' :: text <:+: p ++ rest ↔ '"' :: text <:+: rest := by
  induction p with
  | nil => rfl
  | cons c p ih =>
    rw [List.mem_cons, not_or] at h
    rw [List.cons_append, List.infix_cons_iff, ih h.2, or_iff_right]
    intro hhead
    exact h.1 (List.cons_prefix_cons.1 hhead).1

/-- Two texts without a quote that end at the same place. -/
theorem prefix_quote_iff {x y rest : List Char} (hx : '"' ∉ x) (hy : '"' ∉ y) :
    x ++ ['"'] <+: y ++ '"' :: rest ↔ x = y := by
  induction x generalizing y with
  | nil =>
    cases y with
    | nil => simp
    | cons d y =>
      simp only [List.mem_cons, not_or] at hy
      simp [hy.1]
  | cons c x ih =>
    simp only [List.mem_cons, not_or] at hx
    cases y with
    | nil => simp [Ne.symm hx.1]
    | cons d y =>
      simp only [List.mem_cons, not_or] at hy
      rw [List.cons_append, List.cons_append, List.cons_prefix_cons, ih hx.2 hy.2,
        List.cons.injEq]

/-- A closing quote does not open a quoted id, where the id has no sign that stands behind it. -/
theorem closing_infix_iff {x more : List Char} {c : Char} (hx : c ∉ x) (hc : c ≠ '"') :
    '"' :: (x ++ ['"']) <:+: '"' :: c :: more ↔ '"' :: (x ++ ['"']) <:+: more := by
  have hopens : ¬ x ++ ['"'] <+: c :: more := by
    cases x with
    | nil => simpa using Ne.symm hc
    | cons d x =>
      rw [List.cons_append, List.cons_prefix_cons]
      rintro ⟨rfl, -⟩
      exact hx List.mem_cons_self
  rw [List.infix_cons_iff, List.cons_prefix_cons, or_iff_right fun h => hopens h.2]
  exact infix_append_iff (p := [c]) (by simpa using Ne.symm hc)

/-- Behind a quoted id, another one is found exactly when it is listed there. -/
theorem infix_quotedTail_iff {x : String} (hx : '"' ∉ x.toList) (hcomma : ',' ∉ x.toList)
    (hbracket : ']' ∉ x.toList) {ids : List String} (hids : ∀ id ∈ ids, '"' ∉ id.toList) :
    '"' :: (x.toList ++ ['"']) <:+: '"' :: quotedTail ids ↔ x ∈ ids := by
  induction ids with
  | nil =>
    rw [quotedTail, closing_infix_iff hbracket (by decide)]
    simp
  | cons id rest ih =>
    have hid : '"' ∉ id.toList := hids id List.mem_cons_self
    rw [quotedTail, closing_infix_iff hcomma (by decide), List.infix_cons_iff,
      List.cons_prefix_cons, and_iff_right rfl, prefix_quote_iff hx hid, infix_append_iff hid,
      ih fun other h => hids other (List.mem_cons_of_mem _ h), List.mem_cons, String.toList_inj]

/-! ### The text test -/

section

variable {id : String} {ids : List String}

/-- A hexadecimal digit is no sign of JSON, is not escaped, and is not changed by `LIKE`. -/
theorem plain_of_hexDigit {c : Char} (h : c ∈ hexDigits) :
    c ≠ '"' ∧ c ≠ ',' ∧ c ≠ ']' ∧ jsonEscape c = [c] ∧ c.toLower = c := by
  have hall : (hexDigits.all fun c => decide (c ≠ '"' ∧ c ≠ ',' ∧ c ≠ ']' ∧ jsonEscape c = [c] ∧
      c.toLower = c)) = true := by decide
  exact of_decide_eq_true (List.all_eq_true.1 hall c h)

theorem HexText.not_mem {c : Char} (h : HexText id) (hc : c ∉ hexDigits) : c ∉ id.toList :=
  fun hin => hc (h c hin)

theorem HexText.flatMap_jsonEscape (h : HexText id) :
    id.toList.flatMap jsonEscape = id.toList := by
  have hself : ∀ c ∈ id.toList, jsonEscape c = [c] := fun c hc => (plain_of_hexDigit (h c hc)).2.2.2.1
  rw [List.flatMap_congr hself]
  exact List.flatMap_singleton' _

theorem HexText.map_toLower (h : HexText id) : id.toList.map Char.toLower = id.toList := by
  have hself : ∀ c ∈ id.toList, c.toLower = c := fun c hc => (plain_of_hexDigit (h c hc)).2.2.2.2
  rw [List.map_congr_left hself, List.map_id']

theorem map_toLower_quotedTail (h : ∀ other ∈ ids, HexText other) :
    (quotedTail ids).map Char.toLower = quotedTail ids := by
  have hsigns : ']'.toLower = ']' ∧ ','.toLower = ',' ∧ '"'.toLower = '"' := by decide
  induction ids with
  | nil => rfl
  | cons other rest ih =>
    rw [quotedTail, List.map_cons, List.map_cons, List.map_append, List.map_cons,
      (h other List.mem_cons_self).map_toLower, ih fun next hnext => h next (List.mem_cons_of_mem _ hnext),
      hsigns.2.1, hsigns.2.2]

/-- **In hexadecimal** the quoted id is found exactly in the arrays that list it. -/
theorem likeContains_jsonIds_iff (hid : HexText id) (hids : ∀ other ∈ ids, HexText other) :
    Store.likeContains (quotedId id) (jsonIds ids) = true ↔ id ∈ ids := by
  have hquote : ∀ {other : String}, HexText other → '"' ∉ other.toList :=
    fun h => h.not_mem (by decide)
  have hneedle : (quotedId id).toList.map Char.toLower = '"' :: (id.toList ++ ['"']) := by
    have hlist : (quotedId id).toList = '"' :: (id.toList ++ ['"']) := by
      simp [quotedId, String.toList_append]
    rw [hlist, List.map_cons, List.map_append, hid.map_toLower]
    rfl
  rw [Store.likeContains, decide_eq_true_iff, hneedle]
  cases ids with
  | nil =>
    show '"' :: _ <:+: ['[', ']'] ++ [] ↔ _
    rw [infix_append_iff (by decide)]
    simp
  | cons first rest =>
    have hfirst : HexText first := hids first List.mem_cons_self
    have hrest : ∀ other ∈ rest, HexText other :=
      fun other h => hids other (List.mem_cons_of_mem _ h)
    have htext : (jsonIds (first :: rest)).toList.map Char.toLower =
        ['['] ++ '"' :: (first.toList ++ '"' :: quotedTail rest) := by
      rw [toList_jsonIds_cons fun other h => (hids other h).flatMap_jsonEscape, List.map_cons,
        List.map_cons, List.map_append, List.map_cons, hfirst.map_toLower,
        map_toLower_quotedTail hrest]
      rfl
    rw [htext, infix_append_iff (by decide), List.infix_cons_iff, List.cons_prefix_cons,
      and_iff_right rfl, prefix_quote_iff (hquote hid) (hquote hfirst),
      infix_append_iff (hquote hfirst),
      infix_quotedTail_iff (hquote hid) (hid.not_mem (by decide)) (hid.not_mem (by decide))
        fun other h => hquote (hrest other h), List.mem_cons, String.toList_inj]

end

namespace BrainState

variable {L : WingCache}

/-! ## The log after a forget -/

section

variable (S : BrainSetup) (now : String) (faults : RecognitionFaults)
  (recallFault : Option String) (parseIds : String → Option (List String)) (b : BrainState L)

/-- The log without the events that list the memory. -/
def remaining (id : String) : List RetrievalEvent :=
  b.cached.store.retrievalEvents.rows.filter fun e => ¬ e.Lists parseIds id

/-- **A forget adds no usage evidence**: what is left of the log is what does not list the memory,
nothing is logged once the row is deleted, and a rebuild counts the pairs of what is left of the
events and of the sessions. -/
structure AddsNoUsage (r : MemoryRow) : Prop where
  log : (b.forget S now faults recallFault r.key).1.cached.store.retrievalEvents.rows =
    b.remaining parseIds r.id
  quiet : (b.forget S now faults recallFault r.key).1.cached.store.retrievalEvents =
    (b.erase S now faults r.key).cached.store.retrievalEvents
  sessions : ∀ m, m ∈ (b.forget S now faults recallFault r.key).1.cached.store.memorySessions ↔
    m ∈ b.cached.store.memorySessions ∧ m.memoryId ≠ r.id
  counts : ∀ o, Store.Counts
    ((b.remaining parseIds r.id).flatMap (fun e => idPairs ((parseIds e.memoryIdsJson).getD [])) ++
      Store.sessionPairs
        (b.forget S now faults recallFault r.key).1.cached.store.memorySessions.rows)
    ((b.forget S now faults recallFault r.key).1.cached.store.rebuildCoRetrievalIndex parseIds
      o).1.coRetrievalPairs

/-- **The condition.**  The recall probe does not get to its log: there is no content under the id
of the key, or the recall fails, or the content has no word to look for.  And the quoted id of the
memory is found in exactly the events that list it. -/
structure ForgetsQuietly (r : MemoryRow) : Prop where
  unprobed : b.probeContent S r.key = "" ∨ recallFault ≠ none ∨
    S.ftsQueryWords (b.probeContent S r.key) = []
  scrub : ∀ e ∈ b.cached.store.retrievalEvents,
    Store.likeContains (quotedId r.id) e.memoryIdsJson = true ↔ e.Lists parseIds r.id

end

variable {S : BrainSetup} {now : String} {faults : RecognitionFaults} {recallFault : Option String}
  {parseIds : String → Option (List String)} {b : BrainState L} {r : MemoryRow}

/-- In hexadecimal the text test is exact. -/
theorem scrub_of_hexText (hid : HexText r.id)
    (hlog : ∀ e ∈ b.cached.store.retrievalEvents, ∃ ids, e.memoryIdsJson = jsonIds ids ∧
      parseIds e.memoryIdsJson = some ids ∧ ∀ id ∈ ids, HexText id) :
    ∀ e ∈ b.cached.store.retrievalEvents,
      Store.likeContains (quotedId r.id) e.memoryIdsJson = true ↔ e.Lists parseIds r.id := by
  intro e he
  obtain ⟨ids, hjson, hparse, hids⟩ := hlog e he
  rw [hjson, likeContains_jsonIds_iff hid hids, RetrievalEvent.Lists, hparse]
  simp

theorem retrievalEvents_erase (hr : r ∈ b.cached.store.memories) :
    (b.erase S now faults r.key).cached.store.retrievalEvents =
      b.cached.store.retrievalEvents.deleteWhere fun e =>
        Store.likeContains (quotedId r.id) e.memoryIdsJson := by
  rw [store_erase, Store.deleteMemoryByKey_eq hr]
  cases r.episodeId with
  | none => rfl
  | some ep =>
    dsimp only
    rw [Store.settleEpisode_eq]
    rfl

/-- What the deletion leaves of the log is what does not list the memory, if and only if the text
test is exact. -/
theorem rows_erase_iff (hr : r ∈ b.cached.store.memories) :
    (b.erase S now faults r.key).cached.store.retrievalEvents.rows = b.remaining parseIds r.id ↔
      ∀ e ∈ b.cached.store.retrievalEvents,
        Store.likeContains (quotedId r.id) e.memoryIdsJson = true ↔ e.Lists parseIds r.id := by
  rw [retrievalEvents_erase hr]
  show b.cached.store.retrievalEvents.rows.filter _ = _ ↔ ∀ e ∈ b.cached.store.retrievalEvents.rows, _
  unfold remaining
  constructor
  · intro h e he
    have hmem : (e ∈ b.cached.store.retrievalEvents.rows.filter fun e =>
        !Store.likeContains (quotedId r.id) e.memoryIdsJson) ↔
          e ∈ b.cached.store.retrievalEvents.rows.filter fun e => ¬ e.Lists parseIds r.id :=
      iff_of_eq (congrArg (e ∈ ·) h)
    rw [← not_iff_not]
    simpa [he] using hmem
  · intro h
    refine List.filter_congr fun e he => ?_
    rw [Bool.eq_iff_iff]
    simp [← h e he]

/-- A recall logs, unless there is no word to look for. -/
theorem recallTopkFts_quiet_iff {query : String} {k fetchMult : ℕ} {visibility : Visibility} :
    (b.recallTopkFts S query k fetchMult visibility).1.cached.store.retrievalEvents =
      b.cached.store.retrievalEvents ↔ S.ftsQueryWords query = [] := by
  rw [← recallTopkFtsAs_writable]
  constructor
  · intro h
    by_contra hwords
    have hlogged : logged (b.recallTopkFtsAs S false query k fetchMult visibility).1 =
        logged b + 1 := logged_recallTopkFtsAs hwords
    unfold logged at hlogged
    rw [h] at hlogged
    omega
  · intro h
    rw [recallTopkFtsAs_of_no_words h]

theorem probeRecall_quiet_iff {key content : String} :
    (b.probeRecall S recallFault key content).1.cached.store.retrievalEvents =
      b.cached.store.retrievalEvents ↔ recallFault ≠ none ∨ S.ftsQueryWords content = [] := by
  unfold probeRecall
  cases recallFault with
  | some e => simp
  | none => simp [recallTopkFts_quiet_iff]

/-- Nothing is logged after the deletion, if and only if the probe does not get to its log. -/
theorem forget_quiet_iff (hr : r ∈ b.cached.store.memories) :
    (b.forget S now faults recallFault r.key).1.cached.store.retrievalEvents =
      (b.erase S now faults r.key).cached.store.retrievalEvents ↔
        b.probeContent S r.key = "" ∨ recallFault ≠ none ∨
          S.ftsQueryWords (b.probeContent S r.key) = [] := by
  have hexisted : (b.cached.store.deleteMemoryByKey now r.key).2.existed = true :=
    Store.existed_deleteMemoryByKey hr
  unfold forget
  dsimp only
  by_cases hcontent : b.probeContent S r.key = ""
  · rw [if_pos (Or.inr hcontent)]
    exact iff_of_true rfl (Or.inl hcontent)
  · rw [if_neg (by simp [hexisted, hcontent]), or_iff_right hcontent]
    exact probeRecall_quiet_iff

/-- The probe touches no session. -/
theorem memorySessions_forget :
    (b.forget S now faults recallFault r.key).1.cached.store.memorySessions =
      (b.cached.store.deleteMemoryByKey now r.key).1.memorySessions := by
  have hprobe : ∀ (b : BrainState L) content,
      (b.probeRecall S recallFault r.key content).1.cached.store.memorySessions =
        b.cached.store.memorySessions := by
    intro b content
    unfold probeRecall recallTopkFts
    split
    · rfl
    · dsimp only
      split
      · rfl
      · split <;> rfl
  have herase : (b.erase S now faults r.key).cached.store =
      (b.cached.store.deleteMemoryByKey now r.key).1 := store_erase
  rw [← herase]
  unfold forget
  dsimp only
  split
  · rfl
  · exact hprobe _ _

/-- **Every forget**, in any brain: it adds no usage evidence if and only if it is quiet. -/
theorem addsNoUsage_iff (S : BrainSetup) (now : String) (faults : RecognitionFaults)
    (recallFault : Option String) (parseIds : String → Option (List String)) (b : BrainState L)
    (r : MemoryRow) (hr : r ∈ b.cached.store.memories) :
    b.AddsNoUsage S now faults recallFault parseIds r ↔
      b.ForgetsQuietly S recallFault parseIds r := by
  have herase : (b.erase S now faults r.key).cached.store.retrievalEvents.rows =
      b.remaining parseIds r.id ↔ _ := rows_erase_iff hr
  constructor
  · intro h
    refine ⟨(forget_quiet_iff hr).1 h.quiet, herase.1 ?_⟩
    rw [← h.quiet]
    exact h.log
  · intro h
    have hquiet : (b.forget S now faults recallFault r.key).1.cached.store.retrievalEvents =
        (b.erase S now faults r.key).cached.store.retrievalEvents :=
      (forget_quiet_iff hr).2 h.unprobed
    have hlog : (b.forget S now faults recallFault r.key).1.cached.store.retrievalEvents.rows =
        b.remaining parseIds r.id := by
      rw [hquiet]
      exact herase.2 h.scrub
    refine ⟨hlog, hquiet, fun m => ?_, fun o => ?_⟩
    · rw [memorySessions_forget]
      exact (Store.deleteMemoryByKey_erases b.cached.store now r hr).memorySessions m
    · rw [← hlog]
      exact Store.counts_rebuild parseIds o _

/-! ## Two other notes -/

/-- The author's brain, where a content is looked for by its first word. -/
def firstWordBrain : BrainSetup :=
  { authorBrain with
    ftsQueryWords := fun query => [String.ofList (query.toList.takeWhile fun c => c ≠ ' ')] }

/-- The author's brain, where no content has a word to look for. -/
def noWordsBrain : BrainSetup := { authorBrain with ftsQueryWords := fun _ => [] }

/-- A retrieval of three notes, and one of two of them. -/
def twoRetrievals : Store :=
  { retrievalEvents := .ofList
      [⟨1, jsonIds ["2d98215960d21018", "0aa1", "0bb2"]⟩, ⟨2, jsonIds ["0aa1", "0bb2"]⟩] }

/-- The note and two others, of which all are retrieved once, and the others a second time. -/
def retrievedNotes : List BrainCall :=
  [⟨.remember "note" note.content "2026-01-03 08:30:00" {} [], "2026-01-03 09:00:00", {}⟩,
    ⟨.store (.write Store.mondayNote []), "2026-01-03 09:01:00", {}⟩,
    ⟨.store (.write Store.tuesdayNote []), "2026-01-03 09:02:00", {}⟩,
    ⟨.store (.otherTables twoRetrievals), "2026-01-03 09:03:00", {}⟩]

/-- The ids of the two retrievals. -/
def retrievedIds (json : String) : Option (List String) :=
  [["2d98215960d21018", "0aa1", "0bb2"], ["0aa1", "0bb2"]].find? fun ids => json = jsonIds ids

theorem addsNoUsage_note :
    ∃ r ∈ (run (apply noWordsBrain) (opened wingCache) retrievedNotes).cached.store.memories.rows,
      r.key = "note" ∧ (run (apply noWordsBrain) (opened wingCache) retrievedNotes).AddsNoUsage
        noWordsBrain "2026-01-03 09:04:00" {} none retrievedIds r := by
  have hrow : ∃ r ∈ (run (apply noWordsBrain) (opened wingCache)
      retrievedNotes).cached.store.memories.rows, r.key = "note" ∧
        ∀ e ∈ (run (apply noWordsBrain) (opened wingCache)
          retrievedNotes).cached.store.retrievalEvents.rows,
          Store.likeContains (quotedId r.id) e.memoryIdsJson = true ↔ e.Lists retrievedIds r.id := by
    decide +kernel
  obtain ⟨r, hr, hkey, hscrub⟩ := hrow
  exact ⟨r, hr, hkey, (addsNoUsage_iff noWordsBrain "2026-01-03 09:04:00" {} none retrievedIds _ r
    hr).2 ⟨Or.inr (Or.inr rfl), hscrub⟩⟩

/-- **The probe is logged**: a forget leaves one more retrieval of the two other notes than there
was, and a rebuild counts it. -/
theorem forget_logs_others :
    let b := run (apply firstWordBrain) (opened wingCache) retrievedNotes
    ∃ r ∈ b.cached.store.memories.rows, r.key = "note" ∧
      (b.remaining retrievedIds r.id).map RetrievalEvent.memoryIdsJson = [jsonIds ["0aa1", "0bb2"]] ∧
      (b.forget firstWordBrain "2026-01-03 09:04:00" {} none
          "note").1.cached.store.retrievalEvents.rows.map RetrievalEvent.memoryIdsJson =
        [jsonIds ["0aa1", "0bb2"], jsonIds ["0aa1", "0bb2"]] ∧
      ¬ b.AddsNoUsage firstWordBrain "2026-01-03 09:04:00" {} none retrievedIds r := by
  intro b
  have hrow : ∃ r ∈ b.cached.store.memories.rows, r.key = "note" ∧
      (b.remaining retrievedIds r.id).map RetrievalEvent.memoryIdsJson =
        [jsonIds ["0aa1", "0bb2"]] := by decide +kernel
  have hlogged : (b.forget firstWordBrain "2026-01-03 09:04:00" {} none
      "note").1.cached.store.retrievalEvents.rows.map RetrievalEvent.memoryIdsJson =
        [jsonIds ["0aa1", "0bb2"], jsonIds ["0aa1", "0bb2"]] := by decide +kernel
  clear_value b
  obtain ⟨r, hr, hkey, hremaining⟩ := hrow
  refine ⟨r, hr, hkey, hremaining, hlogged, fun h => ?_⟩
  have hlog := h.log
  rw [hkey] at hlog
  rw [hlog, hremaining] at hlogged
  exact absurd hlogged (by decide)

end BrainState

end Spectral
