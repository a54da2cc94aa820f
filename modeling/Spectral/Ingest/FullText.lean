import Mathlib.Algebra.Order.Group.Multiset
import Spectral.Lib.Run
import Spectral.Lib.Upkeep
import Spectral.Ingest.FtsDdl
import Spectral.Ingest.Store

/-!
# The full-text index

`memories_fts` keeps no text of its own.  Triggers on `memories` add to it what a row brings and take
out what it had, by the text the row had then; an opening builds it again when its columns or its
tokenizer are not the ones wanted.  An opening may stop anywhere.

* `MemoryFile` — the rows, the two indexes over them and the triggers.
* `openWithConfig`, `change`, `FileCall.step` — what opens and changes a file.
* `full_text_exact` — after any run both indexes hold what the rows give, and nothing else.
* `full_text_opened` — and under the tokenizer that the last opening asked for.
-/

namespace Spectral

open Spectral.Lib

/-! ## FTS5 -/

/-- The third-party part of FTS5. -/
structure Fts5 where
  /-- The terms of a text under a tokenizer. -/
  terms : Option String → String → List String
  /-- Whether there is such a tokenizer. -/
  known : Option String → Bool

/-- What an index holds: that it has a document, and the places of the document's terms. -/
inductive FtsEntry where
  | document (rowid : ℕ)
  | term (rowid column position : ℕ) (term : String)
  deriving DecidableEq

/-- What indexing a document puts in an index, and what `'delete'` with the same texts takes out. -/
def Fts5.document (e : Fts5) (tokenizer : Option String) (rowid : ℕ) (texts : List String) :
    Multiset FtsEntry :=
  FtsEntry.document rowid ::ₘ Multiset.ofList (texts.zipIdx.flatMap fun text =>
    (e.terms tokenizer text.1).zipIdx.map fun term => .term rowid text.2 term.2 term.1)

/-- The texts of a row that `memories_fts` is given. -/
def MemoryRow.ftsTexts (m : MemoryRow) (described : Bool) : List String :=
  [m.key, m.content] ++ if described then [m.description.getD ""] else []

/-- A row in `memories_fts`. -/
def Fts5.memory (e : Fts5) (tokenizer : Option String) (described : Bool) (rowid : ℕ) (m : MemoryRow) :
    Multiset FtsEntry :=
  e.document tokenizer rowid (m.ftsTexts described)

/-- A row in `memories_fts_raw`. -/
def Fts5.rawMemory (e : Fts5) (rowid : ℕ) (m : MemoryRow) : Multiset FtsEntry :=
  e.document (some "unicode61") rowid [m.content]

/-! ## The file -/

/-- `memories_fts`. -/
structure FtsIndex where
  ddl : FtsDdl
  entries : Multiset FtsEntry

/-- What `memory.db` holds of `memories` and its indexes.  A trigger is known by whether it names the
description; `memories_fts_raw` has its triggers from the start. -/
structure MemoryFile where
  memories : Numbered ℕ MemoryRow := .empty
  fts : Option FtsIndex := none
  ai : Option Bool := none
  ad : Option Bool := none
  au : Option Bool := none
  raw : Option (Multiset FtsEntry) := none

/-- The part of `SqliteStoreConfig` that decides about the indexes. -/
structure SqliteStoreConfig where
  ftsTokenizer : Option String := none
  readOnly : Bool := false
  ftsFusion : Bool := false

namespace MemoryFile

/-- The triggers of `memories_fts`. -/
def triggers (file : MemoryFile) : List (Option Bool) := [file.ai, file.ad, file.au]

/-- The trigger that a change fires. -/
def trigger (file : MemoryFile) : Change ℕ MemoryRow → Option Bool
  | .insert _ _ => file.ai
  | .update _ _ => file.au
  | .delete _ => file.ad

section Open

variable (e : Fts5) (isWhitespace : Char → Bool) (tokenizer : Option String)

/-- `fts_rebuild_batch`, one transaction. -/
def ftsRebuildBatch (file : MemoryFile) : Option MemoryFile :=
  if e.known tokenizer then
    some { file with
      fts := some
        { ddl := ⟨true, tokenizer, 13⟩, entries := file.memories.total (e.memory tokenizer true) }
      ai := some true, ad := some true, au := some true }
  else none

/-- `CREATE VIRTUAL TABLE IF NOT EXISTS memories_fts` in `init_schema`. -/
def createFts (file : MemoryFile) : Option MemoryFile :=
  if file.fts.isSome then some file
  else if e.known tokenizer then some { file with fts := some ⟨⟨true, tokenizer, 12⟩, 0⟩ }
  else none

/-- `CREATE TRIGGER IF NOT EXISTS memories_ai`. -/
def createMemoriesAi (file : MemoryFile) : Option MemoryFile :=
  some { file with ai := some (file.ai.getD true) }

/-- `CREATE TRIGGER IF NOT EXISTS memories_ad`. -/
def createMemoriesAd (file : MemoryFile) : Option MemoryFile :=
  some { file with ad := some (file.ad.getD true) }

/-- `CREATE TRIGGER IF NOT EXISTS memories_au`. -/
def createMemoriesAu (file : MemoryFile) : Option MemoryFile :=
  some { file with au := some (file.au.getD true) }

/-- The rebuild in `migrate_provenance_columns`. -/
def migrateFtsDescription (file : MemoryFile) : Option MemoryFile :=
  if file.fts.any fun i => i.ddl.hasDescription then some file else ftsRebuildBatch e tokenizer file

/-- `migrate_fts_tokenizer`. -/
def migrateFtsTokenizer (file : MemoryFile) : Option MemoryFile :=
  match file.fts with
  | none => some file
  | some i =>
    let desired := tokenizer.map fun t => String.ofList (trim isWhitespace t.toList)
    if parseFtsTokenizeSpec isWhitespace i.ddl.sql = desired then some file
    else ftsRebuildBatch e tokenizer file

/-- `ensure_fusion_index`, one transaction. -/
def ensureFusionIndex (file : MemoryFile) : Option MemoryFile :=
  if file.raw.isSome then some file
  else some { file with raw := some (file.memories.total e.rawMemory) }

/-- What an opening does to the indexes, one after the other; each is done or not done. -/
def openStatements (config : SqliteStoreConfig) : List (MemoryFile → Option MemoryFile) :=
  let tokenizer := resolveFtsTokenizer isWhitespace config.ftsTokenizer
  [createFts e tokenizer,
    createMemoriesAi, createMemoriesAd, createMemoriesAu, migrateFtsDescription e tokenizer,
    migrateFtsTokenizer e isWhitespace tokenizer] ++
      if config.ftsFusion then [ensureFusionIndex e] else []

/-- Statements until one fails, and whether none did. -/
def execute : List (MemoryFile → Option MemoryFile) → MemoryFile → MemoryFile × Bool
  | [], file => (file, true)
  | statement :: rest, file =>
    match statement file with
    | some file' => execute rest file'
    | none => (file, false)

/-- `open_with_config`, to its end or up to where the process stopped. -/
def openWithConfig (config : SqliteStoreConfig) (stopped : Option ℕ) (file : MemoryFile) :
    MemoryFile × Bool :=
  if config.readOnly then (file, true)
  else
    match stopped with
    | none => execute (openStatements e isWhitespace config) file
    | some n => ((execute ((openStatements e isWhitespace config).take n) file).1, false)

end Open

section Change

variable (e : Fts5)

/-- The trigger of `memories_fts` fires.  It fails when it names a column the table has not. -/
def fire (file : MemoryFile) (c : Change ℕ MemoryRow) : Option (Option FtsIndex) :=
  match file.trigger c, file.fts with
  | none, fts => some fts
  | some _, none => none
  | some described, some i =>
    if described && !i.ddl.described then none
    else some (some { i with
      entries := c.upkeep (e.memory i.ddl.tokenizer described) file.memories i.entries })

/-- One row of `memories` inserted, updated or deleted, with its triggers; `id` and `key` are
unique. -/
def change (file : MemoryFile) (c : Change ℕ MemoryRow) : Option MemoryFile := do
  let memories ← c.apply file.memories
  if memories.rows.Pairwise fun a b => ¬ a.2.Clash b.2 then
    let fts ← file.fire e c
    some { file with
      memories, fts, raw := file.raw.map fun raw => c.upkeep e.rawMemory file.memories raw }
  else none

end Change

end MemoryFile

/-! ## Runs -/

/-- A file, and whether somebody has it open for writing. -/
structure FileState where
  file : MemoryFile := {}
  writable : Bool := false

/-- What happens to a file: it is opened, an opening stops before its end, a transaction changes rows
of `memories`, or `vacuum` writes the file anew.  SQLite does not promise that `VACUUM` leaves the
rowids of a table without an `INTEGER PRIMARY KEY`. -/
inductive FileCall where
  | openWithConfig (config : SqliteStoreConfig) (stopped : Option ℕ)
  | commit (changes : List (Change ℕ MemoryRow))
  | vacuum (rowids : ℕ ↪ ℕ)

/-- A transaction that fails changes nothing. -/
def FileCall.step (e : Fts5) (isWhitespace : Char → Bool) (s : FileState) : FileCall → FileState
  | .openWithConfig config stopped =>
    let opened := s.file.openWithConfig e isWhitespace config stopped
    { file := opened.1, writable := s.writable || opened.2 && !config.readOnly }
  | .commit changes =>
    if s.writable then { s with file := (changes.foldlM (MemoryFile.change e) s.file).getD s.file }
    else s
  | .vacuum rowids =>
    if s.writable then { s with file := { s.file with memories := s.file.memories.renumber rowids } }
    else s

/-- `VACUUM` leaves the rowids. -/
def FileCall.KeepsRowids (s : FileState) : FileCall → Prop
  | .vacuum rowids => ∀ r ∈ s.file.memories.rows, rowids r.1 = r.1
  | _ => True

/-! ## What an opening and a change keep -/

/-- The indexes hold what the rows give.  Where there is none yet there are no rows; columns and
triggers are all of the old kind or all of the new. -/
structure MemoryFile.Sound (e : Fts5) (isWhitespace : Char → Bool) (file : MemoryFile) : Prop where
  fts : ∀ i ∈ file.fts, i.entries = file.memories.total (e.memory i.ddl.tokenizer i.ddl.described)
  raw : ∀ raw ∈ file.raw, raw = file.memories.total e.rawMemory
  unindexed : file.fts = none → file.memories.rows = []
  columns : ∀ i ∈ file.fts, i.ddl.described = false → i.ddl.hasDescription = false
  triggers : some false ∈ file.triggers → ∃ i ∈ file.fts, i.ddl.described = false
  clean : ∀ i ∈ file.fts, ∀ t ∈ i.ddl.tokenizer, CleanSpec isWhitespace t

/-- Every row that comes or goes passes a trigger that names all columns. -/
structure MemoryFile.Ready (file : MemoryFile) : Prop where
  fts : ∃ i ∈ file.fts, i.ddl.described = true
  ai : file.ai = some true
  ad : file.ad = some true
  au : file.au = some true

/-- What an opening that comes to its end leaves. -/
structure MemoryFile.OpenedAs (tokenizer : Option String) (fusion : Bool) (file : MemoryFile) : Prop
    extends file.Ready where
  tokenizer : ∀ i ∈ file.fts, i.ddl.tokenizer = tokenizer
  fusion : fusion = true → file.raw.isSome

namespace MemoryFile

variable {e : Fts5} {isWhitespace : Char → Bool} {tokenizer : Option String} {file file' : MemoryFile}

theorem Ready.openedAs (h : file.Ready) : ∃ tokenizer, file.OpenedAs tokenizer false := by
  obtain ⟨i, hi, -⟩ := h.fts
  refine ⟨i.ddl.tokenizer, h, fun i' hi' => ?_, nofun⟩
  rw [Option.mem_unique hi' hi]

theorem Ready.trigger (h : file.Ready) (c : Change ℕ MemoryRow) : file.trigger c = some true := by
  cases c with
  | insert k m => exact h.ai
  | update k m => exact h.au
  | delete k => exact h.ad

/-! ### Openings -/

theorem Sound.ftsRebuildBatch (hs : file.Sound e isWhitespace)
    (hclean : ∀ t ∈ tokenizer, CleanSpec isWhitespace t)
    (h : ftsRebuildBatch e tokenizer file = some file') :
    file'.Sound e isWhitespace ∧ file'.OpenedAs tokenizer false ∧ file'.raw = file.raw := by
  unfold MemoryFile.ftsRebuildBatch at h
  split at h
  case isFalse => cases h
  case isTrue =>
    cases h
    refine ⟨⟨?_, hs.raw, nofun, ?_, ?_, ?_⟩, ⟨⟨?_, rfl, rfl, rfl⟩, ?_, ?_⟩, rfl⟩
    · rintro i ⟨⟩
      rfl
    · rintro i ⟨⟩ hd
      cases hd
    · intro h
      simp [MemoryFile.triggers] at h
    · rintro i ⟨⟩
      exact hclean
    · exact ⟨_, rfl, rfl⟩
    · rintro i ⟨⟩
      rfl
    · intro h
      cases h

theorem Sound.createFts (hs : file.Sound e isWhitespace)
    (hclean : ∀ t ∈ tokenizer, CleanSpec isWhitespace t)
    (h : createFts e tokenizer file = some file') :
    file'.Sound e isWhitespace ∧ file'.fts.isSome ∧ (file.fts.isSome → file' = file) := by
  unfold MemoryFile.createFts at h
  split at h
  case isTrue hsome =>
    cases h
    exact ⟨hs, hsome, fun _ => rfl⟩
  case isFalse hnone =>
    have hfts : file.fts = none := Option.not_isSome_iff_eq_none.1 hnone
    split at h
    case isFalse => cases h
    case isTrue =>
      cases h
      refine ⟨⟨?_, hs.raw, nofun, ?_, fun h => ?_, ?_⟩, rfl, fun h => absurd h hnone⟩
      · rintro i ⟨⟩
        exact (Numbered.total_of_rows_eq_nil _ (hs.unindexed hfts)).symm
      · rintro i ⟨⟩ hd
        cases hd
      · obtain ⟨i, hi, -⟩ := hs.triggers h
        rw [hfts] at hi
        cases hi
      · rintro i ⟨⟩
        exact hclean

/-- A trigger that is not there is made; one that is there stays as it is. -/
theorem Sound.withTriggers (hs : file.Sound e isWhitespace) {ai ad au : Option Bool}
    (h : some false ∈ [ai, ad, au] → some false ∈ file.triggers) :
    ({ file with ai, ad, au } : MemoryFile).Sound e isWhitespace :=
  ⟨hs.fts, hs.raw, hs.unindexed, hs.columns, fun hold => hs.triggers (h hold), hs.clean⟩

/-- Once the table and the triggers are there. -/
theorem Sound.migrateFtsDescription (hs : file.Sound e isWhitespace)
    (hclean : ∀ t ∈ tokenizer, CleanSpec isWhitespace t)
    (h : migrateFtsDescription e tokenizer file = some file') :
    file'.Sound e isWhitespace ∧ (file.Ready → file'.Ready) ∧
      (file.ai.isSome → file.ad.isSome → file.au.isSome → file'.Ready) := by
  unfold MemoryFile.migrateFtsDescription at h
  split at h
  case isFalse =>
    obtain ⟨hsound, hopened, -⟩ := hs.ftsRebuildBatch hclean h
    exact ⟨hsound, fun _ => hopened.toReady, fun _ _ _ => hopened.toReady⟩
  case isTrue hhas =>
    cases h
    refine ⟨hs, id, fun hai had hau => ?_⟩
    obtain ⟨i, hi, hcolumn⟩ := (Option.any_eq_true _ _).1 hhas
    have hdescribed : i.ddl.described = true := by
      by_contra hnot
      have hlegacy := hs.columns i hi (Bool.eq_false_iff.2 hnot)
      rw [hlegacy] at hcolumn
      cases hcolumn
    have hall : ∀ t ∈ file.triggers, t.isSome → t = some true := by
      rintro (- | - | -) ht hsome
      · cases hsome
      · obtain ⟨i', hi', hold⟩ := hs.triggers ht
        rw [Option.mem_unique hi' hi, hdescribed] at hold
        cases hold
      · rfl
    exact ⟨⟨i, hi, hdescribed⟩, hall _ (by simp [MemoryFile.triggers]) hai,
      hall _ (by simp [MemoryFile.triggers]) had, hall _ (by simp [MemoryFile.triggers]) hau⟩

theorem Sound.migrateFtsTokenizer (hs : file.Sound e isWhitespace)
    (hclean : ∀ t ∈ tokenizer, CleanSpec isWhitespace t)
    (h : migrateFtsTokenizer e isWhitespace tokenizer file = some file') :
    file'.Sound e isWhitespace ∧ (file.Ready → file'.OpenedAs tokenizer false) := by
  unfold MemoryFile.migrateFtsTokenizer at h
  have hdesired : (tokenizer.map fun t => String.ofList (trim isWhitespace t.toList)) = tokenizer := by
    cases tokenizer with
    | none => rfl
    | some t => simp [(hclean t rfl).trimmed]
  cases hfts : file.fts with
  | none =>
    rw [hfts] at h
    cases h
    refine ⟨hs, fun hready => ?_⟩
    obtain ⟨i, hi, -⟩ := hready.fts
    rw [hfts] at hi
    cases hi
  | some i =>
    rw [hfts] at h
    simp only [hdesired, parseFtsTokenizeSpec_sql (hs.clean i hfts)] at h
    split at h
    case isFalse =>
      obtain ⟨hsound, hopened, -⟩ := hs.ftsRebuildBatch hclean h
      exact ⟨hsound, fun _ => hopened⟩
    case isTrue hsame =>
      cases h
      refine ⟨hs, fun hready => ⟨hready, fun i' hi' => ?_, nofun⟩⟩
      rw [Option.mem_unique hi' hfts, hsame]

theorem Sound.ensureFusionIndex (hs : file.Sound e isWhitespace)
    (h : ensureFusionIndex e file = some file') :
    file'.Sound e isWhitespace ∧ (file.Ready → file'.Ready) ∧
      ∀ tokenizer, file.OpenedAs tokenizer false → file'.OpenedAs tokenizer true := by
  unfold MemoryFile.ensureFusionIndex at h
  split at h
  case isTrue hsome =>
    cases h
    exact ⟨hs, id, fun _ ho => ⟨ho.toReady, ho.tokenizer, fun _ => hsome⟩⟩
  case isFalse =>
    cases h
    refine ⟨⟨hs.fts, ?_, hs.unindexed, hs.columns, hs.triggers, hs.clean⟩,
      fun hr => ⟨hr.fts, hr.ai, hr.ad, hr.au⟩,
      fun _ ho => ⟨⟨ho.fts, ho.ai, ho.ad, ho.au⟩, ho.tokenizer, fun _ => rfl⟩⟩
    rintro raw ⟨⟩
    rfl

theorem execute_invariant {I : MemoryFile → Prop} {l : List (MemoryFile → Option MemoryFile)}
    (hstep : ∀ statement ∈ l, ∀ file file', I file → statement file = some file' → I file')
    (h : I file) : I (execute l file).1 := by
  induction l generalizing file with
  | nil => exact h
  | cons statement l ih =>
    rw [execute]
    cases hst : statement file with
    | none => exact h
    | some next =>
      exact ih (fun st hst => hstep st (List.mem_cons_of_mem _ hst))
        (hstep statement List.mem_cons_self file next h hst)

theorem execute_cons_eq_true {statement : MemoryFile → Option MemoryFile}
    {l : List (MemoryFile → Option MemoryFile)} (h : execute (statement :: l) file = (file', true)) :
    ∃ next, statement file = some next ∧ execute l next = (file', true) := by
  rw [execute] at h
  cases hst : statement file with
  | none =>
    rw [hst] at h
    cases h
  | some next =>
    rw [hst] at h
    exact ⟨next, rfl, h⟩

theorem some_false_of_getD {t : Option Bool} (h : some false = some (t.getD true)) :
    some false = t := by
  cases t with
  | none => cases h
  | some b => exact h

theorem mem_openStatements {config : SqliteStoreConfig} {statement : MemoryFile → Option MemoryFile}
    (h : statement ∈ openStatements e isWhitespace config) :
    statement = createFts e (resolveFtsTokenizer isWhitespace config.ftsTokenizer) ∨
      statement = createMemoriesAi ∨ statement = createMemoriesAd ∨ statement = createMemoriesAu ∨
      statement = migrateFtsDescription e (resolveFtsTokenizer isWhitespace config.ftsTokenizer) ∨
      statement =
        migrateFtsTokenizer e isWhitespace (resolveFtsTokenizer isWhitespace config.ftsTokenizer) ∨
      config.ftsFusion = true ∧ statement = ensureFusionIndex e := by
  simp only [openStatements, List.mem_append, List.mem_cons, List.not_mem_nil, or_false] at h
  split at h
  case isTrue hfusion => simpa only [List.mem_singleton, or_assoc, hfusion, true_and] using h
  case isFalse =>
    simpa only [List.not_mem_nil, or_false, or_assoc] using
      h.imp_right fun h => absurd h List.not_mem_nil

/-- Each statement of an opening keeps what is sound, and what is ready stays so. -/
theorem sound_of_mem_openStatements {config : SqliteStoreConfig}
    {statement : MemoryFile → Option MemoryFile}
    (hmem : statement ∈ openStatements e isWhitespace config) (hs : file.Sound e isWhitespace)
    (h : statement file = some file') :
    file'.Sound e isWhitespace ∧ (file.Ready → file'.Ready) := by
  have hclean : ∀ t ∈ resolveFtsTokenizer isWhitespace config.ftsTokenizer, CleanSpec isWhitespace t :=
    fun t ht => cleanSpec_resolve ht
  rcases mem_openStatements hmem with rfl | rfl | rfl | rfl | rfl | rfl | ⟨-, rfl⟩
  · obtain ⟨hsound, -, hsame⟩ := hs.createFts hclean h
    refine ⟨hsound, fun hr => ?_⟩
    obtain ⟨i, hi, -⟩ := hr.fts
    rw [hsame (by rw [Option.mem_def.1 hi]; rfl)]
    exact hr
  · cases h
    refine ⟨hs.withTriggers fun hold => ?_, fun hr => ⟨hr.fts, by simp [hr.ai], hr.ad, hr.au⟩⟩
    simp only [List.mem_cons, List.not_mem_nil, or_false, MemoryFile.triggers] at hold ⊢
    exact hold.imp_left some_false_of_getD
  · cases h
    refine ⟨hs.withTriggers fun hold => ?_, fun hr => ⟨hr.fts, hr.ai, by simp [hr.ad], hr.au⟩⟩
    simp only [List.mem_cons, List.not_mem_nil, or_false, MemoryFile.triggers] at hold ⊢
    exact hold.imp_right (Or.imp_left some_false_of_getD)
  · cases h
    refine ⟨hs.withTriggers fun hold => ?_, fun hr => ⟨hr.fts, hr.ai, hr.ad, by simp [hr.au]⟩⟩
    simp only [List.mem_cons, List.not_mem_nil, or_false, MemoryFile.triggers] at hold ⊢
    exact hold.imp_right (Or.imp_right some_false_of_getD)
  · exact ⟨(hs.migrateFtsDescription hclean h).1, (hs.migrateFtsDescription hclean h).2.1⟩
  · exact ⟨(hs.migrateFtsTokenizer hclean h).1,
      fun hr => ((hs.migrateFtsTokenizer hclean h).2 hr).toReady⟩
  · exact ⟨(hs.ensureFusionIndex h).1, (hs.ensureFusionIndex h).2.1⟩

/-- An opening that comes to its end. -/
theorem openedAs_execute {config : SqliteStoreConfig} (hs : file.Sound e isWhitespace)
    (h : execute (openStatements e isWhitespace config) file = (file', true)) :
    file'.OpenedAs (resolveFtsTokenizer isWhitespace config.ftsTokenizer) config.ftsFusion := by
  have hclean : ∀ t ∈ resolveFtsTokenizer isWhitespace config.ftsTokenizer, CleanSpec isWhitespace t :=
    fun t ht => cleanSpec_resolve ht
  have hmem : ∀ st ∈ openStatements e isWhitespace config, ∀ f f' : MemoryFile,
      f.Sound e isWhitespace → st f = some f' → f'.Sound e isWhitespace :=
    fun st hst f f' hf hst' => (sound_of_mem_openStatements hst hf hst').1
  simp only [openStatements, List.cons_append, List.nil_append] at h hmem
  obtain ⟨f₁, h₁, h⟩ := execute_cons_eq_true h
  obtain ⟨f₂, h₂, h⟩ := execute_cons_eq_true h
  obtain ⟨f₃, h₃, h⟩ := execute_cons_eq_true h
  obtain ⟨f₄, h₄, h⟩ := execute_cons_eq_true h
  obtain ⟨f₅, h₅, h⟩ := execute_cons_eq_true h
  obtain ⟨f₆, h₆, h⟩ := execute_cons_eq_true h
  have hs₁ := hmem _ (by simp) _ _ hs h₁
  have hs₂ := hmem _ (by simp) _ _ hs₁ h₂
  have hs₃ := hmem _ (by simp) _ _ hs₂ h₃
  have hs₄ := hmem _ (by simp) _ _ hs₃ h₄
  have htriggers : f₄.ai.isSome ∧ f₄.ad.isSome ∧ f₄.au.isSome := by
    cases h₂
    cases h₃
    cases h₄
    exact ⟨rfl, rfl, rfl⟩
  obtain ⟨hs₅, -, hready⟩ := hs₄.migrateFtsDescription hclean h₅
  obtain ⟨hs₆, hopened⟩ := hs₅.migrateFtsTokenizer hclean h₆
  have hdone := hopened (hready htriggers.1 htriggers.2.1 htriggers.2.2)
  cases hfusion : config.ftsFusion with
  | false =>
    rw [hfusion, if_neg Bool.false_ne_true] at h
    cases h
    exact hdone
  | true =>
    rw [hfusion, if_pos rfl] at h
    obtain ⟨f₇, h₇, h⟩ := execute_cons_eq_true h
    cases h
    exact (hs₆.ensureFusionIndex h₇).2.2 _ hdone

theorem sound_openWithConfig (hs : file.Sound e isWhitespace) (config : SqliteStoreConfig)
    (stopped : Option ℕ) :
    (openWithConfig e isWhitespace config stopped file).1.Sound e isWhitespace ∧
      (file.Ready → (openWithConfig e isWhitespace config stopped file).1.Ready) := by
  have hstep : ∀ st ∈ openStatements e isWhitespace config, ∀ f f' : MemoryFile,
      (f.Sound e isWhitespace ∧ (file.Ready → f.Ready)) → st f = some f' →
        f'.Sound e isWhitespace ∧ (file.Ready → f'.Ready) := fun st hst f f' hf hst' =>
    ⟨(sound_of_mem_openStatements hst hf.1 hst').1,
      fun hr => (sound_of_mem_openStatements hst hf.1 hst').2 (hf.2 hr)⟩
  unfold openWithConfig
  split
  · exact ⟨hs, id⟩
  · cases stopped with
    | none => exact execute_invariant hstep ⟨hs, id⟩
    | some n => exact execute_invariant (fun st hst => hstep st (List.mem_of_mem_take hst)) ⟨hs, id⟩

/-- When an opening for writing comes to its end. -/
theorem openedAs_openWithConfig {config : SqliteStoreConfig} (hs : file.Sound e isWhitespace)
    (hwrite : config.readOnly = false) {stopped : Option ℕ}
    (h : (openWithConfig e isWhitespace config stopped file).2 = true) :
    (openWithConfig e isWhitespace config stopped file).1.OpenedAs
      (resolveFtsTokenizer isWhitespace config.ftsTokenizer) config.ftsFusion := by
  unfold openWithConfig at h ⊢
  rw [hwrite] at h ⊢
  cases stopped with
  | none => exact openedAs_execute hs (Prod.ext rfl h)
  | some n => cases h

theorem createMemoriesAi_of_some {t : Bool} (h : file.ai = some t) :
    createMemoriesAi file = some file := by
  cases file
  cases h
  rfl

theorem createMemoriesAd_of_some {t : Bool} (h : file.ad = some t) :
    createMemoriesAd file = some file := by
  cases file
  cases h
  rfl

theorem createMemoriesAu_of_some {t : Bool} (h : file.au = some t) :
    createMemoriesAu file = some file := by
  cases file
  cases h
  rfl

/-- Where an opening finds what it would make, it makes nothing but the fusion index. -/
theorem eq_some_of_openedAs {config : SqliteStoreConfig} {fusion : Bool}
    {statement : MemoryFile → Option MemoryFile}
    (hmem : statement ∈ openStatements e isWhitespace config) (hs : file.Sound e isWhitespace)
    (ho : file.OpenedAs (resolveFtsTokenizer isWhitespace config.ftsTokenizer) fusion) :
    statement file = some file ∨
      config.ftsFusion = true ∧ file.raw = none ∧ statement = ensureFusionIndex e := by
  obtain ⟨i, hi, hdescribed⟩ := ho.fts
  rcases mem_openStatements hmem with rfl | rfl | rfl | rfl | rfl | rfl | ⟨hfusion, rfl⟩
  · exact Or.inl (if_pos (by rw [Option.mem_def.1 hi]; rfl))
  · exact Or.inl (createMemoriesAi_of_some ho.ai)
  · exact Or.inl (createMemoriesAd_of_some ho.ad)
  · exact Or.inl (createMemoriesAu_of_some ho.au)
  · exact Or.inl (if_pos (by simp [Option.mem_def.1 hi, FtsDdl.hasDescription_of_described hdescribed]))
  · have hclean : (resolveFtsTokenizer isWhitespace config.ftsTokenizer).map
        (fun t => String.ofList (trim isWhitespace t.toList)) =
          resolveFtsTokenizer isWhitespace config.ftsTokenizer := by
      cases htok : resolveFtsTokenizer isWhitespace config.ftsTokenizer with
      | none => rfl
      | some t => simp [(cleanSpec_resolve htok).trimmed]
    refine Or.inl ?_
    unfold migrateFtsTokenizer
    rw [Option.mem_def.1 hi]
    dsimp only
    rw [hclean, parseFtsTokenizeSpec_sql (hs.clean i hi), if_pos (ho.tokenizer i hi)]
  · cases hraw : file.raw with
    | some raw => exact Or.inl (if_pos (by rw [hraw]; rfl))
    | none => exact Or.inr ⟨hfusion, rfl, rfl⟩

theorem execute_of_forall {l : List (MemoryFile → Option MemoryFile)}
    (h : ∀ statement ∈ l, statement file = some file) : execute l file = (file, true) := by
  induction l with
  | nil => rfl
  | cons statement l ih =>
    rw [execute, h statement List.mem_cons_self]
    exact ih fun st hst => h st (List.mem_cons_of_mem _ hst)

/-- Opening once more. -/
theorem openWithConfig_of_openedAs {config : SqliteStoreConfig} (hs : file.Sound e isWhitespace)
    (ho : file.OpenedAs (resolveFtsTokenizer isWhitespace config.ftsTokenizer) config.ftsFusion) :
    openWithConfig e isWhitespace config none file = (file, true) := by
  unfold openWithConfig
  split
  · rfl
  · refine execute_of_forall fun st hst => (eq_some_of_openedAs hst hs ho).resolve_right ?_
    rintro ⟨hfusion, hraw, -⟩
    have hsome := ho.fusion hfusion
    rw [hraw] at hsome
    cases hsome

/-- An opening fails only for a tokenizer that FTS5 does not know. -/
theorem openWithConfig_of_known {config : SqliteStoreConfig}
    (hknown : e.known (resolveFtsTokenizer isWhitespace config.ftsTokenizer) = true)
    (file : MemoryFile) : (openWithConfig e isWhitespace config none file).2 = true := by
  have hrebuild : ∀ f,
      (ftsRebuildBatch e (resolveFtsTokenizer isWhitespace config.ftsTokenizer) f).isSome := fun f => by
    rw [MemoryFile.ftsRebuildBatch, if_pos hknown]
    rfl
  have hall : ∀ st ∈ openStatements e isWhitespace config, ∀ f, (st f).isSome := by
    intro st hst f
    rcases mem_openStatements hst with rfl | rfl | rfl | rfl | rfl | rfl | ⟨-, rfl⟩
    · unfold MemoryFile.createFts
      rw [if_pos hknown]
      split <;> rfl
    · rfl
    · rfl
    · rfl
    · unfold MemoryFile.migrateFtsDescription
      split
      · rfl
      · exact hrebuild f
    · unfold MemoryFile.migrateFtsTokenizer
      split
      · rfl
      · dsimp only
        split
        · rfl
        · exact hrebuild f
    · unfold MemoryFile.ensureFusionIndex
      split <;> rfl
  suffices hexecute : ∀ l : List (MemoryFile → Option MemoryFile), (∀ st ∈ l, ∀ f, (st f).isSome) →
      ∀ f, (execute l f).2 = true by
    unfold openWithConfig
    split
    · rfl
    · exact hexecute _ hall file
  intro l hl
  induction l with
  | nil => exact fun f => rfl
  | cons st l ih =>
    intro f
    obtain ⟨f', hf'⟩ := Option.isSome_iff_exists.1 (hl st List.mem_cons_self f)
    rw [execute, hf']
    exact ih (fun st hst => hl st (List.mem_cons_of_mem _ hst)) f'

/-- An opening that wants the same tokenizer, whether it comes to its end or not. -/
theorem openedAs_of_agrees {config : SqliteStoreConfig} {fusion : Bool}
    (hs : file.Sound e isWhitespace)
    (ho : file.OpenedAs (resolveFtsTokenizer isWhitespace config.ftsTokenizer) fusion)
    (stopped : Option ℕ) : (openWithConfig e isWhitespace config stopped file).1.OpenedAs
      (resolveFtsTokenizer isWhitespace config.ftsTokenizer) fusion := by
  have hstep : ∀ st ∈ openStatements e isWhitespace config, ∀ f f' : MemoryFile,
      (f.Sound e isWhitespace ∧
        f.OpenedAs (resolveFtsTokenizer isWhitespace config.ftsTokenizer) fusion) → st f = some f' →
      f'.Sound e isWhitespace ∧
        f'.OpenedAs (resolveFtsTokenizer isWhitespace config.ftsTokenizer) fusion := by
    intro st hst f f' hf hdone
    refine ⟨(sound_of_mem_openStatements hst hf.1 hdone).1, ?_⟩
    rcases eq_some_of_openedAs hst hf.1 hf.2 with hsame | ⟨-, hraw, rfl⟩
    · rw [hsame] at hdone
      cases hdone
      exact hf.2
    · have hnew := (hf.1.ensureFusionIndex hdone).2.2 _ ⟨hf.2.toReady, hf.2.tokenizer, nofun⟩
      exact ⟨hnew.toReady, hnew.tokenizer, fun _ => hnew.fusion rfl⟩
  unfold openWithConfig
  split
  · exact ho
  · cases stopped with
    | none => exact (execute_invariant hstep ⟨hs, ho⟩).2
    | some n => exact (execute_invariant (fun st hst => hstep st (List.mem_of_mem_take hst)) ⟨hs, ho⟩).2

/-! ### Changes -/

/-- What the triggers do for a file that is ready. -/
theorem Ready.fire (hr : file.Ready) {i : FtsIndex} (hi : i ∈ file.fts) (c : Change ℕ MemoryRow) :
    file.fire e c = some (some { i with
      entries := c.upkeep (e.memory i.ddl.tokenizer i.ddl.described) file.memories i.entries }) := by
  obtain ⟨i', hi', hdescribed⟩ := hr.fts
  rw [Option.mem_unique hi' hi] at hdescribed
  unfold MemoryFile.fire
  rw [hr.trigger c, Option.mem_def.1 hi]
  simp [hdescribed]

theorem sound_change {fusion : Bool} (hs : file.Sound e isWhitespace)
    (ho : file.OpenedAs tokenizer fusion) {c : Change ℕ MemoryRow}
    (h : change e file c = some file') :
    file'.Sound e isWhitespace ∧ file'.OpenedAs tokenizer fusion := by
  obtain ⟨i, hi, hdescribed⟩ := ho.fts
  obtain ⟨memories, happly, h⟩ := Option.bind_eq_some_iff.1 h
  split at h
  case isFalse => cases h
  case isTrue =>
    rw [ho.toReady.fire hi] at h
    cases h
    refine ⟨⟨?_, ?_, ?_, ?_, ?_, ?_⟩, ⟨⟨_, rfl, hdescribed⟩, ho.ai, ho.ad, ho.au⟩, ?_, ?_⟩
    · rintro i' ⟨⟩
      rw [hs.fts i hi]
      exact (Change.total_apply happly).symm
    · intro raw hraw
      obtain ⟨raw', hraw', rfl⟩ := Option.map_eq_some_iff.1 hraw
      rw [hs.raw raw' hraw']
      exact (Change.total_apply happly).symm
    · intro hnone
      cases hnone
    · rintro i' ⟨⟩
      exact hs.columns i hi
    · intro hold
      simp [MemoryFile.triggers, ho.ai, ho.ad, ho.au] at hold
    · rintro i' ⟨⟩
      exact hs.clean i hi
    · rintro i' ⟨⟩
      exact ho.tokenizer i hi
    · simpa using ho.fusion

theorem sound_commit {fusion : Bool} (hs : file.Sound e isWhitespace)
    (ho : file.OpenedAs tokenizer fusion) (changes : List (Change ℕ MemoryRow)) :
    ((changes.foldlM (change e) file).getD file).Sound e isWhitespace ∧
      ((changes.foldlM (change e) file).getD file).OpenedAs tokenizer fusion := by
  suffices hall : ∀ file' ∈ changes.foldlM (change e) file,
      file'.Sound e isWhitespace ∧ file'.OpenedAs tokenizer fusion by
    cases hdone : changes.foldlM (change e) file with
    | none => exact ⟨hs, ho⟩
    | some file' => exact hall file' hdone
  induction changes generalizing file with
  | nil =>
    rintro file' ⟨⟩
    exact ⟨hs, ho⟩
  | cons c changes ih =>
    intro file' h
    obtain ⟨next, hchange, hrest⟩ := Option.bind_eq_some_iff.1 (show _ = some file' from h)
    obtain ⟨hs', ho'⟩ := sound_change hs ho hchange
    exact ih hs' ho' file' hrest

end MemoryFile

/-! ## Runs of a file -/

section Run

variable {e : Fts5} {isWhitespace : Char → Bool}

/-- What is open for writing is ready to be written. -/
structure FileState.Sound (e : Fts5) (isWhitespace : Char → Bool) (s : FileState) : Prop where
  file : s.file.Sound e isWhitespace
  ready : s.writable = true → s.file.Ready

namespace FileCall

theorem sound_step {s : FileState} {c : FileCall} (hs : s.Sound e isWhitespace)
    (hkeeps : c.KeepsRowids s) : (c.step e isWhitespace s).Sound e isWhitespace := by
  cases c with
  | openWithConfig config stopped =>
    obtain ⟨hsound, hready⟩ := MemoryFile.sound_openWithConfig hs.file config stopped
    refine ⟨hsound, fun hwritable => ?_⟩
    rcases Bool.or_eq_true_iff.1 hwritable with hwas | hnow
    · exact hready (hs.ready hwas)
    · rw [Bool.and_eq_true, Bool.not_eq_true'] at hnow
      exact (MemoryFile.openedAs_openWithConfig hs.file hnow.2 hnow.1).toReady
  | commit changes =>
    unfold step
    dsimp only
    split
    case isFalse => exact hs
    case isTrue hwritable =>
      obtain ⟨tokenizer, ho⟩ := (hs.ready hwritable).openedAs
      obtain ⟨hsound, hopened⟩ := MemoryFile.sound_commit hs.file ho changes
      exact ⟨hsound, fun _ => hopened.toReady⟩
  | vacuum rowids =>
    unfold step
    dsimp only
    rw [Numbered.renumber_eq_self hkeeps]
    split <;> exact hs

/-- A call that leaves the tokenizer: its opening, if it is one, is read-only or wants the same. -/
def Agrees (isWhitespace : Char → Bool) (config : SqliteStoreConfig) : FileCall → Prop
  | .openWithConfig config' _ => config'.readOnly = true ∨
      resolveFtsTokenizer isWhitespace config'.ftsTokenizer =
        resolveFtsTokenizer isWhitespace config.ftsTokenizer
  | _ => True

theorem openedAs_step {s : FileState} {c : FileCall} {config : SqliteStoreConfig}
    (hs : s.file.Sound e isWhitespace)
    (ho : s.file.OpenedAs (resolveFtsTokenizer isWhitespace config.ftsTokenizer) config.ftsFusion)
    (hkeeps : c.KeepsRowids s) (hagrees : c.Agrees isWhitespace config) :
    (c.step e isWhitespace s).file.OpenedAs
      (resolveFtsTokenizer isWhitespace config.ftsTokenizer) config.ftsFusion := by
  cases c with
  | openWithConfig config' stopped =>
    rcases hagrees with hread | hsame
    · have hopen : s.file.openWithConfig e isWhitespace config' stopped = (s.file, true) := if_pos hread
      change (s.file.openWithConfig e isWhitespace config' stopped).1.OpenedAs _ _
      rw [hopen]
      exact ho
    · rw [← hsame] at ho ⊢
      exact MemoryFile.openedAs_of_agrees hs ho stopped
  | commit changes =>
    unfold step
    dsimp only
    split
    · exact (MemoryFile.sound_commit hs ho changes).2
    · exact ho
  | vacuum rowids =>
    unfold step
    dsimp only
    rw [Numbered.renumber_eq_self hkeeps]
    split <;> exact ho

theorem sound_run {s : FileState} {calls : List FileCall} (hs : s.Sound e isWhitespace)
    (hkeeps : AllSteps (step e isWhitespace) (fun s c => c.KeepsRowids s) s calls) :
    (run (step e isWhitespace) s calls).Sound e isWhitespace :=
  run_invariant_of_allSteps (fun _ _ => sound_step) hs hkeeps

theorem openedAs_run {s : FileState} {calls : List FileCall} {config : SqliteStoreConfig}
    (hs : s.Sound e isWhitespace)
    (ho : s.file.OpenedAs (resolveFtsTokenizer isWhitespace config.ftsTokenizer) config.ftsFusion)
    (hkeeps : AllSteps (step e isWhitespace) (fun s c => c.KeepsRowids s) s calls)
    (hagrees : ∀ c ∈ calls, c.Agrees isWhitespace config) :
    (run (step e isWhitespace) s calls).file.OpenedAs
      (resolveFtsTokenizer isWhitespace config.ftsTokenizer) config.ftsFusion := by
  induction calls generalizing s with
  | nil => exact ho
  | cons c calls ih =>
    obtain ⟨hkeep, hrest⟩ := hkeeps
    exact ih (sound_step hs hkeep) (openedAs_step hs.file ho hkeep (hagrees c List.mem_cons_self)) hrest
      fun c hc => hagrees c (List.mem_cons_of_mem _ hc)

end FileCall

theorem FileState.sound_of_file {file : MemoryFile} (h : file.Sound e isWhitespace) :
    ({ file } : FileState).Sound e isWhitespace :=
  ⟨h, fun hw => absurd hw Bool.false_ne_true⟩

/-- **Both indexes, after any run.**  They hold what the rows give and nothing else, whatever openings
stopped half way; where there is no index yet there is no row, and what is open for writing has an
index over all three columns. -/
theorem full_text_exact (file : MemoryFile) (hfile : file.Sound e isWhitespace) (calls : List FileCall)
    (hkeeps : AllSteps (FileCall.step e isWhitespace) (fun s c => c.KeepsRowids s) { file } calls) :
    let s := run (FileCall.step e isWhitespace) { file } calls
    (∀ i ∈ s.file.fts,
        i.entries = s.file.memories.total (e.memory i.ddl.tokenizer i.ddl.described)) ∧
      (∀ raw ∈ s.file.raw, raw = s.file.memories.total e.rawMemory) ∧
      (s.file.fts = none → s.file.memories.rows = []) ∧
      (s.writable = true → ∃ i ∈ s.file.fts, i.ddl.described = true) := by
  intro s
  have hs := FileCall.sound_run (FileState.sound_of_file hfile) hkeeps
  exact ⟨hs.file.fts, hs.file.raw, hs.file.unindexed, fun hw => (hs.ready hw).fts⟩

/-- One word a text, and the tokenizers that come with SQLite. -/
def wordFts : Fts5 where
  terms _ text := if text = "" then [] else [text]
  known tokenizer :=
    tokenizer == none || tokenizer == some "unicode61" || tokenizer == some "porter unicode61"

/-- A memory of one word. -/
def wordRow (word : String) : MemoryRow :=
  { id := word, key := word, content := word, createdAt := "", updatedAt := "" }

/-- A row from before there was a description. -/
def oldRows : Numbered ℕ MemoryRow :=
  ((Change.insert 1 (wordRow "cat")).apply .empty).getD .empty

/-- A file from before there was a description. -/
def oldFile : MemoryFile where
  memories := oldRows
  fts := some { ddl := ⟨false, none, 12⟩, entries := oldRows.total (wordFts.memory none false) }
  ai := some false
  ad := some false
  au := some false

theorem sound_oldFile (isWhitespace : Char → Bool) : oldFile.Sound wordFts isWhitespace where
  fts := by
    rintro i ⟨⟩
    rfl
  raw := nofun
  unindexed := nofun
  columns := by
    rintro i ⟨⟩ -
    exact FtsDdl.hasDescription_of_not_described rfl rfl
  triggers _ := ⟨_, rfl, rfl⟩
  clean := by
    rintro i ⟨⟩ t ht
    cases ht

/-- Two rows come, one of them in the place of the old one, and the file is written anew. -/
def oldFileChanges : List FileCall :=
  [.commit [.insert 2 (wordRow "dog"), .update 1 { wordRow "cat" with description := some "pet" },
    .delete 2], .vacuum (.refl ℕ)]

theorem full_text_exact_oldFile :
    let s := run (FileCall.step wordFts Char.isWhitespace) { file := oldFile }
      (.openWithConfig {} (some 3) :: .openWithConfig {} none :: oldFileChanges)
    (∀ i ∈ s.file.fts,
        i.entries = s.file.memories.total (wordFts.memory i.ddl.tokenizer i.ddl.described)) ∧
      (∀ raw ∈ s.file.raw, raw = s.file.memories.total wordFts.rawMemory) ∧
      (s.file.fts = none → s.file.memories.rows = []) ∧
      (s.writable = true → ∃ i ∈ s.file.fts, i.ddl.described = true) :=
  full_text_exact oldFile (sound_oldFile _) _
    ⟨trivial, trivial, trivial, fun _ _ => rfl, trivial⟩

/-- **Once a file has been opened**, it is as the configuration asks for, as long as whoever opens it
besides wants the same tokenizer: the index is under that tokenizer, the second index is there when
it was asked for, and opening the file once more changes nothing. -/
theorem full_text_opened (file : MemoryFile) (hfile : file.Sound e isWhitespace)
    (before after : List FileCall) (config : SqliteStoreConfig) (stopped : Option ℕ)
    (hkeeps : AllSteps (FileCall.step e isWhitespace) (fun s c => c.KeepsRowids s) { file }
      (before ++ .openWithConfig config stopped :: after))
    (hwrite : config.readOnly = false)
    (hopens : ((run (FileCall.step e isWhitespace) { file } before).file.openWithConfig e isWhitespace
      config stopped).2 = true)
    (hagrees : ∀ c ∈ after, c.Agrees isWhitespace config) :
    let s := run (FileCall.step e isWhitespace) { file }
      (before ++ .openWithConfig config stopped :: after)
    let tokenizer := resolveFtsTokenizer isWhitespace config.ftsTokenizer
    (∃ i ∈ s.file.fts, i.ddl.described = true ∧ i.ddl.tokenizer = tokenizer ∧
        i.entries = s.file.memories.total (e.memory tokenizer true)) ∧
      (config.ftsFusion = true → s.file.raw = some (s.file.memories.total e.rawMemory)) ∧
      s.file.openWithConfig e isWhitespace config none = (s.file, true) := by
  intro s tokenizer
  obtain ⟨hbefore, hopening, hafter⟩ := (allSteps_append _ _ _ _ _).1 hkeeps
  have hs₁ := FileCall.sound_run (FileState.sound_of_file hfile) hbefore
  have hs₂ := FileCall.sound_step hs₁ hopening
  have ho := FileCall.openedAs_run hs₂ (MemoryFile.openedAs_openWithConfig hs₁.file hwrite hopens)
    hafter hagrees
  have hs₃ := FileCall.sound_run hs₂ hafter
  rw [← run_cons, ← run_append] at ho hs₃
  obtain ⟨i, hi, hdescribed⟩ := ho.fts
  refine ⟨⟨i, hi, hdescribed, ho.tokenizer i hi, ?_⟩, fun hfusion => ?_, ?_⟩
  · rw [hs₃.file.fts i hi, ho.tokenizer i hi, hdescribed]
  · obtain ⟨raw, hraw⟩ := Option.isSome_iff_exists.1 (ho.fusion hfusion)
    rw [hs₃.file.raw raw hraw] at hraw
    exact hraw
  · exact MemoryFile.openWithConfig_of_openedAs hs₃.file ho

theorem full_text_opened_oldFile :
    let s := run (FileCall.step wordFts Char.isWhitespace) { file := oldFile }
      ([.openWithConfig {} (some 3)] ++ .openWithConfig { ftsFusion := true } none :: oldFileChanges)
    let tokenizer := resolveFtsTokenizer Char.isWhitespace none
    (∃ i ∈ s.file.fts, i.ddl.described = true ∧ i.ddl.tokenizer = tokenizer ∧
        i.entries = s.file.memories.total (wordFts.memory tokenizer true)) ∧
      (true = true → s.file.raw = some (s.file.memories.total wordFts.rawMemory)) ∧
      s.file.openWithConfig wordFts Char.isWhitespace { ftsFusion := true } none = (s.file, true) :=
  full_text_opened oldFile (sound_oldFile _) [.openWithConfig {} (some 3)] oldFileChanges
    { ftsFusion := true } none ⟨trivial, trivial, trivial, fun _ _ => rfl, trivial⟩ rfl
    (MemoryFile.openWithConfig_of_known (by decide +kernel) _)
    (by simp [oldFileChanges, FileCall.Agrees])

end Run

end Spectral
