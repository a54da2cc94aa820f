import Spectral.Brain.Enrolment
import Spectral.Brain.Keys
import Spectral.Brain.Repair
import Spectral.Recall.Backfill
import Spectral.Recall.Composition

/-!
# The density that is stored

A memory keeps the declarative density of its text, so that a recall does not compute it again.
`remember_with` stores that of the text it is given, and the pipeline stores that text without its
context prefixes; `ingest_activity` replaces the text under a key, and the density stays.  The
backfill and the repair compute it from what is stored.

* `DensityAgrees` — what is stored is what would be computed; `densityOf_stored_iff` says that this
  is so exactly if the ranking cannot tell the two apart.
* `KeepsDensity` — the calls that keep it: what the text loses or becomes has the same density.
* `density_agrees_iff` — the runs in which nothing fails and the densities agree throughout are
  those of such calls.
* `drifted_note` — a note in the first person that becomes an activity.
-/

namespace Spectral

open Spectral.Lib

/-! ## Texts and their densities -/

namespace Store

section

variable (u : CharTables) (s : Store)

/-- What is stored as the density of a text is its density. -/
def DensityAgrees : Prop :=
  ∀ r ∈ s.memories.rows, ∀ d ∈ r.declarativeDensity, d = declarativeDensity u r.content.toList

instance densityAgreesDecidable : Decidable (s.DensityAgrees u) :=
  inferInstanceAs (Decidable (∀ r ∈ s.memories.rows, ∀ d ∈ r.declarativeDensity, _))

/-- The texts, each with the density that is stored of it. -/
def densities : List (String × Option ℚ) :=
  s.memories.rows.map fun r => (r.content, r.declarativeDensity)

/-- A store whose rows are those of another one, each with the density it had or that of its
text. -/
structure FillsDensity (s' : Store) : Prop where
  kept : s.Kept s'
  rows : ∀ r' ∈ s'.memories, ∃ r ∈ s.memories, r'.id = r.id ∧ r'.content = r.content ∧
    (r'.declarativeDensity = r.declarativeDensity ∨
      r'.declarativeDensity = some (declarativeDensity u r.content.toList))

end

variable {u : CharTables} {s s' s'' : Store}

/-- **The ranking** cannot tell a stored density from one it computes exactly if they agree. -/
theorem densityOf_stored_iff {env : Ranking.Env} :
    (∀ r ∈ s.memories.rows, ∀ hits, Ranking.densityOf env (memoryHitFromRow hits r) =
      Ranking.densityOf env { memoryHitFromRow hits r with declarativeDensity := none }) ↔
      s.DensityAgrees env.tables := by
  refine forall₂_congr fun r _ => ?_
  cases hd : r.declarativeDensity with
  | none => simp [Ranking.densityOf, memoryHitFromRow, hd]
  | some d => simp [Ranking.densityOf, memoryHitFromRow, hd]

theorem densityAgrees_congr (h : s'.densities = s.densities) :
    s'.DensityAgrees u ↔ s.DensityAgrees u := by
  have hlist : ∀ t : Store, t.DensityAgrees u ↔
      ∀ p ∈ t.densities, ∀ d ∈ p.2, d = declarativeDensity u p.1.toList := by
    intro t
    unfold densities
    rw [List.forall_mem_map]
    rfl
  rw [hlist, hlist, h]

/-- An update of other columns. -/
theorem densities_updateMemories {p : MemoryRow → Bool} {g : MemoryRow → MemoryRow}
    (hg : ∀ r, (g r).id = r.id ∧ (g r).key = r.key)
    (h : ∀ r, (g r).content = r.content ∧ (g r).declarativeDensity = r.declarativeDensity) :
    (s.updateMemories p g hg).densities = s.densities := by
  unfold densities updateMemories Table.update
  dsimp only
  rw [List.map_map]
  refine List.map_congr_left fun r _ => ?_
  rw [Function.comp_apply]
  split
  · rw [(h r).1, (h r).2]
  · rfl

/-! ### Densities that are filled in -/

theorem FillsDensity.refl : s.FillsDensity u s := ⟨.refl, fun r hr => ⟨r, hr, rfl, rfl, Or.inl rfl⟩⟩

theorem FillsDensity.trans (h : s.FillsDensity u s') (h' : s'.FillsDensity u s'') :
    s.FillsDensity u s'' where
  kept := h.kept.trans h'.kept
  rows r hr := by
    obtain ⟨r', hr', hid', hcontent', hdensity'⟩ := h'.rows r hr
    obtain ⟨r'', hr'', hid, hcontent, hdensity⟩ := h.rows r' hr'
    refine ⟨r'', hr'', hid'.trans hid, hcontent'.trans hcontent, ?_⟩
    rcases hdensity' with hsame | hfilled
    · rw [hsame]
      exact hdensity
    · rw [hfilled, hcontent]
      exact Or.inr rfl

/-- **What is filled in agrees.** -/
theorem FillsDensity.densityAgrees (h : s.FillsDensity u s') (hs : s.DensityAgrees u) :
    s'.DensityAgrees u := by
  intro r' hr' d hd
  obtain ⟨r, hr, -, hcontent, hdensity⟩ := h.rows r' hr'
  rw [hcontent]
  rcases hdensity with hsame | hfilled
  · rw [hsame] at hd
    exact hs r hr d hd
  · rw [hfilled] at hd
    exact (Option.some.inj hd).symm

/-- An update of other columns fills nothing in. -/
theorem fillsDensity_updateMemories {p : MemoryRow → Bool} {g : MemoryRow → MemoryRow}
    (hg : ∀ r, (g r).id = r.id ∧ (g r).key = r.key)
    (h : ∀ r, (g r).content = r.content ∧ (g r).declarativeDensity = r.declarativeDensity) :
    s.FillsDensity u (s.updateMemories p g hg) where
  kept := kept_updateMemories hg
  rows r' hr' := by
    obtain ⟨r, hr, rfl⟩ := mem_memories_updateMemories.1 hr'
    refine ⟨r, hr, ?_⟩
    split
    · exact ⟨(hg r).1, (h r).1, Or.inl (h r).2⟩
    · exact ⟨rfl, rfl, Or.inl rfl⟩

/-- The density of a text, for the memory that has it. -/
theorem fillsDensity_setDeclarativeDensity {id content : String}
    (h : ∀ r ∈ s.memories, r.id = id → r.content = content) :
    s.FillsDensity u (s.setDeclarativeDensity id (declarativeDensity u content.toList)) where
  kept := kept_updateMemories _
  rows r' hr' := by
    obtain ⟨r, hr, rfl⟩ := mem_memories_setDeclarativeDensity.1 hr'
    refine ⟨r, hr, ?_⟩
    split
    · rename_i hid
      exact ⟨rfl, rfl, Or.inr (by rw [h r hr hid])⟩
    · exact ⟨rfl, rfl, Or.inl rfl⟩

/-- A density for the memory with some id, where the others agree. -/
theorem densityAgrees_setDeclarativeDensity_iff {row : MemoryRow} {density : ℚ}
    (hrow : row ∈ s.memories)
    (h : ∀ r ∈ s.memories, r.id ≠ row.id → ∀ d ∈ r.declarativeDensity,
      d = declarativeDensity u r.content.toList) :
    (s.setDeclarativeDensity row.id density).DensityAgrees u ↔
      density = declarativeDensity u row.content.toList := by
  constructor
  · intro hs'
    refine hs' { row with declarativeDensity := some density }
      (mem_memories_setDeclarativeDensity.2 ⟨row, hrow, if_pos rfl⟩) density rfl
  · intro hdensity r' hr' d hd
    obtain ⟨r, hr, rfl⟩ := mem_memories_setDeclarativeDensity.1 hr'
    by_cases hid : r.id = row.id
    · obtain rfl : r = row := eq_of_id hr hrow hid
      rw [if_pos rfl] at hd ⊢
      exact (Option.some.inj hd).symm.trans hdensity
    · rw [if_neg hid] at hd ⊢
      exact h r hr hid d hd

theorem fillsDensity_densify {ids : List String} : s.FillsDensity u (s.densify u ids) where
  kept := by
    refine kept_updateMemories fun r => ?_
    exact ⟨rfl, rfl⟩
  rows r' hr' := by
    obtain ⟨r, hr, rfl⟩ := mem_memories_updateMemories.1 hr'
    refine ⟨r, hr, ?_⟩
    split
    · exact ⟨rfl, rfl, Or.inr rfl⟩
    · exact ⟨rfl, rfl, Or.inl rfl⟩

end Store

/-! ## The operations -/

/-- The brain whose densities are those the ranking computes. -/
def BrainSetup.withDensity (S : BrainSetup) (u : CharTables) : BrainSetup :=
  { S with declarativeDensity := fun content => Spectral.declarativeDensity u content.toList }

/-- What a memory is after a text has come in under a key, as far as the text goes. -/
def Env.retext (env : Env) (key content : String) (r : MemoryRow) : MemoryRow :=
  if r.key = key ∧ env.effectiveHash r ≠ env.contentHash content then
    { r with content, contentHash := some (env.contentHash content) }
  else r

/-- Two rows with one text, one hash and one density. -/
structure Env.SameText (env : Env) (r r' : MemoryRow) : Prop where
  key : r'.key = r.key
  content : r'.content = r.content
  hash : env.effectiveHash r' = env.effectiveHash r
  density : r'.declarativeDensity = r.declarativeDensity

namespace BrainState

variable {L : WingCache}

section

variable (S : BrainSetup) (A : ActivitySetup) (now : String)

/-- One memory of the backfill. -/
def fillDensity (b : BrainState L) (m : MemoryRow) : BrainState L :=
  b.applyStore S ⟨.setDeclarativeDensity m.id (S.declarativeDensity m.content), now⟩

/-- The loop of `backfill_declarative_density`; `none` if the fuel does not suffice. -/
def backfillRounds : ℕ → BrainState L → ℕ → Option (BrainState L × ℕ)
  | 0, _, _ => none
  | fuel + 1, b, total =>
    let batch := (b.cached.store.listMemoriesBySignal 0 200).filter fun m =>
      m.declarativeDensity = none
    if batch = [] then some (b, total)
    else
      let b := batch.foldl (fillDensity S now) b
      if batch.length < 200 then some (b, total + batch.length)
      else backfillRounds fuel b (total + batch.length)

/-- `backfill_declarative_density`; it takes two rounds at most. -/
def backfillDeclarativeDensity (b : BrainState L) : Option (BrainState L × ℕ) :=
  b.backfillRounds S now 2 0

/-- What a memory says when the activities have come in. -/
def textAfterActivity (episodes : List ActivityEpisode) (r : MemoryRow) : String :=
  ((episodes.filterMap A.redact).foldl (fun r e => S.env.retext e.id e.toContent r) r).content

end

variable {S : BrainSetup} {A : ActivitySetup} {u : CharTables} {now since : String}
  {faults : RecognitionFaults} {b b' : BrainState L}

/-! ### The backfill and the repair -/

/-- The rounds at the store. -/
theorem store_backfillRounds (fuel total : ℕ) (b : BrainState L) :
    (b.backfillRounds (S.withDensity u) now fuel total).map (fun p => (p.1.cached.store, p.2)) =
      b.cached.store.backfillLoop u fuel total := by
  have hfold : ∀ (batch : List MemoryRow) (b : BrainState L),
      (batch.foldl (fillDensity (S.withDensity u) now) b).cached.store =
        batch.foldl (Store.fillDensity u) b.cached.store := by
    intro batch
    induction batch with
    | nil => exact fun b => rfl
    | cons m batch ih => exact fun b => ih _
  induction fuel generalizing total b with
  | zero => rfl
  | succ fuel ih =>
    unfold backfillRounds Store.backfillLoop
    dsimp only
    split
    · rfl
    · split
      · rw [Option.map_some, hfold]
      · rw [ih, hfold]

/-- **The backfill** returns, and fills densities in. -/
theorem fillsDensity_backfill :
    ∃ b' n, b.backfillDeclarativeDensity (S.withDensity u) now = some (b', n) ∧
      b.cached.store.FillsDensity u b'.cached.store := by
  have hstore := @store_backfillRounds L S u now 2 0 b
  rw [Store.backfillLoop_eq u b.cached.store 0, Option.map_eq_some_iff] at hstore
  obtain ⟨⟨b', n⟩, hrounds, hdensify⟩ := hstore
  refine ⟨b', n, hrounds, ?_⟩
  have hstore : b'.cached.store = _ := (Prod.ext_iff.1 hdensify).1
  rw [hstore]
  exact Store.fillsDensity_densify

theorem fillsDensity_signAs {memoryId : String} {fields : SignedFields} :
    b.cached.store.FillsDensity u (b.signAs S now memoryId fields).cached.store := by
  rw [store_signAs]
  refine Store.fillsDensity_updateMemories (fun r => ?_) fun r => ?_ <;> exact ⟨rfl, rfl⟩

/-- **One memory** of the walk: its text is that of the row with its id. -/
theorem fillsDensity_repairOne {report : DerivationRepairReport} {memory : MemoryRow}
    (h : ∀ r ∈ b.cached.store.memories, r.id = memory.id → r.content = memory.content) :
    b.cached.store.FillsDensity u
      (b.repairOne (S.withDensity u) now faults report memory).1.cached.store := by
  have hdense : b.cached.store.FillsDensity u
      (b.repairDensity (S.withDensity u) now report memory).1.cached.store := by
    unfold repairDensity
    split
    · exact Store.fillsDensity_setDeclarativeDensity h
    · exact .refl
  have hsigned : ∀ (dense : BrainState L) (report : DerivationRepairReport),
      dense.cached.store.FillsDensity u
        (dense.repairSignature (S.withDensity u) now report memory).1.cached.store := by
    intro dense report
    unfold repairSignature
    split
    · exact fillsDensity_signAs
    · exact .refl
  unfold repairOne
  dsimp only
  split <;> exact hdense.trans (hsigned _ _)

theorem fillsDensity_repairWalk {report : DerivationRepairReport} {memories : List MemoryRow}
    (h : ∀ m ∈ memories, ∀ r ∈ b.cached.store.memories, r.id = m.id → r.content = m.content) :
    b.cached.store.FillsDensity u
      (b.repairWalk (S.withDensity u) now faults report memories).1.cached.store := by
  induction memories generalizing b report with
  | nil => exact .refl
  | cons memory memories ih =>
    have hone := @fillsDensity_repairOne L S u now faults b report memory
      (h memory List.mem_cons_self)
    unfold repairWalk
    split
    · rename_i b' report' hrepaired
      rw [hrepaired] at hone
      refine hone.trans (ih fun m hm r' hr' hid' => ?_)
      -- the walk changes no text, so the memories it was given still have theirs
      obtain ⟨r, hr, hid, hcontent, -⟩ := hone.rows r' hr'
      rw [hcontent]
      exact h m (List.mem_cons_of_mem _ hm) r hr (hid.symm.trans hid')
    · rename_i b' e hrepaired
      rw [hrepaired] at hone
      exact hone

/-- **The repair** fills densities in. -/
theorem fillsDensity_repairDerivations {limit : ℕ} :
    b.cached.store.FillsDensity u
      (b.repairDerivations (S.withDensity u) now faults limit).1.cached.store := by
  have hhashed : b.cached.store.FillsDensity u
      (b.applyStore (S.withDensity u) ⟨.backfillContentHashes, now⟩).cached.store := by
    refine Store.fillsDensity_updateMemories (fun r => ?_) fun r => ?_ <;> exact ⟨rfl, rfl⟩
  have hwalk := fun report => hhashed.trans
    (@fillsDensity_repairWalk L S u now faults
      (b.applyStore (S.withDensity u) ⟨.backfillContentHashes, now⟩) report
      (b.repairScan (S.withDensity u) now limit) fun m hm r hr hid => by
        rw [Store.eq_of_id hr (Store.mem_of_mem_listMemoriesBySignal hm) hid])
  unfold repairDerivations
  dsimp only
  have hrepaired := hwalk
    { scanned := (b.repairScan (S.withDensity u) now limit).length
      contentHashesRepaired := b.cached.store.memories.countWhere fun r => r.contentHash = none }
  split
  · rename_i b' e hwalked
    rw [hwalked] at hrepaired
    exact hrepaired
  · rename_i b' report hwalked
    rw [hwalked] at hrepaired
    split
    · rw [store_pruneOrphans]
      exact hrepaired
    · exact hrepaired

end BrainState

/-! ### The text under a key -/

namespace Env

variable {env : Env} {now key content : String} {s s' : Store} {memory : Memory}

theorem SameText.refl (r : MemoryRow) : env.SameText r r := ⟨rfl, rfl, rfl, rfl⟩

theorem density_retext (r : MemoryRow) :
    (env.retext key content r).declarativeDensity = r.declarativeDensity := by
  unfold retext
  split <;> rfl

theorem retext_of_key_ne {r : MemoryRow} (h : r.key ≠ key) : env.retext key content r = r :=
  if_neg fun hboth => h hboth.1

/-- What comes in makes the same of rows with the same text. -/
theorem SameText.retext {r r' : MemoryRow} (h : env.SameText r r') :
    env.SameText (env.retext key content r) (env.retext key content r') := by
  have hboth : (r'.key = key ∧ env.effectiveHash r' ≠ env.contentHash content) ↔
      r.key = key ∧ env.effectiveHash r ≠ env.contentHash content := by rw [h.key, h.hash]
  unfold Env.retext
  by_cases hnew : r.key = key ∧ env.effectiveHash r ≠ env.contentHash content
  · rw [if_pos hnew, if_pos (hboth.2 hnew)]
    exact ⟨h.key, rfl, rfl, h.density⟩
  · rw [if_neg hnew, if_neg fun hnew' => hnew (hboth.1 hnew')]
    exact h

/-- **The row that is written** has the text that comes in, or keeps its own. -/
theorem sameText_writtenRow {r : MemoryRow} (hk : s.memoryByKey memory.key = some r) :
    env.SameText (env.retext memory.key memory.content r) (env.writtenRow now s memory) := by
  have hkey := (Store.memoryByKey_eq_some.1 hk).2
  unfold writtenRow Env.retext
  rw [hk]
  dsimp only
  by_cases hsame : env.effectiveHash r = env.contentHash memory.content
  · rw [if_pos hsame, if_neg fun h => h.2 hsame]
    refine ⟨rfl, rfl, ?_, rfl⟩
    -- a hash that was missing is now what it was taken to be
    unfold effectiveHash at hsame ⊢
    cases hc : r.contentHash with
    | none =>
      rw [hc, Option.getD_none] at hsame
      simp [hsame]
    | some c => rfl
  · rw [if_neg hsame, if_pos ⟨hkey, hsame⟩]
    exact ⟨rfl, rfl, rfl, rfl⟩

/-- **One write** of a memory without density: a row has the text that comes in, or is new and has no
density. -/
theorem Written.retexted (h : env.Written now memory s s')
    (hdensity : memory.declarativeDensity = none) :
    (∀ r ∈ s.memories, ∃ r' ∈ s'.memories,
        env.SameText (env.retext memory.key memory.content r) r') ∧
      ∀ r' ∈ s'.memories, r'.declarativeDensity = none ∨ ∃ r ∈ s.memories,
        env.SameText (env.retext memory.key memory.content r) r' := by
  constructor
  · intro r hr
    by_cases hkey : r.key = memory.key
    · exact ⟨_, (h.mem_memories _).2 (Or.inr rfl),
        sameText_writtenRow (Store.memoryByKey_eq_some.2 ⟨hr, hkey⟩)⟩
    · refine ⟨r, (h.mem_memories r).2 (Or.inl ⟨hr, hkey⟩), ?_⟩
      rw [retext_of_key_ne hkey]
      exact .refl r
  · intro r' hr'
    rcases (h.mem_memories r').1 hr' with ⟨hr, hkey⟩ | rfl
    · refine Or.inr ⟨r', hr, ?_⟩
      rw [retext_of_key_ne hkey]
      exact .refl r'
    · cases hk : s.memoryByKey memory.key with
      | none =>
        left
        unfold writtenRow
        rw [hk]
        exact hdensity
      | some r => exact Or.inr ⟨r, (Store.memoryByKey_eq_some.1 hk).1, sameText_writtenRow hk⟩

end Env

namespace BrainState

variable {L : WingCache} {S : BrainSetup} {A : ActivitySetup} {u : CharTables} {now since : String}
  {faults : RecognitionFaults} {b b' : BrainState L}

/-- Rows with the same text come to the same text. -/
theorem textAfterActivity_congr {episodes : List ActivityEpisode} {r r' : MemoryRow}
    (h : S.env.SameText r r') :
    textAfterActivity S A episodes r' = textAfterActivity S A episodes r := by
  have hfold : ∀ (written : List ActivityEpisode) (r r' : MemoryRow), S.env.SameText r r' →
      S.env.SameText (written.foldl (fun r e => S.env.retext e.id e.toContent r) r)
        (written.foldl (fun r e => S.env.retext e.id e.toContent r) r') := by
    intro written
    induction written with
    | nil => exact fun r r' h => h
    | cons e written ih => exact fun r r' h => ih _ _ h.retext
  exact (hfold _ r r' h).content

/-- **Activity** keeps the densities; they agree afterwards exactly if what the rows come to say has
the density they have. -/
theorem densityAgrees_ingestEpisodes {episodes : List ActivityEpisode} {stats : IngestActivityStats}
    (hok : (ingestEpisodes S A now episodes b stats).2.toOption.isSome = true) :
    (ingestEpisodes S A now episodes b stats).1.cached.store.DensityAgrees u ↔
      ∀ r ∈ b.cached.store.memories.rows, ∀ d ∈ r.declarativeDensity,
        d = declarativeDensity u (textAfterActivity S A episodes r).toList := by
  induction episodes generalizing b stats with
  | nil => exact Iff.rfl
  | cons episode episodes ih =>
    unfold ingestEpisodes at hok ⊢
    cases hredact : A.redact episode with
    | none =>
      rw [hredact] at hok
      refine (ih hok).trans ?_
      unfold textAfterActivity
      rw [List.filterMap_cons_none hredact]
    | some redacted =>
      rw [hredact] at hok
      dsimp only at hok ⊢
      cases hwrite : S.env.writeMemoryInTx now b.cached.store (A.memory S.env redacted) [] with
      | error e =>
        rw [hwrite] at hok
        cases hok
      | ok p =>
        obtain ⟨s', outcome⟩ := p
        rw [hwrite] at hok
        have hstore : (b.applyStore S ⟨.write (A.memory S.env redacted) [], now⟩).cached.store =
            s' := by
          unfold applyStore CachedStore.apply
          dsimp only
          rw [hwrite]
          rfl
        have hstep : ∀ r, textAfterActivity S A (episode :: episodes) r =
            textAfterActivity S A episodes (S.env.retext (A.memory S.env redacted).key
              (A.memory S.env redacted).content r) := by
          intro r
          unfold textAfterActivity
          rw [List.filterMap_cons_some hredact, List.foldl_cons]
          rfl
        obtain ⟨hforward, hback⟩ := (Env.written_of_writeMemoryInTx hwrite).retexted rfl
        refine (ih hok).trans ?_
        rw [hstore]
        simp only [hstep]
        constructor
        · intro h r hr d hd
          obtain ⟨r', hr', hsame⟩ := hforward r hr
          rw [← textAfterActivity_congr hsame]
          refine h r' hr' d ?_
          rwa [hsame.density, Env.density_retext]
        · intro h r' hr' d hd
          rcases hback r' hr' with hnone | ⟨r, hr, hsame⟩
          · rw [hnone] at hd
            cases hd
          · rw [textAfterActivity_congr hsame]
            refine h r hr d ?_
            rwa [hsame.density, Env.density_retext] at hd

/-! ### A remembered text -/

theorem densities_signStored {memoryId : String} :
    (b.signStored S now memoryId).1.cached.store.densities = b.cached.store.densities := by
  unfold signStored
  split
  · rw [store_signAs]
    refine Store.densities_updateMemories (fun r => ?_) fun r => ?_ <;> exact ⟨rfl, rfl⟩
  · rfl
  · rfl

theorem densities_feedRecurrence {memoryId content : String} {outcome : WriteOutcome} :
    (b.feedRecurrence S now faults memoryId content outcome).1.cached.store.densities =
      b.cached.store.densities := by
  unfold feedRecurrence
  split
  · dsimp only
    split
    · split
      · split
        · refine Store.densities_updateMemories (fun r => ?_) fun r => ?_ <;> exact ⟨rfl, rfl⟩
        · rfl
      · rfl
    · rfl
  · rfl

theorem densities_deriveFields {memory : Memory} {content : String} {outcome : WriteOutcome}
    {fingerprints : List Fingerprint} :
    (b.deriveFields S now faults memory content outcome fingerprints).1.cached.store.densities =
      (b.cached.store.setDeclarativeDensity memory.id (S.declarativeDensity content)).densities := by
  unfold deriveFields deriveIndex
  dsimp only
  rw [cached_drainEnrolmentRetries, cached_enrollStored, densities_feedRecurrence,
    densities_signStored]
  rfl

/-- **One `remember`** keeps the densities in agreement exactly if what is stored has the density of
what was given. -/
theorem densityAgrees_remember {key content : String} {opts : RememberOpts}
    {fingerprints : List Fingerprint} (hrooted : b.cached.store.Rooted)
    (haddressed : b.cached.store.Addressed S.env) (h : b.cached.store.DensityAgrees u)
    (hok : (b.remember (S.withDensity u) now since faults key content opts
      fingerprints).2.toOption.isSome = true) :
    (b.remember (S.withDensity u) now since faults key content opts
      fingerprints).1.cached.store.DensityAgrees u ↔
      declarativeDensity u content.toList =
        declarativeDensity u (b.storedText S key content).toList := by
  have hingest := @addressed_ingest L (S.withDensity u) now since b key content opts fingerprints
    hrooted haddressed
  unfold remember at hok ⊢
  split at hok
  · cases hok
  · rename_i written memory outcome hwritten
    rw [hwritten] at hingest
    split at hok
    · cases hok
    · rename_i joined hjoin
      dsimp only
      obtain ⟨hid, hkey, s, hs, hrows⟩ := exists_written_of_ingest hwritten
      have hrow : S.env.writtenRow now s memory ∈ written.cached.store.memories :=
        (hrows.mem_memories _).2 (Or.inr rfl)
      have hrowId : (S.env.writtenRow now s memory).id = memory.id := by
        have hrowKey := hingest.2 _ hrow
        rw [Env.key_writtenRow, hkey] at hrowKey
        rw [hrowKey, hid]
      have htext : (S.env.writtenRow now s memory).content = b.storedText S key content :=
        @content_writtenRow L (S.withDensity u) now b key content s memory hs hkey
          (content_of_ingest hwritten)
      rw [Store.densityAgrees_congr densities_deriveFields, ← hrowId,
        Store.densityAgrees_setDeclarativeDensity_iff
          ((memories_of_associateSession hjoin).symm ▸ hrow), htext]
      · rfl
      · intro r hr hne
        rw [memories_of_associateSession hjoin] at hr
        rcases (hrows.mem_memories r).1 hr with ⟨hr, -⟩ | rfl
        · exact h r (hs ▸ hr)
        · exact absurd rfl hne

end BrainState

/-! ## Runs -/

/-- The calls that write texts or densities. -/
inductive DensityCall where
  | remember (now since : String) (faults : RecognitionFaults) (key content : String)
      (opts : RememberOpts) (fingerprints : List Fingerprint)
  | ingestActivity (now : String) (episodes : List ActivityEpisode)
  | backfillDeclarativeDensity (now : String)
  | repairDerivations (now : String) (faults : RecognitionFaults) (limit : ℕ)

namespace BrainState

variable {L : WingCache}

section

variable (S : BrainSetup) (A : ActivitySetup) (u : CharTables) (b : BrainState L)

/-- What a call leaves. -/
def performDensity : DensityCall → BrainState L
  | .remember now since faults key content opts fingerprints =>
    (b.remember S now since faults key content opts fingerprints).1
  | .ingestActivity now episodes => (ingestActivity S A now episodes b).1
  | .backfillDeclarativeDensity now => ((b.backfillDeclarativeDensity S now).map Prod.fst).getD b
  | .repairDerivations now faults limit => (b.repairDerivations S now faults limit).1

/-- The call goes through. -/
def Succeeds : DensityCall → Prop
  | .remember now since faults key content opts fingerprints =>
    (b.remember S now since faults key content opts fingerprints).2.toOption.isSome
  | .ingestActivity now episodes => (ingestActivity S A now episodes b).2.toOption.isSome
  | .backfillDeclarativeDensity now => (b.backfillDeclarativeDensity S now).isSome
  | .repairDerivations now faults limit =>
    (b.repairDerivations S now faults limit).2.toOption.isSome

instance succeedsDecidable (call : DensityCall) : Decidable (b.Succeeds S A call) := by
  cases call <;> exact inferInstanceAs (Decidable (_ = true))

/-- **The condition.**  The text that is stored has the density of the text that was given, and
what a text with a density becomes has that density. -/
def KeepsDensity : DensityCall → Prop
  | .remember _ _ _ key content _ _ =>
    declarativeDensity u content.toList = declarativeDensity u (b.storedText S key content).toList
  | .ingestActivity _ episodes => ∀ r ∈ b.cached.store.memories.rows, r.declarativeDensity ≠ none →
    declarativeDensity u (textAfterActivity S A episodes r).toList =
      declarativeDensity u r.content.toList
  | .backfillDeclarativeDensity _ => True
  | .repairDerivations .. => True

instance keepsDensityDecidable (call : DensityCall) : Decidable (b.KeepsDensity S A u call) := by
  cases call
  · exact inferInstanceAs (Decidable (_ = _))
  · exact inferInstanceAs (Decidable (∀ r ∈ b.cached.store.memories.rows, _))
  · exact isTrue trivial
  · exact isTrue trivial

end

variable {S : BrainSetup} {A : ActivitySetup} {u : CharTables} {b : BrainState L}

theorem fillsDensity_performDensity_backfill {now : String} :
    b.cached.store.FillsDensity u (b.performDensity (S.withDensity u) A
      (.backfillDeclarativeDensity now)).cached.store := by
  obtain ⟨b', n, hb', hfills⟩ := @fillsDensity_backfill L S u now b
  unfold performDensity
  dsimp only
  rw [hb']
  exact hfills

/-- **One call** keeps the ids of the keys. -/
theorem addressed_performDensity (hrooted : b.cached.store.Rooted)
    (h : b.cached.store.Addressed S.env) (call : DensityCall) :
    (b.performDensity (S.withDensity u) A call).cached.store.Rooted ∧
      (b.performDensity (S.withDensity u) A call).cached.store.Addressed S.env := by
  cases call with
  | remember now since faults key content opts fingerprints =>
    exact @addressed_remember L (S.withDensity u) now since faults b key content opts fingerprints
      hrooted h
  | ingestActivity now episodes =>
    exact @addressed_ingestEpisodes L (S.withDensity u) A now b episodes _ hrooted h
  | backfillDeclarativeDensity now =>
    have hfills := @fillsDensity_performDensity_backfill L S A u b now
    exact ⟨hfills.kept.rooted hrooted, hfills.kept.addressed h⟩
  | repairDerivations now faults limit =>
    have hfills := @fillsDensity_repairDerivations L S u now faults b limit
    exact ⟨hfills.kept.rooted hrooted, hfills.kept.addressed h⟩

/-- **One call** that goes through leaves densities that agree exactly when it meets the
condition. -/
theorem densityAgrees_performDensity_iff (hrooted : b.cached.store.Rooted)
    (haddressed : b.cached.store.Addressed S.env) (h : b.cached.store.DensityAgrees u)
    {call : DensityCall} (hok : b.Succeeds (S.withDensity u) A call) :
    (b.performDensity (S.withDensity u) A call).cached.store.DensityAgrees u ↔
      b.KeepsDensity S A u call := by
  cases call with
  | remember now since faults key content opts fingerprints =>
    exact densityAgrees_remember hrooted haddressed h hok
  | ingestActivity now episodes =>
    refine (densityAgrees_ingestEpisodes hok).trans (forall₂_congr fun r hr => ?_)
    have hsetup : textAfterActivity (S.withDensity u) A episodes r =
        textAfterActivity S A episodes r := rfl
    rw [hsetup]
    cases hd : r.declarativeDensity with
    | none => simp
    | some d =>
      have hstored := h r hr d hd
      simp [hstored, eq_comm]
  | backfillDeclarativeDensity now =>
    exact iff_of_true (fillsDensity_performDensity_backfill.densityAgrees h) trivial
  | repairDerivations now faults limit =>
    exact iff_of_true (fillsDensity_repairDerivations.densityAgrees h) trivial

/-- **Stored densities agree**, all along a run of a new brain in which nothing fails, exactly when
every text that is stored has the density of the text that was given, and every text that replaces
one has its density.  Where they agree, the ranking does not see which of them are stored. -/
theorem density_agrees_iff (S : BrainSetup) (A : ActivitySetup) (L : WingCache)
    (env : Ranking.Env) (calls : List DensityCall)
    (hok : AllSteps (performDensity (S.withDensity env.tables) A)
      (Succeeds (S.withDensity env.tables) A) (opened L) calls) :
    AllSteps (performDensity (S.withDensity env.tables) A) (KeepsDensity S A env.tables) (opened L)
        calls ↔
      ∀ past, past <+: calls →
        let s := (run (performDensity (S.withDensity env.tables) A) (opened L) past).cached.store
        s.DensityAgrees env.tables ∧ ∀ r ∈ s.memories.rows, ∀ hits,
          Ranking.densityOf env (memoryHitFromRow hits r) =
            Ranking.densityOf env { memoryHitFromRow hits r with declarativeDensity := none } := by
  have hempty : (opened L).cached.store.Addressed S.env := fun r hr =>
    absurd hr (Table.not_mem_empty r)
  have hnone : (opened L).cached.store.DensityAgrees env.tables := fun r hr =>
    absurd hr (Table.not_mem_empty r)
  refine (allSteps_iff_forall_past_of_allSteps
    (J := fun b : BrainState L => b.cached.store.Rooted ∧ b.cached.store.Addressed S.env)
    (I := fun b => b.cached.store.DensityAgrees env.tables)
    (fun b call hb _ _ => addressed_performDensity hb.1 hb.2 call)
    (fun b call hb h hcall => densityAgrees_performDensity_iff hb.1 hb.2 h hcall)
    ⟨Store.rooted_empty, hempty⟩ hnone hok).trans (forall₂_congr fun past _ => ?_)
  exact (and_iff_left_of_imp Store.densityOf_stored_iff.2).symm

/-! ## A note that becomes an activity -/

/-- A ranking that reads no time stamps. -/
def timelessRanking : Ranking.Env where
  tables := .ascii
  parseCreatedAt _ := none
  halfPow _ := 1

/-- The digests of one key and of two texts. -/
def moverEnv : Env := .ofRecords
  [(utf8 "relocation", 0xe588c15ed29d453f1a155b478503a4e144b56713fa3ee539388115e89b11ea34),
    (utf8 "I moved to Berlin.", 0x35893d04c9e2da05c38d768ae7a1a69088cc0506abad6bffefc293c9b0de813e),
    (utf8 "[Mail] com.mail | Re: flat hunt",
      0x418e89420bc55c0f59024de61cb31cfa813d76fafbdf3c384656289249e604d9)] []

/-- A brain that knows them. -/
def moverBrain : BrainSetup := { peer with env := moverEnv }

/-- A mail, as an activity. -/
def flatHunt : ActivityEpisode :=
  { id := "relocation", startedAt := "2026-01-02 10:00:00", durationMillis := 60000
    bundleId := "com.mail", appName := "Mail", windowTitle := some "Re: flat hunt"
    source := "screen", sourceEventCount := 3 }

/-- A note is remembered, and a mail comes in under its key. -/
def noteThenMail : List DensityCall :=
  [.remember "2026-01-02 09:00:00" "2026-01-02 08:30:00" {} "relocation" "I moved to Berlin." {} [],
    .ingestActivity "2026-01-02 10:01:00" [flatHunt]]

/-- A note is remembered twice, and what is missing is filled in. -/
def noteTwice : List DensityCall :=
  [.remember "2026-01-02 09:00:00" "2026-01-02 08:30:00" {} "relocation" "I moved to Berlin." {} [],
    .remember "2026-01-02 09:05:00" "2026-01-02 08:35:00" {} "relocation" "I moved to Berlin." {} [],
    .backfillDeclarativeDensity "2026-01-02 09:10:00",
    .repairDerivations "2026-01-02 09:15:00" {} 100]

theorem note_twice_agrees :
    (run (performDensity (moverBrain.withDensity timelessRanking.tables) verbatimActivity)
        (opened wingCache) noteTwice).cached.store.DensityAgrees timelessRanking.tables ∧
      ∀ r ∈ (run (performDensity (moverBrain.withDensity timelessRanking.tables) verbatimActivity)
          (opened wingCache) noteTwice).cached.store.memories.rows, ∀ hits,
        Ranking.densityOf timelessRanking (memoryHitFromRow hits r) =
          Ranking.densityOf timelessRanking
            { memoryHitFromRow hits r with declarativeDensity := none } :=
  (density_agrees_iff moverBrain verbatimActivity wingCache timelessRanking noteTwice
    (by decide +kernel)).1 (by decide +kernel) noteTwice List.prefix_rfl

/-- **A note in the first person** whose text has become that of a mail keeps its density, and the
ranking goes by it. -/
theorem drifted_note :
    AllSteps (performDensity (moverBrain.withDensity .ascii) verbatimActivity)
        (Succeeds (moverBrain.withDensity .ascii) verbatimActivity) (opened wingCache) noteThenMail ∧
      ∃ r ∈ (run (performDensity (moverBrain.withDensity .ascii) verbatimActivity)
          (opened wingCache) noteThenMail).cached.store.memories.rows,
        r.content = "[Mail] com.mail | Re: flat hunt" ∧ r.declarativeDensity = some 1 ∧
          declarativeDensity .ascii r.content.toList = 0 ∧
          Ranking.densityOf timelessRanking (memoryHitFromRow 0 r) ≠
            Ranking.densityOf timelessRanking
              { memoryHitFromRow 0 r with declarativeDensity := none } := by
  decide +kernel

end BrainState

end Spectral
