import Spectral.Brain.Visibility

/-!
# Fan-out recall

A coordinator asks its child brains and merges what they return.

* `fanOutRecallWithPolicy` — every child is asked for what the boundary admits; what is below it
  is dropped again, and with a grant set every hit whose signature does not verify.
* `mergeAndRank` — each child's hits cut to a cap, fused by score or by rank, and sorted.
* `fanOut_boundary` — what is ranked: hits that some child returned, that the boundary admits,
  and that, with a grant set, verify under the key it has for the brain they name as their
  source.
* `relayed_note_ranked` — that brain need not be the child.

Weights and the constant of the rank fusion are `none` when they are not finite.
-/

namespace Spectral

open Spectral.Lib

/-! ## Children and policies -/

/-- A child brain, by what its scoped cascade answers, and its weight. -/
structure Child where
  brainId : Bytes32
  weight : Option ℚ := some 1
  recallCascadeScoped : String → RecognitionContext → CascadePipelineConfig → Visibility →
    Except String CascadeResult

/-- `FederationCoordinator`: a brain is a child once. -/
structure FederationCoordinator where
  children : List Child
  nodup : (children.map Child.brainId).Nodup

/-- `FederationCoordinator::new`. -/
def FederationCoordinator.new : FederationCoordinator := ⟨[], List.nodup_nil⟩

theorem nodup_replaceChild {children : List Child} (h : (children.map Child.brainId).Nodup)
    (child : Child) : ((children.map fun old =>
      if old.brainId = child.brainId then child else old).map Child.brainId).Nodup := by
  have hids : (children.map fun old =>
      if old.brainId = child.brainId then child else old).map Child.brainId =
        children.map Child.brainId := by
    rw [List.map_map]
    refine List.map_congr_left fun old _ => ?_
    dsimp only [Function.comp_apply]
    split
    · rename_i heq
      exact heq.symm
    · rfl
  rw [hids]
  exact h

theorem nodup_concatChild {children : List Child} (h : (children.map Child.brainId).Nodup)
    {child : Child} (hnew : child.brainId ∉ children.map Child.brainId) :
    ((children ++ [child]).map Child.brainId).Nodup := by
  rw [List.map_append, List.map_singleton, ← List.concat_eq_append]
  exact h.concat hnew

/-- `add_brain_weighted`: a brain that is a child already is replaced. -/
def FederationCoordinator.addBrainWeighted (c : FederationCoordinator) (child : Child) :
    FederationCoordinator :=
  if h : child.brainId ∈ c.children.map Child.brainId then
    ⟨c.children.map fun old => if old.brainId = child.brainId then child else old,
      nodup_replaceChild c.nodup child⟩
  else ⟨c.children ++ [child], nodup_concatChild c.nodup h⟩

/-- `FusionMethod`. -/
inductive FusionMethod where
  | rrf (k : Option ℚ)
  | rawScore

/-- `MergePolicy`. -/
structure MergePolicy where
  fusion : FusionMethod := .rrf (some 60)
  perChildCap : Option ℕ := some 20
  grants : Option (HashMap Bytes32 VerifyingKey) := none

/-- `LabeledHit`. -/
structure LabeledHit where
  origin : Bytes32
  effectiveScore : ℚ
  hit : MemoryHit
  deriving DecidableEq

/-- `FanoutResult`. -/
structure FanoutResult where
  ranked : List LabeledHit
  perBrain : List (Bytes32 × ℕ)
  recognitionTokenCost : ℕ
  failed : List (Bytes32 × String)
  unverified : ℕ

/-- What a child contributes: its hits, in its order. -/
structure ChildHits where
  origin : Bytes32
  weight : Option ℚ
  hits : List MemoryHit

/-! ## Merging -/

/-- `Flat`: a hit with its place among those of its child, and the fingerprint of its content. -/
structure Flat where
  origin : Bytes32
  fp : Bytes32
  weight : Option ℚ
  rank : ℕ
  hit : MemoryHit

section Merge

variable (env : Env) (pf : Platform) (isWhitespace : Char → Bool)

/-- `content_fingerprint`: the words in lower case, with one space between them. -/
def contentFingerprint (content : String) : Bytes32 :=
  let words := (content.toList.splitOnP isWhitespace).filter fun w => w ≠ []
  env.blake3 (utf8 (pf.toLowercase (" ".intercalate (words.map String.ofList))))

/-- The hits of a child, cut to the cap. -/
def ChildHits.cap (policy : MergePolicy) (c : ChildHits) : ChildHits :=
  match policy.perChildCap with
  | some cap => { c with hits := c.hits.take cap }
  | none => c

/-- The hits of a child, with their ranks and fingerprints. -/
def ChildHits.flat (c : ChildHits) : List Flat :=
  c.hits.zipIdx.map fun p =>
    { origin := c.origin, fp := contentFingerprint env pf isWhitespace p.1.content,
      weight := c.weight, rank := p.2, hit := p.1 }

/-- `best_rank`: the best rank of a content among the hits of a child. -/
def bestRank (flat : List Flat) : HashMap (Bytes32 × Bytes32) ℕ :=
  flat.foldl (fun m f => m.entry (f.origin, f.fp) f.rank fun r => min r f.rank) .empty

/-- `weight_of`. -/
def weightOf (flat : List Flat) : HashMap Bytes32 (Option ℚ) :=
  flat.foldl (fun m f => m.insert f.origin f.weight) .empty

/-- What a child adds to the score of a content: `weight / (k + rank)`, or nothing when that
would not be a positive share. -/
def fuseOne (weights : HashMap Bytes32 (Option ℚ)) (k : Option ℚ) (fused : HashMap Bytes32 ℚ)
    (e : (Bytes32 × Bytes32) × ℕ) : HashMap Bytes32 ℚ :=
  match (weights.get? e.1.1).getD (some 1), k with
  | some w, some k =>
    if k + e.2 ≤ 0 then fused else fused.entry e.1.2 0 fun score => score + w / (k + e.2)
  | _, _ => fused

/-- `fused`.  The map of ranks is iterated over in an order of its own. -/
def fusedScores (order : Shuffle ((Bytes32 × Bytes32) × ℕ)) (k : Option ℚ) (flat : List Flat) :
    HashMap Bytes32 ℚ :=
  (order.run (bestRank flat).entries).foldl (fuseOne (weightOf flat) k) .empty

/-- The score a hit is ranked on. -/
def effectiveScore (order : Shuffle ((Bytes32 × Bytes32) × ℕ)) (policy : MergePolicy)
    (flat : List Flat) (f : Flat) : ℚ :=
  match policy.fusion with
  | .rawScore => max 0 (min 1 f.hit.signalScore) * f.weight.getD 0
  | .rrf k => ((fusedScores order k flat).get? f.fp).getD 0

/-- The order of the ranking: score, then fingerprint, origin and id. -/
def RanksFirst (a b : Bytes32 × LabeledHit) : Prop :=
  b.2.effectiveScore < a.2.effectiveScore ∨ a.2.effectiveScore = b.2.effectiveScore ∧
    (a.1.toList < b.1.toList ∨ a.1 = b.1 ∧
      (a.2.origin.toList < b.2.origin.toList ∨ a.2.origin = b.2.origin ∧ a.2.hit.id ≤ b.2.hit.id))

instance : DecidableRel RanksFirst := fun _ _ =>
  inferInstanceAs (Decidable (_ ∨ _ ∧ (_ ∨ _ ∧ (_ ∨ _ ∧ _))))

/-- `merge_and_rank`. -/
def mergeAndRank (order : Shuffle ((Bytes32 × Bytes32) × ℕ)) (contributions : List ChildHits)
    (policy : MergePolicy) : List LabeledHit × List (Bytes32 × ℕ) :=
  let capped := contributions.map (ChildHits.cap policy)
  let flat := capped.flatMap (ChildHits.flat env pf isWhitespace)
  let keyed := flat.map fun f => (f.fp, LabeledHit.mk f.origin (effectiveScore order policy flat f) f.hit)
  ((keyed.insertionSort RanksFirst).map Prod.snd, capped.map fun c => (c.origin, c.hits.length))

end Merge

/-! ## Asking the children -/

/-- Where the loop over the children stands. -/
structure FanOutState where
  contributions : List ChildHits := []
  recognitionTokenCost : ℕ := 0
  failed : List (Bytes32 × String) := []
  unverified : ℕ := 0

section FanOut

variable (env : Env)

/-- The hit carries a signature that verifies under the key the grants have for its source. -/
def Env.granted (grants : HashMap Bytes32 VerifyingKey) (hit : MemoryHit) : Bool :=
  (hit.sourceBrainId.bind grants.get?).any fun key => env.verifyHit hit key

/-- One child: it is skipped when it fails, and its hits are filtered. -/
def askChild (query : String) (context : RecognitionContext) (config : CascadePipelineConfig)
    (visibility : Visibility) (policy : MergePolicy) (acc : FanOutState) (child : Child) :
    FanOutState :=
  match child.recallCascadeScoped query context config visibility with
  | .error e => { acc with failed := acc.failed ++ [(child.brainId, e)] }
  | .ok result =>
    let visible := result.mergedHits.filter fun hit => (strToVis hit.visibility).allows visibility
    let verified := match policy.grants with
      | some grants => visible.filter (env.granted grants)
      | none => visible
    { acc with
      contributions := acc.contributions ++ [⟨child.brainId, child.weight, verified⟩]
      recognitionTokenCost := acc.recognitionTokenCost + result.totalRecognitionTokenCost
      unverified := acc.unverified + (visible.length - verified.length) }

variable (pf : Platform) (isWhitespace : Char → Bool)
  (order : Shuffle ((Bytes32 × Bytes32) × ℕ)) (c : FederationCoordinator)

/-- `fan_out_recall_with_policy`.  The children are asked not to write back. -/
def FederationCoordinator.fanOutRecallWithPolicy (query : String) (context : RecognitionContext)
    (config : CascadePipelineConfig) (visibility : Visibility) (policy : MergePolicy) :
    FanoutResult :=
  let asked := c.children.foldl
    (askChild env query context { config with writeBack := false } visibility policy) {}
  let merged := mergeAndRank env pf isWhitespace order asked.contributions policy
  { ranked := merged.1, perBrain := merged.2, recognitionTokenCost := asked.recognitionTokenCost,
    failed := asked.failed, unverified := asked.unverified }

/-- `fan_out_recall`: with the default policy. -/
def FederationCoordinator.fanOutRecall (query : String) (context : RecognitionContext)
    (config : CascadePipelineConfig) (visibility : Visibility) : FanoutResult :=
  c.fanOutRecallWithPolicy env pf isWhitespace order query context config visibility {}

end FanOut

/-! ## What is ranked -/

section

variable {env : Env} {pf : Platform} {isWhitespace : Char → Bool}
  {order : Shuffle ((Bytes32 × Bytes32) × ℕ)} {contributions : List ChildHits}
  {policy : MergePolicy} {labeled : LabeledHit}

theorem ChildHits.mem_cap {c : ChildHits} {hit : MemoryHit} (h : hit ∈ (c.cap policy).hits) :
    hit ∈ c.hits := by
  unfold cap at h
  split at h
  · exact List.mem_of_mem_take h
  · exact h

theorem ChildHits.origin_cap {c : ChildHits} : (c.cap policy).origin = c.origin := by
  unfold cap
  split <;> rfl

/-- **Merging** ranks contributed hits, under the child that contributed them. -/
theorem exists_contribution_of_mem_mergeAndRank
    (h : labeled ∈ (mergeAndRank env pf isWhitespace order contributions policy).1) :
    ∃ c ∈ contributions, c.origin = labeled.origin ∧ labeled.hit ∈ c.hits := by
  obtain ⟨keyed, hkeyed, rfl⟩ := List.mem_map.1 h
  obtain ⟨f, hf, rfl⟩ := List.mem_map.1 ((List.mem_insertionSort _).1 hkeyed)
  obtain ⟨capped, hcapped, hflat⟩ := List.mem_flatMap.1 hf
  obtain ⟨c, hc, rfl⟩ := List.mem_map.1 hcapped
  obtain ⟨p, hp, rfl⟩ := List.mem_map.1 hflat
  exact ⟨c, hc, ChildHits.origin_cap.symm, ChildHits.mem_cap (List.fst_mem_of_mem_zipIdx hp)⟩

/-- The hit may be ranked: it is at the boundary or above, and a grant set verifies it. -/
structure Env.Rankable (env : Env) (visibility : Visibility) (policy : MergePolicy)
    (hit : MemoryHit) : Prop where
  allows : (strToVis hit.visibility).allows visibility = true
  verifies : ∀ grants ∈ policy.grants, ∃ source key, hit.sourceBrainId = some source ∧
    grants.get? source = some key ∧ env.verifyHit hit key = true

/-- A child returned the hit when it was asked. -/
def Child.Returned (child : Child) (query : String) (context : RecognitionContext)
    (config : CascadePipelineConfig) (visibility : Visibility) (hit : MemoryHit) : Prop :=
  ∃ result, child.recallCascadeScoped query context config visibility = .ok result ∧
    hit ∈ result.mergedHits

variable {query : String} {context : RecognitionContext} {config : CascadePipelineConfig}
  {visibility : Visibility}

/-- What the loop has collected so far from some children. -/
def FanOutState.Collected (env : Env) (query : String) (context : RecognitionContext)
    (config : CascadePipelineConfig) (visibility : Visibility) (policy : MergePolicy)
    (children : List Child) (acc : FanOutState) : Prop :=
  ∀ c ∈ acc.contributions, ∃ child ∈ children, child.brainId = c.origin ∧
    ∀ hit ∈ c.hits, child.Returned query context config visibility hit ∧
      env.Rankable visibility policy hit

theorem FanOutState.Collected.askChild {children : List Child} {acc : FanOutState} {child : Child}
    (h : acc.Collected env query context config visibility policy children)
    (hchild : child ∈ children) :
    (askChild env query context config visibility policy acc child).Collected env query context
      config visibility policy children := by
  unfold Spectral.askChild
  split
  · exact h
  · rename_i result hresult
    intro c hc
    rcases List.mem_append.1 hc with hc | hc
    · exact h c hc
    · rw [List.mem_singleton.1 hc]
      refine ⟨child, hchild, rfl, fun hit hhit => ?_⟩
      dsimp only at hhit
      split at hhit
      · rename_i grants hgrants
        obtain ⟨hvisible, hgranted⟩ := List.mem_filter.1 hhit
        obtain ⟨hin, hallows⟩ := List.mem_filter.1 hvisible
        refine ⟨⟨result, hresult, hin⟩, hallows, fun grants' hmem => ?_⟩
        rw [hgrants] at hmem
        cases hmem
        obtain ⟨key, hkey, hverify⟩ := (Option.any_eq_true _ _).1 hgranted
        obtain ⟨source, hsource, hget⟩ := Option.bind_eq_some_iff.1 hkey
        exact ⟨source, key, hsource, hget, hverify⟩
      · rename_i hnone
        obtain ⟨hin, hallows⟩ := List.mem_filter.1 hhit
        exact ⟨⟨result, hresult, hin⟩, hallows, by simp [hnone]⟩

end

/-- **The fan-out boundary.**  Whatever the children answer, and in whatever order the maps are
iterated over, every ranked hit was returned by the child it is ranked under, admits the
boundary, and with a grant set verifies under the key registered for the brain it names. -/
theorem fanOut_boundary (env : Env) (pf : Platform) (isWhitespace : Char → Bool)
    (order : Shuffle ((Bytes32 × Bytes32) × ℕ)) (c : FederationCoordinator) (query : String)
    (context : RecognitionContext) (config : CascadePipelineConfig) (visibility : Visibility)
    (policy : MergePolicy) :
    ∀ labeled ∈ (c.fanOutRecallWithPolicy env pf isWhitespace order query context config visibility
        policy).ranked,
      (∃ child ∈ c.children, child.brainId = labeled.origin ∧
        child.Returned query context { config with writeBack := false } visibility labeled.hit) ∧
      env.Rankable visibility policy labeled.hit := by
  intro labeled h
  have hcollected : (c.children.foldl
      (askChild env query context { config with writeBack := false } visibility policy)
        {}).Collected env query context { config with writeBack := false } visibility policy
          c.children :=
    List.foldlRecOn
      (motive := fun acc : FanOutState => acc.Collected env query context
        { config with writeBack := false } visibility policy c.children)
      _ _ (fun c hc => absurd hc List.not_mem_nil) fun acc hacc child hchild => hacc.askChild hchild
  obtain ⟨contribution, hin, horigin, hhit⟩ := exists_contribution_of_mem_mergeAndRank h
  obtain ⟨child, hchild, hid, hhits⟩ := hcollected contribution hin
  exact ⟨⟨child, hchild, hid.trans horigin, (hhits _ hhit).1⟩, (hhits _ hhit).2⟩

/-! ## A relayed note -/

/-- A brain as a child. -/
def Child.ofBrain {L : WingCache} (brainId : Bytes32) (S : BrainSetup) (C : CascadeSetup)
    (now : String) (b : BrainState L) : Child where
  brainId := brainId
  recallCascadeScoped query context config visibility :=
    .ok (b.recallCascadeScoped S C now query context config visibility).2

/-- A cascade that leaves the hits as they come. -/
def plainCascade : CascadeSetup where
  rerank _ _ _ hits := hits.zipIdx.map fun p => (p.2, p.1.signalScore)
  parseTs _ := none

/-- The peer holds a copy of the note the author has signed for the team, and is the only
child. -/
def copyingPeer : FederationCoordinator :=
  .addBrainWeighted .new (.ofBrain peerId { authorBrain with ftsQueryWords := fun query => [query] }
    plainCascade "2026-01-03 09:10:00" BrainState.teamNote)

/-- The author has a grant, and nobody else. -/
def authorGrant : MergePolicy :=
  { grants := some (HashMap.empty.insert author authorKey) }

/-- What the peer is asked for the team. -/
def askedForTeam : FanoutResult :=
  copyingPeer.fanOutRecallWithPolicy authorEnv .plain (fun c => c.isWhitespace) .inOrder "monday" {}
    {} .team authorGrant

/-- What is ranked of it keeps the boundary. -/
theorem fanOut_boundary_note :
    ∃ labeled ∈ askedForTeam.ranked,
      (∃ child ∈ copyingPeer.children, child.brainId = labeled.origin ∧
        child.Returned "monday" {} { ({} : CascadePipelineConfig) with writeBack := false } .team
          labeled.hit) ∧
      authorEnv.Rankable .team authorGrant labeled.hit := by
  have hranked : askedForTeam.ranked ≠ [] := by decide +kernel
  obtain ⟨labeled, hmem⟩ := List.exists_mem_of_ne_nil _ hranked
  exact ⟨labeled, hmem, fanOut_boundary authorEnv .plain (fun c => c.isWhitespace) .inOrder
    copyingPeer "monday" {} {} .team authorGrant labeled hmem⟩

/-- **A relayed note** is ranked: the child it comes from has no grant. -/
theorem relayed_note_ranked :
    (∃ labeled ∈ askedForTeam.ranked, labeled.origin = peerId ∧
      ∀ grants ∈ authorGrant.grants, grants.get? labeled.origin = none) ∧
      askedForTeam.unverified = 0 := by
  decide +kernel

end Spectral
