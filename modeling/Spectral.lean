import Spectral.Lib.Table
import Spectral.Lib.Run
import Spectral.Lib.Encoding
import Spectral.Lib.HashMap
import Spectral.Lib.TwoPhaseSet
import Spectral.Lib.Cache
import Spectral.Lib.Threads
import Spectral.Lib.Reconcile
import Spectral.Lib.Forwarding
import Spectral.Lib.Ranking
import Spectral.Lib.Span
import Spectral.Lib.Winnow
import Spectral.Lib.Pieces
import Spectral.Lib.Window
import Spectral.Lib.Winners
import Spectral.Lib.Thin
import Spectral.Lib.Orderless
import Spectral.Lib.Greedy
import Spectral.Lib.References
import Spectral.Lib.Grouping
import Spectral.Lib.UnionFind
import Spectral.Lib.Utf8
import Spectral.Lib.Numerals
import Spectral.Lib.Calendar
import Spectral.Lib.BTreeMap
import Spectral.Lib.Phrases
import Spectral.Lib.Clamp
import Spectral.Lib.Displacement
import Spectral.Core.Identity
import Spectral.Core.Payloads
import Spectral.Ingest.Store
import Spectral.Ingest.Write
import Spectral.Ingest.Curate
import Spectral.Ingest.AsOf
import Spectral.Ingest.Reinforce
import Spectral.Ingest.Pipeline
import Spectral.Ingest.Forget
import Spectral.Ingest.Fingerprints
import Spectral.Ingest.Accepted
import Spectral.Ingest.Episodes
import Spectral.Ingest.Retention
import Spectral.Ingest.Migration
import Spectral.Archivist.Decay
import Spectral.Federation.Object
import Spectral.Federation.Sync
import Spectral.Federation.Import
import Spectral.Federation.Runs
import Spectral.Federation.Sovereignty
import Spectral.Federation.Convergence
import Spectral.Federation.Delivery
import Spectral.Federation.Phantom
import Spectral.Federation.Recall
import Spectral.Federation.Provenance
import Spectral.Federation.Forget
import Spectral.Federation.Relay
import Spectral.Federation.Reshare
import Spectral.Federation.Retraction
import Spectral.Turn.Ledger
import Spectral.Turn.Evidence
import Spectral.Turn.Brain
import Spectral.Turn.Deferred
import Spectral.Replicated.Set
import Spectral.Replicated.Runs
import Spectral.Wing.Search
import Spectral.Wing.Cache
import Spectral.Wing.Race
import Spectral.Wing.Coherence
import Spectral.Ingest.Batch
import Spectral.Consolidation.Edges
import Spectral.Consolidation.Chains
import Spectral.Consolidation.Twice
import Spectral.Recall.Search
import Spectral.Recall.Anticipated
import Spectral.Recall.Hidden
import Spectral.Recall.Rerank
import Spectral.Recognition.Score
import Spectral.Recognition.Accumulate
import Spectral.Recognition.Index
import Spectral.Brain.State
import Spectral.Brain.Remember
import Spectral.Brain.Repair
import Spectral.Brain.Forget
import Spectral.Brain.Authorship
import Spectral.Brain.Signing
import Spectral.Recognition.Stores
import Spectral.Recognition.Holdings
import Spectral.Recognition.History
import Spectral.Recognition.Extract
import Spectral.Recognition.Parts
import Spectral.Recall.Signals
import Spectral.Recall.Supersession
import Spectral.Recall.Composition
import Spectral.Recall.Bundle
import Spectral.Recall.Backfill
import Spectral.Recall.Render
import Spectral.Recall.RelativeDates
import Spectral.Recall.Temporal
import Spectral.Recognition.Audit
import Spectral.Recognition.Matches
import Spectral.Recognition.Reencounter
import Spectral.Recognition.Twins
import Spectral.Recognition.Signature
import Spectral.Recognition.Dropout
import Spectral.Recognition.Stream
import Spectral.Recognition.StreamOrders
import Spectral.Recognition.Segments
import Spectral.Brain.CoRetrieval
import Spectral.Brain.Cascade
import Spectral.Brain.Displace
import Spectral.Brain.Keys
import Spectral.Brain.Budget
import Spectral.Brain.Visibility
import Spectral.Brain.FanOut
import Spectral.Brain.Merge
import Spectral.Brain.Shares
import Spectral.Brain.Reading
import Spectral.Turn.Policy
import Spectral.Turn.Contract
import Spectral.Turn.Outcome
import Spectral.Brain.Enrolment
import Spectral.Brain.Healing
import Spectral.Derived.Rows
import Spectral.Derived.Steps
import Spectral.Derived.Runs
import Spectral.Brain.Candidates
import Spectral.Brain.Retrieve
import Spectral.Graph.Store
import Spectral.Graph.Canonicalize
import Spectral.Graph.Recall
import Spectral.Graph.Interference
import Spectral.Graph.Supersession
import Spectral.Graph.Superseding
import Spectral.Graph.Undo
import Spectral.Graph.Neighborhood
import Spectral.Graph.Assert
import Spectral.Graph.OntologyFile
import Spectral.Graph.AutoCreate
import Spectral.Graph.Names
import Spectral.Graph.Words
import Spectral.Graph.Spans
import Spectral.Graph.Coverage
import Spectral.Graph.Reopen
import Spectral.Graph.FailedAssert
import Spectral.Graph.Lockstep
import Spectral.Graph.Orders
import Spectral.Graph.Staleness
import Spectral.Graph.Adjudication
import Spectral.Graph.Distinct
import Spectral.Brain.Evidence
import Spectral.Lib.Fill
import Spectral.Ingest.Strongest
import Spectral.Brain.Aaak
import Spectral.Brain.Activity
import Spectral.Brain.Health
import Spectral.Brain.Dangling
import Spectral.Brain.Answerability
import Spectral.Ingest.Anchor
import Spectral.Turn.Wilson
import Spectral.Recall.TierOne
import Spectral.Recall.Ambient
import Spectral.Brain.Density
import Spectral.Brain.Replay
import Spectral.Brain.Redaction
import Spectral.Ingest.Bulk
import Spectral.Lib.Gossip
import Spectral.Replicated.Network
import Spectral.Replicated.Want
import Spectral.Ingest.EntityFields
import Spectral.Graph.Export
import Spectral.Ingest.Reclassify
import Spectral.Lib.Unwinding
import Spectral.Lib.Erasure
import Spectral.Turn.Exposure
import Spectral.Turn.Aborted
import Spectral.Ingest.FullText
import Spectral.Core.KeyFile
import Spectral.Recognition.Centroid
import Spectral.Brain.IngestText
import Spectral.Recall.MatchText
