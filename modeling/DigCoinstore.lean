import DigCoinstore.Lib.FixedInt
import DigCoinstore.Lib.Codec
import DigCoinstore.Lib.FullTree
import DigCoinstore.Lib.Mirror
import DigCoinstore.Types
import DigCoinstore.Error
import DigCoinstore.Lib.OrdMap
import DigCoinstore.Storage.Schema
import DigCoinstore.Storage.Backend
import DigCoinstore.Storage.KvBincode
import DigCoinstore.Merkle.Tree
import DigCoinstore.Merkle.TreeFacts
import DigCoinstore.CoinStore.State
import DigCoinstore.CoinStore.RowFacts
import DigCoinstore.CoinStore.Genesis
import DigCoinstore.CoinStore.ApplyBlock
import DigCoinstore.CoinStore.Rollback
import DigCoinstore.CoinStore.Snapshot
import DigCoinstore.Hints
import DigCoinstore.Queries
import DigCoinstore.Lib.Lifecycle
import DigCoinstore.Coinset
import DigCoinstore.Index
import DigCoinstore.Run
import DigCoinstore.Represents
import DigCoinstore.StepFacts
import DigCoinstore.Opening
import DigCoinstore.GenesisFacts
import DigCoinstore.ApplyFacts
import DigCoinstore.ApplySpec
import DigCoinstore.RollbackFacts
import DigCoinstore.RollbackSpec
import DigCoinstore.SnapshotFacts
import DigCoinstore.Invariant
import DigCoinstore.History
import DigCoinstore.Commitment
import DigCoinstore.Merkle.Persist
import DigCoinstore.Merkle.SparseProof
import DigCoinstore.IndexExact
import DigCoinstore.Durability
import DigCoinstore.Reorg
import DigCoinstore.FailedCommit
import DigCoinstore.Lib.Paging
import DigCoinstore.Pagination
import DigCoinstore.Sample
import DigCoinstore.Merkle.ProofGen
import DigCoinstore.Storage.SnapshotBincode
import DigCoinstore.LeafHash
import DigCoinstore.Restore
import DigCoinstore.ClaimedIds
import DigCoinstore.RoundTrip
import DigCoinstore.SpentOnce
import DigCoinstore.HintMirror
import DigCoinstore.CallFacts
import DigCoinstore.HintLookup
import DigCoinstore.Lib.Crash
import DigCoinstore.StoredRows
import DigCoinstore.RestoreCrash
import DigCoinstore.Merkle.Paths
import DigCoinstore.Merkle.RootOfLeaves
import DigCoinstore.Merkle.Exclusion
import DigCoinstore.SpendCount
import DigCoinstore.IndexQueries
import DigCoinstore.Aggregates
import DigCoinstore.FastForward
import DigCoinstore.BlockOrder
import DigCoinstore.Lib.PrefixScan
import DigCoinstore.Storage.Engines
import DigCoinstore.Storage.Refinement
import DigCoinstore.Merkle.Walk
import DigCoinstore.Merkle.NodeRows
import DigCoinstore.Merkle.Pruning
import DigCoinstore.Lib.Interleave
import DigCoinstore.Lib.TwoRows
import DigCoinstore.HintCalls
import DigCoinstore.ConcurrentHints
import DigCoinstore.Lib.Retention
import DigCoinstore.CoinStore.Checkpoint
import DigCoinstore.Checkpoints
import DigCoinstore.HintRetry
import DigCoinstore.HintCleanup
import DigCoinstore.Candidates
import DigCoinstore.HintExact
import DigCoinstore.PageSpec
import DigCoinstore.RollbackExact
import DigCoinstore.FullReset
import DigCoinstore.TreeCover
import DigCoinstore.Heights
import DigCoinstore.Merkle.Reload
import DigCoinstore.Merkle.DirtyNodes
import DigCoinstore.Lib.Batch
import DigCoinstore.Merkle.Batches
import DigCoinstore.Lib.CappedUnion
import DigCoinstore.HintUnion
import DigCoinstore.RecordQueries
import DigCoinstore.Lib.Machine
import DigCoinstore.Ledger
import DigCoinstore.LedgerFacts
import DigCoinstore.LedgerSim
import DigCoinstore.LedgerCheckpoints
import DigCoinstore.LedgerRefinement
import DigCoinstore.CheckpointRuns
import DigCoinstore.Lib.Flaky
import DigCoinstore.Faults
import DigCoinstore.LightClient
import DigCoinstore.Sync
import DigCoinstore.Canonical
import DigCoinstore.RollbackTwice
import DigCoinstore.ConcurrentSaves
import DigCoinstore.StateQueries
import DigCoinstore.Books
import DigCoinstore.ActiveChain
import DigCoinstore.BlockErrors
import DigCoinstore.ChiaRecords
import DigCoinstore.LiveReading
