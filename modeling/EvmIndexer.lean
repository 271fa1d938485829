import EvmIndexer.Lib.Runs
import EvmIndexer.Lib.Coverage
import EvmIndexer.Orphan
import EvmIndexer.Replay
import EvmIndexer.JobLifecycle
import EvmIndexer.CheckpointSound
import EvmIndexer.CheckpointAdvance
import EvmIndexer.Backfill
import EvmIndexer.PlanCoverage
import EvmIndexer.Lib.Keyset
import EvmIndexer.Pages
import EvmIndexer.Decoder
import EvmIndexer.AbiEvents
import EvmIndexer.Domain
import EvmIndexer.Storable
import EvmIndexer.Lib.Upsert
import EvmIndexer.Stored
import EvmIndexer.Reingest
import EvmIndexer.Converge
import EvmIndexer.Agreement
import EvmIndexer.Lib.Program
import EvmIndexer.Service
import EvmIndexer.Ingest
import EvmIndexer.Execute
import EvmIndexer.Finality
import EvmIndexer.Attempts
import EvmIndexer.Reorg
import EvmIndexer.CommitOrder
import EvmIndexer.ReorgRanges
import EvmIndexer.CheckpointUpdates
import EvmIndexer.Coordinates
import EvmIndexer.Places
import EvmIndexer.HolderBlocks
import EvmIndexer.Chunking
import EvmIndexer.AttemptLog
import EvmIndexer.ReorgLinks
import EvmIndexer.Partition
import EvmIndexer.Standards
import EvmIndexer.Lib.Machine
import EvmIndexer.RangeWalks
import EvmIndexer.Panics
import EvmIndexer.Enqueues
import EvmIndexer.HolderCounts
import EvmIndexer.LogIdentity
import EvmIndexer.Draining
import EvmIndexer.Lib.RowLocks
import EvmIndexer.OrphanStatements
import EvmIndexer.OrphanRaces
import EvmIndexer.Lib.Search
import EvmIndexer.Redaction
import EvmIndexer.Lib.Worklist
import EvmIndexer.MetadataRepair
import EvmIndexer.Isolation
import EvmIndexer.Supply
import EvmIndexer.Lib.Ranking
import EvmIndexer.Rankings
import EvmIndexer.Api
import EvmIndexer.IndexerLedger
import EvmIndexer.ExactlyOnce
import EvmIndexer.Sequential
import EvmIndexer.Backfilled
import EvmIndexer.Receipts
