import Otterbrix.Lib.LittleEndian
import Otterbrix.Lib.OrderedSet
import Otterbrix.Lib.Memory
import Otterbrix.Lib.LinearHash
import Otterbrix.Lib.PageChain
import Otterbrix.Lib.ThreeValued
import Otterbrix.Lib.Fuel
import Otterbrix.Lib.OrderedMap
import Otterbrix.Lib.FixedWidth
import Otterbrix.Lib.PartitionPoint
import Otterbrix.Lib.KeySort
import Otterbrix.Lib.Rounds
import Otterbrix.Types.LogicalValue
import Otterbrix.Table.TransactionManager
import Otterbrix.Table.Snapshots
import Otterbrix.Table.CompactWatermark
import Otterbrix.Table.DropGc
import Otterbrix.Table.RowVersionManager
import Otterbrix.Table.Collection
import Otterbrix.Table.Rows
import Otterbrix.Table.Represents
import Otterbrix.Table.Append
import Otterbrix.Table.Scan
import Otterbrix.Table.MvccScan
import Otterbrix.Table.Revert
import Otterbrix.Table.Rollback
import Otterbrix.Table.TableFilter
import Otterbrix.Table.ColumnData
import Otterbrix.Table.FilteredScan
import Otterbrix.Table.SegmentFlush
import Otterbrix.Table.ValidityScan
import Otterbrix.Table.VersionFetch
import Otterbrix.Table.ZoneMap
import Otterbrix.Wal.Record
import Otterbrix.Wal.Page
import Otterbrix.Wal.PageWriter
import Otterbrix.Wal.PageReader
import Otterbrix.Wal.Layout
import Otterbrix.Wal.WriterLayout
import Otterbrix.Wal.ReaderSync
import Otterbrix.Wal.RoundTrip
import Otterbrix.Wal.Reader
import Otterbrix.Wal.Worker
import Otterbrix.Wal.TornTail
import Otterbrix.Wal.Sessions
import Otterbrix.Wal.LastPage
import Otterbrix.Wal.Retention
import Otterbrix.Storage.Block
import Otterbrix.Storage.Allocation
import Otterbrix.Storage.TableFile
import Otterbrix.Index.DiskHashTable
import Otterbrix.Index.DiskHashLayout
import Otterbrix.Index.DiskHashSlots
import Otterbrix.Index.DiskHashMultimap
import Otterbrix.Index.DiskHashSplit
import Otterbrix.Index.DiskHashRuns
import Otterbrix.Index.DiskHashFuel
import Otterbrix.Index.DiskHashCrash
import Otterbrix.Index.SingleFieldIndex
import Otterbrix.Index.IndexEngine
import Otterbrix.Index.CommitFrame
import Otterbrix.Index.BitcaskRecord
import Otterbrix.Index.BitcaskIndex
import Otterbrix.Index.BitcaskTxnLog
import Otterbrix.Index.BitcaskRefs
import Otterbrix.Index.BitcaskLoad
import Otterbrix.Index.BitcaskSound
import Otterbrix.Index.BitcaskReopen
import Otterbrix.Index.BitcaskTorn
import Otterbrix.Query.SimplePredicate
import Otterbrix.Query.ConstantComparison
import Otterbrix.Wal.ReaderTermination
import Otterbrix.Wal.Truncation
import Otterbrix.Wal.ReaderAgreement
import Otterbrix.Query.RecursiveCte
import Otterbrix.Lib.Text
import Otterbrix.Lib.Lists
import Otterbrix.Index.IndexRegistry
import Otterbrix.Index.IndexRuns
import Otterbrix.Index.IndexRevert
import Otterbrix.Index.BitcaskBulk
import Otterbrix.Constraints.CheckPredicate
import Otterbrix.Constraints.CheckExpression
import Otterbrix.Constraints.CheckVerdict
import Otterbrix.Constraints.ColumnConstraints
import Otterbrix.Storage.PartialBlocks
import Otterbrix.Storage.BlockPlacement
import Otterbrix.Table.StringSegment
import Otterbrix.Table.StringRoundTrip
import Otterbrix.Lib.Chunks
import Otterbrix.Lib.ThetaJoin
import Otterbrix.Query.NestedLoopJoin
import Otterbrix.Lib.KWayMerge
import Otterbrix.Query.OrderBy
import Otterbrix.Lib.KeepFirst
import Otterbrix.Query.DuplicateElimination
import Otterbrix.Lib.ResidueDivision
import Otterbrix.Lib.Assignments
import Otterbrix.Vectors.ArithmeticKernel
import Otterbrix.Vectors.ArithmeticBounds
import Otterbrix.Types.ValueArithmetic
import Otterbrix.Types.NumberCast
import Otterbrix.Types.ValueOrder
import Otterbrix.Query.ArithmeticPaths
import Otterbrix.Query.ArithmeticPairs
import Otterbrix.Query.ArithmeticAgreement
import Otterbrix.Query.OperatorUpdate
import Otterbrix.Query.UpdateAssignments
import Otterbrix.Query.ConstantFolding
import Otterbrix.Query.FoldingSound
import Otterbrix.Query.LikePattern
import Otterbrix.Catalog.CascadePlanner
