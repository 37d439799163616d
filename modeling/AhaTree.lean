import AhaTree.Lib.Cut
import AhaTree.Lib.Bisect
import AhaTree.Lib.Merge
import AhaTree.Lib.Run
import AhaTree.Lib.Newest
import AhaTree.Lib.Program
import AhaTree.Lib.Ascending
import AhaTree.Slice
import AhaTree.InternalKey
import AhaTree.TreePage
import AhaTree.Routing
import AhaTree.SplitRouting
import AhaTree.PivotCheck
import AhaTree.PageIterator
import AhaTree.SortedScan
import AhaTree.WritePath
import AhaTree.MemtableFlush
import AhaTree.AckedWrites
import AhaTree.SequenceNumbers
import AhaTree.ColdFlags
import AhaTree.GroupCommit
import AhaTree.CommitOnce
import AhaTree.Lsmt
import AhaTree.Compaction
import AhaTree.RootLsmt
import AhaTree.RootCompaction
import AhaTree.FirstBulkload
import AhaTree.LeafMerge
import AhaTree.LeafContent
import AhaTree.CompactionOutput
import AhaTree.LevelOrder
import AhaTree.CompactionInputs
import AhaTree.CheckedLsmt
import AhaTree.LevelInvariant
import AhaTree.LevelRuns
import AhaTree.CompactionContent
import AhaTree.DeletionMarks
import AhaTree.TreeCompaction
import AhaTree.Resurrection
import AhaTree.SharedDisk
import AhaTree.ChildFlush
import AhaTree.FlushContent
import AhaTree.BtreePage
import AhaTree.Btree
import AhaTree.BtreeLocks
import AhaTree.BtreeShape
import AhaTree.BtreeInsert
import AhaTree.BtreeMap
import AhaTree.BtreeScan
import AhaTree.NodePage
import AhaTree.BtreeOlc
import AhaTree.OlcScan
import AhaTree.OptLock
import AhaTree.AdaptQueue
import AhaTree.LockManager
import AhaTree.LockCounts
import AhaTree.LockSafety
import AhaTree.Lib.Memory
import AhaTree.Lib.Tiling
import AhaTree.SlottedPage
import AhaTree.SlottedEntries
import AhaTree.SlottedRemoval
import AhaTree.SlottedUpdate
import AhaTree.SlottedUpsert
import AhaTree.SlottedSpace
import AhaTree.TreeBuffer
import AhaTree.BufferShard
import AhaTree.BufferOperations
import AhaTree.BufferTransparency
import AhaTree.LeafAdaptation
import AhaTree.FlushChoice
import AhaTree.SplitPolicy
import AhaTree.PageFit
import AhaTree.PageWriting
import AhaTree.Lib.Guards
import AhaTree.TreeGuards
import AhaTree.GuardedOutputs
import AhaTree.GuardedFlush
import AhaTree.InternalSplit
import AhaTree.Lib.Retry
import AhaTree.HotSelection
import AhaTree.FileBulkload
import AhaTree.PageSearch
import AhaTree.OlcLeaf
import AhaTree.OlcSplit
import AhaTree.Lib.Matches
import AhaTree.NodePageBytes
import AhaTree.PinnedChecks
import AhaTree.RootAdaptation
import AhaTree.BackgroundJobs
import AhaTree.JobLocks
import AhaTree.Lib.Codec
import AhaTree.Coding
import AhaTree.Lib.Cursor
import AhaTree.BlockFormat
import AhaTree.Comparators
import AhaTree.BlockIterator
import AhaTree.Lib.Segments
import AhaTree.TwoLevelIterator
import AhaTree.Lib.Crc
import AhaTree.Crc32c
import AhaTree.BloomFilter
import AhaTree.FilterBlock
import AhaTree.TableFormat
import AhaTree.TableBuilder
import AhaTree.TableLayout
import AhaTree.Table
import AhaTree.Lib.Links
import AhaTree.SkipList
import AhaTree.Lib.Simulation
import AhaTree.SkipListReaders
import AhaTree.MemTable
import AhaTree.BatchFormat
import AhaTree.BuildTable
