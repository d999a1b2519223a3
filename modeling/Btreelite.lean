import Btreelite.Prog
import Btreelite.Varint
import Btreelite.Pager
import Btreelite.Cell
import Btreelite.Shared
import Btreelite.Freelist
import Btreelite.Overflow
import Btreelite.Page
import Btreelite.Redistribute
import Btreelite.Tree
import Btreelite.Siblings
import Btreelite.Balance
import Btreelite.Segment
import Btreelite.Path
import Btreelite.Cursor
import Btreelite.Probing
import Btreelite.WalIndex
import Btreelite.WalRecover
import Btreelite.WalRun
import Btreelite.WalLookup
import Btreelite.WalProtocol
import Btreelite.WalShows
import Btreelite.WalInvariant
import Btreelite.WalEffect
import Btreelite.WalSteps
import Btreelite.WalWriterSteps
import Btreelite.WalCkptSteps
import Btreelite.WalMoves
import Btreelite.WalSystem
import Btreelite.WalIsolation
import Btreelite.PosixLocks
import Btreelite.UnixLock
import Btreelite.LockLevels
import Btreelite.UnixLockSafe
import Btreelite.UnixLockSteps
import Btreelite.UnixLockRun
import Btreelite.ShmLock
import Btreelite.ShmSlots
import Btreelite.ShmLockRun
import Btreelite.ShmOpen
import Btreelite.ByteFile
import Btreelite.WalFile
import Btreelite.WalChain
import Btreelite.WalWritten
import Btreelite.WalFrames
import Btreelite.WalPending
import Btreelite.WalCommit
import Btreelite.WalLogRun
import Btreelite.WalDurable
import Btreelite.ApiTxn
import Btreelite.ApiCount
import Btreelite.ApiSteps
import Btreelite.ApiRun
import Btreelite.ApiAnswers
import Btreelite.ApiAgrees
import Btreelite.ApiCheck
import Btreelite.BalanceData
import Btreelite.EditOrder
import Btreelite.BalanceSpace
import Btreelite.Links
import Btreelite.Buckets
import Btreelite.Pcache1
import Btreelite.Pcache1Steps
import Btreelite.Pcache1Calls
import Btreelite.Pcache
import Btreelite.PcacheSteps
import Btreelite.PcacheCalls
import Btreelite.PcacheRefs
import Btreelite.PcacheRun
import Btreelite.CellSizes
import Btreelite.RowCuts
import Btreelite.FiveSiblings
import Btreelite.CursorPlace
import Btreelite.CursorSeek
import Btreelite.CursorStep
import Btreelite.CursorApi
import Btreelite.KeyLeaves
import Btreelite.Scans
import Btreelite.SampleTrees
import Btreelite.ByteBuffer
import Btreelite.Tiling
import Btreelite.RawPage
import Btreelite.PageRules
import Btreelite.PageBlocks
import Btreelite.PageLayout
import Btreelite.PageDefrag
import Btreelite.PageEdits
import Btreelite.PageOpen
import Btreelite.BusyTimeout
import Btreelite.VarintCodec
import Btreelite.OpenTable
import Btreelite.Bitvec
import Btreelite.MemJournal
import Btreelite.MemJournalRep
import Btreelite.MemJournalWrite
import Btreelite.JournalRun
import Btreelite.SwitchAtomic
import Btreelite.UpdateOrder
import Btreelite.DirtySort
import Btreelite.PageCoverage
import Btreelite.WalIterator
import Btreelite.PagerCommit
import Btreelite.PageSafety
import Btreelite.PagerTrace
import Btreelite.PagerWriteAhead
import Btreelite.PagerRestore
import Btreelite.Connection
import Btreelite.CursorFlags
import Btreelite.CursorPos
import Btreelite.KvUpdate
import Btreelite.LeafEdit
