import Btreelite.ByteFile
import Btreelite.WalRecover

/-!
# The log file

`walFrames` appends frames to the log or overwrites those of its own transaction, and keeps the
running checksum in the header of the handle. Every write, read and sync can fail, a write after
some of its bytes. The file is kept as what was last synced and what was written since.
-/

namespace Btreelite

open Prog ByteFile

inductive FileOp
  | write (iOffset : ℕ) (aData : List UInt8)
  | truncate (nByte : ℕ)

def FileOp.apply (f : List UInt8) : FileOp → List UInt8
  | .write iOffset aData => pwrite 0 f iOffset aData
  | .truncate nByte => f.take nByte

structure OsFile where
  synced : List UInt8
  since : List FileOp

namespace OsFile

def content (f : OsFile) : List UInt8 := f.since.foldl FileOp.apply f.synced

def add (f : OsFile) (op : FileOp) : OsFile := { f with since := f.since ++ [op] }

def sync (f : OsFile) : OsFile := ⟨f.content, []⟩

@[simp] theorem add_content (f : OsFile) (op : FileOp) : (f.add op).content = op.apply f.content := by
  rw [content, add, List.foldl_append]
  rfl

@[simp] theorem sync_content (f : OsFile) : f.sync.content = f.content := rfl

end OsFile

/-- A page of the list given to `walFrames`. -/
structure PgHdr where
  pgno : ℕ
  pData : List UInt8

/-- The part of a `Wal` handle that writing frames changes. -/
structure WalHandle extends Wal where
  /-- `-1` when there is none. -/
  readLock : ℤ
  minFrame : ℕ
  iReCksum : ℕ

/-- The handle after frame `iWrite` was chosen to be overwritten. -/
def WalHandle.overwrite (pWal : WalHandle) (iWrite : ℕ) : WalHandle :=
  if pWal.iReCksum = 0 ∨ iWrite < pWal.iReCksum then { pWal with iReCksum := iWrite } else pWal

/-- `aWalData`, as `sqlite3WalSavepoint` fills it. -/
structure WalSavepoint where
  mxFrame : ℕ
  aFrameCksum : ℕ × ℕ
  nCkpt : ℕ

/-- What the log file is written with. -/
structure LogCfg where
  /-- `SQLITE_BIGENDIAN` -/
  bigEndian : Bool
  padToSectorBoundary : Bool
  syncHeader : Bool
  sectorSize : ℕ
  szPage : ℕ

/-- The log, the wal-index with the header in it, and the handle of the writer. The last field has
the failures to come, each with the number of bytes that a write leaves. -/
structure LogState where
  pWalFd : OsFile
  apWiData : WalIndex
  live : WalIndexHdr
  nBackfill : ℕ
  pWal : WalHandle
  io : List (Option (Fault × ℕ))

abbrev LogM := EStateM Rc LogState

namespace LogState

def content (s : LogState) : List UInt8 := s.pWalFd.content

def setHdr (s : LogState) (hdr : WalIndexHdr) : LogState := { s with pWal := { s.pWal with hdr } }

/-- `walIndexWriteHdr`. -/
def publish (s : LogState) (hdr : WalIndexHdr) : LogState :=
  { s with pWal := { s.pWal with hdr := { hdr with isInit := true } }, live := { hdr with isInit := true } }

end LogState

/-! ## System calls -/

def nextIo : LogM (Option (Fault × ℕ)) := do
  let s ← get
  set { s with io := s.io.tail }
  return s.io.head?.join

def sqlite3OsWrite (aData : List UInt8) (iOffset : ℕ) : LogM Unit := do
  match ← nextIo with
  | none => modify fun s => { s with pWalFd := s.pWalFd.add (.write iOffset aData) }
  | some (f, n) =>
    modify fun s => { s with pWalFd := s.pWalFd.add (.write iOffset (aData.take n)) }
    throw f.rc

def sqlite3OsRead (nByte iOffset : ℕ) : LogM (List UInt8) := do
  match ← nextIo with
  | none =>
    let aBuf := pread (← get).content iOffset nByte
    if aBuf.length = nByte then return aBuf else throw .ioerr
  | some (f, _) => throw f.rc

def sqlite3OsSync (flags : ℕ) : LogM Unit := do
  if flags = 0 then
    pure ()
  else
    match ← nextIo with
    | none => modify fun s => { s with pWalFd := s.pWalFd.sync }
    | some (f, _) => throw f.rc

/-- A sync under a condition. -/
def syncWhen (bSync : Bool) (flags : ℕ) : LogM Unit :=
  if bSync = true then sqlite3OsSync flags else pure ()

def sqlite3_malloc : LogM Unit := do
  match ← nextIo with
  | none => pure ()
  | some _ => throw .nomem

/-- Runs a program on the wal-index. -/
def onShm {α : Type} (m : ShmM α) : LogM α :=
  zoom (fun s => ⟨s.apWiData, []⟩) (fun s t => { s with apWiData := t.apWiData }) m

def WAL_SYNC_FLAGS (x : ℕ) : ℕ := x &&& 3

def CKPT_SYNC_FLAGS (x : ℕ) : ℕ := (x >>> 2) &&& 3

/-! ## Frames -/

/-- `walEncodeFrame`: the handle and the 24 bytes of the frame header. -/
def walEncodeFrame (pWal : WalHandle) (iPage nTruncate : ℕ) (aData : List UInt8) :
    WalHandle × List UInt8 :=
  let aFrame := put4byte iPage ++ put4byte nTruncate
  if pWal.iReCksum = 0 then
    let aCksum := walChecksumBytes pWal.hdr.bigEndCksum aFrame pWal.hdr.aFrameCksum
    let aCksum := walChecksumBytes pWal.hdr.bigEndCksum (aData.take pWal.szPage) aCksum
    ({ pWal with hdr := { pWal.hdr with aFrameCksum := aCksum } },
      aFrame ++ (pWal.hdr.aSalt ++ (put4byte aCksum.1 ++ put4byte aCksum.2)))
  else (pWal, aFrame ++ List.replicate 16 0)

/-- The encoding of a frame header, with the handle in the state. -/
def encodeFrame (iPage nTruncate : ℕ) (aData : List UInt8) : LogM (List UInt8) := do
  let s ← get
  let (pWal, aFrame) := walEncodeFrame s.pWal iPage nTruncate aData
  set { s with pWal }
  return aFrame

/-- `walWriteToLog`, with a sync at `iSyncPoint` on the way. -/
def walWriteToLog (iSyncPoint syncFlags : ℕ) (aData : List UInt8) (iOffset : ℕ) : LogM Unit := do
  if iOffset < iSyncPoint ∧ iSyncPoint ≤ iOffset + aData.length then
    let iFirstAmt := iSyncPoint - iOffset
    sqlite3OsWrite (aData.take iFirstAmt) iOffset
    sqlite3OsSync (WAL_SYNC_FLAGS syncFlags)
    if aData.length - iFirstAmt = 0 then
      pure ()
    else
      sqlite3OsWrite (aData.drop iFirstAmt) (iOffset + iFirstAmt)
  else
    sqlite3OsWrite aData iOffset

def walWriteOneFrame (iSyncPoint syncFlags : ℕ) (pPage : PgHdr) (nTruncate iOffset : ℕ) :
    LogM Unit := do
  let aFrame ← encodeFrame pPage.pgno nTruncate pPage.pData
  walWriteToLog iSyncPoint syncFlags aFrame iOffset
  walWriteToLog iSyncPoint syncFlags pPage.pData (iOffset + WAL_FRAME_HDRSIZE)

/-- The loop of `walRewriteChecksums`, with `n` frames left. -/
def rewriteFrames (szPage : ℕ) : ℕ → ℕ → LogM Unit
  | 0, _ => pure ()
  | n + 1, iRead => do
    let iOff := walFrameOffset iRead szPage
    let aBuf ← sqlite3OsRead (szPage + WAL_FRAME_HDRSIZE) iOff
    let aFrame ← encodeFrame (get4byte aBuf) (get4byte (aBuf.drop 4)) (aBuf.drop WAL_FRAME_HDRSIZE)
    sqlite3OsWrite aFrame iOff
    rewriteFrames szPage n (iRead + 1)

/-- Where the checksum before frame `iReCksum` is. -/
def iCksumOff (iReCksum szPage : ℕ) : ℕ :=
  if iReCksum = 1 then 24 else walFrameOffset (iReCksum - 1) szPage + 16

/-- The handle with another checksum and nothing left to rewrite. -/
def WalHandle.setCksum (pWal : WalHandle) (aFrameCksum : ℕ × ℕ) : WalHandle :=
  { pWal with iReCksum := 0, hdr := { pWal.hdr with aFrameCksum } }

/-- The statements after the first read of `walRewriteChecksums`. -/
def setCksum (aBuf : List UInt8) : LogM Unit := modify fun s =>
  { s with pWal := s.pWal.setCksum (get4byte aBuf, get4byte (aBuf.drop 4)) }

/-- The first read of `walRewriteChecksums`. When it fails the buffer is taken to hold zeros. -/
def readCksum : LogM Unit := do
  let pWal := (← get).pWal
  let aBuf ← onError (sqlite3OsRead 8 (iCksumOff pWal.iReCksum pWal.szPage)) (setCksum [])
  setCksum aBuf

def walRewriteChecksums (iLast : ℕ) : LogM Unit := do
  sqlite3_malloc
  let s ← get
  readCksum
  rewriteFrames s.pWal.szPage (iLast + 1 - s.pWal.iReCksum) s.pWal.iReCksum

/-! ## Restarting the log -/

/-- What `walRestartHdr` stores in the headers. -/
def WalIndexHdr.restart (hdr : WalIndexHdr) (salt1 : List UInt8) : WalIndexHdr :=
  { hdr with mxFrame := 0, aSalt := put4byte (1 + get4byte hdr.aSalt) ++ salt1 }

/-- What `walFrames` stores in the header of the handle. -/
def WalIndexHdr.wrote (hdr : WalIndexHdr) (szPage mxFrame : ℕ) : WalIndexHdr :=
  { hdr with szPage := hdrSzPage szPage, mxFrame }

/-- What it stores there for a commit. -/
def WalIndexHdr.commit (hdr : WalIndexHdr) (nTruncate : ℕ) : WalIndexHdr :=
  { hdr with iChange := (hdr.iChange + 1) % 2 ^ 32, nPage := nTruncate }

/-- The outcome of a request for locks. -/
inductive LockAnswer
  | ok
  | busy
  | fail (rc : Rc)

/-- What `walRestartLog` and the header of the log depend on besides the state: the random bytes,
the answer to the request for all read locks but the first, and the outcome of the loop over
`walTryBeginRead`. -/
structure RestartAnswer where
  salt1 : List UInt8
  aSalt : List UInt8
  lock : LockAnswer
  beginRead : Except Rc ℕ

namespace LogM

/-- `walRestartHdr`. -/
def walRestartHdr (salt1 : List UInt8) : LogM Unit := modify fun s =>
  let s := { s with pWal := { s.pWal with nCkpt := (s.pWal.nCkpt + 1) % 2 ^ 32 }, nBackfill := 0 }
  s.publish (s.pWal.hdr.restart salt1)

/-- The part of `walRestartLog` that resets the log, when everything in it is checkpointed. -/
def tryRestartHdr (answer : RestartAnswer) : LogM Unit := do
  if 0 < (← get).nBackfill then
    match answer.lock with
    | .ok => walRestartHdr answer.salt1
    | .busy => pure ()
    | .fail rc => throw rc
  else pure ()

/-- The part of `walRestartLog` that gives up the first read lock and begins to read the log. -/
def rebeginRead (beginRead : Except Rc ℕ) : LogM Unit := do
  modify fun s => { s with pWal := { s.pWal with readLock := -1 } }
  match beginRead with
  | .error rc => throw rc
  | .ok mxI =>
    modify fun s => { s with pWal := { s.pWal with readLock := mxI, minFrame := s.nBackfill + 1 } }

/-- `walRestartLog`. -/
def walRestartLog (answer : RestartAnswer) : LogM Unit := do
  if (← get).pWal.readLock = 0 then
    tryRestartHdr answer
    rebeginRead answer.beginRead
  else pure ()

/-! ## Writing frames -/

variable (cfg : LogCfg)

/-- The 32 bytes before the first frame, without and with their checksum. -/
def walHdrStart (nCkpt : ℕ) (aSalt : List UInt8) : List UInt8 :=
  put4byte (WAL_MAGIC ||| cfg.bigEndian.toNat) ++ (put4byte WAL_MAX_VERSION
    ++ (put4byte cfg.szPage ++ (put4byte nCkpt ++ aSalt)))

def walHdrCksum (nCkpt : ℕ) (aSalt : List UInt8) : ℕ × ℕ :=
  walChecksumBytes cfg.bigEndian (walHdrStart cfg nCkpt aSalt) (0, 0)

def aWalHdr (nCkpt : ℕ) (aSalt : List UInt8) : List UInt8 :=
  walHdrStart cfg nCkpt aSalt ++ (put4byte (walHdrCksum cfg nCkpt aSalt).1
    ++ put4byte (walHdrCksum cfg nCkpt aSalt).2)

/-- The part of `walFrames` that writes the header of the log. -/
def writeWalHdr (answer : RestartAnswer) (sync_flags : ℕ) : LogM Unit := do
  let s ← get
  if s.pWal.hdr.mxFrame = 0 then
    let aSalt := if s.pWal.nCkpt = 0 then answer.aSalt else s.pWal.hdr.aSalt
    set { s with pWal := { s.pWal with
      szPage := cfg.szPage
      hdr := { s.pWal.hdr with
        aSalt
        bigEndCksum := cfg.bigEndian
        aFrameCksum := walHdrCksum cfg s.pWal.nCkpt aSalt } } }
    sqlite3OsWrite (aWalHdr cfg s.pWal.nCkpt aSalt) 0
    syncWhen cfg.syncHeader (CKPT_SYNC_FLAGS sync_flags)

/-- The frame of the transaction that holds the page, or zero. `walFindFrame` only asks whether
`readLock` is zero. -/
def findWrite (iFirst pgno : ℕ) (isLast isCommit : Bool) : LogM ℕ := do
  if iFirst ≠ 0 ∧ (isLast = false ∨ isCommit = false) then
    let s ← get
    match walFindFrame s.apWiData s.pWal.readLock.natAbs false s.pWal.minFrame s.pWal.hdr.mxFrame
        pgno with
    | .ok iWrite => return if iFirst ≤ iWrite then iWrite else 0
    | .error _ => return 0
  else return 0

/-- The loop of `walFrames` over the pages: those it appended. -/
def writeFrames (iFirst nTruncate : ℕ) (isCommit : Bool) (sync_flags : ℕ) :
    List PgHdr → ℕ → LogM (List PgHdr)
  | [], _ => pure []
  | p :: pList, iFrame => do
    let iWrite ← findWrite iFirst p.pgno pList.isEmpty isCommit
    if iWrite ≠ 0 then
      modify fun s => { s with pWal := s.pWal.overwrite iWrite }
      sqlite3OsWrite p.pData (walFrameOffset iWrite cfg.szPage + WAL_FRAME_HDRSIZE)
      writeFrames iFirst nTruncate isCommit sync_flags pList iFrame
    else
      let nDbSize := if isCommit = true ∧ pList.isEmpty = true then nTruncate else 0
      walWriteOneFrame 0 sync_flags p nDbSize (walFrameOffset (iFrame + 1) cfg.szPage)
      let pages ← writeFrames iFirst nTruncate isCommit sync_flags pList (iFrame + 1)
      return p :: pages

/-- The loop that repeats the last frame up to `iSyncPoint`, with at most `n` rounds: the frames it
wrote. -/
def padFrames (iSyncPoint syncFlags nTruncate : ℕ) (pLast : PgHdr) :
    ℕ → ℕ → LogM (List PgHdr)
  | 0, _ => pure []
  | n + 1, iOffset => do
    if iOffset < iSyncPoint then
      walWriteOneFrame iSyncPoint syncFlags pLast nTruncate iOffset
      let pages ← padFrames iSyncPoint syncFlags nTruncate pLast n
        (iOffset + (cfg.szPage + WAL_FRAME_HDRSIZE))
      return pLast :: pages
    else pure []

/-- The padding of `walFrames`, where `pLast` is the last page it appended. -/
def padCommit (iSyncPoint syncFlags nTruncate iOffset : ℕ) : Option PgHdr → LogM (List PgHdr)
  | none => pure []
  | some pLast =>
    if cfg.padToSectorBoundary = true then
      padFrames cfg iSyncPoint syncFlags nTruncate pLast (iSyncPoint - iOffset) iOffset
    else pure []

/-- The end of a commit that is synced: padding and the sync. -/
def syncCommit (nTruncate : ℕ) (isCommit : Bool) (sync_flags : ℕ) (pLast : Option PgHdr)
    (iOffset : ℕ) : LogM (List PgHdr) :=
  if isCommit = true ∧ WAL_SYNC_FLAGS sync_flags ≠ 0 then do
    let iSyncPoint := (iOffset + cfg.sectorSize - 1) / cfg.sectorSize * cfg.sectorSize
    let bSync := cfg.padToSectorBoundary = false ∨ iSyncPoint = iOffset
    let pages ← padCommit cfg iSyncPoint sync_flags nTruncate iOffset pLast
    syncWhen (decide bSync) (WAL_SYNC_FLAGS sync_flags)
    return pages
  else pure []

/-- The entries of the wal-index for new frames. Mapping a block of it may fail. -/
def indexFrames : ℕ → List PgHdr → LogM Unit
  | _, [] => pure ()
  | iFrame, p :: pages => do
    sqlite3_malloc
    onShm (walIndexAppend (← get).pWal.hdr.mxFrame (iFrame + 1) p.pgno)
    indexFrames (iFrame + 1) pages

/-- The end of `walFrames`, where the headers are updated. -/
def updateHdr (nTruncate iFrame : ℕ) (isCommit : Bool) : LogM Unit := modify fun s =>
  let hdr := s.pWal.hdr.wrote cfg.szPage iFrame
  if isCommit = true then s.publish (hdr.commit nTruncate) else s.setHdr hdr

/-- The statements of `walFrames` that recompute the checksums of a commit. -/
def reCksumCommit (isCommit : Bool) (iFrame : ℕ) : LogM Unit := do
  if isCommit = true ∧ (← get).pWal.iReCksum ≠ 0 then walRewriteChecksums iFrame else pure ()

/-- The statements of `walFrames` from the first frame on. -/
def framesTail (iFirst : ℕ) (pList : List PgHdr) (nTruncate : ℕ) (isCommit : Bool)
    (sync_flags : ℕ) : LogM Unit := do
  let mxFrame := (← get).pWal.hdr.mxFrame
  let pages ← writeFrames cfg iFirst nTruncate isCommit sync_flags pList mxFrame
  let iFrame := mxFrame + pages.length
  reCksumCommit isCommit iFrame
  let extra ← syncCommit cfg nTruncate isCommit sync_flags pages.getLast?
    (walFrameOffset (iFrame + 1) cfg.szPage)
  indexFrames mxFrame (pages ++ extra)
  updateHdr cfg nTruncate (iFrame + extra.length) isCommit

/-- `walFrames`, without `walLimitSize`. -/
def walFrames (answer : RestartAnswer) (pList : List PgHdr) (nTruncate : ℕ) (isCommit : Bool)
    (sync_flags : ℕ) : LogM Unit := do
  let s ← get
  let iFirst := if s.pWal.hdr ≠ s.live then s.live.mxFrame + 1 else 0
  walRestartLog answer
  writeWalHdr cfg answer sync_flags
  if (← get).pWal.szPage ≠ cfg.szPage then throw .corrupt
  else framesTail cfg iFirst pList nTruncate isCommit sync_flags

end LogM

/-! ## Going back -/

namespace LogM

/-- `sqlite3WalUndo`. -/
def sqlite3WalUndo : LogM Unit := do
  let s ← get
  let iMax := s.pWal.hdr.mxFrame
  set (s.setHdr s.live)
  if iMax ≠ s.live.mxFrame then onShm (walCleanupHash s.live.mxFrame)
  modify fun s => { s with pWal := { s.pWal with iReCksum := 0 } }

/-- `sqlite3WalSavepoint`. -/
def sqlite3WalSavepoint (pWal : WalHandle) : WalSavepoint :=
  ⟨pWal.hdr.mxFrame, pWal.hdr.aFrameCksum, pWal.nCkpt⟩

/-- `aWalData` as `sqlite3WalSavepointUndo` corrects it after a log restart. -/
def savepointData (nCkpt : ℕ) (aWalData : WalSavepoint) : WalSavepoint :=
  if aWalData.nCkpt ≠ nCkpt then { aWalData with mxFrame := 0, nCkpt } else aWalData

/-- `sqlite3WalSavepointUndo`, given the corrected `aWalData`. -/
def sqlite3WalSavepointUndo (aWalData : WalSavepoint) : LogM Unit := do
  let s ← get
  if aWalData.mxFrame < s.pWal.hdr.mxFrame then
    set (s.setHdr { s.pWal.hdr with
      mxFrame := aWalData.mxFrame, aFrameCksum := aWalData.aFrameCksum })
    onShm (walCleanupHash aWalData.mxFrame)
    modify fun s =>
      if s.pWal.hdr.mxFrame < s.pWal.iReCksum then
        { s with pWal := { s.pWal with iReCksum := 0 } }
      else s

end LogM

end Btreelite
