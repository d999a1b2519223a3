import Btreelite.WalLookup
import Btreelite.WalRun

/-!
# Connections to one log

Any number of connections read, write and checkpoint through the shared wal-index, the WAL file
and the database file. A step is one load or store of shared memory, one lock call, or one read or
write of a page, and any connection may take the next step. A lock call may fail at any time, and
a call that can fail on a file or for memory may do so.

A header stands for the pair of copies, its salts for the number of the generation of the log: no
two generations have the same salts. The two copies differ only while a connection stores them, so
a header that is bad under the write lock, which `walIndexRecover` would then rebuild, is never
met (`not_recover`).
-/

namespace Btreelite

open Prog

variable {ι α : Type}

/-- The fields of the wal-index header that differ from commit to commit. -/
structure Hdr where
  iChange : ℕ
  mxFrame : ℕ
  nPage : ℕ
  aSalt : ℕ
deriving DecidableEq, Repr

/-- The content of each page, `none` for one that is not in the database or was never written. -/
abbrev DbState (α : Type) := ℕ → Option α

/-- What the connections share. A read mark is `none` for `READMARK_NOT_USED`. The last two fields
are not in the memory: the pages of the committed frames, and the database as last committed. -/
structure WalShared (α : Type) where
  hdr0 : Hdr
  hdr1 : Hdr
  nBackfill : ℕ
  aReadMark : ℕ → Option ℕ
  apWiData : WalIndex
  wal : ℕ → α
  db : ℕ → α
  log : List ℕ
  state : DbState α

inductive CheckpointMode
  | noop
  | passive
  | full
  | restart
  | truncate
deriving DecidableEq, Repr

/-- Who calls `walIndexReadHdr`. -/
inductive HdrCaller
  | reader
  | checkpointer
deriving DecidableEq, Repr

/-- Who calls `walRestartHdr`. -/
inductive RestartCaller
  | writer
  | checkpointer
deriving DecidableEq, Repr

/-- The stores of `walRestartHdr`, in their order. -/
inductive RestartStore
  | hdr1
  | hdr0
  | nBackfill
  | readMark (i : ℕ)
deriving DecidableEq, Repr

/-- What follows the stores to the hash tables. -/
inductive AfterStores
  | frames
  | undo
deriving DecidableEq, Repr

/-- Where a connection stands: the function it is in, with its local variables. The flag of the
steps of `walTryBeginRead` is `useWal`. -/
inductive Pc (α : Type)
  | idle
  | tryHdr (k : HdrCaller)
  | tryHdr1 (k : HdrCaller) (h : Hdr)
  | lockHdr (k : HdrCaller)
  | retryHdr (k : HdrCaller)
  | retryHdr1 (k : HdrCaller) (h : Hdr)
  | unlockHdr (k : HdrCaller)
  | recover
  | tryBegin
  | lockZero
  | checkZero
  | scan (useWal : Bool) (i mxReadMark mxI : ℕ)
  | tryMark (useWal : Bool) (i mxReadMark mxI : ℕ)
  | setMark (useWal : Bool) (i : ℕ)
  | unlockMark (useWal : Bool) (i : ℕ)
  | lockMark (useWal : Bool) (i mxReadMark : ℕ)
  | loadMin (useWal : Bool) (i mxReadMark : ℕ)
  | checkMark (useWal : Bool) (i mxReadMark : ℕ)
  | checkHdr (useWal : Bool) (i mxReadMark : ℕ)
  | unlockRead (useWal : Bool) (i : ℕ)
  | ready
  | find (pgno : ℕ) (l : WalLookup)
  | found (pgno iRead : ℕ)
  | checkWrite
  | unlockWrite
  | restartLog
  | lockRestart
  | restart (k : RestartCaller) (next : RestartStore)
  | truncateWal
  | unlockRestart (k : RestartCaller)
  | leaveZero
  | frames
  | store (pending : List WalIndex) (k : AfterStores)
  | publish1
  | publish0
  | aborted
  | lockCkptWrite
  | ckptStart
  | ckptMark (i mxSafeFrame : ℕ)
  | ckptTry (i mxSafeFrame y : ℕ)
  | ckptSet (i mxSafeFrame : ℕ)
  | ckptUnlock (i mxSafeFrame : ℕ)
  | ckptInit (mxSafeFrame : ℕ)
  | ckptIter (mxSafeFrame : ℕ)
  | ckptRead (mxSafeFrame nBackfill iFrame : ℕ) (pIter : List (ℕ × ℕ))
  | ckptLockZero (mxSafeFrame : ℕ) (pIter : List (ℕ × ℕ))
  | ckptLoad (mxSafeFrame : ℕ) (pIter : List (ℕ × ℕ))
  | ckptSalt (mxSafeFrame nBackfill : ℕ) (pIter : List (ℕ × ℕ))
  | ckptCopy (mxSafeFrame nBackfill : ℕ) (pIter : List (ℕ × ℕ)) (iPrior : ℕ)
  | ckptWrite (mxSafeFrame nBackfill : ℕ) (pIter : List (ℕ × ℕ)) (iDbpage : ℕ) (zBuf : α)
  | ckptSize (mxSafeFrame : ℕ)
  | ckptTrunc (mxSafeFrame : ℕ)
  | ckptPublish (mxSafeFrame : ℕ)
  | ckptUnlockZero (ok : Bool)
  | ckptTail
  | ckptLockAll
  | ckptEnd
  | ckptDone

/-- A `Wal` handle. `hdr` is the private header without the frames that the open transaction has
in the log, which are `own`. `pList`, `nTruncate` and `iFirst` are those of `walFrames`, and
`appended` the frames that this call has added to the file. The last field is not in the handle:
the committed state when the read transaction began, or when it last committed itself. -/
structure WalConn (α : Type) where
  hdr : Hdr
  readLock : Option ℕ
  minFrame : ℕ
  writeLock : ℕ
  ckptLock : Bool
  nCkpt : ℕ
  savepoints : List (ℕ × ℕ)
  own : List (ℕ × α)
  pList : List (ℕ × α)
  nTruncate : ℕ
  iFirst : ℕ
  appended : List (ℕ × α)
  eMode : CheckpointMode
  pc : Pc α
  snap : DbState α

def HdrCaller.next : HdrCaller → Pc α
  | .reader => .tryBegin
  | .checkpointer => .ckptStart

/-- Where `SQLITE_BUSY` from `walIndexReadHdr` leads: a reader tries again. -/
def HdrCaller.busy : HdrCaller → Pc α
  | .reader => .tryHdr .reader
  | .checkpointer => .ckptEnd

/-- Where `WAL_RETRY` leads. -/
def Pc.retry : Bool → Pc α
  | false => .tryHdr .reader
  | true => .scan true 1 0 0

/-- The body of the loop of `walTryBeginRead` over the read marks. -/
def Pc.scanMark (useWal : Bool) (mxFrame i mxReadMark mxI : ℕ) : Option ℕ → Pc α
  | some thisMark =>
    if mxReadMark ≤ thisMark ∧ thisMark ≤ mxFrame then .scan useWal (i + 1) thisMark i
    else .scan useWal (i + 1) mxReadMark mxI
  | none => .scan useWal (i + 1) mxReadMark mxI

def Pc.lookup (pgno : ℕ) : LookupOutcome → Pc α
  | .more l => .find pgno l
  | .found iRead => .found pgno iRead
  | .corrupt => .ready

/-- The body of the loop of `walCheckpoint` over the read marks. -/
def Pc.safeMark (i mxSafeFrame : ℕ) : Option ℕ → Pc α
  | some y => if y < mxSafeFrame then .ckptTry i mxSafeFrame y else .ckptMark (i + 1) mxSafeFrame
  | none => .ckptMark (i + 1) mxSafeFrame

/-- The points at which read lock `i` is held exclusively. -/
def Pc.exLock : Pc α → ℕ → Prop
  | .setMark _ j, i | .unlockMark _ j, i | .ckptSet j _, i | .ckptUnlock j _, i => i = j
  | .restart _ _, i | .truncateWal, i | .unlockRestart _, i => 1 ≤ i ∧ i < WAL_NREADER
  | .ckptLoad _ _, i | .ckptSalt _ _ _, i | .ckptCopy _ _ _ _, i | .ckptWrite _ _ _ _ _, i
  | .ckptSize _, i | .ckptTrunc _, i | .ckptPublish _, i | .ckptUnlockZero _, i => i = 0
  | _, _ => False

/-- The points at which read lock `i` is held shared, though `readLock` does not say so yet. -/
def Pc.shLock : Pc α → ℕ → Prop
  | .checkZero, i => i = 0
  | .loadMin _ j _, i | .checkMark _ j _, i | .checkHdr _ j _, i | .unlockRead _ j, i => i = j
  | _, _ => False

namespace WalShared

/-- The content of a page, from the frame that a lookup gave. -/
def pageAt (σ : WalShared α) (pgno iRead : ℕ) : α :=
  if iRead = 0 then σ.db pgno else σ.wal iRead

def setMark (σ : WalShared α) (i : ℕ) (v : Option ℕ) : WalShared α :=
  { σ with aReadMark := Function.update σ.aReadMark i v }

def setBackfill (σ : WalShared α) (n : ℕ) : WalShared α := { σ with nBackfill := n }

def setHdr1 (σ : WalShared α) (h : Hdr) : WalShared α := { σ with hdr1 := h }

def setIndex (σ : WalShared α) (w : WalIndex) : WalShared α := { σ with apWiData := w }

def setWal (σ : WalShared α) (wal : ℕ → α) : WalShared α := { σ with wal }

def setDb (σ : WalShared α) (db : ℕ → α) : WalShared α := { σ with db }

/-- The store of the first copy of the header that begins a generation of the log. -/
def restart (σ : WalShared α) (h : Hdr) : WalShared α := { σ with hdr0 := h, log := [] }

/-- The store of the first copy of the header that commits frames with these pages. -/
def commit (σ : WalShared α) (h : Hdr) (pgnos : List ℕ) (state : DbState α) : WalShared α :=
  { σ with hdr0 := h, log := σ.log ++ pgnos, state }

end WalShared

/-- The header that `walRestartHdr` makes. -/
def Hdr.restart (h : Hdr) : Hdr := { h with mxFrame := 0, aSalt := h.aSalt + 1 }

/-- What a list of frames makes of a page. -/
def written (own : List (ℕ × α)) (pgno : ℕ) : Option α :=
  match own with
  | [] => none
  | (p, a) :: own => (written own pgno).orElse fun _ => if p = pgno then some a else none

/-- The database after a transaction that wrote these frames and left `nPage` pages. -/
def DbState.apply (d : DbState α) (own : List (ℕ × α)) (nPage : ℕ) : DbState α := fun pgno =>
  if 0 < pgno ∧ pgno ≤ nPage then (written own pgno).orElse fun _ => d pgno else none

namespace WalConn

/-- `pWal->hdr.mxFrame`. -/
def mxFrame (c : WalConn α) : ℕ := c.hdr.mxFrame + c.own.length

/-- The private header. -/
def privateHdr (c : WalConn α) : Hdr := { c.hdr with mxFrame := c.mxFrame }

/-- The header that a commit publishes. -/
def newHdr (c : WalConn α) : Hdr :=
  { c.hdr with iChange := c.hdr.iChange + 1, mxFrame := c.mxFrame, nPage := c.nTruncate }

def walWriter (c : WalConn α) : WalWriter := ⟨c.mxFrame, c.nCkpt, c.savepoints⟩

/-- The connection holds `WAL_READ_LOCK(i)` exclusively. -/
def exRead (c : WalConn α) (i : ℕ) : Prop := c.pc.exLock i

theorem exRead_at {c : WalConn α} {q : Pc α} {i : ℕ} (h : c.pc = q) (hx : q.exLock i) :
    c.exRead i := by
  subst h
  exact hx

/-- The connection holds `WAL_READ_LOCK(i)` shared. -/
def shRead (c : WalConn α) (i : ℕ) : Prop := c.readLock = some i ∨ c.pc.shLock i

end WalConn

/-- `walFramePgno`. -/
def walFramePgno (w : WalIndex) (iFrame : ℕ) : ℕ :=
  (w (walFramePage iFrame)).aPgno (iFrame - iZero (walFramePage iFrame) - 1)

/-- The better of two candidates for the page after `iPrior`. -/
def betterPage (iPrior : ℕ) (best : Option (ℕ × ℕ)) (x : ℕ × ℕ) : Option (ℕ × ℕ) :=
  if x.1 ≤ iPrior then best
  else
    match best with
    | none => some x
    | some b => if x.1 < b.1 ∨ (x.1 = b.1 ∧ b.2 < x.2) then some x else best

/-- `walIteratorNext`, where the iterator is the list of its pages with their frames: the least
page after `iPrior`, with its last frame. -/
def walIteratorNext (pIter : List (ℕ × ℕ)) (iPrior : ℕ) : Option (ℕ × ℕ) :=
  pIter.foldl (betterPage iPrior) none

/-- The memories that a program passes through after the one it starts in. -/
def pending (w : WalIndex) (past : List WalIndex) : List WalIndex := (w :: past).reverse.tail

/-- What a step shows to the outside. -/
inductive WalEvent (α : Type)
  | tau
  | beginRead
  | endRead
  | read (pgno : ℕ) (content : α)
  | beginWrite (rc : Option Rc)
  | endWrite
  | commit (frames : List (ℕ × α)) (nPage : ℕ)

/-- The locks that no other connection holds against this one. -/
structure FreeLocks where
  write : Prop
  ckpt : Prop
  ex : ℕ → Prop
  sh : ℕ → Prop

/-- The steps of `walIndexReadHdr`. -/
inductive HdrAct (free : FreeLocks) (σ : WalShared α) (c : WalConn α) :
    WalEvent α → WalShared α → WalConn α → Prop
  | loadHdr0 {k : HdrCaller} (h : c.pc = .tryHdr k) :
    HdrAct free σ c .tau σ { c with pc := .tryHdr1 k σ.hdr0 }
  | goodHdr {k : HdrCaller} (h : c.pc = .tryHdr1 k σ.hdr1) :
    HdrAct free σ c .tau σ { c with hdr := σ.hdr1, pc := k.next }
  | dirtyHdr {k : HdrCaller} {h1 : Hdr} (h : c.pc = .tryHdr1 k h1) (he : σ.hdr1 ≠ h1) :
    HdrAct free σ c .tau σ { c with pc := if c.writeLock = 0 then .lockHdr k else .retryHdr k }
  | lockHdr {k : HdrCaller} (h : c.pc = .lockHdr k) (hf : free.write) :
    HdrAct free σ c .tau σ { c with writeLock := 2, pc := .retryHdr k }
  | lockHdrBusy {k : HdrCaller} (h : c.pc = .lockHdr k) :
    HdrAct free σ c .tau σ { c with pc := k.busy }
  | reloadHdr0 {k : HdrCaller} (h : c.pc = .retryHdr k) :
    HdrAct free σ c .tau σ { c with pc := .retryHdr1 k σ.hdr0 }
  | goodHdr' {k : HdrCaller} (h : c.pc = .retryHdr1 k σ.hdr1) :
    HdrAct free σ c .tau σ { c with hdr := σ.hdr1, pc := .unlockHdr k }
  | badHdr {k : HdrCaller} {h1 : Hdr} (h : c.pc = .retryHdr1 k h1) (he : σ.hdr1 ≠ h1) :
    HdrAct free σ c .tau σ { c with pc := .recover }
  | unlockHdr {k : HdrCaller} (h : c.pc = .unlockHdr k) :
    HdrAct free σ c .tau σ
      { c with writeLock := if c.writeLock = 2 then 0 else c.writeLock, pc := k.next }

/-- The steps of `walBeginReadTransaction` and `walTryBeginRead`. -/
inductive BeginAct (free : FreeLocks) (σ : WalShared α) (c : WalConn α) :
    WalEvent α → WalShared α → WalConn α → Prop
  | openRead (h : c.pc = .idle) : BeginAct free σ c .tau σ { c with pc := .tryHdr .reader }
  | giveUp (h : c.pc = .tryHdr .reader) : BeginAct free σ c .tau σ { c with pc := .idle }
  | tryBegin (h : c.pc = .tryBegin) :
    BeginAct free σ c .tau σ
      { c with pc := if σ.nBackfill = c.hdr.mxFrame then .lockZero else .scan false 1 0 0 }
  | lockZero (h : c.pc = .lockZero) (hf : free.sh 0) :
    BeginAct free σ c .tau σ { c with pc := .checkZero }
  | lockZeroBusy (h : c.pc = .lockZero) :
    BeginAct free σ c .tau σ { c with pc := .scan false 1 0 0 }
  | checkZero (h : c.pc = .checkZero) (he : σ.hdr0 = c.hdr) :
    BeginAct free σ c .beginRead σ { c with readLock := some 0, snap := σ.state, pc := .ready }
  | checkZeroFails (h : c.pc = .checkZero) (he : σ.hdr0 ≠ c.hdr) :
    BeginAct free σ c .tau σ { c with pc := .unlockRead false 0 }
  | scan {u : Bool} {i m mxI : ℕ} (h : c.pc = .scan u i m mxI) (hi : i < WAL_NREADER) :
    BeginAct free σ c .tau σ { c with pc := .scanMark u c.hdr.mxFrame i m mxI (σ.aReadMark i) }
  | scanned {u : Bool} {i m mxI : ℕ} (h : c.pc = .scan u i m mxI) (hi : WAL_NREADER ≤ i) :
    BeginAct free σ c .tau σ
      { c with pc := if m < c.hdr.mxFrame ∨ mxI = 0 then .tryMark u 1 m mxI
                     else .lockMark u mxI m }
  | tryMark {u : Bool} {i m mxI : ℕ} (h : c.pc = .tryMark u i m mxI) (hi : i < WAL_NREADER)
      (hf : free.ex i) :
    BeginAct free σ c .tau σ { c with pc := .setMark u i }
  | tryMarkBusy {u : Bool} {i m mxI : ℕ} (h : c.pc = .tryMark u i m mxI) (hi : i < WAL_NREADER) :
    BeginAct free σ c .tau σ { c with pc := .tryMark u (i + 1) m mxI }
  | triedMarks {u : Bool} {i m mxI : ℕ} (h : c.pc = .tryMark u i m mxI) (hi : WAL_NREADER ≤ i) :
    BeginAct free σ c .tau σ { c with pc := if mxI = 0 then .retry u else .lockMark u mxI m }
  | setMark {u : Bool} {i : ℕ} (h : c.pc = .setMark u i) :
    BeginAct free σ c .tau (σ.setMark i (some c.hdr.mxFrame)) { c with pc := .unlockMark u i }
  | unlockMark {u : Bool} {i : ℕ} (h : c.pc = .unlockMark u i) :
    BeginAct free σ c .tau σ { c with pc := .lockMark u i c.hdr.mxFrame }
  | lockMark {u : Bool} {i m : ℕ} (h : c.pc = .lockMark u i m) (hf : free.sh i) :
    BeginAct free σ c .tau σ { c with pc := .loadMin u i m }
  | lockMarkBusy {u : Bool} {i m : ℕ} (h : c.pc = .lockMark u i m) :
    BeginAct free σ c .tau σ { c with pc := .retry u }
  | loadMin {u : Bool} {i m : ℕ} (h : c.pc = .loadMin u i m) :
    BeginAct free σ c .tau σ { c with minFrame := σ.nBackfill + 1, pc := .checkMark u i m }
  | checkMark {u : Bool} {i m : ℕ} (h : c.pc = .checkMark u i m) :
    BeginAct free σ c .tau σ
      { c with pc := if σ.aReadMark i = some m then .checkHdr u i m else .unlockRead u i }
  | checkHdr {i m : ℕ} (h : c.pc = .checkHdr false i m) (he : σ.hdr0 = c.hdr) :
    BeginAct free σ c .beginRead σ { c with readLock := some i, snap := σ.state, pc := .ready }
  | checkHdrWal {i m : ℕ} (h : c.pc = .checkHdr true i m) (he : σ.hdr0 = c.hdr) :
    BeginAct free σ c .tau σ { c with readLock := some i, pc := .frames }
  | checkHdrFails {u : Bool} {i m : ℕ} (h : c.pc = .checkHdr u i m) (he : σ.hdr0 ≠ c.hdr) :
    BeginAct free σ c .tau σ { c with pc := .unlockRead u i }
  | unlockRead {u : Bool} {i : ℕ} (h : c.pc = .unlockRead u i) :
    BeginAct free σ c .tau σ { c with pc := .retry u }

/-- The steps of an open read transaction, up to the begin of a write transaction. -/
inductive ReadAct (free : FreeLocks) (σ : WalShared α) (c : WalConn α) :
    WalEvent α → WalShared α → WalConn α → Prop
  | endRead (h : c.pc = .ready) (hw : c.writeLock = 0) :
    ReadAct free σ c .endRead σ { c with readLock := none, pc := .idle }
  | find {pgno k : ℕ} (h : c.pc = .ready) (hk : c.readLock = some k) :
    ReadAct free σ c .tau σ
      { c with pc := .lookup pgno (WalLookup.start k false c.minFrame c.mxFrame pgno) }
  | probe {pgno : ℕ} {l : WalLookup} (h : c.pc = .find pgno l) :
    ReadAct free σ c .tau σ
      { c with pc := .lookup pgno (l.next σ.apWiData pgno c.minFrame c.mxFrame) }
  | read {pgno iRead : ℕ} (h : c.pc = .found pgno iRead) :
    ReadAct free σ c (.read pgno (σ.pageAt pgno iRead)) σ { c with pc := .ready }
  | lockWrite (h : c.pc = .ready) (hw : c.writeLock = 0) (hf : free.write) :
    ReadAct free σ c .tau σ { c with writeLock := 1, pc := .checkWrite }
  | lockWriteBusy (h : c.pc = .ready) (hw : c.writeLock = 0) :
    ReadAct free σ c (.beginWrite (some .busy)) σ c
  | checkWrite (h : c.pc = .checkWrite) (he : σ.hdr0 = c.hdr) :
    ReadAct free σ c (.beginWrite none) σ { c with savepoints := [], pc := .ready }
  | checkWriteFails (h : c.pc = .checkWrite) (he : σ.hdr0 ≠ c.hdr) :
    ReadAct free σ c .tau σ { c with pc := .unlockWrite }
  | unlockWrite (h : c.pc = .unlockWrite) :
    ReadAct free σ c (.beginWrite (some .busySnapshot)) σ { c with writeLock := 0, pc := .ready }
  | endWrite (h : c.pc = .ready) (hw : c.writeLock = 1) (ho : c.own = []) :
    ReadAct free σ c .endWrite σ { c with writeLock := 0 }

/-- Rollbacks, savepoints, and the stores to the hash tables. -/
inductive UndoAct (free : FreeLocks) (σ : WalShared α) (c : WalConn α) :
    WalEvent α → WalShared α → WalConn α → Prop
  | undo {p : WalWriter} {w : WalIndex} {past : List WalIndex} (h : c.pc = .ready)
      (hw : c.writeLock = 1)
      (hrun : sqlite3WalUndo σ.hdr0.mxFrame c.walWriter ⟨σ.apWiData, []⟩ = .ok p ⟨w, past⟩) :
    UndoAct free σ c .tau σ
      { c with hdr := σ.hdr0, own := [], pc := .store (pending w past) .undo }
  | savepoint (h : c.pc = .ready) (hw : c.writeLock = 1) :
    UndoAct free σ c .tau σ
      { c with savepoints := c.savepoints ++ [sqlite3WalSavepoint c.walWriter] }
  | savepointUndo {i : ℕ} {d : ℕ × ℕ} {p : WalWriter} {w : WalIndex} {past : List WalIndex}
      (h : c.pc = .ready) (hw : c.writeLock = 1) (hd : c.savepoints[i]? = some d)
      (hrun : sqlite3WalSavepointUndo c.walWriter d ⟨σ.apWiData, []⟩ = .ok p ⟨w, past⟩) :
    UndoAct free σ c .tau σ
      { c with
        own := c.own.take (p.mxFrame - c.hdr.mxFrame)
        savepoints := c.savepoints.take i ++ [savepointData c.nCkpt d]
        pc := .store (pending w past) .undo }
  | release {i : ℕ} (h : c.pc = .ready) (hw : c.writeLock = 1) :
    UndoAct free σ c .tau σ { c with savepoints := c.savepoints.take i }
  | store {m : WalIndex} {ms : List WalIndex} {k : AfterStores} (h : c.pc = .store (m :: ms) k) :
    UndoAct free σ c .tau (σ.setIndex m) { c with pc := .store ms k }
  | undone (h : c.pc = .store [] .undo) : UndoAct free σ c .tau σ { c with pc := .ready }

/-- The steps of `walFrames`. -/
inductive FramesAct (free : FreeLocks) (σ : WalShared α) (c : WalConn α) :
    WalEvent α → WalShared α → WalConn α → Prop
  | walFrames {pList : List (ℕ × α)} {nTruncate : ℕ} (h : c.pc = .ready) (hw : c.writeLock = 1)
      (hl : pList ≠ []) (hp : ∀ x ∈ pList, x.1 ≠ 0) :
    FramesAct free σ c .tau σ
      { c with
        pList, nTruncate, appended := []
        iFirst := if c.privateHdr = σ.hdr0 then 0 else σ.hdr0.mxFrame + 1
        pc := if c.readLock = some 0 then .restartLog else .frames }
  | restartLog (h : c.pc = .restartLog) :
    FramesAct free σ c .tau σ { c with pc := if 0 < σ.nBackfill then .lockRestart else .leaveZero }
  | lockRestart (h : c.pc = .lockRestart) (hf : ∀ i, 1 ≤ i → i < WAL_NREADER → free.ex i) :
    FramesAct free σ c .tau σ { c with pc := .restart .writer .hdr1 }
  | lockRestartBusy (h : c.pc = .lockRestart) :
    FramesAct free σ c .tau σ { c with pc := .leaveZero }
  | leaveZero (h : c.pc = .leaveZero) :
    FramesAct free σ c .tau σ { c with readLock := none, pc := .scan true 1 0 0 }
  | giveUpWal (h : c.pc = .scan true 1 0 0) : FramesAct free σ c .tau σ { c with pc := .aborted }
  | abort (h : c.pc = .aborted) :
    FramesAct free σ c .endWrite σ { c with writeLock := 0, pc := .idle }
  | overwrite {p k iWrite : ℕ} {a : α} {rest : List (ℕ × α)} (h : c.pc = .frames)
      (hl : c.pList = (p, a) :: rest) (hi : c.iFirst ≠ 0) (hr : rest ≠ [] ∨ c.nTruncate = 0)
      (hk : c.readLock = some k)
      (hf : walFindFrame σ.apWiData k false c.minFrame c.mxFrame p = .ok iWrite)
      (hge : c.iFirst ≤ iWrite) :
    FramesAct free σ c .tau (σ.setWal (Function.update σ.wal iWrite a))
      { c with own := c.own.set (iWrite - c.hdr.mxFrame - 1) (p, a), pList := rest }
  | append {p k : ℕ} {a : α} {rest : List (ℕ × α)} (h : c.pc = .frames)
      (hl : c.pList = (p, a) :: rest) (hk : c.readLock = some k)
      (hno : c.iFirst ≠ 0 → rest ≠ [] ∨ c.nTruncate = 0 → ∃ iWrite < c.iFirst,
        walFindFrame σ.apWiData k false c.minFrame c.mxFrame p = .ok iWrite) :
    FramesAct free σ c .tau
      (σ.setWal (Function.update σ.wal (c.mxFrame + c.appended.length + 1) a))
      { c with appended := c.appended ++ [(p, a)], pList := rest }
  | pad {x : ℕ × α} (h : c.pc = .frames) (hl : c.pList = []) (hn : c.nTruncate ≠ 0)
      (hx : c.appended.getLast? = some x) :
    FramesAct free σ c .tau
      (σ.setWal (Function.update σ.wal (c.mxFrame + c.appended.length + 1) x.2))
      { c with appended := c.appended ++ [x] }
  | index {w : WalIndex} {past : List WalIndex} (h : c.pc = .frames) (hl : c.pList = [])
      (hrun : appendFrames c.mxFrame c.mxFrame (c.appended.map Prod.fst) ⟨σ.apWiData, []⟩
        = .ok () ⟨w, past⟩) :
    FramesAct free σ c .tau σ { c with pc := .store (pending w past) .frames }
  | framesFail (h : c.pc = .frames) : FramesAct free σ c .tau σ { c with pc := .ready }
  | storeFails {ms : List WalIndex} (h : c.pc = .store ms .frames) :
    FramesAct free σ c .tau σ { c with pc := .ready }
  | indexed (h : c.pc = .store [] .frames) :
    FramesAct free σ c .tau σ
      { c with
        own := c.own ++ c.appended
        pc := if c.nTruncate = 0 then .ready else .publish1 }
  | publish1 (h : c.pc = .publish1) :
    FramesAct free σ c .tau (σ.setHdr1 c.newHdr) { c with pc := .publish0 }
  | publish0 (h : c.pc = .publish0) :
    FramesAct free σ c (.commit c.own c.nTruncate)
      (σ.commit c.newHdr (c.own.map Prod.fst) (σ.state.apply c.own c.nTruncate))
      { c with
        hdr := c.newHdr, own := [], savepoints := []
        snap := σ.state.apply c.own c.nTruncate
        pc := .ready }

/-- The steps of `walRestartHdr` and what follows it. -/
inductive RestartAct [Inhabited α] (free : FreeLocks) (σ : WalShared α) (c : WalConn α) :
    WalEvent α → WalShared α → WalConn α → Prop
  | restartHdr1 {k : RestartCaller} (h : c.pc = .restart k .hdr1) :
    RestartAct free σ c .tau (σ.setHdr1 c.hdr.restart) { c with pc := .restart k .hdr0 }
  | restartHdr0 {k : RestartCaller} (h : c.pc = .restart k .hdr0) :
    RestartAct free σ c .tau (σ.restart c.hdr.restart)
      { c with hdr := c.hdr.restart, nCkpt := c.nCkpt + 1, pc := .restart k .nBackfill }
  | restartBackfill {k : RestartCaller} (h : c.pc = .restart k .nBackfill) :
    RestartAct free σ c .tau (σ.setBackfill 0) { c with pc := .restart k (.readMark 1) }
  | restartMark {k : RestartCaller} {i : ℕ} (h : c.pc = .restart k (.readMark i))
      (h1 : 1 ≤ i) (hi : i < WAL_NREADER) :
    RestartAct free σ c .tau (σ.setMark i (if i = 1 then some 0 else none))
      { c with pc := .restart k (.readMark (i + 1)) }
  | restarted {k : RestartCaller} {i : ℕ} (h : c.pc = .restart k (.readMark i))
      (hi : WAL_NREADER ≤ i) :
    RestartAct free σ c .tau σ
      { c with pc := if k = .checkpointer then .truncateWal else .unlockRestart k }
  | truncateWal (h : c.pc = .truncateWal) :
    RestartAct free σ c .tau (σ.setWal fun _ => default)
      { c with pc := .unlockRestart .checkpointer }
  | unlockRestart {k : RestartCaller} (h : c.pc = .unlockRestart k) :
    RestartAct free σ c .tau σ { c with pc := if k = .writer then .leaveZero else .ckptEnd }

/-- The steps of `sqlite3WalCheckpoint` and `walCheckpoint`, but for those around read lock `0`. -/
inductive CkptAct (free : FreeLocks) (σ : WalShared α) (c : WalConn α) :
    WalEvent α → WalShared α → WalConn α → Prop
  | noop (h : c.pc = .idle) :
    CkptAct free σ c .tau σ { c with eMode := .noop, pc := .tryHdr .checkpointer }
  | checkpoint {m : CheckpointMode} (h : c.pc = .idle) (hm : m ≠ .noop) (hf : free.ckpt) :
    CkptAct free σ c .tau σ
      { c with
        eMode := m, ckptLock := true
        pc := if m = .passive then .tryHdr .checkpointer else .lockCkptWrite }
  | lockCkptWrite (h : c.pc = .lockCkptWrite) (hf : free.write) :
    CkptAct free σ c .tau σ { c with writeLock := 1, pc := .tryHdr .checkpointer }
  | lockCkptWriteBusy (h : c.pc = .lockCkptWrite) :
    CkptAct free σ c .tau σ { c with eMode := .passive, pc := .tryHdr .checkpointer }
  | ckptFail (h : c.pc = .ckptStart) : CkptAct free σ c .tau σ { c with pc := .ckptEnd }
  | ckptStart (h : c.pc = .ckptStart) (hm : c.eMode ≠ .noop) :
    CkptAct free σ c .tau σ
      { c with pc := if σ.nBackfill < c.hdr.mxFrame then .ckptMark 1 c.hdr.mxFrame
                     else .ckptTail }
  | ckptMark {i s : ℕ} (h : c.pc = .ckptMark i s) (hi : i < WAL_NREADER) :
    CkptAct free σ c .tau σ { c with pc := .safeMark i s (σ.aReadMark i) }
  | ckptMarked {i s : ℕ} (h : c.pc = .ckptMark i s) (hi : WAL_NREADER ≤ i) :
    CkptAct free σ c .tau σ { c with pc := .ckptInit s }
  | ckptTry {i s y : ℕ} (h : c.pc = .ckptTry i s y) (hf : free.ex i) :
    CkptAct free σ c .tau σ { c with pc := .ckptSet i s }
  | ckptTryBusy {i s y : ℕ} (h : c.pc = .ckptTry i s y) :
    CkptAct free σ c .tau σ { c with pc := .ckptMark (i + 1) y }
  | ckptTryFails {i s y : ℕ} (h : c.pc = .ckptTry i s y) :
    CkptAct free σ c .tau σ { c with pc := .ckptEnd }
  | ckptSet {i s : ℕ} (h : c.pc = .ckptSet i s) :
    CkptAct free σ c .tau (σ.setMark i (if i = 1 then some s else none))
      { c with pc := .ckptUnlock i s }
  | ckptUnlock {i s : ℕ} (h : c.pc = .ckptUnlock i s) :
    CkptAct free σ c .tau σ { c with pc := .ckptMark (i + 1) s }
  | ckptInit {s : ℕ} (h : c.pc = .ckptInit s) :
    CkptAct free σ c .tau σ { c with pc := if σ.nBackfill < s then .ckptIter s else .ckptTail }
  | ckptIter {s : ℕ} (h : c.pc = .ckptIter s) :
    CkptAct free σ c .tau σ
      { c with pc := .ckptRead s σ.nBackfill (iZero (walFramePage (σ.nBackfill + 1)) + 1) [] }
  | ckptIterFails {s : ℕ} (h : c.pc = .ckptIter s) :
    CkptAct free σ c .tau σ { c with pc := .ckptEnd }
  | ckptRead {s n f : ℕ} {it : List (ℕ × ℕ)} (h : c.pc = .ckptRead s n f it)
      (hf : f ≤ c.hdr.mxFrame) :
    CkptAct free σ c .tau σ
      { c with pc := .ckptRead s n (f + 1) (it ++ [(walFramePgno σ.apWiData f, f)]) }
  | ckptReadAll {s n f : ℕ} {it : List (ℕ × ℕ)} (h : c.pc = .ckptRead s n f it)
      (hf : c.hdr.mxFrame < f) :
    CkptAct free σ c .tau σ { c with pc := .ckptLockZero s it }
  | ckptTail (h : c.pc = .ckptTail) :
    CkptAct free σ c .tau σ
      { c with
        pc := if (c.eMode = .restart ∨ c.eMode = .truncate) ∧ c.hdr.mxFrame ≤ σ.nBackfill then
                .ckptLockAll
              else .ckptEnd }
  | ckptLockAll (h : c.pc = .ckptLockAll) (hf : ∀ i, 1 ≤ i → i < WAL_NREADER → free.ex i) :
    CkptAct free σ c .tau σ
      { c with pc := if c.eMode = .truncate then .restart .checkpointer .hdr1
                     else .unlockRestart .checkpointer }
  | ckptLockAllBusy (h : c.pc = .ckptLockAll) : CkptAct free σ c .tau σ { c with pc := .ckptEnd }
  | ckptEnd (h : c.pc = .ckptEnd) :
    CkptAct free σ c .tau σ { c with writeLock := 0, pc := .ckptDone }
  | ckptDone (h : c.pc = .ckptDone) :
    CkptAct free σ c .tau σ { c with ckptLock := false, pc := .idle }

/-- The steps of `walCheckpoint` around read lock `0`. -/
inductive BackfillAct [Inhabited α] (free : FreeLocks) (σ : WalShared α) (c : WalConn α) :
    WalEvent α → WalShared α → WalConn α → Prop
  | ckptLockZero {s : ℕ} {it : List (ℕ × ℕ)} (h : c.pc = .ckptLockZero s it)
      (hf : free.ex 0) :
    BackfillAct free σ c .tau σ { c with pc := .ckptLoad s it }
  | ckptLockZeroBusy {s : ℕ} {it : List (ℕ × ℕ)} (h : c.pc = .ckptLockZero s it) :
    BackfillAct free σ c .tau σ { c with pc := .ckptTail }
  | ckptLoad {s : ℕ} {it : List (ℕ × ℕ)} (h : c.pc = .ckptLoad s it) :
    BackfillAct free σ c .tau σ { c with pc := .ckptSalt s σ.nBackfill it }
  | ckptSalt {s n : ℕ} {it : List (ℕ × ℕ)} (h : c.pc = .ckptSalt s n it) :
    BackfillAct free σ c .tau σ
      { c with pc := if σ.hdr0.aSalt = c.hdr.aSalt then .ckptCopy s n it 0
                     else .ckptUnlockZero true }
  | ckptCopy {s n iPrior p f : ℕ} {it : List (ℕ × ℕ)} (h : c.pc = .ckptCopy s n it iPrior)
      (hn : walIteratorNext it iPrior = some (p, f)) :
    BackfillAct free σ c .tau σ
      { c with pc := if f ≤ n ∨ s < f ∨ c.hdr.nPage < p then .ckptCopy s n it p
                     else .ckptWrite s n it p (σ.wal f) }
  | ckptWrite {s n p : ℕ} {it : List (ℕ × ℕ)} {a : α} (h : c.pc = .ckptWrite s n it p a) :
    BackfillAct free σ c .tau (σ.setDb (Function.update σ.db p a))
      { c with pc := .ckptCopy s n it p }
  | ckptCopied {s n iPrior : ℕ} {it : List (ℕ × ℕ)} (h : c.pc = .ckptCopy s n it iPrior)
      (hn : walIteratorNext it iPrior = none) :
    BackfillAct free σ c .tau σ { c with pc := .ckptSize s }
  | ckptCopyFails {s n iPrior : ℕ} {it : List (ℕ × ℕ)} (h : c.pc = .ckptCopy s n it iPrior) :
    BackfillAct free σ c .tau σ { c with pc := .ckptUnlockZero false }
  | ckptWriteFails {s n p : ℕ} {it : List (ℕ × ℕ)} {a : α} (h : c.pc = .ckptWrite s n it p a) :
    BackfillAct free σ c .tau σ { c with pc := .ckptUnlockZero false }
  | ckptSize {s : ℕ} (h : c.pc = .ckptSize s) :
    BackfillAct free σ c .tau σ
      { c with pc := if σ.hdr0.mxFrame = s then .ckptTrunc s else .ckptPublish s }
  | ckptTrunc {s : ℕ} (h : c.pc = .ckptTrunc s) :
    BackfillAct free σ c .tau (σ.setDb fun p => if p ≤ c.hdr.nPage then σ.db p else default)
      { c with pc := .ckptPublish s }
  | ckptTruncFails {s : ℕ} (h : c.pc = .ckptTrunc s) :
    BackfillAct free σ c .tau σ { c with pc := .ckptUnlockZero false }
  | ckptSyncFails {s : ℕ} (h : c.pc = .ckptPublish s) :
    BackfillAct free σ c .tau σ { c with pc := .ckptUnlockZero false }
  | ckptPublish {s : ℕ} (h : c.pc = .ckptPublish s) :
    BackfillAct free σ c .tau (σ.setBackfill s) { c with pc := .ckptUnlockZero true }
  | ckptUnlockZero {ok : Bool} (h : c.pc = .ckptUnlockZero ok) :
    BackfillAct free σ c .tau σ { c with pc := if ok then .ckptTail else .ckptEnd }

/-- The steps of one connection. -/
inductive Act [Inhabited α] (free : FreeLocks) (σ : WalShared α) (c : WalConn α)
    (e : WalEvent α) (σ' : WalShared α) (c' : WalConn α) : Prop
  | hdr (h : HdrAct free σ c e σ' c')
  | begin (h : BeginAct free σ c e σ' c')
  | read (h : ReadAct free σ c e σ' c')
  | undo (h : UndoAct free σ c e σ' c')
  | frames (h : FramesAct free σ c e σ' c')
  | restart (h : RestartAct free σ c e σ' c')
  | ckpt (h : CkptAct free σ c e σ' c')
  | backfill (h : BackfillAct free σ c e σ' c')

/-! ## Runs -/

structure WalSystem (ι α : Type) where
  shared : WalShared α
  conn : ι → WalConn α

/-- The locks that the connections other than `i` leave free. -/
def WalSystem.free (s : WalSystem ι α) (i : ι) : FreeLocks where
  write := ∀ j ≠ i, (s.conn j).writeLock = 0
  ckpt := ∀ j ≠ i, (s.conn j).ckptLock = false
  ex k := ∀ j ≠ i, ¬ (s.conn j).exRead k ∧ ¬ (s.conn j).shRead k
  sh k := ∀ j ≠ i, ¬ (s.conn j).exRead k

/-- Connection `i` takes a step. -/
inductive WalSystem.Step [DecidableEq ι] [Inhabited α] (s : WalSystem ι α) (i : ι) :
    WalEvent α → WalSystem ι α → Prop
  | act {e : WalEvent α} {σ : WalShared α} {c : WalConn α}
      (h : Act (s.free i) s.shared (s.conn i) e σ c) :
    WalSystem.Step s i e ⟨σ, Function.update s.conn i c⟩

/-- A sequence of steps, with what they showed. -/
inductive WalSystem.Run [DecidableEq ι] [Inhabited α] (s : WalSystem ι α) :
    List (ι × WalEvent α) → WalSystem ι α → Prop
  | nil : WalSystem.Run s [] s
  | snoc {es : List (ι × WalEvent α)} {t t' : WalSystem ι α} {i : ι} {e : WalEvent α}
      (hr : WalSystem.Run s es t) (hs : t.Step i e t') : WalSystem.Run s (es ++ [(i, e)]) t'

/-- A connection outside a transaction. -/
structure WalConn.Closed (c : WalConn α) : Prop where
  pc : c.pc = .idle
  readLock : c.readLock = none
  writeLock : c.writeLock = 0
  ckptLock : c.ckptLock = false
  own : c.own = []

/-- No connection is active, and the wal-index is that of the log, as recovery leaves it. -/
structure WalSystem.Init (s : WalSystem ι α) : Prop where
  closed : ∀ i, (s.conn i).Closed
  copies : s.shared.hdr1 = s.shared.hdr0
  nBackfill : s.shared.nBackfill = 0
  length : s.shared.log.length = s.shared.hdr0.mxFrame
  indexes : Indexes s.shared.apWiData s.shared.log
  /-- The last frame of a page has its committed content, or the database file if there is none. -/
  state : ∀ p r, IsLatest (framesOf s.shared.log 1 s.shared.hdr0.mxFrame p) r →
    s.shared.state p
      = if 0 < p ∧ p ≤ s.shared.hdr0.nPage then some (s.shared.pageAt p r) else none

/-- The states that connections can come to. -/
def WalSystem.Reachable [DecidableEq ι] [Inhabited α] (s : WalSystem ι α) : Prop :=
  ∃ s₀ es, WalSystem.Init s₀ ∧ WalSystem.Run s₀ es s

end Btreelite
