import Btreelite.Shared
import Btreelite.Pager

/-!
# The transactions of a handle

`btreelite_begin`, `btreelite_commit`, `btreelite_rollback` and `btreelite_savepoint` count savepoints
above the transaction state of the B-tree, which stands above the savepoints of the pager. What the
database holds is one image here, and every call that can fail takes its answer from `io`.
-/

namespace Btreelite

inductive TransState
  | none
  | read
  | write
deriving DecidableEq

inductive EState
  | pagerOpen
  | reader
  | writerLocked
  | writerCachemod
  | writerDbmod
  | writerFinished
  | error
deriving DecidableEq

/-- The value of a `PAGER_` constant. -/
def EState.num : EState → ℕ
  | .pagerOpen => 0
  | .reader => 1
  | .writerLocked => 2
  | .writerCachemod => 3
  | .writerDbmod => 4
  | .writerFinished => 5
  | .error => 6

inductive JournalMode
  | delete
  | off
  | memory
  | wal
deriving DecidableEq

/-- The part of `Pager` that transactions change. Of a log that is open it has the number of frames
and what the next call of `sqlite3PagerWalCallback` returns. -/
structure TxnPager (α : Type) where
  eState : EState
  errCode : Option Rc
  /-- What the database held when each savepoint was opened. -/
  aSavepoint : List α
  useWal : Bool
  journalMode : JournalMode
  jfd : Bool
  /-- What is committed, and what the pages hold now. -/
  orig : α
  image : α
  mxFrame : ℕ
  iCallback : ℕ
  /-- How often a checkpoint was attempted. -/
  nCheckpoint : ℕ

/-- What the environment answers to a call: a failure or none, and what the call may read. -/
structure Answer (α : Type) where
  rc : Option Rc
  image : α
  nPage : ℕ
  hdrNPage : ℕ
  mxFrame : ℕ
  version : ℕ

/-- `btreelite_db`, with its B-tree and pager. -/
structure BtreeliteDb (α : Type) where
  nSavepoint : ℕ
  /-- Whether `env.aDb[0].pBt` is the B-tree of the handle. It is null otherwise. -/
  aDb : Bool
  /-- The argument of `sqlite3WalDefaultHook`, when it is the hook. -/
  xWalCallback : Option ℕ
  inTrans : TransState
  pPage1 : Bool
  readOnly : Bool
  initiallyEmpty : Bool
  nPage : ℕ
  /-- The number of pages and the version in page 1. -/
  hdrNPage : ℕ
  version : ℕ
  pager : TxnPager α
  io : ℕ → Answer α

abbrev ApiM (α : Type) := EStateM Rc (BtreeliteDb α)

namespace Api

open Pager (SavepointOp)

variable {α : Type}

def answer : ApiM α (Answer α) := do
  let s ← get
  set { s with io := fun i => s.io (i + 1) }
  return s.io 0

/-- Fails with the error, if there is one. -/
def ret : Option Rc → ApiM α Unit
  | none => pure ()
  | some rc => throw rc

/-- A call that may fail. -/
def tick : ApiM α Unit := do
  ret (← answer).rc

/-- The result of a call that the caller goes on after. -/
def result (m : ApiM α Unit) : ApiM α (Option Rc) := fun s =>
  match m s with
  | .ok _ s => .ok none s
  | .error rc s => .ok (some rc) s

def modifyPager (f : TxnPager α → TxnPager α) : ApiM α Unit :=
  modify fun s => { s with pager := f s.pager }

/-! ## The pager -/

/-- The loop of `pagerOpenSavepoint`, for `n` savepoints. -/
def openSavepoints : ℕ → ApiM α Unit
  | 0 => pure ()
  | n + 1 => do
    tick
    modifyPager fun p => { p with aSavepoint := p.aSavepoint ++ [p.image] }
    openSavepoints n

def sqlite3PagerOpenSavepoint (nSavepoint : ℕ) : ApiM α Unit := do
  let n := (← get).pager.aSavepoint.length
  if n < nSavepoint then do
    tick
    openSavepoints (nSavepoint - n)
  else pure ()

/-- `pagerPlaybackSavepoint`. When it fails the pages may hold anything. -/
def pagerPlaybackSavepoint (image : α) : ApiM α Unit := do
  let a ← answer
  match a.rc with
  | none => modifyPager fun p => { p with image }
  | some rc => do
    modifyPager fun p => { p with image := a.image }
    throw rc

/-- The number of savepoints that `sqlite3PagerSavepoint` keeps. -/
def nNew (op : SavepointOp) (iSavepoint : ℤ) : ℕ :=
  (iSavepoint + if op = .release then 0 else 1).toNat

def sqlite3PagerSavepoint (op : SavepointOp) (iSavepoint : ℤ) : ApiM α Unit := do
  let p := (← get).pager
  match p.errCode with
  | some rc => throw rc
  | none =>
    if iSavepoint < p.aSavepoint.length then do
      modifyPager fun p => { p with aSavepoint := p.aSavepoint.take (nNew op iSavepoint) }
      if op = .rollback ∧ (p.useWal = true ∨ p.jfd = true) then
        pagerPlaybackSavepoint ((p.aSavepoint.take (nNew op iSavepoint)).getLastD p.orig)
      else pure ()
    else pure ()

/-- The statements of `pager_end_transaction` that end the journal and the file: a commit without a
log takes effect here. -/
def finalizeJournal (bCommit : Bool) : ApiM α (Option Rc) := do
  let p := (← get).pager
  if p.useWal = true ∧ bCommit = false then return none
  else
    let a ← answer
    if a.rc = none ∧ bCommit = true then
      modifyPager fun p => { p with jfd := false, orig := p.image }
    else modifyPager fun p => { p with jfd := false }
    return a.rc

def pagerUnlockDb : ApiM α (Option Rc) := do
  if (← get).pager.useWal = true then return none else return (← answer).rc

/-- `pager_end_transaction`. A lock of the file goes with a writer state. -/
def pager_end_transaction (bCommit : Bool) : ApiM α Unit := do
  if (← get).pager.eState.num < EState.writerLocked.num then pure ()
  else
    modifyPager fun p => { p with aSavepoint := [] }
    let rc ← finalizeJournal bCommit
    let rc2 ← pagerUnlockDb
    modifyPager fun p => { p with eState := .reader }
    ret (rc <|> rc2)

/-- The error code that `pager_error` stores. -/
def TxnPager.error (p : TxnPager α) (rc : Rc) : TxnPager α :=
  if rc = .full ∨ rc = .ioerr then { p with errCode := some rc, eState := .error } else p

def pager_error : Option Rc → ApiM α Unit
  | none => pure ()
  | some rc => do
    modifyPager fun p => TxnPager.error p rc
    throw rc

/-- `pager_playback`. When it fails the pages may hold anything. -/
def pager_playback : ApiM α Unit := do
  let a ← answer
  match a.rc with
  | none => do
    modifyPager fun p => { p with image := p.orig }
    pager_end_transaction false
  | some rc => do
    modifyPager fun p => { p with image := a.image }
    throw rc

/-- `sqlite3PagerRollback` with a log. -/
def walRollback : ApiM α Unit := do
  let rc ← result (sqlite3PagerSavepoint .rollback (-1))
  let rc2 ← result (pager_end_transaction false)
  pager_error (rc <|> rc2)

/-- `sqlite3PagerRollback` when no journal is open. -/
def noJournalRollback (eState : EState) : ApiM α Unit := do
  let rc ← result (pager_end_transaction false)
  if EState.writerLocked.num < eState.num then do
    modifyPager fun p => { p with errCode := some .abort, eState := .error }
    ret rc
  else pager_error rc

def sqlite3PagerRollback : ApiM α Unit := do
  let p := (← get).pager
  if p.eState = .error then ret p.errCode
  else if p.eState.num ≤ EState.reader.num then pure ()
  else if p.useWal = true then walRollback
  else if p.jfd = false ∨ p.eState = .writerLocked then noJournalRollback p.eState
  else do
    let rc ← result pager_playback
    pager_error rc

/-- What `pager_unlock` leaves. An error makes it forget the pages. -/
def TxnPager.unlock (p : TxnPager α) : TxnPager α :=
  { p with
    aSavepoint := []
    jfd := false
    eState := .pagerOpen
    errCode := none
    image := if p.errCode = none then p.image else p.orig }

/-- The rollback of an in-memory journal after an error. -/
def memoryRollback (p : TxnPager α) : ApiM α Unit := do
  modifyPager fun p => { p with eState := .pagerOpen, errCode := none }
  let _ ← result pager_playback
  modifyPager fun q => { q with errCode := p.errCode }

def pagerUnlockAndRollback : ApiM α Unit := do
  let p := (← get).pager
  let _ ← result (
    if p.eState ≠ .error ∧ p.eState ≠ .pagerOpen then
      if EState.writerLocked.num ≤ p.eState.num then sqlite3PagerRollback
      else pager_end_transaction false
    else if p.eState = .error ∧ p.journalMode = .memory ∧ p.jfd = true then memoryRollback p
    else pure ())
  modifyPager TxnPager.unlock

/-- `sqlite3PagerWrite`, which opens the journal. -/
def sqlite3PagerWrite : ApiM α Unit := do
  tick
  modifyPager fun p => { p with
    jfd := !p.useWal
    eState := if p.eState.num < EState.writerCachemod.num then .writerCachemod else p.eState }

def sqlite3PagerBegin : ApiM α Unit := do
  let p := (← get).pager
  match p.errCode with
  | some rc => throw rc
  | none =>
    if p.eState = .reader then do
      tick
      modifyPager fun p => { p with eState := .writerLocked }
    else pure ()

def sqlite3PagerCommitPhaseOne : ApiM α Unit := do
  let p := (← get).pager
  match p.errCode with
  | some rc => throw rc
  | none =>
    if p.eState.num < EState.writerCachemod.num then pure ()
    else do
      let a ← answer
      ret a.rc
      if p.useWal = true then
        modifyPager fun p =>
          { p with orig := p.image, mxFrame := a.mxFrame, iCallback := a.mxFrame }
      else modifyPager fun p => { p with eState := .writerFinished }

def sqlite3PagerCommitPhaseTwo : ApiM α Unit := do
  match (← get).pager.errCode with
  | some rc => throw rc
  | none => do
    let rc ← result (pager_end_transaction true)
    pager_error rc

/-- `sqlite3PagerWalCallback`, whose result is a signed 32-bit integer. -/
def sqlite3PagerWalCallback : ApiM α ℤ := do
  let p := (← get).pager
  if p.useWal = true then do
    modifyPager fun p => { p with iCallback := 0 }
    return if p.iCallback < 2 ^ 31 then p.iCallback else p.iCallback - 2 ^ 32
  else return 0

def sqlite3PagerCheckpoint : ApiM α Unit := do
  modifyPager fun p => { p with nCheckpoint := p.nCheckpoint + 1 }
  tick

/-! ## The B-tree -/

def unlockBtreeIfUnused : ApiM α Unit := do
  let s ← get
  if s.inTrans = .none ∧ s.pPage1 = true then do
    set { s with pPage1 := false }
    pagerUnlockAndRollback
  else pure ()

/-- `lockBtree`, when the page size is the right one. -/
def lockBtree : ApiM α Unit := do
  let a ← answer
  ret a.rc
  modify fun s => { s with
    pPage1 := true, nPage := a.nPage, hdrNPage := a.hdrNPage, version := a.version
    pager := { s.pager with eState := .reader, orig := a.image, image := a.image } }

def newDatabase : ApiM α Unit := do
  if 0 < (← get).nPage then pure ()
  else do
    sqlite3PagerWrite
    modify fun s => { s with nPage := 1, hdrNPage := 1, version := 1 }

/-- The locks of `btreeBeginTrans`. -/
def lockIfNeeded : ApiM α Unit := do
  if (← get).pPage1 = false then lockBtree else pure ()

/-- One round of the loop of `btreeBeginTrans`. -/
def beginAttempt (wrflag : ℕ) : ApiM α Unit := do
  lockIfNeeded
  if wrflag = 0 then pure ()
  else if (← get).readOnly = true then throw .readonly
  else do
    sqlite3PagerBegin
    newDatabase

/-- The loop, when the busy handler asks for `n` more rounds. -/
def beginLoop (wrflag : ℕ) : ℕ → ApiM α Unit
  | 0 => Prog.onError (beginAttempt wrflag) unlockBtreeIfUnused
  | n + 1 => do
    let rc ← result (Prog.onError (beginAttempt wrflag) unlockBtreeIfUnused)
    if (rc = some .busy ∨ rc = some .busySnapshot) ∧ (← get).inTrans = .none then beginLoop wrflag n
    else ret rc

/-- The statements of `btreeBeginTrans` that correct the number of pages in page 1. -/
def correctNPage : ApiM α Unit := do
  let s ← get
  if s.nPage = s.hdrNPage then pure ()
  else do
    sqlite3PagerWrite
    modify fun s => { s with hdrNPage := s.nPage }

/-- The end of `btreeBeginTrans`. -/
def transBegun (wrflag nSavepoint : ℕ) : ApiM α Unit := do
  if wrflag = 0 then pure ()
  else do
    correctNPage
    sqlite3PagerOpenSavepoint nSavepoint

def btreeBeginTrans (wrflag nBusy : ℕ) : ApiM α Unit := do
  let s ← get
  if s.readOnly = true ∧ wrflag ≠ 0 then throw .readonly
  else do
    modify fun s => { s with initiallyEmpty := decide (s.nPage = 0) }
    beginLoop wrflag nBusy
    modify fun s => { s with inTrans := if wrflag = 0 then .read else .write }
    transBegun wrflag s.nSavepoint

def sqlite3BtreeBeginTrans (wrflag nBusy : ℕ) : ApiM α Unit := do
  let s ← get
  if s.inTrans = .none ∨ (s.inTrans = .read ∧ wrflag ≠ 0) then btreeBeginTrans wrflag nBusy
  else if wrflag = 0 then pure ()
  else sqlite3PagerOpenSavepoint s.nSavepoint

def btreeEndTransaction : ApiM α Unit := do
  modify fun s => { s with inTrans := .none }
  unlockBtreeIfUnused

def sqlite3BtreeCommitPhaseOne : ApiM α Unit := do
  if (← get).inTrans = .write then sqlite3PagerCommitPhaseOne else pure ()

/-- The part of `sqlite3BtreeCommitPhaseTwo` for a write transaction. -/
def commitWrite : ApiM α Unit := do
  if (← get).inTrans = .write then sqlite3PagerCommitPhaseTwo else pure ()

def sqlite3BtreeCommitPhaseTwo : ApiM α Unit := do
  if (← get).inTrans = .none then pure ()
  else do
    commitWrite
    btreeEndTransaction

def sqlite3BtreeCommit : ApiM α Unit := do
  sqlite3BtreeCommitPhaseOne
  sqlite3BtreeCommitPhaseTwo

/-- Reads page 1 again, and with it the number of pages. -/
def refreshNPage : ApiM α Unit := do
  let rc ← result tick
  if rc = none then modify fun s => { s with nPage := s.hdrNPage } else pure ()

/-- The part of `sqlite3BtreeRollback` for a write transaction. -/
def rollbackWrite : ApiM α (Option Rc) := do
  if (← get).inTrans = .write then do
    let rc2 ← result sqlite3PagerRollback
    refreshNPage
    return rc2
  else return none

/-- `sqlite3BtreeRollback`. Its first call saves the cursors. -/
def sqlite3BtreeRollback : ApiM α Unit := do
  let rc ← result tick
  let rc2 ← rollbackWrite
  btreeEndTransaction
  ret (rc2 <|> rc)

/-- The cursors that a rollback saves. -/
def saveAllCursors (op : SavepointOp) : ApiM α Unit :=
  if op = .rollback then tick else pure ()

def sqlite3BtreeSavepoint (op : SavepointOp) (iSavepoint : ℤ) : ApiM α Unit := do
  if (← get).inTrans = .write then do
    saveAllCursors op
    sqlite3PagerSavepoint op iSavepoint
    modify fun s => if iSavepoint < 0 ∧ s.initiallyEmpty = true then { s with nPage := 0 } else s
    newDatabase
    modify fun s => { s with nPage := s.hdrNPage }
  else pure ()

/-- `sqlite3BtreeCheckpoint`, where `p` says whether it is given a B-tree. -/
def sqlite3BtreeCheckpoint (p : Bool) : ApiM α Unit := do
  if p = false then pure ()
  else if (← get).inTrans ≠ .none then throw .error
  else sqlite3PagerCheckpoint

/-- `sqlite3BtreeSetVersion`. -/
def sqlite3BtreeSetVersion (iVersion nBusy : ℕ) : ApiM α Unit := do
  sqlite3BtreeBeginTrans 0 nBusy
  if (← get).version = iVersion then pure ()
  else do
    sqlite3BtreeBeginTrans 2 nBusy
    sqlite3PagerWrite
    modify fun s => { s with version := iVersion }

/-! ## The public functions -/

def sqlite3WalDefaultHook (pClientData : ℕ) (nFrame : ℤ) : ApiM α Unit := do
  if pClientData ≤ nFrame then do
    let _ ← result (sqlite3BtreeCheckpoint (← get).aDb)
  else pure ()

def btreeliteWalCallback : ApiM α Unit := do
  let nEntry ← sqlite3PagerWalCallback
  match (← get).xWalCallback with
  | none => pure ()
  | some pWalArg => if 0 < nEntry then sqlite3WalDefaultHook pWalArg nEntry else pure ()

/-- The count of savepoints after a write-begin that returned. -/
def countSavepoint (wrflag : ℤ) : ApiM α Unit := modify fun s =>
  if wrflag ≠ 0 ∧ s.inTrans = .write then { s with nSavepoint := s.nSavepoint + 1 } else s

def btreelite_begin (wrflag : ℤ) (nBusy : ℕ) : ApiM α Unit := do
  if wrflag < 0 ∨ 2 < wrflag then throw .error
  else do
    sqlite3BtreeBeginTrans wrflag.toNat nBusy
    countSavepoint wrflag

def setNSavepoint (nSavepoint : ℕ) : ApiM α Unit := modify fun s => { s with nSavepoint }

def btreelite_commit : ApiM α Unit := do
  sqlite3BtreeCommit
  setNSavepoint 0
  btreeliteWalCallback

def btreelite_rollback : ApiM α Unit := do
  sqlite3BtreeRollback
  setNSavepoint 0
  btreeliteWalCallback

/-- `btreelite_savepoint` with an `op` that is one of the two. -/
def btreelite_savepoint (op : SavepointOp) (iSavepoint : ℤ) : ApiM α Unit := do
  let s ← get
  if s.inTrans ≠ .write then throw .error
  else if iSavepoint < 0 ∨ s.nSavepoint ≤ iSavepoint then throw .error
  else if iSavepoint = 0 then
    if op = .release then btreelite_commit
    else do
      sqlite3BtreeSavepoint .rollback (-1)
      setNSavepoint 1
  else do
    sqlite3BtreeSavepoint op (iSavepoint - 1)
    setNSavepoint (if op = .release then iSavepoint.toNat else iSavepoint.toNat + 1)

/-- `btreelite_integrity_check` with pointers to its results. Reading the pages of the trees is one
call. -/
def btreelite_integrity_check (nBusy : ℕ) : ApiM α Unit := do
  btreelite_begin 0 nBusy
  let rc ← result tick
  let _ ← result btreelite_commit
  ret rc

def btreelite_checkpoint : ApiM α Unit := sqlite3BtreeCheckpoint true

/-- `btreelite_wal_autocheckpoint`. -/
def btreelite_wal_autocheckpoint (nFrames : ℤ) : ApiM α Unit := modify fun s =>
  { s with xWalCallback := if 0 < nFrames then some nFrames.toNat else none }

/-- `sqlite3PagerCloseWal`. -/
def sqlite3PagerCloseWal : ApiM α Unit := do
  tick
  modifyPager fun p => { p with useWal := false }

/-- `sqlite3PagerOpenWal`. -/
def sqlite3PagerOpenWal : ApiM α Unit := do
  if (← get).pager.useWal = true then pure ()
  else do
    tick
    modifyPager fun p => { p with
      useWal := true, journalMode := .wal, jfd := false, eState := .pagerOpen, iCallback := 0 }

/-- `sqlite3PagerSetJournalMode`, outside a transaction. -/
def sqlite3PagerSetJournalMode (journalMode : JournalMode) : ApiM α Unit :=
  modifyPager fun p => { p with journalMode }

/-- The step of `btreelite_journal_mode` that leaves the old mode. -/
def leaveMode (eOld eMode : JournalMode) : ApiM α Unit :=
  if eOld = .wal then sqlite3PagerCloseWal
  else if eOld = .memory ∧ eMode = .wal then sqlite3PagerSetJournalMode .off
  else pure ()

/-- The commit of the version bytes. -/
def commitVersion (rc : Option Rc) : ApiM α Unit := do
  if rc = none ∧ (← get).inTrans ≠ .none then sqlite3BtreeCommit else pure ()

/-- The step that opens the log. -/
def enterMode (eMode : JournalMode) : ApiM α Unit := do
  if eMode = .wal then sqlite3PagerOpenWal else pure ()

/-- `btreelite_journal_mode` with one of its two modes, on an environment that can host a log. -/
def btreelite_journal_mode (eMode : JournalMode) (nBusy : ℕ) : ApiM α Unit := do
  let s ← get
  let eOld := s.pager.journalMode
  if eMode = eOld then pure ()
  else if s.inTrans ≠ .none then throw .error
  else do
    leaveMode eOld eMode
    let rc ← result (sqlite3BtreeSetVersion (if eMode = .wal then 2 else 1) nBusy)
    commitVersion rc
    enterMode eMode
    sqlite3PagerSetJournalMode eMode

/-- What the functions that change trees do to the transaction: they make pages writable, spill some
of them, and change them. -/
def updatePages : ApiM α Unit := do
  if (← get).inTrans = .write then do
    sqlite3PagerWrite
    let a ← answer
    modify fun s => { s with
      nPage := a.nPage, hdrNPage := a.hdrNPage, pager := { s.pager with image := a.image } }
    pager_error a.rc
  else throw .readonly

/-- The handle before `btreelite_open` chooses a journal mode. -/
def opened (readOnly : Bool) (image : α) (io : ℕ → Answer α) : BtreeliteDb α where
  nSavepoint := 0
  aDb := false
  xWalCallback := none
  inTrans := .none
  pPage1 := false
  readOnly := readOnly
  initiallyEmpty := false
  nPage := 0
  hdrNPage := 0
  version := 0
  pager :=
    { eState := .pagerOpen, errCode := none, aSavepoint := [], useWal := false
      journalMode := .delete, jfd := false, orig := image, image := image, mxFrame := 0
      iCallback := 0, nCheckpoint := 0 }
  io := io

end Api

end Btreelite
