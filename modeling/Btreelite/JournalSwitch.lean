import Btreelite.ApiTxn

/-!
# Switching the journal mode

`btreelite_journal_mode` closes the log, writes the version bytes of page 1 in a transaction and opens
the log again. What other connections and the file system do is in `Answers`, one answer for each call
that the switch makes outside the pager's own state. A lock that the busy handler asks for again has
the answer it stopped at.
-/

namespace Btreelite.Switch

/-- The value of a `PAGER_JOURNALMODE_` constant. -/
def JournalMode.num : JournalMode → ℤ
  | .delete => 0
  | .off => 2
  | .memory => 4
  | .wal => 5

/-- The database as a reader finds it. -/
structure DbFile where
  /-- The number of pages. -/
  size : ℕ
  /-- The bytes at 18 and 19 of page 1. -/
  version : ℕ × ℕ
  /-- The number of pages that page 1 has at 28. -/
  nPage : ℕ
  /-- Whether the four bytes at 24 and at 92 agree. -/
  counter : Bool
deriving DecidableEq

/-- What is in the buffer of page 1. -/
structure Header where
  version : ℕ × ℕ
  nPage : ℕ
deriving DecidableEq

/-- The buffer that a read of page 1 fills. Past the end of the file it is zero. -/
def DbFile.header (f : DbFile) : Header :=
  if f.size = 0 then ⟨(0, 0), 0⟩ else ⟨f.version, f.nPage⟩

/-- The number of pages that `lockBtree` goes by. -/
def DbFile.dbSize (f : DbFile) : ℕ :=
  if f.header.nPage = 0 ∨ f.counter = false then f.size else f.header.nPage

structure SwitchDb where
  inTrans : TransState
  pPage1 : Option Header
  /-- `BTS_READ_ONLY` and `BTS_NO_WAL`. -/
  readOnly : Bool
  noWal : Bool
  nPage : ℕ
  journalMode : JournalMode
  /-- Whether `pWal` is open. -/
  useWal : Bool
  file : DbFile
deriving DecidableEq

/-- The answers to one call of `lockBtree`. -/
structure LockAnswers where
  /-- The shared lock, a hot journal and the change counter. -/
  wait : Option Rc
  access : Option Rc
  logExists : Bool
  countPages : Option Rc
  deleteLog : Option Rc
  openPresent : Option Rc
  beginRead : Option Rc
  pagecount : Option Rc
  getPage : Option Rc
  /-- Whether page 1 starts with the magic string. -/
  magic : Bool
  openWal : Option Rc
  /-- Whether the fractions, the page size and the reserved space are right. -/
  format : Bool

structure Answers where
  walSupported : Bool
  closeLock : Option Rc
  closeAccess : Option Rc
  closeExists : Bool
  closeOpen : Option Rc
  closeExclusive : Option Rc
  walClose : Option Rc
  lock : LockAnswers
  /-- The answers after `lockBtree` has opened the log. -/
  relock : LockAnswers
  pagerBegin : Option Rc
  writeNew : Option Rc
  writeNPage : Option Rc
  savepoint : Option Rc
  writeVersion : Option Rc
  phaseOne : Option Rc
  phaseTwo : Option Rc
  openWal : Option Rc

abbrev SwitchM := EStateM Rc SwitchDb

/-- Fails with the error, if there is one. -/
def ret : Option Rc → SwitchM Unit
  | none => pure ()
  | some rc => throw rc

/-! ## The pager -/

def pagerOpenWal (rc : Option Rc) : SwitchM Unit := do
  ret rc
  modify fun s => { s with useWal := true }

section

variable (a : Answers)

/-- The log that `sqlite3PagerCloseWal` finds in the file system. -/
def openForClose : SwitchM Unit := do
  if (← get).useWal = true then pure ()
  else do
    ret a.closeLock
    ret a.closeAccess
    if a.closeExists = true then pagerOpenWal a.closeOpen else pure ()

/-- The checkpoint and the end of the log. -/
def closeOpened : SwitchM Unit := do
  if (← get).useWal = true then do
    ret a.closeExclusive
    modify fun s => { s with useWal := false }
    ret a.walClose
  else pure ()

def sqlite3PagerCloseWal : SwitchM Unit := do
  openForClose a
  closeOpened a

/-- Returns whether the log was open before, as `*pbOpen` does. -/
def sqlite3PagerOpenWal (rc : Option Rc) : SwitchM Bool := do
  if (← get).useWal = true then return true
  else if a.walSupported = false then throw .cantopen
  else do
    pagerOpenWal rc
    modify fun s => { s with journalMode := .wal }
    return false

def sqlite3PagerSetJournalMode (eMode : JournalMode) : SwitchM Unit :=
  modify fun s => { s with journalMode := eMode }

end

section

variable (a : Answers) (l : LockAnswers)

/-- `pagerOpenWalIfPresent`, when there is a log in the file system. -/
def openPresent : SwitchM Unit := do
  ret l.countPages
  if (← get).file.size = 0 then ret l.deleteLog
  else do
    let _ ← sqlite3PagerOpenWal a l.openPresent

def pagerOpenWalIfPresent : SwitchM Unit := do
  ret l.access
  if l.logExists = true then openPresent a l
  else modify fun s =>
    if s.journalMode = .wal then { s with journalMode := .delete } else s

/-- The part of `sqlite3PagerSharedLock` for a pager without a log. -/
def lockFile : SwitchM Unit := do
  if (← get).useWal = true then pure ()
  else do
    ret l.wait
    pagerOpenWalIfPresent a l

def pagerBeginReadTransaction : SwitchM Unit := do
  if (← get).useWal = true then ret l.beginRead else pure ()

def sqlite3PagerSharedLock : SwitchM Unit := do
  lockFile a l
  pagerBeginReadTransaction l
  ret l.pagecount

/-! ## The B-tree -/

/-- The end of `lockBtree`, which keeps page 1. -/
def keepPage1 : SwitchM Unit :=
  modify fun s => { s with pPage1 := some s.file.header, nPage := s.file.dbSize }

/-- The tests of `lockBtree` that follow the one of the version. -/
def checkFormat : SwitchM Unit := do
  if l.format = false then throw .corrupt
  else if (← get).file.size < (← get).file.dbSize then throw .corrupt
  else keepPage1

/-- The opening of the log in `lockBtree`. When it was not open, page 1 is left to the next call. -/
def openVersion2 : SwitchM Unit := do
  if (← sqlite3PagerOpenWal a l.openWal) = true then checkFormat l else pure ()

/-- The tests of `lockBtree` of a database that is not empty. -/
def checkHeader : SwitchM Unit := do
  if l.magic = false then throw .corrupt
  else do
    modify fun s => if 2 < s.file.header.version.1 then { s with readOnly := true } else s
    let s ← get
    if 2 < s.file.header.version.2 then throw .corrupt
    else if s.file.header.version.2 = 2 ∧ s.noWal = false then openVersion2 a l
    else checkFormat l

/-- The shared lock and the read of page 1. -/
def sharePage1 : SwitchM Unit := do
  sqlite3PagerSharedLock a l
  ret l.getPage

def lockBtree : SwitchM Unit := do
  sharePage1 a l
  if (← get).file.dbSize = 0 then keepPage1 else checkHeader a l

/-- A round of the loop that calls `lockBtree` until page 1 is there. -/
def lockRound : SwitchM Unit := do
  if (← get).pPage1 = none then lockBtree a l else pure ()

end

section

variable (a : Answers)

/-- The loop itself: in the second round the log is open. -/
def lockLoop : SwitchM Unit := do
  lockRound a a.lock
  lockRound a a.relock

def newDatabase : SwitchM Unit := do
  if 0 < (← get).nPage then pure ()
  else do
    ret a.writeNew
    modify fun s => { s with pPage1 := some ⟨(1, 1), 1⟩, nPage := 1 }

/-- What `btreeBeginTrans` does for a write transaction after the locks. -/
def beginWrite : SwitchM Unit := do
  if (← get).readOnly = true then throw .readonly
  else do
    ret a.pagerBegin
    newDatabase a

/-- One round of the loop of `btreeBeginTrans`. -/
def beginAttempt : SwitchM Unit := do
  lockLoop a
  beginWrite a

def unlockBtreeIfUnused : SwitchM Unit :=
  modify fun s => if s.inTrans = .none then { s with pPage1 := none } else s

/-- The statements that correct the number of pages in page 1. -/
def correctNPage : SwitchM Unit := do
  let s ← get
  match s.pPage1 with
  | none => pure ()
  | some h =>
    if s.nPage = h.nPage then pure ()
    else do
      ret a.writeNPage
      set { s with pPage1 := some { h with nPage := s.nPage } }

/-- `sqlite3BtreeBeginTrans` for a read transaction. -/
def beginReadTrans : SwitchM Unit := do
  Prog.onError (lockLoop a) unlockBtreeIfUnused
  modify fun s => { s with inTrans := .read }

/-- `sqlite3BtreeBeginTrans` for the write transaction that follows. -/
def beginWriteTrans : SwitchM Unit := do
  if (← get).readOnly = true then throw .readonly
  else do
    Prog.onError (beginAttempt a) unlockBtreeIfUnused
    modify fun s => { s with inTrans := .write }
    correctNPage a
    ret a.savepoint

/-- The bytes 18 and 19 of the buffer. -/
def setVersionBytes (iVersion : ℕ) : SwitchM Unit :=
  modify fun s =>
    { s with pPage1 := s.pPage1.map fun h => { h with version := (iVersion, iVersion) } }

/-- The write of `sqlite3BtreeSetVersion`, when page 1 has another version. -/
def writeVersion (iVersion : ℕ) : SwitchM Unit := do
  if (← get).pPage1.map Header.version = some (iVersion, iVersion) then pure ()
  else do
    beginWriteTrans a
    ret a.writeVersion
    setVersionBytes iVersion

def sqlite3BtreeSetVersion (iVersion : ℕ) : SwitchM (Except Rc Unit) := do
  modify fun s => { s with noWal := decide (iVersion = 1) }
  let rc ← Prog.attempt (do beginReadTrans a; writeVersion a iVersion)
  modify fun s => { s with noWal := false }
  return rc

/-- What a commit of the buffer of page 1 makes of the file. -/
def DbFile.commit (f : DbFile) (nPage : ℕ) : Option Header → DbFile
  | none => f
  | some h => { size := nPage, version := h.version, nPage := h.nPage, counter := true }

def commitFile : SwitchM Unit :=
  modify fun s => { s with file := s.file.commit s.nPage s.pPage1 }

/-- `sqlite3BtreeCommitPhaseOne`, whose commit of a log takes effect at once. -/
def sqlite3BtreeCommitPhaseOne : SwitchM Unit := do
  if (← get).inTrans = .write then do
    ret a.phaseOne
    if (← get).useWal = true then commitFile else pure ()
  else pure ()

/-- The part of `sqlite3BtreeCommitPhaseTwo` for a write transaction. -/
def commitWrite : SwitchM Unit := do
  if (← get).inTrans = .write then do
    ret a.phaseTwo
    commitFile
  else pure ()

def btreeEndTransaction : SwitchM Unit := do
  modify fun s => { s with inTrans := .none }
  unlockBtreeIfUnused

def sqlite3BtreeCommitPhaseTwo : SwitchM Unit := do
  if (← get).inTrans = .none then pure ()
  else do
    commitWrite a
    btreeEndTransaction

def sqlite3BtreeCommit : SwitchM Unit := do
  sqlite3BtreeCommitPhaseOne a
  sqlite3BtreeCommitPhaseTwo a

/-! ## The call -/

/-- The modes that the call takes. -/
def requested (eMode : ℤ) : Option JournalMode :=
  if eMode = JournalMode.num .wal then some .wal
  else if eMode = JournalMode.num .memory then some .memory
  else none

/-- The mode that is left when there can be no log. -/
def fallback (eMode : JournalMode) : JournalMode :=
  if eMode = .wal ∧ a.walSupported = false then .memory else eMode

/-- How the old mode is left. -/
def leaveMode (eOld eMode : JournalMode) : SwitchM Unit :=
  if eOld = .wal then sqlite3PagerCloseWal a
  else if eOld = .memory ∧ eMode = .wal then sqlite3PagerSetJournalMode .off
  else pure ()

def versionOf (eMode : JournalMode) : ℕ := if eMode = .wal then 2 else 1

/-- The commit of the version, when `sqlite3BtreeSetVersion` returned no error. -/
def commitVersion : Except Rc Unit → SwitchM Unit
  | .error _ => pure ()
  | .ok _ => do
    if (← get).inTrans = .none then pure () else sqlite3BtreeCommit a

/-- How the new mode is entered. -/
def enterMode (eMode : JournalMode) : SwitchM Unit := do
  if eMode = .wal then do
    let _ ← sqlite3PagerOpenWal a a.openWal
    sqlite3PagerSetJournalMode eMode
  else sqlite3PagerSetJournalMode eMode

/-- The steps of the switch. Each of them that fails ends it. -/
def switchMode (eOld eMode : JournalMode) : SwitchM Unit := do
  leaveMode a eOld eMode
  let rc ← sqlite3BtreeSetVersion a (versionOf eMode)
  commitVersion a rc
  enterMode a eMode

/-- `btreelite_journal_mode` after the test of its argument. The call returns the mode of the pager
whether the switch failed or not. -/
def changeMode (eMode : JournalMode) : SwitchM JournalMode := do
  let s ← get
  if eMode = s.journalMode then return eMode
  else if s.inTrans ≠ .none then throw .error
  else do
    let _ ← Prog.attempt (switchMode a s.journalMode eMode)
    return (← get).journalMode

def btreelite_journal_mode (eMode : ℤ) : SwitchM JournalMode :=
  match requested eMode with
  | none => throw .error
  | some eMode => changeMode a (fallback a eMode)

end

/-! ## What the switch should do -/

/-- The version that a journal mode asks for. An empty database has none. -/
def DbFile.Agrees (f : DbFile) (eMode : JournalMode) : Prop :=
  if f.size = 0 then eMode ≠ .wal else f.version = (versionOf eMode, versionOf eMode)

/-- The call leaves the transaction as it was, and the mode it reports, the mode of the pager and the
version in the database agree. A call that is refused changes nothing. -/
def Atomic (s : SwitchDb) : EStateM.Result Rc SwitchDb JournalMode → Prop
  | .ok eMode s' => s'.inTrans = s.inTrans ∧ eMode = s'.journalMode ∧ s'.file.Agrees eMode
  | .error _ s' => s' = s

end Btreelite.Switch
