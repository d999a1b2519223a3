import Btreelite.Pager
import Mathlib.Algebra.Group.Pi.Basic
import Mathlib.Algebra.Order.Ring.Nat
import Mathlib.Data.List.Sort

/-!
# The pager over its database file

A pager in a rollback-journal mode, with the page cache and the database file apart: a page stands in
the cache, clean or dirty, and its image in the file may be older. Journals are lists of records, and
offsets into them count records, as in `Btreelite.Pager`; `journalHdr` counts those before the last
journal header. The file is counted in pages.

Reads and writes of files do not fail here, and no call spills a page while it journals a sector.
-/

namespace Btreelite

open Function

/-- The bytes of a page. -/
abbrev PageImage := ℕ → ℕ

namespace PageImage

def get4byte (a : PageImage) (i : ℕ) : ℕ :=
  a i * 2 ^ 24 + a (i + 1) * 2 ^ 16 + a (i + 2) * 2 ^ 8 + a (i + 3)

def put32bits (a : PageImage) (i v : ℕ) : PageImage := fun k =>
  if i ≤ k ∧ k < i + 4 then v / 256 ^ (i + 3 - k) % 256 else a k

/-- The bytes of page 1 that hold the change counter and the version number. -/
def Counter (k : ℕ) : Prop := 24 ≤ k ∧ k < 28 ∨ 92 ≤ k ∧ k < 100

end PageImage

/-- `PgHdr`, but for the flags `PGHDR_CLEAN` and `PGHDR_DIRTY`, which the list of dirty pages tells. -/
structure CachePage where
  data : PageImage
  dontWrite : Bool := false
  needSync : Bool := false
  writeable : Bool := false

inductive PagerState
  | reader
  | locked
  | cachemod
  | dbmod
  | finished
  deriving DecidableEq

structure FilePager where
  eState : PagerState
  changeCountDone : Bool
  /-- The change counter in `dbFileVers`. -/
  dbFileVers : ℕ
  dbSize : ℕ
  dbOrigSize : ℕ
  dbFileSize : ℕ
  file : ℕ → PageImage
  fileSize : ℕ
  cache : ℕ → Option CachePage
  pDirty : List ℕ
  isOpenJfd : Bool
  jfd : List (ℕ × PageImage)
  journalHdr : ℕ
  pInJournal : List ℕ
  savepoints : List Savepoint
  sjfd : List (ℕ × PageImage)

namespace FilePager

/-- What stays as it is during a transaction: `noSync`, the number of pages in a sector, and
`PAGER_SJ_PGNO`, the page of the lock bytes. -/
structure Settings where
  noSync : Bool
  nPagePerSector : ℕ
  sjPgno : ℕ
  one_lt_sjPgno : 1 < sjPgno

variable (k : Settings) (s : FilePager) (pgno : ℕ)

/-! ## The cache -/

/-- A flag of a page; a page that is not cached has none. -/
def has (s : FilePager) (flag : CachePage → Bool) (pgno : ℕ) : Bool := (s.cache pgno).any flag

def data : PageImage := ((s.cache pgno).map (·.data)).getD 0

/-- What a read of the page returns. -/
def content : PageImage := ((s.cache pgno).map (·.data)).getD (if s.dbSize < pgno then 0 else s.file pgno)

def mapPage (f : CachePage → CachePage) : FilePager :=
  { s with cache := update s.cache pgno ((s.cache pgno).map f) }

def setData (a : PageImage) : FilePager := s.mapPage pgno fun c => { c with data := a }

def makeDirty : FilePager :=
  { s.mapPage pgno fun c => { c with dontWrite := false } with
    pDirty := if pgno ∈ s.pDirty then s.pDirty else pgno :: s.pDirty }

def makeClean : FilePager :=
  { s.mapPage pgno fun c => { c with needSync := false, writeable := false } with
    pDirty := s.pDirty.filter (· ≠ pgno) }

/-- `sqlite3PcacheCleanAll`. -/
def cleanAll : FilePager := s.pDirty.foldl makeClean s

def addToSavepointBitvecs : FilePager :=
  { s with savepoints := s.savepoints.map fun sp =>
      if pgno ≤ sp.nOrig then { sp with inSavepoint := pgno :: sp.inSavepoint } else sp }

/-- `getPageNormal` without `PAGER_GET_NOCONTENT`, of a page it does not refuse. -/
def getPage : FilePager :=
  match s.cache pgno with
  | some _ => s
  | none =>
    { s with
      cache := update s.cache pgno (some { data := if s.dbSize < pgno then 0 else s.file pgno })
      dbFileVers := if pgno = 1 ∧ pgno ≤ s.dbSize then (s.file 1).get4byte 24 else s.dbFileVers }

/-- `getPageNormal` with `PAGER_GET_NOCONTENT`. -/
def getNoContent : FilePager :=
  addToSavepointBitvecs
    { s with
      cache := update s.cache pgno (some { (s.cache pgno).getD { data := 0 } with data := 0 })
      pInJournal := if pgno ≤ s.dbOrigSize ∧ s.eState ≠ .locked then pgno :: s.pInJournal
        else s.pInJournal } pgno

/-- `sqlite3PagerGet`, which refuses page 0 and the page of the lock bytes. -/
def sqlite3PagerGet (noContent : Bool) : Option FilePager :=
  if pgno = 0 ∨ pgno = k.sjPgno then none
  else some (if noContent then s.getNoContent pgno else s.getPage pgno)

/-! ## Making pages writable -/

def pagerOpenJournal : FilePager :=
  { s with pInJournal := [], isOpenJfd := true, jfd := [], journalHdr := 0, eState := .cachemod }

def pagerAddPageToRollbackJournal : FilePager :=
  addToSavepointBitvecs
    { s.mapPage pgno fun c => { c with needSync := true } with
      jfd := s.jfd ++ [(pgno, s.data pgno)], pInJournal := pgno :: s.pInJournal } pgno

def subjournalPage : FilePager :=
  addToSavepointBitvecs { s with sjfd := s.sjfd ++ [(pgno, s.data pgno)] } pgno

def subjournalPageIfRequired : FilePager :=
  match Pager.subjRequiresPage pgno s.savepoints with
  | some ss => subjournalPage { s with savepoints := ss } pgno
  | none => s

/-- The part of `pager_write` that journals the page or has it wait for a sync. -/
def journalPage : FilePager :=
  if pgno ∈ s.pInJournal then s
  else if pgno ≤ s.dbOrigSize then s.pagerAddPageToRollbackJournal pgno
  else if s.eState ≠ .dbmod then s.mapPage pgno fun c => { c with needSync := true }
  else s

/-- The part of `pager_write` between the opening of the journal and the change of `dbSize`. -/
def makeWritable : FilePager :=
  let s := ((s.makeDirty pgno).journalPage pgno).mapPage pgno fun c => { c with writeable := true }
  s.subjournalPageIfRequired pgno

def pagerWrite : FilePager :=
  let s := (if s.eState = .locked then s.pagerOpenJournal else s).makeWritable pgno
  { s with dbSize := max s.dbSize pgno }

/-- The first loop of `pagerWriteLargeSector`, over the pages of the sector, with `needSync`. -/
def journalSector : List ℕ → FilePager → Bool → FilePager × Bool
  | [], s, needSync => (s, needSync)
  | pg :: pgs, s, needSync =>
    if pg = pgno ∨ pg ∉ s.pInJournal then
      if pg ≠ k.sjPgno then
        let s := (s.getPage pg).pagerWrite pg
        journalSector pgs s (needSync || s.has (·.needSync) pg)
      else journalSector pgs s needSync
    else journalSector pgs s (needSync || s.has (·.needSync) pg)

/-- The first page of the sector. -/
def sectorStart : ℕ := (pgno - 1) / k.nPagePerSector * k.nPagePerSector + 1

/-- The number of pages from there on that `pagerWriteLargeSector` journals. -/
def sectorPages : ℕ :=
  let pg1 := sectorStart k pgno
  if s.dbSize < pgno then pgno - pg1 + 1
  else if s.dbSize < pg1 + k.nPagePerSector - 1 then s.dbSize + 1 - pg1
  else k.nPagePerSector

/-- The cached pages from `pg1` on wait for a sync of the journal. -/
def flagSync (pg1 nPage : ℕ) : FilePager :=
  { s with cache := fun p => if pg1 ≤ p ∧ p < pg1 + nPage then
      (s.cache p).map fun c => { c with needSync := true } else s.cache p }

def pagerWriteLargeSector : FilePager :=
  let pg1 := sectorStart k pgno
  let nPage := s.sectorPages k pgno
  let (s, needSync) := journalSector k pgno (List.range' pg1 nPage) s false
  if needSync then s.flagSync pg1 nPage else s

def sqlite3PagerWrite : FilePager :=
  if s.has (·.writeable) pgno ∧ pgno ≤ s.dbSize then s.subjournalPageIfRequired pgno
  else if 1 < k.nPagePerSector then s.pagerWriteLargeSector k pgno
  else s.pagerWrite pgno

def sqlite3PagerDontWrite : FilePager :=
  if pgno ∈ s.pDirty ∧ s.savepoints = [] then
    s.mapPage pgno fun c => { c with dontWrite := true, writeable := false }
  else s

/-- `sqlite3PagerRekey`, where `flags` are those of another page. -/
def sqlite3PagerRekey (iNew : ℕ) (flags : CachePage) : FilePager :=
  { s with
    cache := update (update s.cache iNew ((s.cache pgno).map fun c => { flags with data := c.data }))
      pgno none
    pDirty := (s.pDirty.filter (· ≠ iNew)).map fun p => if p = pgno then iNew else p }

/-- The exchange of two page numbers in `balance_nonroot`. -/
def exchange (pgnoA pgnoB : ℕ) : FilePager :=
  match s.cache pgnoA, s.cache pgnoB with
  | some fgA, some fgB =>
    let s := s.sqlite3PagerRekey pgnoA k.sjPgno fgB
    let s := s.sqlite3PagerRekey pgnoB pgnoA fgA
    s.sqlite3PagerRekey k.sjPgno pgnoB fgB
  | _, _ => s

/-! ## Writing to the file -/

/-- The pages of the list of dirty pages lose `PGHDR_NEED_SYNC`. -/
def clearSyncFlags : FilePager :=
  { s with cache := fun p => if p ∈ s.pDirty then (s.cache p).map fun c => { c with needSync := false }
      else s.cache p }

def syncJournal : FilePager :=
  { s.clearSyncFlags with
    journalHdr := if k.noSync then s.journalHdr else s.jfd.length, eState := .dbmod }

/-- `sqlite3OsWrite` of a page, with the `dbFileSize` that follows it. -/
def osWrite (a : PageImage) : FilePager :=
  { s with
    file := update s.file pgno a, fileSize := max s.fileSize pgno
    dbFileSize := max s.dbFileSize pgno }

def pagerWriteChangecounter : FilePager :=
  s.mapPage 1 fun c => { c with data :=
    ((c.data.put32bits 24 (s.dbFileVers + 1)).put32bits 92 (s.dbFileVers + 1)).put32bits 96 3054000 }

/-- What `pager_write_pagelist` does for one page. -/
def writePage : FilePager :=
  if pgno ≤ s.dbSize ∧ ¬ s.has (·.dontWrite) pgno then
    if pgno = 1 then
      let s := s.pagerWriteChangecounter
      { s.osWrite 1 (s.data 1) with dbFileVers := (s.data 1).get4byte 24 }
    else s.osWrite pgno (s.data pgno)
  else s

def pagerWritePagelist (pList : List ℕ) : FilePager := pList.foldl writePage s

/-- `pagerStress` of a dirty page. -/
def pagerStress : FilePager :=
  let s := if s.has (·.needSync) pgno ∨ s.eState = .cachemod then s.syncJournal k else s
  (s.pagerWritePagelist [pgno]).makeClean pgno

/-- The cache drops a page. -/
def evict : FilePager := { s with cache := update s.cache pgno none }

def pagerTruncate (nPage : ℕ) : FilePager :=
  if s.eState = .dbmod ∨ s.eState = .finished then
    if nPage < s.fileSize then
      { s with file := fun p => if p ≤ nPage then s.file p else 0, fileSize := nPage, dbFileSize := nPage }
    else if s.fileSize < nPage then
      { s with file := update s.file nPage 0, fileSize := nPage, dbFileSize := nPage }
    else { s with dbFileSize := nPage }
  else s

/-! ## Savepoints -/

/-- `pagerOpenSavepoint`, up to `nSavepoint` open savepoints. -/
def openSavepoint (nSavepoint : ℕ) : FilePager :=
  let sp : Savepoint := ⟨s.dbSize, [], s.jfd.length, s.sjfd.length, true⟩
  { s with savepoints := s.savepoints ++ List.replicate (nSavepoint - s.savepoints.length) sp }

/-- Record `i` of the main journal, or a record of the sub-journal, is known to be synced. -/
def isSynced : Option ℕ → Bool
  | some i => k.noSync || decide (i < s.journalHdr)
  | none => !s.has (·.needSync) pgno

/-- Where `pager_playback_one_page` puts the page: into the file, or, when a page of the sub-journal is
nowhere in the cache, into a new dirty page. -/
def playbackTarget (i : Option ℕ) (a : PageImage) : FilePager :=
  if (s.eState = .dbmod ∨ s.eState = .finished) ∧ s.isSynced k pgno i then s.osWrite pgno a
  else if i = none ∧ s.cache pgno = none then (s.getNoContent pgno).makeDirty pgno
  else s

/-- `pager_playback_one_page` in a savepoint rollback, where `i` is the number of a record of the main
journal and `none` for the sub-journal. -/
def pagerPlaybackOnePage (i : Option ℕ) (r : ℕ × PageImage) (pDone : Option (List ℕ)) :
    FilePager × Option (List ℕ) :=
  if s.dbSize < r.1 ∨ r.1 ∈ pDone.getD [] then (s, pDone)
  else
    let s := (s.playbackTarget k r.1 i r.2).setData r.1 r.2
    ({ s with dbFileVers := if r.1 = 1 ∧ s.cache 1 ≠ none then r.2.get4byte 24 else s.dbFileVers },
      pDone.map (r.1 :: ·))

/-- The loops of `pagerPlaybackSavepoint`. -/
def playback : List (Option ℕ × ℕ × PageImage) → FilePager → Option (List ℕ) → FilePager
  | [], s, _ => s
  | (i, r) :: rs, s, pDone =>
    let (s, pDone) := s.pagerPlaybackOnePage k i r pDone
    playback rs s pDone

def mainRecords (iOffset : ℕ) : List (Option ℕ × ℕ × PageImage) :=
  (s.jfd.zipIdx.drop iOffset).map fun r => (some r.2, r.1)

def subRecords (iSubRec : ℕ) : List (Option ℕ × ℕ × PageImage) :=
  (s.sjfd.drop iSubRec).map fun r => (none, r)

def pagerPlaybackSavepoint : Option Savepoint → FilePager
  | none =>
    playback k (s.mainRecords 0) { s with dbSize := s.dbOrigSize, changeCountDone := false } none
  | some sp =>
    playback k (s.mainRecords sp.iOffset ++ s.subRecords sp.iSubRec)
      { s with dbSize := sp.nOrig, changeCountDone := false } (some [])

/-- `sqlite3PagerSavepoint`; `none` is the index `-1`, which only a rollback is given. -/
def sqlite3PagerSavepoint (op : Pager.SavepointOp) (iSavepoint : Option ℕ) : FilePager :=
  match op, iSavepoint with
  | .release, none => s
  | .release, some i =>
    match s.savepoints.drop i with
    | [] => s
    | rel :: _ =>
      { s with
        savepoints := s.savepoints.take i
        sjfd := if rel.bTruncateOnRelease then s.sjfd.take rel.iSubRec else s.sjfd }
  | .rollback, none =>
    if s.isOpenJfd then pagerPlaybackSavepoint k { s with savepoints := [] } none
    else { s with savepoints := [] }
  | .rollback, some i =>
    match s.savepoints.drop i with
    | [] => s
    | sp :: _ =>
      let s := { s with savepoints := s.savepoints.take (i + 1) }
      if s.isOpenJfd then s.pagerPlaybackSavepoint k (some sp) else s

/-! ## Commit -/

def pagerIncrChangecounter : FilePager :=
  if !s.changeCountDone ∧ 0 < s.dbSize then
    { (((s.getPage 1).sqlite3PagerWrite k 1).pagerWriteChangecounter) with changeCountDone := true }
  else s

def sqlite3PagerCommitPhaseOne : FilePager :=
  if s.eState = .locked then s
  else
    let s := (s.pagerIncrChangecounter k).syncJournal k
    let s := (s.pagerWritePagelist (s.pDirty.insertionSort (· ≤ ·))).cleanAll
    let s := if s.dbFileSize < s.dbSize then
        s.pagerTruncate (s.dbSize - if s.dbSize = k.sjPgno then 1 else 0)
      else s
    { s with eState := .finished }

/-- `pager_end_transaction` of a commit. The b-tree holds page 1, which an empty database keeps as
zeros in its cache. -/
def pagerEndTransaction : FilePager :=
  let s := cleanAll
    { s with savepoints := [], sjfd := [], jfd := [], pInJournal := [], isOpenJfd := false }
  let s := { s with cache := fun p => if p ≤ s.dbSize then s.cache p
      else if s.dbSize = 0 ∧ p = 1 then (s.cache 1).map fun c : CachePage => { c with data := 0 }
      else none }
  let s := if s.dbSize < s.dbFileSize then s.pagerTruncate s.dbSize else s
  { s with eState := .reader }

def sqlite3PagerCommitPhaseTwo : FilePager := s.pagerEndTransaction

end FilePager

end Btreelite
