import Btreelite.Prog
import Btreelite.ByteFile
import Btreelite.Varint

/-!
# The rollback journal

The pager of `pager.c` as far as it writes and plays back its journal: a header at the start of a sector, the
records of the pages behind it, and another header after each sync that a spilled page asked for. Reads and
writes of the file succeed, a read past its end apart.
-/

namespace Btreelite

namespace Journal

open Prog ByteFile

def aJournalMagic : List UInt8 := [0xd9, 0xd5, 0x05, 0xf9, 0x20, 0xa1, 0x63, 0xd7]

def PENDING_BYTE : ℕ := 0x40000000

/-- A page number with the content of the page. -/
abbrev PgRec := ℕ × List UInt8

structure Pager where
  pageSize : ℕ
  sectorSize : ℕ
  dbSize : ℕ
  dbOrigSize : ℕ
  noSync : Bool
  /-- `journalMode==PAGER_JOURNALMODE_MEMORY` -/
  memory : Bool
  /-- `SQLITE_IOCAP_SAFE_APPEND` -/
  safeAppend : Bool
  /-- The content of the journal file. -/
  jfd : List UInt8
  /-- What the last sync of the file made durable. -/
  synced : List UInt8
  journalOff : ℕ
  journalHdr : ℕ
  nRec : ℕ
  cksumInit : ℕ
  pInJournal : List ℕ
  /-- The pages that were written back to the database, in order. -/
  restored : List PgRec

def JOURNAL_PG_SZ (pPager : Pager) : ℕ := pPager.pageSize + 8

def JOURNAL_HDR_SZ (pPager : Pager) : ℕ := pPager.sectorSize

/-- The page with the locks. -/
def PAGER_SJ_PGNO (pPager : Pager) : ℕ := PENDING_BYTE / pPager.pageSize + 1

/-- The first multiple of `n` from `c` on, as `journalHdrOffset` computes it. -/
def roundUp (n c : ℕ) : ℕ := if c = 0 then 0 else ((c - 1) / n + 1) * n

def journalHdrOffset (pPager : Pager) : ℕ := roundUp (JOURNAL_HDR_SZ pPager) pPager.journalOff

/-- The `while` loop of `pager_cksum`. -/
def cksumLoop (aData : List UInt8) : ℕ → ℕ → ℕ → ℕ
  | 0, _, cksum => cksum
  | fuel + 1, i, cksum => if i = 0 then cksum else cksumLoop aData fuel (i - 200) (u32 (cksum + u8 aData i))

def pager_cksum (pPager : Pager) (aData : List UInt8) : ℕ :=
  cksumLoop aData pPager.pageSize (pPager.pageSize - 200) pPager.cksumInit

/-! ## Writing -/

/-- The header tells the reader to count the records by the size of the file. -/
def Pager.uncounted (pPager : Pager) : Bool := pPager.noSync || pPager.memory || pPager.safeAppend

/-- The buffer that `writeJournalHdr` fills. -/
def zHeader (pPager : Pager) : List UInt8 :=
  (if pPager.uncounted then aJournalMagic ++ put4byte 0xffffffff else List.replicate 12 0)
    ++ (put4byte pPager.cksumInit ++ put4byte pPager.dbOrigSize ++ put4byte pPager.sectorSize
    ++ put4byte pPager.pageSize ++ List.replicate (min pPager.pageSize (JOURNAL_HDR_SZ pPager) - 28) 0)

/-- The `for` loop of `writeJournalHdr`: the buffer is written until the sector is full. -/
def writeHeader (zHeader : List UInt8) (nHeader : ℕ) : ℕ → ℕ → Pager → Pager
  | 0, _, pPager => pPager
  | fuel + 1, nWrite, pPager =>
    if nWrite < JOURNAL_HDR_SZ pPager then
      writeHeader zHeader nHeader fuel (nWrite + nHeader) { pPager with
        jfd := pwrite 0 pPager.jfd pPager.journalOff zHeader
        journalOff := pPager.journalOff + nHeader }
    else pPager

/-- `r` is what `sqlite3_randomness` returns. -/
def writeJournalHdr (r : ℕ) (pPager : Pager) : Pager :=
  let pPager := { pPager with
    journalHdr := journalHdrOffset pPager
    journalOff := journalHdrOffset pPager
    cksumInit := if pPager.memory then pPager.cksumInit else r }
  writeHeader (zHeader pPager) (min pPager.pageSize (JOURNAL_HDR_SZ pPager)) (JOURNAL_HDR_SZ pPager) 0 pPager

def pager_open_journal (r : ℕ) (pPager : Pager) : Pager :=
  writeJournalHdr r { pPager with nRec := 0, journalOff := 0, journalHdr := 0, pInJournal := [] }

def pagerAddPageToRollbackJournal (pgno : ℕ) (pData : List UInt8) (pPager : Pager) : Pager :=
  let iOff := pPager.journalOff
  let cksum := pager_cksum pPager pData
  let jfd := pwrite 0 pPager.jfd iOff (put4byte pgno)
  let jfd := pwrite 0 jfd (iOff + 4) pData
  let jfd := pwrite 0 jfd (iOff + pPager.pageSize + 4) (put4byte cksum)
  { pPager with
    jfd := jfd
    journalOff := iOff + (8 + pPager.pageSize)
    nRec := pPager.nRec + 1
    pInJournal := pPager.pInJournal ++ [pgno] }

/-- What `pager_write` does to the journal. -/
def pager_write (pgno : ℕ) (pData : List UInt8) (pPager : Pager) : Pager :=
  if pgno ∉ pPager.pInJournal ∧ pgno ≤ pPager.dbOrigSize then
    pagerAddPageToRollbackJournal pgno pData pPager
  else pPager

/-- A header that an earlier transaction left behind the journal loses its first byte. -/
def hideNextHeader (pPager : Pager) : Pager :=
  let iNextHdrOffset := journalHdrOffset pPager
  if pread pPager.jfd iNextHdrOffset 8 = aJournalMagic then
    { pPager with jfd := pwrite 0 pPager.jfd iNextHdrOffset [0] }
  else pPager

/-- The update of the header written last. -/
def updateHeader (pPager : Pager) : Pager :=
  { pPager with jfd := pwrite 0 pPager.jfd pPager.journalHdr (aJournalMagic ++ put4byte pPager.nRec) }

/-- `syncJournal`, with what `writeJournalHdr` reads of the random numbers. -/
def syncJournal (newHdr : Bool) (r : ℕ) (pPager : Pager) : Pager :=
  if pPager.noSync then pPager
  else if pPager.memory then { pPager with journalHdr := pPager.journalOff }
  else
    let pPager := if pPager.safeAppend then pPager else updateHeader (hideNextHeader pPager)
    let pPager := { pPager with synced := pPager.jfd, journalHdr := pPager.journalOff }
    if newHdr ∧ ¬ pPager.safeAppend then writeJournalHdr r { pPager with nRec := 0 } else pPager

/-! ## Playing back -/

inductive Rc
  | done | shortRead
  /-- The loop of `pager_playback` was not given rounds enough. -/
  | fuel
deriving DecidableEq

abbrev PlayM := EStateM Rc Pager

def sqlite3OsRead (iAmt iOfst : ℕ) : PlayM (List UInt8) := do
  let zBuf := pread (← get).jfd iOfst iAmt
  if zBuf.length = iAmt then return zBuf else throw .shortRead

def read32bits (offset : ℕ) : PlayM ℕ :=
  get4byte <$> sqlite3OsRead 4 offset

/-- The sizes in the header are in range. -/
def validSizes (iPageSize iSectorSize : ℕ) : Bool :=
  ¬ (iPageSize < 512 ∨ iSectorSize < 32 ∨ iPageSize > 65536 ∨ iSectorSize > 65536
    ∨ (iPageSize - 1) &&& iPageSize ≠ 0 ∨ (iSectorSize - 1) &&& iSectorSize ≠ 0)

/-- The sizes are read from the first header of the file. -/
def readSizes (iHdrOff : ℕ) : PlayM Unit :=
  if iHdrOff = 0 then do
    let iSectorSize ← read32bits (iHdrOff + 20)
    let iPageSize ← read32bits (iHdrOff + 24)
    let pPager ← get
    let iPageSize := if iPageSize = 0 then pPager.pageSize else iPageSize
    if validSizes iPageSize iSectorSize then
      set { pPager with pageSize := iPageSize, sectorSize := iSectorSize }
    else throw .done
  else pure ()

/-- The magic is not looked for in the header that this pager wrote last. -/
def checkMagic (isHot : Bool) (iHdrOff : ℕ) : PlayM Unit := do
  if isHot ∨ iHdrOff ≠ (← get).journalHdr then
    let aMagic ← sqlite3OsRead 8 iHdrOff
    if aMagic ≠ aJournalMagic then throw .done else pure ()
  else pure ()

/-- Returns `*pNRec` and `*pDbSize`. -/
def readJournalHdr (isHot : Bool) (journalSize : ℕ) : PlayM (ℕ × ℕ) := do
  modify fun pPager => { pPager with journalOff := journalHdrOffset pPager }
  let pPager ← get
  let iHdrOff := pPager.journalOff
  if iHdrOff + JOURNAL_HDR_SZ pPager > journalSize then throw .done
  else
    checkMagic isHot iHdrOff
    let nRec ← read32bits (iHdrOff + 8)
    let cksumInit ← read32bits (iHdrOff + 12)
    modify fun pPager => { pPager with cksumInit := cksumInit }
    let dbSize ← read32bits (iHdrOff + 16)
    readSizes iHdrOff
    modify fun pPager => { pPager with journalOff := pPager.journalOff + JOURNAL_HDR_SZ pPager }
    return (nRec, dbSize)

/-- `pager_playback_one_page` of the main journal, without a set of pages done. -/
def pager_playback_one_page : PlayM Unit := do
  let pPager ← get
  let iOff := pPager.journalOff
  let pgno ← read32bits iOff
  let aData ← sqlite3OsRead pPager.pageSize (iOff + 4)
  modify fun pPager => { pPager with journalOff := iOff + (pPager.pageSize + 8) }
  if pgno = 0 ∨ pgno = PAGER_SJ_PGNO pPager then throw .done
  else if pgno > pPager.dbSize then pure ()
  else
    let cksum ← read32bits (iOff + pPager.pageSize + 4)
    if pager_cksum pPager aData ≠ cksum then throw .done
    else modify fun pPager => { pPager with restored := pPager.restored ++ [(pgno, aData)] }

/-- The `for` loop of `pager_playback`, up to the first page that is not played back. -/
def playbackPages : ℕ → PlayM Unit
  | 0 => pure ()
  | nRec + 1 => do
    pager_playback_one_page
    playbackPages nRec

/-- The number of records in `sz` bytes, cut to a `u32`. -/
def recordsIn (pPager : Pager) (sz : ℕ) : ℕ := u32 (sz / JOURNAL_PG_SZ pPager)

/-- The number of records behind a header that says `nRec`, read up to `journalOff`. -/
def recordCount (isHot : Bool) (szJ nRec : ℕ) (pPager : Pager) : ℕ :=
  let nRec := if nRec = 0xffffffff then recordsIn pPager (szJ - JOURNAL_HDR_SZ pPager) else nRec
  if nRec = 0 ∧ ¬ isHot ∧ pPager.journalHdr + JOURNAL_HDR_SZ pPager = pPager.journalOff then
    recordsIn pPager (szJ - pPager.journalOff)
  else nRec

/-- The first header says how large the database was. -/
def truncateFirst (mxPg : ℕ) (pPager : Pager) : Pager :=
  if pPager.journalOff = JOURNAL_HDR_SZ pPager then { pPager with dbSize := mxPg } else pPager

/-- The `while` loop of `pager_playback`. -/
def playbackLoop (isHot : Bool) (szJ : ℕ) : ℕ → PlayM Unit
  | 0 => throw .fuel
  | fuel + 1 => do
    match ← attempt (readJournalHdr isHot szJ) with
    | .error .done => pure ()
    | .error rc => throw rc
    | .ok (nRec, mxPg) =>
      modify (truncateFirst mxPg)
      match ← attempt (playbackPages (recordCount isHot szJ nRec (← get))) with
      | .ok _ => playbackLoop isHot szJ fuel
      | .error .done =>
        modify fun pPager => { pPager with journalOff := szJ }
        playbackLoop isHot szJ fuel
      | .error .shortRead => pure ()
      | .error rc => throw rc

def pager_playback (isHot : Bool) : PlayM Unit := do
  let pPager ← get
  let szJ := pPager.jfd.length
  modify fun pPager => { pPager with journalOff := 0, restored := [] }
  playbackLoop isHot szJ (szJ + 2)
  modify fun q => { q with pageSize := pPager.pageSize, sectorSize := pPager.sectorSize }

end Journal

end Btreelite
