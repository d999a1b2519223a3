import Mathlib.Data.List.Basic

/-!
# The pager

Page images of any type, with the rollback journal, the sub-journal and the savepoint bit
vectors that `pager.c` keeps to undo their changes. The page cache, the database file and the WAL
are one map here: what the next `sqlite3PagerGet` of a page returns.
-/

namespace Btreelite

/-- `PagerSavepoint`. Offsets into the journals count records. -/
structure Savepoint where
  nOrig : Nat
  inSavepoint : List Nat
  iOffset : Nat
  iSubRec : Nat
  bTruncateOnRelease : Bool

structure Pager (α : Type) where
  useWal : Bool
  dbSize : Nat
  dbOrigSize : Nat
  image : Nat → α
  /-- The images at the start of the write transaction, which a WAL rollback reads again. -/
  base : Nat → α
  /-- The pages `pager_write` has made dirty in the transaction. -/
  written : List Nat
  inJournal : List Nat
  journal : List (Nat × α)
  savepoints : List Savepoint
  subJournal : List (Nat × α)

namespace Pager

variable {α : Type}

def setImage (p : Pager α) (pgno : Nat) (a : α) : Pager α :=
  { p with image := Function.update p.image pgno a }

def addToSavepointBitvecs (p : Pager α) (pgno : Nat) : Pager α :=
  { p with savepoints := p.savepoints.map fun s =>
      if pgno ≤ s.nOrig then { s with inSavepoint := pgno :: s.inSavepoint } else s }

/-- `subjRequiresPage`: the first savepoint that lacks the page clears `bTruncateOnRelease` of
those after it. -/
def subjRequiresPage (pgno : Nat) : List Savepoint → Option (List Savepoint)
  | [] => none
  | s :: ss =>
    if pgno ≤ s.nOrig ∧ pgno ∉ s.inSavepoint then
      some (s :: ss.map fun t => { t with bTruncateOnRelease := false })
    else (subjRequiresPage pgno ss).map (s :: ·)

def subjournalPage (p : Pager α) (pgno : Nat) : Pager α :=
  addToSavepointBitvecs { p with subJournal := p.subJournal ++ [(pgno, p.image pgno)] } pgno

def subjournalPageIfRequired (p : Pager α) (pgno : Nat) : Pager α :=
  match subjRequiresPage pgno p.savepoints with
  | some ss => subjournalPage { p with savepoints := ss } pgno
  | none => p

def pagerAddPageToRollbackJournal (p : Pager α) (pgno : Nat) : Pager α :=
  addToSavepointBitvecs
    { p with journal := p.journal ++ [(pgno, p.image pgno)], inJournal := pgno :: p.inJournal } pgno

/-- `pager_write`, when its journal writes succeed. -/
def write (p : Pager α) (pgno : Nat) : Pager α :=
  let p := { p with written := pgno :: p.written }
  let p := if !p.useWal ∧ pgno ∉ p.inJournal ∧ pgno ≤ p.dbOrigSize then
      pagerAddPageToRollbackJournal p pgno else p
  let p := subjournalPageIfRequired p pgno
  { p with dbSize := max p.dbSize pgno }

/-- `getPageNormal` with `PAGER_GET_NOCONTENT`: the page is zeroed and counts as journalled. -/
def getNoContent [Inhabited α] (p : Pager α) (pgno : Nat) : Pager α :=
  let p := if !p.useWal ∧ pgno ≤ p.dbOrigSize then
      { p with inJournal := pgno :: p.inJournal } else p
  (addToSavepointBitvecs p pgno).setImage pgno default

/-- `sqlite3PagerDontWrite`: a dirty page need not reach the disk, so a later read may find
anything in it. -/
def dontWrite [Inhabited α] (p : Pager α) (pgno : Nat) : Pager α :=
  if pgno ∈ p.written ∧ p.savepoints.isEmpty then p.setImage pgno default else p

/-! ## Transactions and savepoints -/

/-- `sqlite3PagerBegin`. -/
def beginTrans (p : Pager α) : Pager α :=
  { p with
    dbOrigSize := p.dbSize, base := p.image, written := [], inJournal := [], journal := [],
    savepoints := [], subJournal := [] }

def commit (p : Pager α) : Pager α := beginTrans p

/-- `pagerOpenSavepoint`, up to `nSavepoint` open savepoints. -/
def openSavepoint (p : Pager α) (nSavepoint : Nat) : Pager α :=
  let s : Savepoint :=
    { nOrig := p.dbSize, inSavepoint := [], iOffset := p.journal.length,
      iSubRec := p.subJournal.length, bTruncateOnRelease := true }
  { p with savepoints := p.savepoints ++ List.replicate (nSavepoint - p.savepoints.length) s }

/-- `pager_playback_one_page` over a run of records, with `done` for `pDone`. -/
def playback (image : Nat → α) (dbSize : Nat) :
    List Nat → List (Nat × α) → (Nat → α) × List Nat
  | done, [] => (image, done)
  | done, (pgno, a) :: rs =>
    if pgno > dbSize ∨ pgno ∈ done then playback image dbSize done rs
    else playback (Function.update image pgno a) dbSize (pgno :: done) rs

/-- `pagerRollbackWal`: every page the transaction changed is read again. -/
def rollbackWal (p : Pager α) : Pager α :=
  { p with
    dbSize := p.dbOrigSize, image := fun q => if q ∈ p.written then p.base q else p.image q,
    written := [] }

/-- `pagerPlaybackSavepoint`. -/
def playbackSavepoint (p : Pager α) : Option Savepoint → Pager α
  | none =>
    if p.useWal then rollbackWal p
    else { p with
      dbSize := p.dbOrigSize, image := (playback p.image p.dbOrigSize [] p.journal).1 }
  | some s =>
    let main := if p.useWal then (p.image, []) else
      playback p.image s.nOrig [] (p.journal.drop s.iOffset)
    { p with
      dbSize := s.nOrig
      image := (playback main.1 s.nOrig main.2 (p.subJournal.drop s.iSubRec)).1 }

inductive SavepointOp
  | release
  | rollback
deriving DecidableEq

/-- `sqlite3PagerSavepoint`; `none` is the index `-1`, which only a rollback is given. -/
def savepoint (p : Pager α) (op : SavepointOp) (iSavepoint : Option Nat) : Pager α :=
  match op, iSavepoint with
  | .release, none => p
  | .release, some i =>
    match p.savepoints.drop i with
    | [] => p
    | rel :: _ =>
      { p with
        savepoints := p.savepoints.take i
        subJournal := if rel.bTruncateOnRelease then p.subJournal.take rel.iSubRec
          else p.subJournal }
  | .rollback, none => playbackSavepoint { p with savepoints := [] } none
  | .rollback, some i =>
    match p.savepoints.drop i with
    | [] => p
    | s :: _ => playbackSavepoint { p with savepoints := p.savepoints.take (i + 1) } (some s)

/-- `sqlite3PagerRollback`. -/
def rollback (p : Pager α) : Pager α :=
  beginTrans (playbackSavepoint { p with savepoints := [] } none)

/-! ## What the operations do to the images -/

section Images

variable (p : Pager α) (pgno : Nat)

@[simp] theorem setImage_image (a : α) :
    (p.setImage pgno a).image = Function.update p.image pgno a := rfl

@[simp] theorem addToSavepointBitvecs_image : (p.addToSavepointBitvecs pgno).image = p.image := rfl

@[simp] theorem subjournalPageIfRequired_image :
    (p.subjournalPageIfRequired pgno).image = p.image := by
  unfold subjournalPageIfRequired
  split <;> rfl

@[simp] theorem write_image : (p.write pgno).image = p.image := by
  simp only [write, subjournalPageIfRequired_image]
  split_ifs <;> rfl

theorem getNoContent_image [Inhabited α] :
    (p.getNoContent pgno).image = Function.update p.image pgno default := by
  simp only [getNoContent, setImage_image, addToSavepointBitvecs_image]
  split_ifs <;> rfl

theorem dontWrite_image_of_ne [Inhabited α] {q : Nat} (h : q ≠ pgno) :
    (p.dontWrite pgno).image q = p.image q := by
  unfold dontWrite
  split_ifs
  · exact Function.update_of_ne h _ _
  · rfl

end Images

end Pager

end Btreelite
