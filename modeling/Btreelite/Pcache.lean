import Mathlib.Algebra.BigOperators.Group.Finset.Basic
import Btreelite.Pcache1

/-!
# The page cache

The upper layer counts the references to a page, keeps the dirty pages on a doubly linked list in
the order they were last used, and asks its user to make a dirty page clean when the cache is full.
The pages themselves are in the hashed cache below, whose slots carry this layer's header and the
page content. `PcacheOp` lists the calls of the pager, and `PCache.step` is what each does.
-/

namespace Btreelite

/-- The `PGHDR_` flags. -/
structure PCache.PgFlags where
  clean : Bool
  dirty : Bool
  writeable : Bool
  needSync : Bool
  dontWrite : Bool

/-- The page header of this layer. -/
structure PCache.PgHdr where
  pgno : ℕ
  flags : PCache.PgFlags
  nRef : ℕ

structure PCache where
  /-- `pDirty` and `pDirtyTail`, with `pDirtyNext` and `pDirtyPrev` of every page. -/
  dirty : Links Slot
  pSynced : Option Slot
  nRefSum : ℕ
  szCache : ℤ
  szSpill : ℤ
  szPage : ℕ
  szExtra : ℕ
  bPurgeable : Bool
  eCreate : ℕ
  pCache : PCache1
  hdr : Slot → PCache.PgHdr
  pData : Slot → List UInt8

/-- What `xStress` answers. -/
inductive PcacheRc
  | ok
  | busy
  | nomem
  | error
  deriving DecidableEq

/-- What the callback does about the page it is given. -/
structure Stress where
  /-- It synced the journal, and called `sqlite3PcacheClearSyncFlags`. -/
  syncs : Bool
  /-- It wrote the page, and called `sqlite3PcacheMakeClean`. -/
  cleans : Bool
  rc : PcacheRc

inductive DirtyListOp
  | remove
  | add
  | front

namespace PCache

open Function (update)

def PgFlags.setClean : PgFlags := ⟨true, false, false, false, false⟩

section Dirty

variable (p : PCache) (s : Slot)

def setHdr (h : PgHdr) : PCache := { p with hdr := update p.hdr s h }

def setFlags (f : PgFlags) : PCache := p.setHdr s { p.hdr s with flags := f }

/-- `pcacheManageDirtyList` with the bit `PCACHE_DIRTYLIST_REMOVE`. -/
def dirtyRemove : PCache :=
  let d := p.dirty.remove s
  { p with
    dirty := d
    pSynced := if p.pSynced = some s then p.dirty.prev s else p.pSynced
    eCreate := if p.dirty.prev s = none ∧ d.first = none then 2 else p.eCreate }

/-- `pcacheManageDirtyList` with the bit `PCACHE_DIRTYLIST_ADD`. -/
def dirtyAdd : PCache :=
  { p with
    dirty := p.dirty.pushFront s
    eCreate := if p.dirty.first = none ∧ p.bPurgeable then 1 else p.eCreate
    pSynced := if p.pSynced = none ∧ ¬ (p.hdr s).flags.needSync then some s else p.pSynced }

def pcacheManageDirtyList : DirtyListOp → PCache
  | .remove => p.dirtyRemove s
  | .add => p.dirtyAdd s
  | .front => (p.dirtyRemove s).dirtyAdd s

def pcacheUnpin : PCache :=
  if p.bPurgeable then { p with pCache := p.pCache.pcache1Unpin s false } else p

def sqlite3PcacheMakeDirty : PCache :=
  let f := (p.hdr s).flags
  if f.clean ∨ f.dontWrite then
    let p := p.setFlags s { f with dontWrite := false }
    if f.clean then
      (p.setFlags s { f with dontWrite := false, dirty := !f.dirty, clean := !f.clean }
        ).pcacheManageDirtyList s .add
    else p
  else p

def sqlite3PcacheMakeClean : PCache :=
  let p := p.pcacheManageDirtyList s .remove
  let p := p.setFlags s
    { (p.hdr s).flags with dirty := false, needSync := false, writeable := false, clean := true }
  if (p.hdr s).nRef = 0 then p.pcacheUnpin s else p

end Dirty

section Lists

variable (p : PCache)

/-- The loop of `sqlite3PcacheCleanAll`. -/
def cleanLoop : ℕ → PCache → PCache
  | 0, p => p
  | fuel + 1, p =>
    match p.dirty.first with
    | none => p
    | some s => cleanLoop fuel (p.sqlite3PcacheMakeClean s)

def sqlite3PcacheCleanAll : PCache := cleanLoop p.pCache.nPage p

/-- Change the flags of every page on the dirty list. -/
def mapDirty (f : PgFlags → PgFlags) : PCache :=
  (p.dirty.walk p.pCache.nPage p.dirty.first).foldl
    (fun p s => p.setFlags s (f (p.hdr s).flags)) p

def sqlite3PcacheClearWritable : PCache :=
  { p.mapDirty fun f => { f with needSync := false, writeable := false } with
    pSynced := p.dirty.last }

def sqlite3PcacheClearSyncFlags : PCache :=
  { p.mapDirty fun f => { f with needSync := false } with pSynced := p.dirty.last }

end Lists

section Sizes

def numberOfCachePages (szCache : ℤ) (szPage szExtra : ℕ) : ℕ :=
  if 0 ≤ szCache then szCache.toNat
  else min (1024 * szCache.natAbs / (szPage + szExtra)) 1000000000

variable (p : PCache)

def sqlite3PcacheSetCachesize (mxPage : ℤ) : PCache :=
  { p with
    szCache := mxPage
    pCache := p.pCache.pcache1Cachesize (numberOfCachePages mxPage p.szPage p.szExtra) }

def sqlite3PcacheSetSpillsize (mxPage : ℤ) : PCache :=
  if mxPage = 0 then p
  else
    { p with
      szSpill := if mxPage < 0 then
          Int.bmod ((-1024 * mxPage) / (p.szPage + p.szExtra)) (2 ^ 32)
        else mxPage }

def sqlite3PcacheShrink : PCache := { p with pCache := p.pCache.pcache1Shrink }

/-- `ROUND8(sizeof(PgHdr))` and `ROUND8(sizeof(PgHdr1))` -/
def headerSize : ℕ := 80 + 56

/-- A new cache below, of the size that is configured. -/
def newCache (old : PgHdr1s) (nInitPage : ℤ) (szPage szExtra : ℕ) (bPurgeable hash : Bool)
    (nMax : ℕ) : Option PCache1 :=
  (PCache1.pcache1Create old nInitPage (szPage + szExtra + headerSize) bPurgeable hash).map
    (·.pcache1Cachesize nMax)

def sqlite3PcacheSetPageSize (szPage : ℕ) (hash : Bool) : PCache :=
  match newCache p.pCache.toPgHdr1s p.pCache.nInitPage szPage p.szExtra p.bPurgeable hash
      (numberOfCachePages p.szCache p.szPage p.szExtra) with
  | none => p
  | some c => { p with pCache := c, szPage := szPage }

/-- An empty cache, in memory that still holds what was there before. -/
def sqlite3PcacheOpen (old : PgHdr1s) (hdr : Slot → PgHdr) (pData : Slot → List UInt8)
    (nInitPage : ℤ) (szPage szExtra : ℕ) (bPurgeable hash : Bool) : Option PCache :=
  (newCache old nInitPage szPage szExtra bPurgeable hash (numberOfCachePages 100 1 szExtra)).map
    fun c =>
      { dirty := ⟨none, none, fun _ => none, fun _ => none⟩
        pSynced := none, nRefSum := 0, szCache := 100, szSpill := 1, szPage, szExtra, bPurgeable
        eCreate := 2, pCache := c, hdr, pData }

end Sizes

section Fetch

variable (p : PCache)

def sqlite3PcacheFetch (pgno createFlag : ℕ) (a : PageAlloc) : PCache × Option Slot :=
  let r := p.pCache.pcache1Fetch pgno (createFlag &&& p.eCreate) a
  ({ p with pCache := r.1 }, r.2)

/-- The page to make clean: one that needs no journal sync if there is one, else the oldest. -/
def spillCandidate : PCache × Option Slot :=
  let pPg := p.dirty.backTo
    (fun s => (p.hdr s).nRef != 0 || (p.hdr s).flags.needSync) p.pCache.nPage p.pSynced
  let p := { p with pSynced := pPg }
  (p, match pPg with
    | some s => some s
    | none => p.dirty.backTo (fun s => (p.hdr s).nRef != 0) p.pCache.nPage p.dirty.last)

def runStress (x : Stress) (s : Slot) : PCache :=
  let p := if x.syncs then p.sqlite3PcacheClearSyncFlags else p
  if x.cleans then p.sqlite3PcacheMakeClean s else p

/-- The first half of `sqlite3PcacheFetchStress`. -/
def spill (x : Stress) : PCache × PcacheRc :=
  if p.szSpill < p.pCache.nPage then
    match p.spillCandidate with
    | (p, none) => (p, .ok)
    | (p, some s) => (p.runStress x s, x.rc)
  else (p, .ok)

def sqlite3PcacheFetchStress (pgno : ℕ) (x : Stress) (a : PageAlloc) :
    PCache × PcacheRc × Option Slot :=
  if p.eCreate = 2 then (p, .ok, none)
  else
    let q := p.spill x
    if q.2 ≠ .ok ∧ q.2 ≠ .busy then (q.1, q.2, none)
    else
      let r := q.1.pCache.pcache1Fetch pgno 2 a
      ({ q.1 with pCache := r.1 }, if r.2 = none then .nomem else .ok, r.2)

/-- Count one more reference. -/
def addRef (s : Slot) : PCache :=
  { p.setHdr s { p.hdr s with nRef := (p.hdr s).nRef + 1 } with nRefSum := p.nRefSum + 1 }

/-- The initialisation in `pcacheFetchFinishWithInit`. -/
def initHdr (pgno : ℕ) (s : Slot) : PCache :=
  { p.setHdr s ⟨pgno, PgFlags.setClean, 0⟩ with
    pCache := { p.pCache with extra := update p.pCache.extra s true } }

def sqlite3PcacheFetchFinish (pgno : ℕ) (s : Slot) : PCache :=
  (if p.pCache.extra s then p else p.initHdr pgno s).addRef s

/-- A page of the pager, allocated if it is not in the cache. -/
def getPage (pgno : ℕ) (a₁ : PageAlloc) (x : Stress) (a₂ : PageAlloc) : PCache × Option Slot :=
  let r := p.sqlite3PcacheFetch pgno 3 a₁
  match r.2 with
  | some s => (r.1.sqlite3PcacheFetchFinish pgno s, some s)
  | none =>
    let q := r.1.sqlite3PcacheFetchStress pgno x a₂
    match q.2.2 with
    | some s => (q.1.sqlite3PcacheFetchFinish pgno s, some s)
    | none => (q.1, none)

/-- A page of the pager, if it is in the cache. -/
def lookupPage (pgno : ℕ) : PCache × Option Slot :=
  let r := p.sqlite3PcacheFetch pgno 0 .fail
  match r.2 with
  | some s => (r.1.sqlite3PcacheFetchFinish pgno s, some s)
  | none => (r.1, none)

end Fetch

section Refs

variable (p : PCache) (s : Slot)

def sqlite3PcacheRelease : PCache :=
  let p : PCache := { p.setHdr s { p.hdr s with nRef := (p.hdr s).nRef - 1 } with
    nRefSum := p.nRefSum - 1 }
  if (p.hdr s).nRef = 0 then
    if (p.hdr s).flags.clean then p.pcacheUnpin s else p.pcacheManageDirtyList s .front
  else p

def sqlite3PcacheRef : PCache := p.addRef s

def sqlite3PcacheDrop : PCache :=
  let p := if (p.hdr s).flags.dirty then p.pcacheManageDirtyList s .remove else p
  { p with
    nRefSum := p.nRefSum - 1
    pCache := p.pCache.pcache1Unpin s true }

/-- The page that has the new number is dropped. -/
def moveAway (newPgno : ℕ) : PCache :=
  let r := p.pCache.pcache1Fetch newPgno 0 .fail
  let p := { p with pCache := r.1 }
  match r.2 with
  | none => p
  | some pOther => (p.addRef pOther).sqlite3PcacheDrop pOther

def sqlite3PcacheMove (newPgno : ℕ) : PCache :=
  let p := p.moveAway newPgno
  let p : PCache := { p.setHdr s { p.hdr s with pgno := newPgno } with
    pCache := p.pCache.pcache1Rekey s newPgno }
  if (p.hdr s).flags.dirty ∧ (p.hdr s).flags.needSync then p.pcacheManageDirtyList s .front else p

end Refs

section Truncate

/-- The loop over the dirty list in `sqlite3PcacheTruncate`. -/
def truncateDirty (pgno : ℕ) : ℕ → Option Slot → PCache → PCache
  | fuel + 1, some s, p =>
    let pNext := p.dirty.next s
    truncateDirty pgno fuel pNext
      (if pgno < (p.hdr s).pgno then p.sqlite3PcacheMakeClean s else p)
  | _, _, p => p

/-- Page 1 is cleared and stays, where it is in use and everything is to go. -/
def keepPage1 (p : PCache) (pgno : ℕ) : PCache × ℕ :=
  if pgno = 0 ∧ p.nRefSum ≠ 0 then
    let r := p.pCache.pcache1Fetch 1 0 .fail
    match r.2 with
    | some s =>
      ({ p with
        pCache := r.1
        pData := update p.pData s (List.replicate p.szPage 0) }, 1)
    | none => ({ p with pCache := r.1 }, 0)
  else (p, pgno)

def sqlite3PcacheTruncate (p : PCache) (pgno : ℕ) : PCache :=
  let p := truncateDirty pgno p.pCache.nPage p.dirty.first p
  let r := p.keepPage1 pgno
  { r.1 with pCache := r.1.pCache.pcache1Truncate ((r.2 + 1) % 2 ^ 32) }

end Truncate

end PCache

/-- The calls of the pager, and what it writes into the pages it holds. -/
inductive PcacheOp
  | get (pgno : ℕ) (a₁ : PageAlloc) (x : Stress) (a₂ : PageAlloc)
  | lookup (pgno : ℕ)
  | release (s : Slot)
  | ref (s : Slot)
  | drop (s : Slot)
  | makeDirty (s : Slot)
  | makeClean (s : Slot)
  | cleanAll
  | clearWritable
  | clearSyncFlags
  | move (s : Slot) (newPgno : ℕ)
  | truncate (pgno : ℕ)
  | setCachesize (mxPage : ℤ)
  | setSpillsize (mxPage : ℤ)
  | setPageSize (szPage : ℕ) (hash : Bool)
  | shrink
  | setFlags (s : Slot) (writeable needSync dontWrite : Bool)
  | write (s : Slot) (data : List UInt8)

namespace PCache

def step (p : PCache) : PcacheOp → PCache
  | .get pgno a₁ x a₂ => (p.getPage pgno a₁ x a₂).1
  | .lookup pgno => (p.lookupPage pgno).1
  | .release s => p.sqlite3PcacheRelease s
  | .ref s => p.sqlite3PcacheRef s
  | .drop s => p.sqlite3PcacheDrop s
  | .makeDirty s => p.sqlite3PcacheMakeDirty s
  | .makeClean s => p.sqlite3PcacheMakeClean s
  | .cleanAll => p.sqlite3PcacheCleanAll
  | .clearWritable => p.sqlite3PcacheClearWritable
  | .clearSyncFlags => p.sqlite3PcacheClearSyncFlags
  | .move s newPgno => p.sqlite3PcacheMove s newPgno
  | .truncate pgno => p.sqlite3PcacheTruncate pgno
  | .setCachesize mxPage => p.sqlite3PcacheSetCachesize mxPage
  | .setSpillsize mxPage => p.sqlite3PcacheSetSpillsize mxPage
  | .setPageSize szPage hash => p.sqlite3PcacheSetPageSize szPage hash
  | .shrink => p.sqlite3PcacheShrink
  | .setFlags s writeable needSync dontWrite =>
    p.setFlags s { (p.hdr s).flags with
      writeable := writeable, needSync := needSync, dontWrite := dontWrite }
  | .write s data => { p with pData := Function.update p.pData s data }

end PCache

end Btreelite
