import Mathlib.Data.Finset.Card
import Btreelite.Buckets
import Btreelite.Links

/-!
# The hashed page cache

The lower of the two layers of the page cache: a hash table of page slots by page number, a
circular list of the pages that may be recycled, and a block of slots allocated in one go with the
first page. Every cache has a group of its own, and no buffer is configured for page memory, so
group and cache change together. What the allocator answers is part of each call's input.
-/

namespace Btreelite

/-- Where a page, its headers and its content are in memory. -/
abbrev Slot := ℕ

/-- What a fetch is answered when it asks for memory. -/
structure PageAlloc where
  /-- There is memory for a larger `apHash`. -/
  hash : Bool
  /-- The slots of the bulk block; none when it cannot be allocated. -/
  bulk : List Slot
  /-- The slot `pcache1Alloc` returns. -/
  page : Option Slot
  /-- `pcache1UnderMemoryPressure`, at step 3 and at step 4 of a fetch. -/
  pressure3 : Bool
  pressure4 : Bool

/-- Nothing can be allocated. -/
def PageAlloc.fail : PageAlloc := ⟨false, [], none, false, false⟩

structure PGroup where
  nMaxPage : ℕ
  nMinPage : ℕ
  mxPinned : ℕ
  nPurgeable : ℕ
  /-- `lru.pLruNext` and `lru.pLruPrev` are the two ends; the anchor itself stands for no page. -/
  lru : Links Slot

/-- The fields of `PgHdr1`, by slot. -/
structure PgHdr1s where
  iKey : Slot → ℕ
  isBulkLocal : Slot → Bool
  /-- `pLruNext ≠ 0` -/
  onLru : Slot → Bool
  /-- The first word of `pExtra` is not zero. -/
  extra : Slot → Bool

structure PCache1 extends PgHdr1s where
  pGroup : PGroup
  /-- `pcache1.nInitPage` -/
  nInitPage : ℤ
  szAlloc : ℕ
  bPurgeable : Bool
  nMin : ℕ
  nMax : ℕ
  n90pct : ℕ
  iMaxKey : ℕ
  nPurgeableDummy : ℕ
  nRecyclable : ℕ
  nPage : ℕ
  nHash : ℕ
  apHash : ℕ → List Slot
  pFree : List Slot
  /-- The slots of the bulk block; none when there is no block. -/
  pBulk : List Slot

namespace PCache1

open Function (update)

/-- `*pnPurgeable` -/
def pnPurgeable (c : PCache1) : ℕ :=
  if c.bPurgeable then c.pGroup.nPurgeable else c.nPurgeableDummy

def setPnPurgeable (c : PCache1) (n : ℕ) : PCache1 :=
  { c with
    pGroup := { c.pGroup with nPurgeable := if c.bPurgeable then n else c.pGroup.nPurgeable }
    nPurgeableDummy := if c.bPurgeable then c.nPurgeableDummy else n }

def pcache1InitBulk (c : PCache1) (bulk : List Slot) : PCache1 :=
  if c.nInitPage = 0 then c
  else if c.nMax < 3 then c
  else
    let szBulk : ℤ := if 0 < c.nInitPage then c.szAlloc * c.nInitPage else -1024 * c.nInitPage
    let szBulk := min szBulk (c.szAlloc * c.nMax)
    if (c.szAlloc : ℤ) ≤ szBulk then
      { c with
        pBulk := bulk
        pFree := bulk.reverse ++ c.pFree
        isBulkLocal := fun s => decide (s ∈ bulk) || c.isBulkLocal s }
    else c

/-- A page off the free list, else from the allocator. -/
def takePage (c : PCache1) (page : Option Slot) : PCache1 × Option Slot :=
  match c.pFree, page with
  | s :: rest, _ => ({ c with pFree := rest }.setPnPurgeable (c.pnPurgeable + 1), some s)
  | [], some s =>
    ({ c with isBulkLocal := update c.isBulkLocal s false }.setPnPurgeable (c.pnPurgeable + 1),
      some s)
  | [], none => (c, none)

def pcache1AllocPage (c : PCache1) (a : PageAlloc) : PCache1 × Option Slot :=
  (if c.pFree = [] ∧ c.nPage = 0 then c.pcache1InitBulk a.bulk else c).takePage a.page

def pcache1FreePage (c : PCache1) (s : Slot) : PCache1 :=
  { c with pFree := if c.isBulkLocal s then s :: c.pFree else c.pFree }.setPnPurgeable
    (c.pnPurgeable - 1)

def pcache1ResizeHash (c : PCache1) (ok : Bool) : PCache1 :=
  let nNew := max 256 (2 * c.nHash)
  if ok then
    { c with
      apHash := Buckets.rehash c.iKey c.nHash nNew c.apHash
      nHash := nNew }
  else c

def pcache1PinPage (c : PCache1) (s : Slot) : PCache1 :=
  { c with
    pGroup := { c.pGroup with lru := c.pGroup.lru.remove s }
    onLru := update c.onLru s false
    nRecyclable := c.nRecyclable - 1 }

def pcache1RemoveFromHash (c : PCache1) (s : Slot) (freeFlag : Bool) : PCache1 :=
  let c := { c with
    apHash := Buckets.erase c.iKey c.nHash c.apHash s
    nPage := c.nPage - 1 }
  if freeFlag then c.pcache1FreePage s else c

/-- The loop of `pcache1EnforceMaxPage`. -/
def recycleExcess : ℕ → PCache1 → PCache1
  | 0, c => c
  | fuel + 1, c =>
    match c.pGroup.lru.last with
    | none => c
    | some s =>
      if c.pGroup.nMaxPage < c.pGroup.nPurgeable then
        recycleExcess fuel ((c.pcache1PinPage s).pcache1RemoveFromHash s true)
      else c

def pcache1EnforceMaxPage (c : PCache1) : PCache1 :=
  let c := recycleExcess c.nRecyclable c
  if c.nPage = 0 ∧ c.pBulk ≠ [] then { c with pBulk := [], pFree := [] } else c

/-- Take one page out of its chain and free it, whether it is pinned or not. -/
def discardPage (c : PCache1) (s : Slot) : PCache1 :=
  let c := { c with
    nPage := c.nPage - 1
    apHash := Buckets.erase c.iKey c.nHash c.apHash s }
  let c := if c.onLru s then c.pcache1PinPage s else c
  c.pcache1FreePage s

/-- The scan of one hash slot in `pcache1TruncateUnsafe`. -/
def truncateChain (c : PCache1) (iLimit h : ℕ) : PCache1 :=
  (c.apHash h).foldl (fun c s => if iLimit ≤ c.iKey s then c.discardPage s else c) c

/-- The loop over hash slots in `pcache1TruncateUnsafe`. -/
def truncateScan (iLimit iStop : ℕ) : ℕ → ℕ → PCache1 → PCache1
  | 0, _, c => c
  | fuel + 1, h, c =>
    let c := c.truncateChain iLimit h
    if h = iStop then c else truncateScan iLimit iStop fuel ((h + 1) % c.nHash) c

def pcache1TruncateUnsafe (c : PCache1) (iLimit : ℕ) : PCache1 :=
  if c.iMaxKey - iLimit < c.nHash then
    truncateScan iLimit (c.iMaxKey % c.nHash) c.nHash (iLimit % c.nHash) c
  else
    truncateScan iLimit (c.nHash / 2 - 1) c.nHash (c.nHash / 2) c

def pcache1Cachesize (c : PCache1) (nMax : ℕ) : PCache1 :=
  if c.bPurgeable then
    let n := min nMax (0x7fff0000 - c.pGroup.nMaxPage + c.nMax)
    let nMaxPage := c.pGroup.nMaxPage + n - c.nMax
    { c with
      pGroup := { c.pGroup with
        nMaxPage := nMaxPage
        mxPinned := nMaxPage + 10 - c.pGroup.nMinPage }
      nMax := n
      n90pct := n * 9 % 2 ^ 32 / 10 }.pcache1EnforceMaxPage
  else c

def pcache1Shrink (c : PCache1) : PCache1 :=
  if c.bPurgeable then
    let savedMaxPage := c.pGroup.nMaxPage
    let c := { c with pGroup := { c.pGroup with nMaxPage := 0 } }.pcache1EnforceMaxPage
    { c with pGroup := { c.pGroup with nMaxPage := savedMaxPage } }
  else c

/-- The end of step 5: the page at hand becomes the entry for `iKey`. -/
def addPage (c : PCache1) (iKey : ℕ) (s : Slot) : PCache1 :=
  let key := update c.iKey s iKey
  { c with
    nPage := c.nPage + 1
    iKey := key
    onLru := update c.onLru s false
    extra := update c.extra s false
    apHash := Buckets.push key c.nHash c.apHash s
    iMaxKey := max c.iMaxKey iKey }

/-- Step 4: recycle the page that has been unpinned for longest, where the cache is full. -/
def recyclePage (c : PCache1) (pressure : Bool) : PCache1 × Option Slot :=
  match c.pGroup.lru.last with
  | none => (c, none)
  | some s =>
    if c.bPurgeable ∧ (c.nMax ≤ c.nPage + 1 ∨ pressure) then
      ((c.pcache1RemoveFromHash s false).pcache1PinPage s, some s)
    else (c, none)

/-- Steps 4 and 5: a page that is not in the table any more, or not yet. -/
def newPage (c : PCache1) (a : PageAlloc) : PCache1 × Option Slot :=
  let r := c.recyclePage a.pressure4
  if r.2 = none then r.1.pcache1AllocPage a else r

def pcache1FetchStage2 (c : PCache1) (iKey createFlag : ℕ) (a : PageAlloc) :
    PCache1 × Option Slot :=
  let nPinned := c.nPage - c.nRecyclable
  if createFlag = 1 ∧ (c.pGroup.mxPinned ≤ nPinned ∨ c.n90pct ≤ nPinned
      ∨ (a.pressure3 ∧ c.nRecyclable < nPinned)) then (c, none)
  else
    let c := if c.nHash ≤ c.nPage then c.pcache1ResizeHash a.hash else c
    let r := c.newPage a
    match r.2 with
    | none => (r.1, none)
    | some s => (r.1.addPage iKey s, some s)

/-- Step 1 of a fetch: search the chain of the key. -/
def lookup (c : PCache1) (iKey : ℕ) : Option Slot :=
  Buckets.find c.iKey c.nHash c.apHash iKey

def pcache1Fetch (c : PCache1) (iKey createFlag : ℕ) (a : PageAlloc) : PCache1 × Option Slot :=
  match c.lookup iKey with
  | some s => (if c.onLru s then c.pcache1PinPage s else c, some s)
  | none => if createFlag ≠ 0 then c.pcache1FetchStage2 iKey createFlag a else (c, none)

def pcache1Unpin (c : PCache1) (s : Slot) (reuseUnlikely : Bool) : PCache1 :=
  if reuseUnlikely ∨ c.pGroup.nMaxPage < c.pGroup.nPurgeable then c.pcache1RemoveFromHash s true
  else
    { c with
      pGroup := { c.pGroup with lru := c.pGroup.lru.pushFront s }
      onLru := update c.onLru s true
      nRecyclable := c.nRecyclable + 1 }

/-- `iOld` is the key the page has. -/
def pcache1Rekey (c : PCache1) (s : Slot) (iNew : ℕ) : PCache1 :=
  let ap := Buckets.erase c.iKey c.nHash c.apHash s
  let key := update c.iKey s iNew
  { c with
    iKey := key
    apHash := Buckets.push key c.nHash ap s
    iMaxKey := max c.iMaxKey iNew }

def pcache1Truncate (c : PCache1) (iLimit : ℕ) : PCache1 :=
  if iLimit ≤ c.iMaxKey then
    { c.pcache1TruncateUnsafe iLimit with iMaxKey := (iLimit + (2 ^ 32 - 1)) % 2 ^ 32 }
  else c

/-- A new cache, in memory whose page headers still hold what was there before. -/
def pcache1Create (old : PgHdr1s) (nInitPage : ℤ) (szAlloc : ℕ) (bPurgeable hash : Bool) :
    Option PCache1 :=
  let c : PCache1 := { old with
    pGroup := ⟨0, 0, 10, 0, ⟨none, none, fun _ => none, fun _ => none⟩⟩
    nInitPage, szAlloc, bPurgeable
    nMin := 0, nMax := 0, n90pct := 0, iMaxKey := 0, nPurgeableDummy := 0
    nRecyclable := 0, nPage := 0, nHash := 0, apHash := fun _ => [], pFree := [], pBulk := [] }
  let c := c.pcache1ResizeHash hash
  let c := if bPurgeable then
      { c with nMin := 10, pGroup := { c.pGroup with nMinPage := 10, mxPinned := 0 } }
    else c
  if c.nHash = 0 then none else some c

/-- The pages in the hash table. -/
def entries (c : PCache1) : Finset Slot :=
  Buckets.entries c.nHash c.apHash

end PCache1

end Btreelite
