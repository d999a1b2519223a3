import Btreelite.Connection
import Btreelite.Balance

/-!
# Puts, deletes and whole trees

The calls that change a tree, with the cursors of the connection. A put is `sqlite3BtreeInsert` with
`BTREE_APPEND` and no result of an earlier search, a delete `sqlite3BtreeDelete` without flags.
-/

namespace Btreelite

open Prog

section Code

variable (g : Geometry)

/-! ## Inserting -/

/-- `balance` on the pages the cursor is at. The index on the page it ends at means nothing. -/
def balanceCursor : CurM Unit := do
  let e ← get
  let another := (e.before ++ e.after).any fun o => decide (o.eState = .valid ∧ o.pPage = e.cur.pgnoRoot)
  match e.cur.path with
  | [] => return
  | (cur, ix) :: anc =>
    let r ← inBt (balance g another cur anc)
    modifyCursor fun c => { c with path := (r.1, ix) :: r.2 }

/-- `pCur->pPage->nOverflow = 0` and `pCur->eState = CURSOR_INVALID`. -/
def endBalance : CurM Unit := do
  inBt (clearOvfl (← cursor).pPage)
  modifyCursor fun c => { c with eState := .invalid }

/-- `sqlite3BtreeInsert` from the call of `insertCellFast` on. -/
def insertCellHere (newCell : Cell) : CurM Unit := do
  let c ← cursor
  inBt (insertCellFast g c.pPage c.ix newCell)
  let p ← curPage
  if p.ovfl ≠ [] then
    modifyCursor fun c => { c with validNKey := false, validOvfl := false }
    onError (balanceCursor g) endBalance
    endBalance
  else return

/-- `sqlite3BtreeInsert` from the call of `fillInCell` on. -/
def insertEntry (key value : List UInt8) (loc : Int) : CurM Unit := do
  let (newCell, szNew) ← inBt (fillInCell g key value)
  modifyCursor fun c => { c with info := { c.info with nSize := 0 } }
  let p ← curPage
  let c ← cursor
  if loc = 0 then
    if p.cells.length ≤ c.ix then throw .corrupt
    else
      inBt (sqlite3PagerWrite c.pPage)
      let oldCell := p.cells.getD c.ix []
      let newCell := if p.leaf then newCell else oldCell.take 4 ++ newCell.drop 4
      let info ← inBt (btreeClearCell g p.leaf oldCell)
      modifyCursor fun c => { c with validOvfl := false }
      if info.nSize = szNew ∧ info.nLocal = info.nPayload then
        inBt (putInCell c.pPage c.ix 0 newCell)
      else
        inBt (dropCell c.pPage c.ix)
        insertCellHere g newCell
  else if loc < 0 ∧ p.cells ≠ [] then
    modifyCursor fun c => { c.setIx (c.ix + 1) with validNKey := false, validOvfl := false }
    insertCellHere g newCell
  else insertCellHere g newCell

/-- `sqlite3BtreeInsert` once the other cursors are saved. -/
def insertSaved (key value : List UInt8) (append : Bool) : CurM Unit := do
  match (← cursor).eState with
  | .requireseek | .fault _ => do
    let _ ← moveToRoot g
  | _ => pure ()
  let loc ← sqlite3BtreeKvMoveto g key append
  if loc = 0 then
    getCellInfo g
    let p ← curPage
    let c ← cursor
    let cell := p.cells.getD c.ix []
    if c.info.keyOf cell = key ∧ c.info.nSize ≠ 0 ∧ c.info.nPayload = value.length then
      inBt (btreeOverwriteCell g c.pPage c.ix cell c.info value)
    else insertEntry g key value loc
  else insertEntry g key value loc

def sqlite3BtreeInsert (j : Nat) (key value : List UInt8) (append : Bool) : ConnM Unit := do
  let c ← onCursor j cursor
  if c.multiple then saveAllCursors g c.pgnoRoot (some j)
  onCursor j (insertSaved g key value append)

/-! ## Deleting -/

/-- How `sqlite3BtreeDelete` starts; without an entry to delete, it is over. -/
def restoreForDelete : CurM Bool := do
  match (← cursor).eState with
  | .valid => return true
  | .requireseek | .fault _ =>
    btreeRestoreCursorPosition g
    return decide ((← cursor).eState = .valid)
  | _ => throw .corrupt

/-- The last cell of the leaf the cursor is on takes the place of cell `idx` of the interior page
`pPage`, at depth `nPath` of the path. -/
def replaceDivider (pPage idx nPath : Nat) : CurM Unit := do
  let c ← cursor
  let leaf ← curPage
  let n := (c.path.reverse.getD nPath (0, 0)).1
  inBt (sqlite3PagerWrite c.pPage)
  inBt (insertCell g pPage idx (List.replicate 4 0 ++ leaf.cells.getD (leaf.cells.length - 1) []) n)
  inBt (dropCell c.pPage (leaf.cells.length - 1))

/-- `sqlite3BtreeDelete` once the other cursors are saved, for cell `idx` of page `pPage`, which is at
depth `nPath` of the path. -/
def deleteSaved (pPage idx nPath : Nat) : CurM Unit := do
  inBt (sqlite3PagerWrite pPage)
  let p ← inBt (nodeAt pPage)
  let _ ← inBt (btreeClearCell g p.leaf (p.cells.getD idx []))
  inBt (dropCell pPage idx)
  if ¬ p.leaf then replaceDivider g pPage idx nPath
  let q ← curPage
  if ¬ q.nFree g * 3 ≤ g.usableSize * 2 then balanceCursor g
  let c ← cursor
  if nPath < c.path.length then
    modifyCursor fun c => { c with path := c.path.drop (c.path.length - nPath) }
    balanceCursor g
  let _ ← moveToRoot g
  return

def sqlite3BtreeDelete (j : Nat) : ConnM Unit := do
  if ← onCursor j (restoreForDelete g) then
    let c ← onCursor j cursor
    let p ← onCursor j curPage
    if p.cells.length ≤ c.ix then throw .corrupt
    else
      if ¬ p.leaf then
        if ← onCursor j (sqlite3BtreePrevious g 2) then throw .done
      if c.multiple then saveAllCursors g c.pgnoRoot (some j)
      if (← get).hasIncrblobCur then
        invalidateIncrblobCursors c.pgnoRoot (← onCursor j cursor).info.nKey false
      onCursor j (deleteSaved g c.pPage c.ix c.path.length)
  else return

/-! ## Whole trees -/

/-- A page as `zeroPage` leaves a new leaf. -/
def emptyLeaf : MemPage where
  leaf := true
  cells := []
  right := 0
  ovfl := []

/-- `btreeCreateTable`. -/
def btreeCreateTable : BtM Nat := do
  let pgnoRoot ← allocateBtreePage g 1
  setPage pgnoRoot (.node emptyLeaf)
  return pgnoRoot

/-- The loop of `clearDatabasePage` over the cells of a page. -/
def clearCells (clearChild : Nat → BtM Unit) (leaf : Bool) : List Cell → BtM Unit
  | [] => return
  | pCell :: cells => do
    if ¬ leaf then clearChild (get4byte pCell)
    let _ ← btreeClearCell g leaf pCell
    clearCells clearChild leaf cells

/-- `clearDatabasePage`. No page is above itself, so `fuel` is never used up. -/
def clearDatabasePage : Nat → Nat → Bool → BtM Unit
  | 0, _, _ => throw .corrupt
  | fuel + 1, pgno, freePageFlag => do
    if pgno > (← btreePagecount) then throw .corrupt
    else
      let p ← getAndInitPage g pgno
      clearCells g (fun child => clearDatabasePage fuel child true) p.leaf p.cells
      if ¬ p.leaf then clearDatabasePage fuel p.right true
      if freePageFlag then freePage2 g pgno
      else
        sqlite3PagerWrite pgno
        setPage pgno (.node emptyLeaf)

/-- `sqlite3BtreeClearTable`. -/
def sqlite3BtreeClearTable (iTable : Nat) : ConnM Unit := do
  saveAllCursors g iTable none
  if (← get).hasIncrblobCur then invalidateIncrblobCursors iTable 0 true
  let n ← onBt btreePagecount
  onBt (clearDatabasePage g n iTable false)

/-! ## Reading a value -/

/-- `sqlite3BtreeKvValueSize`. -/
def sqlite3BtreeKvValueSize : CurM Nat := do
  getCellInfo g
  return (← cursor).info.nPayload

/-- `sqlite3BtreeKvValueRead`. -/
def sqlite3BtreeKvValueRead (offset amt : Nat) : CurM (List UInt8) := do
  getCellInfo g
  let c ← cursor
  if c.info.nPayload < offset + amt then throw .error
  else
    let p ← curPage
    if p.cells.length ≤ c.ix then throw .corrupt
    else
      let (bytes, cache) ← inBt (accessPayload g c.pPage c.ix (p.cells.getD c.ix []) c.info offset amt
        none (if c.validOvfl then some c.aOverflow else none))
      modifyCursor fun c => { c with validOvfl := cache.isSome, aOverflow := cache.getD c.aOverflow }
      return bytes

/-! ## The calls -/

/-- The answer is whether the key is there; it is `BTREELITE_NOTFOUND` when not. -/
def btreelite_get (key : Key) : CurM Bool := do
  return decide ((← kvMoveto g key) = 0)

def btreelite_value_size : CurM Nat := do
  if ← btreelite_eof then throw .error
  else sqlite3BtreeKvValueSize g

def btreelite_value_read (offset amt : Nat) : CurM (List UInt8) := do
  if ← btreelite_eof then throw .error
  else sqlite3BtreeKvValueRead g offset amt

def btreelite_put (j : Nat) (key value : List UInt8) : ConnM Unit := do
  onCursor j (kvCheckKey key)
  sqlite3BtreeInsert g j key value true
  let _ ← onCursor j (kvMoveto g key)
  return

/-- The answer is whether the key was there. -/
def btreelite_del (j : Nat) (key : Key) : ConnM Bool := do
  let res ← onCursor j (kvMoveto g key)
  if res ≠ 0 then return false
  else
    sqlite3BtreeDelete g j
    return true

def btreelite_create_tree : ConnM Nat := onBt (btreeCreateTable g)

def btreelite_clear_tree (iRoot : Nat) : ConnM Unit := sqlite3BtreeClearTable g iRoot

end Code

end Btreelite
