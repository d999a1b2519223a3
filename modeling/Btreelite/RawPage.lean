import Btreelite.ByteBuffer
import Btreelite.Shared
import Btreelite.Prog

/-!
# Pages as bytes

How cells are put on a page and taken off it. A page is its header, the cell pointers, a gap, and the cell
content area, in which freed blocks are chained in ascending order. Every access to the page's bytes is
checked against the usable size; a checked loop gives up when its fuel is over.
-/

namespace Btreelite

open Prog ByteBuffer

/-- Why a page function ends early: `SQLITE_CORRUPT`, an access outside of the page, or a loop that has
not come to its end. -/
inductive PageErr
  | corrupt
  | outside
  | endless
deriving DecidableEq, Repr

/-- `MemPage` with its bytes. `aTemp` is the temporary space of the pager, and `ovfl` pairs `aiOvfl[]` with
the cells of `apOvfl[]`. -/
structure RawPage where
  aData : Nat → UInt8
  aTemp : Nat → UInt8
  leaf : Bool
  hdrOffset : Nat
  nCell : Nat
  nFree : Int
  ovfl : List (Nat × Cell)

namespace RawPage

section Fields

variable (p : RawPage)

def childPtrSize : Nat := if p.leaf then 0 else 4

def cellOffset : Nat := p.hdrOffset + 8 + p.childPtrSize

/-- The first byte behind the cell pointers. -/
def iCellFirst : Nat := p.cellOffset + 2 * p.nCell

end Fields

abbrev PageM := EStateM PageErr RawPage

section Bytes

variable (g : Geometry)

/-- `data[i]`. -/
def pageByte (i : Nat) : PageM Nat := do
  if i + 1 ≤ g.usableSize then return ((← get).aData i).toNat else throw .outside

/-- `get2byte(&data[i])`. -/
def get2byte (i : Nat) : PageM Nat := do
  if i + 2 ≤ g.usableSize then return get2 (← get).aData i else throw .outside

/-- `get2byteNotZero(&data[i])`. -/
def get2byteNotZero (i : Nat) : PageM Nat := do
  let x ← get2byte g i
  return if x = 0 then 65536 else x

/-- `memcpy(&data[i], .., ..)` from outside of the page. -/
def putBytes (i : Nat) (bs : List UInt8) : PageM Unit := do
  if i + bs.length ≤ g.usableSize then modify fun p => { p with aData := store p.aData i bs }
  else throw .outside

/-- `put2byte(&data[i], v)`. -/
def put2byte (i v : Nat) : PageM Unit := do
  if i + 2 ≤ g.usableSize then modify fun p => { p with aData := put2 p.aData i v } else throw .outside

def memmove (dst src n : Nat) : PageM Unit := do
  if dst + n ≤ g.usableSize ∧ src + n ≤ g.usableSize then
    modify fun p => { p with aData := store p.aData dst (bytes p.aData src n) }
  else throw .outside

end Bytes

section Cells

variable (g : Geometry)

/-- The bytes a parser reads of a cell: the child pointer and the varints. -/
def cellHeader (leaf : Bool) (pCell : List UInt8) : Nat :=
  if leaf then
    let n1 := (getVarint32 pCell).2
    n1 + (getVarint32 (pCell.drop n1)).2
  else 4 + (getVarint32 (pCell.drop 4)).2

/-- The memory from offset `pc` on, with the eight bytes behind the page. -/
def cellMemory (src : Nat → UInt8) (pc : Nat) : List UInt8 := bytes src pc (g.pageSize + 8 - pc)

/-- `pPage->xCellSize(pPage, &src[pc])`. -/
def cellSizeAt (src : Nat → UInt8) (pc : Nat) : PageM Nat := do
  let p ← get
  let pCell := cellMemory g src pc
  if pc + cellHeader p.leaf pCell ≤ g.pageSize + 8 then return xCellSize g p.leaf pCell
  else throw .outside

/-- `findCell`: where the cell pointer leads. -/
def findCell (p : RawPage) (i : Nat) : Nat := get2 p.aData (p.cellOffset + 2 * i) &&& (g.pageSize - 1)

/-- The bytes of a cell. -/
def cellAt (p : RawPage) (i : Nat) : Cell :=
  bytes p.aData (findCell g p i) (xCellSize g p.leaf (cellMemory g p.aData (findCell g p i)))

/-- The cells of the page in the order of their pointers. -/
def cells (p : RawPage) : List Cell := (List.range p.nCell).map (cellAt g p)

end Cells

/-! ## Initialising a page -/

section Init

variable (g : Geometry)

/-- `MX_CELL`. -/
def mxCell : Nat := (g.pageSize - 8) / 6

/-- `btreeInitPage`, without `SQLITE_CellSizeCk`. -/
def btreeInitPage : PageM Unit := do
  let hdr := (← get).hdrOffset
  let flagByte ← pageByte g hdr
  if flagByte = 13 then modify fun p => { p with leaf := true }
  else if flagByte = 5 then modify fun p => { p with leaf := false }
  else throw .corrupt
  let nCell ← get2byte g (hdr + 3)
  modify fun p => { p with nCell, ovfl := [] }
  if mxCell g < nCell then throw .corrupt
  else modify fun p => { p with nFree := -1 }

/-- The loop over the free blocks; the answer is their size. -/
def sumFreeBlocks (nFree : Nat) : Nat → Nat → PageM Nat
  | 0, _ => throw .endless
  | fuel + 1, pc => do
    if g.usableSize - 4 < pc then throw .corrupt
    else
      let next ← get2byte g pc
      let size ← get2byte g (pc + 2)
      if size < 4 then throw .corrupt
      else if next < pc + size + 4 then
        if 0 < next then throw .corrupt
        else if g.usableSize < pc + size then throw .corrupt
        else return nFree + size
      else sumFreeBlocks (nFree + size) fuel next

def btreeComputeFreeSpace : PageM Unit := do
  let p ← get
  let hdr := p.hdrOffset
  let top ← get2byteNotZero g (hdr + 5)
  let pc ← get2byte g (hdr + 1)
  let nFrag ← pageByte g (hdr + 7)
  let nFree ←
    if 0 < pc then
      if pc < top then throw .corrupt
      else sumFreeBlocks g (nFrag + top) g.usableSize pc
    else pure (nFrag + top)
  if g.usableSize < nFree ∨ nFree < p.iCellFirst then throw .corrupt
  else modify fun p => { p with nFree := u16 (nFree - p.iCellFirst) }

/-- `zeroPage`, with `BTS_FAST_SECURE` off. -/
def zeroPage (leaf : Bool) : PageM Unit := do
  let hdr := (← get).hdrOffset
  let first := hdr + if leaf then 8 else 12
  putBytes g hdr [if leaf then 13 else 5]
  putBytes g (hdr + 1) [0, 0, 0, 0]
  putBytes g (hdr + 7) [0]
  put2byte g (hdr + 5) g.usableSize
  modify fun p => { p with nFree := u16 (g.usableSize - first), leaf, ovfl := [], nCell := 0 }

end Init

/-! ## Defragmentation -/

section Defragment

variable (g : Geometry)

/-- Adds to the cell pointers what their cells have been moved by. -/
def shiftPointers (cellOffset iFree iFree2 sz sz2 : Nat) : Nat → Nat → PageM Unit
  | 0, _ => return
  | n + 1, i => do
    let pAddr := cellOffset + 2 * i
    let pc ← get2byte g pAddr
    if pc < iFree then put2byte g pAddr (pc + sz)
    else if pc < iFree2 then put2byte g pAddr (pc + sz2)
    shiftPointers cellOffset iFree iFree2 sz sz2 n (i + 1)

/-- The part of `defragmentPage` for pages with one or two free blocks; the answer is `cbrk`, if the page
is such a one. -/
def moveBlocks (nMaxFrag : Int) : PageM (Option Nat) := do
  let p ← get
  let hdr := p.hdrOffset
  if nMaxFrag < (← pageByte g (hdr + 7)) then return none
  else
    let iFree ← get2byte g (hdr + 1)
    if g.usableSize - 4 < iFree then throw .corrupt
    else if iFree = 0 then return none
    else
      let iFree2 ← get2byte g iFree
      if g.usableSize - 4 < iFree2 then throw .corrupt
      let next ← if iFree2 = 0 then pure 0 else get2byte g iFree2
      if next ≠ 0 then return none
      else
        let sz ← get2byte g (iFree + 2)
        let top ← get2byte g (hdr + 5)
        if iFree ≤ top then throw .corrupt
        else
          let sz2 ←
            if iFree2 ≠ 0 then
              if iFree2 < iFree + sz then throw .corrupt
              else
                let sz2 ← get2byte g (iFree2 + 2)
                if g.usableSize < iFree2 + sz2 then throw .corrupt
                else
                  memmove g (iFree + sz + sz2) (iFree + sz) (iFree2 - (iFree + sz))
                  pure sz2
            else if g.usableSize < iFree + sz then throw .corrupt
            else pure 0
          let cbrk := top + (sz + sz2)
          memmove g cbrk top (iFree - top)
          shiftPointers g p.cellOffset iFree iFree2 (sz + sz2) sz2 p.nCell 0
          return some cbrk

/-- The loop that packs the cells at the end of the page; the answer is `cbrk`. -/
def packCells (src : Nat → UInt8) (iCellStart cellOffset : Nat) : Nat → Nat → Nat → PageM Nat
  | 0, _, cbrk => return cbrk
  | n + 1, i, cbrk => do
    let pAddr := cellOffset + 2 * i
    let pc ← get2byte g pAddr
    if g.usableSize - 4 < pc then throw .corrupt
    else
      let size ← cellSizeAt g src pc
      if cbrk < iCellStart + size ∨ g.usableSize < pc + size then throw .corrupt
      else
        put2byte g pAddr (cbrk - size)
        putBytes g (cbrk - size) (bytes src pc size)
        packCells src iCellStart cellOffset n (i + 1) (cbrk - size)

/-- The label `defragment_out`. -/
def defragmentOut (cbrk : Nat) : PageM Unit := do
  let p ← get
  let hdr := p.hdrOffset
  let nFrag ← pageByte g (hdr + 7)
  if (nFrag : Int) + cbrk - p.iCellFirst ≠ p.nFree then throw .corrupt
  else
    put2byte g (hdr + 5) cbrk
    putBytes g (hdr + 1) [0, 0]
    if cbrk < p.iCellFirst then throw .outside
    else putBytes g p.iCellFirst (List.replicate (cbrk - p.iCellFirst) 0)

def defragmentPage (nMaxFrag : Int) : PageM Unit := do
  match ← moveBlocks g nMaxFrag with
  | some cbrk => defragmentOut g cbrk
  | none =>
    let p ← get
    let hdr := p.hdrOffset
    let iCellStart ← get2byte g (hdr + 5)
    -- the temporary space has the usable bytes of the page and what it held before behind them
    let src := fun j => if j < g.usableSize then p.aData j else p.aTemp j
    let cbrk ← packCells g src iCellStart p.cellOffset p.nCell 0 g.usableSize
    putBytes g (hdr + 7) [0]
    defragmentOut g cbrk

end Defragment

/-! ## Allocating and freeing blocks -/

section Blocks

variable (g : Geometry)

/-- The loop of `pageFindSlot`; the answer is where the slot is, if there is one. -/
def findSlot (hdr nByte : Nat) : Nat → Nat → Nat → PageM (Option Nat)
  | 0, _, _ => throw .endless
  | fuel + 1, iAddr, pc => do
    if pc + nByte ≤ g.usableSize then
      let size ← get2byte g (pc + 2)
      if nByte ≤ size then
        let x := size - nByte
        if x < 4 then
          let nFrag ← pageByte g (hdr + 7)
          if 57 < nFrag then return none
          else
            memmove g iAddr pc 2
            putBytes g (hdr + 7) [UInt8.ofNat (nFrag + x)]
            return some pc
        else if g.usableSize < x + pc + nByte then throw .corrupt
        else
          put2byte g (pc + 2) x
          return some (pc + x)
      else
        let next ← get2byte g pc
        if next ≤ pc then
          if next ≠ 0 then throw .corrupt else return none
        else findSlot hdr nByte fuel pc next
    else if g.usableSize - 4 < pc then throw .corrupt
    else return none

def pageFindSlot (nByte : Nat) : PageM (Option Nat) := do
  let hdr := (← get).hdrOffset
  findSlot g hdr nByte g.usableSize (hdr + 1) (← get2byte g (hdr + 1))

/-- Takes the block from the gap, after a defragmentation if the gap is too small. -/
def allocateFromGap (nByte top : Nat) : PageM Nat := do
  let p ← get
  let hdr := p.hdrOffset
  let top ←
    if top < p.iCellFirst + 2 + nByte then do
      defragmentPage g (min 4 (p.nFree - (2 + nByte)))
      get2byteNotZero g (hdr + 5)
    else pure top
  if top < nByte then throw .outside
  else
    put2byte g (hdr + 5) (top - nByte)
    return top - nByte

def allocateSpace (nByte : Nat) : PageM Nat := do
  let p ← get
  let hdr := p.hdrOffset
  let gap := p.iCellFirst
  let x ← get2byte g (hdr + 5)
  let top ←
    if x < gap then
      if x = 0 ∧ g.usableSize = 65536 then pure 65536 else throw .corrupt
    else if g.usableSize < x then throw .corrupt
    else pure x
  if (← get2byte g (hdr + 1)) ≠ 0 ∧ gap + 2 ≤ top then
    match ← pageFindSlot g nByte with
    | some idx => if idx ≤ gap then throw .corrupt else return idx
    | none => allocateFromGap g nByte top
  else allocateFromGap g nByte top

/-- The loop of `freeSpace`; the answers are `iPtr` and `iFreeBlk`. -/
def findFreeBlk (iStart : Nat) : Nat → Nat → PageM (Nat × Nat)
  | 0, _ => throw .endless
  | fuel + 1, iPtr => do
    let iFreeBlk ← get2byte g iPtr
    if iFreeBlk < iStart then
      if iFreeBlk ≤ iPtr then
        if iFreeBlk = 0 then return (iPtr, 0) else throw .corrupt
      else findFreeBlk iStart fuel iFreeBlk
    else return (iPtr, iFreeBlk)

/-- Joins the block from `iStart` to `iEnd` with the free block behind it; the answers are `nFrag`, `iEnd`
and `iFreeBlk`. -/
def joinNext (iEnd iFreeBlk : Nat) : PageM (Nat × Nat × Nat) := do
  if iFreeBlk ≠ 0 ∧ iFreeBlk ≤ iEnd + 3 then
    if iFreeBlk < iEnd then throw .corrupt
    else
      let size ← get2byte g (iFreeBlk + 2)
      if g.usableSize < iFreeBlk + size then throw .corrupt
      else return (iFreeBlk - iEnd, iFreeBlk + size, ← get2byte g iFreeBlk)
  else return (0, iEnd, iFreeBlk)

/-- Joins the block with the free block before it; the answers are `nFrag` and `iStart`. -/
def joinPrior (hdr iPtr iStart : Nat) : PageM (Nat × Nat) := do
  if hdr + 1 < iPtr then
    let iPtrEnd := iPtr + (← get2byte g (iPtr + 2))
    if iStart ≤ iPtrEnd + 3 then
      if iStart < iPtrEnd then throw .corrupt
      else return (iStart - iPtrEnd, iPtr)
    else return (0, iStart)
  else return (0, iStart)

/-- Puts the block on the list, or takes it into the gap. -/
def linkBlock (hdr iPtr iStart iEnd iFreeBlk : Nat) : PageM Unit := do
  let x ← get2byte g (hdr + 5)
  if iStart ≤ x then
    if iStart < x then throw .corrupt
    else if iPtr ≠ hdr + 1 then throw .corrupt
    else
      put2byte g (hdr + 1) iFreeBlk
      put2byte g (hdr + 5) iEnd
  else
    put2byte g iPtr iStart
    put2byte g iStart iFreeBlk
    put2byte g (iStart + 2) (iEnd - iStart)

/-- `freeSpace`, with `BTS_FAST_SECURE` off. -/
def freeSpace (iStart iSize : Nat) : PageM Unit := do
  let hdr := (← get).hdrOffset
  if (← get2byte g (hdr + 1)) = 0 then linkBlock g hdr (hdr + 1) iStart (iStart + iSize) 0
  else
    let (iPtr, iFreeBlk) ← findFreeBlk g iStart g.usableSize (hdr + 1)
    if g.usableSize - 4 < iFreeBlk then throw .corrupt
    else
      let (nFrag, iEnd, iFreeBlk) ← joinNext g (iStart + iSize) iFreeBlk
      let (nFrag2, iStart) ← joinPrior g hdr iPtr iStart
      let nFrag := nFrag + nFrag2
      let x ← pageByte g (hdr + 7)
      if x < nFrag then throw .corrupt
      else
        putBytes g (hdr + 7) [UInt8.ofNat (x - nFrag)]
        linkBlock g hdr iPtr iStart iEnd iFreeBlk
  modify fun p => { p with nFree := p.nFree + iSize }

end Blocks

/-! ## Inserting and dropping cells -/

section Edit

variable (g : Geometry)

/-- `dropCell` for a cell of `sz` bytes. -/
def dropCell (idx sz : Nat) : PageM Unit := do
  let p ← get
  let hdr := p.hdrOffset
  let ptr := p.cellOffset + 2 * idx
  let pc ← get2byte g ptr
  if g.usableSize < pc + sz then throw .corrupt
  else
    freeSpace g pc sz
    modify fun p => { p with nCell := p.nCell - 1 }
    let p ← get
    if p.nCell = 0 then
      putBytes g (hdr + 1) [0, 0, 0, 0]
      putBytes g (hdr + 7) [0]
      put2byte g (hdr + 5) g.usableSize
      modify fun p => { p with nFree := g.usableSize - p.cellOffset }
    else
      memmove g ptr (ptr + 2) (2 * (p.nCell - idx))
      put2byte g (hdr + 3) p.nCell
      modify fun p => { p with nFree := p.nFree + 2 }

/-- The end of an insertion: the cell pointer for the cell at `idx`. -/
def insertPointer (i idx : Nat) : PageM Unit := do
  let p ← get
  let pIns := p.cellOffset + 2 * i
  memmove g (pIns + 2) pIns (2 * (p.nCell - i))
  put2byte g pIns idx
  modify fun p => { p with nCell := p.nCell + 1 }
  let lo := (← pageByte g (p.hdrOffset + 4)) + 1
  putBytes g (p.hdrOffset + 4) [UInt8.ofNat lo]
  if lo % 256 = 0 then
    let hi ← pageByte g (p.hdrOffset + 3)
    putBytes g (p.hdrOffset + 3) [UInt8.ofNat (hi + 1)]

/-- `insertCell`, with `sz` bytes of content in `pCell`. -/
def insertCell (i : Nat) (pCell : Cell) (sz iChild : Nat) : PageM Unit := do
  let p ← get
  if p.ovfl ≠ [] ∨ p.nFree < sz + 2 then
    modify fun p => { p with ovfl := p.ovfl ++ [(i, put4byte iChild ++ (pCell.drop 4).take (sz - 4))] }
  else
    let idx ← allocateSpace g sz
    modify fun p => { p with nFree := p.nFree - u16 (2 + sz) }
    -- `memcpy(&data[idx+4], pCell+4, sz-4)` takes a size below zero for a size without bound
    if sz < 4 then throw .outside
    else
      putBytes g (idx + 4) ((pCell.drop 4).take (sz - 4))
      putBytes g idx (put4byte iChild)
      insertPointer g i idx

def insertCellFast (i : Nat) (pCell : Cell) (sz : Nat) : PageM Unit := do
  let p ← get
  if p.nFree < sz + 2 then modify fun p => { p with ovfl := p.ovfl ++ [(i, pCell.take sz)] }
  else
    let idx ← allocateSpace g sz
    modify fun p => { p with nFree := p.nFree - u16 (2 + sz) }
    putBytes g idx (pCell.take sz)
    insertPointer g i idx

end Edit

end RawPage

end Btreelite
