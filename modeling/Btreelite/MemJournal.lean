import Btreelite.Prog
import Btreelite.ByteBuffer
import Btreelite.ByteFile
import Mathlib.Data.List.Nodup
import Mathlib.Data.List.Perm.Subperm
import Mathlib.Algebra.Order.Ring.Int

/-!
# The in-memory journal

The file of `memjournal.c` is a list of chunks in memory, with pointers to the last chunk and to the one where
the last read ended. Once a write would take it past `nSpill` bytes, a real file takes its place.
-/

namespace Btreelite

namespace MemJournal

open Prog ByteBuffer ByteFile

/-- `fault` is an access to memory that is not, or no longer, allocated. -/
inductive JrnlErr
  | shortRead
  | ioerr
  | fault
  | endless
deriving DecidableEq, Repr

structure FileChunk where
  pNext : Option Nat
  zChunk : Nat → UInt8

structure FilePoint where
  iOffset : Nat
  pChunk : Option Nat

/-- `MemJournal` with the memory of its chunks: `heap` gives what is allocated at an address, and no address
from `nAlloc` on has been given out. -/
structure Jrnl where
  nChunkSize : Nat
  nSpill : Int
  pFirst : Option Nat
  endpoint : FilePoint
  readpoint : FilePoint
  heap : Nat → Option FileChunk
  nAlloc : Nat

abbrev JrnlM := EStateM JrnlErr Jrnl

/-! ## Memory -/

def deref (pChunk : Option Nat) : JrnlM FileChunk := do
  match pChunk with
  | none => throw .fault
  | some a =>
    match (← get).heap a with
    | none => throw .fault
    | some c => return c

/-- Writes a chunk through a pointer. -/
def assign (pChunk : Option Nat) (c : FileChunk) : JrnlM Unit := do
  let _ ← deref pChunk
  match pChunk with
  | none => return
  | some a => modify fun p => { p with heap := Function.update p.heap a (some c) }

/-- A new chunk; its bytes are not initialized. -/
def malloc : JrnlM Nat := do
  let a := (← get).nAlloc
  modify fun p => { p with
    heap := Function.update p.heap a (some { pNext := some a, zChunk := fun _ => 170 }), nAlloc := a + 1 }
  return a

def free (a : Nat) : JrnlM Unit := modify fun p => { p with heap := Function.update p.heap a none }

def memjrnlFreeChunks : Nat → Option Nat → JrnlM Unit
  | _, none => return
  | 0, some _ => throw .endless
  | fuel + 1, some a => do
    let pNext := (← deref (some a)).pNext
    free a
    memjrnlFreeChunks fuel pNext

/-! ## Reading -/

/-- The `for` loop of `memjrnlRead`. -/
def seekChunk (iOfst : Nat) : Nat → Option Nat → Nat → JrnlM (Option Nat)
  | 0, _, _ => throw .endless
  | fuel + 1, pChunk, iOff => do
    let p ← get
    if pChunk.isSome ∧ iOff + p.nChunkSize ≤ iOfst then
      seekChunk iOfst fuel (← deref pChunk).pNext (iOff + p.nChunkSize)
    else return pChunk

/-- `memcpy` from a chunk. -/
def copyOut (pChunk : Option Nat) (iChunkOffset nCopy : Nat) : JrnlM (List UInt8) := do
  if nCopy = 0 then return []
  else return bytes (← deref pChunk).zChunk iChunkOffset nCopy

/-- The `do` loop of `memjrnlRead`: the bytes, and the last value of `pChunk`. -/
def copyChunks : Nat → Option Nat → Nat → Int → JrnlM (List UInt8 × Option Nat)
  | 0, _, _, _ => throw .endless
  | fuel + 1, pChunk, iChunkOffset, nRead => do
    let p ← get
    let iSpace := p.nChunkSize - iChunkOffset
    let zOut ← copyOut pChunk iChunkOffset (min nRead.toNat iSpace)
    let nRead := nRead - iSpace
    if 0 ≤ nRead then
      let pChunk := (← deref pChunk).pNext
      if pChunk.isSome ∧ 0 < nRead then
        let rest ← copyChunks fuel pChunk 0 nRead
        return (zOut ++ rest.1, rest.2)
      else return (zOut, pChunk)
    else return (zOut, pChunk)

def memjrnlRead (iAmt iOfst : Nat) : JrnlM (List UInt8) := do
  let p ← get
  if p.endpoint.iOffset < iAmt + iOfst then throw .shortRead
  else
    let pChunk ←
      if p.readpoint.iOffset ≠ iOfst ∨ iOfst = 0 then seekChunk iOfst (iOfst + 1) p.pFirst 0
      else pure p.readpoint.pChunk
    let (zOut, pChunk) ← copyChunks (iAmt + 1) pChunk (iOfst % p.nChunkSize) iAmt
    modify fun p => { p with
      readpoint := { iOffset := if pChunk.isSome then iOfst + iAmt else 0, pChunk := pChunk } }
    return zOut

/-! ## Truncating -/

/-- The `for` loop of `memjrnlTruncate`. -/
def truncateChunk (size : Nat) : Nat → Option Nat → Nat → JrnlM (Option Nat)
  | 0, _, _ => throw .endless
  | fuel + 1, pIter, iOff => do
    let p ← get
    if pIter.isSome ∧ iOff < size then truncateChunk size fuel (← deref pIter).pNext (iOff + p.nChunkSize)
    else return pIter

def memjrnlTruncate (size : Nat) : JrnlM Unit := do
  let p ← get
  if size < p.endpoint.iOffset then
    let pIter ←
      if size = 0 then
        memjrnlFreeChunks p.nAlloc p.pFirst
        modify fun p => { p with pFirst := none }
        pure none
      else
        let pIter ← truncateChunk size size p.pFirst p.nChunkSize
        if pIter.isSome then
          let c ← deref pIter
          memjrnlFreeChunks p.nAlloc c.pNext
          assign pIter { c with pNext := none }
        pure pIter
    modify fun p => { p with
      endpoint := { iOffset := size, pChunk := pIter }, readpoint := { iOffset := 0, pChunk := none } }

/-! ## Writing -/

/-- A chunk behind the last one. -/
def newChunk : JrnlM Unit := do
  let p ← get
  let pNew ← malloc
  assign (some pNew) { (← deref (some pNew)) with pNext := none }
  if p.endpoint.pChunk.isSome then
    assign p.endpoint.pChunk { (← deref p.endpoint.pChunk) with pNext := some pNew }
  else modify fun p => { p with pFirst := some pNew }
  modify fun p => { p with endpoint := { p.endpoint with pChunk := some pNew } }

/-- `memcpy` into a chunk. -/
def copyIn (pChunk : Option Nat) (iChunkOffset : Nat) (zWrite : List UInt8) : JrnlM Unit := do
  let c ← deref pChunk
  assign pChunk { c with zChunk := store c.zChunk iChunkOffset zWrite }

/-- The `while` loop of `memjrnlWrite`. -/
def appendChunks : Nat → List UInt8 → JrnlM Unit
  | _, [] => return
  | 0, _ => throw .endless
  | fuel + 1, zWrite => do
    let p ← get
    let iChunkOffset := p.endpoint.iOffset % p.nChunkSize
    let iSpace := min zWrite.length (p.nChunkSize - iChunkOffset)
    if iChunkOffset = 0 then newChunk
    copyIn (← get).endpoint.pChunk iChunkOffset (zWrite.take iSpace)
    modify fun p => { p with endpoint := { p.endpoint with iOffset := p.endpoint.iOffset + iSpace } }
    appendChunks fuel (zWrite.drop iSpace)

/-- `memjrnlWrite` for a write that stays in memory. -/
def memjrnlWrite (zBuf : List UInt8) (iOfst : Nat) : JrnlM Unit := do
  let p ← get
  if 0 < iOfst ∧ iOfst ≠ p.endpoint.iOffset then memjrnlTruncate iOfst
  if iOfst = 0 ∧ p.pFirst.isSome then copyIn p.pFirst 0 zBuf
  else appendChunks (zBuf.length + 1) zBuf

/-! ## The real file -/

/-- What `sqlite3OsOpen` and the calls of `sqlite3OsWrite` return while the file is created, `true` meaning
`SQLITE_OK`. -/
structure Os where
  opens : Bool
  writes : Nat → Bool

/-- The loop of `memjrnlCreateFile`: the file as far as it is written, and whether no write failed. -/
def writeChunks (ok : Nat → Bool) : Nat → Nat → Option Nat → Nat → Nat → List UInt8 → JrnlM (List UInt8 × Bool)
  | _, _, none, _, _, file => return (file, true)
  | 0, _, some _, _, _, _ => throw .endless
  | fuel + 1, i, some a, nChunk, iOff, file => do
    let p ← get
    let nChunk := if p.endpoint.iOffset < iOff + nChunk then p.endpoint.iOffset - iOff else nChunk
    let c ← deref (some a)
    if ok i then writeChunks ok fuel (i + 1) c.pNext nChunk (iOff + nChunk) (pwrite 0 file iOff (bytes c.zChunk 0 nChunk))
    else return (file, false)

/-- `memjrnlCreateFile`: the new file. An error leaves the journal as it was. -/
def memjrnlCreateFile (os : Os) : JrnlM (List UInt8) := do
  let p ← get
  if os.opens = false then throw .ioerr
  else
    let (file, ok) ← writeChunks os.writes p.nAlloc 0 p.pFirst p.nChunkSize 0 []
    if ok then
      memjrnlFreeChunks p.nAlloc p.pFirst
      return file
    else throw .ioerr

/-! ## The file handle -/

/-- A journal file, with the methods of `memjournal.c` or with those of the file system. -/
inductive Jfd
  | mem (p : Jrnl)
  | real (file : List UInt8)

inductive Call
  | write (zBuf : List UInt8) (iOfst : Nat) (os : Os)
  | truncate (size : Nat)
  | read (iAmt iOfst : Nat)
  | fileSize

inductive Answer
  | ok
  | err (e : JrnlErr)
  | bytes (zBuf : List UInt8)
  | size (n : Nat)
deriving DecidableEq, Repr

/-- A method of the in-memory journal as a call of the handle. -/
def runMem {α : Type} (m : JrnlM α) (answer : α → Answer) (p : Jrnl) : Answer × Jfd :=
  match m p with
  | .ok a p' => (answer a, .mem p')
  | .error e p' => (.err e, .mem p')

def call : Jfd → Call → Answer × Jfd
  | .mem p, .write zBuf iOfst os =>
    if 0 < p.nSpill ∧ p.nSpill < zBuf.length + iOfst then
      match memjrnlCreateFile os p with
      | .ok file _ => (.ok, .real (pwrite 0 file iOfst zBuf))
      | .error e p' => (.err e, .mem p')
    else runMem (memjrnlWrite zBuf iOfst) (fun _ => .ok) p
  | .mem p, .truncate size => runMem (memjrnlTruncate size) (fun _ => .ok) p
  | .mem p, .read iAmt iOfst => runMem (memjrnlRead iAmt iOfst) .bytes p
  | .mem p, .fileSize => (.size p.endpoint.iOffset, .mem p)
  | .real file, .write zBuf iOfst _ => (.ok, .real (pwrite 0 file iOfst zBuf))
  | .real file, .truncate size => (.ok, .real (file.take size))
  | .real file, .read iAmt iOfst =>
    if file.length < iAmt + iOfst then (.err .shortRead, .real file) else (.bytes (pread file iOfst iAmt), .real file)
  | .real file, .fileSize => (.size file.length, .real file)

def fresh (nChunkSize : Nat) (nSpill : Int) : Jrnl where
  nChunkSize := nChunkSize
  nSpill := nSpill
  pFirst := none
  endpoint := { iOffset := 0, pChunk := none }
  readpoint := { iOffset := 0, pChunk := none }
  heap := fun _ => none
  nAlloc := 0

/-- `sqlite3JournalOpen`, when the file system opens the file. -/
def sqlite3JournalOpen (nSpill : Int) : Jfd :=
  if nSpill = 0 then .real []
  else if 0 < nSpill then .mem (fresh nSpill.toNat nSpill)
  else .mem (fresh (8 + 1024 - 16) nSpill)

end MemJournal

end Btreelite
