import Btreelite.PosixLocks
import Mathlib.Data.Nat.Basic
import Mathlib.Order.Lattice

/-!
# Locks on the database file

`unixLock`, `posixUnlock` and `unixClose` build the locks of many handles from the record locks of
one process: the inode counts the handles that share, and a descriptor stays open while the process
has a lock. One step runs from a system call to the next; `pLockMutex` says which handle is between
two of them, and before which call it stands. The calls of the program are those the assertions of
`unixLock` allow, on a handle that is in no other call.
-/

namespace Btreelite

open Posix

inductive FileLock
  | noLock
  | sharedLock
  | reservedLock
  | pendingLock
  | exclusiveLock
deriving DecidableEq, Repr

def FileLock.toNat : FileLock → ℕ
  | .noLock => 0
  | .sharedLock => 1
  | .reservedLock => 2
  | .pendingLock => 3
  | .exclusiveLock => 4

theorem FileLock.toNat_injective : Function.Injective FileLock.toNat := by
  intro a b h
  cases a <;> cases b <;> simp_all [FileLock.toNat]

instance FileLock.linearOrder : LinearOrder FileLock :=
  LinearOrder.lift' FileLock.toNat FileLock.toNat_injective

def pendingByte : ℕ := 0x40000000

def reservedByte : ℕ := pendingByte + 1

def sharedFirst : ℕ := pendingByte + 2

def sharedSize : ℕ := 510

/-- How far a handle is opened or closed. A handle that is storing has left `posixUnlock`'s mutex
and still has to set its `eFileLock`. -/
inductive Stage
  | absent
  | idle
  | storing (eFileLock : FileLock)
  | closeUnlock
  | closeStoring
  | closeUnlocked
  | closeTested
  | closeReleased
  | closed
deriving DecidableEq, Repr

structure UnixFile where
  eFileLock : FileLock
  h : Option ℕ
  stage : Stage
deriving DecidableEq, Repr

structure UnixInodeInfo where
  nShared : ℕ
  nLock : ℕ
  nRef : ℕ
  eFileLock : FileLock
  pUnused : List ℕ
deriving DecidableEq, Repr

/-- The system call a holder of `pLockMutex` is about to make, with what it needs afterwards. -/
inductive LockPc
  | lockPending (eFileLock : FileLock)
  | lockShared
  | unlockPending (got : Bool)
  | lockWrite (eFileLock : FileLock)
  | relockShared
  | unlockBytes (eFileLock : FileLock)
  | unlockFile
  | closePending (ok : Bool)
deriving DecidableEq, Repr

/-- The request of `unixFileLock`, but for `closePendingFds`, which makes none. -/
def LockPc.flock : LockPc → Flock
  | .lockPending .sharedLock => ⟨.rdlck, pendingByte, 1⟩
  | .lockPending _ => ⟨.wrlck, pendingByte, 1⟩
  | .lockShared => ⟨.rdlck, sharedFirst, sharedSize⟩
  | .unlockPending _ => ⟨.unlck, pendingByte, 1⟩
  | .lockWrite .reservedLock => ⟨.wrlck, reservedByte, 1⟩
  | .lockWrite _ => ⟨.wrlck, sharedFirst, sharedSize⟩
  | .relockShared => ⟨.rdlck, sharedFirst, sharedSize⟩
  | .unlockBytes _ => ⟨.unlck, pendingByte, 2⟩
  | .unlockFile => ⟨.unlck, 0, 0⟩
  | .closePending _ => ⟨.unlck, 0, 0⟩

/-- A handle, its inode and the system call that comes next. Without one the mutex is free. -/
structure LockCtx where
  file : UnixFile
  inode : UnixInodeInfo
  pc : Option LockPc

section Functions

variable (f : UnixFile) (i : UnixInodeInfo)

/-- The end of `unixLock` for a RESERVED or EXCLUSIVE lock. The flag is the answer of
`unixIsSharingShmNode`. -/
def unixLockWrite (eFileLock : FileLock) (sharing : Bool) : LockCtx :=
  if eFileLock = .exclusiveLock ∧ 1 < i.nShared then ⟨f, i, none⟩
  else if sharing then ⟨f, i, none⟩
  else ⟨f, i, some (.lockWrite eFileLock)⟩

/-- `unixLock` from the mutex to its first system call. -/
def unixLock (eFileLock : FileLock) (sharing : Bool) : LockCtx :=
  if f.eFileLock ≠ i.eFileLock ∧ (.pendingLock ≤ i.eFileLock ∨ .sharedLock < eFileLock) then
    ⟨f, i, none⟩
  else if eFileLock = .sharedLock ∧ (i.eFileLock = .sharedLock ∨ i.eFileLock = .reservedLock) then
    ⟨{ f with eFileLock := .sharedLock },
      { i with nShared := i.nShared + 1, nLock := i.nLock + 1 }, none⟩
  else if eFileLock = .sharedLock ∨
      (eFileLock = .exclusiveLock ∧ f.eFileLock = .reservedLock) then
    ⟨f, i, some (.lockPending eFileLock)⟩
  else unixLockWrite f i eFileLock sharing

/-- Behind the mutex of `posixUnlock`: a successful call has the level still to store. -/
def Stage.endUnlock (eFileLock : FileLock) : Stage → Bool → Stage
  | .idle, true => .storing eFileLock
  | .closeUnlock, true => .closeStoring
  | .closeUnlock, false => .closeUnlocked
  | s, _ => s

def endUnlock (eFileLock : FileLock) (ok : Bool) : LockCtx :=
  ⟨{ f with stage := f.stage.endUnlock eFileLock ok }, i, none⟩

/-- The last lines of `posixUnlock` to NO_LOCK, where `nLock` goes down. -/
def posixUnlockCount (ok : Bool) : LockCtx :=
  let i := { i with nLock := i.nLock - 1 }
  if i.nLock = 0 then ⟨f, i, some (.closePending ok)⟩ else endUnlock f i .noLock ok

/-- The part of `posixUnlock` that gives up the SHARED lock. -/
def posixUnlockShared (eFileLock : FileLock) : LockCtx :=
  if eFileLock = .noLock then
    let i := { i with nShared := i.nShared - 1 }
    if i.nShared = 0 then ⟨f, i, some .unlockFile⟩ else posixUnlockCount f i true
  else endUnlock f i eFileLock true

/-- `posixUnlock` from the mutex to its first system call. -/
def posixUnlock (eFileLock : FileLock) : LockCtx :=
  if .sharedLock < f.eFileLock then
    if eFileLock = .sharedLock then ⟨f, i, some .relockShared⟩
    else ⟨f, i, some (.unlockBytes eFileLock)⟩
  else posixUnlockShared f i eFileLock

/-- From the system call, with its result, to the next one. -/
def LockPc.resume (ok sharing : Bool) : LockPc → LockCtx
  | .lockPending eFileLock =>
    if ok = false then ⟨f, i, none⟩
    else if eFileLock = .exclusiveLock then
      unixLockWrite { f with eFileLock := .pendingLock } { i with eFileLock := .pendingLock }
        eFileLock sharing
    else ⟨f, i, some .lockShared⟩
  | .lockShared => ⟨f, i, some (.unlockPending ok)⟩
  | .unlockPending got =>
    if got ∧ ok then
      ⟨{ f with eFileLock := .sharedLock },
        { i with nLock := i.nLock + 1, nShared := 1, eFileLock := .sharedLock }, none⟩
    else ⟨f, i, none⟩
  | .lockWrite eFileLock =>
    if ok then ⟨{ f with eFileLock := eFileLock }, { i with eFileLock := eFileLock }, none⟩
    else ⟨f, i, none⟩
  | .relockShared =>
    if ok then ⟨f, i, some (.unlockBytes .sharedLock)⟩ else endUnlock f i .sharedLock false
  | .unlockBytes eFileLock =>
    if ok then posixUnlockShared f { i with eFileLock := .sharedLock } eFileLock
    else endUnlock f i eFileLock false
  | .unlockFile =>
    if ok then posixUnlockCount f { i with eFileLock := .noLock } true
    else posixUnlockCount { f with eFileLock := .noLock } { i with eFileLock := .noLock } false
  | .closePending ok => endUnlock f { i with pUnused := [] } .noLock ok

/-- The system call that is made. `closePendingFds` has one for each descriptor on its list. -/
def LockPc.call (ok : Bool) : LockPc → SysCall
  | .closePending _ => if i.pUnused = [] then .none else .close
  | pc => if ok then .fcntl pc.flock else .none

end Functions

/-- The handles of one process and what they share. `unixMutex` is the holder of the mutex of
`unixEnterMutex`, where it is held over several steps. -/
structure LockProcess (H : Type) where
  file : H → UnixFile
  inode : UnixInodeInfo
  pLockMutex : Option (H × LockPc)
  unixMutex : Option H

inductive LockAct (H : Type)
  | openFile (h : H) (fd : ℕ) (reuse : Bool)
  | lock (h : H) (eFileLock : FileLock) (sharing : Bool)
  | unlock (h : H) (eFileLock : FileLock)
  | resume (ok sharing : Bool)
  | store (h : H)
  | close (h : H)
  | testLocks (h : H)
  | release (h : H)
  | closeDescriptor (h : H)
  | die

namespace LockProcess

variable {H : Type} [DecidableEq H]

/-- What `findInodeInfo` sets up for a file the process has not open. -/
def freshInode : UnixInodeInfo := ⟨0, 0, 0, .noLock, []⟩

/-- A process that has no handle. -/
def fresh : LockProcess H := ⟨fun _ => ⟨.noLock, none, .absent⟩, freshInode, none, none⟩

def setFile (L : LockProcess H) (h : H) (f : UnixFile) : LockProcess H :=
  { L with file := Function.update L.file h f }

/-- Handle `h` reaches the point `c` of its call. -/
def enter (L : LockProcess H) (h : H) (c : LockCtx) : LockProcess H :=
  { L.setFile h c.file with inode := c.inode, pLockMutex := c.pc.map (h, ·) }

/-- `unixOpen`, with a descriptor of its own or one that `findReusableFd` takes off `pUnused`. -/
def openFile (L : LockProcess H) (h : H) (fd : ℕ) (reuse : Bool) : LockProcess H :=
  { L.setFile h ⟨.noLock, some fd, .idle⟩ with
    inode := { L.inode with
      nRef := L.inode.nRef + 1
      pUnused := if reuse then L.inode.pUnused.erase fd else L.inode.pUnused } }

/-- `unixClose` under `pLockMutex`: with locks left on the inode the descriptor goes to `pUnused`. -/
def testLocks (L : LockProcess H) (h : H) : LockProcess H :=
  let f := L.file h
  if L.inode.nLock = 0 then { L.setFile h { f with stage := .closeTested } with unixMutex := some h }
  else
    { L.setFile h { f with h := none, stage := .closeTested } with
      unixMutex := some h
      inode := { L.inode with pUnused := f.h.toList ++ L.inode.pUnused } }

/-- `releaseInodeInfo`. -/
def releaseInodeInfo (L : LockProcess H) (h : H) : LockProcess H :=
  { L.setFile h { L.file h with stage := .closeReleased } with
    inode := if L.inode.nRef - 1 = 0 then freshInode
      else { L.inode with nRef := L.inode.nRef - 1 } }

def releaseCall (L : LockProcess H) : SysCall :=
  if L.inode.nRef - 1 = 0 ∧ L.inode.pUnused ≠ [] then .close else .none

/-- `closeUnixFile` and the end of `unixClose`. -/
def closeUnixFile (L : LockProcess H) (h : H) : LockProcess H :=
  { L.setFile h ⟨.noLock, none, .closed⟩ with unixMutex := none }

/-- What is left of a process that is gone. -/
def dead : LockProcess H := ⟨fun _ => ⟨.noLock, none, .closed⟩, freshInode, none, none⟩

/-- The assertions of `unixLock` on its arguments. -/
def LegalLock (f : UnixFile) (eFileLock : FileLock) : Prop :=
  (f.eFileLock ≠ .noLock ∨ eFileLock = .sharedLock) ∧ eFileLock ≠ .pendingLock ∧
    (eFileLock ≠ .reservedLock ∨ f.eFileLock = .sharedLock)

instance (f : UnixFile) (eFileLock : FileLock) : Decidable (LegalLock f eFileLock) :=
  inferInstanceAs (Decidable (_ ∧ _))

/-- The step of one process. A handle waits for the mutexes it needs. -/
def step (L : LockProcess H) : LockAct H → Option (LockProcess H × SysCall)
  | .openFile h fd reuse =>
    if (L.file h).stage = .absent ∧ L.unixMutex = none ∧
        (reuse → L.pLockMutex = none ∧ fd ∈ L.inode.pUnused) then
      some (L.openFile h fd reuse, .none)
    else none
  | .lock h eFileLock sharing =>
    let f := L.file h
    if f.stage = .idle ∧ L.pLockMutex = none then
      if eFileLock ≤ f.eFileLock then some (L, .none)
      else if LegalLock f eFileLock then
        some (L.enter h (unixLock f L.inode eFileLock sharing), .none)
      else none
    else none
  | .unlock h eFileLock =>
    let f := L.file h
    if (f.stage = .idle ∧ eFileLock ≤ .sharedLock ∨ f.stage = .closeUnlock ∧ eFileLock = .noLock) ∧
        L.pLockMutex = none then
      if f.eFileLock ≤ eFileLock then some (L.enter h (endUnlock f L.inode eFileLock false), .none)
      else some (L.enter h (posixUnlock f L.inode eFileLock), .none)
    else none
  | .resume ok sharing =>
    match L.pLockMutex with
    | none => none
    | some (h, pc) =>
      some (L.enter h (pc.resume (L.file h) L.inode ok sharing), pc.call L.inode ok)
  | .store h =>
    match (L.file h).stage with
    | .storing eFileLock =>
      some (L.setFile h { L.file h with eFileLock := eFileLock, stage := .idle }, .none)
    | .closeStoring =>
      some (L.setFile h { L.file h with eFileLock := .noLock, stage := .closeUnlocked }, .none)
    | _ => none
  | .close h =>
    if (L.file h).stage = .idle ∧ L.pLockMutex.map Prod.fst ≠ some h then
      some (L.setFile h { L.file h with stage := .closeUnlock }, .none)
    else none
  | .testLocks h =>
    if (L.file h).stage = .closeUnlocked ∧ L.unixMutex = none ∧ L.pLockMutex = none then
      some (L.testLocks h, .none)
    else none
  | .release h =>
    if (L.file h).stage = .closeTested ∧ (L.inode.nRef - 1 = 0 → L.pLockMutex = none) then
      some (L.releaseInodeInfo h, L.releaseCall)
    else none
  | .closeDescriptor h =>
    if (L.file h).stage = .closeReleased then
      some (L.closeUnixFile h, if (L.file h).h = none then .none else .close)
    else none
  | .die => some (dead, .close)

end LockProcess

/-- The processes on one file, with any number of handles. -/
def unixLockMachine (H : Type) [DecidableEq H] : Machine (LockProcess H) (LockAct H) :=
  ⟨LockProcess.fresh, LockProcess.step⟩

end Btreelite
