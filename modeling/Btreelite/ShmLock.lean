import Btreelite.PosixLocks
import Mathlib.Data.Int.Notation
import Mathlib.Algebra.Group.Nat.Defs

/-!
# Locks on the wal-index

The connections of a process share one descriptor of the `-shm` file. `aLock` counts what they hold
in each slot, so that one record lock can stand for several shared locks. A request makes at most
one system call, under the mutex of the node, and is one step.
-/

namespace Btreelite

open Posix

/-- `UNIX_SHM_BASE`. -/
def unixShmBase : ℕ := (22 + 8) * 4

/-- `SQLITE_SHM_NLOCK`. -/
def shmNLock : ℕ := 8

inductive ShmFlags
  | lockShared
  | lockExclusive
  | unlockShared
  | unlockExclusive
deriving DecidableEq, Repr

/-- How far a connection is opened or closed: it gets its reference on the node before it is on the
list, and leaves the list before it gives the reference back. -/
inductive ShmStage
  | absent
  | linking
  | mapped
  | unlinked
deriving DecidableEq, Repr

structure UnixShm where
  stage : ShmStage
  sharedMask : BitVec 16
  exclMask : BitVec 16
deriving DecidableEq, Repr

/-- The result codes `SQLITE_OK` and `SQLITE_BUSY`. -/
inductive ShmRc
  | ok
  | busy
deriving DecidableEq, Repr

/-- What a request leaves and returns. -/
structure ShmResult where
  p : UnixShm
  aLock : ℕ → ℤ
  call : SysCall
  rc : ShmRc

/-- The `mask` of `unixShmLock`. -/
def shmMask (ofst n : ℕ) : BitVec 16 := BitVec.ofNat 16 (2 ^ (ofst + n) - 2 ^ ofst)

/-- The slots from `ofst` to `ofst + n - 1` set to `v`. -/
def fillSlots (aLock : ℕ → ℤ) (ofst n : ℕ) (v : ℤ) : ℕ → ℤ :=
  fun i => if ofst ≤ i ∧ i < ofst + n then v else aLock i

/-- The request of `unixShmSystemLock`. -/
def shmFlock (lockType : LockType) (ofst n : ℕ) : Flock := ⟨lockType, ofst + unixShmBase, n⟩

section Request

variable (p : UnixShm) (aLock : ℕ → ℤ) (ofst n : ℕ)

/-- The assertions of `unixShmLock`. -/
def ShmLegal (flags : ShmFlags) : Prop :=
  1 ≤ n ∧ ofst + n ≤ shmNLock ∧
    match flags with
    | .lockShared => n = 1
    | .lockExclusive => p.sharedMask &&& shmMask ofst n = 0 ∧ p.exclMask &&& shmMask ofst n = 0
    | .unlockShared => n = 1 ∧ ((p.exclMask ||| p.sharedMask) &&& shmMask ofst n ≠ 0 →
        p.sharedMask &&& shmMask ofst n = shmMask ofst n)
    | .unlockExclusive => (p.exclMask ||| p.sharedMask) &&& shmMask ofst n ≠ 0 →
        p.exclMask &&& shmMask ofst n = shmMask ofst n

instance ShmLegal.decidable (flags : ShmFlags) : Decidable (ShmLegal p ofst n flags) := by
  cases flags <;> exact inferInstanceAs (Decidable (_ ∧ _ ∧ _))

/-- Case (a) of `unixShmLock`. -/
def unixShmUnlock (flags : ShmFlags) (ok : Bool) : ShmResult :=
  let mask := shmMask ofst n
  if flags = .unlockShared ∧ 1 < aLock ofst then
    ⟨{ p with sharedMask := p.sharedMask &&& ~~~ mask },
      Function.update aLock ofst (aLock ofst - 1), .none, .ok⟩
  else if ok then
    ⟨{ p with sharedMask := p.sharedMask &&& ~~~ mask, exclMask := p.exclMask &&& ~~~ mask },
      fillSlots aLock ofst n 0, .fcntl (shmFlock .unlck ofst n), .ok⟩
  else ⟨p, aLock, .none, .busy⟩

/-- Case (b). -/
def unixShmLockShared (ok : Bool) : ShmResult :=
  let p' := { p with sharedMask := p.sharedMask ||| shmMask ofst n }
  let aLock' := Function.update aLock ofst (aLock ofst + 1)
  if aLock ofst < 0 then ⟨p, aLock, .none, .busy⟩
  else if aLock ofst = 0 then
    if ok then ⟨p', aLock', .fcntl (shmFlock .rdlck ofst n), .ok⟩ else ⟨p, aLock, .none, .busy⟩
  else ⟨p', aLock', .none, .ok⟩

/-- Case (c). -/
def unixShmLockExclusive (ok : Bool) : ShmResult :=
  if ∃ i < n, aLock (ofst + i) ≠ 0 then ⟨p, aLock, .none, .busy⟩
  else if ok then
    ⟨{ p with exclMask := p.exclMask ||| shmMask ofst n }, fillSlots aLock ofst n (-1),
      .fcntl (shmFlock .wrlck ofst n), .ok⟩
  else ⟨p, aLock, .none, .busy⟩

/-- `unixShmLock`; `ok` is the answer of the system, where it is asked. -/
def unixShmLock (flags : ShmFlags) (ok : Bool) : ShmResult :=
  let mask := shmMask ofst n
  match flags with
  | .lockShared =>
    if p.sharedMask &&& mask = 0 then unixShmLockShared p aLock ofst n ok
    else ⟨p, aLock, .none, .ok⟩
  | .lockExclusive => unixShmLockExclusive p aLock ofst n ok
  | _ =>
    if (p.exclMask ||| p.sharedMask) &&& mask = 0 then ⟨p, aLock, .none, .ok⟩
    else unixShmUnlock p aLock ofst n flags ok

end Request

/-- The value `assertLockingArrayOk` computes for slot `i`, or none where an assertion of it fails. -/
def lockingArray (i : ℕ) : List UnixShm → Option ℤ → Option ℤ
  | [], a => a
  | pX :: ps, a =>
    lockingArray i ps <| a.bind fun a =>
      if pX.exclMask.getLsbD i then if a = 0 then some (-1) else none
      else if pX.sharedMask.getLsbD i then if 0 ≤ a then some (a + 1) else none
      else some a

/-- The list comports with `aLock`. -/
def assertLockingArrayOk (pFirst : List UnixShm) (aLock : ℕ → ℤ) : Prop :=
  ∀ i < shmNLock, lockingArray i pFirst (some 0) = some (aLock i)

/-- The node of one process and its connections. -/
structure ShmProcess (C : Type) where
  shm : C → UnixShm
  pFirst : List C
  nRef : ℕ
  aLock : ℕ → ℤ

inductive ShmAct (C : Type)
  | openShm (c : C)
  | link (c : C)
  | shmLock (c : C) (ofst n : ℕ) (flags : ShmFlags) (ok : Bool)
  | unmap (c : C)
  | unref (c : C)
  | die

namespace ShmProcess

variable {C : Type} [DecidableEq C]

def fresh : ShmProcess C := ⟨fun _ => ⟨.absent, 0, 0⟩, [], 0, fun _ => 0⟩

/-- The step of one process. -/
def step (s : ShmProcess C) : ShmAct C → Option (ShmProcess C × SysCall)
  -- `unixOpenSharedMemory` under `unixEnterMutex`, and then under the mutex of the node
  | .openShm c =>
    if (s.shm c).stage = .absent then
      some ({ s with shm := Function.update s.shm c ⟨.linking, 0, 0⟩, nRef := s.nRef + 1 }, .none)
    else none
  | .link c =>
    if (s.shm c).stage = .linking then
      some ({ s with
        shm := Function.update s.shm c { s.shm c with stage := .mapped }
        pFirst := c :: s.pFirst }, .none)
    else none
  | .shmLock c ofst n flags ok =>
    if (s.shm c).stage = .mapped ∧ ShmLegal (s.shm c) ofst n flags then
      let r := unixShmLock (s.shm c) s.aLock ofst n flags ok
      some ({ s with shm := Function.update s.shm c r.p, aLock := r.aLock }, r.call)
    else none
  -- `unixShmUnmap` frees the connection, and behind that its reference on the node
  | .unmap c =>
    if (s.shm c).stage = .mapped then
      some ({ s with
        shm := Function.update s.shm c ⟨.unlinked, 0, 0⟩
        pFirst := s.pFirst.erase c }, .none)
    else none
  | .unref c =>
    if (s.shm c).stage = .unlinked then
      let shm : C → UnixShm := Function.update s.shm c ⟨.absent, 0, 0⟩
      if s.nRef - 1 = 0 then some (⟨shm, [], 0, fun _ => 0⟩, .close)
      else some ({ s with shm := shm, nRef := s.nRef - 1 }, .none)
    else none
  | .die => some (fresh, .close)

end ShmProcess

/-- The processes on one `-shm` file, with any number of connections. -/
def unixShmMachine (C : Type) [DecidableEq C] : Machine (ShmProcess C) (ShmAct C) :=
  ⟨ShmProcess.fresh, ShmProcess.step⟩

end Btreelite
