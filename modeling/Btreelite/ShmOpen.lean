import Btreelite.PosixLocks
import Btreelite.ShmLock

/-!
# Opening the wal-index

Any number of processes open and close the `-shm` file through the DMS byte. Each system call of
`unixLockSharedMemory` is a step; a process may die between any two of them, and the machine may
crash, which leaves no locks and any bytes in any file. A name may be deleted while the file is
open, so that the processes can have different files open; each file has its own locks.
-/

namespace Btreelite

open Posix

/-- `UNIX_SHM_DMS`. -/
def unixShmDms : ℕ := unixShmBase + shmNLock

/-- The request on the DMS byte. -/
def dmsFlock (lockType : LockType) : Flock := ⟨lockType, unixShmDms, 1⟩

/-- A file: its size, and which of its bytes have survived the last crash. -/
structure ShmFile where
  size : ℕ
  survived : ℕ → Bool

/-- `robust_ftruncate` to three bytes. -/
def ShmFile.truncate (f : ShmFile) : ShmFile :=
  ⟨3, fun i => if i < f.size then f.survived i else false⟩

/-- A byte is stored, and what lies before it is there. -/
def ShmFile.store (f : ShmFile) (i : ℕ) : ShmFile :=
  ⟨max f.size (i + 1), fun j => if j = i ∨ f.size ≤ j then false else f.survived j⟩

/-- No byte behind the three that truncation leaves has survived a crash. -/
def ShmFile.Fresh (f : ShmFile) : Prop := ∀ i, 3 ≤ i → i < f.size → f.survived i = false

/-- Where a process stands: in `unixLockSharedMemory`, called by `unixOpenSharedMemory` or again by
`unixShmMap`; with a node that `isUnlocked`; or with the shared DMS lock. -/
inductive DmsPc
  | closed
  | probe (again : Bool)
  | lockExcl (again : Bool)
  | truncate (again : Bool)
  | lockShared (again : Bool)
  | unlocked
  | attached
deriving DecidableEq, Repr

/-- The node of a process. `hShm` is the file its descriptor is open on. -/
structure ShmNode where
  pc : DmsPc
  hShm : ℕ
  isReadonly : Bool
  nRef : ℕ
deriving DecidableEq, Repr

/-- What the caller makes of `SQLITE_OK`. -/
def ShmNode.attach (x : ShmNode) (again : Bool) : ShmNode :=
  { x with pc := .attached, nRef := if again then x.nRef else 1 }

/-- What the caller makes of `SQLITE_READONLY_CANTINIT`. -/
def ShmNode.cantInit (x : ShmNode) (again : Bool) : ShmNode :=
  { x with pc := .unlocked, nRef := if again then x.nRef else 1 }

/-- What the caller makes of any other error: `unixOpenSharedMemory` purges the node. -/
def ShmNode.failed (x : ShmNode) (again : Bool) : ShmNode :=
  { x with pc := if again then .unlocked else .closed }

def failedCall (again : Bool) : SysCall := if again then .none else .close

/-- The processes, the files by their numbers, the number the name stands for, and the locks that
each process holds on each file. -/
structure ShmSystem (P : Type) where
  node : P → ShmNode
  file : ℕ → ShmFile
  name : Option ℕ
  locks : ℕ → P → Row

section Step

variable {P : Type} [DecidableEq P]

/-- Process `p` goes on to `x` with a call on the file it has open. -/
def ShmSystem.goto (s : ShmSystem P) (p : P) (x : ShmNode) (c : SysCall) : ShmSystem P :=
  let k := (s.node p).hShm
  { s with
    node := Function.update s.node p x
    locks := Function.update s.locks k (Function.update (s.locks k) p ((s.locks k p).after c)) }

/-- The system grants the call on the file that `p` has open. -/
def ShmSystem.grants (s : ShmSystem P) (p : P) (c : SysCall) : Prop :=
  Granted (s.locks (s.node p).hShm) p c

/-- The answer `t` of `F_GETLK`: the type of a lock another process has, if any has one. -/
def ShmSystem.getlk (s : ShmSystem P) (p : P) : LockType → Prop
  | .unlck => ∀ q ≠ p, s.locks (s.node p).hShm q unixShmDms = .unlck
  | t => ∃ q ≠ p, s.locks (s.node p).hShm q unixShmDms = t

inductive ShmStep : ShmSystem P → ShmSystem P → Prop
  -- `unixOpenSharedMemory`
  | create {s : ShmSystem P} {p : P} {k : ℕ} (hpc : (s.node p).pc = .closed) (hname : s.name = none)
      (hk : ∀ q, (s.node q).pc ≠ .closed → (s.node q).hShm ≠ k) :
      ShmStep s { s with
        node := Function.update s.node p ⟨.probe false, k, false, 0⟩
        file := Function.update s.file k ⟨0, fun _ => false⟩
        name := some k }
  | openExisting {s : ShmSystem P} {p : P} {k : ℕ} (isReadonly : Bool)
      (hpc : (s.node p).pc = .closed) (hname : s.name = some k) :
      ShmStep s { s with node := Function.update s.node p ⟨.probe false, k, isReadonly, 0⟩ }
  | openAgain {s : ShmSystem P} {p : P} (hn : 0 < (s.node p).nRef)
      (hpc : (s.node p).pc ≠ .closed) :
      ShmStep s { s with
        node := Function.update s.node p { s.node p with nRef := (s.node p).nRef + 1 } }
  -- `unixLockSharedMemory`: the answers of `F_GETLK`
  | getlkFails {s : ShmSystem P} {p : P} {again : Bool} (hpc : (s.node p).pc = .probe again) :
      ShmStep s (s.goto p ((s.node p).failed again) (failedCall again))
  | getlkUnlck {s : ShmSystem P} {p : P} {again : Bool} (hpc : (s.node p).pc = .probe again)
      (hl : s.getlk p .unlck) :
      ShmStep s (s.goto p (if (s.node p).isReadonly then (s.node p).cantInit again
        else { s.node p with pc := .lockExcl again }) .none)
  | getlkRdlck {s : ShmSystem P} {p : P} {again : Bool} (hpc : (s.node p).pc = .probe again)
      (hl : s.getlk p .rdlck) :
      ShmStep s (s.goto p { s.node p with pc := .lockShared again } .none)
  | getlkWrlck {s : ShmSystem P} {p : P} {again : Bool} (hpc : (s.node p).pc = .probe again)
      (hl : s.getlk p .wrlck) :
      ShmStep s (s.goto p ((s.node p).failed again) (failedCall again))
  -- the exclusive lock, the truncation and the shared lock
  | exclFails {s : ShmSystem P} {p : P} {again : Bool} (hpc : (s.node p).pc = .lockExcl again) :
      ShmStep s (s.goto p ((s.node p).failed again) (failedCall again))
  | exclLocked {s : ShmSystem P} {p : P} {again : Bool} (hpc : (s.node p).pc = .lockExcl again)
      (hg : s.grants p (.fcntl (dmsFlock .wrlck))) :
      ShmStep s (s.goto p { s.node p with pc := .truncate again } (.fcntl (dmsFlock .wrlck)))
  | truncateFails {s : ShmSystem P} {p : P} {again : Bool}
      (hpc : (s.node p).pc = .truncate again) :
      ShmStep s (s.goto p ((s.node p).failed again) (failedCall again))
  | truncated {s : ShmSystem P} {p : P} {again : Bool} (hpc : (s.node p).pc = .truncate again) :
      ShmStep s { s.goto p { s.node p with pc := .lockShared again } .none with
        file := Function.update s.file (s.node p).hShm (s.file (s.node p).hShm).truncate }
  | sharedFails {s : ShmSystem P} {p : P} {again : Bool}
      (hpc : (s.node p).pc = .lockShared again) :
      ShmStep s (s.goto p ((s.node p).failed again) (failedCall again))
  | sharedLocked {s : ShmSystem P} {p : P} {again : Bool}
      (hpc : (s.node p).pc = .lockShared again) (hg : s.grants p (.fcntl (dmsFlock .rdlck))) :
      ShmStep s (s.goto p ((s.node p).attach again) (.fcntl (dmsFlock .rdlck)))
  -- `unixShmMap` on a node that `isUnlocked`, and the stores of a process that has the lock
  | again {s : ShmSystem P} {p : P} (hpc : (s.node p).pc = .unlocked) :
      ShmStep s (s.goto p { s.node p with pc := .probe true } .none)
  | store {s : ShmSystem P} {p : P} (i : ℕ) (hpc : (s.node p).pc = .attached) :
      ShmStep s { s with
        file := Function.update s.file (s.node p).hShm ((s.file (s.node p).hShm).store i) }
  -- `unixShmUnmap`
  | unmap {s : ShmSystem P} {p : P} (hn : 1 < (s.node p).nRef) :
      ShmStep s { s with
        node := Function.update s.node p { s.node p with nRef := (s.node p).nRef - 1 } }
  | unmapLast {s : ShmSystem P} {p : P} (deleteFlag : Bool) (hn : (s.node p).nRef = 1)
      (hpc : (s.node p).pc = .attached ∨ (s.node p).pc = .unlocked) :
      ShmStep s { s.goto p { s.node p with pc := .closed, nRef := 0 } .close with
        name := if deleteFlag then none else s.name }
  | die {s : ShmSystem P} (p : P) :
      ShmStep s (s.goto p { s.node p with pc := .closed, nRef := 0 } .close)
  | crash {s : ShmSystem P} (node : P → ShmNode) (hnode : ∀ p, (node p).pc = .closed)
      (file : ℕ → ShmFile) (name : Option ℕ) :
      ShmStep s ⟨node, file, name, fun _ _ _ => .unlck⟩

/-- The runs from any files, with no process on them. -/
inductive ShmRun : ShmSystem P → Prop
  | init (file : ℕ → ShmFile) (name : Option ℕ) :
      ShmRun ⟨fun _ => ⟨.closed, 0, false, 0⟩, file, name, fun _ _ _ => .unlck⟩
  | snoc {s s' : ShmSystem P} (hrun : ShmRun s) (hstep : ShmStep s s') : ShmRun s'

end Step

section Invariant

variable {P : Type} [DecidableEq P] {s s' : ShmSystem P} {p : P}

/-- Who is past the probe, or has the shared DMS lock, has a file that is fresh. -/
structure ShmOpenInv (s : ShmSystem P) : Prop where
  opened : ∀ p, (s.node p).pc = .attached ∨ (∃ again, (s.node p).pc = .lockShared again) →
    (s.file (s.node p).hShm).Fresh
  locked : ∀ k p, s.locks k p unixShmDms = .rdlck → (s.file k).Fresh
  excl : ∀ p again, (s.node p).pc = .truncate again →
    s.locks (s.node p).hShm p unixShmDms = .wrlck
  shared : ∀ p, (s.node p).pc = .attached → s.locks (s.node p).hShm p unixShmDms = .rdlck
  coherent : ∀ k, Coherent (s.locks k)

theorem ShmFile.Fresh.truncate (f : ShmFile) : f.truncate.Fresh := by
  intro i h3 hi
  simp only [ShmFile.truncate] at hi
  omega

theorem ShmFile.Fresh.store {f : ShmFile} (h : f.Fresh) (i : ℕ) : (f.store i).Fresh := by
  intro j h3 _
  simp only [ShmFile.store]
  split
  · rfl
  · rename_i hj
    exact h j h3 (Nat.not_le.1 fun hle => hj (.inr hle))

@[simp] theorem dmsFlock_after {t : LockType} {r : Row} :
    r.after (.fcntl (dmsFlock t)) unixShmDms = t :=
  Row.after_covers _ (by simp [Flock.Covers, dmsFlock])

omit [DecidableEq P] in
theorem ShmOpenInv.file (hs : ShmOpenInv s) {k : ℕ} {f : ShmFile} (name : Option ℕ)
    (hf : (s.file k).Fresh → f.Fresh) :
    ShmOpenInv { s with file := Function.update s.file k f, name := name } := by
  have hfresh : ∀ j, (s.file j).Fresh → (Function.update s.file k f j).Fresh := by
    intro j hj
    by_cases hjk : j = k
    · subst hjk
      simpa using hf hj
    · simpa [hjk] using hj
  exact ⟨fun p hp => hfresh _ (hs.opened p hp), fun j p hp => hfresh _ (hs.locked j p hp), hs.excl,
    hs.shared, hs.coherent⟩

/-- A process that opens a file, or counts its connections. -/
theorem ShmOpenInv.node (hs : ShmOpenInv s) {x : ShmNode}
    (hx : (∃ again, x.pc = .probe again) ∨
      x.pc = (s.node p).pc ∧ x.hShm = (s.node p).hShm) :
    ShmOpenInv { s with node := Function.update s.node p x } := by
  refine ⟨fun q hq => ?_, hs.locked, fun q again hq => ?_, fun q hq => ?_, hs.coherent⟩
  all_goals
    by_cases hqp : q = p
    · subst hqp
      simp only [Function.update_self] at hq ⊢
      rcases hx with ⟨a, hx⟩ | ⟨hpc, hh⟩
      · simp [hx] at hq
      · rw [hpc] at hq
        rw [hh]
        first | exact hs.opened q hq | exact hs.excl q _ hq | exact hs.shared q hq
    · simp only [Function.update_of_ne hqp] at hq ⊢
      first | exact hs.opened q hq | exact hs.excl q _ hq | exact hs.shared q hq

/-- A process goes on with a call that the system grants. -/
theorem ShmOpenInv.goto (hs : ShmOpenInv s) {x : ShmNode} {c : SysCall}
    (hh : x.hShm = (s.node p).hShm) (hg : s.grants p c)
    (hfresh : x.pc = .attached ∨ (∃ again, x.pc = .lockShared again) ∨
      (s.locks x.hShm p).after c unixShmDms = .rdlck → (s.file x.hShm).Fresh)
    (hexcl : ∀ again, x.pc = .truncate again →
      (s.locks x.hShm p).after c unixShmDms = .wrlck)
    (hshared : x.pc = .attached → (s.locks x.hShm p).after c unixShmDms = .rdlck) :
    ShmOpenInv (s.goto p x c) := by
  have hself : (s.goto p x c).locks x.hShm p = (s.locks x.hShm p).after c := by
    simp [ShmSystem.goto, hh]
  have hother : ∀ k q, q ≠ p → (s.goto p x c).locks k q = s.locks k q := by
    intro k q hq
    by_cases hk : k = (s.node p).hShm
    · subst hk
      simp [ShmSystem.goto, hq]
    · simp [ShmSystem.goto, hk]
  have hnode : (s.goto p x c).node p = x := by simp [ShmSystem.goto]
  have hnodes : ∀ q, q ≠ p → (s.goto p x c).node q = s.node q := by
    intro q hq
    simp [ShmSystem.goto, hq]
  refine ⟨fun q hq => ?_, fun k q hq => ?_, fun q again hq => ?_, fun q hq => ?_, fun k => ?_⟩
  · by_cases hqp : q = p
    · subst hqp
      rw [hnode] at hq ⊢
      exact hfresh (hq.imp_right .inl)
    · rw [hnodes q hqp] at hq ⊢
      exact hs.opened q hq
  · by_cases hqp : q = p
    · subst hqp
      by_cases hk : k = x.hShm
      · subst hk
        rw [hself] at hq
        exact hfresh (.inr (.inr hq))
      · refine hs.locked k q ?_
        simpa [ShmSystem.goto, ← hh, hk] using hq
    · rw [hother k q hqp] at hq
      exact hs.locked k q hq
  · by_cases hqp : q = p
    · subst hqp
      rw [hnode] at hq ⊢
      rw [hself]
      exact hexcl again hq
    · rw [hnodes q hqp] at hq ⊢
      rw [hother _ q hqp]
      exact hs.excl q again hq
  · by_cases hqp : q = p
    · subst hqp
      rw [hnode] at hq ⊢
      rw [hself]
      exact hshared hq
    · rw [hnodes q hqp] at hq ⊢
      rw [hother _ q hqp]
      exact hs.shared q hq
  · by_cases hk : k = (s.node p).hShm
    · subst hk
      simpa [ShmSystem.goto] using (hs.coherent _).update hg
    · simpa [ShmSystem.goto, hk] using hs.coherent k

/-- With no call, or a `close`, the process must only not get into the file. -/
theorem ShmOpenInv.leave (hs : ShmOpenInv s) {x : ShmNode} {c : SysCall}
    (hh : x.hShm = (s.node p).hShm) (hc : c = .none ∨ c = .close)
    (hx : x.pc ≠ .attached ∧ (∀ again, x.pc ≠ .lockShared again) ∧
      ∀ again, x.pc ≠ .truncate again) : ShmOpenInv (s.goto p x c) := by
  have hg : s.grants p c := by rcases hc with rfl | rfl <;> trivial
  refine hs.goto hh hg ?_ (fun again h => absurd h (hx.2.2 again)) (fun h => absurd h hx.1)
  rintro (h | ⟨again, h⟩ | h)
  · exact absurd h hx.1
  · exact absurd h (hx.2.1 again)
  · rcases hc with rfl | rfl
    · exact hs.locked _ p h
    · simp [Row.after] at h

theorem ShmOpenInv.failed (hs : ShmOpenInv s) (again : Bool) :
    ShmOpenInv (s.goto p ((s.node p).failed again) (failedCall again)) := by
  cases again <;> exact hs.leave rfl (by simp [failedCall]) (by simp [ShmNode.failed])

theorem ShmOpenInv.step (hs : ShmOpenInv s) (hstep : ShmStep s s') : ShmOpenInv s' := by
  cases hstep with
  | @create p k _ _ _ =>
    exact (hs.node (p := p) (x := ⟨.probe false, k, false, 0⟩) (.inl ⟨_, rfl⟩)).file (some k)
      fun _ i _ hi => by simp at hi
  | openExisting _ _ _ => exact hs.node (.inl ⟨_, rfl⟩)
  | openAgain _ _ => exact hs.node (.inr ⟨rfl, rfl⟩)
  | getlkFails _ => exact hs.failed _
  | getlkUnlck _ _ =>
    split
    · exact hs.leave rfl (.inl rfl) (by simp [ShmNode.cantInit])
    · exact hs.leave rfl (.inl rfl) (by simp)
  | @getlkRdlck p again _ hl =>
    -- a process that has the shared lock vouches for the file
    obtain ⟨q, -, hq⟩ := hl
    exact hs.goto rfl trivial (fun _ => hs.locked _ q hq) (by simp) (by simp)
  | getlkWrlck _ _ => exact hs.failed _
  | exclFails _ => exact hs.failed _
  | exclLocked _ hg => exact hs.goto rfl hg (by simp) (by simp) (by simp)
  | truncateFails _ => exact hs.failed _
  | @truncated p again hpc =>
    have hfile := hs.file (k := (s.node p).hShm) s.name fun _ =>
      ShmFile.Fresh.truncate (s.file (s.node p).hShm)
    refine hfile.goto (x := { s.node p with pc := .lockShared again }) rfl trivial (fun _ => ?_)
      (by simp) (by simp)
    simpa using ShmFile.Fresh.truncate _
  | sharedFails _ => exact hs.failed _
  | @sharedLocked p again hpc hg =>
    exact hs.goto rfl hg (fun _ => hs.opened p (.inr ⟨again, hpc⟩)) (by simp [ShmNode.attach])
      (by simp)
  | again _ => exact hs.leave rfl (.inl rfl) (by simp)
  | store i _ => exact hs.file s.name fun h => h.store i
  | unmap _ => exact hs.node (.inr ⟨rfl, rfl⟩)
  | @unmapLast p deleteFlag _ _ =>
    have h := hs.leave (p := p) (x := { s.node p with pc := .closed, nRef := 0 }) rfl (.inr rfl)
      (by simp)
    exact ⟨h.opened, h.locked, h.excl, h.shared, h.coherent⟩
  | die p => exact hs.leave rfl (.inr rfl) (by simp)
  | crash node hnode file name =>
    exact ⟨fun p hp => by simp [hnode] at hp, fun _ _ h => (nomatch h),
      fun p _ hp => by simp [hnode] at hp, fun p hp => by simp [hnode] at hp,
      fun _ _ _ _ _ h => (nomatch h)⟩

theorem shmOpenInv_run (hrun : ShmRun s) : ShmOpenInv s := by
  induction hrun with
  | init file name =>
    exact ⟨fun p hp => by simp at hp, fun _ _ h => (nomatch h), fun p _ hp => by simp at hp,
      fun p hp => by simp at hp, fun _ _ _ _ _ h => (nomatch h)⟩
  | snoc _ hstep ih => exact ih.step hstep

/-- In every state of every run, a process that uses a `-shm` file, or holds the shared DMS lock on
one, has a file truncated since the last crash, and a process that is about to truncate a file
shares it with none that uses it. -/
theorem unixLockSharedMemory_fresh (hrun : ShmRun s) :
    (∀ p, (s.node p).pc = .attached →
      s.locks (s.node p).hShm p unixShmDms = .rdlck ∧ (s.file (s.node p).hShm).Fresh) ∧
    (∀ k p, s.locks k p unixShmDms = .rdlck → (s.file k).Fresh) ∧
    ∀ p again, (s.node p).pc = .truncate again →
      ∀ q, (s.node q).pc = .attached → (s.node q).hShm ≠ (s.node p).hShm := by
  have hs := shmOpenInv_run hrun
  refine ⟨fun p hp => ⟨hs.shared p hp, hs.opened p (.inl hp)⟩, hs.locked, ?_⟩
  intro p again hp q hq heq
  have hpq : p ≠ q := by
    rintro rfl
    simp [hp] at hq
  have hu := hs.coherent _ p q _ hpq (hs.excl p again hp)
  rw [← heq, hs.shared q hq] at hu
  simp at hu

/-- A process opens a file all of whose bytes have survived a crash. -/
theorem unixLockSharedMemory_fresh_first : ∃ s : ShmSystem Unit, ShmRun s ∧
    (s.node ()).pc = .attached ∧ (s.file 0).Fresh := by
  have hinit : ShmRun (P := Unit) _ := .init (fun _ => ⟨32768, fun _ => true⟩) (some 0)
  have hopen := hinit.snoc (.openExisting (p := ()) false rfl rfl)
  have hprobe := hopen.snoc (.getlkUnlck (p := ()) rfl fun _ hq => absurd rfl hq)
  have hexcl := hprobe.snoc (.exclLocked (p := ()) rfl fun _ hq => absurd rfl hq)
  have htrunc := hexcl.snoc (.truncated (p := ()) rfl)
  have hshared := htrunc.snoc (.sharedLocked (p := ()) rfl fun _ hq => absurd rfl hq)
  exact ⟨_, hshared, rfl, ((unixLockSharedMemory_fresh hshared).1 () rfl).2⟩

end Invariant

end Btreelite
