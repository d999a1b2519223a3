import Btreelite.LockLevels

/-!
# What the locks of a process protect

The invariant of one process: its handles are at the levels its inode counts, each of them backed by
the record locks of the process, and the holder of `pLockMutex` stands where the checks of `unixLock`
and `posixUnlock` let it stand. Other processes cannot break it, since they do not change the locks
of this one.
-/

namespace Btreelite

open Posix FileLock

/-- The level at which the inode counts a handle that is before the call `pc`, if it is in any. -/
def UnixFile.level (f : UnixFile) (pc : Option LockPc) : FileLock :=
  match f.stage, pc with
  | .storing l, _ => l
  | .closeStoring, _ => .noLock
  | _, some .unlockFile => .noLock
  | _, some (.closePending _) => .noLock
  | _, _ => f.eFileLock

/-- The lock a handle has: its level, but EXCLUSIVE is gone once the range is read-locked. -/
def UnixFile.held (f : UnixFile) (pc : Option LockPc) : FileLock :=
  if pc = some (.unlockBytes .sharedLock) ∧ f.level pc = .exclusiveLock then .sharedLock
  else f.level pc

/-- The bytes of the shared range. -/
def SharedByte (b : ℕ) : Prop := sharedFirst ≤ b ∧ b < sharedFirst + sharedSize

instance SharedByte.decidable (b : ℕ) : Decidable (SharedByte b) :=
  inferInstanceAs (Decidable (_ ∧ _))

/-- The record locks behind a level. -/
def Backed (r : Row) : FileLock → Prop
  | .noLock => True
  | .sharedLock => ∀ b, SharedByte b → r b ≠ .unlck
  | .reservedLock => r reservedByte = .wrlck ∧ ∀ b, SharedByte b → r b ≠ .unlck
  | .pendingLock =>
    r pendingByte = .wrlck ∧ r reservedByte = .wrlck ∧ ∀ b, SharedByte b → r b ≠ .unlck
  | .exclusiveLock => ∀ b, SharedByte b → r b = .wrlck

/-- What the holder of `pLockMutex` has checked before its next system call. -/
def CallOk (i : UnixInodeInfo) (r : Row) (f : UnixFile) : LockPc → Prop
  | .lockPending l => f.stage = .idle ∧ f.eFileLock = i.eFileLock ∧
      (l = .sharedLock ∧ i.eFileLock = .noLock ∨ l = .exclusiveLock ∧ i.eFileLock = .reservedLock)
  | .lockShared => f.stage = .idle ∧ f.eFileLock = .noLock ∧ i.eFileLock = .noLock ∧
      r pendingByte ≠ .unlck
  | .unlockPending got => f.stage = .idle ∧ f.eFileLock = .noLock ∧ i.eFileLock = .noLock ∧
      r pendingByte ≠ .unlck ∧ (got = true → Backed r .sharedLock)
  | .lockWrite l => f.stage = .idle ∧ f.eFileLock = i.eFileLock ∧
      (l = .reservedLock ∧ i.eFileLock = .sharedLock ∨
        l = .exclusiveLock ∧ i.eFileLock ≠ .noLock ∧ i.eFileLock < .exclusiveLock ∧ i.nShared ≤ 1)
  | .relockShared => f.stage = .idle ∧ .sharedLock < f.eFileLock
  | .unlockBytes l => (f.stage = .idle ∧ l ≤ .sharedLock ∨ f.stage = .closeUnlock ∧ l = .noLock) ∧
      .sharedLock < f.eFileLock
  | .unlockFile => (f.stage = .idle ∨ f.stage = .closeUnlock) ∧ i.nShared = 0
  | .closePending ok => (f.stage = .idle ∨ f.stage = .closeUnlock) ∧ i.nShared = 0 ∧
      i.nLock = 0 ∧ (ok = false → f.eFileLock = .noLock)

/-- The handle has a reference on the inode. -/
def Stage.Attached : Stage → Prop
  | .absent | .closeReleased | .closed => False
  | _ => True

/-- The handle is past the unlock of `unixClose`, or not open. -/
def Stage.Unlocked : Stage → Prop
  | .absent | .closeUnlocked | .closeTested | .closeReleased | .closed => True
  | _ => False

/-- `unixClose` has seen whether there are locks, and has not yet closed the descriptor. -/
def Stage.Closing : Stage → Prop
  | .closeTested | .closeReleased => True
  | _ => False

namespace LockProcess

variable {H : Type} [DecidableEq H]

/-- The call handle `h` is in. -/
def pcOf (L : LockProcess H) (h : H) : Option LockPc :=
  match L.pLockMutex with
  | some (g, pc) => if g = h then some pc else none
  | none => none

def level (L : LockProcess H) (h : H) : FileLock := (L.file h).level (L.pcOf h)

def held (L : LockProcess H) (h : H) : FileLock := (L.file h).held (L.pcOf h)

/-- The SHARED count is down already and the count of locks is not. -/
def unlocking (L : LockProcess H) : ℕ :=
  if L.pLockMutex.map Prod.snd = some .unlockFile then 1 else 0

end LockProcess

open LockProcess

/-- The invariant of one process. -/
structure LockInv {H : Type} [DecidableEq H] (x : Process (LockProcess H)) : Prop where
  levels : Levels x.st.level x.st.inode.eFileLock x.st.inode.nShared
  nLock : x.st.inode.nLock = x.st.inode.nShared + x.st.unlocking
  noLock_iff : x.st.inode.eFileLock = .noLock ↔ x.st.inode.nLock = 0
  held : ∀ h, Backed x.row (x.st.held h)
  nRef : {h | (x.st.file h).stage.Attached}.encard = x.st.inode.nRef
  unlocked : ∀ h, (x.st.file h).stage.Unlocked → (x.st.file h).eFileLock = .noLock
  call : ∀ h pc, x.st.pLockMutex = some (h, pc) → CallOk x.st.inode x.row (x.st.file h) pc
  closing : ∀ h, (x.st.file h).stage.Closing → (x.st.file h).h ≠ none →
    x.st.inode.nLock = 0 ∧ x.st.pLockMutex = none

section Bytes

variable {t : LockType} {b : ℕ} {r r' : Row} {l : FileLock}

@[simp] theorem covers_pendingByte : (Flock.mk t pendingByte 1).Covers b ↔ b = pendingByte := by
  simp [Flock.Covers]
  omega

@[simp] theorem covers_reservedByte : (Flock.mk t reservedByte 1).Covers b ↔ b = reservedByte := by
  simp [Flock.Covers]
  omega

@[simp] theorem covers_bytes :
    (Flock.mk t pendingByte 2).Covers b ↔ b = pendingByte ∨ b = reservedByte := by
  simp [Flock.Covers, reservedByte]
  omega

@[simp] theorem covers_shared : (Flock.mk t sharedFirst sharedSize).Covers b ↔ SharedByte b := by
  simp [Flock.Covers, SharedByte, sharedSize]

@[simp] theorem covers_file : (Flock.mk t 0 0).Covers b ↔ True := by simp [Flock.Covers]

@[simp] theorem not_sharedByte_pendingByte : ¬ SharedByte pendingByte := by
  simp [SharedByte, sharedFirst]

@[simp] theorem not_sharedByte_reservedByte : ¬ SharedByte reservedByte := by
  simp [SharedByte, sharedFirst, reservedByte]

theorem sharedByte_sharedFirst : SharedByte sharedFirst := by simp [SharedByte, sharedSize]

theorem reservedByte_ne : reservedByte ≠ pendingByte := by simp [reservedByte]

theorem SharedByte.ne_pendingByte (h : SharedByte b) : b ≠ pendingByte := by
  rintro rfl
  exact not_sharedByte_pendingByte h

theorem SharedByte.ne_reservedByte (h : SharedByte b) : b ≠ reservedByte := by
  rintro rfl
  exact not_sharedByte_reservedByte h

/-- Every lock includes the SHARED one. -/
theorem Backed.shared (h : Backed r l) (hl : l ≠ .noLock) : Backed r .sharedLock := by
  cases l with
  | noLock => exact absurd rfl hl
  | sharedLock => exact h
  | reservedLock => exact h.2
  | pendingLock => exact h.2.2
  | exclusiveLock => exact fun b hb => by simp [h b hb]

/-- Locks that only grow keep backing what they back. -/
theorem Backed.mono (h : Backed r l) (hw : ∀ b, r b = .wrlck → r' b = .wrlck)
    (hn : ∀ b, SharedByte b → r b ≠ .unlck → r' b ≠ .unlck) : Backed r' l := by
  cases l with
  | noLock => trivial
  | sharedLock => exact fun b hb => hn b hb (h b hb)
  | reservedLock => exact ⟨hw _ h.1, fun b hb => hn b hb (h.2 b hb)⟩
  | pendingLock => exact ⟨hw _ h.1, hw _ h.2.1, fun b hb => hn b hb (h.2.2 b hb)⟩
  | exclusiveLock => exact fun b hb => hw b (h b hb)

/-- Up to SHARED only the shared range counts. -/
theorem Backed.mono_shared (h : Backed r l) (hl : l ≤ .sharedLock)
    (hn : ∀ b, SharedByte b → r b ≠ .unlck → r' b ≠ .unlck) : Backed r' l := by
  rcases le_sharedLock.1 hl with rfl | rfl
  · trivial
  · exact fun b hb => hn b hb (h b hb)

end Bytes

section Enter

variable {H : Type} [DecidableEq H] {x : Process (LockProcess H)} {h g : H} {c : LockCtx}
  {r : Row}

theorem pcOf_none (hm : x.st.pLockMutex = none) : x.st.pcOf h = none := by
  simp [pcOf, hm]

theorem pcOf_self {pc : LockPc} (hm : x.st.pLockMutex = some (h, pc)) :
    x.st.pcOf h = some pc := by
  simp [pcOf, hm]

/-- No other handle than `h` has the mutex. -/
def Owner (L : LockProcess H) (h : H) : Prop := ∀ g pc, L.pLockMutex = some (g, pc) → g = h

theorem Owner.pcOf_ne (ho : Owner x.st h) (hg : g ≠ h) : x.st.pcOf g = none := by
  unfold pcOf
  split
  · rename_i g' pc hm
    rw [if_neg]
    rintro rfl
    exact hg (ho _ _ hm)
  · rfl

theorem pcOf_enter_self : (x.st.enter h c).pcOf h = c.pc := by
  cases hc : c.pc <;> simp [pcOf, enter, hc]

theorem pcOf_enter_ne (hg : g ≠ h) : (x.st.enter h c).pcOf g = none := by
  cases hc : c.pc <;> simp [pcOf, enter, hc, Ne.symm hg]

theorem file_enter_self : (x.st.enter h c).file h = c.file := by simp [enter, setFile]

theorem file_enter_ne (hg : g ≠ h) : (x.st.enter h c).file g = x.st.file g := by
  simp [enter, setFile, hg]

theorem level_enter (ho : Owner x.st h) :
    (x.st.enter h c).level = Function.update x.st.level h (c.file.level c.pc) := by
  funext g
  by_cases hg : g = h
  · subst hg
    simp [LockProcess.level, pcOf_enter_self, file_enter_self]
  · simp [LockProcess.level, pcOf_enter_ne hg, file_enter_ne hg, hg, ho.pcOf_ne hg]

/-- Handle `h` may come to the point `c` of its call with the locks `r`. -/
structure EnterOk (x : Process (LockProcess H)) (h : H) (r : Row) (c : LockCtx) : Prop where
  levels : Levels (Function.update x.st.level h (c.file.level c.pc)) c.inode.eFileLock
    c.inode.nShared
  nLock : c.inode.nLock = c.inode.nShared + if c.pc = some .unlockFile then 1 else 0
  noLock_iff : c.inode.eFileLock = .noLock ↔ c.inode.nLock = 0
  self : Backed r (c.file.held c.pc)
  others : ∀ g ≠ h, Backed r (x.st.level g)
  nRef : c.inode.nRef = x.st.inode.nRef
  attached : c.file.stage.Attached
  unlocked : c.file.stage.Unlocked → c.file.eFileLock = .noLock
  not_closing : ¬ c.file.stage.Closing
  call : ∀ pc, c.pc = some pc → CallOk c.inode r c.file pc

theorem LockInv.enter (hx : LockInv x) (ho : Owner x.st h) (ha : (x.st.file h).stage.Attached)
    (hcl : ∀ g, (x.st.file g).stage.Closing → (x.st.file g).h ≠ none →
      c.inode.nLock = 0 ∧ c.pc = none)
    (hc : EnterOk x h r c) : LockInv ⟨x.st.enter h c, r⟩ where
  levels := by
    rw [level_enter ho]
    exact hc.levels
  nLock := by
    have hu : (x.st.enter h c).unlocking = if c.pc = some .unlockFile then 1 else 0 := by
      cases hpc : c.pc <;> simp [unlocking, LockProcess.enter, hpc]
    rw [hu]
    exact hc.nLock
  noLock_iff := hc.noLock_iff
  held g := by
    by_cases hg : g = h
    · subst hg
      simpa [LockProcess.held, pcOf_enter_self, file_enter_self] using hc.self
    · have hb := hc.others g hg
      simpa [LockProcess.held, UnixFile.held, LockProcess.level, pcOf_enter_ne hg,
        file_enter_ne hg, ho.pcOf_ne hg] using hb
  nRef := by
    have hset : {g | ((x.st.enter h c).file g).stage.Attached} =
        {g | (x.st.file g).stage.Attached} := by
      ext g
      by_cases hg : g = h
      · subst hg
        simp [file_enter_self, hc.attached, ha]
      · simp [file_enter_ne hg]
    rw [hset, hx.nRef]
    exact congrArg _ hc.nRef.symm
  unlocked g := by
    by_cases hg : g = h
    · subst hg
      simpa [file_enter_self] using hc.unlocked
    · simpa [file_enter_ne hg] using hx.unlocked g
  call g pc hm := by
    obtain ⟨pc', hpc, hgh⟩ : ∃ pc', c.pc = some pc' ∧ (h, pc') = (g, pc) := by
      simpa [LockProcess.enter] using hm
    obtain ⟨rfl, rfl⟩ := Prod.mk.inj hgh
    change CallOk c.inode r ((x.st.enter h c).file h) pc'
    rw [file_enter_self]
    exact hc.call _ hpc
  closing g hs hh := by
    by_cases hg : g = h
    · subst hg
      rw [file_enter_self] at hs
      exact absurd hs hc.not_closing
    · rw [file_enter_ne hg] at hs hh
      obtain ⟨h0, hpc⟩ := hcl g hs hh
      exact ⟨h0, by simp [LockProcess.enter, hpc]⟩

variable {f : UnixFile} {i : UnixInodeInfo} {l : FileLock} {ok sharing : Bool}

/-- The call `pc` leaves a handle at the level it stores. -/
def LockPc.Plain (pc : LockPc) : Prop :=
  pc ≠ .unlockFile ∧ (∀ ok, pc ≠ .closePending ok) ∧ pc ≠ .unlockBytes .sharedLock

theorem UnixFile.level_idle (hs : f.stage = .idle) {pc : Option LockPc}
    (hpc : ∀ p, pc = some p → p.Plain) : f.level pc = f.eFileLock := by
  cases pc with
  | none => simp [UnixFile.level, hs]
  | some p =>
    obtain ⟨h1, h2, -⟩ := hpc p rfl
    cases p <;> simp_all [UnixFile.level]

theorem UnixFile.held_idle (hs : f.stage = .idle) {pc : Option LockPc}
    (hpc : ∀ p, pc = some p → p.Plain) : f.held pc = f.eFileLock := by
  have hne : pc ≠ some (.unlockBytes .sharedLock) := fun h => (hpc _ h).2.2 rfl
  simp [UnixFile.held, hne, UnixFile.level_idle hs hpc]

/-- A point at which the inode agrees with the stored level. -/
theorem EnterOk.idle {pc : Option LockPc} (hs : f.stage = .idle)
    (hpc : ∀ p, pc = some p → p.Plain)
    (hl : Levels (Function.update x.st.level h f.eFileLock) i.eFileLock i.nShared)
    (hn : i.nLock = i.nShared) (hno : i.eFileLock = .noLock ↔ i.nLock = 0)
    (hself : Backed r f.eFileLock) (hothers : ∀ g ≠ h, Backed r (x.st.level g))
    (href : i.nRef = x.st.inode.nRef)
    (hcall : ∀ p, pc = some p → CallOk i r f p) : EnterOk x h r ⟨f, i, pc⟩ where
  levels := by rwa [UnixFile.level_idle hs hpc]
  nLock := by
    rw [if_neg fun h => (hpc _ h).1 rfl]
    exact hn
  noLock_iff := hno
  self := by rwa [UnixFile.held_idle hs hpc]
  others := hothers
  nRef := href
  attached := by simp [hs, Stage.Attached]
  unlocked := by simp [hs, Stage.Unlocked]
  not_closing := by simp [hs, Stage.Closing]
  call := hcall

theorem unixLockWrite_ok (hs : f.stage = .idle)
    (hl : Levels (Function.update x.st.level h f.eFileLock) i.eFileLock i.nShared)
    (hn : i.nLock = i.nShared) (hno : i.eFileLock = .noLock ↔ i.nLock = 0)
    (hself : Backed r f.eFileLock) (hothers : ∀ g ≠ h, Backed r (x.st.level g))
    (href : i.nRef = x.st.inode.nRef) (hfe : f.eFileLock = i.eFileLock)
    (hreq : l = .reservedLock ∧ i.eFileLock = .sharedLock ∨
      l = .exclusiveLock ∧ i.eFileLock ≠ .noLock ∧ i.eFileLock < .exclusiveLock) :
    EnterOk x h r (unixLockWrite f i l sharing) := by
  have hbusy : EnterOk x h r ⟨f, i, none⟩ :=
    .idle hs (by simp) hl hn hno hself hothers href (by simp)
  unfold unixLockWrite
  split
  · exact hbusy
  · rename_i hone
    split
    · exact hbusy
    · refine .idle hs (by simp [LockPc.Plain]) hl hn hno hself hothers href ?_
      intro p hp
      obtain rfl := Option.some.inj hp
      refine ⟨hs, hfe, ?_⟩
      rcases hreq with hreq | ⟨rfl, h0, hlt⟩
      · exact .inl hreq
      · exact .inr ⟨rfl, h0, hlt, not_lt.1 fun h1 => hone ⟨rfl, h1⟩⟩

theorem endUnlock_ok
    (hs : f.stage = .idle ∨
      f.stage = .closeUnlock ∧ (if ok then l else f.eFileLock) = .noLock)
    (hl : Levels (Function.update x.st.level h (if ok then l else f.eFileLock)) i.eFileLock
      i.nShared)
    (hn : i.nLock = i.nShared) (hno : i.eFileLock = .noLock ↔ i.nLock = 0)
    (hself : Backed r (if ok then l else f.eFileLock))
    (hothers : ∀ g ≠ h, Backed r (x.st.level g)) (href : i.nRef = x.st.inode.nRef) :
    EnterOk x h r (endUnlock f i l ok) := by
  have hlev : UnixFile.level { f with stage := f.stage.endUnlock l ok } none =
      if ok then l else f.eFileLock := by
    rcases hs with hs | ⟨hs, hno⟩ <;> cases ok <;> simp_all [UnixFile.level, Stage.endUnlock]
  refine ⟨?_, ?_, hno, ?_, hothers, href, ?_, ?_, ?_, ?_⟩
  · rwa [show (endUnlock f i l ok).file.level (endUnlock f i l ok).pc = _ from hlev]
  · simpa [endUnlock] using hn
  · simpa [endUnlock, UnixFile.held, hlev] using hself
  · rcases hs with hs | ⟨hs, -⟩ <;> cases ok <;>
      simp [endUnlock, hs, Stage.endUnlock, Stage.Attached]
  · rcases hs with hs | ⟨hs, hf⟩ <;> cases ok <;>
      simp_all [endUnlock, Stage.endUnlock, Stage.Unlocked]
  · rcases hs with hs | ⟨hs, -⟩ <;> cases ok <;>
      simp [endUnlock, hs, Stage.endUnlock, Stage.Closing]
  · simp [endUnlock]

/-- Behind the last unlock of the process its descriptors are closed. -/
theorem posixUnlockCount_last (hs : f.stage = .idle ∨ f.stage = .closeUnlock)
    (hok : ok = false → f.eFileLock = .noLock)
    (hl : Levels (Function.update x.st.level h .noLock) i.eFileLock 0)
    (hsh : i.nShared = 0) (hn : i.nLock = 1) (he : i.eFileLock = .noLock)
    (href : i.nRef = x.st.inode.nRef) : EnterOk x h r (posixUnlockCount f i ok) := by
  have hlev : f.level (some (.closePending ok)) = .noLock := by
    rcases hs with hs | hs <;> simp [UnixFile.level, hs]
  have hc : posixUnlockCount f i ok =
      ⟨f, { i with nLock := i.nLock - 1 }, some (.closePending ok)⟩ := by
    simp [posixUnlockCount, hn]
  rw [hc]
  refine ⟨?_, by simp [hsh, hn], by simp [he, hn], ?_, ?_, href, ?_, ?_, ?_, ?_⟩
  · simpa only [hlev, hsh] using hl
  · simp [UnixFile.held, hlev, Backed]
  · intro g hg
    have h0 := hl.eq_noLock g
    rw [Function.update_of_ne hg] at h0
    simp [h0, Backed]
  · rcases hs with hs | hs <;> simp [hs, Stage.Attached]
  · rcases hs with hs | hs <;> simp [hs, Stage.Unlocked]
  · rcases hs with hs | hs <;> simp [hs, Stage.Closing]
  · intro pc hpc
    obtain rfl := Option.some.inj hpc
    exact ⟨hs, hsh, by simp [hn], hok⟩

/-- The handle gives its SHARED lock up. -/
theorem posixUnlockShared_noLock (hs : f.stage = .idle ∨ f.stage = .closeUnlock)
    (hl : Levels (Function.update x.st.level h .noLock) i.eFileLock (i.nShared - 1))
    (hn : i.nLock = i.nShared) (h0 : i.nShared ≠ 0) (he : i.eFileLock ≠ .noLock)
    (hothers : ∀ g ≠ h, Backed r (x.st.level g)) (href : i.nRef = x.st.inode.nRef) :
    EnterOk x h r (posixUnlockShared f i .noLock) := by
  have hlev : f.level (some .unlockFile) = .noLock := by
    rcases hs with hs | hs <;> simp [UnixFile.level, hs]
  simp only [posixUnlockShared, if_true]
  split
  · rename_i h1
    refine ⟨?_, by simp [hn]; omega, by simp [he, hn, h0], ?_, hothers, href, ?_, ?_, ?_, ?_⟩
    · simpa only [hlev] using hl
    · simp [UnixFile.held, hlev, Backed]
    · rcases hs with hs | hs <;> simp [hs, Stage.Attached]
    · rcases hs with hs | hs <;> simp [hs, Stage.Unlocked]
    · rcases hs with hs | hs <;> simp [hs, Stage.Closing]
    · intro pc hpc
      obtain rfl := Option.some.inj hpc
      exact ⟨hs, h1⟩
  · rename_i h1
    have h2 : ¬ i.nLock - 1 = 0 := by omega
    simp only [posixUnlockCount, h2, if_false]
    refine endUnlock_ok ?_ (by simpa using hl) (by simp [hn]) (by simp [he, h2]) (by simp [Backed])
      hothers href
    rcases hs with hs | hs
    · exact .inl hs
    · exact .inr ⟨hs, by simp⟩

end Enter

end Btreelite
