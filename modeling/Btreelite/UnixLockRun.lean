import Btreelite.UnixLockSteps

/-!
# Runs of many processes on one database file

What the locks of all handles in all processes are good for, in every state of every run and in
every step from it.
-/

namespace Btreelite

open Posix FileLock LockProcess

section Steps

variable {H : Type} [DecidableEq H] {x : Process (LockProcess H)} {h : H}

theorem held_ne_noLock {L : LockProcess H} : L.held h ≠ .noLock ↔ L.level h ≠ .noLock := by
  simp only [LockProcess.held, UnixFile.held, LockProcess.level]
  split
  · rename_i hc
    simp [hc.2]
  · rfl

theorem held_le_level {L : LockProcess H} : L.held h ≤ L.level h := by
  simp only [LockProcess.held, UnixFile.held, LockProcess.level]
  split
  · rename_i hc
    rw [hc.2]
    decide
  · exact le_rfl

theorem held_eq_level {L : LockProcess H} (hl : sharedLock < L.held h) : L.held h = L.level h := by
  simp only [LockProcess.held, UnixFile.held, LockProcess.level] at hl ⊢
  split at hl
  · exact absurd hl (by decide)
  · rw [if_neg ‹_›]

/-- Outside a call the lock of a handle is its `eFileLock`. -/
theorem held_idle {L : LockProcess H} (hs : (L.file h).stage = .idle)
    (hm : ∀ pc, L.pLockMutex ≠ some (h, pc)) : L.held h = (L.file h).eFileLock := by
  have hpc : L.pcOf h = none := pcOf_not_owner (x := ⟨L, fun _ => .unlck⟩) hm
  rw [LockProcess.held, hpc, UnixFile.held_idle hs (by simp)]

/-- A handle without a lock may get one: no sibling is past RESERVED, no other process can have the
shared range for itself, and one can have the PENDING byte only if a sibling has a lock already. -/
def Shareable (x : Process (LockProcess H)) : Prop :=
  (∀ g, x.st.held g < .pendingLock) ∧ x.row sharedFirst ≠ .unlck ∧
    (x.row pendingByte ≠ .unlck ∨ ∃ g, x.st.held g ≠ .noLock)

theorem LockInv.lt_pendingLock (hx : LockInv x) (he : x.st.inode.eFileLock < .pendingLock) (g : H) :
    x.st.held g < .pendingLock :=
  held_le_level.trans_lt ((hx.levels.le g).trans_lt he)

/-- A system call gives a handle its first lock only where it may get one. -/
theorem LockInv.resume_shareable (hx : LockInv x) {pc : LockPc} {ok sharing : Bool}
    (hm : x.st.pLockMutex = some (h, pc)) {g : H} (hg : x.st.held g = .noLock)
    (hg' : (x.st.enter h (pc.resume (x.st.file h) x.st.inode ok sharing)).held g ≠ .noLock) :
    Shareable x := by
  have hc := hx.call h pc hm
  have hlev : x.st.level g = .noLock := by
    by_contra hne
    exact held_ne_noLock.2 hne hg
  rw [held_ne_noLock, level_enter (owner_of_some hm)] at hg'
  by_cases hgh : g = h
  · subst hgh
    rw [Function.update_self] at hg'
    rw [level_pc hm] at hlev
    cases pc with
    | lockPending l =>
      obtain ⟨hs, hfe, hreq⟩ := hc
      have hf : (x.st.file g).eFileLock = .noLock := by
        rw [← hlev, UnixFile.level_idle hs (by simp [LockPc.Plain])]
      rcases hreq with ⟨rfl, -⟩ | ⟨rfl, he⟩
      · cases ok <;> simp [LockPc.resume, UnixFile.level, hs, hf] at hg'
      · rw [hf, he] at hfe
        cases hfe
    | lockShared =>
      obtain ⟨hs, hf, -⟩ := hc
      simp [LockPc.resume, UnixFile.level, hs, hf] at hg'
    | unlockPending got =>
      obtain ⟨hs, hf, he, hp, hgot⟩ := hc
      simp only [LockPc.resume] at hg'
      split at hg'
      · rename_i hgo
        refine ⟨hx.lt_pendingLock (by rw [he]; decide), ?_, .inl hp⟩
        exact hgot hgo.1 _ sharedByte_sharedFirst
      · simp [UnixFile.level, hs, hf] at hg'
    | lockWrite l =>
      obtain ⟨hs, hfe, hreq⟩ := hc
      have hf : (x.st.file g).eFileLock = .noLock := by
        rw [← hlev, UnixFile.level_idle hs (by simp [LockPc.Plain])]
      rw [hf] at hfe
      rcases hreq with ⟨-, he⟩ | ⟨-, he, -⟩ <;> simp [← hfe] at he
    | relockShared =>
      obtain ⟨hs, hgt⟩ := hc
      rw [UnixFile.level_idle hs (by simp [LockPc.Plain])] at hlev
      rw [hlev] at hgt
      exact absurd hgt (by decide)
    | unlockBytes l =>
      obtain ⟨hs, hgt⟩ := hc
      have hf : (x.st.file g).eFileLock = .noLock := by
        rcases hs with ⟨hs, -⟩ | ⟨hs, -⟩ <;> simpa [UnixFile.level, hs] using hlev
      rw [hf] at hgt
      exact absurd hgt (by decide)
    | unlockFile =>
      obtain ⟨hs, h0⟩ := hc
      have hn : x.st.inode.nLock = 1 := by simpa [unlocking, hm, h0] using hx.nLock
      rcases hs with hs | hs <;> cases ok <;>
        simp [LockPc.resume, posixUnlockCount, hn, UnixFile.level, hs] at hg'
    | closePending k =>
      obtain ⟨hs, -, -, hk⟩ := hc
      rcases hs with hs | hs <;> cases k <;>
        simp_all [LockPc.resume, endUnlock, Stage.endUnlock, UnixFile.level]
  · rw [Function.update_of_ne hgh] at hg'
    exact absurd hlev hg'

theorem LockInv.lock_shareable (hx : LockInv x) (hm : x.st.pLockMutex = none) {l : FileLock}
    {sharing : Bool} (hs : (x.st.file h).stage = .idle) (hlt : (x.st.file h).eFileLock < l)
    (hlegal : LegalLock (x.st.file h) l) {g : H} (hg : x.st.held g = .noLock)
    (hg' : (x.st.enter h (unixLock (x.st.file h) x.st.inode l sharing)).held g ≠ .noLock) :
    Shareable x := by
  have hlev : x.st.level g = .noLock := by
    by_contra hne
    exact held_ne_noLock.2 hne hg
  rw [held_ne_noLock, level_enter (owner_of_none hm)] at hg'
  by_cases hgh : g = h
  · subst hgh
    have hf : (x.st.file g).eFileLock = .noLock := by
      rwa [LockProcess.level, pcOf_none hm, UnixFile.level_idle hs (by simp)] at hlev
    rw [Function.update_self] at hg'
    unfold unixLock at hg'
    split_ifs at hg' with hbusy hshare hpend
    · simp [UnixFile.level, hs, hf] at hg'
    · have he : x.st.inode.eFileLock ≠ .noLock := by rcases hshare.2 with he | he <;> simp [he]
      have hn : x.st.inode.nShared ≠ 0 := by
        rw [← hx.nLock_none hm]
        exact fun h0 => he (hx.noLock_iff.2 h0)
      obtain ⟨g', hg'⟩ := hx.levels.attained he hn
      have hh : x.st.held g' ≠ .noLock := held_ne_noLock.2 (by rwa [hg'])
      refine ⟨hx.lt_pendingLock ?_, ?_, .inr ⟨g', hh⟩⟩
      · rcases hshare.2 with he | he <;> rw [he] <;> decide
      · exact (hx.held g').shared hh _ sharedByte_sharedFirst
    · simp [UnixFile.level, hs, hf] at hg'
    · -- a handle without a lock asks for nothing but the SHARED one
      exact absurd (.inl (hlegal.1.resolve_left (by simp [hf]))) hpend
  · rw [Function.update_of_ne hgh] at hg'
    exact absurd hlev hg'

theorem UnixFile.level_stage {f : UnixFile} {pc : Option LockPc} {l : FileLock} {ok : Bool}
    (hs : f.stage = .idle ∨ f.stage = .closeUnlock)
    (hl : UnixFile.level { f with stage := f.stage.endUnlock l ok } pc ≠ .noLock)
    (hno : l = .noLock ∨ ok = false) : f.eFileLock ≠ .noLock := by
  rcases hs with hs | hs <;> cases ok <;> cases pc <;>
    simp_all [UnixFile.level, Stage.endUnlock] <;> grind

/-- `posixUnlock` gives no handle a lock. -/
theorem unlock_noLock (hm : x.st.pLockMutex = none) {l : FileLock}
    (hs : (x.st.file h).stage = .idle ∧ l ≤ .sharedLock ∨
      (x.st.file h).stage = .closeUnlock ∧ l = .noLock) {g : H} (hg : x.st.held g = .noLock) :
    (x.st.enter h (if (x.st.file h).eFileLock ≤ l
      then endUnlock (x.st.file h) x.st.inode l false
      else posixUnlock (x.st.file h) x.st.inode l)).held g = .noLock := by
  have hlev : x.st.level g = .noLock := by
    by_contra hne
    exact held_ne_noLock.2 hne hg
  by_contra hg'
  rw [← ne_eq, held_ne_noLock, level_enter (owner_of_none hm)] at hg'
  by_cases hgh : g = h
  · subst hgh
    have hs' : (x.st.file g).stage = .idle ∨ (x.st.file g).stage = .closeUnlock :=
      hs.imp And.left And.left
    have hf : (x.st.file g).eFileLock = .noLock := by
      rw [LockProcess.level, pcOf_none hm] at hlev
      rcases hs' with hs | hs <;> simpa [UnixFile.level, hs] using hlev
    rw [Function.update_self, hf, if_pos (noLock_le l)] at hg'
    exact UnixFile.level_stage hs' hg' (.inr rfl) hf
  · rw [Function.update_of_ne hgh] at hg'
    exact hg' hlev

/-- A handle gets its first lock only where it may. -/
theorem LockInv.shareable (hx : LockInv x) {a : LockAct H} {L : LockProcess H} {c : SysCall}
    (hstep : x.st.step a = some (L, c)) {g : H} (hg : x.st.held g = .noLock)
    (hg' : L.held g ≠ .noLock) : Shareable x := by
  cases a with
  | openFile h fd reuse =>
    simp only [LockProcess.step] at hstep
    split at hstep
    · rename_i hs
      cases hstep
      have h0 := hx.unlocked h (by simp [hs.1, Stage.Unlocked])
      refine absurd ((congrFun (held_outside (hx.not_owner ?_ ?_) ?_ _ _) g).trans hg) hg'
      · simp [hs.1]
      · simp [hs.1]
      · simp [UnixFile.level, hs.1, h0]
    · cases hstep
  | lock h l sharing =>
    simp only [LockProcess.step] at hstep
    split_ifs at hstep with hs hle hlegal
    · cases hstep
      exact absurd hg hg'
    · cases hstep
      exact hx.lock_shareable hs.2 hs.1 (not_le.1 hle) hlegal hg hg'
  | unlock h l =>
    simp only [LockProcess.step] at hstep
    split_ifs at hstep with hs hle
    · cases hstep
      have h0 := unlock_noLock hs.2 hs.1 hg
      rw [if_pos hle] at h0
      exact absurd h0 hg'
    · cases hstep
      have h0 := unlock_noLock hs.2 hs.1 hg
      rw [if_neg hle] at h0
      exact absurd h0 hg'
  | resume ok sharing =>
    simp only [LockProcess.step] at hstep
    split at hstep
    · cases hstep
    · rename_i h pc hm
      cases hstep
      exact hx.resume_shareable hm hg hg'
  | store h =>
    simp only [LockProcess.step] at hstep
    split at hstep
    · rename_i l hs
      cases hstep
      refine absurd ((congrFun (held_outside (hx.not_owner ?_ ?_) ?_ _ _) g).trans hg) hg' <;>
        simp [UnixFile.level, hs]
    · rename_i hs
      cases hstep
      refine absurd ((congrFun (held_outside (hx.not_owner ?_ ?_) ?_ _ _) g).trans hg) hg' <;>
        simp [UnixFile.level, hs]
    · cases hstep
  | close h =>
    simp only [LockProcess.step] at hstep
    split at hstep
    · rename_i hs
      cases hstep
      refine absurd ((congrFun (held_outside (fun pc hm => hs.2 (by simp [hm])) ?_ _ _) g).trans hg)
        hg'
      simp [UnixFile.level, hs.1]
    · cases hstep
  | testLocks h =>
    simp only [LockProcess.step] at hstep
    split at hstep
    · rename_i hs
      cases hstep
      have hown : ∀ pc, x.st.pLockMutex ≠ some (h, pc) := by simp [hs.2.2]
      unfold LockProcess.testLocks at hg'
      simp only at hg'
      split at hg'
      · exact absurd ((congrFun (held_outside hown (by simp [UnixFile.level, hs.1]) _ _) g).trans hg)
          hg'
      · exact absurd ((congrFun (held_outside hown (by simp [UnixFile.level, hs.1]) _ _) g).trans hg)
          hg'
    · cases hstep
  | release h =>
    simp only [LockProcess.step] at hstep
    split at hstep
    · rename_i hs
      cases hstep
      refine absurd ((congrFun (held_outside (hx.not_owner ?_ ?_) ?_ _ _) g).trans hg) hg' <;>
        simp [UnixFile.level, hs.1]
    · cases hstep
  | closeDescriptor h =>
    simp only [LockProcess.step] at hstep
    split at hstep
    · rename_i hs
      cases hstep
      have h0 := hx.unlocked h (by simp [hs, Stage.Unlocked])
      refine absurd ((congrFun (held_outside (hx.not_owner ?_ ?_) ?_ _ _) g).trans hg) hg' <;>
        simp [UnixFile.level, hs, h0]
    · cases hstep
  | die =>
    cases hstep
    exact absurd rfl hg'

/-- A descriptor is closed only when no handle of the process has a lock. -/
theorem LockInv.closes (hx : LockInv x) {a : LockAct H} (ha : a ≠ .die) {L : LockProcess H}
    (hstep : x.st.step a = some (L, .close)) :
    x.st.inode.nLock = 0 ∧ ∀ g, x.st.held g = .noLock := by
  have hn : x.st.inode.nLock = 0 := by
    cases a with
    | openFile h fd reuse => simp [LockProcess.step] at hstep
    | lock h l sharing =>
      simp only [LockProcess.step] at hstep
      split_ifs at hstep <;> simp at hstep
    | unlock h l =>
      simp only [LockProcess.step] at hstep
      split_ifs at hstep <;> simp at hstep
    | resume ok sharing =>
      simp only [LockProcess.step] at hstep
      split at hstep
      · cases hstep
      · rename_i h pc hm
        obtain ⟨-, hc⟩ := Prod.mk.inj (Option.some.inj hstep)
        cases pc with
        | closePending k => exact (hx.call h _ hm).2.2.1
        | _ => cases ok <;> simp [LockPc.call] at hc
    | store h =>
      simp only [LockProcess.step] at hstep
      split at hstep <;> simp at hstep
    | close h => simp [LockProcess.step] at hstep
    | testLocks h => simp [LockProcess.step] at hstep
    | release h =>
      simp only [LockProcess.step] at hstep
      split at hstep
      · rename_i hs
        obtain ⟨-, hc⟩ := Prod.mk.inj (Option.some.inj hstep)
        have h1 : x.st.inode.nRef - 1 = 0 := by
          by_contra h1
          simp [releaseCall, h1] at hc
        exact hx.nLock_last hs.1 h1 (hs.2 h1)
      · cases hstep
    | closeDescriptor h =>
      simp only [LockProcess.step] at hstep
      split at hstep
      · rename_i hs
        obtain ⟨-, hc⟩ := Prod.mk.inj (Option.some.inj hstep)
        have hh : (x.st.file h).h ≠ none := fun hh => by simp [hh] at hc
        exact (hx.closing h (by simp [hs, Stage.Closing]) hh).1
      · cases hstep
    | die => exact absurd rfl ha
  have h0 : x.st.inode.nShared = 0 := by
    have := hx.nLock
    omega
  refine ⟨hn, fun g => ?_⟩
  by_contra hne
  exact held_ne_noLock.1 hne ((h0 ▸ hx.levels).eq_noLock g)

end Steps

section System

variable {P H : Type} [DecidableEq P] [DecidableEq H]

/-- The fields of the inode agree with the handles of the process. -/
structure InodeAgrees (L : LockProcess H) : Prop where
  nShared : {h | L.held h ≠ .noLock}.encard = L.inode.nShared
  nLock : L.inode.nLock = L.inode.nShared
  le : ∀ h, L.held h ≤ L.inode.eFileLock
  attained : L.inode.eFileLock ≠ .noLock → ∃ h, L.held h = L.inode.eFileLock

/-- What holds in every state, with `p` for a process and `h` for one of its handles. -/
structure FileLocksSafe (s : P → Process (LockProcess H)) : Prop where
  exclusive : ∀ p g q h, (s p).st.held g = .exclusiveLock → (s q).st.held h ≠ .noLock →
    p = q ∧ g = h
  reserved : ∀ p g q h, (s p).st.held g = .reservedLock ∨ (s p).st.held g = .pendingLock →
    (s q).st.held h = .reservedLock ∨ (s q).st.held h = .pendingLock → p = q ∧ g = h
  backed : ∀ p h, Backed (s p).row ((s p).st.held h)
  inode : ∀ p, (s p).st.pLockMutex = none → InodeAgrees (s p).st

/-- What holds of the step from `s` that process `p` takes by `a`. A handle that gets its first lock
finds none EXCLUSIVE, none PENDING in its own process, and none PENDING in another process unless a
handle of its own has a lock already. -/
structure LockStepSafe (s s' : P → Process (LockProcess H)) (p : P) (a : LockAct H) : Prop where
  shared : ∀ h, (s p).st.held h = .noLock → (s' p).st.held h ≠ .noLock →
    (∀ q g, (s q).st.held g ≠ .exclusiveLock) ∧ (∀ g, (s p).st.held g ≠ .pendingLock) ∧
      ((∀ g, (s p).st.held g = .noLock) → ∀ q g, (s q).st.held g ≠ .pendingLock)
  closes : a ≠ .die → ∀ L, (s p).st.step a = some (L, .close) →
    (s p).st.inode.nLock = 0 ∧ ∀ h, (s p).st.held h = .noLock

theorem LockInv.agrees {x : Process (LockProcess H)} (hx : LockInv x)
    (hm : x.st.pLockMutex = none) : InodeAgrees x.st where
  nShared := by simpa only [held_ne_noLock] using hx.levels.card
  nLock := hx.nLock_none hm
  le h := held_le_level.trans (hx.levels.le h)
  attained he := by
    obtain ⟨h, hh⟩ := hx.levels.attained he fun h0 =>
      he (hx.noLock_iff.2 ((hx.nLock_none hm).trans h0))
    refine ⟨h, ?_⟩
    rw [← hh]
    simp [LockProcess.held, LockProcess.level, UnixFile.held, pcOf_none hm]

variable {s s' : P → Process (LockProcess H)}

theorem fileLocksSafe (hc : Coherent fun p => (s p).row) (hx : ∀ p, LockInv (s p)) :
    FileLocksSafe s where
  exclusive p g q h hg hh := by
    by_cases hpq : p = q
    · subst hpq
      refine ⟨rfl, (hx p).levels.alone g h ?_ (held_ne_noLock.1 hh)⟩
      rw [← held_eq_level (by rw [hg]; decide), hg]
    · have hw : (s p).row sharedFirst = .wrlck := (hg ▸ (hx p).held g) _ sharedByte_sharedFirst
      exact absurd (hc p q _ hpq hw) (((hx q).held h).shared hh _ sharedByte_sharedFirst)
  reserved p g q h hg hh := by
    have hgt : ∀ {q h}, (s q).st.held h = .reservedLock ∨ (s q).st.held h = .pendingLock →
        sharedLock < (s q).st.held h ∧ (s q).row reservedByte = .wrlck := by
      intro q h hh
      have hb := (hx q).held h
      rcases hh with hh | hh <;> rw [hh] at hb ⊢
      · exact ⟨by decide, hb.1⟩
      · exact ⟨by decide, hb.2.1⟩
    obtain ⟨h1, hw⟩ := hgt hg
    obtain ⟨h2, hw'⟩ := hgt hh
    by_cases hpq : p = q
    · subst hpq
      refine ⟨rfl, (hx p).levels.unique g h ?_ ?_⟩
      · rwa [← held_eq_level h1]
      · rwa [← held_eq_level h2]
    · exact absurd (hw'.symm.trans (hc p q _ hpq hw)) (by decide)
  backed p h := (hx p).held h
  inode p hm := (hx p).agrees hm

theorem lockStepSafe (hc : Coherent fun p => (s p).row) (hx : ∀ p, LockInv (s p)) {p : P}
    {a : LockAct H} (hstep : (unixLockMachine H).Step s p a s') : LockStepSafe s s' p a where
  shared h hh hh' := by
    obtain ⟨L, c, hst, hs'⟩ := hstep.self
    rw [hs'] at hh'
    obtain ⟨hlt, hrow, hpend⟩ := (hx p).shareable hst hh hh'
    have hother : ∀ q b, p ≠ q → (s q).row b = .wrlck → (s p).row b = .unlck := fun q b hpq hw =>
      hc q p b (Ne.symm hpq) hw
    refine ⟨fun q g hg => ?_, fun g hg => absurd (hg ▸ hlt g) (by decide), fun hnone q g hg => ?_⟩
    · by_cases hpq : p = q
      · subst hpq
        exact absurd (hg ▸ hlt g) (by decide)
      · exact hrow (hother q _ hpq ((hg ▸ (hx q).held g) _ sharedByte_sharedFirst))
    · by_cases hpq : p = q
      · subst hpq
        exact absurd (hg ▸ hlt g) (by decide)
      · rcases hpend with hpend | ⟨g', hg'⟩
        · exact hpend (hother q _ hpq (hg ▸ (hx q).held g).1)
        · exact hg' (hnone g')
  closes ha L hst := (hx p).closes ha hst

theorem lockInv_run (hrun : (unixLockMachine H).Run LockProcess.Regular s) :
    ∀ p, LockInv (s p) :=
  hrun.invariant lockInv_fresh fun _ _ _ _ hx hreg hstep => hx.step hreg hstep

/-- The file locks are safe in every state of a run of regular steps, and in every next step. -/
theorem unixLock_safe (hrun : (unixLockMachine H).Run LockProcess.Regular s) :
    FileLocksSafe s ∧ ∀ p a s', (unixLockMachine H).Step s p a s' → LockStepSafe s s' p a :=
  ⟨fileLocksSafe hrun.coherent (lockInv_run hrun), fun _ _ _ hstep =>
    lockStepSafe hrun.coherent (lockInv_run hrun) hstep⟩

end System

section Runs

/-- The three calls of the first SHARED lock. -/
def shareActs (p : Bool) (h : Bool) : List (Bool × LockAct Bool) :=
  [(p, .lock h .sharedLock false), (p, .resume true false), (p, .resume true false),
    (p, .resume true false)]

/-- One process reads while the other comes to PENDING; a sibling of the reader then shares. -/
def pendingActs : List (Bool × LockAct Bool) :=
  (false, .openFile false 3 false) :: (false, .openFile true 4 false) ::
  (true, .openFile false 3 false) :: shareActs false false ++ shareActs true false ++
  [(true, .lock false .reservedLock false), (true, .resume true false),
    (true, .lock false .exclusiveLock false), (true, .resume true false),
    (true, .resume false false)]

def freshProcesses : Bool → Process (LockProcess Bool) :=
  fun _ => ⟨LockProcess.fresh, fun _ => .unlck⟩

def pendingState : Bool → Process (LockProcess Bool) :=
  (unixLockMachine Bool).exec freshProcesses pendingActs

/-- The locks of a process with a SHARED lock. -/
def readerRow : Row :=
  Row.after (Row.after (Row.after (fun _ => .unlck) (.fcntl ⟨.rdlck, pendingByte, 1⟩))
    (.fcntl ⟨.rdlck, sharedFirst, sharedSize⟩)) (.fcntl ⟨.unlck, pendingByte, 1⟩)

theorem readerRow_of {b : ℕ} : readerRow b = if SharedByte b then .rdlck else .unlck := by
  simp only [readerRow, Row.after_fcntl, covers_pendingByte, covers_shared]
  by_cases hb : SharedByte b
  · simp [hb, hb.ne_pendingByte]
  · simp [hb]

/-- The system grants what no other process has locked. -/
theorem granted_unlocked {rows : Bool → Row} {p : Bool} {f : Flock}
    (h : ∀ b, f.Covers b → rows (!p) b = .unlck) : Granted rows p (.fcntl f) := by
  intro q hq b hb
  obtain rfl : q = !p := by cases p <;> cases q <;> simp_all
  rw [h b hb]
  cases f.l_type <;> simp [LockType.Excludes]

theorem granted_rdlck {rows : Bool → Row} {p : Bool} {f : Flock} (hf : f.l_type = .rdlck)
    (h : rows (!p) = readerRow) : Granted rows p (.fcntl f) := by
  intro q hq b hb
  obtain rfl : q = !p := by cases p <;> cases q <;> simp_all
  rw [h, hf, readerRow_of]
  split <;> simp [LockType.Excludes]

theorem granted_byte {rows : Bool → Row} {p : Bool} {f : Flock} (h : rows (!p) = readerRow)
    (hf : ∀ b, f.Covers b → ¬ SharedByte b) : Granted rows p (.fcntl f) :=
  granted_unlocked fun b hb => by rw [h, readerRow_of, if_neg (hf b hb)]

theorem pendingState_run : (unixLockMachine Bool).Run LockProcess.Regular pendingState := by
  have hreg : ∀ {L : LockProcess Bool} {h l}, (∀ g, ¬ (L.file g).stage.Closing) →
      L.Regular (.lock h l false) := fun hn _ g hg => absurd hg (hn g)
  refine Machine.Run.exec .init ?_
  -- both processes open their handles, and the first takes its SHARED lock
  refine ⟨trivial, trivial, trivial, trivial, trivial, trivial, ?_⟩
  refine ⟨hreg (by rintro (_ | _) <;> exact id), trivial, ?_⟩
  refine ⟨nofun, granted_unlocked fun _ _ => rfl, nofun, granted_unlocked fun _ _ => rfl,
    nofun, granted_unlck rfl, ?_⟩
  -- the second process reads as well, and goes up to RESERVED and PENDING
  refine ⟨hreg (by rintro (_ | _) <;> exact id), trivial, ?_⟩
  refine ⟨nofun, granted_rdlck rfl rfl, nofun, granted_rdlck rfl rfl, nofun, granted_unlck rfl, ?_⟩
  refine ⟨hreg (by rintro (_ | _) <;> exact id), trivial, nofun, ?_, ?_⟩
  · exact granted_byte rfl fun b hb => by
      rw [covers_reservedByte.1 hb]
      exact not_sharedByte_reservedByte
  refine ⟨hreg (by rintro (_ | _) <;> exact id), trivial, nofun, ?_, ?_⟩
  · exact granted_byte rfl fun b hb => by
      rw [covers_pendingByte.1 hb]
      exact not_sharedByte_pendingByte
  refine ⟨fun _ h l hm => ?_, trivial, trivial⟩
  have hpc : some (false, LockPc.lockWrite .exclusiveLock) = some (h, .unlockBytes l) := hm
  simp at hpc

theorem unixLock_safe_pending : FileLocksSafe pendingState ∧
    ∀ p a s', (unixLockMachine Bool).Step pendingState p a s' → LockStepSafe pendingState s' p a :=
  unixLock_safe pendingState_run

/-- One handle is closed, and its sibling takes a SHARED lock behind the test of `nLock`. -/
def raceActs : List (Bool × LockAct Bool) :=
  (false, .openFile false 3 false) :: (false, .openFile true 4 false) :: (false, .close false) ::
  (false, .unlock false .noLock) :: (false, .testLocks false) :: shareActs false true ++
  [(false, .release false), (false, .closeDescriptor false)]

theorem raceActs_run : (unixLockMachine Bool).Run (fun _ _ => True)
    ((unixLockMachine Bool).exec freshProcesses raceActs) := by
  refine Machine.Run.exec .init ?_
  refine ⟨trivial, trivial, trivial, trivial, trivial, trivial, trivial, trivial, trivial, trivial,
    trivial, trivial, ?_⟩
  exact ⟨trivial, granted_unlocked fun _ _ => rfl, trivial, granted_unlocked fun _ _ => rfl,
    trivial, granted_unlck rfl, trivial, trivial, trivial, trivial, trivial⟩

/-- From EXCLUSIVE to SHARED, where the request that unlocks the PENDING byte fails. -/
def stuckActs : List (Bool × LockAct Bool) :=
  (false, .openFile false 3 false) :: shareActs false false ++
  [(false, .lock false .exclusiveLock false), (false, .resume true false),
    (false, .unlock false .sharedLock), (false, .resume true false), (false, .resume false false)]

theorem stuckActs_run : (unixLockMachine Bool).Run (fun _ _ => True)
    ((unixLockMachine Bool).exec freshProcesses stuckActs) := by
  refine Machine.Run.exec .init ?_
  refine ⟨trivial, trivial, trivial, trivial, ?_⟩
  refine ⟨trivial, granted_unlocked fun _ _ => rfl, trivial, granted_unlocked fun _ _ => rfl,
    trivial, granted_unlck rfl, trivial, trivial, ?_⟩
  exact ⟨trivial, granted_unlocked fun _ _ => rfl, trivial, trivial, trivial,
    granted_unlocked fun _ _ => rfl, trivial, trivial, trivial⟩

/-- A handle takes a SHARED lock while another process has a PENDING one; a SHARED lock goes with
the descriptor of a sibling; and a handle stays EXCLUSIVE with a read lock. -/
theorem unixLock_unsafe :
    (∃ s', (unixLockMachine Bool).Run LockProcess.Regular pendingState ∧
      (unixLockMachine Bool).Step pendingState false (.lock true .sharedLock false) s' ∧
      (pendingState false).st.held true = .noLock ∧ (s' false).st.held true = .sharedLock ∧
      (pendingState true).st.held false = .pendingLock) ∧
    (∃ s : Bool → Process (LockProcess Bool), (unixLockMachine Bool).Run (fun _ _ => True) s ∧
      (s false).st.held true = .sharedLock ∧ ∀ b, (s false).row b = .unlck) ∧
    ∃ s : Bool → Process (LockProcess Bool), (unixLockMachine Bool).Run (fun _ _ => True) s ∧
      (s false).st.held false = .exclusiveLock ∧ (s false).row sharedFirst = .rdlck :=
  ⟨⟨_, pendingState_run, ⟨_, _, rfl, trivial, rfl⟩, rfl, rfl, rfl⟩,
    ⟨_, raceActs_run, rfl, fun _ => rfl⟩, ⟨_, stuckActs_run, rfl, rfl⟩⟩

end Runs

end Btreelite
