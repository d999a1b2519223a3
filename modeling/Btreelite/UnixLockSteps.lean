import Btreelite.UnixLockSafe

/-!
# The steps of a process on its file locks

Each system call that the holder of `pLockMutex` makes leaves the invariant, and so do the steps of
`unixOpen` and `unixClose`. Two kinds of step are left out. A handle may not start on a lock while a
sibling is between the test of `nLock` and the `close` behind it, for the lock would go with that
descriptor; and the request that unlocks the PENDING and RESERVED bytes may not fail where
`posixUnlock` has read-locked the range of an EXCLUSIVE lock, or where `unixClose` goes on anyway.
-/

namespace Btreelite

open Posix FileLock LockProcess

variable {H : Type} [DecidableEq H] {x : Process (LockProcess H)} {h : H} {ok sharing : Bool}

/-- The step is none of the two kinds that break the locks of a process. -/
def LockProcess.Regular (L : LockProcess H) : LockAct H → Prop
  | .lock h l _ => (L.file h).eFileLock < l → ∀ g, (L.file g).stage.Closing → (L.file g).h = none
  | .resume ok _ => ok = false → ∀ h l, L.pLockMutex = some (h, .unlockBytes l) →
      (L.file h).stage = .idle ∧ (l = .sharedLock → (L.file h).eFileLock ≠ .exclusiveLock)
  | _ => True

section Resume

theorem level_pc {pc : LockPc} (hm : x.st.pLockMutex = some (h, pc)) :
    x.st.level h = (x.st.file h).level (some pc) := by
  rw [LockProcess.level, pcOf_self hm]

theorem LockInv.held_pc (hx : LockInv x) {pc : LockPc} (hm : x.st.pLockMutex = some (h, pc)) :
    Backed x.row ((x.st.file h).held (some pc)) := by
  have hb := hx.held h
  rwa [LockProcess.held, pcOf_self hm] at hb

omit [DecidableEq H] in
theorem owner_of_some {pc : LockPc} (hm : x.st.pLockMutex = some (h, pc)) : Owner x.st h := by
  intro g pc' hm'
  rw [hm] at hm'
  exact (Prod.mk.inj (Option.some.inj hm')).1.symm

omit [DecidableEq H] in
theorem owner_of_none (hm : x.st.pLockMutex = none) : Owner x.st h := by
  intro g pc hm'
  simp [hm] at hm'

theorem LockInv.held_ne (hx : LockInv x) (ho : Owner x.st h) {g : H} (hg : g ≠ h) :
    Backed x.row (x.st.level g) := by
  have hb := hx.held g
  simpa [LockProcess.held, UnixFile.held, LockProcess.level, ho.pcOf_ne hg] using hb

theorem LockInv.nLock_eq (hx : LockInv x) {pc : LockPc} (hm : x.st.pLockMutex = some (h, pc))
    (hpc : pc ≠ .unlockFile) : x.st.inode.nLock = x.st.inode.nShared := by
  have hn := hx.nLock
  rwa [unlocking, hm, if_neg (by simpa using hpc), Nat.add_zero] at hn

theorem LockInv.nLock_none (hx : LockInv x) (hm : x.st.pLockMutex = none) :
    x.st.inode.nLock = x.st.inode.nShared := by
  have hn := hx.nLock
  rwa [unlocking, hm, if_neg (by simp), Nat.add_zero] at hn

/-- The levels as they are, with that of `h` written out. -/
theorem LockInv.levels_self (hx : LockInv x) {l : FileLock} (hl : x.st.level h = l) :
    Levels (Function.update x.st.level h l) x.st.inode.eFileLock x.st.inode.nShared := by
  rw [← hl, Function.update_eq_self]
  exact hx.levels

theorem lockPending_ok (hx : LockInv x) {l : FileLock}
    (hm : x.st.pLockMutex = some (h, .lockPending l)) :
    EnterOk x h (x.row.after ((LockPc.lockPending l).call x.st.inode ok))
      ((LockPc.lockPending l).resume (x.st.file h) x.st.inode ok sharing) := by
  obtain ⟨hs, hfe, hreq⟩ := hx.call h _ hm
  have hplain : ∀ p, some (LockPc.lockPending l) = some p → p.Plain := by simp [LockPc.Plain]
  have hlv := (level_pc hm).trans (UnixFile.level_idle hs hplain)
  have hb := hx.held_pc hm
  rw [UnixFile.held_idle hs hplain] at hb
  have hn := hx.nLock_eq hm (by simp)
  have hothers := fun g hg => hx.held_ne (owner_of_some hm) (g := g) hg
  cases ok with
  | false => exact .idle hs (by simp) (hx.levels_self hlv) hn hx.noLock_iff hb hothers rfl (by simp)
  | true =>
    rcases hreq with ⟨rfl, he⟩ | ⟨rfl, he⟩
    · have h0 : x.st.inode.nShared = 0 := hn ▸ hx.noLock_iff.1 he
      have hno : ∀ g, x.st.level g = .noLock := (h0 ▸ hx.levels).eq_noLock
      refine .idle hs (by simp [LockPc.Plain]) (hx.levels_self hlv) hn hx.noLock_iff ?_ ?_ rfl ?_
      · simp [← hlv, hno, Backed]
      · intro g _
        simp [hno, Backed]
      · intro p hp
        obtain rfl := Option.some.inj hp
        exact ⟨hs, hfe.trans he, he, by simp [LockPc.call, LockPc.flock, Row.after]⟩
    · have hrow : ∀ l', Backed x.row l' → Backed (x.row.after
          ((LockPc.lockPending .exclusiveLock).call x.st.inode true)) l' := by
        intro l' hl'
        refine hl'.mono (fun b hb => ?_) (fun b _ hb => ?_) <;>
          simp only [LockPc.call, LockPc.flock, Row.after_fcntl, if_true] <;> split <;> simp_all
      have hl := hx.levels.promote .pendingLock (hlv.trans hfe) (by simp [hlv, hfe, he])
        (by rw [he]; decide) (by simp)
      refine unixLockWrite_ok hs (by simpa using hl) hn ?_ ?_ (fun g hg => hrow _ (hothers g hg)) rfl
        rfl (.inr ⟨rfl, by simp, show pendingLock < exclusiveLock by decide⟩)
      · simpa [he] using hx.noLock_iff
      · rw [hfe, he] at hb
        exact ⟨by simp [LockPc.call, LockPc.flock, Row.after], (hrow _ hb).1, (hrow _ hb).2⟩

theorem lockShared_ok (hx : LockInv x) (hm : x.st.pLockMutex = some (h, .lockShared)) :
    EnterOk x h (x.row.after (LockPc.lockShared.call x.st.inode ok))
      (LockPc.lockShared.resume (x.st.file h) x.st.inode ok sharing) := by
  obtain ⟨hs, hf, he, hp⟩ := hx.call h _ hm
  have hlv := (level_pc hm).trans (UnixFile.level_idle hs (by simp [LockPc.Plain]))
  have hn := hx.nLock_eq hm (by simp)
  have h0 : x.st.inode.nShared = 0 := hn ▸ hx.noLock_iff.1 he
  have hno : ∀ g, x.st.level g = .noLock := (h0 ▸ hx.levels).eq_noLock
  refine .idle hs (by simp [LockPc.Plain]) (hx.levels_self hlv) hn hx.noLock_iff ?_ ?_ rfl ?_
  · simp [hf, Backed]
  · intro g _
    simp [hno, Backed]
  · intro p hp'
    obtain rfl := Option.some.inj hp'
    refine ⟨hs, hf, he, ?_, ?_⟩
    · cases ok <;> simp [LockPc.call, LockPc.flock, Row.after, hp]
    · rintro rfl b hb
      simp [LockPc.call, LockPc.flock, Row.after, hb]

theorem unlockPending_ok (hx : LockInv x) {got : Bool}
    (hm : x.st.pLockMutex = some (h, .unlockPending got)) :
    EnterOk x h (x.row.after ((LockPc.unlockPending got).call x.st.inode ok))
      ((LockPc.unlockPending got).resume (x.st.file h) x.st.inode ok sharing) := by
  obtain ⟨hs, hf, he, -, hgot⟩ := hx.call h _ hm
  have hlv := (level_pc hm).trans (UnixFile.level_idle hs (by simp [LockPc.Plain]))
  have hn := hx.nLock_eq hm (by simp)
  have h0 : x.st.inode.nShared = 0 := hn ▸ hx.noLock_iff.1 he
  have hno : ∀ g, x.st.level g = .noLock := (h0 ▸ hx.levels).eq_noLock
  have hothers : ∀ r, ∀ g ≠ h, Backed r (x.st.level g) := by
    intro r g _
    simp [hno, Backed]
  simp only [LockPc.resume]
  split
  · rename_i hgo
    have hl := hx.levels.share (h := h) .sharedLock (hno h) (.inl ⟨he, rfl⟩)
    rw [h0] at hl
    refine .idle hs (by simp) (by simpa using hl) (by simp [hn, h0]) (by simp) ?_ (hothers _) rfl
      (by simp)
    refine (hgot hgo.1).mono_shared le_rfl fun b hb hne => ?_
    simpa [LockPc.call, LockPc.flock, Row.after, hgo.2, hb.ne_pendingByte] using hne
  · exact .idle hs (by simp) (hx.levels_self hlv) hn hx.noLock_iff (by simp [hf, Backed])
      (hothers _) rfl (by simp)

theorem lockWrite_ok (hx : LockInv x) {l : FileLock}
    (hm : x.st.pLockMutex = some (h, .lockWrite l)) :
    EnterOk x h (x.row.after ((LockPc.lockWrite l).call x.st.inode ok))
      ((LockPc.lockWrite l).resume (x.st.file h) x.st.inode ok sharing) := by
  obtain ⟨hs, hfe, hreq⟩ := hx.call h _ hm
  have hplain : ∀ p, some (LockPc.lockWrite l) = some p → p.Plain := by simp [LockPc.Plain]
  have hlv := (level_pc hm).trans (UnixFile.level_idle hs hplain)
  have hb := hx.held_pc hm
  rw [UnixFile.held_idle hs hplain] at hb
  have hn := hx.nLock_eq hm (by simp)
  have hothers := fun g hg => hx.held_ne (owner_of_some hm) (g := g) hg
  cases ok with
  | false => exact .idle hs (by simp) (hx.levels_self hlv) hn hx.noLock_iff hb hothers rfl (by simp)
  | true =>
    have hrow : ∀ l', Backed x.row l' → Backed (x.row.after
        ((LockPc.lockWrite l).call x.st.inode true)) l' := by
      intro l' hl'
      rcases hreq with ⟨rfl, -⟩ | ⟨rfl, -⟩ <;>
        refine hl'.mono (fun b hb => ?_) (fun b _ hb => ?_) <;>
          simp only [LockPc.call, LockPc.flock, Row.after_fcntl, if_true] <;> split <;> simp_all
    have hne : x.st.inode.eFileLock ≠ .noLock := by
      rcases hreq with ⟨-, he⟩ | ⟨-, he, -⟩
      · simp [he]
      · exact he
    have hlt : x.st.inode.eFileLock < l := by
      rcases hreq with ⟨rfl, he⟩ | ⟨rfl, -, he, -⟩
      · rw [he]
        decide
      · exact he
    have hl := hx.levels.promote l (hlv.trans hfe) (by rwa [hlv, hfe]) hlt (by
      rintro rfl
      rcases hreq with ⟨h1, -⟩ | ⟨-, -, -, h1⟩
      · simp at h1
      · exact h1)
    have hl0 : l ≠ .noLock := fun h0 => absurd (h0 ▸ hlt) (not_lt.2 (noLock_le _))
    refine .idle hs (by simp) (by simpa using hl) hn ?_ ?_ (fun g hg => hrow _ (hothers g hg)) rfl
      (by simp)
    · have h0 := hx.noLock_iff
      simp only [hne, false_iff] at h0
      simp [hl0, h0]
    · rw [hfe] at hb
      rcases hreq with ⟨rfl, he⟩ | ⟨rfl, -⟩
      · exact ⟨by simp [LockPc.call, LockPc.flock, Row.after], (hrow _ hb).shared (by simp [he])⟩
      · intro b hb
        simp [LockPc.call, LockPc.flock, Row.after, hb]

theorem relockShared_ok (hx : LockInv x) (hm : x.st.pLockMutex = some (h, .relockShared)) :
    EnterOk x h (x.row.after (LockPc.relockShared.call x.st.inode ok))
      (LockPc.relockShared.resume (x.st.file h) x.st.inode ok sharing) := by
  obtain ⟨hs, hgt⟩ := hx.call h _ hm
  have hplain : ∀ p, some LockPc.relockShared = some p → p.Plain := by simp [LockPc.Plain]
  have hlv := (level_pc hm).trans (UnixFile.level_idle hs hplain)
  have hb := hx.held_pc hm
  rw [UnixFile.held_idle hs hplain] at hb
  have hn := hx.nLock_eq hm (by simp)
  have hothers := fun g hg => hx.held_ne (owner_of_some hm) (g := g) hg
  cases ok with
  | false =>
    exact endUnlock_ok (.inl hs) (hx.levels_self hlv) hn hx.noLock_iff hb hothers rfl
  | true =>
    have hne : ∀ b, SharedByte b → x.row b ≠ .unlck →
        x.row.after (LockPc.relockShared.call x.st.inode true) b ≠ .unlck := by
      intro b hb _
      simp [LockPc.call, LockPc.flock, Row.after, hb]
    have hkeep : ∀ b, ¬ SharedByte b →
        x.row.after (LockPc.relockShared.call x.st.inode true) b = x.row b := by
      intro b hb
      simp [LockPc.call, LockPc.flock, Row.after, hb]
    have hlevel : (x.st.file h).level (some (.unlockBytes .sharedLock)) = x.st.level h := by
      simp [UnixFile.level, hs, hlv]
    refine ⟨?_, by simpa [LockPc.resume] using hn, hx.noLock_iff, ?_, ?_, rfl, ?_, ?_, ?_, ?_⟩
    · simpa [LockPc.resume, hlevel] using hx.levels
    · simp only [LockPc.resume, if_true, UnixFile.held, true_and, hlevel, hlv]
      split
      · exact (hb.shared (by simp [*])).mono_shared le_rfl hne
      · rename_i hne'
        cases hf : (x.st.file h).eFileLock with
        | noLock => trivial
        | sharedLock => exact (hf ▸ hb).mono_shared le_rfl hne
        | reservedLock =>
          rw [hf] at hb
          exact ⟨(hkeep _ not_sharedByte_reservedByte).trans hb.1,
            (hb.shared (by simp)).mono_shared le_rfl hne⟩
        | pendingLock =>
          rw [hf] at hb
          exact ⟨(hkeep _ not_sharedByte_pendingByte).trans hb.1,
            (hkeep _ not_sharedByte_reservedByte).trans hb.2.1,
            (hb.shared (by simp)).mono_shared le_rfl hne⟩
        | exclusiveLock => exact absurd hf hne'
    · intro g hg
      exact (hothers g hg).mono_shared (hx.levels.others_le (hlv ▸ hgt) hg) hne
    · simp [LockPc.resume, hs, Stage.Attached]
    · simp [LockPc.resume, hs, Stage.Unlocked]
    · simp [LockPc.resume, hs, Stage.Closing]
    · intro p hp
      obtain rfl := Option.some.inj hp
      exact ⟨.inl ⟨hs, le_rfl⟩, hgt⟩

theorem unlockBytes_ok (hx : LockInv x) {l : FileLock}
    (hm : x.st.pLockMutex = some (h, .unlockBytes l))
    (hreg : ok = false → (x.st.file h).stage = .idle ∧
      (l = .sharedLock → (x.st.file h).eFileLock ≠ .exclusiveLock)) :
    EnterOk x h (x.row.after ((LockPc.unlockBytes l).call x.st.inode ok))
      ((LockPc.unlockBytes l).resume (x.st.file h) x.st.inode ok sharing) := by
  obtain ⟨hs, hgt⟩ := hx.call h _ hm
  have hs' : (x.st.file h).stage = .idle ∨ (x.st.file h).stage = .closeUnlock :=
    hs.imp And.left And.left
  have hlv : x.st.level h = (x.st.file h).eFileLock := by
    rw [level_pc hm]
    rcases hs' with hs | hs <;> simp [UnixFile.level, hs]
  have hb := hx.held_pc hm
  have hn := hx.nLock_eq hm (by simp)
  have hothers := fun g hg => hx.held_ne (owner_of_some hm) (g := g) hg
  have hlow := fun g (hg : g ≠ h) => hx.levels.others_le (hlv ▸ hgt) hg
  cases ok with
  | false =>
    obtain ⟨hidle, hex⟩ := hreg rfl
    refine endUnlock_ok (.inl hidle) (hx.levels_self hlv) hn hx.noLock_iff ?_ hothers rfl
    rw [UnixFile.held, ← level_pc hm, hlv, if_neg] at hb
    · exact hb
    · rintro ⟨hl, he⟩
      exact hex (by simpa using hl) he
  | true =>
    have hne : ∀ b, SharedByte b → x.row b ≠ .unlck →
        x.row.after ((LockPc.unlockBytes l).call x.st.inode true) b ≠ .unlck := by
      intro b hb hr
      simpa [LockPc.call, LockPc.flock, Row.after, hb.ne_pendingByte, hb.ne_reservedByte] using hr
    have hpos : x.st.level h ≠ .noLock := by
      rw [hlv, noLock_lt.symm]
      exact lt_of_le_of_lt (noLock_le _) hgt
    have hn0 : x.st.inode.nShared ≠ 0 := hx.levels.pos hpos
    rcases hs with ⟨hidle, hl⟩ | ⟨hclose, rfl⟩
    · rcases le_sharedLock.1 hl with rfl | rfl
      · refine posixUnlockShared_noLock (.inl hidle) ?_ hn hn0 (by simp)
          (fun g hg => (hothers g hg).mono_shared (hlow g hg) hne) rfl
        have hd := hx.levels.drop hpos
        rwa [if_pos (hlv ▸ hgt)] at hd
      · refine endUnlock_ok (.inl hidle) (hx.levels.lower (hlv ▸ hgt)) hn (by simp [hn, hn0]) ?_
          (fun g hg => (hothers g hg).mono_shared (hlow g hg) hne) rfl
        have hsh : Backed x.row .sharedLock := by
          rw [UnixFile.held, ← level_pc hm] at hb
          split at hb
          · exact hb
          · exact hb.shared hpos
        exact hsh.mono_shared le_rfl hne
    · refine posixUnlockShared_noLock (.inr hclose) ?_ hn hn0 (by simp)
        (fun g hg => (hothers g hg).mono_shared (hlow g hg) hne) rfl
      have hd := hx.levels.drop hpos
      rwa [if_pos (hlv ▸ hgt)] at hd

theorem unlockFile_ok (hx : LockInv x) (hm : x.st.pLockMutex = some (h, .unlockFile)) :
    EnterOk x h (x.row.after (LockPc.unlockFile.call x.st.inode ok))
      (LockPc.unlockFile.resume (x.st.file h) x.st.inode ok sharing) := by
  obtain ⟨hs, h0⟩ := hx.call h _ hm
  have hn : x.st.inode.nLock = 1 := by
    have hn := hx.nLock
    simpa [unlocking, hm, h0] using hn
  have hlv : x.st.level h = .noLock := by
    rw [level_pc hm]
    rcases hs with hs | hs <;> simp [UnixFile.level, hs]
  have hl := hx.levels_self hlv
  rw [h0] at hl
  cases ok with
  | false => exact posixUnlockCount_last hs (fun _ => rfl) hl.none h0 hn rfl rfl
  | true => exact posixUnlockCount_last hs (by simp) hl.none h0 hn rfl rfl

theorem closePending_ok (hx : LockInv x) {k : Bool}
    (hm : x.st.pLockMutex = some (h, .closePending k)) :
    EnterOk x h (x.row.after ((LockPc.closePending k).call x.st.inode ok))
      ((LockPc.closePending k).resume (x.st.file h) x.st.inode ok sharing) := by
  obtain ⟨hs, h0, hn, hk⟩ := hx.call h _ hm
  have hlv : x.st.level h = .noLock := by
    rw [level_pc hm]
    rcases hs with hs | hs <;> simp [UnixFile.level, hs]
  have hno : ∀ g, x.st.level g = .noLock := (h0 ▸ hx.levels).eq_noLock
  have hlast : (if k then .noLock else (x.st.file h).eFileLock) = .noLock := by
    cases k with
    | false => exact hk rfl
    | true => rfl
  refine endUnlock_ok ?_ ?_ (hn.trans h0.symm) hx.noLock_iff ?_ ?_ rfl
  · exact hs.imp_right fun hs => ⟨hs, hlast⟩
  · rw [hlast]
    exact hx.levels_self hlv
  · rw [hlast]
    trivial
  · intro g _
    simp [hno, Backed]

end Resume

section Begin

theorem unixLock_ok (hx : LockInv x) (hm : x.st.pLockMutex = none) {l : FileLock}
    (hs : (x.st.file h).stage = .idle) (hlt : (x.st.file h).eFileLock < l)
    (hlegal : LegalLock (x.st.file h) l) :
    EnterOk x h x.row (unixLock (x.st.file h) x.st.inode l sharing) := by
  obtain ⟨hl1, hl2, hl3⟩ := hlegal
  have hlv : x.st.level h = (x.st.file h).eFileLock := by
    rw [LockProcess.level, pcOf_none hm, UnixFile.level_idle hs (by simp)]
  have hb : Backed x.row (x.st.file h).eFileLock := by
    have hb := hx.held h
    rwa [LockProcess.held, pcOf_none hm, UnixFile.held_idle hs (by simp)] at hb
  have hn := hx.nLock_none hm
  have hothers := fun g hg => hx.held_ne (owner_of_none hm) (h := h) (g := g) hg
  have hidle : ∀ pc, (∀ p, pc = some p → p.Plain) →
      (∀ p, pc = some p → CallOk x.st.inode x.row (x.st.file h) p) →
      EnterOk x h x.row ⟨x.st.file h, x.st.inode, pc⟩ := fun pc h1 h2 =>
    .idle hs h1 (hx.levels_self hlv) hn hx.noLock_iff hb hothers rfl h2
  unfold unixLock
  split_ifs with hbusy hshare hpend
  · exact hidle none (by simp) (by simp)
  · obtain ⟨rfl, he⟩ := hshare
    have h0 : x.st.level h = .noLock := hlv.trans (by
      cases hf : (x.st.file h).eFileLock <;> simp_all <;> exact absurd hlt (by decide))
    have hne : x.st.inode.eFileLock ≠ .noLock := by rcases he with he | he <;> simp [he]
    have hn0 : x.st.inode.nShared ≠ 0 := fun h0 => hne (hx.noLock_iff.2 (hn.trans h0))
    have hl := hx.levels.share _ h0 (.inr ⟨rfl, hn0, he⟩)
    refine .idle hs (by simp) hl (by simp [hn]) (by simp [hne]) ?_ hothers rfl (by simp)
    -- a sibling has the SHARED lock already
    obtain ⟨g, hg⟩ := hx.levels.attained hne hn0
    have hgh : g ≠ h := fun hgh => hne (hg.symm.trans (hgh ▸ h0))
    exact (hothers g hgh).shared (by rwa [hg])
  · refine hidle _ (by simp [LockPc.Plain]) ?_
    intro p hp
    obtain rfl := Option.some.inj hp
    rcases hpend with rfl | ⟨rfl, hf⟩
    · have hf : (x.st.file h).eFileLock = .noLock := by
        cases hf : (x.st.file h).eFileLock <;> simp_all <;> exact absurd hlt (by decide)
      have he : x.st.inode.eFileLock = .noLock := by
        cases he : x.st.inode.eFileLock <;> simp_all
        exact absurd hbusy (by decide)
      exact ⟨hs, hf.trans he.symm, .inl ⟨rfl, he⟩⟩
    · have he : (x.st.file h).eFileLock = x.st.inode.eFileLock := by
        by_contra hne
        exact hbusy ⟨hne, .inr (by decide)⟩
      exact ⟨hs, he, .inr ⟨rfl, he ▸ hf⟩⟩
  · have hgt : .sharedLock < l := by
      cases l <;> simp_all <;> first
        | exact absurd hlt (not_lt.2 (noLock_le _))
        | decide
    have he : (x.st.file h).eFileLock = x.st.inode.eFileLock := by
      by_contra hne
      exact hbusy ⟨hne, .inr hgt⟩
    refine unixLockWrite_ok hs (hx.levels_self hlv) hn hx.noLock_iff hb hothers rfl he ?_
    have hl0 : l ≠ .sharedLock := fun h0 => absurd (h0 ▸ hgt) (by decide)
    have hf0 := hl1.resolve_right hl0
    cases l with
    | noLock => exact absurd hgt (by decide)
    | sharedLock => exact absurd rfl hl0
    | reservedLock => exact .inl ⟨rfl, he ▸ hl3.resolve_left (by simp)⟩
    | pendingLock => exact absurd rfl hl2
    | exclusiveLock => exact .inr ⟨rfl, he ▸ hf0, he ▸ hlt⟩

theorem posixUnlock_ok (hx : LockInv x) (hm : x.st.pLockMutex = none) {l : FileLock}
    (hs : (x.st.file h).stage = .idle ∧ l ≤ .sharedLock ∨
      (x.st.file h).stage = .closeUnlock ∧ l = .noLock)
    (hlt : l < (x.st.file h).eFileLock) :
    EnterOk x h x.row (posixUnlock (x.st.file h) x.st.inode l) := by
  have hs' : (x.st.file h).stage = .idle ∨ (x.st.file h).stage = .closeUnlock :=
    hs.imp And.left And.left
  have hlv : x.st.level h = (x.st.file h).eFileLock := by
    rw [LockProcess.level, pcOf_none hm]
    rcases hs' with hs | hs <;> simp [UnixFile.level, hs]
  have hb : Backed x.row (x.st.file h).eFileLock := by
    have hb := hx.held h
    rw [LockProcess.held, pcOf_none hm] at hb
    rcases hs' with hs | hs <;> simpa [UnixFile.held, UnixFile.level, hs] using hb
  have hn := hx.nLock_none hm
  have hothers := fun g hg => hx.held_ne (owner_of_none hm) (h := h) (g := g) hg
  have hpos : x.st.level h ≠ .noLock := by
    rw [hlv, ← noLock_lt]
    exact lt_of_le_of_lt (noLock_le _) hlt
  have hn0 : x.st.inode.nShared ≠ 0 := hx.levels.pos hpos
  have he0 : x.st.inode.eFileLock ≠ .noLock := fun h0 => hn0 (hn ▸ hx.noLock_iff.1 h0)
  unfold posixUnlock
  split_ifs with hgt hl
  · subst hl
    have hidle : (x.st.file h).stage = .idle := by
      rcases hs with ⟨hs, -⟩ | ⟨-, hs⟩
      · exact hs
      · simp at hs
    refine .idle hidle (by simp [LockPc.Plain]) (hx.levels_self hlv) hn hx.noLock_iff hb hothers rfl
      ?_
    intro p hp
    obtain rfl := Option.some.inj hp
    exact ⟨hidle, hgt⟩
  · have hl0 : l = .noLock := by
      rcases hs with ⟨-, hs⟩ | ⟨-, hs⟩
      · exact (le_sharedLock.1 hs).resolve_right hl
      · exact hs
    subst hl0
    have hlevel : (x.st.file h).level (some (.unlockBytes .noLock)) = (x.st.file h).eFileLock := by
      rcases hs' with hs | hs <;> simp [UnixFile.level, hs]
    refine ⟨?_, by simpa using hn, hx.noLock_iff, ?_, hothers, rfl, ?_, ?_, ?_, ?_⟩
    · simpa only [hlevel] using hx.levels_self hlv
    · simpa [UnixFile.held, hlevel] using hb
    · rcases hs' with hs | hs <;> simp [hs, Stage.Attached]
    · rcases hs' with hs | hs <;> simp [hs, Stage.Unlocked]
    · rcases hs' with hs | hs <;> simp [hs, Stage.Closing]
    · intro p hp
      obtain rfl := Option.some.inj hp
      exact ⟨hs, hgt⟩
  · have hl0 : l = .noLock := by
      have hle := not_lt.1 hgt
      rcases le_sharedLock.1 hle with h0 | h0
      · exact absurd (h0 ▸ hlt) (not_lt.2 (noLock_le _))
      · rw [h0] at hlt
        cases l <;> first | rfl | exact absurd hlt (by decide)
    subst hl0
    refine posixUnlockShared_noLock hs' ?_ hn hn0 he0 hothers rfl
    have hd := hx.levels.drop hpos
    rwa [if_neg (hlv ▸ hgt)] at hd

end Begin

section Outside

theorem CallOk.congr {i i' : UnixInodeInfo} {r : Row} {f : UnixFile} {pc : LockPc}
    (hc : CallOk i r f pc) (hsh : i'.nShared = i.nShared) (hn : i'.nLock = i.nLock)
    (he : i'.eFileLock = i.eFileLock) : CallOk i' r f pc := by
  cases pc <;> simpa [CallOk, hsh, hn, he] using hc

theorem pcOf_not_owner (hown : ∀ pc, x.st.pLockMutex ≠ some (h, pc)) : x.st.pcOf h = none := by
  unfold pcOf
  split
  · rename_i g pc hm
    rw [if_neg]
    rintro rfl
    exact hown _ hm
  · rfl

theorem level_outside (hown : ∀ pc, x.st.pLockMutex ≠ some (h, pc)) {f : UnixFile}
    (hlev : f.level none = (x.st.file h).level none) (i : UnixInodeInfo) (u : Option H) :
    LockProcess.level ⟨Function.update x.st.file h f, i, x.st.pLockMutex, u⟩ = x.st.level := by
  funext g
  change UnixFile.level (Function.update x.st.file h f g) (x.st.pcOf g) =
    UnixFile.level (x.st.file g) (x.st.pcOf g)
  by_cases hg : g = h
  · subst hg
    rw [Function.update_self, pcOf_not_owner hown, hlev]
  · rw [Function.update_of_ne hg]

theorem held_outside (hown : ∀ pc, x.st.pLockMutex ≠ some (h, pc)) {f : UnixFile}
    (hlev : f.level none = (x.st.file h).level none) (i : UnixInodeInfo) (u : Option H) :
    LockProcess.held ⟨Function.update x.st.file h f, i, x.st.pLockMutex, u⟩ = x.st.held := by
  funext g
  have hg := congrFun (level_outside hown hlev i u) g
  simp only [LockProcess.level] at hg
  simp only [LockProcess.held, UnixFile.held, hg]
  rfl

/-- A step of a handle that does not have the mutex, and leaves its level. The process may drop its
locks only when no handle has any. -/
theorem LockInv.outside (hx : LockInv x) (hown : ∀ pc, x.st.pLockMutex ≠ some (h, pc))
    {f : UnixFile} {i : UnixInodeInfo} {u : Option H} {r : Row}
    (hlev : f.level none = (x.st.file h).level none)
    (hsh : i.nShared = x.st.inode.nShared) (hn : i.nLock = x.st.inode.nLock)
    (he : i.eFileLock = x.st.inode.eFileLock)
    (hr : r = x.row ∨ x.st.pLockMutex = none ∧ x.st.inode.nLock = 0)
    (hatt : {g | (Function.update x.st.file h f g).stage.Attached}.encard = i.nRef)
    (hun : f.stage.Unlocked → f.eFileLock = .noLock)
    (hcl : f.stage.Closing → f.h ≠ none → x.st.inode.nLock = 0 ∧ x.st.pLockMutex = none) :
    LockInv ⟨⟨Function.update x.st.file h f, i, x.st.pLockMutex, u⟩, r⟩ := by
  refine ⟨?_, ?_, ?_, ?_, hatt, ?_, ?_, ?_⟩
  · simpa only [level_outside hown hlev, he, hsh] using hx.levels
  · have h0 := hx.nLock
    rw [← hn, ← hsh] at h0
    exact h0
  · simpa only [he, hn] using hx.noLock_iff
  · intro g
    rw [held_outside hown hlev]
    rcases hr with rfl | ⟨hm, h0⟩
    · exact hx.held g
    · have hz : x.st.inode.nShared = 0 := hx.nLock_none hm ▸ h0
      have hg : x.st.level g = .noLock := (hz ▸ hx.levels).eq_noLock g
      rw [LockProcess.level] at hg
      simp [LockProcess.held, UnixFile.held, hg, Backed]
  · intro g
    by_cases hg : g = h
    · subst hg
      simpa using hun
    · simpa [hg] using hx.unlocked g
  · intro g pc hm
    have hg : g ≠ h := by
      rintro rfl
      exact hown pc hm
    rcases hr with rfl | ⟨hm', -⟩
    · simpa [hg] using (hx.call g pc hm).congr hsh hn he
    · exact absurd (hm'.symm.trans hm) (by simp)
  · intro g
    by_cases hg : g = h
    · subst hg
      simpa [hn] using hcl
    · simpa [hg, hn] using hx.closing g

section Attached

variable {file : H → UnixFile} {f : UnixFile} {n : ℕ}

theorem attached_keep (hn : {g | (file g).stage.Attached}.encard = n)
    (hf : f.stage.Attached ↔ (file h).stage.Attached) :
    {g | (Function.update file h f g).stage.Attached}.encard = n := by
  have hset : {g | (Function.update file h f g).stage.Attached} = {g | (file g).stage.Attached} := by
    ext g
    by_cases hg : g = h <;> simp [hg, hf]
  rw [hset, hn]

theorem attached_add (hn : {g | (file g).stage.Attached}.encard = n)
    (hf : f.stage.Attached) (ha : ¬ (file h).stage.Attached) :
    {g | (Function.update file h f g).stage.Attached}.encard = (n + 1 : ℕ) := by
  have hset : {g | (Function.update file h f g).stage.Attached} =
      insert h {g | (file g).stage.Attached} := by
    ext g
    by_cases hg : g = h <;> simp [hg, hf]
  rw [hset, Set.encard_insert_of_notMem (by simpa using ha), hn]
  rfl

theorem attached_remove (hn : {g | (file g).stage.Attached}.encard = n)
    (hf : ¬ f.stage.Attached) (ha : (file h).stage.Attached) :
    {g | (Function.update file h f g).stage.Attached}.encard = (n - 1 : ℕ) := by
  have hset : {g | (Function.update file h f g).stage.Attached} =
      {g | (file g).stage.Attached} \ {h} := by
    ext g
    by_cases hg : g = h <;> simp [hg, hf]
  have hadd := Set.encard_sdiff_singleton_add_one (s := {g | (file g).stage.Attached}) (a := h) ha
  rw [hn] at hadd
  rw [hset]
  cases n with
  | zero => simp at hadd
  | succ m => simpa using hadd

end Attached

/-- The stages in which no call is in progress under the mutex. -/
theorem LockInv.not_owner (hx : LockInv x) (hs : (x.st.file h).stage ≠ .idle)
    (hs' : (x.st.file h).stage ≠ .closeUnlock) (pc : LockPc) :
    x.st.pLockMutex ≠ some (h, pc) := by
  intro hm
  have hc := hx.call h pc hm
  cases pc <;> simp only [CallOk] at hc <;> grind

theorem LockInv.openFile (hx : LockInv x) (hs : (x.st.file h).stage = .absent) (fd : ℕ)
    (reuse : Bool) : LockInv ⟨x.st.openFile h fd reuse, x.row⟩ := by
  have h0 := hx.unlocked h (by simp [hs, Stage.Unlocked])
  refine hx.outside (hx.not_owner (by simp [hs]) (by simp [hs])) ?_ rfl rfl rfl (.inl rfl) ?_
    (by simp [Stage.Unlocked]) (by simp [Stage.Closing])
  · simp [UnixFile.level, hs, h0]
  · exact attached_add hx.nRef (by simp [Stage.Attached]) (by simp [hs, Stage.Attached])

theorem LockInv.testLocks (hx : LockInv x) (hs : (x.st.file h).stage = .closeUnlocked)
    (hm : x.st.pLockMutex = none) : LockInv ⟨x.st.testLocks h, x.row⟩ := by
  have h0 := hx.unlocked h (by simp [hs, Stage.Unlocked])
  have hown : ∀ pc, x.st.pLockMutex ≠ some (h, pc) := by simp [hm]
  unfold LockProcess.testLocks
  simp only
  split
  · exact hx.outside hown (by simp [UnixFile.level, hs]) rfl rfl rfl (.inl rfl)
      (attached_keep hx.nRef (by simp [hs, Stage.Attached])) (fun _ => h0)
      (fun _ _ => ⟨‹_›, hm⟩)
  · exact hx.outside hown (by simp [UnixFile.level, hs]) rfl rfl rfl (.inl rfl)
      (attached_keep hx.nRef (by simp [hs, Stage.Attached])) (fun _ => h0)
      (fun _ h => absurd rfl h)

/-- When the last reference goes no handle has a lock. -/
theorem LockInv.nLock_last (hx : LockInv x) (hs : (x.st.file h).stage = .closeTested)
    (h1 : x.st.inode.nRef - 1 = 0) (hm : x.st.pLockMutex = none) : x.st.inode.nLock = 0 := by
  rw [hx.nLock_none hm]
  have hle : {g | (x.st.file g).stage.Attached}.encard ≤ 1 := by
    rw [hx.nRef]
    exact_mod_cast (by omega : x.st.inode.nRef ≤ 1)
  have hno : ∀ g, x.st.level g = .noLock := by
    intro g
    have hu : (x.st.file g).stage.Unlocked := by
      by_cases ha : (x.st.file g).stage.Attached
      · rw [Set.encard_le_one_iff.1 hle g h ha (by simp [hs, Stage.Attached]), hs]
        simp [Stage.Unlocked]
      · cases hg : (x.st.file g).stage <;> simp_all [Stage.Attached, Stage.Unlocked]
    have h0 := hx.unlocked g hu
    rw [LockProcess.level, pcOf_none hm]
    cases hg : (x.st.file g).stage <;> simp_all [Stage.Unlocked, UnixFile.level]
  have hcard := hx.levels.card
  simp only [hno, ne_eq, not_true_eq_false, Set.ofPred_false, Set.encard_empty] at hcard
  exact_mod_cast hcard.symm

theorem LockInv.release (hx : LockInv x) (hs : (x.st.file h).stage = .closeTested)
    (hm : x.st.inode.nRef - 1 = 0 → x.st.pLockMutex = none) :
    LockInv ⟨x.st.releaseInodeInfo h, x.row.after x.st.releaseCall⟩ := by
  have h0 := hx.unlocked h (by simp [hs, Stage.Unlocked])
  have hown := hx.not_owner (h := h) (by simp [hs]) (by simp [hs])
  have hatt := attached_remove (h := h) (f := { x.st.file h with stage := .closeReleased }) hx.nRef
    (by simp [Stage.Attached]) (by simp [hs, Stage.Attached])
  have hcl : (x.st.file h).h ≠ none → x.st.inode.nLock = 0 ∧ x.st.pLockMutex = none := fun hh =>
    hx.closing h (by simp [hs, Stage.Closing]) hh
  unfold LockProcess.releaseInodeInfo
  by_cases h1 : x.st.inode.nRef - 1 = 0
  · have hn := hx.nLock_last hs h1 (hm h1)
    have hsh := hx.nLock_none (hm h1)
    rw [if_pos h1]
    refine hx.outside hown (by simp [UnixFile.level, hs]) (by simp [freshInode, ← hsh, hn])
      (by simp [freshInode, hn]) (by simp [freshInode, hx.noLock_iff.2 hn]) (.inr ⟨hm h1, hn⟩) ?_
      (fun _ => h0) (fun _ => hcl)
    rw [h1] at hatt
    exact hatt
  · rw [if_neg h1, LockProcess.releaseCall, if_neg (fun h => h1 h.1)]
    exact hx.outside hown (by simp [UnixFile.level, hs]) rfl rfl rfl (.inl rfl) hatt (fun _ => h0)
      (fun _ => hcl)

theorem LockInv.closeDescriptor (hx : LockInv x) (hs : (x.st.file h).stage = .closeReleased) :
    LockInv ⟨x.st.closeUnixFile h,
      x.row.after (if (x.st.file h).h = none then .none else .close)⟩ := by
  have h0 := hx.unlocked h (by simp [hs, Stage.Unlocked])
  refine hx.outside (hx.not_owner (by simp [hs]) (by simp [hs])) (by simp [UnixFile.level, hs, h0])
    rfl rfl rfl ?_ (attached_keep hx.nRef (by simp [hs, Stage.Attached])) (fun _ => rfl)
    (by simp [Stage.Closing])
  split
  · exact .inl rfl
  · exact .inr (hx.closing h (by simp [hs, Stage.Closing]) ‹_›).symm

theorem lockInv_dead {r : Row} : LockInv ⟨(LockProcess.dead : LockProcess H), r⟩ where
  levels := Levels.init
  nLock := rfl
  noLock_iff := by simp [LockProcess.dead, freshInode]
  held _ := trivial
  nRef := by simp [LockProcess.dead, Stage.Attached, freshInode]
  unlocked _ _ := rfl
  call _ _ h := by simp [LockProcess.dead] at h
  closing _ h := by simp [LockProcess.dead, Stage.Closing] at h

theorem lockInv_fresh {r : Row} : LockInv ⟨(LockProcess.fresh : LockProcess H), r⟩ where
  levels := Levels.init
  nLock := rfl
  noLock_iff := by simp [LockProcess.fresh, freshInode]
  held _ := trivial
  nRef := by simp [LockProcess.fresh, Stage.Attached, freshInode]
  unlocked _ _ := rfl
  call _ _ h := by simp [LockProcess.fresh] at h
  closing _ h := by simp [LockProcess.fresh, Stage.Closing] at h

end Outside

section Step

theorem LockInv.resume (hx : LockInv x) {pc : LockPc} (hm : x.st.pLockMutex = some (h, pc))
    (hreg : x.st.Regular (.resume ok sharing)) :
    LockInv ⟨x.st.enter h (pc.resume (x.st.file h) x.st.inode ok sharing),
      x.row.after (pc.call x.st.inode ok)⟩ := by
  have hc := hx.call h pc hm
  have ha : (x.st.file h).stage.Attached := by
    by_contra hs
    refine hx.not_owner (h := h) ?_ ?_ pc hm <;> rintro h0 <;> simp [h0, Stage.Attached] at hs
  refine hx.enter (owner_of_some hm) ha ?_ ?_
  · intro g hg hh
    have h0 := (hx.closing g hg hh).2
    simp [hm] at h0
  · cases pc with
    | lockPending l => exact lockPending_ok hx hm
    | lockShared => exact lockShared_ok hx hm
    | unlockPending got => exact unlockPending_ok hx hm
    | lockWrite l => exact lockWrite_ok hx hm
    | relockShared => exact relockShared_ok hx hm
    | unlockBytes l => exact unlockBytes_ok hx hm fun hok => hreg hok h l hm
    | unlockFile => exact unlockFile_ok hx hm
    | closePending k => exact closePending_ok hx hm

theorem LockInv.lock (hx : LockInv x) (hm : x.st.pLockMutex = none) {l : FileLock}
    (hs : (x.st.file h).stage = .idle) (hlt : (x.st.file h).eFileLock < l)
    (hlegal : LegalLock (x.st.file h) l) (hreg : x.st.Regular (.lock h l sharing)) :
    LockInv ⟨x.st.enter h (unixLock (x.st.file h) x.st.inode l sharing), x.row⟩ :=
  hx.enter (owner_of_none hm) (by simp [hs, Stage.Attached])
    (fun g hg hh => absurd (hreg hlt g hg) hh) (unixLock_ok hx hm hs hlt hlegal)

theorem LockInv.unlock (hx : LockInv x) (hm : x.st.pLockMutex = none) {l : FileLock}
    (hs : (x.st.file h).stage = .idle ∧ l ≤ .sharedLock ∨
      (x.st.file h).stage = .closeUnlock ∧ l = .noLock) :
    LockInv ⟨x.st.enter h (if (x.st.file h).eFileLock ≤ l
      then endUnlock (x.st.file h) x.st.inode l false
      else posixUnlock (x.st.file h) x.st.inode l), x.row⟩ := by
  have ha : (x.st.file h).stage.Attached := by
    rcases hs with ⟨hs, -⟩ | ⟨hs, -⟩ <;> simp [hs, Stage.Attached]
  have hlv : x.st.level h = (x.st.file h).eFileLock := by
    rw [LockProcess.level, pcOf_none hm]
    rcases hs with ⟨hs, -⟩ | ⟨hs, -⟩ <;> simp [UnixFile.level, hs]
  have hn := hx.nLock_none hm
  split
  · rename_i hle
    refine hx.enter (owner_of_none hm) ha (fun g hg hh => ⟨(hx.closing g hg hh).1, rfl⟩) ?_
    refine endUnlock_ok ?_ (hx.levels_self hlv) hn hx.noLock_iff ?_
      (fun g hg => hx.held_ne (owner_of_none hm) hg) rfl
    · rcases hs with ⟨hs, -⟩ | ⟨hs, rfl⟩
      · exact .inl hs
      · exact .inr ⟨hs, le_noLock.1 hle⟩
    · have hb := hx.held h
      rw [LockProcess.held, pcOf_none hm] at hb
      rcases hs with ⟨hs, -⟩ | ⟨hs, -⟩ <;> simpa [UnixFile.held, UnixFile.level, hs] using hb
  · rename_i hlt
    refine hx.enter (owner_of_none hm) ha ?_ (posixUnlock_ok hx hm hs (not_le.1 hlt))
    intro g hg hh
    have h0 := (hx.levels.pos (h := h)).mt (not_not.2 (hn ▸ (hx.closing g hg hh).1))
    rw [not_not, hlv] at h0
    exact absurd (h0 ▸ noLock_le l) hlt

/-- A step that is regular keeps the invariant of its process. -/
theorem LockInv.step (hx : LockInv x) {a : LockAct H} (hreg : x.st.Regular a)
    {L : LockProcess H} {c : SysCall} (hstep : x.st.step a = some (L, c)) :
    LockInv ⟨L, x.row.after c⟩ := by
  cases a with
  | openFile h fd reuse =>
    simp only [LockProcess.step] at hstep
    split at hstep
    · rename_i hs
      cases hstep
      exact hx.openFile hs.1 fd reuse
    · cases hstep
  | lock h l sharing =>
    simp only [LockProcess.step] at hstep
    split_ifs at hstep with hs hle hlegal
    · cases hstep
      exact hx
    · cases hstep
      exact hx.lock hs.2 hs.1 (not_le.1 hle) hlegal hreg
  | unlock h l =>
    simp only [LockProcess.step] at hstep
    split_ifs at hstep with hs hle
    · cases hstep
      simpa only [hle, if_true, Row.after_none] using hx.unlock hs.2 hs.1
    · cases hstep
      simpa only [hle, if_false, Row.after_none] using hx.unlock hs.2 hs.1
  | resume ok sharing =>
    simp only [LockProcess.step] at hstep
    split at hstep
    · cases hstep
    · rename_i h pc hm
      cases hstep
      exact hx.resume hm hreg
  | store h =>
    simp only [LockProcess.step] at hstep
    split at hstep
    · rename_i l hs
      cases hstep
      exact hx.outside (hx.not_owner (by simp [hs]) (by simp [hs])) (by simp [UnixFile.level, hs])
        rfl rfl rfl (.inl rfl) (attached_keep hx.nRef (by simp [hs, Stage.Attached]))
        (by simp [Stage.Unlocked]) (by simp [Stage.Closing])
    · rename_i hs
      cases hstep
      exact hx.outside (hx.not_owner (by simp [hs]) (by simp [hs])) (by simp [UnixFile.level, hs])
        rfl rfl rfl (.inl rfl) (attached_keep hx.nRef (by simp [hs, Stage.Attached]))
        (fun _ => rfl) (by simp [Stage.Closing])
    · cases hstep
  | close h =>
    simp only [LockProcess.step] at hstep
    split at hstep
    · rename_i hs
      cases hstep
      refine hx.outside (fun pc hm => hs.2 (by simp [hm])) (by simp [UnixFile.level, hs.1])
        rfl rfl rfl (.inl rfl) (attached_keep hx.nRef (by simp [hs.1, Stage.Attached]))
        (by simp [Stage.Unlocked]) (by simp [Stage.Closing])
    · cases hstep
  | testLocks h =>
    simp only [LockProcess.step] at hstep
    split at hstep
    · rename_i hs
      cases hstep
      exact hx.testLocks hs.1 hs.2.2
    · cases hstep
  | release h =>
    simp only [LockProcess.step] at hstep
    split at hstep
    · rename_i hs
      cases hstep
      exact hx.release hs.1 hs.2
    · cases hstep
  | closeDescriptor h =>
    simp only [LockProcess.step] at hstep
    split at hstep
    · rename_i hs
      cases hstep
      exact hx.closeDescriptor hs
    · cases hstep
  | die =>
    cases hstep
    exact lockInv_dead

end Step

end Btreelite
