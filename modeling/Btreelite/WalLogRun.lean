import Btreelite.WalCommit

/-!
# Runs on the log file

Recovery finds a log, and one connection after the other writes it: they spill, commit, go back to
savepoints, roll back and die. Others checkpoint the log meanwhile, or truncate it between two
writers. What a commit leaves is what recovery finds again.
-/

namespace Btreelite

open Prog ByteFile LogM

/-- The page size of a header, as `walIndexTryHdr` decodes it. -/
def tryHdrSzPage (szPage : ℕ) : ℕ := (szPage &&& 0xfe00) + ((szPage &&& 1) <<< 16)

/-- The end of a checkpoint that truncates the log. -/
def truncateLog (salt1 : List UInt8) : LogM Unit := do
  modify fun s => s.setHdr s.live
  LogM.walRestartHdr salt1
  match ← nextIo with
  | none => modify fun s => { s with pWalFd := s.pWalFd.add (.truncate 0) }
  | some (f, _) => throw f.rc

/-- What a call leaves, whether it fails or not. -/
def LogState.after {α : Type} (s : LogState) (m : LogM α) : LogState :=
  match m s with
  | .ok _ t => t
  | .error _ t => t

/-- Whether there is a writer, and whether its last call of `walFrames` failed. -/
inductive WriterPhase
  | idle
  | writing
  | failed

/-- The log, and the writer with the arrays that `sqlite3WalSavepoint` filled. -/
structure LogSystem where
  log : LogState
  savepoints : List WalSavepoint
  phase : WriterPhase

/-- What the connections do. A writer that ends or dies may leave frames behind those that it
committed. -/
inductive LogOp
  | beginWrite (nCkpt readLock minFrame : ℕ)
  | frames (cfg : LogCfg) (answer : RestartAnswer) (pList : List PgHdr) (nTruncate : ℕ)
      (isCommit : Bool) (sync_flags : ℕ)
  | savepoint
  | savepointUndo (i : ℕ)
  | release (i : ℕ)
  | undo
  | endWrite
  | checkpoint (nBackfill : ℕ)
  | truncate (salt1 : List UInt8)

/-- The pager drops its savepoints with a commit and with a rollback. -/
def LogSystem.next (s : LogSystem) : LogOp → LogSystem
  | .beginWrite nCkpt readLock minFrame =>
    let pWal : WalHandle :=
      { hdr := s.log.live, szPage := tryHdrSzPage s.log.live.szPage, nCkpt, readLock, minFrame
        iReCksum := 0 }
    ⟨{ s.log with pWal }, [], .writing⟩
  | .frames cfg answer pList nTruncate isCommit sync_flags =>
    match walFrames cfg answer pList nTruncate isCommit sync_flags s.log with
    | .ok _ log => ⟨log, if isCommit = true then [] else s.savepoints, s.phase⟩
    | .error _ log => ⟨log, s.savepoints, .failed⟩
  | .savepoint => { s with savepoints := s.savepoints ++ [LogM.sqlite3WalSavepoint s.log.pWal] }
  | .savepointUndo i =>
    match s.savepoints[i]? with
    | none => s
    | some aWalData =>
      let aWalData := LogM.savepointData s.log.pWal.nCkpt aWalData
      ⟨s.log.after (LogM.sqlite3WalSavepointUndo aWalData), s.savepoints.take i ++ [aWalData], s.phase⟩
  | .release i => { s with savepoints := s.savepoints.take i }
  | .undo => ⟨s.log.after LogM.sqlite3WalUndo, [], .idle⟩
  | .endWrite => ⟨s.log, [], .idle⟩
  | .checkpoint nBackfill => { s with log := { s.log with nBackfill } }
  | .truncate salt1 => { s with log := s.log.after (truncateLog salt1) }

/-- What `walFrames` is called with. -/
structure FramesOk (cfg : LogCfg) (answer : RestartAnswer) (pList : List PgHdr)
    (nTruncate : ℕ) (isCommit : Bool) : Prop where
  cfgOk : cfg.Ok
  answerOk : answer.Ok
  fits : ∀ p ∈ pList, p.Fits cfg.szPage
  lt : nTruncate < 2 ^ 32
  commit : isCommit = true → pList ≠ [] ∧ nTruncate ≠ 0

/-- When an operation can start: there is one writer at a time, and a log is truncated with the
write lock. -/
def LogOp.Enabled (s : LogSystem) : LogOp → Prop
  | .beginWrite nCkpt _ _ => s.phase = .idle ∧ nCkpt < 2 ^ 32
  | .frames cfg answer pList nTruncate isCommit _ =>
    s.phase ≠ .idle ∧ FramesOk cfg answer pList nTruncate isCommit
  | .checkpoint _ => True
  | .truncate salt1 => s.phase = .idle ∧ salt1.length = 4
  | _ => s.phase ≠ .idle

/-- A transaction in which a call of `walFrames` has failed does nothing but end. -/
def LogOp.Careful (s : LogSystem) : LogOp → Prop
  | .frames .. | .savepoint | .savepointUndo _ | .release _ => s.phase = .writing
  | _ => True

/-- The system after recovery of a file that has fewer frames than a frame number can count. -/
structure LogSystem.Start (s : LogSystem) : Prop where
  idle : s.phase = .idle
  version : WalHdrOk s.log.content → get4byte ((s.log.content.take WAL_HDRSIZE).drop 4) = WAL_MAX_VERSION
  few : WalHdrOk s.log.content → (s.log.content.length - WAL_HDRSIZE)
    / (walPageSize s.log.content + WAL_FRAME_HDRSIZE) < 2 ^ 32 - HASHTABLE_NPAGE
  recovered : ∃ (aPrivate : WalHashLoc) (busy : ℕ → Bool) (pWal : Wal) (info : WalCkptInfo)
    (w : WalIndex) (x : Wal × WalCkptInfo) (past : List WalIndex),
      walIndexRecover s.log.content aPrivate busy pWal info ⟨w, []⟩ = .ok x ⟨s.log.apWiData, past⟩ ∧
        s.log.live = x.1.hdr

/-- The states of runs from a state with `I` whose operations all meet `P`. The failures to come are
chosen anew before each of them. -/
inductive LogReachable (I : LogSystem → Prop) (P : LogSystem → LogOp → Prop) : LogSystem → Prop
  | start {s : LogSystem} (hs : I s) : LogReachable I P s
  | op {s : LogSystem} {op : LogOp} (io : List (Option (Fault × ℕ))) (hs : LogReachable I P s)
      (he : op.Enabled { s with log := { s.log with io } }) (hp : P { s with log := { s.log with io } } op) :
      LogReachable I P (({ s with log := { s.log with io } } : LogSystem).next op)

/-! ## Savepoints -/

/-- What is true of a savepoint, after the correction for a log restart. -/
structure WalSavepoint.Ok (d : WalSavepoint) (s : LogState) : Prop where
  live : s.live.mxFrame ≤ d.mxFrame
  mxFrame : d.mxFrame ≤ s.pWal.hdr.mxFrame
  cksum : d.mxFrame ≠ 0 → (s.pWal.iReCksum = 0 ∨ d.mxFrame < s.pWal.iReCksum) →
    d.aFrameCksum = cumCksum s.content d.mxFrame

/-- What is true of the savepoints of a writer, the first of which is the outermost. -/
structure LogState.Saves (s : LogState) (savepoints : List WalSavepoint) : Prop where
  ok : ∀ d ∈ savepoints, (LogM.savepointData s.pWal.nCkpt d).Ok s
  nested : savepoints.Pairwise fun d d' =>
    (LogM.savepointData s.pWal.nCkpt d).mxFrame ≤ (LogM.savepointData s.pWal.nCkpt d').mxFrame
  /-- Only before the log is restarted can a writer have the first read lock. -/
  nCkpt : s.pWal.readLock = 0 → ∀ d ∈ savepoints, d.nCkpt = s.pWal.nCkpt

theorem savepointData_mxFrame {n : ℕ} {d : WalSavepoint} :
    LogM.savepointData n d = d ∧ d.nCkpt = n ∨ d.nCkpt ≠ n ∧ (LogM.savepointData n d).mxFrame = 0 := by
  unfold LogM.savepointData
  split_ifs with h
  · exact .inr ⟨h, rfl⟩
  · exact .inl ⟨rfl, not_not.1 h⟩

section Saves

variable {s s' : LogState} {l : List WalSavepoint} {d : WalSavepoint}

theorem LogState.Saves.nil : s.Saves [] := ⟨by simp, .nil, by simp⟩

theorem LogState.Saves.take (h : s.Saves l) (i : ℕ) : s.Saves (l.take i) where
  ok d hd := h.ok d (List.mem_of_mem_take hd)
  nested := h.nested.sublist (List.take_sublist i l)
  nCkpt h0 d hd := h.nCkpt h0 d (List.mem_of_mem_take hd)

/-- The place where the writer is now. -/
theorem LogState.Writing.saves (hs : s.Writing) : (LogM.sqlite3WalSavepoint s.pWal).Ok s where
  live := hs.live
  mxFrame := le_rfl
  cksum h0 hre := by
    have hw := hs.written h0
    have hlen : (logPages s.content s.pWal.hdr.mxFrame).length = s.pWal.hdr.mxFrame := logPages_length
    have h00 : s.pWal.iReCksum = 0 := hre.resolve_right fun hlt => by
      have := hs.iReCksum (by omega)
      exact absurd hlt (Nat.not_lt.2 this.2)
    have := (hw.chain h00).2
    rwa [hlen] at this

theorem LogState.Saves.push (h : s.Saves l) (hs : s.Writing) :
    s.Saves (l ++ [LogM.sqlite3WalSavepoint s.pWal]) := by
  have hnow : LogM.savepointData s.pWal.nCkpt (LogM.sqlite3WalSavepoint s.pWal) = LogM.sqlite3WalSavepoint s.pWal :=
    if_neg (not_not.2 rfl)
  refine ⟨fun d hd => ?_, List.pairwise_append.2 ⟨h.nested, List.pairwise_singleton _ _, fun d hd d' hd' => ?_⟩,
    fun h0 d hd => ?_⟩
  · rcases List.mem_append.1 hd with hd | hd
    · exact h.ok d hd
    · rw [List.mem_singleton.1 hd, hnow]
      exact hs.saves
  · rw [List.mem_singleton.1 hd', hnow]
    exact (h.ok d hd).mxFrame
  · rcases List.mem_append.1 hd with hd | hd
    · exact h.nCkpt h0 d hd
    · rw [List.mem_singleton.1 hd]
      rfl

/-- A call of `walFrames` that does not commit keeps the savepoints true. -/
theorem LogState.Saves.spilled (h : s.Saves l) (hs : s.Writing) (hsp : s.Spilled s')
    (hr : s'.pWal.readLock ≠ 0) : s'.Saves l := by
  cases hsp with
  | continued live nCkpt mxFrame keeps =>
    refine ⟨fun d hd => ?_, ?_, fun h0 => absurd h0 hr⟩
    · have hd' := h.ok d hd
      rw [nCkpt]
      refine ⟨live ▸ hd'.live, hd'.mxFrame.trans mxFrame, fun h0 hre => ?_⟩
      have hmx := hd'.mxFrame
      obtain ⟨hre₀, hsame⟩ := keeps (by omega) _ hmx hre
      rw [hd'.cksum h0 hre₀, hsame.sameLog.cumCksum]
    · rw [nCkpt]
      exact h.nested
  | restarted readLock live nCkpt =>
    have hzero : ∀ d ∈ l, (LogM.savepointData s'.pWal.nCkpt d).mxFrame = 0 := fun d hd => by
      have hlt := hs.nCkpt
      have hd' := h.nCkpt readLock d hd
      rcases @savepointData_mxFrame s'.pWal.nCkpt d with ⟨-, hn⟩ | ⟨-, hn⟩
      · omega
      · exact hn
    refine ⟨fun d hd => ⟨?_, ?_, fun h0 => absurd (hzero d hd) h0⟩, ?_, fun h0 => absurd h0 hr⟩
    · rw [live]
      exact Nat.zero_le _
    · rw [hzero d hd]
      exact Nat.zero_le _
    · refine List.Pairwise.imp_of_mem (fun hd hd' _ => ?_) h.nested
      rw [hzero _ hd]
      exact Nat.zero_le _

end Saves

/-! ## What an operation keeps -/

section Steps

variable {s s' : LogState} {d : WalSavepoint} {l : List WalSavepoint}

theorem LogState.Safe.of_io (h : s.Safe) (io : List (Option (Fault × ℕ))) :
    ({ s with io } : LogState).Safe :=
  ⟨h.committed, h.index, h.salt⟩

/-- A page size that a header may have is decoded to itself. -/
theorem tryHdrSzPage_hdrSzPage {sz : ℕ} (hpow : sz &&& (sz - 1) = 0) (hsmall : sz ≤ SQLITE_MAX_PAGE_SIZE)
    (hlarge : 512 ≤ sz) : tryHdrSzPage (hdrSzPage sz) = sz := by
  obtain ⟨k, rfl⟩ := (Nat.and_sub_one_eq_zero_iff_isPowerOfTwo (n := sz) (by omega)).1 hpow
  have h9 : 9 ≤ k := by
    by_contra hlt
    have := Nat.pow_le_pow_right (n := 2) (by decide) (show k ≤ 8 by omega)
    omega
  have h16 : k ≤ 16 := by
    by_contra hlt
    have := Nat.pow_le_pow_right (n := 2) (by decide) (show 17 ≤ k by omega)
    unfold SQLITE_MAX_PAGE_SIZE at hsmall
    omega
  have hk : k = 9 ∨ k = 10 ∨ k = 11 ∨ k = 12 ∨ k = 13 ∨ k = 14 ∨ k = 15 ∨ k = 16 := by omega
  rcases hk with rfl | rfl | rfl | rfl | rfl | rfl | rfl | rfl <;> rfl

/-- A log whose first frames are good holds them. -/
theorem GoodTo.cover {f : List UInt8} {n : ℕ} (h : GoodTo f n) (h0 : 0 < n) :
    walFrameOffset (n + 1) (walPageSize f) ≤ f.length := by
  rw [walFrameOffset_next]
  exact (h n h0 le_rfl).size

theorem GoodTo.pgno {f : List UInt8} {n : ℕ} (h : GoodTo f n) : ∀ p ∈ logPages f n, p.pgno ≠ 0 := by
  intro p hp
  obtain ⟨i, hi, rfl⟩ := List.mem_map.1 hp
  exact (h (i + 1) (Nat.succ_pos i) (List.mem_range.1 hi)).pgno

/-- A connection that begins to write takes over the shared header. -/
theorem LogState.Safe.beginWrite (h : s.Safe) {nCkpt minFrame : ℕ} {readLock : ℤ} (hn : nCkpt < 2 ^ 32) :
    ({ s with pWal :=
        { hdr := s.live, szPage := tryHdrSzPage s.live.szPage, nCkpt, readLock, minFrame, iReCksum := 0 } } :
      LogState).Writing where
  toSafe := ⟨h.committed, h.index, h.salt⟩
  live := le_rfl
  written := fun h0 => by
    have hc := h.committed h0
    have hh := hc.header
    have hpos := Nat.pos_of_ne_zero h0
    exact
      { header := ⟨hh.size, hh.magic, hh.version, hh.pow, hh.small, hh.large, hh.cksum, hh.salt, hh.bigEnd, by
          rw [hc.szPage, tryHdrSzPage_hdrSzPage hh.pow hh.small hh.large]
          rfl⟩
        cover := by
          rw [logPages_length]
          exact hc.good.cover hpos
        pages := by rw [logPages_length]
        pgno := hc.good.pgno
        chain := fun _ => by
          rw [logPages_length]
          exact ⟨hc.good, hc.cksum⟩
        before := fun hre => absurd rfl hre }
  iReCksum := fun hre => absurd rfl hre
  indexed := h.index
  hdrSalt := h.salt
  nCkpt := hn
  fresh := fun _ => ⟨rfl, rfl⟩

/-- The handle after `sqlite3WalSavepointUndo` has gone back to the savepoint. -/
def WalHandle.goBack (pWal : WalHandle) (d : WalSavepoint) : WalHandle :=
  { pWal with
    hdr := { pWal.hdr with mxFrame := d.mxFrame, aFrameCksum := d.aFrameCksum }
    iReCksum := if d.mxFrame < pWal.iReCksum then 0 else pWal.iReCksum }

theorem goBack_iReCksum {pWal : WalHandle} (h : (pWal.goBack d).iReCksum = 0) :
    pWal.iReCksum = 0 ∨ d.mxFrame < pWal.iReCksum := by
  have h : (if d.mxFrame < pWal.iReCksum then 0 else pWal.iReCksum) = 0 := h
  split_ifs at h with hlt
  · exact .inr hlt
  · exact .inl h

theorem goBack_iReCksum_ne {pWal : WalHandle} (h : (pWal.goBack d).iReCksum ≠ 0) :
    (pWal.goBack d).iReCksum = pWal.iReCksum ∧ pWal.iReCksum ≤ d.mxFrame := by
  have hre : (pWal.goBack d).iReCksum = if d.mxFrame < pWal.iReCksum then 0 else pWal.iReCksum := rfl
  rw [hre] at h ⊢
  split_ifs at h ⊢ with hlt
  · exact absurd rfl h
  · exact ⟨rfl, by omega⟩

/-- Going back to a savepoint, when it is not where the writer is already. -/
theorem LogState.Writing.goBack (hs : s.Writing) (hd : d.Ok s) (hlt : d.mxFrame < s.pWal.hdr.mxFrame)
    (hfd : s'.content = s.content) (hlive : s'.live = s.live) (hp : s'.pWal = s.pWal.goBack d)
    (hi : Indexes s'.apWiData (walPgnos s.content d.mxFrame)) : s'.Writing where
  committed := by
    rw [hfd, hlive]
    exact hs.committed
  index := by
    have := hi.take s.live.mxFrame
    rw [hfd, hlive]
    rwa [walPgnos_take hd.live] at this
  salt := by
    rw [hlive]
    exact hs.salt
  live := by
    rw [hlive, hp]
    exact hd.live
  written := fun h0 => by
    have h0 : d.mxFrame ≠ 0 := by rwa [hp] at h0
    have hw := hs.written (by omega)
    have hlen := @logPages_length s.content s.pWal.hdr.mxFrame
    have hh := hw.header
    have htake := @logPages_take s.content _ _ hlt.le
    rw [hfd, hp]
    change Written s.content (s.pWal.goBack d) (logPages s.content d.mxFrame)
    exact
      { header := ⟨hh.size, hh.magic, hh.version, hh.pow, hh.small, hh.large, hh.cksum, hh.salt, hh.bigEnd,
          hh.pageSize⟩
        cover := by
          rw [logPages_length]
          refine le_trans (walFrameOffset_mono ?_) hw.cover
          omega
        pages := by rw [logPages_length]
        pgno := fun p hp => hw.pgno p (List.mem_of_mem_take (htake ▸ hp))
        chain := fun hre => by
          rw [logPages_length]
          refine ⟨?_, hd.cksum h0 (goBack_iReCksum hre)⟩
          by_cases hz : s.pWal.iReCksum = 0
          · exact (hw.chain hz).1.mono (by omega)
          · exact (hw.before hz).2.mono (by have := (goBack_iReCksum hre).resolve_left hz; omega)
        before := fun hre => by
          obtain ⟨he, hle⟩ := goBack_iReCksum_ne hre
          rw [logPages_length, he]
          exact ⟨hle, (hw.before (he ▸ hre)).2⟩ }
  iReCksum := fun hre => by
    rw [hp] at hre
    obtain ⟨he, hle⟩ := goBack_iReCksum_ne hre
    rw [hlive, hp, he]
    exact ⟨(hs.iReCksum (he ▸ hre)).1, hle⟩
  indexed := by
    rw [hfd, hp]
    exact hi
  hdrSalt := by
    rw [hp]
    exact hs.hdrSalt
  nCkpt := by
    rw [hp]
    exact hs.nCkpt
  fresh := fun hr => by
    rw [hp] at hr
    have heq := (hs.fresh hr).2
    have := hd.live
    rw [heq] at hlt
    omega

/-- What going back to a savepoint leaves of the ones before it, and of itself. -/
theorem WalSavepoint.Ok.goBack {e : WalSavepoint} (he : e.Ok s) (hle : e.mxFrame ≤ d.mxFrame)
    (hfd : s'.content = s.content) (hlive : s'.live = s.live)
    (hp : s'.pWal = s.pWal.goBack d) : e.Ok s' where
  live := by
    rw [hlive]
    exact he.live
  mxFrame := by
    rw [hp]
    exact hle
  cksum := fun h0 hre => by
    rw [hfd]
    refine he.cksum h0 ?_
    rw [hp] at hre
    rcases hre with hre | hre
    · exact (goBack_iReCksum hre).imp_right fun h => by omega
    · have := @goBack_iReCksum_ne d s.pWal (by omega)
      omega

theorem savepointUndo_wp (hs : s.Writing) (hd : d.Ok s) :
    wp (LogM.sqlite3WalSavepointUndo d)
      (fun _ s' => s' = s ∧ d.mxFrame = s.pWal.hdr.mxFrame ∨
        d.mxFrame < s.pWal.hdr.mxFrame ∧ s'.pWalFd = s.pWalFd ∧ s'.live = s.live ∧
          s'.pWal = s.pWal.goBack d ∧ Indexes s'.apWiData (walPgnos s.content d.mxFrame))
      (fun _ _ => False) s := by
  have hmx := hd.mxFrame
  unfold LogM.sqlite3WalSavepointUndo
  refine wp_bind.2 (wp_get.2 (wp_ite.2 ⟨fun hlt => ?_, fun hlt => wp_pure.2 (.inl ⟨rfl, by omega⟩)⟩))
  refine wp_bind.2 (wp_set.2 (wp_bind.2 ?_))
  have hclean := cleanup_stays (n := d.mxFrame) (c := 0) hs.indexed (by rw [walPgnos_length]; exact hlt.le)
    (Nat.zero_le _)
  rw [walPgnos_take hlt.le] at hclean
  refine (onShm_wp (s := s.setHdr { s.pWal.hdr with mxFrame := d.mxFrame, aFrameCksum := d.aFrameCksum })
    hclean).mono (fun _ s₁ ⟨h₁, hi⟩ => wp_modify.2 (.inr ⟨hlt, ?_⟩)) fun _ _ => False.elim
  have hfd : s₁.pWalFd = s.pWalFd := h₁.pWalFd
  have hp := h₁.pWal
  have hmx₁ : s₁.pWal.hdr.mxFrame = d.mxFrame := by rw [hp]; rfl
  have hre₁ : s₁.pWal.iReCksum = s.pWal.iReCksum := by rw [hp]; rfl
  rw [hmx₁, hre₁]
  split_ifs with hlt'
  · refine ⟨hfd, h₁.live, ?_, hi⟩
    simp only [hp, WalHandle.goBack, if_pos hlt', LogState.setHdr]
  · refine ⟨hfd, h₁.live, ?_, hi⟩
    simp only [hp, WalHandle.goBack, if_neg hlt', LogState.setHdr]

/-- Going back to savepoint `i` keeps the savepoints up to it. -/
theorem LogState.Saves.undo {i : ℕ} (h : s.Saves l) (hs : s.Writing) (hi : l[i]? = some d) :
    wp (LogM.sqlite3WalSavepointUndo (LogM.savepointData s.pWal.nCkpt d))
      (fun _ s' => (s'.Writing ∧ s'.Saves (l.take i ++ [LogM.savepointData s.pWal.nCkpt d])) ∧
        s'.pWalFd = s.pWalFd ∧ s'.live = s.live)
      (fun _ _ => False) s := by
  obtain ⟨d', hd'⟩ : ∃ d', d' = LogM.savepointData s.pWal.nCkpt d := ⟨_, rfl⟩
  have hok := h.ok d (List.mem_of_getElem? hi)
  have hn : d'.nCkpt = s.pWal.nCkpt := by
    rw [hd']
    unfold LogM.savepointData
    split_ifs with hne
    · rfl
    · exact not_not.1 hne
  have hidem : LogM.savepointData s.pWal.nCkpt d' = d' := if_neg (not_not.2 hn)
  rw [← hd'] at hok ⊢
  have hbefore : ∀ e ∈ l.take i, (LogM.savepointData s.pWal.nCkpt e).mxFrame ≤ d'.mxFrame := by
    intro e he
    obtain ⟨j, hj⟩ := List.mem_iff_getElem?.1 he
    have hji : j < i := by
      by_contra hlt
      rw [List.getElem?_eq_none (by rw [List.length_take]; omega)] at hj
      exact absurd hj (by simp)
    rw [List.getElem?_take, if_pos hji] at hj
    obtain ⟨hjl, rfl⟩ := List.getElem?_eq_some_iff.1 hj
    obtain ⟨hil, rfl⟩ := List.getElem?_eq_some_iff.1 hi
    rw [hd']
    exact List.pairwise_iff_getElem.1 h.nested j i hjl hil hji
  have hmem : ∀ e ∈ l.take i ++ [d'], (LogM.savepointData s.pWal.nCkpt e).Ok s ∧
      (LogM.savepointData s.pWal.nCkpt e).mxFrame ≤ d'.mxFrame := by
    intro e he
    rcases List.mem_append.1 he with he | he
    · exact ⟨h.ok e (List.mem_of_mem_take he), hbefore e he⟩
    · rw [List.mem_singleton.1 he, hidem]
      exact ⟨hok, le_rfl⟩
  have hnested : (l.take i ++ [d']).Pairwise fun e e' =>
      (LogM.savepointData s.pWal.nCkpt e).mxFrame ≤ (LogM.savepointData s.pWal.nCkpt e').mxFrame :=
    List.pairwise_append.2 ⟨h.nested.sublist (List.take_sublist i l), List.pairwise_singleton _ _,
      fun e he e' he' => by
        rw [List.mem_singleton.1 he', hidem]
        exact hbefore e he⟩
  have hnCkpt : s.pWal.readLock = 0 → ∀ e ∈ l.take i ++ [d'], e.nCkpt = s.pWal.nCkpt := by
    intro h0 e he
    rcases List.mem_append.1 he with he | he
    · exact h.nCkpt h0 e (List.mem_of_mem_take he)
    · rw [List.mem_singleton.1 he, hn]
  refine (savepointUndo_wp hs hok).post fun _ s' h' => ?_
  rcases h' with ⟨rfl, -⟩ | ⟨hlt, hfd, hlive, hp, hi'⟩
  · exact ⟨⟨hs, fun e he => (hmem e he).1, hnested, hnCkpt⟩, rfl, rfl⟩
  · have hk : s'.pWal.nCkpt = s.pWal.nCkpt := by rw [hp]; rfl
    have hc : s'.content = s.content := congrArg OsFile.content hfd
    refine ⟨⟨hs.goBack hok hlt hc hlive hp hi', fun e he => ?_, ?_, fun h0 => ?_⟩, hfd, hlive⟩
    · rw [hk]
      exact (hmem e he).1.goBack (hmem e he).2 hc hlive hp
    · rw [hk]
      exact hnested
    · rw [hk]
      rw [hp] at h0
      exact hnCkpt h0

theorem LogState.after_of_wp {α : Type} {m : LogM α} {P : LogState → Prop}
    (h : wp m (fun _ => P) (fun _ => P) s) : P (s.after m) := by
  unfold wp at h
  unfold LogState.after
  cases hm : m s with
  | ok a t =>
    rw [hm] at h
    exact h
  | error e t =>
    rw [hm] at h
    exact h

theorem sqlite3WalUndo_wp (hs : s.Safe) :
    wp LogM.sqlite3WalUndo (fun _ s' => s'.Safe ∧ s'.pWalFd = s.pWalFd ∧ s'.live = s.live)
      (fun _ s' => s'.Safe ∧ s'.pWalFd = s.pWalFd ∧ s'.live = s.live) s := by
  have hclean := @cleanup_stays s.apWiData _ s.live.mxFrame 0 hs.index (by rw [walPgnos_length]) (Nat.zero_le _)
  rw [walPgnos_take le_rfl] at hclean
  have hset : ∀ s₁ : LogState, (s.setHdr s.live).OnlyIndex s₁ →
      Indexes s₁.apWiData (walPgnos s.content s.live.mxFrame) →
      ({ s₁ with pWal := { s₁.pWal with iReCksum := 0 } } : LogState).Safe ∧ s₁.pWalFd = s.pWalFd ∧
        s₁.live = s.live := by
    intro s₁ h₁ hi
    have hfd : s₁.content = s.content := h₁.content
    have hlive : s₁.live = s.live := h₁.live
    refine ⟨⟨?_, ?_, ?_⟩, h₁.pWalFd, hlive⟩
    · change Committed s₁.content s₁.live
      rw [hfd, hlive]
      exact hs.committed
    · change Indexes s₁.apWiData (walPgnos s₁.content s₁.live.mxFrame)
      rwa [hfd, hlive]
    · change s₁.live.aSalt.length = 8
      rw [hlive]
      exact hs.salt
  unfold LogM.sqlite3WalUndo
  refine wp_bind.2 (wp_get.2 (wp_bind.2 (wp_set.2 (wp_ite.2 ⟨fun _ => wp_bind.2 ?_, fun _ => ?_⟩))))
  · exact (onShm_wp (s := s.setHdr s.live) hclean).mono (fun _ s₁ ⟨h₁, hi⟩ => wp_modify.2 (hset s₁ h₁ hi)) fun _ _ => False.elim
  · exact wp_modify.2 (hset _ ⟨rfl, rfl, rfl, rfl⟩ hs.index)

theorem truncateLog_wp {salt1 : List UInt8} (hsalt : salt1.length = 4) :
    wp (truncateLog salt1) (fun _ s' => s'.Safe ∧ s'.live.mxFrame = 0) (fun _ s' => s'.Safe ∧ s'.live.mxFrame = 0)
      s := by
  have hs := @WalIndexHdr.restart_salt s.live salt1 hsalt
  unfold truncateLog LogM.walRestartHdr
  refine wp_bind.2 (wp_modify.2 (wp_bind.2 (wp_modify.2 (wp_bind.2 (nextIo_wp fun x io => ?_)))))
  cases x with
  | none => exact wp_modify.2 ⟨.of_zero rfl hs, rfl⟩
  | some x => exact wp_throw.2 ⟨.of_zero rfl hs, rfl⟩

end Steps

/-! ## Runs -/

/-- What holds in every state. -/
structure LogSystem.Inv (s : LogSystem) : Prop where
  safe : s.log.Safe
  writing : s.phase = .writing → s.log.Writing ∧ s.log.Saves s.savepoints

section Runs

variable {s : LogSystem} {op : LogOp}

/-- Recovery finds the first frames of the file that end in a commit. -/
theorem LogSystem.Start.inv (hs : s.Start) : s.Inv := by
  obtain ⟨aPrivate, busy, pWal, info, w, x, past, hrun, hlive⟩ := hs.recovered
  obtain ⟨v, hv⟩ := @exists_walGood s.log.content
  have hrec := @walIndexRecover_stays _ w v 0 aPrivate busy pWal info hs.version hs.few hv (Nat.zero_le v)
    (Indexes.nil w)
  obtain ⟨⟨hlatest, hcommit, hheader, hsalt, -, hi⟩, -⟩ := (hrec []).of_ok hrun
  rw [← hlive] at hlatest hcommit hheader hsalt
  have hle : s.log.live.mxFrame ≤ v := hv.latest_le hlatest
  refine ⟨⟨fun h0 => ?_, ?_, hsalt⟩, fun h => absurd (hs.idle.symm.trans h) (by simp)⟩
  · have hc : WalCommits s.log.content s.log.live.mxFrame := hlatest.elim (fun h => h.1) fun h => absurd h.2 h0
    obtain ⟨hnp, hck⟩ := hcommit h0
    obtain ⟨hsalt, hbe, hsz⟩ := hheader h0
    have hh := hc.hdr
    exact
      { header := ⟨hh.size.le, hh.magic, hs.version hh, hh.szPage, hh.small, hh.large, hh.cksum, hsalt.symm,
          hbe.symm, rfl⟩
        good := hc.frames
        cksum := hck
        nPage := hnp.symm
        commit := by
          rw [hnp]
          exact hc.nTruncate
        szPage := hsz }
  · have := hi.take s.log.live.mxFrame
    rwa [walPgnos_take hle] at this

/-- A call of `walFrames` for a commit that returns `SQLITE_OK`. -/
def LogOp.Commits (s : LogSystem) (op : LogOp) : Prop :=
  ∃ cfg answer pList nTruncate sync_flags, op = .frames cfg answer pList nTruncate true sync_flags ∧
    (s.next op).phase = .writing

/-- What an operation does that is no commit: the frames that count stay, and what is synced of them. -/
structure LogSystem.Goes (s : LogSystem) (op : LogOp) : Prop where
  inv : (s.next op).Inv
  keepsLive : ¬ op.Commits s → s.log.KeepsLive (s.next op).log
  keepsSynced : ¬ op.Commits s → s.log.KeepsSynced (s.next op).log

/-- An operation that leaves the file and the shared header. -/
theorem LogSystem.Goes.of_eq (hinv : (s.next op).Inv) (hfd : (s.next op).log.pWalFd = s.log.pWalFd)
    (hlive : (s.next op).log.live = s.log.live) : s.Goes op :=
  ⟨hinv, fun _ => .of_eq hlive (congrArg OsFile.content hfd), fun _ => .of_eq hfd⟩

section Frames

variable {cfg : LogCfg} {answer : RestartAnswer} {pList : List PgHdr} {nTruncate : ℕ} {isCommit : Bool}
  {sync_flags : ℕ}

theorem LogSystem.Inv.frames (hs : s.Inv) (h : FramesOk cfg answer pList nTruncate isCommit)
    (hp : s.phase = .writing) : s.Goes (.frames cfg answer pList nTruncate isCommit sync_flags) := by
  obtain ⟨hw, hsave⟩ := hs.writing hp
  have hframes := @walFrames_wp cfg s.log nTruncate sync_flags answer isCommit pList h.cfgOk h.answerOk hw
    h.fits h.lt h.commit
  cases hrun : walFrames cfg answer pList nTruncate isCommit sync_flags s.log with
  | ok a log =>
    have hcall := hframes.of_ok hrun
    have hnext : s.next (.frames cfg answer pList nTruncate isCommit sync_flags)
        = ⟨log, if isCommit = true then [] else s.savepoints, s.phase⟩ := by
      simp only [LogSystem.next, hrun]
    cases isCommit with
    | true =>
      have hcommits : LogOp.Commits s (.frames cfg answer pList nTruncate true sync_flags) :=
        ⟨_, _, _, _, _, rfl, by rw [hnext]; exact hp⟩
      refine ⟨?_, fun h => absurd hcommits h, fun h => absurd hcommits h⟩
      rw [hnext]
      exact ⟨hcall.writing.toSafe, fun _ => ⟨hcall.writing, .nil⟩⟩
    | false =>
      obtain ⟨hspill, hlive, hsynced⟩ := hcall.spill rfl
      refine ⟨?_, fun _ => ?_, fun _ => ?_⟩
      · rw [hnext]
        exact ⟨hcall.writing.toSafe, fun _ => ⟨hcall.writing, hsave.spilled hw hspill hcall.readLock⟩⟩
      · rwa [hnext]
      · rwa [hnext]
  | error e log =>
    obtain ⟨hsafe, hlive, hsynced⟩ := hframes.of_error hrun
    have hnext : s.next (.frames cfg answer pList nTruncate isCommit sync_flags)
        = ⟨log, s.savepoints, .failed⟩ := by simp only [LogSystem.next, hrun]
    refine ⟨?_, fun _ => ?_, fun _ => ?_⟩
    · rw [hnext]
      exact ⟨hsafe, fun h => absurd h (by simp)⟩
    · rwa [hnext]
    · rwa [hnext]

end Frames

/-- Every operation of a careful run. -/
theorem LogSystem.Inv.next (hs : s.Inv) (he : op.Enabled s) (hc : op.Careful s) : s.Goes op := by
  cases op with
  | beginWrite nCkpt readLock minFrame =>
    have hw := @LogState.Safe.beginWrite _ hs.safe nCkpt minFrame readLock he.2
    exact .of_eq ⟨hw.toSafe, fun _ => ⟨hw, .nil⟩⟩ rfl rfl
  | frames cfg answer pList nTruncate isCommit sync_flags => exact hs.frames he.2 hc
  | savepoint =>
    obtain ⟨hw, hsave⟩ := hs.writing hc
    exact .of_eq ⟨hs.safe, fun _ => ⟨hw, hsave.push hw⟩⟩ rfl rfl
  | savepointUndo i =>
    obtain ⟨hw, hsave⟩ := hs.writing hc
    cases hi : s.savepoints[i]? with
    | none =>
      have hnext : s.next (.savepointUndo i) = s := by simp only [LogSystem.next, hi]
      exact .of_eq (by rwa [hnext]) (by rw [hnext]) (by rw [hnext])
    | some d =>
      obtain ⟨d', hd'⟩ : ∃ d', d' = LogM.savepointData s.log.pWal.nCkpt d := ⟨_, rfl⟩
      have hnext : s.next (.savepointUndo i)
          = ⟨s.log.after (LogM.sqlite3WalSavepointUndo d'), s.savepoints.take i ++ [d'], s.phase⟩ := by
        simp only [LogSystem.next, hi, hd']
      have hundo := hsave.undo hw hi
      rw [← hd'] at hundo
      have hafter := LogState.after_of_wp (hundo.mono (fun _ _ => id) fun _ _ => False.elim)
      refine .of_eq ?_ ?_ ?_
      · rw [hnext]
        exact ⟨hafter.1.1.toSafe, fun _ => hafter.1⟩
      · rw [hnext]
        exact hafter.2.1
      · rw [hnext]
        exact hafter.2.2
  | release i =>
    obtain ⟨hw, hsave⟩ := hs.writing hc
    exact .of_eq ⟨hs.safe, fun _ => ⟨hw, hsave.take i⟩⟩ rfl rfl
  | undo =>
    have hundo := LogState.after_of_wp (sqlite3WalUndo_wp hs.safe)
    exact .of_eq ⟨hundo.1, fun h => absurd h (by simp [LogSystem.next])⟩ hundo.2.1 hundo.2.2
  | endWrite => exact .of_eq ⟨hs.safe, fun h => absurd h (by simp [LogSystem.next])⟩ rfl rfl
  | checkpoint nBackfill =>
    refine .of_eq ⟨⟨hs.safe.committed, hs.safe.index, hs.safe.salt⟩, fun h => ?_⟩ rfl rfl
    obtain ⟨hw, hsave⟩ := hs.writing h
    refine ⟨?_, ⟨fun d hd => ?_, hsave.nested, hsave.nCkpt⟩⟩
    · exact
        { committed := hw.committed, index := hw.index, salt := hw.salt, live := hw.live, written := hw.written
          iReCksum := hw.iReCksum, indexed := hw.indexed, hdrSalt := hw.hdrSalt, nCkpt := hw.nCkpt
          fresh := hw.fresh }
    · exact ⟨(hsave.ok d hd).live, (hsave.ok d hd).mxFrame, (hsave.ok d hd).cksum⟩
  | truncate salt1 =>
    have htrunc := LogState.after_of_wp (@truncateLog_wp s.log _ he.2)
    exact ⟨⟨htrunc.1, fun h => absurd (he.1.symm.trans h) (by simp)⟩, fun _ => .of_zero htrunc.2,
      fun _ h0 => absurd htrunc.2 h0⟩

theorem LogSystem.Inv.of_io (hs : s.Inv) (io : List (Option (Fault × ℕ))) :
    ({ s with log := { s.log with io } } : LogSystem).Inv := by
  refine ⟨hs.safe.of_io io, fun h => ?_⟩
  obtain ⟨hw, hsave⟩ := hs.writing h
  refine ⟨?_, ⟨fun d hd => ?_, hsave.nested, hsave.nCkpt⟩⟩
  · exact
      { committed := hw.committed, index := hw.index, salt := hw.salt, live := hw.live, written := hw.written
        iReCksum := hw.iReCksum, indexed := hw.indexed, hdrSalt := hw.hdrSalt, nCkpt := hw.nCkpt
        fresh := hw.fresh }
  · exact ⟨(hsave.ok d hd).live, (hsave.ok d hd).mxFrame, (hsave.ok d hd).cksum⟩

theorem LogReachable.inv (hs : LogReachable LogSystem.Start (fun s op => op.Careful s) s) : s.Inv := by
  induction hs with
  | start hs => exact hs.inv
  | op io _ he hp ih => exact ((ih.of_io io).next he hp).inv

theorem LogReachable.mono {I I' : LogSystem → Prop} {P P' : LogSystem → LogOp → Prop} (hs : LogReachable I P s)
    (hI : ∀ s, I s → I' s) (hP : ∀ s op, P s op → P' s op) : LogReachable I' P' s := by
  induction hs with
  | start hs => exact .start (hI _ hs)
  | op io _ he hp ih => exact .op io ih he (hP _ _ hp)

end Runs

/-! ## A log of one frame -/

theorem Stays.returns {α : Type} {I : WalIndex → Prop} {m : ShmM α} {Q : α → WalIndex → Prop}
    {w : WalIndex} (h : Stays I m w Q) : ∃ a w' past, m ⟨w, []⟩ = .ok a ⟨w', past⟩ ∧ Q a w' := by
  have hw := h []
  unfold wp at hw
  cases hm : m ⟨w, []⟩ with
  | ok a t =>
    rw [hm] at hw
    exact ⟨a, t.apWiData, t.past, rfl, hw.1⟩
  | error e t =>
    rw [hm] at hw
    exact hw.elim

/-- The log of one frame, recovered. -/
theorem smallWal_start : ∃ s : LogSystem, s.Start ∧ s.log.pWalFd = ⟨smallWal 0, []⟩ ∧ s.log.live.mxFrame = 1 := by
  have hcount : ((smallWal 0).length - WAL_HDRSIZE) / (walPageSize (smallWal 0) + WAL_FRAME_HDRSIZE) = 1 := by
    rw [smallWal_pageSize, smallWal_length]
    decide +kernel
  obtain ⟨v, hv⟩ := @exists_walGood (smallWal 0)
  have hfew : WalHdrOk (smallWal 0) → ((smallWal 0).length - WAL_HDRSIZE)
      / (walPageSize (smallWal 0) + WAL_FRAME_HDRSIZE) < 2 ^ 32 - HASHTABLE_NPAGE := fun _ => by
    rw [hcount]
    decide +kernel
  have hrec := @walIndexRecover_stays (smallWal 0) (fun _ => ⟨fun _ => 9, fun _ => 9⟩) v 0
    ⟨fun _ => 7, fun _ => 7⟩ (fun _ => false) ⟨WalIndexHdr.zero, 0, 0⟩ ⟨5, fun _ => 5, 5⟩
    (fun _ => smallWal_version 0) hfew hv (Nat.zero_le v) (Indexes.nil _)
  obtain ⟨x, w', past, hrun, hlatest, -⟩ := hrec.returns
  have hone : x.1.hdr.mxFrame = 1 := by
    rcases hlatest with hg | ⟨hempty, -⟩
    · have hle := (hg.1.frames _ hg.1.pos le_rfl).le
      have hge := hg.2 (smallWal_commits 0)
      omega
    · exact absurd (smallWal_commits 0) (Set.eq_empty_iff_forall_notMem.1 hempty 1)
  refine ⟨⟨⟨⟨smallWal 0, []⟩, w', x.1.hdr, 0, ⟨x.1, -1, 0, 0⟩, []⟩, [], .idle⟩, ⟨rfl, fun _ => smallWal_version 0,
    hfew, _, _, _, _, _, x, past, hrun, rfl⟩, rfl, hone⟩

/-- A writer on this log. -/
theorem smallWal_writing : ∃ s : LogSystem, LogReachable LogSystem.Start (fun s op => op.Careful s) s ∧
    s.phase = .writing ∧ s.log.pWalFd = ⟨smallWal 0, []⟩ ∧ s.log.live.mxFrame = 1 := by
  obtain ⟨s, hs, hfd, h1⟩ := smallWal_start
  exact ⟨_, @LogReachable.op LogSystem.Start (fun s op => op.Careful s) s (.beginWrite 0 1 1) []
    (.start hs) ⟨hs.idle, by decide⟩ trivial, rfl, hfd, h1⟩

/-- One page to write behind it. -/
def smallCfg : LogCfg := ⟨false, true, true, 512, 512⟩

def smallAnswer : RestartAnswer := ⟨[1, 2, 3, 4], [1, 2, 3, 4, 5, 6, 7, 8], .busy, .ok 1⟩

theorem smallFrames_ok : FramesOk smallCfg smallAnswer [⟨2, List.replicate 512 7⟩] 2 true where
  cfgOk := ⟨by decide, by decide, by decide⟩
  answerOk := ⟨rfl, rfl, fun mxI h => by
    injection h with h
    omega⟩
  fits := by
    intro p hp
    rw [List.mem_singleton.1 hp]
    exact ⟨by decide, by decide, List.length_replicate⟩
  lt := by decide
  commit := fun _ => ⟨List.cons_ne_nil _ _, by decide⟩

/-! ## What is read back -/

section Pages

variable {f : List UInt8} {w : WalIndex} {n pgno r minFrame : ℕ} {s t : LogState}

/-- What a reader of the committed frames sees of a page. -/
def LogState.committed (s : LogState) (pgno : ℕ) : Option (List UInt8) :=
  lastPage (logPages s.content s.live.mxFrame) pgno

/-- What the writer sees. -/
def LogState.written (s : LogState) (pgno : ℕ) : Option (List UInt8) :=
  lastPage (logPages s.content s.pWal.hdr.mxFrame) pgno

/-- The last frame of a page is the greatest number among its frames. -/
theorem lastPage_logPages (hr : 0 < r) (hle : r ≤ n) (hp : framePgno f r = pgno)
    (hlast : ∀ i, r < i → i ≤ n → framePgno f i ≠ pgno) :
    lastPage (logPages f n) pgno = some (frameData f r) := by
  induction n with
  | zero => omega
  | succ n ih =>
    rw [logPages_succ, lastPage_concat]
    rcases Nat.lt_or_eq_of_le hle with hlt | rfl
    · rw [if_neg (hlast (n + 1) hlt le_rfl), ih (by omega) fun i hi hin => hlast i hi (by omega)]
    · rw [if_pos hp]

/-- What a lookup in an index of the first `n` frames finds. -/
theorem Indexes.reads (hw : Indexes w (walPgnos f n)) {readLock : ℕ} {bShmUnreliable : Bool}
    (hr : readLock ≠ 0 ∨ bShmUnreliable = true) (minFrame pgno : ℕ) :
    ∃ r, walFindFrame w readLock bShmUnreliable minFrame n pgno = .ok r ∧
      (r ≠ 0 → lastPage (logPages f n) pgno = some (frameData f r)) ∧
      (r = 0 → ∀ i, 0 < i → minFrame ≤ i → i ≤ n → framePgno f i ≠ pgno) := by
  obtain ⟨r, hfind, hl⟩ : ∃ r, walFindFrame w readLock bShmUnreliable minFrame n pgno = .ok r ∧
      IsLatest (framesOf (walPgnos f n) minFrame n pgno) r := walFindFrame_latest hw (by rw [walPgnos_length]) hr
  have hget : ∀ i, 0 < i → i ≤ n → (walPgnos f n)[i - 1]? = some (framePgno f i) := by
    intro i hi hle
    rw [← logPages_pgnos, List.getElem?_map, logPages_getElem? (by omega), Option.map_some, Nat.sub_add_cancel hi]
  have hmem : ∀ i, 0 < i → minFrame ≤ i → i ≤ n → framePgno f i = pgno →
      i ∈ framesOf (walPgnos f n) minFrame n pgno := fun i hi hmin hle hp =>
    ⟨hi, hmin, hle, by rw [hget i hi hle, hp]⟩
  refine ⟨r, hfind, fun h0 => ?_, fun h0 i hi hmin hle hp => ?_⟩
  · rcases hl with ⟨⟨hpos, hmin, hle, hp⟩, hup⟩ | ⟨-, h⟩
    · rw [hget r hpos hle] at hp
      refine lastPage_logPages hpos hle (Option.some_inj.1 hp) fun i hi hin hpi => ?_
      have := hup (hmem i (by omega) (by omega) hin hpi)
      omega
    · exact absurd h h0
  · have hin := hmem i hi hmin hle hp
    rcases hl with ⟨⟨hpos, -⟩, -⟩ | ⟨hempty, -⟩
    · omega
    · exact absurd hin (hempty ▸ Set.notMem_empty i)

/-- The frames that count hold the same pages as before. -/
theorem LogState.KeepsLive.committed (h : s.KeepsLive t) (h0 : t.live.mxFrame ≠ 0) :
    t.live = s.live ∧ ∀ pgno, t.committed pgno = s.committed pgno := by
  obtain ⟨hl, hf⟩ := h h0
  refine ⟨hl, fun pgno => ?_⟩
  rw [LogState.committed, LogState.committed, hl, hf.sameLog.logPages]

/-- In every state of a careful run, a call of `walFrames` that returns `SQLITE_OK` lets its writer
see the pages of its list, and of all others what it saw before; a commit lets all readers see this.
Other calls, and those that fail, do not change what readers see unless they restart the log. -/
theorem walFrames_shows_pages {s : LogSystem} {cfg : LogCfg} {answer : RestartAnswer} {pList : List PgHdr}
    {nTruncate : ℕ} {isCommit : Bool} (hs : LogReachable LogSystem.Start (fun s op => op.Careful s) s)
    (hp : s.phase = .writing) (h : FramesOk cfg answer pList nTruncate isCommit)
    (hd : (pList.map PgHdr.pgno).Nodup) (sync_flags : ℕ) (io : List (Option (Fault × ℕ))) :
    wp (walFrames cfg answer pList nTruncate isCommit sync_flags)
      (fun _ t => (∃ log, s.log.StartsFrom log ∧ (∀ pgno, t.written pgno = lastPage (log ++ pList) pgno)) ∧
        (∀ readLock minFrame pgno, readLock ≠ 0 → ∃ r,
          walFindFrame t.apWiData readLock false minFrame t.pWal.hdr.mxFrame pgno = .ok r ∧
            (r ≠ 0 → t.written pgno = some (frameData t.content r)) ∧
            (r = 0 → ∀ i, 0 < i → minFrame ≤ i → i ≤ t.pWal.hdr.mxFrame → framePgno t.content i ≠ pgno)) ∧
        (isCommit = true → t.live = t.pWal.hdr ∧ t.live.nPage = nTruncate ∧ ∀ pgno, t.committed pgno = t.written pgno) ∧
        (isCommit = false → t.live.mxFrame ≠ 0 →
          t.live = s.log.live ∧ ∀ pgno, t.committed pgno = s.log.committed pgno))
      (fun _ t => t.live.mxFrame ≠ 0 → t.live = s.log.live ∧ ∀ pgno, t.committed pgno = s.log.committed pgno)
      { s.log with io } := by
  have hw := ((hs.inv.of_io io).writing hp).1
  refine (walFrames_wp h.cfgOk h.answerOk hw h.fits h.lt h.commit).mono (fun _ t ht => ?_)
    fun _ t ⟨_, hk, _⟩ => hk.committed
  obtain ⟨log, hstart, hpages⟩ := ht.pages
  refine ⟨⟨log, ?_, hpages hd⟩, fun readLock minFrame pgno hr => ?_, fun hc => ?_, fun hc => ?_⟩
  · cases hstart with
    | continued => exact .continued
    | restarted hr hb => exact .restarted hr hb
  · exact ht.writing.indexed.reads (.inl hr) minFrame pgno
  · obtain ⟨hl, -, hn, -⟩ := ht.commit hc
    exact ⟨hl, hn, fun pgno => by rw [LogState.committed, LogState.written, hl]⟩
  · exact (ht.spill hc).2.1.committed

/-- A commit of page 2 behind the frame of page 1. -/
theorem walFrames_shows_small : ∃ s : LogSystem, s.log.live.mxFrame = 1 ∧
    wp (walFrames smallCfg smallAnswer [⟨2, List.replicate 512 7⟩] 2 true 2)
      (fun _ t => (∃ log, s.log.StartsFrom log ∧
          (∀ pgno, t.written pgno = lastPage (log ++ [⟨2, List.replicate 512 7⟩]) pgno)) ∧
        (∀ readLock minFrame pgno, readLock ≠ 0 → ∃ r,
          walFindFrame t.apWiData readLock false minFrame t.pWal.hdr.mxFrame pgno = .ok r ∧
            (r ≠ 0 → t.written pgno = some (frameData t.content r)) ∧
            (r = 0 → ∀ i, 0 < i → minFrame ≤ i → i ≤ t.pWal.hdr.mxFrame → framePgno t.content i ≠ pgno)) ∧
        (true = true → t.live = t.pWal.hdr ∧ t.live.nPage = 2 ∧ ∀ pgno, t.committed pgno = t.written pgno) ∧
        (true = false → t.live.mxFrame ≠ 0 →
          t.live = s.log.live ∧ ∀ pgno, t.committed pgno = s.log.committed pgno))
      (fun _ t => t.live.mxFrame ≠ 0 → t.live = s.log.live ∧ ∀ pgno, t.committed pgno = s.log.committed pgno)
      { s.log with io := [none, some (.ioerr, 3)] } := by
  obtain ⟨s, hs, hp, -, h1⟩ := smallWal_writing
  exact ⟨s, h1, walFrames_shows_pages hs hp smallFrames_ok (List.nodup_singleton _) 2 _⟩

end Pages

end Btreelite
