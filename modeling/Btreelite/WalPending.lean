import Btreelite.WalFrames

/-!
# Writes that are not synced yet

What is written to the log since its last sync may be lost. Every call writes behind some place of
the log, and a commit that is synced leaves nothing pending before the end of its frames, though it
may repeat its last frame behind them.
-/

namespace Btreelite

open Prog ByteFile LogM

/-- The bytes before `base` are synced, and all that is not is a write at or behind `base`. -/
structure OsFile.Behind (base : ℕ) (f : OsFile) : Prop where
  synced : base ≤ f.synced.length
  since : ∀ op ∈ f.since, ∃ iOffset aData, op = .write iOffset aData ∧ base ≤ iOffset

/-- Behind a place and with a handle that goes on behind it. -/
structure LogState.Pending (cfg : LogCfg) (base : ℕ) (s : LogState) : Prop where
  behind : s.pWalFd.Behind base
  szPage : s.pWal.szPage = cfg.szPage
  iReCksum : s.pWal.iReCksum ≠ 0 → base ≤ walFrameOffset s.pWal.iReCksum cfg.szPage

/-- A call that leaves the state like this, whether it fails or not. -/
abbrev Leaves {α : Type} (P : LogState → Prop) (m : LogM α) (s : LogState) : Prop :=
  wp m (fun _ => P) (fun _ => P) s

theorem Leaves.bind {α β : Type} {P : LogState → Prop} {m : LogM β} {f : β → LogM α} {s : LogState}
    (h : Leaves P m s) (hf : ∀ b s', P s' → Leaves P (f b) s') : Leaves P (m >>= f) s :=
  wp_bind.2 (h.post hf)

theorem Leaves.pure {α : Type} {P : LogState → Prop} {a : α} {s : LogState} (h : P s) :
    Leaves P (pure a : LogM α) s := h

section Behind

variable {f : OsFile} {base base' iOffset : ℕ} {aData : List UInt8}

theorem OsFile.Behind.mono (h : f.Behind base) (hb : base' ≤ base) : f.Behind base' :=
  ⟨hb.trans h.synced, fun op hop => by
    obtain ⟨iOffset, aData, rfl, hle⟩ := h.since op hop
    exact ⟨iOffset, aData, rfl, hb.trans hle⟩⟩

theorem OsFile.Behind.add (h : f.Behind base) (hle : base ≤ iOffset) :
    (f.add (.write iOffset aData)).Behind base :=
  ⟨h.synced, fun op hop => by
    rcases List.mem_append.1 hop with hop | hop
    · exact h.since op hop
    · exact ⟨iOffset, aData, List.mem_singleton.1 hop, hle⟩⟩

theorem OsFile.Behind.of_sync (h : base ≤ f.content.length) : f.sync.Behind base :=
  ⟨h, fun _ hop => absurd hop List.not_mem_nil⟩

/-- Writes do not make a file shorter. -/
theorem apply_length_le (ops : List FileOp) (hops : ∀ op ∈ ops, ∃ iOffset aData, op = .write iOffset aData) :
    ∀ g : List UInt8, g.length ≤ (ops.foldl FileOp.apply g).length := by
  induction ops with
  | nil => exact fun _ => le_rfl
  | cons op ops ih =>
    intro g
    obtain ⟨iOffset, aData, rfl⟩ := hops op (List.mem_cons_self ..)
    exact pwrite_length_le.trans (ih (fun op hop => hops op (List.mem_cons_of_mem _ hop)) _)

theorem OsFile.Behind.sync (h : f.Behind base) : f.sync.Behind base := by
  refine .of_sync (h.synced.trans (apply_length_le f.since (fun op hop => ?_) f.synced))
  obtain ⟨iOffset, aData, hop, -⟩ := h.since op hop
  exact ⟨iOffset, aData, hop⟩

end Behind

section Calls

variable {cfg : LogCfg} {base base' iOffset nByte flags syncFlags iSyncPoint : ℕ} {aData : List UInt8}
  {s : LogState} {p : PgHdr}

theorem LogState.Pending.add (h : s.Pending cfg base) (hle : base ≤ iOffset) (io : List (Option (Fault × ℕ))) :
    ({ s with pWalFd := s.pWalFd.add (.write iOffset aData), io } : LogState).Pending cfg base :=
  ⟨h.behind.add hle, h.szPage, h.iReCksum⟩

theorem LogState.Pending.of_io (h : s.Pending cfg base) (io : List (Option (Fault × ℕ))) :
    ({ s with io } : LogState).Pending cfg base :=
  ⟨h.behind, h.szPage, h.iReCksum⟩

theorem nextIo_leaves {α : Type} {P : LogState → Prop} {f : Option (Fault × ℕ) → LogM α}
    (h : ∀ x io, Leaves P (f x) { s with io }) : Leaves P (nextIo >>= f) s :=
  wp_bind.2 (h _ _)

theorem sqlite3OsWrite_pending (h : s.Pending cfg base) (hle : base ≤ iOffset) :
    Leaves (LogState.Pending cfg base) (sqlite3OsWrite aData iOffset) s := by
  unfold sqlite3OsWrite
  refine nextIo_leaves fun x io => ?_
  cases x with
  | none => exact wp_modify.2 (h.add hle io)
  | some x => exact wp_bind.2 (wp_modify.2 (wp_throw.2 (h.add hle io)))

theorem sqlite3OsRead_pending (h : s.Pending cfg base) :
    Leaves (LogState.Pending cfg base) (sqlite3OsRead nByte iOffset) s := by
  unfold sqlite3OsRead
  refine nextIo_leaves fun x io => ?_
  cases x with
  | none =>
    exact wp_bind.2 (wp_get.2 (wp_ite.2 ⟨fun _ => wp_pure.2 (h.of_io io), fun _ => wp_throw.2 (h.of_io io)⟩))
  | some x => exact wp_throw.2 (h.of_io io)

theorem sqlite3_malloc_pending (h : s.Pending cfg base) :
    Leaves (LogState.Pending cfg base) sqlite3_malloc s := by
  unfold sqlite3_malloc
  refine nextIo_leaves fun x io => ?_
  cases x with
  | none => exact wp_pure.2 (h.of_io io)
  | some x => exact wp_throw.2 (h.of_io io)

theorem sqlite3OsSync_pending (h : s.Pending cfg base) :
    Leaves (LogState.Pending cfg base) (sqlite3OsSync flags) s := by
  unfold sqlite3OsSync
  refine wp_ite.2 ⟨fun _ => wp_pure.2 h, fun _ => nextIo_leaves fun x io => ?_⟩
  cases x with
  | none => exact wp_modify.2 ⟨h.behind.sync, h.szPage, h.iReCksum⟩
  | some x => exact wp_throw.2 (h.of_io io)

theorem syncWhen_pending {bSync : Bool} (h : s.Pending cfg base) :
    Leaves (LogState.Pending cfg base) (syncWhen bSync flags) s :=
  wp_ite.2 ⟨fun _ => sqlite3OsSync_pending h, fun _ => wp_pure.2 h⟩

theorem walWriteToLog_pending (h : s.Pending cfg base) (hle : base ≤ iOffset) :
    Leaves (LogState.Pending cfg base) (walWriteToLog iSyncPoint syncFlags aData iOffset) s := by
  unfold walWriteToLog
  refine wp_ite.2 ⟨fun _ => ?_, fun _ => sqlite3OsWrite_pending h hle⟩
  refine (sqlite3OsWrite_pending h hle).bind fun _ s₁ h₁ => (sqlite3OsSync_pending h₁).bind fun _ s₂ h₂ => ?_
  exact wp_ite.2 ⟨fun _ => wp_pure.2 h₂, fun _ => sqlite3OsWrite_pending h₂ (hle.trans (Nat.le_add_right ..))⟩

/-- The encoding of a frame only changes the checksum in the handle. -/
theorem encodeFrame_pending {iPage nTruncate : ℕ} (h : s.Pending cfg base) :
    Leaves (LogState.Pending cfg base) (encodeFrame iPage nTruncate aData) s := by
  obtain ⟨e, he⟩ : ∃ e, e = walEncodeFrame s.pWal iPage nTruncate aData := ⟨_, rfl⟩
  obtain ⟨c, hc⟩ := @walEncodeFrame_fst s.pWal nTruncate iPage aData
  rw [← he] at hc
  unfold encodeFrame
  refine wp_bind.2 (wp_get.2 ?_)
  simp only [← he]
  refine wp_bind.2 (wp_set.2 (wp_pure.2 ⟨h.behind, ?_, ?_⟩))
  · rw [hc]
    exact h.szPage
  · rw [hc]
    exact h.iReCksum

theorem walWriteOneFrame_pending {nTruncate : ℕ} (h : s.Pending cfg base) (hle : base ≤ iOffset) :
    Leaves (LogState.Pending cfg base) (walWriteOneFrame iSyncPoint syncFlags p nTruncate iOffset) s := by
  unfold walWriteOneFrame
  refine (encodeFrame_pending h).bind fun aFrame s₁ h₁ => (walWriteToLog_pending h₁ hle).bind fun _ s₂ h₂ => ?_
  exact walWriteToLog_pending h₂ (hle.trans (Nat.le_add_right ..))

theorem rewriteFrames_pending : ∀ (n iRead : ℕ) (s : LogState), s.Pending cfg base →
    base ≤ walFrameOffset iRead cfg.szPage → Leaves (LogState.Pending cfg base) (rewriteFrames cfg.szPage n iRead) s
  | 0, _, _, h, _ => h
  | n + 1, iRead, s, h, hle => by
    have hnext := @walFrameOffset_mono iRead (iRead + 1) cfg.szPage (Nat.le_succ _)
    unfold rewriteFrames
    refine (sqlite3OsRead_pending h).bind fun aBuf s₁ h₁ => (encodeFrame_pending h₁).bind fun aFrame s₂ h₂ => ?_
    exact (sqlite3OsWrite_pending h₂ hle).bind fun _ s₃ h₃ =>
      rewriteFrames_pending n (iRead + 1) s₃ h₃ (hle.trans hnext)

theorem walRewriteChecksums_pending {iLast : ℕ} (h : s.Pending cfg base) (h0 : s.pWal.iReCksum ≠ 0) :
    Leaves (LogState.Pending cfg base) (walRewriteChecksums iLast) s := by
  have hset : ∀ (s : LogState) (aBuf : List UInt8), s.Pending cfg base →
      Leaves (LogState.Pending cfg base) (setCksum aBuf) s := fun s aBuf h =>
    wp_modify.2 ⟨h.behind, h.szPage, fun h0 => absurd rfl h0⟩
  have hmalloc : Leaves (fun s' => s'.Pending cfg base ∧ s'.pWal.iReCksum = s.pWal.iReCksum) sqlite3_malloc s := by
    unfold sqlite3_malloc
    refine nextIo_leaves fun x io => ?_
    cases x with
    | none => exact wp_pure.2 ⟨h.of_io io, rfl⟩
    | some x => exact wp_throw.2 ⟨h.of_io io, rfl⟩
  unfold walRewriteChecksums readCksum
  refine wp_bind.2 (hmalloc.mono (fun _ s₁ ⟨h₁, hre⟩ => ?_) fun _ _ h => h.1)
  have hle := h₁.iReCksum (by rwa [hre])
  refine wp_bind.2 (wp_get.2 ?_)
  rw [h₁.szPage]
  refine Leaves.bind (wp_bind.2 (wp_get.2 ?_)) fun _ s₂ h₂ => rewriteFrames_pending _ _ s₂ h₂ hle
  refine wp_bind.2 (wp_onError.2 ((sqlite3OsRead_pending h₁).mono (fun aBuf s₂ h₂ => hset s₂ aBuf h₂)
    fun _ s₂ h₂ => hset s₂ [] h₂))

end Calls

/-! ## The frames of one call -/

section Frames

variable {cfg : LogCfg} {base iFirst nTruncate sync_flags : ℕ} {isCommit : Bool} {s : LogState}

/-- A frame that is chosen to be overwritten is one of the transaction. -/
theorem findWrite_first {pgno : ℕ} {isLast : Bool} :
    wp (findWrite iFirst pgno isLast isCommit)
      (fun iWrite s' => s' = s ∧ (iWrite ≠ 0 → iFirst ≠ 0 ∧ iFirst ≤ iWrite)) (fun _ _ => False) s := by
  unfold findWrite
  refine wp_ite.2 ⟨fun hc => wp_bind.2 (wp_get.2 ?_), fun _ => wp_pure.2 ⟨rfl, fun h => absurd rfl h⟩⟩
  split
  · refine wp_pure.2 ⟨rfl, fun h0 => ⟨hc.1, ?_⟩⟩
    split_ifs at h0 ⊢ with hle
    · exact hle
    · exact absurd rfl h0
  · exact wp_pure.2 ⟨rfl, fun h => absurd rfl h⟩

theorem writeFrames_pending (hf : iFirst ≠ 0 → base ≤ walFrameOffset iFirst cfg.szPage) :
    ∀ (pList : List PgHdr) (iFrame : ℕ) (s : LogState), s.Pending cfg base →
      base ≤ walFrameOffset (iFrame + 1) cfg.szPage →
      Leaves (LogState.Pending cfg base) (writeFrames cfg iFirst nTruncate isCommit sync_flags pList iFrame) s
  | [], _, _, h, _ => h
  | p :: pList, iFrame, s, h, hle => by
    unfold writeFrames
    refine wp_bind.2 (findWrite_first.mono (fun iWrite s₁ hfind => ?_) fun _ _ => False.elim)
    obtain ⟨hs₁, hw⟩ := hfind
    subst hs₁
    refine wp_ite.2 ⟨fun h0 => ?_, fun _ => ?_⟩
    · obtain ⟨hne, hge⟩ := hw h0
      have hbase := (hf hne).trans (walFrameOffset_mono hge)
      refine wp_bind.2 (wp_modify.2 ?_)
      have h₂ : ({ s₁ with pWal := s₁.pWal.overwrite iWrite } : LogState).Pending cfg base := by
        refine ⟨h.behind, ?_, ?_⟩
        · simp only [WalHandle.overwrite]
          split_ifs <;> exact h.szPage
        · simp only [WalHandle.overwrite]
          split_ifs
          · exact fun _ => hbase
          · exact h.iReCksum
      exact (sqlite3OsWrite_pending h₂ (hbase.trans (Nat.le_add_right ..))).bind fun _ s₃ h₃ =>
        writeFrames_pending hf pList iFrame s₃ h₃ hle
    · refine (walWriteOneFrame_pending h hle).bind fun _ s₂ h₂ => ?_
      exact (writeFrames_pending hf pList (iFrame + 1) s₂ h₂ (hle.trans (walFrameOffset_mono (Nat.le_succ _)))).bind
        fun _ s₃ h₃ => wp_pure.2 h₃

theorem padFrames_pending {iSyncPoint syncFlags : ℕ} {pLast : PgHdr} : ∀ (n iOffset : ℕ) (s : LogState),
    s.Pending cfg base → base ≤ iOffset →
      Leaves (LogState.Pending cfg base) (padFrames cfg iSyncPoint syncFlags nTruncate pLast n iOffset) s
  | 0, _, _, h, _ => h
  | n + 1, iOffset, s, h, hle => by
    unfold padFrames
    refine wp_ite.2 ⟨fun _ => ?_, fun _ => wp_pure.2 h⟩
    refine (walWriteOneFrame_pending h hle).bind fun _ s₁ h₁ => ?_
    exact (padFrames_pending n _ s₁ h₁ (hle.trans (Nat.le_add_right ..))).bind fun _ s₂ h₂ => wp_pure.2 h₂

theorem syncCommit_pending {pLast : Option PgHdr} {iOffset : ℕ} (h : s.Pending cfg base) (hle : base ≤ iOffset) :
    Leaves (LogState.Pending cfg base) (syncCommit cfg nTruncate isCommit sync_flags pLast iOffset) s := by
  unfold syncCommit
  refine wp_ite.2 ⟨fun _ => ?_, fun _ => wp_pure.2 h⟩
  refine Leaves.bind ?_ fun _ s₁ h₁ => (syncWhen_pending h₁).bind fun _ s₂ h₂ => wp_pure.2 h₂
  cases pLast with
  | none => exact wp_pure.2 h
  | some p => exact wp_ite.2 ⟨fun _ => padFrames_pending _ _ s h hle, fun _ => wp_pure.2 h⟩

/-- The wal-index is not in the file. -/
theorem onShm_pending {α : Type} {m : ShmM α} (h : s.Pending cfg base) :
    Leaves (LogState.Pending cfg base) (onShm m) s := by
  refine wp_zoom.2 (wp.true.mono (fun _ _ _ => ?_) fun _ _ _ => ?_) <;> exact ⟨h.behind, h.szPage, h.iReCksum⟩

theorem indexFrames_pending : ∀ (pages : List PgHdr) (iFrame : ℕ) (s : LogState), s.Pending cfg base →
    Leaves (LogState.Pending cfg base) (indexFrames iFrame pages) s
  | [], _, _, h => h
  | p :: pages, iFrame, s, h => by
    unfold indexFrames
    refine (sqlite3_malloc_pending h).bind fun _ s₁ h₁ => wp_bind.2 (wp_get.2 ?_)
    exact (onShm_pending h₁).bind fun _ s₂ h₂ => indexFrames_pending pages (iFrame + 1) s₂ h₂

theorem framesTail_pending {pList : List PgHdr} (h : s.Pending cfg base)
    (hf : iFirst ≠ 0 → base ≤ walFrameOffset iFirst cfg.szPage)
    (hle : base ≤ walFrameOffset (s.pWal.hdr.mxFrame + 1) cfg.szPage) :
    Leaves (LogState.Pending cfg base) (framesTail cfg iFirst pList nTruncate isCommit sync_flags) s := by
  unfold framesTail
  refine wp_bind.2 (wp_get.2 ?_)
  refine (writeFrames_pending hf pList _ s h hle).bind fun pages s₁ h₁ => ?_
  have hle₁ : base ≤ walFrameOffset (s.pWal.hdr.mxFrame + pages.length + 1) cfg.szPage :=
    hle.trans (walFrameOffset_mono (by omega))
  refine Leaves.bind ?_ fun _ s₂ h₂ => (syncCommit_pending h₂ hle₁).bind fun extra s₃ h₃ =>
    (indexFrames_pending _ _ s₃ h₃).bind fun _ s₄ h₄ => ?_
  · unfold reCksumCommit
    exact wp_bind.2 (wp_get.2 (wp_ite.2 ⟨fun hc => walRewriteChecksums_pending h₁ hc.2, fun _ => wp_pure.2 h₁⟩))
  · unfold updateHdr
    refine wp_modify.2 ?_
    simp only []
    split_ifs
    · exact ⟨h₄.behind, h₄.szPage, h₄.iReCksum⟩
    · exact ⟨h₄.behind, h₄.szPage, h₄.iReCksum⟩

end Frames

/-! ## The sync of a commit -/

section Synced

variable {cfg : LogCfg} {base iSyncPoint iOffset flags nTruncate : ℕ} {aData : List UInt8} {s s' : LogState}
  {p : PgHdr}

/-- A call that syncs the bytes before `base`. -/
structure LogState.Syncs (base : ℕ) (s s' : LogState) : Prop where
  behind : s'.pWalFd.Behind base
  sameMem : s.SameMem s'

theorem sqlite3OsSync_synced (hf : flags ≠ 0) (hb : base ≤ s.content.length) :
    wp (sqlite3OsSync flags) (fun _ s' => s.Syncs base s') (fun _ _ => True) s := by
  unfold sqlite3OsSync
  refine wp_ite.2 ⟨fun h0 => absurd h0 hf, fun _ => wp_bind.2 (nextIo_wp fun x io => ?_)⟩
  cases x with
  | none => exact wp_modify.2 ⟨.of_sync hb, rfl, rfl, rfl, rfl⟩
  | some x => exact trivial

theorem sqlite3OsWrite_behind (h : s.pWalFd.Behind base) (hle : base ≤ iOffset) :
    wp (sqlite3OsWrite aData iOffset) (fun _ s' => s.Syncs base s') (fun _ _ => True) s := by
  unfold sqlite3OsWrite
  refine wp_bind.2 (nextIo_wp fun x io => ?_)
  cases x with
  | none => exact wp_modify.2 ⟨h.add hle, rfl, rfl, rfl, rfl⟩
  | some x => exact wp_bind.2 (wp_modify.2 (wp_throw.2 trivial))

/-- A write across the sync point. -/
theorem walWriteToLog_synced (hf : WAL_SYNC_FLAGS flags ≠ 0) (hb : base ≤ s.content.length) (hbi : base ≤ iOffset)
    (hlt : iOffset < iSyncPoint) (hle : iSyncPoint ≤ iOffset + aData.length) :
    wp (walWriteToLog iSyncPoint flags aData iOffset) (fun _ s' => s.Syncs base s') (fun _ _ => True) s := by
  unfold walWriteToLog
  refine wp_ite.2 ⟨fun _ => ?_, fun h => absurd ⟨hlt, hle⟩ h⟩
  refine wp_bind.2 (sqlite3OsWrite_wp.mono (fun _ s₁ ⟨hm₁, hc₁⟩ => ?_) fun _ _ _ => trivial)
  have hb₁ : base ≤ s₁.content.length := by
    rw [hc₁]
    exact hb.trans pwrite_length_le
  refine wp_bind.2 ((sqlite3OsSync_synced hf hb₁).post fun _ s₂ h₂ => ?_)
  have hm := hm₁.trans h₂.sameMem
  refine wp_ite.2 ⟨fun _ => wp_pure.2 ⟨h₂.behind, hm⟩, fun _ => ?_⟩
  exact (sqlite3OsWrite_behind h₂.behind (by omega)).post fun _ s₃ h₃ => ⟨h₃.behind, hm.trans h₃.sameMem⟩

/-- A write that starts behind the sync point. -/
theorem walWriteToLog_behind (h : s.pWalFd.Behind base) (hbi : base ≤ iOffset) (hle : iSyncPoint ≤ iOffset) :
    wp (walWriteToLog iSyncPoint flags aData iOffset) (fun _ s' => s.Syncs base s') (fun _ _ => True) s := by
  unfold walWriteToLog
  exact wp_ite.2 ⟨fun hc => by omega, fun _ => sqlite3OsWrite_behind h hbi⟩

/-- A write that ends before the sync point. -/
theorem walWriteToLog_before (hlt : iOffset + aData.length < iSyncPoint) :
    wp (walWriteToLog iSyncPoint flags aData iOffset)
      (fun _ s' => s.SameMem s' ∧ s.content.length ≤ s'.content.length) (fun _ _ => True) s := by
  unfold walWriteToLog
  refine wp_ite.2 ⟨fun hc => by omega, fun _ => ?_⟩
  refine sqlite3OsWrite_wp.mono (fun _ _ h => ⟨h.1, ?_⟩) fun _ _ _ => trivial
  rw [h.2]
  exact pwrite_length_le

/-- A frame, of which the last byte lies before the sync point or not. -/
theorem walWriteOneFrame_synced (hf : WAL_SYNC_FLAGS flags ≠ 0) (hsalt : s.pWal.hdr.aSalt.length = 8)
    (hp : p.pData.length = cfg.szPage) (hb : base ≤ s.content.length) (hbi : base ≤ iOffset)
    (hlt : iOffset < iSyncPoint) :
    wp (walWriteOneFrame iSyncPoint flags p nTruncate iOffset)
      (fun _ s' => s'.pWal.hdr.aSalt.length = 8 ∧
        (iOffset + (cfg.szPage + WAL_FRAME_HDRSIZE) < iSyncPoint → base ≤ s'.content.length) ∧
        (iSyncPoint ≤ iOffset + (cfg.szPage + WAL_FRAME_HDRSIZE) → s'.pWalFd.Behind base))
      (fun _ _ => True) s := by
  obtain ⟨e, he⟩ : ∃ e, e = walEncodeFrame s.pWal p.pgno nTruncate p.pData := ⟨_, rfl⟩
  obtain ⟨c, hc⟩ := @walEncodeFrame_fst s.pWal nTruncate p.pgno p.pData
  have hlen := @walEncodeFrame_length s.pWal nTruncate hsalt p.pgno p.pData
  rw [← he] at hc hlen
  have hsalt' : ∀ s₁ : LogState, ({ s with pWal := e.1 } : LogState).SameMem s₁ → s₁.pWal.hdr.aSalt.length = 8 := by
    intro s₁ hm
    have hpw : s₁.pWal = e.1 := hm.pWal
    rw [hpw, hc]
    exact hsalt
  have hb₀ : base ≤ ({ s with pWal := e.1 } : LogState).content.length := hb
  unfold walWriteOneFrame encodeFrame
  refine wp_bind.2 (wp_bind.2 (wp_get.2 ?_))
  simp only [← he]
  refine wp_bind.2 (wp_set.2 (wp_pure.2 ?_))
  rcases Nat.lt_or_ge (iOffset + WAL_FRAME_HDRSIZE) iSyncPoint with hhdr | hhdr
  · refine wp_bind.2 ((walWriteToLog_before (by rwa [hlen])).post fun _ s₁ ⟨hm₁, hl₁⟩ => ?_)
    have hb₁ := hb₀.trans hl₁
    rcases Nat.lt_or_ge (iOffset + WAL_FRAME_HDRSIZE + p.pData.length) iSyncPoint with hd | hd
    · exact (walWriteToLog_before hd).post fun _ s₂ ⟨hm₂, hl₂⟩ =>
        ⟨hsalt' s₂ (hm₁.trans hm₂), fun _ => hb₁.trans hl₂, fun h => by omega⟩
    · exact (walWriteToLog_synced hf hb₁ (by omega) hhdr hd).post fun _ s₂ h₂ =>
        ⟨hsalt' s₂ (hm₁.trans h₂.sameMem), fun h => by omega, fun _ => h₂.behind⟩
  · refine wp_bind.2 ((walWriteToLog_synced hf hb₀ hbi hlt (by rwa [hlen])).post fun _ s₁ h₁ => ?_)
    exact (walWriteToLog_behind h₁.behind (by omega) hhdr).post fun _ s₂ h₂ =>
      ⟨hsalt' s₂ (h₁.sameMem.trans h₂.sameMem), fun h => by omega, fun _ => h₂.behind⟩

/-- Repeating the last frame up to the sync point, with enough rounds, passes it. -/
theorem padFrames_synced (hf : WAL_SYNC_FLAGS flags ≠ 0) (hp : p.pData.length = cfg.szPage) :
    ∀ (n iOffset : ℕ) (s : LogState), s.pWal.hdr.aSalt.length = 8 → base ≤ s.content.length → base ≤ iOffset →
      iOffset < iSyncPoint → iSyncPoint ≤ iOffset + n →
      wp (padFrames cfg iSyncPoint flags nTruncate p n iOffset) (fun _ s' => s'.pWalFd.Behind base)
        (fun _ _ => True) s
  | 0, _, _, _, _, _, hlt, hn => by omega
  | n + 1, iOffset, s, hsalt, hb, hbi, hlt, hn => by
    unfold padFrames
    refine wp_ite.2 ⟨fun _ => ?_, fun h => absurd hlt h⟩
    refine wp_bind.2 ((walWriteOneFrame_synced hf hsalt hp hb hbi hlt).post fun _ s₁ ⟨hsalt₁, hb₁, hb₁'⟩ => ?_)
    by_cases hnext : iOffset + (cfg.szPage + WAL_FRAME_HDRSIZE) < iSyncPoint
    · have hrec := padFrames_synced hf hp n _ s₁ hsalt₁ (hb₁ hnext) (by omega) hnext (by unfold WAL_FRAME_HDRSIZE; omega)
      exact wp_bind.2 (hrec.post fun _ s₂ hb₂ => wp_pure.2 hb₂)
    · have hstop : padFrames cfg iSyncPoint flags nTruncate p n (iOffset + (cfg.szPage + WAL_FRAME_HDRSIZE))
          = pure [] := by
        cases n with
        | zero => rfl
        | succ n => rw [padFrames, if_neg hnext]
      rw [hstop]
      exact wp_bind.2 (wp_pure.2 (wp_pure.2 (hb₁' (by omega))))

/-- A synced commit leaves nothing pending before the end of its frames. -/
theorem syncCommit_synced (hf : WAL_SYNC_FLAGS flags ≠ 0) (hsalt : s.pWal.hdr.aSalt.length = 8)
    (hp : p.pData.length = cfg.szPage) (hsec : 0 < cfg.sectorSize) (hb : iOffset ≤ s.content.length) :
    wp (syncCommit cfg nTruncate true flags (some p) iOffset) (fun _ s' => s'.pWalFd.Behind iOffset)
      (fun _ _ => True) s := by
  have hsync : wp (syncWhen true (WAL_SYNC_FLAGS flags)) (fun _ s' => s.Syncs iOffset s') (fun _ _ => True) s :=
    wp_ite.2 ⟨fun _ => sqlite3OsSync_synced hf hb, fun h => absurd rfl h⟩
  unfold syncCommit
  refine wp_ite.2 ⟨fun _ => ?_, fun h => absurd ⟨rfl, hf⟩ h⟩
  simp only [padCommit]
  split_ifs with hpad
  · obtain ⟨x, hx⟩ : ∃ x, x = (iOffset + cfg.sectorSize - 1) / cfg.sectorSize * cfg.sectorSize := ⟨_, rfl⟩
    have hge : iOffset ≤ x := by
      have h1 := Nat.div_add_mod (iOffset + cfg.sectorSize - 1) cfg.sectorSize
      have h2 := Nat.mod_lt (iOffset + cfg.sectorSize - 1) hsec
      rw [Nat.mul_comm] at h1
      omega
    rw [← hx]
    rcases Nat.lt_or_eq_of_le hge with hlt | heq
    · refine wp_bind.2 ((padFrames_synced hf hp _ _ s hsalt hb le_rfl hlt (by omega)).post fun pages s₁ hb₁ => ?_)
      have hno : decide (cfg.padToSectorBoundary = false ∨ x = iOffset) = false := by
        rw [decide_eq_false_iff_not]
        rintro (h | h)
        · exact absurd (hpad.symm.trans h) (by decide)
        · omega
      rw [hno]
      exact wp_bind.2 (wp_ite.2 ⟨fun h => absurd h (by decide), fun _ => wp_pure.2 (wp_pure.2 hb₁)⟩)
    · rw [← heq, Nat.sub_self]
      refine wp_bind.2 (wp_pure.2 ?_)
      rw [decide_eq_true (.inr rfl)]
      exact wp_bind.2 (hsync.post fun _ s₁ h₁ => wp_pure.2 h₁.behind)
  · refine wp_bind.2 (wp_pure.2 ?_)
    rw [decide_eq_true (.inl (by simpa using hpad))]
    exact wp_bind.2 (hsync.post fun _ s₁ h₁ => wp_pure.2 h₁.behind)

end Synced

end Btreelite
