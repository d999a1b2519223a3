import Btreelite.WalPending
import Btreelite.WalRun

/-!
# The end of a commit

Padding, the wal-index and the headers, and with them the whole of `walFrames`: it keeps what the
handle knows of the log, and when it fails what the shared header says of it.
-/

namespace Btreelite

open Prog ByteFile LogM

section Pad

variable {cfg : LogCfg} {s s' : LogState} {log : List PgHdr} {nTruncate : ℕ}

theorem LogState.Open.of_sameMem (h : s.Open cfg log) (hm : s.SameMem s')
    (hc : s'.content = s.content) : s'.Open cfg log := by
  have hw := h.written
  rw [← hc, ← hm.pWal] at hw
  refine ⟨hw, ?_, ?_, ?_, ?_, ?_⟩
  · rw [hm.pWal]
    exact h.szPage
  · rw [hm.live, hm.pWal]
    exact h.live
  · rw [hm.pWal]
    exact h.mxFrame
  · rw [hm.live, hm.pWal]
    exact h.iReCksum
  · rw [hm.apWiData, hm.pWal]
    exact h.index

/-- What padding and syncing leave: copies of the last page behind the log, the last of them with
the commit size. -/
structure LogState.Padded (cfg : LogCfg) (s : LogState) (log : List PgHdr) (nTruncate : ℕ)
    (pages : List PgHdr) (s' : LogState) : Prop where
  writes : s.Writes s'
  opens : s'.Open cfg (log ++ pages)
  commit : frameNTruncate s'.content (log ++ pages).length = nTruncate
  iReCksum : s'.pWal.iReCksum = s.pWal.iReCksum
  frames : SameFrames log.length s.content s'.content

theorem LogState.Padded.nil (hs : s.Open cfg log)
    (hc : frameNTruncate s.content log.length = nTruncate) (hm : s.SameMem s')
    (hc' : s'.content = s.content) : s.Padded cfg log nTruncate [] s' := by
  refine ⟨.of_sameMem hm hc', ?_, ?_, ?_, ?_⟩
  · rw [List.append_nil]
    exact hs.of_sameMem hm hc'
  · rwa [List.append_nil, hc']
  · rw [hm.pWal]
  · rw [hc']
    exact .refl

theorem LogState.Padded.sameMem {pages : List PgHdr} {s'' : LogState}
    (h : s.Padded cfg log nTruncate pages s') (hm : s'.SameMem s'')
    (hc : s''.content = s'.content) : s.Padded cfg log nTruncate pages s'' := by
  refine ⟨h.writes.trans (.of_sameMem hm hc), h.opens.of_sameMem hm hc, ?_, ?_, ?_⟩
  · rw [hc]
    exact h.commit
  · rw [hm.pWal]
    exact h.iReCksum
  · rw [hc]
    exact h.frames

theorem padFrames_wp {iSyncPoint syncFlags : ℕ} {pLast : PgHdr} (hn : nTruncate < 2 ^ 32)
    (hp : pLast.Fits cfg.szPage) (n : ℕ) : ∀ (log : List PgHdr) (s : LogState), s.Open cfg log →
      frameNTruncate s.content log.length = nTruncate →
      wp (padFrames cfg iSyncPoint syncFlags nTruncate pLast n
          (walFrameOffset (log.length + 1) cfg.szPage))
        (fun pages s' => s.Padded cfg log nTruncate pages s' ∧ ∀ q ∈ pages, q = pLast)
        (fun _ s' => s.Writes s') s := by
  induction n with
  | zero =>
    intro log s hs hc
    unfold padFrames
    exact wp_pure.2 ⟨.nil hs hc ⟨rfl, rfl, rfl, rfl⟩ rfl, fun _ h => absurd h (by simp)⟩
  | succ n ih =>
    intro log s hs hc
    unfold padFrames
    refine wp_ite.2 ⟨fun _ => ?_, fun _ => wp_pure.2 ⟨.nil hs hc ⟨rfl, rfl, rfl, rfl⟩ rfl,
      fun _ h => absurd h (by simp)⟩⟩
    have hps := hs.pageSize
    have hmx := hs.mxFrame
    have hlive := hs.live
    have hp' := hp
    rw [← hps] at hp'
    refine wp_bind.2 ((walWriteOneFrame_wp hs.written hp' hn (by omega) (by rw [hps])).mono
      (fun _ s₁ hone => ?_) fun _ s₁ hw₁ => hw₁)
    obtain ⟨hw₁, hwritten, hsame, hnt₁, hre⟩ := hone
    have hs₁ := hs.append hw₁ hwritten hre
    have hl : (log ++ [pLast]).length = log.length + 1 := List.length_append
    have hrec := ih (log ++ [pLast]) s₁ hs₁ (by rwa [hl])
    rw [hl, walFrameOffset_succ (Nat.succ_pos _)] at hrec
    refine wp_bind.2 (hrec.mono (fun pages s₂ hpad => ?_) fun _ s₂ hw₂ => hw₁.trans hw₂)
    obtain ⟨h₂, hall⟩ := hpad
    have hassoc : log ++ [pLast] ++ pages = log ++ pLast :: pages := by simp
    have hopen := h₂.opens
    have hcommit := h₂.commit
    rw [hassoc] at hopen hcommit
    have hframes := hsame.trans (h₂.frames.mono (by omega))
    refine wp_pure.2 ⟨⟨hw₁.trans h₂.writes, hopen, hcommit, h₂.iReCksum.trans hre, hframes⟩, fun q hq => ?_⟩
    rcases List.mem_cons.1 hq with rfl | hq
    · rfl
    · exact hall q hq

/-- The end of a commit that is synced. -/
theorem syncCommit_wp {sync_flags : ℕ} {pLast : Option PgHdr} (hn : nTruncate < 2 ^ 32)
    (hp : ∀ p ∈ pLast, p.Fits cfg.szPage) (hs : s.Open cfg log)
    (hc : frameNTruncate s.content log.length = nTruncate) :
    wp (syncCommit cfg nTruncate true sync_flags pLast
        (walFrameOffset (log.length + 1) cfg.szPage))
      (fun pages s' => s.Padded cfg log nTruncate pages s' ∧ ∀ q ∈ pages, pLast = some q)
      (fun _ s' => s.Writes s') s := by
  have hnil : wp (pure [] : LogM (List PgHdr))
      (fun pages s' => s.Padded cfg log nTruncate pages s' ∧ ∀ q ∈ pages, pLast = some q)
      (fun _ s' => s.Writes s') s :=
    wp_pure.2 ⟨.nil hs hc ⟨rfl, rfl, rfl, rfl⟩ rfl, fun _ h => absurd h (by simp)⟩
  refine wp_ite.2 ⟨fun _ => ?_, fun _ => hnil⟩
  simp only []
  refine wp_bind.2 (wp.mono (Q := fun pages s' => s.Padded cfg log nTruncate pages s' ∧
    ∀ q ∈ pages, pLast = some q) ?_ (fun pages s₁ ⟨h₁, hall⟩ => ?_) fun _ _ => id)
  · cases pLast with
    | none => exact hnil
    | some p =>
      refine wp_ite.2 ⟨fun _ => ?_, fun _ => hnil⟩
      refine (padFrames_wp hn (hp p rfl) _ log s hs hc).post fun pages s₁ ⟨h₁, hall⟩ => ⟨h₁, ?_⟩
      intro q hq
      rw [hall q hq]
  · exact wp_bind.2 (syncWhen_wp.mono
      (fun _ s₂ ⟨hm₂, hc₂, _⟩ => wp_pure.2 ⟨h₁.sameMem hm₂ hc₂, hall⟩)
      fun _ s₂ ⟨hm₂, hc₂⟩ => h₁.writes.trans (.of_sameMem hm₂ hc₂))

end Pad

/-! ## The wal-index -/

section Index

variable {s s' s'' : LogState}

/-- Nothing but the wal-index and the failures to come differs. -/
structure LogState.OnlyIndex (s s' : LogState) : Prop where
  pWalFd : s'.pWalFd = s.pWalFd
  live : s'.live = s.live
  nBackfill : s'.nBackfill = s.nBackfill
  pWal : s'.pWal = s.pWal

theorem LogState.OnlyIndex.trans (h : s.OnlyIndex s') (h' : s'.OnlyIndex s'') : s.OnlyIndex s'' :=
  ⟨h'.1.trans h.1, h'.2.trans h.2, h'.3.trans h.3, h'.4.trans h.4⟩

theorem LogState.OnlyIndex.content (h : s.OnlyIndex s') : s'.content = s.content := by
  rw [LogState.content, h.pWalFd, LogState.content]

theorem onShm_wp {α : Type} {m : ShmM α} {I : WalIndex → Prop} {Q : α → WalIndex → Prop}
    (h : Stays I m s.apWiData Q) :
    wp (onShm m) (fun a s' => s.OnlyIndex s' ∧ Q a s'.apWiData) (fun _ _ => False) s :=
  wp_zoom.2 ((h []).mono (fun _ _ hq => ⟨⟨rfl, rfl, rfl, rfl⟩, hq.1⟩) fun _ _ => id)

theorem sqlite3_malloc_onlyIndex : wp sqlite3_malloc
    (fun _ s' => s.OnlyIndex s' ∧ s'.apWiData = s.apWiData)
    (fun _ s' => s.OnlyIndex s' ∧ s'.apWiData = s.apWiData) s := by
  unfold sqlite3_malloc
  refine wp_bind.2 (nextIo_wp fun x io => ?_)
  cases x with
  | none => exact ⟨⟨rfl, rfl, rfl, rfl⟩, rfl⟩
  | some x => exact ⟨⟨rfl, rfl, rfl, rfl⟩, rfl⟩

/-- The entries for new frames. When it fails, the frames before them are still indexed. -/
theorem indexFrames_wp {c : ℕ} (pages : List PgHdr) : ∀ (l : List ℕ) (s : LogState), c ≤ l.length →
    Indexes s.apWiData l → (s.pWal.hdr.mxFrame = l.length ∨ Trimmed s.apWiData l) →
    (∀ p ∈ pages, p.pgno ≠ 0) →
    wp (indexFrames l.length pages)
      (fun _ s' => s.OnlyIndex s' ∧ Indexes s'.apWiData (l ++ pages.map PgHdr.pgno))
      (fun _ s' => s.OnlyIndex s' ∧ Indexes s'.apWiData (l.take c)) s := by
  induction pages with
  | nil =>
    intro l s _ hi _ _
    unfold indexFrames
    refine wp_pure.2 ⟨⟨rfl, rfl, rfl, rfl⟩, ?_⟩
    rwa [List.map_nil, List.append_nil]
  | cons p pages ih =>
    intro l s hc hi hm hp
    unfold indexFrames
    refine wp_bind.2 (sqlite3_malloc_onlyIndex.mono (fun _ s₁ hs₁ => ?_)
      fun _ s₁ hs₁ => ⟨hs₁.1, by rw [hs₁.2]; exact hi.take c⟩)
    obtain ⟨h₁, hw₁⟩ := hs₁
    refine wp_bind.2 (wp_get.2 ?_)
    rw [h₁.pWal]
    have happ := walIndexAppend_stays hi hm (hp p (List.mem_cons_self ..))
    rw [← hw₁] at happ
    refine wp_bind.2 ((onShm_wp happ).mono (fun _ s₂ hs₂ => ?_) fun _ _ => False.elim)
    obtain ⟨h₂, hi₂, ht₂⟩ := hs₂
    have hl : (l ++ [p.pgno]).length = l.length + 1 := List.length_append
    have hrec := ih (l ++ [p.pgno]) s₂ (by omega) hi₂ (.inr ht₂)
      fun q hq => hp q (List.mem_cons_of_mem p hq)
    rw [hl, List.take_append_of_le_length hc, List.append_assoc] at hrec
    have h₁₂ := h₁.trans h₂
    exact hrec.mono (fun _ s₃ h₃ => ⟨h₁₂.trans h₃.1, h₃.2⟩) fun _ s₃ h₃ => ⟨h₁₂.trans h₃.1, h₃.2⟩

end Index

/-! ## The whole of `walFrames` -/

/-- The page size is one that a header may have. -/
structure LogCfg.Ok (cfg : LogCfg) : Prop where
  pow : cfg.szPage &&& (cfg.szPage - 1) = 0
  small : cfg.szPage ≤ SQLITE_MAX_PAGE_SIZE
  large : 512 ≤ cfg.szPage

structure RestartAnswer.Ok (answer : RestartAnswer) : Prop where
  salt1 : answer.salt1.length = 4
  aSalt : answer.aSalt.length = 8
  mxI : ∀ mxI, answer.beginRead = .ok mxI → mxI ≠ 0

/-- What holds whatever fails: the shared header tells the truth about the file. -/
structure LogState.Safe (s : LogState) : Prop where
  committed : Committed s.content s.live
  index : Indexes s.apWiData (walPgnos s.content s.live.mxFrame)
  salt : s.live.aSalt.length = 8

/-- What holds between the calls of a writer. -/
structure LogState.Writing (s : LogState) : Prop extends LogState.Safe s where
  live : s.live.mxFrame ≤ s.pWal.hdr.mxFrame
  written : s.pWal.hdr.mxFrame ≠ 0 →
    Written s.content s.pWal (logPages s.content s.pWal.hdr.mxFrame)
  iReCksum : s.pWal.iReCksum ≠ 0 →
    s.live.mxFrame < s.pWal.iReCksum ∧ s.pWal.iReCksum ≤ s.pWal.hdr.mxFrame
  indexed : Indexes s.apWiData (walPgnos s.content s.pWal.hdr.mxFrame)
  hdrSalt : s.pWal.hdr.aSalt.length = 8
  nCkpt : s.pWal.nCkpt < 2 ^ 32
  fresh : s.pWal.readLock = 0 → s.pWal.iReCksum = 0 ∧ s.pWal.hdr = s.live

section Whole

variable {cfg : LogCfg} {s s' : LogState} {log : List PgHdr} {nTruncate sync_flags : ℕ}
  {answer : RestartAnswer} {isCommit : Bool} {pList : List PgHdr}

theorem walPgnos_zero {f : List UInt8} : walPgnos f 0 = [] := rfl

/-- An empty log is safe. -/
theorem LogState.Safe.of_zero (h0 : s.live.mxFrame = 0) (hs : s.live.aSalt.length = 8) : s.Safe where
  committed := fun h => absurd h0 h
  index := by
    rw [h0]
    exact Indexes.nil _
  salt := hs

/-- What `walFrames` writes behind the committed frames does not matter. -/
theorem LogState.Safe.of_writes (h : s.Safe) (hw : s.Writes s') : s'.Safe where
  committed := by
    rw [hw.live]
    exact h.committed.same hw.frames
  index := by
    rw [hw.live, hw.apWiData, ← logPages_pgnos, hw.frames.sameLog.logPages, logPages_pgnos]
    exact h.index
  salt := by
    rw [hw.live]
    exact h.salt

/-- The frames that the shared header counts are still there, unless the log was restarted. -/
def LogState.KeepsLive (s s' : LogState) : Prop :=
  s'.live.mxFrame ≠ 0 → s'.live = s.live ∧ SameFrames s.live.mxFrame s.content s'.content

theorem LogState.KeepsLive.of_eq (hl : s'.live = s.live) (hc : s'.content = s.content) : s.KeepsLive s' :=
  fun _ => ⟨hl, by
    rw [hc]
    exact .refl⟩

theorem LogState.KeepsLive.of_zero (h : s'.live.mxFrame = 0) : s.KeepsLive s' := fun h0 => absurd h h0

theorem LogState.KeepsLive.trans {s'' : LogState} (h : s.KeepsLive s') (h' : s'.KeepsLive s'') : s.KeepsLive s'' := by
  intro h0
  obtain ⟨hl', hf'⟩ := h' h0
  obtain ⟨hl, hf⟩ := h (by rwa [← hl'])
  rw [hl] at hf'
  exact ⟨hl'.trans hl, hf.trans hf'⟩

theorem LogState.Writes.keepsLive (h : s.Writes s') : s.KeepsLive s' := fun _ => ⟨h.live, h.frames⟩

/-- What was synced of the frames that the shared header counts is not written again. -/
def LogState.KeepsSynced (s s' : LogState) : Prop :=
  s'.live.mxFrame ≠ 0 → ∀ base ≤ walFrameOffset (s.live.mxFrame + 1) (walPageSize s.content),
    s.pWalFd.Behind base → s'.pWalFd.Behind base

theorem LogState.KeepsSynced.of_eq (h : s'.pWalFd = s.pWalFd) : s.KeepsSynced s' := fun _ _ _ hb => by rwa [h]

theorem WalIndexHdr.restart_salt {hdr : WalIndexHdr} {salt1 : List UInt8} (h : salt1.length = 4) :
    (hdr.restart salt1).aSalt.length = 8 := by
  simp only [WalIndexHdr.restart, List.length_append, put4byte_length, h]

/-- The log was restarted. -/
structure LogState.Restarted (s s' : LogState) : Prop where
  nBackfill : 0 < s.nBackfill
  live : s'.live.mxFrame = 0
  hdr : s'.pWal.hdr = s'.live
  nCkpt : s'.pWal.nCkpt = (s.pWal.nCkpt + 1) % 2 ^ 32

/-- The log goes on. -/
structure LogState.Continued (s s' : LogState) : Prop where
  live : s'.live = s.live
  hdr : s'.pWal.hdr = s.pWal.hdr
  nCkpt : s'.pWal.nCkpt = s.pWal.nCkpt

theorem LogState.Continued.refl : s.Continued s := ⟨rfl, rfl, rfl⟩

theorem tryRestartHdr_wp (hs : s.Writing) (ha : answer.Ok) (h0 : s.pWal.readLock = 0) :
    wp (tryRestartHdr answer)
      (fun _ s' => s'.Writing ∧ s'.pWalFd = s.pWalFd ∧ s'.pWal.iReCksum = 0 ∧
        (s.Continued s' ∨ s.Restarted s'))
      (fun _ s' => s'.Safe ∧ s.KeepsLive s' ∧ s'.pWalFd = s.pWalFd) s := by
  obtain ⟨hre, -⟩ := hs.fresh h0
  unfold tryRestartHdr
  refine wp_bind.2 (wp_get.2 (wp_ite.2 ⟨fun hb => ?_, fun _ => wp_pure.2 ⟨hs, rfl, hre, .inl .refl⟩⟩))
  cases answer.lock with
  | ok =>
    have hsalt := @WalIndexHdr.restart_salt s.pWal.hdr _ ha.salt1
    refine wp_modify.2 ⟨?_, rfl, hre, .inr ⟨hb, rfl, rfl, rfl⟩⟩
    exact
      { toSafe := .of_zero rfl hsalt
        live := le_rfl
        written := fun h => absurd rfl h
        iReCksum := fun h => absurd hre h
        indexed := Indexes.nil _
        hdrSalt := hsalt
        nCkpt := Nat.mod_lt _ (by decide)
        fresh := fun _ => ⟨hre, rfl⟩ }
  | busy => exact wp_pure.2 ⟨hs, rfl, hre, .inl .refl⟩
  | fail rc => exact wp_throw.2 ⟨hs.toSafe, .of_eq rfl rfl, rfl⟩

theorem rebeginRead_wp (hs : s.Writing) (ha : answer.Ok) :
    wp (rebeginRead answer.beginRead)
      (fun _ s' => s'.Writing ∧ s'.pWalFd = s.pWalFd ∧ s'.pWal.readLock ≠ 0 ∧
        s'.pWal.iReCksum = s.pWal.iReCksum ∧ s.Continued s')
      (fun _ s' => s'.Safe ∧ s.KeepsLive s' ∧ s'.pWalFd = s.pWalFd) s := by
  unfold rebeginRead
  refine wp_bind.2 (wp_modify.2 ?_)
  cases hb : answer.beginRead with
  | error rc => exact ⟨⟨hs.committed, hs.index, hs.salt⟩, .of_eq rfl rfl, rfl⟩
  | ok mxI =>
    have hne : (mxI : ℤ) ≠ 0 := by
      have := ha.mxI mxI hb
      omega
    refine wp_modify.2 ⟨?_, rfl, hne, rfl, rfl, rfl, rfl⟩
    exact
      { toSafe := ⟨hs.committed, hs.index, hs.salt⟩
        live := hs.live
        written := fun h => ⟨(hs.written h).toLogHolds, (hs.written h).chain, (hs.written h).before⟩
        iReCksum := hs.iReCksum
        indexed := hs.indexed
        hdrSalt := hs.hdrSalt
        nCkpt := hs.nCkpt
        fresh := fun h => absurd h hne }

/-- After `walRestartLog` the writer is at the end of its log or at the start of a new one. -/
theorem walRestartLog_wp (hs : s.Writing) (ha : answer.Ok) :
    wp (walRestartLog answer)
      (fun _ s' => s'.Writing ∧ s'.pWalFd = s.pWalFd ∧ s'.pWal.readLock ≠ 0 ∧
        s'.pWal.iReCksum = s.pWal.iReCksum ∧
        (s.Continued s' ∨ s.pWal.readLock = 0 ∧ s.Restarted s'))
      (fun _ s' => s'.Safe ∧ s.KeepsLive s' ∧ s'.pWalFd = s.pWalFd) s := by
  unfold walRestartLog
  refine wp_bind.2 (wp_get.2 (wp_ite.2 ⟨fun h0 => ?_, fun h0 =>
    wp_pure.2 ⟨hs, rfl, h0, rfl, .inl .refl⟩⟩))
  obtain ⟨hre, -⟩ := hs.fresh h0
  refine wp_bind.2 ((tryRestartHdr_wp hs ha h0).post fun _ s₁ ⟨hs₁, hc₁, hre₁, h₁⟩ => ?_)
  have hkeep : s.KeepsLive s₁ := h₁.elim (fun h => .of_eq h.live (congrArg OsFile.content hc₁))
    fun h => .of_zero h.live
  refine (rebeginRead_wp hs₁ ha).mono (fun _ s₂ ⟨hs₂, hc₂, hr₂, hre₂, h₂⟩ => ?_)
    fun _ s₂ ⟨hs₂, hk₂, hfd₂⟩ => ⟨hs₂, hkeep.trans hk₂, hfd₂.trans hc₁⟩
  refine ⟨hs₂, hc₂.trans hc₁, hr₂, by rw [hre₂, hre₁, hre], ?_⟩
  rcases h₁ with h₁ | h₁
  · exact .inl ⟨h₂.live.trans h₁.live, h₂.hdr.trans h₁.hdr, h₂.nCkpt.trans h₁.nCkpt⟩
  · refine .inr ⟨h0, h₁.nBackfill, ?_, ?_, h₂.nCkpt.trans h₁.nCkpt⟩
    · rw [h₂.live]
      exact h₁.live
    · rw [h₂.hdr, h₂.live]
      exact h₁.hdr

/-! ### The header of the log -/

section Header

variable {f : List UInt8} {nCkpt : ℕ} {aSalt : List UInt8} {pWal : Wal}

theorem walHdrStart_length (hs : aSalt.length = 8) : (walHdrStart cfg nCkpt aSalt).length = 24 := by
  simp only [walHdrStart, List.length_append, put4byte_length, hs]

theorem aWalHdr_length (hs : aSalt.length = 8) : (aWalHdr cfg nCkpt aSalt).length = WAL_HDRSIZE := by
  simp only [aWalHdr, List.length_append, put4byte_length, walHdrStart_length hs, WAL_HDRSIZE]

/-- The magic number gives the byte order of the checksums. -/
theorem magic_bits (b : Bool) : (WAL_MAGIC ||| b.toNat) &&& 0xFFFFFFFE = WAL_MAGIC ∧
    decide ((WAL_MAGIC ||| b.toNat) % 2 = 1) = b ∧ WAL_MAGIC ||| b.toNat < 2 ^ 32 := by
  cases b <;> decide

theorem headerOf_aWalHdr (hc : cfg.Ok) (hs : aSalt.length = 8) (hlen : WAL_HDRSIZE ≤ f.length)
    (ht : f.take WAL_HDRSIZE = aWalHdr cfg nCkpt aSalt) (hsalt : pWal.hdr.aSalt = aSalt)
    (hb : pWal.hdr.bigEndCksum = cfg.bigEndian) (hz : pWal.szPage = cfg.szPage) :
    HeaderOf f pWal ∧ cumCksum f 0 = walHdrCksum cfg nCkpt aSalt := by
  obtain ⟨hm1, hm2, hm3⟩ := magic_bits cfg.bigEndian
  have hsmall := hc.small
  unfold SQLITE_MAX_PAGE_SIZE at hsmall
  have hflat : f.take WAL_HDRSIZE = put4byte (WAL_MAGIC ||| cfg.bigEndian.toNat)
      ++ (put4byte WAL_MAX_VERSION ++ (put4byte cfg.szPage ++ (put4byte nCkpt ++ (aSalt
        ++ (put4byte (walHdrCksum cfg nCkpt aSalt).1
          ++ put4byte (walHdrCksum cfg nCkpt aSalt).2))))) := by
    rw [ht]
    simp only [aWalHdr, walHdrStart, List.append_assoc]
  have hmagic : get4byte (f.take WAL_HDRSIZE) = WAL_MAGIC ||| cfg.bigEndian.toNat := by
    rw [hflat, get4byte_put4byte hm3]
  have hdrop : ∀ (v n : ℕ) (l : List UInt8), (put4byte v ++ l).drop (4 + n) = l.drop n := by
    intro v n l
    rw [← List.drop_drop, List.drop_left' (put4byte_length v)]
  have hver : get4byte ((f.take WAL_HDRSIZE).drop 4) = WAL_MAX_VERSION := by
    rw [hflat, hdrop _ 0, List.drop_zero, get4byte_put4byte (by decide)]
  have hps : walPageSize f = cfg.szPage := by
    rw [walPageSize, hflat, hdrop _ 4, hdrop _ 0, List.drop_zero, get4byte_put4byte (by omega)]
  have hbe : walBigEnd f = cfg.bigEndian := by rw [walBigEnd, hmagic, hm2]
  have h24 := @walHdrStart_length cfg nCkpt aSalt hs
  have hck : cumCksum f 0 = walHdrCksum cfg nCkpt aSalt := by
    rw [cumCksum, hbe, ht, aWalHdr, List.take_left' h24, walHdrCksum]
  have hlt := @cumCksum_lt f 0
  rw [hck] at hlt
  refine ⟨⟨hlen, ?_, hver, ?_, ?_, ?_, ?_, ?_, ?_, ?_⟩, hck⟩
  · rw [hmagic, hm1]
  · rw [hps]
    exact hc.pow
  · rw [hps]
    exact hc.small
  · rw [hps]
    exact hc.large
  · have h28 : (walHdrStart cfg nCkpt aSalt ++ put4byte (walHdrCksum cfg nCkpt aSalt).1).length = 28 := by
      rw [List.length_append, h24, put4byte_length]
    have hd24 : (f.take WAL_HDRSIZE).drop 24 = put4byte (walHdrCksum cfg nCkpt aSalt).1
        ++ put4byte (walHdrCksum cfg nCkpt aSalt).2 := by
      rw [ht, aWalHdr]
      exact List.drop_left' h24
    have hd28 : (f.take WAL_HDRSIZE).drop 28 = put4byte (walHdrCksum cfg nCkpt aSalt).2 := by
      rw [ht, aWalHdr, ← List.append_assoc]
      exact List.drop_left' h28
    have hg := get4byte_put4byte hlt.2 []
    rw [List.append_nil] at hg
    rw [hck, hd24, hd28, get4byte_put4byte hlt.1, hg]
  · rw [walSalt, hflat, hdrop _ 12, hdrop _ 8, hdrop _ 4, hdrop _ 0, List.drop_zero,
      List.take_left' hs, hsalt]
  · rw [hbe, hb]
  · rw [hps, hz]

end Header

/-- After the header the handle is ready to write frames, unless the page size differs. -/
theorem writeWalHdr_wp (hc : cfg.Ok) (ha : answer.Ok) (hs : s.Writing) :
    wp (writeWalHdr cfg answer sync_flags)
      (fun _ s' => s.pWal.hdr.mxFrame ≠ 0 ∧ s' = s ∨
        s'.pWal.hdr.mxFrame = 0 ∧ s'.live = s.live ∧ s'.pWal.nCkpt = s.pWal.nCkpt ∧
          s'.pWal.readLock = s.pWal.readLock ∧ s.pWal.hdr.mxFrame = 0 ∧ s'.Open cfg [])
      (fun _ s' => s'.Safe ∧ s.KeepsLive s' ∧ s.live.mxFrame = 0) s := by
  unfold writeWalHdr
  refine wp_bind.2 (wp_get.2 (wp_ite.2 ⟨fun h0 => ?_, fun h0 => wp_pure.2 (.inl ⟨h0, rfl⟩)⟩))
  have hl0 : s.live.mxFrame = 0 := by
    have := hs.live
    omega
  obtain ⟨aSalt, hsalt⟩ : ∃ aSalt, aSalt
    = if s.pWal.nCkpt = 0 then answer.aSalt else s.pWal.hdr.aSalt := ⟨_, rfl⟩
  have hlen : aSalt.length = 8 := by
    rw [hsalt]
    split_ifs
    · exact ha.aSalt
    · exact hs.hdrSalt
  simp only [← hsalt]
  have hpl := @aWalHdr_length cfg s.pWal.nCkpt aSalt hlen
  have hsafe : ∀ s₁ : LogState, s₁.live = s.live → s₁.Safe ∧ s.KeepsLive s₁ ∧ s.live.mxFrame = 0 := fun s₁ h₁ =>
    ⟨.of_zero (by rw [h₁, hl0]) (by rw [h₁]; exact hs.salt), .of_zero (by rw [h₁, hl0]), hl0⟩
  refine wp_bind.2 (wp_set.2 (wp_bind.2 ?_))
  refine sqlite3OsWrite_wp.mono (fun _ s₁ ⟨hm₁, hc₁⟩ => ?_) fun _ s₁ ⟨hm₁, _⟩ => hsafe s₁ hm₁.live
  refine syncWhen_wp.mono (fun _ s₂ ⟨hm₂, hc₂, _⟩ => .inr ?_) fun _ s₂ ⟨hm₂, _⟩ =>
    hsafe s₂ (hm₁.trans hm₂).live
  have hm := hm₁.trans hm₂
  rw [hc₁] at hc₂
  have hsize : WAL_HDRSIZE ≤ s₂.content.length := by
    rw [hc₂, pwrite_length (Nat.zero_le _), hpl, Nat.zero_add]
    exact Nat.le_max_right ..
  have htake : s₂.content.take WAL_HDRSIZE = aWalHdr cfg s.pWal.nCkpt aSalt := by
    rw [hc₂, ← hpl]
    exact @pread_pwrite_self _ 0 s.content (aWalHdr cfg s.pWal.nCkpt aSalt) 0 (Nat.zero_le _)
  have hp : s₂.pWal = { s.pWal with
      szPage := cfg.szPage
      hdr := { s.pWal.hdr with
        aSalt
        bigEndCksum := cfg.bigEndian
        aFrameCksum := walHdrCksum cfg s.pWal.nCkpt aSalt } } := hm.pWal
  obtain ⟨hheader, hck⟩ := @headerOf_aWalHdr cfg s₂.content s.pWal.nCkpt aSalt s₂.pWal.toWal hc hlen
    hsize htake (by rw [hp]) (by rw [hp]) (by rw [hp])
  have hmx : s₂.pWal.hdr.mxFrame = 0 := by
    rw [hp]
    exact h0
  have hre : s₂.pWal.iReCksum = 0 := by
    rw [hp]
    by_contra hne
    have := hs.iReCksum hne
    omega
  refine ⟨hmx, hm.live, by rw [hp], by rw [hp], h0, ?_⟩
  exact
    { written :=
        { header := hheader
          cover := by
            rw [List.length_nil, walFrameOffset_next, Nat.zero_mul]
            exact hsize
          pages := rfl
          pgno := fun _ h => absurd h (by simp)
          chain := fun _ => ⟨fun i hi hle => absurd hle (Nat.not_le.2 hi), by rw [hp]; exact hck.symm⟩
          before := fun h => absurd hre h }
      szPage := by rw [hp]
      live := by
        rw [hm.live]
        exact hl0.le.trans (Nat.zero_le _)
      mxFrame := hmx.le
      iReCksum := fun h => absurd hre h
      index := by
        rw [List.map_nil, List.take_nil]
        exact Indexes.nil _ }

/-! ### The result -/

/-- A writer at the end of its log, which uses the page size of the pager. -/
theorem LogState.Writing.opens (hs : s.Writing) (h0 : s.pWal.hdr.mxFrame ≠ 0)
    (hz : s.pWal.szPage = cfg.szPage) :
    s.Open cfg (logPages s.content s.pWal.hdr.mxFrame) where
  written := hs.written h0
  szPage := hz
  live := hs.live
  mxFrame := by rw [logPages_length]
  iReCksum := hs.iReCksum
  index := by
    rw [List.take_of_length_le (by rw [List.length_map, logPages_length]), logPages_pgnos]
    exact hs.indexed

/-- What the end of `walFrames` starts from: all frames are in the file and in the wal-index. -/
structure LogState.Finished (cfg : LogCfg) (s : LogState) (log : List PgHdr) : Prop where
  written : Written s.content s.pWal log
  szPage : s.pWal.szPage = cfg.szPage
  live : s.live.mxFrame ≤ log.length
  iReCksum : s.pWal.iReCksum ≠ 0 → s.live.mxFrame < s.pWal.iReCksum
  index : Indexes s.apWiData (log.map PgHdr.pgno)
  safe : s.Safe
  readLock : s.pWal.readLock ≠ 0
  nCkpt : s.pWal.nCkpt < 2 ^ 32

/-- `updateHdr` after frames that do not commit. -/
theorem LogState.Finished.spill (h : s.Finished cfg log) :
    wp (updateHdr cfg nTruncate log.length false)
      (fun _ s' => s'.Writing ∧ s'.live = s.live ∧ s'.content = s.content ∧
        s'.pWal.hdr.mxFrame = log.length ∧ s'.pWal.iReCksum = s.pWal.iReCksum ∧
        s'.pWal.nCkpt = s.pWal.nCkpt ∧ s'.pWal.readLock ≠ 0)
      (fun _ _ => False) s := by
  have hw := h.written
  refine wp_modify.2 ⟨?_, rfl, rfl, rfl, rfl, rfl, h.readLock⟩
  exact
    { toSafe := ⟨h.safe.committed, h.safe.index, h.safe.salt⟩
      live := h.live
      written := fun _ => by
        change Written s.content _ (logPages s.content log.length)
        rw [hw.pages]
        exact
          { header := ⟨hw.header.size, hw.header.magic, hw.header.version, hw.header.pow,
              hw.header.small, hw.header.large, hw.header.cksum, hw.header.salt, hw.header.bigEnd,
              hw.header.pageSize⟩
            cover := hw.cover, pages := hw.pages, pgno := hw.pgno
            chain := hw.chain, before := hw.before }
      iReCksum := fun h0 => ⟨h.iReCksum h0, (hw.before h0).1⟩
      indexed := by
        change Indexes s.apWiData (walPgnos s.content log.length)
        rw [← logPages_pgnos, hw.pages]
        exact h.index
      hdrSalt := hw.header.salt_length
      nCkpt := h.nCkpt
      fresh := fun h0 => absurd h0 h.readLock }

/-- `updateHdr` after frames that commit. -/
theorem LogState.Finished.commit (h : s.Finished cfg log) (hre : s.pWal.iReCksum = 0)
    (hn : nTruncate ≠ 0)
    (hc : frameNTruncate s.content log.length = nTruncate) :
    wp (updateHdr cfg nTruncate log.length true)
      (fun _ s' => s'.Writing ∧ s'.live = s'.pWal.hdr ∧ s'.live.mxFrame = log.length ∧
        s'.live.nPage = nTruncate ∧ s'.pWalFd = s.pWalFd ∧ s'.pWal.readLock ≠ 0)
      (fun _ _ => False) s := by
  have hw := h.written
  obtain ⟨hgood, hck⟩ := hw.chain hre
  have hps : walPageSize s.content = s.pWal.szPage := hw.header.pageSize
  have hindex : Indexes s.apWiData (walPgnos s.content log.length) := by
    rw [← logPages_pgnos, hw.pages]
    exact h.index
  obtain ⟨hdr, hhdr⟩ : ∃ hdr, hdr = { (s.pWal.hdr.wrote cfg.szPage log.length).commit nTruncate with
    isInit := true } := ⟨_, rfl⟩
  have hheader : ∀ n, HeaderOf s.content ⟨hdr, s.pWal.szPage, n⟩ := by
    intro n
    rw [hhdr]
    exact ⟨hw.header.size, hw.header.magic, hw.header.version, hw.header.pow, hw.header.small,
      hw.header.large, hw.header.cksum, hw.header.salt, hw.header.bigEnd, hw.header.pageSize⟩
  have hmx : hdr.mxFrame = log.length := by rw [hhdr]; rfl
  have hck' : hdr.aFrameCksum = cumCksum s.content log.length := by rw [hhdr]; exact hck
  have hnp : hdr.nPage = nTruncate := by rw [hhdr]; rfl
  have hsz : hdr.szPage = hdrSzPage (walPageSize s.content) := by
    rw [hps, h.szPage, hhdr]
    rfl
  refine wp_modify.2 ?_
  change ({ s with pWal := { s.pWal with hdr := _ }, live := _ } : LogState).Writing ∧ _
  rw [← hhdr]
  refine ⟨?_, ?_, ?_, ?_, rfl, h.readLock⟩
  · exact
      { committed := fun _ =>
          { header := by
              change HeaderOf s.content ⟨hdr, walPageSize s.content, 0⟩
              rw [hps]
              exact hheader 0
            good := by
              rw [hmx]
              exact hgood
            cksum := by
              rw [hmx]
              exact hck'
            nPage := by
              rw [hmx, hnp]
              exact hc
            commit := by rwa [hnp]
            szPage := hsz }
        index := by
          change Indexes s.apWiData (walPgnos s.content hdr.mxFrame)
          rwa [hmx]
        salt := (hheader 0).salt_length
        live := le_rfl
        written := fun _ => by
          change Written s.content _ (logPages s.content hdr.mxFrame)
          rw [hmx, hw.pages]
          exact
            { header := hheader _
              cover := hw.cover, pages := hw.pages, pgno := hw.pgno
              chain := fun _ => ⟨hgood, hck'⟩, before := hw.before }
        iReCksum := fun h0 => absurd hre h0
        indexed := by
          change Indexes s.apWiData (walPgnos s.content hdr.mxFrame)
          rwa [hmx]
        hdrSalt := (hheader 0).salt_length
        nCkpt := h.nCkpt
        fresh := fun h0 => absurd h0 h.readLock }
  · rfl
  · rfl
  · rfl

/-- The index of the frames of one call, and of those that pad it. -/
theorem LogState.Open.index_wp {pages : List PgHdr} (h : s.Open cfg log) (hsafe : s.Safe)
    (hr : s.pWal.readLock ≠ 0) (hn : s.pWal.nCkpt < 2 ^ 32)
    (hlog : log.map PgHdr.pgno = (log.map PgHdr.pgno).take s.pWal.hdr.mxFrame
      ++ pages.map PgHdr.pgno) :
    wp (indexFrames s.pWal.hdr.mxFrame pages)
      (fun _ s' => s'.Finished cfg log ∧ s.OnlyIndex s')
      (fun _ s' => s'.Safe ∧ s.KeepsLive s') s := by
  have hmx := h.mxFrame
  have hlive := h.live
  have hlen : ((log.map PgHdr.pgno).take s.pWal.hdr.mxFrame).length = s.pWal.hdr.mxFrame := by
    rw [List.length_take, List.length_map]
    omega
  have hpages : ∀ p ∈ pages, p.pgno ≠ 0 := by
    intro p hp
    have hm : p.pgno ∈ log.map PgHdr.pgno := by
      rw [hlog]
      exact List.mem_append_right _ (List.mem_map_of_mem hp)
    obtain ⟨q, hq, he⟩ := List.mem_map.1 hm
    rw [← he]
    exact h.written.pgno q hq
  have hindex := @indexFrames_wp s.live.mxFrame pages _ s (by omega) h.index (.inl hlen.symm) hpages
  rw [hlen] at hindex
  refine hindex.mono (fun _ s' ⟨ho, hi⟩ => ⟨?_, ho⟩) fun _ s' ⟨ho, hi⟩ => ?_
  · have hc := ho.content
    rw [← hlog] at hi
    exact
      { written := by
          rw [hc, ho.pWal]
          exact h.written
        szPage := by
          rw [ho.pWal]
          exact h.szPage
        live := by
          rw [ho.live]
          omega
        iReCksum := by
          rw [ho.pWal, ho.live]
          exact fun h0 => (h.iReCksum h0).1
        index := hi
        safe :=
          { committed := by
              rw [hc, ho.live]
              exact hsafe.committed
            index := by
              have ht := hi.take s.live.mxFrame
              rw [hc, ho.live, ← logPages_pgnos, ← logPages_take (show s.live.mxFrame ≤ log.length by
                omega), h.written.pages, List.map_take]
              exact ht
            salt := by
              rw [ho.live]
              exact hsafe.salt }
        readLock := by rwa [ho.pWal]
        nCkpt := by rwa [ho.pWal] }
  · have hc := ho.content
    refine ⟨⟨?_, ?_, ?_⟩, .of_eq ho.live hc⟩
    · rw [hc, ho.live]
      exact hsafe.committed
    · rw [List.take_take, Nat.min_eq_left hlive] at hi
      rw [hc, ho.live, ← logPages_pgnos, ← logPages_take (show s.live.mxFrame ≤ log.length by omega),
        h.written.pages, List.map_take]
      exact hi
    · rw [ho.live]
      exact hsafe.salt

/-- The first `m` frames are a commit, and what the log holds behind them are copies of the last of
them. -/
structure LogState.EndsAt (nTruncate : ℕ) (s : LogState) (m : ℕ) : Prop where
  pos : 0 < m
  le : m ≤ s.live.mxFrame
  commit : frameNTruncate s.content m = nTruncate
  pages : ∀ pgno, lastPage (logPages s.content m) pgno = lastPage (logPages s.content s.live.mxFrame) pgno

/-- The first `m` frames are synced. -/
def LogState.SyncedTo (s : LogState) (m : ℕ) : Prop :=
  s.pWalFd.Behind (walFrameOffset (m + 1) (walPageSize s.content))

/-- What a call of `walFrames` that returns `SQLITE_OK` leaves, when it started from `log`. -/
structure LogState.FramesDone (cfg : LogCfg) (log pList : List PgHdr) (nTruncate sync_flags : ℕ)
    (isCommit : Bool) (s s' : LogState) : Prop where
  writing : s'.Writing
  readLock : s'.pWal.readLock ≠ 0
  /-- The pages are in the log. -/
  pages : (pList.map PgHdr.pgno).Nodup → ∀ pgno,
    lastPage (logPages s'.content s'.pWal.hdr.mxFrame) pgno = lastPage (log ++ pList) pgno
  /-- After a commit the shared header is that of the handle. -/
  commit : isCommit = true → s'.live = s'.pWal.hdr ∧ s'.live.mxFrame ≠ 0 ∧ s'.live.nPage = nTruncate ∧
    ∃ m, s'.EndsAt nTruncate m ∧ (WAL_SYNC_FLAGS sync_flags ≠ 0 → 0 < cfg.sectorSize → s'.SyncedTo m)
  /-- Otherwise the log goes on. -/
  spill : isCommit = false → s'.live = s.live ∧ s'.pWal.nCkpt = s.pWal.nCkpt ∧
    s.pWal.hdr.mxFrame ≤ s'.pWal.hdr.mxFrame ∧ s.KeepsBefore s'

theorem reCksumCommit_wp (hs : s.Open cfg log)
    (hnt : frameNTruncate s.content log.length = nTruncate) (hpos : log ≠ []) :
    wp (reCksumCommit true log.length)
      (fun _ s' => s.Writes s' ∧ s'.Open cfg log ∧ s'.pWal.iReCksum = 0 ∧
        frameNTruncate s'.content log.length = nTruncate)
      (fun _ s' => s.Writes s') s := by
  unfold reCksumCommit
  refine wp_bind.2 (wp_get.2 (wp_ite.2 ⟨fun h => ?_, fun h => ?_⟩))
  · refine (walRewriteChecksums_wp hs h.2).post fun _ s' ⟨hw, hlog, hs', hre⟩ => ?_
    refine ⟨hw, hs', hre, ?_⟩
    rw [hlog.frameNTruncate (List.length_pos_iff.2 hpos) le_rfl]
    exact hnt
  · have hre : s.pWal.iReCksum = 0 := by
      by_contra hne
      exact h ⟨rfl, hne⟩
    exact wp_pure.2 ⟨.refl, hs, hre, hnt⟩

theorem framesTail_wp {iFirst : ℕ} (hs : s.Open cfg log) (hlen : s.pWal.hdr.mxFrame = log.length)
    (hsafe : s.Safe) (hr : s.pWal.readLock ≠ 0) (hk : s.pWal.nCkpt < 2 ^ 32)
    (hf : iFirst ≠ 0 → iFirst = s.live.mxFrame + 1) (hp : ∀ p ∈ pList, p.Fits cfg.szPage)
    (hn : nTruncate < 2 ^ 32) (hc : isCommit = true → pList ≠ [] ∧ nTruncate ≠ 0) :
    wp (framesTail cfg iFirst pList nTruncate isCommit sync_flags)
      (fun _ s' => s.FramesDone cfg log pList nTruncate sync_flags isCommit s')
      (fun _ s' => s'.Safe ∧ s.KeepsLive s') s := by
  unfold framesTail
  refine wp_bind.2 (wp_get.2 ?_)
  simp only []
  rw [hlen]
  refine wp_bind.2 ((writeFrames_wp hn pList log s hs hf hp).mono
    (fun pages s₁ ⟨hw₁, hk₁, _, log₁, hs₁, hwrote, hlast⟩ => ?_)
    fun _ s₁ hw₁ => ⟨hsafe.of_writes hw₁, hw₁.keepsLive⟩)
  have hlen₁ := hwrote.length
  have hpg₁ := hwrote.pgnos
  have hpages : (pList.map PgHdr.pgno).Nodup → ∀ pgno, lastPage log₁ pgno = lastPage (log ++ pList) pgno :=
    fun hd pgno => hwrote.lastPage hd fun p _ i hi => by
      rw [List.getElem?_eq_none (by rw [List.length_map]; omega)]
      exact (Option.some_ne_none _).symm
  rw [← hlen₁]
  cases isCommit with
  | false =>
    have hre : wp (reCksumCommit false log₁.length) (fun _ s' => s' = s₁) (fun _ _ => False) s₁ :=
      wp_bind.2 (wp_get.2 (wp_ite.2 ⟨fun h => absurd h.1 (by decide), fun _ => wp_pure.2 rfl⟩))
    refine wp_bind.2 (hre.mono (fun _ s₂ h₂ => ?_) fun _ _ => False.elim)
    subst h₂
    have hsync : syncCommit cfg nTruncate false sync_flags pages.getLast?
        (walFrameOffset (log₁.length + 1) cfg.szPage) = pure [] := if_neg fun h => absurd h.1 (by decide)
    rw [hsync]
    refine wp_bind.2 (wp_pure.2 ?_)
    rw [List.append_nil, ← hlen, ← hw₁.mxFrame]
    obtain ⟨c, k, hpw⟩ := hw₁.pWal
    refine wp_bind.2 ((hs₁.index_wp (hsafe.of_writes hw₁) (by rw [hpw]; exact hr)
      (by rw [hpw]; exact hk) ?_).mono (fun _ s₃ ⟨h₃, ho₃⟩ => ?_)
      fun _ s₃ ⟨h₃, hk₃⟩ => ⟨h₃, hw₁.keepsLive.trans hk₃⟩)
    · rw [hpg₁, hw₁.mxFrame, hlen, ← List.length_map (f := PgHdr.pgno), List.take_left]
    · refine (h₃.spill).mono (fun _ s₄ ⟨hw₄, hl₄, hc₄, hmx₄, hre₄, hn₄, hr₄⟩ => ?_)
        fun _ _ => False.elim
      refine ⟨hw₄, hr₄, fun hd pgno => ?_, fun h => absurd h (by decide), fun _ => ⟨?_, ?_, ?_, fun k hk hre => ?_⟩⟩
      · rw [hmx₄, hc₄, h₃.written.pages]
        exact hpages hd pgno
      · rw [hl₄, ho₃.live, hw₁.live]
      · rw [hn₄, ho₃.pWal, hpw]
      · rw [hmx₄, hlen]
        omega
      · rw [hre₄, ho₃.pWal] at hre
        obtain ⟨h1, h2⟩ := hk₁ k hk hre
        rw [hc₄, ho₃.content]
        exact ⟨h1, h2⟩
  | true =>
    obtain ⟨hne, hn0⟩ := hc rfl
    obtain ⟨hlast, hnt₁⟩ := hlast rfl hne
    obtain ⟨p, hpl⟩ : ∃ p, pList.getLast? = some p := by
      rw [← Option.isSome_iff_exists, List.getLast?_isSome]
      exact hne
    rw [hpl] at hlast
    have hpos : log₁ ≠ [] := by
      intro h0
      rw [h0, List.length_nil] at hlen₁
      have hnil : pages = [] := List.length_eq_zero_iff.1 (by omega)
      rw [hnil] at hlast
      exact absurd hlast (by simp)
    have hend := hwrote.lastPage_getLast hlen.le hlast
    rw [hlast]
    refine wp_bind.2 ((reCksumCommit_wp hs₁ hnt₁ hpos).mono
      (fun _ s₂ ⟨hw₂, hs₂, hre₂, hnt₂⟩ => ?_)
      fun _ s₂ hw₂ => ⟨hsafe.of_writes (hw₁.trans hw₂), (hw₁.trans hw₂).keepsLive⟩)
    have hfit : ∀ q ∈ some p, q.Fits cfg.szPage := by
      intro q hq
      obtain rfl := Option.some_inj.1 hq
      exact hp _ (List.mem_of_getLast? hpl)
    have hsync : wp (syncCommit cfg nTruncate true sync_flags (some p) (walFrameOffset (log₁.length + 1) cfg.szPage))
        (fun _ s' => WAL_SYNC_FLAGS sync_flags ≠ 0 → 0 < cfg.sectorSize →
          s'.pWalFd.Behind (walFrameOffset (log₁.length + 1) cfg.szPage)) (fun _ _ => True) s₂ := by
      by_cases hf : WAL_SYNC_FLAGS sync_flags ≠ 0 ∧ 0 < cfg.sectorSize
      · have hcover := hs₂.written.cover
        rw [hs₂.pageSize] at hcover
        exact (syncCommit_synced hf.1 hs₂.written.header.salt_length (hfit p rfl).size hf.2 hcover).post
          fun _ _ hb _ _ => hb
      · exact wp.true.mono (fun _ _ _ h1 h2 => absurd ⟨h1, h2⟩ hf) fun _ _ _ => trivial
    refine wp_bind.2 (((syncCommit_wp hn hfit hs₂ hnt₂).and hsync).mono (fun extra s₃ ⟨⟨h₃, hall⟩, hb₃⟩ => ?_)
      fun _ s₃ ⟨hw₃, _⟩ => ⟨hsafe.of_writes ((hw₁.trans hw₂).trans hw₃), ((hw₁.trans hw₂).trans hw₃).keepsLive⟩)
    have hw := (hw₁.trans hw₂).trans h₃.writes
    obtain ⟨c, k, hpw⟩ := hw.pWal
    rw [← hlen, ← hw.mxFrame, ← List.length_append]
    refine wp_bind.2 ((h₃.opens.index_wp (hsafe.of_writes hw) (by rw [hpw]; exact hr)
      (by rw [hpw]; exact hk) ?_).mono (fun _ s₄ ⟨h₄, ho₄⟩ => ?_)
      fun _ s₄ ⟨h₄, hk₄⟩ => ⟨h₄, hw.keepsLive.trans hk₄⟩)
    · rw [List.map_append, hpg₁, hw.mxFrame, hlen, List.map_append, List.append_assoc,
        ← List.length_map (f := PgHdr.pgno), List.take_left]
    · refine (h₄.commit (by rw [ho₄.pWal, h₃.iReCksum, hre₂]) hn0
        (by rw [ho₄.content]; exact h₃.commit)).mono
        (fun _ s₅ ⟨hw₅, hl₅, hmx₅, hnp₅, hfd₅, hr₅⟩ => ?_) fun _ _ => False.elim
      have hcontent : s₅.content = s₃.content := by rw [LogState.content, hfd₅, ho₄.pWalFd, LogState.content]
      have hlog : logPages s₅.content (log₁ ++ extra).length = log₁ ++ extra := by
        rw [hcontent]
        exact h₃.opens.written.pages
      have hcopies : ∀ pgno, lastPage (log₁ ++ extra) pgno = lastPage log₁ pgno := fun pgno =>
        lastPage_append_replicate hend fun q hq => Option.some_inj.1 (hall q hq).symm
      have hpos₁ := List.length_pos_iff.2 hpos
      refine ⟨hw₅, hr₅, fun hd pgno => ?_, fun _ => ⟨hl₅, ?_, hnp₅, log₁.length, ?_⟩, fun h => absurd h (by decide)⟩
      · rw [← hl₅, hmx₅, hlog, hcopies]
        exact hpages hd pgno
      · rw [hmx₅, List.length_append]
        omega
      · have htake := @logPages_take s₅.content log₁.length (log₁ ++ extra).length (by
          rw [List.length_append]
          omega)
        rw [hlog, List.take_left] at htake
        refine ⟨⟨hpos₁, ?_, ?_, fun pgno => ?_⟩, fun hf hsec => ?_⟩
        · rw [hmx₅, List.length_append]
          omega
        · rw [hcontent, h₃.frames.sameLog.frameNTruncate hpos₁ le_rfl]
          exact hnt₂
        · rw [hmx₅, hlog, ← htake, hcopies]
        · rw [LogState.SyncedTo, hcontent, h₃.opens.pageSize, hfd₅, ho₄.pWalFd]
          exact hb₃ hf hsec

/-- What a call of `walFrames` that does not commit leaves of the frames before it: the log goes on,
or it was restarted. -/
inductive LogState.Spilled (s s' : LogState) : Prop
  | continued (live : s'.live = s.live) (nCkpt : s'.pWal.nCkpt = s.pWal.nCkpt)
      (mxFrame : s.pWal.hdr.mxFrame ≤ s'.pWal.hdr.mxFrame)
      (keeps : s.pWal.hdr.mxFrame ≠ 0 → s.KeepsBefore s')
  | restarted (readLock : s.pWal.readLock = 0) (live : s'.live.mxFrame = 0)
      (nCkpt : s'.pWal.nCkpt = (s.pWal.nCkpt + 1) % 2 ^ 32)

/-- The log that a call of `walFrames` goes on with: that of the handle, or none when it restarted the
log. -/
inductive LogState.StartsFrom (s : LogState) : List PgHdr → Prop
  | continued : s.StartsFrom (logPages s.content s.pWal.hdr.mxFrame)
  | restarted (readLock : s.pWal.readLock = 0) (nBackfill : 0 < s.nBackfill) : s.StartsFrom []

/-- What a call of `walFrames` leaves that returns `SQLITE_OK`. -/
structure LogState.Called (cfg : LogCfg) (pList : List PgHdr) (nTruncate sync_flags : ℕ) (isCommit : Bool)
    (s s' : LogState) : Prop where
  writing : s'.Writing
  readLock : s'.pWal.readLock ≠ 0
  pages : ∃ log, s.StartsFrom log ∧ ((pList.map PgHdr.pgno).Nodup → ∀ pgno,
    lastPage (logPages s'.content s'.pWal.hdr.mxFrame) pgno = lastPage (log ++ pList) pgno)
  commit : isCommit = true → s'.live = s'.pWal.hdr ∧ s'.live.mxFrame ≠ 0 ∧ s'.live.nPage = nTruncate ∧
    ∃ m, s'.EndsAt nTruncate m ∧ (WAL_SYNC_FLAGS sync_flags ≠ 0 → 0 < cfg.sectorSize → s'.SyncedTo m)
  spill : isCommit = false → s.Spilled s' ∧ s.KeepsLive s' ∧ s.KeepsSynced s'

/-- The statements of `walFrames` from the first frame on keep what is synced. -/
theorem framesTail_keepsSynced {iFirst : ℕ} (hs : s.Open cfg log) (hf : iFirst ≠ 0 → iFirst = s.live.mxFrame + 1) :
    wp (framesTail cfg iFirst pList nTruncate isCommit sync_flags) (fun _ s' => s.KeepsSynced s')
      (fun _ s' => s.KeepsSynced s') s := by
  have hall : ∀ b : {base // base ≤ walFrameOffset (s.live.mxFrame + 1) (walPageSize s.content) ∧
      s.pWalFd.Behind base},
      Leaves (LogState.Pending cfg b) (framesTail cfg iFirst pList nTruncate isCommit sync_flags) s := by
    rintro ⟨base, hle, hbase⟩
    have hmono : ∀ i, s.live.mxFrame + 1 ≤ i → base ≤ walFrameOffset i cfg.szPage := fun i hi =>
      hle.trans (hs.pageSize ▸ walFrameOffset_mono hi)
    exact framesTail_pending ⟨hbase, hs.szPage, fun h0 => hmono _ (hs.iReCksum h0).1⟩
      (fun h0 => hmono _ (hf h0).ge) (hmono _ (Nat.succ_le_succ hs.live))
  exact (wp.all hall).mono (fun _ s' h _ base hle hbase => (h ⟨base, hle, hbase⟩).behind)
    fun _ s' h _ base hle hbase => (h ⟨base, hle, hbase⟩).behind

/-- The whole of `walFrames`. -/
theorem walFrames_wp (hc : cfg.Ok) (ha : answer.Ok) (hs : s.Writing)
    (hp : ∀ p ∈ pList, p.Fits cfg.szPage) (hn : nTruncate < 2 ^ 32)
    (hcommit : isCommit = true → pList ≠ [] ∧ nTruncate ≠ 0) :
    wp (walFrames cfg answer pList nTruncate isCommit sync_flags)
      (fun _ s' => s.Called cfg pList nTruncate sync_flags isCommit s')
      (fun _ s' => s'.Safe ∧ s.KeepsLive s' ∧ s.KeepsSynced s') s := by
  unfold walFrames
  refine wp_bind.2 (wp_get.2 ?_)
  obtain ⟨iFirst, hfirst⟩ : ∃ iFirst, iFirst
    = if s.pWal.hdr ≠ s.live then s.live.mxFrame + 1 else 0 := ⟨_, rfl⟩
  simp only [← hfirst]
  refine wp_bind.2 ((walRestartLog_wp hs ha).mono (fun _ s₁ ⟨hs₁, hfd₁, hr₁, hre₁, h₁⟩ => ?_)
    fun _ s₁ ⟨hsafe₁, hk₁, hfd₁⟩ => ⟨hsafe₁, hk₁, .of_eq hfd₁⟩)
  have hc₁ : s₁.content = s.content := congrArg OsFile.content hfd₁
  have hkeep₁ : s.KeepsLive s₁ := h₁.elim (fun h => .of_eq h.live hc₁) fun h => .of_zero h.2.live
  -- A restart happens only before the first frame of a transaction, so that `iFirst` is zero then.
  have hf₁ : iFirst ≠ 0 → iFirst = s₁.live.mxFrame + 1 := by
    intro h0
    rcases h₁ with h₁ | ⟨hr, -⟩
    · rw [h₁.live]
      rw [hfirst] at h0 ⊢
      split_ifs at h0 ⊢ with hne
      · rfl
      · exact absurd rfl h0
    · rw [hfirst, if_neg (not_not.2 (hs.fresh hr).2)] at h0
      exact absurd rfl h0
  -- When the log is new, nothing in it counts.
  have hzero : ∀ s₂ : LogState, s₁.live.mxFrame = 0 → s₁.KeepsLive s₂ → s.KeepsSynced s₂ :=
    fun s₂ hl0 hk₂ h0 => absurd hl0 (by
      rw [← (hk₂ h0).1]
      exact h0)
  refine wp_bind.2 ((writeWalHdr_wp hc ha hs₁).mono (fun _ s₂ h₂ => wp_bind.2 (wp_get.2 ?_))
    fun _ s₂ ⟨hsafe₂, hk₂, hl0⟩ => ⟨hsafe₂, hkeep₁.trans hk₂, hzero s₂ hl0 hk₂⟩)
  obtain ⟨hsafe₂, hlive₂, hn₂, hr₂, hmx₂, hkeep₂⟩ : s₂.Safe ∧ s₂.live = s₁.live ∧
      s₂.pWal.nCkpt = s₁.pWal.nCkpt ∧ s₂.pWal.readLock ≠ 0 ∧
        s₂.pWal.hdr.mxFrame = s₁.pWal.hdr.mxFrame ∧ s₁.KeepsLive s₂ := by
    rcases h₂ with ⟨-, rfl⟩ | ⟨hmx, hl, hn, hr, hmx₁, ho⟩
    · exact ⟨hs₁.toSafe, rfl, rfl, hr₁, rfl, .of_eq rfl rfl⟩
    · have hl0 : s₂.live.mxFrame = 0 := by
        have := ho.live
        omega
      refine ⟨.of_zero hl0 ?_, hl, hn, by rwa [hr], by rw [hmx, hmx₁], .of_zero hl0⟩
      rw [hl]
      exact hs₁.salt
  have hkeep := hkeep₁.trans hkeep₂
  -- What is synced of an old log stays.
  have hsync₂ : ∀ s₃ : LogState, s₂.KeepsLive s₃ → s₂.KeepsSynced s₃ → s.KeepsSynced s₃ := by
    intro s₃ hk₃ hb₃
    rcases h₁ with h₁ | ⟨-, h₁⟩
    · rcases h₂ with ⟨-, rfl⟩ | ⟨-, -, -, -, hmx₁, -⟩
      · intro h0 base hle hbase
        refine hb₃ h0 base ?_ (by rwa [hfd₁])
        rwa [h₁.live, hc₁]
      · have := hs₁.live
        exact hzero s₃ (by omega) (hkeep₂.trans hk₃)
    · exact hzero s₃ h₁.live (hkeep₂.trans hk₃)
  refine wp_ite.2 ⟨fun _ => wp_throw.2 ⟨hsafe₂, hkeep, hsync₂ s₂ (.of_eq rfl rfl) (.of_eq rfl)⟩, fun hz => ?_⟩
  obtain ⟨log, hopen, hlen, hstart⟩ : ∃ log, s₂.Open cfg log ∧ s₂.pWal.hdr.mxFrame = log.length ∧
      s.StartsFrom log := by
    rcases h₂ with ⟨h0, rfl⟩ | ⟨hmx, -, -, -, hmx₁, ho⟩
    · refine ⟨_, hs₁.opens h0 (not_not.1 hz), logPages_length.symm, ?_⟩
      rcases h₁ with h₁ | ⟨hr, h₁⟩
      · rw [hc₁, h₁.hdr]
        exact .continued
      · exact absurd (by rw [h₁.hdr]; exact h₁.live) h0
    · refine ⟨[], ho, hmx, ?_⟩
      rcases h₁ with h₁ | ⟨hr, h₁⟩
      · rw [h₁.hdr] at hmx₁
        have := LogState.StartsFrom.continued (s := s)
        rwa [hmx₁] at this
      · exact .restarted hr h₁.nBackfill
  have hk₂ : s₂.pWal.nCkpt < 2 ^ 32 := by
    rw [hn₂]
    exact hs₁.nCkpt
  have hf₂ : iFirst ≠ 0 → iFirst = s₂.live.mxFrame + 1 := by rwa [hlive₂]
  refine ((framesTail_wp hopen hlen hsafe₂ hr₂ hk₂ hf₂ hp hn hcommit).and (framesTail_keepsSynced hopen hf₂)).mono
    (fun _ s₃ ⟨h₃, hb₃⟩ => ⟨h₃.writing, h₃.readLock, ⟨log, hstart, h₃.pages⟩, h₃.commit, fun hspill => ?_⟩)
    fun _ s₃ ⟨⟨hsafe₃, hk₃⟩, hb₃⟩ => ⟨hsafe₃, hkeep.trans hk₃, hsync₂ s₃ hk₃ hb₃⟩
  obtain ⟨hl₃, hn₃, hmx₃, hkeeps⟩ := h₃.spill hspill
  have hk₃ : s₂.KeepsLive s₃ := by
    -- What is overwritten lies behind the frames that the shared header counts.
    refine fun h0 => ⟨hl₃, (hkeeps _ hopen.live ?_).2⟩
    by_cases hre : s₃.pWal.iReCksum = 0
    · exact .inl hre
    · exact .inr (hl₃ ▸ (h₃.writing.iReCksum hre).1)
  refine ⟨?_, hkeep.trans hk₃, hsync₂ s₃ hk₃ hb₃⟩
  rcases h₁ with h₁ | ⟨hr, h₁⟩
  · refine .continued ?_ ?_ ?_ fun h0 => ?_
    · rw [hl₃, hlive₂, h₁.live]
    · rw [hn₃, hn₂, h₁.nCkpt]
    · rwa [← h₁.hdr, ← hmx₂]
    · rcases h₂ with ⟨-, rfl⟩ | ⟨-, -, -, -, hmx, -⟩
      · intro k hk hre
        have := hkeeps k (by rwa [h₁.hdr]) hre
        rwa [hre₁, hc₁] at this
      · rw [h₁.hdr] at hmx
        exact absurd hmx h0
  · refine .restarted hr ?_ ?_
    · rw [hl₃, hlive₂, h₁.live]
    · rw [hn₃, hn₂, h₁.nCkpt]

end Whole

end Btreelite
