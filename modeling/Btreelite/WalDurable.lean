import Btreelite.WalLogRun

/-!
# What recovery finds again

A process may die, and the next one recovers the log from its file: it finds the frames that the
shared header counted. The power may fail, and the file is what was last synced, with any bytes
where writes were under way: when all commits are synced, recovery finds the pages of the last one.
-/

namespace Btreelite

open Prog ByteFile LogM

section Recovered

variable {f : List UInt8} {m : ℕ} {w w₀ : WalIndex}

theorem IsLatest.unique {S : Set ℕ} {r r' : ℕ} (h : IsLatest S r) (h' : IsLatest S r') : r = r' := by
  rcases h with h | ⟨hS, rfl⟩
  · rcases h' with h' | ⟨hS, rfl⟩
    · exact h.unique h'
    · exact absurd h.1 (hS ▸ Set.notMem_empty r)
  · rcases h' with h' | ⟨-, rfl⟩
    · exact absurd h'.1 (hS ▸ Set.notMem_empty r')
    · rfl

/-- Two indexes of the same frames answer alike. -/
theorem Indexes.walFindFrame_eq {log log' : List ℕ} (h : Indexes w log) (h' : Indexes w₀ log')
    (hm : m ≤ log.length) (hm' : m ≤ log'.length) (ht : log.take m = log'.take m) {readLock : ℕ}
    {bShmUnreliable : Bool} (hr : readLock ≠ 0 ∨ bShmUnreliable = true) (minFrame pgno : ℕ) :
    walFindFrame w readLock bShmUnreliable minFrame m pgno
      = walFindFrame w₀ readLock bShmUnreliable minFrame m pgno := by
  obtain ⟨r, hfind, hl⟩ : ∃ r, walFindFrame w readLock bShmUnreliable minFrame m pgno = .ok r ∧
      IsLatest (framesOf log minFrame m pgno) r := walFindFrame_latest h hm hr
  obtain ⟨r', hfind', hl'⟩ : ∃ r, walFindFrame w₀ readLock bShmUnreliable minFrame m pgno = .ok r ∧
      IsLatest (framesOf log' minFrame m pgno) r := walFindFrame_latest h' hm' hr
  rw [← framesOf_take le_rfl, ht, framesOf_take le_rfl] at hl
  rw [hfind, hfind', hl.unique hl']

/-- What recovery makes of a file whose first `m` frames end in a commit, compared with an index of
these frames. -/
structure Recovered (f : List UInt8) (m : ℕ) (w₀ : WalIndex) (hdr : WalIndexHdr) (w : WalIndex) : Prop where
  mxFrame : m ≤ hdr.mxFrame
  header : hdr.OfFile f
  lookup : ∀ (readLock : ℕ) (bShmUnreliable : Bool) (minFrame pgno : ℕ),
    readLock ≠ 0 ∨ bShmUnreliable = true →
      walFindFrame w readLock bShmUnreliable minFrame m pgno
        = walFindFrame w₀ readLock bShmUnreliable minFrame m pgno
  /-- It finds more only where more was committed, if only halfway. -/
  exactly : (∀ n, m < n → ¬ WalCommits f n) →
    hdr.mxFrame = m ∧ hdr.nPage = frameNTruncate f m ∧ hdr.aFrameCksum = cumCksum f m

theorem WalCommits.recovered (hc : WalCommits f m)
    (hver : get4byte ((f.take WAL_HDRSIZE).drop 4) = WAL_MAX_VERSION)
    (hfew : (f.length - WAL_HDRSIZE) / (walPageSize f + WAL_FRAME_HDRSIZE) < 2 ^ 32 - HASHTABLE_NPAGE)
    (hw₀ : Indexes w₀ (walPgnos f m)) (aPrivate : WalHashLoc) (busy : ℕ → Bool) (pWal : Wal)
    (info : WalCkptInfo) :
    Stays (fun _ => True) (walIndexRecover f aPrivate busy pWal info) w fun x w' =>
      Recovered f m w₀ x.1.hdr w' := by
  obtain ⟨v, hv⟩ := @exists_walGood f
  refine ((walIndexRecover_stays (fun _ => hver) (fun _ => hfew) hv (Nat.zero_le v) (Indexes.nil w)).weaken
    fun _ _ => trivial).post fun x w' ⟨hlatest, hcommit, hheader, _, _, hi⟩ => ?_
  have hg : IsGreatest {n | WalCommits f n} x.1.hdr.mxFrame := hlatest.resolve_right fun h =>
    absurd hc (by
      have := Set.notMem_empty m
      rwa [← h.1] at this)
  have hle : m ≤ x.1.hdr.mxFrame := hg.2 hc
  have hpos := hc.pos
  have h0 : x.1.hdr.mxFrame ≠ 0 := by omega
  have hmv : m ≤ v := hle.trans (hv.latest_le hlatest)
  refine ⟨hle, hheader h0, fun readLock bShmUnreliable minFrame pgno hr => ?_, fun hmore => ?_⟩
  · refine hi.walFindFrame_eq hw₀ (by rwa [walPgnos_length]) (by rw [walPgnos_length]) ?_ hr minFrame pgno
    rw [walPgnos_take hmv, walPgnos_take le_rfl]
  · have heq : x.1.hdr.mxFrame = m := by
      by_contra hne
      exact hmore _ (by omega) hg.1
    obtain ⟨hnp, hck⟩ := hcommit h0
    rw [heq] at hnp hck
    exact ⟨heq, hnp, hck⟩

end Recovered

/-! ## A power failure -/

/-- What a power failure may leave of a file: a write that was not synced is lost or reached the file
in part, with any bytes, and a truncation happened or not. -/
inductive CrashOf : List UInt8 → List FileOp → List UInt8 → Prop
  | nil (f : List UInt8) : CrashOf f [] f
  | write {f g aData : List UInt8} {ops : List FileOp} {iOffset : ℕ} (bs : List UInt8)
      (hlen : bs.length ≤ aData.length) (h : CrashOf (pwrite 0 f iOffset bs) ops g) :
      CrashOf f (.write iOffset aData :: ops) g
  | truncate {f g : List UInt8} {ops : List FileOp} {nByte : ℕ} (h : CrashOf (f.take nByte) ops g) :
      CrashOf f (.truncate nByte :: ops) g
  | whole {f g : List UInt8} {ops : List FileOp} {nByte : ℕ} (h : CrashOf f ops g) :
      CrashOf f (.truncate nByte :: ops) g

section Crash

variable {f f' g : List UInt8} {ops : List FileOp} {base n m : ℕ} {s : LogSystem} {op : LogOp}

/-- The bytes before all pending writes are as they were synced. -/
theorem CrashOf.synced (h : CrashOf f ops g)
    (hops : ∀ op ∈ ops, ∃ iOffset aData, op = .write iOffset aData ∧ base ≤ iOffset) (hb : base ≤ f.length) :
    f.length ≤ g.length ∧ ∀ i < base, g[i]? = f[i]? := by
  induction h with
  | nil f => exact ⟨le_rfl, fun _ _ => rfl⟩
  | write bs hlen h ih =>
    obtain ⟨iOffset, aData, he, hle⟩ := hops _ (List.mem_cons_self ..)
    injection he with he _
    subst he
    obtain ⟨hl, heq⟩ := ih (fun op hop => hops op (List.mem_cons_of_mem _ hop)) (hb.trans pwrite_length_le)
    refine ⟨pwrite_length_le.trans hl, fun i hi => (heq i hi).trans ?_⟩
    exact pwrite_getElem?_of_lt (by omega) (by omega)
  | truncate h ih => exact absurd (hops _ (List.mem_cons_self ..)) (by simp)
  | whole h ih => exact absurd (hops _ (List.mem_cons_self ..)) (by simp)

theorem WalCommits.same (hc : WalCommits f n) (h : SameFrames n f f') : WalCommits f' n where
  pos := hc.pos
  hdr := h.sameLog.hdrOk hc.hdr
  frames := fun i hi hle => h.frameOk hle hi (hc.frames i hi hle)
  nTruncate := by
    rw [h.sameLog.frameNTruncate hc.pos le_rfl]
    exact hc.nTruncate

/-- The pages of the last commit are synced, up to frames that repeat its last one. -/
def LogState.Durable (s : LogState) : Prop :=
  s.live.mxFrame ≠ 0 → ∃ m, s.EndsAt s.live.nPage m ∧ s.SyncedTo m

theorem LogState.Durable.keeps {s s' : LogState} (h : s.Durable) (hk : s.KeepsLive s') (hb : s.KeepsSynced s') :
    s'.Durable := by
  intro h0
  obtain ⟨hl, hf⟩ := hk h0
  obtain ⟨m, hend, hsync⟩ := h (by rwa [← hl])
  have hlog := hf.sameLog
  have hm := hlog.mono hend.le
  refine ⟨m, ⟨hend.pos, ?_, ?_, fun pgno => ?_⟩, ?_⟩
  · rw [hl]
    exact hend.le
  · rw [hl, hm.frameNTruncate hend.pos le_rfl]
    exact hend.commit
  · rw [hl, hm.logPages, hlog.logPages]
    exact hend.pages pgno
  · unfold LogState.SyncedTo
    rw [hm.pageSize]
    exact hb h0 _ (walFrameOffset_mono (Nat.succ_le_succ hend.le)) hsync

theorem LogState.Durable.of_io {s : LogState} (h : s.Durable) (io : List (Option (Fault × ℕ))) :
    ({ s with io } : LogState).Durable := by
  intro h0
  obtain ⟨m, hend, hsync⟩ := h h0
  exact ⟨m, ⟨hend.pos, hend.le, hend.commit, hend.pages⟩, hsync⟩

end Crash

end Btreelite
