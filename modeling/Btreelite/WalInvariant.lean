import Btreelite.WalShows

/-!
# The invariant of a connection

What a connection relies on at each point of its program, and what it asks of the others: that
their stores carry it over (`Carry`). Locks keep apart the connections whose stores would not.
-/

namespace Btreelite

open WalShared

variable {α : Type}

/-! ## What is true at each point -/

namespace Pc

/-- Points of a write transaction, if the connection has the write lock for one. -/
def inWrite : Pc α → Bool
  | .scan _ _ _ _ | .tryMark _ _ _ _ | .setMark _ _ | .unlockMark _ _ | .lockMark _ _ _
  | .loadMin _ _ _ | .checkMark _ _ _ | .checkHdr _ _ _ | .unlockRead _ _ | .ready | .find _ _
  | .found _ _ | .restartLog | .lockRestart | .restart .writer _ | .unlockRestart .writer
  | .leaveZero | .frames | .store _ _ | .publish1 | .publish0 | .aborted => true
  | _ => false

/-- Between the stores of the two copies of the header. -/
def storingHdr : Pc α → Bool
  | .publish0 | .restart _ .hdr0 => true
  | _ => false

/-- Between the store of the header of a new generation and that of its `nBackfill`. -/
def storingBackfill : Pc α → Bool
  | .restart _ .nBackfill => true
  | _ => false

/-- Before the load of read mark `i` by a checkpoint, or where a reader of `m` frames at that mark
is safe from it. -/
def safe (i m : ℕ) : Pc α → Prop
  | .ckptMark j s => j ≤ i ∨ s ≤ m
  | .ckptTry j s y => j < i ∨ (j = i ∧ y ≤ m) ∨ s ≤ m
  | .ckptSet j s | .ckptUnlock j s => j < i ∨ s ≤ m
  | .ckptInit s | .ckptIter s | .ckptRead s _ _ _ | .ckptLockZero s _ | .ckptLoad s _
  | .ckptSalt s _ _ | .ckptCopy s _ _ _ | .ckptWrite s _ _ _ _ | .ckptSize s | .ckptTrunc s
  | .ckptPublish s => s ≤ m
  | _ => True

end Pc

/-- The iterator of a checkpoint has the frames up to `n` that are not copied yet. -/
structure WalShared.Iterates (σ : WalShared α) (n : ℕ) (it : List (ℕ × ℕ)) : Prop where
  sound : ∀ p g, (p, g) ∈ it → 0 < g ∧ g ≤ n ∧ σ.log[g - 1]? = some p
  complete : ∀ p g, σ.nBackfill < g → g ≤ n → σ.log[g - 1]? = some p → (p, g) ∈ it

namespace WalConn

/-- The first call of `walFrames` of a transaction that reads past the log. -/
structure Job (c : WalConn α) : Prop where
  own : c.own = []
  appended : c.appended = []
  pList : c.pList ≠ []
  pages : ∀ x ∈ c.pList, x.1 ≠ 0
  iFirst : c.iFirst = 0

/-- In a call of `walTryBeginRead`. -/
structure Starting (c : WalConn α) (useWal : Bool) : Prop where
  readLock : c.readLock = none
  writeLock : c.writeLock = if useWal then 1 else 0
  ckptLock : c.ckptLock = false
  job : useWal = true → c.Job

/-- In a checkpoint, or about to read the header for one. -/
structure Checkpointing (c : WalConn α) : Prop where
  readLock : c.readLock = none
  writeLock : c.writeLock ≤ 1
  ckptLock : c.eMode ≠ .noop → c.ckptLock = true
  mode : c.eMode = .full ∨ c.eMode = .restart ∨ c.eMode = .truncate → c.writeLock = 1

/-- The caller of `walIndexReadHdr`. -/
def Calls (c : WalConn α) : HdrCaller → Prop
  | .reader => c.Starting false
  | .checkpointer => c.Checkpointing

/-- The caller of `walIndexReadHdr` with the write lock. -/
def CallsLocked (c : WalConn α) (k : HdrCaller) : Prop :=
  c.writeLock ≠ 0 ∧
    WalConn.Calls { c with writeLock := if c.writeLock = 2 then 0 else c.writeLock } k

/-- With the header of a checkpoint. -/
structure HasHdr (c : WalConn α) (σ : WalShared α) : Prop extends c.Checkpointing where
  seen : σ.Seen c.hdr
  hdr : c.writeLock = 1 → c.hdr = σ.hdr0

/-- In `walCheckpoint`, for a checkpoint up to frame `s`. -/
structure Copies (c : WalConn α) (σ : WalShared α) (s : ℕ) : Prop extends c.HasHdr σ where
  locked : c.ckptLock = true
  le : s ≤ c.hdr.mxFrame

/-- With read lock `0` of a checkpoint that copies frames of the live log. -/
structure Backfills (c : WalConn α) (σ : WalShared α) (s : ℕ) : Prop extends c.Copies σ s where
  salt : c.hdr.aSalt = σ.hdr0.aSalt
  lt : σ.nBackfill < s

/-- In an open read transaction. -/
structure Open (c : WalConn α) : Prop where
  readLock : ∃ k, c.readLock = some k
  writeLock : c.writeLock ≤ 1
  ckptLock : c.ckptLock = false

/-- In `walFrames`, with a read lock that lets it append. -/
structure Framing (c : WalConn α) : Prop where
  readLock : ∃ k, c.readLock = some k ∧ k ≠ 0
  writeLock : c.writeLock = 1
  ckptLock : c.ckptLock = false

/-- The frames that this call of `walFrames` has added to the file. -/
structure Appends (c : WalConn α) (σ : WalShared α) : Prop extends c.Framing where
  pages : ∀ x ∈ c.appended, x.1 ≠ 0
  wal : ∀ (j : ℕ) x, c.appended[j]? = some x → σ.wal (c.mxFrame + j + 1) = x.2

/-- A restart of the log. -/
def Restarts (c : WalConn α) (σ : WalShared α) (k : RestartCaller) : Prop :=
  c.writeLock = 1 ∧ c.hdr = σ.hdr0 ∧
    match k with
    | .writer => c.readLock = some 0 ∧ c.ckptLock = false ∧ c.Job
    | .checkpointer => c.HasHdr σ ∧ c.ckptLock = true

/-- The pages of the log and of the open transaction. -/
def pages (c : WalConn α) (σ : WalShared α) : List ℕ := σ.log ++ c.own.map Prod.fst

/-- The last frame that the connection may read. -/
def top (c : WalConn α) : ℕ := if c.readLock = some 0 then 0 else c.mxFrame

/-- What the connection knows at its point of the program. -/
def At (c : WalConn α) (σ : WalShared α) : Pc α → Prop
  | .idle => c.Starting false
  | .tryHdr k => c.Calls k
  | .lockHdr k => c.writeLock = 0 ∧ c.Calls k
  | .tryHdr1 k h => c.Calls k ∧ σ.Seen h ∧ (c.writeLock = 1 → h = σ.hdr0)
  | .retryHdr k => c.CallsLocked k
  | .retryHdr1 k h => c.CallsLocked k ∧ h = σ.hdr0
  | .unlockHdr k => c.CallsLocked k ∧ c.hdr = σ.hdr0
  | .recover => False
  | .tryBegin => c.Starting false ∧ σ.Seen c.hdr
  | .lockZero | .checkZero =>
    c.Starting false ∧ σ.Seen c.hdr ∧ (c.hdr = σ.hdr0 → σ.nBackfill = c.hdr.mxFrame)
  | .scan u i m mxI | .tryMark u i m mxI =>
    c.Starting u ∧ σ.Seen c.hdr ∧ 1 ≤ i ∧ mxI < WAL_NREADER ∧ m ≤ c.hdr.mxFrame
  | .setMark u i | .unlockMark u i =>
    c.Starting u ∧ σ.Seen c.hdr ∧ 1 ≤ i ∧ i < WAL_NREADER
  | .lockMark u i m | .loadMin u i m =>
    c.Starting u ∧ σ.Seen c.hdr ∧ 1 ≤ i ∧ i < WAL_NREADER ∧ m ≤ c.hdr.mxFrame
  | .checkMark u i m =>
    c.Starting u ∧ σ.Seen c.hdr ∧ 1 ≤ i ∧ i < WAL_NREADER ∧ m ≤ c.hdr.mxFrame ∧
      c.minFrame ≤ σ.nBackfill + 1
  | .checkHdr u i m =>
    c.Starting u ∧ σ.Seen c.hdr ∧ 1 ≤ i ∧ i < WAL_NREADER ∧ m ≤ c.hdr.mxFrame ∧
      c.minFrame ≤ σ.nBackfill + 1 ∧ σ.aReadMark i = some m
  | .unlockRead u _ => c.Starting u
  | .ready => c.Open
  | .find p l =>
    c.Open ∧ c.readLock ≠ some 0 ∧
      l.Ok σ.apWiData ((c.pages σ).take c.mxFrame) c.minFrame p
  | .found p r => c.Open ∧ IsLatest (framesOf (c.pages σ) c.minFrame c.top p) r
  | .checkWrite | .unlockWrite => c.Open ∧ c.writeLock = 1
  | .restartLog | .lockRestart | .leaveZero =>
    c.writeLock = 1 ∧ c.readLock = some 0 ∧ c.ckptLock = false ∧ c.Job
  | .restart k .hdr1 => c.Restarts σ k ∧ c.hdr.mxFrame ≤ σ.nBackfill
  | .restart k .hdr0 =>
    c.Restarts σ k ∧ c.hdr.mxFrame ≤ σ.nBackfill ∧ σ.hdr1 = c.hdr.restart
  | .restart k .nBackfill | .restart k (.readMark _) => c.Restarts σ k ∧ c.hdr.mxFrame = 0
  | .truncateWal => c.Restarts σ .checkpointer ∧ c.hdr.mxFrame = 0
  | .unlockRestart k => c.Restarts σ k
  | .frames =>
    c.Appends σ ∧ (c.iFirst ≠ 0 → c.iFirst = c.hdr.mxFrame + 1) ∧ (∀ x ∈ c.pList, x.1 ≠ 0) ∧
      (c.nTruncate ≠ 0 → c.pList = [] → c.appended ≠ [])
  | .store ms .undo =>
    c.Open ∧ c.writeLock = 1 ∧ ∀ m ∈ ms, Indexes m (c.pages σ)
  | .store ms .frames =>
    c.Appends σ ∧ (∀ m ∈ ms, Indexes m (c.pages σ)) ∧ (c.nTruncate ≠ 0 → c.appended ≠ []) ∧
      Indexes (ms.getLast?.getD σ.apWiData) (c.pages σ ++ c.appended.map Prod.fst)
  | .publish1 => c.Framing ∧ c.own ≠ []
  | .publish0 => c.Framing ∧ c.own ≠ [] ∧ σ.hdr1 = c.newHdr
  | .aborted => c.Starting true
  | .lockCkptWrite => c.readLock = none ∧ c.writeLock = 0 ∧ c.ckptLock = true
  | .ckptStart => c.HasHdr σ
  | .ckptMark i s => c.Copies σ s ∧ 1 ≤ i
  | .ckptTry i s y => c.Copies σ s ∧ 1 ≤ i ∧ y < s
  | .ckptSet i s | .ckptUnlock i s => c.Copies σ s ∧ 1 ≤ i
  | .ckptInit s => c.Copies σ s
  | .ckptIter s => c.Copies σ s ∧ σ.nBackfill < s
  | .ckptRead s n f it =>
    c.Copies σ s ∧ n < s ∧ 0 < f ∧ f ≤ c.hdr.mxFrame + 1 ∧
      (c.hdr.aSalt = σ.hdr0.aSalt → σ.nBackfill = n ∧ σ.Iterates (f - 1) it)
  | .ckptLockZero s it | .ckptLoad s it =>
    c.Copies σ s ∧ 0 < s ∧
      (c.hdr.aSalt = σ.hdr0.aSalt → σ.nBackfill < s ∧ σ.Iterates c.hdr.mxFrame it)
  | .ckptSalt s n it =>
    c.Copies σ s ∧ 0 < s ∧
      (c.hdr.aSalt = σ.hdr0.aSalt →
        σ.nBackfill < s ∧ n = σ.nBackfill ∧ σ.Iterates c.hdr.mxFrame it)
  | .ckptCopy s n it iPrior =>
    c.Backfills σ s ∧ n = σ.nBackfill ∧ σ.Iterates c.hdr.mxFrame it ∧
      σ.Copied c.hdr s (iPrior + 1)
  | .ckptWrite s n it p a =>
    c.Backfills σ s ∧ n = σ.nBackfill ∧ σ.Iterates c.hdr.mxFrame it ∧ σ.Copied c.hdr s p ∧
      ∃ f, IsLatest (framesOf σ.log 0 c.hdr.mxFrame p) f ∧ n < f ∧ f ≤ s ∧ a = σ.wal f
  | .ckptSize s | .ckptTrunc s | .ckptPublish s =>
    c.Backfills σ s ∧ ∀ b, σ.Copied c.hdr s b
  | .ckptUnlockZero _ | .ckptTail => c.HasHdr σ ∧ c.ckptLock = true
  | .ckptLockAll =>
    c.HasHdr σ ∧ c.ckptLock = true ∧ c.writeLock = 1 ∧ c.hdr.mxFrame ≤ σ.nBackfill
  | .ckptEnd => c.readLock = none ∧ c.writeLock ≤ 1
  | .ckptDone => c.readLock = none ∧ c.writeLock = 0

/-- Read lock `k` keeps what the connection reads. -/
structure Pinned (c : WalConn α) (σ : WalShared α) (k : ℕ) : Prop where
  lt : k < WAL_NREADER
  seen : σ.Seen c.hdr
  shows : σ.Shows c.minFrame (if k = 0 then 0 else c.hdr.mxFrame) c.snap
  current : c.hdr = σ.hdr0 → c.snap = σ.state
  salt : k ≠ 0 → c.hdr.aSalt = σ.hdr0.aSalt
  mark : k ≠ 0 → ∃ y, σ.aReadMark k = some y ∧ y ≤ c.hdr.mxFrame
  minFrame : k ≠ 0 → c.minFrame ≤ σ.nBackfill + 1
  zero : k = 0 → c.pc.storingBackfill = false → c.hdr = σ.hdr0 → σ.nBackfill = c.hdr.mxFrame
  noOwn : k = 0 → c.own = []

/-- Between `sqlite3WalBeginWriteTransaction` and `sqlite3WalEndWriteTransaction`. -/
def Writing (c : WalConn α) : Prop := c.writeLock = 1 ∧ c.pc.inWrite = true

/-- The writer has the last committed state, and its own frames after the log. -/
structure Writes (c : WalConn α) (σ : WalShared α) : Prop where
  hdr : c.hdr = σ.hdr0
  indexes : Indexes σ.apWiData (c.pages σ)
  wal : ∀ (j : ℕ) x, c.own[j]? = some x → σ.wal (c.hdr.mxFrame + j + 1) = x.2
  snap : c.snap = σ.state
  savepoints : ∀ d ∈ c.savepoints,
    d.2 ≤ c.nCkpt ∧ c.hdr.mxFrame ≤ (savepointData c.nCkpt d).1

/-- The invariant of a connection. -/
structure Local (c : WalConn α) (σ : WalShared α) : Prop where
  pinned : ∀ k, c.readLock = some k → c.Pinned σ k
  writes : c.Writing → c.Writes σ
  noOwn : ¬ c.Writing → c.own = []
  here : c.At σ c.pc

/-! ## What the others must leave as it is -/

/-- What a step of another connection changed is nothing that this one relies on. -/
structure Carry (c : WalConn α) (σ σ' : WalShared α) : Prop where
  seen : ∀ h, σ.Seen h → σ'.Seen h
  lock : c.writeLock ≠ 0 → σ'.hdr0 = σ.hdr0 ∧ σ'.hdr1 = σ.hdr1 ∧ σ'.log = σ.log ∧
    σ'.state = σ.state ∧ σ'.apWiData = σ.apWiData ∧ σ'.wal = σ.wal ∧ σ.nBackfill ≤ σ'.nBackfill
  current : σ.Seen c.hdr → c.hdr = σ'.hdr0 → c.hdr = σ.hdr0 ∧ σ'.state = σ.state
  zero : σ.Seen c.hdr → c.hdr = σ'.hdr0 → σ.nBackfill = c.hdr.mxFrame →
    σ'.nBackfill = c.hdr.mxFrame
  mark : ∀ k, c.shRead k → σ'.aReadMark k = σ.aReadMark k
  minFrame : ∀ k, c.shRead k → 1 ≤ k → k < WAL_NREADER → σ.nBackfill ≤ σ'.nBackfill
  salt : ∀ k, c.readLock = some k → 1 ≤ k → k < WAL_NREADER →
    σ'.hdr0.aSalt = σ.hdr0.aSalt ∧ σ.log <+: σ'.log
  shows : ∀ k, c.readLock = some k → c.Pinned σ k →
    σ'.Shows c.minFrame (if k = 0 then 0 else c.hdr.mxFrame) c.snap
  backfill : c.ckptLock = true → σ'.nBackfill ≤ σ.nBackfill
  ckpt : c.ckptLock = true → σ.Seen c.hdr → 0 < c.hdr.mxFrame →
    c.hdr.aSalt = σ'.hdr0.aSalt → c.hdr.aSalt = σ.hdr0.aSalt ∧ σ'.nBackfill = σ.nBackfill ∧
      σ.log <+: σ'.log ∧ (∀ f, 0 < f → f ≤ c.hdr.mxFrame → σ'.wal f = σ.wal f) ∧ σ'.db = σ.db
  salt0 : c.exRead 0 → σ'.hdr0.aSalt = σ.hdr0.aSalt

variable {c : WalConn α} {σ σ' : WalShared α}

theorem Carry.same_hdr (hc : c.Carry σ σ') (hw : c.writeLock ≠ 0) (h : c.hdr = σ.hdr0) :
    c.hdr = σ'.hdr0 := h.trans (hc.lock hw).1.symm

theorem Carry.same_pages (hc : c.Carry σ σ') (hw : c.writeLock ≠ 0) :
    c.pages σ' = c.pages σ := by
  unfold pages
  rw [(hc.lock hw).2.2.1]

theorem HasHdr.carry (h : c.HasHdr σ) (hc : c.Carry σ σ') : c.HasHdr σ' :=
  { h with
    seen := hc.seen _ h.seen
    hdr := fun hw => hc.same_hdr (by omega) (h.hdr hw) }

theorem Copies.carry {s : ℕ} (h : c.Copies σ s) (hc : c.Carry σ σ') : c.Copies σ' s :=
  { h.toHasHdr.carry hc with locked := h.locked, le := h.le }

theorem Restarts.carry {k : RestartCaller} (h : c.Restarts σ k) (hc : c.Carry σ σ') :
    c.Restarts σ' k := by
  obtain ⟨hw, hh, hk⟩ := h
  refine ⟨hw, hc.same_hdr (by omega) hh, ?_⟩
  cases k with
  | writer => exact hk
  | checkpointer => exact ⟨hk.1.carry hc, hk.2⟩

theorem Appends.carry (h : c.Appends σ) (hc : c.Carry σ σ') : c.Appends σ' := by
  obtain ⟨-, -, -, -, -, hwal, -⟩ := hc.lock (by rw [h.writeLock]; decide)
  exact { h with wal := fun j x hx => hwal ▸ h.wal j x hx }

theorem iterates_grow {n : ℕ} {it : List (ℕ × ℕ)} (h : σ.Iterates n it)
    (hb : σ'.nBackfill = σ.nBackfill) (hl : σ.log <+: σ'.log) (hn : n ≤ σ.log.length) :
    σ'.Iterates n it := by
  obtain ⟨l, hl⟩ := hl
  have hget : ∀ g, 0 < g → g ≤ n → σ'.log[g - 1]? = σ.log[g - 1]? := by
    intro g h0 hg
    rw [← hl, List.getElem?_append_left (by omega)]
  refine ⟨fun p g hg => ?_, fun p g hg hle hp => ?_⟩
  · obtain ⟨h0, hle, hp⟩ := h.sound p g hg
    exact ⟨h0, hle, (hget g h0 hle).trans hp⟩
  · rw [hget g (by omega) hle] at hp
    exact h.complete p g (hb ▸ hg) hle hp

theorem framesOf_grow {minFrame m p : ℕ} (hl : σ.log <+: σ'.log) (hm : m ≤ σ.log.length) :
    framesOf σ'.log minFrame m p = framesOf σ.log minFrame m p := by
  obtain ⟨l, hl⟩ := hl
  rw [← hl, framesOf_append hm]

theorem copied_congr {h : Hdr} {s b : ℕ} (hcopy : σ.Copied h s b)
    (hb : σ'.nBackfill = σ.nBackfill) (hl : σ.log <+: σ'.log) (hm : h.mxFrame ≤ σ.log.length)
    (hwal : ∀ f, 0 < f → f ≤ h.mxFrame → σ'.wal f = σ.wal f) (hdb : σ'.db = σ.db) :
    σ'.Copied h s b := by
  intro p hp hn g hg hlt hle
  rw [framesOf_grow hl hm] at hg
  rw [hb] at hlt
  rw [hdb, hwal g (by omega) (hg.mem (by omega)).2.2.1]
  exact hcopy p hp hn g hg hlt hle

theorem Backfills.pos {s : ℕ} (h : c.Backfills σ s) : 0 < c.hdr.mxFrame := by
  have := h.lt
  have := h.le
  omega

theorem Copies.mxFrame_le {s : ℕ} (h : c.Copies σ s) (hσ : σ.Ok)
    (he : c.hdr.aSalt = σ.hdr0.aSalt) : c.hdr.mxFrame ≤ σ.log.length := by
  rw [hσ.length]
  exact (h.seen.past he).mxFrame

/-- What a checkpoint with read lock `0` finds unchanged. -/
theorem Backfills.carry {s : ℕ} (h : c.Backfills σ s) (hc : c.Carry σ σ') (hx : c.exRead 0) :
    c.Backfills σ' s ∧ σ'.nBackfill = σ.nBackfill ∧ σ.log <+: σ'.log ∧
      (∀ f, 0 < f → f ≤ c.hdr.mxFrame → σ'.wal f = σ.wal f) ∧ σ'.db = σ.db := by
  have he : c.hdr.aSalt = σ'.hdr0.aSalt := h.salt.trans (hc.salt0 hx).symm
  obtain ⟨-, hb, hl, hwal, hdb⟩ := hc.ckpt h.locked h.seen h.pos he
  exact ⟨{ h.toCopies.carry hc with salt := he, lt := hb ▸ h.lt }, hb, hl, hwal, hdb⟩

/-- The frames that the connection may read stay as they are. -/
theorem take_pages (hσ : σ.Ok) (hp : ∀ k, c.readLock = some k → c.Pinned σ k)
    (hn : ¬ c.Writing → c.own = []) (ho : c.Open) (hc : c.Carry σ σ') :
    (c.pages σ').take c.top = (c.pages σ).take c.top := by
  by_cases hw : c.writeLock = 0
  · obtain ⟨k, hk⟩ := ho.readLock
    by_cases hk0 : k = 0
    · have h0 : c.top = 0 := by rw [top, hk, hk0, if_pos rfl]
      rw [h0, List.take_zero, List.take_zero]
    · have hpin := hp k hk
      have hown : c.own = [] := hn fun h => by
        have := h.1
        omega
      have hmx : c.top = c.hdr.mxFrame := by
        rw [top, hk, if_neg (by simpa using hk0), mxFrame, hown, List.length_nil, Nat.add_zero]
      have hle := (hpin.seen.past (hpin.salt hk0)).mxFrame
      rw [← hσ.length] at hle
      obtain ⟨-, l, hl⟩ := hc.salt k hk (by omega) hpin.lt
      rw [pages, pages, hown, hmx, List.map_nil, List.append_nil, List.append_nil, ← hl,
        List.take_append_of_le_length hle]
  · rw [hc.same_pages hw]

theorem at_carry (hσ : σ.Ok) (hσ' : σ'.Ok) (hp : ∀ k, c.readLock = some k → c.Pinned σ k)
    (hn : ¬ c.Writing → c.own = []) (h : c.At σ c.pc) (hc : c.Carry σ σ') : c.At σ' c.pc := by
  generalize hq : c.pc = q at h ⊢
  cases q
  case idle | tryHdr | lockHdr | retryHdr | unlockRead | ready | checkWrite | unlockWrite
      | restartLog | lockRestart | leaveZero | publish1 | aborted | lockCkptWrite | ckptEnd
      | ckptDone => exact h
  case recover => exact h
  case tryHdr1 k h1 =>
    obtain ⟨h1, h2, h3⟩ := h
    exact ⟨h1, hc.seen _ h2, fun hw => (h3 hw).trans (hc.lock (by omega)).1.symm⟩
  case retryHdr1 k h1 =>
    exact ⟨h.1, h.2.trans (hc.lock h.1.1).1.symm⟩
  case unlockHdr k => exact ⟨h.1, h.2.trans (hc.lock h.1.1).1.symm⟩
  case tryBegin => exact ⟨h.1, hc.seen _ h.2⟩
  case lockZero | checkZero =>
    obtain ⟨h1, h2, h3⟩ := h
    exact ⟨h1, hc.seen _ h2, fun he => hc.zero h2 he (h3 (hc.current h2 he).1)⟩
  case scan u i m mxI | tryMark u i m mxI => exact ⟨h.1, hc.seen _ h.2.1, h.2.2⟩
  case setMark u i | unlockMark u i => exact ⟨h.1, hc.seen _ h.2.1, h.2.2⟩
  case lockMark u i m | loadMin u i m => exact ⟨h.1, hc.seen _ h.2.1, h.2.2⟩
  case checkMark u i m =>
    obtain ⟨h1, h2, h3, h4, h5, h6⟩ := h
    have hsh : c.shRead i := .inr (by rw [hq]; rfl)
    have := hc.minFrame i hsh h3 h4
    exact ⟨h1, hc.seen _ h2, h3, h4, h5, by omega⟩
  case checkHdr u i m =>
    obtain ⟨h1, h2, h3, h4, h5, h6, h7⟩ := h
    have hsh : c.shRead i := .inr (by rw [hq]; rfl)
    have := hc.minFrame i hsh h3 h4
    exact ⟨h1, hc.seen _ h2, h3, h4, h5, by omega, (hc.mark i hsh).trans h7⟩
  case find p l =>
    obtain ⟨ho, hk0, hl⟩ := h
    have htop : c.top = c.mxFrame := if_neg hk0
    have hsame := take_pages hσ hp hn ho hc
    rw [htop] at hsame
    refine ⟨ho, hk0, ?_⟩
    by_cases hw : c.writeLock = 0
    · have hown : c.own = [] := hn fun h => by
        have := h.1
        omega
      have hpages : ∀ τ, c.pages τ = τ.log := fun τ => by
        rw [pages, hown, List.map_nil, List.append_nil]
      rw [hpages, hpages] at hsame
      rw [hpages] at hl ⊢
      have hix := hσ'.indexes.take c.mxFrame
      rw [hsame] at hix ⊢
      exact hl.congr (hσ.indexes.take _) hix
    · rw [hsame, (hc.lock hw).2.2.2.2.1]
      exact hl
  case found p r =>
    obtain ⟨ho, hr⟩ := h
    refine ⟨ho, ?_⟩
    rwa [← framesOf_take le_rfl, take_pages hσ hp hn ho hc, framesOf_take le_rfl]
  case restart k ph =>
    cases ph with
    | hdr1 =>
      obtain ⟨h1, h2⟩ := h
      exact ⟨h1.carry hc, h2.trans (hc.lock (by rw [h1.1]; decide)).2.2.2.2.2.2⟩
    | hdr0 =>
      obtain ⟨h1, h2, h3⟩ := h
      have hlock := hc.lock (by rw [h1.1]; decide)
      exact ⟨h1.carry hc, h2.trans hlock.2.2.2.2.2.2, hlock.2.1.trans h3⟩
    | nBackfill => exact ⟨h.1.carry hc, h.2⟩
    | readMark i => exact ⟨h.1.carry hc, h.2⟩
  case truncateWal => exact ⟨h.1.carry hc, h.2⟩
  case unlockRestart k => exact h.carry hc
  case frames => exact ⟨h.1.carry hc, h.2⟩
  case store ms k =>
    cases k with
    | undo =>
      obtain ⟨h1, h2, h3⟩ := h
      refine ⟨h1, h2, ?_⟩
      rwa [hc.same_pages (by omega)]
    | frames =>
      obtain ⟨h1, h2⟩ := h
      have hw : c.writeLock ≠ 0 := by rw [h1.writeLock]; decide
      refine ⟨h1.carry hc, ?_⟩
      rwa [hc.same_pages hw, (hc.lock hw).2.2.2.2.1]
  case publish0 =>
    obtain ⟨h1, h2, h3⟩ := h
    exact ⟨h1, h2, (hc.lock (by rw [h1.writeLock]; decide)).2.1.trans h3⟩
  case ckptStart => exact h.carry hc
  case ckptMark i s => exact ⟨h.1.carry hc, h.2⟩
  case ckptTry i s y => exact ⟨h.1.carry hc, h.2⟩
  case ckptSet i s | ckptUnlock i s => exact ⟨h.1.carry hc, h.2⟩
  case ckptInit s => exact h.carry hc
  case ckptIter s =>
    exact ⟨h.1.carry hc, lt_of_le_of_lt (hc.backfill h.1.locked) h.2⟩
  case ckptRead s n f it =>
    obtain ⟨h1, h2, h3, h4, h5⟩ := h
    refine ⟨h1.carry hc, h2, h3, h4, fun he => ?_⟩
    have hle := h1.le
    obtain ⟨he', hb, hl, -⟩ := hc.ckpt h1.locked h1.seen (by omega) he
    obtain ⟨hn, hit⟩ := h5 he'
    have := h1.mxFrame_le hσ he'
    exact ⟨hb.trans hn, iterates_grow hit hb hl (by omega)⟩
  case ckptLockZero s it | ckptLoad s it =>
    obtain ⟨h1, h2, h3⟩ := h
    refine ⟨h1.carry hc, h2, fun he => ?_⟩
    have hle := h1.le
    obtain ⟨he', hb, hl, -⟩ := hc.ckpt h1.locked h1.seen (by omega) he
    obtain ⟨hlt, hit⟩ := h3 he'
    exact ⟨hb ▸ hlt, iterates_grow hit hb hl (h1.mxFrame_le hσ he')⟩
  case ckptSalt s n it =>
    obtain ⟨h1, h2, h3⟩ := h
    refine ⟨h1.carry hc, h2, fun he => ?_⟩
    have hle := h1.le
    obtain ⟨he', hb, hl, -⟩ := hc.ckpt h1.locked h1.seen (by omega) he
    obtain ⟨hlt, hn, hit⟩ := h3 he'
    exact ⟨hb ▸ hlt, hn.trans hb.symm, iterates_grow hit hb hl (h1.mxFrame_le hσ he')⟩
  case ckptCopy s n it iPrior =>
    obtain ⟨h1, h2, h3, h4⟩ := h
    have hle := h1.mxFrame_le hσ h1.salt
    obtain ⟨h1', hb, hl, hwal, hdb⟩ := h1.carry hc (exRead_at hq rfl)
    exact ⟨h1', h2.trans hb.symm, iterates_grow h3 hb hl hle, copied_congr h4 hb hl hle hwal hdb⟩
  case ckptWrite s n it p a =>
    obtain ⟨h1, h2, h3, h4, f, hf, hlt, hfs, ha⟩ := h
    have hle := h1.mxFrame_le hσ h1.salt
    obtain ⟨h1', hb, hl, hwal, hdb⟩ := h1.carry hc (exRead_at hq rfl)
    refine ⟨h1', h2.trans hb.symm, iterates_grow h3 hb hl hle,
      copied_congr h4 hb hl hle hwal hdb, f, ?_, hlt, hfs, ?_⟩
    · rwa [framesOf_grow hl hle]
    · rw [ha, hwal f (by omega) (hf.mem (by omega)).2.2.1]
  case ckptSize s | ckptTrunc s | ckptPublish s =>
    obtain ⟨h1, h2⟩ := h
    have hle := h1.mxFrame_le hσ h1.salt
    obtain ⟨h1', hb, hl, hwal, hdb⟩ := h1.carry hc (exRead_at hq rfl)
    exact ⟨h1', fun b => copied_congr (h2 b) hb hl hle hwal hdb⟩
  case ckptUnlockZero | ckptTail => exact ⟨h.1.carry hc, h.2⟩
  case ckptLockAll =>
    obtain ⟨h1, h2, h3, h4⟩ := h
    exact ⟨h1.carry hc, h2, h3, h4.trans (hc.lock (by omega)).2.2.2.2.2.2⟩

theorem Local.carry (hσ : σ.Ok) (hσ' : σ'.Ok) (h : c.Local σ) (hc : c.Carry σ σ') :
    c.Local σ' := by
  refine ⟨fun k hk => ?_, fun hw => ?_, h.noOwn, at_carry hσ hσ' h.pinned h.noOwn h.here hc⟩
  · have hp := h.pinned k hk
    have hsh : c.shRead k := .inl hk
    refine ⟨hp.lt, hc.seen _ hp.seen, hc.shows k hk hp, fun he => ?_, fun h0 => ?_, fun h0 => ?_,
      fun h0 => ?_, fun h0 hs he => ?_, hp.noOwn⟩
    · obtain ⟨he', hst⟩ := hc.current hp.seen he
      exact (hp.current he').trans hst.symm
    · exact (hp.salt h0).trans (hc.salt k hk (by omega) hp.lt).1.symm
    · rw [hc.mark k hsh]
      exact hp.mark h0
    · have := hc.minFrame k hsh (by omega) hp.lt
      have := hp.minFrame h0
      omega
    · exact hc.zero hp.seen he (hp.zero h0 hs (hc.current hp.seen he).1)
  · have hw0 : c.writeLock ≠ 0 := by rw [hw.1]; decide
    obtain ⟨hh, -, -, hst, hix, hwal, -⟩ := hc.lock hw0
    have hwr := h.writes hw
    exact ⟨hwr.hdr.trans hh.symm, hix ▸ hc.same_pages hw0 ▸ hwr.indexes,
      fun j x hx => hwal ▸ hwr.wal j x hx, hwr.snap.trans hst.symm, hwr.savepoints⟩

end WalConn

end Btreelite
