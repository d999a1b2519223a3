import Btreelite.WalEffect

/-!
# The steps of a connection

Every step stores only what `Effect` allows and leaves the connection with its invariant. What a
connection with the write lock knows of the two copies of the header comes from all connections
together, so it is a hypothesis here (`Settled`).
-/

namespace Btreelite

open WalShared

variable {α : Type} {free : FreeLocks} {c c' : WalConn α} {σ σ' : WalShared α} {e : WalEvent α}
  {q : Pc α}

namespace WalConn

/-! ## Steps that only go on -/

theorem Job.setPc (h : c.Job) : WalConn.Job { c with pc := q } :=
  ⟨h.own, h.appended, h.pList, h.pages, h.iFirst⟩

theorem Starting.setPc {u : Bool} (h : c.Starting u) : WalConn.Starting { c with pc := q } u :=
  ⟨h.readLock, h.writeLock, h.ckptLock, fun hu => (h.job hu).setPc⟩

theorem Checkpointing.setPc (h : c.Checkpointing) :
    WalConn.Checkpointing { c with pc := q } := ⟨h.readLock, h.writeLock, h.ckptLock, h.mode⟩

theorem Calls.setPc {k : HdrCaller} (h : c.Calls k) : WalConn.Calls { c with pc := q } k := by
  cases k with
  | reader => exact Starting.setPc h
  | checkpointer => exact Checkpointing.setPc h

theorem CallsLocked.setPc {k : HdrCaller} (h : c.CallsLocked k) :
    WalConn.CallsLocked { c with pc := q } k := ⟨h.1, Calls.setPc h.2⟩

theorem HasHdr.setPc (h : c.HasHdr σ) : WalConn.HasHdr { c with pc := q } σ :=
  ⟨h.toCheckpointing.setPc, h.seen, h.hdr⟩

theorem Copies.setPc {s : ℕ} (h : c.Copies σ s) : WalConn.Copies { c with pc := q } σ s :=
  ⟨h.toHasHdr.setPc, h.locked, h.le⟩

theorem Backfills.setPc {s : ℕ} (h : c.Backfills σ s) :
    WalConn.Backfills { c with pc := q } σ s :=
  ⟨h.toCopies.setPc, h.salt, h.lt⟩

theorem Open.setPc (h : c.Open) : WalConn.Open { c with pc := q } :=
  ⟨h.readLock, h.writeLock, h.ckptLock⟩

theorem Framing.setPc (h : c.Framing) : WalConn.Framing { c with pc := q } :=
  ⟨h.readLock, h.writeLock, h.ckptLock⟩

theorem Appends.setPc (h : c.Appends σ) : WalConn.Appends { c with pc := q } σ :=
  ⟨h.toFraming.setPc, h.pages, h.wal⟩

theorem Restarts.setPc {k : RestartCaller} (h : c.Restarts σ k) :
    WalConn.Restarts { c with pc := q } σ k := by
  cases k with
  | writer => exact ⟨h.1, h.2.1, h.2.2.1, h.2.2.2.1, h.2.2.2.2.setPc⟩
  | checkpointer => exact ⟨h.1, h.2.1, h.2.2.1.setPc, h.2.2.2⟩

theorem Writes.setPc (h : c.Writes σ) : WalConn.Writes { c with pc := q } σ :=
  ⟨h.hdr, h.indexes, h.wal, h.snap, h.savepoints⟩

/-- What is true at a point does not depend on being there. -/
theorem At.setPc {q' : Pc α} (h : c.At σ q) : WalConn.At { c with pc := q' } σ q := by
  cases q
  case idle => exact Starting.setPc h
  case tryHdr => exact Calls.setPc h
  case lockHdr => exact ⟨h.1, h.2.setPc⟩
  case tryHdr1 => exact ⟨h.1.setPc, h.2⟩
  case retryHdr => exact CallsLocked.setPc h
  case retryHdr1 | unlockHdr => exact ⟨h.1.setPc, h.2⟩
  case recover => exact h
  case tryBegin | lockZero | checkZero | scan | tryMark | setMark | unlockMark | lockMark
      | loadMin | checkMark | checkHdr => exact ⟨h.1.setPc, h.2⟩
  case unlockRead => exact Starting.setPc h
  case ready => exact Open.setPc h
  case find | found | checkWrite | unlockWrite => exact ⟨h.1.setPc, h.2⟩
  case restartLog | lockRestart | leaveZero => exact ⟨h.1, h.2.1, h.2.2.1, h.2.2.2.setPc⟩
  case restart k ph =>
    cases ph
    all_goals exact ⟨h.1.setPc, h.2⟩
  case truncateWal => exact ⟨h.1.setPc, h.2⟩
  case unlockRestart => exact Restarts.setPc h
  case frames => exact ⟨h.1.setPc, h.2⟩
  case store ms k =>
    cases k
    all_goals exact ⟨h.1.setPc, h.2⟩
  case publish1 | publish0 => exact ⟨h.1.setPc, h.2⟩
  case aborted => exact Starting.setPc h
  case lockCkptWrite => exact h
  case ckptStart => exact HasHdr.setPc h
  case ckptInit => exact Copies.setPc h
  case ckptMark | ckptTry | ckptSet | ckptUnlock | ckptIter | ckptRead | ckptLockZero | ckptLoad
      | ckptSalt => exact ⟨h.1.setPc, h.2⟩
  case ckptCopy | ckptWrite | ckptSize | ckptTrunc | ckptPublish => exact ⟨h.1.setPc, h.2⟩
  case ckptUnlockZero | ckptTail | ckptLockAll => exact ⟨h.1.setPc, h.2⟩
  case ckptEnd | ckptDone => exact h

/-- The same transaction at another point. -/
theorem Pinned.congr {k : ℕ} (h : c.Pinned σ k) (hz : c.pc.storingBackfill = false)
    (hh : c'.hdr = c.hdr) (hm : c'.minFrame = c.minFrame) (hs : c'.snap = c.snap)
    (ho : k = 0 → c'.own = []) : c'.Pinned σ k := by
  refine ⟨h.lt, hh ▸ h.seen, ?_, fun he => ?_, fun h0 => hh ▸ h.salt h0, fun h0 => hh ▸ h.mark h0,
    fun h0 => hm ▸ h.minFrame h0, fun h0 _ he => ?_, ho⟩
  · rw [hh, hm, hs]
    exact h.shows
  · exact hs.trans (h.current (hh ▸ he))
  · rw [hh] at he ⊢
    exact h.zero h0 hz he

/-- A step to a point of the same kind. -/
theorem Local.goto {q₀ : Pc α} (h : c.Local σ) (hpc : c.pc = q₀)
    (hw : c.At σ q₀ → c.writeLock = 1 → q.inWrite = q₀.inWrite) (hz : q₀.storingBackfill = false)
    (hq : c.At σ q₀ → c.At σ q) : WalConn.Local { c with pc := q } σ := by
  subst hpc
  have hwr : WalConn.Writing { c with pc := q } ↔ c.Writing := by
    unfold Writing
    exact and_congr_right fun h1 => by rw [hw h.here h1]
  refine ⟨fun k hk => ?_, fun hwrite => (h.writes (hwr.1 hwrite)).setPc,
    fun hno => h.noOwn fun hwrite => hno (hwr.2 hwrite), (hq h.here).setPc⟩
  exact (h.pinned k hk).congr hz rfl rfl rfl (h.pinned k hk).noOwn

/-- Without a read lock and outside a write transaction, only the point counts. -/
theorem Local.outside (hr : c.readLock = none) (hw : ¬ c.Writing) (ho : c.own = [])
    (hq : c.At σ c.pc) : c.Local σ :=
  ⟨fun k hk => absurd (hr ▸ hk) (by simp), fun h => absurd h hw, fun _ => ho, hq⟩

/-- What a connection with the write lock knows. -/
structure Settled (c : WalConn α) (σ : WalShared α) : Prop where
  copies : c.writeLock ≠ 0 → c.pc.storingHdr = false → σ.hdr1 = σ.hdr0
  backfill : c.writeLock = 1 → c.pc.storingBackfill = false → σ.nBackfill ≤ σ.hdr0.mxFrame

/-- A step to `c'` and `σ'` keeps the invariant of the connection and the others'. -/
structure Keeps [Inhabited α] (c : WalConn α) (σ σ' : WalShared α) (c' : WalConn α) : Prop where
  effect : c.Effect σ σ'
  here : c'.Local σ'

/-! ## Reading the header -/

theorem Calls.congr {k : HdrCaller} (h : c.Calls k) (hr : c'.readLock = c.readLock)
    (hw : c'.writeLock = c.writeLock) (hl : c'.ckptLock = c.ckptLock)
    (hm : c'.eMode = c.eMode) : c'.Calls k := by
  cases k with
  | reader =>
    have h : c.Starting false := h
    exact ⟨hr.trans h.readLock, hw.trans h.writeLock, hl.trans h.ckptLock, fun h => by cases h⟩
  | checkpointer =>
    have h : c.Checkpointing := h
    exact ⟨hr.trans h.readLock, hw.trans_le h.writeLock, fun e => hl.trans (h.ckptLock (hm ▸ e)),
      fun e => hw.trans (h.mode (hm ▸ e))⟩

theorem Calls.readLock {k : HdrCaller} (h : c.Calls k) : c.readLock = none := by
  cases k with
  | reader => exact Starting.readLock h
  | checkpointer => exact Checkpointing.readLock h

theorem Calls.writeLock {k : HdrCaller} (h : c.Calls k) : c.writeLock ≤ 1 := by
  cases k with
  | reader => exact (Starting.writeLock h).le.trans (by decide)
  | checkpointer => exact Checkpointing.writeLock h

theorem not_writing (h : c.pc.inWrite = false) : ¬ c.Writing := fun hw => by
  rw [hw.2] at h
  exact absurd h (by decide)

/-- The header has been read, and the caller goes on. -/
theorem Local.next {k : HdrCaller} {h : Hdr} {n : ℕ} (ho : c.own = [])
    (hcalls : WalConn.Calls { c with writeLock := n } k) (hseen : σ.Seen h)
    (hh : n = 1 → h = σ.hdr0) :
    WalConn.Local { c with hdr := h, writeLock := n, pc := k.next } σ := by
  cases k with
  | reader =>
    have hstart : WalConn.Starting { c with writeLock := n } false := hcalls
    exact .outside hstart.readLock (not_writing rfl) ho
      ⟨⟨hstart.readLock, hstart.writeLock, hstart.ckptLock, fun h => by cases h⟩, hseen⟩
  | checkpointer =>
    have hck : WalConn.Checkpointing { c with writeLock := n } := hcalls
    exact .outside hck.readLock (not_writing rfl) ho
      ⟨⟨hck.readLock, hck.writeLock, hck.ckptLock, hck.mode⟩, hseen, hh⟩

theorem keeps_hdr [Inhabited α] (hσ : σ.Ok) (hc : c.Local σ) (hs : c.Settled σ) (h : HdrAct free σ c e σ' c') :
    c.Keeps σ σ' c' := by
  have hat := hc.here
  cases h with
  | @loadHdr0 k h =>
    exact ⟨.none, hc.goto h (fun _ _ => rfl) rfl fun hat => ⟨hat, hσ.seen, fun _ => rfl⟩⟩
  | @goodHdr k h =>
    rw [h] at hat
    obtain ⟨hcalls, hseen, hh⟩ := hat
    exact ⟨.none, .next (hc.noOwn (not_writing (by rw [h]; rfl))) hcalls hseen hh⟩
  | @dirtyHdr k h1 h he =>
    refine ⟨.none, hc.goto h (fun _ _ => ?_) rfl fun ⟨hcalls, _⟩ => ?_⟩
    · split_ifs <;> rfl
    · split_ifs with hw
      · exact ⟨hw, hcalls⟩
      · have hle := hcalls.writeLock
        exact ⟨hw, hcalls.congr rfl (if_neg (by omega)) rfl rfl⟩
  | @lockHdr k h hf =>
    rw [h] at hat
    obtain ⟨hw, hcalls⟩ := hat
    refine ⟨.none, .outside hcalls.readLock (not_writing rfl)
      (hc.noOwn (not_writing (by rw [h]; rfl))) ⟨by simp only []; omega, ?_⟩⟩
    exact hcalls.congr rfl (by rw [hw]; rfl) rfl rfl
  | @lockHdrBusy k h =>
    rw [h] at hat
    refine ⟨.none, .outside hat.2.readLock (not_writing ?_)
      (hc.noOwn (not_writing (by rw [h]; rfl))) (At.setPc ?_)⟩
    · cases k <;> rfl
    · cases k with
      | reader => exact hat.2
      | checkpointer => exact ⟨hat.2.readLock, hat.2.writeLock⟩
  | @reloadHdr0 k h =>
    exact ⟨.none, hc.goto h (fun _ _ => rfl) rfl fun hat => ⟨hat, rfl⟩⟩
  | @goodHdr' k h =>
    rw [h] at hat
    obtain ⟨⟨hw, hcalls⟩, hh⟩ := hat
    refine ⟨.none, .outside hcalls.readLock (not_writing rfl)
      (hc.noOwn (not_writing (by rw [h]; rfl))) ⟨⟨hw, hcalls.congr rfl rfl rfl rfl⟩, hh⟩⟩
  | @badHdr k h1 h he =>
    rw [h] at hat
    exact absurd ((hs.copies hat.1.1 (by rw [h]; rfl)).trans hat.2.symm) he
  | @unlockHdr k h =>
    rw [h] at hat
    obtain ⟨⟨hw, hcalls⟩, hh⟩ := hat
    refine ⟨.none, .next (hc.noOwn (not_writing (by rw [h]; rfl))) hcalls (hh ▸ hσ.seen) ?_⟩
    exact fun _ => hh

/-! ## Beginning a read transaction -/

/-- A mark whose lock the connection does not hold may change. -/
theorem Local.setMark {i : ℕ} {v : Option ℕ} (hσ : σ.Ok) (h : c.Local σ)
    (hi : ∀ j, c.shRead j → j ≠ i) : c.Local (σ.setMark i v) :=
  h.carry hσ hσ.setMark <| .of_same_hdr rfl rfl rfl rfl
    (fun j hj => Function.update_of_ne (hi j hj) ..) (fun _ => ⟨rfl, rfl, rfl⟩)
    (fun _ _ hp => hp.shows) fun _ => ⟨fun _ _ _ => rfl, rfl⟩

theorem Starting.writing {u : Bool} (h : c.Starting u) (hw : c.writeLock = 1) : u = true := by
  have := h.writeLock
  cases u with
  | true => rfl
  | false => exact absurd (hw.symm.trans this) (by decide)

/-- `WAL_RETRY`. -/
theorem Local.retry {u : Bool} {q₀ : Pc α} (hσ : σ.Ok) (h : c.Local σ) (hpc : c.pc = q₀)
    (hw : q₀.inWrite = true) (hz : q₀.storingBackfill = false) (hst : c.Starting u) :
    WalConn.Local { c with pc := .retry u } σ := by
  refine h.goto hpc (fun _ h1 => ?_) hz fun _ => ?_
  · rw [hst.writing h1, hw]
    rfl
  · cases u with
    | false => exact hst
    | true =>
      have hwr := h.writes ⟨hst.writeLock, by rw [hpc, hw]⟩
      exact ⟨hst, hwr.hdr ▸ hσ.seen, le_rfl, by decide, Nat.zero_le _⟩

/-- The read transaction has begun with a header that is still the last. -/
theorem Local.begun {k : ℕ} (hσ : σ.Ok) (hst : c.Starting false) (ho : c.own = [])
    (hlt : k < WAL_NREADER) (he : σ.hdr0 = c.hdr)
    (hz : k = 0 → σ.nBackfill = c.hdr.mxFrame)
    (hk : k ≠ 0 → c.minFrame ≤ σ.nBackfill + 1 ∧
      ∃ y, σ.aReadMark k = some y ∧ y ≤ c.hdr.mxFrame) :
    WalConn.Local { c with readLock := some k, snap := σ.state, pc := .ready } σ := by
  have hw : c.writeLock = 0 := hst.writeLock
  have hnot : ∀ c' : WalConn α, c'.writeLock = 0 → ¬ c'.Writing := fun c' h0 h => by
    have := h.1
    omega
  refine ⟨fun i hi => ?_, fun h => absurd h (hnot _ hw), fun _ => ho,
    ⟨k, rfl⟩, hw.le.trans (by decide), hst.ckptLock⟩
  obtain rfl : k = i := Option.some_inj.1 hi
  refine ⟨hlt, he ▸ hσ.seen, ?_, fun _ => rfl, fun _ => congrArg Hdr.aSalt he.symm,
    fun h0 => (hk h0).2, fun h0 => (hk h0).1, fun h0 _ _ => hz h0, fun _ => ho⟩
  split_ifs with h0
  · intro p a ha r hr
    obtain rfl := hr.eq_zero
    have hmx := congrArg Hdr.mxFrame he
    have := hz h0
    exact (hσ.shows (σ.nBackfill + 1) le_rfl).db (by omega) ha
  · change σ.Shows c.minFrame c.hdr.mxFrame σ.state
    rw [← he]
    exact hσ.shows _ (hk h0).1

/-- A writer that restarted the log, or left read lock `0`, has a read lock again. -/
theorem Local.begunWal {k : ℕ} (hσ : σ.Ok) (hst : c.Starting true) (hwr : c.Writes σ)
    (h1 : 1 ≤ k) (hlt : k < WAL_NREADER) (he : σ.hdr0 = c.hdr)
    (hk : ∃ y, σ.aReadMark k = some y ∧ y ≤ c.hdr.mxFrame) (hmin : c.minFrame ≤ σ.nBackfill + 1) :
    WalConn.Local { c with readLock := some k, pc := .frames } σ := by
  have hj := hst.job rfl
  have hw : c.writeLock = 1 := hst.writeLock
  refine ⟨fun i hi => ?_,
    fun _ => ⟨hwr.hdr, hwr.indexes, hwr.wal, hwr.snap, hwr.savepoints⟩,
    fun hno => absurd ⟨hw, rfl⟩ hno, ⟨⟨⟨⟨k, rfl, by omega⟩, hw, hst.ckptLock⟩, ?_, ?_⟩, ?_, ?_, ?_⟩⟩
  · obtain rfl : k = i := Option.some_inj.1 hi
    refine ⟨hlt, he ▸ hσ.seen, ?_, fun _ => hwr.snap, fun _ => congrArg Hdr.aSalt he.symm,
      fun _ => hk, fun _ => hmin, fun h0 => absurd h0 (by omega), fun h0 => absurd h0 (by omega)⟩
    rw [if_neg (by omega)]
    change σ.Shows c.minFrame c.hdr.mxFrame c.snap
    rw [← he, hwr.snap]
    exact hσ.shows _ hmin
  · intro x hx
    rw [show c.appended = [] from hj.appended] at hx
    exact absurd hx (List.not_mem_nil)
  · intro j x hx
    change c.appended[j]? = some x at hx
    rw [hj.appended] at hx
    exact absurd hx (by simp)
  · exact fun h0 => absurd hj.iFirst h0
  · exact hj.pages
  · exact fun _ h0 => absurd h0 hj.pList

theorem keeps_begin [Inhabited α] (hσ : σ.Ok) (hc : c.Local σ)
    (h : BeginAct free σ c e σ' c') : c.Keeps σ σ' c' := by
  have hat := hc.here
  cases h with
  | openRead h => exact ⟨.none, hc.goto h (fun _ _ => rfl) rfl fun hat => hat⟩
  | giveUp h => exact ⟨.none, hc.goto h (fun _ _ => rfl) rfl fun hat => hat⟩
  | tryBegin h =>
    refine ⟨.none, hc.goto h (fun hat hw => ?_) rfl fun ⟨hst, hseen⟩ => ?_⟩
    · cases hat.1.writing hw
    · split_ifs with he
      · exact ⟨hst, hseen, fun _ => he⟩
      · exact ⟨hst, hseen, le_rfl, by decide, Nat.zero_le _⟩
  | lockZero h hf => exact ⟨.none, hc.goto h (fun _ _ => rfl) rfl fun hat => hat⟩
  | lockZeroBusy h =>
    refine ⟨.none, hc.goto h (fun hat hw => ?_) rfl fun ⟨hst, hseen, _⟩ => ?_⟩
    · cases hat.1.writing hw
    · exact ⟨hst, hseen, le_rfl, by decide, Nat.zero_le _⟩
  | checkZero h he =>
    rw [h] at hat
    obtain ⟨hst, -, hz⟩ := hat
    exact ⟨.none, .begun hσ hst (hc.noOwn (not_writing (by rw [h]; rfl))) (by decide) he
      (fun _ => hz he.symm) fun h0 => absurd rfl h0⟩
  | checkZeroFails h he =>
    refine ⟨.none, hc.goto h (fun hat hw => ?_) rfl fun hat => hat.1⟩
    cases hat.1.writing hw
  | @scan u i m mxI h hi =>
    refine ⟨.none, hc.goto h (fun _ _ => ?_) rfl fun ⟨hst, hseen, h1, hx, hm⟩ => ?_⟩
    · unfold Pc.scanMark
      split
      · split_ifs <;> rfl
      · rfl
    · unfold Pc.scanMark
      split
      · split_ifs with hy
        · exact ⟨hst, hseen, by omega, hi, hy.2⟩
        · exact ⟨hst, hseen, by omega, hx, hm⟩
      · exact ⟨hst, hseen, by omega, hx, hm⟩
  | @scanned u i m mxI h hi =>
    refine ⟨.none, hc.goto h (fun _ _ => ?_) rfl fun ⟨hst, hseen, h1, hx, hm⟩ => ?_⟩
    · split_ifs <;> rfl
    · split_ifs with hlt
      · exact ⟨hst, hseen, le_rfl, hx, hm⟩
      · exact ⟨hst, hseen, by omega, hx, hm⟩
  | @tryMark u i m mxI h hi hf =>
    exact ⟨.none, hc.goto h (fun _ _ => rfl) rfl fun ⟨hst, hseen, h1, _⟩ => ⟨hst, hseen, h1, hi⟩⟩
  | @tryMarkBusy u i m mxI h hi =>
    refine ⟨.none, hc.goto h (fun _ _ => rfl) rfl fun ⟨hst, hseen, h1, hx, hm⟩ => ?_⟩
    exact ⟨hst, hseen, by omega, hx, hm⟩
  | @triedMarks u i m mxI h hi =>
    rw [h] at hat
    split_ifs with h0
    · exact ⟨.none, hc.retry hσ h rfl rfl hat.1⟩
    · refine ⟨.none, hc.goto h (fun _ _ => rfl) rfl fun ⟨hst, hseen, _, hx, hm⟩ => ?_⟩
      exact ⟨hst, hseen, by omega, hx, hm⟩
  | @setMark u i h =>
    rw [h] at hat
    have hgo : WalConn.Local { c with pc := .unlockMark u i } σ :=
      hc.goto h (fun _ _ => rfl) rfl fun hat => hat
    refine ⟨.mark (exRead_at h rfl), hgo.setMark hσ fun j hj => ?_⟩
    rcases hj with hj | hj
    · exact absurd (hat.1.readLock.symm.trans hj) (by simp)
    · exact hj.elim
  | @unlockMark u i h =>
    refine ⟨.none, hc.goto h (fun _ _ => rfl) rfl fun ⟨hst, hseen, h1, hi⟩ => ?_⟩
    exact ⟨hst, hseen, h1, hi, le_rfl⟩
  | @lockMark u i m h hf => exact ⟨.none, hc.goto h (fun _ _ => rfl) rfl fun hat => hat⟩
  | @lockMarkBusy u i m h =>
    rw [h] at hat
    exact ⟨.none, hc.retry hσ h rfl rfl hat.1⟩
  | @loadMin u i m h =>
    rw [h] at hat
    obtain ⟨hst, hseen, h1, hi, hm⟩ := hat
    refine ⟨.none, fun k hk => absurd (hst.readLock.symm.trans hk) (by simp), fun hw => ?_,
      fun hno => hc.noOwn fun hw => hno ⟨hw.1, rfl⟩, ?_⟩
    · have hwr := hc.writes ⟨hw.1, by rw [h]; rfl⟩
      exact ⟨hwr.hdr, hwr.indexes, hwr.wal, hwr.snap, hwr.savepoints⟩
    · exact ⟨⟨hst.readLock, hst.writeLock, hst.ckptLock, fun hu =>
        have hj := hst.job hu
        ⟨hj.own, hj.appended, hj.pList, hj.pages, hj.iFirst⟩⟩, hseen, h1, hi, hm, le_rfl⟩
  | @checkMark u i m h =>
    refine ⟨.none, hc.goto h (fun _ _ => ?_) rfl fun ⟨hst, hseen, h1, hi, hm, hmin⟩ => ?_⟩
    · split_ifs <;> rfl
    · split_ifs with hk
      · exact ⟨hst, hseen, h1, hi, hm, hmin, hk⟩
      · exact hst
  | @checkHdr i m h he =>
    rw [h] at hat
    obtain ⟨hst, -, h1, hi, hm, hmin, hk⟩ := hat
    have hno : ¬ c.Writing := fun hw => by cases hst.writing hw.1
    exact ⟨.none, .begun hσ hst (hc.noOwn hno) hi he (fun h0 => absurd h0 (by omega))
      fun _ => ⟨hmin, m, hk, hm⟩⟩
  | @checkHdrWal i m h he =>
    rw [h] at hat
    obtain ⟨hst, -, h1, hi, hm, hmin, hk⟩ := hat
    have hwr := hc.writes ⟨hst.writeLock, by rw [h]; rfl⟩
    exact ⟨.none, .begunWal hσ hst hwr h1 hi he ⟨m, hk, hm⟩ hmin⟩
  | @checkHdrFails u i m h he =>
    exact ⟨.none, hc.goto h (fun _ _ => rfl) rfl fun hat => hat.1⟩
  | @unlockRead u i h =>
    rw [h] at hat
    exact ⟨.none, hc.retry hσ h rfl rfl hat⟩

/-! ## Reading -/

theorem Local.mxFrame_le (hσ : σ.Ok) (h : c.Local σ) {k : ℕ} (hk : c.readLock = some k)
    (hk0 : k ≠ 0) : c.mxFrame ≤ (c.pages σ).length := by
  have hp := h.pinned k hk
  have := (hp.seen.past (hp.salt hk0)).mxFrame
  rw [pages, List.length_append, List.length_map, hσ.length, mxFrame]
  omega

theorem pages_of_own (ho : c.own = []) : c.pages σ = σ.log := by
  rw [pages, ho, List.map_nil, List.append_nil]

theorem Local.indexes (hσ : σ.Ok) (h : c.Local σ) : Indexes σ.apWiData (c.pages σ) := by
  by_cases hw : c.Writing
  · exact (h.writes hw).indexes
  · rw [pages_of_own (h.noOwn hw)]
    exact hσ.indexes

/-- Where a lookup past read lock `0` leads. -/
theorem At.lookup {p k : ℕ} {o : LookupOutcome} (ho : c.Open) (hk : c.readLock = some k)
    (hk0 : k ≠ 0) (hle : c.mxFrame ≤ (c.pages σ).length)
    (h : o.Ok σ.apWiData ((c.pages σ).take c.mxFrame) c.minFrame p) :
    c.At σ (.lookup p o) := by
  have hr : c.readLock ≠ some 0 := by simpa [hk] using hk0
  cases o with
  | more l => exact ⟨ho, hr, h⟩
  | found r =>
    refine ⟨ho, ?_⟩
    have h : IsLatest _ r := h
    rwa [List.length_take, Nat.min_eq_left hle, framesOf_take le_rfl,
      ← show c.top = c.mxFrame from if_neg hr] at h
  | corrupt => exact ho

theorem lookup_inWrite (p : ℕ) (o : LookupOutcome) : (Pc.lookup p o : Pc α).inWrite = true := by
  cases o <;> rfl

theorem Open.found_zero {p : ℕ} (ho : c.Open) (hk : c.readLock = some 0) :
    c.At σ (.found p 0) := by
  refine ⟨ho, ?_⟩
  rw [top, if_pos hk]
  exact .inr ⟨framesOf_zero, rfl⟩

theorem keeps_read [Inhabited α] (hσ : σ.Ok) (hc : c.Local σ)
    (h : ReadAct free σ c e σ' c') : c.Keeps σ σ' c' := by
  have hat := hc.here
  cases h with
  | endRead h hw =>
    rw [h] at hat
    have hck : c.ckptLock = false := Open.ckptLock hat
    have hno : ¬ c.Writing := fun hwr => by
      have := hwr.1
      omega
    exact ⟨.none, .outside rfl (not_writing rfl) (hc.noOwn hno)
      ⟨rfl, hw, hck, fun h => by cases h⟩⟩
  | @find p k h hk =>
    refine ⟨.none, hc.goto h (fun _ _ => lookup_inWrite ..) rfl fun ho => ?_⟩
    by_cases hk0 : k = 0
    · subst hk0
      have hstart : WalLookup.start 0 false c.minFrame c.mxFrame p = .found 0 :=
        if_pos (.inr ⟨rfl, rfl⟩)
      rw [hstart]
      exact Open.found_zero ho hk
    · have hle := hc.mxFrame_le hσ hk hk0
      have hok := @WalLookup.start_ok σ.apWiData ((c.pages σ).take c.mxFrame) c.minFrame p k false
        (.inl hk0)
      rw [List.length_take, Nat.min_eq_left hle] at hok
      exact At.lookup ho hk hk0 hle hok
  | @probe p l h =>
    refine ⟨.none, hc.goto h (fun _ _ => lookup_inWrite ..) rfl fun ⟨ho, hr, hl⟩ => ?_⟩
    obtain ⟨k, hk⟩ := ho.readLock
    have hk0 : k ≠ 0 := by simpa [hk] using hr
    have hle := hc.mxFrame_le hσ hk hk0
    have hok := hl.next ((hc.indexes hσ).take c.mxFrame)
    rw [List.length_take, Nat.min_eq_left hle] at hok
    exact At.lookup ho hk hk0 hle hok
  | @read p r h => exact ⟨.none, hc.goto h (fun _ _ => rfl) rfl fun hat => hat.1⟩
  | lockWrite h hw hf =>
    rw [h] at hat
    have hno : ¬ c.Writing := fun hwr => by
      have := hwr.1
      omega
    have ho : c.Open := hat
    refine ⟨.none, fun k hk => ?_, fun hwr => absurd hwr (not_writing rfl),
      fun _ => hc.noOwn hno, ⟨⟨ho.readLock, le_rfl, ho.ckptLock⟩, rfl⟩⟩
    exact (hc.pinned k hk).congr (by rw [h]; rfl) rfl rfl rfl (hc.pinned k hk).noOwn
  | lockWriteBusy h hw => exact ⟨.none, hc⟩
  | checkWrite h he =>
    rw [h] at hat
    obtain ⟨ho, hw⟩ := hat
    obtain ⟨k, hk⟩ := ho.readLock
    have hown : c.own = [] := hc.noOwn (not_writing (by rw [h]; rfl))
    refine ⟨.none, fun k hk => ?_, fun _ => ⟨he.symm, ?_, ?_, ?_, ?_⟩, fun _ => hown,
      ⟨ho.readLock, ho.writeLock, ho.ckptLock⟩⟩
    · exact (hc.pinned k hk).congr (by rw [h]; rfl) rfl rfl rfl (hc.pinned k hk).noOwn
    · change Indexes σ.apWiData (c.pages σ)
      exact hc.indexes hσ
    · intro j x hx
      change c.own[j]? = some x at hx
      rw [hown] at hx
      exact absurd hx (by simp)
    · exact (hc.pinned k hk).current he.symm
    · exact fun d hd => absurd hd List.not_mem_nil
  | checkWriteFails h he => exact ⟨.none, hc.goto h (fun _ _ => rfl) rfl fun hat => hat⟩
  | unlockWrite h =>
    rw [h] at hat
    obtain ⟨ho, hw⟩ := hat
    exact ⟨.none, fun k hk => (hc.pinned k hk).congr (by rw [h]; rfl) rfl rfl rfl (hc.pinned k hk).noOwn,
      fun hwr => absurd hwr.1 Nat.zero_ne_one,
      fun _ => hc.noOwn (not_writing (by rw [h]; rfl)),
      ⟨ho.readLock, Nat.zero_le _, ho.ckptLock⟩⟩
  | endWrite h hw hown =>
    have ho : c.Open := by
      rw [h] at hat
      exact hat
    refine ⟨.none, fun k hk => (hc.pinned k hk).congr (by rw [h]; rfl) rfl rfl rfl (hc.pinned k hk).noOwn,
      fun hwr => absurd hwr.1 Nat.zero_ne_one, fun _ => hown, ?_⟩
    change WalConn.At _ σ c.pc
    rw [h]
    exact ⟨ho.readLock, Nat.zero_le _, ho.ckptLock⟩

end WalConn

end Btreelite
