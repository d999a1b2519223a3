import Btreelite.WalCkptSteps

/-!
# What one step changes

What the other connections and the run see of a step: the locks it takes, the header copies, the
transactions of its connection.
-/

namespace Btreelite

open WalShared

variable {α : Type} {free : FreeLocks} {c c' d : WalConn α} {σ σ' : WalShared α} {e : WalEvent α}

/-! ## Locks -/

namespace Pc

variable (p : Prop) [Decidable p] (q q' : Pc α) (i : ℕ)

@[simp] theorem exLock_ite :
    (if p then q else q').exLock i ↔ if p then q.exLock i else q'.exLock i := by
  split_ifs <;> rfl

@[simp] theorem shLock_ite :
    (if p then q else q').shLock i ↔ if p then q.shLock i else q'.shLock i := by
  split_ifs <;> rfl

@[simp] theorem next_locks (k : HdrCaller) :
    ¬ (k.next : Pc α).exLock i ∧ ¬ (k.next : Pc α).shLock i := by
  cases k <;> exact ⟨id, id⟩

@[simp] theorem busy_locks (k : HdrCaller) :
    ¬ (k.busy : Pc α).exLock i ∧ ¬ (k.busy : Pc α).shLock i := by
  cases k <;> exact ⟨id, id⟩

@[simp] theorem retry_locks (u : Bool) :
    ¬ (retry u : Pc α).exLock i ∧ ¬ (retry u : Pc α).shLock i := by
  cases u <;> exact ⟨id, id⟩

@[simp] theorem scanMark_locks (u : Bool) (n j m mxI : ℕ) (y : Option ℕ) :
    ¬ (scanMark u n j m mxI y : Pc α).exLock i ∧ ¬ (scanMark u n j m mxI y : Pc α).shLock i := by
  unfold scanMark
  split
  · split_ifs <;> exact ⟨id, id⟩
  · exact ⟨id, id⟩

@[simp] theorem lookup_locks (pgno : ℕ) (o : LookupOutcome) :
    ¬ (lookup pgno o : Pc α).exLock i ∧ ¬ (lookup pgno o : Pc α).shLock i := by
  cases o <;> exact ⟨id, id⟩

@[simp] theorem safeMark_locks (j s : ℕ) (y : Option ℕ) :
    ¬ (safeMark j s y : Pc α).exLock i ∧ ¬ (safeMark j s y : Pc α).shLock i := by
  unfold safeMark
  split
  · split_ifs <;> exact ⟨id, id⟩
  · exact ⟨id, id⟩

end Pc

/-- A lock that the connection did not have was free. -/
structure WalConn.Locks (free : FreeLocks) (c c' : WalConn α) : Prop where
  write : c'.writeLock ≠ 0 → c.writeLock ≠ 0 ∨ free.write
  ckpt : c'.ckptLock = true → c.ckptLock = true ∨ free.ckpt
  ex : ∀ k, c'.exRead k → c.exRead k ∨ free.ex k
  sh : ∀ k, c'.shRead k → c.shRead k ∨ free.sh k

section Locks

attribute [local simp] WalConn.exRead WalConn.shRead

theorem HdrAct.locks (h : HdrAct free σ c e σ' c') : c.Locks free c' := by
  cases h <;> constructor <;> simp_all <;> simp_all [Pc.exLock, Pc.shLock]

theorem BeginAct.locks (h : BeginAct free σ c e σ' c') : c.Locks free c' := by
  cases h <;> constructor <;> simp_all <;> simp_all [Pc.exLock, Pc.shLock]
  -- the shared locks on read marks
  all_goals
    rintro k (hk | rfl)
    · exact .inl hk
    · exact .inr ‹_›

theorem ReadAct.locks (h : ReadAct free σ c e σ' c') : c.Locks free c' := by
  cases h <;> constructor <;> simp_all <;> simp_all [Pc.exLock, Pc.shLock]

theorem UndoAct.locks (h : UndoAct free σ c e σ' c') : c.Locks free c' := by
  cases h <;> constructor <;> simp_all <;> simp_all [Pc.exLock, Pc.shLock]

theorem FramesAct.locks (h : FramesAct free σ c e σ' c') : c.Locks free c' := by
  cases h <;> constructor <;> simp_all <;> simp_all [Pc.exLock, Pc.shLock]

theorem RestartAct.locks [Inhabited α] (h : RestartAct free σ c e σ' c') : c.Locks free c' := by
  cases h <;> constructor <;> simp_all <;> simp_all [Pc.exLock, Pc.shLock]

theorem CkptAct.locks (h : CkptAct free σ c e σ' c') : c.Locks free c' := by
  cases h <;> constructor <;> simp_all <;> simp_all [Pc.exLock, Pc.shLock]

theorem BackfillAct.locks [Inhabited α] (h : BackfillAct free σ c e σ' c') : c.Locks free c' := by
  cases h <;> constructor <;> simp_all <;> simp_all [Pc.exLock, Pc.shLock]

end Locks

theorem Act.locks [Inhabited α] (h : Act free σ c e σ' c') : c.Locks free c' := by
  cases h with
  | hdr h => exact h.locks
  | begin h => exact h.locks
  | read h => exact h.locks
  | undo h => exact h.locks
  | frames h => exact h.locks
  | restart h => exact h.locks
  | ckpt h => exact h.locks
  | backfill h => exact h.locks

/-! ## Transactions -/

namespace WalEvent

/-- The committed state after a step. -/
def state (d : DbState α) : WalEvent α → DbState α
  | .commit own nPage => d.apply own nPage
  | _ => d

/-- The connection has the committed state from then on. -/
def refreshes : WalEvent α → Bool
  | .beginRead | .commit _ _ => true
  | _ => false

end WalEvent

theorem Act.state [Inhabited α] (h : Act free σ c e σ' c') : σ'.state = e.state σ.state := by
  cases h with
  | hdr h => cases h <;> rfl
  | begin h => cases h <;> rfl
  | read h => cases h <;> rfl
  | undo h => cases h <;> rfl
  | frames h => cases h <;> rfl
  | restart h => cases h <;> rfl
  | ckpt h => cases h <;> rfl
  | backfill h => cases h <;> rfl

theorem Act.snap [Inhabited α] (h : Act free σ c e σ' c') :
    c'.snap = if e.refreshes then σ'.state else c.snap := by
  cases h with
  | hdr h => cases h <;> rfl
  | begin h => cases h <;> rfl
  | read h => cases h <;> rfl
  | undo h => cases h <;> rfl
  | frames h => cases h <;> rfl
  | restart h => cases h <;> rfl
  | ckpt h => cases h <;> rfl
  | backfill h => cases h <;> rfl

namespace Pc

@[simp] theorem inWrite_ite (p : Prop) [Decidable p] (q q' : Pc α) :
    (if p then q else q').inWrite = if p then q.inWrite else q'.inWrite := by
  split_ifs <;> rfl

@[simp] theorem scanMark_inWrite (u : Bool) (n j m mxI : ℕ) (y : Option ℕ) :
    (scanMark u n j m mxI y : Pc α).inWrite = true := by
  unfold scanMark
  split
  · split_ifs <;> rfl
  · rfl

end Pc

attribute [simp] WalConn.lookup_inWrite

/-- A write transaction goes on until it ends. -/
theorem Act.writing [Inhabited α] (hc : c.Local σ) (h : Act free σ c e σ' c') (hw : c.Writing)
    (he : e ≠ .endWrite) : c'.Writing := by
  have hat := hc.here
  obtain ⟨hw, hin⟩ := hw
  cases h with
  | hdr h => cases h <;> simp_all [Pc.inWrite]
  | begin h =>
    have hretry : ∀ u, c.Starting u → (Pc.retry u : Pc α).inWrite = true := by
      intro u hst
      rw [hst.writing hw]
      rfl
    cases h
    case triedMarks u i m mxI h hi =>
      rw [h] at hat
      refine ⟨hw, ?_⟩
      simp only [Pc.inWrite_ite, hretry u hat.1]
      split_ifs <;> rfl
    case lockMarkBusy u i m h =>
      rw [h] at hat
      exact ⟨hw, hretry u hat.1⟩
    case unlockRead u i h =>
      rw [h] at hat
      exact ⟨hw, hretry u hat⟩
    all_goals simp_all [WalConn.Writing] <;> simp_all [Pc.inWrite]
  | read h =>
    cases h <;> simp_all [WalConn.Writing] <;> simp_all [Pc.inWrite]
  | undo h =>
    cases h <;> simp_all [WalConn.Writing] <;> simp_all [Pc.inWrite]
  | frames h =>
    cases h <;> simp_all [WalConn.Writing] <;> simp_all [Pc.inWrite]
  | restart h =>
    cases h
    case truncateWal h => simp_all [Pc.inWrite]
    case restartHdr1 k h | restartHdr0 k h | restartBackfill k h | unlockRestart k h =>
      cases k <;> simp_all [WalConn.Writing, Pc.inWrite]
    case restartMark k i h h1 hi => cases k <;> simp_all [WalConn.Writing, Pc.inWrite]
    case restarted k i h hi => cases k <;> simp_all [WalConn.Writing, Pc.inWrite]
  | ckpt h => cases h <;> simp_all [Pc.inWrite]
  | backfill h => cases h <;> simp_all [Pc.inWrite]

/-! ## Headers -/

theorem Act.copies [Inhabited α] (hc : c.Local σ) (h : Act free σ c e σ' c') :
    (c.pc.storingHdr = false ∧ σ'.hdr0 = σ.hdr0 ∧ σ'.hdr1 = σ.hdr1) ∨ σ'.hdr1 = σ'.hdr0 ∨
      c'.pc.storingHdr = true := by
  have hat := hc.here
  cases h with
  | hdr h => cases h <;> exact .inl ⟨by rw [‹c.pc = _›]; rfl, rfl, rfl⟩
  | begin h => cases h <;> exact .inl ⟨by rw [‹c.pc = _›]; rfl, rfl, rfl⟩
  | read h => cases h <;> exact .inl ⟨by rw [‹c.pc = _›]; rfl, rfl, rfl⟩
  | undo h => cases h <;> exact .inl ⟨by rw [‹c.pc = _›]; rfl, rfl, rfl⟩
  | frames h =>
    cases h
    case publish1 h => exact .inr (.inr rfl)
    case publish0 h =>
      rw [h] at hat
      exact .inr (.inl hat.2.2)
    all_goals exact .inl ⟨by rw [‹c.pc = _›]; rfl, rfl, rfl⟩
  | restart h =>
    cases h
    case restartHdr1 k h => exact .inr (.inr rfl)
    case restartHdr0 k h =>
      rw [h] at hat
      exact .inr (.inl hat.2.2)
    all_goals exact .inl ⟨by rw [‹c.pc = _›]; rfl, rfl, rfl⟩
  | ckpt h => cases h <;> exact .inl ⟨by rw [‹c.pc = _›]; rfl, rfl, rfl⟩
  | backfill h => cases h <;> exact .inl ⟨by rw [‹c.pc = _›]; rfl, rfl, rfl⟩

theorem Act.backfilled [Inhabited α] (hc : c.Local σ) (h : Act free σ c e σ' c') :
    (c.pc.storingBackfill = false ∧ σ'.nBackfill = σ.nBackfill ∧
      σ.hdr0.mxFrame ≤ σ'.hdr0.mxFrame) ∨ σ'.nBackfill ≤ σ'.hdr0.mxFrame ∨
      c'.pc.storingBackfill = true := by
  have hat := hc.here
  cases h with
  | hdr h => cases h <;> exact .inl ⟨by rw [‹c.pc = _›]; rfl, rfl, le_rfl⟩
  | begin h => cases h <;> exact .inl ⟨by rw [‹c.pc = _›]; rfl, rfl, le_rfl⟩
  | read h => cases h <;> exact .inl ⟨by rw [‹c.pc = _›]; rfl, rfl, le_rfl⟩
  | undo h => cases h <;> exact .inl ⟨by rw [‹c.pc = _›]; rfl, rfl, le_rfl⟩
  | frames h =>
    cases h
    case publish0 h =>
      rw [h] at hat
      have hwr := hc.writes ⟨hat.1.writeLock, by rw [h]; rfl⟩
      refine .inl ⟨by rw [h]; rfl, rfl, ?_⟩
      exact (Nat.le_add_right ..).trans_eq hwr.newHdr_mxFrame.symm
    all_goals exact .inl ⟨by rw [‹c.pc = _›]; rfl, rfl, le_rfl⟩
  | restart h =>
    cases h
    case restartHdr0 k h => exact .inr (.inr rfl)
    case restartBackfill k h => exact .inr (.inl (Nat.zero_le _))
    all_goals exact .inl ⟨by rw [‹c.pc = _›]; rfl, rfl, le_rfl⟩
  | ckpt h => cases h <;> exact .inl ⟨by rw [‹c.pc = _›]; rfl, rfl, le_rfl⟩
  | backfill h =>
    cases h
    case ckptPublish s h =>
      rw [h] at hat
      have hb : c.Backfills σ s := hat.1
      exact .inr (.inl (hb.le.trans (hb.seen.past hb.salt).mxFrame))
    all_goals exact .inl ⟨by rw [‹c.pc = _›]; rfl, rfl, le_rfl⟩

/-! ## Readers -/

/-- A connection with a read lock has had it so far with the same header, or has the last one. -/
theorem Act.reader [Inhabited α] (hc : c.Local σ) (h : Act free σ c e σ' c') {k : ℕ}
    (hk : c'.readLock = some k) :
    c'.hdr = σ'.hdr0 ∨
      (c.readLock = some k ∧ c'.hdr = c.hdr ∧ c'.snap = c.snap ∧ σ'.log = σ.log) := by
  have hat := hc.here
  cases h with
  | hdr h =>
    cases h
    case goodHdr k' h =>
      rw [h] at hat
      exact absurd (hat.1.readLock.symm.trans hk) (by simp)
    case goodHdr' k' h =>
      rw [h] at hat
      exact .inl hat.2
    all_goals exact .inr ⟨hk, rfl, rfl, rfl⟩
  | begin h =>
    cases h
    case checkZero h he => exact .inl he.symm
    case checkHdr i m h he => exact .inl he.symm
    case checkHdrWal i m h he => exact .inl he.symm
    all_goals exact .inr ⟨hk, rfl, rfl, rfl⟩
  | read h =>
    cases h
    case endRead h hw => cases hk
    all_goals exact .inr ⟨hk, rfl, rfl, rfl⟩
  | undo h =>
    cases h
    case undo h hw hrun => exact .inl rfl
    all_goals exact .inr ⟨hk, rfl, rfl, rfl⟩
  | frames h =>
    cases h
    case leaveZero h => cases hk
    case publish0 h => exact .inl rfl
    all_goals exact .inr ⟨hk, rfl, rfl, rfl⟩
  | restart h =>
    cases h
    case restartHdr0 k' h => exact .inl rfl
    all_goals exact .inr ⟨hk, rfl, rfl, rfl⟩
  | ckpt h => cases h <;> exact .inr ⟨hk, rfl, rfl, rfl⟩
  | backfill h => cases h <;> exact .inr ⟨hk, rfl, rfl, rfl⟩

/-! ## Checkpoints -/

namespace Pc

/-- A point after the marks have been looked at and before the copies are published. -/
def copies : Pc α → Bool
  | .ckptMark _ _ | .ckptTry _ _ _ | .ckptSet _ _ | .ckptUnlock _ _ | .ckptInit _ | .ckptIter _
  | .ckptRead _ _ _ _ | .ckptLockZero _ _ | .ckptLoad _ _ | .ckptSalt _ _ _ | .ckptCopy _ _ _ _
  | .ckptWrite _ _ _ _ _ | .ckptSize _ | .ckptTrunc _ | .ckptPublish _ => true
  | _ => false

theorem safe_of_copies {q : Pc α} (h : q.copies = false) (i m : ℕ) : q.safe i m := by
  cases q <;> first | exact trivial | cases h

@[simp] theorem copies_ite (p : Prop) [Decidable p] (q q' : Pc α) :
    (if p then q else q').copies = if p then q.copies else q'.copies := by
  split_ifs <;> rfl

@[simp] theorem next_copies (k : HdrCaller) : (k.next : Pc α).copies = false := by
  cases k <;> rfl

@[simp] theorem busy_copies (k : HdrCaller) : (k.busy : Pc α).copies = false := by
  cases k <;> rfl

@[simp] theorem retry_copies (u : Bool) : (retry u : Pc α).copies = false := by
  cases u <;> rfl

@[simp] theorem scanMark_copies (u : Bool) (n j m mxI : ℕ) (y : Option ℕ) :
    (scanMark u n j m mxI y : Pc α).copies = false := by
  unfold scanMark
  split
  · split_ifs <;> rfl
  · rfl

@[simp] theorem lookup_copies (pgno : ℕ) (o : LookupOutcome) :
    (lookup pgno o : Pc α).copies = false := by
  cases o <;> rfl

end Pc

/-- Only the steps of a checkpoint lead into one. -/
theorem Act.copies_cases [Inhabited α] (h : Act free σ c e σ' c') :
    c'.pc.copies = false ∨ CkptAct free σ c e σ' c' ∨ BackfillAct free σ c e σ' c' := by
  cases h with
  | hdr h => left; cases h <;> simp <;> simp [Pc.copies]
  | begin h => left; cases h <;> simp <;> simp [Pc.copies]
  | read h => left; cases h <;> simp_all <;> simp [Pc.copies]
  | undo h => left; cases h <;> simp_all <;> simp [Pc.copies]
  | frames h => left; cases h <;> simp_all <;> simp [Pc.copies]
  | restart h => left; cases h <;> simp <;> simp [Pc.copies]
  | ckpt h => exact .inr (.inl h)
  | backfill h => exact .inr (.inr h)

theorem CkptAct.waits (hc : c.Local σ) (hd : d.Local σ) (hfree : ∀ k, free.ex k → ¬ d.shRead k)
    (h : CkptAct free σ c e σ' c') (hw : c.Waits d) : c'.Waits d := by
  have hat := hc.here
  cases h
  case ckptStart h hm =>
    refine fun i _ h0 _ => .inr ?_
    simp only []
    split_ifs
    · exact .inl (Nat.one_le_iff_ne_zero.2 h0)
    · exact trivial
  case ckptMark j s h hj =>
    refine fun i hi h0 hs => (hw i hi h0 hs).imp_right fun hsafe => ?_
    have hp := hd.pinned i hi
    obtain ⟨y, hy, hle⟩ := hp.mark h0
    rw [h] at hsafe
    rcases hsafe with hji | hsm
    · rcases Nat.lt_or_eq_of_le hji with hji | rfl
      · unfold Pc.safeMark
        split
        · split_ifs
          · exact .inl hji
          · exact .inl hji
        · exact .inl hji
      · rw [hy]
        simp only [Pc.safeMark]
        split_ifs with hlt
        · exact .inr (.inl ⟨rfl, hle⟩)
        · exact .inr (by omega)
    · unfold Pc.safeMark
      split
      · split_ifs
        · exact .inr (.inr hsm)
        · exact .inr hsm
      · exact .inr hsm
  case ckptMarked j s h hj =>
    refine fun i hi h0 hs => (hw i hi h0 hs).imp_right fun hsafe => ?_
    have hp := hd.pinned i hi
    rw [h] at hsafe
    exact hsafe.resolve_left fun hji => absurd hp.lt (by omega)
  case ckptTry j s y h hf =>
    refine fun i hi h0 hs => (hw i hi h0 hs).imp_right fun hsafe => ?_
    rw [h] at hsafe
    rcases hsafe with hji | ⟨rfl, -⟩ | hsm
    · exact .inl hji
    · exact absurd (.inl hi) (hfree j hf)
    · exact .inr hsm
  case ckptTryBusy j s y h =>
    refine fun i hi h0 hs => (hw i hi h0 hs).imp_right fun hsafe => ?_
    rw [h] at hat hsafe
    obtain ⟨-, -, hy⟩ := hat
    rcases hsafe with hji | ⟨rfl, hle⟩ | hsm
    · exact .inl hji
    · exact .inr hle
    · exact .inr (by omega)
  case ckptSet j s h | ckptUnlock j s h =>
    refine fun i hi h0 hs => (hw i hi h0 hs).imp_right fun hsafe => ?_
    rw [h] at hsafe
    exact hsafe
  case ckptInit s h =>
    refine fun i hi h0 hs => (hw i hi h0 hs).imp_right fun hsafe => ?_
    rw [h] at hsafe
    simp only []
    split_ifs
    · exact hsafe
    · exact trivial
  case ckptIter s h | ckptRead s n f it h hf | ckptReadAll s n f it h hf =>
    refine fun i hi h0 hs => (hw i hi h0 hs).imp_right fun hsafe => ?_
    rw [h] at hsafe
    exact hsafe
  all_goals exact fun i _ _ _ => .inr (Pc.safe_of_copies (by simp; simp [Pc.copies]) i _)

theorem BackfillAct.waits [Inhabited α] (h : BackfillAct free σ c e σ' c') (hw : c.Waits d) :
    c'.Waits d := by
  cases h
  case ckptSalt s n it h =>
    refine fun i hi h0 hs => (hw i hi h0 hs).imp_right fun hsafe => ?_
    rw [h] at hsafe
    simp only []
    split_ifs
    · exact hsafe
    · exact trivial
  all_goals
    refine fun i hi h0 hs => (hw i hi h0 hs).imp_right fun hsafe => ?_
    rw [‹c.pc = _›] at hsafe
    first
      | exact hsafe
      | exact trivial
      | (simp only []; split_ifs <;> exact hsafe)

/-- No mark of a reader with less is left behind. -/
theorem Act.waits [Inhabited α] (hc : c.Local σ) (hd : d.Local σ)
    (hfree : ∀ k, free.ex k → ¬ d.shRead k) (h : Act free σ c e σ' c') (hw : c.Waits d) :
    c'.Waits d := by
  rcases h.copies_cases with hno | h | h
  · exact fun i _ _ _ => .inr (Pc.safe_of_copies hno i _)
  · exact h.waits hc hd hfree hw
  · exact h.waits hw

/-- A checkpoint truncates the database file only if it copied the whole log. -/
theorem Act.trunc [Inhabited α] (h : Act free σ c e σ' c') {s : ℕ} (hs : c'.pc = .ckptTrunc s) :
    c.pc = .ckptSize s ∧ σ.hdr0.mxFrame = s ∧ σ' = σ ∧ c'.hdr = c.hdr := by
  rcases h.copies_cases with hno | h | h
  · rw [hs] at hno
    cases hno
  · exfalso
    cases h
    case ckptMark i s' hpc hi =>
      simp only [Pc.safeMark] at hs
      split at hs
      · split_ifs at hs
      · cases hs
    all_goals first | cases hs | (simp only [] at hs; split_ifs at hs)
  · cases h
    case ckptSize s' hpc =>
      simp only [] at hs
      split_ifs at hs with he
      cases hs
      exact ⟨hpc, he, rfl, rfl⟩
    all_goals
      exfalso
      first | cases hs | (simp only [] at hs; split_ifs at hs)

end Btreelite
