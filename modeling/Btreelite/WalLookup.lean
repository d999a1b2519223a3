import Btreelite.WalIndex

/-!
# Lookups beside a writer

`walFindFrame` loads one slot or one page number at a time, and between two loads the writer may
have stored. Here a lookup is a machine that makes one load a step. The entries of the frames a
reader looks for never move, so what it meets is the same in every memory on the way.
-/

namespace Btreelite

/-- Where a call of `walFindFrame` stands: before the load of slot `iKey`, or, when `iH` is not
zero, before the load of the page number of that entry. -/
structure WalLookup where
  iHash : ℕ
  nCollide : ℕ
  iKey : ℕ
  iRead : ℕ
  iH : ℕ
deriving DecidableEq, Repr

inductive LookupOutcome
  | more (l : WalLookup)
  | found (iRead : ℕ)
  | corrupt
deriving DecidableEq, Repr

namespace WalLookup

/-- The head of the loop over the blocks. -/
def enter (pgno iMinHash iHash : ℕ) : LookupOutcome :=
  if iMinHash ≤ iHash then .more ⟨iHash, HASHTABLE_NSLOT, walHash pgno, 0, 0⟩ else .found 0

/-- The end of the loop body. -/
def leave (pgno iMinHash : ℕ) : ℕ → LookupOutcome
  | 0 => .found 0
  | iHash + 1 => enter pgno iMinHash iHash

def start (readLock : ℕ) (bShmUnreliable : Bool) (minFrame mxFrame pgno : ℕ) : LookupOutcome :=
  if mxFrame = 0 ∨ (readLock = 0 ∧ bShmUnreliable = false) then .found 0
  else enter pgno (walFramePage minFrame) (walFramePage mxFrame)

/-- One load and what follows up to the next. -/
def next (w : WalIndex) (pgno minFrame iLast : ℕ) (l : WalLookup) : LookupOutcome :=
  if l.iH = 0 then
    let iH := (w l.iHash).aHash l.iKey
    if iH = 0 then
      if l.iRead ≠ 0 then .found l.iRead else leave pgno (walFramePage minFrame) l.iHash
    else .more { l with iH }
  else
    let iFrame := l.iH + iZero l.iHash
    let iRead :=
      if iFrame ≤ iLast ∧ minFrame ≤ iFrame ∧
          (w l.iHash).aPgno ((l.iH - 1) % HASHTABLE_NPAGE) = pgno then iFrame
      else l.iRead
    match l.nCollide with
    | 0 => .corrupt
    | nCollide + 1 => .more ⟨l.iHash, nCollide, walNextHash l.iKey, iRead, 0⟩

end WalLookup

/-! ## A lookup that nothing interrupts -/

section Alone

variable (w : WalIndex) (pgno minFrame iLast : ℕ)

/-- Up to `n` steps from an outcome. -/
def LookupOutcome.run : ℕ → LookupOutcome → LookupOutcome
  | n + 1, .more l => LookupOutcome.run n (l.next w pgno minFrame iLast)
  | _, o => o

def LookupOutcome.ofExcept : Except Rc ℕ → LookupOutcome
  | .ok iRead => .found iRead
  | .error _ => .corrupt

theorem LookupOutcome.run_run (m : ℕ) :
    ∀ (n : ℕ) (o : LookupOutcome),
      LookupOutcome.run w pgno minFrame iLast m (LookupOutcome.run w pgno minFrame iLast n o)
        = LookupOutcome.run w pgno minFrame iLast (n + m) o
  | 0, o => by
    rw [Nat.zero_add]
    rfl
  | n + 1, .more l => by
    rw [Nat.add_right_comm]
    exact LookupOutcome.run_run m n _
  | n + 1, .found iRead => by cases m <;> rfl
  | n + 1, .corrupt => by cases m <;> rfl

theorem findKey_run (iHash : ℕ) :
    ∀ nCollide iKey iRead, ∃ n, LookupOutcome.run w pgno minFrame iLast n
        (.more ⟨iHash, nCollide, iKey, iRead, 0⟩) =
      match findKey (w iHash) (iZero iHash) pgno minFrame iLast nCollide iKey iRead with
      | .ok r => if r ≠ 0 then .found r else WalLookup.leave pgno (walFramePage minFrame) iHash
      | .error _ => .corrupt
  | nCollide, iKey, iRead => by
    unfold findKey
    by_cases h0 : (w iHash).aHash iKey = 0
    · refine ⟨1, ?_⟩
      simp only [LookupOutcome.run, WalLookup.next, h0, if_true]
    · cases nCollide with
      | zero => exact ⟨2, by simp [LookupOutcome.run, WalLookup.next, h0]⟩
      | succ nCollide =>
        obtain ⟨n, hn⟩ := findKey_run iHash nCollide (walNextHash iKey)
          (if (w iHash).aHash iKey + iZero iHash ≤ iLast ∧
              minFrame ≤ (w iHash).aHash iKey + iZero iHash ∧
              (w iHash).aPgno (((w iHash).aHash iKey - 1) % HASHTABLE_NPAGE) = pgno then
            (w iHash).aHash iKey + iZero iHash else iRead)
        refine ⟨n + 2, ?_⟩
        simp only [LookupOutcome.run, WalLookup.next, h0, if_true, if_false]
        exact hn

theorem findBlock_run :
    ∀ iHash, ∃ n, LookupOutcome.run w pgno minFrame iLast n
        (WalLookup.enter pgno (walFramePage minFrame) iHash) =
      .ofExcept (findBlock w pgno minFrame iLast (walFramePage minFrame) iHash)
  | 0 => by
    unfold WalLookup.enter findBlock
    split_ifs with hmin
    · obtain ⟨n, hn⟩ := findKey_run w pgno minFrame iLast 0 HASHTABLE_NSLOT (walHash pgno) 0
      refine ⟨n, hn.trans ?_⟩
      unfold findIn
      cases findKey (w 0) (iZero 0) pgno minFrame iLast HASHTABLE_NSLOT (walHash pgno) 0 with
      | error rc => rfl
      | ok r => by_cases hr : r = 0 <;> simp [hr, LookupOutcome.ofExcept, WalLookup.leave]
    · exact ⟨0, rfl⟩
  | iHash + 1 => by
    unfold WalLookup.enter findBlock
    split_ifs with hmin
    · obtain ⟨n, hn⟩ :=
        findKey_run w pgno minFrame iLast (iHash + 1) HASHTABLE_NSLOT (walHash pgno) 0
      unfold findIn
      cases hk : findKey (w (iHash + 1)) (iZero (iHash + 1)) pgno minFrame iLast
          HASHTABLE_NSLOT (walHash pgno) 0 with
      | error rc =>
        rw [hk] at hn
        exact ⟨n, hn⟩
      | ok r =>
        rw [hk] at hn
        by_cases hr : r = 0
        · obtain ⟨m, hm⟩ := findBlock_run iHash
          refine ⟨n + m, ?_⟩
          simp only [hr, ne_eq, not_true_eq_false, if_false] at hn
          rw [← LookupOutcome.run_run, hn]
          simpa [hr, bind, Except.bind, WalLookup.leave] using hm
        · refine ⟨n, hn.trans ?_⟩
          simp [hr, bind, Except.bind, LookupOutcome.ofExcept, pure, Except.pure]
    · exact ⟨0, rfl⟩

/-- Step by step, a lookup in a memory that does not change computes `walFindFrame`. -/
theorem walFindFrame_run (readLock : ℕ) (bShmUnreliable : Bool) :
    ∃ n, LookupOutcome.run w pgno minFrame iLast n
        (WalLookup.start readLock bShmUnreliable minFrame iLast pgno) =
      .ofExcept (walFindFrame w readLock bShmUnreliable minFrame iLast pgno) := by
  unfold WalLookup.start walFindFrame
  split_ifs
  · exact ⟨0, rfl⟩
  · exact findBlock_run w pgno minFrame iLast _

end Alone

/-! ## A lookup that a writer interrupts -/

section Beside

variable {w w' : WalIndex} {T : List ℕ} {minFrame pgno h j : ℕ} {l l' : WalLookup}

/-- Entry `j` of block `h` is a frame that the lookup is for. -/
def Wanted (T : List ℕ) (minFrame pgno h j : ℕ) : Prop :=
  j ≠ 0 ∧ j + iZero h ∈ framesIn T minFrame T.length pgno h

theorem Wanted.live (hj : Wanted T minFrame pgno h j) : 0 < j ∧ j ≤ filled h T.length := by
  obtain ⟨h0, ⟨-, -, hle, -⟩, hpage⟩ := hj
  have := (iZero_lt_iff (by omega)).1 hpage
  unfold filled
  omega

/-- Memories that index the same frames have them in the same slots. -/
theorem Indexes.slot_iff (hw : Indexes w T) (hw' : Indexes w' T) (hh : iZero h < T.length)
    (hj : 0 < j) (hjN : j ≤ filled h T.length) {s : ℕ} (hs : s < HASHTABLE_NSLOT) :
    (w h).aHash s = j ↔ (w' h).aHash s = j := by
  have hb := hw.2 h hh
  have hb' := hw'.2 h hh
  refine hb.holds.slot_iff (hb'.holds.congr (by decide) (fun _ _ _ _ => rfl) fun i hi hiN => ?_)
    hb.distinct hb'.distinct j hj hjN s hs
  rw [WalHashLoc.home, WalHashLoc.home, hb.pgno _ (by omega), hb'.pgno _ (by omega)]

theorem Indexes.chained (hw : Indexes w T) (hh : iZero h < T.length)
    (hj : Wanted T minFrame pgno h j) :
    Probing.Chained HASHTABLE_NSLOT (w h).aHash (walHash pgno) j := by
  obtain ⟨h0, hN⟩ := hj.live
  have hb := hw.2 h hh
  have hhome : (w h).home j = walHash pgno := by
    obtain ⟨-, ⟨-, -, -, hp⟩, -⟩ := hj
    rw [WalHashLoc.home, hb.pgno _ (by omega), List.getD_eq_getElem?_getD,
      show iZero h + (j - 1) = j + iZero h - 1 by omega, hp]
    rfl
  exact hhome ▸ hb.holds j h0 hN

/-- What a lookup knows of a memory that indexes the frames with pages `T`. -/
structure WalLookup.Ok (w : WalIndex) (T : List ℕ) (minFrame pgno : ℕ) (l : WalLookup) :
    Prop where
  block : iZero l.iHash < T.length
  above : ∀ i ∈ framesOf T minFrame T.length pgno, walFramePage i ≤ l.iHash
  room : l.nCollide ≤ HASHTABLE_NSLOT
  key : l.iKey = Probing.slot HASHTABLE_NSLOT (walHash pgno) (HASHTABLE_NSLOT - l.nCollide)
  met : ∃ r, l.iRead = frameOf (iZero l.iHash) r ∧
    Probing.Met HASHTABLE_NSLOT (w l.iHash).aHash (Wanted T minFrame pgno l.iHash)
      (walHash pgno) (HASHTABLE_NSLOT - l.nCollide) r
  /-- The entry loaded is the one the slot has, unless neither is a frame of `T`. -/
  entry : l.iH ≠ 0 → l.iH ≤ nPage l.iHash ∧
    ∀ j, 0 < j → j ≤ filled l.iHash T.length → ((w l.iHash).aHash l.iKey = j ↔ l.iH = j)

/-- The stores of a writer do not disturb a lookup. -/
theorem WalLookup.Ok.congr (hl : l.Ok w T minFrame pgno) (hw : Indexes w T)
    (hw' : Indexes w' T) : l.Ok w' T minFrame pgno := by
  have hlt : l.iKey < HASHTABLE_NSLOT := hl.key ▸ Probing.slot_lt (by decide) _
  refine ⟨hl.block, hl.above, hl.room, hl.key, ?_, fun h0 => ?_⟩
  · obtain ⟨r, hr, hm⟩ := hl.met
    refine ⟨r, hr, hm.congr (by decide) fun s hs hp => ?_⟩
    obtain ⟨h0, hN⟩ := hp.live
    exact (hw.slot_iff hw' hl.block h0 hN hs).2 rfl
  · obtain ⟨hle, he⟩ := hl.entry h0
    refine ⟨hle, fun j hj hjN => ?_⟩
    rw [← hw.slot_iff hw' hl.block hj hjN hlt]
    exact he j hj hjN

theorem WalLookup.enter_ok {iHash : ℕ} (hb : iZero iHash < T.length)
    (ha : ∀ i ∈ framesOf T minFrame T.length pgno, walFramePage i ≤ iHash) :
    (∃ l, WalLookup.enter pgno (walFramePage minFrame) iHash = .more l ∧
      l.Ok w T minFrame pgno) ∨
    (WalLookup.enter pgno (walFramePage minFrame) iHash = .found 0 ∧
      IsLatest (framesOf T minFrame T.length pgno) 0) := by
  unfold WalLookup.enter
  split_ifs with hmin
  · refine .inl ⟨_, rfl, hb, ha, le_rfl, ?_, ⟨0, rfl, ?_⟩, fun h0 => absurd rfl h0⟩
    · rw [Nat.sub_self, Probing.slot_zero (walHash_lt pgno)]
    · rw [Nat.sub_self]
      exact Probing.Met.zero
  · refine .inr ⟨rfl, .inr ⟨Set.eq_empty_of_forall_notMem fun i hi => ?_, rfl⟩⟩
    have := ha i hi
    have := walFramePage_mono hi.2.1
    omega

/-- What a lookup that took a step has come to. -/
def LookupOutcome.Ok (w : WalIndex) (T : List ℕ) (minFrame pgno : ℕ) : LookupOutcome → Prop
  | .more l => l.Ok w T minFrame pgno
  | .found r => IsLatest (framesOf T minFrame T.length pgno) r
  | .corrupt => True

theorem WalLookup.start_ok {readLock : ℕ} {bShmUnreliable : Bool}
    (hr : readLock ≠ 0 ∨ bShmUnreliable = true) :
    (WalLookup.start readLock bShmUnreliable minFrame T.length pgno).Ok w T minFrame pgno := by
  unfold WalLookup.start
  split_ifs with h0
  · have hT : T.length = 0 := by
      rcases h0 with h0 | ⟨h1, h2⟩
      · exact h0
      · rcases hr with hr | hr
        · exact absurd h1 hr
        · simp [h2] at hr
    refine .inr ⟨Set.eq_empty_of_forall_notMem fun i hi => ?_, rfl⟩
    obtain ⟨h1, -, h2, -⟩ := hi
    omega
  · have hpos : 0 < T.length := by omega
    rcases @WalLookup.enter_ok w T minFrame pgno _ (iZero_walFramePage hpos).1
      fun i hi => walFramePage_mono hi.2.2.1 with ⟨l, hl, hok⟩ | ⟨hl, hok⟩
    · rw [hl]
      exact hok
    · rw [hl]
      exact hok

/-- A probe that meets a free slot is done with its block. -/
theorem WalLookup.Ok.free (hl : l.Ok w T minFrame pgno) (hw : Indexes w T)
    (h0 : (w l.iHash).aHash l.iKey = 0) :
    IsLatest (framesIn T minFrame T.length pgno l.iHash) l.iRead := by
  obtain ⟨r, hr, hm⟩ := hl.met
  rw [hl.key] at h0
  have hall : ∀ i ∈ framesIn T minFrame T.length pgno l.iHash, i - iZero l.iHash ≤ r ∧
      iZero l.iHash < i := by
    intro i hi
    obtain ⟨hz, hle⟩ := (iZero_lt_iff hi.1.1).1 hi.2
    have hwant : Wanted T minFrame pgno l.iHash (i - iZero l.iHash) :=
      ⟨by omega, by rwa [Nat.sub_add_cancel hz.le]⟩
    exact ⟨hm.all h0 (hw.chained hl.block hwant) (by omega) hwant, hz⟩
  rw [hr]
  by_cases hr0 : r = 0
  · refine .inr ⟨Set.eq_empty_of_forall_notMem fun i hi => ?_, by rw [frameOf, if_pos hr0]⟩
    have := hall i hi
    omega
  · rw [frameOf, if_neg hr0]
    refine .inl ⟨(hm.mem hr0).2, fun i hi => ?_⟩
    have := hall i hi
    omega

theorem framesUpTo_of_above {iHash : ℕ}
    (ha : ∀ i ∈ framesOf T minFrame T.length pgno, walFramePage i ≤ iHash) :
    framesUpTo T minFrame T.length pgno iHash = framesOf T minFrame T.length pgno := by
  ext i
  simp only [framesUpTo, Set.mem_ofPred_eq, and_iff_left_iff_imp]
  exact fun hi => ha i hi

theorem WalLookup.Ok.leave (hl : l.Ok w T minFrame pgno)
    (he : framesIn T minFrame T.length pgno l.iHash = ∅) :
    (WalLookup.leave pgno (walFramePage minFrame) l.iHash).Ok w T minFrame pgno := by
  obtain ⟨iHash, nCollide, iKey, iRead, iH⟩ := l
  have ha := hl.above
  have hb := hl.block
  have hlow : ∀ i ∈ framesOf T minFrame T.length pgno, walFramePage i < iHash := by
    intro i hi
    refine lt_of_le_of_ne (ha i hi) ?_
    intro e
    exact Set.notMem_empty i (he ▸ (⟨hi, e⟩ : i ∈ framesIn T minFrame T.length pgno iHash))
  cases iHash with
  | zero =>
    refine .inr ⟨Set.eq_empty_of_forall_notMem fun i hi => ?_, rfl⟩
    exact absurd (hlow i hi) (Nat.not_lt_zero _)
  | succ iHash =>
    have hz := iZero_succ iHash
    simp only at hb
    simp only [WalLookup.leave]
    rcases @WalLookup.enter_ok w T minFrame pgno iHash (by omega)
      fun i hi => Nat.le_of_lt_succ (hlow i hi) with ⟨l, hl, hok⟩ | ⟨hl, hok⟩
    · rw [hl]
      exact hok
    · rw [hl]
      exact hok

/-- One step of a lookup. -/
theorem WalLookup.Ok.next (hl : l.Ok w T minFrame pgno) (hw : Indexes w T) :
    (l.next w pgno minFrame T.length).Ok w T minFrame pgno := by
  have hlt : l.iKey < HASHTABLE_NSLOT := hl.key ▸ Probing.slot_lt (by decide) _
  have hb := hw.2 _ hl.block
  unfold WalLookup.next
  by_cases hH : l.iH = 0
  · by_cases h0 : (w l.iHash).aHash l.iKey = 0
    · have hlatest := hl.free hw h0
      simp only [hH, h0, if_true]
      split_ifs with hr
      · have := hlatest.upTo hr
        rwa [framesUpTo_of_above hl.above] at this
      · rw [not_not.1 hr] at hlatest
        exact hl.leave (hlatest.eq_empty fun h => absurd h.1.1 (by omega))
    · simp only [hH, h0, if_true, if_false]
      exact ⟨hl.block, hl.above, hl.room, hl.key, hl.met,
        fun _ => ⟨hb.bound _ hlt, fun _ _ _ => Iff.rfl⟩⟩
  · obtain ⟨hle, he⟩ := hl.entry hH
    simp only [hH, if_false]
    cases hn : l.nCollide with
    | zero => exact trivial
    | succ nCollide =>
      have hroom := hl.room
      have hkey := hl.key
      obtain ⟨r, hr, hm⟩ := hl.met
      have hk : HASHTABLE_NSLOT - nCollide = HASHTABLE_NSLOT - l.nCollide + 1 := by omega
      have hnext : walNextHash l.iKey
          = Probing.slot HASHTABLE_NSLOT (walHash pgno) (HASHTABLE_NSLOT - nCollide) := by
        rw [hkey, walNextHash_slot, hk]
      have hroom' : nCollide ≤ HASHTABLE_NSLOT := by omega
      refine ⟨hl.block, hl.above, hroom', hnext, ?_, fun h0 => absurd rfl h0⟩
      simp only [hk]
      have hiff := @WalHashLoc.Live.hit_iff _ _ T.length minFrame pgno T
        (by rwa [List.take_length]) le_rfl hl.block l.iH hH hle
      rw [hkey] at he
      split_ifs with hhit
      · have hwant : Wanted T minFrame pgno l.iHash l.iH := ⟨hH, hiff.1 hhit⟩
        obtain ⟨hpos, hN⟩ := hwant.live
        have hslot := (he _ hpos hN).2 rfl
        refine ⟨l.iH, by rw [frameOf, if_neg hH], ?_⟩
        rw [← hslot] at hwant hH ⊢
        exact hm.take hb.distinct (by omega) (hw.chained hl.block hwant) hwant hH
      · refine ⟨r, hr, hm.skip fun hwant => hhit ?_⟩
        obtain ⟨hpos, hN⟩ := hwant.live
        have hslot := (he _ hpos hN).1 rfl
        rw [← hslot] at hwant
        exact hiff.2 hwant.2

end Beside

end Btreelite
