import Btreelite.Prog
import Btreelite.Shared
import Btreelite.Probing
import Mathlib.Order.Bounds.Basic
import Mathlib.Data.List.GetD
import Mathlib.Tactic.SplitIfs

/-!
# The wal-index

The hash tables of `wal.c` that map a database page to the frames holding it. Each block of the
wal-index has the page numbers of its frames and a table of slots probed linearly. Programs here
keep the memories they passed through: a reader may look, and the writer may die, after any store.
A `memset` is one store.
-/

namespace Btreelite

open Prog

def HASHTABLE_NPAGE : ℕ := 4096

def HASHTABLE_NPAGE_ONE : ℕ := 4062

def HASHTABLE_NSLOT : ℕ := 8192

def HASHTABLE_HASH_1 : ℕ := 383

/-- The page numbers and the slots of one block. -/
structure WalHashLoc where
  aHash : ℕ → ℕ
  aPgno : ℕ → ℕ

/-- One less than the first frame of block `iHash`. -/
def iZero (iHash : ℕ) : ℕ :=
  if iHash = 0 then 0 else HASHTABLE_NPAGE_ONE + (iHash - 1) * HASHTABLE_NPAGE

/-- The number of frames of block `iHash`; the first block also holds the header. -/
def nPage (iHash : ℕ) : ℕ := if iHash = 0 then HASHTABLE_NPAGE_ONE else HASHTABLE_NPAGE

def walFramePage (iFrame : ℕ) : ℕ :=
  (iFrame + HASHTABLE_NPAGE - HASHTABLE_NPAGE_ONE - 1) / HASHTABLE_NPAGE

def walHash (iPage : ℕ) : ℕ := iPage * HASHTABLE_HASH_1 % HASHTABLE_NSLOT

def walNextHash (iPriorHash : ℕ) : ℕ := (iPriorHash + 1) % HASHTABLE_NSLOT

/-- `apWiData`: the blocks of the wal-index. -/
abbrev WalIndex := ℕ → WalHashLoc

/-- The shared memory and the memories it was before, the latest first. -/
structure Shm where
  apWiData : WalIndex
  past : List WalIndex

abbrev ShmM := EStateM Rc Shm

/-- One store to a block. -/
def store (iHash : ℕ) (f : WalHashLoc → WalHashLoc) : ShmM Unit :=
  modify fun s =>
    { apWiData := Function.update s.apWiData iHash (f (s.apWiData iHash))
      past := s.apWiData :: s.past }

def walHashGet (iHash : ℕ) : ShmM WalHashLoc := do
  return (← get).apWiData iHash

namespace WalHashLoc

def setSlot (b : WalHashLoc) (iKey idx : ℕ) : WalHashLoc :=
  { b with aHash := Function.update b.aHash iKey idx }

def setPgno (b : WalHashLoc) (i pgno : ℕ) : WalHashLoc :=
  { b with aPgno := Function.update b.aPgno i pgno }

/-- The `memset` of the page numbers from `iLimit` on. -/
def clearPgnos (b : WalHashLoc) (iHash iLimit : ℕ) : WalHashLoc :=
  { b with aPgno := fun i => if iLimit ≤ i ∧ i < nPage iHash then 0 else b.aPgno i }

@[simp] theorem setSlot_aHash (b : WalHashLoc) (iKey idx s : ℕ) :
    (b.setSlot iKey idx).aHash s = if s = iKey then idx else b.aHash s :=
  Function.update_apply ..

@[simp] theorem setSlot_aPgno (b : WalHashLoc) (iKey idx : ℕ) :
    (b.setSlot iKey idx).aPgno = b.aPgno := rfl

@[simp] theorem setPgno_aHash (b : WalHashLoc) (i pgno : ℕ) :
    (b.setPgno i pgno).aHash = b.aHash := rfl

@[simp] theorem setPgno_aPgno (b : WalHashLoc) (i pgno j : ℕ) :
    (b.setPgno i pgno).aPgno j = if j = i then pgno else b.aPgno j :=
  Function.update_apply ..

@[simp] theorem clearPgnos_aHash (b : WalHashLoc) (iHash iLimit : ℕ) :
    (b.clearPgnos iHash iLimit).aHash = b.aHash := rfl

@[simp] theorem clearPgnos_aPgno (b : WalHashLoc) (iHash iLimit i : ℕ) :
    (b.clearPgnos iHash iLimit).aPgno i
      = if iLimit ≤ i ∧ i < nPage iHash then 0 else b.aPgno i := rfl

end WalHashLoc

/-- The loop of `walCleanupHash` over the first `n` slots. -/
def clearAbove (iHash iLimit : ℕ) : ℕ → ShmM Unit
  | 0 => pure ()
  | i + 1 => do
    clearAbove iHash iLimit i
    if iLimit < (← walHashGet iHash).aHash i then
      store iHash fun b => b.setSlot i 0

def walCleanupHash (mxFrame : ℕ) : ShmM Unit := do
  if mxFrame = 0 then
    pure ()
  else
    let iHash := walFramePage mxFrame
    let iLimit := mxFrame - iZero iHash
    clearAbove iHash iLimit HASHTABLE_NSLOT
    store iHash fun b => b.clearPgnos iHash iLimit

/-- The probe of `walIndexAppend` for a free slot. -/
def freeKey (aHash : ℕ → ℕ) : ℕ → ℕ → Except Rc ℕ
  | nCollide, iKey =>
    if aHash iKey = 0 then .ok iKey
    else
      match nCollide with
      | 0 => .error .corrupt
      | nCollide + 1 => freeKey aHash nCollide (walNextHash iKey)

/-- The first entry of a block zeroes it. -/
def zeroBlock (iHash idx : ℕ) : ShmM Unit :=
  if idx = 1 then store iHash fun _ => ⟨fun _ => 0, fun _ => 0⟩ else pure ()

/-- Removes what an earlier writer left in the place of the entry. -/
def removeRemnants (mxFrame iHash idx : ℕ) : ShmM Unit := do
  if (← walHashGet iHash).aPgno (idx - 1) ≠ 0 then walCleanupHash mxFrame

/-- Writes the page number and the slot. -/
def writeEntry (iHash idx iPage : ℕ) : ShmM Unit := do
  match freeKey (← walHashGet iHash).aHash idx (walHash iPage) with
  | .error rc => throw rc
  | .ok iKey =>
    store iHash fun b => b.setPgno ((idx - 1) % HASHTABLE_NPAGE) iPage
    store iHash fun b => b.setSlot iKey idx

/-- `walIndexAppend`, where the header of the writer has `mxFrame`. -/
def walIndexAppend (mxFrame iFrame iPage : ℕ) : ShmM Unit := do
  let iHash := walFramePage iFrame
  let idx := iFrame - iZero iHash
  zeroBlock iHash idx
  removeRemnants mxFrame iHash idx
  writeEntry iHash idx iPage

/-- The probe of `walFindFrame` in one block. -/
def findKey (b : WalHashLoc) (iZero pgno minFrame iLast : ℕ) : ℕ → ℕ → ℕ → Except Rc ℕ
  | nCollide, iKey, iRead =>
    let iH := b.aHash iKey
    if iH = 0 then .ok iRead
    else
      let iFrame := iH + iZero
      let iRead :=
        if iFrame ≤ iLast ∧ minFrame ≤ iFrame ∧ b.aPgno ((iH - 1) % HASHTABLE_NPAGE) = pgno then
          iFrame
        else iRead
      match nCollide with
      | 0 => .error .corrupt
      | nCollide + 1 => findKey b iZero pgno minFrame iLast nCollide (walNextHash iKey) iRead

/-- The body of the loop of `walFindFrame` over the blocks. -/
def findIn (w : WalIndex) (pgno minFrame iLast iHash : ℕ) : Except Rc ℕ :=
  findKey (w iHash) (iZero iHash) pgno minFrame iLast HASHTABLE_NSLOT (walHash pgno) 0

/-- The loop of `walFindFrame` over the blocks, from `iHash` down to `iMinHash`. -/
def findBlock (w : WalIndex) (pgno minFrame iLast iMinHash : ℕ) : ℕ → Except Rc ℕ
  | 0 => if iMinHash ≤ 0 then findIn w pgno minFrame iLast 0 else .ok 0
  | iHash + 1 =>
    if iMinHash ≤ iHash + 1 then do
      let iRead ← findIn w pgno minFrame iLast (iHash + 1)
      if iRead ≠ 0 then
        return iRead
      else
        findBlock w pgno minFrame iLast iMinHash iHash
    else .ok 0

/-- `walFindFrame`, for a handle that holds read lock `readLock` and has its bounds in `minFrame`
and `mxFrame`. -/
def walFindFrame (w : WalIndex) (readLock : ℕ) (bShmUnreliable : Bool)
    (minFrame mxFrame pgno : ℕ) : Except Rc ℕ :=
  if mxFrame = 0 ∨ (readLock = 0 ∧ bShmUnreliable = false) then .ok 0
  else findBlock w pgno minFrame mxFrame (walFramePage minFrame) (walFramePage mxFrame)

/-! ## Frames and blocks -/

section Blocks

variable {h h' f : ℕ}

theorem iZero_succ (h : ℕ) : iZero (h + 1) = iZero h + nPage h := by
  cases h with
  | zero => rfl
  | succ h =>
    simp only [iZero, nPage, Nat.succ_ne_zero, if_false, Nat.add_sub_cancel, Nat.succ_mul]
    omega

theorem nPage_pos (h : ℕ) : 0 < nPage h := by
  unfold nPage HASHTABLE_NPAGE_ONE HASHTABLE_NPAGE
  split_ifs <;> omega

theorem nPage_le (h : ℕ) : nPage h ≤ HASHTABLE_NPAGE := by
  unfold nPage HASHTABLE_NPAGE_ONE HASHTABLE_NPAGE
  split_ifs <;> omega

theorem iZero_mono (hh : h < h') : iZero h + nPage h ≤ iZero h' := by
  rw [← iZero_succ]
  unfold iZero HASHTABLE_NPAGE_ONE HASHTABLE_NPAGE
  split_ifs <;> omega

/-- A frame lies in its block. -/
theorem iZero_lt_iff (hf : 0 < f) :
    walFramePage f = h ↔ iZero h < f ∧ f ≤ iZero h + nPage h := by
  unfold walFramePage iZero nPage HASHTABLE_NPAGE_ONE HASHTABLE_NPAGE
  split_ifs <;> omega

theorem iZero_walFramePage (hf : 0 < f) :
    iZero (walFramePage f) < f ∧ f ≤ iZero (walFramePage f) + nPage (walFramePage f) :=
  (iZero_lt_iff hf).1 rfl

theorem walFramePage_mono (hf : f ≤ h) : walFramePage f ≤ walFramePage h := by
  unfold walFramePage
  exact Nat.div_le_div_right (by omega)

/-- The number of frames of block `h` when the log has `n`. -/
def filled (h n : ℕ) : ℕ := min (nPage h) (n - iZero h)

theorem walHash_lt (p : ℕ) : walHash p < HASHTABLE_NSLOT := Nat.mod_lt _ (by decide)

theorem walNextHash_slot (k : ℕ) :
    walNextHash (Probing.slot HASHTABLE_NSLOT h k) = Probing.slot HASHTABLE_NSLOT h (k + 1) := by
  unfold walNextHash Probing.slot
  rw [Nat.mod_add_mod, Nat.add_assoc]

end Blocks

/-! ## What a block says about the log -/

section Live

/-- No slot and no page number is left of the frames after the first `n`. -/
structure WalHashLoc.Clean (b : WalHashLoc) (h n : ℕ) : Prop where
  slots : ∀ s < HASHTABLE_NSLOT, b.aHash s ≤ n
  pgnos : ∀ i, n ≤ i → i < nPage h → b.aPgno i = 0

/-- The home slot of an entry. -/
def WalHashLoc.home (b : WalHashLoc) (j : ℕ) : ℕ := walHash (b.aPgno (j - 1))

/-- Block `h` indexes the frames that the log with these pages has in it. What it holds beyond
them was left by a writer that did not finish, and then the next page number is not zero. -/
structure WalHashLoc.Live (b : WalHashLoc) (h : ℕ) (log : List ℕ) : Prop where
  pgno : ∀ i < filled h log.length, b.aPgno i = log.getD (iZero h + i) 0
  holds : Probing.Holds HASHTABLE_NSLOT b.home b.aHash (filled h log.length)
  distinct : Probing.Distinct HASHTABLE_NSLOT b.aHash
  bound : ∀ s < HASHTABLE_NSLOT, b.aHash s ≤ nPage h
  tidy : filled h log.length < nPage h →
    b.Clean h (filled h log.length) ∨ b.aPgno (filled h log.length) ≠ 0

/-- The wal-index indexes every frame of the log; blocks the log has not reached hold anything. -/
def Indexes (w : WalIndex) (log : List ℕ) : Prop :=
  (∀ p ∈ log, p ≠ 0) ∧ ∀ h, iZero h < log.length → (w h).Live h log

variable {b b' : WalHashLoc} {w : WalIndex} {h n L : ℕ} {log : List ℕ}

theorem getD_ne_zero (hl : ∀ p ∈ log, p ≠ 0) {i : ℕ} (hi : i < log.length) :
    log.getD i 0 ≠ 0 := by
  rw [List.getD_eq_getElem _ _ hi]
  exact hl _ (List.getElem_mem hi)

theorem getD_take {i : ℕ} (hi : i < L) : (log.take L).getD i 0 = log.getD i 0 := by
  simp only [List.getD_eq_getElem?_getD, List.getElem?_take, hi, if_true]

/-- The frames that were dropped are those a dead writer left. -/
theorem WalHashLoc.Live.take (hb : b.Live h log) (hl : ∀ p ∈ log, p ≠ 0)
    (hL : L ≤ log.length) : b.Live h (log.take L) := by
  have hlen : (log.take L).length = L := List.length_take_of_le hL
  have hle : filled h L ≤ filled h log.length := by
    unfold filled
    omega
  refine ⟨fun i hi => ?_, ?_, hb.distinct, hb.bound, fun hlt => ?_⟩
  · rw [hlen] at hi
    rw [getD_take (by unfold filled at hi; omega), hb.pgno i (by omega)]
  · rw [hlen]
    exact hb.holds.take hle
  · rw [hlen] at hlt ⊢
    rcases Nat.lt_or_eq_of_le hle with hlt' | he
    · refine .inr ?_
      rw [hb.pgno _ hlt']
      exact getD_ne_zero hl (by unfold filled at hlt' hlt ⊢; omega)
    · rw [he] at hlt ⊢
      exact hb.tidy hlt

theorem Indexes.take (hw : Indexes w log) (L : ℕ) : Indexes w (log.take L) := by
  refine ⟨fun p hp => hw.1 p (List.mem_of_mem_take hp), fun h hh => ?_⟩
  rcases Nat.le_total L log.length with hL | hL
  · refine (hw.2 h ?_).take hw.1 hL
    rw [List.length_take_of_le hL] at hh
    omega
  · rw [List.take_of_length_le hL] at hh ⊢
    exact hw.2 h hh

theorem Indexes.nil (w : WalIndex) : Indexes w [] :=
  ⟨fun _ hp => absurd hp (by simp), fun _ hh => absurd hh (by simp)⟩

end Live

/-! ## Finding a frame -/

section Find

variable {b : WalHashLoc} {w : WalIndex} {h m minFrame pgno : ℕ} {log : List ℕ}

/-- The frames of the log from `minFrame` to `mxFrame` that hold the page. -/
def framesOf (log : List ℕ) (minFrame mxFrame pgno : ℕ) : Set ℕ :=
  {i | 0 < i ∧ minFrame ≤ i ∧ i ≤ mxFrame ∧ log[i - 1]? = some pgno}

/-- The largest of these frames, or `0` if there is none. -/
def IsLatest (s : Set ℕ) (r : ℕ) : Prop := IsGreatest s r ∨ (s = ∅ ∧ r = 0)

theorem framesOf_take {n : ℕ} (hm : m ≤ n) :
    framesOf (log.take n) minFrame m pgno = framesOf log minFrame m pgno := by
  ext i
  simp only [framesOf, Set.mem_ofPred_eq]
  constructor
  · intro ⟨h1, h2, h3, h4⟩
    rw [List.getElem?_take_of_lt (by omega)] at h4
    exact ⟨h1, h2, h3, h4⟩
  · intro ⟨h1, h2, h3, h4⟩
    rw [← List.getElem?_take_of_lt (show i - 1 < n by omega)] at h4
    exact ⟨h1, h2, h3, h4⟩

/-- Frames that come later do not count. -/
theorem framesOf_append {l : List ℕ} (hm : m ≤ log.length) :
    framesOf (log ++ l) minFrame m pgno = framesOf log minFrame m pgno := by
  rw [← framesOf_take hm, List.take_left, ← framesOf_take hm, List.take_length]

/-- Entry `j` of a block is one that `walFindFrame` takes. -/
def WalHashLoc.Hit (b : WalHashLoc) (iZero pgno minFrame iLast j : ℕ) : Prop :=
  j + iZero ≤ iLast ∧ minFrame ≤ j + iZero ∧ b.aPgno ((j - 1) % HASHTABLE_NPAGE) = pgno

/-- The frame of entry `j`, where `0` stands for none. -/
def frameOf (iZero j : ℕ) : ℕ := if j = 0 then 0 else j + iZero

variable {s₀ k₀ : ℕ}

/-- A hit among the entries the block has room for. -/
def WalHashLoc.Taken (b : WalHashLoc) (h pgno minFrame iLast j : ℕ) : Prop :=
  (j ≠ 0 ∧ j ≤ nPage h) ∧ b.Hit (iZero h) pgno minFrame iLast j

theorem findKey_met (hd : Probing.Distinct HASHTABLE_NSLOT b.aHash)
    (hM : ∀ s < HASHTABLE_NSLOT, b.aHash s ≤ nPage h) (hk₀ : k₀ < HASHTABLE_NSLOT)
    (hfree : b.aHash (Probing.slot HASHTABLE_NSLOT s₀ k₀) = 0)
    (hbefore : ∀ i < k₀, b.aHash (Probing.slot HASHTABLE_NSLOT s₀ i) ≠ 0)
    (hhit : ∀ j, b.Taken h pgno minFrame m j → Probing.Chained HASHTABLE_NSLOT b.aHash s₀ j) :
    ∀ nCollide k r, k ≤ k₀ → k₀ ≤ k + nCollide →
      Probing.Met HASHTABLE_NSLOT b.aHash (b.Taken h pgno minFrame m) s₀ k r →
      ∃ r', findKey b (iZero h) pgno minFrame m nCollide (Probing.slot HASHTABLE_NSLOT s₀ k)
          (frameOf (iZero h) r) = .ok (frameOf (iZero h) r') ∧
        Probing.Met HASHTABLE_NSLOT b.aHash (b.Taken h pgno minFrame m) s₀ k₀ r'
  | nCollide, k, r, hk, hn, hm => by
    unfold findKey
    by_cases h0 : b.aHash (Probing.slot HASHTABLE_NSLOT s₀ k) = 0
    · obtain rfl : k = k₀ := by
        by_contra hne
        exact hbefore k (by omega) h0
      exact ⟨r, by simp [h0], hm⟩
    · have hlt : k < k₀ := by
        refine lt_of_le_of_ne hk ?_
        intro e
        exact h0 (e ▸ hfree)
      obtain ⟨nCollide, rfl⟩ : ∃ n, nCollide = n + 1 := ⟨nCollide - 1, by omega⟩
      simp only [h0, if_false, walNextHash_slot]
      split_ifs with hh
      · have hp : b.Taken h pgno minFrame m (b.aHash (Probing.slot HASHTABLE_NSLOT s₀ k)) :=
          ⟨⟨h0, hM _ (Probing.slot_lt (by decide) k)⟩, hh⟩
        have hm' := hm.take hd (by omega) (hhit _ hp) hp h0
        have he : b.aHash (Probing.slot HASHTABLE_NSLOT s₀ k) + iZero h
            = frameOf (iZero h) (b.aHash (Probing.slot HASHTABLE_NSLOT s₀ k)) := by
          rw [frameOf, if_neg h0]
        rw [he]
        exact findKey_met hd hM hk₀ hfree hbefore hhit nCollide (k + 1) _ hlt (by omega) hm'
      · exact findKey_met hd hM hk₀ hfree hbefore hhit nCollide (k + 1) r hlt (by omega)
          (hm.skip fun hp => hh hp.2)

/-- The frames of one block. -/
def framesIn (log : List ℕ) (minFrame mxFrame pgno h : ℕ) : Set ℕ :=
  {i | i ∈ framesOf log minFrame mxFrame pgno ∧ walFramePage i = h}

theorem WalHashLoc.Live.hit_iff (hb : b.Live h (log.take m)) (hm : m ≤ log.length)
    (hh : iZero h < m) {j : ℕ} (hj : j ≠ 0) (hjb : j ≤ nPage h) :
    b.Hit (iZero h) pgno minFrame m j ↔ j + iZero h ∈ framesIn log minFrame m pgno h := by
  have hmod : (j - 1) % HASHTABLE_NPAGE = j - 1 :=
    Nat.mod_eq_of_lt (by have := nPage_le h; omega)
  have hpage : walFramePage (j + iZero h) = h := (iZero_lt_iff (by omega)).2 (by omega)
  have hlen : (log.take m).length = m := List.length_take_of_le hm
  have hpg : j + iZero h ≤ m →
      (b.aPgno (j - 1) = pgno ↔ log[j + iZero h - 1]? = some pgno) := by
    intro hle
    rw [hb.pgno (j - 1) (by unfold filled; omega), getD_take (by omega),
      show iZero h + (j - 1) = j + iZero h - 1 by omega,
      List.getD_eq_getElem _ _ (by omega), List.getElem?_eq_getElem (by omega), Option.some_inj]
  simp only [WalHashLoc.Hit, framesIn, framesOf, Set.mem_ofPred_eq, hmod, hpage, and_true]
  constructor
  · intro ⟨h1, h2, h3⟩
    exact ⟨by omega, h2, h1, (hpg h1).1 h3⟩
  · intro ⟨_, h2, h1, h3⟩
    exact ⟨h1, h2, (hpg h1).2 h3⟩

theorem findIn_latest (hw : Indexes w log) (hm : m ≤ log.length) (hh : iZero h < m) :
    ∃ r, findIn w pgno minFrame m h = .ok r ∧ IsLatest (framesIn log minFrame m pgno h) r := by
  have hlen : (log.take m).length = m := List.length_take_of_le hm
  have hb : (w h).Live h (log.take m) := (hw.take m).2 h (by omega)
  have hlt : nPage h < HASHTABLE_NSLOT := lt_of_le_of_lt (nPage_le h) (by decide)
  have hchain : ∀ j, (w h).Taken h pgno minFrame m j →
      Probing.Chained HASHTABLE_NSLOT (w h).aHash (walHash pgno) j := by
    intro j ⟨⟨hj, hjb⟩, hhit⟩
    have hmod : (j - 1) % HASHTABLE_NPAGE = j - 1 :=
      Nat.mod_eq_of_lt (by have := nPage_le h; omega)
    obtain ⟨h1, -, h3⟩ := hhit
    have := hb.holds j (by omega) (by rw [hlen]; unfold filled; omega)
    rwa [WalHashLoc.home, ← hmod, h3] at this
  obtain ⟨k₀, hk₀, hfree, hbefore⟩ :=
    Probing.exists_first_free (Probing.exists_free hb.distinct hb.bound hlt (walHash pgno))
  obtain ⟨r, hr, hmet⟩ := findKey_met hb.distinct hb.bound (by omega) hfree hbefore hchain
    HASHTABLE_NSLOT 0 0 (by omega) (by omega) Probing.Met.zero
  rw [Probing.slot_zero (walHash_lt pgno)] at hr
  refine ⟨frameOf (iZero h) r, hr, ?_⟩
  have hmax : ∀ i ∈ framesIn log minFrame m pgno h, i - iZero h ≤ r ∧ iZero h < i := by
    intro i hi
    obtain ⟨hz, hle⟩ := (iZero_lt_iff hi.1.1).1 hi.2
    have hi' : i - iZero h + iZero h ∈ framesIn log minFrame m pgno h := by
      rwa [Nat.sub_add_cancel hz.le]
    have hhit := (hb.hit_iff hm hh (by omega) (by omega)).2 hi'
    have hp : (w h).Taken h pgno minFrame m (i - iZero h) := ⟨by omega, hhit⟩
    exact ⟨hmet.all hfree (hchain _ hp) (by omega) hp, hz⟩
  by_cases h0 : r = 0
  · refine .inr ⟨Set.eq_empty_of_forall_notMem fun i hi => ?_, by rw [frameOf, if_pos h0]⟩
    have := hmax i hi
    omega
  · have hp := hmet.mem h0
    rw [frameOf, if_neg h0]
    refine .inl ⟨(hb.hit_iff hm hh h0 hp.1.2).1 hp.2, fun i hi => ?_⟩
    have := hmax i hi
    omega

/-- The frames of the blocks up to `h`. -/
def framesUpTo (log : List ℕ) (minFrame mxFrame pgno h : ℕ) : Set ℕ :=
  {i | i ∈ framesOf log minFrame mxFrame pgno ∧ walFramePage i ≤ h}

theorem framesUpTo_eq_empty (hlt : h < walFramePage minFrame) :
    framesUpTo log minFrame m pgno h = ∅ := by
  refine Set.eq_empty_of_forall_notMem fun i ⟨hi, hle⟩ => ?_
  have := walFramePage_mono hi.2.1
  omega

theorem framesUpTo_zero : framesUpTo log minFrame m pgno 0 = framesIn log minFrame m pgno 0 := by
  ext i
  simp only [framesUpTo, framesIn, Set.mem_ofPred_eq, Nat.le_zero]

theorem framesUpTo_succ_of_empty (he : framesIn log minFrame m pgno (h + 1) = ∅) :
    framesUpTo log minFrame m pgno (h + 1) = framesUpTo log minFrame m pgno h := by
  ext i
  have hne : i ∉ framesIn log minFrame m pgno (h + 1) := he ▸ Set.notMem_empty i
  simp only [framesUpTo, framesIn, Set.mem_ofPred_eq, not_and] at hne ⊢
  constructor
  · intro ⟨hi, hle⟩
    exact ⟨hi, by have := hne hi; omega⟩
  · intro ⟨hi, hle⟩
    exact ⟨hi, by omega⟩

theorem IsLatest.eq_empty {s : Set ℕ} (hs : IsLatest s 0) (h0 : 0 ∉ s) : s = ∅ := by
  rcases hs with hg | ⟨he, -⟩
  · exact absurd hg.1 h0
  · exact he

theorem IsLatest.upTo {r : ℕ} (hr : r ≠ 0) (hl : IsLatest (framesIn log minFrame m pgno h) r) :
    IsLatest (framesUpTo log minFrame m pgno h) r := by
  obtain ⟨⟨hmem, hpage⟩, hub⟩ := hl.resolve_right fun he => hr he.2
  refine .inl ⟨⟨hmem, hpage.le⟩, fun i ⟨hi, hle⟩ => ?_⟩
  rcases Nat.lt_or_eq_of_le hle with hlt | he
  · by_contra hgt
    have := walFramePage_mono (Nat.not_le.1 hgt).le
    omega
  · exact hub ⟨hi, he⟩

theorem findBlock_latest (hw : Indexes w log) (hm : m ≤ log.length) :
    ∀ h, iZero h < m → ∃ r, findBlock w pgno minFrame m (walFramePage minFrame) h = .ok r ∧
      IsLatest (framesUpTo log minFrame m pgno h) r
  | 0, hh => by
    unfold findBlock
    split_ifs with hmin
    · rw [framesUpTo_zero]
      exact findIn_latest hw hm hh
    · exact ⟨0, rfl, .inr ⟨framesUpTo_eq_empty (by omega), rfl⟩⟩
  | h + 1, hh => by
    unfold findBlock
    split_ifs with hmin
    · obtain ⟨r, hr, hl⟩ : ∃ r, findIn w pgno minFrame m (h + 1) = .ok r ∧
          IsLatest (framesIn log minFrame m pgno (h + 1)) r := findIn_latest hw hm hh
      by_cases h0 : r = 0
      · subst h0
        have he := hl.eq_empty fun h0 => absurd h0.1.1 (by omega)
        obtain ⟨r', hr', hl'⟩ := findBlock_latest hw hm h
          (by have := iZero_succ h; omega)
        refine ⟨r', ?_, by rwa [framesUpTo_succ_of_empty he]⟩
        simp only [hr, bind, Except.bind, ne_eq, not_true_eq_false, if_false, hr']
      · refine ⟨r, ?_, hl.upTo h0⟩
        simp only [hr, bind, Except.bind, ne_eq, h0, not_false_eq_true, if_true]
        rfl
    · exact ⟨0, rfl, .inr ⟨framesUpTo_eq_empty (by omega), rfl⟩⟩

/-- With the index of a log, a reader of its first `m` frames finds the last one that has the
page. -/
theorem walFindFrame_latest (hw : Indexes w log) (hm : m ≤ log.length) {readLock : ℕ}
    {bShmUnreliable : Bool} (hr : readLock ≠ 0 ∨ bShmUnreliable = true) :
    ∃ r, walFindFrame w readLock bShmUnreliable minFrame m pgno = .ok r ∧
      IsLatest (framesOf log minFrame m pgno) r := by
  unfold walFindFrame
  split_ifs with h0
  · have hm0 : m = 0 := by
      rcases h0 with h0 | ⟨h1, h2⟩
      · exact h0
      · rcases hr with hr | hr
        · exact absurd h1 hr
        · simp [h2] at hr
    refine ⟨0, rfl, .inr ⟨Set.eq_empty_of_forall_notMem fun i hi => ?_, rfl⟩⟩
    obtain ⟨h1, -, h2, -⟩ := hi
    omega
  · have hpos : 0 < m := by omega
    obtain ⟨r, hr', hl⟩ : ∃ r,
        findBlock w pgno minFrame m (walFramePage minFrame) (walFramePage m) = .ok r ∧
          IsLatest (framesUpTo log minFrame m pgno (walFramePage m)) r :=
      findBlock_latest hw hm _ (iZero_walFramePage hpos).1
    refine ⟨r, hr', ?_⟩
    have he : framesUpTo log minFrame m pgno (walFramePage m) = framesOf log minFrame m pgno := by
      ext i
      simp only [framesUpTo, Set.mem_ofPred_eq, and_iff_left_iff_imp]
      exact fun hi => walFramePage_mono hi.2.2.1
    rwa [he] at hl

end Find

/-! ## Stores

What a program does from one memory, and what every memory on its way satisfies. -/

section Stays

variable {α β : Type} {I I' : WalIndex → Prop} {Q : α → WalIndex → Prop} {w : WalIndex}

/-- From `w`, `m` returns with `Q`, and the memories it left behind all satisfy `I`. -/
def Stays (I : WalIndex → Prop) (m : ShmM α) (w : WalIndex) (Q : α → WalIndex → Prop) : Prop :=
  ∀ past, wp m (fun a s => Q a s.apWiData ∧ ∃ new, s.past = new ++ past ∧ ∀ x ∈ new, I x)
    (fun _ _ => False) ⟨w, past⟩

theorem Stays.pure {a : α} (h : Q a w) : Stays I (pure a) w Q := fun past =>
  ⟨h, [], rfl, fun _ hx => absurd hx (by simp)⟩

theorem Stays.bind {m : ShmM β} {f : β → ShmM α} {R : β → WalIndex → Prop} (h : Stays I m w R)
    (hf : ∀ b w', R b w' → Stays I (f b) w' Q) : Stays I (m >>= f) w Q := by
  intro past
  refine wp_bind.2 ((h past).post fun b s ⟨hR, new, hpast, hI⟩ => ?_)
  refine (hf b _ hR s.past).post fun a s' ⟨hQ, new', hpast', hI'⟩ => ?_
  refine ⟨hQ, new' ++ new, by rw [hpast', hpast, List.append_assoc], fun x hx => ?_⟩
  rcases List.mem_append.1 hx with hx | hx
  · exact hI' x hx
  · exact hI x hx

theorem Stays.post {m : ShmM α} {Q' : α → WalIndex → Prop} (h : Stays I m w Q)
    (hQ : ∀ a w', Q a w' → Q' a w') : Stays I m w Q' := fun past =>
  (h past).post fun a _ ⟨h1, h2⟩ => ⟨hQ a _ h1, h2⟩

theorem Stays.weaken {m : ShmM α} (h : Stays I m w Q) (hI : ∀ x, I x → I' x) :
    Stays I' m w Q := fun past =>
  (h past).post fun _ _ ⟨h1, new, h2, h3⟩ => ⟨h1, new, h2, fun x hx => hI x (h3 x hx)⟩

theorem Stays.ite {c : Prop} [Decidable c] {m m' : ShmM α} (h : c → Stays I m w Q)
    (h' : ¬ c → Stays I m' w Q) : Stays I (if c then m else m') w Q := by
  split_ifs with hc
  · exact h hc
  · exact h' hc

/-- A run from `w`, with the memories it left behind. -/
theorem Stays.of_ok {m : ShmM α} (h : Stays I m w Q) {a : α} {w' : WalIndex}
    {past : List WalIndex} (hm : m ⟨w, []⟩ = .ok a ⟨w', past⟩) : Q a w' ∧ ∀ x ∈ past, I x := by
  obtain ⟨hQ, new, hpast, hI⟩ := (h []).of_ok hm
  rw [List.append_nil] at hpast
  exact ⟨hQ, fun x hx => hI x (hpast ▸ hx)⟩

theorem walHashGet_stays (h : ℕ) : Stays I (walHashGet h) w fun b w' => b = w h ∧ w' = w :=
  fun _ => ⟨⟨rfl, rfl⟩, [], rfl, fun _ hx => absurd hx (by simp)⟩

theorem store_stays {h : ℕ} {f : WalHashLoc → WalHashLoc} (hI : I w) :
    Stays I (store h f) w fun _ w' => w' = Function.update w h (f (w h)) := fun past =>
  ⟨rfl, [w], rfl, fun x hx => by rw [List.mem_singleton.1 hx]; exact hI⟩

end Stays

section Append

variable {b : WalHashLoc} {w : WalIndex} {h mxFrame pgno : ℕ} {log : List ℕ}

theorem Indexes.update (hw : Indexes w log) (hb : iZero h < log.length → b.Live h log) :
    Indexes (Function.update w h b) log := by
  refine ⟨hw.1, fun h' hh => ?_⟩
  rcases eq_or_ne h' h with rfl | hne
  · rw [Function.update_self]
    exact hb hh
  · rw [Function.update_of_ne hne]
    exact hw.2 h' hh

theorem WalHashLoc.Live.clearSlot (hb : b.Live h log) {s : ℕ}
    (hs : filled h log.length < b.aHash s) : (b.setSlot s 0).Live h log := by
  refine ⟨hb.pgno, hb.holds.congr (by decide) (fun s' _ _ hle => ?_) fun _ _ _ => rfl,
    hb.distinct.clear fun s' _ => ?_, fun s' hs' => ?_, fun hlt => ?_⟩
  · rw [WalHashLoc.setSlot_aHash, if_neg]
    intro e
    rw [e] at hle
    omega
  · simp only [WalHashLoc.setSlot_aHash]
    split_ifs
    · exact .inr rfl
    · exact .inl rfl
  · have := hb.bound s' hs'
    simp only [WalHashLoc.setSlot_aHash]
    split_ifs <;> omega
  · refine (hb.tidy hlt).imp (fun hc => ⟨fun s' hs' => ?_, hc.pgnos⟩) id
    have := hc.slots s' hs'
    simp only [WalHashLoc.setSlot_aHash]
    split_ifs <;> omega

theorem clearAbove_stays (hh : iZero h < log.length) : ∀ (n : ℕ) (w : WalIndex), Indexes w log →
    Stays (Indexes · log) (clearAbove h (filled h log.length) n) w fun _ w' =>
      Indexes w' log ∧ ∀ s < n, (w' h).aHash s ≤ filled h log.length
  | 0, w, hw => Stays.pure ⟨hw, fun s hs => absurd hs (by omega)⟩
  | n + 1, w, hw => by
    unfold clearAbove
    refine (clearAbove_stays hh n w hw).bind fun _ w₁ ⟨hw₁, hs₁⟩ => ?_
    refine (walHashGet_stays h).bind fun b w₂ ⟨hb, hw₂⟩ => ?_
    subst hb hw₂
    refine Stays.ite (fun hlt => (store_stays hw₁).post fun _ w₃ hw₃ => ?_) fun hle =>
      Stays.pure ⟨hw₁, fun s hs => ?_⟩
    · subst hw₃
      refine ⟨hw₁.update fun _ => (hw₁.2 h hh).clearSlot hlt, fun s hs => ?_⟩
      simp only [Function.update_self, WalHashLoc.setSlot_aHash]
      split_ifs with he
      · omega
      · exact hs₁ s (by omega)
    · rcases Nat.lt_succ_iff_lt_or_eq.1 hs with hlt | rfl
      · exact hs₁ s hlt
      · omega

/-- Nothing is left of later frames in the last block of the log. -/
def Trimmed (w : WalIndex) (log : List ℕ) : Prop :=
  ∀ h, iZero h < log.length → log.length < iZero h + nPage h →
    (w h).Clean h (filled h log.length)

theorem WalHashLoc.Live.clearPgnos (hb : b.Live h log)
    (hs : ∀ s < HASHTABLE_NSLOT, b.aHash s ≤ filled h log.length) :
    (b.clearPgnos h (filled h log.length)).Live h log := by
  have hkeep : ∀ i < filled h log.length,
      (b.clearPgnos h (filled h log.length)).aPgno i = b.aPgno i := fun i hi => if_neg (by omega)
  refine ⟨fun i hi => ?_, hb.holds.congr (by decide) (fun _ _ _ _ => rfl) fun j hj hjN => ?_,
    hb.distinct, hb.bound, fun _ => .inl ⟨hs, fun i h1 h2 => if_pos ⟨h1, h2⟩⟩⟩
  · rw [hkeep i hi]
    exact hb.pgno i hi
  · unfold WalHashLoc.home
    rw [hkeep (j - 1) (by omega)]

theorem walCleanupHash_stays (hw : Indexes w log) :
    Stays (Indexes · log) (walCleanupHash log.length) w fun _ w' =>
      Indexes w' log ∧ Trimmed w' log := by
  unfold walCleanupHash
  refine Stays.ite (fun h0 => Stays.pure ⟨hw, fun h hh => absurd hh (by omega)⟩) fun h0 => ?_
  have hpos : 0 < log.length := by omega
  obtain ⟨hz, hle⟩ := iZero_walFramePage hpos
  have hfill : log.length - iZero (walFramePage log.length)
      = filled (walFramePage log.length) log.length := by
    unfold filled
    omega
  simp only [hfill]
  generalize hn : HASHTABLE_NSLOT = n
  refine (clearAbove_stays hz n w hw).bind fun _ w₁ ⟨hw₁, hs⟩ => ?_
  rw [← hn] at hs
  refine (store_stays hw₁).post fun _ w₂ hw₂ => ?_
  subst hw₂
  refine ⟨hw₁.update fun _ => (hw₁.2 _ hz).clearPgnos hs, fun h hh hlt => ?_⟩
  obtain rfl : walFramePage log.length = h := (iZero_lt_iff hpos).2 ⟨hh, hlt.le⟩
  rw [Function.update_self]
  exact ⟨hs, fun i h1 h2 => if_pos ⟨h1, h2⟩⟩

/-- A block that can take the next frame of the log. -/
structure WalHashLoc.Ready (b : WalHashLoc) (h : ℕ) (log : List ℕ) : Prop where
  pgno : ∀ i < filled h log.length, b.aPgno i = log.getD (iZero h + i) 0
  holds : Probing.Holds HASHTABLE_NSLOT b.home b.aHash (filled h log.length)
  distinct : Probing.Distinct HASHTABLE_NSLOT b.aHash
  clean : b.Clean h (filled h log.length)

theorem WalHashLoc.Live.ready (hb : b.Live h log) (hc : b.Clean h (filled h log.length)) :
    b.Ready h log :=
  ⟨hb.pgno, hb.holds, hb.distinct, hc⟩

theorem WalHashLoc.Ready.zero (hz : log.length ≤ iZero h) :
    WalHashLoc.Ready ⟨fun _ => 0, fun _ => 0⟩ h log := by
  have hN : filled h log.length = 0 := by
    unfold filled
    omega
  refine ⟨fun i hi => absurd hi (by omega), ?_, fun _ _ _ _ h0 => absurd rfl h0,
    ⟨fun _ _ => Nat.zero_le _, fun _ _ _ => rfl⟩⟩
  rw [hN]
  exact Probing.Holds.zero

/-- A full block does not change when the log grows. -/
theorem WalHashLoc.Live.append (hb : b.Live h log) (hfull : iZero h + nPage h ≤ log.length)
    {l : List ℕ} : b.Live h (log ++ l) := by
  have hN : filled h log.length = nPage h := by
    unfold filled
    omega
  have hN' : filled h (log ++ l).length = nPage h := by
    rw [List.length_append]
    unfold filled
    omega
  refine ⟨fun i hi => ?_, ?_, hb.distinct, hb.bound, fun hlt => absurd hlt (by omega)⟩
  · rw [hN'] at hi
    rw [hb.pgno i (by omega), List.getD_append _ _ _ _ (by omega)]
  · rw [hN', ← hN]
    exact hb.holds

section Next

variable (hz : iZero h ≤ log.length) (hlt : log.length < iZero h + nPage h)

include hz hlt in
theorem filled_next : filled h log.length = log.length - iZero h ∧
    filled h (log ++ [pgno]).length = log.length - iZero h + 1 := by
  rw [List.length_append, List.length_singleton]
  unfold filled
  omega

include hz hlt in
/-- The page number is stored before the slot. -/
theorem WalHashLoc.Ready.setPgno (hb : b.Ready h log) (hp : pgno ≠ 0) :
    (b.setPgno (log.length - iZero h) pgno).Live h log := by
  obtain ⟨hN, -⟩ := @filled_next h pgno log hz hlt
  have hkeep : ∀ i < filled h log.length,
      (b.setPgno (log.length - iZero h) pgno).aPgno i = b.aPgno i := by
    intro i hi
    rw [WalHashLoc.setPgno_aPgno, if_neg (by omega)]
  refine ⟨fun i hi => ?_, hb.holds.congr (by decide) (fun _ _ _ _ => rfl) fun j hj hjN => ?_,
    hb.distinct, fun s hs => ?_, fun _ => .inr ?_⟩
  · rw [hkeep i hi]
    exact hb.pgno i hi
  · unfold WalHashLoc.home
    rw [hkeep (j - 1) (by omega)]
  · have := hb.clean.slots s hs
    rw [WalHashLoc.setPgno_aHash]
    omega
  · rw [hN, WalHashLoc.setPgno_aPgno, if_pos rfl]
    exact hp

include hz hlt in
theorem WalHashLoc.Ready.append (hb : b.Ready h log) {k : ℕ} (hk : k < HASHTABLE_NSLOT)
    (hfree : b.aHash (Probing.slot HASHTABLE_NSLOT (walHash pgno) k) = 0)
    (hbefore : ∀ i < k, b.aHash (Probing.slot HASHTABLE_NSLOT (walHash pgno) i) ≠ 0) :
    ((b.setPgno (log.length - iZero h) pgno).setSlot
      (Probing.slot HASHTABLE_NSLOT (walHash pgno) k) (log.length - iZero h + 1)).Ready h
        (log ++ [pgno]) := by
  obtain ⟨hN, hN'⟩ := @filled_next h pgno log hz hlt
  have hslots := hb.clean.slots
  have hholds := hb.holds
  rw [hN] at hslots hholds
  set b' := b.setPgno (log.length - iZero h) pgno with hb'
  have hnew : walHash pgno = b'.home (log.length - iZero h + 1) := by
    rw [WalHashLoc.home, hb', WalHashLoc.setPgno_aPgno, if_pos (by omega)]
  have hins : Probing.Holds HASHTABLE_NSLOT b'.home
      (Function.update b.aHash (Probing.slot HASHTABLE_NSLOT (walHash pgno) k)
        (log.length - iZero h + 1)) (log.length - iZero h + 1) := by
    rw [hnew] at hfree hbefore ⊢
    refine (hholds.congr (by decide) (fun _ _ _ _ => rfl) fun j hj hjN => ?_).insert hslots hk
      hfree hbefore
    rw [WalHashLoc.home, hb', WalHashLoc.setPgno_aPgno, if_neg (by omega)]
    rfl
  refine ⟨fun i hi => ?_, by rw [hN']; exact hins, hb.distinct.insert hslots,
    fun s hs => ?_, fun i h1 h2 => ?_⟩
  · rw [hN'] at hi
    rw [WalHashLoc.setSlot_aPgno, hb', WalHashLoc.setPgno_aPgno]
    split_ifs with he
    · rw [List.getD_append_right _ _ _ _ (by omega),
        show iZero h + i - log.length = 0 by omega]
      rfl
    · rw [hb.pgno i (by omega), List.getD_append _ _ _ _ (by omega)]
  · rw [hN']
    have := hslots s hs
    rw [WalHashLoc.setSlot_aHash, hb', WalHashLoc.setPgno_aHash]
    split_ifs <;> omega
  · rw [hN'] at h1
    rw [WalHashLoc.setSlot_aPgno, hb', WalHashLoc.setPgno_aPgno, if_neg (by omega)]
    exact hb.clean.pgnos i (by omega) h2

end Next

theorem WalHashLoc.Ready.live (hb : b.Ready h log) : b.Live h log :=
  ⟨hb.pgno, hb.holds, hb.distinct, fun s hs => by
    have := hb.clean.slots s hs
    unfold filled at this
    omega, fun _ => .inl hb.clean⟩

theorem freeKey_eq {aHash : ℕ → ℕ} {s₀ k₀ : ℕ}
    (hfree : aHash (Probing.slot HASHTABLE_NSLOT s₀ k₀) = 0)
    (hbefore : ∀ i < k₀, aHash (Probing.slot HASHTABLE_NSLOT s₀ i) ≠ 0) :
    ∀ nCollide k, k ≤ k₀ → k₀ ≤ k + nCollide →
      freeKey aHash nCollide (Probing.slot HASHTABLE_NSLOT s₀ k)
        = .ok (Probing.slot HASHTABLE_NSLOT s₀ k₀)
  | nCollide, k, hk, hn => by
    unfold freeKey
    rcases Nat.lt_or_eq_of_le hk with hlt | rfl
    · obtain ⟨nCollide, rfl⟩ : ∃ n, nCollide = n + 1 := ⟨nCollide - 1, by omega⟩
      rw [if_neg (hbefore k hlt), walNextHash_slot]
      exact freeKey_eq hfree hbefore nCollide (k + 1) hlt (by omega)
    · rw [if_pos hfree]

theorem zeroBlock_stays (hw : Indexes w log) :
    Stays (Indexes · log) (zeroBlock h (log.length - iZero h + 1)) w fun _ w' =>
      Indexes w' log ∧ (iZero h < log.length → w' = w) ∧
        (iZero h = log.length → (w' h).Ready h log) := by
  unfold zeroBlock
  refine Stays.ite (fun h1 => (store_stays hw).post fun _ w' hw' => ?_) fun h1 =>
    Stays.pure ⟨hw, fun _ => rfl, fun _ => absurd (by omega) h1⟩
  subst hw'
  refine ⟨hw.update fun _ => absurd h1 (by omega), fun _ => absurd h1 (by omega), fun he => ?_⟩
  rw [Function.update_self]
  exact WalHashLoc.Ready.zero he.ge

theorem removeRemnants_stays (hw : Indexes w log)
    (hmx : mxFrame = log.length ∨ Trimmed w log) (hz : iZero h ≤ log.length)
    (hlt : log.length < iZero h + nPage h) (h0 : iZero h = log.length → (w h).Ready h log) :
    Stays (Indexes · log) (removeRemnants mxFrame h (log.length - iZero h + 1)) w fun _ w' =>
      Indexes w' log ∧ (w' h).Ready h log := by
  have hN : filled h log.length = log.length - iZero h := (@filled_next h 0 log hz hlt).1
  unfold removeRemnants
  refine (walHashGet_stays h).bind fun b w₁ ⟨hb, hw₁⟩ => ?_
  subst hb hw₁
  rw [Nat.add_sub_cancel, ← hN]
  refine Stays.ite (fun hne => ?_) fun he => Stays.pure ⟨hw, ?_⟩
  · rcases Nat.lt_or_eq_of_le hz with hz | hz
    · rcases hmx with rfl | ht
      · exact (walCleanupHash_stays hw).post fun _ w' ⟨hw', ht'⟩ =>
          ⟨hw', (hw'.2 h hz).ready (ht' h hz hlt)⟩
      · exact absurd ((ht h hz hlt).pgnos _ le_rfl (by unfold filled; omega)) hne
    · exact absurd ((h0 hz).clean.pgnos _ le_rfl (by unfold filled; omega)) hne
  · rcases Nat.lt_or_eq_of_le hz with hz | hz
    · have hb := hw.2 h hz
      exact hb.ready ((hb.tidy (by omega)).resolve_right he)
    · exact h0 hz

theorem writeEntry_stays (hw : Indexes w log) (hb : (w h).Ready h log)
    (hz : iZero h ≤ log.length) (hlt : log.length < iZero h + nPage h) (hp : pgno ≠ 0) :
    Stays (Indexes · log) (writeEntry h (log.length - iZero h + 1) pgno) w fun _ w' =>
      Indexes w' (log ++ [pgno]) ∧ Trimmed w' (log ++ [pgno]) := by
  obtain ⟨hN, hN'⟩ := @filled_next h pgno log hz hlt
  have hmod : (log.length - iZero h + 1 - 1) % HASHTABLE_NPAGE = log.length - iZero h :=
    Nat.mod_eq_of_lt (by have := nPage_le h; omega)
  have hroom : filled h log.length < HASHTABLE_NSLOT :=
    (show filled h log.length < HASHTABLE_NPAGE by have := nPage_le h; omega).trans (by decide)
  obtain ⟨k, hk, hfree, hbefore⟩ := Probing.exists_first_free
    (Probing.exists_free hb.distinct hb.clean.slots hroom (walHash pgno))
  have hkey := freeKey_eq hfree hbefore (log.length - iZero h + 1) 0 (by omega) (by omega)
  rw [Probing.slot_zero (walHash_lt pgno)] at hkey
  unfold writeEntry
  refine (walHashGet_stays h).bind fun b w₁ ⟨hb', hw₁⟩ => ?_
  subst hb' hw₁
  simp only [hkey, hmod]
  have hset := hw.update fun _ => hb.setPgno hz hlt hp
  refine (store_stays hw).bind fun _ w₂ hw₂ => ?_
  subst hw₂
  refine (store_stays hset).post fun _ w₃ hw₃ => ?_
  subst hw₃
  rw [Function.update_self, Function.update_idem]
  have happ := hb.append hz hlt (by omega) hfree hbefore
  refine ⟨⟨fun p hp' => ?_, fun h' hh => ?_⟩, fun h' hh hlt' => ?_⟩
  · rcases List.mem_append.1 hp' with hp' | hp'
    · exact hw.1 p hp'
    · rw [List.mem_singleton.1 hp']
      exact hp
  · rcases eq_or_ne h' h with rfl | hne
    · rw [Function.update_self]
      exact happ.live
    · rw [List.length_append, List.length_singleton] at hh
      rw [Function.update_of_ne hne]
      rcases Nat.lt_or_gt_of_ne hne with hlt' | hgt
      · have := iZero_mono hlt'
        exact (hw.2 h' (by have := nPage_pos h'; omega)).append (by omega)
      · have := iZero_mono hgt
        omega
  · rw [List.length_append, List.length_singleton] at hh hlt'
    obtain rfl : h' = h := by
      have hpage := (iZero_lt_iff (Nat.succ_pos log.length)).2 ⟨Nat.lt_succ_of_le hz, hlt⟩
      rw [← hpage]
      exact ((iZero_lt_iff (Nat.succ_pos log.length)).2 ⟨hh, hlt'.le⟩).symm
    rw [Function.update_self]
    exact happ.clean

/-- The next frame is indexed; the memories on the way index the frames before it. -/
theorem walIndexAppend_stays (hw : Indexes w log)
    (hmx : mxFrame = log.length ∨ Trimmed w log) (hp : pgno ≠ 0) :
    Stays (Indexes · log) (walIndexAppend mxFrame (log.length + 1) pgno) w fun _ w' =>
      Indexes w' (log ++ [pgno]) ∧ Trimmed w' (log ++ [pgno]) := by
  unfold walIndexAppend
  obtain ⟨hz', hle'⟩ := iZero_walFramePage (Nat.succ_pos log.length)
  generalize walFramePage (log.length + 1) = h at hz' hle' ⊢
  have hz : iZero h ≤ log.length := by omega
  have hlt : log.length < iZero h + nPage h := by omega
  simp only [show log.length + 1 - iZero h = log.length - iZero h + 1 by omega]
  refine (zeroBlock_stays hw).bind fun _ w₁ ⟨hw₁, hsame, h0⟩ => ?_
  refine (removeRemnants_stays hw₁ ?_ hz hlt h0).bind fun _ w₂ ⟨hw₂, hb⟩ => ?_
  · refine hmx.imp_right fun ht h' hh hlt' => ?_
    rcases Nat.lt_or_eq_of_le hz with hz | hz
    · rw [hsame hz]
      exact ht h' hh hlt'
    · rcases Nat.lt_or_ge h' h with hlt' | hge
      · have := iZero_mono hlt'
        omega
      · rcases Nat.lt_or_eq_of_le hge with hlt' | rfl
        · have := iZero_mono hlt'
          omega
        · omega
  · exact writeEntry_stays hw₂ hb hz hlt hp

end Append

end Btreelite
