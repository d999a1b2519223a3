import Btreelite.WalMergesort

/-!
# The iterator of a checkpoint

The iterator has the sorted indices of every block of the wal-index from the one with the first frame that
is not backfilled. Each step looks for the smallest page number above the last one, the later blocks
first, so that of a page in several blocks the last frame is returned.

The arrays of indices of all blocks are one array, and a segment's part of it begins at its `aIndex`.
-/

namespace Btreelite

open IndexMerge Function

/-- The largest 32-bit number, which is no page number. -/
def pgnoEnd : ℕ := 0xffffffff

structure WalSegment where
  iNext : ℕ
  aIndex : ℕ
  aPgno : ℕ → ℕ
  nEntry : ℕ
  iZero : ℕ

structure WalIterator where
  iPrior : ℕ
  nSegment : ℕ
  aSegment : ℕ → WalSegment
  /-- The array behind `aSegment`. -/
  slots : ℕ → ℕ

section Code

variable (w : WalIndex) (mxFrame nBackfill : ℕ)

/-- The loop of `walIteratorInit`; `n` blocks are left. -/
def initSegments : ℕ → ℕ → WalIterator → Except WalFault WalIterator
  | 0, _, p => .ok p
  | n + 1, i, p => do
    let nEntry := if i + 1 = p.nSegment then mxFrame - iZero i else nPage i
    let aIndex := iZero i
    let slots := fun k => if aIndex ≤ k ∧ k < aIndex + nEntry then (k - aIndex) % 65536 else p.slots k
    let (slots, nEntry) ← walMergesort (w i).aPgno aIndex slots nEntry
    let s := ⟨0, aIndex, (w i).aPgno, nEntry, iZero i + 1⟩
    initSegments n (i + 1) { p with aSegment := update p.aSegment i s, slots := slots }

def walIteratorInit : Except WalFault WalIterator := do
  walAssert (0 < mxFrame)
  let nSegment := walFramePage mxFrame + 1
  let i := walFramePage (nBackfill + 1)
  initSegments w mxFrame (nSegment - i) i ⟨0, nSegment, fun _ => ⟨0, 0, fun _ => 0, 0, 0⟩, fun _ => 0⟩

/-- The loop over the entries of a segment, which passes those up to `iMin`. -/
def skipEntries (slots : ℕ → ℕ) (iMin : ℕ) : ℕ → WalSegment → WalSegment
  | 0, s => s
  | n + 1, s =>
    if s.iNext < s.nEntry ∧ s.aPgno (slots (s.aIndex + s.iNext)) ≤ iMin then
      skipEntries slots iMin n { s with iNext := s.iNext + 1 }
    else s

/-- The loop over the segments, from the last one; it ends with `iRet` and `*piFrame`. -/
def scanSegments (iMin : ℕ) : ℕ → WalIterator → ℕ → ℕ → WalIterator × ℕ × ℕ
  | 0, p, iRet, piFrame => (p, iRet, piFrame)
  | i + 1, p, iRet, piFrame =>
    let s := skipEntries p.slots iMin (p.aSegment i).nEntry (p.aSegment i)
    let idx := p.slots (s.aIndex + s.iNext)
    let p := { p with aSegment := update p.aSegment i s }
    if s.iNext < s.nEntry ∧ s.aPgno idx < iRet then scanSegments iMin i p (s.aPgno idx) (s.iZero + idx)
    else scanSegments iMin i p iRet piFrame

/-- The iterator, `*piPage`, `*piFrame`, and whether there are no more pages. -/
def WalIterator.walIteratorNext (p : WalIterator) (piFrame : ℕ) : Except WalFault (WalIterator × ℕ × ℕ × Bool) := do
  walAssert (p.iPrior < pgnoEnd)
  let (p, iRet, piFrame) := scanSegments p.iPrior p.nSegment p pgnoEnd piFrame
  return ({ p with iPrior := iRet }, iRet, piFrame, iRet == pgnoEnd)

/-- What the iterator returns until it has no more pages: the pages with their frames. -/
def walIterate : ℕ → WalIterator → ℕ → Except WalFault (List (ℕ × ℕ))
  | 0, _, _ => .error .endless
  | fuel + 1, p, piFrame => do
    let (p, piPage, piFrame, done) ← p.walIteratorNext piFrame
    if done then return []
    else return (piPage, piFrame) :: (← walIterate fuel p piFrame)

end Code

/-! ## Segments -/

/-- The page of a frame. -/
def pageOf (log : List ℕ) (f : ℕ) : ℕ := log.getD (f - 1) 0

/-- The blocks have the page numbers of the frames. -/
def HasNumbers (w : WalIndex) (log : List ℕ) : Prop :=
  ∀ h, ∀ i < filled h log.length, (w h).aPgno i = log.getD (iZero h + i) 0

theorem Indexes.hasNumbers {w : WalIndex} {log : List ℕ} (h : Indexes w log) : HasNumbers w log := fun i j hj =>
  (h.2 i (by unfold filled at hj; omega)).pgno j hj

/-- The segment of block `i`, which has been read up to the pages `iPrior`. -/
def SegmentHolds (w : WalIndex) (n i : ℕ) (slots : ℕ → ℕ) (iPrior : ℕ) (s : WalSegment) : Prop :=
  s.aPgno = (w i).aPgno ∧ s.iZero = iZero i + 1 ∧ s.aIndex = iZero i
    ∧ ∃ past rest, s.iNext = past.length ∧ s.nEntry = (past ++ rest).length
      ∧ HoldsAt slots (iZero i) (past ++ rest) ∧ Lasts (w i).aPgno 0 (filled i n) (past ++ rest)
      ∧ ∀ j ∈ past, (w i).aPgno j ≤ iPrior

/-- The iterator over the blocks from `first` on, which has returned the pages up to `iPrior`. -/
structure Iterates (w : WalIndex) (n first iPrior : ℕ) (p : WalIterator) : Prop where
  nSegment : p.nSegment = walFramePage n + 1
  holds : ∀ i, first ≤ i → i < p.nSegment → SegmentHolds w n i p.slots iPrior (p.aSegment i)
  empty : ∀ i < first, (p.aSegment i).nEntry = 0

section Init

variable {w : WalIndex} {n i : ℕ}

theorem filled_last (hn : 0 < n) : filled (walFramePage n) n = n - iZero (walFramePage n) := by
  have := iZero_walFramePage hn
  unfold filled
  omega

theorem iZero_lt_of_segment (hn : 0 < n) (hi : i ≤ walFramePage n) : iZero i < n := by
  have h1 := iZero_walFramePage hn
  rcases Nat.lt_or_eq_of_le hi with hlt | rfl
  · have := iZero_mono hlt
    omega
  · exact h1.1

theorem filled_inner (hn : 0 < n) (hi : i < walFramePage n) : filled i n = nPage i := by
  have h1 := iZero_walFramePage hn
  have h2 := iZero_mono hi
  unfold filled
  omega

theorem SegmentHolds.congr {slots slots' : ℕ → ℕ} {iPrior : ℕ} {s : WalSegment}
    (h : SegmentHolds w n i slots iPrior s)
    (hs : ∀ k, iZero i ≤ k → k < iZero i + filled i n → slots' k = slots k) : SegmentHolds w n i slots' iPrior s := by
  obtain ⟨h1, h2, h3, past, rest, h4, h5, h6, h7, h8⟩ := h
  have := h7.length_le
  exact ⟨h1, h2, h3, past, rest, h4, h5, h6.congr fun k hk hlt => hs k hk (by omega), h7, h8⟩

theorem initSegments_does (hn : 0 < n) {first : ℕ} : ∀ {m i : ℕ} {p : WalIterator}, i + m = walFramePage n + 1 →
    first ≤ i → p.nSegment = walFramePage n + 1 →
    (∀ j, first ≤ j → j < i → SegmentHolds w n j p.slots 0 (p.aSegment j)) →
    (∀ j < first, (p.aSegment j).nEntry = 0) →
    ∃ p', initSegments w n m i p = .ok p' ∧ Iterates w n first 0 p' ∧ p'.iPrior = p.iPrior
  | 0, i, p, hm, _, hseg, hh, he => ⟨p, rfl, ⟨hseg, fun j h1 h2 => hh j h1 (by omega), he⟩, rfl⟩
  | m + 1, i, p, hm, hi, hseg, hh, he => by
    have hEntry : (if i + 1 = p.nSegment then n - iZero i else nPage i) = filled i n := by
      rw [hseg]
      by_cases hl : i = walFramePage n
      · rw [if_pos (by omega), hl, filled_last hn]
      · rw [if_neg (by omega), filled_inner hn (by omega)]
    have hlt := iZero_lt_of_segment hn (show i ≤ walFramePage n by omega)
    have hp := nPage_pos i
    have hp' := nPage_le i
    have h0 : 0 < filled i n := by
      unfold filled
      omega
    have hN : filled i n ≤ HASHTABLE_NPAGE := (Nat.min_le_left _ _).trans hp'
    have hnpage : HASHTABLE_NPAGE = 4096 := rfl
    obtain ⟨slots, hslots⟩ : ∃ slots, slots = fun k =>
        if iZero i ≤ k ∧ k < iZero i + filled i n then (k - iZero i) % 65536 else p.slots k := ⟨_, rfl⟩
    have hid : ∀ j < filled i n, slots (iZero i + j) = j := fun j hj => by
      simp only [hslots]
      rw [if_pos (by omega), Nat.add_sub_cancel_left, Nat.mod_eq_of_lt (by omega)]
    obtain ⟨mem, l, hrun, hat, hlast, hout⟩ := walMergesort_does (w i).aPgno h0 hN hid
    have hold : ∀ k < iZero i, mem k = p.slots k := fun k hk => by
      rw [hout k (Or.inl hk), hslots]
      exact if_neg (by omega)
    unfold initSegments
    simp only [hEntry, ← hslots, Bind.bind, Except.bind, hrun]
    refine initSegments_does hn (by omega) (by omega) hseg (fun j h1 h2 => ?_) fun j hj => ?_
    · by_cases hji : j = i
      · rw [hji]
        simp only [update_self]
        exact ⟨rfl, rfl, rfl, [], l, rfl, rfl, hat, hlast, fun j hj => absurd hj List.not_mem_nil⟩
      · simp only [update_of_ne hji]
        have hmono := iZero_mono (show j < i by omega)
        refine (hh j h1 (by omega)).congr fun k _ hk => hold k ?_
        have : filled j n ≤ nPage j := Nat.min_le_left _ _
        omega
    · simp only [update_of_ne (show j ≠ i by omega)]
      exact he j hj

theorem walIteratorInit_does (hn : 0 < n) (nBackfill : ℕ) :
    ∃ p, walIteratorInit w n nBackfill = .ok p ∧ Iterates w n (walFramePage (nBackfill + 1)) 0 p
      ∧ p.iPrior = 0 := by
  unfold walIteratorInit
  rw [walAssert_ok hn]
  rcases Nat.lt_or_ge (walFramePage n + 1) (walFramePage (nBackfill + 1)) with hlt | hge
  · -- nothing is left to be copied
    have hm : walFramePage n + 1 - walFramePage (nBackfill + 1) = 0 := by omega
    refine ⟨_, by simp only [Bind.bind, Except.bind, hm]; rfl, ⟨rfl, fun i h1 h2 => ?_, fun i _ => rfl⟩, rfl⟩
    simp only at h2
    omega
  · exact initSegments_does hn (by omega) le_rfl rfl (fun j h1 h2 => by omega) fun j _ => rfl

end Init

/-! ## One step -/

section Next

variable {w : WalIndex} {log : List ℕ} {n i iMin lo iRet piFrame : ℕ} {slots : ℕ → ℕ} {s : WalSegment}

theorem skipEntries_does {a : ℕ} : ∀ (m : ℕ) (past rest : List ℕ) (s : WalSegment),
    s.aIndex = a → s.iNext = past.length → s.nEntry = (past ++ rest).length → rest.length ≤ m →
    HoldsAt slots a (past ++ rest) → (∀ j ∈ past, s.aPgno j ≤ iMin) →
    ∃ past' rest', past' ++ rest' = past ++ rest ∧ skipEntries slots iMin m s = { s with iNext := past'.length }
      ∧ (∀ j ∈ past', s.aPgno j ≤ iMin) ∧ ∀ x ∈ rest'.head?, iMin < s.aPgno x
  | 0, past, rest, s, _, hi, _, hm, _, hp => by
    obtain rfl := List.eq_nil_of_length_eq_zero (Nat.le_zero.1 hm)
    exact ⟨past, [], rfl, by rw [skipEntries, ← hi], hp, by simp⟩
  | m + 1, past, [], s, _, hi, hn, _, _, hp => by
    refine ⟨past, [], rfl, ?_, hp, by simp⟩
    rw [skipEntries, if_neg (by rw [hi, hn, List.append_nil]; simp), ← hi]
  | m + 1, past, x :: rest, s, ha, hi, hn, hm, hh, hp => by
    have hx : slots (s.aIndex + s.iNext) = x := by
      rw [ha, hi, hh.getElem past.length (by simp)]
      simp
    have hlt : s.iNext < s.nEntry := by
      rw [hi, hn]
      simp
    have happ : past ++ [x] ++ rest = past ++ x :: rest := by simp
    rw [skipEntries, hx]
    by_cases hle : s.aPgno x ≤ iMin
    · rw [if_pos ⟨hlt, hle⟩]
      obtain ⟨past', rest', h1, h2, h3, h4⟩ := skipEntries_does m (past ++ [x]) rest
        { s with iNext := s.iNext + 1 } ha (by simp [hi]) (by rwa [happ]) (by simpa using hm)
        (by rwa [happ]) (fun j hj => by
          rcases List.mem_append.1 hj with hj | hj
          · exact hp j hj
          · rw [List.mem_singleton.1 hj]
            exact hle)
      exact ⟨past', rest', h1.trans happ, h2, h3, h4⟩
    · rw [if_neg fun h => hle h.2]
      exact ⟨past, x :: rest, rfl, by rw [← hi], hp, by simpa using Nat.lt_of_not_le hle⟩

/-- What the loop over the entries leaves: the next entry is the first one above `iMin`. -/
theorem SegmentHolds.skip (h : SegmentHolds w n i slots iMin s) :
    ∃ s', skipEntries slots iMin s.nEntry s = s' ∧ SegmentHolds w n i slots iMin s'
      ∧ s'.aPgno = (w i).aPgno ∧ s'.iZero = iZero i + 1
      ∧ ((¬ s'.iNext < s'.nEntry ∧ ∀ j < filled i n, (w i).aPgno j ≤ iMin)
        ∨ s'.iNext < s'.nEntry ∧ ∃ x, slots (s'.aIndex + s'.iNext) = x ∧ x < filled i n ∧ iMin < (w i).aPgno x
          ∧ (∀ j < filled i n, iMin < (w i).aPgno j → (w i).aPgno x ≤ (w i).aPgno j)
          ∧ ∀ k, x < k → k < filled i n → (w i).aPgno k ≠ (w i).aPgno x) := by
  obtain ⟨h1, h2, h3, past, rest, h4, h5, h6, h7, h8⟩ := h
  obtain ⟨past', rest', happ, hrun, hp, hhead⟩ := skipEntries_does s.nEntry past rest s h3 h4
    h5 (by rw [h5, List.length_append]; omega) h6 (h1 ▸ h8)
  rw [h1] at hp hhead
  rw [← happ] at h5 h6 h7
  refine ⟨_, hrun, ⟨h1, h2, h3, past', rest', rfl, h5, h6, h7, hp⟩, h1, h2, ?_⟩
  cases rest' with
  | nil =>
    refine Or.inl ⟨by simp [h5], fun j hj => ?_⟩
    obtain ⟨k, hk, -, he⟩ := h7.exists_key (Nat.zero_le j) hj
    rw [List.append_nil] at hk
    rw [← he]
    exact hp k hk
  | cons x rest' =>
    have hx : slots (iZero i + past'.length) = x := by
      rw [h6.getElem past'.length (by simp)]
      simp
    have hmem := (h7.mem_iff x).1 (by simp)
    have hlt := hhead x rfl
    refine Or.inr ⟨by simp [h5], x, by simp only [h3, hx], hmem.2.1, hlt, fun j hj hjlt => ?_, hmem.2.2⟩
    obtain ⟨k, hk, -, he⟩ := h7.exists_key (Nat.zero_le j) hj
    rw [← he] at hjlt ⊢
    rcases List.mem_append.1 hk with hk | hk
    · exact absurd (hp k hk) (Nat.not_le.2 hjlt)
    · rcases List.mem_cons.1 hk with rfl | hk
      · exact le_rfl
      · have hasc := (List.pairwise_append.1 h7.ascending).2.1
        exact ((List.pairwise_cons.1 hasc).1 k hk).le

/-- `iRet` is the smallest page number above `iMin` of the frames behind `lo`, or the end when there is none;
`piFrame` is the last frame with it. -/
structure Best (log : List ℕ) (iMin lo iRet piFrame : ℕ) : Prop where
  le : iRet ≤ pgnoEnd
  smallest : ∀ f, lo < f → f ≤ log.length → iMin < pageOf log f → iRet ≤ pageOf log f
  frame : iRet < pgnoEnd → iMin < iRet ∧ lo < piFrame ∧ piFrame ≤ log.length ∧ pageOf log piFrame = iRet
    ∧ ∀ f, piFrame < f → f ≤ log.length → pageOf log f ≠ iRet

theorem Best.top : Best log iMin log.length pgnoEnd piFrame :=
  ⟨le_rfl, fun f h1 h2 => by omega, fun h => absurd h (lt_irrefl _)⟩

/-- The frames that the segments from `i` on stand for are those behind this one. -/
def behind (first n i : ℕ) : ℕ := min (iZero (max i first)) n

theorem behind_succ (h : first ≤ i) : behind first n (i + 1) = min (iZero i + nPage i) n := by
  rw [behind, Nat.max_eq_left (by omega), iZero_succ]

theorem pageOf_segment (hw : HasNumbers w log) {j : ℕ} (hj : j < filled i log.length) :
    pageOf log (iZero i + 1 + j) = (w i).aPgno j := by
  have hsub : iZero i + 1 + j - 1 = iZero i + j := by omega
  rw [hw i j hj, pageOf, hsub]

/-- A frame behind `iZero i` is in the block `i`, or behind the block. -/
theorem frame_cases {f : ℕ} (h1 : iZero i < f) (h2 : f ≤ n) :
    (∃ j < filled i n, f = iZero i + 1 + j) ∨ min (iZero i + nPage i) n < f := by
  by_cases hf : f ≤ iZero i + nPage i
  · refine Or.inl ⟨f - iZero i - 1, ?_, by omega⟩
    unfold filled
    omega
  · exact Or.inr (by omega)

/-- The segment has no smaller page number. -/
theorem Best.pass (hw : HasNumbers w log) (hb : Best log iMin (min (iZero i + nPage i) log.length) iRet piFrame)
    (hall : ∀ j < filled i log.length, iMin < (w i).aPgno j → iRet ≤ (w i).aPgno j) :
    Best log iMin (min (iZero i) log.length) iRet piFrame := by
  refine ⟨hb.le, fun f h1 h2 h3 => ?_, fun h => ?_⟩
  · rcases frame_cases (i := i) (by omega) h2 with ⟨j, hj, rfl⟩ | hf
    · rw [pageOf_segment hw hj] at h3 ⊢
      exact hall j hj h3
    · exact hb.smallest f hf h2 h3
  · obtain ⟨h1, h2, h3⟩ := hb.frame h
    exact ⟨h1, by omega, h3⟩

/-- The segment has a smaller page number. -/
theorem Best.take (hw : HasNumbers w log) (hb : Best log iMin (min (iZero i + nPage i) log.length) iRet piFrame)
    {x : ℕ} (hx : x < filled i log.length) (hxm : iMin < (w i).aPgno x) (hret : (w i).aPgno x < iRet)
    (hmin : ∀ j < filled i log.length, iMin < (w i).aPgno j → (w i).aPgno x ≤ (w i).aPgno j)
    (hlast : ∀ k, x < k → k < filled i log.length → (w i).aPgno k ≠ (w i).aPgno x) :
    Best log iMin (min (iZero i) log.length) ((w i).aPgno x) (iZero i + 1 + x) := by
  have hin : iZero i + 1 + x ≤ log.length := by
    unfold filled at hx
    omega
  refine ⟨hret.le.trans hb.le, fun f h1 h2 h3 => ?_, fun _ =>
    ⟨hxm, by omega, hin, pageOf_segment hw hx, fun f h1 h2 he => ?_⟩⟩
  · rcases frame_cases (i := i) (by omega) h2 with ⟨j, hj, rfl⟩ | hf
    · rw [pageOf_segment hw hj] at h3 ⊢
      exact hmin j hj h3
    · exact hret.le.trans (hb.smallest f hf h2 h3)
  · rcases frame_cases (i := i) (by omega) h2 with ⟨j, hj, rfl⟩ | hf
    · rw [pageOf_segment hw hj] at he
      exact hlast j (by omega) hj he
    · have := hb.smallest f hf h2 (he ▸ hxm)
      omega

theorem scanSegments_does (hw : HasNumbers w log) {first : ℕ} : ∀ {i : ℕ} {p : WalIterator} {iRet piFrame : ℕ},
    i ≤ p.nSegment → Iterates w log.length first iMin p → Best log iMin (behind first log.length i) iRet piFrame →
    ∃ p' iRet' piFrame', scanSegments iMin i p iRet piFrame = (p', iRet', piFrame')
      ∧ Iterates w log.length first iMin p' ∧ Best log iMin (behind first log.length 0) iRet' piFrame'
  | 0, p, iRet, piFrame, _, hp, hb => ⟨p, iRet, piFrame, rfl, hp, hb⟩
  | i + 1, p, iRet, piFrame, hi, hp, hb => by
    unfold scanSegments
    by_cases hfirst : i < first
    · -- the segments before the first one are empty
      have h0 := hp.empty i hfirst
      have hbeh : behind first log.length (i + 1) = behind first log.length i := by
        rw [behind, behind, Nat.max_eq_right hfirst, Nat.max_eq_right (by omega)]
      rw [h0, skipEntries]
      simp only [h0, Nat.not_lt_zero, false_and, if_false, update_eq_self]
      exact scanSegments_does hw (Nat.le_of_succ_le hi) hp (hbeh ▸ hb)
    · have hge := Nat.le_of_not_lt hfirst
      obtain ⟨s, hrun, hs, hpg, hz, hcase⟩ := (hp.holds i hge (by omega)).skip
      have hp' : Iterates w log.length first iMin { p with aSegment := update p.aSegment i s } := by
        refine ⟨hp.nSegment, fun j h1 h2 => ?_, fun j hj => ?_⟩
        · by_cases hji : j = i
          · rw [hji]
            simpa only [update_self] using hs
          · simpa only [update_of_ne hji] using hp.holds j h1 h2
        · simpa only [update_of_ne (show j ≠ i by omega)] using hp.empty j hj
      have hbeh : behind first log.length i = min (iZero i) log.length := by
        rw [behind, Nat.max_eq_left hge]
      rw [behind_succ hge] at hb
      rw [hrun]
      simp only
      rcases hcase with ⟨hno, hall⟩ | ⟨hlt, x, hx, hxn, hxm, hmin, hlast⟩
      · rw [if_neg fun h => hno h.1]
        exact scanSegments_does hw (Nat.le_of_succ_le hi) hp' (hbeh ▸ hb.pass hw fun j hj hlt =>
          absurd (hall j hj) (Nat.not_le.2 hlt))
      · rw [hx, hpg, hz]
        by_cases hret : (w i).aPgno x < iRet
        · rw [if_pos ⟨hlt, hret⟩]
          exact scanSegments_does hw (Nat.le_of_succ_le hi) hp' (hbeh ▸ hb.take hw hxn hxm hret hmin hlast)
        · rw [if_neg fun h => hret h.2]
          exact scanSegments_does hw (Nat.le_of_succ_le hi) hp' (hbeh ▸ hb.pass hw fun j hj hlt =>
            (Nat.le_of_not_lt hret).trans (hmin j hj hlt))

theorem SegmentHolds.mono {iPrior : ℕ} (h : SegmentHolds w n i slots iMin s) (hle : iMin ≤ iPrior) :
    SegmentHolds w n i slots iPrior s := by
  obtain ⟨h1, h2, h3, past, rest, h4, h5, h6, h7, h8⟩ := h
  exact ⟨h1, h2, h3, past, rest, h4, h5, h6, h7, fun j hj => (h8 j hj).trans hle⟩

/-- One step returns the smallest page number above the last one, with its last frame. -/
theorem WalIterator.walIteratorNext_does (hw : HasNumbers w log) (hlog : 0 < log.length) {first : ℕ} {p : WalIterator}
    (hp : Iterates w log.length first p.iPrior p) (hlt : p.iPrior < pgnoEnd) (piFrame : ℕ) :
    ∃ p' piFrame', p.walIteratorNext piFrame = .ok (p', p'.iPrior, piFrame', p'.iPrior == pgnoEnd)
      ∧ Iterates w log.length first p'.iPrior p'
      ∧ Best log p.iPrior (behind first log.length 0) p'.iPrior piFrame' := by
  have htop : behind first log.length p.nSegment = log.length := by
    have h1 := (iZero_walFramePage hlog).2
    have h2 : iZero (walFramePage log.length + 1) ≤ iZero (max p.nSegment first) := by
      rw [hp.nSegment]
      rcases Nat.lt_or_eq_of_le (Nat.le_max_left (walFramePage log.length + 1) first) with h | h
      · exact (Nat.le_add_right _ _).trans (iZero_mono h)
      · rw [← h]
    rw [iZero_succ] at h2
    unfold behind
    omega
  have hbest : Best log p.iPrior (behind first log.length p.nSegment) pgnoEnd piFrame := by
    rw [htop]
    exact Best.top
  obtain ⟨p1, iRet, piFrame', hrun, h1, h2⟩ := scanSegments_does hw le_rfl hp hbest
  refine ⟨{ p1 with iPrior := iRet }, piFrame', ?_, ⟨h1.nSegment, fun i hi hs => ?_, h1.empty⟩, h2⟩
  · unfold WalIterator.walIteratorNext
    rw [walAssert_ok hlt]
    simp only [Bind.bind, Except.bind, hrun]
    rfl
  · refine (h1.holds i hi hs).mono ?_
    rcases Nat.lt_or_ge iRet pgnoEnd with h | h
    · exact (h2.frame h).1.le
    · exact hlt.le.trans h

end Next

/-! ## All steps -/

section Iterate

variable {w : WalIndex} {log : List ℕ} {iPrior lo : ℕ} {out : List (ℕ × ℕ)}

/-- The frame is the last one of the log with its page. -/
def LastFrame (log : List ℕ) (pgno frame : ℕ) : Prop := IsGreatest (framesOf log 1 log.length pgno) frame

/-- The pages above `iPrior` of the frames behind `lo`, in ascending order, each with its last frame. -/
structure Yields (log : List ℕ) (lo iPrior : ℕ) (out : List (ℕ × ℕ)) : Prop where
  ascending : out.Pairwise fun x y => x.1 < y.1
  last : ∀ x ∈ out, iPrior < x.1 ∧ x.1 < pgnoEnd ∧ LastFrame log x.1 x.2
  all : ∀ f, lo < f → f ≤ log.length → iPrior < pageOf log f → pageOf log f < pgnoEnd →
    ∃ x ∈ out, x.1 = pageOf log f

theorem lastFrame_of_page {f : ℕ} (h1 : 0 < f) (h2 : f ≤ log.length)
    (hlast : ∀ k, f < k → k ≤ log.length → pageOf log k ≠ pageOf log f) : LastFrame log (pageOf log f) f := by
  have hget : ∀ k, 0 < k → k ≤ log.length → log[k - 1]? = some (pageOf log k) := fun k h1 h2 => by
    have hk : k - 1 < log.length := by omega
    rw [pageOf, List.getD_eq_getElem _ _ hk, List.getElem?_eq_getElem hk]
  refine ⟨⟨h1, h1, h2, hget f h1 h2⟩, fun k hk => ?_⟩
  obtain ⟨h3, -, h4, h5⟩ := hk
  rw [hget k h3 h4] at h5
  exact Nat.le_of_not_lt fun hlt => hlast k hlt h4 (Option.some.inj h5)

/-- The frames that are still to be returned. -/
def remaining (log : List ℕ) (lo iPrior : ℕ) : Finset ℕ :=
  (Finset.Ioc lo log.length).filter fun f => iPrior < pageOf log f ∧ pageOf log f < pgnoEnd

theorem walIterate_does (hw : HasNumbers w log) (hlog : 0 < log.length) {first : ℕ} : ∀ (fuel : ℕ)
    {p : WalIterator}, Iterates w log.length first p.iPrior p → p.iPrior < pgnoEnd →
    (remaining log (behind first log.length 0) p.iPrior).card < fuel → ∀ piFrame,
    ∃ out, walIterate fuel p piFrame = .ok out ∧ Yields log (behind first log.length 0) p.iPrior out
  | 0, _, _, _, hf, _ => absurd hf (Nat.not_lt_zero _)
  | fuel + 1, p, hp, hlt, hf, piFrame => by
    obtain ⟨p', f, hrun, hp', hb⟩ := WalIterator.walIteratorNext_does hw hlog hp hlt piFrame
    unfold walIterate
    simp only [hrun, Bind.bind, Except.bind]
    by_cases hend : p'.iPrior = pgnoEnd
    · rw [if_pos (beq_iff_eq.2 hend)]
      refine ⟨[], rfl, List.Pairwise.nil, fun x hx => absurd hx List.not_mem_nil, fun k h1 h2 h3 h4 => ?_⟩
      have := hb.smallest k h1 h2 h3
      omega
    · rw [if_neg (by simpa using hend)]
      have hlt' : p'.iPrior < pgnoEnd := Nat.lt_of_le_of_ne hb.le hend
      obtain ⟨h1, h2, h3, h4, h5⟩ := hb.frame hlt'
      have hcard : (remaining log (behind first log.length 0) p'.iPrior).card
          < (remaining log (behind first log.length 0) p.iPrior).card := by
        refine Finset.card_lt_card (Finset.ssubset_iff_of_subset (fun k hk => ?_) |>.2 ⟨f, ?_, ?_⟩)
        · rw [remaining, Finset.mem_filter] at hk ⊢
          exact ⟨hk.1, h1.trans hk.2.1, hk.2.2⟩
        · rw [remaining, Finset.mem_filter, Finset.mem_Ioc, h4]
          exact ⟨⟨h2, h3⟩, h1, hlt'⟩
        · rw [remaining, Finset.mem_filter, h4]
          exact fun h => absurd h.2.1 (lt_irrefl _)
      obtain ⟨out, hrun2, hy⟩ := walIterate_does hw hlog fuel hp' hlt' (by omega) f
      rw [hrun2]
      refine ⟨(p'.iPrior, f) :: out, rfl, List.pairwise_cons.2 ⟨fun x hx => (hy.last x hx).1, hy.ascending⟩,
        List.forall_mem_cons.2 ⟨⟨h1, hlt', ?_⟩, fun x hx => ?_⟩, fun k h6 h7 h8 h9 => ?_⟩
      · rw [← h4]
        exact lastFrame_of_page (by omega) h3 fun k hk hkn => h4 ▸ h5 k hk hkn
      · obtain ⟨h6, h7⟩ := hy.last x hx
        exact ⟨h1.trans h6, h7⟩
      · rcases Nat.lt_or_eq_of_le (hb.smallest k h6 h7 h8) with hgt | he
        · obtain ⟨x, hx, hxe⟩ := hy.all k h6 h7 hgt h9
          exact ⟨x, List.mem_cons_of_mem _ hx, hxe⟩
        · exact ⟨_, List.mem_cons_self, he⟩

end Iterate

/-- For every log, of any number of frames and blocks, and every number of backfilled frames: no assertion
fails, and the iterator returns pages in strictly ascending order, each with the last frame it has in the
log. A page with a frame that is not backfilled is among them, unless its number is that of the end. -/
theorem walIterator_yields {w : WalIndex} {log : List ℕ} (hw : HasNumbers w log) (hlog : log ≠ [])
    (nBackfill piFrame : ℕ) {fuel : ℕ} (hf : log.length < fuel) :
    ∃ p out, walIteratorInit w log.length nBackfill = .ok p ∧ walIterate fuel p piFrame = .ok out
      ∧ out.Pairwise (fun x y => x.1 < y.1)
      ∧ (∀ x ∈ out, LastFrame log x.1 x.2)
      ∧ ∀ f pgno, nBackfill < f → f ≤ log.length → log[f - 1]? = some pgno → 0 < pgno → pgno < pgnoEnd →
        ∃ x ∈ out, x.1 = pgno := by
  have hpos : 0 < log.length := List.length_pos_iff.2 hlog
  obtain ⟨p, hrun, hp, hprior⟩ := walIteratorInit_does (w := w) hpos nBackfill
  have hcard : (remaining log (behind (walFramePage (nBackfill + 1)) log.length 0) p.iPrior).card < fuel := by
    refine (Finset.card_filter_le _ _).trans_lt ?_
    rw [Nat.card_Ioc]
    omega
  obtain ⟨out, hrun2, hy⟩ := walIterate_does hw hpos fuel (hprior.symm ▸ hp) (by rw [hprior]; decide) hcard piFrame
  refine ⟨p, out, hrun, hrun2, hy.ascending, fun x hx => (hy.last x hx).2.2, fun f pgno h1 h2 h3 h4 h5 => ?_⟩
  have hpage : pageOf log f = pgno := by
    rw [pageOf, List.getD_eq_getElem?_getD, h3, Option.getD_some]
  have hlo : iZero (walFramePage (nBackfill + 1)) < nBackfill + 1 :=
    (iZero_walFramePage (Nat.succ_pos nBackfill)).1
  rw [← hpage] at h4 h5 ⊢
  refine hy.all f ?_ h2 (hprior ▸ h4) h5
  unfold behind
  rw [Nat.zero_max]
  omega

/-- The wal-index of a log, as far as the page numbers go. -/
def numbersOf (log : List ℕ) : WalIndex := fun h => ⟨fun _ => 0, fun i => log.getD (iZero h + i) 0⟩

theorem numbersOf_hasNumbers (log : List ℕ) : HasNumbers (numbersOf log) log := fun _ _ _ => rfl

theorem walIterator_yields_four : ∃ p out,
    walIteratorInit (numbersOf [7, 3, 7, 5]) 4 1 = .ok p ∧ walIterate 5 p 0 = .ok out
      ∧ out.Pairwise (fun x y => x.1 < y.1)
      ∧ (∀ x ∈ out, LastFrame [7, 3, 7, 5] x.1 x.2)
      ∧ ∀ f pgno, 1 < f → f ≤ 4 → [7, 3, 7, 5][f - 1]? = some pgno → 0 < pgno → pgno < pgnoEnd →
        ∃ x ∈ out, x.1 = pgno :=
  walIterator_yields (numbersOf_hasNumbers [7, 3, 7, 5]) (by simp) 1 0 (by simp)

example : (walIteratorInit (numbersOf [7, 3, 7, 5]) 4 1 >>= fun p => walIterate 5 p 0)
    = .ok [(3, 2), (5, 4), (7, 3)] := by
  decide +kernel

/-- The page with the largest number is taken for the end. -/
theorem walIterator_skips_end : ∃ p, walIteratorInit (numbersOf [pgnoEnd]) 1 0 = .ok p
    ∧ walIterate 2 p 0 = .ok [] ∧ [pgnoEnd][0]? = some pgnoEnd :=
  ⟨_, rfl, rfl, rfl⟩

end Btreelite
