import Btreelite.PageEdits
import Btreelite.VarintCodec

/-!
# Page edits on any page

The page functions on a page whose bytes are arbitrary. Each either ends with `SQLITE_CORRUPT` or stays
inside of the page and comes to its end, as long as the block it is about has four bytes or more. A size
that has been cut to sixteen bits can be smaller.
-/

namespace Btreelite

namespace RawPage

open Prog ByteBuffer

/-- `p'` is `p` but for its bytes. -/
def Edited (p p' : RawPage) : Prop := p' = { p with aData := p'.aData }

/-- The end with `SQLITE_CORRUPT`. -/
def Corrupts (p : RawPage) (e : PageErr) (p' : RawPage) : Prop := e = .corrupt ∧ Edited p p'

section Basic

variable {g : Geometry} {p p' q : RawPage} {d : Nat → UInt8}

theorem Edited.refl : Edited p p := rfl

theorem edited : Edited p { p with aData := d } := rfl

theorem Edited.trans (h : Edited p p') (h' : Edited p' q) : Edited p q := by
  unfold Edited at h h' ⊢
  rw [h', h]

theorem Edited.iCellFirst (h : Edited p p') : p'.iCellFirst = p.iCellFirst := by
  rw [h]
  rfl

theorem Edited.hdrOffset (h : Edited p p') : p'.hdrOffset = p.hdrOffset := by rw [h]

theorem Edited.nFree (h : Edited p p') : p'.nFree = p.nFree := by rw [h]

theorem wp_corrupt {α : Type} {Q : α → RawPage → Prop} : wp (throw PageErr.corrupt : PageM α) Q (Corrupts p) p :=
  ⟨rfl, rfl⟩

theorem Edited.corrupts {e : PageErr} (h : Edited p p') (h' : Corrupts p' e q) : Corrupts p e q :=
  ⟨h'.1, h.trans h'.2⟩

end Basic

/-! ## Free blocks -/

section Blocks

variable {g : Geometry} {p : RawPage}

theorem sumFreeBlocks_inside : ∀ {fuel nFree pc : Nat}, 1 ≤ fuel → g.usableSize + 1 ≤ fuel + pc →
    wp (sumFreeBlocks g nFree fuel pc) (fun _ p' => p' = p) (Corrupts p) p
  | 0, _, _, h, _ => by omega
  | fuel + 1, nFree, pc, _, h => by
    have hu := g.usable_ge
    rw [sumFreeBlocks]
    split_ifs with hpc
    · exact wp_corrupt
    · rw [wp_bind, wp_get2byte (by omega), wp_bind, wp_get2byte (by omega)]
      split_ifs with h4 hnext
      · exact wp_corrupt
      · exact wp_corrupt
      · exact wp_corrupt
      · exact rfl
      · exact sumFreeBlocks_inside (by omega) (by omega)

theorem btreeComputeFreeSpace_inside (hs : p.iCellFirst ≤ g.usableSize) :
    wp (btreeComputeFreeSpace g) (fun _ p' => ∃ n : Nat, p' = { p with nFree := n }) (Corrupts p) p := by
  have hh := hdr_le_first p
  rw [btreeComputeFreeSpace, wp_bind, wp_get]
  dsimp only
  rw [wp_bind, wp_get2byteNotZero (by omega), wp_bind, wp_get2byte (by omega), wp_bind, wp_pageByte (by omega)]
  have hend : ∀ n : Nat, wp (if g.usableSize < n ∨ n < p.iCellFirst then throw PageErr.corrupt
      else modify fun p => { p with nFree := u16 (n - p.iCellFirst) } : PageM Unit)
      (fun _ p' => ∃ n : Nat, p' = { p with nFree := n }) (Corrupts p) p := by
    intro n
    split_ifs
    · exact wp_corrupt
    · exact ⟨_, rfl⟩
  generalize (if get2 p.aData (p.hdrOffset + 5) = 0 then 65536 else get2 p.aData (p.hdrOffset + 5)) = top
  by_cases h1 : 0 < get2 p.aData (p.hdrOffset + 1)
  · rw [if_pos h1]
    split_ifs
    · exact wp_corrupt
    · rw [wp_bind]
      refine (sumFreeBlocks_inside (by omega) (by omega)).post ?_
      rintro n _ rfl
      exact hend n
  · rw [if_neg h1]
    exact hend _

/-- A slot that is found has the bytes asked for. -/
theorem findSlot_inside {hdr nByte : Nat} (h4 : 4 ≤ nByte) (hh : hdr + 8 ≤ g.usableSize) :
    ∀ {fuel iAddr pc : Nat}, 1 ≤ fuel → g.usableSize + 1 ≤ fuel + pc → iAddr + 2 ≤ g.usableSize →
    wp (findSlot g hdr nByte fuel iAddr pc) (fun r p' => Edited p p' ∧ (r = none → p' = p) ∧
      ∀ idx, r = some idx → idx + nByte ≤ g.usableSize) (Corrupts p) p
  | 0, _, _, h, _, _ => by omega
  | fuel + 1, iAddr, pc, _, h, hi => by
    have hu := g.usable_ge
    rw [findSlot]
    by_cases hpc : pc + nByte ≤ g.usableSize
    · rw [if_pos hpc, wp_bind, wp_get2byte (by omega)]
      by_cases hsize : nByte ≤ get2 p.aData (pc + 2)
      · rw [if_pos hsize]
        dsimp only
        split_ifs with hx hend
        · rw [wp_bind, wp_pageByte (by omega)]
          split_ifs
          · exact ⟨.refl, fun _ => rfl, fun _ h => by cases h⟩
          · rw [wp_bind, wp_memmove hi (by omega), wp_bind, wp_putBytes (by simp; omega), wp_pure]
            refine ⟨rfl, fun h => absurd h (Option.some_ne_none _), fun idx h => ?_⟩
            obtain rfl := Option.some.inj h
            exact hpc
        · exact wp_corrupt
        · rw [wp_bind, wp_put2byte (by omega), wp_pure]
          refine ⟨rfl, fun h => absurd h (Option.some_ne_none _), fun idx h => ?_⟩
          obtain rfl := Option.some.inj h
          omega
      · rw [if_neg hsize, wp_bind, wp_get2byte (by omega)]
        split_ifs with hnext hzero
        · exact wp_corrupt
        · exact ⟨.refl, fun _ => rfl, fun _ h => by cases h⟩
        · exact findSlot_inside h4 hh (by omega) (by omega) (by omega)
    · rw [if_neg hpc]
      split_ifs
      · exact wp_corrupt
      · exact ⟨.refl, fun _ => rfl, fun _ h => by cases h⟩

/-- The place in the list of free blocks for a block of the page. -/
theorem findFreeBlk_inside {hdr iStart : Nat} (hs : iStart + 4 ≤ g.usableSize) (hh : hdr + 8 ≤ g.usableSize) :
    ∀ {fuel iPtr : Nat}, 1 ≤ fuel → iStart ≤ fuel + iPtr → iPtr = hdr + 1 ∨ iPtr < iStart →
    wp (findFreeBlk g iStart fuel iPtr) (fun r p' => p' = p ∧ (r.1 = hdr + 1 ∨ r.1 < iStart)) (Corrupts p) p
  | 0, _, h, _, _ => by omega
  | fuel + 1, iPtr, _, h, hi => by
    rw [findFreeBlk, wp_bind, wp_get2byte (by omega)]
    split_ifs with h1 h2 h3
    · exact ⟨rfl, hi⟩
    · exact wp_corrupt
    · exact findFreeBlk_inside hs hh (by omega) (by omega) (.inr h1)
    · exact ⟨rfl, hi⟩

theorem joinNext_inside {iEnd iFreeBlk : Nat} (hf : iFreeBlk + 4 ≤ g.usableSize) :
    wp (joinNext g iEnd iFreeBlk) (fun _ p' => p' = p) (Corrupts p) p := by
  rw [joinNext]
  split_ifs
  · exact wp_corrupt
  · rw [wp_bind, wp_get2byte (by omega)]
    split_ifs
    · exact wp_corrupt
    · rw [wp_bind, wp_get2byte (by omega)]
      exact rfl
  · exact rfl

theorem joinPrior_inside {hdr iPtr iStart : Nat} (hs : iStart + 4 ≤ g.usableSize)
    (hi : iPtr = hdr + 1 ∨ iPtr < iStart) :
    wp (joinPrior g hdr iPtr iStart) (fun r p' => p' = p ∧ r.2 ≤ iStart) (Corrupts p) p := by
  rw [joinPrior]
  split_ifs with h1
  · rw [wp_bind, wp_get2byte (by omega)]
    dsimp only
    split_ifs
    · exact wp_corrupt
    · exact ⟨rfl, by omega⟩
    · exact ⟨rfl, le_rfl⟩
  · exact ⟨rfl, le_rfl⟩

theorem linkBlock_inside {hdr iPtr iStart iEnd iFreeBlk : Nat} (hs : iStart + 4 ≤ g.usableSize)
    (hh : hdr + 8 ≤ g.usableSize) (hi : iPtr + 2 ≤ g.usableSize) :
    wp (linkBlock g hdr iPtr iStart iEnd iFreeBlk) (fun _ p' => Edited p p') (Corrupts p) p := by
  rw [linkBlock, wp_bind, wp_get2byte (by omega)]
  split_ifs
  · exact wp_corrupt
  · exact wp_corrupt
  · rw [wp_bind, wp_put2byte (by omega), wp_put2byte (by omega)]
    exact rfl
  · rw [wp_bind, wp_put2byte hi, wp_bind, wp_put2byte (by omega), wp_put2byte (by omega)]
    exact rfl

theorem freeSpace_inside {iStart iSize : Nat} (hh : p.hdrOffset + 8 ≤ g.usableSize)
    (h4 : iStart + 4 ≤ g.usableSize) :
    wp (freeSpace g iStart iSize)
      (fun _ p' => ∃ q, Edited p q ∧ p' = { q with nFree := q.nFree + iSize }) (Corrupts p) p := by
  have hu := g.usable_ge
  rw [freeSpace, wp_bind, wp_get]
  dsimp only
  rw [wp_bind, wp_get2byte (by omega)]
  split_ifs with hempty
  · rw [wp_bind]
    refine (linkBlock_inside (by omega) hh (by omega)).post fun _ q hq => ?_
    exact ⟨q, hq, rfl⟩
  · rw [wp_bind]
    refine (findFreeBlk_inside (by omega) hh (by omega) (by omega) (.inl rfl)).post ?_
    rintro ⟨iPtr, iFreeBlk⟩ _ ⟨rfl, hi⟩
    dsimp only at hi ⊢
    split_ifs with hf
    · exact wp_corrupt
    · rw [wp_bind]
      refine (joinNext_inside (by omega)).post ?_
      rintro ⟨nFrag, iEnd, iFreeBlk'⟩ _ rfl
      rw [wp_bind]
      refine (joinPrior_inside (by omega) hi).post ?_
      rintro ⟨nFrag2, iStart'⟩ _ ⟨rfl, hle⟩
      dsimp only at hle ⊢
      rw [wp_bind, wp_pageByte (by omega)]
      split_ifs
      · exact wp_corrupt
      · rw [wp_bind, wp_putBytes (by simp; omega)]
        rw [wp_bind]
        refine (linkBlock_inside (by omega) hh (by omega)).mono (fun _ q hq => ?_) fun e q hq => ?_
        · exact ⟨q, edited.trans hq, rfl⟩
        · exact edited.corrupts hq

end Blocks

/-! ## Defragmentation -/

/-- What a rebuild reads the cells from: the usable bytes of the page, and behind them what the temporary
space held. -/
def source (g : Geometry) (p : RawPage) (j : Nat) : UInt8 := if j < g.usableSize then p.aData j else p.aTemp j

/-- The eight bytes behind the temporary space of the pager, which it zeroes when it sets the page size. -/
def Padded (g : Geometry) (p : RawPage) : Prop := ∀ j, g.pageSize ≤ j → j < g.pageSize + 8 → p.aTemp j = 0

section Defragment

variable {g : Geometry} {p : RawPage}

theorem Padded.source (h : Padded g p) {j : Nat} (h1 : g.pageSize ≤ j) (h2 : j < g.pageSize + 8) :
    source g p j = 0 := by
  have := g.usable_le
  rw [RawPage.source, if_neg (by omega)]
  exact h j h1 h2

theorem u8_cellMemory {src : Nat → UInt8} {pc k : Nat} (h : pc + k < g.pageSize + 8) :
    u8 (cellMemory g src pc) k = (src (pc + k)).toNat := by
  rw [u8, cellMemory, List.getD_eq_getElem?_getD, bytes_getElem? (by omega)]
  rfl

/-- A parser that comes to the end of the page ends in the zeroes behind it. -/
theorem cellHeader_inside {src : Nat → UInt8} {pc : Nat} {leaf : Bool} (hpc : pc + 4 ≤ g.pageSize)
    (hz : ∀ j, g.pageSize ≤ j → j < g.pageSize + 8 → src j = 0) :
    pc + cellHeader leaf (cellMemory g src pc) ≤ g.pageSize + 8 := by
  -- a varint from byte `n` of the cell on ends in the bytes behind the page, if not before
  have hend : ∀ n k, n + k + pc = g.pageSize ∨ n + k + pc = g.pageSize + 1 →
      (getVarint32 ((cellMemory g src pc).drop n)).2 ≤ k + 1 := by
    intro n k hk
    refine getVarint32_le ?_
    have hu : u8 ((cellMemory g src pc).drop n) k = u8 (cellMemory g src pc) (n + k) := by simp [u8]
    rw [hu, u8_cellMemory (by omega), hz _ (by omega) (by omega)]
    decide
  rw [cellHeader]
  split_ifs
  · have h1 := hend 0 (g.pageSize - pc) (by omega)
    rw [List.drop_zero] at h1
    dsimp only
    have h2 := hend (getVarint32 (cellMemory g src pc)).2
      (g.pageSize + 1 - pc - (getVarint32 (cellMemory g src pc)).2) (by omega)
    omega
  · have h1 := hend 4 (g.pageSize - pc - 4) (by omega)
    omega

theorem cellSizeAt_inside {src : Nat → UInt8} {pc : Nat} {Q : Nat → RawPage → Prop} {E : PageErr → RawPage → Prop}
    (h : pc + cellHeader p.leaf (cellMemory g src pc) ≤ g.pageSize + 8)
    (hQ : Q (xCellSize g p.leaf (cellMemory g src pc)) p) : wp (cellSizeAt g src pc) Q E p := by
  rw [cellSizeAt, wp_bind, wp_get]
  dsimp only
  rw [if_pos h]
  exact hQ

/-- The loop may overwrite the pointers of the cells that are left, but each is checked when it is read. -/
theorem packCells_inside {src : Nat → UInt8} (hz : ∀ j, g.pageSize ≤ j → j < g.pageSize + 8 → src j = 0)
    {iCellStart co : Nat} : ∀ {n i cbrk : Nat} {p : RawPage}, co + 2 * (i + n) ≤ g.usableSize → cbrk ≤ g.usableSize →
    wp (packCells g src iCellStart co n i cbrk) (fun r p' => Edited p p' ∧ r ≤ g.usableSize) (Corrupts p) p
  | 0, _, _, _, _, hc => ⟨.refl, hc⟩
  | n + 1, i, cbrk, p, hs, hc => by
    have hu := g.usable_ge
    have hle := g.usable_le
    rw [packCells, wp_bind, wp_get2byte (by omega)]
    split_ifs with hpc
    · exact wp_corrupt
    · rw [wp_bind]
      refine cellSizeAt_inside (cellHeader_inside (by omega) hz) ?_
      generalize xCellSize g p.leaf (cellMemory g src (get2 p.aData (co + 2 * i))) = size
      split_ifs with hsize
      · exact wp_corrupt
      · have hlen : (bytes src (get2 p.aData (co + 2 * i)) size).length = size := bytes_length
        rw [wp_bind, wp_put2byte (by omega), wp_bind, wp_putBytes (by rw [hlen]; omega)]
        refine (packCells_inside hz (by omega) (by omega)).mono (fun r q hq => ?_) fun e q hq => ?_
        · exact ⟨edited.trans hq.1, hq.2⟩
        · exact edited.corrupts hq

theorem shiftPointers_inside {iFree iFree2 sz sz2 co : Nat} : ∀ {n i : Nat} {p : RawPage},
    co + 2 * (i + n) ≤ g.usableSize →
    wp (shiftPointers g co iFree iFree2 sz sz2 n i) (fun _ p' => Edited p p' ∧ ∀ j, j < co + 2 * i →
      p'.aData j = p.aData j) (Corrupts p) p
  | 0, _, _, _ => ⟨.refl, fun _ _ => rfl⟩
  | n + 1, i, p, hin => by
    have hrest : ∀ v, wp (shiftPointers g co iFree iFree2 sz sz2 n (i + 1)) (fun _ p' => Edited p p' ∧
        ∀ j, j < co + 2 * i → p'.aData j = p.aData j) (Corrupts p) { p with aData := put2 p.aData (co + 2 * i) v } := by
      intro v
      refine (shiftPointers_inside (by omega)).mono (fun _ q hq => ⟨edited.trans hq.1, fun j hj => ?_⟩) fun e q hq => ?_
      · exact (hq.2 j (by omega)).trans (put2_out (by omega))
      · exact edited.corrupts hq
    rw [shiftPointers, wp_bind, wp_get2byte (by omega)]
    split_ifs
    · rw [wp_bind, wp_put2byte (by omega)]
      exact hrest _
    · rw [wp_bind, wp_put2byte (by omega)]
      exact hrest _
    · refine (shiftPointers_inside (by omega)).post fun _ q hq => ?_
      exact ⟨hq.1, fun j hj => hq.2 j (by omega)⟩

/-- The second half of `moveBlocks`, where the blocks before `iFree` move up by `sz`. -/
theorem moveDown_inside (hs : p.iCellFirst ≤ g.usableSize) {nMaxFrag : Int} {d : Nat → UInt8}
    {top iFree iFree2 sz sz2 : Nat} (hd : ∀ j, j < top → d j = p.aData j) (htop : p.iCellFirst ≤ top)
    (hfree : top ≤ iFree) (hsz : iFree + sz ≤ g.usableSize) (hfrag : (frag p : Int) ≤ nMaxFrag) :
    wp (do
        memmove g (top + sz) top (iFree - top)
        shiftPointers g p.cellOffset iFree iFree2 sz sz2 p.nCell 0
        return some (top + sz))
      (fun r p' => Edited p p' ∧ (r = none → p' = p) ∧
        ∀ cbrk, r = some cbrk → cbrk ≤ g.usableSize ∧ frag p' = frag p ∧ (frag p : Int) ≤ nMaxFrag) (Corrupts p)
      { p with aData := d } := by
  have hh := hdr_le_first p
  have hco : p.hdrOffset + 8 ≤ p.cellOffset := by
    unfold cellOffset
    omega
  have hptr : p.cellOffset + 2 * (0 + p.nCell) ≤ g.usableSize := by
    rw [Nat.zero_add]
    exact hs
  rw [wp_bind, wp_memmove (by omega) (by omega), wp_bind]
  refine (shiftPointers_inside hptr).mono (fun _ q hq => ?_) fun e q hq => edited.corrupts hq
  rw [wp_pure]
  refine ⟨edited.trans hq.1, fun h => absurd h (Option.some_ne_none _), fun cbrk h => ?_⟩
  obtain rfl := Option.some.inj h
  refine ⟨by omega, ?_, hfrag⟩
  rw [frag, frag, hq.1.hdrOffset]
  refine congrArg UInt8.toNat ((hq.2 _ (by dsimp only; omega)).trans ((store_out (.inl ?_)).trans (hd _ ?_))) <;>
    dsimp only <;> omega

/-- Moving the blocks leaves the header alone where the cell content area is behind the pointers. -/
theorem moveBlocks_inside (hs : p.iCellFirst ≤ g.usableSize) {nMaxFrag : Int}
    (htop : (frag p : Int) ≤ nMaxFrag → p.iCellFirst ≤ get2 p.aData (p.hdrOffset + 5)) :
    wp (moveBlocks g nMaxFrag) (fun r p' => Edited p p' ∧ (r = none → p' = p) ∧
      ∀ cbrk, r = some cbrk → cbrk ≤ g.usableSize ∧ frag p' = frag p ∧ (frag p : Int) ≤ nMaxFrag) (Corrupts p) p := by
  have hu := g.usable_ge
  have hh := hdr_le_first p
  have hnone : wp (pure none : PageM (Option Nat)) (fun r p' => Edited p p' ∧ (r = none → p' = p) ∧
      ∀ cbrk, r = some cbrk → cbrk ≤ g.usableSize ∧ frag p' = frag p ∧ (frag p : Int) ≤ nMaxFrag) (Corrupts p) p :=
    ⟨.refl, fun _ => rfl, fun _ h => by cases h⟩
  rw [moveBlocks, wp_bind, wp_get]
  dsimp only
  rw [wp_bind, wp_pageByte (by omega)]
  by_cases hfrag : nMaxFrag < ((p.aData (p.hdrOffset + 7)).toNat : Int)
  · rw [if_pos hfrag]
    exact hnone
  rw [if_neg hfrag, wp_bind, wp_get2byte (by omega)]
  have hfrag' : (frag p : Int) ≤ nMaxFrag := Int.not_lt.1 hfrag
  generalize get2 p.aData (p.hdrOffset + 1) = iFree
  by_cases h1 : g.usableSize - 4 < iFree
  · rw [if_pos h1]
    exact wp_corrupt
  rw [if_neg h1]
  by_cases h0 : iFree = 0
  · rw [if_pos h0]
    exact hnone
  rw [if_neg h0, wp_bind, wp_get2byte (by omega)]
  generalize get2 p.aData iFree = iFree2
  by_cases h2 : g.usableSize - 4 < iFree2
  · rw [if_pos h2, wp_bind]
    exact wp_corrupt
  rw [if_neg h2]
  have htop := htop hfrag'
  by_cases h3 : iFree2 = 0
  · -- one free block
    rw [if_pos h3, wp_bind, wp_pure, if_neg (by simp), wp_bind, wp_get2byte (by omega), wp_bind,
      wp_get2byte (by omega)]
    by_cases h4 : iFree ≤ get2 p.aData (p.hdrOffset + 5)
    · rw [if_pos h4]
      exact wp_corrupt
    rw [if_neg h4, if_neg (by simpa using h3)]
    by_cases h5 : g.usableSize < iFree + get2 p.aData (iFree + 2)
    · rw [if_pos h5, wp_bind]
      exact wp_corrupt
    rw [if_neg h5, wp_bind, wp_pure]
    exact moveDown_inside hs (fun _ _ => rfl) htop (by omega) (by omega) hfrag'
  · rw [if_neg h3, wp_bind, wp_get2byte (by omega)]
    by_cases hnext : get2 p.aData iFree2 ≠ 0
    · rw [if_pos hnext]
      exact hnone
    rw [if_neg hnext, wp_bind, wp_get2byte (by omega), wp_bind, wp_get2byte (by omega)]
    by_cases h4 : iFree ≤ get2 p.aData (p.hdrOffset + 5)
    · rw [if_pos h4]
      exact wp_corrupt
    rw [if_neg h4, if_pos h3]
    -- two free blocks
    by_cases h5 : iFree2 < iFree + get2 p.aData (iFree + 2)
    · rw [if_pos h5, wp_bind]
      exact wp_corrupt
    rw [if_neg h5, wp_bind, wp_get2byte (by omega)]
    by_cases h6 : g.usableSize < iFree2 + get2 p.aData (iFree2 + 2)
    · rw [if_pos h6, wp_bind]
      exact wp_corrupt
    rw [if_neg h6, wp_bind, wp_memmove (by omega) (by omega), wp_bind, wp_pure]
    exact moveDown_inside hs (fun j hj => store_out (by omega)) htop (by omega) (by omega) hfrag'

/-- A defragmentation gathers the free bytes between the pointers and the cells, but for fragments that it
was allowed to leave. -/
theorem defragmentPage_inside (hs : p.iCellFirst ≤ g.usableSize) (hpad : Padded g p) {nMaxFrag : Int}
    (h0 : 0 ≤ p.nFree) (hn : nMaxFrag ≤ p.nFree)
    (htop : (frag p : Int) ≤ nMaxFrag → p.iCellFirst ≤ get2 p.aData (p.hdrOffset + 5)) :
    wp (defragmentPage g nMaxFrag) (fun _ p' => Edited p p' ∧ ∃ cbrk : Nat, cbrk ≤ g.usableSize ∧
      get2 p'.aData (p.hdrOffset + 5) = cbrk % 65536 ∧ p.iCellFirst + p.nFree ≤ cbrk + max 0 nMaxFrag)
      (Corrupts p) p := by
  have hu := g.usable_ge
  have hdr := hdr_le_first p
  -- the end of it, on a page with the fields of `p`
  have hout : ∀ {q : RawPage} {cbrk : Nat}, Edited p q → cbrk ≤ g.usableSize → (frag q : Int) ≤ max 0 nMaxFrag →
      wp (defragmentOut g cbrk) (fun _ p' => Edited p p' ∧ ∃ cbrk : Nat, cbrk ≤ g.usableSize ∧
        get2 p'.aData (p.hdrOffset + 5) = cbrk % 65536 ∧ p.iCellFirst + p.nFree ≤ cbrk + max 0 nMaxFrag)
        (Corrupts p) q := by
    intro q cbrk hq hc hf
    have hfirst := hq.iCellFirst
    have hfree := hq.nFree
    by_cases hsum : (frag q : Int) + cbrk - q.iCellFirst = q.nFree
    · refine (defragmentOut_run hsum (by omega) hc).mono ?_ fun _ _ h => h.elim
      rintro _ _ ⟨d, rfl, -, h5, -⟩
      refine ⟨hq.trans edited, cbrk, hc, ?_, by omega⟩
      rw [← hq.hdrOffset]
      exact h5
    · rw [frag] at hsum
      rw [defragmentOut, wp_bind, wp_get]
      dsimp only
      rw [wp_bind, wp_pageByte (by rw [hq.hdrOffset]; omega), if_pos hsum]
      exact ⟨rfl, hq⟩
  rw [defragmentPage_eq, wp_bind]
  refine (moveBlocks_inside hs htop).post ?_
  rintro (- | cbrk) q ⟨hq, hnone, hsome⟩
  · obtain rfl := hnone rfl
    rw [rebuildPage, wp_bind, wp_get]
    dsimp only
    have hptr : q.cellOffset + 2 * (0 + q.nCell) ≤ g.usableSize := by
      rw [Nat.zero_add]
      exact hs
    rw [wp_bind, wp_get2byte (by omega), wp_bind]
    refine (packCells_inside (fun j => hpad.source) hptr le_rfl).post fun cbrk r hr => ?_
    have hr7 := hr.1.hdrOffset
    rw [wp_bind, wp_putBytes (by simp; omega)]
    refine hout (hr.1.trans edited) hr.2 ?_
    have hz : frag { r with aData := store r.aData (q.hdrOffset + 7) [0] } = 0 := by
      rw [frag, ← hr7]
      exact congrArg UInt8.toNat (store_in (j := 0) (by simp))
    rw [hz]
    omega
  · obtain ⟨hc, hf, hle⟩ := hsome cbrk rfl
    exact hout hq hc (by rw [hf]; omega)

end Defragment

/-! ## Inserting and dropping cells -/

/-- What every call on a page stands on: the cell pointers are on the page, and a parser comes to an end. -/
structure Bounded (g : Geometry) (p : RawPage) : Prop where
  first_le : p.iCellFirst ≤ g.usableSize
  padded : Padded g p

/-- The page's free space has been computed, too. -/
structure Ready (g : Geometry) (p : RawPage) : Prop extends Bounded g p where
  nFree : 0 ≤ p.nFree

/-- Where `defragmentPage` would take the content offset 65536 for the 0 it is stored as, a block of `nByte`
bytes has to fit in the gap as it is. -/
def Serves (g : Geometry) (p : RawPage) (nByte : Nat) : Prop :=
  g.usableSize = 65536 → get2 p.aData (p.hdrOffset + 5) = 0 → p.iCellFirst + 2 + nByte ≤ 65536

section Edit

variable {g : Geometry} {p : RawPage} {nByte i idx sz : Nat}

theorem Edited.bounded {p' : RawPage} (h : Edited p p') (hp : Bounded g p) : Bounded g p' := by
  refine ⟨h.iCellFirst.trans_le hp.first_le, fun j => ?_⟩
  rw [h]
  exact hp.padded j

theorem Edited.ready {p' : RawPage} (h : Edited p p') (hp : Ready g p) : Ready g p' :=
  ⟨h.bounded hp.toBounded, h.nFree ▸ hp.nFree⟩

theorem allocateFromGap_inside {top : Nat} (hp : Ready g p) (htop : top ≤ g.usableSize)
    (hn : (nByte : Int) + 2 ≤ p.nFree)
    (h : p.iCellFirst + 2 + nByte ≤ top ∨ p.iCellFirst ≤ get2 p.aData (p.hdrOffset + 5)) :
    wp (allocateFromGap g nByte top) (fun idx p' => Edited p p' ∧ p.iCellFirst + 2 ≤ idx ∧
      idx + nByte ≤ g.usableSize) (Corrupts p) p := by
  have hle := hp.first_le
  have hdr := hdr_le_first p
  have hu := g.usableSize_le
  -- the end, with a content offset that leaves room for the pointer and the block
  have hend : ∀ {q : RawPage} {top : Nat}, Edited p q → p.iCellFirst + 2 + nByte ≤ top → top ≤ g.usableSize →
      wp (if top < nByte then throw .outside else do
          put2byte g (p.hdrOffset + 5) (top - nByte)
          return top - nByte)
        (fun idx p' => Edited p p' ∧ p.iCellFirst + 2 ≤ idx ∧ idx + nByte ≤ g.usableSize) (Corrupts p) q := by
    intro q top hq h1 h2
    rw [if_neg (by omega), wp_bind, wp_put2byte (by omega), wp_pure]
    exact ⟨hq.trans edited, by omega, by omega⟩
  rw [allocateFromGap, wp_bind, wp_get]
  dsimp only
  by_cases hfit : top < p.iCellFirst + 2 + nByte
  · have hfirst := h.resolve_left (by omega)
    rw [if_pos hfit, wp_bind]
    refine (defragmentPage_inside hle hp.padded hp.nFree (by omega) fun _ => hfirst).post ?_
    rintro - q ⟨hq, cbrk, hc, h5, hsum⟩
    have hv : (if cbrk % 65536 = 0 then 65536 else cbrk % 65536) = cbrk := by
      split_ifs <;> omega
    rw [wp_bind, wp_get2byteNotZero (by omega), h5, hv]
    exact hend hq (by omega) hc
  · rw [if_neg hfit, wp_bind, wp_pure]
    exact hend .refl (by omega) htop

theorem allocateSpace_inside (hp : Ready g p) (h4 : 4 ≤ nByte) (hn : (nByte : Int) + 2 ≤ p.nFree)
    (h : Serves g p nByte) :
    wp (allocateSpace g nByte) (fun idx p' => Edited p p' ∧ p.iCellFirst + 2 ≤ g.usableSize ∧
      idx + nByte ≤ g.usableSize) (Corrupts p) p := by
  have hle := hp.first_le
  have hdr := hdr_le_first p
  have hu := g.usable_ge
  have hcont : ∀ top, top ≤ g.usableSize →
      (p.iCellFirst + 2 + nByte ≤ top ∨ p.iCellFirst ≤ get2 p.aData (p.hdrOffset + 5)) →
      wp (allocateBelow g p nByte top)
      (fun idx p' => Edited p p' ∧ p.iCellFirst + 2 ≤ g.usableSize ∧ idx + nByte ≤ g.usableSize) (Corrupts p) p := by
    intro top htop hserves
    have hgap := (allocateFromGap_inside hp htop hn hserves).post fun idx p' h =>
      (⟨h.1, by omega, h.2.2⟩ : Edited p p' ∧ p.iCellFirst + 2 ≤ g.usableSize ∧ idx + nByte ≤ g.usableSize)
    rw [allocateBelow, wp_bind, wp_get2byte (by omega)]
    by_cases hfree : get2 p.aData (p.hdrOffset + 1) ≠ 0 ∧ p.iCellFirst + 2 ≤ top
    · rw [if_pos hfree, wp_bind, pageFindSlot, wp_bind, wp_get]
      dsimp only
      rw [wp_bind, wp_get2byte (by omega)]
      refine (findSlot_inside h4 (by omega) (by omega) (by omega) (by omega)).post ?_
      rintro (- | idx) q ⟨hq, hnone, hsome⟩
      · obtain rfl := hnone rfl
        exact hgap
      · have hidx := hsome idx rfl
        dsimp only
        split_ifs
        · exact ⟨rfl, hq⟩
        · exact ⟨hq, by omega, hidx⟩
    · rw [if_neg hfree]
      exact hgap
  rw [allocateSpace, wp_bind, wp_get]
  dsimp only
  rw [wp_bind, wp_get2byte (by omega)]
  by_cases hx : get2 p.aData (p.hdrOffset + 5) < p.iCellFirst
  · rw [if_pos hx]
    by_cases h0 : get2 p.aData (p.hdrOffset + 5) = 0 ∧ g.usableSize = 65536
    · rw [if_pos h0, wp_bind, wp_pure]
      exact hcont _ h0.2.ge (.inl (h h0.2 h0.1))
    · rw [if_neg h0, wp_bind]
      exact wp_corrupt
  · rw [if_neg hx]
    by_cases hbig : g.usableSize < get2 p.aData (p.hdrOffset + 5)
    · rw [if_pos hbig, wp_bind]
      exact wp_corrupt
    · rw [if_neg hbig, wp_bind, wp_pure]
      exact hcont _ (by omega) (.inr (Nat.not_lt.1 hx))

theorem insertPointer_inside (hp : Ready g p) (hs : p.iCellFirst + 2 ≤ g.usableSize) (hi : i ≤ p.nCell) :
    wp (insertPointer g i idx) (fun _ p' => Ready g p') (fun _ _ => False) p := by
  have hdr := hdr_le_first p
  have hfirst : p.iCellFirst = p.cellOffset + 2 * p.nCell := rfl
  have hready : ∀ d, Ready g { p with aData := d, nCell := p.nCell + 1 } := fun d => by
    refine ⟨⟨?_, hp.padded⟩, hp.nFree⟩
    change p.cellOffset + 2 * (p.nCell + 1) ≤ g.usableSize
    omega
  rw [insertPointer, wp_bind, wp_get]
  dsimp only
  rw [wp_bind, wp_memmove (by omega) (by omega), wp_bind, wp_put2byte (by omega), wp_bind, wp_modify, wp_bind,
    wp_pageByte (by omega), wp_bind, wp_putBytes (by simp; omega)]
  split_ifs
  · rw [wp_bind, wp_pageByte (by omega), wp_putBytes (by simp; omega)]
    exact hready _
  · exact hready _

theorem u16_le (x : Nat) : u16 x ≤ x := Nat.mod_le _ _

/-- The end of an insertion, once there is a place for the cell. -/
theorem place_inside {d : Nat → UInt8} (hp : Ready g p) (hs : p.iCellFirst + 2 ≤ g.usableSize) (hi : i ≤ p.nCell)
    (hn : ((2 + sz : Nat) : Int) ≤ p.nFree) :
    wp (insertPointer g i idx) (fun _ p' => Ready g p') (fun e p' => e = .corrupt ∧ Ready g p')
      { p with aData := d, nFree := p.nFree - u16 (2 + sz) } := by
  have hu := u16_le (2 + sz)
  have hready : Ready g { p with aData := d, nFree := p.nFree - u16 (2 + sz) } :=
    ⟨⟨hp.first_le, hp.padded⟩, (by omega : 0 ≤ p.nFree - u16 (2 + sz))⟩
  exact (insertPointer_inside hready hs hi).mono (fun _ _ => id) fun _ _ h => h.elim

theorem insertCell_inside {pCell : Cell} {iChild : Nat} (hp : Ready g p) (hi : i ≤ p.nCell + p.ovfl.length)
    (h : p.ovfl = [] → (sz : Int) + 2 ≤ p.nFree → 4 ≤ sz ∧ Serves g p sz) :
    wp (insertCell g i pCell sz iChild) (fun _ p' => Ready g p') (fun e p' => e = .corrupt ∧ Ready g p') p := by
  rw [insertCell, wp_bind, wp_get]
  by_cases hfit : p.ovfl ≠ [] ∨ p.nFree < sz + 2
  · rw [if_pos hfit, wp_modify]
    exact ⟨⟨hp.first_le, hp.padded⟩, hp.nFree⟩
  · rw [not_or, not_not] at hfit
    obtain ⟨h4, hserves⟩ := h hfit.1 (by omega)
    rw [if_neg (by rw [not_or, not_not]; exact hfit), wp_bind]
    refine (allocateSpace_inside hp h4 (by omega) hserves).mono (fun idx q hq => ?_) fun e q hq => ?_
    · obtain ⟨hq, hs, hidx⟩ := hq
      have hle : ((pCell.drop 4).take (sz - 4)).length ≤ sz - 4 := List.length_take_le _ _
      have hput : (put4byte iChild).length = 4 := rfl
      rw [wp_bind, wp_modify, if_neg (by omega), wp_bind, wp_putBytes (by omega), wp_bind, wp_putBytes (by omega)]
      refine place_inside (hq.ready hp) (hq.iCellFirst ▸ hs) ?_ (by rw [hq.nFree]; push_cast; omega)
      rw [hfit.1, List.length_nil, Nat.add_zero] at hi
      rw [hq]
      exact hi
    · exact ⟨hq.1, hq.2.ready hp⟩

theorem insertCellFast_inside {pCell : Cell} (hp : Ready g p) (hi : i ≤ p.nCell) (h4 : 4 ≤ sz)
    (h : (sz : Int) + 2 ≤ p.nFree → Serves g p sz) :
    wp (insertCellFast g i pCell sz) (fun _ p' => Ready g p') (fun e p' => e = .corrupt ∧ Ready g p') p := by
  rw [insertCellFast, wp_bind, wp_get]
  split_ifs with hfit
  · exact ⟨⟨hp.first_le, hp.padded⟩, hp.nFree⟩
  · rw [wp_bind]
    refine (allocateSpace_inside hp h4 (by omega) (h (by omega))).mono (fun idx q hq => ?_) fun e q hq => ?_
    · obtain ⟨hq, hs, hidx⟩ := hq
      have hle : (pCell.take sz).length ≤ sz := List.length_take_le _ _
      rw [wp_bind, wp_modify, wp_bind, wp_putBytes (by omega)]
      refine place_inside (hq.ready hp) (hq.iCellFirst ▸ hs) ?_ (by rw [hq.nFree]; push_cast; omega)
      rw [hq]
      exact hi
    · exact ⟨hq.1, hq.2.ready hp⟩

/-- The cell that is dropped has four bytes on the page, or ends behind it. -/
theorem dropCell_inside (hp : Ready g p) (hi : idx < p.nCell)
    (h : get2 p.aData (p.cellOffset + 2 * idx) + 4 ≤ g.usableSize ∨
      g.usableSize < get2 p.aData (p.cellOffset + 2 * idx) + sz) :
    wp (dropCell g idx sz) (fun _ p' => Ready g p') (fun e p' => e = .corrupt ∧ Ready g p') p := by
  have hle := hp.first_le
  have hnf := hp.nFree
  have hdr := hdr_le_first p
  have hfirst : p.iCellFirst = p.cellOffset + 2 * p.nCell := rfl
  rw [dropCell, wp_bind, wp_get]
  dsimp only
  rw [wp_bind, wp_get2byte (by omega)]
  split_ifs with hpc
  · exact ⟨rfl, hp⟩
  · rw [wp_bind]
    refine (freeSpace_inside (by omega) (h.resolve_right hpc)).mono (fun _ p' hq => ?_) fun e q hq => ?_
    · obtain ⟨q, hq, rfl⟩ := hq
      have hcell : q.nCell = p.nCell := by rw [hq]
      have hco : q.cellOffset = p.cellOffset := by
        rw [hq]
        rfl
      have hqf := hq.nFree
      have hpad := (hq.ready hp).padded
      rw [wp_bind, wp_modify, wp_bind, wp_get]
      dsimp only
      split_ifs with h0
      · rw [wp_bind, wp_putBytes (by simp; omega), wp_bind, wp_putBytes (by simp; omega), wp_bind,
          wp_put2byte (by omega), wp_modify]
        refine ⟨⟨?_, hpad⟩, ?_⟩
        · change q.cellOffset + 2 * (q.nCell - 1) ≤ g.usableSize
          omega
        · change 0 ≤ (g.usableSize : Int) - q.cellOffset
          omega
      · rw [wp_bind, wp_memmove (by omega) (by omega), wp_bind, wp_put2byte (by omega), wp_modify]
        refine ⟨⟨?_, hpad⟩, ?_⟩
        · change q.cellOffset + 2 * (q.nCell - 1) ≤ g.usableSize
          omega
        · change 0 ≤ q.nFree + sz + 2
          omega
    · exact ⟨hq.1, hq.2.ready hp⟩

end Edit

/-! ## Calls on an accepted page -/

/-- A page that `btreeInitPage` accepts has room for its cell pointers. -/
theorem btreeInitPage_inside {g : Geometry} {p : RawPage} (hp : p.hdrOffset ≤ 100) (hpad : Padded g p) :
    wp (btreeInitPage g) (fun _ p' => Bounded g p') (fun e _ => e = .corrupt) p := by
  have hu := g.usable_ge
  have hres := g.reserve_le
  have hcell : ∀ n d, n ≤ mxCell g → p.hdrOffset + 8 + childPtrSize { p with leaf := d } + 2 * n ≤ g.usableSize := by
    intro n d hn
    have hc : childPtrSize { p with leaf := d } ≤ 4 := by
      unfold childPtrSize
      split_ifs <;> omega
    unfold mxCell at hn
    omega
  have hrest : ∀ d, wp (do
      let nCell ← get2byte g (p.hdrOffset + 3)
      modify fun p => { p with nCell, ovfl := [] }
      if mxCell g < nCell then throw .corrupt
      else modify fun p => { p with nFree := -1 })
      (fun _ p' => Bounded g p') (fun e _ => e = .corrupt) { p with leaf := d } := by
    intro d
    rw [wp_bind, wp_get2byte (by omega), wp_bind, wp_modify]
    split_ifs with hn
    · exact rfl
    · exact ⟨hcell _ d (Nat.not_lt.1 hn), hpad⟩
  rw [btreeInitPage, wp_bind, wp_get, wp_bind, wp_pageByte (by omega)]
  split_ifs
  · exact hrest true
  · exact hrest false
  · exact rfl

/-- The calls that `sqlite3BtreeInsert` and `sqlite3BtreeDelete` make on a page. -/
inductive PageCall
  | btreeComputeFreeSpace
  | defragmentPage (nMaxFrag : Int)
  | allocateSpace (nByte : Nat)
  | freeSpace (iStart iSize : Nat)
  | dropCell (idx sz : Nat)
  | insertCell (i : Nat) (pCell : Cell) (sz iChild : Nat)
  | insertCellFast (i : Nat) (pCell : Cell) (sz : Nat)

namespace PageCall

variable (g : Geometry)

def run : PageCall → PageM Unit
  | btreeComputeFreeSpace => RawPage.btreeComputeFreeSpace g
  | defragmentPage nMaxFrag => RawPage.defragmentPage g nMaxFrag
  | allocateSpace nByte => do
    let _ ← RawPage.allocateSpace g nByte
    return
  | freeSpace iStart iSize => RawPage.freeSpace g iStart iSize
  | dropCell idx sz => RawPage.dropCell g idx sz
  | insertCell i pCell sz iChild => RawPage.insertCell g i pCell sz iChild
  | insertCellFast i pCell sz => RawPage.insertCellFast g i pCell sz

/-- What the callers see to, whatever the bytes of the page are. -/
def Passed (p : RawPage) : PageCall → Prop
  | btreeComputeFreeSpace => True
  | defragmentPage nMaxFrag => 0 ≤ p.nFree ∧ nMaxFrag ≤ p.nFree
  | allocateSpace nByte => (nByte : Int) + 2 ≤ p.nFree
  | freeSpace iStart iSize => 0 ≤ p.nFree ∧ iStart + iSize ≤ g.usableSize
  | dropCell idx _ => 0 ≤ p.nFree ∧ idx < p.nCell
  | insertCell i pCell sz _ =>
    0 ≤ p.nFree ∧ i ≤ p.nCell + p.ovfl.length ∧ sz % 65536 = xCellSize g p.leaf pCell
  | insertCellFast i _ sz => 0 ≤ p.nFree ∧ i ≤ p.nCell ∧ 4 ≤ sz

/-- What else a call needs: four bytes for a block it frees or takes, and a content offset that
`defragmentPage` can read. -/
def Safe (p : RawPage) : PageCall → Prop
  | btreeComputeFreeSpace => True
  | defragmentPage nMaxFrag => (frag p : Int) ≤ nMaxFrag → p.iCellFirst ≤ get2 p.aData (p.hdrOffset + 5)
  | allocateSpace nByte => 4 ≤ nByte ∧ Serves g p nByte
  | freeSpace iStart _ => iStart + 4 ≤ g.usableSize
  | dropCell idx sz => get2 p.aData (p.cellOffset + 2 * idx) + 4 ≤ g.usableSize ∨
      g.usableSize < get2 p.aData (p.cellOffset + 2 * idx) + sz
  | insertCell _ _ sz _ => p.ovfl = [] → (sz : Int) + 2 ≤ p.nFree → 4 ≤ sz ∧ Serves g p sz
  | insertCellFast _ _ sz => (sz : Int) + 2 ≤ p.nFree → Serves g p sz

/-- A safe call keeps the page bounded, and can fail with `SQLITE_CORRUPT` only. -/
theorem inside {g : Geometry} {p : RawPage} {c : PageCall} (hp : Bounded g p) (hc : c.Passed g p) (hs : c.Safe g p) :
    wp (c.run g) (fun _ p' => Bounded g p') (fun e p' => e = .corrupt ∧ Bounded g p') p := by
  have hdr := hdr_le_first p
  have hle := hp.first_le
  have hcorrupt : ∀ e p', Corrupts p e p' → e = .corrupt ∧ Bounded g p' := fun _ _ h => ⟨h.1, h.2.bounded hp⟩
  have hready : ∀ e (p' : RawPage), e = PageErr.corrupt ∧ Ready g p' → e = .corrupt ∧ Bounded g p' :=
    fun _ _ h => ⟨h.1, h.2.toBounded⟩
  cases c with
  | btreeComputeFreeSpace =>
    refine (btreeComputeFreeSpace_inside hle).mono ?_ hcorrupt
    rintro _ _ ⟨n, rfl⟩
    exact ⟨hle, hp.padded⟩
  | defragmentPage nMaxFrag =>
    exact (defragmentPage_inside hle hp.padded hc.1 hc.2 hs).mono (fun _ _ h => h.1.bounded hp) hcorrupt
  | allocateSpace nByte =>
    have hn : 0 ≤ p.nFree := (by omega : (0 : Int) ≤ (nByte : Int) + 2).trans hc
    rw [run, wp_bind]
    exact (allocateSpace_inside ⟨hp, hn⟩ hs.1 hc hs.2).mono (fun _ _ h => h.1.bounded hp) hcorrupt
  | freeSpace iStart iSize =>
    refine (freeSpace_inside (by omega) hs).mono ?_ hcorrupt
    rintro _ _ ⟨q, hq, rfl⟩
    exact ⟨(hq.bounded hp).first_le, (hq.bounded hp).padded⟩
  | dropCell idx sz => exact (dropCell_inside ⟨hp, hc.1⟩ hc.2 hs).mono (fun _ _ h => h.toBounded) hready
  | insertCell i pCell sz iChild =>
    exact (insertCell_inside ⟨hp, hc.1⟩ hc.2.1 hs).mono (fun _ _ h => h.toBounded) hready
  | insertCellFast i pCell sz =>
    exact (insertCellFast_inside ⟨hp, hc.1⟩ hc.2.1 hc.2.2 hs).mono (fun _ _ h => h.toBounded) hready

end PageCall

/-- The pages that are reached from those `btreeInitPage` accepts by calls that are passed what callers pass
and have the property `C`. A call that fails with `SQLITE_CORRUPT` may leave the page half changed. -/
inductive Reached (g : Geometry) (C : RawPage → PageCall → Prop) : RawPage → Prop
  | accepted {p p' : RawPage} (hp : p.hdrOffset = 0 ∨ p.hdrOffset = 100) (hpad : Padded g p)
    (h : btreeInitPage g p = .ok () p') : Reached g C p'
  | call {p p' : RawPage} {c : PageCall} (hp : Reached g C p) (hc : c.Passed g p) (hC : C p c)
    (h : c.run g p = .ok () p' ∨ c.run g p = .error .corrupt p') : Reached g C p'

section Runs

variable {g : Geometry} {p : RawPage} {c : PageCall}

theorem Reached.bounded (h : Reached g (fun p c => c.Safe g p) p) : Bounded g p := by
  induction h with
  | accepted hp hpad h => exact (btreeInitPage_inside (by omega) hpad).of_ok h
  | call _ hc hC h ih =>
    have hin := PageCall.inside ih hc hC
    rcases h with h | h
    · exact hin.of_ok h
    · exact (hin.of_error h).2

end Runs

end RawPage

end Btreelite
