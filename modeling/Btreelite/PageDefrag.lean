import Btreelite.PageLayout

/-!
# Defragmentation

`defragmentPage` moves the cells to the end of the page, by closing one or two free blocks or by packing the
cells one after the other. The cells and their order stay.
-/

namespace Btreelite

namespace RawPage

open Prog ByteBuffer Tiling

/-! ## Packing the cells -/

/-- The cells one below the other, from `hi` down. -/
def packed : Nat → List (Nat × Cell) → List (Nat × Cell)
  | _, [] => []
  | hi, c :: ps => (hi - c.2.length, c.2) :: packed (hi - c.2.length) ps

section Packed

@[simp] theorem packed_map_snd : ∀ (hi : Nat) (ps : List (Nat × Cell)),
    (packed hi ps).map Prod.snd = ps.map Prod.snd
  | _, [] => rfl
  | hi, c :: ps => by
    rw [packed, List.map_cons, List.map_cons, packed_map_snd]

@[simp] theorem packed_length (hi : Nat) (ps : List (Nat × Cell)) : (packed hi ps).length = ps.length := by
  have := congrArg List.length (packed_map_snd hi ps)
  rwa [List.length_map, List.length_map] at this

/-- Cells that are the same take the same room. -/
theorem total_block {ps ps' : List (Nat × Cell)} (h : ps'.map Prod.snd = ps.map Prod.snd) :
    total (ps'.map block) = total (ps.map block) := by
  have hlen : ∀ l : List (Nat × Cell), total (l.map block) = ((l.map Prod.snd).map List.length).sum := fun l => by
    rw [total, List.map_map, List.map_map]
    rfl
  rw [hlen, hlen, h]

theorem packed_tiles : ∀ (hi : Nat) (ps : List (Nat × Cell)), total (ps.map block) ≤ hi →
    Tiles (hi - total (ps.map block)) hi ((packed hi ps).map block) 0
  | hi, [], _ => ⟨List.Pairwise.nil, by simp [packed], by simp [packed]⟩
  | hi, c :: ps, h => by
    rw [List.map_cons, total_cons] at h ⊢
    simp only [block] at h ⊢
    have hrec := (packed_tiles (hi - c.2.length) ps (by omega)).atop
      (n := c.2.length)
    rw [Nat.sub_add_cancel (by omega), Nat.sub_sub] at hrec
    exact hrec

end Packed

section PackCells

variable {g : Geometry} {p : RawPage} {src : Nat → UInt8} {iCellStart : Nat}

theorem cellSizeAt_wp {c : Nat × Cell} {Q : Nat → RawPage → Prop} {E : PageErr → RawPage → Prop}
    (hl : LegalCell g p.leaf c.2) (hc : c.1 + c.2.length ≤ g.usableSize)
    (hb : bytes src c.1 c.2.length = c.2) :
    wp (cellSizeAt g src c.1) Q E p ↔ Q c.2.length p := by
  obtain ⟨tail, ht⟩ := cellMemory_eq hc hb
  have hu := g.usable_le
  have hh := hl.header tail
  rw [cellSizeAt, wp_bind, wp_get]
  dsimp only
  rw [ht, if_pos (by omega), hl.size]
  exact Iff.rfl

/-- The loop, from cell pointer `i` on: the pointers lead to the packed cells, and what stands outside of
them and of the pointers is kept. -/
theorem packCells_wp {co : Nat} : ∀ (ps : List (Nat × Cell)) (i cbrk : Nat) (p : RawPage),
    (∀ j c, ps[j]? = some c → get2 p.aData (co + 2 * (i + j)) = c.1) →
    (∀ c ∈ ps, LegalCell g p.leaf c.2 ∧ c.1 + c.2.length ≤ g.usableSize ∧ bytes src c.1 c.2.length = c.2) →
    iCellStart + total (ps.map block) ≤ cbrk → co + 2 * (i + ps.length) ≤ cbrk - total (ps.map block) →
    cbrk ≤ g.usableSize →
    wp (packCells g src iCellStart co ps.length i cbrk) (fun r p' => r = cbrk - total (ps.map block)
      ∧ ∃ d, p' = { p with aData := d }
      ∧ (∀ j c, (packed cbrk ps)[j]? = some c → get2 d (co + 2 * (i + j)) = c.1)
      ∧ (∀ c ∈ packed cbrk ps, bytes d c.1 c.2.length = c.2)
      ∧ ∀ j, j < co + 2 * i ∨ co + 2 * (i + ps.length) ≤ j ∧ j < r ∨ cbrk ≤ j → d j = p.aData j)
      (fun _ _ => False) p
  | [], i, cbrk, p, _, _, _, _, _ => ⟨rfl, p.aData, rfl, by simp [packed], by simp [packed], fun _ _ => rfl⟩
  | c :: ps, i, cbrk, p, hptr, hcells, hstart, hlow, hhi => by
    have hu := g.usable_ge
    have hule := g.usableSize_le
    obtain ⟨⟨hlegal, hin, hbody⟩, hrest⟩ := List.forall_mem_cons.1 hcells
    have h4 := hlegal.four_le
    have hpc : get2 p.aData (co + 2 * i) = c.1 := by simpa using hptr 0 c rfl
    simp only [List.map_cons, total_cons, List.length_cons, block] at hstart hlow ⊢
    rw [packCells, wp_bind, wp_get2byte (by omega), hpc, if_neg (by omega), wp_bind, cellSizeAt_wp hlegal hin hbody,
      if_neg (by omega), wp_bind, wp_put2byte (by omega), hbody, wp_bind, wp_putBytes (by omega)]
    have hput : ∀ j, (j + 2 ≤ co + 2 * i ∨ co + 2 * i + 2 ≤ j) → j + 2 ≤ cbrk - c.2.length →
        get2 (store (put2 p.aData (co + 2 * i) (cbrk - c.2.length)) (cbrk - c.2.length) c.2) j
          = get2 p.aData j := fun j h1 h2 =>
      (get2_store_out (by omega)).trans (get2_put2_out (by omega))
    refine (packCells_wp ps (i + 1) (cbrk - c.2.length)
      ({ p with aData := store (put2 p.aData (co + 2 * i) (cbrk - c.2.length)) (cbrk - c.2.length) c.2 })
      (fun j e hj => ?_) hrest (by omega) (by omega) (by omega)).post ?_
    · have hlt := (List.getElem?_eq_some_iff.1 hj).1
      have := hptr (j + 1) e (by simpa using hj)
      rw [← this, show i + 1 + j = i + (j + 1) by omega]
      exact hput _ (by omega) (by omega)
    · rintro r _ ⟨rfl, d, rfl, hd1, hd2, hd3⟩
      refine ⟨by omega, d, rfl, fun j e hj => ?_, List.forall_mem_cons.2 ⟨?_, hd2⟩, fun j hj => ?_⟩
      · rw [packed] at hj
        cases j with
        | zero =>
          obtain rfl : (cbrk - c.2.length, c.2) = e := by simpa using hj
          have hkeep : get2 d (co + 2 * i)
              = get2 (store (put2 p.aData (co + 2 * i) (cbrk - c.2.length)) (cbrk - c.2.length) c.2) (co + 2 * i) :=
            get2_congr (hd3 _ (by omega)) (hd3 _ (by omega))
          rw [Nat.add_zero, hkeep, get2_store_out (by omega), get2_put2, Nat.mod_eq_of_lt (by omega)]
        | succ j =>
          rw [← hd1 j e (by simpa using hj)]
          congr 1
          omega
      · have hkeep : bytes d (cbrk - c.2.length) c.2.length
            = bytes (store (put2 p.aData (co + 2 * i) (cbrk - c.2.length)) (cbrk - c.2.length) c.2)
              (cbrk - c.2.length) c.2.length := bytes_congr fun j h1 h2 => hd3 j (by omega)
        exact hkeep.trans bytes_store_self
      · rw [hd3 j (by omega)]
        exact (store_out (by omega)).trans (put2_out (by omega))

end PackCells

/-! ## The end of a defragmentation -/

/-- What is on the page beside its cells and its free space is the same. -/
structure Frame (p p' : RawPage) : Prop where
  hdrOffset : p'.hdrOffset = p.hdrOffset
  leaf : p'.leaf = p.leaf
  ovfl : p'.ovfl = p.ovfl
  head : ∀ j, j ≤ p.hdrOffset ∨ p.hdrOffset + 8 ≤ j ∧ j < p.cellOffset → p'.aData j = p.aData j

section Frames

variable {p p' q : RawPage}

theorem Frame.cellOffset (h : Frame p p') : p'.cellOffset = p.cellOffset := by
  rw [RawPage.cellOffset, RawPage.cellOffset, childPtrSize, childPtrSize, h.hdrOffset, h.leaf]

theorem Frame.trans (h : Frame p p') (h' : Frame p' q) : Frame p q where
  hdrOffset := h'.hdrOffset.trans h.hdrOffset
  leaf := h'.leaf.trans h.leaf
  ovfl := h'.ovfl.trans h.ovfl
  head j hj := by rw [h'.head j (by rwa [h.hdrOffset, h.cellOffset]), h.head j hj]

theorem Keeps.frame {top : Nat} {bs : List Block} (h : Keeps p p' top bs) : Frame p p' where
  hdrOffset := h.hdrOffset
  leaf := h.leaf
  ovfl := h.ovfl
  head j hj := by
    have := hdr_le_first p
    have : p.cellOffset ≤ p.iCellFirst := by
      unfold RawPage.iCellFirst
      omega
    exact h.head j (by omega) (by omega)

end Frames

section Out

variable {g : Geometry} {p : RawPage} {ps ps' : List (Nat × Cell)} {fs : List Block} {top cbrk : Nat}
  {d : Nat → UInt8}

theorem defragmentOut_run {q : RawPage} (hn : (frag q : Int) + cbrk - q.iCellFirst = q.nFree)
    (hfirst : q.iCellFirst ≤ cbrk) (hle : cbrk ≤ g.usableSize) :
    wp (defragmentOut g cbrk) (fun _ p' => ∃ d, p' = { q with aData := d }
      ∧ (∀ j, j ≤ q.hdrOffset ∨ j = q.hdrOffset + 3 ∨ j = q.hdrOffset + 4
        ∨ q.hdrOffset + 7 ≤ j ∧ j < q.iCellFirst ∨ cbrk ≤ j → d j = q.aData j)
      ∧ get2 d (q.hdrOffset + 5) = cbrk % 65536 ∧ get2 d (q.hdrOffset + 1) = 0) (fun _ _ => False) q := by
  have hh := hdr_le_first q
  have hz : (List.replicate (cbrk - q.iCellFirst) (0 : UInt8)).length = cbrk - q.iCellFirst := List.length_replicate
  rw [defragmentOut, wp_bind, wp_get]
  dsimp only
  rw [wp_bind, wp_pageByte (by omega)]
  rw [frag] at hn
  rw [if_neg (by omega), wp_bind, wp_put2byte (by omega), wp_bind, wp_putBytes (by simp; omega), if_neg (by omega),
    wp_putBytes (by rw [hz]; omega)]
  refine ⟨_, rfl, fun j hj => ?_, ?_, ?_⟩
  · exact (store_out (by rw [hz]; omega)).trans ((store_out (by simp; omega)).trans (put2_out (by omega)))
  · exact (get2_store_out (by omega)).trans ((get2_store_out (by simp)).trans get2_put2)
  · exact (get2_store_out (by omega)).trans (get2_put2 (v := 0))

/-- In `d` the cells `ps` of the page have been moved to `ps'`, and from `cbrk` on there is nothing else. -/
structure Packs (g : Geometry) (p : RawPage) (ps ps' : List (Nat × Cell)) (d : Nat → UInt8) (cbrk : Nat) : Prop where
  cells : ps'.map Prod.snd = ps.map Prod.snd
  head : ∀ j, j ≤ p.hdrOffset ∨ j = p.hdrOffset + 3 ∨ j = p.hdrOffset + 4
    ∨ p.hdrOffset + 8 ≤ j ∧ j < p.cellOffset → d j = p.aData j
  pointer : ∀ i c, ps'[i]? = some c → get2 d (p.cellOffset + 2 * i) = c.1
  body : ∀ c ∈ ps', bytes d c.1 c.2.length = c.2
  tiles : Tiles cbrk g.usableSize (ps'.map block) (d (p.hdrOffset + 7)).toNat

theorem defragmentOut_wp (h : Layout g p ps [] fs top) (hd : Packs g p ps ps' d cbrk) (hle : top ≤ cbrk) :
    wp (defragmentOut g cbrk) (fun _ p' => Layout g p' ps' [] [] cbrk ∧ Frame p p'
      ∧ frag p' = (d (p.hdrOffset + 7)).toNat) (fun _ _ => False) { p with aData := d } := by
  obtain ⟨hps, hd, hptr, hbody, htiles⟩ := hd
  have hh := h.free.hdr_lt_usable
  have hfirst := h.free.first_le
  have hco : p.hdrOffset + 8 ≤ p.cellOffset := by
    unfold cellOffset
    omega
  have hlen := congrArg List.length hps
  rw [List.length_map, List.length_map] at hlen
  have hcell : p.cellOffset + 2 * ps'.length = p.iCellFirst := by
    rw [hlen, iCellFirst, h.nCell]
  have hcbrk := htiles.lo_le
  have hsum := htiles.sum
  rw [total_block hps] at hsum
  have hnFree := h.nFree
  have hout : ((d (p.hdrOffset + 7)).toNat : Int) + cbrk - p.iCellFirst = p.nFree := by omega
  have hrun : wp (defragmentOut g cbrk) (fun _ p' => ∃ d', p' = { p with aData := d' }
      ∧ (∀ j, j ≤ p.hdrOffset ∨ j = p.hdrOffset + 3 ∨ j = p.hdrOffset + 4
        ∨ p.hdrOffset + 7 ≤ j ∧ j < p.iCellFirst ∨ cbrk ≤ j → d' j = d j)
      ∧ get2 d' (p.hdrOffset + 5) = cbrk % 65536 ∧ get2 d' (p.hdrOffset + 1) = 0) (fun _ _ => False)
      { p with aData := d } := defragmentOut_run hout (hfirst.trans hle) hcbrk
  refine hrun.post ?_
  rintro _ _ ⟨d', rfl, hd', htop, hfree⟩
  have hkept : ∀ j, j ≤ p.hdrOffset ∨ j = p.hdrOffset + 3 ∨ j = p.hdrOffset + 4
      ∨ p.hdrOffset + 8 ≤ j ∧ j < p.cellOffset → d' j = p.aData j := fun j hj =>
    (hd' j (by omega)).trans (hd j hj)
  have hfrag : frag { p with aData := d' } = (d (p.hdrOffset + 7)).toNat := congrArg UInt8.toNat (hd' (p.hdrOffset + 7) (by omega))
  have hcount : get2 d' (p.hdrOffset + 3) = get2 p.aData (p.hdrOffset + 3) :=
    get2_congr (hkept _ (by omega)) (hkept _ (by omega))
  have hptr' : ∀ i c, ps'[i]? = some c → get2 d' (p.cellOffset + 2 * i) = c.1 := fun i c hi => by
    have hi' := (List.getElem?_eq_some_iff.1 hi).1
    rw [← hptr i c hi]
    exact get2_congr (hd' _ (by omega)) (hd' _ (by omega))
  have hbody' : ∀ c ∈ ps', bytes d' c.1 c.2.length = c.2 := fun c hc => by
    have hin := htiles.inside (block c) (List.mem_map_of_mem hc)
    simp only [block] at hin
    exact (bytes_congr fun j h1 _ => hd' j (by omega)).trans (hbody c hc)
  have hlegal : ∀ c ∈ ps', LegalCell g p.leaf c.2 := fun c hc => by
    obtain ⟨c', hc', heq⟩ := List.mem_map.1 (hps ▸ List.mem_map_of_mem hc : c.2 ∈ ps.map Prod.snd)
    rw [← heq]
    exact h.legal c' hc'
  have hfree' : FreeList g { p with aData := d' } [] cbrk :=
    ⟨htop, hfree, by simp only [Spaced]; omega, hfirst.trans hle, hcbrk⟩
  refine ⟨⟨(hkept _ (Or.inl le_rfl)).trans h.flag, h.nCell.trans hlen.symm, by rw [hcount, hlen, h.count], hptr',
    hbody', hlegal, hfree', ?_, by rw [total_block hps]; exact h.nFree⟩,
    ⟨rfl, rfl, rfl, fun j hj => hkept j (by omega)⟩, hfrag⟩
  rw [hfrag]
  simpa using htiles

end Out

/-! ## Closing one or two free blocks -/

/-- Where the byte at `pc` is after the blocks have been moved. -/
def moved (iFree iFree2 sz sz2 pc : Nat) : Nat :=
  if pc < iFree then pc + sz else if pc < iFree2 then pc + sz2 else pc

section Move

variable {g : Geometry} {iFree iFree2 sz sz2 co : Nat}

theorem shiftPointers_wp : ∀ {n i : Nat} {p : RawPage}, co + 2 * (i + n) ≤ g.usableSize →
    (∀ j < n, moved iFree iFree2 sz sz2 (get2 p.aData (co + 2 * (i + j))) < 65536) →
    wp (shiftPointers g co iFree iFree2 sz sz2 n i) (fun _ p' => ∃ d, p' = { p with aData := d }
      ∧ (∀ j < n, get2 d (co + 2 * (i + j)) = moved iFree iFree2 sz sz2 (get2 p.aData (co + 2 * (i + j))))
      ∧ ∀ j, j < co + 2 * i ∨ co + 2 * (i + n) ≤ j → d j = p.aData j) (fun _ _ => False) p
  | 0, _, p, _, _ => ⟨p.aData, rfl, by simp, fun _ _ => rfl⟩
  | n + 1, i, p, hin, hlt => by
    have h0 := hlt 0 (by omega)
    rw [Nat.add_zero] at h0
    have hrest : ∀ d1, get2 d1 (co + 2 * i) = moved iFree iFree2 sz sz2 (get2 p.aData (co + 2 * i)) →
        (∀ j, j < co + 2 * i ∨ co + 2 * i + 2 ≤ j → d1 j = p.aData j) →
        wp (shiftPointers g co iFree iFree2 sz sz2 n (i + 1)) (fun _ p' => ∃ d, p' = { p with aData := d }
          ∧ (∀ j < n + 1, get2 d (co + 2 * (i + j)) = moved iFree iFree2 sz sz2 (get2 p.aData (co + 2 * (i + j))))
          ∧ ∀ j, j < co + 2 * i ∨ co + 2 * (i + (n + 1)) ≤ j → d j = p.aData j) (fun _ _ => False)
          { p with aData := d1 } := by
      intro d1 hd1 hkeep
      have hnext : ∀ j < n, get2 d1 (co + 2 * (i + 1 + j)) = get2 p.aData (co + 2 * (i + (j + 1))) := fun j _ => by
        rw [show i + 1 + j = i + (j + 1) by omega]
        exact get2_congr (hkeep _ (by omega)) (hkeep _ (by omega))
      have hrun := shiftPointers_wp (n := n) (i := i + 1) (p := { p with aData := d1 }) (by omega) fun j hj => by
        change moved iFree iFree2 sz sz2 (get2 d1 (co + 2 * (i + 1 + j))) < 65536
        rw [hnext j hj]
        exact hlt (j + 1) (by omega)
      refine hrun.post ?_
      rintro _ _ ⟨d, rfl, hd, hout⟩
      refine ⟨d, rfl, fun j hj => ?_, fun j hj => (hout j (by omega)).trans (hkeep j (by omega))⟩
      cases j with
      | zero =>
        rw [Nat.add_zero, ← hd1]
        exact get2_congr (hout _ (by omega)) (hout _ (by omega))
      | succ j =>
        rw [← hnext j (by omega), show i + (j + 1) = i + 1 + j by omega]
        exact hd j (by omega)
    rw [shiftPointers, wp_bind, wp_get2byte (by omega)]
    unfold moved at h0 hrest
    by_cases h1 : get2 p.aData (co + 2 * i) < iFree
    · rw [if_pos h1] at h0 hrest
      rw [if_pos h1, wp_bind, wp_put2byte (by omega)]
      exact hrest _ (by rw [get2_put2, Nat.mod_eq_of_lt h0]) fun j hj => put2_out (by omega)
    · rw [if_neg h1] at h0 hrest
      by_cases h2 : get2 p.aData (co + 2 * i) < iFree2
      · rw [if_pos h2] at h0 hrest
        rw [if_neg h1, if_pos h2, wp_bind, wp_put2byte (by omega)]
        exact hrest _ (by rw [get2_put2, Nat.mod_eq_of_lt h0]) fun j hj => put2_out (by omega)
      · rw [if_neg h2] at hrest
        rw [if_neg h1, if_neg h2]
        exact hrest p.aData rfl fun _ _ => rfl

variable {p : RawPage} {ps : List (Nat × Cell)} {fs : List Block} {top cbrk : Nat}

/-- The cell with its new place. -/
def movedCell (iFree iFree2 sz sz2 : Nat) (c : Nat × Cell) : Nat × Cell := (moved iFree iFree2 sz sz2 c.1, c.2)

/-- The pointers follow the cells, whose bytes have been moved in `d0`. -/
theorem shiftPointers_packs {d0 : Nat → UInt8} (h : Layout g p ps [] fs top) (hd0 : ∀ j < top, d0 j = p.aData j)
    (hbody : ∀ c ∈ ps, bytes d0 (moved iFree iFree2 sz sz2 c.1) c.2.length = c.2)
    (htiles : Tiles cbrk g.usableSize ((ps.map (movedCell iFree iFree2 sz sz2)).map block) (frag p)) (hle : top ≤ cbrk) :
    wp (shiftPointers g p.cellOffset iFree iFree2 sz sz2 p.nCell 0) (fun _ p' => ∃ d, p' = { p with aData := d }
      ∧ Packs g p ps (ps.map (movedCell iFree iFree2 sz sz2)) d cbrk ∧ (d (p.hdrOffset + 7)).toNat = frag p)
      (fun _ _ => False) { p with aData := d0 } := by
  have hco : p.hdrOffset + 8 ≤ p.cellOffset := by
    unfold cellOffset
    omega
  have hfirst : p.cellOffset + 2 * p.nCell ≤ top := h.free.first_le
  have htop := h.free.top_le
  have hu := g.usableSize_le
  have hptr0 : ∀ i c, ps[i]? = some c → get2 d0 (p.cellOffset + 2 * i) = c.1 := fun i c hi => by
    have hi' := (List.getElem?_eq_some_iff.1 hi).1
    have hn := h.nCell
    rw [← h.pointer i c hi]
    exact get2_congr (hd0 _ (by omega)) (hd0 _ (by omega))
  have hin : ∀ c ∈ ps, cbrk ≤ moved iFree iFree2 sz sz2 c.1
      ∧ moved iFree iFree2 sz sz2 c.1 + c.2.length ≤ g.usableSize := fun c hc =>
    htiles.inside _ (List.mem_map_of_mem (List.mem_map_of_mem hc))
  have hrun : wp (shiftPointers g p.cellOffset iFree iFree2 sz sz2 p.nCell 0) _ _ { p with aData := d0 } :=
    shiftPointers_wp (by omega) fun j hj => by
      have hj' : j < ps.length := h.nCell ▸ hj
      have hc := List.getElem_mem hj'
      have hlt := hin _ hc
      have h4 := (h.legal _ hc).four_le
      change moved iFree iFree2 sz sz2 (get2 d0 (p.cellOffset + 2 * (0 + j))) < 65536
      rw [Nat.zero_add, hptr0 j _ (List.getElem?_eq_getElem hj')]
      omega
  refine hrun.post ?_
  rintro _ _ ⟨d, rfl, hd, hout⟩
  have hkeep : ∀ j, j < p.cellOffset ∨ p.iCellFirst ≤ j → d j = d0 j := fun j hj => by
    refine hout j ?_
    unfold iCellFirst at hj
    omega
  have hfrag : (d (p.hdrOffset + 7)).toNat = frag p := by
    rw [hkeep _ (by omega), hd0 _ (by omega), frag]
  refine ⟨d, rfl, ⟨?_, fun j hj => ?_, fun i c hi => ?_, ?_, by rwa [hfrag]⟩, hfrag⟩
  · rw [List.map_map]
    rfl
  · rw [hkeep j (by omega), hd0 j (by omega)]
  · rw [List.getElem?_map, Option.map_eq_some_iff] at hi
    obtain ⟨e, he, rfl⟩ := hi
    have hi' := (List.getElem?_eq_some_iff.1 he).1
    have := hd i (h.nCell ▸ hi')
    rw [Nat.zero_add] at this
    rw [this]
    exact congrArg (moved iFree iFree2 sz sz2) (hptr0 i e he)
  · refine List.forall_mem_map.2 fun c hc => ?_
    have hle' := hin c hc
    have hf := h.free.first_le
    exact (bytes_congr fun j hj _ => hkeep j (Or.inr (by simp only [movedCell] at hj; omega))).trans (hbody c hc)

/-- A cell lies before a free block or behind it. -/
theorem cell_side {f : Block} (h : Layout g p ps [] fs top) (hf : f ∈ fs) {c : Nat × Cell} (hc : c ∈ ps) :
    (c.1 < f.1 ∧ c.1 + c.2.length ≤ f.1) ∨ (f.1 ≤ c.1 ∧ f.1 + f.2 ≤ c.1) := by
  have happ := h.tiles.apart
  rw [List.nil_append, List.pairwise_append] at happ
  have hb := (happ.2.2 (block c) (List.mem_map_of_mem hc) f hf).symm.side
  have h4 := (h.legal c hc).four_le
  simp only [block] at hb
  exact hb (by omega)

theorem close_one {f : Block} (h : Layout g p ps [] [f] top) :
    Tiles (top + f.2) g.usableSize ((ps.map (movedCell f.1 0 f.2 0)).map block) (frag p) := by
  have hpos : ∀ b ∈ ps.map block, 0 < b.2 := fun b hb => by
    have := h.cells_four_le b hb
    omega
  have hperm : (ps.map block ++ [f]).Perm (f :: ps.map block) := List.perm_append_comm
  have hclose := (h.tiles.perm hperm).close hpos
  rw [List.map_map] at hclose ⊢
  refine List.map_congr_left (fun c hc => ?_) ▸ hclose
  rcases cell_side h (f := f) (by simp) hc with h1 | h1
  · simp only [Function.comp, block, movedCell, moved, slide_of_lt, h1.1, if_true]
  · simp only [Function.comp, block, movedCell, moved, slide_of_le, h1.1, if_neg (Nat.not_lt.2 h1.1),
      Nat.not_lt_zero, if_false]

theorem close_two {f f2 : Block} (h : Layout g p ps [] [f, f2] top) :
    Tiles (top + (f.2 + f2.2)) g.usableSize ((ps.map (movedCell f.1 f2.1 (f.2 + f2.2) f2.2)).map block)
      (frag p) := by
  have hf := h.free.mem (f := f) (by simp)
  have hs := h.free.spaced.2.2.1
  have hpos : ∀ b ∈ ps.map block, 0 < b.2 := fun b hb => by
    have := h.cells_four_le b hb
    omega
  have hperm : (ps.map block ++ [f, f2]).Perm (f2 :: f :: ps.map block) :=
    List.perm_append_comm.trans (List.Perm.swap _ _ _)
  have hclose := (h.tiles.perm hperm).close (List.forall_mem_cons.2 ⟨by omega, hpos⟩)
  rw [List.map_cons, slide_of_lt (by omega)] at hclose
  have hclose2 := hclose.close (List.forall_mem_map.2 fun b hb => by
    rw [slide_snd]
    exact hpos b hb)
  rw [Nat.add_assoc, Nat.add_comm f2.2] at hclose2
  rw [List.map_map, List.map_map] at hclose2
  rw [List.map_map]
  refine List.map_congr_left (fun c hc => ?_) ▸ hclose2
  have h1 := cell_side h (f := f) (by simp) hc
  have h2 := cell_side h (f := f2) (by simp) hc
  simp only [Function.comp, block, movedCell, moved]
  rcases h1 with h1 | h1
  · have hlt : c.1 < f2.1 := by omega
    have hlt' : c.1 + f2.2 < f.1 + f2.2 := by omega
    simp only [slide_of_lt, hlt, hlt', h1.1, if_true]
    rw [Nat.add_assoc, Nat.add_comm f2.2]
  · rcases h2 with h2 | h2
    · have hle : f.1 + f2.2 ≤ c.1 + f2.2 := by omega
      simp only [slide_of_lt, slide_of_le, hle, h2.1, if_true, if_neg (Nat.not_lt.2 h1.1)]
    · have hle : f.1 + f2.2 ≤ c.1 := by omega
      simp only [slide_of_le, hle, h2.1, if_neg (Nat.not_lt.2 h1.1), if_neg (Nat.not_lt.2 h2.1)]

/-- The bytes of a cell in a block that has been moved. -/
theorem bytes_memmove {d : Nat → UInt8} {dst a b q n : Nat} (h1 : a ≤ q) (h2 : q + n ≤ b) (hq : a ≤ dst) :
    bytes (store d dst (bytes d a (b - a))) (q + (dst - a)) n = bytes d q n := by
  have h : bytes (store d dst (bytes d a (b - a))) (dst + (q - a)) n = bytes d (a + (q - a)) n :=
    bytes_store_bytes (by omega)
  rwa [show a + (q - a) = q by omega, show dst + (q - a) = q + (dst - a) by omega] at h

theorem moveBlocks_wp (h : Layout g p ps [] fs top) (nMaxFrag : Int) :
    wp (moveBlocks g nMaxFrag) (fun r p' =>
      match r with
      | none => p' = p
      | some cbrk => top ≤ cbrk ∧ (frag p : Int) ≤ nMaxFrag ∧ ∃ d ps', p' = { p with aData := d }
        ∧ Packs g p ps ps' d cbrk ∧ (d (p.hdrOffset + 7)).toNat = frag p) (fun _ _ => False) p := by
  have hh := h.free.hdr_lt_usable
  have hlo := h.free.hdr_lt
  have hu := g.usable_ge
  have hule := g.usableSize_le
  rw [moveBlocks, wp_bind, wp_get]
  dsimp only
  rw [wp_bind, wp_pageByte (by omega)]
  by_cases hfrag : nMaxFrag < ((p.aData (p.hdrOffset + 7)).toNat : Int)
  · rw [if_pos hfrag]
    exact rfl
  rw [if_neg hfrag, wp_bind, wp_get2byte (by omega), h.free.links.head]
  rcases fs with - | ⟨f, fs⟩
  · rw [headPtr, if_neg (by omega), if_pos rfl]
    exact rfl
  have hf := h.free.mem (f := f) (by simp)
  obtain ⟨-, hsz, hl⟩ := h.free.links
  have htop : top % 65536 = top := Nat.mod_eq_of_lt (by omega)
  rw [headPtr, if_neg (by omega), if_neg (by omega), wp_bind, wp_get2byte (by omega), hl.head]
  rcases fs with - | ⟨f2, fs⟩
  · -- one free block
    rw [headPtr, if_neg (by omega), if_pos rfl, wp_bind, wp_pure, if_neg (by simp), wp_bind, wp_get2byte (by omega),
      hsz, wp_bind, wp_get2byte (by omega), h.free.top_eq, htop, if_neg (by omega), if_neg (by simp),
      if_neg (by omega), wp_bind, wp_pure, wp_bind, wp_memmove (by omega) (by omega), wp_bind]
    have hbody : ∀ c ∈ ps, bytes (store p.aData (top + f.2) (bytes p.aData top (f.1 - top)))
        (moved f.1 0 f.2 0 c.1) c.2.length = c.2 := by
      intro c hc
      have hin := h.cell_inside hc
      have hmove := @bytes_memmove p.aData (top + f.2) top f.1 c.1 c.2.length hin.1
      rw [Nat.add_sub_cancel_left] at hmove
      rcases cell_side h (f := f) (by simp) hc with h1 | h1
      · rw [moved, if_pos h1.1, hmove h1.2 (by omega), h.body c hc]
      · rw [moved, if_neg (by omega), if_neg (by omega), bytes_store_out (by simp; omega), h.body c hc]
    refine (shiftPointers_packs h (fun j hj => store_out (by omega)) hbody (close_one h) (by omega)).post ?_
    rintro _ _ ⟨d, rfl, hd, hfd⟩
    exact ⟨by omega, by rw [frag]; omega, d, _, rfl, hd, hfd⟩
  · have hf2 := h.free.mem (f := f2) (by simp)
    have hgap := h.free.spaced.2.2.1
    obtain ⟨-, hsz2, hl2⟩ := hl
    rw [headPtr, if_neg (by omega), if_neg (by omega), wp_bind, wp_get2byte (by omega), hl2.head]
    rcases fs with - | ⟨f3, fs⟩
    · -- two free blocks
      rw [headPtr, if_neg (by simp), wp_bind, wp_get2byte (by omega), hsz, wp_bind, wp_get2byte (by omega),
        h.free.top_eq, htop, if_neg (by omega), if_pos (by omega), if_neg (by omega), wp_bind,
        wp_get2byte (by omega), hsz2, if_neg (by omega), wp_bind, wp_memmove (by omega) (by omega), wp_bind, wp_pure,
        wp_bind, wp_memmove (by omega) (by omega), wp_bind]
      generalize hd1 : store p.aData (f.1 + f.2 + f2.2)
        (bytes p.aData (f.1 + f.2) (f2.1 - (f.1 + f.2))) = d1
      have hout : ∀ j, j < f.1 + f.2 + f2.2 ∨ f2.1 + f2.2 ≤ j → d1 j = p.aData j := fun j hj => by
        rw [← hd1]
        exact store_out (by simp; omega)
      have hbody : ∀ c ∈ ps, bytes (store d1 (top + (f.2 + f2.2)) (bytes d1 top (f.1 - top)))
          (moved f.1 f2.1 (f.2 + f2.2) f2.2 c.1) c.2.length = c.2 := by
        intro c hc
        have hin := h.cell_inside hc
        rw [← h.body c hc, bytes_length]
        rcases cell_side h (f := f) (by simp) hc with h1 | h1
        · have hmove := @bytes_memmove d1 (top + (f.2 + f2.2)) top f.1 c.1 c.2.length hin.1 h1.2 (by omega)
          rw [Nat.add_sub_cancel_left] at hmove
          rw [moved, if_pos h1.1, hmove]
          exact bytes_congr fun j _ _ => hout j (by omega)
        · rw [moved, if_neg (by omega)]
          rcases cell_side h (f := f2) (by simp) hc with h2 | h2
          · have hmove := @bytes_memmove p.aData (f.1 + f.2 + f2.2) (f.1 + f.2) f2.1 c.1 c.2.length h1.2 h2.2 (by omega)
            rw [Nat.add_sub_cancel_left, hd1] at hmove
            rw [if_pos h2.1, bytes_store_out (by simp; omega), hmove]
          · rw [if_neg (by omega), bytes_store_out (by simp; omega)]
            exact bytes_congr fun j _ _ => hout j (by omega)
      refine (shiftPointers_packs h (fun j hj => ?_) hbody (close_two h) (by omega)).post ?_
      · exact (store_out (by omega)).trans (hout j (by omega))
      · rintro _ _ ⟨d, rfl, hd, hfd⟩
        exact ⟨by omega, by rw [frag]; omega, d, _, rfl, hd, hfd⟩
    · have hf3 := h.free.mem (f := f3) (by simp)
      rw [headPtr, if_pos (by omega)]
      exact rfl

end Move

section Defragment

variable (g : Geometry)

/-- The part of `defragmentPage` that takes the page apart and builds it again. -/
def rebuildPage : PageM Unit := do
  let p ← get
  let hdr := p.hdrOffset
  let iCellStart ← get2byte g (hdr + 5)
  let src := fun j => if j < g.usableSize then p.aData j else p.aTemp j
  let cbrk ← packCells g src iCellStart p.cellOffset p.nCell 0 g.usableSize
  putBytes g (hdr + 7) [0]
  defragmentOut g cbrk

theorem defragmentPage_eq (nMaxFrag : Int) : defragmentPage g nMaxFrag = (do
    match ← moveBlocks g nMaxFrag with
    | some cbrk => defragmentOut g cbrk
    | none => rebuildPage g) := rfl

variable {g} {p : RawPage} {ps : List (Nat × Cell)} {fs : List Block} {top : Nat}

/-- `p'` has the cells of `p` in their order, apart from each other at the end of the page, and no free
blocks. -/
structure Defragmented (g : Geometry) (p p' : RawPage) : Prop where
  frame : Frame p p'
  layout : ∃ ps' top', Layout g p' ps' [] [] top'
  cells : cells g p' = cells g p
  nFree : p'.nFree = p.nFree

theorem Layout.defragmented {p' : RawPage} {ps' : List (Nat × Cell)} {top' : Nat} (h : Layout g p ps [] fs top)
    (h' : Layout g p' ps' [] [] top') (hps : ps'.map Prod.snd = ps.map Prod.snd) (hf : Frame p p') :
    Defragmented g p p' := by
  have hlen := congrArg List.length hps
  rw [List.length_map, List.length_map] at hlen
  have h1 := h.nFree
  have h2 := h'.nFree
  have h3 : p'.iCellFirst = p.iCellFirst := by
    rw [iCellFirst, iCellFirst, hf.cellOffset, h.nCell, h'.nCell, hlen]
  have h4 := total_block hps
  exact ⟨hf, ⟨ps', top', h'⟩, by rw [h'.cells_eq, h.cells_eq, hps], by omega⟩

theorem rebuildPage_wp (h : Layout g p ps [] fs top) :
    wp (rebuildPage g) (fun _ p' => ∃ ps' top', Layout g p' ps' [] [] top'
      ∧ ps'.map Prod.snd = ps.map Prod.snd ∧ Frame p p' ∧ frag p' = 0) (fun _ _ => False) p := by
  have hh := h.free.hdr_lt_usable
  have hfirst := h.free.first_le
  have hsum := h.tiles.sum
  rw [List.nil_append, total_append] at hsum
  rw [rebuildPage, wp_bind, wp_get]
  dsimp only
  have hco : p.hdrOffset + 8 ≤ p.cellOffset := by
    unfold cellOffset
    omega
  have hend : p.cellOffset + 2 * (0 + ps.length) = p.iCellFirst := by
    rw [iCellFirst, h.nCell, Nat.zero_add]
  rw [wp_bind, wp_get2byte (by omega), h.free.top_eq, h.nCell, wp_bind]
  have hcells : ∀ c ∈ ps, LegalCell g p.leaf c.2 ∧ c.1 + c.2.length ≤ g.usableSize
      ∧ bytes (fun j => if j < g.usableSize then p.aData j else p.aTemp j) c.1 c.2.length = c.2 := fun c hc => by
    have hin := h.cell_inside hc
    exact ⟨h.legal c hc, hin.2.2, (bytes_congr fun j _ _ => if_pos (by omega)).trans (h.body c hc)⟩
  refine (packCells_wp _ _ _ _ (fun j c hj => ?_) hcells ?_ ?_ le_rfl).post ?_
  · rw [Nat.zero_add]
    exact h.pointer j c hj
  · have := Nat.mod_le top 65536
    omega
  · omega
  · rintro _ _ ⟨rfl, d, rfl, hptr, hbody, hout⟩
    rw [wp_bind, wp_putBytes (by simp; omega)]
    have hout' : ∀ j, j ≠ p.hdrOffset + 7 → store d (p.hdrOffset + 7) [0] j = d j := fun j hj =>
      store_out (by simp; omega)
    have hzero : store d (p.hdrOffset + 7) [0] (p.hdrOffset + 7) = 0 := store_in (j := 0) (by simp)
    have htiles := packed_tiles g.usableSize ps (by omega)
    have hpacks : Packs g p ps (packed g.usableSize ps) (store d (p.hdrOffset + 7) [0])
        (g.usableSize - total (ps.map block)) := by
      refine ⟨packed_map_snd _ _, fun j hj => ?_, fun i c hi => ?_, fun c hc => ?_, by rwa [hzero]⟩
      · rw [hout' j (by omega), hout j (by omega)]
      · have hi' := (List.getElem?_eq_some_iff.1 hi).1
        rw [← hptr i c hi, Nat.zero_add]
        exact get2_congr (hout' _ (by omega)) (hout' _ (by omega))
      · have hin := htiles.inside (block c) (List.mem_map_of_mem hc)
        simp only [block] at hin
        exact (bytes_congr fun j hj _ => hout' j (by omega)).trans (hbody c hc)
    refine (defragmentOut_wp h hpacks (by omega)).post fun _ p' hp' => ?_
    refine ⟨_, _, hp'.1, packed_map_snd _ _, hp'.2.1, ?_⟩
    rw [hp'.2.2, hzero]
    rfl

/-- The page has the same cells in the same order, and no free blocks. -/
theorem defragmentPage_wp (h : Layout g p ps [] fs top) (nMaxFrag : Int) :
    wp (defragmentPage g nMaxFrag) (fun _ p' => ∃ ps' top', Layout g p' ps' [] [] top'
      ∧ ps'.map Prod.snd = ps.map Prod.snd ∧ Frame p p' ∧ ((frag p' : Int) ≤ nMaxFrag ∨ frag p' = 0))
      (fun _ _ => False) p := by
  rw [defragmentPage_eq, wp_bind]
  refine (moveBlocks_wp h nMaxFrag).post ?_
  rintro (- | cbrk) p1 hp1
  · obtain rfl : p1 = p := hp1
    refine (rebuildPage_wp h).post fun _ p' hp' => ?_
    obtain ⟨ps', top', h', hps, hf, hfrag⟩ := hp'
    exact ⟨ps', top', h', hps, hf, Or.inr hfrag⟩
  · obtain ⟨hle, hfrag, d, ps', rfl, hpacks, hd⟩ := hp1
    refine (defragmentOut_wp h hpacks hle).post fun _ p' hp' => ?_
    exact ⟨_, _, hp'.1, hpacks.cells, hp'.2.1, Or.inl (by rw [hp'.2.2, hd]; exact hfrag)⟩

/-- When the blocks are moved instead of rebuilding the page, the page has the cells, the order and the free
bytes it would have after a rebuild, and no free blocks; the fragments that are kept are as many as before
and no more than are allowed, while a rebuild leaves none. -/
theorem moveBlocks_rebuilds (h : WellFormed g p) (nMaxFrag : Int) :
    wp (moveBlocks g nMaxFrag) (fun r p1 => ∀ cbrk, r = some cbrk →
        wp (defragmentOut g cbrk) (fun _ p' => Defragmented g p p' ∧ frag p' = frag p ∧ (frag p : Int) ≤ nMaxFrag
          ∧ wp (rebuildPage g) (fun _ q => Defragmented g p q ∧ frag q = 0 ∧ cells g p' = cells g q
            ∧ p'.nFree = q.nFree) (fun _ _ => False) p) (fun _ _ => False) p1) (fun _ _ => False) p := by
  obtain ⟨ps, fs, top, hp⟩ := h
  refine (moveBlocks_wp hp nMaxFrag).post ?_
  rintro r p1 hp1 cbrk rfl
  obtain ⟨hle, hfrag, d, ps', rfl, hpacks, hd⟩ := hp1
  refine (defragmentOut_wp hp hpacks hle).post fun _ p' hp' => ?_
  have hmoved := hp.defragmented hp'.1 hpacks.cells hp'.2.1
  refine ⟨hmoved, by rw [hp'.2.2, hd], hfrag, (rebuildPage_wp hp).post fun _ q hq => ?_⟩
  obtain ⟨qs, qtop, hql, hqs, hqf, hqfrag⟩ := hq
  have hbuilt := hp.defragmented hql hqs hqf
  exact ⟨hbuilt, hqfrag, hmoved.cells.trans hbuilt.cells.symm, hmoved.nFree.trans hbuilt.nFree.symm⟩

theorem moveBlocks_rebuilds_smallLeaf :
    wp (moveBlocks smallPages 4) (fun r p1 => ∀ cbrk, r = some cbrk →
        wp (defragmentOut smallPages cbrk) (fun _ p' => Defragmented smallPages smallLeaf p'
          ∧ frag p' = frag smallLeaf ∧ (frag smallLeaf : Int) ≤ 4
          ∧ wp (rebuildPage smallPages) (fun _ q => Defragmented smallPages smallLeaf q ∧ frag q = 0
            ∧ cells smallPages p' = cells smallPages q ∧ p'.nFree = q.nFree) (fun _ _ => False) smallLeaf)
          (fun _ _ => False) p1) (fun _ _ => False) smallLeaf :=
  moveBlocks_rebuilds smallLeaf_wellFormed 4

end Defragment

end RawPage

end Btreelite
