import Btreelite.PageDefrag

/-!
# Inserting and dropping cells on a page

Space for a cell comes from a free block, from the gap, or from the gap after a defragmentation. Whichever it
is, an insertion and a removal change the list of the cells at one place.
-/

namespace Btreelite

namespace RawPage

open Prog ByteBuffer Tiling

/-! ## Allocating -/

section Allocate

variable {g : Geometry} {p p' : RawPage} {ps : List (Nat × Cell)} {holes fs : List Block} {top nByte : Nat}

/-- The list stands in the header and in its blocks. -/
theorem FreeList.congr (h : FreeList g p fs top) (hh : p'.hdrOffset = p.hdrOffset) (hfirst : p'.iCellFirst ≤ top)
    (h1 : get2 p'.aData (p.hdrOffset + 1) = get2 p.aData (p.hdrOffset + 1))
    (h5 : get2 p'.aData (p.hdrOffset + 5) = get2 p.aData (p.hdrOffset + 5))
    (hfs : ∀ f ∈ fs, get2 p'.aData f.1 = get2 p.aData f.1
      ∧ get2 p'.aData (f.1 + 2) = get2 p.aData (f.1 + 2)) : FreeList g p' fs top := by
  refine ⟨by rw [hh, h5, h.top_eq], ?_, h.spaced, hfirst, h.top_le⟩
  rw [hh]
  exact h.links.congr h1 hfs

/-- The cell content area grows into the gap. -/
theorem Layout.takeGap (h : Layout g p ps [] fs top) (hn : p.iCellFirst + 2 + nByte ≤ top) :
    Layout g { p with aData := put2 p.aData (p.hdrOffset + 5) (top - nByte) } ps [(top - nByte, nByte)] fs
      (top - nByte) := by
  have hlo := h.free.hdr_lt
  have htop := h.free.top_le
  have hk : Keeps p { p with aData := put2 p.aData (p.hdrOffset + 5) (top - nByte) } top [] :=
    Keeps.refl.put2 h.free.first_le (Or.inr (Or.inl (by omega)))
  refine h.keep hk (by simp) ?_ ?_ rfl
  · have hfirst : p.iCellFirst ≤ top - nByte := by omega
    refine ⟨get2_put2, ?_, h.free.spaced.mono_lo (by omega), hfirst, by omega⟩
    refine h.free.links.congr (get2_put2_out (by omega)) fun f hf => ?_
    have := h.free.mem hf
    exact ⟨get2_put2_out (by omega), get2_put2_out (by omega)⟩
  · rw [frag_congr (put2_out (by omega))]
    exact h.tiles.below (n := nByte) (by omega)

/-- Space for a cell, with room for its pointer. -/
structure Allocated (g : Geometry) (p : RawPage) (ps : List (Nat × Cell)) (nByte idx : Nat) (p' : RawPage) : Prop where
  frame : Frame p p'
  layout : ∃ ps' fs' top', Layout g p' ps' [(idx, nByte)] fs' top' ∧ ps'.map Prod.snd = ps.map Prod.snd
    ∧ p'.iCellFirst + 2 ≤ top'

theorem Layout.takeGap_wp {q : RawPage} (h : Layout g q ps [] fs top) (hn : q.iCellFirst + 2 + nByte ≤ top)
    {ps0 : List (Nat × Cell)} (hps : ps.map Prod.snd = ps0.map Prod.snd) (hf : Frame p q) :
    wp (if top < nByte then throw .outside else do
      put2byte g (p.hdrOffset + 5) (top - nByte)
      return top - nByte) (Allocated g p ps0 nByte) (fun _ _ => False) q := by
  have hh := h.free.hdr_lt_usable
  rw [if_neg (by omega), ← hf.hdrOffset, wp_bind, wp_put2byte (by omega), wp_pure]
  have hgap := h.takeGap hn
  refine ⟨hf.trans ⟨rfl, rfl, rfl, fun j hj => put2_out (by omega)⟩, _, _, _, hgap, hps, ?_⟩
  change q.iCellFirst + 2 ≤ _
  omega

theorem allocateFromGap_wp (h : Layout g p ps [] fs top) (hn : (nByte + 2 : Nat) ≤ p.nFree) :
    wp (allocateFromGap g nByte top) (Allocated g p ps nByte) (fun _ _ => False) p := by
  have hh := h.free.hdr_lt_usable
  have hu := g.usableSize_le
  rw [allocateFromGap, wp_bind, wp_get]
  dsimp only
  by_cases hgap : top < p.iCellFirst + 2 + nByte
  · rw [if_pos hgap, wp_bind]
    refine (defragmentPage_wp h _).post ?_
    rintro _ q ⟨ps', top', h', hps, hf, hfrag⟩
    have hhdr := hf.hdrOffset
    have hfirst : q.iCellFirst = p.iCellFirst := by
      have hlen := congrArg List.length hps
      rw [List.length_map, List.length_map, ← h.nCell, ← h'.nCell] at hlen
      rw [iCellFirst, iCellFirst, hf.cellOffset, hlen]
    have hroom : q.iCellFirst + 2 + nByte ≤ top' := by
      have h1 := h'.tiles.sum
      have h2 := h'.nFree
      have h3 := h.nFree
      have h4 := total_block hps
      simp only [List.nil_append, List.append_nil] at h1
      omega
    have hle := h'.free.top_le
    have htop : (if top' % 65536 = 0 then 65536 else top' % 65536) = top' := by
      split_ifs <;> omega
    rw [wp_bind, wp_get2byteNotZero (by omega), ← hhdr, h'.free.top_eq, htop]
    rw [hhdr]
    exact h'.takeGap_wp hroom hps hf
  · rw [if_neg hgap, wp_bind, wp_pure]
    exact h.takeGap_wp (by omega) rfl ⟨rfl, rfl, rfl, fun _ _ => rfl⟩

/-- The second half of `allocateSpace` on the page `p`, once the top of the gap is known. -/
def allocateBelow (g : Geometry) (p : RawPage) (nByte top : Nat) : PageM Nat := do
  if (← get2byte g (p.hdrOffset + 1)) ≠ 0 ∧ p.iCellFirst + 2 ≤ top then
    match ← pageFindSlot g nByte with
    | some idx => if idx ≤ p.iCellFirst then throw .corrupt else return idx
    | none => allocateFromGap g nByte top
  else allocateFromGap g nByte top

/-- On a well-formed page with enough free bytes the allocation succeeds. -/
theorem allocateSpace_wp (h : Layout g p ps [] fs top) (h4 : 4 ≤ nByte) (hn : (nByte + 2 : Nat) ≤ p.nFree) :
    wp (allocateSpace g nByte) (Allocated g p ps nByte) (fun _ _ => False) p := by
  have hh := h.free.hdr_lt_usable
  have hlo := h.free.hdr_lt
  have hu := g.usableSize_le
  have hle := h.free.top_le
  have hfirst := h.free.first_le
  have hpos := hdr_le_first p
  have hgap := allocateFromGap_wp h hn
  rw [allocateSpace, wp_bind, wp_get]
  dsimp only
  have hrest : wp (allocateBelow g p nByte top) (Allocated g p ps nByte) (fun _ _ => False) p := by
    rw [allocateBelow, wp_bind, wp_get2byte (by omega), h.free.links.head]
    by_cases hlist : headPtr fs ≠ 0 ∧ p.iCellFirst + 2 ≤ top
    · have hne : fs ≠ [] := by
        rintro rfl
        exact hlist.1 rfl
      rw [if_pos hlist, wp_bind]
      refine (pageFindSlot_wp h.free hne h4).post ?_
      rintro (- | idx) q hq
      · dsimp only at hq
        rwa [hq]
      · obtain ⟨fs', hslot, hfree, hkeep, hnFree⟩ := hq
        have htiles := hslot.tiles h.tiles
        have hin := htiles.inside _ List.mem_cons_self
        simp only at hin
        have happ := h.tiles.apart
        rw [List.nil_append, List.pairwise_append] at happ
        dsimp only
        rw [if_neg (by omega), wp_pure]
        refine ⟨hkeep.frame, ps, fs', top, h.keep hkeep (fun c hc => happ.2.2 _ (List.mem_map_of_mem hc)) hfree
          htiles hnFree, rfl, ?_⟩
        rw [hkeep.iCellFirst]
        exact hlist.2
    · rwa [if_neg hlist]
  rw [wp_bind, wp_get2byte (by omega), h.free.top_eq]
  by_cases hx : top % 65536 < p.iCellFirst
  · obtain rfl : top = 65536 := by omega
    rw [if_pos hx, if_pos (by omega), wp_bind, wp_pure]
    exact hrest
  · have hmod : top % 65536 = top := by omega
    rw [if_neg hx, if_neg (by omega), wp_bind, wp_pure, hmod]
    exact hrest

end Allocate

/-! ## Inserting -/

section Insert

variable {g : Geometry} {p q : RawPage} {ps : List (Nat × Cell)} {fs : List Block} {top i idx : Nat} {x : Cell}

/-- The pointers from `i` on move up, and the count in the header becomes one more. -/
theorem insertPointer_run (hi : i ≤ q.nCell) (hfit : q.iCellFirst + 2 ≤ g.usableSize) (hidx : idx < 65536) :
    wp (insertPointer g i idx) (fun _ p' => ∃ d, p' = { q with aData := d, nCell := q.nCell + 1 }
      ∧ (∀ j, (j < q.cellOffset + 2 * i ∧ j ≠ q.hdrOffset + 3 ∧ j ≠ q.hdrOffset + 4) ∨ q.iCellFirst + 2 ≤ j →
        d j = q.aData j)
      ∧ get2 d (q.cellOffset + 2 * i) = idx
      ∧ (∀ k < q.nCell - i, get2 d (q.cellOffset + 2 * i + 2 + 2 * k) = get2 q.aData (q.cellOffset + 2 * i + 2 * k))
      ∧ get2 d (q.hdrOffset + 3) = (get2 q.aData (q.hdrOffset + 3) + 1) % 65536) (fun _ _ => False) q := by
  have hco : q.hdrOffset + 8 ≤ q.cellOffset := by
    unfold cellOffset
    omega
  have hfirst : q.iCellFirst = q.cellOffset + 2 * q.nCell := rfl
  rw [insertPointer, wp_bind, wp_get]
  dsimp only
  rw [wp_bind, wp_memmove (by omega) (by omega), wp_bind, wp_put2byte (by omega), wp_bind, wp_modify, wp_bind,
    wp_pageByte (by omega)]
  dsimp only
  generalize hd2 : put2 (store q.aData (q.cellOffset + 2 * i + 2)
    (bytes q.aData (q.cellOffset + 2 * i) (2 * (q.nCell - i)))) (q.cellOffset + 2 * i) idx = d2
  have hout : ∀ j, j < q.cellOffset + 2 * i ∨ q.iCellFirst + 2 ≤ j → d2 j = q.aData j := fun j hj => by
    rw [← hd2]
    exact (put2_out (by omega)).trans (store_out (by simp; omega))
  have hnew : get2 d2 (q.cellOffset + 2 * i) = idx := by rw [← hd2, get2_put2, Nat.mod_eq_of_lt hidx]
  have hmove : ∀ k < q.nCell - i,
      get2 d2 (q.cellOffset + 2 * i + 2 + 2 * k) = get2 q.aData (q.cellOffset + 2 * i + 2 * k) := fun k hk => by
    rw [← hd2, get2_put2_out (by omega), get2_store_bytes (by omega)]
  have hend : ∀ d, (∀ j, j ≠ q.hdrOffset + 3 → j ≠ q.hdrOffset + 4 → d j = d2 j) →
      get2 d (q.hdrOffset + 3) = (get2 q.aData (q.hdrOffset + 3) + 1) % 65536 →
      ∃ d', { q with aData := d, nCell := q.nCell + 1 } = { q with aData := d', nCell := q.nCell + 1 }
      ∧ (∀ j, (j < q.cellOffset + 2 * i ∧ j ≠ q.hdrOffset + 3 ∧ j ≠ q.hdrOffset + 4) ∨ q.iCellFirst + 2 ≤ j →
        d' j = q.aData j)
      ∧ get2 d' (q.cellOffset + 2 * i) = idx
      ∧ (∀ k < q.nCell - i, get2 d' (q.cellOffset + 2 * i + 2 + 2 * k) = get2 q.aData (q.cellOffset + 2 * i + 2 * k))
      ∧ get2 d' (q.hdrOffset + 3) = (get2 q.aData (q.hdrOffset + 3) + 1) % 65536 := fun d hd hcount =>
    ⟨d, rfl, fun j hj => (hd j (by omega) (by omega)).trans (hout j (by omega)),
      (get2_congr (hd _ (by omega) (by omega)) (hd _ (by omega) (by omega))).trans hnew,
      fun k hk => (get2_congr (hd _ (by omega) (by omega)) (hd _ (by omega) (by omega))).trans (hmove k hk), hcount⟩
  have h3 := hout (q.hdrOffset + 3) (by omega)
  have h4 := hout (q.hdrOffset + 4) (by omega)
  have hlo := (q.aData (q.hdrOffset + 4)).toNat_lt
  have hhi := (q.aData (q.hdrOffset + 3)).toNat_lt
  have hold : get2 q.aData (q.hdrOffset + 3)
      = (q.aData (q.hdrOffset + 3)).toNat * 256 + (q.aData (q.hdrOffset + 4)).toNat := rfl
  rw [wp_bind, wp_putBytes (by simp; omega)]
  generalize hd3 : store d2 (q.hdrOffset + 4) [UInt8.ofNat ((d2 (q.hdrOffset + 4)).toNat + 1)] = d3
  have h3' : d3 (q.hdrOffset + 3) = q.aData (q.hdrOffset + 3) := by
    rw [← hd3]
    exact (store_out (by omega)).trans h3
  have h4' : d3 (q.hdrOffset + 3 + 1) = UInt8.ofNat ((q.aData (q.hdrOffset + 4)).toNat + 1) := by
    rw [← hd3, ← h4]
    exact store_in (j := 0) (by simp)
  have hout3 : ∀ j, j ≠ q.hdrOffset + 4 → d3 j = d2 j := fun j hj => by
    rw [← hd3]
    exact store_out (by simp; omega)
  by_cases hwrap : ((d2 (q.hdrOffset + 4)).toNat + 1) % 256 = 0
  · rw [if_pos hwrap, wp_bind, wp_pageByte (by omega), wp_putBytes (by simp; omega)]
    rw [h4] at hwrap
    have hc3 : store d3 (q.hdrOffset + 3) [UInt8.ofNat ((d3 (q.hdrOffset + 3)).toNat + 1)] (q.hdrOffset + 3)
        = UInt8.ofNat ((q.aData (q.hdrOffset + 3)).toNat + 1) := by
      rw [← h3']
      exact store_in (j := 0) (by simp)
    refine hend (store d3 (q.hdrOffset + 3) [UInt8.ofNat ((d3 (q.hdrOffset + 3)).toNat + 1)])
      (fun j h1 h2 => (store_out (by simp; omega)).trans (hout3 j h2)) ?_
    rw [get2, hc3, store_out (by simp), h4', UInt8.toNat_ofNat', UInt8.toNat_ofNat', hold]
    omega
  · rw [if_neg hwrap, wp_pure]
    rw [h4] at hwrap
    refine hend d3 (fun j _ h2 => hout3 j h2) ?_
    rw [get2, h4', h3', UInt8.toNat_ofNat', hold]
    omega

/-- A cell with its bytes in the space allocated for it takes its place in the order. -/
theorem insertPointer_wp {d : Nat → UInt8} (h : Layout g p ps [(idx, x.length)] fs top)
    (hx : LegalCell g p.leaf x) (hgap : p.iCellFirst + 2 ≤ top) (hi : i ≤ ps.length)
    (hd : ∀ j, j < idx ∨ idx + x.length ≤ j → d j = p.aData j) (hxd : bytes d idx x.length = x) :
    wp (insertPointer g i idx) (fun _ p' => Layout g p' (ps.insertIdx i (idx, x)) [] fs top ∧ Frame p p')
      (fun _ _ => False) { p with aData := d, nFree := p.nFree - ((2 + x.length : Nat) : Int) } := by
  have hco : p.hdrOffset + 8 ≤ p.cellOffset := by
    unfold cellOffset
    omega
  have hle := h.free.top_le
  have hu := g.usableSize_le
  have h4 := hx.four_le
  have hn := h.nCell
  have hin := h.tiles.inside (idx, x.length) (List.mem_append_left _ List.mem_cons_self)
  simp only at hin
  have hfirst : p.iCellFirst = p.cellOffset + 2 * p.nCell := rfl
  have hbound := h.length_le
  have hrun : wp (insertPointer g i idx) (fun _ p' => ∃ d', p' = { p with
        aData := d', nFree := p.nFree - ((2 + x.length : Nat) : Int), nCell := p.nCell + 1 }
      ∧ (∀ j, (j < p.cellOffset + 2 * i ∧ j ≠ p.hdrOffset + 3 ∧ j ≠ p.hdrOffset + 4) ∨ p.iCellFirst + 2 ≤ j →
        d' j = d j)
      ∧ get2 d' (p.cellOffset + 2 * i) = idx
      ∧ (∀ k < p.nCell - i, get2 d' (p.cellOffset + 2 * i + 2 + 2 * k) = get2 d (p.cellOffset + 2 * i + 2 * k))
      ∧ get2 d' (p.hdrOffset + 3) = (get2 d (p.hdrOffset + 3) + 1) % 65536) (fun _ _ => False)
      { p with aData := d, nFree := p.nFree - ((2 + x.length : Nat) : Int) } :=
    insertPointer_run (h.nCell ▸ hi) (hgap.trans hle) (by omega)
  refine hrun.post ?_
  rintro _ _ ⟨d', rfl, hout, hnew, hmove, hcount⟩
  have hlow : ∀ j, j < p.cellOffset + 2 * i → j ≠ p.hdrOffset + 3 → j ≠ p.hdrOffset + 4 → d' j = p.aData j :=
    fun j h1 h2 h3 => (hout j (by omega)).trans (hd j (by omega))
  have hhigh : ∀ j, top ≤ j → (j < idx ∨ idx + x.length ≤ j) → d' j = p.aData j := fun j h1 h2 =>
    (hout j (by omega)).trans (hd j h2)
  have hlen : (ps.insertIdx i (idx, x)).length = ps.length + 1 := List.length_insertIdx_of_le_length hi _
  have hperm : (ps.insertIdx i (idx, x)).Perm ((idx, x) :: ps) := List.perm_insertIdx _ _ hi
  have hcount' : get2 d' (p.hdrOffset + 3) = ps.length + 1 := by
    have hsame : get2 d (p.hdrOffset + 3) = ps.length :=
      (get2_congr (hd _ (by omega)) (hd _ (by omega))).trans h.count
    rw [hcount, hsame]
    omega
  have hptr : ∀ k c, (ps.insertIdx i (idx, x))[k]? = some c → get2 d' (p.cellOffset + 2 * k) = c.1 := by
    intro k c hk
    have hk' := (List.getElem?_eq_some_iff.1 hk).1
    rcases Nat.lt_trichotomy k i with hki | rfl | hki
    · rw [List.getElem?_insertIdx_of_lt hki] at hk
      rw [← h.pointer k c hk]
      exact get2_congr (hlow _ (by omega) (by omega) (by omega)) (hlow _ (by omega) (by omega) (by omega))
    · rw [List.getElem?_insertIdx_self, if_pos hi] at hk
      obtain rfl : (idx, x) = c := by simpa using hk
      exact hnew
    · rw [List.getElem?_insertIdx_of_gt hki] at hk
      have hold := h.pointer (k - 1) c hk
      have hmoved := hmove (k - 1 - i) (by omega)
      rw [show p.cellOffset + 2 * i + 2 + 2 * (k - 1 - i) = p.cellOffset + 2 * k by omega,
        show p.cellOffset + 2 * i + 2 * (k - 1 - i) = p.cellOffset + 2 * (k - 1) by omega] at hmoved
      rw [hmoved, ← hold]
      exact get2_congr (hd _ (by omega)) (hd _ (by omega))
  have hbody : ∀ c ∈ ps.insertIdx i (idx, x), bytes d' c.1 c.2.length = c.2 := by
    intro c hc
    rcases List.mem_cons.1 (hperm.mem_iff.1 hc) with rfl | hc
    · exact (bytes_congr fun j h1 h2 => hout j (by simp only at h1; omega)).trans hxd
    · have hcin := h.cell_inside hc
      have happ := h.tiles.head_apart (block c)
        (List.mem_append_right _ (List.mem_append_left _ (List.mem_map_of_mem hc)))
      unfold Apart at happ
      simp only [block] at happ
      exact (bytes_congr fun j h1 h2 => hhigh j (by omega) (by omega)).trans (h.body c hc)
  have hlegal : ∀ c ∈ ps.insertIdx i (idx, x), LegalCell g p.leaf c.2 := by
    intro c hc
    rcases List.mem_cons.1 (hperm.mem_iff.1 hc) with rfl | hc
    · exact hx
    · exact h.legal c hc
  have hblocks : ((ps.insertIdx i (idx, x)).map block).Perm ((idx, x.length) :: ps.map block) := hperm.map block
  have hfree : FreeList g { p with
      aData := d', nFree := p.nFree - ((2 + x.length : Nat) : Int), nCell := p.nCell + 1 } fs top := by
    have hkeep : ∀ j, p.hdrOffset < j → j < p.hdrOffset + 3 ∨ p.hdrOffset + 5 ≤ j ∧ j < p.hdrOffset + 8 →
        d' j = p.aData j := fun j h1 h2 => hlow j (by omega) (by omega) (by omega)
    refine h.free.congr rfl ?_ (get2_congr (hkeep _ (by omega) (by omega)) (hkeep _ (by omega) (by omega)))
      (get2_congr (hkeep _ (by omega) (by omega)) (hkeep _ (by omega) (by omega))) fun f hf => ?_
    · have : p.cellOffset + 2 * (p.nCell + 1) ≤ top := by omega
      exact this
    · have hfin := h.free.mem hf
      have happ := h.tiles.head_apart f (List.mem_append_right _ (List.mem_append_right _ hf))
      unfold Apart at happ
      simp only at happ
      exact ⟨get2_congr (hhigh _ (by omega) (by omega)) (hhigh _ (by omega) (by omega)),
        get2_congr (hhigh _ (by omega) (by omega)) (hhigh _ (by omega) (by omega))⟩
  have hfrag : frag { p with aData := d', nFree := p.nFree - ((2 + x.length : Nat) : Int), nCell := p.nCell + 1 }
      = frag p := congrArg UInt8.toNat (hlow (p.hdrOffset + 7) (by omega) (by omega) (by omega))
  have hflag : d' p.hdrOffset = p.aData p.hdrOffset := hlow _ (by omega) (by omega) (by omega)
  refine ⟨⟨hflag.trans h.flag, ?_, hcount'.trans hlen.symm, hptr, hbody, hlegal,
    hfree, ?_, ?_⟩, rfl, rfl, rfl, fun j hj => hlow j (by omega) (by omega) (by omega)⟩
  · exact (congrArg (· + 1) hn).trans hlen.symm
  · rw [hfrag]
    exact h.tiles.perm (List.Perm.append_right fs hblocks.symm)
  · have hnFree := h.nFree
    rw [total_perm hblocks, total_cons]
    change p.nFree - ((2 + x.length : Nat) : Int)
      + ((p.cellOffset + 2 * (p.nCell + 1) + (x.length + total (ps.map block)) : Nat) : Int) = _
    omega

/-- Overflow cells are no part of the layout. -/
theorem Layout.withOvfl {holes : List Block} {l : List (Nat × Cell)} (h : Layout g p ps holes fs top) :
    Layout g { p with ovfl := l } ps holes fs top :=
  ⟨h.flag, h.nCell, h.count, h.pointer, h.body, h.legal,
    ⟨h.free.top_eq, h.free.links, h.free.spaced, h.free.first_le, h.free.top_le⟩, h.tiles, h.nFree⟩

/-- A page with the cell at `i`. -/
structure Inserted (g : Geometry) (p : RawPage) (ps : List (Nat × Cell)) (i : Nat) (x : Cell) (p' : RawPage) : Prop where
  frame : Frame p p'
  layout : ∃ ps' fs' top', Layout g p' ps' [] fs' top' ∧ ps'.map Prod.snd = (ps.map Prod.snd).insertIdx i x

/-- The free space is less than a page, so that what an insertion takes off it is not narrowed. -/
theorem Layout.u16_eq {n : Nat} {holes : List Block} (h : Layout g p ps holes fs top) (hn : (n + 2 : Nat) ≤ p.nFree) :
    u16 (2 + n) = 2 + n := by
  have h1 := h.nFree
  have h2 := hdr_le_first p
  have h3 := g.usableSize_le
  unfold u16
  omega

theorem Allocated.insert (h : Allocated g p ps x.length idx q) (hx : LegalCell g p.leaf x) (hi : i ≤ ps.length)
    {d : Nat → UInt8} (hd : ∀ j, j < idx ∨ idx + x.length ≤ j → d j = q.aData j) (hxd : bytes d idx x.length = x) :
    wp (insertPointer g i idx) (fun _ p' => Inserted g p ps i x p') (fun _ _ => False)
      { q with aData := d, nFree := q.nFree - ((2 + x.length : Nat) : Int) } := by
  obtain ⟨ps', fs', top', h', hps, hgap⟩ := h.layout
  have hlen := congrArg List.length hps
  rw [List.length_map, List.length_map] at hlen
  refine (insertPointer_wp h' (by rwa [h.frame.leaf]) hgap (by omega) hd hxd).post fun _ p' hp' => ?_
  refine ⟨h.frame.trans hp'.2, _, _, _, hp'.1, ?_⟩
  rw [List.map_insertIdx, hps]

theorem insertCellFast_wp {tail : List UInt8} (h : Layout g p ps [] fs top) (hx : LegalCell g p.leaf x)
    (hi : i ≤ ps.length) (hfit : ¬ p.nFree < x.length + 2) :
    wp (insertCellFast g i (x ++ tail) x.length) (fun _ p' => Inserted g p ps i x p') (fun _ _ => False) p := by
  have hn : (x.length + 2 : Nat) ≤ p.nFree := by omega
  rw [insertCellFast, wp_bind, wp_get]
  rw [if_neg hfit, wp_bind]
  refine (allocateSpace_wp h hx.four_le hn).post fun idx q hq => ?_
  obtain ⟨ps', fs', top', h', -, -⟩ := hq.layout
  have hin := h'.tiles.inside (idx, x.length) (List.mem_append_left _ List.mem_cons_self)
  simp only at hin
  rw [wp_bind, wp_modify, h.u16_eq hn, List.take_left, wp_bind, wp_putBytes (by omega)]
  exact hq.insert hx hi (fun j hj => store_out (by omega)) bytes_store_self

theorem insertCell_wp {tail : List UInt8} {iChild : Nat} (h : Layout g p ps [] fs top) (h4 : 4 ≤ x.length)
    (hx : LegalCell g p.leaf (setChild iChild x)) (hi : i ≤ ps.length)
    (hfit : ¬ (p.ovfl ≠ [] ∨ p.nFree < x.length + 2)) :
    wp (insertCell g i (x ++ tail) x.length iChild) (fun _ p' => Inserted g p ps i (setChild iChild x) p')
      (fun _ _ => False) p := by
  have hlen : (setChild iChild x).length = x.length := by
    simp only [setChild, List.length_append, put4byte_length, List.length_drop]
    omega
  have hn : (x.length + 2 : Nat) ≤ p.nFree := by
    have := not_or.1 hfit
    omega
  rw [insertCell, wp_bind, wp_get]
  rw [if_neg hfit, wp_bind]
  refine (allocateSpace_wp h h4 hn).post fun idx q hq => ?_
  obtain ⟨ps', fs', top', h', -, -⟩ := hq.layout
  have hin := h'.tiles.inside (idx, x.length) (List.mem_append_left _ List.mem_cons_self)
  simp only at hin
  have hrest : ((x ++ tail).drop 4).take (x.length - 4) = x.drop 4 := by
    rw [List.drop_append_of_le_length h4, ← List.length_drop, List.take_left]
  have hrlen : (x.drop 4).length = x.length - 4 := List.length_drop
  rw [wp_bind, wp_modify, h.u16_eq hn, if_neg (by omega), hrest, wp_bind, wp_putBytes (by omega), wp_bind,
    wp_putBytes (by rw [put4byte_length]; omega)]
  have hbytes : bytes (store (store q.aData (idx + 4) (x.drop 4)) idx (put4byte iChild)) idx
      (4 + (x.drop 4).length) = setChild iChild x := by
    rw [bytes_add, ← put4byte_length iChild, bytes_store_self, bytes_store_out (by omega), put4byte_length,
      bytes_store_self, setChild]
  rw [hrlen, Nat.add_sub_cancel' h4] at hbytes
  have hdata : ∀ j, j < idx ∨ idx + x.length ≤ j →
      store (store q.aData (idx + 4) (x.drop 4)) idx (put4byte iChild) j = q.aData j := fun j hj =>
    (store_out (by rw [put4byte_length]; omega)).trans (store_out (by omega))
  rw [← hlen] at hq hbytes hdata ⊢
  exact hq.insert hx hi hdata hbytes

end Insert

/-! ## Dropping -/

section Drop

variable {g : Geometry} {p : RawPage} {ps : List (Nat × Cell)} {fs : List Block} {top idx : Nat}

/-- A page with nothing on it. -/
theorem layout_empty {q : RawPage} (hflag : q.aData q.hdrOffset = if q.leaf then 13 else 5) (hn : q.nCell = 0)
    (hfree : get2 q.aData (q.hdrOffset + 1) = 0) (hcount : get2 q.aData (q.hdrOffset + 3) = 0)
    (htop : get2 q.aData (q.hdrOffset + 5) = g.usableSize % 65536) (hfrag : frag q = 0)
    (hfit : q.cellOffset ≤ g.usableSize) (hnFree : q.nFree = g.usableSize - q.cellOffset) :
    Layout g q [] [] [] g.usableSize where
  flag := hflag
  nCell := hn
  count := hcount
  pointer i c hi := by simp at hi
  body := by simp
  legal := by simp
  free := by
    refine ⟨htop, hfree, by simp only [Spaced]; omega, ?_, le_rfl⟩
    rw [iCellFirst, hn]
    omega
  tiles := ⟨List.Pairwise.nil, by simp, by simp [hfrag]⟩
  nFree := by
    rw [iCellFirst, hn, hnFree]
    simp

theorem dropCell_wp {c : Nat × Cell} (h : Layout g p ps [] fs top) (hc : ps[idx]? = some c) :
    wp (dropCell g idx c.2.length) (fun _ p' => Frame p p'
      ∧ ∃ ps' fs' top', Layout g p' ps' [] fs' top' ∧ ps' = ps.eraseIdx idx) (fun _ _ => False) p := by
  have hidx := (List.getElem?_eq_some_iff.1 hc).1
  have hmem := List.mem_of_getElem? hc
  have hin := h.cell_inside hmem
  have hco : p.hdrOffset + 8 ≤ p.cellOffset := by
    unfold cellOffset
    omega
  have hfirst : p.cellOffset + 2 * p.nCell ≤ top := h.free.first_le
  have htop := h.free.top_le
  have hn := h.nCell
  have hperm : ps.Perm (c :: ps.eraseIdx idx) := by
    have := (List.getElem_cons_eraseIdx_perm hidx).symm
    rwa [(List.getElem?_eq_some_iff.1 hc).2] at this
  have hblocks : (ps.map block ++ fs).Perm (block c :: ((ps.eraseIdx idx).map block ++ fs)) :=
    List.Perm.append_right fs (hperm.map block)
  have hT := h.tiles.perm hblocks
  have hsub : ∀ e ∈ ps.eraseIdx idx, e ∈ ps := fun e he => hperm.mem_iff.2 (List.mem_cons_of_mem _ he)
  have hcs : ∀ b ∈ (ps.eraseIdx idx).map block, 4 ≤ b.2 :=
    List.forall_mem_map.2 fun e he => (h.legal e (hsub e he)).four_le
  rw [dropCell, wp_bind, wp_get]
  dsimp only
  rw [wp_bind, wp_get2byte (by omega), h.pointer idx c hc, if_neg (by omega), wp_bind]
  refine (freeSpace_wp h.free hT hcs hin.2.1).post ?_
  rintro _ q ⟨fs', top', hfree, htiles, hkeep, hnFree, hle⟩
  have hhdr := hkeep.hdrOffset
  have hqco := hkeep.cellOffset
  have hqn : q.nCell = ps.length := hkeep.nCell.trans hn
  have hflag : q.aData q.hdrOffset = if q.leaf then 13 else 5 := by
    rw [hhdr, hkeep.flag, h.flag, hkeep.leaf]
  have hhead := hkeep.frame.head
  have hlast : (ps.eraseIdx idx).length = ps.length - 1 := List.length_eraseIdx_of_lt hidx
  rw [wp_bind, wp_modify, wp_bind, wp_get]
  by_cases hone : q.nCell - 1 = 0
  · -- the page is left without cells
    have hnil : ps.eraseIdx idx = [] := List.eq_nil_of_length_eq_zero (by omega)
    rw [if_pos hone, wp_bind, wp_putBytes (by simp; omega), wp_bind, wp_putBytes (by simp; omega), wp_bind,
      wp_put2byte (by omega), wp_modify]
    generalize hd : put2 (store (store q.aData (p.hdrOffset + 1) [0, 0, 0, 0]) (p.hdrOffset + 7) [0])
      (p.hdrOffset + 5) g.usableSize = d
    have hout : ∀ j, j ≤ p.hdrOffset ∨ p.hdrOffset + 8 ≤ j → d j = q.aData j := fun j hj => by
      rw [← hd]
      exact (put2_out (by omega)).trans ((store_out (by simp; omega)).trans (store_out (by simp; omega)))
    have hz1 : get2 d (p.hdrOffset + 1) = 0 := by
      rw [← hd, get2_put2_out (by omega), get2_store_out (by simp)]
      simp [get2, store]
    have hz3 : get2 d (p.hdrOffset + 3) = 0 := by
      rw [← hd, get2_put2_out (by omega), get2_store_out (by simp)]
      simp [get2, store]
    have hz7 : d (p.hdrOffset + 7) = 0 := by
      rw [← hd, put2_out (by omega)]
      exact store_in (j := 0) (by simp)
    have htop5 : get2 d (p.hdrOffset + 5) = g.usableSize % 65536 := by rw [← hd, get2_put2]
    rw [← hhdr] at hz1 hz3 hz7 htop5
    have hempty := layout_empty (g := g) (q := { q with
        aData := d, nCell := q.nCell - 1, nFree := (g.usableSize : Int) - q.cellOffset })
      ((hout q.hdrOffset (by omega)).trans hflag) hone hz1 hz3 htop5 (congrArg UInt8.toNat hz7) (by
        change q.cellOffset ≤ _
        omega) rfl
    exact ⟨hkeep.frame.trans ⟨rfl, rfl, rfl, fun j hj => hout j (by omega)⟩, _, _, _, hempty, hnil.symm⟩
  · rw [if_neg hone, wp_bind, wp_memmove (by dsimp only; omega) (by dsimp only; omega), wp_bind, wp_put2byte (by omega),
      wp_modify]
    dsimp only
    generalize hd : put2 (store q.aData (p.cellOffset + 2 * idx) (bytes q.aData (p.cellOffset + 2 * idx + 2)
      (2 * (q.nCell - 1 - idx)))) (p.hdrOffset + 3) (q.nCell - 1) = d
    have hout : ∀ j, j < p.cellOffset + 2 * idx ∨ p.cellOffset + 2 * (q.nCell - 1) ≤ j → j ≠ p.hdrOffset + 3 →
        j ≠ p.hdrOffset + 4 → d j = q.aData j := fun j h1 h2 h3 => by
      rw [← hd]
      exact (put2_out (by omega)).trans (store_out (by simp; omega))
    have hmove : ∀ k < q.nCell - 1 - idx,
        get2 d (p.cellOffset + 2 * idx + 2 * k) = get2 q.aData (p.cellOffset + 2 * idx + 2 + 2 * k) := fun k hk => by
      rw [← hd, get2_put2_out (by omega), get2_store_bytes (by omega)]
    have hcount : get2 d (p.hdrOffset + 3) = (ps.eraseIdx idx).length := by
      have := h.length_le
      rw [← hd, get2_put2, Nat.mod_eq_of_lt (by have := g.usableSize_le; omega)]
      omega
    have hptr : ∀ k e, (ps.eraseIdx idx)[k]? = some e → get2 d (p.cellOffset + 2 * k) = e.1 := by
      intro k e hk
      have hk' := (List.getElem?_eq_some_iff.1 hk).1
      rcases Nat.lt_or_ge k idx with hki | hki
      · rw [List.getElem?_eraseIdx_of_lt hki] at hk
        rw [← h.pointer k e hk, ← hkeep.pointer (by omega)]
        exact get2_congr (hout _ (by omega) (by omega) (by omega)) (hout _ (by omega) (by omega) (by omega))
      · rw [List.getElem?_eraseIdx_of_ge hki] at hk
        have hmoved := hmove (k - idx) (by omega)
        rw [show p.cellOffset + 2 * idx + 2 * (k - idx) = p.cellOffset + 2 * k by omega,
          show p.cellOffset + 2 * idx + 2 + 2 * (k - idx) = p.cellOffset + 2 * (k + 1) by omega] at hmoved
        rw [hmoved, hkeep.pointer (by omega), h.pointer (k + 1) e hk]
    have hbody : ∀ e ∈ ps.eraseIdx idx, bytes d e.1 e.2.length = e.2 := by
      intro e he
      have hein := h.cell_inside (hsub e he)
      have happ : ∀ b ∈ block c :: fs, Apart (block e) b := by
        have := hT.apart
        rw [← List.cons_append, List.pairwise_append] at this
        refine List.forall_mem_cons.2 ⟨?_, this.2.2 _ (List.mem_cons_of_mem _ (List.mem_map_of_mem he))⟩
        exact (hT.head_apart _ (List.mem_append_left _ (List.mem_map_of_mem he))).symm
      refine (bytes_congr fun j h1 _ => hout j (by omega) (by omega) (by omega)).trans ?_
      exact (hkeep.bytes hein.1 happ).trans (h.body e (hsub e he))
    have hflag' : d q.hdrOffset = q.aData q.hdrOffset := hout _ (by omega) (by omega) (by omega)
    have hfree' : FreeList g { q with aData := d, nCell := q.nCell - 1, nFree := q.nFree + 2 } fs' top' := by
      refine hfree.congr rfl ?_ ?_ ?_ fun f hf => ?_
      · change q.cellOffset + 2 * (q.nCell - 1) ≤ top'
        omega
      · exact get2_congr (hout _ (by omega) (by omega) (by omega)) (hout _ (by omega) (by omega) (by omega))
      · exact get2_congr (hout _ (by omega) (by omega) (by omega)) (hout _ (by omega) (by omega) (by omega))
      · have := hfree.mem hf
        exact ⟨get2_congr (hout _ (by omega) (by omega) (by omega)) (hout _ (by omega) (by omega) (by omega)),
          get2_congr (hout _ (by omega) (by omega) (by omega)) (hout _ (by omega) (by omega) (by omega))⟩
    have hfrag : frag { q with aData := d, nCell := q.nCell - 1, nFree := q.nFree + 2 } = frag q :=
      congrArg UInt8.toNat (hout (q.hdrOffset + 7) (by omega) (by omega) (by omega))
    refine ⟨hkeep.frame.trans ⟨rfl, rfl, rfl, fun j hj => hout j (by omega) (by omega) (by omega)⟩, _, fs', top',
      ⟨hflag'.trans hflag, ?_, ?_, ?_, hbody, ?_, hfree', ?_, ?_⟩, rfl⟩
    · change q.nCell - 1 = _
      omega
    · change get2 d (q.hdrOffset + 3) = _
      rwa [hhdr]
    · change ∀ k e, (ps.eraseIdx idx)[k]? = some e → get2 d (q.cellOffset + 2 * k) = e.1
      rwa [hqco]
    · change ∀ e ∈ ps.eraseIdx idx, LegalCell g q.leaf e.2
      rw [hkeep.leaf]
      exact fun e he => h.legal e (hsub e he)
    · rw [hfrag]
      exact htiles
    · have h1 := h.nFree
      have h2 := total_perm hblocks
      simp only [total_append, total_cons, block] at h2
      change q.nFree + 2 + ((q.cellOffset + 2 * (q.nCell - 1) + total ((ps.eraseIdx idx).map block) : Nat) : Int) = _
      have hpf : p.iCellFirst = p.cellOffset + 2 * p.nCell := rfl
      omega

end Drop

/-! ## Edits of the list of cells -/

/-- The page without the places of its cells. -/
def memPage (g : Geometry) (p : RawPage) : MemPage where
  leaf := p.leaf
  cells := cells g p
  right := if p.leaf then 0 else get4byte (bytes p.aData (p.hdrOffset + 8) 4)
  ovfl := p.ovfl

/-- The page is well formed, and its cells with those it has no room for are `l`. -/
def Lists (g : Geometry) (l : List Cell) (p : RawPage) : Prop := WellFormed g p ∧ (memPage g p).allCells = l

section Edits

variable {g : Geometry} {p : RawPage}

theorem insertIdx_split {α : Type} {l : List α} {i : Nat} {x : α} (hi : i ≤ l.length) :
    ∃ a b, l = a ++ b ∧ a.length = i ∧ l.insertIdx i x = a ++ x :: b := by
  refine ⟨l.take i, l.drop i, (List.take_append_drop i l).symm, List.length_take_of_le hi, ?_⟩
  have h := MemPage.insertIdx_append_cons (l.take i) (l.drop i) x
  rwa [List.take_append_drop, List.length_take_of_le hi] at h

theorem Inserted.lists {ps : List (Nat × Cell)} {fs : List Block} {top i : Nat} {x : Cell} {p' : RawPage}
    (h : Layout g p ps [] fs top) (hovfl : p.ovfl = []) (hp' : Inserted g p ps i x p') :
    Lists g ((memPage g p).allCells.insertIdx i x) p' ∧ p'.ovfl = [] := by
  obtain ⟨ps', fs', top', h', hps⟩ := hp'.layout
  have hovfl' : p'.ovfl = [] := hp'.frame.ovfl.trans hovfl
  refine ⟨⟨⟨ps', fs', top', h'⟩, ?_⟩, hovfl'⟩
  rw [MemPage.allCells_of_ovfl_nil hovfl', MemPage.allCells_of_ovfl_nil hovfl]
  change cells g p' = (cells g p).insertIdx i x
  rw [h'.cells_eq, h.cells_eq, hps]

theorem overflow_lists {ps : List (Nat × Cell)} {fs : List Block} {top i : Nat} {x : Cell}
    (h : Layout g p ps [] fs top) (hat : (memPage g p).OvflAt i) (hi : i ≤ (memPage g p).allCells.length) :
    Lists g ((memPage g p).allCells.insertIdx i x) { p with ovfl := p.ovfl ++ [(i, x)] } := by
  obtain ⟨a, b, hab, ha, hins⟩ := insertIdx_split (x := x) hi
  refine ⟨⟨ps, fs, top, h.withOvfl⟩, ?_⟩
  rw [hins]
  exact MemPage.overflow_allCells (p := memPage g p) hat hab ha

/-- On a well-formed page every insertion puts the cell at its index, on the page if it has room for the
cell and its pointer, and every removal takes out the one cell; no other cell changes or moves in the
order. -/
theorem edits_are_list_edits (h : WellFormed g p) :
    (∀ i x tail iChild, (memPage g p).OvflAt i → i ≤ (memPage g p).allCells.length → 4 ≤ x.length →
      LegalCell g p.leaf (setChild iChild x) →
      wp (insertCell g i (x ++ tail) x.length iChild) (fun _ p' =>
        Lists g ((memPage g p).allCells.insertIdx i (setChild iChild x)) p'
        ∧ (p.ovfl = [] → x.length + 2 ≤ p.nFree → p'.ovfl = [])) (fun _ _ => False) p)
    ∧ (∀ i x tail, p.ovfl = [] → i ≤ p.nCell → LegalCell g p.leaf x →
      wp (insertCellFast g i (x ++ tail) x.length) (fun _ p' =>
        Lists g ((memPage g p).allCells.insertIdx i x) p' ∧ (x.length + 2 ≤ p.nFree → p'.ovfl = []))
        (fun _ _ => False) p)
    ∧ ∀ i < p.nCell, wp (dropCell g i (cellAt g p i).length) (fun _ p' =>
        WellFormed g p' ∧ cells g p' = (cells g p).eraseIdx i ∧ p'.ovfl = p.ovfl) (fun _ _ => False) p := by
  obtain ⟨ps, fs, top, hp⟩ := h
  refine ⟨fun i x tail iChild hat hi h4 hx => ?_, fun i x tail hovfl hi hx => ?_, fun i hi => ?_⟩
  · by_cases hfit : p.ovfl ≠ [] ∨ p.nFree < x.length + 2
    · have hdrop : ((x ++ tail).drop 4).take (x.length - 4) = x.drop 4 := by
        rw [List.drop_append_of_le_length h4, ← List.length_drop, List.take_left]
      rw [insertCell, wp_bind, wp_get, if_pos hfit, wp_modify, hdrop]
      refine ⟨overflow_lists hp hat hi, fun h1 h2 => ?_⟩
      have := hfit.resolve_left (by simp [h1])
      omega
    · have hovfl : p.ovfl = [] := not_not.1 (not_or.1 hfit).1
      have hlen : i ≤ ps.length := by
        rw [MemPage.allCells_of_ovfl_nil hovfl, memPage, hp.cells_eq, List.length_map] at hi
        exact hi
      refine (insertCell_wp hp h4 hx hlen hfit).post fun _ p' hp' => ?_
      have hres := hp'.lists hp hovfl
      exact ⟨hres.1, fun _ _ => hres.2⟩
  · by_cases hfit : p.nFree < x.length + 2
    · rw [insertCellFast, wp_bind, wp_get, if_pos hfit, wp_modify, List.take_left]
      refine ⟨overflow_lists hp (MemPage.ovflAt_of_nil hovfl i) ?_, fun h2 => by omega⟩
      rw [MemPage.allCells_of_ovfl_nil hovfl, memPage, hp.cells_eq, List.length_map, ← hp.nCell]
      exact hi
    · refine (insertCellFast_wp hp hx (hp.nCell ▸ hi) hfit).post fun _ p' hp' => ?_
      have hres := hp'.lists hp hovfl
      exact ⟨hres.1, fun _ => hres.2⟩
  · have hi' : i < ps.length := hp.nCell ▸ hi
    have hc := List.getElem?_eq_getElem hi'
    rw [hp.cellAt_eq hc]
    refine (dropCell_wp hp hc).post ?_
    rintro _ p' ⟨hframe, ps', fs', top', h', rfl⟩
    refine ⟨⟨_, fs', top', h'⟩, ?_, hframe.ovfl⟩
    rw [h'.cells_eq, hp.cells_eq, List.eraseIdx_map]

theorem edits_are_list_edits_smallLeaf :
    wp (insertCell smallPages 0 ([0, 0, 0, 0] ++ []) 4 0) (fun _ p' =>
        Lists smallPages ((memPage smallPages smallLeaf).allCells.insertIdx 0 [0, 0, 0, 0]) p'
        ∧ (smallLeaf.ovfl = [] → (4 : Nat) + 2 ≤ smallLeaf.nFree → p'.ovfl = [])) (fun _ _ => False) smallLeaf
    ∧ wp (insertCellFast smallPages 1 ([0, 0, 0, 0] ++ []) 4) (fun _ p' =>
        Lists smallPages ((memPage smallPages smallLeaf).allCells.insertIdx 1 [0, 0, 0, 0]) p'
        ∧ ((4 : Nat) + 2 ≤ smallLeaf.nFree → p'.ovfl = [])) (fun _ _ => False) smallLeaf
    ∧ wp (dropCell smallPages 0 (cellAt smallPages smallLeaf 0).length) (fun _ p' => WellFormed smallPages p'
        ∧ cells smallPages p' = (cells smallPages smallLeaf).eraseIdx 0 ∧ p'.ovfl = smallLeaf.ovfl)
        (fun _ _ => False) smallLeaf :=
  ⟨(edits_are_list_edits smallLeaf_wellFormed).1 0 [0, 0, 0, 0] [] 0 (MemPage.ovflAt_of_nil rfl 0) (Nat.zero_le _)
      le_rfl legal_zeros,
    (edits_are_list_edits smallLeaf_wellFormed).2.1 1 [0, 0, 0, 0] [] rfl le_rfl legal_zeros,
    (edits_are_list_edits smallLeaf_wellFormed).2.2 0 Nat.one_pos⟩

end Edits

end RawPage

end Btreelite
