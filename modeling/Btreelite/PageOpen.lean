import Btreelite.PageEdits

/-!
# Well-formed pages when they are made and opened

`zeroPage` makes a well-formed page, and `btreeInitPage` with `btreeComputeFreeSpace` finds the fields of a
well-formed page again from its bytes. In the terms of pages without places, an insertion and a removal on
a page other than page 1 are the insertion and the removal of `MemPage`.
-/

namespace Btreelite

namespace RawPage

open Prog ByteBuffer Tiling

section Open

variable {g : Geometry} {p : RawPage} {ps : List (Nat × Cell)} {fs : List Block} {top : Nat}

theorem zeroPage_wp {leaf : Bool} (h : p.hdrOffset + 12 ≤ g.usableSize) :
    wp (zeroPage g leaf) (fun _ p' => Layout g p' [] [] [] g.usableSize ∧ p'.leaf = leaf ∧ p'.ovfl = []
      ∧ p'.hdrOffset = p.hdrOffset) (fun _ _ => False) p := by
  have hu := g.usableSize_le
  rw [zeroPage, wp_bind, wp_get]
  dsimp only
  rw [wp_bind, wp_putBytes (by simp; omega), wp_bind, wp_putBytes (by simp; omega), wp_bind,
    wp_putBytes (by simp; omega), wp_bind, wp_put2byte (by omega), wp_modify]
  dsimp only
  generalize hd : put2 (store (store (store p.aData p.hdrOffset [if leaf then 13 else 5]) (p.hdrOffset + 1)
    [0, 0, 0, 0]) (p.hdrOffset + 7) [0]) (p.hdrOffset + 5) g.usableSize = d
  have hflag : d p.hdrOffset = if leaf then 13 else 5 := by
    rw [← hd, put2_out (by omega), store_out (by simp), store_out (by simp)]
    exact store_in (j := 0) (by simp)
  have hz1 : get2 d (p.hdrOffset + 1) = 0 := by
    rw [← hd, get2_put2_out (by omega), get2_store_out (by simp)]
    simp [get2, store]
  have hz3 : get2 d (p.hdrOffset + 3) = 0 := by
    rw [← hd, get2_put2_out (by omega), get2_store_out (by simp)]
    simp [get2, store]
  have hz7 : d (p.hdrOffset + 7) = 0 := by
    rw [← hd, put2_out (by omega)]
    exact store_in (j := 0) (by simp)
  have hz5 : get2 d (p.hdrOffset + 5) = g.usableSize % 65536 := by rw [← hd, get2_put2]
  refine ⟨layout_empty hflag rfl hz1 hz3 hz5 (congrArg UInt8.toNat hz7) ?_ ?_, rfl, rfl, rfl⟩
  · change p.hdrOffset + 8 + (if leaf then 0 else 4) ≤ _
    split_ifs <;> omega
  · change ((u16 (g.usableSize - (p.hdrOffset + if leaf then 8 else 12)) : Nat) : Int)
      = g.usableSize - ((p.hdrOffset + 8 + (if leaf then 0 else 4) : Nat) : Int)
    unfold u16
    split_ifs <;> omega

/-- The loop, from the free block `f` on. -/
theorem sumFreeBlocks_wp {f : Block} {lo n fuel : Nat} (hn : Nodes p.aData (f :: fs))
    (hs : Spaced lo (f :: fs) (g.usableSize + 4)) (hf : fs.length < fuel) :
    wp (sumFreeBlocks g n fuel f.1) (fun r p' => r = n + total (f :: fs) ∧ p' = p) (fun _ _ => False) p := by
  induction fuel generalizing fs f lo n with
  | zero => omega
  | succ fuel ih =>
    have hu := g.usable_ge
    obtain ⟨h1, h4, h2⟩ := hs
    obtain ⟨hsize, hl⟩ := hn
    have hle := h2.le
    rw [sumFreeBlocks, if_neg (by omega), wp_bind, wp_get2byte (by omega), hl.head, wp_bind,
      wp_get2byte (by omega), hsize, if_neg (by omega)]
    cases fs with
    | nil =>
      rw [headPtr, if_pos (by omega), if_neg (by omega), if_neg (by omega), wp_pure]
      exact ⟨by simp, rfl⟩
    | cons e fs =>
      have he := h2.1
      rw [headPtr, if_neg (by omega)]
      refine (ih hl.2 h2 (by simpa using hf)).post fun r p' hr => ?_
      exact ⟨by rw [hr.1, total_cons (b := f)]; omega, hr.2⟩

/-- The free bytes of a well-formed page are what its header, its cell pointers and its cells leave. -/
theorem btreeComputeFreeSpace_wp {q : RawPage} (h : Layout g p ps [] fs top) (hq : p = { q with nFree := p.nFree }) :
    wp (btreeComputeFreeSpace g) (fun _ p' => p' = p) (fun _ _ => False) q := by
  have hu := g.usable_ge
  have hule := g.usableSize_le
  have hh := h.free.hdr_lt_usable
  have hlo := h.free.hdr_lt
  have hle := h.free.top_le
  have hlen := h.free.spaced.length_le
  have hfirst := h.free.first_le
  have hsum := h.tiles.sum
  have hnFree := h.nFree
  rw [List.nil_append, total_append, frag] at hsum
  have hdata : q.aData = p.aData := by rw [hq]
  have hhdr : q.hdrOffset = p.hdrOffset := by rw [hq]
  have hcell : q.iCellFirst = p.iCellFirst := by rw [hq]; rfl
  have htop : (if top % 65536 = 0 then 65536 else top % 65536) = top := by
    split_ifs <;> omega
  rw [btreeComputeFreeSpace, wp_bind, wp_get]
  dsimp only
  rw [hhdr, wp_bind, wp_get2byteNotZero (by omega), hdata, h.free.top_eq, htop, wp_bind, wp_get2byte (by omega), hdata,
    h.free.links.head, wp_bind, wp_pageByte (by omega), hdata]
  have hend : ∀ n, n = (p.aData (p.hdrOffset + 7)).toNat + top + total fs →
      wp (if g.usableSize < n ∨ n < q.iCellFirst then throw PageErr.corrupt
        else modify fun p => { p with nFree := u16 (n - p.iCellFirst) } : PageM Unit) (fun _ p' => p' = p)
        (fun _ _ => False) q := by
    rintro _ rfl
    have hval : ((u16 ((p.aData (p.hdrOffset + 7)).toNat + top + total fs - q.iCellFirst) : Nat) : Int) = p.nFree := by
      have := hdr_le_first p
      rw [hcell, u16, Nat.mod_eq_of_lt (by omega)]
      omega
    rw [if_neg (by omega), wp_modify]
    exact (congrArg (fun y => { q with nFree := y }) hval).trans hq.symm
  cases fs with
  | nil =>
    rw [headPtr, if_neg (by simp), wp_bind, wp_pure]
    exact hend _ (by simp)
  | cons f fs =>
    have hf := h.free.mem (f := f) (by simp)
    rw [List.length_cons] at hlen
    rw [headPtr, if_pos (by omega), if_neg (by omega), wp_bind]
    have hnodes : Nodes q.aData (f :: fs) := hdata ▸ (links_iff.1 h.free.links).2
    refine (sumFreeBlocks_wp hnodes h.free.spaced (by omega)).post ?_
    rintro _ _ ⟨rfl, rfl⟩
    exact hend _ rfl

theorem btreeInitPage_wp (h : Layout g p ps [] fs top) (leaf : Bool) (n : Nat) (x : Int) (l : List (Nat × Cell)) :
    wp (btreeInitPage g) (fun _ p' => p' = { p with nFree := -1, ovfl := [] }) (fun _ _ => False)
      { p with leaf, nCell := n, nFree := x, ovfl := l } := by
  have hh := h.free.hdr_lt_usable
  have hmx : ¬ mxCell g < ps.length := by
    have h1 := h.length_le
    have h2 := g.usable_le
    have h3 : 8 ≤ p.cellOffset := by
      unfold cellOffset
      omega
    unfold mxCell
    omega
  have hflag : (p.aData p.hdrOffset).toNat = if p.leaf then 13 else 5 := by
    rw [h.flag]
    split_ifs <;> rfl
  rw [btreeInitPage, wp_bind, wp_get]
  dsimp only
  rw [wp_bind, wp_pageByte (by omega)]
  dsimp only
  by_cases hl : p.leaf = true
  · rw [hflag, if_pos hl, if_pos rfl, wp_bind, wp_modify, wp_bind, wp_get2byte (by omega), wp_bind, wp_modify]
    dsimp only
    rw [h.count, if_neg hmx, wp_modify]
    simp [hl, h.nCell]
  · rw [hflag, if_neg hl, if_neg (by simp), if_pos rfl, wp_bind, wp_modify, wp_bind, wp_get2byte (by omega), wp_bind,
      wp_modify]
    dsimp only
    rw [h.count, if_neg hmx, wp_modify]
    simp [hl, h.nCell]

/-- Opening a well-formed page finds its fields again, whatever they were before. -/
theorem open_wp (h : Layout g p ps [] fs top) (hovfl : p.ovfl = []) (leaf : Bool) (n : Nat) (x : Int)
    (l : List (Nat × Cell)) :
    wp (do btreeInitPage g; btreeComputeFreeSpace g) (fun _ p' => p' = p) (fun _ _ => False)
      { p with leaf, nCell := n, nFree := x, ovfl := l } := by
  rw [wp_bind]
  refine (btreeInitPage_wp h leaf n x l).post ?_
  rintro _ _ rfl
  exact btreeComputeFreeSpace_wp h (by rw [← hovfl])

end Open

/-! ## Pages without places -/

section Places

variable {g : Geometry} {p p' : RawPage} {ps : List (Nat × Cell)} {fs : List Block} {top i : Nat} {x : Cell}

@[simp] theorem memPage_ovfl : (memPage g p).ovfl = p.ovfl := rfl

theorem Layout.memPage_nFree (h : Layout g p ps [] fs top) (h0 : p.hdrOffset = 0) : (memPage g p).nFree g = p.nFree := by
  have hsum : ∀ l : List (Nat × Cell), (∀ c ∈ l, LegalCell g p.leaf c.2) →
      ((l.map Prod.snd).map fun c => 2 + xCellSize g p.leaf c).sum = 2 * l.length + total (l.map block) := by
    intro l hl
    induction l with
    | nil => rfl
    | cons c l ih =>
      obtain ⟨h1, h2⟩ := List.forall_mem_cons.1 hl
      have hsize := h1.size []
      rw [List.append_nil] at hsize
      have hrec := ih h2
      simp only [List.map_cons, List.sum_cons, total_cons, block, List.length_cons, hsize] at hrec ⊢
      omega
  have h1 := hsum ps h.legal
  have h2 := h.nFree
  have h3 := h.nCell
  simp only [MemPage.nFree, memPage, h.cells_eq, h1]
  unfold iCellFirst cellOffset childPtrSize at h2
  split_ifs at h2 ⊢ <;> omega

theorem Frame.right (h : Frame p p') (hl : p.leaf = false) :
    bytes p'.aData (p'.hdrOffset + 8) 4 = bytes p.aData (p.hdrOffset + 8) 4 := by
  rw [h.hdrOffset]
  refine bytes_congr fun j h1 h2 => h.head j (Or.inr ⟨h1, ?_⟩)
  rw [RawPage.cellOffset, childPtrSize, if_neg (by simp [hl])]
  exact h2

/-- Where only cells have changed, the page without places has the new cells. -/
theorem Frame.memPage (h : Frame p p') : memPage g p' = { memPage g p with cells := cells g p' } := by
  have hright : (if p'.leaf then 0 else get4byte (bytes p'.aData (p'.hdrOffset + 8) 4))
      = if p.leaf then 0 else get4byte (bytes p.aData (p.hdrOffset + 8) 4) := by
    rw [h.leaf]
    by_cases hl : p.leaf = true
    · rw [if_pos hl, if_pos hl]
    · rw [if_neg hl, if_neg hl, h.right (by simpa using hl)]
  rw [RawPage.memPage, RawPage.memPage, hright, h.leaf, h.ovfl]

theorem Inserted.memPage (h : Layout g p ps [] fs top) (h0 : p.hdrOffset = 0)
    (hfit : ¬ (p.ovfl ≠ [] ∨ p.nFree < x.length + 2)) (hp' : Inserted g p ps i x p') :
    memPage g p' = (memPage g p).insertCell g i x := by
  obtain ⟨ps', fs', top', h', hps⟩ := hp'.layout
  rw [← h.memPage_nFree h0] at hfit
  rw [MemPage.insertCell, memPage_ovfl, if_neg hfit, hp'.frame.memPage, h'.cells_eq, hps, ← h.cells_eq]
  rfl

/-- What `insertCell` does on a page other than page 1 is an insertion into a page without places. -/
theorem insertCell_memPage {tail : List UInt8} {iChild : Nat} (h : WellFormed g p) (h0 : p.hdrOffset = 0)
    (hi : i ≤ p.nCell) (h4 : 4 ≤ x.length) (hx : LegalCell g p.leaf (setChild iChild x)) :
    wp (insertCell g i (x ++ tail) x.length iChild)
      (fun _ p' => memPage g p' = (memPage g p).insertCell g i (setChild iChild x)) (fun _ _ => False) p := by
  obtain ⟨ps, fs, top, hp⟩ := h
  have hlen : (setChild iChild x).length = x.length := by
    simp only [setChild, List.length_append, put4byte_length, List.length_drop]
    omega
  by_cases hfit : p.ovfl ≠ [] ∨ p.nFree < x.length + 2
  · have hdrop : ((x ++ tail).drop 4).take (x.length - 4) = x.drop 4 := by
      rw [List.drop_append_of_le_length h4, ← List.length_drop, List.take_left]
    rw [insertCell, wp_bind, wp_get, if_pos hfit, wp_modify, hdrop]
    rw [← hp.memPage_nFree h0, ← hlen] at hfit
    rw [MemPage.insertCell, memPage_ovfl, if_pos hfit]
    rfl
  · refine (insertCell_wp hp h4 hx (hp.nCell ▸ hi) hfit).post fun _ p' hp' => ?_
    exact hp'.memPage hp h0 (by rwa [hlen])

theorem insertCellFast_memPage {tail : List UInt8} (h : WellFormed g p) (h0 : p.hdrOffset = 0)
    (hovfl : p.ovfl = []) (hi : i ≤ p.nCell) (hx : LegalCell g p.leaf x) :
    wp (insertCellFast g i (x ++ tail) x.length) (fun _ p' => memPage g p' = (memPage g p).insertCell g i x)
      (fun _ _ => False) p := by
  obtain ⟨ps, fs, top, hp⟩ := h
  by_cases hfit : p.nFree < x.length + 2
  · rw [insertCellFast, wp_bind, wp_get, if_pos hfit, wp_modify, List.take_left]
    rw [← hp.memPage_nFree h0] at hfit
    rw [MemPage.insertCell, if_pos (Or.inr hfit)]
    rfl
  · refine (insertCellFast_wp hp hx (hp.nCell ▸ hi) hfit).post fun _ p' hp' => ?_
    exact hp'.memPage hp h0 (by simp [hovfl, hfit])

theorem dropCell_memPage (h : WellFormed g p) (hi : i < p.nCell) :
    wp (dropCell g i (cellAt g p i).length) (fun _ p' => memPage g p' = (memPage g p).dropCell i)
      (fun _ _ => False) p := by
  obtain ⟨ps, fs, top, hp⟩ := h
  have hc := List.getElem?_eq_getElem (hp.nCell ▸ hi : i < ps.length)
  rw [hp.cellAt_eq hc]
  refine (dropCell_wp hp hc).post ?_
  rintro _ p' ⟨hframe, ps', fs', top', h', rfl⟩
  rw [hframe.memPage, h'.cells_eq, ← List.eraseIdx_map, ← hp.cells_eq]
  rfl

end Places

end RawPage

end Btreelite
