import Btreelite.CellSizes
import Btreelite.PageBlocks

/-!
# Where the cells of a page stand

A well-formed page holds its cells and its free blocks apart from each other in the cell content area, and
the bytes in neither of them are counted as fragments. The cell pointers give the order of the cells.
-/

namespace Btreelite

namespace RawPage

open Prog ByteBuffer Tiling

/-- The size of the cell is found from its own bytes, whatever follows them. -/
structure LegalCell (g : Geometry) (leaf : Bool) (c : Cell) : Prop where
  four_le : 4 ≤ c.length
  size : ∀ tail, xCellSize g leaf (c ++ tail) = c.length
  header : ∀ tail, cellHeader leaf (c ++ tail) ≤ c.length

section Legal

variable {g : Geometry}

theorem legal_leaf {key : Key} {n : Nat} {loc : List UInt8} {ovfl : Nat} (h : LeafParts g key n loc ovfl) :
    LegalCell g true (kvLeafCell g key n loc ovfl) where
  four_le := LeafParts.four_le_length
  size tail := by
    obtain ⟨r, h1, -, -⟩ := h.cell_eq
    have hsize := @kvCellSizeLeaf_header g key n h.key_le h.n_lt (loc ++ r ++ tail)
    rw [← List.append_assoc, ← h1, h.parse_append, h.parse_length] at hsize
    exact hsize
  header tail := by
    obtain ⟨r, h1, -, -⟩ := h.cell_eq
    obtain ⟨h2, h3⟩ := getVarint32_kvHeader h.key_le h.n_lt (loc ++ r ++ tail)
    rw [← List.append_assoc, ← h1] at h2 h3
    rw [cellHeader, if_pos rfl]
    simp only [h2, h3]
    simp only [h1, kvHeader, List.length_append]
    omega

theorem legal_interior {c : Cell} (h : IsDivider c) : LegalCell g false c := by
  obtain ⟨child, key, -, hk, rfl⟩ := h
  have hparse := fun rest => @kvParseCellInterior_cell child key hk rest
  refine ⟨(fitsEmptyPage_interior (g := g) child hk).four_le, fun tail => ?_, fun tail => ?_⟩
  · change kvCellSizeInterior _ = _
    rw [kvCellSizeInterior_eq, hparse]
  · have := congrArg CellInfo.pKey (hparse tail)
    simp only [kvParseCellInterior] at this
    rw [cellHeader, if_neg (by simp), this]
    simp only [kvInteriorCell, List.length_append, put4byte_length]
    omega

/-- The child pointer of a divider is no part of what gives its size. -/
theorem LegalCell.setChild {c : Cell} (h : LegalCell g false c) (child : Nat) :
    LegalCell g false (setChild child c) := by
  have h4 := h.four_le
  have hlen : (Btreelite.setChild child c).length = c.length := by
    simp only [Btreelite.setChild, List.length_append, put4byte_length, List.length_drop]
    omega
  have hdrop : ∀ tail, (Btreelite.setChild child c ++ tail).drop 4 = (c ++ tail).drop 4 := fun tail => by
    rw [Btreelite.setChild, List.append_assoc, List.drop_left' (put4byte_length _), List.drop_append_of_le_length h4]
  refine ⟨by rwa [hlen], fun tail => ?_, fun tail => ?_⟩
  · rw [hlen, ← h.size tail]
    simp only [xCellSize, Bool.false_eq_true, if_false, kvCellSizeInterior, hdrop]
  · rw [hlen]
    have := h.header tail
    simpa only [cellHeader, Bool.false_eq_true, if_false, hdrop] using this

end Legal

/-- The block a cell takes on its page. -/
def block (c : Nat × Cell) : Block := (c.1, c.2.length)

/-- The page has the cells `ps` with their places, blocks `holes` that no cell has been put into yet, and the
free blocks `fs`; its cell content area begins at `top`. -/
structure Layout (g : Geometry) (p : RawPage) (ps : List (Nat × Cell)) (holes fs : List Block) (top : Nat) :
    Prop where
  flag : p.aData p.hdrOffset = if p.leaf then 13 else 5
  nCell : p.nCell = ps.length
  count : get2 p.aData (p.hdrOffset + 3) = ps.length
  pointer : ∀ i c, ps[i]? = some c → get2 p.aData (p.cellOffset + 2 * i) = c.1
  body : ∀ c ∈ ps, bytes p.aData c.1 c.2.length = c.2
  legal : ∀ c ∈ ps, LegalCell g p.leaf c.2
  free : FreeList g p fs top
  tiles : Tiles top g.usableSize (holes ++ (ps.map block ++ fs)) (frag p)
  nFree : p.nFree + (p.iCellFirst + total (ps.map block) : Nat) = g.usableSize

/-- Cells and free blocks cover the cell content area but for the fragments. -/
def WellFormed (g : Geometry) (p : RawPage) : Prop := ∃ ps fs top, Layout g p ps [] fs top

section Kept

variable {p p' : RawPage} {top i n q : Nat} {bs : List Block}

/-- The cell pointers stand before the gap. -/
theorem Keeps.pointer (h : Keeps p p' top bs) (hi : i < p.nCell) :
    get2 p'.aData (p.cellOffset + 2 * i) = get2 p.aData (p.cellOffset + 2 * i) := by
  have hfirst : p.cellOffset + 2 * i + 2 ≤ p.iCellFirst := by
    unfold RawPage.iCellFirst
    omega
  have hcell : p.hdrOffset + 8 ≤ p.cellOffset := by
    unfold cellOffset
    omega
  exact get2_congr (h.head _ (by omega) (by omega)) (h.head _ (by omega) (by omega))

theorem Keeps.count (h : Keeps p p' top bs) :
    get2 p'.aData (p.hdrOffset + 3) = get2 p.aData (p.hdrOffset + 3) := by
  have := hdr_le_first p
  exact get2_congr (h.head _ (by omega) (by omega)) (h.head _ (by omega) (by omega))

theorem Keeps.flag (h : Keeps p p' top bs) : p'.aData p.hdrOffset = p.aData p.hdrOffset := by
  have := hdr_le_first p
  exact h.head _ (by omega) (by omega)

theorem Keeps.cellOffset (h : Keeps p p' top bs) : p'.cellOffset = p.cellOffset := by
  rw [RawPage.cellOffset, RawPage.cellOffset, childPtrSize, childPtrSize, h.hdrOffset, h.leaf]

/-- A cell apart from the blocks keeps its bytes. -/
theorem Keeps.bytes (h : Keeps p p' top bs) (hq : top ≤ q) (hbs : ∀ b ∈ bs, Apart (q, n) b) :
    ByteBuffer.bytes p'.aData q n = ByteBuffer.bytes p.aData q n := by
  refine bytes_congr fun j h1 h2 => h.body j (by omega) fun b hb => ?_
  have := hbs b hb
  unfold Apart at this
  simp only at this
  omega

end Kept

namespace Layout

variable {g : Geometry} {p p' : RawPage} {ps : List (Nat × Cell)} {holes holes' fs fs' bs : List Block}
  {top top' : Nat}

theorem cell_inside (h : Layout g p ps holes fs top) {c : Nat × Cell} (hc : c ∈ ps) :
    top ≤ c.1 ∧ 4 ≤ c.2.length ∧ c.1 + c.2.length ≤ g.usableSize := by
  have h1 := h.tiles.inside (block c)
    (List.mem_append_right _ (List.mem_append_left _ (List.mem_map_of_mem hc)))
  have h2 := (h.legal c hc).four_le
  simp only [block] at h1
  omega

theorem cells_four_le (h : Layout g p ps holes fs top) : ∀ b ∈ ps.map block, 4 ≤ b.2 :=
  List.forall_mem_map.2 fun c hc => (h.legal c hc).four_le

/-- A function that keeps the cells changes only the free space. -/
theorem keep (h : Layout g p ps holes fs top) (hk : Keeps p p' top bs)
    (hbs : ∀ c ∈ ps, ∀ b ∈ bs, Apart (block c) b) (hfree : FreeList g p' fs' top')
    (htiles : Tiles top' g.usableSize (holes' ++ (ps.map block ++ fs')) (frag p'))
    (hn : p'.nFree = p.nFree) : Layout g p' ps holes' fs' top' where
  flag := by rw [hk.hdrOffset, hk.flag, hk.leaf, h.flag]
  nCell := hk.nCell.trans h.nCell
  count := by rw [hk.hdrOffset, hk.count, h.count]
  pointer i c hi := by
    have hlt : i < p.nCell := by
      rw [h.nCell]
      exact (List.getElem?_eq_some_iff.1 hi).1
    rw [hk.cellOffset, hk.pointer hlt, h.pointer i c hi]
  body c hc := by rw [hk.bytes (h.cell_inside hc).1 (hbs c hc), h.body c hc]
  legal c hc := by
    rw [hk.leaf]
    exact h.legal c hc
  free := hfree
  tiles := htiles
  nFree := by rw [hk.iCellFirst, hn, h.nFree]

/-- The number of cells fits in its field. -/
theorem length_le (h : Layout g p ps holes fs top) : p.cellOffset + 6 * ps.length ≤ g.usableSize := by
  have hsum : ∀ l : List (Nat × Cell), (∀ c ∈ l, LegalCell g p.leaf c.2) → 4 * l.length ≤ total (l.map block) := by
    intro l hl
    induction l with
    | nil => simp
    | cons c l ih =>
      obtain ⟨h1, h2⟩ := List.forall_mem_cons.1 hl
      have := ih h2
      have := h1.four_le
      simp only [List.map_cons, total_cons, block, List.length_cons]
      omega
  have h1 := hsum ps h.legal
  have h2 := h.tiles.sum
  have h3 := h.free.first_le
  have h4 := h.nCell
  simp only [total_append] at h2
  unfold iCellFirst at h3
  omega

end Layout

/-! ## Reading the cells -/

section Reading

variable {g : Geometry} {p : RawPage} {ps : List (Nat × Cell)} {holes fs : List Block} {top : Nat}

/-- The mask of the cell pointers takes nothing off an offset within the page. -/
theorem and_mask {n x : Nat} (hpow : (n - 1) &&& n = 0) (hx : x < n) : x &&& (n - 1) = x := by
  obtain ⟨k, rfl⟩ := (Nat.and_sub_one_eq_zero_iff_isPowerOfTwo (by omega)).1 (Nat.and_comm _ _ ▸ hpow)
  rw [Nat.and_two_pow_sub_one_eq_mod, Nat.mod_eq_of_lt hx]

/-- The memory from a cell on begins with the cell. -/
theorem cellMemory_eq {src : Nat → UInt8} {c : Nat × Cell} (hc : c.1 + c.2.length ≤ g.usableSize)
    (hb : bytes src c.1 c.2.length = c.2) : ∃ tail, cellMemory g src c.1 = c.2 ++ tail := by
  have hu := g.usable_le
  have hlen : g.pageSize + 8 - c.1 = c.2.length + (g.pageSize + 8 - c.1 - c.2.length) := by omega
  exact ⟨_, by rw [cellMemory, hlen, bytes_add, hb]⟩

theorem Layout.findCell_eq (h : Layout g p ps holes fs top) {i : Nat} {c : Nat × Cell} (hi : ps[i]? = some c) :
    findCell g p i = c.1 := by
  have hc := h.cell_inside (List.mem_of_getElem? hi)
  have hu := g.usable_le
  rw [findCell, h.pointer i c hi]
  exact and_mask g.pow2 (by omega)

theorem Layout.cellAt_eq (h : Layout g p ps holes fs top) {i : Nat} {c : Nat × Cell} (hi : ps[i]? = some c) :
    cellAt g p i = c.2 := by
  have hmem := List.mem_of_getElem? hi
  obtain ⟨tail, ht⟩ := cellMemory_eq (h.cell_inside hmem).2.2 (h.body c hmem)
  rw [cellAt, h.findCell_eq hi, ht, (h.legal c hmem).size, h.body c hmem]

theorem Layout.cells_eq (h : Layout g p ps holes fs top) : cells g p = ps.map Prod.snd := by
  refine List.ext_getElem? fun i => ?_
  rw [cells, h.nCell, List.getElem?_map, List.getElem?_map]
  rcases Nat.lt_or_ge i ps.length with hi | hi
  · rw [List.getElem?_range hi, List.getElem?_eq_getElem hi]
    exact congrArg some (h.cellAt_eq (List.getElem?_eq_getElem hi))
  · rw [List.getElem?_eq_none (by simpa using hi), List.getElem?_eq_none hi]
    rfl

end Reading

/-! ## A small page -/

/-- A leaf with a cell, and a free block behind it. -/
def smallLeaf : RawPage where
  aData := store (store (fun _ => 0) 0 [13, 1, 248, 0, 1, 1, 244, 0, 1, 244]) 504 [0, 0, 0, 8]
  aTemp := fun _ => 0
  leaf := true
  hdrOffset := 0
  nCell := 1
  nFree := 498
  ovfl := []

theorem legal_zeros : LegalCell smallPages true [0, 0, 0, 0] := by
  have h : LegalCell smallPages true (kvLeafCell smallPages [] 0 [] 0) := legal_leaf
    ⟨by decide, by decide, by decide, by decide⟩
  rwa [show kvLeafCell smallPages [] 0 [] 0 = [0, 0, 0, 0] by decide] at h

theorem smallLeaf_wellFormed : WellFormed smallPages smallLeaf := by
  refine ⟨[(500, [0, 0, 0, 0])], [(504, 8)], 500, by decide, rfl, by decide, fun i c hi => ?_, by decide, ?_, ?_, ?_, rfl⟩
  · cases i with
    | zero =>
      obtain rfl : (500, [0, 0, 0, 0]) = c := by simpa using hi
      decide
    | succ i => simp at hi
  · exact List.forall_mem_cons.2 ⟨legal_zeros, by simp⟩
  · have hend : get2 smallLeaf.aData 504 = 0 := by decide
    exact ⟨by decide, ⟨by decide, by decide, hend⟩, ⟨by decide, by decide, le_rfl⟩, by decide, by decide⟩
  · exact ⟨by simp [block, Apart], by decide, by decide⟩

end RawPage

end Btreelite
