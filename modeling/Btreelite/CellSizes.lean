import Btreelite.Overflow
import Btreelite.Page

/-!
# The sizes of cells

Every cell the code builds has room on an empty page, and no size of it is changed by a narrowing
store. On bytes the code has not built, the parser of leaf cells and the function that only sizes
them can differ: one brings the size to at least four after it is narrowed, the other before.
-/

namespace Btreelite

open Prog

/-! ## Sizing any bytes -/

section Agree

variable (g : Geometry) (pCell : List UInt8)

/-- The size of a leaf cell with a local value, before it is narrowed to 16 bits. -/
def localExtent : Nat :=
  let (nValue, n1) := getVarint32 pCell
  let (nKeyLen, n2) := getVarint32 (pCell.drop n1)
  u32 (nValue + (n1 + n2 + nKeyLen))

/-- A leaf cell with a local value whose size narrows to less than the least size of a cell. -/
def NarrowsBelowFour : Prop :=
  (getVarint32 pCell).1 ≤ g.maxLocal ∧ 2 ^ 16 ≤ localExtent pCell ∧ u16 (localExtent pCell) < 4

theorem kvCellSizeLeaf_local (h : (getVarint32 pCell).1 ≤ g.maxLocal) :
    kvCellSizeLeaf g pCell = u16 (max 4 (localExtent pCell)) := by
  simp only [kvCellSizeLeaf, if_pos h, localExtent]
  congr 1
  split_ifs <;> omega

theorem kvParseCellLeaf_nSize_local (h : (getVarint32 pCell).1 ≤ g.maxLocal) :
    (kvParseCellLeaf g pCell).nSize = max 4 (u16 (localExtent pCell)) := by
  simp only [kvParseCellLeaf, if_pos h, localExtent]
  split_ifs <;> omega

theorem kvCellSizeLeaf_eq_of_spill (h : g.maxLocal < (getVarint32 pCell).1) :
    kvCellSizeLeaf g pCell = (kvParseCellLeaf g pCell).nSize := by
  have hmn := g.minLocal_lt_maxLocal
  have hm := g.maxLocal_eq
  have hu := g.usableSize_le
  simp only [kvCellSizeLeaf, kvParseCellLeaf, if_neg (Nat.not_le.2 h),
    btreeParseCellAdjustSizeForOverflow, u16]
  split_ifs <;> omega

theorem kvParseCellLeaf_adjust (h : g.maxLocal < (getVarint32 pCell).1) :
    btreeParseCellAdjustSizeForOverflow g (kvParseCellLeaf g pCell).pPayload
        (kvParseCellLeaf g pCell).nPayload
      = ((kvParseCellLeaf g pCell).nLocal, (kvParseCellLeaf g pCell).nSize) := by
  simp only [kvParseCellLeaf, if_neg (Nat.not_le.2 h)]

theorem kvCellSizeInterior_eq :
    kvCellSizeInterior pCell = (kvParseCellInterior pCell).nSize := by
  simp only [kvCellSizeInterior, kvParseCellInterior, u16, u32]
  omega

/-- The size function and the parser agree on every cell but those whose size narrows below four. -/
theorem xCellSize_eq_iff (leaf : Bool) :
    xCellSize g leaf pCell = (xParseCell g leaf pCell).nSize
      ↔ ¬ (leaf = true ∧ NarrowsBelowFour g pCell) := by
  cases leaf with
  | false => simpa [xCellSize, xParseCell] using kvCellSizeInterior_eq pCell
  | true =>
    simp only [xCellSize, xParseCell, if_true, true_and]
    rcases Nat.lt_or_ge g.maxLocal (getVarint32 pCell).1 with h | h
    · have : ¬ NarrowsBelowFour g pCell := fun hn => absurd hn.1 (Nat.not_le.2 h)
      simpa [this] using kvCellSizeLeaf_eq_of_spill g pCell h
    · rw [kvCellSizeLeaf_local g pCell h, kvParseCellLeaf_nSize_local g pCell h]
      simp only [NarrowsBelowFour, h, true_and, u16]
      omega

end Agree

/-- A leaf cell with an empty value and a key said to have 65532 bytes. -/
theorem kvCellSizeLeaf_ne_nSize :
    kvCellSizeLeaf smallPages [0, 0x83, 0xFF, 0x7C] = 0
      ∧ (kvParseCellLeaf smallPages [0, 0x83, 0xFF, 0x7C]).nSize = 4 := by
  decide

/-! ## The cells the code builds -/

/-- `aData` after `zeroPage`: a page without cells. -/
def emptyPage (leaf : Bool) (right : Nat) : MemPage := { leaf, cells := [], right, ovfl := [] }

/-- A cell of `size` bytes and its pointer have room on a page with nothing but its header. -/
structure FitsEmptyPage (g : Geometry) (leaf : Bool) (size : Nat) : Prop where
  four_le : 4 ≤ size
  le_usableSize : size + 2 + (if leaf then 8 else 12) ≤ g.usableSize

/-- `insertCell` puts the cell on an empty page, which is not over-full after it. -/
def EmptyPageTakes (g : Geometry) (leaf : Bool) (cell : Cell) : Prop :=
  ∀ right, ((emptyPage leaf right).insertCell g 0 cell).allCells = [cell]
    ∧ ((emptyPage leaf right).insertCell g 0 cell).ovfl = []
    ∧ 0 ≤ ((emptyPage leaf right).insertCell g 0 cell).nFree g

namespace FitsEmptyPage

variable {g : Geometry} {leaf : Bool} {size : Nat} {cell : Btreelite.Cell}

theorem lt_two_pow (h : FitsEmptyPage g leaf size) : size < 2 ^ 16 := by
  have h1 := h.le_usableSize
  have h2 := g.usableSize_le
  split_ifs at h1 <;> omega

/-- An empty page takes the cell and is not over-full after it. -/
theorem takes (h : FitsEmptyPage g leaf cell.length) (hs : xCellSize g leaf cell = cell.length) :
    EmptyPageTakes g leaf cell := by
  intro right
  have h1 := h.le_usableSize
  have hfree : (emptyPage leaf right).nFree g = g.usableSize - (if leaf then 8 else 12) := by
    cases leaf <;> simp [MemPage.nFree, emptyPage]
  have hfit : ¬ ((emptyPage leaf right).ovfl ≠ [] ∨
      (emptyPage leaf right).nFree g < cell.length + 2) := by
    rw [hfree]
    simp only [emptyPage, ne_eq, not_true_eq_false, false_or, not_lt]
    split_ifs at h1 ⊢ <;> omega
  refine ⟨?_, by rw [MemPage.insertCell, if_neg hfit]; rfl,
    MemPage.insertCell_nFree (by rw [hfree]; split_ifs at h1 ⊢ <;> omega) hs⟩
  exact MemPage.insertCell_allCells (a := []) (b := []) (MemPage.ovflAt_of_nil rfl _) rfl rfl

end FitsEmptyPage

section Built

variable {g : Geometry} {key : Key} {value : List UInt8}

/-- What the parser says of a leaf cell with key `key` and `n` bytes of value: no field was changed
when it was stored, and the cell has room on an empty page. -/
structure LeafSizes (g : Geometry) (key : Key) (n : Nat) (info : CellInfo) : Prop where
  nLocal : info.nLocal = localSize g n
  nSize : info.nSize
    = max 4 ((kvHeader key n).length + localSize g n + if n ≤ g.maxLocal then 0 else 4)
  spill : g.maxLocal < n → g.minLocal ≤ info.nLocal ∧ info.nLocal ≤ g.maxLocal
    ∧ btreeParseCellAdjustSizeForOverflow g info.pPayload n = (info.nLocal, info.nSize)
  fits : FitsEmptyPage g true info.nSize

theorem leafSizes {n : Nat} (hk : key.length ≤ 255) (hn : n < 2 ^ 31) (rest : List UInt8) :
    LeafSizes g key n (kvParseCellLeaf g (kvHeader key n ++ rest)) := by
  have h1 := kvHeader_length_le hk hn
  have h2 := localSize_le (g := g) n
  have h3 := g.maxLocal_eq
  have h4 := g.usable_ge
  have hfits : FitsEmptyPage g true
      (max 4 ((kvHeader key n).length + localSize g n + if n ≤ g.maxLocal then 0 else 4)) := by
    simp only [Geometry.kvCellMaxHdr] at h1
    refine ⟨le_max_left _ _, ?_⟩
    simp only [if_true]
    split_ifs <;> omega
  rcases Nat.lt_or_ge g.maxLocal n with hl | hl
  · rw [if_neg (Nat.not_le.2 hl)] at hfits
    have hsize : (kvHeader key n).length + localSize g n + 4
        = max 4 ((kvHeader key n).length + localSize g n + 4) := by omega
    have hval : (getVarint32 (kvHeader key n ++ rest)).1 = n := by
      rw [(getVarint32_kvHeader hk hn rest).1]
    have hadj := kvParseCellLeaf_adjust g (kvHeader key n ++ rest) (by rwa [hval])
    rw [kvParseCellLeaf_spill hk hn hl] at hadj ⊢
    exact ⟨rfl, by rw [if_neg (Nat.not_le.2 hl)]; exact hsize,
      fun _ => ⟨minLocal_le_localSize hl, h2, hadj⟩, by rw [hsize]; exact hfits⟩
  · rw [if_pos hl] at hfits
    rw [kvParseCellLeaf_local hk hn hl]
    have hloc : localSize g n = n := by rw [localSize, if_pos hl]
    rw [hloc] at hfits
    exact ⟨hloc.symm, by rw [if_pos hl, hloc]; rfl, fun h => absurd hl (Nat.not_le.2 h), hfits⟩

theorem fitsEmptyPage_interior (child : Nat) (hk : key.length ≤ 255) :
    FitsEmptyPage g false (kvInteriorCell child key).length := by
  have h1 := @kvInteriorCell_length_le child key hk
  have h2 := g.usable_ge
  refine ⟨?_, by simp; omega⟩
  simp only [kvInteriorCell, List.length_append, put4byte_length]
  omega

/-- What `fillInCell` builds is a leaf cell of the size it reports, whichever page its value spills
to. -/
theorem fillInCell_wp (hk : key.length ≤ 255) (hv : value.length < 2 ^ 31) (s : BtShared) :
    wp (fillInCell g key value)
      (fun c _ => (∃ rest, c.1 = kvHeader key value.length ++ rest) ∧ c.1.length = c.2
        ∧ c.2 = (kvParseCellLeaf g c.1).nSize) (fun _ _ => True) s := by
  have hsizes := fun rest => @leafSizes g key _ hk hv rest
  unfold fillInCell
  refine wp_ite.2 ⟨fun hl => ?_, fun hl => ?_⟩
  · have hcell : kvLeafCell g key value.length value 0
        = kvHeader key value.length ++ (value ++ List.replicate
          (4 - (kvHeader key value.length ++ value).length) 0) := if_pos hl
    have hloc : localSize g value.length = value.length := by rw [localSize, if_pos hl]
    refine wp_pure.2 ⟨⟨_, hcell⟩, ?_, ?_⟩
    · rw [hcell]
      simp only [List.length_append, List.length_replicate]
      split_ifs <;> omega
    · rw [hcell, (hsizes _).nSize, if_pos hl, hloc]
      simp only []
      split_ifs <;> omega
  · have hspill := localSize_spill (Nat.lt_of_not_le hl)
    simp only [← hspill]
    refine wp_bind.2 (wp.true.post fun p s1 _ => ?_)
    refine wp_bind.2 (wp.true.post fun _ s2 _ => ?_)
    refine wp_bind.2 (wp.true.post fun _ s3 _ => ?_)
    have hcell : kvLeafCell g key value.length (value.take (localSize g value.length)) p
        = kvHeader key value.length ++ (value.take (localSize g value.length) ++ put4byte p) :=
      if_neg hl
    have hle := localSize_le_self (g := g) value.length
    refine wp_pure.2 ⟨⟨_, hcell⟩, ?_, ?_⟩
    · rw [hcell]
      simp only [List.length_append, List.length_take_of_le hle, put4byte_length]
      omega
    · rw [hcell, (hsizes _).nSize, if_neg hl]
      simp only []
      omega

/-- The limits of a geometry are the ones meant: no store of `lockBtree` or `decodeFlags` narrows
them. -/
theorem Geometry.limits_eq (g : Geometry) : g.maxLeaf = g.usableSize - 35
    ∧ g.minLeaf = (g.usableSize - 12) * 32 / 255 - 23 ∧ g.maxLocal = g.usableSize - 283
    ∧ g.minLocal < g.maxLocal := by
  have h1 := g.usable_ge
  have h2 := g.usableSize_le
  refine ⟨?_, g.minLocal_eq, g.maxLocal_eq, g.minLocal_lt_maxLocal⟩
  simp only [Geometry.maxLeaf, u16]
  omega

/-- Every leaf cell, and every cell `fillInCell` builds, keeps between `minLocal` and `maxLocal`
bytes of a value that spills, has at least four bytes, loses nothing of a size to a `u16`, and has
room on an empty page. So has every interior cell. -/
theorem legal_cells_fit (g : Geometry) {key : Key} (hk : key.length ≤ 255) :
    (∀ n < 2 ^ 31, ∀ rest, LeafSizes g key n (kvParseCellLeaf g (kvHeader key n ++ rest))
      ∧ kvCellSizeLeaf g (kvHeader key n ++ rest)
        = (kvParseCellLeaf g (kvHeader key n ++ rest)).nSize)
    ∧ (∀ value : List UInt8, value.length < 2 ^ 31 → ∀ s, wp (fillInCell g key value)
      (fun c _ => LeafSizes g key value.length (kvParseCellLeaf g c.1)
        ∧ c.2 = (kvParseCellLeaf g c.1).nSize ∧ c.2 = c.1.length ∧ EmptyPageTakes g true c.1)
      (fun _ _ => True) s)
    ∧ (∀ child rest, (kvParseCellInterior (kvInteriorCell child key ++ rest)).nSize
        = 4 + (putVarint32 key.length).length + key.length
      ∧ kvCellSizeInterior (kvInteriorCell child key ++ rest)
        = 4 + (putVarint32 key.length).length + key.length
      ∧ FitsEmptyPage g false (4 + (putVarint32 key.length).length + key.length)
      ∧ EmptyPageTakes g false (kvInteriorCell child key))
    ∧ g.maxLeaf = g.usableSize - 35 ∧ g.minLeaf = (g.usableSize - 12) * 32 / 255 - 23
    ∧ g.maxLocal = g.usableSize - 283 ∧ g.minLocal < g.maxLocal := by
  refine ⟨fun n hn rest => ⟨leafSizes hk hn rest, kvCellSizeLeaf_header hk hn rest⟩,
    fun value hv s => (fillInCell_wp hk hv s).post ?_, fun child rest => ?_, g.limits_eq⟩
  · intro c _ hc
    obtain ⟨⟨rest, hrest⟩, hlen, hsize⟩ := hc
    have h := @leafSizes g key _ hk hv rest
    have hs := kvCellSizeLeaf_header (g := g) hk hv rest
    rw [← hrest] at h hs
    refine ⟨h, hsize, hlen.symm, FitsEmptyPage.takes ?_ ?_⟩
    · rw [hlen, hsize]
      exact h.fits
    · rw [hlen, hsize]
      exact hs
  · have hlen : (kvInteriorCell child key).length
        = 4 + (putVarint32 key.length).length + key.length := by
      simp only [kvInteriorCell, List.length_append, put4byte_length]
    have hfits := fitsEmptyPage_interior (g := g) child hk
    have hnSize : (kvParseCellInterior (kvInteriorCell child key ++ rest)).nSize
        = 4 + (putVarint32 key.length).length + key.length := by
      rw [kvParseCellInterior_cell hk rest, ← hlen]
    refine ⟨hnSize, by rw [kvCellSizeInterior_eq, hnSize], by rwa [hlen] at hfits,
      hfits.takes (kvInteriorCell_size hk)⟩

/-- A value of 300 bytes under a key of three, on pages of 512. -/
theorem legal_cells_fit_small :
    LeafSizes smallPages [1, 2, 3] 300 (kvParseCellLeaf smallPages (kvHeader [1, 2, 3] 300)) := by
  have h := ((@legal_cells_fit smallPages [1, 2, 3] (by decide)).1 300 (by decide) []).1
  rwa [List.append_nil] at h

end Built

end Btreelite
