import Btreelite.Pager
import Btreelite.Varint

/-!
# Page geometry and KV cells

A cell is its bytes. A leaf cell is `[varint nValue][varint nKeyLen][key][value][ovfl?]`, an
interior cell `[4-byte child][varint nKeyLen][key]`. A parser is given the memory from the cell's
first byte on and records offsets into it where the source records pointers.
-/

namespace Btreelite

abbrev Key := List UInt8

/-- A `u16` after a narrowing store. -/
def u16 (x : Nat) : Nat := x % 2 ^ 16

/-- The page sizes of a database: what `lockBtree` requires of page 1. -/
structure Geometry where
  pageSize : Nat
  usableSize : Nat
  pow2 : (pageSize - 1) &&& pageSize = 0
  pageSize_gt : 256 < pageSize
  pageSize_le : pageSize ≤ 65536
  usable_le : usableSize ≤ pageSize
  reserve_le : pageSize - usableSize ≤ 255
  usable_ge : 480 ≤ usableSize

namespace Geometry

variable (g : Geometry)

/-- `pBt->maxLeaf`. -/
def maxLeaf : Nat := u16 (g.usableSize - 35)

/-- `pBt->minLeaf`. -/
def minLeaf : Nat := u16 ((g.usableSize - 12) * 32 / 255 - 23)

def kvCellMaxHdr : Nat := 5 + 2 + 255
def kvCellHdrOverage : Nat := kvCellMaxHdr - 14

/-- `pPage->maxLocal` of a KV leaf. -/
def maxLocal : Nat := g.maxLeaf - kvCellHdrOverage

/-- `pPage->minLocal` of a KV leaf. -/
def minLocal : Nat := g.minLeaf

theorem usableSize_le : g.usableSize ≤ 65536 := g.usable_le.trans g.pageSize_le

theorem maxLocal_eq : g.maxLocal = g.usableSize - 283 := by
  have h1 := g.usable_ge
  have h2 := g.usableSize_le
  simp only [maxLocal, maxLeaf, u16, kvCellHdrOverage, kvCellMaxHdr]
  omega

theorem minLocal_eq : g.minLocal = (g.usableSize - 12) * 32 / 255 - 23 := by
  have h1 := g.usable_ge
  have h2 := g.usableSize_le
  simp only [minLocal, minLeaf, u16]
  omega

theorem minLocal_lt_maxLocal : g.minLocal < g.maxLocal := by
  have h1 := g.usable_ge
  rw [minLocal_eq, maxLocal_eq]
  omega

end Geometry

/-- The smallest pages, without reserved bytes. -/
def smallPages : Geometry where
  pageSize := 512
  usableSize := 512
  pow2 := by decide
  pageSize_gt := by decide
  pageSize_le := by decide
  usable_le := by decide
  reserve_le := by decide
  usable_ge := by decide

/-- `CellInfo`; `pKey` and `pPayload` are offsets from the start of the cell. -/
structure CellInfo where
  nKey : Nat
  pKey : Nat
  nKeyLen : Nat
  pPayload : Nat
  nPayload : Nat
  nLocal : Nat
  nSize : Nat
deriving DecidableEq, Repr

section Parsers

variable (g : Geometry)

/-- `btreeParseCellAdjustSizeForOverflow`, for a value of `nPayload` bytes at offset `pPayload`:
the new `nLocal` and `nSize`. -/
def btreeParseCellAdjustSizeForOverflow (pPayload nPayload : Nat) : Nat × Nat :=
  let surplus := g.minLocal + (nPayload - g.minLocal) % (g.usableSize - 4)
  let nLocal := if surplus ≤ g.maxLocal then u16 surplus else u16 g.minLocal
  (nLocal, u16 (u16 (pPayload + nLocal) + 4))

def kvParseCellLeaf (pCell : List UInt8) : CellInfo :=
  let (nValue, n1) := getVarint32 pCell
  let (nKeyLen, n2) := getVarint32 (pCell.drop n1)
  let pKey := n1 + n2
  let pIter := pKey + nKeyLen
  if nValue ≤ g.maxLocal then
    let nSize := u16 (u32 (nValue + pIter))
    { nKey := nKeyLen, pKey, nKeyLen, pPayload := pIter, nPayload := nValue,
      nLocal := u16 nValue, nSize := if nSize < 4 then 4 else nSize }
  else
    let (nLocal, nSize) := btreeParseCellAdjustSizeForOverflow g pIter nValue
    { nKey := nKeyLen, pKey, nKeyLen, pPayload := pIter, nPayload := nValue, nLocal, nSize }

def kvParseCellInterior (pCell : List UInt8) : CellInfo :=
  let (nKeyLen, n) := getVarint32 (pCell.drop 4)
  { nKey := nKeyLen, pKey := 4 + n, nKeyLen, pPayload := 0, nPayload := 0, nLocal := 0,
    nSize := u16 (u32 (4 + n + nKeyLen)) }

def kvCellSizeLeaf (pCell : List UInt8) : Nat :=
  let (nSize, n1) := getVarint32 pCell
  let (nKeyLen, n2) := getVarint32 (pCell.drop n1)
  let pIter := n1 + n2 + nKeyLen
  if nSize ≤ g.maxLocal then
    let nSize := u32 (nSize + pIter)
    u16 (if nSize < 4 then 4 else nSize)
  else
    let n := g.minLocal + (nSize - g.minLocal) % (g.usableSize - 4)
    let n := if n > g.maxLocal then g.minLocal else n
    u16 (n + (4 + u16 pIter))

def kvCellSizeInterior (pCell : List UInt8) : Nat :=
  let (nKeyLen, n) := getVarint32 (pCell.drop 4)
  u16 (4 + u16 n + u16 nKeyLen)

/-- `pPage->xParseCell`. -/
def xParseCell (leaf : Bool) (pCell : List UInt8) : CellInfo :=
  if leaf then kvParseCellLeaf g pCell else kvParseCellInterior pCell

/-- `pPage->xCellSize`. -/
def xCellSize (leaf : Bool) (pCell : List UInt8) : Nat :=
  if leaf then kvCellSizeLeaf g pCell else kvCellSizeInterior pCell

end Parsers

/-- The key bytes a parsed cell points at. -/
def CellInfo.keyOf (info : CellInfo) (pCell : List UInt8) : Key :=
  (pCell.drop info.pKey).take info.nKeyLen

/-! ## The cells the code builds -/

section Built

variable (g : Geometry)

/-- The varints and the key a KV leaf cell starts with. -/
def kvHeader (key : Key) (nPayload : Nat) : List UInt8 :=
  putVarint32 nPayload ++ putVarint32 key.length ++ key

/-- How many of `nPayload` value bytes stay in the cell. -/
def localSize (nPayload : Nat) : Nat :=
  if nPayload ≤ g.maxLocal then nPayload
  else
    let n := g.minLocal + (nPayload - g.minLocal) % (g.usableSize - 4)
    if n > g.maxLocal then g.minLocal else n

/-- A KV leaf cell: the header, the local part `loc` of an `n`-byte value, then either padding up
to four bytes or the number of the first overflow page. -/
def kvLeafCell (key : Key) (n : Nat) (loc : List UInt8) (ovfl : Nat) : List UInt8 :=
  if n ≤ g.maxLocal then
    kvHeader key n ++ (loc ++ List.replicate (4 - (kvHeader key n ++ loc).length) 0)
  else kvHeader key n ++ (loc ++ put4byte ovfl)

/-- What the parts of a leaf cell satisfy in a cell the code has built. -/
structure LeafParts (key : Key) (n : Nat) (loc : List UInt8) (ovfl : Nat) : Prop where
  key_le : key.length ≤ 255
  n_lt : n < 2 ^ 31
  loc_length : loc.length = localSize g n
  ovfl_lt : ovfl < 2 ^ 32

/-- The divider `[4-byte child][varint nKeyLen][key]`. -/
def kvInteriorCell (child : Nat) (key : Key) : List UInt8 :=
  put4byte child ++ putVarint32 key.length ++ key

variable {g}

theorem localSize_spill {n : Nat} (h : g.maxLocal < n) :
    localSize g n = if g.minLocal + (n - g.minLocal) % (g.usableSize - 4) > g.maxLocal
      then g.minLocal else g.minLocal + (n - g.minLocal) % (g.usableSize - 4) := by
  rw [localSize, if_neg (by omega)]

theorem localSize_le (n : Nat) : localSize g n ≤ g.maxLocal := by
  have h := g.minLocal_lt_maxLocal
  unfold localSize
  dsimp only
  split_ifs <;> omega

theorem localSize_le_self (n : Nat) : localSize g n ≤ n := by
  have h := g.minLocal_lt_maxLocal
  have h1 := Nat.mod_le (n - g.minLocal) (g.usableSize - 4)
  unfold localSize
  dsimp only
  split_ifs <;> omega

theorem localSize_lt {n : Nat} (h : g.maxLocal < n) : localSize g n < n :=
  (localSize_le n).trans_lt h

theorem minLocal_le_localSize {n : Nat} (h : g.maxLocal < n) : g.minLocal ≤ localSize g n := by
  unfold localSize
  rw [if_neg (by omega)]
  dsimp only
  split_ifs <;> omega

theorem kvHeader_length_le {key : Key} {n : Nat} (hk : key.length ≤ 255) (hn : n < 2 ^ 31) :
    (kvHeader key n).length ≤ Geometry.kvCellMaxHdr := by
  have h1 := putVarint32_length_le (v := n) (by omega)
  have h2 := putVarint32_length_of_lt (v := key.length) (by omega)
  simp only [kvHeader, List.length_append, h2, Geometry.kvCellMaxHdr]
  split_ifs <;> omega

theorem two_le_kvHeader_length {key : Key} {n : Nat} (hk : key.length ≤ 255) (hn : n < 2 ^ 31) :
    2 ≤ (kvHeader key n).length := by
  have h1 := putVarint32_length_pos n (by omega)
  have h2 := putVarint32_length_pos key.length (by omega)
  simp only [kvHeader, List.length_append]
  omega

/-- A parser given a header finds the value length, the key and where the value starts. -/
theorem getVarint32_kvHeader {key : Key} {n : Nat} (hk : key.length ≤ 255) (hn : n < 2 ^ 31)
    (rest : List UInt8) :
    getVarint32 (kvHeader key n ++ rest) = (n, (putVarint32 n).length) ∧
    getVarint32 ((kvHeader key n ++ rest).drop (putVarint32 n).length)
      = (key.length, (putVarint32 key.length).length) := by
  simp only [kvHeader, List.append_assoc, List.drop_left]
  exact ⟨getVarint32_putVarint32 (by omega) _, getVarint32_putVarint32 (by omega) _⟩

theorem kvParseCellLeaf_local {key : Key} {n : Nat} (hk : key.length ≤ 255) (hn : n < 2 ^ 31)
    (hl : n ≤ g.maxLocal) (rest : List UInt8) :
    kvParseCellLeaf g (kvHeader key n ++ rest) =
      { nKey := key.length, pKey := (kvHeader key n).length - key.length, nKeyLen := key.length,
        pPayload := (kvHeader key n).length, nPayload := n, nLocal := n,
        nSize := max 4 ((kvHeader key n).length + n) } := by
  obtain ⟨h1, h2⟩ := getVarint32_kvHeader hk hn rest
  have hle := kvHeader_length_le hk hn
  have hu := g.usableSize_le
  have hge := g.usable_ge
  have hm := g.maxLocal_eq
  have hlen : (kvHeader key n).length
      = (putVarint32 n).length + (putVarint32 key.length).length + key.length := by
    simp [kvHeader]
    omega
  simp only [Geometry.kvCellMaxHdr] at hle
  simp only [kvParseCellLeaf, h1, h2, if_pos hl, u16, u32, CellInfo.mk.injEq, true_and]
  refine ⟨by omega, by omega, by omega, ?_⟩
  · split_ifs <;> omega

theorem kvParseCellLeaf_spill {key : Key} {n : Nat} (hk : key.length ≤ 255) (hn : n < 2 ^ 31)
    (hl : g.maxLocal < n) (rest : List UInt8) :
    kvParseCellLeaf g (kvHeader key n ++ rest) =
      { nKey := key.length, pKey := (kvHeader key n).length - key.length, nKeyLen := key.length,
        pPayload := (kvHeader key n).length, nPayload := n, nLocal := localSize g n,
        nSize := (kvHeader key n).length + localSize g n + 4 } := by
  obtain ⟨h1, h2⟩ := getVarint32_kvHeader hk hn rest
  have hle := kvHeader_length_le hk hn
  have hu := g.usableSize_le
  have hge := g.usable_ge
  have hm := g.maxLocal_eq
  have hmn := g.minLocal_lt_maxLocal
  have hlen : (kvHeader key n).length
      = (putVarint32 n).length + (putVarint32 key.length).length + key.length := by
    simp [kvHeader]
    omega
  have hls := localSize_le (g := g) n
  simp only [Geometry.kvCellMaxHdr] at hle
  have hadj : btreeParseCellAdjustSizeForOverflow g (kvHeader key n).length n
      = (localSize g n, (kvHeader key n).length + localSize g n + 4) := by
    unfold localSize at hls ⊢
    rw [if_neg (by omega)] at hls ⊢
    simp only [btreeParseCellAdjustSizeForOverflow, u16, Prod.mk.injEq] at hls ⊢
    split_ifs at hls ⊢ <;> omega
  simp only [kvParseCellLeaf, h1, h2, if_neg (Nat.not_le.2 hl), ← hlen, hadj, CellInfo.mk.injEq,
    true_and, and_true]
  omega

theorem kvCellSizeLeaf_header {key : Key} {n : Nat} (hk : key.length ≤ 255) (hn : n < 2 ^ 31)
    (rest : List UInt8) :
    kvCellSizeLeaf g (kvHeader key n ++ rest) = (kvParseCellLeaf g (kvHeader key n ++ rest)).nSize := by
  obtain ⟨h1, h2⟩ := getVarint32_kvHeader hk hn rest
  have hle := kvHeader_length_le hk hn
  have hu := g.usableSize_le
  have hge := g.usable_ge
  have hm := g.maxLocal_eq
  have hlen : (kvHeader key n).length
      = (putVarint32 n).length + (putVarint32 key.length).length + key.length := by
    simp [kvHeader]
    omega
  have hls := localSize_le (g := g) n
  simp only [Geometry.kvCellMaxHdr] at hle
  rcases Nat.lt_or_ge g.maxLocal n with hl | hl
  · rw [kvParseCellLeaf_spill hk hn hl]
    simp only [kvCellSizeLeaf, h1, h2, if_neg (Nat.not_le.2 hl), ← hlen, ← localSize_spill hl, u16]
    omega
  · rw [kvParseCellLeaf_local hk hn hl]
    simp only [kvCellSizeLeaf, h1, h2, if_pos hl, ← hlen, u16, u32]
    split_ifs <;> omega

namespace LeafParts

variable {key : Key} {n : Nat} {loc : List UInt8} {ovfl : Nat}

theorem cell_eq (h : LeafParts g key n loc ovfl) :
    ∃ rest, kvLeafCell g key n loc ovfl = kvHeader key n ++ (loc ++ rest)
      ∧ (g.maxLocal < n → rest = put4byte ovfl)
      ∧ (kvLeafCell g key n loc ovfl).length = (kvParseCellLeaf g (kvLeafCell g key n loc ovfl)).nSize := by
  unfold kvLeafCell
  have hloc := h.loc_length
  split_ifs with hl
  · refine ⟨_, rfl, fun hn => absurd hl (by omega), ?_⟩
    rw [kvParseCellLeaf_local h.key_le h.n_lt hl]
    rw [localSize, if_pos hl] at hloc
    simp only [List.length_append, List.length_replicate]
    omega
  · refine ⟨_, rfl, fun _ => rfl, ?_⟩
    rw [kvParseCellLeaf_spill h.key_le h.n_lt (by omega)]
    simp only [List.length_append, put4byte_length]
    omega

theorem parse_length (h : LeafParts g key n loc ovfl) :
    (kvParseCellLeaf g (kvLeafCell g key n loc ovfl)).nSize
      = (kvLeafCell g key n loc ovfl).length := by
  obtain ⟨_, -, -, h1⟩ := h.cell_eq
  exact h1.symm

theorem size_eq_length (h : LeafParts g key n loc ovfl) :
    kvCellSizeLeaf g (kvLeafCell g key n loc ovfl) = (kvLeafCell g key n loc ovfl).length := by
  obtain ⟨rest, h1, -, h2⟩ := h.cell_eq
  rw [h2, h1, kvCellSizeLeaf_header h.key_le h.n_lt]

theorem parse_append (h : LeafParts g key n loc ovfl) (rest : List UInt8) :
    kvParseCellLeaf g (kvLeafCell g key n loc ovfl ++ rest)
      = kvParseCellLeaf g (kvLeafCell g key n loc ovfl) := by
  obtain ⟨r, h1, -, -⟩ := h.cell_eq
  rw [h1, List.append_assoc]
  rcases Nat.lt_or_ge g.maxLocal n with hl | hl
  · rw [kvParseCellLeaf_spill h.key_le h.n_lt hl, kvParseCellLeaf_spill h.key_le h.n_lt hl]
  · rw [kvParseCellLeaf_local h.key_le h.n_lt hl, kvParseCellLeaf_local h.key_le h.n_lt hl]

/-- The parsed fields of a built leaf cell, apart from its size. -/
theorem parse (h : LeafParts g key n loc ovfl) :
    (kvParseCellLeaf g (kvLeafCell g key n loc ovfl)).nKeyLen = key.length
    ∧ (kvParseCellLeaf g (kvLeafCell g key n loc ovfl)).nKey = key.length
    ∧ (kvParseCellLeaf g (kvLeafCell g key n loc ovfl)).pKey
        = (kvHeader key n).length - key.length
    ∧ (kvParseCellLeaf g (kvLeafCell g key n loc ovfl)).pPayload = (kvHeader key n).length
    ∧ (kvParseCellLeaf g (kvLeafCell g key n loc ovfl)).nPayload = n
    ∧ (kvParseCellLeaf g (kvLeafCell g key n loc ovfl)).nLocal = localSize g n := by
  obtain ⟨r, h1, -, -⟩ := h.cell_eq
  rw [h1]
  rcases Nat.lt_or_ge g.maxLocal n with hl | hl
  · rw [kvParseCellLeaf_spill h.key_le h.n_lt hl]
    simp
  · rw [kvParseCellLeaf_local h.key_le h.n_lt hl]
    simp [localSize, hl]

theorem keyOf (h : LeafParts g key n loc ovfl) :
    (kvParseCellLeaf g (kvLeafCell g key n loc ovfl)).keyOf (kvLeafCell g key n loc ovfl) = key := by
  obtain ⟨r, h1, -, -⟩ := h.cell_eq
  obtain ⟨h2, -, h3, -⟩ := h.parse
  have hd : (kvHeader key n).length - key.length
      = (putVarint32 n ++ putVarint32 key.length).length := by
    simp only [kvHeader, List.length_append]
    omega
  rw [CellInfo.keyOf, h2, h3, hd, h1, kvHeader, List.append_assoc, List.drop_left, List.take_left]

theorem local_bytes (h : LeafParts g key n loc ovfl) :
    ((kvLeafCell g key n loc ovfl).drop (kvHeader key n).length).take (localSize g n) = loc := by
  obtain ⟨r, h1, -, -⟩ := h.cell_eq
  rw [h1, List.drop_left, ← h.loc_length, List.take_left]

/-- The first overflow page of a built leaf cell stands in its last four bytes. -/
theorem ovfl_page (h : LeafParts g key n loc ovfl) (hl : g.maxLocal < n) :
    get4byte ((kvLeafCell g key n loc ovfl).drop ((kvLeafCell g key n loc ovfl).length - 4)) = ovfl := by
  obtain ⟨r, h1, h2, -⟩ := h.cell_eq
  rw [h1, h2 hl, ← List.append_assoc, List.length_append, put4byte_length, Nat.add_sub_cancel,
    List.drop_left]
  simpa using get4byte_put4byte h.ovfl_lt []

theorem four_le_length :
    4 ≤ (kvLeafCell g key n loc ovfl).length := by
  unfold kvLeafCell
  split_ifs
  · simp only [List.length_append, List.length_replicate]
    omega
  · simp only [List.length_append, put4byte_length]
    omega

/-- A largest cell fits on an empty leaf with its cell pointer. -/
theorem length_le (h : LeafParts g key n loc ovfl) :
    (kvLeafCell g key n loc ovfl).length + 17 ≤ g.usableSize := by
  have h1 := kvHeader_length_le h.key_le h.n_lt
  have h2 := h.loc_length
  have h3 := localSize_le (g := g) n
  have h4 := g.maxLocal_eq
  have h5 := g.usable_ge
  simp only [Geometry.kvCellMaxHdr] at h1
  unfold kvLeafCell
  split_ifs
  · simp only [List.length_append, List.length_replicate]
    omega
  · simp only [List.length_append, put4byte_length]
    omega

end LeafParts

/-! ## Interior cells -/

theorem kvParseCellInterior_cell {child : Nat} {key : Key} (hk : key.length ≤ 255)
    (rest : List UInt8) :
    kvParseCellInterior (kvInteriorCell child key ++ rest) =
      { nKey := key.length, pKey := 4 + (putVarint32 key.length).length, nKeyLen := key.length,
        pPayload := 0, nPayload := 0, nLocal := 0, nSize := (kvInteriorCell child key).length } := by
  have h1 := getVarint32_putVarint32 (v := key.length) (by omega) (key ++ rest)
  have h2 := putVarint32_length_of_lt (v := key.length) (by omega)
  have hd : (kvInteriorCell child key ++ rest).drop 4
      = putVarint32 key.length ++ (key ++ rest) := by
    simp only [kvInteriorCell, List.append_assoc]
    exact List.drop_left' (put4byte_length _)
  simp only [kvParseCellInterior, hd, h1]
  simp only [CellInfo.mk.injEq, true_and, u16, u32, kvInteriorCell, List.length_append,
    put4byte_length]
  split_ifs at h2 <;> omega

theorem kvInteriorCell_size {child : Nat} {key : Key} (hk : key.length ≤ 255) :
    kvCellSizeInterior (kvInteriorCell child key) = (kvInteriorCell child key).length := by
  have h1 := getVarint32_putVarint32 (v := key.length) (by omega) key
  have h2 := putVarint32_length_of_lt (v := key.length) (by omega)
  have hd : (kvInteriorCell child key).drop 4 = putVarint32 key.length ++ key := by
    simp only [kvInteriorCell, List.append_assoc]
    exact List.drop_left' (put4byte_length _)
  simp only [kvCellSizeInterior, hd, h1]
  simp only [u16, kvInteriorCell, List.length_append, put4byte_length]
  split_ifs at h2 <;> omega

theorem kvInteriorCell_key {child : Nat} {key : Key} (hk : key.length ≤ 255) :
    (kvParseCellInterior (kvInteriorCell child key)).keyOf (kvInteriorCell child key) = key := by
  have h := @kvParseCellInterior_cell child key hk []
  rw [List.append_nil] at h
  rw [h]
  have hd : 4 + (putVarint32 key.length).length
      = (put4byte child ++ putVarint32 key.length).length := by
    simp [put4byte_length]
  simp only [CellInfo.keyOf, hd, kvInteriorCell, List.drop_left, List.take_length]

theorem kvInteriorCell_child {child : Nat} {key : Key} (hc : child < 2 ^ 32) :
    get4byte (kvInteriorCell child key) = child := by
  rw [kvInteriorCell, List.append_assoc]
  exact get4byte_put4byte hc _

theorem kvInteriorCell_set_child (child child' : Nat) (key : Key) :
    put4byte child' ++ (kvInteriorCell child key).drop 4 = kvInteriorCell child' key := by
  simp only [kvInteriorCell, List.append_assoc]
  rw [List.drop_left' (put4byte_length _)]

theorem kvInteriorCell_length_le {child : Nat} {key : Key} (hk : key.length ≤ 255) :
    (kvInteriorCell child key).length ≤ 261 := by
  have h2 := putVarint32_length_of_lt (v := key.length) (by omega)
  simp only [kvInteriorCell, List.length_append, put4byte_length]
  split_ifs at h2 <;> omega

end Built

end Btreelite
