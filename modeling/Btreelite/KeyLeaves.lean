import Btreelite.Siblings

/-!
# Leaves with one key

Databases with a few small leaves, for states on which programs are run.
-/

namespace Btreelite

open Prog Segment

section KeyLeaves

variable (g : Geometry) (k1 k2 : Key)

/-- A leaf with one entry without a value. -/
def keyCell (key : Key) : Cell := kvLeafCell g key 0 [] 0

def keyLeaf (key : Key) : MemPage where
  leaf := true
  cells := [keyCell g key]
  right := 0
  ovfl := []

def twoLeavesParent : MemPage where
  leaf := false
  cells := [kvInteriorCell 3 k1]
  right := 4
  ovfl := []

def twoLeaves : Db where
  nPage := 4
  page
    | 1 => .page1 { nPage := 4, trunk := 0, nFree := 0 }
    | 2 => .node (twoLeavesParent k1)
    | 3 => .node (keyLeaf g k1)
    | 4 => .node (keyLeaf g k2)
    | _ => .raw

/-- A state with these pages in which nothing fails. -/
def stateOf (d : Db) : BtShared where
  pager := { useWal := false, dbSize := d.nPage, dbOrigSize := d.nPage, image := d.page, base := d.page,
             written := [], inJournal := [], journal := [], savepoints := [], subJournal := [] }
  nPage := d.nPage
  pHasContent := none
  io := []

def keyEntry (key : Key) : Entry where
  cell := keyCell g key
  key := key
  value := []
  ovfl := []

variable {g k1 k2}

theorem keyEntry_on (page : Nat → PageData) {key : Key} (hk : key.length ≤ 255) :
    (keyEntry g key).On g page :=
  ⟨0, ⟨hk, by simp [keyEntry], by simp [keyEntry, localSize], Nat.two_pow_pos 32⟩, by simp [keyEntry, keyCell],
    by simp [keyEntry, OvflChain]⟩

theorem keyLeaf_sub {page : Nat → PageData} {c : Nat} {key : Key} {lo hi : Bound}
    (hc : page c = .node (keyLeaf g key)) (hk : key.length ≤ 255) (hlo : lo < key.bound)
    (hhi : key.bound ≤ hi) : Sub g page 0 lo c hi [keyEntry g key] [c] := by
  have hon := keyEntry_on (g := g) page hk
  refine ⟨keyLeaf g key, [], hc, ⟨rfl, by simp [keyLeaf], ?_⟩, rfl, rfl,
    by simp [keyLeaf, keyEntry, MemPage.allCells], ?_, ⟨hlo, hhi⟩, by simp [keyEntry]⟩
  · obtain ⟨hsize, hle⟩ := leaf_cell_fits hon
    simp only [keyEntry] at hsize hle
    simp only [MemPage.nFree, keyLeaf, if_true, List.map_cons, List.map_nil, List.sum_cons, List.sum_nil, hsize]
    omega
  · intro e he
    rw [List.mem_singleton.1 he]
    exact hon

theorem pendingBytePage_gt (g : Geometry) : 16384 < pendingBytePage g := by
  have h1 := g.pageSize_le
  have h2 := g.pageSize_gt
  unfold pendingBytePage
  have h3 : 0x40000000 / 65536 ≤ 0x40000000 / g.pageSize := Nat.div_le_div_left h1 (by omega)
  omega

theorem keyCell_nKeyLen {key : Key} (hk : key.length ≤ 255) :
    (xParseCell g true (keyCell g key)).nKeyLen = key.length := by
  obtain ⟨ovfl, hparts, hc, -⟩ := keyEntry_on (g := g) (fun _ => .raw) hk
  simp only [keyEntry] at hparts hc
  simp only [xParseCell, if_true]
  rw [hc]
  exact hparts.parse.1

end KeyLeaves

end Btreelite
