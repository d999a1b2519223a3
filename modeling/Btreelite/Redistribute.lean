import Btreelite.Page

/-!
# Sharing cells out among siblings

The part of `balance_nonroot` that decides which of the gathered cells goes on which sibling: the
packing to the left, then the adjustment that evens the siblings out.
-/

namespace Btreelite

open Function

/-- `CellArray`, for siblings that are leaves or are not, and the room of one sibling. -/
structure CellArray where
  g : Geometry
  leaf : Bool
  cells : List Cell

/-- `k`, `szNew[]` and `cntNew[]`. -/
structure Packing where
  k : Nat
  szNew : Nat → Int
  cntNew : Nat → Nat

namespace CellArray

variable (b : CellArray)

def nCell : Nat := b.cells.length

/-- `cachedCellSize`. -/
def cachedCellSize (j : Nat) : Nat := xCellSize b.g b.leaf (b.cells.getD j [])

def usableSpace : Int := b.g.usableSize - (if b.leaf then 8 else 12)

/-- How many cells between two siblings become a divider. -/
def gap : Nat := if b.leaf then 0 else 1

/-- One more sibling, when sibling `i` is the last. -/
def extend (i : Nat) (s : Packing) : Packing :=
  if i + 1 ≥ s.k then
    { k := i + 2, szNew := update s.szNew (i + 1) 0, cntNew := update s.cntNew (i + 1) b.nCell }
  else s

/-- The loop `while( szNew[i]>usableSpace )`, which moves cells to sibling `i+1`. It runs at most
once for each of the `cntNew[i]` cells. -/
def moveRight (i : Nat) : Nat → Packing → Except Rc Packing
  | 0, s => .ok s
  | fuel + 1, s =>
    if s.szNew i ≤ b.usableSpace then .ok s
    else if i + 1 ≥ s.k ∧ i + 2 > 5 then .error .corrupt
    else
      let s := b.extend i s
      let cnt := s.cntNew i
      let sz := 2 + b.cachedCellSize (cnt - 1)
      let sz' := if b.leaf then sz else if cnt < b.nCell then 2 + b.cachedCellSize cnt else 0
      moveRight i fuel { s with
        szNew := update (update s.szNew i (s.szNew i - sz)) (i + 1) (s.szNew (i + 1) + sz')
        cntNew := update s.cntNew i (cnt - 1) }

/-- The loop `while( cntNew[i]<b.nCell )`, which takes cells from sibling `i+1`. -/
def takeLeft (i : Nat) : Nat → Packing → Packing
  | 0, s => s
  | fuel + 1, s =>
    let cnt := s.cntNew i
    if cnt < b.nCell then
      let sz := 2 + b.cachedCellSize cnt
      if s.szNew i + sz > b.usableSpace then s
      else
        let sz' := if b.leaf then sz
          else if cnt + 1 < b.nCell then 2 + b.cachedCellSize (cnt + 1) else 0
        takeLeft i fuel { s with
          szNew := update (update s.szNew i (s.szNew i + sz)) (i + 1) (s.szNew (i + 1) - sz')
          cntNew := update s.cntNew i (cnt + 1) }
    else s

/-- The loop `for(i=0; i<k; i++)`. No packing has more than `NB+2` siblings. -/
def pack : Nat → Nat → Packing → Except Rc Packing
  | 0, _, s => .ok s
  | fuel + 1, i, s =>
    if i < s.k then do
      let s ← b.moveRight i (s.cntNew i) s
      let s := b.takeLeft i b.nCell s
      if b.nCell ≤ s.cntNew i then pack fuel (i + 1) { s with k := i + 1 }
      else if s.cntNew i ≤ (if 0 < i then s.cntNew (i - 1) else 0) then .error .corrupt
      else pack fuel (i + 1) s
    else .ok s

/-- The loop that moves cells from the left sibling to sibling `i`: it starts with `cnt` cells up
to the left sibling's last and returns the new `cnt`, `szRight` and `szLeft`. -/
def shiftRight (last : Bool) : Nat → Int → Int → Nat × Int × Int
  | 0, szRight, szLeft => (0, szRight, szLeft)
  | r + 1, szRight, szLeft =>
    let szR := b.cachedCellSize r
    let szD := b.cachedCellSize (r + b.gap)
    if szRight ≠ 0 ∧ szRight + szD + 2 > szLeft - (szR + (if last then 0 else 2)) then
      (r + 1, szRight, szLeft)
    else shiftRight last r (szRight + szD + 2) (szLeft - (szR + 2))

/-- The loop `for(i=k-1; i>0; i--)`. -/
def adjust : Nat → Packing → Except Rc Packing
  | 0, s => .ok s
  | i + 1, s =>
    let (cnt, szRight, szLeft) :=
      b.shiftRight (i + 1 = s.k - 1) (s.cntNew i) (s.szNew (i + 1)) (s.szNew i)
    let s := { s with
      szNew := update (update s.szNew (i + 1) szRight) i szLeft
      cntNew := update s.cntNew i cnt }
    if cnt ≤ (if 0 < i then s.cntNew (i - 1) else 0) then .error .corrupt else adjust i s

def distribute (s : Packing) : Except Rc Packing := do
  let s ← b.pack 5 0 s
  b.adjust (s.k - 1) s

/-! ## The sizes the loops keep -/

/-- The room the first `j` cells take. -/
def upTo (j : Nat) : Int := (((b.cells.take j).map fun c => 2 + xCellSize b.g b.leaf c).sum : Nat)

/-- The first cell of a sibling, given the `cntNew[]`. -/
def start (cnt : Nat → Nat) : Nat → Nat
  | 0 => 0
  | i + 1 => cnt i + b.gap

/-- What holds of a packing whose siblings before `i` are settled: the sizes are those of the cells
between the cuts, and the siblings before `i` take cells and have room for them. -/
structure Packed (i : Nat) (s : Packing) : Prop where
  pos : 0 < s.k
  k_le : s.k ≤ 5
  le : ∀ j < s.k, s.cntNew j ≤ b.nCell
  size : ∀ j < s.k, s.szNew j = b.upTo (s.cntNew j) - b.upTo (b.start s.cntNew j)
  last : s.cntNew (s.k - 1) = b.nCell
  fit : ∀ j < i, j < s.k → s.szNew j ≤ b.usableSpace
  inner : ∀ j < i, j + 1 < s.k → s.cntNew j < b.nCell
  mono : ∀ j < i, j < s.k → (if 0 < j then s.cntNew (j - 1) else 0) < s.cntNew j

section Sizes

variable {b} {i j : Nat} {s s' : Packing}

theorem upTo_succ (h : j < b.nCell) : b.upTo (j + 1) = b.upTo j + (2 + b.cachedCellSize j) := by
  unfold nCell at h
  unfold upTo cachedCellSize
  rw [List.take_add_one, List.getElem?_eq_getElem h, List.getD_eq_getElem _ _ h]
  simp only [Option.toList_some, List.map_append, List.map_cons, List.map_nil, List.sum_append,
    List.sum_cons, List.sum_nil]
  omega

theorem upTo_of_le (h : b.nCell ≤ j) : b.upTo j = b.upTo b.nCell := by
  unfold nCell at h
  unfold upTo nCell
  rw [List.take_of_length_le h, List.take_length]

theorem upTo_mono : ∀ {j j' : Nat}, j ≤ j' → b.upTo j ≤ b.upTo j'
  | j, 0, h => by
    obtain rfl := Nat.le_zero.1 h
    exact le_refl _
  | j, j' + 1, h => by
    rcases Nat.lt_or_eq_of_le h with h | rfl
    · refine (upTo_mono (Nat.le_of_lt_succ h)).trans ?_
      rcases Nat.lt_or_ge j' b.nCell with hj | hj
      · rw [upTo_succ hj]
        omega
      · rw [upTo_of_le hj, upTo_of_le (hj.trans (Nat.le_succ _))]
    · exact le_refl _

/-- The sibling to the right of a cut starts one cell later when the cut moves right. -/
theorem upTo_succ_gap (h : j < b.nCell) : b.upTo (j + 1 + b.gap) = b.upTo (j + b.gap)
    + ((if b.leaf then 2 + b.cachedCellSize j
        else if j + 1 < b.nCell then 2 + b.cachedCellSize (j + 1) else 0 : Nat) : Int) := by
  rw [gap]
  split_ifs with hl hlt
  · simp only [Nat.add_zero]
    rw [upTo_succ h]
    omega
  · rw [upTo_succ hlt]
    omega
  · rw [upTo_of_le (j := j + 1 + 1) (by omega), upTo_of_le (Nat.le_of_not_lt hlt)]
    omega

theorem usableSpace_pos : 0 < b.usableSpace := by
  have h := b.g.usable_ge
  unfold usableSpace
  split_ifs <;> omega

theorem start_update_of_ne {cnt : Nat → Nat} {c : Nat} (h : j ≠ i + 1) :
    b.start (update cnt i c) j = b.start cnt j := by
  cases j with
  | zero => rfl
  | succ j => simp only [start, update_of_ne (show j ≠ i by omega)]

/-- A packing changes at one cut: the two siblings there share their room anew. -/
theorem Packed.move (h : b.Packed i s) (hi : i + 1 < s.k) {cnt : Nat} {szL szR : Int}
    (hcnt : cnt ≤ b.nCell) (hL : szL = s.szNew i + (b.upTo cnt - b.upTo (s.cntNew i)))
    (hR : szR = s.szNew (i + 1) - (b.upTo (cnt + b.gap) - b.upTo (s.cntNew i + b.gap))) :
    b.Packed i { s with
      szNew := update (update s.szNew i szL) (i + 1) szR
      cntNew := update s.cntNew i cnt } where
  pos := h.pos
  k_le := h.k_le
  le j hj := by
    rcases eq_or_ne j i with rfl | hne
    · simpa using hcnt
    · simpa [update_of_ne hne] using h.le j hj
  size j hj := by
    have h1 := h.size j hj
    dsimp only at hj ⊢
    rcases eq_or_ne j (i + 1) with rfl | hne
    · simp only [update_self, start] at h1 ⊢
      rw [update_of_ne (show i + 1 ≠ i by omega)]
      omega
    · rw [start_update_of_ne hne, update_of_ne hne]
      rcases eq_or_ne j i with rfl | hne'
      · rw [update_self, update_self]
        omega
      · rwa [update_of_ne hne', update_of_ne hne']
  last := by
    rw [← h.last]
    exact update_of_ne (show s.k - 1 ≠ i by omega) ..
  fit j hj hk := by
    have h1 := h.fit j hj hk
    simpa [update_of_ne (show j ≠ i + 1 by omega), update_of_ne (show j ≠ i by omega)] using h1
  inner j hj hk := by
    have h1 := h.inner j hj hk
    simpa [update_of_ne (show j ≠ i by omega)] using h1
  mono j hj hk := by
    have h1 := h.mono j hj hk
    simpa [update_of_ne (show j ≠ i by omega), update_of_ne (show j - 1 ≠ i by omega)] using h1

/-- A packing whose last sibling is `i` may get another one, without cells. -/
theorem Packed.grow (h : b.Packed i s) (hi : i + 1 = s.k) (hk : i + 2 ≤ 5) :
    b.Packed i { k := i + 2, szNew := update s.szNew (i + 1) 0,
                 cntNew := update s.cntNew (i + 1) b.nCell } where
  pos := Nat.succ_pos _
  k_le := hk
  le j hj := by
    dsimp only at hj ⊢
    rcases eq_or_ne j (i + 1) with rfl | hne
    · rw [update_self]
    · rw [update_of_ne hne]
      exact h.le j (by omega)
  size j hj := by
    dsimp only at hj ⊢
    have hst : b.start (update s.cntNew (i + 1) b.nCell) j = b.start s.cntNew j :=
      start_update_of_ne (by omega)
    rw [hst]
    rcases eq_or_ne j (i + 1) with rfl | hne
    · have hlast := h.last
      rw [← hi, Nat.add_sub_cancel] at hlast
      rw [update_self, update_self, start, hlast, upTo_of_le (Nat.le_add_right _ _)]
      omega
    · rw [update_of_ne hne, update_of_ne hne]
      exact h.size j (by omega)
  last := by simp
  fit j hj _ := by
    dsimp only
    rw [update_of_ne (show j ≠ i + 1 by omega)]
    exact h.fit j hj (by omega)
  inner j hj _ := by
    dsimp only
    rw [update_of_ne (show j ≠ i + 1 by omega)]
    exact h.inner j hj (by omega)
  mono j hj _ := by
    dsimp only
    rw [update_of_ne (show j ≠ i + 1 by omega), update_of_ne (show j - 1 ≠ i + 1 by omega)]
    exact h.mono j hj (by omega)

theorem moveRight_packed : ∀ (fuel : Nat) {s s' : Packing}, b.Packed i s → i < s.k →
    s.cntNew i ≤ fuel → b.moveRight i fuel s = .ok s' →
    b.Packed i s' ∧ i < s'.k ∧ s'.szNew i ≤ b.usableSpace
  | 0, s, s', h, hi, hf, heq => by
    obtain rfl : s = s' := by simpa [moveRight] using heq
    have h1 := h.size i hi
    have h2 := upTo_mono (b := b) (Nat.zero_le (b.start s.cntNew i))
    have h3 := usableSpace_pos (b := b)
    rw [Nat.le_zero.1 hf] at h1
    exact ⟨h, hi, by omega⟩
  | fuel + 1, s, s', h, hi, hf, heq => by
    unfold moveRight at heq
    by_cases hle : s.szNew i ≤ b.usableSpace
    · rw [if_pos hle] at heq
      obtain rfl : s = s' := by simpa using heq
      exact ⟨h, hi, hle⟩
    rw [if_neg hle] at heq
    by_cases hk : i + 1 ≥ s.k ∧ i + 2 > 5
    · rw [if_pos hk] at heq
      simp at heq
    rw [if_neg hk] at heq
    obtain ⟨ht, hti, hcnt, hsz⟩ : b.Packed i (b.extend i s) ∧ i + 1 < (b.extend i s).k
        ∧ (b.extend i s).cntNew i = s.cntNew i ∧ (b.extend i s).szNew i = s.szNew i := by
      unfold extend
      split_ifs with hge
      · refine ⟨h.grow (by omega) (by omega), Nat.lt_succ_self _, ?_, ?_⟩ <;>
          exact update_of_ne (by omega) ..
      · exact ⟨h, by omega, rfl, rfl⟩
    generalize b.extend i s = t at heq ht hti hcnt hsz
    have h1 := h.size i hi
    have h2 := usableSpace_pos (b := b)
    have h3 := ht.le i (by omega)
    obtain ⟨c, hc⟩ : ∃ c, t.cntNew i = c + 1 := by
      refine Nat.exists_eq_succ_of_ne_zero fun h0 => ?_
      have h4 := upTo_mono (b := b) (Nat.zero_le (b.start s.cntNew i))
      rw [← hcnt, h0] at h1
      omega
    have h4 := upTo_succ (b := b) (j := c) (by omega)
    refine moveRight_packed fuel ?_ ?_ ?_ heq
    · refine ht.move hti (by omega) ?_ ?_
      · rw [hc, Nat.add_sub_cancel, h4]
        omega
      · rw [hc, Nat.add_sub_cancel, upTo_succ_gap (by omega)]
        omega
    · exact Nat.lt_of_succ_lt hti
    · dsimp only
      rw [update_self]
      omega

theorem takeLeft_packed : ∀ (fuel : Nat) {s : Packing}, b.Packed i s → i < s.k →
    s.szNew i ≤ b.usableSpace →
    b.Packed i (b.takeLeft i fuel s) ∧ i < (b.takeLeft i fuel s).k
      ∧ (b.takeLeft i fuel s).szNew i ≤ b.usableSpace
  | 0, _, h, hi, hle => ⟨h, hi, hle⟩
  | fuel + 1, s, h, hi, hle => by
    unfold takeLeft
    dsimp only
    by_cases hlt : s.cntNew i < b.nCell
    · rw [if_pos hlt]
      by_cases hfit : s.szNew i + (2 + b.cachedCellSize (s.cntNew i) : Nat) > b.usableSpace
      · rw [if_pos hfit]
        exact ⟨h, hi, hle⟩
      · rw [if_neg hfit]
        have hk : i + 1 < s.k := by
          rcases Nat.lt_or_ge (i + 1) s.k with hk | hk
          · exact hk
          · have hlast := h.last
            rw [show s.k - 1 = i by omega] at hlast
            omega
        have h1 := upTo_succ hlt
        refine takeLeft_packed fuel (h.move hk hlt ?_ ?_) hi ?_
        · rw [h1]
          omega
        · rw [upTo_succ_gap hlt]
          omega
        · dsimp only
          rw [update_of_ne (show i ≠ i + 1 by omega), update_self]
          omega
    · rw [if_neg hlt]
      exact ⟨h, hi, hle⟩

/-- Sibling `i` takes the last cell and ends the packing. -/
theorem Packed.close (h : b.Packed i s) (hi : i < s.k) (hcnt : s.cntNew i = b.nCell)
    (hfit : s.szNew i ≤ b.usableSpace) (hpos : 0 < b.nCell) : b.Packed (i + 1) { s with k := i + 1 } where
  pos := Nat.succ_pos _
  k_le := hi.trans_le h.k_le
  le j (hj : j < i + 1) := h.le j (by omega)
  size j (hj : j < i + 1) := h.size j (by omega)
  last := hcnt
  fit j hj _ := by
    rcases Nat.lt_succ_iff_lt_or_eq.1 hj with hj | rfl
    · exact h.fit j hj (by omega)
    · exact hfit
  inner j _ (hk : j + 1 < i + 1) := h.inner j (by omega) (by omega)
  mono j hj _ := by
    rcases Nat.lt_succ_iff_lt_or_eq.1 hj with hj | rfl
    · exact h.mono j hj (by omega)
    · dsimp only
      rw [hcnt]
      split_ifs with h0
      · exact h.inner (j - 1) (by omega) (by omega)
      · exact hpos

/-- Sibling `i` is settled with more cells to come. -/
theorem Packed.settle (h : b.Packed i s) (hcnt : s.cntNew i < b.nCell)
    (hfit : s.szNew i ≤ b.usableSpace) (hc : (if 0 < i then s.cntNew (i - 1) else 0) < s.cntNew i) :
    b.Packed (i + 1) s :=
  { h with
    fit := fun j hj hk => (Nat.lt_succ_iff_lt_or_eq.1 hj).elim (fun hj => h.fit j hj hk) (· ▸ hfit)
    inner := fun j hj hk => (Nat.lt_succ_iff_lt_or_eq.1 hj).elim (fun hj => h.inner j hj hk) (· ▸ hcnt)
    mono := fun j hj hk => (Nat.lt_succ_iff_lt_or_eq.1 hj).elim (fun hj => h.mono j hj hk) (· ▸ hc) }

/-- What the packing loop returns fits, and the right-most sibling alone may be without cells. -/
theorem pack_packed (hpos : 0 < b.nCell) : ∀ (fuel i : Nat) {s s' : Packing}, i + fuel = 5 →
    b.Packed i s → b.pack fuel i s = .ok s' → b.Packed s'.k s'
  | 0, i, s, s', hf, h, heq => by
    obtain rfl : s = s' := by simpa [pack] using heq
    have hk := h.k_le
    exact { h with
      fit := fun j _ hj => h.fit j (by omega) hj
      inner := fun j _ hj => h.inner j (by omega) hj
      mono := fun j _ hj => h.mono j (by omega) hj }
  | fuel + 1, i, s, s', hf, h, heq => by
    unfold pack at heq
    by_cases hi : i < s.k
    · rw [if_pos hi] at heq
      rcases hm : b.moveRight i (s.cntNew i) s with e | t
      · rw [hm] at heq
        cases heq
      rw [hm] at heq
      obtain ⟨ht, hti, hfit⟩ := moveRight_packed _ h hi le_rfl hm
      obtain ⟨hu, hui, hufit⟩ := takeLeft_packed b.nCell ht hti hfit
      change (if b.nCell ≤ (b.takeLeft i b.nCell t).cntNew i then _ else _) = _ at heq
      generalize b.takeLeft i b.nCell t = u at heq hu hui hufit
      by_cases hend : b.nCell ≤ u.cntNew i
      · rw [if_pos hend] at heq
        have hcnt : u.cntNew i = b.nCell := Nat.le_antisymm (hu.le i hui) hend
        exact pack_packed hpos fuel (i + 1) (by omega) (hu.close hui hcnt hufit hpos) heq
      · rw [if_neg hend] at heq
        by_cases hc : u.cntNew i ≤ if 0 < i then u.cntNew (i - 1) else 0
        · rw [if_pos hc] at heq
          cases heq
        rw [if_neg hc] at heq
        exact pack_packed hpos fuel (i + 1) (by omega)
          (hu.settle (Nat.lt_of_not_le hend) hufit (Nat.lt_of_not_le hc)) heq
    · rw [if_neg hi] at heq
      obtain rfl : s = s' := by simpa using heq
      exact { h with
        fit := fun j _ hj => h.fit j (by omega) hj
        inner := fun j _ hj => h.inner j (by omega) hj
        mono := fun j _ hj => h.mono j (by omega) hj }

/-- One run of the loop that moves cells from the left sibling, `cnt` of its cells before. -/
theorem shiftRight_spec (hone : ∀ j < b.nCell, ((2 + b.cachedCellSize j : Nat) : Int) ≤ b.usableSpace)
    (lst : Bool) : ∀ (cnt : Nat) (szRight szLeft : Int), cnt < b.nCell → 0 ≤ szRight →
      szRight ≤ b.usableSpace → szLeft ≤ b.usableSpace →
      ∃ cnt' szRight' szLeft', b.shiftRight lst cnt szRight szLeft = (cnt', szRight', szLeft')
        ∧ cnt' ≤ cnt ∧ szRight' = szRight - (b.upTo (cnt' + b.gap) - b.upTo (cnt + b.gap))
        ∧ szLeft' = szLeft + (b.upTo cnt' - b.upTo cnt) ∧ szRight' ≤ b.usableSpace
        ∧ szLeft' ≤ b.usableSpace ∧ (0 < cnt → 0 < szRight')
  | 0, szRight, szLeft, _, _, hr, hl => by
    refine ⟨0, szRight, szLeft, rfl, le_rfl, ?_, ?_, hr, hl, fun h => absurd h (lt_irrefl 0)⟩ <;> omega
  | r + 1, szRight, szLeft, hcnt, h0, hr, hl => by
    unfold shiftRight
    dsimp only
    by_cases hstop : szRight ≠ 0 ∧ szRight + b.cachedCellSize (r + b.gap) + 2
        > szLeft - (b.cachedCellSize r + (if lst then 0 else 2))
    · rw [if_pos hstop]
      refine ⟨r + 1, szRight, szLeft, rfl, le_rfl, ?_, ?_, hr, hl, fun _ => ?_⟩ <;> omega
    · rw [if_neg hstop]
      have hd := hone (r + b.gap) (by unfold gap; split_ifs <;> omega)
      have hgap : b.upTo (r + 1 + b.gap) = b.upTo (r + b.gap) + (2 + b.cachedCellSize (r + b.gap)) := by
        rw [Nat.add_right_comm, upTo_succ (by unfold gap; split_ifs <;> omega)]
      have hr' : szRight + b.cachedCellSize (r + b.gap) + 2 ≤ b.usableSpace := by
        by_cases hz : szRight = 0
        · omega
        · have hle : ¬ szRight + b.cachedCellSize (r + b.gap) + 2
              > szLeft - (b.cachedCellSize r + (if lst then 0 else 2)) := fun h => hstop ⟨hz, h⟩
          split_ifs at hle <;> omega
      have hs := upTo_succ (b := b) (j := r) (by omega)
      obtain ⟨cnt', szRight', szLeft', h1, h2, h3, h4, h5, h6, h7⟩ := shiftRight_spec hone lst r
        (szRight + b.cachedCellSize (r + b.gap) + 2) (szLeft - (b.cachedCellSize r + 2)) (by omega)
        (by omega) hr' (by omega)
      refine ⟨cnt', szRight', szLeft', h1, by omega, by omega, by omega, h5, h6, fun _ => ?_⟩
      have h8 := upTo_mono (b := b) (Nat.add_le_add_right h2 b.gap)
      omega

/-- One turn of the adjustment, when the left sibling keeps cells: the right one has cells after it. -/
theorem Packed.shift (hone : ∀ j < b.nCell, ((2 + b.cachedCellSize j : Nat) : Int) ≤ b.usableSpace)
    (h : b.Packed s.k s) (hi : i + 1 < s.k) {cnt : Nat} {szRight szLeft : Int}
    (hrun : b.shiftRight (i + 1 = s.k - 1) (s.cntNew i) (s.szNew (i + 1)) (s.szNew i)
      = (cnt, szRight, szLeft)) (hc : (if 0 < i then s.cntNew (i - 1) else 0) < cnt) :
    b.Packed s.k { s with
        szNew := update (update s.szNew (i + 1) szRight) i szLeft
        cntNew := update s.cntNew i cnt }
      ∧ cnt + b.gap < s.cntNew (i + 1) := by
  have hmono := h.mono (i + 1) hi hi
  have hinner := h.inner i (by omega) hi
  have hfitL := h.fit i (by omega) (by omega)
  have hfitR := h.fit (i + 1) hi hi
  have hsz := h.size (i + 1) hi
  rw [if_pos (Nat.succ_pos i), Nat.add_sub_cancel] at hmono
  have hle : b.upTo (b.start s.cntNew (i + 1)) ≤ b.upTo (s.cntNew (i + 1)) := by
    refine upTo_mono ?_
    change s.cntNew i + b.gap ≤ _
    unfold gap
    split_ifs <;> omega
  obtain ⟨cnt', szRight', szLeft', hrun', hcnt, hR, hL, hfR, hfL, hpos⟩ := shiftRight_spec hone
    (i + 1 = s.k - 1) (s.cntNew i) (s.szNew (i + 1)) (s.szNew i) hinner (by omega) hfitR hfitL
  rw [hrun, Prod.mk.injEq, Prod.mk.injEq] at hrun'
  obtain ⟨rfl, rfl, rfl⟩ := hrun'
  -- the adjusted packing differs at the cut in front of sibling `i + 1`
  have hszeq : update (update s.szNew (i + 1) szRight) i szLeft
      = update (update s.szNew i szLeft) (i + 1) szRight := update_comm (by omega) ..
  rw [hszeq]
  have hmove := (Packed.move { h with
    fit := fun j hj hk => h.fit j hk hk
    inner := fun j hj hk => h.inner j (by omega) hk
    mono := fun j hj hk => h.mono j hk hk : b.Packed i s }) hi (by omega) hL hR
  refine ⟨{ hmove with
    fit := fun j _ (hj : j < s.k) => by
      dsimp only
      rcases eq_or_ne j (i + 1) with rfl | h1
      · rwa [update_self]
      · rw [update_of_ne h1]
        rcases eq_or_ne j i with rfl | h2
        · rwa [update_self]
        · rw [update_of_ne h2]
          exact h.fit j hj hj
    inner := fun j _ (hj : j + 1 < s.k) => by
      dsimp only
      rcases eq_or_ne j i with rfl | h2
      · rw [update_self]
        omega
      · rw [update_of_ne h2]
        exact h.inner j (by omega) hj
    mono := fun j _ (hj : j < s.k) => by
      dsimp only
      rcases eq_or_ne j i with rfl | h2
      · rw [update_self]
        split_ifs at hc ⊢ with h0
        · rwa [update_of_ne (show j - 1 ≠ j by omega)]
        · exact hc
      · rw [update_of_ne h2]
        have h3 := h.mono j hj hj
        rcases eq_or_ne (j - 1) i with h4 | h4
        · rw [h4, update_self]
          rw [h4] at h3
          split_ifs at h3 ⊢ <;> omega
        · rwa [update_of_ne h4] }, ?_⟩
  have h4 := hpos (by omega)
  by_contra hge
  have h5 := upTo_mono (b := b) (Nat.le_of_not_lt hge)
  rw [start] at hsz
  omega

theorem adjust_packed (hone : ∀ j < b.nCell, ((2 + b.cachedCellSize j : Nat) : Int) ≤ b.usableSpace) :
    ∀ (i : Nat) {s s' : Packing}, i < s.k → b.Packed s.k s →
      (∀ j, i < j → j < s.k → b.start s.cntNew j < s.cntNew j) → b.adjust i s = .ok s' →
      b.Packed s'.k s' ∧ ∀ j, 0 < j → j < s'.k → b.start s'.cntNew j < s'.cntNew j
  | 0, s, s', _, h, hne, heq => by
    obtain rfl : s = s' := by simpa [adjust] using heq
    exact ⟨h, hne⟩
  | i + 1, s, s', hi, h, hne, heq => by
    unfold adjust at heq
    rcases hrun : b.shiftRight (i + 1 = s.k - 1) (s.cntNew i) (s.szNew (i + 1)) (s.szNew i)
      with ⟨cnt, szRight, szLeft⟩
    rw [hrun] at heq
    dsimp only at heq
    have hprev : (if 0 < i then update s.cntNew i cnt (i - 1) else 0)
        = if 0 < i then s.cntNew (i - 1) else 0 := by
      split_ifs
      · exact update_of_ne (by omega) ..
      · rfl
    rw [hprev] at heq
    by_cases hc : cnt ≤ if 0 < i then s.cntNew (i - 1) else 0
    · rw [if_pos hc] at heq
      cases heq
    rw [if_neg hc] at heq
    obtain ⟨ht, hright⟩ := h.shift hone hi hrun (Nat.lt_of_not_le hc)
    refine adjust_packed hone i ?_ ht (fun j hij hj => ?_) heq
    · exact Nat.lt_of_succ_lt hi
    dsimp only
    rcases eq_or_ne j (i + 1) with rfl | h1
    · rwa [start, update_self, update_of_ne (show i + 1 ≠ i by omega)]
    · rw [start_update_of_ne h1, update_of_ne (show j ≠ i by omega)]
      exact hne j (by omega) hj

/-- The cuts the code settles on: every sibling gets at least one cell and has room for its cells. -/
theorem distribute_spec {s s' : Packing} (hpos : 0 < b.nCell)
    (hone : ∀ j < b.nCell, ((2 + b.cachedCellSize j : Nat) : Int) ≤ b.usableSpace)
    (h : b.Packed 0 s) (heq : b.distribute s = .ok s') :
    b.Packed s'.k s' ∧ ∀ j < s'.k, b.start s'.cntNew j < s'.cntNew j := by
  unfold distribute at heq
  rcases hp : b.pack 5 0 s with e | t
  · rw [hp] at heq
    cases heq
  rw [hp] at heq
  have ht := pack_packed hpos 5 0 rfl h hp
  have hk := ht.pos
  obtain ⟨h1, h2⟩ := adjust_packed hone (t.k - 1) (by omega) ht (fun j hj hj' => by omega) heq
  refine ⟨h1, fun j hj => ?_⟩
  rcases Nat.eq_zero_or_pos j with rfl | hj0
  · exact h1.mono 0 hj hj
  · exact h2 j hj0 hj

end Sizes

end CellArray

end Btreelite
