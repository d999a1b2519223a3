import Btreelite.RowCuts
import Btreelite.BalanceSpace

/-!
# Five siblings are enough

The packing loops of `balance_nonroot` give up when the cells need more than five siblings or a
sibling stays without a cell. They fill siblings from the left as far as these go, so they need no
more siblings than any other cut of the row of cells. An over-full leaf can be cut into three, and so
can an over-full interior page if two dividers always fit on a page: that is what pages of 512 bytes
do not offer.
-/

namespace Btreelite

open Function RowCuts Prog Segment

namespace CellArray

variable (b : CellArray)

/-- The room a cell takes with its pointer. -/
abbrev weight (c : Cell) : Nat := 2 + xCellSize b.g b.leaf c

/-- `usableSpace`. -/
def capacity : Nat := b.g.usableSize - (if b.leaf then 8 else 12)

/-- What the packing loop leaves behind: a sibling with another one behind it had no room for one
more cell. -/
def Greedy (i : Nat) (s : Packing) : Prop :=
  ∀ j < i, j + 1 < s.k → b.usableSpace < b.upTo (s.cntNew j + 1) - b.upTo (b.start s.cntNew j)

section Greedy

variable {b} {i j : Nat} {s s' : Packing}

theorem usableSpace_eq : b.usableSpace = b.capacity := by
  have h := b.g.usable_ge
  unfold usableSpace capacity
  split_ifs <;> omega

theorem gap_le : b.gap ≤ 1 := by
  unfold gap
  split_ifs <;> omega

theorem upTo_add (a t : Nat) :
    b.upTo (a + t) = b.upTo a + room b.weight ((b.cells.drop a).take t) := by
  have h : b.cells.take (a + t) = b.cells.take a ++ (b.cells.drop a).take t := List.take_add
  have h1 := congrArg (room b.weight) h
  rw [room_append] at h1
  change ((room b.weight (b.cells.take (a + t)) : Nat) : Int)
    = (room b.weight (b.cells.take a) : Nat) + (room b.weight ((b.cells.drop a).take t) : Nat)
  omega

theorem lt_of_upTo_lt (h : b.upTo i < b.upTo j) : i < j := by
  by_contra hge
  have := upTo_mono (b := b) (Nat.le_of_not_lt hge)
  omega

theorem upTo_lt (h : i < j) (hj : j ≤ b.nCell) : b.upTo i < b.upTo j := by
  have h1 := upTo_succ (b := b) (j := i) (by omega)
  have h2 := upTo_mono (b := b) (show i + 1 ≤ j from h)
  omega

theorem upTo_succ_le (hone : ∀ j < b.nCell, ((2 + b.cachedCellSize j : Nat) : Int) ≤ b.usableSpace)
    (a : Nat) : b.upTo (a + 1) - b.upTo a ≤ b.usableSpace := by
  have h := usableSpace_pos (b := b)
  rcases Nat.lt_or_ge a b.nCell with ha | ha
  · have := hone a ha
    rw [upTo_succ ha]
    omega
  · rw [upTo_of_le ha, upTo_of_le (ha.trans (Nat.le_succ a))]
    omega

theorem lt_extend_k (s : Packing) : i + 1 < (b.extend i s).k := by
  unfold extend
  split_ifs with hk
  · exact Nat.lt_succ_self _
  · exact Nat.lt_of_not_le hk

theorem extend_below (hj : j < i) (s : Packing) : (b.extend i s).cntNew j = s.cntNew j := by
  unfold extend
  split_ifs
  · exact update_of_ne (by omega) ..
  · rfl

/-- The packing loop fails only for want of a sixth sibling. -/
theorem moveRight_ok : ∀ (fuel : Nat) {s : Packing},
    i + 1 < s.k ∨ i + 2 ≤ 5 ∨ s.szNew i ≤ b.usableSpace → ∃ s', b.moveRight i fuel s = .ok s'
  | 0, s, _ => ⟨s, rfl⟩
  | fuel + 1, s, h => by
    unfold moveRight
    by_cases hle : s.szNew i ≤ b.usableSpace
    · exact ⟨s, if_pos hle⟩
    rw [if_neg hle, if_neg (by omega)]
    exact moveRight_ok fuel (Or.inl (lt_extend_k s))

theorem moveRight_below (hj : j < i) : ∀ (fuel : Nat) {s s' : Packing},
    b.moveRight i fuel s = .ok s' → s'.cntNew j = s.cntNew j
  | 0, s, s', h => by
    obtain rfl : s = s' := by simpa [moveRight] using h
    rfl
  | fuel + 1, s, s', h => by
    unfold moveRight at h
    by_cases hle : s.szNew i ≤ b.usableSpace
    · rw [if_pos hle] at h
      obtain rfl : s = s' := by simpa using h
      rfl
    rw [if_neg hle] at h
    by_cases hk : i + 1 ≥ s.k ∧ i + 2 > 5
    · rw [if_pos hk] at h
      cases h
    rw [if_neg hk] at h
    rw [moveRight_below hj fuel h]
    exact (update_of_ne hj.ne _ _).trans (extend_below hj s)

theorem takeLeft_below (hj : j < i) : ∀ (fuel : Nat) (s : Packing),
    (b.takeLeft i fuel s).cntNew j = s.cntNew j
  | 0, _ => rfl
  | fuel + 1, s => by
    unfold takeLeft
    dsimp only
    by_cases hlt : s.cntNew i < b.nCell
    · rw [if_pos hlt]
      by_cases hfit : s.szNew i + (2 + b.cachedCellSize (s.cntNew i) : Nat) > b.usableSpace
      · rw [if_pos hfit]
      · rw [if_neg hfit, takeLeft_below hj fuel]
        exact update_of_ne hj.ne ..
    · rw [if_neg hlt]

/-- The loop that takes cells stops at the last cell, or when the next one does not fit. -/
theorem takeLeft_full : ∀ (fuel : Nat) (s : Packing), b.nCell ≤ s.cntNew i + fuel →
    b.nCell ≤ (b.takeLeft i fuel s).cntNew i ∨ b.usableSpace < (b.takeLeft i fuel s).szNew i
      + (2 + b.cachedCellSize ((b.takeLeft i fuel s).cntNew i) : Nat)
  | 0, _, h => Or.inl h
  | fuel + 1, s, h => by
    unfold takeLeft
    dsimp only
    by_cases hlt : s.cntNew i < b.nCell
    · rw [if_pos hlt]
      by_cases hfit : s.szNew i + (2 + b.cachedCellSize (s.cntNew i) : Nat) > b.usableSpace
      · rw [if_pos hfit]
        exact Or.inr hfit
      · rw [if_neg hfit]
        refine takeLeft_full fuel _ ?_
        dsimp only
        rw [update_self]
        omega
    · rw [if_neg hlt]
      exact Or.inl (Nat.le_of_not_lt hlt)

theorem start_congr {cnt cnt' : Nat → Nat} (h : ∀ j < i, cnt' j = cnt j) :
    b.start cnt' i = b.start cnt i := by
  cases i with
  | zero => rfl
  | succ i => simp only [start, h i (Nat.lt_succ_self i)]

theorem le_start (cnt : Nat → Nat) (i : Nat) : (if 0 < i then cnt (i - 1) else 0) ≤ b.start cnt i := by
  cases i with
  | zero => exact le_rfl
  | succ i =>
    rw [if_pos (Nat.succ_pos i)]
    exact Nat.le_add_right _ _

/-- Cells that some cut puts on five siblings are packed onto five siblings. -/
theorem pack_ok (hpos : 0 < b.nCell)
    (hone : ∀ j < b.nCell, ((2 + b.cachedCellSize j : Nat) : Int) ≤ b.usableSpace) :
    ∀ (fuel i : Nat) {s : Packing}, i + fuel = 5 → b.Packed i s → b.Greedy i s →
      (i < s.k → CutInto b.weight b.capacity b.gap (5 - i) (b.cells.drop (b.start s.cntNew i))) →
      ∃ s', b.pack fuel i s = .ok s' ∧ b.Greedy s'.k s'
  | 0, i, s, hf, h, hg, _ => by
    refine ⟨s, rfl, fun j hj hk => hg j ?_ hk⟩
    have := h.k_le
    omega
  | fuel + 1, i, s, hf, h, hg, hcut => by
    unfold pack
    by_cases hi : i < s.k
    swap
    · rw [if_neg hi]
      exact ⟨s, rfl, fun j hj hk => hg j (by omega) hk⟩
    rw [if_pos hi]
    have hcut := hcut hi
    obtain ⟨t, hm⟩ : ∃ t, b.moveRight i (s.cntNew i) s = .ok t := by
      refine moveRight_ok _ ?_
      rcases Nat.lt_or_ge (i + 2) 6 with h5 | h5
      · exact Or.inr (Or.inl (by omega))
      rcases Nat.lt_or_ge (i + 1) s.k with hk | hk
      · exact Or.inl hk
      -- the last of five siblings
      refine Or.inr (Or.inr ?_)
      have h1 := h.size i hi
      have h2 := h.last
      have h3 := upTo_add (b := b) (b.start s.cntNew i) b.nCell
      rw [show 5 - i = 1 by omega, cutInto_one] at hcut
      rw [show s.k - 1 = i by omega] at h2
      have h4 : room b.weight ((b.cells.drop (b.start s.cntNew i)).take b.nCell)
          ≤ room b.weight (b.cells.drop (b.start s.cntNew i)) :=
        room_sublist (List.take_sublist _ _)
      have h5 := upTo_of_le (b := b) (Nat.le_add_left b.nCell (b.start s.cntNew i))
      have h6 := usableSpace_eq (b := b)
      rw [h2] at h1
      omega
    rw [hm]
    obtain ⟨ht, hti, hfit⟩ := moveRight_packed _ h hi le_rfl hm
    obtain ⟨hu, hui, hufit⟩ := takeLeft_packed b.nCell ht hti hfit
    have hfull := @takeLeft_full b i b.nCell t (Nat.le_add_left _ _)
    have hbelow : ∀ j < i, (b.takeLeft i b.nCell t).cntNew j = s.cntNew j := fun j hj => by
      rw [takeLeft_below hj, moveRight_below hj _ hm]
    change ∃ s', (if b.nCell ≤ (b.takeLeft i b.nCell t).cntNew i then _ else _) = _ ∧ _
    generalize b.takeLeft i b.nCell t = u at hu hui hufit hfull hbelow
    have hstart := start_congr (b := b) hbelow
    have hgu : ∀ j < i, b.usableSpace < b.upTo (u.cntNew j + 1) - b.upTo (b.start u.cntNew j) := by
      intro j hj
      have h1 := hg j hj (by omega)
      rwa [hbelow j hj, start_congr (b := b) fun j' hj' => hbelow j' (hj'.trans hj)]
    by_cases hend : b.nCell ≤ u.cntNew i
    · rw [if_pos hend]
      have hcnt : u.cntNew i = b.nCell := Nat.le_antisymm (hu.le i hui) hend
      refine pack_ok hpos hone fuel (i + 1) (by omega) (hu.close hui hcnt hufit hpos) (fun j hj hk => ?_)
        fun hk => absurd hk (lt_irrefl _)
      exact hgu j (Nat.lt_of_succ_lt_succ hk)
    rw [if_neg hend]
    have hsz := hu.size i hui
    have hlt := Nat.lt_of_not_le hend
    have hmax : b.usableSpace < b.upTo (u.cntNew i + 1) - b.upTo (b.start u.cntNew i) := by
      have := hfull.resolve_left hend
      rw [upTo_succ hlt]
      omega
    -- the sibling took a cell, as each cell fits on a sibling of its own
    have htaken : b.start u.cntNew i < u.cntNew i := by
      have h1 := upTo_succ_le hone (b.start u.cntNew i)
      have h2 : b.upTo (b.start u.cntNew i + 1) < b.upTo (u.cntNew i + 1) := by omega
      have := lt_of_upTo_lt h2
      omega
    have hle := le_start (b := b) u.cntNew i
    rw [if_neg (by omega)]
    refine pack_ok hpos hone fuel (i + 1) (by omega) (hu.settle hlt hufit (by omega)) (fun j hj hk => ?_)
      fun hk => ?_
    · rcases Nat.lt_succ_iff_lt_or_eq.1 hj with hj | rfl
      · exact hgu j hj
      · exact hmax
    · rw [← hstart] at hcut
      obtain ⟨c, hc⟩ := Nat.exists_eq_add_of_lt htaken
      have h1 := upTo_add (b := b) (b.start u.cntNew i) (c + 1 + 1)
      have h2 := usableSpace_eq (b := b)
      rw [show 5 - i = 5 - (i + 1) + 1 by omega] at hcut
      have h3 : b.start u.cntNew i + (c + 1 + 1) = u.cntNew i + 1 := by omega
      have hnext := hcut.greedy gap_le (c := c + 1) (by rw [h3] at h1; omega)
      rw [List.drop_drop] at hnext
      convert hnext using 2
      rw [start]
      omega

/-- A left sibling that starts at cell `a` keeps a cell, when the right one has a cell already or the
left one can spare one. -/
theorem shiftRight_left (lst : Bool) {a : Nat} : ∀ (cnt : Nat) (szRight szLeft : Int), cnt ≤ b.nCell →
    szLeft = b.upTo cnt - b.upTo a → a < cnt → 0 ≤ szRight → 0 < szRight ∨ a + 1 < cnt →
    a < (b.shiftRight lst cnt szRight szLeft).1
  | 0, _, _, _, _, h, _, _ => absurd h (Nat.not_lt_zero a)
  | r + 1, szRight, szLeft, hr, hL, ha, h0, h => by
    unfold shiftRight
    dsimp only
    by_cases hstop : szRight ≠ 0 ∧ szRight + b.cachedCellSize (r + b.gap) + 2
        > szLeft - (b.cachedCellSize r + (if lst then 0 else 2))
    · rwa [if_pos hstop]
    rw [if_neg hstop]
    have hs := upTo_succ (b := b) (j := r) (by omega)
    have har : a < r := by
      rcases h with h | h
      · have hle : ¬ szRight + b.cachedCellSize (r + b.gap) + 2
            > szLeft - (b.cachedCellSize r + (if lst then 0 else 2)) := fun hc => hstop ⟨h.ne', hc⟩
        refine lt_of_upTo_lt (b := b) ?_
        split_ifs at hle <;> omega
      · omega
    exact shiftRight_left lst r _ _ (by omega) (by omega) har (by omega) (Or.inl (by omega))

/-- The adjustment goes through when every sibling has a cell, or the last one has none and the one
before it two. -/
theorem adjust_ok (hone : ∀ j < b.nCell, ((2 + b.cachedCellSize j : Nat) : Int) ≤ b.usableSpace) :
    ∀ (i : Nat) {s : Packing}, i < s.k → b.Packed s.k s →
      (∀ j < i, b.start s.cntNew j < s.cntNew j) →
      (b.start s.cntNew i < s.cntNew i ∨ ∀ j, i = j + 1 → b.start s.cntNew j + 1 < s.cntNew j) →
      ∃ s', b.adjust i s = .ok s'
  | 0, s, _, _, _, _ => ⟨s, rfl⟩
  | i + 1, s, hi, h, hne, hlast => by
    have hinner := h.inner i (by omega) hi
    have hszL := h.size i (by omega)
    have hszR := h.size (i + 1) hi
    have hmono := h.mono (i + 1) hi hi
    rw [if_pos (Nat.succ_pos i), Nat.add_sub_cancel] at hmono
    have hstart : b.start s.cntNew (i + 1) ≤ s.cntNew (i + 1) := by
      change s.cntNew i + b.gap ≤ _
      have := gap_le (b := b)
      omega
    have h0 := upTo_mono (b := b) hstart
    have hkeep : b.start s.cntNew i < (b.shiftRight (i + 1 = s.k - 1) (s.cntNew i) (s.szNew (i + 1))
        (s.szNew i)).1 := by
      refine shiftRight_left _ _ _ _ hinner.le hszL (hne i (Nat.lt_succ_self i)) (by omega) ?_
      refine hlast.imp (fun hlt => ?_) fun hlt => hlt i rfl
      have := upTo_lt hlt (h.le (i + 1) hi)
      omega
    unfold adjust
    rcases hrun : b.shiftRight (i + 1 = s.k - 1) (s.cntNew i) (s.szNew (i + 1)) (s.szNew i)
      with ⟨cnt, szRight, szLeft⟩
    rw [hrun] at hkeep
    dsimp only at hkeep ⊢
    have hprev : (if 0 < i then update s.cntNew i cnt (i - 1) else 0)
        = if 0 < i then s.cntNew (i - 1) else 0 := by
      split_ifs
      · exact update_of_ne (by omega) ..
      · rfl
    have hle := le_start (b := b) s.cntNew i
    rw [hprev, if_neg (by omega)]
    refine adjust_ok hone i ?_ (h.shift hone hi hrun (by omega)).1 (fun j hj => ?_) (Or.inl ?_)
    · exact Nat.lt_of_succ_lt hi
    · dsimp only
      rw [start_update_of_ne (by omega), update_of_ne hj.ne]
      exact hne j (Nat.lt_succ_of_lt hj)
    · dsimp only
      rwa [start_update_of_ne (by omega), update_self]

/-- The loops of `balance_nonroot` succeed when the cells can be cut into five siblings, each cell
has room on a sibling, and any two neighbours among interior cells have. -/
theorem distribute_ok {s : Packing} (hpos : 0 < b.nCell)
    (hone : ∀ j < b.nCell, ((2 + b.cachedCellSize j : Nat) : Int) ≤ b.usableSpace)
    (htwo : b.leaf = false → ∀ j, b.upTo (j + 2) - b.upTo j ≤ b.usableSpace) (h : b.Packed 0 s)
    (hcut : CutInto b.weight b.capacity b.gap 5 b.cells) : ∃ s', b.distribute s = .ok s' := by
  obtain ⟨t, hp, hg⟩ := pack_ok hpos hone 5 0 rfl h (fun _ h => absurd h (Nat.not_lt_zero _))
    fun _ => hcut
  have ht := pack_packed hpos 5 0 rfl h hp
  have hk := ht.pos
  unfold distribute
  rw [hp]
  change ∃ s', b.adjust (t.k - 1) t = .ok s'
  have hne : ∀ j < t.k - 1, b.start t.cntNew j < t.cntNew j := fun j hj => by
    have h1 := hg j (by omega) (by omega)
    have h2 := upTo_succ_le hone (b.start t.cntNew j)
    have h3 : b.upTo (b.start t.cntNew j + 1) < b.upTo (t.cntNew j + 1) := by omega
    have := lt_of_upTo_lt h3
    omega
  refine adjust_ok hone (t.k - 1) (by omega) ht hne ?_
  rcases Nat.lt_or_ge (b.start t.cntNew (t.k - 1)) (t.cntNew (t.k - 1)) with hlt | hge
  · exact Or.inl hlt
  refine Or.inr fun j hj => ?_
  -- the last sibling is empty, so a divider took the last cell
  have h1 := hg j (by omega) (by omega)
  have h2 := ht.inner j (by omega) (by omega)
  have h3 := ht.last
  rw [hj, start] at hge
  rw [hj] at h3
  have hleaf : b.leaf = false := by
    by_contra hl
    rw [gap, if_pos (by simpa using hl)] at hge
    omega
  have h4 := htwo hleaf (b.start t.cntNew j)
  have h5 : b.upTo (b.start t.cntNew j + 2) < b.upTo (t.cntNew j + 1) := by omega
  have := lt_of_upTo_lt h5
  omega

end Greedy

/-- What the loops settle on: at most five siblings, each with a cell and with room for its cells,
which hold all cells but the dividers between them. -/
structure SharedOut (s : Packing) : Prop where
  k_pos : 0 < s.k
  k_le : s.k ≤ 5
  increasing : ∀ j, j + 1 < s.k → s.cntNew j < s.cntNew (j + 1)
  cells : ∀ j < s.k, ∀ right, (b.newPage s.cntNew s.k right j).cells ≠ []
  size : ∀ j < s.k, ∀ right,
    s.szNew j = room b.weight (b.newPage s.cntNew s.k right j).cells
  range : ∀ j < s.k, 1 ≤ s.szNew j ∧ s.szNew j ≤ b.usableSpace
  conserved : ∀ right, (List.range s.k).flatMap (fun j => (b.newPage s.cntNew s.k right j).cells
    ++ if j + 1 < s.k then (b.cells.drop (s.cntNew j)).take b.gap else []) = b.cells

section Shared

variable {b} {s : Packing}

theorem Packed.conserved (h : b.Packed s.k s) (hne : ∀ j < s.k, b.start s.cntNew j < s.cntNew j)
    (right : Nat) : ∀ (n j : Nat), j + n + 1 = s.k →
      (List.range' j (n + 1)).flatMap (fun j => (b.newPage s.cntNew s.k right j).cells
        ++ if j + 1 < s.k then (b.cells.drop (s.cntNew j)).take b.gap else [])
      = b.cells.drop (b.start s.cntNew j)
  | 0, j, hj => by
    have hlast := h.last
    rw [show s.k - 1 = j by omega, nCell] at hlast
    simp only [Nat.zero_add, List.range'_one, List.flatMap_singleton, if_neg (show ¬ j + 1 < s.k by omega),
      List.append_nil, newPage]
    exact List.take_of_length_le (by rw [List.length_drop, hlast])
  | n + 1, j, hj => by
    have hlt := hne j (by omega)
    have hd := drop_eq_take_append_drop b.cells hlt.le
    rw [List.range'_succ, List.flatMap_cons, h.conserved hne right n (j + 1) (by omega),
      if_pos (by omega), hd, List.append_assoc]
    refine congrArg ((b.newPage s.cntNew s.k right j).cells ++ ·) ?_
    rw [start, ← List.drop_drop, List.take_append_drop]

theorem Packed.sharedOut (h : b.Packed s.k s) (hne : ∀ j < s.k, b.start s.cntNew j < s.cntNew j) :
    b.SharedOut s where
  k_pos := h.pos
  k_le := h.k_le
  increasing j hj := by
    have := h.mono (j + 1) hj hj
    rwa [if_pos (Nat.succ_pos j), Nat.add_sub_cancel] at this
  cells j hj right := by
    have h1 := hne j hj
    have h2 := h.le j hj
    unfold nCell at h2
    refine List.ne_nil_of_length_pos ?_
    rw [newPage, List.length_take, List.length_drop]
    omega
  size j hj right := by
    have h1 := upTo_add (b := b) (b.start s.cntNew j) (s.cntNew j - b.start s.cntNew j)
    rw [Nat.add_sub_cancel' (hne j hj).le] at h1
    rw [h.size j hj, newPage]
    dsimp only
    omega
  range j hj := by
    have h1 := upTo_lt (hne j hj) (h.le j hj)
    have h2 := h.size j hj
    exact ⟨by omega, h.fit j hj hj⟩
  conserved right := by
    have hk := h.pos
    have := h.conserved hne right (s.k - 1) 0 (by omega)
    rwa [Nat.sub_add_cancel hk, ← List.range_eq_range'] at this

end Shared

end CellArray

/-! ## The siblings an insertion or a deletion leaves -/

/-- A page has room for its cells apart from the overflow cells, which are next to each other: one on
a leaf, up to four on an interior page. -/
structure PageFits (g : Geometry) (p : MemPage) : Prop where
  nFree : 0 ≤ p.nFree g
  ovfl_le : p.ovfl.length ≤ if p.leaf then 1 else 4
  adjacent : ∃ i ≤ p.cells.length, p.ovfl.map Prod.fst = List.range' i p.ovfl.length

def PagesFit (g : Geometry) (page : Nat → PageData) : Prop :=
  ∀ q p, page q = .node p → PageFits g p

/-- How many siblings the cells of a page can be cut into. -/
def MemPage.cuts (p : MemPage) : Nat := if p.ovfl = [] then 1 else 3

section Cuts

variable {b : CellArray} {p : MemPage}

theorem PageFits.room_le (h : PageFits b.g p) (hl : p.leaf = b.leaf) :
    room b.weight p.cells ≤ b.capacity := by
  have h1 := h.nFree
  have h2 := b.g.usable_ge
  unfold MemPage.nFree at h1
  unfold CellArray.capacity
  rw [hl] at h1
  change 0 ≤ (b.g.usableSize : Int) - (if b.leaf = true then 8 else 12)
    - (room b.weight p.cells : Nat) at h1
  split_ifs at h1 ⊢ <;> omega

/-- The cells of an over-full page can be cut into three, if dividers are small enough. -/
theorem PageFits.cutInto {m : Nat} (h : PageFits b.g p) (hl : p.leaf = b.leaf)
    (hone : ∀ c ∈ p.allCells, b.weight c ≤ b.capacity)
    (hm : b.leaf = false → 2 * m ≤ b.capacity ∧ ∀ c ∈ p.allCells, b.weight c ≤ m) :
    CutInto b.weight b.capacity b.gap p.cuts p.allCells := by
  have hroom := h.room_le hl
  have hovfl := h.ovfl_le
  rcases ho : p.ovfl with - | ⟨⟨i, c⟩, rest⟩
  · rw [MemPage.cuts, if_pos ho, MemPage.allCells_of_ovfl_nil ho]
    exact CutInto.of_room hroom
  have hsplit : room b.weight (p.cells.take i) + room b.weight (p.cells.drop i) ≤ b.capacity := by
    rwa [← room_append, List.take_append_drop]
  have hall : p.allCells = p.cells.take i ++ (p.ovfl.map Prod.snd ++ p.cells.drop i) := by
    simp only [MemPage.allCells, ho, List.append_assoc]
  rw [MemPage.cuts, if_neg (by simp [ho]), hall]
  rw [hall] at hone hm
  rw [hl] at hovfl
  rcases hb : b.leaf with - | -
  · have hgap : b.gap = 1 := by simp [CellArray.gap, hb]
    rw [hgap]
    obtain ⟨h1, h2⟩ := hm hb
    refine cutInto_insert_four hsplit (fun x hx => h2 x (by simp only [List.mem_append]; tauto)) h1 ?_
    rw [List.length_map]
    simpa [hb] using hovfl
  · have hgap : b.gap = 0 := by simp [CellArray.gap, hb]
    rw [hb, ho] at hovfl
    obtain rfl : rest = [] := List.eq_nil_of_length_eq_zero (by simpa using hovfl)
    rw [hgap, ho]
    exact cutInto_insert hsplit (hone c (by simp [ho]))

/-- The gathered cells can be cut into as many siblings as the pages they come from. -/
theorem cutInto_loadCells : ∀ {olds : List MemPage} {divs : List Cell}, olds ≠ [] →
    (∀ p ∈ olds, p.leaf = b.leaf) →
    (∀ p ∈ olds, CutInto b.weight b.capacity b.gap p.cuts p.allCells) →
    CutInto b.weight b.capacity b.gap (olds.map MemPage.cuts).sum (loadCells olds divs)
  | [], _, h, _, _ => absurd rfl h
  | [p], _, _, _, h => by simpa [loadCells] using h p List.mem_cons_self
  | p :: q :: ps, divs, _, hl, h => by
    rw [loadCells_cons, List.map_cons, List.sum_cons]
    refine CutInto.append ?_ (cutInto_loadCells (by simp) (fun x hx => hl x (List.mem_cons_of_mem _ hx))
      fun x hx => h x (List.mem_cons_of_mem _ hx)) (h p List.mem_cons_self)
    rw [hl p List.mem_cons_self, CellArray.gap]
    split_ifs <;> rfl

theorem mem_loadCells {c : Cell} : ∀ {olds : List MemPage} {divs : List Cell} {p : MemPage}, p ∈ olds →
    c ∈ p.allCells → c ∈ loadCells olds divs
  | [], _, _, hp, _ => absurd hp List.not_mem_nil
  | [q], _, p, hp, hc => by
    obtain rfl := List.mem_singleton.1 hp
    exact hc
  | q :: q' :: ps, divs, p, hp, hc => by
    rw [loadCells_cons]
    rcases List.mem_cons.1 hp with rfl | hp
    · exact List.mem_append_left _ hc
    · exact List.mem_append_right _ (List.mem_append_right _ (mem_loadCells hp hc))

/-- At most one page has overflow cells. -/
theorem sum_cuts_le {cur : Nat} : ∀ {W : List (Nat × MemPage)}, (W.map Prod.fst).Nodup →
    (∀ w ∈ W, w.1 ≠ cur → w.2.ovfl = []) →
    ((W.map Prod.snd).map MemPage.cuts).sum ≤ W.length + (if cur ∈ W.map Prod.fst then 2 else 0)
  | [], _, _ => by simp
  | w :: W, hnd, h => by
    rw [List.map_cons, List.nodup_cons] at hnd
    have ih := sum_cuts_le hnd.2 fun v hv => h v (List.mem_cons_of_mem _ hv)
    simp only [List.map_cons, List.sum_cons, List.length_cons, List.mem_cons]
    by_cases hw : w.1 = cur
    · rw [if_neg (hw ▸ hnd.1)] at ih
      rw [if_pos (Or.inl hw.symm)]
      have : w.2.cuts ≤ 3 := by
        unfold MemPage.cuts
        split_ifs <;> omega
      omega
    · have h1 : w.2.cuts = 1 := if_pos (h w List.mem_cons_self hw)
      simp only [show ¬ cur = w.1 from fun hc => hw hc.symm, false_or]
      omega

end Cuts

/-! ## Sharing out the cells of a tree -/

/-- Two dividers with keys of `K` bytes have room on one interior page. -/
def TwoDividersFit (g : Geometry) (K : Nat) : Prop := 2 * (2 + kvDividerSize K) ≤ g.usableSize - 12

/-- The loops of `balance_nonroot` share the cells of the siblings `W` out. -/
def Redistributes (g : Geometry) (W : List (Nat × MemPage)) (ds : List Cell) : Prop :=
  ∃ s, (gatheredCells g W ds).distribute ((gatheredCells g W ds).oldPacking (W.map Prod.snd)) = .ok s
    ∧ (gatheredCells g W ds).SharedOut s

section Trees

variable {g : Geometry} {K : Nat} {d : Db} {parent dep cur : Nat} {p : MemPage} {a ds c : List Cell}
  {cl : Nat} {W : List (Nat × MemPage)} {lo hi : Bound} {es : List Entry} {qs R : List Nat}

theorem Gathered.cell_le (h : Gathered g d parent p dep a ds c cl W lo hi es qs R) (hK : K ≤ 255)
    (hd : ∀ c ∈ ds, IsDivider c) (hdK : ∀ c ∈ ds, (xParseCell g false c).nKeyLen ≤ K)
    (hkeys : KeysLe g K d.page) (hb : (gatheredCells g W ds).leaf = false) :
    ∀ x ∈ (gatheredCells g W ds).cells, (gatheredCells g W ds).weight x ≤ 2 + kvDividerSize K := by
  rcases dep with - | dep
  · have := h.leaves.1
    rw [hb] at this
    cases this
  have hcell : ∀ x ∈ (gatheredCells g W ds).cells, (xParseCell g false x).nKeyLen ≤ K := by
    refine loadCells_forall h.length_eq (fun q hq x hx => ?_) fun q hq hl x hx child => ?_
    · obtain ⟨w, hw, rfl⟩ := List.mem_map.1 hq
      have hl := h.leaf_eq _ hq
      rw [hb] at hl
      rw [← hl]
      exact hkeys _ _ (h.holds w hw) x hx
    · have := hdK x hx
      simp only [xParseCell, Bool.false_eq_true, if_false] at this ⊢
      rwa [nKeyLen_setChild]
  intro x hx
  rw [CellArray.weight, hb]
  exact Nat.add_le_add_left (((h.interior hd).2.1 x hx).size_le hK (hcell x hx)) 2

/-- The cells of well-formed siblings are shared out, on leaves always, on interior pages when two
dividers fit on one. -/
theorem Gathered.redistributes (h : Gathered g d parent p dep a ds c cl W lo hi es qs R) (hK : K ≤ 255)
    (hd : ∀ c ∈ ds, IsDivider c) (hdK : ∀ c ∈ ds, (xParseCell g false c).nKeyLen ≤ K)
    (hkeys : KeysLe g K d.page) (hfit : PagesFit g d.page) (hone : ∀ w ∈ W, w.1 ≠ cur → w.2.ovfl = [])
    (htwo : (gatheredCells g W ds).leaf = false → TwoDividersFit g K) : Redistributes g W ds := by
  set b := gatheredCells g W ds with hb
  have hlen := h.length_eq
  have hlen3 := h.length_le
  have hne : W.map Prod.snd ≠ [] := List.ne_nil_of_length_pos (by omega)
  obtain ⟨w, hw, hwcells⟩ := h.filled
  have hpos : 0 < b.nCell :=
    List.length_pos_of_ne_nil (loadCells_ne_nil (List.mem_map_of_mem hw) hwcells)
  have hpacked : b.Packed 0 (b.oldPacking (W.map Prod.snd)) :=
    CellArray.oldPacking_packed hne (by omega) h.leaf_eq rfl
  have hroom : ∀ j < b.nCell, ((2 + b.cachedCellSize j : Nat) : Int) ≤ b.usableSpace := by
    rcases dep with - | dep
    · obtain ⟨hleaf, hce, hon⟩ := h.leaves
      exact leaves_fit hleaf hce hon
    · obtain ⟨hleaf, hdc, -⟩ := h.interior hd
      exact dividers_fit hleaf hdc
  have hweight : ∀ x ∈ b.cells, b.weight x ≤ b.capacity := by
    intro x hx
    obtain ⟨j, hj, rfl⟩ := List.getElem_of_mem hx
    have h1 := hroom j hj
    rw [CellArray.usableSpace_eq, CellArray.cachedCellSize, List.getD_eq_getElem _ _ hj] at h1
    exact Int.ofNat_le.1 h1
  have hdiv : b.leaf = false → 2 * (2 + kvDividerSize K) ≤ b.capacity
      ∧ ∀ x ∈ b.cells, b.weight x ≤ 2 + kvDividerSize K := by
    intro hl
    refine ⟨?_, h.cell_le hK hd hdK hkeys hl⟩
    rw [CellArray.capacity, hl]
    exact htwo hl
  have hcut : CutInto b.weight b.capacity b.gap 5 b.cells := by
    have hnd : (W.map Prod.fst).Nodup := by
      have := h.own.nodup
      rw [List.cons_append, List.nodup_cons] at this
      exact (List.nodup_append.1 (List.nodup_append.1 this.2).1).1
    have hsum := sum_cuts_le hnd hone
    rw [List.length_map] at hlen
    refine (cutInto_loadCells hne h.leaf_eq fun q hq => ?_).mono (show _ ≤ 5 by
      split_ifs at hsum <;> omega)
    obtain ⟨v, hv, rfl⟩ := List.mem_map.1 hq
    exact (hfit _ _ (h.holds v hv)).cutInto (h.leaf_eq _ hq)
      (fun x hx => hweight x (mem_loadCells hq hx))
      fun hl => ⟨(hdiv hl).1, fun x hx => (hdiv hl).2 x (mem_loadCells hq hx)⟩
  have hpair : b.leaf = false → ∀ j, b.upTo (j + 2) - b.upTo j ≤ b.usableSpace := by
    intro hl j
    obtain ⟨h1, h2⟩ := hdiv hl
    have h3 := room_le_length_mul fun x (hx : x ∈ (b.cells.drop j).take 2) =>
      h2 x (List.mem_of_mem_drop (List.mem_of_mem_take hx))
    have h4 := Nat.mul_le_mul_right (2 + kvDividerSize K) (List.length_take_le 2 (b.cells.drop j))
    have h5 := CellArray.upTo_add (b := b) j 2
    have h6 := CellArray.usableSpace_eq (b := b)
    omega
  obtain ⟨s, hs⟩ := CellArray.distribute_ok hpos hroom hpair hpacked hcut
  obtain ⟨h1, h2⟩ := CellArray.distribute_spec hpos hroom hpacked hs
  exact ⟨s, hs, h1.sharedOut h2⟩

/-- The siblings of a page that may be balanced are shared out, and balancing it fails for no other
reason than a fault of the environment. -/
theorem Balanceable.redistributes {parent idx : Nat} (h : Balanceable g d parent idx) (hK : K ≤ 255)
    (hkeys : KeysLe g K d.page) (hfit : PagesFit g d.page) (htwo : TwoDividersFit g K) :
    Returns BtShared.db (gatherSiblings g parent idx) d (fun r _ => Redistributes g r.2.2.1 r.2.2.2)
    ∧ ∀ isRoot, Does (balanceNonroot g parent idx isRoot) d
      (fun _ d' => ∃ dep lo hi es R, Balanced g d d' parent isRoot dep lo hi es R)
      fun e _ => e.isFault = true := by
  obtain ⟨p, dep, lo, hi, m, u, pre, post, cur, es1, es2, es3, ps1, ps2, ps3, R, rfl, hown, hp, ho, hl, hf,
    hd, hkids, hpre, hcur, hpost⟩ := h
  obtain ⟨a, ds, c, cl, W, mA, ul, esA, es, esB, psA, psB, qs, postB, hG, hsw, hchild, ha, hlt, -, -, -,
    htail⟩ := exists_gathered hown ho hkids hpre hcur hpost
  have hds : ∀ x ∈ ds, x ∈ p.allCells := fun x hx => by rw [hG.cells]; simp [hx]
  have hdK : ∀ x ∈ ds, (xParseCell g false x).nKeyLen ≤ K := fun x hx => by
    have := hkeys parent p hp x (hds x hx)
    rwa [hl] at this
  -- the other siblings are settled pages below the parent
  have hone : ∀ w ∈ W, w.1 ≠ cur → w.2.ovfl = [] := by
    intro w hw hne
    have hmem : w.1 ∈ (p.kids hi).map Prod.fst := by
      have hw1 : w.1 ∈ ds.map get4byte ++ [cl] := hG.siblings ▸ List.mem_map_of_mem hw
      have hkids' : (p.kids hi).map Prod.fst
          = a.map get4byte ++ (ds.map get4byte ++ cl :: postB.map Prod.fst) := by
        have h1 := congrArg (List.map Prod.fst) htail
        simp only [List.map_append, List.map_map, Function.comp_def, List.map_cons, List.map_nil] at h1
        simp only [MemPage.kids, hG.cells, List.map_append, List.map_map, Function.comp_def,
          List.map_cons, List.map_nil, List.append_assoc, h1]
      rw [hkids']
      simp only [List.mem_append, List.mem_cons, List.not_mem_nil, or_false] at hw1 ⊢
      tauto
    rw [hkids] at hmem
    obtain ⟨k, hk, hkw⟩ := List.mem_map.1 hmem
    have hsub : ∃ P, d.page k.1 = .node P ∧ Settled g P := by
      rcases List.mem_append.1 hk with hk | hk
      · obtain ⟨_, _, _, ⟨P, _, hP, hset, -⟩, -⟩ := hpre.mem k hk
        exact ⟨P, hP, hset⟩
      rcases List.mem_cons.1 hk with rfl | hk
      · exact absurd hkw.symm hne
      · obtain ⟨_, _, _, ⟨P, _, hP, hset, -⟩, -⟩ := hpost.mem k hk
        exact ⟨P, hP, hset⟩
    obtain ⟨P, hP, hset⟩ := hsub
    rw [hkw, hG.holds w hw] at hP
    rw [PageData.node.inj hP]
    exact hset.ovfl
  have hred := hG.redistributes hK (fun x hx => hd x (hds x hx)) hdK hkeys hfit hone fun _ => htwo
  refine ⟨?_, fun isRoot => ?_⟩
  · refine (hG.gatherSiblings_returns hp ho hsw hchild ha hlt).post ?_
    intro r _ hr
    rwa [hr.1, hr.2]
  · obtain ⟨s, hs, -⟩ := hred
    refine ((hG.balanceNonroot_does (fun e _ (he : e.isFault = true) => he)
      (fun e he => by rw [hs] at he; cases he) hp ho hl hf hd hsw hchild ha hlt).and
      (balanceNonroot_returns hown hp ho hl hf hd hkids hpre hcur hpost)).mono ?_ fun _ _ h => h.1
    intro _ d' h
    exact ⟨_, _, _, _, _, h.2⟩

end Trees

/-! ### An interior page with one divider more than it has room for -/

section ThreeLeaves

variable (g : Geometry) (k1 k2 k3 : Key)

/-- The only child of a root that has just become deeper. -/
def threeLeavesChild : MemPage where
  leaf := false
  cells := [kvInteriorCell 4 k1]
  right := 6
  ovfl := [(1, kvInteriorCell 5 k2)]

def threeLeavesRoot : MemPage where
  leaf := false
  cells := []
  right := 3
  ovfl := []

def threeLeaves : Db where
  nPage := 6
  page
    | 1 => .page1 { nPage := 6, trunk := 0, nFree := 0 }
    | 2 => .node threeLeavesRoot
    | 3 => .node (threeLeavesChild k1 k2)
    | 4 => .node (keyLeaf g k1)
    | 5 => .node (keyLeaf g k2)
    | 6 => .node (keyLeaf g k3)
    | _ => .raw

variable {g k1 k2 k3}

theorem threeLeaves_node {q : Nat} {p : MemPage} (h : (threeLeaves g k1 k2 k3).page q = .node p) :
    p = threeLeavesRoot ∨ p = threeLeavesChild k1 k2 ∨ ∃ k ∈ [k1, k2, k3], p = keyLeaf g k := by
  unfold threeLeaves at h
  dsimp only at h
  split at h <;> simp_all

theorem keyLeaf_fits {key : Key} (hk : key.length ≤ 255) : PageFits g (keyLeaf g key) := by
  obtain ⟨p, qs, hp, hset, -, -⟩ := @keyLeaf_sub g (fun _ => .node (keyLeaf g key)) 0 key ⊥ ⊤ rfl hk
    (by simp) le_top
  obtain rfl := PageData.node.inj hp
  exact ⟨hset.nFree, by simp [keyLeaf], 0, Nat.zero_le _, rfl⟩

theorem threeLeaves_pagesFit (h1 : k1.length ≤ 255) (h2 : k2.length ≤ 255) (h3 : k3.length ≤ 255) :
    PagesFit g (threeLeaves g k1 k2 k3).page := by
  have hu := g.usable_ge
  intro q p hp
  rcases threeLeaves_node hp with rfl | rfl | ⟨k, hk, rfl⟩
  · refine ⟨?_, by simp [threeLeavesRoot], 0, le_rfl, rfl⟩
    simp only [MemPage.nFree, threeLeavesRoot, Bool.false_eq_true, if_false, List.map_nil, List.sum_nil]
    omega
  · obtain ⟨hsize, hle⟩ := divider_cell_fits g ⟨4, k1, by decide, h1, rfl⟩
    refine ⟨?_, by simp [threeLeavesChild], 1, le_rfl, rfl⟩
    simp only [MemPage.nFree, threeLeavesChild, Bool.false_eq_true, if_false, List.map_cons, List.map_nil,
      List.sum_cons, List.sum_nil, hsize]
    omega
  · refine keyLeaf_fits ?_
    simp only [List.mem_cons, List.not_mem_nil, or_false] at hk
    rcases hk with rfl | rfl | rfl <;> assumption

theorem threeLeaves_keysLe {K : Nat} (hK : K ≤ 255) (h1 : k1.length ≤ K) (h2 : k2.length ≤ K)
    (h3 : k3.length ≤ K) : KeysLe g K (threeLeaves g k1 k2 k3).page := by
  intro q p hp c hc
  rcases threeLeaves_node hp with rfl | rfl | ⟨k, hk, rfl⟩
  · simp [threeLeavesRoot, MemPage.allCells] at hc
  · simp only [threeLeavesChild, MemPage.allCells, List.take_succ_cons, List.take_zero, List.map_cons,
      List.map_nil, List.drop_succ_cons, List.drop_zero, List.append_nil, List.cons_append, List.nil_append,
      List.mem_cons, List.not_mem_nil, or_false] at hc
    simp only [xParseCell, threeLeavesChild, Bool.false_eq_true, if_false]
    rcases hc with rfl | rfl
    · rwa [kvParseCellInterior_nKeyLen (h1.trans hK)]
    · rwa [kvParseCellInterior_nKeyLen (h2.trans hK)]
  · have hk' : k.length ≤ K := by
      simp only [List.mem_cons, List.not_mem_nil, or_false] at hk
      rcases hk with rfl | rfl | rfl <;> assumption
    simp only [keyLeaf, MemPage.allCells, List.mem_singleton] at hc
    subst hc
    rwa [show (keyLeaf g k).leaf = true from rfl, keyCell_nKeyLen (hk'.trans hK)]

theorem threeLeaves_balanceable (h1 : k1.length ≤ 255) (h2 : k2.length ≤ 255) (h3 : k3.length ≤ 255)
    (h12 : k1 < k2) (h23 : k2 < k3) : Balanceable g (threeLeaves g k1 k2 k3) 2 0 := by
  have hu := g.usable_ge
  have hpend := pendingBytePage_gt g
  have hsub4 : Sub g (threeLeaves g k1 k2 k3).page 0 ⊥ 4 k1.bound [keyEntry g k1] [4] :=
    keyLeaf_sub rfl h1 (by simp [Key.bound]) le_rfl
  have hsub5 : Sub g (threeLeaves g k1 k2 k3).page 0 k1.bound 5 k2.bound [keyEntry g k2] [5] :=
    keyLeaf_sub rfl h2 (Key.bound_lt.2 h12) le_rfl
  have hsub6 : Sub g (threeLeaves g k1 k2 k3).page 0 k2.bound 6 ⊤ [keyEntry g k3] [6] :=
    keyLeaf_sub rfl h3 (Key.bound_lt.2 h23) le_top
  have hown : Owns g (threeLeaves g k1 k2 k3) (2 :: ([] ++ ([3, 4, 5, 6] ++ [])) ++ []) := by
    refine ⟨[], rfl, rfl, rfl, rfl, by simp, by simp [freePages], fun p => ?_, by simp [threeLeaves],
      by simp [threeLeaves, mxPgno]⟩
    change p ∈ [2, 3, 4, 5, 6] ↔ 2 ≤ p ∧ p ≤ 6 ∧ p ≠ pendingBytePage g
    simp only [List.mem_cons, List.not_mem_nil, or_false]
    omega
  refine ⟨threeLeavesRoot, 1, ⊥, ⊤, ⊥, ⊤, [], [], 3, [], [keyEntry g k1, keyEntry g k2, keyEntry g k3], [],
    [], [3, 4, 5, 6], [], [], rfl, hown, rfl, Or.inl rfl, rfl, ?_, by simp [threeLeavesRoot, MemPage.allCells],
    rfl, ⟨rfl, rfl, rfl⟩, ?_, ⟨rfl, rfl, rfl⟩⟩
  · exact (threeLeaves_pagesFit h1 h2 h3 2 _ rfl).nFree
  · refine ⟨threeLeavesChild k1 k2, [4, 5, 6], rfl, fun _ => by simp [threeLeavesChild, MemPage.allCells], rfl,
      body_succ.2 ⟨rfl, ?_, ?_⟩⟩
    · intro c hc
      simp only [threeLeavesChild, MemPage.allCells, List.take_succ_cons, List.take_zero, List.map_cons,
        List.map_nil, List.drop_succ_cons, List.drop_zero, List.append_nil, List.cons_append,
        List.nil_append, List.mem_cons, List.not_mem_nil, or_false] at hc
      rcases hc with rfl | rfl
      · exact ⟨4, k1, by decide, h1, rfl⟩
      · exact ⟨5, k2, by decide, h2, rfl⟩
    · have hkids : (threeLeavesChild k1 k2).kids ⊤ = [(4, k1.bound), (5, k2.bound), (6, ⊤)] := by
        simp [MemPage.kids, threeLeavesChild, MemPage.allCells, divKey, kvInteriorCell_key h1,
          kvInteriorCell_key h2, kvInteriorCell_child]
      rw [hkids]
      exact ⟨_, _, [4], [5, 6], rfl, rfl, hsub4, _, _, [5], [6], rfl, rfl, hsub5,
        Seg.single_iff.2 ⟨rfl, hsub6⟩⟩

/-- The only child is gathered. -/
theorem threeLeaves_gather : wp (gatherSiblings g 2 0)
    (fun r _ => r.2.2 = ([(3, threeLeavesChild k1 k2)], [])) (fun _ _ => False)
    (stateOf (threeLeaves g k1 k2 k3)) := by
  have hpend := pendingBytePage_gt g
  unfold gatherSiblings
  rw [wp_bind]
  refine wp_tick_of_nil rfl ?_
  rw [wp_bind]
  refine wp_nodeAt rfl ?_
  change wp (loadSiblings g 2 0 0 3 >>= _) _ _ _
  rw [wp_bind]
  unfold loadSiblings
  rw [wp_bind]
  exact wp_getAndInitPage rfl rfl (by omega) (by omega) (show 3 ≤ 6 by omega) (by decide) rfl

/-- Two dividers too large for one page are one cell too few for two. -/
theorem Redistributes.two_fit (h1 : k1.length ≤ 255) (h2 : k2.length ≤ 255)
    (h : Redistributes g [(3, threeLeavesChild k1 k2)] []) :
    2 + kvDividerSize k1.length + (2 + kvDividerSize k2.length) ≤ g.usableSize - 12 := by
  obtain ⟨s, -, hs⟩ := h
  set b := gatheredCells g [(3, threeLeavesChild k1 k2)] [] with hb
  have hleaf : b.leaf = false := rfl
  have hcells : b.cells = [kvInteriorCell 4 k1, kvInteriorCell 5 k2] := rfl
  have hw : ∀ (child : Nat) (k : Key), child < 2 ^ 32 → k.length ≤ 255 →
      b.weight (kvInteriorCell child k) = 2 + kvDividerSize k.length := by
    intro child k hc hk
    have hdiv : IsDivider (kvInteriorCell child k) := ⟨child, k, hc, hk, rfl⟩
    rw [CellArray.weight, hleaf, hdiv.size_eq]
    simp only [kvInteriorCell, kvDividerSize, List.length_append, put4byte_length]
  have hstart : ∀ j < s.k, b.start s.cntNew j < s.cntNew j ∧ b.start s.cntNew j < 2 := by
    intro j hj
    have := List.length_pos_of_ne_nil (hs.cells j hj 0)
    rw [CellArray.newPage, List.length_take, List.length_drop, hcells] at this
    simp only [List.length_cons, List.length_nil] at this
    omega
  have hk := hs.k_pos
  obtain ⟨h3, -⟩ := hstart 0 hk
  have hone : s.k = 1 := by
    by_contra hne
    obtain ⟨-, h4⟩ := hstart 1 (by omega)
    rw [CellArray.start, CellArray.gap, hleaf, if_neg (by simp)] at h4
    rw [CellArray.start] at h3
    omega
  have hall := hs.conserved 0
  rw [hone] at hall
  simp only [List.range_one, List.flatMap_singleton, Nat.zero_add, lt_irrefl, if_false,
    List.append_nil] at hall
  have hsize := hs.size 0 hk 0
  have hrange := (hs.range 0 hk).2
  have hu := CellArray.usableSpace_eq (b := b)
  rw [hone, hall, hcells, room_cons, room_cons, room_nil, hw 4 k1 (by decide) h1,
    hw 5 k2 (by decide) h2] at hsize
  have hcap : b.capacity = g.usableSize - 12 := rfl
  omega

end ThreeLeaves

section Limit

variable {g : Geometry} {K : Nat}

/-- Sharing out the cells of well-formed siblings always succeeds, so that balancing never finds the
tree corrupt, if and only if two of the largest dividers have room on one interior page. -/
theorem redistributes_iff (hK : K ≤ 255) :
    (∀ d parent idx, Balanceable g d parent idx → KeysLe g K d.page → PagesFit g d.page →
      Returns BtShared.db (gatherSiblings g parent idx) d (fun r _ => Redistributes g r.2.2.1 r.2.2.2)
      ∧ ∀ isRoot, Does (balanceNonroot g parent idx isRoot) d
        (fun _ d' => ∃ dep lo hi es R, Balanced g d d' parent isRoot dep lo hi es R)
        fun e _ => e.isFault = true)
    ↔ TwoDividersFit g K := by
  refine ⟨fun h => ?_, fun htwo d parent idx hb hkeys hfit => hb.redistributes hK hkeys hfit htwo⟩
  have hu := g.usable_ge
  rcases K with - | n
  · rw [TwoDividersFit, kvDividerSize_eq hK, if_pos (by decide)]
    omega
  have hlen : ∀ x : UInt8, (List.replicate (n + 1) x).length = n + 1 := fun x => List.length_replicate
  have hle : ∀ x : UInt8, (List.replicate (n + 1) x).length ≤ 255 := fun x => (hlen x).le.trans hK
  have hlt : ∀ {x y : UInt8}, x < y → List.replicate (n + 1) x < List.replicate (n + 1) y := fun hxy => by
    rw [List.replicate_succ, List.replicate_succ]
    exact List.Lex.rel hxy
  have hrun := (h _ 2 0 (threeLeaves_balanceable (hle 1) (hle 2) (hle 3) (hlt (by decide)) (hlt (by decide)))
    (threeLeaves_keysLe hK (hlen 1).le (hlen 2).le (hlen 3).le)
    (threeLeaves_pagesFit (hle 1) (hle 2) (hle 3))).1 (stateOf (threeLeaves g _ _ _)) rfl
  have hboth := hrun.and (threeLeaves_gather (g := g))
  unfold wp at hboth
  split at hboth
  · obtain ⟨hred, hr⟩ := hboth
    rw [hr] at hred
    have := hred.two_fit (hle 1) (hle 2)
    rw [hlen, hlen] at this
    rw [TwoDividersFit]
    omega
  · exact hboth.2.elim

/-- On the smallest pages keys of 242 bytes are short enough, those of 243 bytes too long. -/
theorem redistributes_smallPages :
    (∀ d parent idx, Balanceable smallPages d parent idx → KeysLe smallPages 242 d.page →
      PagesFit smallPages d.page →
      Returns BtShared.db (gatherSiblings smallPages parent idx) d
        (fun r _ => Redistributes smallPages r.2.2.1 r.2.2.2)
      ∧ ∀ isRoot, Does (balanceNonroot smallPages parent idx isRoot) d
        (fun _ d' => ∃ dep lo hi es R, Balanced smallPages d d' parent isRoot dep lo hi es R)
        fun e _ => e.isFault = true)
    ∧ ¬ TwoDividersFit smallPages 243 :=
  ⟨(redistributes_iff (by decide)).2 (by unfold TwoDividersFit; decide), by unfold TwoDividersFit; decide⟩

/-- The error a run ends with. -/
def errorOf {α : Type} : EStateM.Result Rc BtShared α → Option Rc
  | .ok _ _ => none
  | .error e _ => some e

/-- Three entries with keys of 255 bytes are more than pages of 512 bytes can take: the third one makes
the root split, and the cells of the new root's child cannot be shared out. -/
theorem longLeaves_corrupt :
    errorOf (balance smallPages false 4 [(2, 1)] (stateOf longLeaves)) = some .corrupt
      ∧ errorOf (balanceNonroot smallPages 2 0 true
        (stateOf (threeLeaves smallPages (longKey 1) (longKey 2) (longKey 3)))) = some .corrupt := by
  decide +kernel

end Limit

end Btreelite
