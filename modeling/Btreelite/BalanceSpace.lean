import Btreelite.BalanceData

/-!
# The scratch space of balancing

`aSpace1` holds copies of the dividers between interior siblings, `aOvflSpace` the dividers behind the
new siblings; both have the size of a page. How long keys may be for the dividers to fit.
-/

namespace Btreelite

open Prog Segment

/-! ## The code -/

section Code

variable (g : Geometry)

/-- `balance_nonroot` up to the copies of the dividers: `nxDiv`, whether the last sibling is the right
child, `apOld[]` and `apDiv[]`. -/
def gatherSiblings (parent iParentIdx : Nat) : BtM (Nat × Bool × List (Nat × MemPage) × List Cell) := do
  tick
  let p ← nodeAt parent
  let (nxDiv, nDiv) := siblingWindow (p.ovfl.length + p.cells.length) iParentIdx
  let iRight := nDiv + nxDiv - p.ovfl.length
  let (olds, divs) ← loadSiblings g parent nxDiv nDiv (p.childAt iRight)
  return (nxDiv, decide (iRight = p.cells.length), olds, divs)

/-- `iSpace1` after the first `n` dividers. -/
def iSpace1 (leaf : Bool) (divs : List Cell) (n : Nat) : Nat :=
  if leaf then 0 else ((divs.take n).map (xCellSize g false)).sum

variable (b : CellArray)

/-- `sz`, for the divider behind a sibling that ends before cell `j`. -/
def CellArray.dividerSz (j : Nat) : Nat :=
  if b.leaf then
    let info := kvParseCellLeaf b.g (b.cells.getD (j - 1) [])
    4 + (putVarint32 info.nKeyLen).length + info.nKeyLen
  else b.cachedCellSize j

/-- `iOvflSpace` after the dividers behind the first `n` siblings. -/
def CellArray.iOvflSpace (cntNew : Nat → Nat) : Nat → Nat
  | 0 => 0
  | n + 1 => CellArray.iOvflSpace cntNew n + b.dividerSz (cntNew n)

end Code

/-- What `balance_nonroot` goes on to do with the siblings `olds` and the dividers `divs` is within its
buffers, and no divider is larger than a quarter of the page. -/
structure BuffersFit (g : Geometry) (olds : List (Nat × MemPage)) (divs : List Cell) : Prop where
  old_quarter : ∀ c ∈ divs, 4 * xCellSize g false c ≤ g.pageSize
  space1 : ∀ n, iSpace1 g (gatheredCells g olds divs).leaf divs n ≤ g.pageSize
  new_quarter : ∀ s, (gatheredCells g olds divs).distribute
      ((gatheredCells g olds divs).oldPacking (olds.map Prod.snd)) = .ok s →
    ∀ n, n + 1 < s.k → 4 * (gatheredCells g olds divs).dividerSz (s.cntNew n) ≤ g.pageSize
  ovfl_space : ∀ s, (gatheredCells g olds divs).distribute
      ((gatheredCells g olds divs).oldPacking (olds.map Prod.snd)) = .ok s →
    ∀ n, n < s.k → (gatheredCells g olds divs).iOvflSpace s.cntNew n ≤ g.pageSize

/-- The first half of `balance_nonroot`, and what it does with the result. -/
theorem balanceNonroot_eq (g : Geometry) (parent iParentIdx : Nat) (isRoot : Bool) :
    balanceNonroot g parent iParentIdx isRoot = (do
      let (nxDiv, isRight, olds, divs) ← gatherSiblings g parent iParentIdx
      tick
      let b := gatheredCells g olds divs
      if (olds.map Prod.snd).any (·.leaf != b.leaf) then throw .corrupt
      else
        match b.distribute (b.oldPacking (olds.map Prod.snd)) with
        | .error e => throw e
        | .ok s => placeSiblings g parent nxDiv isRight isRoot olds b s) := by
  unfold balanceNonroot gatherSiblings
  simp only [bind_assoc, pure_bind]
  rfl

/-! ## The size of dividers -/

/-- The size of a divider whose key has `n` bytes. -/
def kvDividerSize (n : Nat) : Nat := 4 + (putVarint32 n).length + n

/-- No cell has a key of more than `K` bytes. -/
def KeysLe (g : Geometry) (K : Nat) (page : Nat → PageData) : Prop :=
  ∀ q p, page q = .node p → ∀ c ∈ p.allCells, (xParseCell g p.leaf c).nKeyLen ≤ K

section Sizes

variable {g : Geometry} {K : Nat}

theorem kvDividerSize_eq {n : Nat} (h : n ≤ 255) : kvDividerSize n = (if n < 0x80 then 5 else 6) + n := by
  rw [kvDividerSize, putVarint32_length_of_lt (by omega)]
  split_ifs <;> rfl

theorem kvDividerSize_mono {m n : Nat} (h : m ≤ n) (hn : n ≤ 255) : kvDividerSize m ≤ kvDividerSize n := by
  rw [kvDividerSize_eq hn, kvDividerSize_eq (h.trans hn)]
  split_ifs <;> omega

theorem kvParseCellInterior_nKeyLen {child : Nat} {key : Key} (hk : key.length ≤ 255) :
    (kvParseCellInterior (kvInteriorCell child key)).nKeyLen = key.length := by
  have h1 := getVarint32_putVarint32 (v := key.length) (by omega) key
  have hd : (kvInteriorCell child key).drop 4 = putVarint32 key.length ++ key := by
    simp only [kvInteriorCell, List.append_assoc]
    exact List.drop_left' (put4byte_length _)
  simp only [kvParseCellInterior, hd, h1]

theorem nKeyLen_setChild (child : Nat) (c : Cell) :
    (kvParseCellInterior (setChild child c)).nKeyLen = (kvParseCellInterior c).nKeyLen := by
  simp only [kvParseCellInterior, setChild, List.drop_left' (put4byte_length child)]

theorem IsDivider.size_le {c : Cell} (h : IsDivider c) (hK : K ≤ 255)
    (hc : (xParseCell g false c).nKeyLen ≤ K) : xCellSize g false c ≤ kvDividerSize K := by
  rw [h.size_eq g]
  obtain ⟨child, key, -, hk, rfl⟩ := h
  simp only [xParseCell, Bool.false_eq_true, if_false, kvParseCellInterior_nKeyLen hk] at hc
  refine le_trans (Nat.le_of_eq ?_) (kvDividerSize_mono hc hK)
  simp only [kvInteriorCell, List.length_append, put4byte_length, kvDividerSize]

/-- What holds of the cells of the siblings and of the dividers between these holds of the gathered
cells. -/
theorem loadCells_forall {P : Cell → Prop} : ∀ {olds : List MemPage} {divs : List Cell},
    olds.length = divs.length + 1 → (∀ p ∈ olds, ∀ c ∈ p.allCells, P c) →
    (∀ p ∈ olds, p.leaf = false → ∀ c ∈ divs, ∀ child, P (setChild child c)) →
    ∀ c ∈ loadCells olds divs, P c
  | [], _, h, _, _ => by simp at h
  | [p], _, _, h1, _ => fun c hc => h1 p List.mem_cons_self c hc
  | p :: q :: ps, [], h, _, _ => by simp at h
  | p :: q :: ps, x :: divs, h, h1, h2 => by
    have ih := @loadCells_forall P (q :: ps) divs (by simpa using h)
      (fun y hy => h1 y (List.mem_cons_of_mem _ hy))
      fun y hy hl c hc => h2 y (List.mem_cons_of_mem _ hy) hl c (List.mem_cons_of_mem _ hc)
    rw [loadCells_cons]
    intro c hc
    simp only [List.mem_append, List.headD_cons, List.tail_cons] at hc
    rcases hc with hc | hc | hc
    · exact h1 p List.mem_cons_self c hc
    · rcases hl : p.leaf with - | -
      · simp only [hl, Bool.false_eq_true, if_false, List.mem_singleton] at hc
        rw [hc]
        exact h2 p List.mem_cons_self hl x List.mem_cons_self _
      · simp [hl] at hc
    · exact ih c hc

theorem CellArray.iOvflSpace_le {b : CellArray} {cnt : Nat → Nat} {B : Nat} : ∀ {n : Nat},
    (∀ m < n, b.dividerSz (cnt m) ≤ B) → b.iOvflSpace cnt n ≤ n * B
  | 0, _ => by simp [iOvflSpace]
  | n + 1, h => by
    have h1 := iOvflSpace_le fun m hm => h m (Nat.lt_succ_of_lt hm)
    have h2 := h n (Nat.lt_succ_self n)
    rw [iOvflSpace, Nat.succ_mul]
    omega

theorem sum_map_le {l : List Cell} {f : Cell → Nat} {B : Nat} (h : ∀ c ∈ l, f c ≤ B) :
    (l.map f).sum ≤ l.length * B := by
  have := List.sum_le_card_nsmul (l.map f) B fun x hx => by
    obtain ⟨c, hc, rfl⟩ := List.mem_map.1 hx
    exact h c hc
  simpa using this

variable {d : Db} {parent dep : Nat} {p : MemPage} {a ds c : List Cell} {cl : Nat}
  {W : List (Nat × MemPage)} {lo hi : Bound} {es : List Entry} {qs R : List Nat}

/-- The dividers fit when four of the largest fit a page. -/
theorem Gathered.buffersFit (h : Gathered g d parent p dep a ds c cl W lo hi es qs R) (hK : K ≤ 255)
    (hd : ∀ c ∈ ds, IsDivider c) (hdK : ∀ c ∈ ds, (xParseCell g false c).nKeyLen ≤ K)
    (hkeys : KeysLe g K d.page) (h4 : 4 * kvDividerSize K ≤ g.pageSize) : BuffersFit g W ds := by
  set b := gatheredCells g W ds with hb
  have hds : ∀ c ∈ ds, xCellSize g false c ≤ kvDividerSize K := fun c hc => (hd c hc).size_le hK (hdK c hc)
  have hnew : ∀ s, b.distribute (b.oldPacking (W.map Prod.snd)) = .ok s → s.k ≤ 5
      ∧ ∀ n, n + 1 < s.k → b.dividerSz (s.cntNew n) ≤ kvDividerSize K := by
    intro s hs
    obtain ⟨⟨hp, hne⟩, -⟩ := h.redistribute hd hs
    refine ⟨hp.k_le, fun n hn => ?_⟩
    have hin : s.cntNew n < b.nCell := hp.inner n (by omega) hn
    have hlt := hne n (by omega)
    have hcell : ∀ c ∈ b.cells, (xParseCell g b.leaf c).nKeyLen ≤ K := by
      refine loadCells_forall h.length_eq (fun q hq c hc => ?_) fun q hq hl c hc child => ?_
      · obtain ⟨w, hw, rfl⟩ := List.mem_map.1 hq
        rw [← h.leaf_eq _ hq]
        exact hkeys _ _ (h.holds w hw) c hc
      · rw [← h.leaf_eq _ hq, hl]
        have := hdK c hc
        simp only [xParseCell, Bool.false_eq_true, if_false] at this ⊢
        rwa [nKeyLen_setChild]
    rw [CellArray.dividerSz]
    rcases hl : b.leaf with - | -
    · rcases dep with - | dep
      · have := h.leaves.1
        rw [← hb, hl] at this
        simp at this
      · have hmem := getD_mem_cells hin
        have hk := hcell _ hmem
        rw [hl] at hk
        simp only [Bool.false_eq_true, if_false]
        rw [CellArray.cachedCellSize, hl]
        exact ((h.interior hd).2.1 _ hmem).size_le hK hk
    · have hk := hcell _ (getD_mem_cells (show s.cntNew n - 1 < b.nCell by omega))
      rw [hl] at hk
      simp only [xParseCell, if_true] at hk ⊢
      exact kvDividerSize_mono hk hK
  refine ⟨fun c hc => (Nat.mul_le_mul_left 4 (hds c hc)).trans h4, fun n => ?_, fun s hs n hn => ?_,
    fun s hs n hn => ?_⟩
  · rw [iSpace1]
    split_ifs
    · exact Nat.zero_le _
    · have h1 := sum_map_le fun c (hc : c ∈ ds.take n) => hds c (List.mem_of_mem_take hc)
      have h2 : (ds.take n).length ≤ 2 := (List.length_take_le' n ds).trans h.length_le
      have h3 := Nat.mul_le_mul_right (kvDividerSize K) h2
      omega
  · exact (Nat.mul_le_mul_left 4 ((hnew s hs).2 n hn)).trans h4
  · obtain ⟨hk5, hsz⟩ := hnew s hs
    have h1 := CellArray.iOvflSpace_le (n := n) fun m hm => hsz m (show m + 1 < s.k by omega)
    have h2 := Nat.mul_le_mul_right (kvDividerSize K) (show n ≤ 4 by omega)
    change b.iOvflSpace s.cntNew n ≤ g.pageSize
    omega

end Sizes

/-! ## How long keys may be -/

/-- `balance_nonroot` may be called for child `idx` of the page `parent`: it is an interior page of a
tree in which no other page needs balancing. -/
def Balanceable (g : Geometry) (d : Db) (parent idx : Nat) : Prop :=
  ∃ (p : MemPage) (dep : Nat) (lo hi m u : Bound) (pre post : List (Nat × Bound)) (cur : Nat)
    (es1 es2 es3 : List Entry) (ps1 ps2 ps3 R : List Nat),
    pre.length = idx ∧ Owns g d (parent :: (ps1 ++ (ps2 ++ ps3)) ++ R) ∧ d.page parent = .node p
      ∧ OvflDivider p pre.length ∧ p.leaf = false ∧ 0 ≤ p.nFree g ∧ (∀ c ∈ p.allCells, IsDivider c)
      ∧ p.kids hi = pre ++ (cur, u) :: post ∧ Seg (Sub g d.page dep) lo pre m es1 ps1
      ∧ Node g d.page (fun c => p.allCells = [] → c.allCells ≠ []) dep m cur u es2 ps2
      ∧ Seg (Sub g d.page dep) u post hi es3 ps3

section Calls

variable {g : Geometry} {d : Db} {parent idx K : Nat}

/-- What `gatherSiblings` returns: the siblings, with the dividers between them. -/
theorem Gathered.gatherSiblings_returns {dep : Nat} {p : MemPage} {a ds c : List Cell} {cl : Nat}
    {W : List (Nat × MemPage)} {lo hi : Bound} {es : List Entry} {qs R : List Nat}
    (hG : Gathered g d parent p dep a ds c cl W lo hi es qs R) (hp : d.page parent = .node p)
    (ho : OvflDivider p idx) (hsw : siblingWindow p.allCells.length idx = (a.length, ds.length))
    (hchild : p.childAt (ds.length + a.length - p.ovfl.length) = cl) (ha : a.length ≤ idx)
    (hlt : p.ovfl = [] ∨ idx < a.length + ds.length) :
    Returns BtShared.db (gatherSiblings g parent idx) d fun r _ => r.2.2.1 = W ∧ r.2.2.2 = ds := by
  have hparent : ∀ q ∈ (W.map Prod.fst ++ qs) ++ R, q ≠ parent := by
    have hnd := hG.own.nodup
    rw [List.cons_append, List.nodup_cons] at hnd
    exact fun q hq => ne_of_mem_of_not_mem hq hnd.1
  unfold gatherSiblings
  refine (tick_does fun _ _ => trivial).bind ?_
  intro _ _ heq
  subst heq
  refine (nodeAt_does hp).bind ?_
  intro x d' heq
  obtain ⟨rfl, rfl⟩ := heq
  simp only [ho.length, hsw, hchild]
  refine (loadSiblings_does (fun _ _ _ => trivial) ha ds hp (ho.inside hlt) hG.cells hG.siblings hG.holds
    fun w hw => ?_).bind ?_
  · have hmem : w.1 ∈ W.map Prod.fst := List.mem_map_of_mem hw
    exact ⟨hparent _ (by simp [hmem]), hG.own.inRange (by simp [hmem])⟩
  intro r d1 heq
  obtain ⟨rfl, -⟩ := heq
  exact Ensures.pure ⟨rfl, rfl⟩

/-- The dividers of a tree with keys of at most `K` bytes fit when four of the largest fit a page. -/
theorem Balanceable.buffersFit (h : Balanceable g d parent idx) (hK : K ≤ 255) (hkeys : KeysLe g K d.page)
    (h4 : 4 * kvDividerSize K ≤ g.pageSize) :
    Returns BtShared.db (gatherSiblings g parent idx) d fun r _ => BuffersFit g r.2.2.1 r.2.2.2 := by
  obtain ⟨p, dep, lo, hi, m, u, pre, post, cur, es1, es2, es3, ps1, ps2, ps3, R, rfl, hown, hp, ho, hl, -,
    hd, hkids, hpre, hcur, hpost⟩ := h
  obtain ⟨a, ds, c, cl, W, mA, ul, esA, es, esB, psA, psB, qs, postB, hG, hsw, hchild, ha, hlt, -, -, -, -⟩ :=
    exists_gathered hown ho hkids hpre hcur hpost
  have hds : ∀ x ∈ ds, x ∈ p.allCells := fun x hx => by rw [hG.cells]; simp [hx]
  have hdK : ∀ x ∈ ds, (xParseCell g false x).nKeyLen ≤ K := fun x hx => by
    have := hkeys parent p hp x (hds x hx)
    rwa [hl] at this
  refine (hG.gatherSiblings_returns hp ho hsw hchild ha hlt).post ?_
  intro r _ hr
  rw [hr.1, hr.2]
  exact hG.buffersFit hK (fun x hx => hd x (hds x hx)) hdK hkeys h4

end Calls

/-! ### Two leaves with the divider between them -/

section TwoLeaves

variable {g : Geometry} {k1 k2 : Key}

theorem twoLeaves_balanceable (h1 : k1.length ≤ 255) (h2 : k2.length ≤ 255) (hlt : k1 < k2) :
    Balanceable g (twoLeaves g k1 k2) 2 0 := by
  have hpend := pendingBytePage_gt g
  have hdiv1 : IsDivider (kvInteriorCell 3 k1) := ⟨3, k1, by decide, h1, rfl⟩
  have hdiv : ∀ c ∈ (twoLeavesParent k1).allCells, IsDivider c := by
    intro c hc
    simp only [twoLeavesParent, MemPage.allCells, List.mem_singleton] at hc
    exact hc ▸ hdiv1
  have hsub3 : Sub g (twoLeaves g k1 k2).page 0 ⊥ 3 k1.bound [keyEntry g k1] [3] :=
    keyLeaf_sub rfl h1 (by simp [Key.bound]) le_rfl
  have hsub4 : Sub g (twoLeaves g k1 k2).page 0 k1.bound 4 ⊤ [keyEntry g k2] [4] :=
    keyLeaf_sub rfl h2 (Key.bound_lt.2 hlt) le_top
  have hown : Owns g (twoLeaves g k1 k2) (2 :: ([] ++ ([3] ++ [4])) ++ []) := by
    refine ⟨[], rfl, rfl, rfl, rfl, by simp, by simp [freePages], fun p => ?_, by simp [twoLeaves],
      by simp [twoLeaves, mxPgno]⟩
    change p ∈ [2, 3, 4] ↔ 2 ≤ p ∧ p ≤ 4 ∧ p ≠ pendingBytePage g
    simp only [List.mem_cons, List.not_mem_nil, or_false]
    omega
  refine ⟨twoLeavesParent k1, 0, ⊥, ⊤, ⊥, k1.bound, [], [(4, ⊤)], 3, [], [keyEntry g k1], [keyEntry g k2],
    [], [3], [4], [], rfl, hown, rfl, Or.inl rfl, rfl, ?_, hdiv, ?_, ⟨rfl, rfl, rfl⟩, ?_, ?_⟩
  · obtain ⟨hsize, hle⟩ := divider_cell_fits g hdiv1
    simp only [MemPage.nFree, twoLeavesParent, Bool.false_eq_true, if_false, List.map_cons, List.map_nil,
      List.sum_cons, List.sum_nil, hsize]
    omega
  · simp [MemPage.kids, twoLeavesParent, MemPage.allCells, divKey, kvInteriorCell_key h1,
      kvInteriorCell_child]
  · refine hsub3.imp fun c hc _ => ?_
    rw [MemPage.allCells_of_ovfl_nil hc.ovfl]
    exact hc.cells
  · exact Seg.single_iff.2 ⟨rfl, hsub4⟩

theorem twoLeaves_keysLe {K : Nat} (hK : K ≤ 255) (h1 : k1.length ≤ K) (h2 : k2.length ≤ K) :
    KeysLe g K (twoLeaves g k1 k2).page := by
  intro q p hp c hc
  have hq : q = 2 ∧ p = twoLeavesParent k1 ∨ q = 3 ∧ p = keyLeaf g k1 ∨ q = 4 ∧ p = keyLeaf g k2 := by
    unfold twoLeaves at hp
    dsimp only at hp
    split at hp <;> simp_all
  rcases hq with ⟨-, rfl⟩ | ⟨-, rfl⟩ | ⟨-, rfl⟩
  · simp only [twoLeavesParent, MemPage.allCells, List.mem_singleton] at hc
    subst hc
    simp only [xParseCell, twoLeavesParent, Bool.false_eq_true, if_false]
    rwa [kvParseCellInterior_nKeyLen (h1.trans hK)]
  · simp only [keyLeaf, MemPage.allCells, List.mem_singleton] at hc
    subst hc
    rw [show (keyLeaf g k1).leaf = true from rfl, keyCell_nKeyLen (h1.trans hK)]
    exact h1
  · simp only [keyLeaf, MemPage.allCells, List.mem_singleton] at hc
    subst hc
    rw [show (keyLeaf g k2).leaf = true from rfl, keyCell_nKeyLen (h2.trans hK)]
    exact h2

section Run

variable {s : BtShared} {q : Nat} {p : MemPage}

theorem wp_tick_of_nil {Q : Unit → BtShared → Prop} {E : Rc → BtShared → Prop} (h : s.io = [])
    (hQ : Q () s) : wp tick Q E s := by
  unfold wp tick
  rw [h]
  exact hQ

theorem wp_nodeAt {Q : MemPage → BtShared → Prop} {E : Rc → BtShared → Prop}
    (h : s.pager.image q = .node p) (hQ : Q p s) : wp (nodeAt q) Q E s := by
  simp only [nodeAt, pageData, bind_assoc, wp_bind, wp_get, pure_bind]
  rw [h]
  exact hQ

theorem wp_getAndInitPage {Q : MemPage → BtShared → Prop} {E : Rc → BtShared → Prop} (hio : s.io = [])
    (h : s.pager.image q = .node p) (h0 : q ≠ 0) (hpend : q ≠ pendingBytePage g) (hn : q ≤ s.nPage)
    (hmx : q ≤ mxPgno) (hQ : Q p s) : wp (getAndInitPage g q) Q E s := by
  simp only [getAndInitPage, btreePagecount, bind_assoc, wp_bind, wp_get, pure_bind]
  rw [if_neg (by omega)]
  simp only [btreeGetPage, wp_bind]
  rw [if_neg (by omega), wp_bind]
  refine wp_tick_of_nil hio ?_
  simp only [wp_bind, wp_get]
  rw [if_neg (by omega)]
  simp only [pageData, wp_bind, wp_get, wp_pure, h]
  exact hQ

end Run

/-- The two leaves are gathered, with their divider. -/
theorem twoLeaves_gather : wp (gatherSiblings g 2 0)
    (fun r _ => r.2.2.2 = [kvInteriorCell 3 k1]) (fun _ _ => False) (stateOf (twoLeaves g k1 k2)) := by
  have hpend := pendingBytePage_gt g
  unfold gatherSiblings
  rw [wp_bind]
  refine wp_tick_of_nil rfl ?_
  rw [wp_bind]
  refine wp_nodeAt rfl ?_
  change wp (loadSiblings g 2 0 1 4 >>= _) _ _ _
  rw [wp_bind]
  unfold loadSiblings
  rw [wp_bind]
  refine wp_getAndInitPage rfl rfl (by omega) (by omega) le_rfl (by decide) ?_
  rw [wp_bind]
  unfold takeDivider
  rw [wp_bind]
  refine wp_nodeAt rfl ?_
  simp only [twoLeavesParent, List.head?_nil, Option.map_none, reduceCtorEq, if_false, List.length_nil,
    Nat.sub_zero, Nat.add_zero, List.getElem?_cons_zero, wp_bind]
  unfold setPage
  rw [wp_modify, wp_pure, kvInteriorCell_child (by decide)]
  unfold loadSiblings
  rw [wp_bind]
  refine wp_getAndInitPage rfl (show _ = PageData.node (keyLeaf g k1) from rfl) (by omega) (by omega)
    (show 3 ≤ 4 by omega) (by decide) ?_
  rfl

end TwoLeaves

section Limit

variable {g : Geometry} {K : Nat}

theorem replicate_lt_one {n : Nat} : List.replicate (n + 1) (0 : UInt8) < [1] := by
  rw [List.replicate_succ]
  exact List.Lex.rel (by decide)

/-- Balancing is within its buffers on all trees with keys of at most `K` bytes if and only if four of
the largest dividers fit a page. -/
theorem buffersFit_iff (hK : K ≤ 255) :
    (∀ d parent idx, Balanceable g d parent idx → KeysLe g K d.page →
      Returns BtShared.db (gatherSiblings g parent idx) d fun r _ => BuffersFit g r.2.2.1 r.2.2.2)
    ↔ 4 * kvDividerSize K ≤ g.pageSize := by
  refine ⟨fun h => ?_, fun h4 d parent idx hb hkeys => hb.buffersFit hK hkeys h4⟩
  have hg := g.pageSize_gt
  rcases K with - | n
  · rw [kvDividerSize_eq hK, if_pos (by decide)]
    omega
  have hlen : (List.replicate (n + 1) (0 : UInt8)).length = n + 1 := List.length_replicate
  have hrun := h _ 2 0 (twoLeaves_balanceable (g := g) (hlen.le.trans hK) (by simp) replicate_lt_one)
    (twoLeaves_keysLe hK hlen.le (by simp)) (stateOf (twoLeaves g (List.replicate (n + 1) 0) [1])) rfl
  have hboth := hrun.and (twoLeaves_gather (g := g))
  unfold wp at hboth
  split at hboth
  · obtain ⟨hfit, hds⟩ := hboth
    have hq := hfit.old_quarter (kvInteriorCell 3 (List.replicate (n + 1) 0)) (by rw [hds]; simp)
    have hdiv : IsDivider (kvInteriorCell 3 (List.replicate (n + 1) 0)) := ⟨3, _, by decide, hlen.le.trans hK, rfl⟩
    rw [hdiv.size_eq g] at hq
    simpa [kvInteriorCell, kvDividerSize, put4byte_length, Nat.add_assoc] using hq
  · exact hboth.2.elim

/-- On the smallest pages keys of 123 bytes are short enough, those of 124 bytes too long. -/
theorem buffersFit_smallPages :
    (∀ d parent idx, Balanceable smallPages d parent idx → KeysLe smallPages 123 d.page →
      Returns BtShared.db (gatherSiblings smallPages parent idx) d fun r _ =>
        BuffersFit smallPages r.2.2.1 r.2.2.2)
    ∧ ¬ ∀ d parent idx, Balanceable smallPages d parent idx → KeysLe smallPages 124 d.page →
      Returns BtShared.db (gatherSiblings smallPages parent idx) d fun r _ =>
        BuffersFit smallPages r.2.2.1 r.2.2.2 :=
  ⟨(buffersFit_iff (by decide)).2 (by decide),
    fun h => absurd ((buffersFit_iff (by decide)).1 h) (by decide)⟩

end Limit

/-! ### Two leaves with keys of 255 bytes -/

section LongLeaves

def longKey (b : UInt8) : Key := List.replicate 255 b

/-- The second leaf has no room for its second cell. -/
def longLeaves : Db where
  nPage := 4
  page
    | 1 => .page1 { nPage := 4, trunk := 0, nFree := 0 }
    | 2 => .node (twoLeavesParent (longKey 1))
    | 3 => .node (keyLeaf smallPages (longKey 1))
    | 4 => .node { keyLeaf smallPages (longKey 2) with ovfl := [(1, keyCell smallPages (longKey 3))] }
    | _ => .raw

def longLeavesSiblings : List (Nat × MemPage) :=
  [(3, keyLeaf smallPages (longKey 1)),
   (4, { keyLeaf smallPages (longKey 2) with ovfl := [(1, keyCell smallPages (longKey 3))] })]

theorem longKey_lt {x y : UInt8} (h : x < y) : longKey x < longKey y := by
  rw [longKey, longKey, List.replicate_succ, List.replicate_succ]
  exact List.Lex.rel h

theorem longKey_length (x : UInt8) : (longKey x).length = 255 := List.length_replicate

theorem longLeaves_balanceable : Balanceable smallPages longLeaves 2 1 := by
  have hlen : ∀ x, (longKey x).length ≤ 255 := fun x => (longKey_length x).le
  have hdiv1 : IsDivider (kvInteriorCell 3 (longKey 1)) := ⟨3, _, by decide, hlen 1, rfl⟩
  have hdiv : ∀ c ∈ (twoLeavesParent (longKey 1)).allCells, IsDivider c := by
    intro c hc
    simp only [twoLeavesParent, MemPage.allCells, List.mem_singleton] at hc
    exact hc ▸ hdiv1
  have hown : Owns smallPages longLeaves (2 :: ([3] ++ ([4] ++ [])) ++ []) := by
    refine ⟨[], rfl, rfl, rfl, rfl, by simp, by decide, fun p => ?_, by decide, by decide⟩
    have hpend := pendingBytePage_gt smallPages
    change p ∈ [2, 3, 4] ↔ 2 ≤ p ∧ p ≤ 4 ∧ p ≠ pendingBytePage smallPages
    simp only [List.mem_cons, List.not_mem_nil, or_false]
    omega
  have hsub3 : Sub smallPages longLeaves.page 0 ⊥ 3 (longKey 1).bound [keyEntry smallPages (longKey 1)] [3] :=
    keyLeaf_sub rfl (hlen 1) (by simp [Key.bound]) le_rfl
  refine ⟨twoLeavesParent (longKey 1), 0, ⊥, ⊤, (longKey 1).bound, ⊤, [(3, (longKey 1).bound)], [], 4,
    [keyEntry smallPages (longKey 1)], [keyEntry smallPages (longKey 2), keyEntry smallPages (longKey 3)],
    [], [3], [4], [], [], rfl, hown, rfl, Or.inl rfl, rfl, ?_, hdiv, ?_,
    Seg.single_iff.2 ⟨rfl, hsub3⟩, ?_, ⟨rfl, rfl, rfl⟩⟩
  · obtain ⟨hsize, hle⟩ := divider_cell_fits smallPages hdiv1
    simp only [MemPage.nFree, twoLeavesParent, Bool.false_eq_true, if_false, List.map_cons, List.map_nil,
      List.sum_cons, List.sum_nil, hsize]
    omega
  · simp [MemPage.kids, twoLeavesParent, MemPage.allCells, divKey, kvInteriorCell_key (hlen _),
      kvInteriorCell_child]
  · refine ⟨_, [], rfl, fun _ => ?_, rfl, rfl, ?_, fun e he => ?_, ⟨?_, ?_, le_top⟩, ?_⟩
    · simp [MemPage.allCells, keyLeaf]
    · simp [MemPage.allCells, keyLeaf, keyEntry]
    · simp only [List.mem_cons, List.not_mem_nil, or_false] at he
      rcases he with rfl | rfl
      · exact keyEntry_on _ (hlen 2)
      · exact keyEntry_on _ (hlen 3)
    · exact Key.bound_lt.2 (longKey_lt (by decide))
    · exact Key.bound_lt.2 (longKey_lt (by decide))
    · simp [keyEntry]

theorem longLeaves_keysLe : KeysLe smallPages 255 longLeaves.page := by
  intro q p hp c hc
  have hlen : ∀ x, (longKey x).length ≤ 255 := fun x => (longKey_length x).le
  have hp : p = twoLeavesParent (longKey 1) ∨ ∃ w ∈ longLeavesSiblings, p = w.2 := by
    unfold longLeaves at hp
    dsimp only at hp
    split at hp <;> simp_all [longLeavesSiblings]
  rcases hp with rfl | ⟨w, hw, rfl⟩
  · simp only [twoLeavesParent, MemPage.allCells, List.mem_singleton] at hc
    rw [hc]
    simp [xParseCell, twoLeavesParent, kvParseCellInterior_nKeyLen (hlen _), longKey_length]
  · have hcell : ∃ x, c = keyCell smallPages (longKey x) ∧ w.2.leaf = true := by
      simp only [longLeavesSiblings, List.mem_cons, List.not_mem_nil, or_false] at hw
      rcases hw with rfl | rfl
      · simp only [keyLeaf, MemPage.allCells, List.mem_singleton] at hc
        exact ⟨1, hc, rfl⟩
      · simp only [keyLeaf, MemPage.allCells, List.take_succ_cons, List.take_nil, List.map_cons, List.map_nil,
          List.drop_succ_cons, List.drop_nil, List.append_nil, List.singleton_append, List.mem_cons,
          List.not_mem_nil, or_false] at hc
        rcases hc with rfl | rfl
        · exact ⟨2, rfl, rfl⟩
        · exact ⟨3, rfl, rfl⟩
    obtain ⟨x, rfl, hl⟩ := hcell
    rw [hl, keyCell_nKeyLen (hlen x)]
    exact hlen x

theorem exists_ok_of_any {ε α : Type} {r : Except ε α} {f : α → Bool} (h : r.toOption.any f = true) :
    ∃ a, r = .ok a ∧ f a = true := by
  cases r with
  | error e => simp [Except.toOption] at h
  | ok a => exact ⟨a, rfl, h⟩

/-- The second divider ends behind the buffer. -/
theorem longLeaves_overflow : Balanceable smallPages longLeaves 2 1 ∧ KeysLe smallPages 255 longLeaves.page
    ∧ ∃ r s' s, gatherSiblings smallPages 2 1 (stateOf longLeaves) = .ok r s'
      ∧ (gatheredCells smallPages r.2.2.1 r.2.2.2).distribute
        ((gatheredCells smallPages r.2.2.1 r.2.2.2).oldPacking (r.2.2.1.map Prod.snd)) = .ok s
      ∧ 2 < s.k ∧ smallPages.pageSize < (gatheredCells smallPages r.2.2.1 r.2.2.2).iOvflSpace s.cntNew 2 := by
  have hrun : ∃ s', gatherSiblings smallPages 2 1 (stateOf longLeaves)
      = .ok (0, true, longLeavesSiblings, [kvInteriorCell 3 (longKey 1)]) s' := ⟨_, rfl⟩
  obtain ⟨s', hs'⟩ := hrun
  have hdist : ((gatheredCells smallPages longLeavesSiblings [kvInteriorCell 3 (longKey 1)]).distribute
      ((gatheredCells smallPages longLeavesSiblings [kvInteriorCell 3 (longKey 1)]).oldPacking
        (longLeavesSiblings.map Prod.snd))).toOption.any (fun s => decide (2 < s.k ∧ smallPages.pageSize
          < (gatheredCells smallPages longLeavesSiblings [kvInteriorCell 3 (longKey 1)]).iOvflSpace
            s.cntNew 2)) = true := by
    decide +kernel
  obtain ⟨s, hs, hfit⟩ := exists_ok_of_any hdist
  exact ⟨longLeaves_balanceable, longLeaves_keysLe,
    (0, true, longLeavesSiblings, [kvInteriorCell 3 (longKey 1)]), s', s, hs', hs, of_decide_eq_true hfit⟩

end LongLeaves

end Btreelite
