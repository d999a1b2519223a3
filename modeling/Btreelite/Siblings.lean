import Btreelite.Redistribute
import Btreelite.Tree
import Mathlib.Data.List.Forall2

/-!
# Siblings before and after

The cells `balance_nonroot` gathers from neighbouring pages, the pages it builds from them, and
that both rows of pages are the same part of the tree.
-/

namespace Btreelite

open Segment

/-! ## The pages as the code builds them -/

/-- `b.apCell[]`: the cells of the siblings. Between siblings that are not leaves, the divider
takes over the right child of the page before it. -/
def loadCells : List MemPage → List Cell → List Cell
  | [], _ => []
  | [p], _ => p.allCells
  | p :: ps, divs =>
    p.allCells ++ (if p.leaf then [] else [setChild p.right (divs.headD [])]) ++ loadCells ps divs.tail

namespace CellArray

variable (b : CellArray)

/-- `cntOld[]`, when `n` cells precede those of the siblings. -/
def cntOld : Nat → List MemPage → List Nat
  | _, [] => []
  | n, p :: ps => (n + p.allCells.length) :: cntOld (n + p.allCells.length + b.gap) ps

/-- `szNew[i]` before the packing. -/
def szOld (p : MemPage) : Int :=
  b.usableSpace - p.nFree b.g + ((p.ovfl.map fun c => 2 + xCellSize b.g p.leaf c.2).sum : Nat)

def oldPacking (olds : List MemPage) : Packing where
  k := olds.length
  szNew i := b.szOld (olds.getD i default)
  cntNew i := (b.cntOld 0 olds).getD i 0

/-- The cell that goes into the parent when sibling `i` ends before cell `j`. -/
def divider (j : Nat) : Cell :=
  if b.leaf then
    let pCell := b.cells.getD (j - 1) []
    let info := kvParseCellLeaf b.g pCell
    put4byte 0 ++ putVarint32 info.nKeyLen ++ info.keyOf pCell
  else b.cells.getD j []

/-- Sibling `i` of `k`. The last one keeps the right child of the last old sibling. -/
def newPage (cnt : Nat → Nat) (k oldRight i : Nat) : MemPage where
  leaf := b.leaf
  cells := (b.cells.drop (b.start cnt i)).take (cnt i - b.start cnt i)
  right := if b.leaf then 0 else if i + 1 < k then get4byte (b.cells.getD (cnt i) []) else oldRight
  ovfl := []

end CellArray

/-! ## The gathered cells -/

section Gather

variable {b : CellArray} {g : Geometry} {page : Nat → PageData} {dep : Nat}

theorem CellArray.upTo_append {x y z : List Cell} (h : b.cells = x ++ (y ++ z)) :
    b.upTo (x.length + y.length) - b.upTo x.length
      = ((y.map fun c => 2 + xCellSize b.g b.leaf c).sum : Nat) := by
  unfold CellArray.upTo
  rw [h, List.take_left, ← List.append_assoc, ← List.length_append, List.take_left, List.map_append,
    List.sum_append]
  omega

theorem CellArray.szOld_eq {p : MemPage} (hl : p.leaf = b.leaf) :
    b.szOld p = ((p.allCells.map fun c => 2 + xCellSize b.g b.leaf c).sum : Nat) := by
  have hsum : (p.allCells.map fun c => 2 + xCellSize b.g b.leaf c).sum
      = (p.cells.map fun c => 2 + xCellSize b.g b.leaf c).sum
        + (p.ovfl.map fun c => 2 + xCellSize b.g b.leaf c.2).sum := by
    unfold MemPage.allCells
    split
    · rename_i h
      simp [h]
    · rename_i i c rest h
      have hc : (p.cells.map fun c => 2 + xCellSize b.g b.leaf c).sum
          = ((p.cells.take i).map fun c => 2 + xCellSize b.g b.leaf c).sum
            + ((p.cells.drop i).map fun c => 2 + xCellSize b.g b.leaf c).sum := by
        rw [← List.sum_append, ← List.map_append, List.take_append_drop]
      simp only [List.map_append, List.sum_append, List.map_map, Function.comp_def]
      omega
  rw [hsum]
  unfold CellArray.szOld MemPage.nFree CellArray.usableSpace
  rw [hl]
  split_ifs <;> omega

theorem loadCells_cons {p q : MemPage} {ps : List MemPage} {divs : List Cell} :
    loadCells (p :: q :: ps) divs = p.allCells
      ++ ((if p.leaf then [] else [setChild p.right (divs.headD [])]) ++ loadCells (q :: ps) divs.tail) := by
  simp [loadCells]

/-- The cuts and sizes of the old siblings, once `front` precedes their cells. -/
theorem CellArray.oldPacking_cuts : ∀ (olds : List MemPage) (divs front : List Cell), olds ≠ [] →
    (∀ p ∈ olds, p.leaf = b.leaf) → b.cells = front ++ loadCells olds divs →
    (b.cntOld front.length olds).getLastD 0 = b.nCell ∧ ∀ j < olds.length,
      (b.cntOld front.length olds).getD j 0 ≤ b.nCell
      ∧ b.szOld (olds.getD j default) = b.upTo ((b.cntOld front.length olds).getD j 0)
        - b.upTo (if j = 0 then front.length else (b.cntOld front.length olds).getD (j - 1) 0 + b.gap)
  | [], _, _, h, _, _ => absurd rfl h
  | [p], divs, front, _, hl, hc => by
    have hz : b.cells = front ++ (p.allCells ++ []) := by simpa [loadCells] using hc
    have hn : b.nCell = front.length + p.allCells.length := by
      rw [CellArray.nCell, hz]
      simp
    refine ⟨by simp [cntOld, hn], fun j hj => ?_⟩
    obtain rfl : j = 0 := by simpa using hj
    simp only [cntOld, List.getD_cons_zero, if_true]
    rw [upTo_append hz, szOld_eq (hl p (by simp))]
    exact ⟨hn.ge, rfl⟩
  | p :: q :: ps, divs, front, _, hl, hc => by
    rw [loadCells_cons] at hc
    have hlen : (front ++ (p.allCells
        ++ if p.leaf then [] else [setChild p.right (divs.headD [])])).length
        = front.length + p.allCells.length + b.gap := by
      rw [hl p List.mem_cons_self, gap]
      split_ifs <;> simp [Nat.add_assoc]
    have ih := oldPacking_cuts (q :: ps) divs.tail
      (front ++ (p.allCells ++ if p.leaf then [] else [setChild p.right (divs.headD [])])) (by simp)
      (fun x hx => hl x (List.mem_cons_of_mem _ hx)) (by rw [hc]; simp)
    rw [hlen] at ih
    obtain ⟨ih1, ih2⟩ := ih
    have hcnt : b.cntOld front.length (p :: q :: ps) = (front.length + p.allCells.length)
        :: b.cntOld (front.length + p.allCells.length + b.gap) (q :: ps) := rfl
    rw [hcnt]
    refine ⟨?_, fun j hj => ?_⟩
    · rw [← ih1]
      rfl
    · rcases j with - | j
      · simp only [List.getD_cons_zero, if_true]
        rw [upTo_append hc, szOld_eq (hl p List.mem_cons_self)]
        refine ⟨?_, rfl⟩
        rw [CellArray.nCell, hc]
        simp
      · obtain ⟨h1, h2⟩ := ih2 j (by simpa using hj)
        simp only [List.getD_cons_succ, Nat.succ_ne_zero, if_false, Nat.add_sub_cancel]
        refine ⟨h1, h2.trans ?_⟩
        rcases j with - | j
        · simp
        · simp

theorem CellArray.cntOld_length : ∀ (olds : List MemPage) (n : Nat), (b.cntOld n olds).length = olds.length
  | [], _ => rfl
  | _ :: ps, _ => by rw [cntOld, List.length_cons, List.length_cons, cntOld_length ps]

theorem CellArray.cntOld_le {olds : List MemPage} {divs : List Cell} (h0 : olds ≠ [])
    (hl : ∀ p ∈ olds, p.leaf = b.leaf) (hc : b.cells = loadCells olds divs) :
    ∀ x ∈ b.cntOld 0 olds, x ≤ b.nCell := by
  intro x hx
  obtain ⟨j, hj, rfl⟩ := List.getElem_of_mem hx
  have := ((oldPacking_cuts olds divs [] h0 hl hc).2 j (by rwa [← cntOld_length olds 0])).1
  rwa [List.length_nil, List.getD_eq_getElem _ _ hj] at this

theorem CellArray.oldPacking_packed {olds : List MemPage} {divs : List Cell} (h0 : olds ≠ [])
    (h5 : olds.length ≤ 5) (hl : ∀ p ∈ olds, p.leaf = b.leaf) (hc : b.cells = loadCells olds divs) :
    b.Packed 0 (b.oldPacking olds) := by
  obtain ⟨h1, h2⟩ := oldPacking_cuts olds divs [] h0 hl hc
  simp only [List.length_nil] at h1 h2
  exact {
    pos := List.length_pos_of_ne_nil h0
    k_le := h5
    le := fun j hj => (h2 j hj).1
    size := fun j hj => by
      refine (h2 j hj).2.trans ?_
      cases j <;> rfl
    last := by
      rw [← h1, List.getLastD_eq_getLast?, List.getLast?_eq_getElem?, cntOld_length]
      exact List.getD_eq_getElem?_getD
    fit := fun j hj => absurd hj (Nat.not_lt_zero j)
    inner := fun j hj => absurd hj (Nat.not_lt_zero j)
    mono := fun j hj => absurd hj (Nat.not_lt_zero j) }

/-- The cells gathered from leaves are the cells of their entries. -/
theorem gather_leaves : ∀ {olds : List MemPage} {us : List Bound} {divs : List Cell} {lo hi : Bound}
    {es : List Entry} {qs : List Nat}, us.length = olds.length →
    Seg (Body g page 0) lo (olds.zip us) hi es qs →
    (∀ p ∈ olds, p.leaf = true) ∧ loadCells olds divs = es.map Entry.cell ∧ (∀ e ∈ es, e.On g page)
      ∧ (olds ≠ [] → Run lo (es.map fun e => e.key.bound) hi) ∧ qs = es.flatMap Entry.ovfl
  | [], _, _, _, _, _, _, _, h => by
    obtain ⟨-, rfl, rfl⟩ := h
    simp [loadCells]
  | p :: ps, [], _, _, _, _, _, hlen, _ => by simp at hlen
  | p :: ps, u :: us, divs, lo, hi, _, _, hlen, h => by
    obtain ⟨es1, es2, qs1, qs2, rfl, rfl, ⟨h1, h2, h3, h4, rfl⟩, h5⟩ := h
    obtain ⟨h6, h7, h8, h9, rfl⟩ := gather_leaves (by simpa using hlen) h5
    refine ⟨?_, ?_, ?_, fun _ => ?_, by simp⟩
    · intro q hq
      rcases List.mem_cons.1 hq with rfl | hq
      · exact h1
      · exact h6 q hq
    · rcases ps with - | ⟨q, ps⟩
      · have : es2 = [] := by simpa [loadCells] using h7.symm
        simp [loadCells, h2, this]
      · rw [loadCells_cons, if_pos h1, h7, h2]
        simp
    · intro e he
      rcases List.mem_append.1 he with he | he
      · exact h3 e he
      · exact h8 e he
    · rcases ps with - | ⟨q, ps⟩
      · obtain ⟨rfl, rfl, -⟩ := h5
        simpa using h4
      · rw [List.map_append]
        exact h4.append (h9 (by simp))

theorem seg_body_succ : ∀ {olds : List MemPage} {us : List Bound} {lo hi : Bound}
    {es : List Entry} {qs : List Nat}, us.length = olds.length →
    Seg (Body g page (dep + 1)) lo (olds.zip us) hi es qs →
    ∀ p ∈ olds, p.leaf = false ∧ ∀ c ∈ p.allCells, IsDivider c
  | [], _, _, _, _, _, _, _, _, hp => by simp at hp
  | _ :: _, [], _, _, _, _, hlen, _, _, _ => by simp at hlen
  | q :: qs, u :: us, _, _, _, _, hlen, h, p, hp => by
    obtain ⟨_, _, _, _, _, _, h1, h2⟩ := h
    rcases List.mem_cons.1 hp with rfl | hp
    · exact ⟨(body_succ.1 h1).1, (body_succ.1 h1).2.1⟩
    · exact seg_body_succ (by simpa using hlen) h2 p hp

/-- The children of the gathered cells are those of the siblings. -/
theorem gather_kids : ∀ {olds : List MemPage} {divs : List Cell} {hi : Bound},
    olds.length = divs.length + 1 → (∀ p ∈ olds, p.leaf = false) → (∀ p ∈ olds, p.right < 2 ^ 32) →
    (∀ p ∈ olds, ∀ c ∈ p.allCells, IsDivider c) → (∀ c ∈ divs, IsDivider c) →
    (∀ c ∈ loadCells olds divs, IsDivider c) ∧
      (olds.zip (divs.map (fun c => (divKey c).bound) ++ [hi])).flatMap (fun x => x.1.kids x.2)
        = (loadCells olds divs).map (fun c => (get4byte c, (divKey c).bound))
          ++ [((olds.getLastD default).right, hi)]
  | [], _, _, h, _, _, _, _ => by simp at h
  | [p], [], hi, _, _, _, h3, _ => by
    refine ⟨fun c hc => h3 p (by simp) c (by simpa [loadCells] using hc), ?_⟩
    simp [loadCells, MemPage.kids]
  | [p], _ :: _, _, h, _, _, _, _ => by simp at h
  | p :: q :: ps, [], _, h, _, _, _, _ => by simp at h
  | p :: q :: ps, c :: divs, hi, h, h1, h2, h3, h4 => by
    obtain ⟨ih1, ih2⟩ := gather_kids (by simpa using h)
      (fun x hx => h1 x (List.mem_cons_of_mem _ hx)) (fun x hx => h2 x (List.mem_cons_of_mem _ hx))
      (fun x hx => h3 x (List.mem_cons_of_mem _ hx)) fun x hx => h4 x (List.mem_cons_of_mem _ hx)
    have hc := h4 c List.mem_cons_self
    have hr := h2 p List.mem_cons_self
    rw [loadCells_cons, if_neg (by rw [h1 p List.mem_cons_self]; simp)]
    simp only [List.headD_cons, List.tail_cons]
    constructor
    · intro x hx
      simp only [List.mem_append, List.mem_singleton] at hx
      rcases hx with hx | rfl | hx
      · exact h3 p List.mem_cons_self x hx
      · exact hc.setChild hr
      · exact ih1 x hx
    · simp only [List.map_cons, List.cons_append, List.zip_cons_cons, List.flatMap_cons,
        List.map_append, MemPage.kids] at ih2 ⊢
      rw [ih2, hc.child_setChild hr, hc.divKey_setChild]
      simp

end Gather

/-! ## The pages built from the gathered cells -/

section Build

variable {b : CellArray} {s : Packing} {page : Nat → PageData} {dep : Nat} {hi : Bound}

theorem drop_eq_take_append_drop {α : Type} (l : List α) {i j : Nat} (h : i ≤ j) :
    l.drop i = (l.drop i).take (j - i) ++ l.drop j := by
  have h1 := List.take_append_drop (j - i) (l.drop i)
  rw [List.drop_drop, Nat.add_sub_cancel' h] at h1
  exact h1.symm

/-- Every page built has cells, and room for them. -/
theorem newPage_settled (h : b.Packed s.k s) (hne : ∀ j < s.k, b.start s.cntNew j < s.cntNew j)
    (oldRight : Nat) {i : Nat} (hi : i < s.k) :
    Settled b.g (b.newPage s.cntNew s.k oldRight i) := by
  have hle := h.le i hi
  have hlt := hne i hi
  have hsize := h.size i hi
  have hfit := h.fit i hi hi
  refine ⟨rfl, ?_, ?_⟩
  · refine List.ne_nil_of_length_pos ?_
    rw [CellArray.newPage, List.length_take, List.length_drop]
    unfold CellArray.nCell at hle
    omega
  · have hz : b.cells = b.cells.take (b.start s.cntNew i)
        ++ ((b.cells.drop (b.start s.cntNew i)).take (s.cntNew i - b.start s.cntNew i)
          ++ b.cells.drop (s.cntNew i)) := by
      rw [← drop_eq_take_append_drop _ hlt.le, List.take_append_drop]
    have hup := CellArray.upTo_append hz
    unfold CellArray.nCell at hle
    rw [List.length_take_of_le (hlt.le.trans hle), List.length_take_of_le (by
      rw [List.length_drop]
      omega), Nat.add_sub_cancel' hlt.le] at hup
    unfold CellArray.usableSpace at hfit
    unfold MemPage.nFree CellArray.newPage
    dsimp only
    split_ifs at hfit ⊢ <;> omega

/-- The children of a built interior page are those from its first cell to its divider. -/
theorem newPage_kids (hb : b.leaf = false) (h : b.Packed s.k s)
    (hne : ∀ j < s.k, b.start s.cntNew j < s.cntNew j) (oldRight : Nat) {i : Nat} (hi' : i < s.k)
    {K : List (Nat × Bound)}
    (hK : K = b.cells.map (fun c => (get4byte c, (divKey c).bound)) ++ [(oldRight, hi)]) :
    (b.newPage s.cntNew s.k oldRight i).kids (K.getD (s.cntNew i) default).2
      = (K.drop (b.start s.cntNew i)).take (s.cntNew i + 1 - b.start s.cntNew i)
    ∧ (i + 1 = s.k → (K.getD (s.cntNew i) default).2 = hi) := by
  have hle := h.le i hi'
  have hlt := hne i hi'
  unfold CellArray.nCell at hle
  have hget : K.getD (s.cntNew i) default
      = ((b.newPage s.cntNew s.k oldRight i).right, (K.getD (s.cntNew i) default).2)
      ∧ (i + 1 = s.k → (K.getD (s.cntNew i) default).2 = hi) := by
    subst hK
    rcases Nat.lt_or_ge (i + 1) s.k with hk | hk
    · have hin := h.inner i hi' hk
      unfold CellArray.nCell at hin
      refine ⟨?_, fun h => by omega⟩
      rw [CellArray.newPage, if_neg (by rw [hb]; simp), if_pos hk, List.getD_append _ _ _ _ (by simpa),
        List.getD_eq_getElem _ _ (by simpa), List.getD_eq_getElem _ _ hin]
      simp
    · have hlast := h.last
      rw [show s.k - 1 = i by omega] at hlast
      unfold CellArray.nCell at hlast
      rw [CellArray.newPage, if_neg (by rw [hb]; simp), if_neg (by omega), List.getD_append_right _ _ _ _
        (by simp [hlast])]
      simp [hlast]
  refine ⟨?_, hget.2⟩
  have hlen : s.cntNew i < K.length := by
    subst hK
    simp
    omega
  have hcells : (b.newPage s.cntNew s.k oldRight i).allCells
      = (b.cells.drop (b.start s.cntNew i)).take (s.cntNew i - b.start s.cntNew i) := rfl
  rw [MemPage.kids, ← hget.1, hcells, Nat.succ_sub hlt.le, List.take_add_one, List.getElem?_drop,
    Nat.add_sub_cancel' hlt.le, List.getElem?_eq_getElem hlen, List.getD_eq_getElem _ _ hlen]
  congr 1
  subst hK
  rw [List.map_take, List.map_drop, List.drop_append_of_le_length (by simp; omega),
    List.take_append_of_le_length (by simp; omega)]

theorem build_interior (hb : b.leaf = false) (h : b.Packed s.k s)
    (hne : ∀ j < s.k, b.start s.cntNew j < s.cntNew j) (hd : ∀ c ∈ b.cells, IsDivider c)
    (oldRight : Nat) {K : List (Nat × Bound)}
    (hK : K = b.cells.map (fun c => (get4byte c, (divKey c).bound)) ++ [(oldRight, hi)]) :
    ∀ (n j : Nat) {lo : Bound} {es : List Entry} {qs : List Nat}, j + n + 1 = s.k →
      Seg (Sub b.g page dep) lo (K.drop (b.start s.cntNew j)) hi es qs →
      Seg (Body b.g page (dep + 1)) lo ((List.range' j (n + 1)).map fun i =>
        (b.newPage s.cntNew s.k oldRight i, (K.getD (s.cntNew i) default).2)) hi es qs
  | n, j, lo, es, qs, hj, hs => by
    have hjk : j < s.k := by omega
    have hlt := hne j hjk
    obtain ⟨hkids, hlast⟩ := newPage_kids hb h hne oldRight hjk hK
    have hbody : ∀ {es qs}, Seg (Sub b.g page dep) lo ((b.newPage s.cntNew s.k oldRight j).kids
        (K.getD (s.cntNew j) default).2) (K.getD (s.cntNew j) default).2 es qs →
        Body b.g page (dep + 1) lo (b.newPage s.cntNew s.k oldRight j)
          (K.getD (s.cntNew j) default).2 es qs := fun hseg => body_succ.2
      ⟨hb, fun c hc => hd c (List.mem_of_mem_drop (List.mem_of_mem_take hc)), hseg⟩
    rw [drop_eq_take_append_drop K (show b.start s.cntNew j ≤ s.cntNew j + 1 by omega), ← hkids] at hs
    obtain ⟨m, es1, es2, qs1, qs2, rfl, rfl, h1, h2⟩ := hs.split
    obtain rfl : (K.getD (s.cntNew j) default).2 = m := h1.getLast_eq
    rcases n with - | n
    · have hcnt : s.cntNew j = b.nCell := by
        rw [← h.last, show s.k - 1 = j by omega]
      have hnil : K.drop (s.cntNew j + 1) = [] := by
        rw [hcnt, CellArray.nCell, hK]
        simp
      rw [hnil] at h2
      obtain ⟨h3, rfl, rfl⟩ := h2
      simp only [List.append_nil]
      exact Seg.single_iff.2 ⟨h3, hbody h1⟩
    · have hstart : b.start s.cntNew (j + 1) = s.cntNew j + 1 := by
        simp [CellArray.start, CellArray.gap, hb]
      refine ⟨es1, es2, qs1, qs2, rfl, rfl, hbody h1, ?_⟩
      refine build_interior hb h hne hd oldRight hK n (j + 1) (by omega) ?_
      rwa [hstart]

/-- The upper bound of a built leaf: its last key, or the bound of the row. -/
def leafBound (es : List Entry) (s : Packing) (hi : Bound) (i : Nat) : Bound :=
  if i + 1 < s.k then
    match es[s.cntNew i - 1]? with
    | some e => e.key.bound
    | none => hi
  else hi

theorem build_leaves (hb : b.leaf = true) (h : b.Packed s.k s)
    (hne : ∀ j < s.k, b.start s.cntNew j < s.cntNew j) (oldRight : Nat) {es : List Entry}
    (hc : b.cells = es.map Entry.cell) (hon : ∀ e ∈ es, e.On b.g page) :
    ∀ (n j : Nat) {lo : Bound}, j + n + 1 = s.k →
      Run lo ((es.drop (b.start s.cntNew j)).map fun e => e.key.bound) hi →
      Seg (Body b.g page 0) lo ((List.range' j (n + 1)).map fun i =>
        (b.newPage s.cntNew s.k oldRight i, leafBound es s hi i)) hi (es.drop (b.start s.cntNew j))
        ((es.drop (b.start s.cntNew j)).flatMap Entry.ovfl)
  | n, j, lo, hj, hr => by
    have hjk : j < s.k := by omega
    have hlt := hne j hjk
    have hle := h.le j hjk
    have hnC : b.nCell = es.length := by
      rw [CellArray.nCell, hc, List.length_map]
    have hcells : (b.newPage s.cntNew s.k oldRight j).allCells
        = ((es.drop (b.start s.cntNew j)).take (s.cntNew j - b.start s.cntNew j)).map Entry.cell := by
      rw [List.map_take, List.map_drop, ← hc]
      rfl
    have hsub : ∀ e ∈ (es.drop (b.start s.cntNew j)).take (s.cntNew j - b.start s.cntNew j),
        e.On b.g page := fun e he => hon e (List.mem_of_mem_drop (List.mem_of_mem_take he))
    rcases n with - | n
    · have hcnt : s.cntNew j = es.length := by
        rw [← hnC, ← h.last, show s.k - 1 = j by omega]
      have hall : (es.drop (b.start s.cntNew j)).take (s.cntNew j - b.start s.cntNew j)
          = es.drop (b.start s.cntNew j) := List.take_of_length_le (by rw [List.length_drop]; omega)
      have hbd : leafBound es s hi j = hi := if_neg (by omega)
      rw [hall] at hsub hcells
      refine Seg.single_iff.2 ⟨hbd, hb, hcells, hsub, ?_, rfl⟩
      rwa [hbd]
    · have hstart : b.start s.cntNew (j + 1) = s.cntNew j := by
        simp [CellArray.start, CellArray.gap, hb]
      obtain ⟨c, hcj⟩ : ∃ c, s.cntNew j = c + 1 := ⟨s.cntNew j - 1, by omega⟩
      have hclt : c < es.length := by omega
      have hbd : leafBound es s hi j = es[c].key.bound := by
        rw [leafBound, if_pos (by omega), hcj, Nat.add_sub_cancel, List.getElem?_eq_getElem hclt]
      -- the leaf's entries: those before its last one, and the last one
      have htake : (es.drop (b.start s.cntNew j)).take (s.cntNew j - b.start s.cntNew j)
          = (es.drop (b.start s.cntNew j)).take (c - b.start s.cntNew j) ++ [es[c]] := by
        rw [hcj, Nat.succ_sub (by omega), List.take_add_one, List.getElem?_drop,
          Nat.add_sub_cancel' (by omega), List.getElem?_eq_getElem hclt]
        rfl
      have hsplit := drop_eq_take_append_drop es hlt.le
      rw [hsplit, htake, List.append_assoc, List.map_append, List.singleton_append, List.map_cons] at hr
      obtain ⟨hr1, hr2⟩ := Run.append_cons.1 hr
      rw [hsplit, List.flatMap_append]
      refine ⟨_, _, _, _, rfl, rfl, ⟨hb, hcells, hsub, ?_, rfl⟩, ?_⟩
      · rw [hbd, htake, List.map_append]
        exact hr1
      · have ih := build_leaves hb h hne oldRight hc hon n (j + 1) (by omega)
          (by rw [hstart]; exact hr2)
        rw [hstart] at ih
        rw [hbd]
        exact ih

/-- A row of pages next to their bounds, the inner ones being keys. -/
theorem zip_bounds {α : Type} (k : Nat) (hk : 0 < k) (f : Nat → α) (keyOf : Nat → Key) (hi : Bound)
    (bnd : Nat → Bound) (hb : ∀ i, i + 1 < k → bnd i = (keyOf i).bound)
    (hl : ∀ i, i + 1 = k → bnd i = hi) :
    ((List.range k).map f).zip (((List.range (k - 1)).map keyOf).map Key.bound ++ [hi])
      = (List.range' 0 k).map fun i => (f i, bnd i) := by
  refine List.ext_getElem (by simp; omega) fun i h1 h2 => ?_
  simp only [List.length_map, List.length_range'] at h2
  simp only [List.getElem_zip, List.getElem_map, List.getElem_range, List.getElem_range', Nat.zero_add,
    Nat.one_mul, Prod.mk.injEq, true_and]
  rcases Nat.lt_or_ge (i + 1) k with h | h
  · rw [List.getElem_append_left (by simp; omega), hb i h]
    simp
  · rw [List.getElem_append_right (by simp; omega), hl i (by omega)]
    simp

theorem leaf_cell_fits {g : Geometry} {e : Entry} (h : e.On g page) :
    xCellSize g true e.cell = e.cell.length ∧ (2 + e.cell.length : Int) ≤ g.usableSize - 8 := by
  obtain ⟨ovfl, hparts, hc, -⟩ := h
  rw [hc]
  have h1 := hparts.length_le
  refine ⟨hparts.size_eq_length, ?_⟩
  omega

theorem divider_cell_fits (g : Geometry) {c : Cell} (h : IsDivider c) :
    xCellSize g false c = c.length ∧ (2 + c.length : Int) ≤ g.usableSize - 12 := by
  have h1 := h.length_le
  have h2 := g.usable_ge
  refine ⟨h.size_eq g, ?_⟩
  omega

/-- The siblings `s` describes are settled pages, with dividers for `keys` between them, and hold the
part of the tree between `lo` and `hi` with the entries `es`. -/
structure Rebuilt (b : CellArray) (s : Packing) (page : Nat → PageData) (dep : Nat) (lo hi : Bound)
    (es : List Entry) (qs : List Nat) (oldRight : Nat) (keys : List Key) : Prop where
  length : keys.length + 1 = s.k
  key_le : ∀ k ∈ keys, k.length ≤ 255
  divider : ∀ i q (h : i < keys.length),
    setChild q (b.divider (s.cntNew i)) = kvInteriorCell q (keys.get ⟨i, h⟩)
  settled : ∀ i < s.k, Settled b.g (b.newPage s.cntNew s.k oldRight i)
  seg : Seg (Body b.g page dep) lo (((List.range s.k).map (b.newPage s.cntNew s.k oldRight)).zip
    (keys.map Key.bound ++ [hi])) hi es qs

theorem getD_mem_cells {j : Nat} (h : j < b.nCell) : b.cells.getD j [] ∈ b.cells := by
  rw [List.getD_eq_getElem _ _ h]
  exact List.getElem_mem _

theorem leaves_fit (hb : b.leaf = true) {es : List Entry} (hc : b.cells = es.map Entry.cell)
    (hon : ∀ e ∈ es, e.On b.g page) :
    ∀ j < b.nCell, ((2 + b.cachedCellSize j : Nat) : Int) ≤ b.usableSpace := by
  intro j hj
  have hmem := getD_mem_cells hj
  rw [CellArray.cachedCellSize, CellArray.usableSpace, hb]
  generalize b.cells.getD j [] = c at hmem
  rw [hc] at hmem
  obtain ⟨e, he, rfl⟩ := List.mem_map.1 hmem
  obtain ⟨h1, h2⟩ := leaf_cell_fits (hon e he)
  rw [h1]
  simpa using h2

theorem dividers_fit (hb : b.leaf = false) (hd : ∀ c ∈ b.cells, IsDivider c) :
    ∀ j < b.nCell, ((2 + b.cachedCellSize j : Nat) : Int) ≤ b.usableSpace := by
  intro j hj
  obtain ⟨h1, h2⟩ := divider_cell_fits b.g (hd _ (getD_mem_cells hj))
  rw [CellArray.cachedCellSize, CellArray.usableSpace, hb, h1]
  simpa using h2

theorem rebuild_leaves (hb : b.leaf = true) (hp : b.Packed s.k s)
    (hne : ∀ j < s.k, b.start s.cntNew j < s.cntNew j) (oldRight : Nat) {lo : Bound} {es : List Entry}
    (hc : b.cells = es.map Entry.cell) (hon : ∀ e ∈ es, e.On b.g page)
    (hr : Run lo (es.map fun e => e.key.bound) hi) :
    ∃ keys, Rebuilt b s page 0 lo hi es (es.flatMap Entry.ovfl) oldRight keys := by
  have hk := hp.pos
  have hlast : ∀ i, i + 1 < s.k → ∃ e, es[s.cntNew i - 1]? = some e
      ∧ b.divider (s.cntNew i) = kvInteriorCell 0 e.key ∧ e.key.length ≤ 255 := by
    intro i hi
    have hlt := hne i (by omega)
    have hle := hp.le i (by omega)
    rw [CellArray.nCell, hc, List.length_map] at hle
    have hi' : s.cntNew i - 1 < es.length := by omega
    have hget : b.cells.getD (s.cntNew i - 1) [] = es[s.cntNew i - 1].cell := by
      rw [hc, List.getD_eq_getElem _ _ (by rwa [List.length_map]), List.getElem_map]
    obtain ⟨ovfl, hparts, hcell, -⟩ := hon _ (List.getElem_mem hi')
    refine ⟨_, List.getElem?_eq_getElem hi', ?_, hparts.key_le⟩
    have hkey := hparts.keyOf
    have hlen := hparts.parse.1
    rw [← hcell] at hkey hlen
    simp only [CellArray.divider, hb, if_true, hget, hkey, hlen]
    rfl
  refine ⟨(List.range (s.k - 1)).map fun i => (es[s.cntNew i - 1]?.map Entry.key).getD [], ?_, ?_, ?_,
    fun i => newPage_settled hp hne _, ?_⟩
  · simp only [List.length_map, List.length_range]
    omega
  · intro k hk'
    obtain ⟨i, hi', rfl⟩ := List.mem_map.1 hk'
    have := List.mem_range.1 hi'
    obtain ⟨e, he, -, hlen⟩ := hlast i (by omega)
    simpa [he] using hlen
  · intro i q hi'
    simp only [List.length_map, List.length_range] at hi'
    obtain ⟨e, he, hd, -⟩ := hlast i (by omega)
    rw [hd, List.get_eq_getElem, List.getElem_map, List.getElem_range, he]
    exact kvInteriorCell_set_child _ _ _
  · rw [zip_bounds s.k hk _ _ hi (leafBound es s hi) (fun i hi' => ?_) fun i hi' => ?_]
    · have h := build_leaves hb hp hne oldRight hc hon (s.k - 1) 0 (by omega) hr
      simpa [CellArray.start, Nat.sub_add_cancel hk] using h
    · obtain ⟨e, he, -⟩ := hlast i hi'
      simp [leafBound, if_pos hi', he]
    · simp [leafBound, hi'.not_lt]

theorem rebuild_interior (hb : b.leaf = false) (hp : b.Packed s.k s)
    (hne : ∀ j < s.k, b.start s.cntNew j < s.cntNew j) (hd : ∀ c ∈ b.cells, IsDivider c)
    (oldRight : Nat) {lo : Bound} {es : List Entry} {qs : List Nat}
    (hseg : Seg (Sub b.g page dep) lo (b.cells.map (fun c => (get4byte c, (divKey c).bound))
      ++ [(oldRight, hi)]) hi es qs) :
    ∃ keys, Rebuilt b s page (dep + 1) lo hi es qs oldRight keys := by
  have hk := hp.pos
  have hdiv : ∀ i, i + 1 < s.k → IsDivider (b.cells.getD (s.cntNew i) []) := fun i hi =>
    hd _ (getD_mem_cells (hp.inner i (by omega) hi))
  refine ⟨(List.range (s.k - 1)).map fun i => divKey (b.cells.getD (s.cntNew i) []), ?_, ?_, ?_,
    fun i => newPage_settled hp hne _, ?_⟩
  · simp only [List.length_map, List.length_range]
    omega
  · intro k hk'
    obtain ⟨i, hi', rfl⟩ := List.mem_map.1 hk'
    have := List.mem_range.1 hi'
    exact (hdiv i (by omega)).key_le
  · intro i q hi'
    simp only [List.length_map, List.length_range] at hi'
    rw [List.get_eq_getElem, List.getElem_map, List.getElem_range, CellArray.divider, hb,
      if_neg (by simp), (hdiv i (by omega)).setChild_eq]
  · set K := b.cells.map (fun c => (get4byte c, (divKey c).bound)) ++ [(oldRight, hi)] with hK
    rw [zip_bounds s.k hk _ _ hi (fun i => (K.getD (s.cntNew i) default).2) (fun i hi' => ?_)
      fun i hi' => ?_]
    · have h := build_interior hb hp hne hd oldRight hK (s.k - 1) 0 (by omega) hseg
      simpa [Nat.sub_add_cancel hk] using h
    · have hin := hp.inner i (by omega) hi'
      unfold CellArray.nCell at hin
      rw [hK, List.getD_append _ _ _ _ (by simpa), List.getD_eq_getElem _ _ (by simpa),
        List.getD_eq_getElem _ _ hin, List.getElem_map]
    · exact (newPage_kids hb hp hne oldRight (by omega) hK).2 hi'

/-- Sharing the cells out anew cuts them into siblings that take cells, and leaves these the same part
of the tree. -/
theorem redistribute {olds : List MemPage} {divs : List Cell} {lo : Bound} {es : List Entry}
    {qs : List Nat} (h3 : olds.length ≤ 3) (hdl : olds.length = divs.length + 1)
    (hdiv : ∀ c ∈ divs, IsDivider c) (hleaf : ∀ p ∈ olds, p.leaf = b.leaf)
    (hright : b.leaf = false → ∀ p ∈ olds, p.right < 2 ^ 32)
    (hseg : Seg (Body b.g page dep) lo (olds.zip (divs.map (fun c => (divKey c).bound) ++ [hi])) hi es qs)
    (hc : b.cells = loadCells olds divs) (hcell : b.cells ≠ [])
    (hs : b.distribute (b.oldPacking olds) = .ok s) :
    (b.Packed s.k s ∧ ∀ j < s.k, b.start s.cntNew j < s.cntNew j)
      ∧ ∃ keys, Rebuilt b s page dep lo hi es qs (olds.getLastD default).right keys := by
  have h0 : olds ≠ [] := List.ne_nil_of_length_pos (by omega)
  have hpos : 0 < b.nCell := List.length_pos_of_ne_nil hcell
  have hpacked := CellArray.oldPacking_packed h0 (by omega) hleaf hc
  obtain ⟨p0, hp0⟩ := List.exists_mem_of_ne_nil _ h0
  rcases dep with - | dep
  · obtain ⟨h1, h2, hon, hrun, rfl⟩ := gather_leaves (by simpa using hdl.symm) hseg
    have hb : b.leaf = true := by rw [← hleaf p0 hp0, h1 p0 hp0]
    have hce : b.cells = es.map Entry.cell := hc.trans h2
    obtain ⟨hp, hne⟩ := CellArray.distribute_spec hpos (leaves_fit hb hce hon) hpacked hs
    refine ⟨⟨hp, hne⟩, ?_⟩
    exact rebuild_leaves hb hp hne _ hce hon (hrun h0)
  · have hnode : ∀ p ∈ olds, p.leaf = false ∧ ∀ c ∈ p.allCells, IsDivider c :=
      seg_body_succ (by simpa using hdl.symm) hseg
    have hb : b.leaf = false := by rw [← hleaf p0 hp0, (hnode p0 hp0).1]
    obtain ⟨hd, hkids⟩ := gather_kids hdl (fun p hp => (hnode p hp).1) (hright hb)
      (fun p hp => (hnode p hp).2) hdiv
    rw [← hc] at hd hkids
    obtain ⟨hp, hne⟩ := CellArray.distribute_spec hpos (dividers_fit hb hd) hpacked hs
    refine ⟨⟨hp, hne⟩, rebuild_interior hb hp hne hd _ ?_⟩
    rw [← hkids]
    exact Seg.flatten (hseg.imp fun _ _ _ _ _ h => (body_succ.1 h).2.2)

end Build

end Btreelite
