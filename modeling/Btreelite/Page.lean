import Btreelite.Shared
import Btreelite.Compare
import Mathlib.Algebra.Order.BigOperators.Group.List

/-!
# The cells of a page

Inserting and dropping cells, with the cells that do not fit kept aside in `ovfl` until the page
is balanced. Where in the page the bytes of a cell stand does not show here.
-/

namespace Btreelite

open Prog

/-- `put4byte` on the first four bytes of a cell. -/
def setChild (child : Nat) (cell : Cell) : Cell := put4byte child ++ cell.drop 4

/-- The key of a divider. -/
def divKey (cell : Cell) : Key := (kvParseCellInterior cell).keyOf cell

namespace MemPage

/-- `pPage->nFree`: what header, cell pointers and cells leave of a page other than page 1. -/
def nFree (g : Geometry) (p : MemPage) : Int :=
  g.usableSize - (if p.leaf then 8 else 12)
    - ((p.cells.map fun c => 2 + xCellSize g p.leaf c).sum : Nat)

/-- All cells of a page, those it has no room for included. -/
def allCells (p : MemPage) : List Cell :=
  match p.ovfl with
  | [] => p.cells
  | (i, _) :: _ => p.cells.take i ++ p.ovfl.map Prod.snd ++ p.cells.drop i

/-- The left child of cell `i`, or the right child of the page. -/
def childAt (p : MemPage) (i : Nat) : Nat :=
  match p.cells[i]? with
  | some c => get4byte c
  | none => p.right

/-- `insertCell` and `insertCellFast` on the page alone. -/
def insertCell (g : Geometry) (p : MemPage) (i : Nat) (cell : Cell) : MemPage :=
  if p.ovfl ≠ [] ∨ p.nFree g < cell.length + 2 then { p with ovfl := p.ovfl ++ [(i, cell)] }
  else { p with cells := p.cells.insertIdx i cell }

def dropCell (p : MemPage) (idx : Nat) : MemPage := { p with cells := p.cells.eraseIdx idx }

end MemPage

section Access

variable (g : Geometry)

/-- A B-tree page that is at hand. -/
def nodeAt (pgno : Nat) : BtM MemPage := do
  match ← pageData pgno with
  | .node p => return p
  | _ => return default

/-- `insertCell`. -/
def insertCell (pgno i : Nat) (pCell : Cell) (iChild : Nat) : BtM Unit := do
  let p ← nodeAt pgno
  if p.ovfl ≠ [] ∨ p.nFree g < pCell.length + 2 then
    setPage pgno (.node (p.insertCell g i (setChild iChild pCell)))
  else
    sqlite3PagerWrite pgno
    setPage pgno (.node (p.insertCell g i (setChild iChild pCell)))

/-- `insertCellFast`. -/
def insertCellFast (pgno i : Nat) (pCell : Cell) : BtM Unit := do
  let p ← nodeAt pgno
  if p.nFree g < pCell.length + 2 then setPage pgno (.node (p.insertCell g i pCell))
  else
    sqlite3PagerWrite pgno
    setPage pgno (.node (p.insertCell g i pCell))

def dropCell (pgno idx : Nat) : BtM Unit := do
  let p ← nodeAt pgno
  setPage pgno (.node (p.dropCell idx))

end Access

/-! ## Dividers -/

/-- A cell the code writes on an interior page. -/
def IsDivider (c : Cell) : Prop :=
  ∃ child key, child < 2 ^ 32 ∧ key.length ≤ 255 ∧ c = kvInteriorCell child key

namespace IsDivider

variable {c : Cell} (h : IsDivider c)
include h

theorem eq : c = kvInteriorCell (get4byte c) (divKey c) := by
  obtain ⟨child, key, h1, h2, rfl⟩ := h
  rw [divKey, kvInteriorCell_child h1, kvInteriorCell_key h2]

theorem child_lt : get4byte c < 2 ^ 32 := by
  obtain ⟨child, key, h1, h2, rfl⟩ := h
  rwa [kvInteriorCell_child h1]

theorem key_le : (divKey c).length ≤ 255 := by
  obtain ⟨child, key, h1, h2, rfl⟩ := h
  rwa [divKey, kvInteriorCell_key h2]

theorem size_eq (g : Geometry) : xCellSize g false c = c.length := by
  obtain ⟨child, key, h1, h2, rfl⟩ := h
  exact kvInteriorCell_size h2

theorem length_le : c.length ≤ 261 := by
  obtain ⟨child, key, h1, h2, rfl⟩ := h
  exact kvInteriorCell_length_le h2

theorem setChild_eq (child : Nat) : setChild child c = kvInteriorCell child (divKey c) := by
  conv_lhs => rw [h.eq]
  exact kvInteriorCell_set_child _ _ _

theorem setChild {child : Nat} (hc : child < 2 ^ 32) : IsDivider (setChild child c) :=
  ⟨child, divKey c, hc, h.key_le, h.setChild_eq child⟩

theorem divKey_setChild (child : Nat) : divKey (Btreelite.setChild child c) = divKey c := by
  rw [h.setChild_eq, divKey, kvInteriorCell_key h.key_le]

theorem child_setChild {child : Nat} (hc : child < 2 ^ 32) :
    get4byte (Btreelite.setChild child c) = child := by
  rw [h.setChild_eq, kvInteriorCell_child hc]

end IsDivider

/-! ## The cells of a page after a change -/

namespace MemPage

variable {g : Geometry} {p : MemPage} {i : Nat} {cell : Cell} {a b : List Cell}

theorem allCells_of_ovfl_nil (h : p.ovfl = []) : p.allCells = p.cells := by
  rw [allCells, h]

/-- The overflow cells of `p`, if any, are next to each other and end before index `i`. -/
def OvflAt (p : MemPage) (i : Nat) : Prop :=
  ∀ j c rest, p.ovfl = (j, c) :: rest → j ≤ p.cells.length ∧ i = j + p.ovfl.length

theorem ovflAt_of_nil (h : p.ovfl = []) (i : Nat) : p.OvflAt i := by
  intro j c rest h'
  rw [h] at h'
  simp at h'

theorem insertIdx_append_cons {α : Type} : ∀ (a b : List α) (x : α),
    (a ++ b).insertIdx a.length x = a ++ x :: b
  | [], b, x => by simp
  | y :: a, b, x => by simp [List.insertIdx_succ_cons, insertIdx_append_cons a b x]

/-- A cell kept aside behind the others that are. -/
theorem overflow_allCells (h : p.OvflAt i) (hab : p.allCells = a ++ b) (ha : a.length = i) :
    ({ p with ovfl := p.ovfl ++ [(i, cell)] } : MemPage).allCells = a ++ cell :: b := by
  subst ha
  rcases hp : p.ovfl with - | ⟨⟨j, c⟩, rest⟩
  · rw [allCells_of_ovfl_nil hp] at hab
    simp [allCells, hab]
  · obtain ⟨hj, hlen⟩ := h j c rest hp
    simp only [allCells, hp] at hab ⊢
    simp only [List.cons_append, List.map_cons, List.map_append, List.map_nil] at hab ⊢
    rw [hp, List.length_cons] at hlen
    have hl : (p.cells.take j ++ c :: rest.map Prod.snd).length = a.length := by
      rw [List.length_append, List.length_take_of_le hj, List.length_cons, List.length_map]
      omega
    obtain ⟨h1, h2⟩ := List.append_inj hab hl
    rw [← h1, ← h2]
    simp

theorem insertCell_allCells (h : p.OvflAt i) (hab : p.allCells = a ++ b) (ha : a.length = i) :
    (p.insertCell g i cell).allCells = a ++ cell :: b := by
  unfold insertCell
  split_ifs with hfit
  · exact overflow_allCells h hab ha
  · have hp : p.ovfl = [] := not_not.1 (not_or.1 hfit).1
    rw [allCells_of_ovfl_nil hp] at hab
    have hres : ({ p with cells := p.cells.insertIdx i cell } : MemPage).allCells = p.cells.insertIdx i cell :=
      allCells_of_ovfl_nil hp
    rw [hres, hab, ← ha]
    exact insertIdx_append_cons a b cell

theorem insertCell_ovflAt (h : p.OvflAt i) (hi : i ≤ p.allCells.length) :
    (p.insertCell g i cell).OvflAt (i + 1) := by
  unfold insertCell
  rcases hp : p.ovfl with - | ⟨⟨j, c⟩, rest⟩
  · split_ifs with hfit
    · intro j c rest hc
      simp only [List.nil_append, List.cons.injEq, Prod.mk.injEq] at hc
      obtain ⟨⟨rfl, -⟩, -⟩ := hc
      rw [allCells_of_ovfl_nil hp] at hi
      exact ⟨hi, by simp⟩
    · exact ovflAt_of_nil rfl _
  · obtain ⟨hj, hlen⟩ := h j c rest hp
    rw [if_pos (by simp)]
    intro j' c' rest' hc
    simp only [List.cons_append, List.cons.injEq, Prod.mk.injEq] at hc
    obtain ⟨⟨rfl, -⟩, -⟩ := hc
    rw [hp] at hlen
    refine ⟨hj, ?_⟩
    rw [hlen]
    simp [Nat.add_assoc]

@[simp] theorem insertCell_leaf : (p.insertCell g i cell).leaf = p.leaf := by
  unfold insertCell
  split_ifs <;> rfl

@[simp] theorem insertCell_right : (p.insertCell g i cell).right = p.right := by
  unfold insertCell
  split_ifs <;> rfl

theorem sum_insertIdx {α : Type} (f : α → Nat) : ∀ (l : List α) (i : Nat) (x : α),
    ((l.insertIdx i x).map f).sum ≤ f x + (l.map f).sum
  | [], 0, x => by simp
  | [], _ + 1, x => by simp
  | _ :: _, 0, x => by simp
  | y :: l, i + 1, x => by
    have := sum_insertIdx f l i x
    simp only [List.insertIdx_succ_cons, List.map_cons, List.sum_cons]
    omega

theorem insertCell_nFree (h : 0 ≤ p.nFree g) (hs : xCellSize g p.leaf cell = cell.length) :
    0 ≤ (p.insertCell g i cell).nFree g := by
  unfold insertCell
  split_ifs with hfit
  · exact h
  · have hsum := sum_insertIdx (fun c => 2 + xCellSize g p.leaf c) p.cells i cell
    simp only [not_or, not_lt] at hfit
    have hfree := hfit.2
    unfold nFree at hfree ⊢
    simp only [hs] at hsum
    dsimp only
    split_ifs at hfree ⊢ <;> omega

theorem nFree_eraseIdx_le (h : 0 ≤ p.nFree g) (i : Nat) : 0 ≤ (p.dropCell i).nFree g := by
  have hsum : ((p.cells.eraseIdx i).map fun c => 2 + xCellSize g p.leaf c).sum
      ≤ (p.cells.map fun c => 2 + xCellSize g p.leaf c).sum :=
    ((List.eraseIdx_sublist _ _).map _).sum_le_sum fun _ _ => Nat.zero_le _
  unfold nFree at h ⊢
  unfold dropCell
  dsimp only
  split_ifs at h ⊢ <;> omega

end MemPage

/-! ## What the page operations do to the database -/

section Rules

variable {g : Geometry} {d : Db} {pgno i : Nat} {p : MemPage} {cell : Cell} {E : Rc → Db → Prop}

theorem nodeAt_does (hp : d.page pgno = .node p) :
    Does (nodeAt pgno) d (fun x d' => d = d' ∧ x = p) E := by
  refine (pageData_does pgno).bind ?_
  intro x d' h
  obtain ⟨rfl, rfl⟩ := h
  rw [hp]
  exact Ensures.pure ⟨rfl, rfl⟩

theorem insertCell_does {child : Nat} (hp : d.page pgno = .node p)
    (hE : ∀ e, e.isFault = true → E e d) :
    Does (insertCell g pgno i cell child) d
      (fun _ d' => d' = d.set pgno (.node (p.insertCell g i (setChild child cell)))) E := by
  refine (nodeAt_does hp).bind ?_
  intro x d' h
  obtain ⟨rfl, rfl⟩ := h
  refine Ensures.ite (fun _ => setPage_does _ _) fun _ => ?_
  refine (sqlite3PagerWrite_does pgno hE).bind ?_
  intro _ _ h
  subst h
  exact setPage_does _ _

theorem insertCellFast_does (hp : d.page pgno = .node p)
    (hE : ∀ e, e.isFault = true → E e d) :
    Does (insertCellFast g pgno i cell) d
      (fun _ d' => d' = d.set pgno (.node (p.insertCell g i cell))) E := by
  refine (nodeAt_does hp).bind ?_
  intro x d' h
  obtain ⟨rfl, rfl⟩ := h
  refine Ensures.ite (fun _ => setPage_does _ _) fun _ => ?_
  refine (sqlite3PagerWrite_does pgno hE).bind ?_
  intro _ _ h
  subst h
  exact setPage_does _ _

theorem dropCell_does (hp : d.page pgno = .node p) :
    Does (dropCell pgno i) d (fun _ d' => d' = d.set pgno (.node (p.dropCell i))) E := by
  refine (nodeAt_does hp).bind ?_
  intro x d' h
  obtain ⟨rfl, rfl⟩ := h
  exact setPage_does _ _

end Rules

end Btreelite
