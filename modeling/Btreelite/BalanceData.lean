import Btreelite.Balance
import Btreelite.KeyLeaves

/-!
# What balancing keeps

The cells of the leaves below the siblings `balance_nonroot` gathers, the dividers between these and
the pages below them, before and after.
-/

namespace Btreelite

open Prog Segment

/-! ## Leaves and children -/

/-- The children of an interior page. -/
def MemPage.children (p : MemPage) : List Nat := p.allCells.map get4byte ++ [p.right]

/-- The cells of the leaves of a subtree of depth `dep` with the content `p` on top. -/
def leafCells (page : Nat → PageData) : Nat → MemPage → List Cell
  | 0, p => p.allCells
  | dep + 1, p => p.children.flatMap fun c =>
    match page c with
    | .node p => leafCells page dep p
    | _ => []

section Subtrees

variable {g : Geometry} {page : Nat → PageData}

theorem Body.leafCells : ∀ {dep : Nat} {lo hi : Bound} {p : MemPage} {es : List Entry} {qs : List Nat},
    Body g page dep lo p hi es qs → leafCells page dep p = es.map Entry.cell
  | 0, _, _, _, _, _, h => h.2.1
  | dep + 1, lo, hi, p, es, qs, h => by
    have hseg := (body_succ.1 h).2.2
    have hchildren : p.children = (p.kids hi).map Prod.fst := by
      simp [MemPage.children, MemPage.kids]
    rw [Btreelite.leafCells, hchildren]
    generalize p.kids hi = ks at hseg
    clear h hchildren
    induction ks generalizing lo es qs with
    | nil =>
      obtain ⟨-, rfl, -⟩ := hseg
      rfl
    | cons k ks ih =>
      obtain ⟨es1, es2, qs1, qs2, rfl, rfl, ⟨p', qs', hp', -, -, hbody⟩, hrest⟩ := hseg
      rw [List.map_cons, List.flatMap_cons, hp', ih _ _ _ hrest, List.map_append]
      exact congrArg (· ++ _) hbody.leafCells

end Subtrees

/-! ## The cells of a packing -/

section Cuts

variable {b : CellArray} {s : Packing}

end Cuts

/-! ## The siblings before and after -/

/-- The pages `W` are the children of `p` at the cells `ds` and the pointer behind them, between the
cells `a` and `c`. -/
structure Row (page : Nat → PageData) (p : MemPage) (a ds c : List Cell) (W : List (Nat × MemPage)) :
    Prop where
  cells : p.allCells = a ++ (ds ++ c)
  siblings : W.map Prod.fst = ds.map get4byte ++ [(c.map get4byte ++ [p.right]).headD 0]
  holds : Holds page W

section Kept

variable {g : Geometry} {dep : Nat}

/-- The children of a row of interior pages are those of their cells, with the dividers between them. -/
theorem loadCells_children {olds : List MemPage} (divs : List Cell) (hlen : olds.length = divs.length + 1)
    (hl : ∀ p ∈ olds, p.leaf = false) (hr : ∀ p ∈ olds, p.right < 2 ^ 32)
    (hc : ∀ p ∈ olds, ∀ c ∈ p.allCells, IsDivider c) (hd : ∀ c ∈ divs, IsDivider c) :
    olds.flatMap MemPage.children
      = (loadCells olds divs).map get4byte ++ [(olds.getLastD default).right] := by
  have h := congrArg (List.map Prod.fst) (@gather_kids olds divs ⊤ hlen hl hr hc hd).2
  have hzip : olds = (olds.zip (divs.map (fun c => (divKey c).bound) ++ [⊤])).map Prod.fst :=
    (List.map_fst_zip (by simp [hlen])).symm
  rw [List.map_flatMap] at h
  simp only [MemPage.kids, List.map_append, List.map_map, List.map_cons, List.map_nil,
    Function.comp_def] at h
  rw [← h]
  conv_lhs => rw [hzip]
  rw [List.flatMap_map]
  rfl

variable {d : Db} {parent : Nat} {p : MemPage} {a ds c : List Cell} {cl : Nat} {W : List (Nat × MemPage)}
  {lo hi : Bound} {es : List Entry} {qs R : List Nat}

/-- The cells gathered from leaves are those of their entries. -/
theorem Gathered.leaves (hG : Gathered g d parent p 0 a ds c cl W lo hi es qs R) :
    (gatheredCells g W ds).leaf = true ∧ (gatheredCells g W ds).cells = es.map Entry.cell
      ∧ ∀ e ∈ es, e.On g d.page := by
  have hlen := hG.length_eq
  obtain ⟨h1, h2, h3, -, -⟩ := @gather_leaves g d.page _ _ ds _ _ _ _ (by simpa using hlen.symm) hG.body
  obtain ⟨w, rest, hw⟩ := List.exists_cons_of_ne_nil (List.ne_nil_of_length_pos (by omega) : W.map Prod.snd ≠ [])
  refine ⟨?_, h2, h3⟩
  rw [gatheredCells, hw]
  exact h1 w (by rw [hw]; exact List.mem_cons_self)

/-- The cells gathered from interior pages are dividers, and their children those of the siblings. -/
theorem Gathered.interior (hG : Gathered g d parent p (dep + 1) a ds c cl W lo hi es qs R)
    (hd : ∀ c ∈ ds, IsDivider c) :
    (gatheredCells g W ds).leaf = false ∧ (∀ c ∈ (gatheredCells g W ds).cells, IsDivider c)
      ∧ ((W.map Prod.snd).getLastD default).right < 2 ^ 32
      ∧ (W.map Prod.snd).flatMap MemPage.children = (gatheredCells g W ds).cells.map get4byte
        ++ [((W.map Prod.snd).getLastD default).right] := by
  have hlen := hG.length_eq
  have hnode := seg_body_succ (by simpa using hlen.symm) hG.body
  have hright : ∀ q ∈ W.map Prod.snd, q.right < 2 ^ 32 := fun q hq => by
    refine hG.own.lt_two_pow ?_
    have := right_mem (by simpa using hlen.le) hG.body q hq (hnode q hq).1
    simp [this]
  obtain ⟨w, rest, hw⟩ := List.exists_cons_of_ne_nil (List.ne_nil_of_length_pos (by omega) : W.map Prod.snd ≠ [])
  refine ⟨?_, ?_, ?_, ?_⟩
  · rw [gatheredCells, hw]
    exact (hnode w (by rw [hw]; exact List.mem_cons_self)).1
  · exact (@gather_kids _ _ ⊤ hlen (fun q hq => (hnode q hq).1) hright (fun q hq => (hnode q hq).2) hd).1
  · refine hright _ ?_
    rw [hw, List.getLastD_cons, ← List.getLast_eq_getLastD (List.cons_ne_nil w rest)]
    exact List.getLast_mem _
  · exact loadCells_children _ hlen (fun q hq => (hnode q hq).1) hright (fun q hq => (hnode q hq).2) hd

end Kept

/-! ## One step of `balance` -/

section Step

variable {g : Geometry} {d : Db} {parent dep : Nat} {p : MemPage} {lo hi : Bound} {R : List Nat}

end Step

/-! ## Four leaves with a cell each -/

section FourLeaves

end FourLeaves

end Btreelite
