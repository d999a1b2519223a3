import Btreelite.Siblings

/-!
# Editing siblings in place

While `balance_nonroot` rewrites the siblings one after the other, cells still to be moved stand in the
pages it rewrites. A cell read from a sibling that has been rewritten is lost. The downward pass
rewrites a sibling that gets no cells from its left, the upward pass what is left; no cell is lost.
-/

namespace Btreelite

namespace CellArray

variable (b : CellArray) (olds : List MemPage)

/-- `cntOld[i]`, for a new sibling too. -/
def cntOldAt (i : Nat) : Nat := (b.cntOld 0 olds).getD i b.nCell

/-- The old sibling on whose page cell `j` stands. The dividers are copies, and overflow cells stand in
the memory of the caller. -/
def home (j : Nat) : Option Nat :=
  (List.range olds.length).find? fun m =>
    b.start (b.cntOldAt olds) m ≤ j ∧ j < b.cntOldAt olds m
      ∧ j - b.start (b.cntOldAt olds) m ∉ (olds.getD m default).ovfl.map Prod.fst

/-- Cell `j` as `editPage` on sibling `i` reads it, after the siblings `done` were edited. -/
def readCell (done : List Nat) (i j : Nat) : Cell :=
  match b.home olds j with
  | some m => if m ≠ i ∧ m ∈ done then [] else b.cells.getD j []
  | none => b.cells.getD j []

/-- `editPage` on sibling `i` of `k`, after the siblings `done`. -/
def editPage (cnt : Nat → Nat) (k oldRight : Nat) (done : List Nat) (i : Nat) : MemPage :=
  { b.newPage cnt k oldRight i with
    cells := (List.range' (b.start cnt i) (cnt i - b.start cnt i)).map (b.readCell olds done i) }

/-- Condition (1): no cells move left from sibling `i`. -/
def NoneLeft (cnt : Nat → Nat) (i : Nat) : Prop := cnt (i - 1) ≤ b.cntOldAt olds (i - 1)

instance (cnt : Nat → Nat) (i : Nat) : Decidable (b.NoneLeft olds cnt i) :=
  inferInstanceAs (Decidable (_ ≤ _))

section Order

variable {b olds} {cnt : Nat → Nat} {done : List Nat} {k oldRight i j m : Nat}

theorem home_spec (h : b.home olds j = some m) :
    b.start (b.cntOldAt olds) m ≤ j ∧ j < b.cntOldAt olds m := by
  have h1 := List.find?_some h
  simp only [decide_eq_true_eq] at h1
  exact ⟨h1.1, h1.2.1⟩

/-- The cuts between siblings that take cells ascend. -/
theorem cnt_mono (hne : ∀ j < k, b.start cnt j < cnt j) : ∀ i j, i ≤ j → j < k → cnt i ≤ cnt j
  | i, 0, hij, _ => by rw [Nat.le_zero.1 hij]
  | i, j + 1, hij, hj => by
    rcases Nat.eq_or_lt_of_le hij with rfl | hij
    · exact le_rfl
    · have h1 := cnt_mono hne i j (Nat.le_of_lt_succ hij) (Nat.lt_of_succ_lt hj)
      have h2 := hne (j + 1) hj
      rw [start] at h2
      omega

theorem le_of_mem_cntOld : ∀ {olds : List MemPage} {n x : Nat}, x ∈ b.cntOld n olds → n ≤ x
  | [], _, _, h => by simp [cntOld] at h
  | _ :: _, n, x, h => by
    rw [cntOld, List.mem_cons] at h
    rcases h with rfl | h
    · exact Nat.le_add_right _ _
    · have := le_of_mem_cntOld h
      omega

theorem cntOld_pairwise : ∀ (olds : List MemPage) (n : Nat), (b.cntOld n olds).Pairwise (· ≤ ·)
  | [], _ => List.Pairwise.nil
  | _ :: _, n => List.Pairwise.cons (fun x hx => by
      have := le_of_mem_cntOld hx
      omega) (cntOld_pairwise _ _)

/-- The cuts between the old siblings ascend, and no cell is behind the last. -/
theorem cntOldAt_mono (hle : ∀ x ∈ b.cntOld 0 olds, x ≤ b.nCell) (h : i ≤ j) :
    b.cntOldAt olds i ≤ b.cntOldAt olds j := by
  unfold cntOldAt
  rcases Nat.lt_or_ge j (b.cntOld 0 olds).length with hj | hj
  · rw [List.getD_eq_getElem _ _ (h.trans_lt hj), List.getD_eq_getElem _ _ hj]
    rcases Nat.eq_or_lt_of_le h with rfl | h
    · exact le_rfl
    · exact List.pairwise_iff_getElem.1 (cntOld_pairwise olds 0) i j _ hj h
  · rw [List.getD_eq_default _ _ hj]
    rcases Nat.lt_or_ge i (b.cntOld 0 olds).length with hi | hi
    · rw [List.getD_eq_getElem _ _ hi]
      exact hle _ (List.getElem_mem hi)
    · rw [List.getD_eq_default _ _ hi]

/-- What sibling `i` gets from the siblings to its right moves left out of all of them. -/
theorem not_noneLeft_of_home (hmono : ∀ i j, i ≤ j → j < k → cnt i ≤ cnt j) (hh : b.home olds j = some m)
    (him : i < m) (hmk : m < k) (hj : j < cnt i) : ¬ b.NoneLeft olds cnt m := by
  obtain ⟨h1, -⟩ := home_spec hh
  obtain ⟨m, rfl⟩ := Nat.exists_eq_succ_of_ne_zero (Nat.ne_zero_of_lt him)
  have h2 := hmono i m (Nat.lt_succ_iff.1 him) (by omega)
  simp only [start] at h1
  simp only [NoneLeft, Nat.succ_eq_add_one, Nat.add_sub_cancel]
  omega

/-- A sibling that gets cells from its left has none that move left. -/
theorem noneLeft_of_home (hle : ∀ x ∈ b.cntOld 0 olds, x ≤ b.nCell) (hh : b.home olds j = some m)
    (hmi : m < i) (hj : b.start cnt i ≤ j) : b.NoneLeft olds cnt i := by
  obtain ⟨-, h1⟩ := home_spec hh
  obtain ⟨i, rfl⟩ := Nat.exists_eq_succ_of_ne_zero (Nat.ne_zero_of_lt hmi)
  have h2 := cntOldAt_mono hle (Nat.lt_succ_iff.1 hmi)
  simp only [start] at hj
  simp only [NoneLeft, Nat.succ_eq_add_one, Nat.add_sub_cancel]
  omega

/-- A sibling none of whose cells is lost gets its cells. -/
theorem editPage_eq (hle : cnt i ≤ b.nCell)
    (h : ∀ j m, b.start cnt i ≤ j → j < cnt i → b.home olds j = some m → m ≠ i → m ∉ done) :
    b.editPage olds cnt k oldRight done i = b.newPage cnt k oldRight i := by
  have hcells : (List.range' (b.start cnt i) (cnt i - b.start cnt i)).map (b.readCell olds done i)
      = (b.cells.drop (b.start cnt i)).take (cnt i - b.start cnt i) := ?_
  · unfold editPage
    rw [hcells]
    rfl
  unfold nCell at hle
  refine List.ext_getElem ?_ fun n h1 h2 => ?_
  · rw [List.length_map, List.length_range', List.length_take, List.length_drop]
    omega
  · simp only [List.length_map, List.length_range'] at h1
    simp only [List.getElem_map, List.getElem_range', Nat.one_mul, List.getElem_take, List.getElem_drop]
    have hget : b.cells.getD (b.start cnt i + n) [] = b.cells[b.start cnt i + n] :=
      List.getD_eq_getElem _ _ (by omega)
    unfold readCell
    cases hh : b.home olds (b.start cnt i + n) with
    | none => exact hget
    | some m =>
      have := h _ m (by omega) (by omega) hh
      dsimp only
      rw [if_neg (by tauto), hget]

end Order

end CellArray

end Btreelite
