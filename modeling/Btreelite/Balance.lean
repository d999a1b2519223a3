import Btreelite.EditOrder
import Btreelite.Path
import Mathlib.Data.List.Sort

/-!
# Balancing

`balance_nonroot`, `balance_deeper` and `balance`. Where on its page `editPage` puts a cell does not
show.
-/

namespace Btreelite

open Prog Segment

/-! ## The code -/

section Code

variable (g : Geometry)

/-- `nxDiv`, and how many dividers stand between the siblings, for a parent with `n` cells. -/
def siblingWindow (n iParentIdx : Nat) : Nat × Nat :=
  if n < 2 then (0, n)
  else (if iParentIdx = 0 then 0 else if iParentIdx = n then n - 2 else iParentIdx - 1, 2)

/-- Takes divider `k` out of the parent, from the overflow cell or from the page. -/
def takeDivider (parent k : Nat) : BtM Cell := do
  let p ← nodeAt parent
  if p.ovfl.head?.map Prod.fst = some k then
    setPage parent (.node { p with ovfl := [] })
    return (p.ovfl.map Prod.snd).headD []
  else
    match p.cells[k - p.ovfl.length]? with
    | none => throw .corrupt
    | some cell =>
      setPage parent (.node (p.dropCell (k - p.ovfl.length)))
      return cell

/-- The loop over the siblings, from sibling `i` on page `pgno` down to the first: `apOld[]` with the
page numbers, and `apDiv[]`. -/
def loadSiblings (parent nxDiv : Nat) : Nat → Nat → BtM (List (Nat × MemPage) × List Cell)
  | 0, pgno => do
    let p ← getAndInitPage g pgno
    return ([(pgno, p)], [])
  | i + 1, pgno => do
    let p ← getAndInitPage g pgno
    let div ← takeDivider parent (i + nxDiv)
    let (olds, divs) ← loadSiblings parent nxDiv i (get4byte div)
    return (olds ++ [(pgno, p)], divs ++ [div])

/-- Makes the siblings that are kept writeable. -/
def reuseSiblings : List Nat → BtM Unit
  | [] => return
  | pgno :: pgnos => do
    sqlite3PagerWrite pgno
    reuseSiblings pgnos

/-- Allocates `n` more siblings, each near the one before. -/
def allocateSiblings (leaf : Bool) : Nat → Nat → BtM (List Nat)
  | 0, _ => return []
  | n + 1, nearby => do
    let pgno ← allocateBtreePage g nearby
    setPage pgno (.node { leaf, cells := [], right := 0, ovfl := [] })
    let pgnos ← allocateSiblings leaf n pgno
    return pgno :: pgnos

/-- `put4byte(pRight, ...)`: the pointer of the parent to its last sibling. -/
def setRightSibling (parent nxDiv : Nat) (isRight : Bool) (pgno : Nat) : BtM Unit := do
  let p ← nodeAt parent
  if isRight then setPage parent (.node { p with right := pgno })
  else setPage parent (.node { p with cells := p.cells.modify nxDiv (setChild pgno) })

/-- The loop that inserts the divider behind each sibling but the last. -/
def insertDividers (parent nxDiv : Nat) (b : CellArray) (cntNew : Nat → Nat) : Nat → List Nat → BtM Unit
  | i, pgno :: next :: pgnos => do
    insertCell g parent (nxDiv + i) (b.divider (cntNew i)) pgno
    insertDividers parent nxDiv b cntNew (i + 1) (next :: pgnos)
  | _, _ => return

/-- The downward pass of the loop over `editPage`, from sibling `i` on; `done` is `abDone[]`. -/
def editDown (b : CellArray) (olds : List MemPage) (cntNew : Nat → Nat) (k oldRight : Nat)
    (pgnos : List Nat) : Nat → List Nat → BtM (List Nat)
  | 0, done => return done
  | i + 1, done =>
    if b.NoneLeft olds cntNew (i + 1) then do
      setPage (pgnos.getD (i + 1) 0) (.node (b.editPage olds cntNew k oldRight done (i + 1)))
      editDown b olds cntNew k oldRight pgnos i ((i + 1) :: done)
    else editDown b olds cntNew k oldRight pgnos i done

/-- The upward pass, over `n` siblings from sibling `i` on. -/
def editUp (b : CellArray) (olds : List MemPage) (cntNew : Nat → Nat) (k oldRight : Nat)
    (pgnos : List Nat) : Nat → Nat → List Nat → BtM (List Nat)
  | 0, _, done => return done
  | n + 1, i, done =>
    if i ∈ done then editUp b olds cntNew k oldRight pgnos n (i + 1) done
    else do
      setPage (pgnos.getD i 0) (.node (b.editPage olds cntNew k oldRight done i))
      editUp b olds cntNew k oldRight pgnos n (i + 1) (i :: done)

/-- The loop over `editPage`. -/
def editPages (b : CellArray) (olds : List MemPage) (cntNew : Nat → Nat) (k oldRight : Nat)
    (pgnos : List Nat) : BtM Unit := do
  let done ← editDown b olds cntNew k oldRight pgnos (k - 1) []
  let _ ← editUp b olds cntNew k oldRight pgnos k 0 done
  return

def freePages2 : List Nat → BtM Unit
  | [] => return
  | pgno :: pgnos => do
    freePage2 g pgno
    freePages2 pgnos

/-- The balance-shallower step: a root without cells takes the content of its only child. -/
def balanceShallower (parent child : Nat) (isRoot : Bool) : BtM Unit := do
  let p ← nodeAt parent
  let c ← nodeAt child
  if isRoot ∧ p.cells = [] ∧ 0 ≤ c.nFree g then
    setPage parent (.node { c with ovfl := [] })
    freePage2 g child
  else return

/-- `balance_nonroot` once the cells are shared out: `olds` are the siblings there were. -/
def placeSiblings (parent nxDiv : Nat) (isRight isRoot : Bool) (olds : List (Nat × MemPage))
    (b : CellArray) (s : Packing) : BtM Unit := do
  let reused := (olds.map Prod.fst).take s.k
  reuseSiblings reused
  let news ← allocateSiblings g b.leaf (s.k - olds.length) (reused.headD 0)
  let pgnos := (reused ++ news).insertionSort (· ≤ ·)
  setRightSibling parent nxDiv isRight (pgnos.getLastD 0)
  insertDividers g parent nxDiv b s.cntNew 0 pgnos
  editPages b (olds.map Prod.snd) s.cntNew s.k ((olds.map Prod.snd).getLastD default).right pgnos
  balanceShallower g parent (pgnos.headD 0) isRoot
  freePages2 g ((olds.map Prod.fst).drop s.k)

/-- `balance_nonroot`. The first `tick` is the allocation of `aOvflSpace`, the second that of
`b.apCell`. -/
def balanceNonroot (parent iParentIdx : Nat) (isRoot : Bool) : BtM Unit := do
  tick
  let p ← nodeAt parent
  let (nxDiv, nDiv) := siblingWindow (p.ovfl.length + p.cells.length) iParentIdx
  let iRight := nDiv + nxDiv - p.ovfl.length
  let (olds, divs) ← loadSiblings g parent nxDiv nDiv (p.childAt iRight)
  tick
  let pages := olds.map Prod.snd
  let leaf := (pages.headD default).leaf
  if pages.any (·.leaf != leaf) then throw .corrupt
  else
    let b : CellArray := { g, leaf, cells := loadCells pages divs }
    match b.distribute (b.oldPacking pages) with
    | .error e => throw e
    | .ok s => placeSiblings g parent nxDiv (iRight = p.cells.length) isRoot olds b s

/-- `balance_deeper`. -/
def balanceDeeper (root : Nat) : BtM Nat := do
  sqlite3PagerWrite root
  let pgnoChild ← allocateBtreePage g root
  let p ← nodeAt root
  setPage pgnoChild (.node p)
  setPage root (.node { leaf := false, cells := [], right := pgnoChild, ovfl := [] })
  return pgnoChild

/-- `pPage->nOverflow = 0`. -/
def clearOvfl (pgno : Nat) : BtM Unit := do
  match ← pageData pgno with
  | .node p => setPage pgno (.node { p with ovfl := [] })
  | _ => return

/-- The loop of `balance` from page `cur` on, below the pages `anc` with the index of the child in
each, nearest first; `another` tells whether another valid cursor is on the root. `balance_deeper`
leaves the root fewer cells than it had, so few of the `fuel` steps are ever taken. -/
def balanceFrom (another : Bool) : Nat → Nat → List (Nat × Nat) → BtM (Nat × List (Nat × Nat))
  | 0, _, _ => throw .corrupt
  | fuel + 1, cur, anc => do
    let p ← nodeAt cur
    if p.ovfl = [] ∧ p.nFree g * 3 ≤ g.usableSize * 2 then return (cur, anc)
    else
      match anc with
      | [] =>
        if p.ovfl = [] then return (cur, [])
        else if another then throw .corrupt
        else
          let child ← balanceDeeper g cur
          balanceFrom another fuel child [(cur, 0)]
      | (parent, iIdx) :: anc =>
        onError (do
          sqlite3PagerWrite parent
          balanceNonroot g parent iIdx anc.isEmpty) (clearOvfl cur)
        balanceFrom another fuel parent anc

/-- `balance`. -/
def balance (another : Bool) (cur : Nat) (anc : List (Nat × Nat)) : BtM (Nat × List (Nat × Nat)) :=
  balanceFrom g another (2 * mxPgno) cur anc

end Code

/-! ## The siblings before -/

section Load

variable {g : Geometry} {d : Db} {parent idx : Nat} {p : MemPage} {a b x y : List Cell}

theorem siblingWindow_spec {n idx : Nat} (h : idx ≤ n) :
    (siblingWindow n idx).1 ≤ idx ∧ idx ≤ (siblingWindow n idx).1 + (siblingWindow n idx).2
      ∧ (siblingWindow n idx).1 + (siblingWindow n idx).2 ≤ n ∧ (siblingWindow n idx).2 ≤ 2
      ∧ ((siblingWindow n idx).2 = 0 → n = 0) := by
  unfold siblingWindow
  split_ifs <;> simp <;> omega

theorem siblingWindow_lt {n idx : Nat} (h : idx < n) :
    idx < (siblingWindow n idx).1 + (siblingWindow n idx).2 := by
  unfold siblingWindow
  split_ifs <;> simp <;> omega

/-- The cells of a page whose only overflow cell has index `idx`. -/
theorem MemPage.split_ovfl {cell : Cell} (ho : p.ovfl = [(idx, cell)]) (hi : idx ≤ p.cells.length) :
    ∃ t u, t.length = idx ∧ p.cells = t ++ u ∧ p.allCells = t ++ cell :: u :=
  ⟨p.cells.take idx, p.cells.drop idx, List.length_take_of_le hi, (List.take_append_drop _ _).symm,
    by simp [MemPage.allCells, ho]⟩

/-- The cells that come after the overflow cell. -/
theorem MemPage.getElem?_of_ovfl {cell : Cell} {k : Nat} (ho : p.ovfl = [(idx, cell)])
    (hi : idx ≤ p.cells.length) (hk : idx < k) : p.cells[k - 1]? = p.allCells[k]? := by
  obtain ⟨t, u, rfl, hcells, hall⟩ := MemPage.split_ovfl ho hi
  obtain ⟨j, rfl⟩ : ∃ j, k = t.length + j + 1 := ⟨k - t.length - 1, by omega⟩
  rw [hcells, hall, Nat.add_sub_cancel, List.getElem?_append_right (by omega),
    List.getElem?_append_right (by omega), Nat.add_sub_cancel_left, Nat.add_assoc,
    Nat.add_sub_cancel_left, List.getElem?_cons_succ]

theorem getElem?_append_cons {α : Type} (l : List α) (x : α) (r : List α) :
    (l ++ x :: r)[l.length]? = some x := by
  rw [List.getElem?_append_right le_rfl, Nat.sub_self, List.getElem?_cons_zero]

theorem eraseIdx_append_cons {α : Type} (l : List α) (x : α) (r : List α) :
    (l ++ x :: r).eraseIdx l.length = l ++ r := by
  rw [List.eraseIdx_append_of_length_le le_rfl, Nat.sub_self, List.eraseIdx_cons_zero]

/-- Takes a cell out of a page whose overflow cell, if there is one, does not come after it. -/
theorem takeDivider_does {c : Cell} {E : Rc → Db → Prop} (hp : d.page parent = .node p)
    (ho : p.ovfl = [] ∨ ∃ cell, p.ovfl = [(idx, cell)] ∧ idx ≤ p.cells.length ∧ idx ≤ x.length)
    (hc : p.allCells = x ++ c :: y) :
    Does (takeDivider parent x.length) d (fun r d' => r = c ∧ ∃ cells ovfl,
      d' = d.set parent (.node { p with cells, ovfl })
        ∧ ({ p with cells, ovfl } : MemPage).allCells = x ++ y
        ∧ (ovfl = [] ∨ ∃ cell, ovfl = [(idx, cell)] ∧ idx ≤ cells.length ∧ idx < x.length)) E := by
  refine (nodeAt_does hp).bind ?_
  intro q d' h
  obtain ⟨rfl, rfl⟩ := h
  rcases ho with ho | ⟨cell, ho, hi, hx⟩
  · rw [MemPage.allCells_of_ovfl_nil ho] at hc
    have hget : q.cells[x.length]? = some c := hc ▸ getElem?_append_cons x c y
    simp only [ho, List.head?_nil, Option.map_none, reduceCtorEq, if_false, List.length_nil,
      Nat.sub_zero, hget]
    refine (setPage_does _ _).bind ?_
    intro _ d' h
    subst h
    refine Ensures.pure ⟨rfl, q.cells.eraseIdx x.length, [], ?_, ?_, .inl rfl⟩
    · rw [MemPage.dropCell, ← ho]
    · rw [MemPage.allCells_of_ovfl_nil rfl, hc]
      exact eraseIdx_append_cons x c y
  · obtain ⟨t, u, rfl, hcells, hall⟩ := MemPage.split_ovfl ho hi
    rw [hall] at hc
    rcases Nat.eq_or_lt_of_le hx with hx | hx
    · obtain ⟨rfl, hcu⟩ := List.append_inj hc hx
      obtain ⟨rfl, rfl⟩ := List.cons.inj hcu
      simp only [ho, List.head?_cons, Option.map_some, if_true]
      refine (setPage_does _ _).bind ?_
      intro _ d' h
      subst h
      exact Ensures.pure ⟨rfl, q.cells, [], rfl, hcells, .inl rfl⟩
    · obtain ⟨x', rfl, rfl⟩ : ∃ x', x = t ++ cell :: x' ∧ u = x' ++ c :: y := by
        rcases List.append_eq_append_iff.1 hc with ⟨z, rfl, h2⟩ | ⟨z, rfl, -⟩
        · rcases z with - | ⟨z0, z⟩
          · rw [List.append_nil] at hx
            exact absurd hx (lt_irrefl _)
          · obtain ⟨rfl, hu⟩ := List.cons.inj h2
            exact ⟨z, rfl, hu⟩
        · rw [List.length_append] at hx
          omega
      have hcells' : q.cells = (t ++ x') ++ c :: y := by rw [hcells, List.append_assoc]
      have hlen : (t ++ cell :: x').length - 1 = (t ++ x').length := by simp
      have hne : ¬ some t.length = some (t ++ cell :: x').length := fun h =>
        absurd (Option.some.inj h) hx.ne
      have hget : q.cells[(t ++ x').length]? = some c := hcells' ▸ getElem?_append_cons _ c y
      simp only [ho, List.head?_cons, Option.map_some, hne, if_false, List.length_singleton, hlen, hget]
      refine (setPage_does _ _).bind ?_
      intro _ d' h
      subst h
      have herase : q.cells.eraseIdx (t ++ x').length = t ++ (x' ++ y) := by
        rw [hcells', eraseIdx_append_cons, List.append_assoc]
      refine Ensures.pure ⟨rfl, _, q.ovfl, rfl, ?_, .inr ⟨cell, ho, ?_, hx⟩⟩
      · simp only [MemPage.allCells, ho, herase, List.take_left, List.drop_left, List.map_cons,
          List.map_nil, List.append_assoc, List.cons_append, List.nil_append]
      · rw [herase, List.length_append]
        omega

/-- The siblings and the dividers between them. A parent with an overflow cell has it among these. -/
theorem loadSiblings_does {E : Rc → Db → Prop} (hE : ∀ e d, e.isFault = true → E e d)
    (ha : a.length ≤ idx) (ds : List Cell) : ∀ {pgno : Nat} {p : MemPage} {b : List Cell} {d : Db}
    {W : List (Nat × MemPage)}, d.page parent = .node p →
    (p.ovfl = [] ∨ ∃ cell, p.ovfl = [(idx, cell)] ∧ idx ≤ p.cells.length
      ∧ idx < a.length + ds.length) →
    p.allCells = a ++ (ds ++ b) →
    W.map Prod.fst = ds.map get4byte ++ [pgno] → Holds d.page W →
    (∀ w ∈ W, w.1 ≠ parent ∧ InRange g d.nPage w.1) →
    Does (loadSiblings g parent a.length ds.length pgno) d
      (fun r d' => r = (W, ds) ∧ d' = d.set parent (.node { p with cells := a ++ b, ovfl := [] }))
      E := by
  induction ds using List.reverseRecOn with
  | nil =>
    intro pgno p b d W hp ho hc hW hpage hin
    obtain ⟨w, rfl⟩ : ∃ w, W = [w] := List.length_eq_one_iff.1 (by simpa using congrArg List.length hW)
    obtain rfl : w.1 = pgno := by simpa using hW
    have hw := hpage w List.mem_cons_self
    obtain ⟨-, h1, h2, h3⟩ := hin w List.mem_cons_self
    refine (getAndInitPage_does hw h2 (by omega) h3 fun e => hE e d).bind ?_
    intro x d' h
    obtain ⟨rfl, rfl⟩ := h
    have ho : p.ovfl = [] := by
      rcases ho with ho | ⟨_, -, -, h4⟩
      · exact ho
      · rw [List.length_nil] at h4
        omega
    rw [MemPage.allCells_of_ovfl_nil ho, List.nil_append] at hc
    refine Ensures.pure ⟨rfl, ?_⟩
    rw [Db.set_eq_self]
    rw [hp, ← hc, ← ho]
  | append_singleton ds c ih =>
    intro pgno p b d W hp ho hc hW hpage hin
    rw [List.map_append, List.append_assoc] at hW
    obtain ⟨W1, W2, rfl, hW1, hW2⟩ := List.map_eq_append_iff.1 hW
    obtain ⟨w1, w2, rfl⟩ : ∃ w1 w2, W2 = [w1, w2] :=
      List.length_eq_two.1 (by simpa using congrArg List.length hW2)
    simp only [List.map_cons, List.map_nil, List.singleton_append, List.cons.injEq, and_true] at hW2
    obtain ⟨hw1, rfl⟩ := hW2
    have hw := hpage w2 (by simp)
    obtain ⟨-, h1, h2, h3⟩ := hin w2 (by simp)
    rw [List.length_append, List.length_singleton]
    refine (getAndInitPage_does hw h2 (by omega) h3 fun e => hE e d).bind ?_
    intro x d' h
    obtain ⟨rfl, rfl⟩ := h
    have hcells : p.allCells = (a ++ ds) ++ c :: b := by rw [hc]; simp
    have ho1 : p.ovfl = [] ∨ ∃ cell, p.ovfl = [(idx, cell)] ∧ idx ≤ p.cells.length
        ∧ idx ≤ (a ++ ds).length := by
      refine ho.imp_right ?_
      rintro ⟨cell, h1, h2, h4⟩
      simp only [List.length_append, List.length_singleton] at h4 ⊢
      exact ⟨cell, h1, h2, by omega⟩
    have htake := takeDivider_does (E := E) hp ho1 hcells
    rw [List.length_append, Nat.add_comm] at htake
    refine htake.bind ?_
    intro r d' h
    obtain ⟨rfl, cells, ovfl, rfl, hcells', ho'⟩ := h
    rw [List.append_assoc] at hcells'
    refine (ih (W := W1 ++ [w1]) (Db.set_page_self _ _ _) (ho'.imp_right ?_) hcells' ?_ ?_ ?_).bind ?_
    · intro ⟨cell, h5, h6, h7⟩
      exact ⟨cell, h5, h6, by omega⟩
    · rw [List.map_append, hW1, List.map_singleton, hw1]
    · intro w hmem
      have hmem' : w ∈ W1 ++ [w1, w2] := by simp at hmem ⊢; tauto
      rw [Db.set_page_of_ne _ _ _ (hin w hmem').1]
      exact hpage w hmem'
    · intro w hmem
      exact hin w (by simp at hmem ⊢; tauto)
    · intro r' d' h
      obtain ⟨rfl, rfl⟩ := h
      exact Ensures.pure ⟨by simp, by simp⟩

end Load

/-! ## The siblings after -/

section Place

variable {g : Geometry} {d : Db} {parent nxDiv : Nat} {p : MemPage} {qs R : List Nat}

theorem reuseSiblings_does : ∀ pgnos : List Nat,
    Does (reuseSiblings pgnos) d (fun _ d' => d = d') fun e _ => e.isFault = true
  | [] => Ensures.pure rfl
  | pgno :: pgnos => by
    refine (sqlite3PagerWrite_does pgno (by simp)).bind ?_
    intro _ _ h
    subst h
    exact reuseSiblings_does pgnos

theorem allocateSiblings_does (leaf : Bool) : ∀ (n nearby : Nat) {d : Db} {R : List Nat}, Owns g d R →
    Does (allocateSiblings g leaf n nearby) d
      (fun news d' => news.length = n ∧ Owns g d' (news ++ R) ∧ ∀ q ∈ R, d'.page q = d.page q)
      fun e _ => e.isFault = true
  | 0, _, _, _, h => Ensures.pure ⟨rfl, h, fun _ _ => rfl⟩
  | n + 1, nearby, d, R, h => by
    refine (allocateBtreePage_does h nearby).bind ?_
    intro pgno d1 h
    obtain ⟨hown, hkeep⟩ := h
    refine (setPage_does _ _).bind ?_
    intro _ _ h
    subst h
    have hnd := List.nodup_cons.1 hown.nodup
    refine (allocateSiblings_does leaf n pgno (hown.set List.mem_cons_self _)).bind ?_
    intro news d2 h
    obtain ⟨hlen, hown2, hkeep2⟩ := h
    refine Ensures.pure ⟨by simp [hlen], hown2.perm List.perm_middle, fun q hq => ?_⟩
    rw [hkeep2 q (List.mem_cons_of_mem _ hq), Db.set_page_of_ne _ _ _ (by rintro rfl; exact hnd.1 hq),
      hkeep q hq]

/-- The cells from the last sibling's pointer on, and the right child, once that pointer is `pgno`. -/
def linkRight (pgno : Nat) (right : Nat) : List Cell → List Cell × Nat
  | [] => ([], pgno)
  | c :: b => (setChild pgno c :: b, right)

theorem modify_append_cons {α : Type} (f : α → α) (x : α) (b : List α) : ∀ a : List α,
    (a ++ x :: b).modify a.length f = a ++ f x :: b
  | [] => rfl
  | y :: a => by simp [List.modify_succ_cons, modify_append_cons f x b a]

theorem setRightSibling_does {a b : List Cell} {isRight : Bool} (hp : d.page parent = .node p)
    (hc : p.cells = a ++ b) (hr : isRight = true ↔ b = []) (pgno : Nat) {E : Rc → Db → Prop} :
    Does (setRightSibling parent a.length isRight pgno) d (fun _ d' => d' = d.set parent
      (.node { p with cells := a ++ (linkRight pgno p.right b).1,
                      right := (linkRight pgno p.right b).2 })) E := by
  refine (nodeAt_does hp).bind ?_
  intro x d' h
  obtain ⟨rfl, rfl⟩ := h
  refine Ensures.ite (fun h => ?_) fun h => ?_
  · obtain rfl := hr.1 h
    refine (setPage_does _ _).post fun _ d' hd => ?_
    rw [hd, linkRight, hc]
  · rcases b with - | ⟨c, b⟩
    · exact absurd (hr.2 rfl) h
    · refine (setPage_does _ _).post fun _ d' hd => ?_
      rw [hd, linkRight, hc, modify_append_cons]

theorem MemPage.insertCell_cells {i : Nat} {cell : Cell} (hl : p.leaf = false)
    (h0 : p.cells = [] → p.ovfl = []) (hi : i ≤ p.allCells.length) (hc : cell.length ≤ 261) :
    (p.insertCell g i cell).cells ≠ [] := by
  have hu := g.usable_ge
  unfold MemPage.insertCell
  by_cases hcells : p.cells = []
  · have hovfl := h0 hcells
    rw [MemPage.allCells_of_ovfl_nil hovfl, hcells] at hi
    obtain rfl : i = 0 := by simpa using hi
    rw [if_neg]
    · simp [hcells]
    · rintro (h | h)
      · exact h hovfl
      · simp only [MemPage.nFree, hcells, hl] at h
        simp at h
        omega
  · split_ifs
    · exact hcells
    · refine fun h => hcells ?_
      have := congrArg List.length h
      have hle : p.cells.length ≤ (p.cells.insertIdx i cell).length :=
        List.length_le_length_insertIdx
      rw [this] at hle
      exact List.eq_nil_of_length_eq_zero (Nat.le_zero.1 hle)

theorem insertDividers_does (b : CellArray) (cnt : Nat → Nat) : ∀ (keys : List Key)
    (pgnos : List Nat) (i : Nat) {p : MemPage} {d : Db} {x y : List Cell},
    pgnos.length = keys.length + 1 → d.page parent = .node p → p.leaf = false →
    p.OvflAt (nxDiv + i) → p.allCells = x ++ y → x.length = nxDiv + i → 0 ≤ p.nFree g →
    (p.cells = [] → p.ovfl = []) → (∀ k ∈ keys, k.length ≤ 255) →
    (∀ j q (h : j < keys.length),
      setChild q (b.divider (cnt (i + j))) = kvInteriorCell q (keys.get ⟨j, h⟩)) →
    Does (insertDividers g parent nxDiv b cnt i pgnos) d
      (fun _ d' => ∃ p', d' = d.set parent (.node p') ∧ p'.leaf = false ∧ p'.right = p.right
        ∧ p'.allCells = x ++ (List.zipWith kvInteriorCell pgnos keys ++ y) ∧ 0 ≤ p'.nFree g
        ∧ (p'.cells = [] → p'.ovfl = []))
      fun e _ => e.isFault = true
  | [], [pgno], i, p, d, x, y, _, hp, hl, _, hc, _, hf, h0, _, _ =>
    Ensures.pure ⟨p, (Db.set_eq_self hp).symm, hl, rfl, by simpa using hc, hf, h0⟩
  | [], [], _, _, _, _, _, h, _, _, _, _, _, _, _, _, _ => by simp at h
  | [], _ :: _ :: _, _, _, _, _, _, h, _, _, _, _, _, _, _, _, _ => by simp at h
  | _ :: _, [], _, _, _, _, _, h, _, _, _, _, _, _, _, _, _ => by simp at h
  | _ :: _, [_], _, _, _, _, _, h, _, _, _, _, _, _, _, _, _ => by simp at h
  | k :: keys, pgno :: next :: pgnos, i, p, d, x, y, hlen, hp, hl, ho, hc, hx, hf, h0, hk, hd => by
    have hdiv : setChild pgno (b.divider (cnt i)) = kvInteriorCell pgno k := hd 0 pgno (by simp)
    have hk255 := hk k List.mem_cons_self
    have hi : nxDiv + i ≤ p.allCells.length := by
      rw [hc, List.length_append]
      omega
    have hcell : (p.insertCell g (nxDiv + i) (kvInteriorCell pgno k)).allCells
        = x ++ kvInteriorCell pgno k :: y := MemPage.insertCell_allCells ho hc hx
    have hall : (p.insertCell g (nxDiv + i) (kvInteriorCell pgno k)).allCells
        = (x ++ [kvInteriorCell pgno k]) ++ y := by rw [hcell]; simp
    refine (insertCell_does hp (by simp)).bind ?_
    intro _ d' h
    subst h
    rw [hdiv]
    refine (insertDividers_does b cnt keys (next :: pgnos) (i + 1) (by simpa using hlen)
      (Db.set_page_self _ _ _) (MemPage.insertCell_leaf.trans hl) (MemPage.insertCell_ovflAt ho hi)
      hall (by simp [hx, Nat.add_assoc]) (MemPage.insertCell_nFree hf ?_) (fun h => ?_)
      (fun k hk' => hk k (List.mem_cons_of_mem _ hk')) fun j q hj => ?_).post ?_
    · rw [hl]
      exact kvInteriorCell_size hk255
    · exact absurd h (MemPage.insertCell_cells hl h0 hi (kvInteriorCell_length_le hk255))
    · have := hd (j + 1) q (by simpa using hj)
      rw [show i + 1 + j = i + (j + 1) by omega]
      exact this
    · intro _ d' h
      obtain ⟨p', rfl, h1, h2, h3, h4⟩ := h
      exact ⟨p', by simp, h1, h2.trans MemPage.insertCell_right, by rw [h3]; simp, h4⟩

/-- From `d` to `d'` the pages `pgnos` of the siblings `done` have got their new contents. -/
structure Edited (g : Geometry) (R pgnos : List Nat) (new : Nat → MemPage) (d d' : Db) (done : List Nat) :
    Prop where
  own : Owns g d' R
  keep : ∀ q, q ∉ pgnos → d'.page q = d.page q
  holds : ∀ i ∈ done, d'.page (pgnos.getD i 0) = .node (new i)

section Edit

variable {b : CellArray} {olds : List MemPage} {cnt : Nat → Nat} {oldRight : Nat} {R pgnos : List Nat}
  {d0 : Db}

theorem Edited.set {new : Nat → MemPage} {done : List Nat} {i : Nat} (h : Edited g R pgnos new d0 d done)
    (hnd : pgnos.Nodup) (hR : ∀ q ∈ pgnos, q ∈ R) (hdone : ∀ m ∈ done, m < pgnos.length)
    (hi : i < pgnos.length) :
    Edited g R pgnos new d0 (d.set (pgnos.getD i 0) (.node (new i))) (i :: done) := by
  have hmem : pgnos.getD i 0 ∈ pgnos := by
    rw [List.getD_eq_getElem _ _ hi]
    exact List.getElem_mem hi
  refine ⟨h.own.set (hR _ hmem) _, fun q hq => ?_, fun m hm => ?_⟩
  · rw [Db.set_page_of_ne _ _ _ (ne_of_mem_of_not_mem hmem hq).symm, h.keep q hq]
  · rcases eq_or_ne m i with rfl | hne
    · exact Db.set_page_self _ _ _
    · have hm := (List.mem_cons.1 hm).resolve_left hne
      rw [Db.set_page_of_ne, h.holds m hm]
      rw [List.getD_eq_getElem _ _ (hdone m hm), List.getD_eq_getElem _ _ hi]
      exact fun he => hne ((List.Nodup.getElem_inj_iff hnd).1 he)

variable (hcnt : ∀ i < k, cnt i ≤ b.nCell) (hmono : ∀ i j, i ≤ j → j < k → cnt i ≤ cnt j)
  (hle : ∀ x ∈ b.cntOld 0 olds, x ≤ b.nCell) (hnd : pgnos.Nodup) (hR : ∀ q ∈ pgnos, q ∈ R)
  (hlen : pgnos.length = k)
include hcnt hmono hnd hR hlen

/-- No cell is lost on the downward pass. -/
theorem editDown_does : ∀ (i : Nat) {d : Db} {done : List Nat}, i < k →
    Edited g R pgnos (b.newPage cnt k oldRight) d0 d done →
    (∀ m ∈ done, i < m ∧ m < k ∧ b.NoneLeft olds cnt m) →
    (∀ m, i < m → m < k → b.NoneLeft olds cnt m → m ∈ done) →
    Does (editDown b olds cnt k oldRight pgnos i done) d
      (fun done' d' => Edited g R pgnos (b.newPage cnt k oldRight) d0 d' done'
        ∧ (∀ m ∈ done', m < k ∧ b.NoneLeft olds cnt m)
        ∧ ∀ m, 0 < m → m < k → b.NoneLeft olds cnt m → m ∈ done') fun e _ => e.isFault = true
  | 0, _, _, _, h, hdone, hall => Ensures.pure ⟨h, fun m hm => (hdone m hm).2, hall⟩
  | i + 1, d, done, hi, h, hdone, hall => by
    have hlt := Nat.lt_of_succ_lt hi
    unfold editDown
    refine Ensures.ite (fun hD => ?_) fun hD => ?_
    · have hedit : b.editPage olds cnt k oldRight done (i + 1) = b.newPage cnt k oldRight (i + 1) := by
        refine CellArray.editPage_eq (hcnt _ hi) fun j m h1 h2 hh hne hm => ?_
        obtain ⟨h3, h4, h5⟩ := hdone m hm
        exact CellArray.not_noneLeft_of_home hmono hh h3 h4 h2 h5
      rw [hedit]
      refine (setPage_does _ _).bind ?_
      intro _ d' heq
      subst heq
      have hset := h.set hnd hR (fun m hm => hlen ▸ (hdone m hm).2.1) (hlen ▸ hi)
      refine editDown_does i hlt hset (fun m hm => ?_) fun m h1 h2 h3 => ?_
      · rcases List.mem_cons.1 hm with rfl | hm
        · exact ⟨Nat.lt_succ_self i, hi, hD⟩
        · exact ⟨Nat.lt_of_succ_lt (hdone m hm).1, (hdone m hm).2⟩
      · rcases Nat.eq_or_lt_of_le h1 with rfl | h1
        · exact List.mem_cons_self
        · exact List.mem_cons_of_mem _ (hall m h1 h2 h3)
    · refine editDown_does i hlt h (fun m hm => ?_) fun m h1 h2 h3 => ?_
      · exact ⟨Nat.lt_of_succ_lt (hdone m hm).1, (hdone m hm).2⟩
      · rcases Nat.eq_or_lt_of_le h1 with rfl | h1
        · exact absurd h3 hD
        · exact hall m h1 h2 h3

include hle in
/-- Nor on the upward pass, which edits the siblings that are left. -/
theorem editUp_does : ∀ (n i : Nat) {d : Db} {done : List Nat}, i + n = k →
    Edited g R pgnos (b.newPage cnt k oldRight) d0 d done → (∀ m < i, m ∈ done) →
    (∀ m ∈ done, m < k ∧ (m < i ∨ b.NoneLeft olds cnt m)) →
    (∀ m, 0 < m → m < k → b.NoneLeft olds cnt m → m ∈ done) →
    Does (editUp b olds cnt k oldRight pgnos n i done) d
      (fun done' d' => Edited g R pgnos (b.newPage cnt k oldRight) d0 d' done'
        ∧ ∀ m < k, m ∈ done') fun e _ => e.isFault = true
  | 0, i, _, _, hi, h, hall, _, _ => Ensures.pure ⟨h, fun m hm => hall m (by omega)⟩
  | n + 1, i, d, done, hi, h, hall, hdone, hdown => by
    unfold editUp
    refine Ensures.ite (fun hmem => ?_) fun hmem => ?_
    · refine editUp_does n (i + 1) (by omega) h (fun m hm => ?_) (fun m hm => ?_) hdown
      · rcases Nat.lt_succ_iff_lt_or_eq.1 hm with hm | rfl
        · exact hall m hm
        · exact hmem
      · exact ⟨(hdone m hm).1, (hdone m hm).2.imp_left Nat.lt_succ_of_lt⟩
    · have hedit : b.editPage olds cnt k oldRight done i = b.newPage cnt k oldRight i := by
        refine CellArray.editPage_eq (hcnt _ (by omega)) fun j m h1 h2 hh hne hm => ?_
        rcases Nat.lt_or_gt_of_ne hne with hlt | hgt
        · -- sibling `i` gets cells from its left, so the downward pass has edited it
          exact hmem (hdown i (by omega) (by omega) (CellArray.noneLeft_of_home hle hh hlt h1))
        · obtain ⟨h3, h4⟩ := hdone m hm
          exact CellArray.not_noneLeft_of_home hmono hh hgt h3 h2 (h4.resolve_left (by omega))
      rw [hedit]
      refine (setPage_does _ _).bind ?_
      intro _ d' heq
      subst heq
      have hset := h.set hnd hR (fun m hm => hlen ▸ (hdone m hm).1) (show i < pgnos.length by omega)
      refine editUp_does n (i + 1) (by omega) hset (fun m hm => ?_) (fun m hm => ?_) fun m h1 h2 h3 =>
        List.mem_cons_of_mem _ (hdown m h1 h2 h3)
      · rcases Nat.lt_succ_iff_lt_or_eq.1 hm with hm | rfl
        · exact List.mem_cons_of_mem _ (hall m hm)
        · exact List.mem_cons_self
      · rcases List.mem_cons.1 hm with rfl | hm
        · exact ⟨by omega, Or.inl (Nat.lt_succ_self m)⟩
        · exact ⟨(hdone m hm).1, (hdone m hm).2.imp_left Nat.lt_succ_of_lt⟩

include hle in
/-- The siblings get the cells the packing gives them. -/
theorem editPages_does (hk : 0 < k) (hown : Owns g d R) :
    Does (editPages b olds cnt k oldRight pgnos) d
      (fun _ d' => Owns g d' R ∧ (∀ q, q ∉ pgnos → d'.page q = d.page q)
        ∧ Holds d'.page (pgnos.zip ((List.range k).map (b.newPage cnt k oldRight))))
      fun e _ => e.isFault = true := by
  have h0 : Edited g R pgnos (b.newPage cnt k oldRight) d d [] := ⟨hown, fun _ _ => rfl, by simp⟩
  refine (editDown_does hcnt hmono hnd hR hlen (k - 1) (by omega) h0 (by simp) fun m _ _ => by omega).bind ?_
  intro done d1 h
  obtain ⟨h1, hdone, hdown⟩ := h
  refine (editUp_does hcnt hmono hle hnd hR hlen k 0 (by omega) h1 (by simp)
    (fun m hm => ⟨(hdone m hm).1, Or.inr (hdone m hm).2⟩) hdown).bind ?_
  intro done' d2 h
  obtain ⟨h2, hall⟩ := h
  refine Ensures.pure ⟨h2.own, h2.keep, fun w hw => ?_⟩
  obtain ⟨i, hi, rfl⟩ := List.getElem_of_mem hw
  simp only [List.length_zip, List.length_map, List.length_range] at hi
  have := h2.holds i (hall i (by omega))
  rw [List.getD_eq_getElem _ _ (by omega)] at this
  simpa using this

end Edit

theorem freePages2_does : ∀ (pgnos : List Nat) {d : Db}, Owns g d (pgnos ++ R) →
    Does (freePages2 g pgnos) d (fun _ d' => Owns g d' R ∧ ∀ q ∈ R, d'.page q = d.page q)
      fun e _ => e.isFault = true
  | [], _, h => Ensures.pure ⟨h, fun _ _ => rfl⟩
  | pgno :: pgnos, d, h => by
    refine (freePage2_does h).bind ?_
    intro _ d1 h1
    obtain ⟨hown, hkeep⟩ := h1
    refine (freePages2_does pgnos hown).post ?_
    intro _ d2 h2
    obtain ⟨hown2, hkeep2⟩ := h2
    exact ⟨hown2, fun q hq => (hkeep2 q hq).trans (hkeep q (List.mem_append_right _ hq))⟩

theorem linkRight_size (g : Geometry) (pgno right : Nat) (c : List Cell) :
    ((linkRight pgno right c).1.map fun c => 2 + xCellSize g false c)
      = c.map fun c => 2 + xCellSize g false c := by
  rcases c with - | ⟨c, cs⟩
  · rfl
  · have h : xCellSize g false (setChild pgno c) = xCellSize g false c := by
      simp only [xCellSize, Bool.false_eq_true, if_false, kvCellSizeInterior, setChild,
        List.drop_left' (put4byte_length pgno)]
    simp [linkRight, h]

/-- Old and new siblings together are the siblings in order of their numbers and those left over. -/
theorem siblings_perm (old news : List Nat) (k : Nat) :
    (news ++ (parent :: (old ++ qs) ++ R)).Perm
      (parent :: ((old.take k ++ news).insertionSort (· ≤ ·) ++ qs) ++ (old.drop k ++ R)) := by
  refine List.perm_iff_count.2 fun x => ?_
  have h1 := (List.perm_insertionSort (· ≤ ·) (old.take k ++ news)).count_eq x
  have h2 := congrArg (List.count x) (List.take_append_drop k old)
  simp only [List.count_append, List.count_cons, List.cons_append] at h1 h2 ⊢
  omega

variable {dep : Nat} {lo hi : Bound} {es : List Entry}

/-- The parent `p'` of `p` has the siblings `pgnos` between the cells `a` and `c`, with `keys` dividing
them, and the siblings hold the entries `es`. -/
structure Placed (g : Geometry) (d' : Db) (p p' : MemPage) (a c : List Cell) (pgnos : List Nat)
    (keys : List Key) (dep : Nat) (lo hi : Bound) (es : List Entry) (qs : List Nat) : Prop where
  leaf : p'.leaf = false
  cells : p'.allCells = a ++ (List.zipWith kvInteriorCell pgnos keys
    ++ (linkRight (pgnos.getLastD 0) p.right c).1)
  right : p'.right = (linkRight (pgnos.getLastD 0) p.right c).2
  length : pgnos.length = keys.length + 1
  key_le : ∀ k ∈ keys, k.length ≤ 255
  sub : ∃ ps, ps.Perm (pgnos ++ qs)
    ∧ Seg (Sub g d'.page dep) lo (pgnos.zip (keys.map Key.bound ++ [hi])) hi es ps

/-- What `placeSiblings` may do: leave the parent with new siblings, or make the parent, being the
root, the only sibling itself. -/
def SiblingsPlaced (g : Geometry) (d d' : Db) (parent : Nat) (isRoot : Bool) (p : MemPage)
    (a c : List Cell) (keys : List Key) (dep : Nat) (lo hi : Bound) (es : List Entry)
    (qs R : List Nat) : Prop :=
  (∀ q ∈ qs ++ R, d'.page q = d.page q) ∧ ∃ p', d'.page parent = .node p' ∧ 0 ≤ p'.nFree g ∧
    ((∃ pgnos, Owns g d' (parent :: (pgnos ++ qs) ++ R)
        ∧ Placed g d' p p' a c pgnos keys dep lo hi es qs ∧ (isRoot = true → p'.cells ≠ []))
    ∨ (isRoot = true ∧ a = [] ∧ c = [] ∧ Owns g d' (parent :: qs ++ R) ∧ Settled g p'
        ∧ Body g d'.page dep lo p' hi es qs))

/-- The end of `placeSiblings`: the parent may be merged with its child, and pages are freed. -/
theorem finishSiblings_pages {p' : MemPage} {pgnos left : List Nat} {isRoot : Bool} {first : MemPage}
    (hown : Owns g d (parent :: (pgnos ++ qs) ++ (left ++ R))) (hp : d.page parent = .node p')
    (h1 : p'.cells = [] → pgnos = [pgnos.headD 0]) (hfirst : d.page (pgnos.headD 0) = .node first)
    (hset : Settled g first) :
    Does (do
      balanceShallower g parent (pgnos.headD 0) isRoot
      freePages2 g left) d
      (fun _ d' => (∀ q ∈ qs ++ R, d'.page q = d.page q) ∧
        ((Owns g d' (parent :: (pgnos ++ qs) ++ R) ∧ (∀ q ∈ parent :: pgnos, d'.page q = d.page q)
            ∧ (isRoot = true → p'.cells ≠ []))
          ∨ (isRoot = true ∧ p'.cells = [] ∧ Owns g d' (parent :: qs ++ R)
            ∧ d'.page parent = .node first)))
      fun e _ => e.isFault = true := by
  have hnd := hown.nodup
  unfold balanceShallower
  rw [bind_assoc]
  refine (nodeAt_does hp).bind ?_
  intro x d' h
  obtain ⟨rfl, rfl⟩ := h
  rw [bind_assoc]
  refine (nodeAt_does hfirst).bind ?_
  intro y d' h
  obtain ⟨rfl, rfl⟩ := h
  by_cases hcond : isRoot = true ∧ x.cells = [] ∧ 0 ≤ y.nFree g
  · rw [if_pos hcond]
    obtain ⟨hroot, hcells, -⟩ := hcond
    obtain ⟨q0, rfl⟩ : ∃ q0, pgnos = [q0] := ⟨_, h1 hcells⟩
    rw [List.headD_cons]
    have hown' : Owns g d (q0 :: (parent :: qs ++ (left ++ R))) :=
      hown.perm (List.Perm.swap _ _ _)
    simp only [List.cons_append, List.nodup_cons, List.mem_cons, List.mem_append, not_or] at hnd
    rw [bind_assoc]
    refine (setPage_does _ _).bind ?_
    intro _ d1 h
    subst h
    refine (freePage2_does (hown'.set (by simp) _)).bind ?_
    intro _ d2 h
    obtain ⟨hown2, hkeep2⟩ := h
    have hown2' : Owns g d2 (left ++ (parent :: qs ++ R)) :=
      hown2.perm (List.perm_append_comm_assoc _ _ _)
    refine (freePages2_does left hown2').post ?_
    intro _ d3 h
    obtain ⟨hown3, hkeep3⟩ := h
    have hkeep : ∀ q, q ∈ parent :: qs ++ R → d3.page q
        = (d.set parent (.node { y with ovfl := [] })).page q := fun q hq => by
      rw [hkeep3 q hq, hkeep2 q]
      simp only [List.cons_append, List.mem_cons, List.mem_append] at hq ⊢
      tauto
    have hsame : ∀ q ∈ qs ++ R, d3.page q = d.page q := by
      intro q hq
      rw [hkeep q (List.mem_cons_of_mem _ hq), Db.set_page_of_ne]
      rintro rfl
      simp only [List.mem_append] at hq
      tauto
    have hy : ({ y with ovfl := [] } : MemPage) = y := by rw [← hset.ovfl]
    rw [hy] at hkeep
    refine ⟨hsame, Or.inr ⟨hroot, hcells, hown3, ?_⟩⟩
    rw [hkeep parent (by simp), Db.set_page_self]
  · rw [if_neg hcond]
    refine Ensures.bind (Ensures.pure (Q := fun _ d' => d = d') rfl) ?_
    intro _ d' h
    subst h
    have hown' : Owns g d (left ++ (parent :: (pgnos ++ qs) ++ R)) :=
      hown.perm (List.perm_append_comm_assoc _ _ _)
    refine (freePages2_does left hown').post ?_
    intro _ d3 h
    obtain ⟨hown3, hkeep3⟩ := h
    refine ⟨fun q hq => hkeep3 q ?_, Or.inl ⟨hown3, fun q hq => hkeep3 q ?_, ?_⟩⟩
    · simp only [List.cons_append, List.mem_cons, List.mem_append] at hq ⊢
      tauto
    · simp only [List.cons_append, List.mem_cons, List.mem_append] at hq ⊢
      tauto
    · exact fun hroot hcells => hcond ⟨hroot, hcells, hset.nFree⟩

/-- The parent `p'` of `p` has the siblings `pgnos`, between the cells `a` and `c`, with `keys` dividing
them. -/
structure Linked (p p' : MemPage) (a c : List Cell) (pgnos : List Nat) (keys : List Key) : Prop where
  leaf : p'.leaf = false
  cells : p'.allCells = a ++ (List.zipWith kvInteriorCell pgnos keys
    ++ (linkRight (pgnos.getLastD 0) p.right c).1)
  right : p'.right = (linkRight (pgnos.getLastD 0) p.right c).2
  length : pgnos.length = keys.length + 1

/-- A parent that is left without cells has one sibling below it and nothing beside it. -/
theorem Linked.eq_nil {p' : MemPage} {a c : List Cell} {pgnos : List Nat} {keys : List Key}
    (h : Linked p p' a c pgnos keys) (hcells : p'.cells = []) (ho : p'.ovfl = []) :
    a = [] ∧ c = [] ∧ keys = [] := by
  have hall := h.cells
  rw [MemPage.allCells_of_ovfl_nil ho, hcells] at hall
  obtain ⟨ha, hall⟩ := List.append_eq_nil_iff.1 hall.symm
  obtain ⟨hkeys, hc⟩ := List.append_eq_nil_iff.1 hall
  refine ⟨ha, ?_, ?_⟩
  · rcases c with - | ⟨x, c⟩
    · rfl
    · simp [linkRight] at hc
  · have hlen := h.length
    rcases keys with - | ⟨k, keys⟩
    · rfl
    · rcases pgnos with - | ⟨q, pgnos⟩
      · simp at hlen
      · simp at hkeys

/-- What `placeSiblings` may do to the pages: put the contents `news` on the pages `pgnos` below the
parent, or on the parent itself. -/
def SiblingsWritten (g : Geometry) (d d' : Db) (parent : Nat) (isRoot : Bool) (p : MemPage)
    (a c : List Cell) (keys : List Key) (news : List MemPage) (qs R : List Nat) : Prop :=
  (∀ q ∈ qs ++ R, d'.page q = d.page q) ∧
    ((∃ pgnos p', d'.page parent = .node p' ∧ 0 ≤ p'.nFree g ∧ Linked p p' a c pgnos keys
        ∧ Owns g d' (parent :: (pgnos ++ qs) ++ R) ∧ pgnos.length = news.length
        ∧ Holds d'.page (pgnos.zip news) ∧ (isRoot = true → p'.cells ≠ []))
      ∨ (isRoot = true ∧ a = [] ∧ c = [] ∧ keys = [] ∧ Owns g d' (parent :: qs ++ R)
        ∧ ∃ first, news = [first] ∧ d'.page parent = .node first))

/-- Nothing is read of the old parent but its right child. -/
theorem SiblingsWritten.of_right {d1 d' : Db} {p1 : MemPage} {isRoot : Bool} {a c : List Cell}
    {keys : List Key} {news : List MemPage}
    (h : SiblingsWritten g d1 d' parent isRoot p1 a c keys news qs R) (hr : p1.right = p.right)
    (hd : ∀ q ∈ qs ++ R, d1.page q = d.page q) :
    SiblingsWritten g d d' parent isRoot p a c keys news qs R := by
  refine ⟨fun q hq => (h.1 q hq).trans (hd q hq), h.2.imp_left ?_⟩
  rintro ⟨pgnos, p', hp', hf, hlink, hrest⟩
  refine ⟨pgnos, p', hp', hf, ⟨hlink.leaf, ?_, ?_, hlink.length⟩, hrest⟩
  · rw [hlink.cells, hr]
  · rw [hlink.right, hr]

theorem placeSiblings_pages {W : List (Nat × MemPage)} {b : CellArray} {s : Packing}
    {isRight isRoot : Bool} {a c : List Cell} {keys : List Key}
    (hown : Owns g d (parent :: (W.map Prod.fst ++ qs) ++ R)) (hp : d.page parent = .node p)
    (ho : p.ovfl = []) (hl : p.leaf = false) (hf : 0 ≤ p.nFree g) (hc : p.cells = a ++ c)
    (hr : isRight = true ↔ c = []) (hb : b.g = g) (hcuts : b.Packed s.k s)
    (hne : ∀ j < s.k, b.start s.cntNew j < s.cntNew j)
    (hle : ∀ x ∈ b.cntOld 0 (W.map Prod.snd), x ≤ b.nCell)
    (hreb : Rebuilt b s d.page dep lo hi es qs ((W.map Prod.snd).getLastD default).right keys) :
    Does (placeSiblings g parent a.length isRight isRoot W b s) d
      (fun _ d' => SiblingsWritten g d d' parent isRoot p a c keys ((List.range s.k).map
        (b.newPage s.cntNew s.k ((W.map Prod.snd).getLastD default).right)) qs R)
      fun e _ => e.isFault = true := by
  subst hb
  have hk := hreb.length
  refine (reuseSiblings_does _).bind ?_
  intro _ _ h
  subst h
  refine (allocateSiblings_does b.leaf _ _ hown).bind ?_
  intro news d1 h
  obtain ⟨hnews, hown1, hkeep1⟩ := h
  set reused := (W.map Prod.fst).take s.k with hreused
  set pgnos := (reused ++ news).insertionSort (· ≤ ·) with hpgnos
  set oldRight := ((W.map Prod.snd).getLastD default).right
  have hlen : pgnos.length = s.k := by
    rw [hpgnos, List.length_insertionSort, List.length_append, hnews, hreused, List.length_take,
      List.length_map]
    omega
  replace hown1 := hown1.perm (siblings_perm (W.map Prod.fst) news s.k)
  rw [← hpgnos] at hown1
  have hnd := hown1.nodup
  simp only [List.cons_append, List.nodup_cons, List.mem_append, List.append_assoc, not_or] at hnd
  obtain ⟨⟨hparent, -⟩, hnd⟩ := hnd
  have hp1 : d1.page parent = .node p := by rw [hkeep1 parent (by simp), hp]
  -- the parent gets the new pointer and the new dividers
  refine (setRightSibling_does hp1 hc hr (pgnos.getLastD 0)).bind ?_
  intro _ d2 h
  subst h
  set p1 : MemPage := { p with cells := a ++ (linkRight (pgnos.getLastD 0) p.right c).1,
                               right := (linkRight (pgnos.getLastD 0) p.right c).2 } with hp1def
  have hf1 : 0 ≤ p1.nFree b.g := by
    have hsize : p1.nFree b.g = p.nFree b.g := by
      simp only [MemPage.nFree, hp1def, hl, hc, List.map_append, linkRight_size]
    rwa [hsize]
  have ho1 : p1.ovfl = [] := ho
  have hl1 : p1.leaf = false := hl
  have hall1 : p1.allCells = a ++ (linkRight (pgnos.getLastD 0) p.right c).1 :=
    MemPage.allCells_of_ovfl_nil ho1
  refine (insertDividers_does b s.cntNew keys pgnos 0 (by omega)
    (Db.set_page_self _ _ _) hl1 (MemPage.ovflAt_of_nil ho1 _) hall1 rfl hf1 (fun _ => ho1)
    hreb.key_le ?_).bind ?_
  · intro j q hj
    rw [Nat.zero_add]
    exact hreb.divider j q hj
  intro _ d3 h
  obtain ⟨p3, rfl, hl3, hr3, hc3, hf3, h03⟩ := h
  rw [Db.set_set]
  have hmem : parent ∈ parent :: (pgnos ++ qs) ++ ((W.map Prod.fst).drop s.k ++ R) :=
    List.mem_append_left _ List.mem_cons_self
  have hown3 := hown1.set hmem (.node p3)
  -- the siblings get their cells
  refine (editPages_does hcuts.le (CellArray.cnt_mono hne) hle (List.nodup_append.1 hnd).1
    (fun q hq => by simp [hq]) hlen (by omega) hown3).bind ?_
  intro _ d4 h
  obtain ⟨hown4, hkeep4, hholds⟩ := h
  have hsame : ∀ q ∈ qs ++ R, d4.page q = d.page q := by
    intro q hq
    have hne : q ∉ pgnos ∧ q ≠ parent := by
      have hq1 : q ∈ qs ++ (List.drop s.k (W.map Prod.fst) ++ R) := by
        simp only [List.mem_append] at hq ⊢
        tauto
      refine ⟨fun hmem => (List.nodup_append.1 hnd).2.2 q hmem q hq1 rfl, ?_⟩
      intro hqp
      have h1 := hown1.nodup
      simp only [List.cons_append, List.nodup_cons, List.append_assoc] at h1
      rw [← hqp] at h1
      exact h1.1 (List.mem_append_right _ hq1)
    rw [hkeep4 q hne.1, Db.set_page_of_ne _ _ _ hne.2]
    refine hkeep1 q ?_
    simp only [List.cons_append, List.mem_cons, List.mem_append] at hq ⊢
    tauto
  have hlink : Linked p p3 a c pgnos keys := ⟨hl3, hc3, hr3, by omega⟩
  obtain ⟨q0, rest, hq0⟩ : ∃ q0 rest, pgnos = q0 :: rest :=
    List.exists_cons_of_ne_nil (List.ne_nil_of_length_pos (by omega))
  obtain ⟨k, hsk⟩ : ∃ k, s.k = k + 1 := ⟨s.k - 1, by omega⟩
  have hfirst : d4.page (pgnos.headD 0) = .node (b.newPage s.cntNew s.k oldRight 0) := by
    rw [hq0, hsk, List.range_succ_eq_map] at hholds
    rw [hq0, hsk]
    exact (holds_cons.1 hholds).1
  have hp4 : d4.page parent = .node p3 := by
    rw [hkeep4 parent hparent, Db.set_page_self]
  have hnil : p3.cells = [] → a = [] ∧ c = [] ∧ keys = [] := fun hcells => hlink.eq_nil hcells (h03 hcells)
  refine (finishSiblings_pages hown4 hp4 (fun hcells => ?_) hfirst (hreb.settled 0 (by omega))).post ?_
  · obtain ⟨-, -, hkeys⟩ := hnil hcells
    have hrest : rest = [] := by
      have h1 := hlink.length
      rw [hkeys, hq0] at h1
      simpa using h1
    rw [hq0, hrest]
    rfl
  intro _ d5 h
  obtain ⟨hsame5, h⟩ := h
  refine ⟨fun q hq => (hsame5 q hq).trans (hsame q hq), ?_⟩
  rcases h with ⟨hown5, hkeep5, hroot⟩ | ⟨hroot, hcells, hown5, hp5⟩
  · refine Or.inl ⟨pgnos, p3, (hkeep5 parent List.mem_cons_self).trans hp4, hf3, hlink, hown5,
      by simp [hlen], fun w hw => ?_, hroot⟩
    rw [hkeep5 w.1 (List.mem_cons_of_mem _ (List.of_mem_zip (a := w.1) (b := w.2) hw).1)]
    exact hholds w hw
  · obtain ⟨ha, hc, hkeys⟩ := hnil hcells
    have hk1 : s.k = 1 := by rw [← hk, hkeys]; rfl
    refine Or.inr ⟨hroot, ha, hc, hkeys, hown5, _, ?_, hp5⟩
    rw [hk1]
    rfl

/-- The new siblings are subtrees, with the keys between them. -/
theorem SiblingsWritten.placed {d' : Db} {b : CellArray} {s : Packing} {isRoot : Bool} {a c : List Cell}
    {keys : List Key} {oldRight : Nat}
    (h : SiblingsWritten b.g d d' parent isRoot p a c keys
      ((List.range s.k).map (b.newPage s.cntNew s.k oldRight)) qs R)
    (hreb : Rebuilt b s d.page dep lo hi es qs oldRight keys) :
    SiblingsPlaced b.g d d' parent isRoot p a c keys dep lo hi es qs R := by
  have hk := hreb.length
  obtain ⟨hsame, h⟩ := h
  have hseg : Seg (Body b.g d'.page dep) lo (((List.range s.k).map
      (b.newPage s.cntNew s.k oldRight)).zip (keys.map Key.bound ++ [hi])) hi es qs :=
    hreb.seg.mono fun _ _ _ _ _ _ hqs hbody =>
      hbody.congr fun q hq => hsame q (List.mem_append_left _ (hqs q hq))
  rcases h with ⟨pgnos, p', hp', hf, hlink, hown, hlen, hholds, hroot⟩
    | ⟨hroot, rfl, rfl, rfl, hown, first, hnews, hp'⟩
  · have hfst : (pgnos.zip ((List.range s.k).map (b.newPage s.cntNew s.k oldRight))).map Prod.fst
        = pgnos := List.map_fst_zip hlen.le
    have hsnd : (pgnos.zip ((List.range s.k).map (b.newPage s.cntNew s.k oldRight))).map Prod.snd
        = (List.range s.k).map (b.newPage s.cntNew s.k oldRight) := List.map_snd_zip hlen.ge
    have hset : ∀ w ∈ pgnos.zip ((List.range s.k).map (b.newPage s.cntNew s.k oldRight)),
        Settled b.g w.2 := by
      intro w hw
      obtain ⟨i, hi, hw⟩ := List.mem_map.1 (List.of_mem_zip (a := w.1) (b := w.2) hw).2
      rw [← hw]
      exact hreb.settled i (List.mem_range.1 hi)
    have hlen' : (pgnos.zip ((List.range s.k).map (b.newPage s.cntNew s.k oldRight))).length
        = (keys.map Key.bound ++ [hi]).length := by
      rw [List.length_map, List.length_range] at hlen
      simp [hlen]
      omega
    have hsub := seg_of_nodes hlen' hholds hset (by rw [hsnd]; exact hseg)
    rw [hfst] at hsub
    exact ⟨hsame, p', hp', hf, Or.inl ⟨pgnos, hown,
      ⟨hlink.leaf, hlink.cells, hlink.right, hlink.length, hreb.key_le, hsub⟩, hroot⟩⟩
  · have hk1 : s.k = 1 := by rw [← hk]; rfl
    have hset := hreb.settled 0 (by omega)
    rw [hk1] at hnews hseg hset
    obtain rfl : b.newPage s.cntNew 1 oldRight 0 = first := by simpa using hnews
    exact ⟨hsame, _, hp', hset.nFree, Or.inr ⟨hroot, rfl, rfl, hown, hset, (Seg.single_iff.1 hseg).2⟩⟩

end Place

/-! ## The window of siblings -/

section Window

variable {g : Geometry} {p : MemPage} {hi : Bound}

/-- The siblings are next to each other among the children of the parent: behind the cells `a`, at
the cells `ds` and the pointer after them. -/
theorem window_split {pre post : List (Nat × Bound)} {cur : Nat} {u : Bound} {nxDiv nDiv : Nat}
    (ho : p.ovfl = [] ∨ ∃ cell, p.ovfl = [(pre.length, cell)] ∧ pre.length ≤ p.cells.length
      ∧ pre.length < nxDiv + nDiv)
    (hkids : p.kids hi = pre ++ (cur, u) :: post) (h1 : nxDiv ≤ pre.length)
    (h2 : pre.length ≤ nxDiv + nDiv) (h3 : nxDiv + nDiv ≤ p.allCells.length) :
    ∃ a ds bc preW postW postB cl ul, p.allCells = a ++ (ds ++ bc) ∧ a.length = nxDiv
      ∧ ds.length = nDiv ∧ pre = a.map (fun c => (get4byte c, (divKey c).bound)) ++ preW
      ∧ post = postW ++ postB
      ∧ preW ++ (cur, u) :: postW
        = ds.map (fun c => (get4byte c, (divKey c).bound)) ++ [(cl, ul)]
      ∧ bc.map (fun c => (get4byte c, (divKey c).bound)) ++ [(p.right, hi)] = (cl, ul) :: postB
      ∧ p.childAt (nDiv + nxDiv - p.ovfl.length) = cl := by
  set kid := fun c : Cell => (get4byte c, (divKey c).bound) with hkid
  have hcells : p.allCells = p.allCells.take nxDiv
      ++ ((p.allCells.drop nxDiv).take nDiv ++ p.allCells.drop (nxDiv + nDiv)) := by
    rw [← List.drop_drop, List.take_append_drop, List.take_append_drop]
  have ha : (p.allCells.take nxDiv).length = nxDiv := List.length_take_of_le (by omega)
  have hds : ((p.allCells.drop nxDiv).take nDiv).length = nDiv :=
    List.length_take_of_le (by rw [List.length_drop]; omega)
  generalize p.allCells.take nxDiv = a at hcells ha
  generalize (p.allCells.drop nxDiv).take nDiv = ds at hcells hds
  generalize p.allCells.drop (nxDiv + nDiv) = bc at hcells
  obtain ⟨cl, ul, postB, htail⟩ : ∃ cl ul postB, bc.map kid ++ [(p.right, hi)] = (cl, ul) :: postB := by
    rcases bc with - | ⟨c, bc⟩
    · exact ⟨_, _, _, rfl⟩
    · exact ⟨_, _, _, rfl⟩
  have hK : a.map kid ++ (ds.map kid ++ (cl, ul) :: postB) = pre ++ (cur, u) :: post := by
    rw [← htail, ← hkids, MemPage.kids, hcells]
    simp [hkid]
  have hpre : a.map kid <+: pre := by
    refine List.prefix_of_prefix_length_le ⟨_, hK⟩ (List.prefix_append _ _) ?_
    rw [List.length_map, ha]
    exact h1
  obtain ⟨preW, rfl⟩ := hpre
  have hK2 : (ds.map kid ++ [(cl, ul)]) ++ postB = (preW ++ [(cur, u)]) ++ post := by
    rw [List.append_assoc] at hK
    simpa using List.append_cancel_left hK
  have hwin : preW ++ [(cur, u)] <+: ds.map kid ++ [(cl, ul)] := by
    refine List.prefix_of_prefix_length_le ⟨post, hK2.symm⟩ (List.prefix_append _ _) ?_
    simp only [List.length_append, List.length_map, List.length_singleton, ha, hds] at h2 ⊢
    omega
  obtain ⟨postW, hpostW⟩ := hwin
  rw [← hpostW, List.append_assoc] at hK2
  refine ⟨a, ds, bc, preW, postW, postB, cl, ul, hcells, ha, hds, rfl,
    (List.append_cancel_left hK2).symm, ?_, htail, ?_⟩
  · rw [← hpostW]
    simp
  · have hall : p.allCells[nDiv + nxDiv]? = bc[0]? := by
      rw [hcells, ← List.append_assoc, List.getElem?_append_right (by simp; omega)]
      congr 1
      simp
      omega
    have hget : p.cells[nDiv + nxDiv - p.ovfl.length]? = bc[0]? := by
      rcases ho with ho | ⟨cell, ho, hle, hlt⟩
      · rwa [ho, List.length_nil, Nat.sub_zero, ← MemPage.allCells_of_ovfl_nil ho]
      · rw [← hall, ho, List.length_singleton]
        exact MemPage.getElem?_of_ovfl ho hle (by omega)
    rw [MemPage.childAt, hget]
    rcases bc with - | ⟨c, bc⟩
    · simp only [List.map_nil, List.nil_append, List.cons.injEq, Prod.mk.injEq] at htail
      exact htail.1.1
    · simp only [List.map_cons, List.cons_append, List.cons.injEq, hkid, Prod.mk.injEq] at htail
      exact htail.1.1

theorem linkRight_kids {pgno right cl : Nat} {ul : Bound} {postB : List (Nat × Bound)} {c : List Cell}
    (hd : ∀ x ∈ c, IsDivider x) (hlt : pgno < 2 ^ 32)
    (h : c.map (fun c => (get4byte c, (divKey c).bound)) ++ [(right, hi)] = (cl, ul) :: postB) :
    (∀ x ∈ (linkRight pgno right c).1, IsDivider x)
      ∧ (linkRight pgno right c).1.map (fun c => (get4byte c, (divKey c).bound))
        ++ [((linkRight pgno right c).2, hi)] = (pgno, ul) :: postB := by
  rcases c with - | ⟨x, c⟩
  · simp only [List.map_nil, List.nil_append, List.cons.injEq, Prod.mk.injEq] at h
    obtain ⟨⟨-, rfl⟩, rfl⟩ := h
    simp [linkRight]
  · simp only [List.map_cons, List.cons_append, List.cons.injEq, Prod.mk.injEq] at h
    obtain ⟨⟨-, rfl⟩, rfl⟩ := h
    obtain ⟨hx, hc⟩ := List.forall_mem_cons.1 hd
    refine ⟨List.forall_mem_cons.2 ⟨hx.setChild hlt, hc⟩, ?_⟩
    simp [linkRight, hx.child_setChild hlt, hx.divKey_setChild]

theorem zipWith_kids {ul : Bound} {rest : List (Nat × Bound)} : ∀ {pgnos : List Nat} {keys : List Key},
    pgnos.length = keys.length + 1 → (∀ q ∈ pgnos, q < 2 ^ 32) → (∀ k ∈ keys, k.length ≤ 255) →
    (∀ x ∈ List.zipWith kvInteriorCell pgnos keys, IsDivider x)
      ∧ (List.zipWith kvInteriorCell pgnos keys).map (fun c => (get4byte c, (divKey c).bound))
        ++ (pgnos.getLastD 0, ul) :: rest = pgnos.zip (keys.map Key.bound ++ [ul]) ++ rest
  | [], _, h, _, _ => by simp at h
  | [q], [], _, _, _ => by simp
  | [q], _ :: _, h, _, _ => by simp at h
  | _ :: _ :: _, [], h, _, _ => by simp at h
  | q :: q' :: pgnos, k :: keys, h, hlt, hk => by
    obtain ⟨hq, hlt⟩ := List.forall_mem_cons.1 hlt
    obtain ⟨hk0, hk⟩ := List.forall_mem_cons.1 hk
    obtain ⟨h1, h2⟩ := zipWith_kids (by simpa using h) hlt hk
    have hlast : (q :: q' :: pgnos).getLastD 0 = (q' :: pgnos).getLastD 0 := by simp
    refine ⟨?_, ?_⟩
    · rw [List.zipWith_cons_cons]
      exact List.forall_mem_cons.2 ⟨⟨q, k, hq, hk0, rfl⟩, h1⟩
    · rw [hlast, List.zipWith_cons_cons, List.map_cons, List.cons_append, h2, kvInteriorCell_child hq,
        divKey, kvInteriorCell_key hk0]
      rfl

/-- The children of a parent that has got new siblings. -/
theorem Linked.kids {p' : MemPage} {a c : List Cell} {pgnos : List Nat} {keys : List Key}
    {cl : Nat} {ul : Bound} {postB : List (Nat × Bound)}
    (h : Linked p p' a c pgnos keys) (hk : ∀ k ∈ keys, k.length ≤ 255) (hlt : ∀ q ∈ pgnos, q < 2 ^ 32)
    (ha : ∀ x ∈ a, IsDivider x) (hc : ∀ x ∈ c, IsDivider x)
    (htail : c.map (fun c => (get4byte c, (divKey c).bound)) ++ [(p.right, hi)] = (cl, ul) :: postB) :
    (∀ x ∈ p'.allCells, IsDivider x)
      ∧ p'.kids hi = a.map (fun c => (get4byte c, (divKey c).bound))
        ++ (pgnos.zip (keys.map Key.bound ++ [ul]) ++ postB) := by
  have hlast : pgnos.getLastD 0 < 2 ^ 32 := by
    rcases List.eq_nil_or_concat pgnos with h0 | ⟨qs, q, h0⟩
    · simp [h0]
    · rw [h0, List.concat_eq_append, List.getLastD_concat]
      exact hlt q (by simp [h0])
  obtain ⟨h1, h2⟩ := linkRight_kids hc hlast htail
  obtain ⟨h3, h4⟩ := zipWith_kids h.length hlt hk
  refine ⟨?_, ?_⟩
  · rw [h.cells]
    simp only [List.mem_append]
    intro x hx
    rcases hx with hx | hx | hx
    · exact ha x hx
    · exact h3 x hx
    · exact h1 x hx
  · rw [MemPage.kids, h.cells, h.right, List.map_append, List.map_append, List.append_assoc,
      List.append_assoc, h2, h4]

theorem Placed.kids {d : Db} {p' : MemPage} {a c : List Cell} {pgnos : List Nat} {keys : List Key}
    {dep cl : Nat} {lo ul : Bound} {es : List Entry} {qs : List Nat} {postB : List (Nat × Bound)}
    (h : Placed g d p p' a c pgnos keys dep lo ul es qs) (hlt : ∀ q ∈ pgnos, q < 2 ^ 32)
    (ha : ∀ x ∈ a, IsDivider x) (hc : ∀ x ∈ c, IsDivider x)
    (htail : c.map (fun c => (get4byte c, (divKey c).bound)) ++ [(p.right, hi)] = (cl, ul) :: postB) :
    (∀ x ∈ p'.allCells, IsDivider x)
      ∧ p'.kids hi = a.map (fun c => (get4byte c, (divKey c).bound))
        ++ (pgnos.zip (keys.map Key.bound ++ [ul]) ++ postB) :=
  Linked.kids ⟨h.leaf, h.cells, h.right, h.length⟩ h.key_le hlt ha hc htail

end Window

/-! ## One step of `balance` -/

section Nonroot

variable {g : Geometry} {d : Db} {parent dep : Nat} {p : MemPage} {lo hi : Bound} {es : List Entry}
  {R : List Nat}

/-- What `balance_nonroot` may do: leave the parent with balanced children, or make the parent, being
the root, its only child itself. -/
def Balanced (g : Geometry) (d d' : Db) (parent : Nat) (isRoot : Bool) (dep : Nat) (lo hi : Bound)
    (es : List Entry) (R : List Nat) : Prop :=
  (∀ q ∈ R, d'.page q = d.page q) ∧ ∃ p qs, d'.page parent = .node p ∧ Owns g d' (parent :: qs ++ R)
    ∧ 0 ≤ p.nFree g
    ∧ ((Body g d'.page (dep + 1) lo p hi es qs ∧ (isRoot = true → p.cells ≠ []))
      ∨ (isRoot = true ∧ Settled g p ∧ Body g d'.page dep lo p hi es qs))

theorem SiblingsPlaced.balanced {d d1 d' : Db} {isRoot : Bool} {a c : List Cell} {keys : List Key}
    {mA ul : Bound} {cl : Nat} {esA esB : List Entry} {psA psB qs : List Nat}
    {postB : List (Nat × Bound)}
    (h : SiblingsPlaced g d1 d' parent isRoot p a c keys dep mA ul es qs (psA ++ (psB ++ R)))
    (hd1 : ∀ q ∈ psA ++ (psB ++ R), d1.page q = d.page q)
    (ha : ∀ x ∈ a, IsDivider x) (hc : ∀ x ∈ c, IsDivider x)
    (hA : Seg (Sub g d.page dep) lo (a.map fun c => (get4byte c, (divKey c).bound)) mA esA psA)
    (hB : Seg (Sub g d.page dep) ul postB hi esB psB)
    (htail : c.map (fun c => (get4byte c, (divKey c).bound)) ++ [(p.right, hi)] = (cl, ul) :: postB) :
    Balanced g d d' parent isRoot dep lo hi (esA ++ (es ++ esB)) R := by
  obtain ⟨hkeep, p', hp', hf', h⟩ := h
  have hsame : ∀ q ∈ psA ++ (psB ++ R), d'.page q = d.page q := fun q hq =>
    (hkeep q (List.mem_append_right _ hq)).trans (hd1 q hq)
  refine ⟨fun q hq => hsame q (by simp [hq]), ?_⟩
  rcases h with ⟨pgnos, hown, hpl, hroot⟩ | ⟨hroot, rfl, rfl, hown, hset, hbody⟩
  · obtain ⟨ps, hps, hseg⟩ := hpl.sub
    obtain ⟨hd, hkids⟩ := hpl.kids (fun q hq => hown.lt_two_pow (by simp [hq])) ha hc htail
    refine ⟨p', psA ++ (ps ++ psB), hp', hown.perm ?_, hf', Or.inl ⟨body_succ.2 ⟨hpl.leaf, hd, ?_⟩, hroot⟩⟩
    · refine List.perm_iff_count.2 fun x => ?_
      have := hps.count_eq x
      simp only [List.count_append, List.count_cons, List.cons_append] at this ⊢
      omega
    · rw [hkids]
      exact (seg_node_congr hA fun q hq => hsame q (by simp [hq])).append
        (hseg.append (seg_node_congr hB fun q hq => hsame q (by simp [hq])))
  · obtain ⟨rfl, rfl, rfl⟩ := hA
    simp only [List.map_nil, List.nil_append, List.cons.injEq, Prod.mk.injEq] at htail
    obtain ⟨⟨-, rfl⟩, rfl⟩ := htail
    obtain ⟨-, rfl, rfl⟩ := hB
    exact ⟨p', qs, hp', by simpa using hown, hf', Or.inr ⟨hroot, hset, by simpa using hbody⟩⟩

/-- The pages of a row of subtrees have no right child but one among the pages below them. -/
theorem right_mem {page : Nat → PageData} {olds : List MemPage} {us : List Bound} {qs : List Nat}
    (hlen : olds.length ≤ us.length) (h : Seg (Body g page dep) lo (olds.zip us) hi es qs) :
    ∀ p ∈ olds, p.leaf = false → p.right ∈ qs := by
  intro p hp hl
  have hmem : p ∈ (olds.zip us).map Prod.fst := by rwa [List.map_fst_zip hlen]
  obtain ⟨k, hk, rfl⟩ := List.mem_map.1 hmem
  obtain ⟨lo', es', qs', hbody, hqs⟩ := h.mem k hk
  rcases dep with - | dep
  · rw [hbody.1] at hl
    simp at hl
  · refine hqs _ (seg_mem_pages (body_succ.1 hbody).2.2 (k.1.right, k.2) ?_)
    simp [MemPage.kids]

theorem loadCells_ne_nil : ∀ {olds : List MemPage} {divs : List Cell} {p : MemPage}, p ∈ olds →
    p.allCells ≠ [] → loadCells olds divs ≠ []
  | [], _, _, hp, _ => by simp at hp
  | [q], _, _, hp, h => by
    rw [List.mem_singleton.1 hp] at h
    exact h
  | q :: q' :: olds, divs, p, hp, h => by
    rw [loadCells_cons]
    rcases List.mem_cons.1 hp with rfl | hp
    · simp [h]
    · simp [@loadCells_ne_nil _ divs.tail _ hp h]

theorem window_row {page : Nat → PageData} {ok : MemPage → Prop} {pre post : List (Nat × Bound)}
    {cur : Nat} {u m : Bound} {es1 es2 es3 : List Entry} {ps1 ps2 ps3 : List Nat}
    (hpre : Seg (Sub g page dep) lo pre m es1 ps1) (hcur : Node g page ok dep m cur u es2 ps2)
    (hpost : Seg (Sub g page dep) u post hi es3 ps3) :
    Seg (Node g page (fun _ => True) dep) lo (pre ++ (cur, u) :: post) hi (es1 ++ (es2 ++ es3))
      (ps1 ++ (ps2 ++ ps3)) :=
  (hpre.imp fun _ _ _ _ _ h => h.imp fun _ _ => trivial).append
    ⟨es2, es3, ps2, ps3, rfl, rfl, hcur.imp fun _ _ => trivial,
      hpost.imp fun _ _ _ _ _ h => h.imp fun _ _ => trivial⟩

/-- The contents of the siblings, when `cur` is the one that needs balancing. -/
theorem window_contents {page : Nat → PageData} {row pre post : List (Nat × Bound)} {cur : Nat}
    {u m : Bound} {es1 es2 es3 : List Entry} {ps1 ps2 ps3 : List Nat}
    (hrow : pre ++ (cur, u) :: post = row) (hpre : Seg (Sub g page dep) lo pre m es1 ps1)
    (hcur : Node g page (fun c => pre = [] → post = [] → c.allCells ≠ []) dep m cur u es2 ps2)
    (hpost : Seg (Sub g page dep) u post hi es3 ps3) :
    ∃ W qs, W.map Prod.fst = row.map Prod.fst ∧ Holds page W
      ∧ (ps1 ++ (ps2 ++ ps3)).Perm (W.map Prod.fst ++ qs)
      ∧ Seg (Body g page dep) lo ((W.map Prod.snd).zip (row.map Prod.snd)) hi (es1 ++ (es2 ++ es3)) qs
      ∧ ∃ w ∈ W, w.2.allCells ≠ [] := by
  subst hrow
  obtain ⟨W, qs, h1, h2, -, h3, h4⟩ := seg_nodes (window_row hpre hcur hpost)
  rw [← h1] at h3
  refine ⟨W, qs, h1, h2, h3, h4, ?_⟩
  obtain ⟨c, hc, P, hP, hcells⟩ : ∃ c ∈ W.map Prod.fst, ∃ P, page c = .node P ∧ P.allCells ≠ [] := by
    rw [h1]
    have hsub : ∀ {lo hi es ps ks}, Seg (Sub g page dep) lo ks hi es ps → ∀ k ∈ ks,
        ∃ P, page k.1 = .node P ∧ P.allCells ≠ [] := by
      intro _ _ _ _ _ h k hk
      obtain ⟨_, _, _, ⟨P, _, hP, hset, -⟩, -⟩ := h.mem k hk
      exact ⟨P, hP, by rw [MemPage.allCells_of_ovfl_nil hset.ovfl]; exact hset.cells⟩
    rcases pre with - | ⟨k, pre⟩
    · rcases post with - | ⟨k, post⟩
      · obtain ⟨P, _, hP, hok, -⟩ := hcur
        exact ⟨cur, by simp, P, hP, hok rfl rfl⟩
      · exact ⟨k.1, by simp, hsub hpost k List.mem_cons_self⟩
    · exact ⟨k.1, by simp, hsub hpre k List.mem_cons_self⟩
  obtain ⟨w, hw, rfl⟩ := List.mem_map.1 hc
  refine ⟨w, hw, ?_⟩
  have := (h2 w hw).symm.trans hP
  rw [PageData.node.inj this]
  exact hcells

/-- What `balance_nonroot` gathers: the siblings `W`, which are all the children from the cells `ds` of
the parent to `cl`, the first child after these. -/
structure Gathered (g : Geometry) (d : Db) (parent : Nat) (p : MemPage) (dep : Nat) (a ds c : List Cell)
    (cl : Nat) (W : List (Nat × MemPage)) (lo hi : Bound) (es : List Entry) (qs R : List Nat) : Prop where
  cells : p.allCells = a ++ (ds ++ c)
  siblings : W.map Prod.fst = ds.map get4byte ++ [cl]
  length_le : ds.length ≤ 2
  holds : Holds d.page W
  own : Owns g d (parent :: (W.map Prod.fst ++ qs) ++ R)
  body : Seg (Body g d.page dep) lo
    ((W.map Prod.snd).zip (ds.map (fun c => (divKey c).bound) ++ [hi])) hi es qs
  filled : ∃ w ∈ W, w.2.allCells ≠ []

/-- An overflow cell of the parent can only be the divider behind the child that needs balancing. -/
def OvflDivider (p : MemPage) (idx : Nat) : Prop :=
  p.ovfl = [] ∨ ∃ cell, p.ovfl = [(idx, cell)] ∧ idx ≤ p.cells.length

theorem OvflDivider.inside {idx n : Nat} (ho : OvflDivider p idx) (hlt : p.ovfl = [] ∨ idx < n) :
    p.ovfl = [] ∨ ∃ cell, p.ovfl = [(idx, cell)] ∧ idx ≤ p.cells.length ∧ idx < n := by
  rcases ho with ho | ⟨cell, ho, hle⟩
  · exact Or.inl ho
  · exact Or.inr ⟨cell, ho, hle, hlt.resolve_left (by simp [ho])⟩

theorem OvflDivider.length {idx : Nat} (ho : OvflDivider p idx) : p.ovfl.length + p.cells.length = p.allCells.length := by
  rcases ho with ho | ⟨cell, ho, hle⟩
  · rw [MemPage.allCells_of_ovfl_nil ho, ho, List.length_nil, Nat.zero_add]
  · obtain ⟨t, u, -, hcells, hall⟩ := MemPage.split_ovfl ho hle
    rw [hcells, hall, ho]
    simp
    omega

/-- The cells the parent keeps are among those on its page. -/
theorem OvflDivider.rest_sublist {idx : Nat} {a ds c : List Cell} (ho : OvflDivider p idx)
    (hc : p.allCells = a ++ (ds ++ c)) (ha : a.length ≤ idx)
    (hlt : p.ovfl = [] ∨ idx < a.length + ds.length) : (a ++ c).Sublist p.cells := by
  rcases ho with ho | ⟨cell, ho, hle⟩
  · rw [MemPage.allCells_of_ovfl_nil ho] at hc
    rw [hc]
    exact (List.Sublist.refl a).append (List.sublist_append_right ds c)
  · obtain ⟨t, u, rfl, hcells, hall⟩ := MemPage.split_ovfl ho hle
    replace hlt := hlt.resolve_left (by simp [ho])
    rw [hall] at hc
    obtain ⟨t', rfl⟩ : a <+: t := List.prefix_of_prefix_length_le ⟨_, hc.symm⟩ (List.prefix_append _ _) ha
    rw [List.append_assoc] at hc
    have hds : t' ++ [cell] <+: ds := by
      have hpre : t' ++ [cell] <+: ds ++ c := ⟨u, by rw [← List.append_cancel_left hc]; simp⟩
      refine List.prefix_of_prefix_length_le hpre (List.prefix_append _ _) ?_
      · simp only [List.length_append, List.length_singleton] at hlt ⊢
        omega
    obtain ⟨u', rfl⟩ := hds
    simp only [List.append_assoc, List.singleton_append, List.append_cancel_left_eq] at hc
    rw [hcells, (List.cons.inj hc).2, List.append_assoc]
    exact (List.Sublist.refl a).append
      ((List.sublist_append_right u' c).trans (List.sublist_append_right t' _))

/-- A page has room for a part of its cells. -/
theorem nFree_of_sublist {cells : List Cell} {ovfl : List (Nat × Cell)} (hsub : cells.Sublist p.cells)
    (hf : 0 ≤ p.nFree g) : 0 ≤ ({ p with cells, ovfl } : MemPage).nFree g := by
  have hle := (hsub.map fun c => 2 + xCellSize g p.leaf c).sum_le_sum fun _ _ => Nat.zero_le _
  unfold MemPage.nFree at hf ⊢
  dsimp only
  omega

/-- The siblings around child `pre.length` of the parent, and what is before and behind them. -/
theorem exists_gathered {pre post : List (Nat × Bound)} {cur : Nat} {m u : Bound}
    {es1 es2 es3 : List Entry} {ps1 ps2 ps3 : List Nat}
    (hown : Owns g d (parent :: (ps1 ++ (ps2 ++ ps3)) ++ R)) (ho : OvflDivider p pre.length)
    (hkids : p.kids hi = pre ++ (cur, u) :: post) (hpre : Seg (Sub g d.page dep) lo pre m es1 ps1)
    (hcur : Node g d.page (fun c => p.allCells = [] → c.allCells ≠ []) dep m cur u es2 ps2)
    (hpost : Seg (Sub g d.page dep) u post hi es3 ps3) :
    ∃ a ds c cl W mA ul esA es esB psA psB qs postB,
      Gathered g d parent p dep a ds c cl W mA ul es qs (psA ++ (psB ++ R))
      ∧ siblingWindow p.allCells.length pre.length = (a.length, ds.length)
      ∧ p.childAt (ds.length + a.length - p.ovfl.length) = cl ∧ a.length ≤ pre.length
      ∧ (p.ovfl = [] ∨ pre.length < a.length + ds.length)
      ∧ es1 ++ (es2 ++ es3) = esA ++ (es ++ esB)
      ∧ Seg (Sub g d.page dep) lo (a.map fun c => (get4byte c, (divKey c).bound)) mA esA psA
      ∧ Seg (Sub g d.page dep) ul postB hi esB psB
      ∧ c.map (fun c => (get4byte c, (divKey c).bound)) ++ [(p.right, hi)] = (cl, ul) :: postB := by
  have hlen : p.allCells.length + 1 = pre.length + 1 + post.length := by
    have := congrArg List.length hkids
    simp only [MemPage.kids, List.length_append, List.length_map, List.length_cons, List.length_nil] at this
    omega
  obtain ⟨hw1, hw2, hw3, hw4, hw5⟩ := @siblingWindow_spec p.allCells.length pre.length (by omega)
  have hw6 := @siblingWindow_lt p.allCells.length pre.length
  rcases hsw : siblingWindow p.allCells.length pre.length with ⟨nxDiv, nDiv⟩
  rw [hsw] at hw1 hw2 hw3 hw4 hw5 hw6
  have ho' : p.ovfl = [] ∨ pre.length < nxDiv + nDiv := by
    rcases ho with h1 | ⟨cell, h1, h2⟩
    · exact Or.inl h1
    · obtain ⟨t, u, ht, -, hall⟩ := MemPage.split_ovfl h1 h2
      refine Or.inr (hw6 ?_)
      rw [hall, ← ht, List.length_append, List.length_cons]
      omega
  obtain ⟨a, ds, bc, preW, postW, postB, cl, ul, hcells, rfl, rfl, rfl, rfl, hwin, htail, hchild⟩ :=
    window_split (ho.inside ho') hkids hw1 hw2 hw3
  obtain ⟨mA, esA, esP, psA, psP, rfl, rfl, hsegA, hsegP⟩ := hpre.split
  obtain ⟨mB, esQ, esB, psQ, psB, rfl, rfl, hsegQ, hsegB⟩ := hpost.split
  have hcur' : Node g d.page (fun c => preW = [] → postW = [] → c.allCells ≠ []) dep m cur u es2 ps2 := by
    refine hcur.imp fun c hc h1 h2 => hc (List.eq_nil_of_length_eq_zero (hw5 ?_))
    have := congrArg List.length hwin
    rw [h1, h2] at this
    simpa using this.symm
  obtain rfl : ul = mB := by
    have hrow := window_row hsegP hcur' hsegQ
    rw [hwin] at hrow
    exact hrow.getLast_eq
  obtain ⟨W, qs, hW, hholds, hperm, hbody, hfilled⟩ := window_contents hwin hsegP hcur' hsegQ
  simp only [List.map_append, List.map_map, List.map_singleton, Function.comp_def] at hW hbody
  refine ⟨a, ds, bc, cl, W, mA, ul, esA, _, esB, psA, psB, qs, postB,
    ⟨hcells, hW, hw4, hholds, ?_, hbody, hfilled⟩, rfl, hchild, hw1, ho', by simp, hsegA, hsegB, htail⟩
  refine hown.perm (List.perm_iff_count.2 fun x => ?_)
  have := hperm.count_eq x
  simp only [List.count_append, List.count_cons, List.cons_append] at this ⊢
  omega

/-- The cells the code shares out. -/
def gatheredCells (g : Geometry) (W : List (Nat × MemPage)) (ds : List Cell) : CellArray where
  g := g
  leaf := ((W.map Prod.snd).headD default).leaf
  cells := loadCells (W.map Prod.snd) ds

section Place

variable {isRoot : Bool} {a ds c : List Cell} {cl idx : Nat} {W : List (Nat × MemPage)} {es : List Entry}
  {qs : List Nat}

theorem Gathered.length_eq (h : Gathered g d parent p dep a ds c cl W lo hi es qs R) :
    (W.map Prod.snd).length = ds.length + 1 := by
  have := congrArg List.length h.siblings
  simpa using this

/-- The siblings are all leaves or all interior pages. -/
theorem Gathered.leaf_eq (h : Gathered g d parent p dep a ds c cl W lo hi es qs R) :
    ∀ p ∈ W.map Prod.snd, p.leaf = (gatheredCells g W ds).leaf := by
  have hlen := h.length_eq
  obtain ⟨q, rest, hW⟩ := List.exists_cons_of_ne_nil
    (List.ne_nil_of_length_pos (by omega) : W.map Prod.snd ≠ [])
  have hall : ∀ p ∈ W.map Prod.snd, p.leaf = decide (dep = 0) := by
    rcases dep with - | dep
    · exact (@gather_leaves g d.page _ _ ds _ _ _ _ (by simpa using hlen.symm) h.body).1
    · exact fun p hp => (seg_body_succ (by simpa using hlen.symm) h.body p hp).1
  intro p hp
  rw [hall p hp, gatheredCells, hW, List.headD_cons, hall q (hW ▸ List.mem_cons_self)]

/-- Whatever packing the code settles on, the siblings it describes are the same part of the tree. -/
theorem Gathered.redistribute (h : Gathered g d parent p dep a ds c cl W lo hi es qs R)
    (hd : ∀ c ∈ ds, IsDivider c) {s : Packing}
    (hs : (gatheredCells g W ds).distribute ((gatheredCells g W ds).oldPacking (W.map Prod.snd)) = .ok s) :
    ((gatheredCells g W ds).Packed s.k s
        ∧ ∀ j < s.k, (gatheredCells g W ds).start s.cntNew j < s.cntNew j)
      ∧ ∃ keys, Rebuilt (gatheredCells g W ds) s d.page dep lo hi es qs
        ((W.map Prod.snd).getLastD default).right keys := by
  have hlen := h.length_eq
  have hlen3 := h.length_le
  have hleaf := h.leaf_eq
  obtain ⟨w, hw, hwcells⟩ := h.filled
  refine Btreelite.redistribute (by omega) hlen hd hleaf (fun hl q hq => h.own.lt_two_pow ?_) h.body rfl
    (loadCells_ne_nil (List.mem_map_of_mem hw) hwcells) hs
  have := right_mem (by simpa using hlen.le) h.body q hq ((hleaf q hq).trans hl)
  simp [this]

/-- The siblings `balance_nonroot` gathers become the siblings of a packing of their cells. -/
theorem Gathered.balanceNonroot_does {E : Rc → Db → Prop} (hE : ∀ e d, e.isFault = true → E e d)
    (herr : ∀ e, (gatheredCells g W ds).distribute
      ((gatheredCells g W ds).oldPacking (W.map Prod.snd)) = .error e → ∀ d, E e d)
    (h : Gathered g d parent p dep a ds c cl W lo hi es qs R)
    (hp : d.page parent = .node p) (ho : OvflDivider p idx) (hl : p.leaf = false) (hf : 0 ≤ p.nFree g)
    (hd : ∀ c ∈ p.allCells, IsDivider c)
    (hsw : siblingWindow p.allCells.length idx = (a.length, ds.length))
    (hchild : p.childAt (ds.length + a.length - p.ovfl.length) = cl) (ha : a.length ≤ idx)
    (hlt : p.ovfl = [] ∨ idx < a.length + ds.length) :
    Does (balanceNonroot g parent idx isRoot) d (fun _ d' => ∃ s keys,
      ((gatheredCells g W ds).Packed s.k s
        ∧ ∀ j < s.k, (gatheredCells g W ds).start s.cntNew j < s.cntNew j)
      ∧ Rebuilt (gatheredCells g W ds) s d.page dep lo hi es qs
        ((W.map Prod.snd).getLastD default).right keys
      ∧ SiblingsWritten g d d' parent isRoot p a c keys ((List.range s.k).map
        ((gatheredCells g W ds).newPage s.cntNew s.k ((W.map Prod.snd).getLastD default).right)) qs R)
      E := by
  have hparent : ∀ q ∈ (W.map Prod.fst ++ qs) ++ R, q ≠ parent := by
    have hnd := h.own.nodup
    rw [List.cons_append, List.nodup_cons] at hnd
    intro q hq hqp
    rw [hqp] at hq
    exact hnd.1 hq
  unfold balanceNonroot
  refine (tick_does fun e => hE e d).bind ?_
  intro _ _ heq
  subst heq
  refine (nodeAt_does hp).bind ?_
  intro x d' heq
  obtain ⟨rfl, rfl⟩ := heq
  simp only [ho.length, hsw, hchild]
  refine (loadSiblings_does hE ha ds hp (ho.inside hlt) h.cells h.siblings h.holds ?_).bind ?_
  · intro w hw
    have hmem : w.1 ∈ W.map Prod.fst := List.mem_map_of_mem hw
    exact ⟨hparent _ (by simp [hmem]), h.own.inRange (by simp [hmem])⟩
  intro r d1 heq
  obtain ⟨rfl, rfl⟩ := heq
  refine (tick_does fun e => hE e _).bind ?_
  intro _ _ heq
  subst heq
  dsimp only
  set pages := W.map Prod.snd with hpages
  have hany : ¬ (pages.any fun p => p.leaf != (pages.headD default).leaf) = true := by
    rw [List.any_eq_true]
    rintro ⟨q, hq, hne⟩
    exact absurd (h.leaf_eq q hq) (bne_iff_ne.1 hne)
  rw [if_neg hany]
  change Ensures BtShared.db (match (gatheredCells g W ds).distribute ((gatheredCells g W ds).oldPacking pages) with
    | .error e => throw e
    | .ok s => placeSiblings g parent a.length (ds.length + a.length - x.ovfl.length = x.cells.length) isRoot W
      (gatheredCells g W ds) s) _ _ _
  cases hs : (gatheredCells g W ds).distribute ((gatheredCells g W ds).oldPacking pages) with
  | error e => exact Ensures.throw (herr e hs _)
  | ok s =>
    obtain ⟨hcuts, keys, hreb⟩ := h.redistribute (fun c hc => hd c (by rw [h.cells]; simp [hc])) hs
    set p1 : MemPage := { x with cells := a ++ c, ovfl := [] } with hp1
    have hbody1 : Rebuilt (gatheredCells g W ds) s (d.set parent (.node p1)).page dep lo hi es qs
        (pages.getLastD default).right keys := by
      refine { hreb with seg := hreb.seg.mono fun _ _ _ _ _ _ hqs h => h.congr fun q hq => ?_ }
      exact Db.set_page_of_ne _ _ _ (hparent q (by simp [hqs q hq]))
    have hsub := ho.rest_sublist h.cells ha hlt
    have hf1 : 0 ≤ p1.nFree g := nFree_of_sublist hsub hf
    have hmem : parent ∈ parent :: (W.map Prod.fst ++ qs) ++ R :=
      List.mem_append_left _ List.mem_cons_self
    have hr : decide (ds.length + a.length - x.ovfl.length = x.cells.length) = true ↔ c = [] := by
      have h1 := ho.length
      have h2 : x.ovfl.length ≤ ds.length + a.length := by
        rcases ho with ho | ⟨cell, ho, -⟩
        · simp [ho]
        · have := hlt.resolve_left (by simp [ho])
          rw [ho, List.length_singleton]
          omega
      rw [h.cells] at h1
      rw [decide_eq_true_eq, ← List.length_eq_zero_iff]
      simp only [List.length_append] at h1
      omega
    have hle := CellArray.cntOld_le (b := gatheredCells g W ds)
      (List.ne_nil_of_length_pos (by rw [h.length_eq]; omega)) h.leaf_eq rfl
    refine (placeSiblings_pages (h.own.set hmem (.node p1)) (Db.set_page_self _ _ _) rfl hl hf1 rfl hr
      rfl hcuts.1 hcuts.2 hle hbody1).mono ?_ fun e d => hE e d
    intro _ d2 hwritten
    refine ⟨s, keys, hcuts, hreb, hwritten.of_right rfl fun q hq => ?_⟩
    exact Db.set_page_of_ne _ _ _ (hparent q (by simp only [List.mem_append] at hq ⊢; tauto))

theorem Gathered.balanceNonroot_returns (h : Gathered g d parent p dep a ds c cl W lo hi es qs R)
    (hp : d.page parent = .node p) (ho : OvflDivider p idx) (hl : p.leaf = false) (hf : 0 ≤ p.nFree g)
    (hd : ∀ c ∈ p.allCells, IsDivider c)
    (hsw : siblingWindow p.allCells.length idx = (a.length, ds.length))
    (hchild : p.childAt (ds.length + a.length - p.ovfl.length) = cl) (ha : a.length ≤ idx)
    (hlt : p.ovfl = [] ∨ idx < a.length + ds.length) :
    Returns BtShared.db (balanceNonroot g parent idx isRoot) d fun _ d' => ∃ s keys,
      ((gatheredCells g W ds).Packed s.k s
        ∧ ∀ j < s.k, (gatheredCells g W ds).start s.cntNew j < s.cntNew j)
      ∧ Rebuilt (gatheredCells g W ds) s d.page dep lo hi es qs
        ((W.map Prod.snd).getLastD default).right keys
      ∧ SiblingsWritten g d d' parent isRoot p a c keys ((List.range s.k).map
        ((gatheredCells g W ds).newPage s.cntNew s.k ((W.map Prod.snd).getLastD default).right)) qs R :=
  h.balanceNonroot_does (fun _ _ _ => trivial) (fun _ _ _ => trivial) hp ho hl hf hd hsw hchild ha hlt

end Place

/-- `balance_nonroot` keeps the entries below the parent. -/
theorem balanceNonroot_returns {isRoot : Bool} {pre post : List (Nat × Bound)} {cur : Nat} {m u : Bound}
    {es1 es2 es3 : List Entry} {ps1 ps2 ps3 : List Nat}
    (hown : Owns g d (parent :: (ps1 ++ (ps2 ++ ps3)) ++ R)) (hp : d.page parent = .node p)
    (ho : OvflDivider p pre.length) (hl : p.leaf = false) (hf : 0 ≤ p.nFree g)
    (hd : ∀ c ∈ p.allCells, IsDivider c)
    (hkids : p.kids hi = pre ++ (cur, u) :: post) (hpre : Seg (Sub g d.page dep) lo pre m es1 ps1)
    (hcur : Node g d.page (fun c => p.allCells = [] → c.allCells ≠ []) dep m cur u es2 ps2)
    (hpost : Seg (Sub g d.page dep) u post hi es3 ps3) :
    Returns BtShared.db (balanceNonroot g parent pre.length isRoot) d
      fun _ d' => Balanced g d d' parent isRoot dep lo hi (es1 ++ (es2 ++ es3)) R := by
  obtain ⟨a, ds, c, cl, W, mA, ul, esA, es, esB, psA, psB, qs, postB, hG, hsw, hchild, ha, hlt, hes,
    hsegA, hsegB, htail⟩ := exists_gathered hown ho hkids hpre hcur hpost
  refine (hG.balanceNonroot_returns hp ho hl hf hd hsw hchild ha hlt).post ?_
  intro _ d' h
  obtain ⟨s, keys, -, hreb, hwritten⟩ := h
  have hcells : ∀ x, x ∈ a ∨ x ∈ c → x ∈ p.allCells := fun x hx => by
    rw [hG.cells]
    simp only [List.mem_append]
    tauto
  rw [hes]
  exact (SiblingsWritten.placed (b := gatheredCells g W ds) hwritten hreb).balanced (d := d)
    (fun _ _ => rfl) (fun x hx => hd x (hcells x (Or.inl hx))) (fun x hx => hd x (hcells x (Or.inr hx)))
    hsegA hsegB htail

end Nonroot

/-! ## The loop of `balance` -/

section Loop

variable {g : Geometry} {d : Db} {root dep cur parent idx : Nat} {anc : List (Nat × Nat)}
  {lo hi plo phi : Bound} {es esl esr el er : List Entry} {ps pso R : List Nat}

theorem clearOvfl_returns (pgno : Nat) : Returns BtShared.db (clearOvfl pgno) d fun _ _ => True := by
  refine (pageData_does pgno).bind ?_
  intro x d' h
  cases x
  case node p => exact (setPage_does _ _).post fun _ _ _ => trivial
  all_goals exact Ensures.pure trivial

theorem MemPage.allCells_ne_nil {p : MemPage} (h : p.ovfl ≠ []) : p.allCells ≠ [] := by
  obtain ⟨x, rest, hx⟩ := List.exists_cons_of_ne_nil h
  simp [MemPage.allCells, hx]

/-- A page the loop of `balance` leaves alone has cells. -/
theorem settled_of_nFree {p : MemPage} (ho : p.ovfl = []) (hf : 0 ≤ p.nFree g)
    (h : p.nFree g * 3 ≤ g.usableSize * 2) : Settled g p := by
  refine ⟨ho, fun h0 => ?_, hf⟩
  have := g.usable_ge
  rw [MemPage.nFree, h0] at h
  simp only [List.map_nil, List.sum_nil, Nat.cast_zero] at h
  split_ifs at h <;> omega

/-- One turn of the loop: the parent gets balanced children. The parent may be a root without cells,
when the child has some. -/
theorem balanceParent_returns {C : Prop}
    (hown : Owns g d ((ps ++ (parent :: pso)) ++ R))
    (har : Around g d.page (fun p => p.ovfl = [] ∧ 0 ≤ p.nFree g ∧ (p.cells = [] → C)) dep parent idx
      plo phi cur lo hi esl esr pso)
    (hcur : Node g d.page (fun c => C → c.allCells ≠ []) dep lo cur hi es ps) :
    Returns BtShared.db (onError (do
        sqlite3PagerWrite parent
        balanceNonroot g parent idx anc.isEmpty) (clearOvfl cur)) d
      fun _ d' => Balanced g d d' parent anc.isEmpty dep plo phi (esl ++ (es ++ esr)) R := by
  obtain ⟨p, pre, post, ps1, ps2, h1, ⟨ho, hf, hC⟩, hl, hd, rfl, hkids, hpre, hpost, rfl⟩ := har
  refine Returns.onError ?_
  refine (sqlite3PagerWrite_does parent fun _ _ => trivial).bind ?_
  intro _ _ h
  subst h
  refine balanceNonroot_returns (hown.perm ?_) h1 (Or.inl ho) hl hf hd hkids hpre
    (hcur.imp fun c hc h0 => hc (hC ((MemPage.allCells_of_ovfl_nil ho).symm.trans h0))) hpost
  refine List.perm_iff_count.2 fun x => ?_
  simp only [List.count_append, List.count_cons, List.cons_append]
  omega

/-- `balance_deeper` puts the root above a new page with its content. -/
theorem balanceDeeper_returns {p : MemPage} {qs : List Nat} (hown : Owns g d (root :: qs ++ R))
    (hp : d.page root = .node p) (hbody : Body g d.page dep lo p hi es qs) :
    Returns BtShared.db (balanceDeeper g root) d fun child d' => (∀ q ∈ R, d'.page q = d.page q)
      ∧ d'.page child = .node p ∧ Owns g d' (((child :: qs) ++ [root]) ++ R)
      ∧ Around g d'.page (fun p => p.ovfl = [] ∧ 0 ≤ p.nFree g ∧ (p.cells = [] → True)) dep root 0
        lo hi child lo hi [] [] []
      ∧ Node g d'.page (fun c => c = p) dep lo child hi es (child :: qs) := by
  have hu := g.usable_ge
  refine (sqlite3PagerWrite_does root fun _ _ => trivial).bind ?_
  intro _ _ h
  subst h
  refine (allocateBtreePage_does hown root).returns.bind ?_
  intro child d1 h
  obtain ⟨hown1, hkeep⟩ := h
  refine (nodeAt_does ((hkeep root (by simp)).trans hp)).bind ?_
  intro x d' h
  obtain ⟨rfl, rfl⟩ := h
  refine (setPage_does _ _).bind ?_
  intro _ d2 h
  subst h
  refine (setPage_does _ _).bind ?_
  intro _ d3 h
  subst h
  have hnd := hown1.nodup
  simp only [List.cons_append, List.nodup_cons, List.mem_cons, List.mem_append, not_or] at hnd
  obtain ⟨⟨hcr, hcq, hcR⟩, ⟨hrq, hrR⟩, -⟩ := hnd
  set top : MemPage := { leaf := false, cells := [], right := child, ovfl := [] } with htop
  set d3 := (d1.set child (.node x)).set root (.node top) with hd3
  have hchild : d3.page child = .node x := by
    rw [hd3, Db.set_page_of_ne _ _ _ hcr, Db.set_page_self]
  have hsame : ∀ q, q ∈ qs ∨ q ∈ R → d3.page q = d.page q := by
    intro q hq
    have hne : q ≠ root ∧ q ≠ child := by
      rcases hq with hq | hq
      · exact ⟨fun h => hrq (h ▸ hq), fun h => hcq (h ▸ hq)⟩
      · exact ⟨fun h => hrR (h ▸ hq), fun h => hcR (h ▸ hq)⟩
    rw [hd3, Db.set_page_of_ne _ _ _ hne.1, Db.set_page_of_ne _ _ _ hne.2]
    exact hkeep q (by simp only [List.cons_append, List.mem_cons, List.mem_append]; tauto)
  refine Ensures.pure ⟨fun q hq => hsame q (Or.inr hq), hchild, ?_, ?_, ?_⟩
  · have h1 := (hown1.set (p := child) (by simp) (.node x)).set (p := root) (by simp) (.node top)
    refine h1.perm (List.perm_iff_count.2 fun y => ?_)
    simp only [List.count_append, List.count_cons, List.cons_append, List.count_nil]
    omega
  · refine ⟨top, [], [], [], [], by rw [hd3, Db.set_page_self], ⟨rfl, ?_, fun _ => trivial⟩, rfl, ?_, rfl,
      rfl, ⟨rfl, rfl, rfl⟩, ⟨rfl, rfl, rfl⟩, rfl⟩
    · simp [MemPage.nFree, htop]
      omega
    · simp [MemPage.allCells, htop]
  · exact ⟨x, qs, hchild, rfl, rfl, hbody.congr fun q hq => hsame q (Or.inl hq)⟩

/-- What a turn of the loop leaves is again what the loop starts from. -/
theorem Balanced.loop {d d' : Db} (h : Balanced g d d' parent anc.isEmpty dep plo phi es (pso ++ R))
    (hab : Above g d.page root anc (dep + 1) parent plo phi el er pso) :
    (∀ q ∈ R, d'.page q = d.page q) ∧ ∃ dep' ps, Above g d'.page root anc dep' parent plo phi el er pso
      ∧ Node g d'.page (fun p => 0 ≤ p.nFree g ∧ (anc = [] → dep' ≠ 0 → p.cells ≠ [])) dep' plo parent
        phi es ps
      ∧ Owns g d' ((ps ++ pso) ++ R) := by
  obtain ⟨hkeep, p, qs, hp, hown, hf, hbody⟩ := h
  have hab' := hab.congr fun q hq => hkeep q (List.mem_append_left _ hq)
  refine ⟨fun q hq => hkeep q (List.mem_append_right _ hq), ?_⟩
  rcases hbody with ⟨hbody, hcells⟩ | ⟨hroot, hset, hbody⟩
  · exact ⟨dep + 1, parent :: qs, hab', ⟨p, qs, hp, ⟨hf, fun h _ => hcells (by simp [h])⟩, rfl, hbody⟩,
      by simpa using hown⟩
  · obtain rfl := List.isEmpty_iff.1 hroot
    exact ⟨dep, parent :: qs, hab', ⟨p, qs, hp, ⟨hf, fun _ _ => hset.cells⟩, rfl, hbody⟩,
      by simpa using hown⟩

theorem balanceFrom_returns (another : Bool) : ∀ (fuel : Nat) {root dep cur : Nat} {anc : List (Nat × Nat)}
    {lo hi : Bound} {es esl esr : List Entry} {ps pso : List Nat} {d : Db},
    Above g d.page root anc dep cur lo hi esl esr pso →
    Node g d.page (fun p => 0 ≤ p.nFree g ∧ (anc = [] → dep ≠ 0 → p.cells ≠ [])) dep lo cur hi es ps →
    Owns g d ((ps ++ pso) ++ R) →
    Returns BtShared.db (balanceFrom g another fuel cur anc) d fun r d' =>
      (∀ q ∈ R, d'.page q = d.page q) ∧ r.2.length ≤ anc.length
        ∧ ∃ qs, Owns g d' (qs ++ R) ∧ IsTree g d'.page root (esl ++ (es ++ esr)) qs
  | 0, _, _, _, _, _, _, _, _, _, _, _, _, _, _, _ => Ensures.throw trivial
  | fuel + 1, root, dep, cur, anc, lo, hi, es, esl, esr, ps, pso, d, hab, hcur, hown => by
    obtain ⟨p, qs, hp, ⟨hf, h0⟩, rfl, hbody⟩ := hcur
    unfold balanceFrom
    refine (nodeAt_does hp).bind ?_
    intro x d' h
    obtain ⟨rfl, rfl⟩ := h
    refine Ensures.ite (fun h => ?_) fun h => ?_
    · have hset := settled_of_nFree h.1 hf h.2
      obtain ⟨qs', hqs', htree⟩ := hab.fill ⟨x, qs, hp, hset.okBelow, rfl, hbody⟩
      exact Ensures.pure ⟨fun _ _ => rfl, le_rfl, qs', hown.perm (hqs'.symm.append_right R), htree⟩
    rcases anc with _ | ⟨⟨parent, idx⟩, anc⟩
    · obtain ⟨rfl, rfl, rfl, rfl, rfl, rfl⟩ := hab
      refine Ensures.ite (fun ho => ?_) fun ho => Ensures.ite (fun _ => Ensures.throw trivial) fun _ => ?_
      · refine Ensures.pure ⟨fun _ _ => rfl, le_rfl, cur :: qs, by simpa using hown, dep, x, qs, hp,
          ⟨ho, hf, h0 rfl⟩, rfl, by simpa using hbody⟩
      · refine (balanceDeeper_returns (by simpa using hown) hp hbody).bind ?_
        intro child d1 h
        obtain ⟨hkeep1, hchild, hown1, har, hnode⟩ := h
        match fuel with
        | 0 => exact Ensures.throw trivial
        | fuel + 1 =>
          unfold balanceFrom
          refine (nodeAt_does hchild).bind ?_
          intro y d' h
          obtain ⟨rfl, rfl⟩ := h
          rw [if_neg (by tauto)]
          refine (balanceParent_returns hown1 har
            (hnode.imp fun c hc _ => hc ▸ MemPage.allCells_ne_nil ho)).bind ?_
          intro _ d2 h
          have hroot : Above g d1.page cur [] (dep + 1) cur ⊥ ⊤ [] [] [] :=
            ⟨rfl, rfl, rfl, rfl, rfl, rfl⟩
          obtain ⟨hkeep2, dep', ps', hab2, hnode2, hown2⟩ := Balanced.loop h hroot
          refine (balanceFrom_returns another fuel hab2 hnode2 hown2).post ?_
          intro r d3 h
          obtain ⟨hkeep3, hlen, htree⟩ := h
          exact ⟨fun q hq => (hkeep3 q hq).trans ((hkeep2 q hq).trans (hkeep1 q hq)), hlen,
            by simpa using htree⟩
    · obtain ⟨plo, phi, esl1, esl2, esr1, esr2, ps1, ps2, har, rfl, rfl, rfl, hab⟩ := hab
      have har' : Around g d.page (fun p => p.ovfl = [] ∧ 0 ≤ p.nFree g ∧ (p.cells = [] → False)) dep
          parent idx plo phi cur lo hi esl2 esr1 ps1 := har.imp fun p h => ⟨h.ovfl, h.nFree, h.cells⟩
      have hown' : Owns g d (((cur :: qs) ++ (parent :: ps1)) ++ (ps2 ++ R)) := by simpa using hown
      refine (balanceParent_returns hown' har' ⟨x, qs, hp, by simp, rfl, hbody⟩).bind ?_
      intro _ d2 h
      obtain ⟨hkeep2, dep', ps', hab2, hnode2, hown2⟩ := h.loop hab
      refine (balanceFrom_returns another fuel hab2 hnode2 hown2).post ?_
      intro r d3 h
      obtain ⟨hkeep3, hlen, htree⟩ := h
      refine ⟨fun q hq => (hkeep3 q hq).trans (hkeep2 q hq), hlen.trans (Nat.le_succ _), ?_⟩
      simpa using htree

end Loop

end Btreelite
