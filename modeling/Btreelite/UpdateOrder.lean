import Btreelite.Balance

/-!
# The order of the edits

The loop over `editPage` in `balance_nonroot` goes down through the new siblings and up again. For
every distribution the code computes it edits each sibling once, and a sibling only when every other
one that gets cells from its page has them.
-/

namespace Btreelite

open Prog

namespace CellArray

section Code

variable (b : CellArray) (olds : List MemPage) (cnt : Nat → Nat)

/-- A turn of the loop `for(i=1-nNew; i<nNew; i++)`; `done` are the siblings with `abDone[]` set,
latest first. -/
def updateTurn (done : List Nat) (i : Int) : List Nat :=
  let iPg := i.natAbs
  if iPg ∈ done then done
  else if 0 ≤ i ∨ b.NoneLeft olds cnt iPg then iPg :: done
  else done

/-- The siblings in the order in which `editPage` is run on them. -/
def updateOrder (nNew : Nat) : List Nat :=
  (((List.range (2 * nNew - 1)).map fun (n : Nat) => (n : Int) + 1 - nNew).foldl
    (b.updateTurn olds cnt) []).reverse

/-- `abDone[]` after the downward pass from sibling `i` on. -/
def downDone : Nat → List Nat → List Nat
  | 0, done => done
  | i + 1, done => downDone i (if b.NoneLeft olds cnt (i + 1) then (i + 1) :: done else done)

/-- `abDone[]` after the upward pass over `n` siblings from sibling `i` on. -/
def upDone : Nat → Nat → List Nat → List Nat
  | 0, _, done => done
  | n + 1, i, done => upDone n (i + 1) (if i ∈ done then done else i :: done)

/-- Runs `editPage` on the siblings of the list, the last one of it first. -/
def editAll (k oldRight : Nat) (pgnos : List Nat) : List Nat → BtM Unit
  | [] => return
  | i :: done => do
    editAll k oldRight pgnos done
    setPage (pgnos.getD i 0) (.node (b.editPage olds cnt k oldRight done i))

end Code

/-! ## The two passes of the loop -/

section Passes

variable {b : CellArray} {olds : List MemPage} {cnt : Nat → Nat} {k oldRight : Nat} {pgnos : List Nat}

theorem foldl_down : ∀ (n : Nat) {done : List Nat}, (∀ m ∈ done, n < m) →
    ((List.range n).map fun (m : Nat) => (m : Int) - n).foldl (b.updateTurn olds cnt) done
      = b.downDone olds cnt n done
  | 0, _, _ => rfl
  | n + 1, done, h => by
    have hturn : b.updateTurn olds cnt done (0 - (n + 1 : Nat))
        = if b.NoneLeft olds cnt (n + 1) then (n + 1) :: done else done := by
      have hmem : n + 1 ∉ done := fun hm => lt_irrefl _ (h _ hm)
      unfold updateTurn
      rw [show (0 - ((n + 1 : Nat) : Int)).natAbs = n + 1 by omega, if_neg hmem]
      simp only [show ¬ (0 : Int) ≤ 0 - (n + 1 : Nat) by omega, false_or]
    have hshift : ((List.range n).map Nat.succ).map (fun (m : Nat) => (m : Int) - (n + 1 : Nat))
        = (List.range n).map fun (m : Nat) => (m : Int) - n := by
      rw [List.map_map]
      refine List.map_congr_left fun m _ => ?_
      simp only [Function.comp_apply]
      omega
    rw [List.range_succ_eq_map, List.map_cons, List.foldl_cons, hshift, Nat.cast_zero, hturn, downDone,
      foldl_down n]
    intro m hm
    split_ifs at hm
    · rcases List.mem_cons.1 hm with rfl | hm
      · exact Nat.lt_succ_self n
      · exact Nat.lt_of_succ_lt (h m hm)
    · exact Nat.lt_of_succ_lt (h m hm)

theorem foldl_up : ∀ (n i : Nat) {done : List Nat},
    ((List.range' i n).map fun (m : Nat) => (m : Int)).foldl (b.updateTurn olds cnt) done
      = upDone n i done
  | 0, _, _ => rfl
  | n + 1, i, done => by
    rw [List.range'_succ, List.map_cons, List.foldl_cons, foldl_up n (i + 1), upDone]
    simp [updateTurn]

/-- The loop is the downward pass, then the upward pass. -/
theorem updateOrder_eq (hk : 0 < k) :
    b.updateOrder olds cnt k = (upDone k 0 (b.downDone olds cnt (k - 1) [])).reverse := by
  obtain ⟨n, rfl⟩ := Nat.exists_eq_succ_of_ne_zero hk.ne'
  have hsplit : (List.range (2 * (n + 1) - 1)).map (fun (m : Nat) => (m : Int) + 1 - (n + 1 : Nat))
      = ((List.range n).map fun (m : Nat) => (m : Int) - n)
        ++ (List.range' 0 (n + 1)).map fun (m : Nat) => (m : Int) := by
    rw [show 2 * (n + 1) - 1 = n + (n + 1) by omega, List.range_add, List.map_append, List.map_map,
      ← List.range_eq_range']
    congr 1
    · refine List.map_congr_left fun m _ => ?_
      omega
    · refine List.map_congr_left fun m _ => ?_
      simp only [Function.comp_apply]
      omega
  unfold updateOrder
  rw [Nat.succ_eq_add_one, hsplit, List.foldl_append, foldl_down n (by simp), foldl_up,
    Nat.add_sub_cancel]

theorem editDown_eq : ∀ (i : Nat) {done : List Nat},
    (do
      b.editAll olds cnt k oldRight pgnos done
      editDown b olds cnt k oldRight pgnos i done)
    = do
      b.editAll olds cnt k oldRight pgnos (b.downDone olds cnt i done)
      return b.downDone olds cnt i done
  | 0, _ => rfl
  | i + 1, done => by
    unfold editDown downDone
    split_ifs
    · rw [← editDown_eq i, editAll, bind_assoc]
    · exact editDown_eq i

theorem editUp_eq : ∀ (n i : Nat) {done : List Nat},
    (do
      b.editAll olds cnt k oldRight pgnos done
      editUp b olds cnt k oldRight pgnos n i done)
    = do
      b.editAll olds cnt k oldRight pgnos (upDone n i done)
      return upDone n i done
  | 0, _, _ => rfl
  | n + 1, i, done => by
    unfold editUp upDone
    split_ifs
    · exact editUp_eq n (i + 1)
    · rw [← editUp_eq n (i + 1), editAll, bind_assoc]

/-- `editPages` edits the siblings in the order of the loop. -/
theorem editPages_eq (hk : 0 < k) : editPages b olds cnt k oldRight pgnos
    = b.editAll olds cnt k oldRight pgnos (b.updateOrder olds cnt k).reverse := by
  have hdown := @editDown_eq b olds cnt k oldRight pgnos (k - 1) []
  have hup := @editUp_eq b olds cnt k oldRight pgnos k 0 (b.downDone olds cnt (k - 1) [])
  simp only [editAll, pure_bind] at hdown
  unfold editPages
  rw [hdown, updateOrder_eq hk, List.reverse_reverse, bind_assoc]
  simp only [pure_bind]
  rw [← bind_assoc, hup, bind_assoc]
  simp

end Passes

/-! ## The cuts of a distribution -/

section Cuts

variable {b : CellArray} {s s' : Packing}

/-- Every cut is behind the one before. -/
def Ascends (s : Packing) : Prop := ∀ j < s.k, (if 0 < j then s.cntNew (j - 1) else 0) < s.cntNew j

theorem shiftRight_le (last : Bool) : ∀ (cnt : Nat) (szRight szLeft : Int),
    (b.shiftRight last cnt szRight szLeft).1 ≤ cnt
  | 0, _, _ => le_rfl
  | r + 1, szRight, szLeft => by
    unfold shiftRight
    dsimp only
    by_cases hstop : szRight ≠ 0 ∧ szRight + b.cachedCellSize (r + b.gap) + 2
        > szLeft - (b.cachedCellSize r + (if last then 0 else 2))
    · rw [if_pos hstop]
    · rw [if_neg hstop]
      exact (shiftRight_le last r _ _).trans (Nat.le_succ r)

/-- The adjustment only moves cuts to the left, and gives up when one reaches the cut before. -/
theorem adjust_ascends : ∀ (i : Nat) {s s' : Packing}, i < s.k → Ascends s → b.adjust i s = .ok s' →
    Ascends s' ∧ s'.k = s.k ∧ s'.cntNew (s.k - 1) = s.cntNew (s.k - 1)
  | 0, s, s', _, h, heq => by
    obtain rfl : s = s' := by simpa [adjust] using heq
    exact ⟨h, rfl, rfl⟩
  | i + 1, s, s', hi, h, heq => by
    unfold adjust at heq
    rcases hrun : b.shiftRight (i + 1 = s.k - 1) (s.cntNew i) (s.szNew (i + 1)) (s.szNew i)
      with ⟨cnt, szRight, szLeft⟩
    have hle := shiftRight_le (b := b) (i + 1 = s.k - 1) (s.cntNew i) (s.szNew (i + 1)) (s.szNew i)
    rw [hrun] at heq hle
    dsimp only at heq hle
    by_cases hc : cnt ≤ if 0 < i then Function.update s.cntNew i cnt (i - 1) else 0
    · rw [if_pos hc] at heq
      cases heq
    rw [if_neg hc] at heq
    set u : Packing := { s with
      szNew := Function.update (Function.update s.szNew (i + 1) szRight) i szLeft
      cntNew := Function.update s.cntNew i cnt } with hu
    have hasc : Ascends u := by
      intro j hj
      have hj := h j hj
      rw [hu]
      dsimp only
      rcases eq_or_ne j i with rfl | hne
      · rw [Function.update_self]
        exact Nat.lt_of_not_le hc
      · rw [Function.update_of_ne hne]
        refine lt_of_le_of_lt ?_ hj
        split_ifs
        · rcases eq_or_ne (j - 1) i with he | hne'
          · rw [he, Function.update_self]
            exact hle
          · rw [Function.update_of_ne hne']
        · exact le_rfl
    obtain ⟨h1, h2, h3⟩ := adjust_ascends i (s := u) (Nat.lt_of_succ_lt hi) hasc heq
    exact ⟨h1, h2, h3.trans (Function.update_of_ne (show s.k - 1 ≠ i by omega) ..)⟩

theorem Ascends.mono (h : Ascends s) : ∀ i j, i ≤ j → j < s.k → s.cntNew i ≤ s.cntNew j
  | i, 0, hij, _ => by rw [Nat.le_zero.1 hij]
  | i, j + 1, hij, hj => by
    rcases Nat.eq_or_lt_of_le hij with rfl | hij
    · exact le_rfl
    · have h1 := h.mono i j (Nat.le_of_lt_succ hij) (Nat.lt_of_succ_lt hj)
      have h2 := h (j + 1) hj
      rw [if_pos (Nat.succ_pos j), Nat.add_sub_cancel] at h2
      omega

/-- The cuts the code settles on ascend, and the last one is behind all cells. -/
theorem distribute_cuts (hpacked : b.Packed 0 s) (hs : b.distribute s = .ok s') :
    0 < s'.k ∧ s'.cntNew (s'.k - 1) = b.nCell ∧ ∀ i j, i ≤ j → j < s'.k → s'.cntNew i ≤ s'.cntNew j := by
  unfold distribute at hs
  rcases hp : b.pack 5 0 s with e | t
  · rw [hp] at hs
    cases hs
  rw [hp] at hs
  rcases Nat.eq_zero_or_pos b.nCell with h0 | hpos
  · -- no cells: the first sibling ends the packing
    have hcnt : s.cntNew 0 = 0 := by
      have := hpacked.le 0 hpacked.pos
      omega
    have ht : t = { s with k := 1 } := by
      simpa [pack, hpacked.pos, hcnt, moveRight, h0, takeLeft, Bind.bind, Except.bind] using hp.symm
    subst ht
    have hs' : s' = { s with k := 1 } := by
      simpa [adjust, Bind.bind, Except.bind] using hs.symm
    subst hs'
    refine ⟨Nat.one_pos, hcnt.trans h0.symm, fun i j hij hj => ?_⟩
    obtain rfl : j = 0 := Nat.lt_one_iff.1 hj
    rw [Nat.le_zero.1 hij]
  · have ht := pack_packed hpos 5 0 rfl hpacked hp
    have hk := ht.pos
    obtain ⟨h1, h2, h3⟩ := adjust_ascends (t.k - 1) (by omega) (fun j hj => ht.mono j hj hj) hs
    exact ⟨h2 ▸ hk, by rw [h2, h3, ht.last], h1.mono⟩

end Cuts

/-! ## What each edit finds -/

section Safety

variable {b : CellArray} {olds : List MemPage} {cnt : Nat → Nat} {k : Nat}

/-- The edit of sibling `i` after those of `done` is the first one of it, keeps the conditions the code
asserts, and takes no cell from the page of a sibling that was edited before. -/
structure EditSafe (b : CellArray) (olds : List MemPage) (cnt : Nat → Nat) (k : Nat) (done : List Nat)
    (i : Nat) : Prop where
  lt : i < k
  fresh : i ∉ done
  left : i = 0 ∨ cnt (i - 1) ≤ b.cntOldAt olds (i - 1) ∨ i - 1 ∈ done
  right : b.cntOldAt olds i ≤ cnt i ∨ i + 1 ∈ done
  kept : ∀ j m, b.start cnt i ≤ j → j < cnt i → b.home olds j = some m → m ∉ done

/-- Every edit of the list is safe after those behind it. -/
def EditsSafe (b : CellArray) (olds : List MemPage) (cnt : Nat → Nat) (k : Nat) : List Nat → Prop
  | [] => True
  | i :: done => EditSafe b olds cnt k done i ∧ EditsSafe b olds cnt k done

theorem EditsSafe.at : ∀ {l : List Nat} {i : Nat} {done : List Nat},
    EditsSafe b olds cnt k (l ++ i :: done) → EditSafe b olds cnt k done i
  | [], _, _, h => h.1
  | _ :: _, _, _, h => h.2.at

theorem EditsSafe.nodup : ∀ {l : List Nat}, EditsSafe b olds cnt k l → l.Nodup
  | [], _ => List.nodup_nil
  | _ :: _, h => List.nodup_cons.2 ⟨h.1.fresh, h.2.nodup⟩

theorem EditsSafe.lt : ∀ {l : List Nat}, EditsSafe b olds cnt k l → ∀ i ∈ l, i < k
  | [], _, i, hi => by simp at hi
  | _ :: _, h, i, hi => by
    rcases List.mem_cons.1 hi with rfl | hi
    · exact h.1.lt
    · exact h.2.lt i hi

variable (hlast : cnt (k - 1) = b.nCell) (hmono : ∀ i j, i ≤ j → j < k → cnt i ≤ cnt j)
  (hle : ∀ x ∈ b.cntOld 0 olds, x ≤ b.nCell)
include hlast hmono hle

omit hmono in
/-- A sibling from which cells move right is edited after the next one, which the downward pass
reaches first. -/
theorem right_done {i : Nat} {done : List Nat} (hi : i < k)
    (hdown : ∀ m, i < m → m < k → b.NoneLeft olds cnt m → m ∈ done) :
    b.cntOldAt olds i ≤ cnt i ∨ i + 1 ∈ done := by
  by_cases h : b.cntOldAt olds i ≤ cnt i
  · exact Or.inl h
  refine Or.inr (hdown (i + 1) (Nat.lt_succ_self i) ?_ (Nat.le_of_not_le h))
  by_contra hk
  obtain rfl : i = k - 1 := by omega
  have hmono' := cntOldAt_mono hle (show k - 1 ≤ max (k - 1) (b.cntOld 0 olds).length from le_max_left _ _)
  rw [cntOldAt, cntOldAt, List.getD_eq_default _ _ (le_max_right _ _)] at hmono'
  exact h (hlast ▸ hmono')

/-- The downward pass edits the siblings no cells move left from, and each of these safely. -/
theorem downDone_safe : ∀ (i : Nat) {done : List Nat}, i < k → EditsSafe b olds cnt k done →
    (∀ m ∈ done, i < m ∧ b.NoneLeft olds cnt m) →
    (∀ m, i < m → m < k → b.NoneLeft olds cnt m → m ∈ done) →
    EditsSafe b olds cnt k (b.downDone olds cnt i done)
      ∧ (∀ m ∈ b.downDone olds cnt i done, b.NoneLeft olds cnt m)
      ∧ ∀ m, 0 < m → m < k → b.NoneLeft olds cnt m → m ∈ b.downDone olds cnt i done
  | 0, _, _, h, hdone, hall => ⟨h, fun m hm => (hdone m hm).2, hall⟩
  | i + 1, done, hi, h, hdone, hall => by
    have hlt := Nat.lt_of_succ_lt hi
    unfold downDone
    split_ifs with hD
    · have hsafe : EditSafe b olds cnt k done (i + 1) := by
        refine ⟨hi, fun hm => lt_irrefl _ (hdone _ hm).1, Or.inr (Or.inl hD),
          right_done hlast hle hi hall, fun j m _ h2 hh hm => ?_⟩
        obtain ⟨h3, h4⟩ := hdone m hm
        exact not_noneLeft_of_home hmono hh h3 (h.lt m hm) h2 h4
      refine downDone_safe i hlt ⟨hsafe, h⟩ (fun m hm => ?_) fun m h1 h2 h3 => ?_
      · rcases List.mem_cons.1 hm with rfl | hm
        · exact ⟨Nat.lt_succ_self i, hD⟩
        · exact ⟨Nat.lt_of_succ_lt (hdone m hm).1, (hdone m hm).2⟩
      · rcases Nat.eq_or_lt_of_le h1 with rfl | h1
        · exact List.mem_cons_self
        · exact List.mem_cons_of_mem _ (hall m h1 h2 h3)
    · refine downDone_safe i hlt h (fun m hm => ?_) fun m h1 h2 h3 => ?_
      · exact ⟨Nat.lt_of_succ_lt (hdone m hm).1, (hdone m hm).2⟩
      · rcases Nat.eq_or_lt_of_le h1 with rfl | h1
        · exact absurd h3 hD
        · exact hall m h1 h2 h3

/-- The upward pass edits the siblings that are left, each of these safely. -/
theorem upDone_safe : ∀ (n i : Nat) {done : List Nat}, i + n = k → EditsSafe b olds cnt k done →
    (∀ m < i, m ∈ done) → (∀ m ∈ done, m < i ∨ b.NoneLeft olds cnt m) →
    (∀ m, 0 < m → m < k → b.NoneLeft olds cnt m → m ∈ done) →
    EditsSafe b olds cnt k (upDone n i done) ∧ ∀ m < k, m ∈ upDone n i done
  | 0, i, _, hi, h, hall, _, _ => ⟨h, fun m hm => hall m (by omega)⟩
  | n + 1, i, done, hi, h, hall, hdone, hdown => by
    unfold upDone
    split_ifs with hmem
    · refine upDone_safe n (i + 1) (by omega) h (fun m hm => ?_) (fun m hm => ?_) hdown
      · rcases Nat.lt_succ_iff_lt_or_eq.1 hm with hm | rfl
        · exact hall m hm
        · exact hmem
      · exact (hdone m hm).imp_left Nat.lt_succ_of_lt
    · have hsafe : EditSafe b olds cnt k done i := by
        refine ⟨by omega, hmem, ?_, right_done hlast hle (by omega)
          fun m h1 h2 h3 => hdown m (by omega) h2 h3, fun j m h1 h2 hh hm => ?_⟩
        · rcases Nat.eq_zero_or_pos i with h0 | h0
          · exact Or.inl h0
          · exact Or.inr (Or.inr (hall _ (by omega)))
        · rcases Nat.lt_trichotomy m i with hlt | rfl | hgt
          · -- sibling `i` gets cells from its left, so the downward pass has edited it
            exact hmem (hdown i (by omega) (by omega) (noneLeft_of_home hle hh hlt h1))
          · exact hmem hm
          · exact not_noneLeft_of_home hmono hh hgt (h.lt m hm) h2 ((hdone m hm).resolve_left (by omega))
      refine upDone_safe n (i + 1) (by omega) ⟨hsafe, h⟩ (fun m hm => ?_) (fun m hm => ?_)
        fun m h1 h2 h3 => List.mem_cons_of_mem _ (hdown m h1 h2 h3)
      · rcases Nat.lt_succ_iff_lt_or_eq.1 hm with hm | rfl
        · exact List.mem_cons_of_mem _ (hall m hm)
        · exact List.mem_cons_self
      · rcases List.mem_cons.1 hm with rfl | hm
        · exact Or.inl (Nat.lt_succ_self m)
        · exact (hdone m hm).imp_left Nat.lt_succ_of_lt

/-- The loop edits every sibling once, each safely. -/
theorem updateOrder_safe (hk : 0 < k) : EditsSafe b olds cnt k (b.updateOrder olds cnt k).reverse
    ∧ (b.updateOrder olds cnt k).Perm (List.range k) := by
  rw [updateOrder_eq hk, List.reverse_reverse]
  have hnil : EditsSafe b olds cnt k [] := trivial
  obtain ⟨h1, h2, h3⟩ := downDone_safe hlast hmono hle (k - 1) (by omega) hnil (by simp)
    fun m _ _ => by omega
  obtain ⟨h4, h5⟩ := upDone_safe hlast hmono hle k 0 (by omega) h1 (by simp)
    (fun m hm => Or.inr (h2 m hm)) h3
  refine ⟨h4, (List.reverse_perm _).trans ?_⟩
  refine (List.perm_ext_iff_of_nodup h4.nodup List.nodup_range).2 fun m => ?_
  rw [List.mem_range]
  exact ⟨h4.lt m, h5 m⟩

end Safety

/-- For every distribution `balance_nonroot` computes for the siblings it gathers, the loop runs
`editPage` once for every new sibling. When it edits one, no sibling still to be edited gets a cell
from the page of that one, so that every cell is read as it was. -/
theorem updateOrder_never_overwrites {b : CellArray} {olds : List MemPage} {divs : List Cell}
    {s : Packing} (h0 : olds ≠ []) (h3 : olds.length ≤ 3) (hl : ∀ p ∈ olds, p.leaf = b.leaf)
    (hc : b.cells = loadCells olds divs) (hs : b.distribute (b.oldPacking olds) = .ok s) :
    (∀ oldRight pgnos, editPages b olds s.cntNew s.k oldRight pgnos
        = b.editAll olds s.cntNew s.k oldRight pgnos (b.updateOrder olds s.cntNew s.k).reverse)
      ∧ (b.updateOrder olds s.cntNew s.k).Perm (List.range s.k)
      ∧ ∀ pre iPg post, b.updateOrder olds s.cntNew s.k = pre ++ iPg :: post →
        (iPg = 0 ∨ s.cntNew (iPg - 1) ≤ b.cntOldAt olds (iPg - 1) ∨ iPg - 1 ∈ pre)
        ∧ (b.cntOldAt olds iPg ≤ s.cntNew iPg ∨ iPg + 1 ∈ pre)
        ∧ (∀ i ∈ post, ∀ j, b.start s.cntNew i ≤ j → j < s.cntNew i → b.home olds j ≠ some iPg)
        ∧ ∀ j, b.start s.cntNew iPg ≤ j → j < s.cntNew iPg →
          b.readCell olds pre iPg j = b.cells.getD j [] := by
  have hpacked := oldPacking_packed h0 (by omega) hl hc
  obtain ⟨hk, hlast, hmono⟩ := distribute_cuts hpacked hs
  obtain ⟨hsafe, hperm⟩ := updateOrder_safe hlast hmono (cntOld_le h0 hl hc) hk
  refine ⟨fun _ _ => editPages_eq hk, hperm, fun pre iPg post horder => ?_⟩
  rw [horder, List.reverse_append, List.reverse_cons, List.append_assoc, List.singleton_append] at hsafe
  have hedit := hsafe.at
  refine ⟨by simpa using hedit.left, by simpa using hedit.right, fun i hi j h1 h2 hh => ?_,
    fun j h1 h2 => ?_⟩
  · -- sibling `i` comes later, and would take a cell from an edited page
    obtain ⟨p1, p2, rfl⟩ := List.append_of_mem hi
    rw [List.reverse_append, List.reverse_cons, List.append_assoc, List.append_assoc,
      List.singleton_append] at hsafe
    exact hsafe.at.kept j iPg h1 h2 hh (by simp)
  · unfold readCell
    cases hh : b.home olds j with
    | none => rfl
    | some m =>
      have := hedit.kept j m h1 h2 hh
      rw [List.mem_reverse] at this
      dsimp only
      rw [if_neg (by tauto)]

end CellArray

/-- A leaf with cells of 125 bytes under the keys, and the last of them as an overflow cell at `ovfl`. -/
def wideLeaf (keys : List UInt8) (ovfl : List (Nat × UInt8)) : MemPage where
  leaf := true
  cells := keys.map fun k => kvLeafCell smallPages [k] 120 (List.replicate 120 0) 0
  right := 0
  ovfl := ovfl.map fun k => (k.1, kvLeafCell smallPages [k.2] 120 (List.replicate 120 0) 0)

def wideSiblings : CellArray where
  g := smallPages
  leaf := true
  cells := loadCells [wideLeaf [1] [], wideLeaf [2, 3, 5] [(2, 4)]] []

open CellArray in
/-- One cell on the left and four on the right are shared out between two leaves. -/
theorem updateOrder_never_overwrites_wide :
    ∃ s, wideSiblings.distribute (wideSiblings.oldPacking [wideLeaf [1] [], wideLeaf [2, 3, 5] [(2, 4)]])
        = .ok s
      ∧ (wideSiblings.updateOrder [wideLeaf [1] [], wideLeaf [2, 3, 5] [(2, 4)]] s.cntNew s.k).Perm
        (List.range s.k) := by
  have hok : (wideSiblings.distribute (wideSiblings.oldPacking
      [wideLeaf [1] [], wideLeaf [2, 3, 5] [(2, 4)]])).toBool = true := by decide +kernel
  cases hs : wideSiblings.distribute (wideSiblings.oldPacking
      [wideLeaf [1] [], wideLeaf [2, 3, 5] [(2, 4)]]) with
  | error e =>
    rw [hs] at hok
    cases hok
  | ok s =>
    exact ⟨s, rfl, (updateOrder_never_overwrites (by simp) (by simp) (by simp [wideLeaf, wideSiblings])
      (show wideSiblings.cells = loadCells _ [] from rfl) hs).2.1⟩

end Btreelite
