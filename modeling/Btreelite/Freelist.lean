import Btreelite.Shared
import Mathlib.Data.Finset.Card
import Mathlib.Order.Interval.Finset.Nat

/-!
# The freelist

`allocateBtreePage` and `freePage2`, and the ownership of pages they maintain: every page from 2
on other than the pending-byte page is on the freelist or belongs to somebody, never both. A trunk
page read as anything else is reported as corruption here, where the code would take its bytes for
a trunk.
-/

namespace Btreelite

open Prog

section Alloc

variable (g : Geometry)

/-- `sqlite3AbsInt32(a - b)`. -/
def absInt32Sub (a b : Nat) : Nat :=
  let x := (a + 2 ^ 32 - b) % 2 ^ 32
  if x < 2 ^ 31 then x else if x = 2 ^ 31 then 0x7fffffff else 2 ^ 32 - x

/-- The loop that looks for the leaf nearest to `nearby`, from leaf `i` on. -/
def closestFrom (nearby : Nat) : List Nat → Nat → Nat → Nat → Nat
  | [], _, closest, _ => closest
  | p :: ps, i, closest, dist =>
    let d2 := absInt32Sub p nearby
    if d2 < dist then closestFrom nearby ps (i + 1) i d2
    else closestFrom nearby ps (i + 1) closest dist

def closestLeaf (nearby : Nat) : List Nat → Nat
  | [] => 0
  | p :: ps => if nearby > 0 then closestFrom nearby ps 1 0 (absInt32Sub p nearby) else 0

/-- Leaf `closest` leaves the trunk: the last leaf takes its slot. -/
def removeLeaf (leaves : List Nat) (closest : Nat) : List Nat :=
  let k := leaves.length
  (if closest < k - 1 then leaves.set closest (leaves.getD (k - 1) 0) else leaves).take (k - 1)

/-- `allocateBtreePage` for `BTALLOC_ANY`, the only mode without auto-vacuum. -/
def allocateBtreePage (nearby : Nat) : BtM Nat := do
  let mxPage ← btreePagecount
  let h ← getPage1
  let n := h.nFree
  if n ≥ mxPage then throw .corrupt
  else if n > 0 then
    sqlite3PagerWrite 1
    setPage1 { h with nFree := n - 1 }
    let iTrunk := h.trunk
    if iTrunk > mxPage then throw .corrupt
    else
      match ← btreeGetUnusedPage g iTrunk false with
      | .trunk next leaves =>
        let k := leaves.length
        if k = 0 then
          sqlite3PagerWrite iTrunk
          setPage1 { h with nFree := n - 1, trunk := next }
          return iTrunk
        else if k > g.usableSize / 4 - 2 then throw .corrupt
        else
          let closest := closestLeaf nearby leaves
          let iPage := leaves.getD closest 0
          if iPage > mxPage ∨ iPage < 2 then throw .corrupt
          else
            sqlite3PagerWrite iTrunk
            setPage iTrunk (.trunk next (removeLeaf leaves closest))
            let hasContent ← btreeGetHasContent iPage
            let _ ← btreeGetUnusedPage g iPage !hasContent
            sqlite3PagerWrite iPage
            return iPage
      | _ => throw .corrupt
  else
    sqlite3PagerWrite 1
    let nPage := if mxPage + 1 = pendingBytePage g then mxPage + 2 else mxPage + 1
    setNPage nPage
    setPage1 { h with nPage }
    let _ ← btreeGetUnusedPage g nPage true
    sqlite3PagerWrite nPage
    return nPage

/-- `freePage2`. -/
def freePage2 (iPage : Nat) : BtM Unit := do
  let mxPage ← btreePagecount
  if iPage < 2 ∨ iPage > mxPage then throw .corrupt
  else
    sqlite3PagerWrite 1
    let h ← getPage1
    let nFree := h.nFree
    setPage1 { h with nFree := nFree + 1 }
    let newTrunk : Nat → BtM Unit := fun iTrunk => do
      let _ ← btreeGetPage g iPage
      sqlite3PagerWrite iPage
      setPage iPage (.trunk iTrunk [])
      setPage1 { h with nFree := nFree + 1, trunk := iPage }
    if nFree ≠ 0 then
      let iTrunk := h.trunk
      if iTrunk > mxPage then throw .corrupt
      else
        match ← btreeGetPage g iTrunk with
        | .trunk next leaves =>
          let nLeaf := leaves.length
          if nLeaf > g.usableSize / 4 - 2 then throw .corrupt
          else if nLeaf < g.usableSize / 4 - 8 then
            sqlite3PagerWrite iTrunk
            setPage iTrunk (.trunk next (leaves ++ [iPage]))
            sqlite3PagerDontWrite iPage
            btreeSetHasContent iPage
          else newTrunk iTrunk
        | _ => throw .corrupt
    else newTrunk 0

end Alloc

/-! ## Ownership -/

/-- `ts` lists the trunks from page `t` on, each with its leaves. -/
def FreeList (page : Nat → PageData) : Nat → List (Nat × List Nat) → Prop
  | t, [] => t = 0
  | t, (p, leaves) :: ts => t = p ∧ ∃ next, page p = .trunk next leaves ∧ FreeList page next ts

def freePages (ts : List (Nat × List Nat)) : List Nat := ts.flatMap fun t => t.1 :: t.2

/-- A page number that can be on the freelist or in use. -/
def InRange (g : Geometry) (n : Nat) (p : Nat) : Prop := 2 ≤ p ∧ p ≤ n ∧ p ≠ pendingBytePage g

/-- The freelist is `ts` and the pages in use, apart from page 1, are `R`. -/
structure OwnsWith (g : Geometry) (d : Db) (ts : List (Nat × List Nat)) (R : List Nat) :
    Prop where
  header : d.page 1 = .page1 d.page1
  trunks : FreeList d.page d.page1.trunk ts
  nFree : d.page1.nFree = (freePages ts).length
  nPage : d.page1.nPage = d.nPage
  leaves_le : ∀ t ∈ ts, t.2.length ≤ g.usableSize / 4 - 8
  nodup : (freePages ts ++ R).Nodup
  mem : ∀ p, p ∈ freePages ts ++ R ↔ InRange g d.nPage p
  one_le : 1 ≤ d.nPage
  le_mx : d.nPage ≤ mxPgno

/-- The pages in use, apart from page 1, are `R`, and the freelist holds the others. -/
def Owns (g : Geometry) (d : Db) (R : List Nat) : Prop := ∃ ts, OwnsWith g d ts R

section Ownership

variable {g : Geometry} {d d' : Db} {ts : List (Nat × List Nat)} {R R' : List Nat}

theorem mem_freePages_of_trunk {t : Nat × List Nat} (h : t ∈ ts) : t.1 ∈ freePages ts :=
  List.mem_flatMap.2 ⟨t, h, List.mem_cons_self⟩

theorem FreeList.congr {page page' : Nat → PageData} :
    ∀ {t : Nat} {ts : List (Nat × List Nat)}, (∀ x ∈ ts, page' x.1 = page x.1) →
      FreeList page t ts → FreeList page' t ts
  | _, [], _, h => h
  | _, (p, leaves) :: _, hp, ⟨h1, next, h2, h3⟩ =>
    ⟨h1, next, (hp (p, leaves) List.mem_cons_self).trans h2,
      h3.congr fun x hx => hp x (List.mem_cons_of_mem _ hx)⟩

theorem OwnsWith.inRange (h : OwnsWith g d ts R) {p : Nat} (hp : p ∈ freePages ts ++ R) :
    InRange g d.nPage p := (h.mem p).1 hp

theorem OwnsWith.trunk_notMem {t : Nat × List Nat} (h : OwnsWith g d (t :: ts) R)
    {x : Nat × List Nat} (hx : x ∈ ts) : x.1 ≠ t.1 := by
  have hnd := h.nodup
  simp only [freePages, List.flatMap_cons, List.cons_append, List.nodup_cons] at hnd
  rintro he
  refine hnd.1 ?_
  simp only [List.mem_append]
  exact Or.inl (Or.inr (he ▸ mem_freePages_of_trunk hx))

theorem OwnsWith.length_lt (h : OwnsWith g d ts R) : (freePages ts ++ R).length < d.nPage := by
  have hn := h.one_le
  have hsub : (freePages ts ++ R).toFinset ⊆ Finset.Icc 2 d.nPage := by
    intro p hp
    have := h.inRange (List.mem_toFinset.1 hp)
    exact Finset.mem_Icc.2 ⟨this.1, this.2.1⟩
  have hcard := Finset.card_le_card hsub
  rw [List.toFinset_card_of_nodup h.nodup, Nat.card_Icc] at hcard
  omega

theorem Owns.perm (h : Owns g d R) (hp : R.Perm R') : Owns g d R' := by
  obtain ⟨ts, h⟩ := h
  have hp' : (freePages ts ++ R).Perm (freePages ts ++ R') := hp.append_left _
  exact ⟨ts, { h with
    nodup := hp'.nodup_iff.1 h.nodup
    mem := fun p => hp'.mem_iff.symm.trans (h.mem p) }⟩

theorem Owns.nodup (h : Owns g d R) : R.Nodup := by
  obtain ⟨ts, h⟩ := h
  exact (List.nodup_append.1 h.nodup).2.1

theorem Owns.inRange (h : Owns g d R) {p : Nat} (hp : p ∈ R) : InRange g d.nPage p := by
  obtain ⟨ts, h⟩ := h
  exact h.inRange (List.mem_append_right _ hp)

theorem Owns.lt_two_pow (h : Owns g d R) {p : Nat} (hp : p ∈ R) : p < 2 ^ 32 := by
  have h1 := (h.inRange hp).2.1
  obtain ⟨ts, h⟩ := h
  have := h.le_mx
  simp only [mxPgno] at this
  omega

/-- Only the trunks and page 1 matter for who owns what. -/
theorem OwnsWith.congr (h : OwnsWith g d ts R) (h1 : d'.page 1 = d.page 1)
    (hn : d'.nPage = d.nPage) (hp : ∀ t ∈ ts, d'.page t.1 = d.page t.1) :
    OwnsWith g d' ts R := by
  have hh : d'.page1 = d.page1 := by simp only [Db.page1, h1]
  exact
    { header := by rw [h1, hh]; exact h.header
      trunks := by rw [hh]; exact h.trunks.congr hp
      nFree := by rw [hh]; exact h.nFree
      nPage := by rw [hh, hn]; exact h.nPage
      leaves_le := h.leaves_le
      nodup := h.nodup
      mem := by rw [hn]; exact h.mem
      one_le := by rw [hn]; exact h.one_le
      le_mx := by rw [hn]; exact h.le_mx }

/-- A page in use may be given any content. -/
theorem Owns.set (h : Owns g d R) {p : Nat} (hp : p ∈ R) (x : PageData) :
    Owns g (d.set p x) R := by
  obtain ⟨ts, h⟩ := h
  have h2 := (h.inRange (List.mem_append_right _ hp)).1
  refine ⟨ts, h.congr (d.set_page_of_ne _ _ (Nat.ne_of_lt h2)) rfl fun t ht => ?_⟩
  refine d.set_page_of_ne _ _ ?_
  rintro rfl
  exact (List.nodup_append.1 h.nodup).2.2 _ (mem_freePages_of_trunk ht) _ hp rfl

theorem InRange.ne_zero {n p : Nat} (h : InRange g n p) : p ≠ 0 := by
  have := h.1
  omega

theorem InRange.ne_one {n p : Nat} (h : InRange g n p) : p ≠ 1 := by
  have := h.1
  omega

theorem two_lt_pendingBytePage (g : Geometry) : 2 < pendingBytePage g := by
  have h1 := g.pageSize_le
  have h2 := g.pageSize_gt
  have h3 : 0x40000000 / 65536 ≤ 0x40000000 / g.pageSize :=
    Nat.div_le_div_left h1 (by omega)
  unfold pendingBytePage
  omega

/-- A database as `newDatabase` creates it: page 1 alone, with an empty freelist. -/
def newDb : Db where
  page p := if p = 1 then .page1 { nPage := 1, trunk := 0, nFree := 0 } else .raw
  nPage := 1

theorem owns_newDb (g : Geometry) : Owns g newDb [] :=
  ⟨[], {
    header := rfl
    trunks := rfl
    nFree := rfl
    nPage := rfl
    leaves_le := by simp
    nodup := by simp [freePages]
    mem := fun p => by
      simp only [freePages, List.flatMap_nil, List.append_nil, List.not_mem_nil, false_iff]
      rintro ⟨h1, h2, -⟩
      exact absurd h2 (Nat.not_le.2 h1)
    one_le := le_rfl
    le_mx := by decide }⟩

end Ownership

/-! ## Allocation -/

section AllocSpec

variable {g : Geometry} {d : Db} {ts : List (Nat × List Nat)} {R : List Nat}

theorem closestFrom_lt (nearby : Nat) :
    ∀ (ps : List Nat) (i closest dist : Nat), closest < i →
      closestFrom nearby ps i closest dist < i + ps.length
  | [], i, closest, dist, h => by simpa [closestFrom] using h
  | p :: ps, i, closest, dist, h => by
    simp only [closestFrom, List.length_cons]
    split_ifs
    · have := closestFrom_lt nearby ps (i + 1) i (absInt32Sub p nearby) (by omega)
      omega
    · have := closestFrom_lt nearby ps (i + 1) closest dist (by omega)
      omega

theorem closestLeaf_lt (nearby : Nat) {leaves : List Nat} (h : leaves ≠ []) :
    closestLeaf nearby leaves < leaves.length := by
  cases leaves with
  | nil => exact absurd rfl h
  | cons p ps =>
    simp only [closestLeaf, List.length_cons]
    split_ifs
    · have := closestFrom_lt nearby ps 1 0 (absInt32Sub p nearby) (by omega)
      omega
    · omega

theorem removeLeaf_perm {leaves : List Nat} {c : Nat} (hc : c < leaves.length) :
    (leaves.getD c 0 :: removeLeaf leaves c).Perm leaves := by
  obtain ⟨ls, x, rfl⟩ : ∃ ls x, leaves = ls ++ [x] :=
    ⟨_, _, (List.dropLast_append_getLast (List.ne_nil_of_length_pos (by omega))).symm⟩
  simp only [List.length_append, List.length_cons, List.length_nil] at hc
  have hx : (ls ++ [x]).getD ls.length 0 = x := by simp
  simp only [removeLeaf, List.length_append, List.length_cons, List.length_nil,
    Nat.add_sub_cancel, Nat.zero_add, hx]
  split_ifs with h
  · -- the last leaf moves into slot `c`
    have hset : (ls ++ [x]).set c x = ls.set c x ++ [x] := List.set_append_left _ _ h
    rw [hset, List.take_left' (by simp), List.getD_eq_getElem?_getD,
      List.getElem?_append_left h, List.getElem?_eq_getElem h, Option.getD_some]
    have h1 : ls.Perm (ls[c] :: ls.eraseIdx c) := (List.getElem_cons_eraseIdx_perm h).symm
    have h2 : (ls.set c x).Perm (x :: ls.eraseIdx c) := List.set_perm_cons_eraseIdx h x
    refine (h2.cons _).trans ((List.Perm.swap _ _ _).trans ?_)
    exact (h1.symm.cons x).trans (List.perm_append_singleton x ls).symm
  · obtain rfl : c = ls.length := by omega
    rw [hx, List.take_left]
    exact (List.perm_append_singleton x ls).symm

theorem removeLeaf_length {leaves : List Nat} {c : Nat} (hc : c < leaves.length) :
    (removeLeaf leaves c).length = leaves.length - 1 := by
  have := (removeLeaf_perm hc).length_eq
  rw [List.length_cons] at this
  omega

theorem OwnsWith.cons_of_pos (h : OwnsWith g d ts R) (hn : 0 < d.page1.nFree) :
    ∃ next leaves ts', ts = (d.page1.trunk, leaves) :: ts'
      ∧ d.page d.page1.trunk = .trunk next leaves ∧ FreeList d.page next ts' := by
  have htr := h.trunks
  rcases ts with _ | ⟨⟨t, leaves⟩, ts'⟩
  · have := h.nFree
    simp only [freePages, List.flatMap_nil, List.length_nil] at this
    omega
  · obtain ⟨rfl, next, h1, h2⟩ := htr
    exact ⟨next, leaves, ts', rfl, h1, h2⟩

/-- Pages that move between the freelist and their users leave the database partitioned. -/
theorem OwnsWith.of_perm (h : OwnsWith g d ts R) {d' : Db} {ts' : List (Nat × List Nat)}
    {R' : List Nat} (hh : d'.page 1 = .page1 d'.page1) (hn : d'.nPage = d.nPage)
    (hp1 : d'.page1.nPage = d.page1.nPage) (htr : FreeList d'.page d'.page1.trunk ts')
    (hnF : d'.page1.nFree = (freePages ts').length)
    (hle : ∀ t ∈ ts', t.2.length ≤ g.usableSize / 4 - 8)
    (hp : (freePages ts' ++ R').Perm (freePages ts ++ R)) : OwnsWith g d' ts' R' where
  header := hh
  trunks := htr
  nFree := hnF
  nPage := by rw [hp1, hn]; exact h.nPage
  leaves_le := hle
  nodup := hp.nodup_iff.2 h.nodup
  mem p := by rw [hn]; exact hp.mem_iff.trans (h.mem p)
  one_le := by rw [hn]; exact h.one_le
  le_mx := by rw [hn]; exact h.le_mx

theorem page1_set_one (d : Db) (h : Page1) : (d.set 1 (.page1 h)).page1 = h := by
  simp [Db.page1]

theorem page1_set_of_ne (d : Db) {p : Nat} (hp : p ≠ 1) (x : PageData) :
    (d.set p x).page1 = d.page1 := by
  simp only [Db.page1, d.set_page_of_ne p x hp.symm]

/-- The trunk without leaves is itself the page allocated. -/
theorem OwnsWith.take_trunk {next : Nat} {ts' : List (Nat × List Nat)}
    (h : OwnsWith g d ((d.page1.trunk, []) :: ts') R) (hnext : FreeList d.page next ts') :
    OwnsWith g (d.set 1 (.page1 { d.page1 with nFree := d.page1.nFree - 1, trunk := next })) ts'
      (d.page1.trunk :: R) := by
  have hnF := h.nFree
  simp only [freePages, List.flatMap_cons, List.length_append, List.length_cons,
    List.length_nil] at hnF
  refine h.of_perm ?_ rfl ?_ ?_ ?_ (fun t ht => h.leaves_le t (List.mem_cons_of_mem _ ht)) ?_
  · rw [page1_set_one, Db.set_page_self]
  · rw [page1_set_one]
  · rw [page1_set_one]
    refine hnext.congr fun t ht => d.set_page_of_ne _ _ ?_
    exact (h.inRange (List.mem_append_left _
      (mem_freePages_of_trunk (List.mem_cons_of_mem _ ht)))).ne_one
  · rw [page1_set_one]
    simp only [freePages]
    omega
  · simp only [freePages, List.flatMap_cons, List.cons_append, List.nil_append]
    exact List.perm_middle

/-- A leaf leaves its trunk. -/
theorem OwnsWith.take_leaf {next c : Nat} {leaves : List Nat} {ts' : List (Nat × List Nat)}
    (h : OwnsWith g d ((d.page1.trunk, leaves) :: ts') R) (hnext : FreeList d.page next ts')
    (hc : c < leaves.length) :
    OwnsWith g ((d.set 1 (.page1 { d.page1 with nFree := d.page1.nFree - 1 })).set d.page1.trunk
        (.trunk next (removeLeaf leaves c))) ((d.page1.trunk, removeLeaf leaves c) :: ts')
      (leaves.getD c 0 :: R) := by
  have hnF := h.nFree
  have hl := removeLeaf_length hc
  have ht : InRange g d.nPage d.page1.trunk :=
    h.inRange (List.mem_append_left _ (mem_freePages_of_trunk List.mem_cons_self))
  have hp1 := ht.ne_one
  simp only [freePages, List.flatMap_cons, List.length_append, List.length_cons] at hnF
  refine h.of_perm ?_ rfl ?_ ?_ ?_ ?_ ?_
  · rw [page1_set_of_ne _ hp1, page1_set_one, Db.set_page_of_ne _ _ _ hp1.symm, Db.set_page_self]
  · rw [page1_set_of_ne _ hp1, page1_set_one]
  · rw [page1_set_of_ne _ hp1, page1_set_one]
    refine ⟨rfl, next, Db.set_page_self _ _ _, hnext.congr fun t ht => ?_⟩
    rw [Db.set_page_of_ne _ _ _ (h.trunk_notMem ht), Db.set_page_of_ne]
    exact (h.inRange (List.mem_append_left _
      (mem_freePages_of_trunk (List.mem_cons_of_mem _ ht)))).ne_one
  · rw [page1_set_of_ne _ hp1, page1_set_one]
    simp only [freePages, List.flatMap_cons, List.length_append, List.length_cons, hl]
    omega
  · rintro t (_ | ⟨_, ht⟩)
    · have := h.leaves_le _ List.mem_cons_self
      simp only [hl] at this ⊢
      omega
    · exact h.leaves_le _ (List.mem_cons_of_mem _ ht)
  · have hperm := removeLeaf_perm hc
    simp only [freePages, List.flatMap_cons, List.cons_append, List.append_assoc]
    refine List.Perm.cons _ ?_
    have h1 : (removeLeaf leaves c ++ (freePages ts' ++ leaves.getD c 0 :: R)).Perm
        (leaves.getD c 0 :: (removeLeaf leaves c ++ (freePages ts' ++ R))) := by
      rw [← List.append_assoc, ← List.append_assoc]
      exact List.perm_middle
    exact h1.trans (hperm.append_right (freePages ts' ++ R))

/-- The page after the last one, past the pending-byte page. -/
def nextPage (g : Geometry) (n : Nat) : Nat := if n + 1 = pendingBytePage g then n + 2 else n + 1

/-- A page is added at the end. -/
theorem OwnsWith.extend (h : OwnsWith g d ts R) (hle : nextPage g d.nPage ≤ mxPgno) (x : PageData) :
    OwnsWith g (({ d with nPage := nextPage g d.nPage }.set 1
        (.page1 { d.page1 with nPage := nextPage g d.nPage })).set (nextPage g d.nPage) x) ts
      (nextPage g d.nPage :: R) := by
  have hone := h.one_le
  have hpb := two_lt_pendingBytePage g
  have hgt : d.nPage < nextPage g d.nPage := by
    unfold nextPage
    split_ifs <;> omega
  have hin : ∀ p, InRange g (nextPage g d.nPage) p ↔ p = nextPage g d.nPage ∨ InRange g d.nPage p := by
    intro p
    unfold InRange nextPage
    split_ifs <;> omega
  have hne : nextPage g d.nPage ≠ 1 := by omega
  have hfree : ∀ t ∈ ts, t.1 ≠ nextPage g d.nPage ∧ t.1 ≠ 1 := by
    intro t ht
    have := h.inRange (List.mem_append_left _ (mem_freePages_of_trunk ht))
    exact ⟨by have := this.2.1; omega, this.ne_one⟩
  exact
    { header := by
        rw [page1_set_of_ne _ hne, page1_set_one, Db.set_page_of_ne _ _ _ hne.symm,
          Db.set_page_self]
      trunks := by
        rw [page1_set_of_ne _ hne, page1_set_one]
        refine h.trunks.congr fun p hp => ?_
        rw [Db.set_page_of_ne _ _ _ (hfree p hp).1, Db.set_page_of_ne _ _ _ (hfree p hp).2]
      nFree := by
        rw [page1_set_of_ne _ hne, page1_set_one]
        exact h.nFree
      nPage := by
        rw [page1_set_of_ne _ hne, page1_set_one]
        rfl
      leaves_le := h.leaves_le
      nodup := by
        refine List.perm_middle.nodup_iff.2 (List.nodup_cons.2 ⟨fun hp => ?_, h.nodup⟩)
        have := (h.inRange hp).2.1
        omega
      mem := fun p => by
        rw [List.perm_middle.mem_iff, List.mem_cons, h.mem p]
        exact (hin p).symm
      one_le := by
        have : nextPage g d.nPage ≥ 1 := by omega
        exact this
      le_mx := hle }

/-- A page taken from the freelist, or a new one at the end, is nobody else's, is not the
pending-byte page and lies inside the database; the pages in use keep their content. -/
theorem allocateBtreePage_does (h : Owns g d R) (nearby : Nat) :
    Does (allocateBtreePage g nearby) d
      (fun p d' => Owns g d' (p :: R) ∧ ∀ q ∈ R, d'.page q = d.page q)
      (fun e _ => e.isFault = true) := by
  obtain ⟨ts, h⟩ := h
  have hlen := h.length_lt
  have hnF := h.nFree
  refine btreePagecount_does.bind ?_
  rintro _ _ ⟨rfl, rfl⟩
  refine getPage1_does.bind ?_
  rintro _ _ ⟨rfl, rfl⟩
  rw [List.length_append] at hlen
  refine Ensures.ite (fun hge => by omega) fun _ => ?_
  refine Ensures.ite (fun hpos => ?_) fun hzero => ?_
  · obtain ⟨next, leaves, ts', rfl, htrunk, hnext⟩ := h.cons_of_pos hpos
    have hin : InRange g d.nPage d.page1.trunk :=
      h.inRange (List.mem_append_left _ (mem_freePages_of_trunk List.mem_cons_self))
    have hne1 := hin.ne_one
    refine (sqlite3PagerWrite_does 1 (by simp)).bind ?_
    rintro _ _ rfl
    refine (setPage1_does _).bind ?_
    rintro _ _ rfl
    refine Ensures.ite (fun hgt => absurd hin.2.1 (Nat.not_le.2 hgt)) fun _ => ?_
    refine (btreeGetUnusedPage_does hin.ne_zero hin.2.2 (by simp)).bind ?_
    rintro x _ ⟨hx, -⟩
    obtain ⟨rfl, rfl⟩ := hx rfl
    rw [Db.set_page_of_ne _ _ _ hne1, htrunk]
    refine Ensures.ite (fun hk => ?_) fun hk => ?_
    · obtain rfl := List.length_eq_zero_iff.1 hk
      refine (sqlite3PagerWrite_does _ (by simp)).bind ?_
      rintro _ _ rfl
      refine (setPage1_does _).bind ?_
      rintro _ _ rfl
      rw [Db.set_set]
      refine Ensures.pure ⟨⟨ts', h.take_trunk hnext⟩, fun q hq => d.set_page_of_ne _ _ ?_⟩
      exact (h.inRange (List.mem_append_right _ hq)).ne_one
    · have hc := closestLeaf_lt nearby (List.ne_nil_of_length_pos (Nat.pos_of_ne_zero hk))
      have hle := h.leaves_le _ List.mem_cons_self
      have howns := h.take_leaf hnext hc
      have hpage : InRange g d.nPage (leaves.getD (closestLeaf nearby leaves) 0) :=
        howns.inRange (List.mem_append_right _ List.mem_cons_self)
      have hkeep : ∀ q ∈ R, ((d.set 1 (.page1 { d.page1 with nFree := d.page1.nFree - 1 })).set
          d.page1.trunk (.trunk next (removeLeaf leaves (closestLeaf nearby leaves)))).page q
            = d.page q := by
        intro q hq
        rw [Db.set_page_of_ne, Db.set_page_of_ne]
        · exact (h.inRange (List.mem_append_right _ hq)).ne_one
        · rintro rfl
          exact (List.nodup_append.1 h.nodup).2.2 _ (mem_freePages_of_trunk List.mem_cons_self) _
            hq rfl
      refine Ensures.ite (fun hgt => ?_) fun _ => ?_
      · simp only [] at hle
        omega
      refine Ensures.ite (fun hbad => ?_) fun _ => ?_
      · have h1 := hpage.1
        have h2 := hpage.2.1
        omega
      refine (sqlite3PagerWrite_does _ (by simp)).bind ?_
      rintro _ _ rfl
      refine (setPage_does _ _).bind ?_
      rintro _ _ rfl
      refine (btreeGetHasContent_does _).bind ?_
      rintro b _ rfl
      refine (btreeGetUnusedPage_does hpage.ne_zero hpage.2.2 (by simp)).bind ?_
      rintro x d' hx
      refine (sqlite3PagerWrite_does _ (by simp)).bind ?_
      rintro _ _ rfl
      refine Ensures.pure ?_
      cases b with
      | true =>
        obtain ⟨rfl, -⟩ := hx.1 rfl
        exact ⟨⟨_, howns⟩, hkeep⟩
      | false =>
        obtain ⟨rfl, -⟩ := hx.2 rfl
        refine ⟨Owns.set ⟨_, howns⟩ List.mem_cons_self _, fun q hq => ?_⟩
        rw [Db.set_page_of_ne, hkeep q hq]
        rintro rfl
        exact (List.nodup_cons.1 (Owns.nodup ⟨_, howns⟩)).1 hq
  · refine (sqlite3PagerWrite_does 1 (by simp)).bind ?_
    rintro _ _ rfl
    refine (setNPage_does _).bind ?_
    rintro _ _ rfl
    refine (setPage1_does _).bind ?_
    rintro _ _ rfl
    have hpb := two_lt_pendingBytePage g
    have hone := h.one_le
    change Does (btreeGetUnusedPage g (nextPage g d.nPage) true >>= _) _ _ _
    have h0 : nextPage g d.nPage ≠ 0 ∧ nextPage g d.nPage ≠ pendingBytePage g
        ∧ d.nPage < nextPage g d.nPage := by
      unfold nextPage
      split_ifs <;> omega
    refine (btreeGetUnusedPage_does h0.1 h0.2.1 (by simp)).bind ?_
    rintro x _ ⟨-, hx⟩
    obtain ⟨rfl, hle⟩ := hx rfl
    refine (sqlite3PagerWrite_does _ (by simp)).bind ?_
    rintro _ _ rfl
    refine Ensures.pure ⟨⟨ts, h.extend hle .raw⟩, fun q hq => ?_⟩
    have hq' := h.inRange (List.mem_append_right _ hq)
    have h2 := hq'.2.1
    rw [Db.set_page_of_ne _ _ _ (by omega), Db.set_page_of_ne _ _ _ hq'.ne_one]

end AllocSpec

/-! ## Freeing -/

section FreeSpec

variable {g : Geometry} {d : Db} {ts : List (Nat × List Nat)} {R : List Nat}

/-- The freed page becomes the first trunk. -/
theorem OwnsWith.push_trunk {p : Nat} (h : OwnsWith g d ts (p :: R)) :
    OwnsWith g ((d.set p (.trunk d.page1.trunk [])).set 1
        (.page1 { d.page1 with nFree := d.page1.nFree + 1, trunk := p })) ((p, []) :: ts) R := by
  have hin := h.inRange (List.mem_append_right _ List.mem_cons_self)
  have hne := hin.ne_one
  refine h.of_perm ?_ rfl ?_ ?_ ?_ ?_ ?_
  · rw [page1_set_one, Db.set_page_self]
  · rw [page1_set_one]
  · rw [page1_set_one]
    refine ⟨rfl, d.page1.trunk, ?_, h.trunks.congr fun q hq => ?_⟩
    · rw [Db.set_page_of_ne _ _ _ hne, Db.set_page_self]
    · have hq' := mem_freePages_of_trunk hq
      rw [Db.set_page_of_ne _ _ _ (h.inRange (List.mem_append_left _ hq')).ne_one,
        Db.set_page_of_ne]
      rintro rfl
      exact (List.nodup_append.1 h.nodup).2.2 _ hq' _ List.mem_cons_self rfl
  · rw [page1_set_one, h.nFree]
    simp only [freePages, List.flatMap_cons, List.length_append, List.length_cons,
      List.length_nil]
    omega
  · rintro t (_ | ⟨_, ht⟩)
    · simp
    · exact h.leaves_le t ht
  · simp only [freePages, List.flatMap_cons, List.cons_append, List.nil_append]
    exact List.perm_middle.symm

/-- The freed page becomes a leaf of the first trunk. -/
theorem OwnsWith.push_leaf {p next : Nat} {leaves : List Nat} {ts' : List (Nat × List Nat)}
    (h : OwnsWith g d ((d.page1.trunk, leaves) :: ts') (p :: R))
    (hnext : FreeList d.page next ts') (hlt : leaves.length < g.usableSize / 4 - 8) :
    OwnsWith g ((d.set 1 (.page1 { d.page1 with nFree := d.page1.nFree + 1 })).set d.page1.trunk
        (.trunk next (leaves ++ [p]))) ((d.page1.trunk, leaves ++ [p]) :: ts') R := by
  have ht : InRange g d.nPage d.page1.trunk :=
    h.inRange (List.mem_append_left _ (mem_freePages_of_trunk List.mem_cons_self))
  have hp1 := ht.ne_one
  refine h.of_perm ?_ rfl ?_ ?_ ?_ ?_ ?_
  · rw [page1_set_of_ne _ hp1, page1_set_one, Db.set_page_of_ne _ _ _ hp1.symm, Db.set_page_self]
  · rw [page1_set_of_ne _ hp1, page1_set_one]
  · rw [page1_set_of_ne _ hp1, page1_set_one]
    refine ⟨rfl, next, Db.set_page_self _ _ _, hnext.congr fun t ht => ?_⟩
    rw [Db.set_page_of_ne _ _ _ (h.trunk_notMem ht), Db.set_page_of_ne]
    exact (h.inRange (List.mem_append_left _
      (mem_freePages_of_trunk (List.mem_cons_of_mem _ ht)))).ne_one
  · have hnF := h.nFree
    rw [page1_set_of_ne _ hp1, page1_set_one]
    simp only [freePages, List.flatMap_cons, List.length_append, List.length_cons,
      List.length_nil] at hnF ⊢
    omega
  · rintro t (_ | ⟨_, ht⟩)
    · simp only [List.length_append, List.length_cons, List.length_nil]
      omega
    · exact h.leaves_le _ (List.mem_cons_of_mem _ ht)
  · simp only [freePages, List.flatMap_cons, List.cons_append, List.append_assoc]
    refine List.Perm.cons _ (List.Perm.append_left _ ?_)
    simp only [List.nil_append]
    exact List.perm_middle.symm

/-- A page given back joins the freelist; the pages still in use keep their content. -/
theorem freePage2_does {p : Nat} (h : Owns g d (p :: R)) :
    Does (freePage2 g p) d (fun _ d' => Owns g d' R ∧ ∀ q ∈ R, d'.page q = d.page q)
      (fun e _ => e.isFault = true) := by
  obtain ⟨ts, h⟩ := h
  have hin := h.inRange (List.mem_append_right _ List.mem_cons_self)
  have hnd := (List.nodup_append.1 h.nodup).2.1
  have hR : ∀ q ∈ R, q ≠ 1 ∧ q ≠ p := fun q hq =>
    ⟨(h.inRange (List.mem_append_right _ (List.mem_cons_of_mem _ hq))).ne_one, by
      rintro rfl
      exact (List.nodup_cons.1 hnd).1 hq⟩
  -- both ways the page can become a trunk
  have htrunk : Does (do
      let _ ← btreeGetPage g p
      sqlite3PagerWrite p
      setPage p (.trunk d.page1.trunk [])
      setPage1 { d.page1 with nFree := d.page1.nFree + 1, trunk := p })
      (d.set 1 (.page1 { d.page1 with nFree := d.page1.nFree + 1 }))
      (fun _ d' => Owns g d' R ∧ ∀ q ∈ R, d'.page q = d.page q) (fun e _ => e.isFault = true) := by
    refine (btreeGetPage_does hin.ne_zero hin.2.2 (by simp)).bind ?_
    rintro _ _ ⟨rfl, -⟩
    refine (sqlite3PagerWrite_does _ (by simp)).bind ?_
    rintro _ _ rfl
    refine (setPage_does _ _).bind ?_
    rintro _ _ rfl
    refine (setPage1_does _).post ?_
    rintro _ _ rfl
    have hcomm : ((d.set 1 (.page1 { d.page1 with nFree := d.page1.nFree + 1 })).set p
        (.trunk d.page1.trunk [])).set 1
          (.page1 { d.page1 with nFree := d.page1.nFree + 1, trunk := p })
        = (d.set p (.trunk d.page1.trunk [])).set 1
          (.page1 { d.page1 with nFree := d.page1.nFree + 1, trunk := p }) := by
      ext q
      · by_cases hq : q = 1
        · subst hq
          rw [Db.set_page_self, Db.set_page_self]
        · rw [Db.set_page_of_ne _ _ _ hq, Db.set_page_of_ne _ _ _ hq]
          by_cases hqp : q = p
          · subst hqp
            rw [Db.set_page_self, Db.set_page_self]
          · rw [Db.set_page_of_ne _ _ _ hqp, Db.set_page_of_ne _ _ _ hqp,
              Db.set_page_of_ne _ _ _ hq]
      · rfl
    rw [hcomm]
    refine ⟨⟨_, h.push_trunk⟩, fun q hq => ?_⟩
    rw [Db.set_page_of_ne _ _ _ (hR q hq).1, Db.set_page_of_ne _ _ _ (hR q hq).2]
  refine btreePagecount_does.bind ?_
  rintro _ _ ⟨rfl, rfl⟩
  rw [if_neg (by have h1 := hin.1; have h2 := hin.2.1; omega)]
  refine (sqlite3PagerWrite_does 1 (by simp)).bind ?_
  rintro _ _ rfl
  refine getPage1_does.bind ?_
  rintro _ _ ⟨rfl, rfl⟩
  refine (setPage1_does _).bind ?_
  rintro _ _ rfl
  refine Ensures.ite (fun hne => ?_) fun h0 => ?_
  · obtain ⟨next, leaves, ts', rfl, htr, hnext⟩ := h.cons_of_pos (by omega)
    have htin : InRange g d.nPage d.page1.trunk :=
      h.inRange (List.mem_append_left _ (mem_freePages_of_trunk List.mem_cons_self))
    have hle := h.leaves_le _ List.mem_cons_self
    simp only [] at hle
    refine Ensures.ite (fun hgt => absurd htin.2.1 (Nat.not_le.2 hgt)) fun _ => ?_
    refine (btreeGetPage_does htin.ne_zero htin.2.2 (by simp)).bind ?_
    rintro _ _ ⟨rfl, rfl⟩
    rw [Db.set_page_of_ne _ _ _ htin.ne_one, htr]
    refine Ensures.ite (fun hgt => by omega) fun _ => ?_
    refine Ensures.ite (fun hlt => ?_) fun _ => htrunk
    have howns := h.push_leaf hnext hlt
    have hpt : p ≠ d.page1.trunk := by
      rintro rfl
      exact (List.nodup_append.1 h.nodup).2.2 _ (mem_freePages_of_trunk List.mem_cons_self) _
        List.mem_cons_self rfl
    have hkeep : ∀ q ∈ R, ((d.set 1 (.page1 { d.page1 with nFree := d.page1.nFree + 1 })).set
        d.page1.trunk (.trunk next (leaves ++ [p]))).page q = d.page q := by
      intro q hq
      rw [Db.set_page_of_ne, Db.set_page_of_ne _ _ _ (hR q hq).1]
      rintro rfl
      exact (List.nodup_append.1 h.nodup).2.2 _ (mem_freePages_of_trunk List.mem_cons_self) _
        (List.mem_cons_of_mem _ hq) rfl
    refine (sqlite3PagerWrite_does _ (by simp)).bind ?_
    rintro _ _ rfl
    refine (setPage_does _ _).bind ?_
    rintro _ _ rfl
    refine (sqlite3PagerDontWrite_does _).bind ?_
    rintro _ d' hd'
    refine (btreeSetHasContent_does _ (by simp)).post ?_
    rintro _ _ rfl
    -- the content of the leaf itself is nobody's concern
    rcases hd' with rfl | rfl
    · exact ⟨⟨_, howns⟩, hkeep⟩
    · refine ⟨⟨_, howns.congr (Db.set_page_of_ne _ _ _ hin.ne_one.symm) rfl fun t ht => ?_⟩,
        fun q hq => ?_⟩
      · refine Db.set_page_of_ne _ _ _ ?_
        intro htp
        rcases List.mem_cons.1 ht with rfl | ht
        · exact hpt htp.symm
        · exact (List.nodup_append.1 h.nodup).2.2 _
            (mem_freePages_of_trunk (List.mem_cons_of_mem _ ht)) _ List.mem_cons_self htp
      · rw [Db.set_page_of_ne _ _ _ (hR q hq).2, hkeep q hq]
  · have hts : d.page1.trunk = 0 := by
      have hnF := h.nFree
      have htr := h.trunks
      rcases ts with _ | ⟨⟨t, leaves⟩, ts'⟩
      · exact htr
      · simp only [freePages, List.flatMap_cons, List.length_append, List.length_cons] at hnF
        omega
    rw [← hts]
    exact htrunk

end FreeSpec

end Btreelite
