import Btreelite.BinaryHeap
import Btreelite.PageLayout

/-!
# Coverage of a page

`checkTreePage` puts the cells and the free blocks of a page on a heap, each packed into one number as its
first and its last byte, and pulls them in order: a block that begins before the last one ended is a byte
used twice, and what is between two blocks is a fragment.

The heap is an array whose entry 0 is the number of its entries.
-/

namespace Btreelite

open Function BinaryHeap Tiling

abbrev AHeap := ℕ → ℕ

/-- The loop of `btreeHeapInsert`. -/
def siftUp : ℕ → AHeap → ℕ → AHeap
  | 0, aHeap, _ => aHeap
  | fuel + 1, aHeap, i =>
    let j := i / 2
    if 0 < j ∧ aHeap i < aHeap j then siftUp fuel (swap aHeap i j) j else aHeap

def btreeHeapInsert (aHeap : AHeap) (x : ℕ) : AHeap :=
  let i := aHeap 0 + 1
  siftUp i (update (update aHeap 0 i) i x) i

/-- The loop of `btreeHeapPull`. -/
def siftDown : ℕ → AHeap → ℕ → AHeap
  | 0, aHeap, _ => aHeap
  | fuel + 1, aHeap, i =>
    let j := i * 2
    if j ≤ aHeap 0 then
      let j := if aHeap (j + 1) < aHeap j then j + 1 else j
      if aHeap i < aHeap j then aHeap else siftDown fuel (swap aHeap i j) j
    else aHeap

/-- `none` when the heap is empty. -/
def btreeHeapPull (aHeap : AHeap) : Option (ℕ × AHeap) :=
  let x := aHeap 0
  if x = 0 then none
  else
    let pOut := aHeap 1
    let aHeap := update aHeap 1 (aHeap x)
    let aHeap := update aHeap x 0xffffffff
    let aHeap := update aHeap 0 (x - 1)
    some (pOut, siftDown x aHeap 1)

/-- The texts of the two errors, with their arguments. -/
inductive CoverageErr
  /-- Multiple uses for byte %u of page %u -/
  | multipleUses (byte iPage : ℕ)
  /-- Fragmentation of %u bytes reported as %u on page %u -/
  | fragmentation (nFrag reported iPage : ℕ)
  deriving DecidableEq

structure IntegrityCk where
  mxErr : ℕ
  nErr : ℕ
  errMsg : List CoverageErr

def IntegrityCk.checkAppendMsg (pCheck : IntegrityCk) (msg : CoverageErr) : IntegrityCk :=
  if pCheck.mxErr = 0 then pCheck
  else ⟨pCheck.mxErr - 1, pCheck.nErr + 1, pCheck.errMsg ++ [msg]⟩

/-- The loop that pulls the entries; it ends with the heap, the errors, `prev` and `nFrag`. -/
def sweepHeap (iPage : ℕ) : ℕ → AHeap → IntegrityCk → ℕ → ℕ → AHeap × IntegrityCk × ℕ × ℕ
  | 0, heap, pCheck, prev, nFrag => (heap, pCheck, prev, nFrag)
  | fuel + 1, heap, pCheck, prev, nFrag =>
    match btreeHeapPull heap with
    | none => (heap, pCheck, prev, nFrag)
    | some (x, heap) =>
      if x >>> 16 ≤ prev &&& 0xffff then
        (heap, pCheck.checkAppendMsg (.multipleUses (x >>> 16) iPage), prev, nFrag)
      else sweepHeap iPage fuel heap pCheck x (nFrag + (x >>> 16 - (prev &&& 0xffff) - 1))

/-- The analysis of the heap, once it has all the entries. -/
def analyzeHeap (contentOffset usableSize reported iPage : ℕ) (heap : AHeap) (pCheck : IntegrityCk) :
    IntegrityCk :=
  let (heap, pCheck, prev, nFrag) := sweepHeap iPage (heap 0 + 1) heap pCheck (contentOffset - 1) 0
  let nFrag := nFrag + (usableSize - (prev &&& 0xffff) - 1)
  if heap 0 = 0 ∧ nFrag ≠ reported then pCheck.checkAppendMsg (.fragmentation nFrag reported iPage)
  else pCheck

/-- The entry for the block of `size` bytes at `pc`. -/
def packEntry (pc size : ℕ) : ℕ := pc <<< 16 ||| (pc + size - 1)

namespace RawPage

open ByteBuffer

variable (g : Geometry) (p : RawPage)

/-- The cells are put on the heap from the last one on. -/
def insertCells : ℕ → AHeap → AHeap
  | 0, heap => heap
  | i + 1, heap =>
    let pc := get2 p.aData (p.cellOffset + 2 * i)
    let size := xCellSize g p.leaf (cellMemory g p.aData pc)
    insertCells i (btreeHeapInsert heap (packEntry pc size))

/-- The loop that adds the free blocks. -/
def insertFreeblocks : ℕ → ℕ → AHeap → AHeap
  | 0, _, heap => heap
  | fuel + 1, i, heap =>
    if i = 0 then heap
    else
      let size := get2 p.aData (i + 2)
      insertFreeblocks fuel (get2 p.aData i) (btreeHeapInsert heap (packEntry i size))

/-- The coverage check of `checkTreePage`, with `doCoverageCheck` set. -/
def checkCoverage (iPage : ℕ) (heap : AHeap) (pCheck : IntegrityCk) : IntegrityCk :=
  let hdr := p.hdrOffset
  let contentOffset := if get2 p.aData (hdr + 5) = 0 then 65536 else get2 p.aData (hdr + 5)
  if pCheck.mxErr = 0 then pCheck
  else
    let heap := insertCells g p p.nCell (update heap 0 0)
    let heap := insertFreeblocks p g.usableSize (get2 p.aData (hdr + 1)) heap
    analyzeHeap contentOffset g.usableSize (p.aData (hdr + 7)).toNat iPage heap pCheck

end RawPage

/-! ## The heap -/

section Heap

variable {aHeap : AHeap} {fuel i x : ℕ} {l : List ℕ}

theorem siftUp_does : ∀ (fuel : ℕ) {aHeap : AHeap} {i n : ℕ}, i ≤ fuel → 1 ≤ i → i ≤ n → aHeap 0 = n →
    UpOrder aHeap n i → Ordered (siftUp fuel aHeap i) n ∧ siftUp fuel aHeap i 0 = n
      ∧ entries (siftUp fuel aHeap i) n = entries aHeap n
  | 0, _, _, _, hf, h1, _, _, _ => by omega
  | fuel + 1, aHeap, i, n, hf, h1, hn, h0, hu => by
    unfold siftUp
    by_cases hc : 0 < i / 2 ∧ aHeap i < aHeap (i / 2)
    · rw [if_pos hc]
      have h0' : swap aHeap i (i / 2) 0 = n := (swap_of_ne (by omega) (by omega)).trans h0
      obtain ⟨h2, h3, h4⟩ := siftUp_does fuel (by omega) hc.1 (by omega) h0'
        (hu.swap (by omega) hn hc.2)
      exact ⟨h2, h3, h4.trans (entries_swap h1 hn hc.1 (by omega))⟩
    · rw [if_neg hc]
      refine ⟨hu.ordered fun h2 => ?_, h0, rfl⟩
      exact not_lt.1 fun hlt => hc ⟨by omega, hlt⟩

theorem siftDown_does : ∀ (fuel : ℕ) {aHeap : AHeap} {i n : ℕ}, n < i + fuel → 1 ≤ i → aHeap 0 = n →
    DownOrder aHeap n i → (∀ k, 1 ≤ k → k ≤ n → aHeap k ≤ aHeap (n + 1)) →
    Ordered (siftDown fuel aHeap i) n ∧ siftDown fuel aHeap i 0 = n
      ∧ entries (siftDown fuel aHeap i) n = entries aHeap n
  | 0, aHeap, i, n, hf, h1, h0, hd, _ => by
    refine ⟨hd.ordered fun k hk hn hki => ?_, h0, rfl⟩
    omega
  | fuel + 1, aHeap, i, n, hf, h1, h0, hd, hs => by
    unfold siftDown
    simp only [h0]
    by_cases hc : i * 2 ≤ n
    · rw [if_pos hc]
      -- the smaller child, which is not behind the last entry
      obtain ⟨j, hj⟩ : ∃ j, j = if aHeap (i * 2 + 1) < aHeap (i * 2) then i * 2 + 1 else i * 2 := ⟨_, rfl⟩
      have hj2 : j / 2 = i ∧ j ≤ n ∧ aHeap j ≤ aHeap (i * 2) ∧ aHeap j ≤ aHeap (i * 2 + 1) := by
        split_ifs at hj with hlt
        · have hne : i * 2 ≠ n := fun he => absurd (hs (i * 2) (by omega) hc) (not_le.2 (he ▸ hlt))
          rw [hj]
          exact ⟨by omega, by omega, hlt.le, le_rfl⟩
        · rw [hj]
          exact ⟨by omega, hc, le_rfl, not_lt.1 hlt⟩
      rw [← hj]
      obtain ⟨hji, hjn, hl, hr⟩ := hj2
      have hmin : ∀ k, 2 ≤ k → k ≤ n → k / 2 = i → aHeap j ≤ aHeap k := fun k _ _ hki => by
        obtain rfl | rfl : k = i * 2 ∨ k = i * 2 + 1 := by omega
        · exact hl
        · exact hr
      by_cases hlt : aHeap i < aHeap j
      · rw [if_pos hlt]
        exact ⟨hd.ordered fun k h2 hn hki => hlt.le.trans (hmin k h2 hn hki), h0, rfl⟩
      · rw [if_neg hlt]
        have hs' : ∀ k, 1 ≤ k → k ≤ n → swap aHeap i j k ≤ swap aHeap i j (n + 1) := fun k hk hkn => by
          rw [swap_of_ne (k := n + 1) (by omega) (by omega)]
          by_cases hki : k = i
          · rw [hki, swap_left]
            exact hs j (by omega) hjn
          · by_cases hkj : k = j
            · rw [hkj, swap_right]
              exact hs i h1 (by omega)
            · rw [swap_of_ne hki hkj]
              exact hs k hk hkn
        have h0' : swap aHeap i j 0 = n := (swap_of_ne (by omega) (by omega)).trans h0
        obtain ⟨h2, h3, h4⟩ := siftDown_does fuel (by omega) (by omega) h0'
          (hd.swap (by omega) hjn hji hmin (not_lt.1 hlt)) hs'
        exact ⟨h2, h3, h4.trans (entries_swap h1 (by omega) (by omega) hjn)⟩
    · rw [if_neg hc]
      exact ⟨hd.ordered fun k _ hn hki => absurd hn (by omega), h0, rfl⟩

/-- The heap has the entries `l`, which are 32-bit numbers. -/
structure HasEntries (aHeap : AHeap) (l : List ℕ) : Prop where
  ordered : Ordered aHeap (aHeap 0)
  entries_eq : entries aHeap (aHeap 0) = l
  small : ∀ x ∈ l, x < 2 ^ 32

namespace HasEntries

theorem nil (h : aHeap 0 = 0) : HasEntries aHeap [] where
  ordered k h2 hk := by omega
  entries_eq := by rw [h, entries_zero, Multiset.coe_nil]
  small x hx := by simp at hx

theorem perm {l' : List ℕ} (h : HasEntries aHeap l) (hp : l.Perm l') : HasEntries aHeap l' where
  ordered := h.ordered
  entries_eq := h.entries_eq.trans (Multiset.coe_eq_coe.2 hp)
  small x hx := h.small x (hp.mem_iff.2 hx)

theorem count (h : HasEntries aHeap l) : aHeap 0 = l.length := by
  have := congrArg Multiset.card h.entries_eq
  simpa [entries] using this

theorem insert (h : HasEntries aHeap l) (hx : x < 2 ^ 32) : HasEntries (btreeHeapInsert aHeap x) (x :: l) := by
  obtain ⟨n, hn⟩ : ∃ n, n = aHeap 0 := ⟨_, rfl⟩
  have hord := h.ordered
  have hent := h.entries_eq
  unfold btreeHeapInsert
  simp only [← hn] at hord hent ⊢
  obtain ⟨a, ha⟩ : ∃ a, a = update (update aHeap 0 (n + 1)) (n + 1) x := ⟨_, rfl⟩
  have hold : ∀ k, 1 ≤ k → k ≤ n → a k = aHeap k := fun k h1 h2 => by
    rw [ha, update_of_ne (by omega), update_of_ne (by omega)]
  have hnew : a (n + 1) = x := ha ▸ update_self ..
  have hu : UpOrder a (n + 1) (n + 1) := by
    refine ⟨fun k h2 hk hne => ?_, fun k _ hk hki => by omega⟩
    rw [hold k (by omega) (by omega), hold (k / 2) (by omega) (by omega)]
    exact hord k h2 (by omega)
  rw [← ha]
  obtain ⟨h1, h2, h3⟩ := siftUp_does (n + 1) le_rfl (by omega) le_rfl
    (show a 0 = n + 1 by rw [ha, update_of_ne (by omega), update_self]) hu
  refine ⟨by rwa [h2], ?_, List.forall_mem_cons.2 ⟨hx, h.small⟩⟩
  rw [h2, h3, entries_succ, hnew, entries_congr hold, hent, Multiset.cons_coe]

/-- The smallest entry is pulled. -/
theorem pull {x : ℕ} (h : HasEntries aHeap (x :: l)) (hx : ∀ y ∈ l, x ≤ y) :
    ∃ aHeap', btreeHeapPull aHeap = some (x, aHeap') ∧ HasEntries aHeap' l := by
  obtain ⟨n, hn⟩ : ∃ n, aHeap 0 = n + 1 := ⟨_, h.count.trans List.length_cons⟩
  have hord := h.ordered
  have hent := h.entries_eq
  rw [hn] at hord hent
  -- the root is the smallest
  have hroot : aHeap 1 = x := by
    have hmem : aHeap 1 ∈ x :: l := by
      rw [← Multiset.mem_coe, ← hent]
      exact mem_entries le_rfl (by omega)
    obtain ⟨k, h1, h2, hk⟩ := exists_of_mem_entries (x := x) (h := aHeap) (n := n + 1) (by
      rw [hent]
      exact Multiset.mem_coe.2 List.mem_cons_self)
    refine le_antisymm (hk ▸ hord.root_le h1 h2) ?_
    rcases List.mem_cons.1 hmem with he | hm
    · exact he.ge
    · exact hx _ hm
  unfold btreeHeapPull
  simp only [hn, Nat.add_one_ne_zero, if_false, Nat.add_sub_cancel, hroot]
  obtain ⟨a, ha⟩ : ∃ a, a = update (update (update aHeap 1 (aHeap (n + 1))) (n + 1) 0xffffffff) 0 n :=
    ⟨_, rfl⟩
  rw [← ha]
  have ha0 : a 0 = n := ha ▸ update_self ..
  have hlast : a (n + 1) = 0xffffffff := by rw [ha, update_of_ne (by omega), update_self]
  have hold : ∀ k, 2 ≤ k → k ≤ n → a k = aHeap k := fun k h1 h2 => by
    rw [ha, update_of_ne (by omega), update_of_ne (by omega), update_of_ne (by omega)]
  have hperm : entries a n = l := by
    have hsw : ∀ k, 1 ≤ k → k ≤ n → a k = swap aHeap 1 (n + 1) k := fun k h1 h2 => by
      by_cases hk : k = 1
      · rw [hk, swap_left, ha, update_of_ne (by omega), update_of_ne (by omega), update_self]
      · rw [swap_of_ne hk (by omega), hold k (by omega) h2]
    rw [entries_congr hsw]
    have hcons := entries_swap (h := aHeap) (i := 1) (j := n + 1) le_rfl (by omega) (by omega) le_rfl
    rw [entries_succ, swap_right, hroot, hent, ← Multiset.cons_coe] at hcons
    exact Multiset.cons_inj_right x |>.1 hcons
  have hd : DownOrder a n 1 := by
    refine ⟨fun k h2 hk hne => ?_, fun k h2 => by omega⟩
    rw [hold k h2 hk, hold (k / 2) (by omega) (by omega)]
    exact hord k h2 (by omega)
  have hs : ∀ k, 1 ≤ k → k ≤ n → a k ≤ a (n + 1) := fun k h1 h2 => by
    have hk : a k ∈ x :: l := by
      refine List.mem_cons_of_mem _ ?_
      rw [← Multiset.mem_coe, ← hperm]
      exact mem_entries h1 h2
    have := h.small _ hk
    omega
  obtain ⟨h1, h2, h3⟩ := siftDown_does (n + 1) (by omega) le_rfl ha0 hd hs
  refine ⟨_, rfl, ⟨by rwa [h2], by rw [h2, h3, hperm], fun y hy => h.small y (List.mem_cons_of_mem _ hy)⟩⟩

end HasEntries

/-- The entries in the order in which they are pulled. -/
def pullAll : ℕ → AHeap → List ℕ
  | 0, _ => []
  | fuel + 1, aHeap =>
    match btreeHeapPull aHeap with
    | none => []
    | some (x, aHeap) => x :: pullAll fuel aHeap

theorem pullAll_eq : ∀ {l : List ℕ} (fuel : ℕ) {aHeap : AHeap}, HasEntries aHeap l → l.Pairwise (· ≤ ·) →
    l.length < fuel → pullAll fuel aHeap = l
  | _, 0, _, _, _, hf => by omega
  | [], fuel + 1, aHeap, h, _, _ => by
    have hpull : btreeHeapPull aHeap = none := if_pos h.count
    rw [pullAll, hpull]
  | x :: l, fuel + 1, aHeap, h, hs, hf => by
    obtain ⟨hx, hs⟩ := List.pairwise_cons.1 hs
    obtain ⟨aHeap', hpull, h'⟩ := h.pull hx
    rw [pullAll, hpull]
    simp only
    rw [pullAll_eq fuel h' hs (by simpa using hf)]

theorem insertAll_hasEntries : ∀ {xs : List ℕ} {aHeap : AHeap} {l : List ℕ}, HasEntries aHeap l →
    (∀ x ∈ xs, x < 2 ^ 32) → HasEntries (xs.foldl btreeHeapInsert aHeap) (xs ++ l)
  | [], _, _, h, _ => h
  | x :: xs, _, _, h, hx => by
    obtain ⟨h1, h2⟩ := List.forall_mem_cons.1 hx
    exact (insertAll_hasEntries (h.insert h1) h2).perm List.perm_middle

end Heap

/-! ## The sweep -/

section Entries

variable {r s : Block}

theorem packEntry_eq (h : r.1 + r.2 ≤ 65536) (h1 : 0 < r.1 + r.2) :
    packEntry r.1 r.2 = r.1 * 65536 + (r.1 + r.2 - 1) := by
  have hlt : r.1 + r.2 - 1 < 2 ^ 16 := by omega
  rw [packEntry, ← Nat.shiftLeft_add_eq_or_of_lt hlt, Nat.shiftLeft_eq]

theorem packEntry_start (h : r.1 + r.2 ≤ 65536) (h1 : 0 < r.1 + r.2) : packEntry r.1 r.2 >>> 16 = r.1 := by
  rw [packEntry_eq h h1, Nat.shiftRight_eq_div_pow]
  omega

theorem packEntry_end (h : r.1 + r.2 ≤ 65536) (h1 : 0 < r.1 + r.2) :
    packEntry r.1 r.2 &&& 0xffff = r.1 + r.2 - 1 := by
  rw [packEntry_eq h h1, Nat.and_two_pow_sub_one_eq_mod _ 16]
  omega

/-- One byte is in both. -/
def SharesByte (r s : Block) : Prop := ∃ x, (r.1 ≤ x ∧ x < r.1 + r.2) ∧ s.1 ≤ x ∧ x < s.1 + s.2

theorem sharesByte_iff (hr : 0 < r.2) (hs : 0 < s.2) : SharesByte r s ↔ ¬ Apart r s := by
  unfold SharesByte Apart
  constructor
  · rintro ⟨x, h1, h2⟩
    omega
  · intro h
    exact ⟨max r.1 s.1, by omega⟩

/-- In the order of the list each block begins where the one before has ended, or later. -/
def InRow : ℕ → List Block → Prop
  | _, [] => True
  | lo, r :: rs => lo ≤ r.1 ∧ InRow (r.1 + r.2) rs

theorem InRow.le : ∀ {lo : ℕ} {rs : List Block}, InRow lo rs → ∀ r ∈ rs, lo ≤ r.1
  | _, [], _, r, hr => absurd hr List.not_mem_nil
  | lo, s :: rs, h, r, hr => by
    rcases List.mem_cons.1 hr with rfl | hr
    · exact h.1
    · exact h.1.trans ((Nat.le_add_right _ _).trans (h.2.le r hr))

theorem InRow.apart : ∀ {lo : ℕ} {rs : List Block}, InRow lo rs → rs.Pairwise Apart
  | _, [], _ => List.Pairwise.nil
  | _, _ :: _, h => List.pairwise_cons.2 ⟨fun s hs => Or.inl (h.2.le s hs), h.2.apart⟩

/-- The entry of a block. -/
def entry (r : Block) : ℕ := packEntry r.1 r.2

/-- The blocks of a content area of 64 kilobytes or less, in the order of their entries. -/
structure Swept (hi : ℕ) (rs : List Block) : Prop where
  hi_le : hi ≤ 65536
  inside : ∀ r ∈ rs, 0 < r.1 ∧ r.1 + r.2 ≤ hi
  order : (rs.map entry).Pairwise (· ≤ ·)

namespace Swept

variable {hi lo : ℕ} {rs : List Block}

theorem tail (h : Swept hi (r :: rs)) : Swept hi rs :=
  ⟨h.hi_le, (List.forall_mem_cons.1 h.inside).2, (List.pairwise_cons.1 h.order).2⟩

theorem entry_eq (h : Swept hi rs) (hr : r ∈ rs) : entry r = r.1 * 65536 + (r.1 + r.2 - 1) := by
  have := h.inside r hr
  have := h.hi_le
  exact packEntry_eq (by omega) (by omega)

theorem entry_start (h : Swept hi rs) (hr : r ∈ rs) : entry r >>> 16 = r.1 := by
  have := h.inside r hr
  have := h.hi_le
  exact packEntry_start (by omega) (by omega)

theorem entry_end (h : Swept hi rs) (hr : r ∈ rs) : (entry r &&& 0xffff) + 1 = r.1 + r.2 := by
  have := h.inside r hr
  have := h.hi_le
  rw [entry, packEntry_end (by omega) (by omega)]
  omega

theorem entry_le (h : Swept hi (r :: rs)) (hs : s ∈ rs) : entry r ≤ entry s :=
  (List.pairwise_cons.1 h.order).1 _ (List.mem_map_of_mem hs)

theorem start_le (h : Swept hi (r :: rs)) (hs : s ∈ rs) : r.1 ≤ s.1 := by
  have hle := h.entry_le hs
  rw [h.entry_eq List.mem_cons_self, h.tail.entry_eq hs] at hle
  have := h.tail.inside s hs
  have := h.hi_le
  omega

theorem end_le (h : Swept hi (r :: rs)) (hs : s ∈ rs) (ha : Apart r s) : r.1 + r.2 ≤ s.1 := by
  have hle := h.entry_le hs
  have hst := h.start_le hs
  rw [h.entry_eq List.mem_cons_self, h.tail.entry_eq hs] at hle
  have := h.inside r List.mem_cons_self
  unfold Apart at ha
  omega

theorem inRow : ∀ {lo : ℕ} {rs : List Block}, Swept hi rs → rs.Pairwise Apart → (∀ r ∈ rs, lo ≤ r.1) →
    InRow lo rs
  | _, [], _, _, _ => trivial
  | _, r :: _, h, ha, hlo => by
    obtain ⟨h1, h2⟩ := List.pairwise_cons.1 ha
    exact ⟨hlo r List.mem_cons_self, inRow h.tail h2 fun s hs => h.end_le hs (h1 s hs)⟩

end Swept

end Entries

section Sweep

variable (iPage : ℕ) (pCheck : IntegrityCk) {hi : ℕ}

/-- Blocks that lie in a row are all pulled, and what is between them is counted. -/
theorem sweepHeap_inRow : ∀ {rs : List Block} (fuel : ℕ) {heap : AHeap} {prev lo : ℕ} (nFrag : ℕ),
    rs.length < fuel → HasEntries heap (rs.map entry) → Swept hi rs → (prev &&& 0xffff) + 1 = lo →
    InRow lo rs → lo ≤ hi → ∃ heap' prev' nFrag',
      sweepHeap iPage fuel heap pCheck prev nFrag = (heap', pCheck, prev', nFrag') ∧ heap' 0 = 0
        ∧ (prev' &&& 0xffff) + 1 ≤ hi
        ∧ (prev' &&& 0xffff) + 1 + nFrag = nFrag' + lo + total rs
  | _, 0, _, _, _, _, hf, _, _, _, _, _ => by omega
  | [], fuel + 1, heap, prev, lo, nFrag, _, hh, _, hp, _, hlo => by
    have hpull : btreeHeapPull heap = none := if_pos hh.count
    refine ⟨heap, prev, nFrag, ?_, hh.count, by omega, by rw [total_nil]; omega⟩
    rw [sweepHeap, hpull]
  | r :: rs, fuel + 1, heap, prev, lo, nFrag, hf, hh, hs, hp, hrow, hlo => by
    obtain ⟨heap1, hpull, hh1⟩ := hh.pull (List.pairwise_cons.1 hs.order).1
    have hin := hs.inside r List.mem_cons_self
    have hst := hs.entry_start List.mem_cons_self
    have hend := hs.entry_end List.mem_cons_self
    obtain ⟨h1, h2⟩ := hrow
    obtain ⟨heap', prev', nFrag', h3, h4, h5, h6⟩ := sweepHeap_inRow fuel
      (nFrag + (r.1 - (prev &&& 0xffff) - 1)) (by simpa using hf) hh1 hs.tail hend h2 hin.2
    refine ⟨heap', prev', nFrag', ?_, h4, h5, ?_⟩
    · rw [sweepHeap, hpull]
      simp only
      rw [hst, if_neg (by omega)]
      exact h3
    · rw [total_cons]
      omega

/-- Otherwise the first block that begins too early is reported, and what comes after it stays on the
heap. -/
theorem sweepHeap_overlap : ∀ {rs : List Block} (fuel : ℕ) {heap : AHeap} {prev lo : ℕ} (nFrag : ℕ),
    rs.length < fuel → HasEntries heap (rs.map entry) → Swept hi rs → (prev &&& 0xffff) + 1 = lo →
    ¬ InRow lo rs → ∃ heap' prev' nFrag', ∃ r ∈ rs,
      sweepHeap iPage fuel heap pCheck prev nFrag
          = (heap', pCheck.checkAppendMsg (.multipleUses r.1 iPage), prev', nFrag')
        ∧ ((∃ s ∈ rs, r.1 < s.1) → heap' 0 ≠ 0)
  | _, 0, _, _, _, _, hf, _, _, _, _ => by omega
  | [], _ + 1, _, _, _, _, _, _, _, _, hrow => absurd trivial hrow
  | r :: rs, fuel + 1, heap, prev, lo, nFrag, hf, hh, hs, hp, hrow => by
    obtain ⟨heap1, hpull, hh1⟩ := hh.pull (List.pairwise_cons.1 hs.order).1
    have hst := hs.entry_start List.mem_cons_self
    have hend := hs.entry_end List.mem_cons_self
    rw [sweepHeap, hpull]
    simp only
    rw [hst]
    by_cases hle : r.1 ≤ prev &&& 0xffff
    · rw [if_pos hle]
      refine ⟨heap1, prev, nFrag, r, List.mem_cons_self, rfl, ?_⟩
      rintro ⟨s, hm, hlt⟩
      rcases List.mem_cons.1 hm with rfl | hm
      · exact absurd hlt (lt_irrefl _)
      · rw [hh1.count, List.length_map]
        exact (List.length_pos_of_mem hm).ne'
    · rw [if_neg hle]
      have hrow' : ¬ InRow (r.1 + r.2) rs := fun h => hrow ⟨by omega, h⟩
      obtain ⟨heap', prev', nFrag', q, hq, h3, h4⟩ := sweepHeap_overlap fuel
        (nFrag + (r.1 - (prev &&& 0xffff) - 1)) (by simpa using hf) hh1 hs.tail hend hrow'
      refine ⟨heap', prev', nFrag', q, List.mem_cons_of_mem _ hq, h3, ?_⟩
      rintro ⟨s, hm, hlt⟩
      rcases List.mem_cons.1 hm with rfl | hm
      · exact absurd (hs.start_le hq) (by omega)
      · exact h4 ⟨s, hm, hlt⟩

end Sweep

section Analysis

variable {contentOffset usableSize reported iPage : ℕ} {rs : List Block} {pCheck : IntegrityCk}
  {heap : AHeap}

theorem errMsg_checkAppendMsg {msg : CoverageErr} (h : pCheck.mxErr ≠ 0) :
    (pCheck.checkAppendMsg msg).errMsg = pCheck.errMsg ++ [msg] := by
  unfold IntegrityCk.checkAppendMsg
  rw [if_neg h]

/-- How many bytes of the content area are in none of the blocks. -/
def uncovered (contentOffset usableSize : ℕ) (rs : List Block) : ℕ :=
  (Finset.Ico contentOffset usableSize \ cover rs).card

theorem uncovered_eq (ha : rs.Pairwise Apart)
    (hin : ∀ r ∈ rs, contentOffset ≤ r.1 ∧ r.1 + r.2 ≤ usableSize) :
    uncovered contentOffset usableSize rs = usableSize - contentOffset - total rs := by
  have hsub : cover rs ⊆ Finset.Ico contentOffset usableSize := fun x hx => by
    obtain ⟨r, hr, h1, h2⟩ := mem_cover.1 hx
    have := hin r hr
    exact Finset.mem_Ico.2 ⟨by omega, by omega⟩
  rw [uncovered, Finset.card_sdiff_of_subset hsub, Nat.card_Ico, card_cover ha]

/-- What the analysis reports of the blocks `rs`: a byte used twice when two of them are not apart, and
else the fragments when their number is wrong. When a byte is used twice and a block begins behind it, the
fragments are not looked at. -/
structure Reports (contentOffset usableSize reported iPage : ℕ) (rs : List Block)
    (errs : List CoverageErr) : Prop where
  multipleUses : (∃ b, .multipleUses b iPage ∈ errs) ↔ ¬ rs.Pairwise Apart
  fragmentation : rs.Pairwise Apart →
    ((∃ n, .fragmentation n reported iPage ∈ errs) ↔ uncovered contentOffset usableSize rs ≠ reported)
  broken : ∀ b, .multipleUses b iPage ∈ errs → (∃ r ∈ rs, b < r.1) →
    ∀ n, .fragmentation n reported iPage ∉ errs
  only : ∀ e ∈ errs, (∃ b, e = .multipleUses b iPage) ∨ ∃ n, e = .fragmentation n reported iPage

variable (reported iPage) in
theorem analyzeHeap_sorted (h1 : 0 < contentOffset) (hco : contentOffset ≤ usableSize)
    (hin : ∀ r ∈ rs, contentOffset ≤ r.1) (hs : Swept usableSize rs) (hh : HasEntries heap (rs.map entry))
    (hmx : pCheck.mxErr ≠ 0) :
    ∃ errs, (analyzeHeap contentOffset usableSize reported iPage heap pCheck).errMsg = pCheck.errMsg ++ errs
      ∧ Reports contentOffset usableSize reported iPage rs errs := by
  have hcount : rs.length < heap 0 + 1 := by
    rw [hh.count, List.length_map]
    exact Nat.lt_succ_self _
  have hle := hs.hi_le
  have hprev : (contentOffset - 1 &&& 0xffff) + 1 = contentOffset := by
    rw [Nat.and_two_pow_sub_one_eq_mod _ 16]
    omega
  by_cases ha : rs.Pairwise Apart
  · have hin2 : ∀ r ∈ rs, contentOffset ≤ r.1 ∧ r.1 + r.2 ≤ usableSize := fun r hr =>
      ⟨hin r hr, (hs.inside r hr).2⟩
    obtain ⟨heap', prev', nFrag', hrun, h0, hend, hsum⟩ := sweepHeap_inRow iPage pCheck
      (heap 0 + 1) 0 hcount hh hs hprev (hs.inRow ha hin) hco
    have hfrag : nFrag' + (usableSize - (prev' &&& 0xffff) - 1) = uncovered contentOffset usableSize rs := by
      rw [uncovered_eq ha hin2]
      omega
    unfold analyzeHeap
    rw [hrun]
    simp only [h0, hfrag, true_and]
    by_cases hne : uncovered contentOffset usableSize rs = reported
    · rw [if_neg (not_not_intro hne)]
      exact ⟨[], (List.append_nil _).symm, by simp [ha], by simp [hne], by simp, by simp⟩
    · rw [if_pos hne, errMsg_checkAppendMsg hmx]
      exact ⟨_, rfl, by simp [ha], by simp [hne], by simp, by simp⟩
  · have hrow : ¬ InRow contentOffset rs := fun h => ha h.apart
    obtain ⟨heap', prev', nFrag', r, hr, hrun, hleft⟩ := sweepHeap_overlap iPage pCheck
      (heap 0 + 1) 0 hcount hh hs hprev hrow
    unfold analyzeHeap
    rw [hrun]
    simp only
    by_cases hc : heap' 0 = 0 ∧ nFrag' + (usableSize - (prev' &&& 0xffff) - 1) ≠ reported
    · rw [if_pos hc]
      have hno : ¬ ∃ s ∈ rs, r.1 < s.1 := fun h => hleft h hc.1
      by_cases hmx' : (pCheck.checkAppendMsg (.multipleUses r.1 iPage)).mxErr = 0
      · refine ⟨[.multipleUses r.1 iPage], ?_, by simp [ha], fun h => absurd h ha, by simp,
          by simp⟩
        rw [IntegrityCk.checkAppendMsg, if_pos hmx', errMsg_checkAppendMsg hmx]
      · rw [errMsg_checkAppendMsg hmx', errMsg_checkAppendMsg hmx, List.append_assoc]
        refine ⟨_, rfl, by simp [ha], fun h => absurd h ha, fun b hb hlt => ?_, by simp⟩
        obtain rfl : b = r.1 := by simpa using hb
        exact absurd hlt hno
    · rw [if_neg hc, errMsg_checkAppendMsg hmx]
      exact ⟨_, rfl, by simp [ha], fun h => absurd h ha, by simp, by simp⟩

theorem Reports.perm {ss : List Block} {errs : List CoverageErr} (hp : rs.Perm ss)
    (h : Reports contentOffset usableSize reported iPage rs errs) :
    Reports contentOffset usableSize reported iPage ss errs := by
  have ha : rs.Pairwise Apart ↔ ss.Pairwise Apart := hp.pairwise_iff Apart.symm
  have hcov : cover rs = cover ss := by
    ext x
    rw [mem_cover, mem_cover]
    exact exists_congr fun b => and_congr_left fun _ => hp.mem_iff
  refine ⟨h.multipleUses.trans (not_congr ha), fun hss => ?_, fun b hb hlt => h.broken b hb ?_, h.only⟩
  · rw [uncovered, ← hcov]
    exact h.fragmentation (ha.2 hss)
  · obtain ⟨r, hr, hlt⟩ := hlt
    exact ⟨r, hp.mem_iff.2 hr, hlt⟩

theorem Reports.sharesByte {errs : List CoverageErr} (h : Reports contentOffset usableSize reported iPage rs errs)
    (hpos : ∀ r ∈ rs, 0 < r.2) :
    (∃ b, .multipleUses b iPage ∈ errs) ↔ ¬ rs.Pairwise fun r s => ¬ SharesByte r s := by
  rw [h.multipleUses]
  refine not_congr (List.Pairwise.iff_of_mem fun hr hs => ?_)
  rw [sharesByte_iff (hpos _ hr) (hpos _ hs), not_not]

/-- The blocks of a page, in any order. -/
structure OnPage (contentOffset usableSize : ℕ) (rs : List Block) : Prop where
  pos : 0 < contentOffset
  le : contentOffset ≤ usableSize
  usable_le : usableSize ≤ 65536
  inside : ∀ r ∈ rs, contentOffset ≤ r.1 ∧ r.1 < 65536 ∧ r.1 + r.2 ≤ usableSize

theorem OnPage.entry_lt (h : OnPage contentOffset usableSize rs) : ∀ x ∈ rs.map entry, x < 2 ^ 32 := by
  intro x hx
  obtain ⟨r, hr, rfl⟩ := List.mem_map.1 hx
  have := h.inside r hr
  have := h.pos
  have := h.usable_le
  rw [entry, packEntry_eq (by omega) (by omega)]
  omega

theorem exists_sorted (rs : List Block) : ∃ ss, rs.Perm ss ∧ (ss.map entry).Pairwise (· ≤ ·) := by
  refine ⟨rs.mergeSort fun r s => entry r ≤ entry s, (List.mergeSort_perm _ _).symm, ?_⟩
  refine List.pairwise_map.2 ((List.pairwise_mergeSort (fun a b c hab hbc => ?_) (fun a b => ?_) rs).imp
    fun h => of_decide_eq_true h)
  · exact decide_eq_true ((of_decide_eq_true hab).trans (of_decide_eq_true hbc))
  · rw [Bool.or_eq_true, decide_eq_true_eq, decide_eq_true_eq]
    exact le_total _ _

variable (reported iPage) in
theorem analyzeHeap_reports (h : OnPage contentOffset usableSize rs) (hh : HasEntries heap (rs.map entry))
    (hmx : pCheck.mxErr ≠ 0) :
    ∃ errs, (analyzeHeap contentOffset usableSize reported iPage heap pCheck).errMsg = pCheck.errMsg ++ errs
      ∧ Reports contentOffset usableSize reported iPage rs errs := by
  obtain ⟨ss, hperm, hsort⟩ := exists_sorted rs
  have hin : ∀ r ∈ ss, contentOffset ≤ r.1 ∧ r.1 < 65536 ∧ r.1 + r.2 ≤ usableSize := fun r hr =>
    h.inside r (hperm.mem_iff.2 hr)
  have hsw : Swept usableSize ss := ⟨h.usable_le, fun r hr => by
    have := hin r hr
    have := h.pos
    omega, hsort⟩
  obtain ⟨errs, h2, h3⟩ := analyzeHeap_sorted reported iPage h.pos h.le (fun r hr => (hin r hr).1) hsw
    (hh.perm (hperm.map entry)) hmx
  exact ⟨errs, h2, h3.perm hperm.symm⟩

end Analysis

/-- For every list of blocks of one page, in any order: their entries are pulled in ascending order, and
the analysis reports an overlap if and only if two blocks are not apart (for blocks that are not empty:
they share a byte). When there is none, it reports the fragments if and only if the header's number is
not that of the bytes in no block. -/
theorem coverage_exact {rs : List Block} {contentOffset usableSize : ℕ}
    (h : OnPage contentOffset usableSize rs) {aHeap : AHeap} (h0 : aHeap 0 = 0) (reported iPage : ℕ)
    {pCheck : IntegrityCk} (hmx : pCheck.mxErr ≠ 0) :
    ∃ heap, heap = (rs.map entry).foldl btreeHeapInsert aHeap
      ∧ (pullAll (rs.length + 1) heap).Perm (rs.map entry)
      ∧ (pullAll (rs.length + 1) heap).Pairwise (· ≤ ·)
      ∧ ∃ errs, (analyzeHeap contentOffset usableSize reported iPage heap pCheck).errMsg
            = pCheck.errMsg ++ errs
        ∧ Reports contentOffset usableSize reported iPage rs errs
        ∧ ((∀ r ∈ rs, 0 < r.2) →
          ((∃ b, .multipleUses b iPage ∈ errs) ↔ ¬ rs.Pairwise fun r s => ¬ SharesByte r s)) := by
  have hh := insertAll_hasEntries (HasEntries.nil h0) h.entry_lt
  rw [List.append_nil] at hh
  obtain ⟨ss, hperm, hsort⟩ := exists_sorted rs
  have hpull := pullAll_eq (rs.length + 1) (hh.perm (hperm.map entry)) hsort (by
    rw [List.length_map, hperm.length_eq]
    exact Nat.lt_succ_self _)
  obtain ⟨errs, h1, h2⟩ := analyzeHeap_reports reported iPage h hh hmx
  refine ⟨_, rfl, ?_, ?_, errs, h1, h2, h2.sharesByte⟩
  · rw [hpull]
    exact (hperm.map entry).symm
  · rwa [hpull]

/-- Two blocks that begin together and one behind them. -/
theorem coverage_exact_three :
    ∃ heap, heap = ([(500, 4), (508, 4), (500, 6)].map entry).foldl btreeHeapInsert (fun _ => 0)
      ∧ (pullAll 4 heap).Perm ([(500, 4), (508, 4), (500, 6)].map entry)
      ∧ (pullAll 4 heap).Pairwise (· ≤ ·)
      ∧ ∃ errs, (analyzeHeap 500 512 0 7 heap ⟨100, 0, []⟩).errMsg = [] ++ errs
        ∧ Reports 500 512 0 7 [(500, 4), (508, 4), (500, 6)] errs
        ∧ ((∀ r ∈ [(500, 4), (508, 4), (500, 6)], 0 < r.2) → ((∃ b, .multipleUses b 7 ∈ errs) ↔
          ¬ [(500, 4), (508, 4), (500, 6)].Pairwise fun r s => ¬ SharesByte r s)) :=
  coverage_exact ⟨by decide, by decide, by decide, by simp⟩ rfl 0 7 (by decide)

/-- The block at 508 is still on the heap when the sweep ends: the two bytes before it, which are in no
block, are not reported although the header has none. -/
theorem coverage_overlap_unswept :
    (analyzeHeap 500 512 0 7 (([(500, 4), (502, 4), (508, 4)].map entry).foldl btreeHeapInsert fun _ => 0)
        ⟨100, 0, []⟩).errMsg = [.multipleUses 502 7]
      ∧ uncovered 500 512 [(500, 4), (502, 4), (508, 4)] ≠ 0 := by
  decide +kernel

/-! ## The check of a page -/

namespace RawPage

open ByteBuffer

section Page

variable {g : Geometry} {p : RawPage} {ps : List (ℕ × Cell)} {fs : List Block} {top : ℕ}

theorem insertCells_eq (h : Layout g p ps [] fs top) : ∀ {n : ℕ} {heap : AHeap}, n ≤ ps.length →
    insertCells g p n heap = ((ps.take n).reverse.map fun c => entry (block c)).foldl btreeHeapInsert heap
  | 0, _, _ => rfl
  | n + 1, heap, hn => by
    have hi : ps[n]? = some ps[n] := List.getElem?_eq_getElem hn
    have hmem : ps[n] ∈ ps := List.getElem_mem hn
    obtain ⟨tail, ht⟩ := cellMemory_eq (h.cell_inside hmem).2.2 (h.body _ hmem)
    have htake : (ps.take (n + 1)).reverse = ps[n] :: (ps.take n).reverse := by
      rw [List.take_add_one, hi, Option.toList_some, List.reverse_append]
      rfl
    rw [insertCells, h.pointer n _ hi, ht, (h.legal _ hmem).size, insertCells_eq h (Nat.le_of_succ_le hn), htake]
    rfl

theorem insertFreeblocks_eq : ∀ {fs : List Block} {fuel a : ℕ} {heap : AHeap}, Links p.aData a fs 0 →
    (∀ f ∈ fs, f.1 ≠ 0) → fs.length ≤ fuel →
    insertFreeblocks p fuel (get2 p.aData a) heap = (fs.map entry).foldl btreeHeapInsert heap
  | [], 0, _, _, _, _, _ => rfl
  | [], _ + 1, _, _, hl, _, _ => if_pos hl
  | _ :: _, 0, _, _, _, _, hf => by simp at hf
  | f :: fs, fuel + 1, a, heap, hl, h0, hf => by
    obtain ⟨h1, h2, h3⟩ := hl
    obtain ⟨hne, h0⟩ := List.forall_mem_cons.1 h0
    rw [h1, insertFreeblocks, if_neg hne]
    simp only
    rw [h2, insertFreeblocks_eq h3 h0 (by simpa using hf)]
    rfl

/-- The check finds no fault with a well-formed page. -/
theorem checkCoverage_wellFormed (h : WellFormed g p) (iPage : ℕ) (heap : AHeap) (pCheck : IntegrityCk) :
    (checkCoverage g p iPage heap pCheck).errMsg = pCheck.errMsg := by
  obtain ⟨ps, fs, top, h⟩ := h
  have htop := h.free.top_le
  have hfirst := h.free.first_le
  have hhdr := hdr_le_first p
  have hu := g.usableSize_le
  have htop_eq : (if get2 p.aData (p.hdrOffset + 5) = 0 then 65536 else get2 p.aData (p.hdrOffset + 5)) = top := by
    rw [h.free.top_eq]
    split_ifs <;> omega
  have hheap : insertFreeblocks p g.usableSize (get2 p.aData (p.hdrOffset + 1))
      (insertCells g p p.nCell (update heap 0 0))
        = ((ps.reverse.map block ++ fs).map entry).foldl btreeHeapInsert (update heap 0 0) := by
    have hlen := h.free.spaced.length_le
    rw [insertFreeblocks_eq h.free.links (fun f hf => ?_) (by omega), h.nCell, insertCells_eq h le_rfl,
      List.take_length, List.map_append, List.foldl_append, List.map_map]
    · rfl
    · have := h.tiles.inside f (by simp [hf])
      omega
  have htiles : Tiles top g.usableSize (ps.reverse.map block ++ fs) (frag p) :=
    h.tiles.perm (((List.reverse_perm ps).symm.map block).append_right fs)
  have hon : OnPage top g.usableSize (ps.reverse.map block ++ fs) := by
    refine ⟨by omega, htop, hu, fun r hr => ?_⟩
    have hr' : r ∈ ps.map block ++ fs := by simpa using hr
    have hin := htiles.inside r hr
    rcases List.mem_append.1 hr' with hm | hm
    · obtain ⟨c, hc, rfl⟩ := List.mem_map.1 hm
      have := (h.cell_inside hc).2.1
      simp only [block] at hin ⊢
      omega
    · have := h.free.mem hm
      omega
  unfold checkCoverage
  split_ifs with hmx
  · rfl
  have hh := insertAll_hasEntries (HasEntries.nil (update_self 0 0 heap)) hon.entry_lt
  rw [List.append_nil] at hh
  obtain ⟨errs, h1, h2⟩ := analyzeHeap_reports (frag p) iPage hon hh hmx
  have hunc : uncovered top g.usableSize (ps.reverse.map block ++ fs) = frag p := by
    rw [uncovered_eq htiles.apart htiles.inside]
    have := htiles.sum
    omega
  have hnil : errs = [] := by
    refine List.eq_nil_iff_forall_not_mem.2 fun e he => ?_
    rcases h2.only e he with ⟨b, rfl⟩ | ⟨n, rfl⟩
    · exact h2.multipleUses.1 ⟨b, he⟩ htiles.apart
    · exact (h2.fragmentation htiles.apart).1 ⟨n, he⟩ hunc
  simp only
  rw [htop_eq, hheap]
  rw [hnil, List.append_nil] at h1
  exact h1

end Page

end RawPage

end Btreelite
