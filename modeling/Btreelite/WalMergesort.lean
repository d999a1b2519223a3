import Btreelite.IndexMerge
import Btreelite.WalIndex

/-!
# Sorting the frames of a segment

A checkpoint copies the pages of the log in ascending order. For every block of the wal-index it sorts an
array of indices by the page numbers they stand for, and drops all but the last index of a page. The sort
is a merge sort from below, in place but for a buffer: `aSub[k]` is a sorted part of the array that was
made of `2^k` elements.

Pointers into the array are offsets into its memory. An assertion that fails is an error.
-/

namespace Btreelite

open IndexMerge

inductive WalFault
  | assertion
  | endless
  deriving DecidableEq

def walAssert (c : Prop) [Decidable c] : Except WalFault Unit := if c then .ok () else .error .assertion

/-- `memcpy(&a[i], l, ..)` -/
def copySlots (mem : ℕ → ℕ) : ℕ → List ℕ → ℕ → ℕ
  | _, [] => mem
  | a, x :: l => Function.update (copySlots mem (a + 1) l) a x

section Merge

variable (aContent mem : ℕ → ℕ) (aLeft nLeft aRight nRight : ℕ)

/-- The loop of `walMerge`; `iOut` is the length of `aTmp`. -/
def walMergeLoop : ℕ → ℕ → ℕ → List ℕ → Except WalFault (List ℕ)
  | 0, _, _, _ => .error .endless
  | fuel + 1, iLeft, iRight, aTmp =>
    if iRight < nRight ∨ iLeft < nLeft then do
      let (logpage, iLeft, iRight) :=
        if iLeft < nLeft
            ∧ (nRight ≤ iRight ∨ aContent (mem (aLeft + iLeft)) < aContent (mem (aRight + iRight))) then
          (mem (aLeft + iLeft), iLeft + 1, iRight)
        else (mem (aRight + iRight), iLeft, iRight + 1)
      let dbpage := aContent logpage
      let iLeft := if iLeft < nLeft ∧ aContent (mem (aLeft + iLeft)) = dbpage then iLeft + 1 else iLeft
      walAssert (nLeft ≤ iLeft ∨ dbpage < aContent (mem (aLeft + iLeft)))
      walAssert (nRight ≤ iRight ∨ dbpage < aContent (mem (aRight + iRight)))
      walMergeLoop fuel iLeft iRight (aTmp ++ [logpage])
    else .ok aTmp

/-- The memory, `*paRight` and `*pnRight`. -/
def walMerge : Except WalFault ((ℕ → ℕ) × ℕ × ℕ) := do
  walAssert (0 < nLeft ∧ 0 < nRight)
  let aTmp ← walMergeLoop aContent mem aLeft nLeft aRight nRight (nLeft + nRight + 1) 0 0 []
  return (copySlots mem aLeft aTmp, aLeft, aTmp.length)

end Merge

structure Sublist where
  nList : ℕ
  /-- `none` is the null pointer. -/
  aList : Option ℕ

/-- `ArraySize(aSub)` -/
def nSub : ℕ := 13

section Mergesort

variable (aContent : ℕ → ℕ) (aList : ℕ)

/-- Merges `aSub[iSub]` with `aMerge`; the sublist is asserted to begin at
`aList[iList & ~((2<<iSub)-1)]`. -/
def mergeSub (aSub : ℕ → Sublist) (iList iSub : ℕ) (mem : ℕ → ℕ) (aMerge nMerge : ℕ) :
    Except WalFault ((ℕ → ℕ) × ℕ × ℕ) := do
  walAssert (iSub < nSub)
  let p := aSub iSub
  walAssert (p.nList ≤ 1 <<< iSub)
  walAssert (p.aList = some (aList + (iList - iList % 2 <<< iSub)))
  walMerge aContent mem (p.aList.getD 0) p.nList aMerge nMerge

/-- The inner loop over the sublists, with `iSub` at its end. -/
def mergeFull (aSub : ℕ → Sublist) (iList : ℕ) :
    ℕ → ℕ → (ℕ → ℕ) → ℕ → ℕ → Except WalFault ((ℕ → ℕ) × ℕ × ℕ × ℕ)
  | 0, _, _, _, _ => .error .endless
  | fuel + 1, iSub, mem, aMerge, nMerge =>
    if iList.testBit iSub then do
      let (mem, aMerge, nMerge) ← mergeSub aContent aList aSub iList iSub mem aMerge nMerge
      mergeFull aSub iList fuel (iSub + 1) mem aMerge nMerge
    else .ok (mem, aMerge, nMerge, iSub)

/-- The locals of `walMergesort`. -/
structure MergeState where
  mem : ℕ → ℕ
  aSub : ℕ → Sublist
  aMerge : ℕ
  nMerge : ℕ
  iSub : ℕ

/-- The loop over the elements of the list; `n` of them are left. -/
def mergeElements : ℕ → ℕ → MergeState → Except WalFault MergeState
  | 0, _, s => .ok s
  | n + 1, iList, s => do
    let (mem, aMerge, nMerge, iSub) ← mergeFull aContent aList s.aSub iList (nSub + 1) 0 s.mem (aList + iList) 1
    walAssert (iSub < nSub)
    let aSub := Function.update s.aSub iSub ⟨nMerge, some aMerge⟩
    mergeElements n (iList + 1) ⟨mem, aSub, aMerge, nMerge, iSub⟩

/-- The last loop, which merges the sublists that are left; `n` indices are to be looked at. -/
def mergeRest (aSub : ℕ → Sublist) (nList : ℕ) :
    ℕ → ℕ → (ℕ → ℕ) → ℕ → ℕ → Except WalFault ((ℕ → ℕ) × ℕ × ℕ)
  | 0, _, mem, aMerge, nMerge => .ok (mem, aMerge, nMerge)
  | n + 1, iSub, mem, aMerge, nMerge =>
    if nList.testBit iSub then do
      let (mem, aMerge, nMerge) ← mergeSub aContent aList aSub nList iSub mem aMerge nMerge
      mergeRest aSub nList n (iSub + 1) mem aMerge nMerge
    else mergeRest aSub nList n (iSub + 1) mem aMerge nMerge

/-- The memory with the sorted list, and `*pnList`. -/
def walMergesort (mem : ℕ → ℕ) (nList : ℕ) : Except WalFault ((ℕ → ℕ) × ℕ) := do
  walAssert (nList ≤ HASHTABLE_NPAGE ∧ 0 < nList)
  let s ← mergeElements aContent aList nList 0 ⟨mem, fun _ => ⟨0, none⟩, 0, 0, 0⟩
  let (mem, aMerge, nMerge) ←
    mergeRest aContent aList s.aSub nList (nSub - (s.iSub + 1)) (s.iSub + 1) s.mem s.aMerge s.nMerge
  walAssert (aMerge = aList)
  walAssert (∀ i < nMerge - 1, aContent (mem (aList + i)) < aContent (mem (aList + (i + 1))))
  return (mem, nMerge)

end Mergesort

/-! ## Lists in memory -/

/-- The list `l` stands in memory from `a` on. -/
def HoldsAt (mem : ℕ → ℕ) : ℕ → List ℕ → Prop
  | _, [] => True
  | a, x :: l => mem a = x ∧ HoldsAt mem (a + 1) l

section Memory

variable {mem mem' : ℕ → ℕ} {a i : ℕ} {l : List ℕ}

theorem HoldsAt.congr : ∀ {a : ℕ} {l : List ℕ}, (∀ i, a ≤ i → i < a + l.length → mem' i = mem i) →
    HoldsAt mem a l → HoldsAt mem' a l
  | _, [], _, _ => trivial
  | a, x :: l, h, hl => by
    rw [List.length_cons] at h
    exact ⟨(h a le_rfl (by omega)).trans hl.1, hl.2.congr fun i h1 h2 => h i (by omega) (by omega)⟩

theorem copySlots_out : ∀ {a : ℕ} {l : List ℕ}, i < a ∨ a + l.length ≤ i → copySlots mem a l i = mem i
  | _, [], _ => rfl
  | a, x :: l, h => by
    rw [List.length_cons] at h
    rw [copySlots, Function.update_of_ne (by omega), copySlots_out (by omega)]

theorem holdsAt_copySlots : ∀ {a : ℕ} {l : List ℕ}, HoldsAt (copySlots mem a l) a l
  | _, [] => trivial
  | a, x :: l => by
    refine ⟨Function.update_self .., holdsAt_copySlots.congr fun i h1 _ => ?_⟩
    exact Function.update_of_ne (by omega) ..

theorem HoldsAt.getElem : ∀ {a : ℕ} {l : List ℕ}, HoldsAt mem a l → ∀ (i : ℕ) (hi : i < l.length),
    mem (a + i) = l[i]
  | _, [], _, i, hi => absurd hi (Nat.not_lt_zero i)
  | _, _ :: _, h, 0, _ => h.1
  | a, x :: l, h, i + 1, hi => by
    rw [List.getElem_cons_succ, ← h.2.getElem i (by simpa using hi), Nat.add_assoc, Nat.add_comm 1 i]

end Memory

/-! ## Merging two lists -/

section Merging

variable {key mem : ℕ → ℕ} {a i n d aLeft nLeft aRight nRight : ℕ} {l ls rs : List ℕ}

theorem walAssert_ok {c : Prop} [Decidable c] (h : c) : walAssert c = .ok () := if_pos h

/-- What is left of a list is behind the page that was taken. -/
theorem assert_ahead (h : HoldsAt mem (a + i) l) (hn : i + l.length = n) (hd : ∀ j ∈ l, d < key j) :
    walAssert (n ≤ i ∨ d < key (mem (a + i))) = .ok () := by
  cases l with
  | nil => exact walAssert_ok (Or.inl hn.ge)
  | cons x l =>
    refine walAssert_ok (Or.inr ?_)
    rw [h.1]
    exact hd x List.mem_cons_self

theorem not_same (h : HoldsAt mem (a + i) l) (hn : i + l.length = n) (hd : ∀ j ∈ l, d < key j) :
    ¬ (i < n ∧ key (mem (a + i)) = d) := by
  rintro ⟨hlt, he⟩
  cases l with
  | nil => exact absurd hn (Nat.ne_of_lt hlt)
  | cons x l =>
    rw [h.1] at he
    exact absurd he (hd x List.mem_cons_self).ne'

theorem walMergeLoop_does : ∀ {fuel : ℕ} {ls rs : List ℕ} {iLeft iRight : ℕ} (aTmp : List ℕ),
    ls.length + rs.length < fuel → iLeft + ls.length = nLeft → iRight + rs.length = nRight →
    HoldsAt mem (aLeft + iLeft) ls → HoldsAt mem (aRight + iRight) rs → Ascending key ls → Ascending key rs →
    walMergeLoop key mem aLeft nLeft aRight nRight fuel iLeft iRight aTmp = .ok (aTmp ++ merge key ls rs)
  | 0, _, _, _, _, _, hf, _, _, _, _, _, _ => by omega
  | fuel + 1, [], [], iLeft, iRight, aTmp, _, hl, hr, _, _, _, _ => by
    simp only [List.length_nil, Nat.add_zero] at hl hr
    rw [walMergeLoop, if_neg (by omega), merge_nil_left, List.append_nil]
  | fuel + 1, [], r :: rs, iLeft, iRight, aTmp, hf, hl, hr, hm, hm', ha, ha' => by
    rw [List.length_cons] at hr hf
    obtain ⟨h1, h2⟩ := ascending_cons.1 ha'
    have hd : ∀ j ∈ ([] : List ℕ), key r < key j := fun j hj => absurd hj List.not_mem_nil
    rw [walMergeLoop, if_pos (by omega), if_neg (by rw [List.length_nil] at hl; omega)]
    simp only [hm'.1]
    rw [if_neg (not_same hm hl hd), assert_ahead hm hl hd,
      assert_ahead (i := iRight + 1) hm'.2 (by omega) h1]
    refine (walMergeLoop_does _ (by omega) hl (by omega) hm hm'.2 ha h2).trans ?_
    rw [merge_nil_left, merge_nil_left, List.append_assoc, List.singleton_append]
  | fuel + 1, l :: ls, [], iLeft, iRight, aTmp, hf, hl, hr, hm, hm', ha, ha' => by
    rw [List.length_cons] at hl hf
    rw [List.length_nil] at hr
    obtain ⟨h1, h2⟩ := ascending_cons.1 ha
    have hd : ∀ j ∈ ([] : List ℕ), key l < key j := fun j hj => absurd hj List.not_mem_nil
    rw [walMergeLoop, if_pos (by omega), if_pos ⟨by omega, Or.inl (by omega)⟩]
    simp only [hm.1]
    rw [if_neg (not_same (i := iLeft + 1) hm.2 (by omega) h1),
      assert_ahead (i := iLeft + 1) hm.2 (by omega) h1, assert_ahead hm' hr hd]
    refine (walMergeLoop_does _ (by simpa using hf) (by omega) hr hm.2 hm' h2 ha').trans ?_
    rw [merge_nil_right, merge_nil_right, List.append_assoc, List.singleton_append]
  | fuel + 1, l :: ls, r :: rs, iLeft, iRight, aTmp, hf, hl, hr, hm, hm', ha, ha' => by
    rw [List.length_cons] at hl hr
    rw [List.length_cons, List.length_cons] at hf
    obtain ⟨h1, h2⟩ := ascending_cons.1 ha
    obtain ⟨h3, h4⟩ := ascending_cons.1 ha'
    have hc : iLeft < nLeft ∧ (nRight ≤ iRight ∨ key (mem (aLeft + iLeft)) < key (mem (aRight + iRight)))
        ↔ key l < key r := by
      rw [hm.1, hm'.1]
      omega
    rw [walMergeLoop, if_pos (by omega)]
    rcases lt_trichotomy (key l) (key r) with h | h | h
    · have hr' : ∀ j ∈ r :: rs, key l < key j := List.forall_mem_cons.2 ⟨h, fun j hj => h.trans (h3 j hj)⟩
      rw [if_pos (hc.2 h)]
      simp only [hm.1]
      rw [if_neg (not_same (i := iLeft + 1) hm.2 (by omega) h1),
        assert_ahead (i := iLeft + 1) hm.2 (by omega) h1, assert_ahead hm' (by simpa using hr) hr']
      refine (walMergeLoop_does _ (by rw [List.length_cons]; omega) (by omega) hr hm.2 hm' h2 ha').trans ?_
      rw [merge_lt h, List.append_assoc, List.singleton_append]
    · rw [if_neg (mt hc.1 h.not_lt)]
      simp only [hm'.1]
      rw [if_pos ⟨by omega, by rw [hm.1, h]⟩, assert_ahead (i := iLeft + 1) hm.2 (by omega) (h ▸ h1),
        assert_ahead (i := iRight + 1) hm'.2 (by omega) h3]
      refine (walMergeLoop_does _ (by omega) (by omega) (by omega) hm.2 hm'.2 h2 h4).trans ?_
      rw [merge_eq h, List.append_assoc, List.singleton_append]
    · have hl' : ∀ j ∈ l :: ls, key r < key j := List.forall_mem_cons.2 ⟨h, fun j hj => h.trans (h1 j hj)⟩
      rw [if_neg (mt hc.1 h.not_gt)]
      simp only [hm'.1]
      rw [if_neg (not_same hm (by simpa using hl) hl'), assert_ahead hm (by simpa using hl) hl',
        assert_ahead (i := iRight + 1) hm'.2 (by omega) h3]
      refine (walMergeLoop_does _ (by rw [List.length_cons]; omega) hl (by omega) hm hm'.2 ha h4).trans ?_
      rw [merge_gt h, List.append_assoc, List.singleton_append]

theorem walMerge_does (hl : HoldsAt mem aLeft ls) (hr : HoldsAt mem aRight rs) (ha : Ascending key ls)
    (ha' : Ascending key rs) (hne : ls ≠ []) (hne' : rs ≠ []) :
    walMerge key mem aLeft ls.length aRight rs.length
      = .ok (copySlots mem aLeft (merge key ls rs), aLeft, (merge key ls rs).length) := by
  have hrun := walMergeLoop_does [] (Nat.lt_succ_self (ls.length + rs.length)) (Nat.zero_add _)
    (Nat.zero_add _) hl hr ha ha'
  unfold walMerge
  rw [walAssert_ok ⟨List.length_pos_iff.2 hne, List.length_pos_iff.2 hne'⟩]
  simp only [Bind.bind, Except.bind, hrun, List.nil_append]
  rfl

end Merging

/-! ## Bits of a count -/

section Bits

variable {n k j : ℕ}

theorem mod_succ_of_bit (h : n.testBit k = true) : n % 2 ^ (k + 1) = n % 2 ^ k + 2 ^ k := by
  have hb : n / 2 ^ k % 2 = 1 := by simpa [Nat.testBit_eq_decide_div_mod_eq] using h
  rw [Nat.mod_pow_succ, hb, Nat.mul_one]

theorem mod_succ_of_not (h : n.testBit k = false) : n % 2 ^ (k + 1) = n % 2 ^ k := by
  have hb : n / 2 ^ k % 2 = 0 := by simpa [Nat.testBit_eq_decide_div_mod_eq] using h
  rw [Nat.mod_pow_succ, hb, Nat.mul_zero, Nat.add_zero]

theorem mod_pow_mono (h : k ≤ j) : n % 2 ^ k ≤ n % 2 ^ j := by
  rw [← Nat.mod_mod_of_dvd n (Nat.pow_dvd_pow 2 h)]
  exact Nat.mod_le _ _

/-- What counting one more does, when the bits below `k` are all set and bit `k` is not. -/
structure Carries (n k : ℕ) : Prop where
  low : n % 2 ^ k + 1 = 2 ^ k
  bit : (n + 1).testBit k = true
  mod : (n + 1) % 2 ^ (k + 1) = 2 ^ k
  below : ∀ j < k, (n + 1).testBit j = false
  above : ∀ j, k < j → (n + 1).testBit j = n.testBit j
  start : ∀ j, k < j → n + 1 - (n + 1) % 2 ^ (j + 1) = n - n % 2 ^ (j + 1)

theorem low_of_mod (h : (n + 1) % 2 ^ k = 0) : n % 2 ^ k + 1 = 2 ^ k := by
  have hlt : n % 2 ^ k < 2 ^ k := Nat.mod_lt _ (Nat.two_pow_pos k)
  have hdiv := Nat.div_add_mod n (2 ^ k)
  by_contra hne
  have hsum : n + 1 = 2 ^ k * (n / 2 ^ k) + (n % 2 ^ k + 1) := by omega
  rw [hsum, Nat.mul_add_mod, Nat.mod_eq_of_lt (by omega)] at h
  omega

theorem carries (h : (n + 1) % 2 ^ k = 0) (hb : n.testBit k = false) : Carries n k := by
  have hlow := low_of_mod h
  have hpow : 2 ^ (k + 1) = 2 ^ k + 2 ^ k := by rw [Nat.pow_succ]; omega
  have hn : n % 2 ^ (k + 1) + 1 = 2 ^ k := by rw [mod_succ_of_not hb, hlow]
  have hdiv := Nat.div_add_mod n (2 ^ (k + 1))
  have hq : (n + 1) / 2 ^ (k + 1) = n / 2 ^ (k + 1) := by
    refine Nat.div_eq_of_lt_le ?_ ?_
    · rw [Nat.mul_comm]
      omega
    · rw [Nat.add_mul, Nat.mul_comm, Nat.one_mul]
      omega
  have hmod : (n + 1) % 2 ^ (k + 1) = 2 ^ k := by
    have := Nat.div_add_mod (n + 1) (2 ^ (k + 1))
    rw [hq] at this
    omega
  have hpos := Nat.two_pow_pos k
  refine ⟨hlow, ?_, hmod, fun j hj => ?_, fun j hj => ?_, fun j hj => ?_⟩
  · by_contra hne
    have := mod_succ_of_not (Bool.eq_false_iff.2 hne)
    omega
  · by_contra hne
    have h1 := mod_succ_of_bit (Bool.eq_true_of_not_eq_false hne)
    have h2 : (n + 1) % 2 ^ (j + 1) ≤ (n + 1) % 2 ^ k := mod_pow_mono hj
    have := Nat.two_pow_pos j
    omega
  · obtain ⟨d, rfl⟩ : ∃ d, j = d + (k + 1) := ⟨j - (k + 1), by omega⟩
    rw [← Nat.testBit_div_two_pow, ← Nat.testBit_div_two_pow, hq]
  · obtain ⟨d, hd⟩ : ∃ d, j + 1 = k + 1 + d := ⟨j - k, by omega⟩
    have h1 := Nat.div_add_mod n (2 ^ (j + 1))
    have h2 := Nat.div_add_mod (n + 1) (2 ^ (j + 1))
    have h3 : (n + 1) / 2 ^ (j + 1) = n / 2 ^ (j + 1) := by
      rw [hd, Nat.pow_add, ← Nat.div_div_eq_div_mul, ← Nat.div_div_eq_div_mul, hq]
    rw [h3] at h2
    omega

end Bits

/-! ## The sort -/

/-- After `n` elements a set bit `k` of `n` stands for a sorted part of the array. -/
def SubAt (key : ℕ → ℕ) (aList : ℕ) (mem : ℕ → ℕ) (n k : ℕ) (p : Sublist) : Prop :=
  ∃ l, p = ⟨l.length, some (aList + (n - n % 2 ^ (k + 1)))⟩
    ∧ HoldsAt mem (aList + (n - n % 2 ^ (k + 1))) l
    ∧ Lasts key (n - n % 2 ^ (k + 1)) (n - n % 2 ^ (k + 1) + 2 ^ k) l

section Sorting

variable {key : ℕ → ℕ} {aList : ℕ} {mem mem' mem₀ : ℕ → ℕ} {n k N hi : ℕ} {p : Sublist} {aSub : ℕ → Sublist}
  {r : List ℕ}

/-- The part ends where the elements that stand for the lower bits begin. -/
theorem start_add (hb : n.testBit k = true) : n - n % 2 ^ (k + 1) + 2 ^ k = n - n % 2 ^ k := by
  have h1 := mod_succ_of_bit hb
  have h2 := Nat.mod_le n (2 ^ (k + 1))
  omega

theorem SubAt.congr (hb : n.testBit k = true) (hmem : ∀ i < aList + (n - n % 2 ^ k), mem' i = mem i)
    (h : SubAt key aList mem n k p) : SubAt key aList mem' n k p := by
  obtain ⟨l, h1, h2, h3⟩ := h
  refine ⟨l, h1, h2.congr fun i _ hi => hmem i ?_, h3⟩
  have := h3.length_le
  have := start_add hb
  omega

theorem mergeSub_does (hk : k < nSub) (hb : n.testBit k = true) (hs : SubAt key aList mem n k (aSub k))
    (hlt : n - n % 2 ^ k < hi) (hr : HoldsAt mem (aList + (n - n % 2 ^ k)) r)
    (hl : Lasts key (n - n % 2 ^ k) hi r) :
    ∃ mem' r', mergeSub key aList aSub n k mem (aList + (n - n % 2 ^ k)) r.length
        = .ok (mem', aList + (n - n % 2 ^ (k + 1)), r'.length)
      ∧ HoldsAt mem' (aList + (n - n % 2 ^ (k + 1))) r' ∧ Lasts key (n - n % 2 ^ (k + 1)) hi r'
      ∧ ∀ i, i < aList + (n - n % 2 ^ (k + 1)) ∨ aList + hi ≤ i → mem' i = mem i := by
  obtain ⟨l, h1, h2, h3⟩ := hs
  have hstart := start_add hb
  have hpos := Nat.two_pow_pos k
  have hlen := h3.length_le
  rw [Nat.add_sub_cancel_left] at hlen
  have hshift : 2 <<< k = 2 ^ (k + 1) := by rw [Nat.shiftLeft_eq, Nat.pow_succ, Nat.mul_comm]
  rw [hstart] at h3
  have hm := h3.merge hl (by omega) hlt.le
  refine ⟨_, _, ?_, holdsAt_copySlots, hm, fun i hi => copySlots_out ?_⟩
  · unfold mergeSub
    rw [walAssert_ok hk, h1]
    simp only [Bind.bind, Except.bind]
    rw [walAssert_ok (by rwa [Nat.one_shiftLeft]), walAssert_ok (by rw [hshift])]
    exact walMerge_does h2 hr h3.ascending hl.ascending (h3.ne_nil (by omega)) (hl.ne_nil hlt)
  · have := hm.length_le
    omega

theorem mergeFull_does (hn : n < HASHTABLE_NPAGE) : ∀ (fuel : ℕ) {k : ℕ} {mem : ℕ → ℕ} {r : List ℕ},
    k + fuel = nSub + 1 → (n + 1) % 2 ^ k = 0 →
    (∀ j, k ≤ j → n.testBit j = true → SubAt key aList mem n j (aSub j)) →
    HoldsAt mem (aList + (n - n % 2 ^ k)) r → Lasts key (n - n % 2 ^ k) (n + 1) r →
    ∃ mem' k' r', mergeFull key aList aSub n fuel k mem (aList + (n - n % 2 ^ k)) r.length
        = .ok (mem', aList + (n - n % 2 ^ k'), r'.length, k')
      ∧ k ≤ k' ∧ k' < nSub ∧ (n + 1) % 2 ^ k' = 0 ∧ n.testBit k' = false
      ∧ HoldsAt mem' (aList + (n - n % 2 ^ k')) r' ∧ Lasts key (n - n % 2 ^ k') (n + 1) r'
      ∧ ∀ i, i < aList + (n - n % 2 ^ k') ∨ aList + (n + 1) ≤ i → mem' i = mem i
  | fuel, k, mem, r, hf, hlow, hsub, hr, hl => by
    have hk : k < nSub := by
      by_contra hge
      have hle : 2 ^ k ≤ n + 1 := Nat.le_of_dvd (Nat.succ_pos n) (Nat.dvd_of_mod_eq_zero hlow)
      have : 2 ^ nSub ≤ 2 ^ k := Nat.pow_le_pow_right (by omega) (Nat.le_of_not_lt hge)
      have h13 : 2 ^ nSub = 2 * HASHTABLE_NPAGE := by decide
      omega
    cases fuel with
    | zero => omega
    | succ fuel =>
      unfold mergeFull
      cases hb : n.testBit k with
      | false =>
        rw [if_neg (by simp)]
        exact ⟨mem, k, r, rfl, le_rfl, hk, hlow, hb, hr, hl, fun _ _ => rfl⟩
      | true =>
        have hlt : n - n % 2 ^ k < n + 1 := by omega
        obtain ⟨mem1, r1, hrun, hr1, hl1, hout⟩ := mergeSub_does hk hb (hsub k le_rfl hb) hlt hr hl
        have hlow' : (n + 1) % 2 ^ (k + 1) = 0 := by
          have h1 := low_of_mod hlow
          have h2 := mod_succ_of_bit hb
          have h3 := Nat.div_add_mod n (2 ^ (k + 1))
          have hpow : 2 ^ (k + 1) = 2 ^ k + 2 ^ k := by rw [Nat.pow_succ]; omega
          have hsum : n + 1 = 2 ^ (k + 1) * (n / 2 ^ (k + 1) + 1) := by
            rw [Nat.mul_add, Nat.mul_one]
            omega
          rw [hsum, Nat.mul_mod_right]
        have hsub1 : ∀ j, k + 1 ≤ j → n.testBit j = true → SubAt key aList mem1 n j (aSub j) := fun j hj hbj =>
          (hsub j (by omega) hbj).congr hbj fun i hi => hout i (Or.inl (by
            have : n % 2 ^ (k + 1) ≤ n % 2 ^ j := mod_pow_mono hj
            omega))
        obtain ⟨mem2, k2, r2, hrun2, h3, h4, h5, h6, h7, h8, h9⟩ := mergeFull_does hn fuel (by omega) hlow' hsub1
          hr1 hl1
        refine ⟨mem2, k2, r2, ?_, by omega, h4, h5, h6, h7, h8, fun i hi => (h9 i hi).trans (hout i ?_)⟩
        · rw [if_pos rfl]
          simp only [Bind.bind, Except.bind, hrun]
          exact hrun2
        · have : n % 2 ^ (k + 1) ≤ n % 2 ^ k2 := mod_pow_mono h3
          omega

/-- The state after `n` of `N` elements. -/
structure Parts (key : ℕ → ℕ) (aList : ℕ) (mem₀ : ℕ → ℕ) (n N : ℕ) (s : MergeState) : Prop where
  subs : ∀ k, n.testBit k = true → SubAt key aList s.mem n k (s.aSub k)
  rest : ∀ i, n ≤ i → i < N → s.mem (aList + i) = i
  out : ∀ i, i < aList ∨ aList + N ≤ i → s.mem i = mem₀ i
  low : 0 < n → n.testBit s.iSub = true ∧ n % 2 ^ s.iSub = 0 ∧ s.aSub s.iSub = ⟨s.nMerge, some s.aMerge⟩

theorem mergeElements_does (hN : N ≤ HASHTABLE_NPAGE) : ∀ {m n : ℕ} {s : MergeState}, n + m = N →
    Parts key aList mem₀ n N s →
    ∃ s', mergeElements key aList m n s = .ok s' ∧ Parts key aList mem₀ N N s'
  | 0, n, s, hm, h => by
    obtain rfl : n = N := hm
    exact ⟨s, rfl, h⟩
  | m + 1, n, s, hm, h => by
    have h0 : n % 2 ^ 0 = 0 := Nat.mod_one n
    have hone : HoldsAt s.mem (aList + (n - n % 2 ^ 0)) [n] := by
      rw [h0]
      exact ⟨h.rest n le_rfl (by omega), trivial⟩
    have hlast : Lasts key (n - n % 2 ^ 0) (n + 1) [n] := by
      rw [h0]
      exact Lasts.single n
    have hsub : ∀ j, 0 ≤ j → n.testBit j = true → SubAt key aList s.mem n j (s.aSub j) := fun j _ => h.subs j
    obtain ⟨mem1, k, r, hrun, -, hk, hlow, hb, hr, hl, hout⟩ := mergeFull_does (by omega) (nSub + 1)
      (Nat.zero_add _) (Nat.mod_one _) hsub hone hlast
    have hc := carries hlow hb
    have hclow := hc.low
    have hpos := Nat.two_pow_pos k
    have hle := Nat.mod_le n (2 ^ k)
    have hstart : n + 1 - (n + 1) % 2 ^ (k + 1) = n - n % 2 ^ k := by
      rw [hc.mod]
      omega
    rw [mergeElements]
    rw [h0, Nat.sub_zero] at hrun
    simp only [Bind.bind, Except.bind, List.length_singleton] at hrun ⊢
    rw [hrun]
    simp only
    rw [walAssert_ok hk]
    refine mergeElements_does hN (by omega) ⟨fun j hbj => ?_, fun i hi hiN => ?_, fun i hi => ?_, fun _ => ?_⟩
    · rcases Nat.lt_trichotomy j k with hj | rfl | hj
      · rw [hc.below j hj] at hbj
        exact absurd hbj Bool.false_ne_true
      · refine ⟨r, ?_, ?_, ?_⟩
        · simp only [Function.update_self, hstart]
        · rwa [hstart]
        · rw [hstart]
          have : n - n % 2 ^ j + 2 ^ j = n + 1 := by omega
          rwa [this]
      · have hbn : n.testBit j = true := (hc.above j hj).symm.trans hbj
        simp only
        rw [Function.update_of_ne hj.ne']
        have := (h.subs j hbn).congr hbn fun i hi => hout i (Or.inl (by
          have : n % 2 ^ k ≤ n % 2 ^ j := mod_pow_mono hj.le
          omega))
        unfold SubAt at this ⊢
        rwa [hc.start j hj]
    · exact (hout _ (by omega)).trans (h.rest i (by omega) hiN)
    · exact (hout i (by omega)).trans (h.out i hi)
    · exact ⟨hc.bit, hlow, Function.update_self ..⟩

theorem mergeRest_does (hN : N ≤ HASHTABLE_NPAGE) : ∀ (m : ℕ) {k : ℕ} {mem : ℕ → ℕ} {r : List ℕ}, k + m = nSub →
    0 < N % 2 ^ k → (∀ j, k ≤ j → N.testBit j = true → SubAt key aList mem N j (aSub j)) →
    HoldsAt mem (aList + (N - N % 2 ^ k)) r → Lasts key (N - N % 2 ^ k) N r →
    ∃ mem' r', mergeRest key aList aSub N m k mem (aList + (N - N % 2 ^ k)) r.length
        = .ok (mem', aList, r'.length)
      ∧ HoldsAt mem' aList r' ∧ Lasts key 0 N r'
      ∧ ∀ i, i < aList ∨ aList + N ≤ i → mem' i = mem i
  | 0, k, mem, r, hm, hpos, hsub, hr, hl => by
    have hlt : N < 2 ^ k := by
      have h13 : 2 ^ nSub = 2 * HASHTABLE_NPAGE := by decide
      have h0 : 0 < HASHTABLE_NPAGE := by decide
      obtain rfl : k = nSub := hm
      omega
    rw [Nat.mod_eq_of_lt hlt, Nat.sub_self] at hr hl ⊢
    exact ⟨mem, r, rfl, hr, hl, fun _ _ => rfl⟩
  | m + 1, k, mem, r, hm, hpos, hsub, hr, hl => by
    rw [mergeRest]
    cases hb : N.testBit k with
    | false =>
      rw [if_neg (by simp)]
      rw [← mod_succ_of_not hb] at hr hl hpos ⊢
      exact mergeRest_does hN m (by omega) hpos (fun j hj => hsub j (by omega)) hr hl
    | true =>
      have hle := Nat.mod_le N (2 ^ k)
      obtain ⟨mem1, r1, hrun, hr1, hl1, hout⟩ := mergeSub_does (by omega) hb (hsub k le_rfl hb) (by omega) hr hl
      have hsub1 : ∀ j, k + 1 ≤ j → N.testBit j = true → SubAt key aList mem1 N j (aSub j) := fun j hj hbj =>
        (hsub j (by omega) hbj).congr hbj fun i hi => hout i (Or.inl (by
          have : N % 2 ^ (k + 1) ≤ N % 2 ^ j := mod_pow_mono hj
          omega))
      have hpos1 : 0 < N % 2 ^ (k + 1) := hpos.trans_le (mod_pow_mono (Nat.le_succ k))
      obtain ⟨mem2, r2, hrun2, h1, h2, h3⟩ := mergeRest_does hN m (by omega) hpos1 hsub1 hr1 hl1
      refine ⟨mem2, r2, ?_, h1, h2, fun i hi => (h3 i hi).trans (hout i (by omega))⟩
      rw [if_pos rfl]
      simp only [Bind.bind, Except.bind, hrun]
      exact hrun2

variable (key) in
/-- Sorting the first `N` indices leaves the last index of each key, in the order of the keys; memory outside
of the array stays, and no assertion fails. -/
theorem walMergesort_does (h0 : 0 < N) (hN : N ≤ HASHTABLE_NPAGE) (hid : ∀ i < N, mem (aList + i) = i) :
    ∃ mem' l, walMergesort key aList mem N = .ok (mem', l.length) ∧ HoldsAt mem' aList l ∧ Lasts key 0 N l
      ∧ ∀ i, i < aList ∨ aList + N ≤ i → mem' i = mem i := by
  have hstart : Parts key aList mem 0 N ⟨mem, fun _ => ⟨0, none⟩, 0, 0, 0⟩ :=
    ⟨fun k hk => absurd hk (by simp), fun i _ hi => hid i hi, fun _ _ => rfl, fun h => absurd h (lt_irrefl 0)⟩
  obtain ⟨s, hrun, hs⟩ := mergeElements_does hN (Nat.zero_add N) hstart
  obtain ⟨hb, hmod, heq⟩ := hs.low h0
  obtain ⟨l, hl, hat, hlast⟩ := hs.subs _ hb
  rw [heq] at hl
  obtain ⟨hn, ha⟩ : s.nMerge = l.length ∧ s.aMerge = aList + (N - N % 2 ^ (s.iSub + 1)) := by
    simpa using hl
  have hend : N - N % 2 ^ (s.iSub + 1) + 2 ^ s.iSub = N := by
    rw [start_add hb, hmod, Nat.sub_zero]
  rw [hend] at hlast
  have hk : s.iSub < nSub := by
    by_contra hge
    have := Nat.ge_two_pow_of_testBit hb
    have : 2 ^ nSub ≤ 2 ^ s.iSub := Nat.pow_le_pow_right (by omega) (Nat.le_of_not_lt hge)
    have h13 : 2 ^ nSub = 2 * HASHTABLE_NPAGE := by decide
    omega
  have hpos : 0 < N % 2 ^ (s.iSub + 1) := by
    rw [mod_succ_of_bit hb]
    exact Nat.add_pos_right _ (Nat.two_pow_pos _)
  obtain ⟨mem', r, hrun2, h1, h2, h3⟩ := mergeRest_does hN (nSub - (s.iSub + 1))
    (by omega) hpos (fun j _ hbj => hs.subs j hbj) hat hlast
  refine ⟨mem', r, ?_, h1, h2, fun i hi => (h3 i hi).trans (hs.out i hi)⟩
  have hsorted : ∀ i < r.length - 1, key (mem' (aList + i)) < key (mem' (aList + (i + 1))) := fun i hi => by
    rw [h1.getElem i (by omega), h1.getElem (i + 1) (by omega)]
    exact List.pairwise_iff_getElem.1 h2.ascending i (i + 1) (by omega) (by omega) (Nat.lt_succ_self i)
  unfold walMergesort
  rw [walAssert_ok ⟨hN, h0⟩]
  simp only [Bind.bind, Except.bind, hrun]
  rw [hn, ha, hrun2]
  simp only
  rw [walAssert_ok trivial, walAssert_ok hsorted]
  rfl

end Sorting

end Btreelite
