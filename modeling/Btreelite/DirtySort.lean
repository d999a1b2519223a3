import Btreelite.Pcache

/-!
# Sorting the dirty pages

At a commit the dirty pages are linked by `pDirty` and sorted by page number: a merge sort with an
array of buckets, bucket `i` holding a list of `2^i` pages or none, and one bucket at the end for what
the others cannot hold.

A list is known by its first page and the fields `pDirty`. The loops take their fuel from the caller;
on a list that ends they need no more than it has pages.
-/

namespace Btreelite

open Function

inductive SortFault
  /-- A null pointer is followed. -/
  | nullPointer
  | fuel
  deriving DecidableEq

section Code

variable {α : Type} [DecidableEq α] (pgno : α → ℕ) (fuel : ℕ)

/-- The loop of `pcacheMergeDirtyList`. The fields `pDirty` of the pages and, at `none`, that of the
local `result`. -/
def mergeLoop : ℕ → (Option α → Option α) → Option α → α → α → Except SortFault (Option α → Option α)
  | 0, _, _, _, _ => .error .fuel
  | fuel + 1, pDirty, pTail, pA, pB =>
    if pgno pA < pgno pB then
      let pDirty := update pDirty pTail (some pA)
      match pDirty (some pA) with
      | none => .ok (update pDirty (some pA) (some pB))
      | some pA' => mergeLoop fuel pDirty (some pA) pA' pB
    else
      let pDirty := update pDirty pTail (some pB)
      match pDirty (some pB) with
      | none => .ok (update pDirty (some pB) (some pA))
      | some pB' => mergeLoop fuel pDirty (some pB) pA pB'

def pcacheMergeDirtyList (pDirty : Option α → Option α) (pA pB : Option α) :
    Except SortFault ((Option α → Option α) × Option α) :=
  match pA, pB with
  | some pA, some pB => do
    let pDirty ← mergeLoop pgno fuel pDirty none pA pB
    return (pDirty, pDirty none)
  | _, _ => .error .nullPointer

/-- The loop that finds a bucket for the list `p`: the buckets `a[]` from the current one on, without
the last. The last one is merged with, when no other is free. -/
def placeInBucket : List (Option α) → Option α → (Option α → Option α) → Option α →
    Except SortFault ((Option α → Option α) × List (Option α) × Option α)
  | [], last, pDirty, p => do
    let (pDirty, p) ← pcacheMergeDirtyList pgno fuel pDirty last p
    return (pDirty, [], p)
  | none :: a, last, pDirty, p => .ok (pDirty, p :: a, last)
  | some q :: a, last, pDirty, p => do
    let (pDirty, p) ← pcacheMergeDirtyList pgno fuel pDirty (some q) p
    let (pDirty, a, last) ← placeInBucket a last pDirty p
    return (pDirty, none :: a, last)

/-- The loop over the pages of the input. -/
def fillBuckets : ℕ → (Option α → Option α) → Option α → List (Option α) → Option α →
    Except SortFault ((Option α → Option α) × List (Option α) × Option α)
  | _, pDirty, none, a, last => .ok (pDirty, a, last)
  | 0, _, some _, _, _ => .error .fuel
  | n + 1, pDirty, some p, a, last => do
    let pIn := pDirty (some p)
    let (pDirty, a, last) ← placeInBucket pgno fuel a last (update pDirty (some p) none) (some p)
    fillBuckets n pDirty pIn a last

/-- The loop that merges the buckets. -/
def mergeBuckets : List (Option α) → (Option α → Option α) → Option α →
    Except SortFault ((Option α → Option α) × Option α)
  | [], pDirty, p => .ok (pDirty, p)
  | none :: a, pDirty, p => mergeBuckets a pDirty p
  | some q :: a, pDirty, none => mergeBuckets a pDirty (some q)
  | some q :: a, pDirty, some p => do
    let (pDirty, p) ← pcacheMergeDirtyList pgno fuel pDirty (some p) (some q)
    mergeBuckets a pDirty p

/-- `N_SORT_BUCKET`. -/
def nSortBucket : ℕ := 32

def pcacheSortDirtyList (pDirty : Option α → Option α) (pIn : Option α) :
    Except SortFault ((Option α → Option α) × Option α) := do
  let (pDirty, a, last) ←
    fillBuckets pgno fuel fuel pDirty pIn (List.replicate (nSortBucket - 1) none) none
  match a ++ [last] with
  | [] => return (pDirty, none)
  | p :: a => mergeBuckets pgno fuel a pDirty p

/-- `p->pDirty = p->pDirtyNext` for every page of the dirty list. -/
def linkDirty (L : Links α) : ℕ → Option α → (Option α → Option α) → Except SortFault (Option α → Option α)
  | _, none, pDirty => .ok pDirty
  | 0, some _, _ => .error .fuel
  | n + 1, some p, pDirty => linkDirty L n (L.next p) (update pDirty (some p) (L.next p))

end Code

/-- `sqlite3PcacheDirtyList`. -/
def PCache.sqlite3PcacheDirtyList (p : PCache) (fuel : ℕ) (pDirty : Option Slot → Option Slot) :
    Except SortFault ((Option Slot → Option Slot) × Option Slot) := do
  let pDirty ← linkDirty p.dirty fuel p.dirty.first pDirty
  pcacheSortDirtyList (fun s => (p.hdr s).pgno) fuel pDirty p.dirty.first

/-! ## Lists of linked pages -/

/-- From `p` on, the links lead through `xs` to the null pointer. -/
def Leads {α : Type} (d : Option α → Option α) : Option α → List α → Prop
  | p, [] => p = none
  | p, x :: xs => p = some x ∧ Leads d (d (some x)) xs

section Chains

variable {α : Type} {pgno : α → ℕ} {d d' : Option α → Option α} {p : Option α} {x y : α}
  {xs ys : List α}

theorem Leads.congr : ∀ {xs : List α} {p : Option α}, (∀ x ∈ xs, d' (some x) = d (some x)) →
    Leads d p xs → Leads d' p xs
  | [], _, _, h => h
  | x :: xs, _, hd, h => by
    refine ⟨h.1, ?_⟩
    rw [hd x List.mem_cons_self]
    exact h.2.congr fun y hy => hd y (List.mem_cons_of_mem _ hy)

theorem Leads.update [DecidableEq α] {q v : Option α} (hq : ∀ x ∈ xs, some x ≠ q) (h : Leads d p xs) :
    Leads (update d q v) p xs :=
  h.congr fun x hx => update_of_ne (hq x hx) ..

/-- The pages stand in the order of their numbers. -/
def ByPgno (pgno : α → ℕ) (xs : List α) : Prop := xs.Pairwise fun x y => pgno x < pgno y

/-- The merge takes a page of the left list when its number is the smaller one. -/
def pgnoMerge (pgno : α → ℕ) (xs ys : List α) : List α :=
  xs.merge ys fun x y => decide (pgno x < pgno y)

theorem pgnoMerge_lt (h : pgno x < pgno y) :
    pgnoMerge pgno (x :: xs) (y :: ys) = x :: pgnoMerge pgno xs (y :: ys) :=
  List.cons_merge_cons_pos _ _ _ (by simpa using h)

theorem pgnoMerge_not_lt (h : ¬ pgno x < pgno y) :
    pgnoMerge pgno (x :: xs) (y :: ys) = y :: pgnoMerge pgno (x :: xs) ys :=
  List.cons_merge_cons_neg _ _ _ (by simpa using h)

@[simp] theorem pgnoMerge_nil_left : pgnoMerge pgno [] ys = ys := by simp [pgnoMerge]

@[simp] theorem pgnoMerge_nil_right : pgnoMerge pgno xs [] = xs := by simp [pgnoMerge]

theorem pgnoMerge_perm : (pgnoMerge pgno xs ys).Perm (xs ++ ys) := List.merge_perm_append _

theorem ByPgno.merge : ∀ {xs ys : List α}, ByPgno pgno xs → ByPgno pgno ys →
    (∀ x ∈ xs, ∀ y ∈ ys, pgno x ≠ pgno y) → ByPgno pgno (pgnoMerge pgno xs ys)
  | [], ys, _, hy, _ => by simpa using hy
  | x :: xs, [], hx, _, _ => by simpa using hx
  | x :: xs, y :: ys, hx, hy, hne => by
    have hx' := List.pairwise_cons.1 hx
    have hy' := List.pairwise_cons.1 hy
    by_cases h : pgno x < pgno y
    · rw [pgnoMerge_lt h]
      refine List.pairwise_cons.2 ⟨fun z hz => ?_, ByPgno.merge hx'.2 hy fun a ha =>
        hne a (List.mem_cons_of_mem _ ha)⟩
      rcases List.mem_append.1 (pgnoMerge_perm.mem_iff.1 hz) with hz | hz
      · exact hx'.1 z hz
      · rcases List.mem_cons.1 hz with rfl | hz
        · exact h
        · exact h.trans (hy'.1 z hz)
    · have hlt : pgno y < pgno x :=
        Nat.lt_of_le_of_ne (Nat.le_of_not_lt h) (hne x List.mem_cons_self y List.mem_cons_self).symm
      rw [pgnoMerge_not_lt h]
      refine List.pairwise_cons.2 ⟨fun z hz => ?_, ByPgno.merge hx hy'.2 fun a ha b hb =>
        hne a ha b (List.mem_cons_of_mem _ hb)⟩
      rcases List.mem_append.1 (pgnoMerge_perm.mem_iff.1 hz) with hz | hz
      · rcases List.mem_cons.1 hz with rfl | hz
        · exact hlt
        · exact hlt.trans (hx'.1 z hz)
      · exact hy'.1 z hz

end Chains

/-! ## Merging two lists -/

section Merge

variable {α : Type} [DecidableEq α] {pgno : α → ℕ} {fuel : ℕ} {d : Option α → Option α}
  {p q : Option α} {xs ys : List α}

/-- The links outside `xs` and the local `result` are as they were. -/
def KeepsLinks (d d' : Option α → Option α) (xs : List α) : Prop := ∀ z, z ∉ xs → d' (some z) = d (some z)

theorem mergeLoop_leads : ∀ (fuel : ℕ) {d : Option α → Option α} (pTail : Option α) {a b : α}
    {as bs : List α}, as.length + bs.length < fuel → Leads d (d (some a)) as → Leads d (d (some b)) bs →
    (a :: as ++ b :: bs).Nodup → (∀ x ∈ a :: as ++ b :: bs, some x ≠ pTail) →
    ∃ d', mergeLoop pgno fuel d pTail a b = .ok d'
      ∧ Leads d' (d' pTail) (pgnoMerge pgno (a :: as) (b :: bs))
      ∧ ∀ q, q ≠ pTail → (∀ x ∈ a :: as ++ b :: bs, some x ≠ q) → d' q = d q
  | 0, _, _, _, _, _, _, hf, _, _, _, _ => by omega
  | fuel + 1, d, pTail, a, b, as, bs, hf, ha, hb, hnd, ht => by
    have hnda : a ∉ as ++ b :: bs := (List.nodup_cons.1 hnd).1
    have hndb : b ∉ a :: as := (List.nodup_append.1 hnd).2.2 |> fun h hm => h b hm b (by simp) rfl
    have hta : some a ≠ pTail := ht a (by simp)
    have htb : some b ≠ pTail := ht b (by simp)
    unfold mergeLoop
    by_cases hlt : pgno a < pgno b
    · -- the page of the left list comes next
      rw [if_pos hlt, pgnoMerge_lt hlt]
      dsimp only
      rw [update_of_ne hta]
      set d1 := update d pTail (some a) with hd1
      have hd1p : d1 pTail = some a := update_self ..
      cases as with
      | nil =>
        have hnil : d (some a) = none := ha
        rw [hnil]
        refine ⟨_, rfl, ?_, fun q hq hx => ?_⟩
        · rw [update_of_ne hta.symm, hd1p, pgnoMerge_nil_left]
          refine ⟨rfl, ?_⟩
          rw [update_self]
          refine ⟨rfl, ?_⟩
          have hba : some b ≠ some a := by simpa using fun h : b = a => hndb (by simp [h])
          rw [update_of_ne hba, hd1, update_of_ne htb]
          refine (hb.update fun x hx => ?_).update fun x hx => ?_
          · exact ht x (by simp [hx])
          · simpa using fun h : x = a => hnda (by simp [← h, hx])
        · rw [update_of_ne (hx a (by simp)).symm, hd1, update_of_ne hq]
      | cons a' as =>
        obtain ⟨h1, h2⟩ := ha
        rw [h1]
        have hfa : ∀ x ∈ a' :: as ++ b :: bs, some x ≠ some a := fun x hx h =>
          hnda (Option.some.inj h ▸ hx)
        have hl : Leads d1 (d1 (some a')) as := by
          rw [hd1, update_of_ne (ht a' (by simp))]
          exact h2.update fun x hx => ht x (by simp [hx])
        have hr : Leads d1 (d1 (some b)) bs := by
          rw [hd1, update_of_ne htb]
          exact hb.update fun x hx => ht x (by simp [hx])
        obtain ⟨d', h3, h4, h5⟩ := mergeLoop_leads fuel (some a)
          (by simp only [List.length_cons] at hf; omega) hl hr (List.nodup_cons.1 hnd).2 hfa
        refine ⟨d', h3, ?_, fun q hq hx => ?_⟩
        · rw [h5 pTail hta.symm fun x hx => ht x (List.mem_cons_of_mem _ hx), hd1p]
          exact ⟨rfl, h4⟩
        · rw [h5 q (hx a (by simp)).symm fun x hx' => hx x (List.mem_cons_of_mem _ hx'), hd1,
            update_of_ne hq]
    · rw [if_neg hlt, pgnoMerge_not_lt hlt]
      dsimp only
      rw [update_of_ne htb]
      set d1 := update d pTail (some b) with hd1
      have hd1p : d1 pTail = some b := update_self ..
      have hab : some a ≠ some b := by simpa using fun h : a = b => hndb (by simp [h])
      have hasb : ∀ x ∈ as, some x ≠ some b := fun x hx h => hndb (by simp [← Option.some.inj h, hx])
      have hndbs : b ∉ bs := (List.nodup_cons.1 (List.nodup_append.1 hnd).2.1).1
      have hl : Leads d1 (d1 (some a)) as := by
        rw [hd1, update_of_ne hta]
        exact ha.update fun x hx => ht x (by simp [hx])
      cases bs with
      | nil =>
        have hnil : d (some b) = none := hb
        rw [hnil]
        refine ⟨_, rfl, ?_, fun q hq hx => ?_⟩
        · rw [update_of_ne htb.symm, hd1p, pgnoMerge_nil_right]
          refine ⟨rfl, ?_⟩
          rw [update_self]
          refine ⟨rfl, ?_⟩
          rw [update_of_ne hab]
          exact hl.update hasb
        · rw [update_of_ne (hx b (by simp)).symm, hd1, update_of_ne hq]
      | cons b' bs =>
        obtain ⟨h1, h2⟩ := hb
        rw [h1]
        have hr : Leads d1 (d1 (some b')) bs := by
          rw [hd1, update_of_ne (ht b' (by simp))]
          exact h2.update fun x hx => ht x (by simp [hx])
        have hsub : (a :: as ++ b' :: bs).Sublist (a :: as ++ b :: b' :: bs) :=
          (List.sublist_cons_self _ _).append_left _
        have hfb : ∀ x ∈ a :: as ++ b' :: bs, some x ≠ some b := by
          intro x hx
          rcases List.mem_append.1 hx with hx | hx
          · rcases List.mem_cons.1 hx with rfl | hx
            · exact hab
            · exact hasb x hx
          · simpa using fun h : x = b => hndbs (h ▸ hx)
        obtain ⟨d', h3, h4, h5⟩ := mergeLoop_leads fuel (some b)
          (by simp only [List.length_cons] at hf; omega) hl hr (hnd.sublist hsub) hfb
        refine ⟨d', h3, ?_, fun q hq hx => ?_⟩
        · rw [h5 pTail htb.symm fun x hx => ht x (hsub.subset hx), hd1p]
          exact ⟨rfl, h4⟩
        · rw [h5 q (hx b (by simp)).symm fun x hx' => hx x (hsub.subset hx'), hd1, update_of_ne hq]

variable (pgno fuel) in
/-- Merging two lists gives the list of the pages of both; other links stay. -/
theorem pcacheMergeDirtyList_leads (hx : xs ≠ []) (hy : ys ≠ []) (hf : xs.length + ys.length ≤ fuel)
    (hp : Leads d p xs) (hq : Leads d q ys) (hnd : (xs ++ ys).Nodup) :
    ∃ d' r, pcacheMergeDirtyList pgno fuel d p q = .ok (d', r) ∧ Leads d' r (pgnoMerge pgno xs ys)
      ∧ KeepsLinks d d' (xs ++ ys) := by
  obtain ⟨a, as, rfl⟩ := List.exists_cons_of_ne_nil hx
  obtain ⟨b, bs, rfl⟩ := List.exists_cons_of_ne_nil hy
  obtain ⟨rfl, ha⟩ := hp
  obtain ⟨rfl, hb⟩ := hq
  simp only [List.length_cons] at hf
  obtain ⟨d', h1, h2, h3⟩ := mergeLoop_leads fuel none (by omega) ha hb hnd
    fun _ _ => Option.some_ne_none _
  refine ⟨d', d' none, ?_, h2, fun z hz => h3 (some z) (Option.some_ne_none _) fun x hx h => ?_⟩
  · unfold pcacheMergeDirtyList
    dsimp only
    rw [h1]
    rfl
  · exact hz (Option.some.inj h ▸ hx)

end Merge

/-! ## The buckets -/

/-- The lists in the buckets, each in order. -/
structure Filled {α : Type} (pgno : α → ℕ) (d : Option α → Option α) (a : List (Option α))
    (bs : List (List α)) : Prop where
  leads : List.Forall₂ (Leads d) a bs
  sorted : ∀ b ∈ bs, ByPgno pgno b

/-- The buckets that hold a list, as the digits of a number. -/
def bucketCount {α : Type} : List (Option α) → ℕ
  | [] => 0
  | p :: a => (if p.isSome then 1 else 0) + 2 * bucketCount a

section Buckets

variable {α : Type} {pgno : α → ℕ} {fuel : ℕ} {d d' : Option α → Option α} {p : Option α}
  {xs ys b : List α} {a : List (Option α)} {bs : List (List α)}

theorem bucketCount_lt : ∀ a : List (Option α), bucketCount a < 2 ^ a.length
  | [] => Nat.one_pos
  | p :: a => by
    have ih := bucketCount_lt a
    rw [bucketCount, List.length_cons, Nat.pow_succ]
    split_ifs <;> omega

theorem bucketCount_replicate : ∀ n : ℕ, bucketCount (List.replicate n (none : Option α)) = 0
  | 0 => rfl
  | n + 1 => by simp [List.replicate_succ, bucketCount, bucketCount_replicate n]

theorem Leads.none_iff : Leads d none b ↔ b = [] := by
  cases b <;> simp [Leads]

theorem Leads.ne_nil {q : α} (h : Leads d (some q) b) : b ≠ [] := by
  rintro rfl
  exact absurd h (Option.some_ne_none q)

theorem Leads.isSome (h : Leads d p xs) (hx : xs ≠ []) : p.isSome = true := by
  obtain ⟨x, xs, rfl⟩ := List.exists_cons_of_ne_nil hx
  rw [h.1]
  rfl

theorem Filled.congr (h : Filled pgno d a bs) (hk : KeepsLinks d d' xs)
    (hd : ∀ x ∈ bs.flatten, x ∉ xs) : Filled pgno d' a bs := by
  refine ⟨?_, h.sorted⟩
  have hl := h.leads
  clear h
  induction hl with
  | nil => exact List.Forall₂.nil
  | @cons q b a bs hq _ ih =>
    refine List.Forall₂.cons (hq.congr fun x hx => hk x (hd x ?_)) (ih fun x hx => hd x ?_)
    · exact List.mem_flatten.2 ⟨b, List.mem_cons_self, hx⟩
    · rw [List.flatten_cons]
      exact List.mem_append_right _ hx

theorem filled_cons {q : Option α} : Filled pgno d (q :: a) (b :: bs)
    ↔ Leads d q b ∧ ByPgno pgno b ∧ Filled pgno d a bs := by
  constructor
  · intro h
    obtain ⟨h1, h2⟩ := List.forall₂_cons.1 h.leads
    exact ⟨h1, h.sorted b List.mem_cons_self, h2, fun c hc => h.sorted c (List.mem_cons_of_mem _ hc)⟩
  · rintro ⟨h1, h2, h3⟩
    exact ⟨List.Forall₂.cons h1 h3.leads, List.forall_mem_cons.2 ⟨h2, h3.sorted⟩⟩

theorem filled_replicate : ∀ n : ℕ,
    Filled pgno d (List.replicate n none) (List.replicate n ([] : List α))
  | 0 => ⟨List.Forall₂.nil, by simp⟩
  | n + 1 => filled_cons.2 ⟨rfl, List.Pairwise.nil, filled_replicate n⟩

/-- Two lists without a common page number are merged in order. -/
theorem ByPgno.merge_of_nodup (hx : ByPgno pgno xs) (hy : ByPgno pgno ys)
    (hnd : ((xs ++ ys).map pgno).Nodup) : ByPgno pgno (pgnoMerge pgno xs ys) := by
  refine hx.merge hy fun x hx y hy he => ?_
  rw [List.map_append] at hnd
  exact (List.nodup_append.1 hnd).2.2 _ (List.mem_map_of_mem hx) _ (List.mem_map_of_mem hy) he

variable [DecidableEq α]

variable (fuel) in
/-- A list is put into the first free bucket, with the lists of the buckets before it. When none is
free, the null pointer in the last bucket is followed. -/
theorem placeInBucket_leads : ∀ {a : List (Option α)} {bs : List (List α)} {d : Option α → Option α}
    {p : Option α} {xs : List α}, Filled pgno d a bs → Leads d p xs → ByPgno pgno xs → xs ≠ [] →
    ((xs ++ bs.flatten).map pgno).Nodup → (xs ++ bs.flatten).length ≤ fuel →
    (bucketCount a + 1 < 2 ^ a.length → ∃ d' a' bs',
      placeInBucket pgno fuel a none d p = .ok (d', a', none) ∧ Filled pgno d' a' bs'
        ∧ a'.length = a.length ∧ bucketCount a' = bucketCount a + 1
        ∧ bs'.flatten.Perm (xs ++ bs.flatten) ∧ KeepsLinks d d' (xs ++ bs.flatten))
    ∧ (2 ^ a.length ≤ bucketCount a + 1 → placeInBucket pgno fuel a none d p = .error .nullPointer)
  | [], _, _, _, _, _, _, _, _, _, _ => ⟨fun h => absurd h (lt_irrefl 1), fun _ => rfl⟩
  | none :: a, [], _, _, _, h, _, _, _, _, _ => by cases h.leads
  | some q :: a, [], _, _, _, h, _, _, _, _, _ => by cases h.leads
  | none :: a, b :: bs, d, p, xs, h, hp, hs, hx, hnd, hf => by
    obtain ⟨h1, -, h3⟩ := filled_cons.1 h
    obtain rfl := Leads.none_iff.1 h1
    have hcount : bucketCount (none :: a) = 2 * bucketCount a := by simp [bucketCount]
    refine ⟨fun _ => ⟨d, p :: a, xs :: bs, rfl, filled_cons.2 ⟨hp, hs, h3⟩, rfl, ?_, by simp,
      fun _ _ => rfl⟩, fun hfull => ?_⟩
    · rw [hcount, bucketCount, if_pos (hp.isSome hx)]
      omega
    · have hlt := bucketCount_lt a
      rw [hcount, List.length_cons, Nat.pow_succ] at hfull
      omega
  | some q :: a, b :: bs, d, p, xs, h, hp, hs, hx, hnd, hf => by
    obtain ⟨h1, h2, h3⟩ := filled_cons.1 h
    have hcount : bucketCount (some q :: a) = 1 + 2 * bucketCount a := by simp [bucketCount]
    rw [List.flatten_cons] at hnd hf ⊢
    have hperm : (xs ++ (b ++ bs.flatten)).Perm (b ++ xs ++ bs.flatten) := by
      rw [List.append_assoc]
      exact List.perm_append_comm_assoc _ _ _
    have hnd1 : ((b ++ xs ++ bs.flatten).map pgno).Nodup := (hperm.map pgno).nodup_iff.1 hnd
    have hnd2 := hnd1
    rw [List.map_append] at hnd2
    obtain ⟨hndm, -, hdis⟩ := List.nodup_append.1 hnd2
    obtain ⟨d1, p1, hrun, hp1, hk1⟩ := pcacheMergeDirtyList_leads pgno fuel h1.ne_nil hx
      (by simp only [List.length_append] at hf ⊢; omega) h1 hp (List.Nodup.of_map _ hndm)
    have hmerge : (pgnoMerge pgno b xs ++ bs.flatten).Perm (b ++ xs ++ bs.flatten) :=
      pgnoMerge_perm.append_right _
    have h3' : Filled pgno d1 a bs := h3.congr hk1 fun x hx hm =>
      hdis _ (List.mem_map_of_mem hm) _ (List.mem_map_of_mem hx) rfl
    have hne : pgnoMerge pgno b xs ≠ [] := by
      intro h0
      have : (pgnoMerge pgno b xs).length = (b ++ xs).length := pgnoMerge_perm.length_eq
      rw [h0, List.length_append] at this
      exact hx (List.eq_nil_of_length_eq_zero (by simp at this; omega))
    obtain ⟨hroom, hfull⟩ := placeInBucket_leads h3' hp1 (h2.merge_of_nodup hs hndm) hne
      ((hmerge.map pgno).nodup_iff.2 hnd1) (by rw [hmerge.length_eq, ← hperm.length_eq]; exact hf)
    rw [hcount, List.length_cons, Nat.pow_succ]
    refine ⟨fun hlt => ?_, fun hge => ?_⟩
    · obtain ⟨d2, a2, bs2, hrun2, hF, hlen, hc, hpm, hk2⟩ := hroom (by omega)
      refine ⟨d2, none :: a2, [] :: bs2, ?_, filled_cons.2 ⟨rfl, List.Pairwise.nil, hF⟩, by simp [hlen],
        ?_, ?_, fun z hz => ?_⟩
      · unfold placeInBucket
        simp only [hrun, Bind.bind, Except.bind, hrun2]
        rfl
      · rw [bucketCount, hc]
        simp only [Option.isSome_none, Bool.false_eq_true, if_false]
        omega
      · rw [List.flatten_cons, List.nil_append]
        exact (hpm.trans hmerge).trans hperm.symm
      · have hz' : z ∉ b ++ xs ++ bs.flatten := fun hm => hz (hperm.mem_iff.2 hm)
        rw [hk2 z fun hm => hz' (hmerge.mem_iff.1 hm),
          hk1 z fun hm => hz' (List.mem_append_left _ hm)]
    · unfold placeInBucket
      simp only [hrun, Bind.bind, Except.bind, hfull (by omega)]

variable (fuel) in
/-- Every page of the input gets into the buckets, unless there are as many as the number of buckets
allows by doubling. -/
theorem fillBuckets_leads : ∀ {rest : List α} {n : ℕ} {d : Option α → Option α} {pIn : Option α}
    {a : List (Option α)} {bs : List (List α)}, rest.length ≤ n → Leads d pIn rest → Filled pgno d a bs →
    ((rest ++ bs.flatten).map pgno).Nodup → (rest ++ bs.flatten).length ≤ fuel →
    (bucketCount a + rest.length < 2 ^ a.length → ∃ d' a' bs',
      fillBuckets pgno fuel n d pIn a none = .ok (d', a', none) ∧ Filled pgno d' a' bs'
        ∧ bs'.flatten.Perm (rest ++ bs.flatten))
    ∧ (2 ^ a.length ≤ bucketCount a + rest.length →
      fillBuckets pgno fuel n d pIn a none = .error .nullPointer)
  | [], n, d, pIn, a, bs, _, hp, h, _, _ => by
    obtain rfl : pIn = none := hp
    have hrun : fillBuckets pgno fuel n d none a none = .ok (d, a, none) := by
      cases n <;> rfl
    exact ⟨fun _ => ⟨d, a, bs, hrun, h, by simp⟩, fun hge => absurd (bucketCount_lt a)
      (Nat.not_lt.2 (by simpa using hge))⟩
  | x :: rest, 0, _, _, _, _, hn, _, _, _, _ => by simp at hn
  | x :: rest, n + 1, d, pIn, a, bs, hn, hp, h, hnd, hf => by
    obtain ⟨rfl, hp⟩ := hp
    have hndx : x ∉ rest ++ bs.flatten := (List.nodup_cons.1 (List.Nodup.of_map _ hnd)).1
    have hk : KeepsLinks d (update d (some x) none) [x] := fun z hz =>
      update_of_ne (by simpa using hz) ..
    have h1 : Filled pgno (update d (some x) none) a bs := h.congr hk fun y hy hm =>
      hndx (List.mem_append_right _ (List.mem_singleton.1 hm ▸ hy))
    have hp1 : Leads (update d (some x) none) (d (some x)) rest := hp.congr fun y hy => hk y fun hm =>
      hndx (List.mem_append_left _ (List.mem_singleton.1 hm ▸ hy))
    have hx1 : Leads (update d (some x) none) (some x) [x] := ⟨rfl, update_self ..⟩
    have hsub : ([x] ++ bs.flatten).Sublist (x :: rest ++ bs.flatten) := by
      simp
    obtain ⟨hroom, hfull⟩ := placeInBucket_leads fuel h1 hx1 (List.pairwise_singleton _ _)
      (by simp) (hnd.sublist (hsub.map _)) (hsub.length_le.trans hf)
    rw [List.length_cons]
    by_cases hlt : bucketCount a + 1 < 2 ^ a.length
    · obtain ⟨d2, a2, bs2, hrun, hF, hlen, hc, hpm, hk2⟩ := hroom hlt
      have hp2 : Leads d2 (d (some x)) rest := hp1.congr fun y hy => hk2 y fun hm => by
        rcases List.mem_cons.1 hm with rfl | hm
        · exact hndx (List.mem_append_left _ hy)
        · have hnd' := List.nodup_append.1 (List.nodup_cons.1 (List.Nodup.of_map _ hnd)).2
          exact hnd'.2.2 y hy y hm rfl
      have hperm : (rest ++ bs2.flatten).Perm (x :: rest ++ bs.flatten) :=
        (hpm.append_left rest).trans List.perm_middle
      obtain ⟨h4, h5⟩ := fillBuckets_leads (n := n) (by simpa using hn) hp2 hF
        ((hperm.map pgno).nodup_iff.2 hnd) (by rwa [hperm.length_eq])
      have hstep : fillBuckets pgno fuel (n + 1) d (some x) a none
          = fillBuckets pgno fuel n d2 (d (some x)) a2 none := by
        rw [fillBuckets]
        simp only [hrun, Bind.bind, Except.bind]
      rw [hlen, hc] at h4 h5
      refine ⟨fun hr => ?_, fun hr => ?_⟩
      · obtain ⟨d3, a3, bs3, hrun3, hF3, hpm3⟩ := h4 (by omega)
        exact ⟨d3, a3, bs3, hstep.trans hrun3, hF3, hpm3.trans hperm⟩
      · exact hstep.trans (h5 (by omega))
    · refine ⟨fun hr => absurd hr (by omega), fun _ => ?_⟩
      rw [fillBuckets]
      simp only [hfull (Nat.le_of_not_lt hlt), Bind.bind, Except.bind]

variable (fuel) in
/-- Merging the buckets gives one list of all their pages, in order. -/
theorem mergeBuckets_leads : ∀ {a : List (Option α)} {bs : List (List α)} {d : Option α → Option α}
    {p : Option α} {xs : List α}, Filled pgno d a bs → Leads d p xs → ByPgno pgno xs →
    ((xs ++ bs.flatten).map pgno).Nodup → (xs ++ bs.flatten).length ≤ fuel →
    ∃ d' r ys, mergeBuckets pgno fuel a d p = .ok (d', r) ∧ Leads d' r ys ∧ ByPgno pgno ys
      ∧ ys.Perm (xs ++ bs.flatten)
  | [], [], d, p, xs, _, hp, hs, _, _ => ⟨d, p, xs, rfl, hp, hs, by simp⟩
  | [], _ :: _, _, _, _, h, _, _, _, _ => by cases h.leads
  | _ :: _, [], _, _, _, h, _, _, _, _ => by cases h.leads
  | none :: a, b :: bs, d, p, xs, h, hp, hs, hnd, hf => by
    obtain ⟨h1, -, h3⟩ := filled_cons.1 h
    obtain rfl := Leads.none_iff.1 h1
    rw [List.flatten_cons, List.nil_append] at hnd hf ⊢
    rw [mergeBuckets]
    exact mergeBuckets_leads h3 hp hs hnd hf
  | some q :: a, b :: bs, d, none, xs, h, hp, _, hnd, hf => by
    obtain ⟨h1, h2, h3⟩ := filled_cons.1 h
    obtain rfl := Leads.none_iff.1 hp
    rw [List.flatten_cons, List.nil_append] at hnd hf ⊢
    rw [mergeBuckets]
    exact mergeBuckets_leads h3 h1 h2 hnd hf
  | some q :: a, b :: bs, d, some p, xs, h, hp, hs, hnd, hf => by
    obtain ⟨h1, h2, h3⟩ := filled_cons.1 h
    rw [List.flatten_cons, ← List.append_assoc] at hnd hf ⊢
    have hnd2 := hnd
    rw [List.map_append] at hnd2
    obtain ⟨hndm, -, hdis⟩ := List.nodup_append.1 hnd2
    obtain ⟨d1, p1, hrun, hp1, hk1⟩ := pcacheMergeDirtyList_leads pgno fuel hp.ne_nil
      h1.ne_nil (by simp only [List.length_append] at hf ⊢; omega) hp h1 (List.Nodup.of_map _ hndm)
    have hmerge : (pgnoMerge pgno xs b ++ bs.flatten).Perm (xs ++ b ++ bs.flatten) :=
      pgnoMerge_perm.append_right _
    have h3' : Filled pgno d1 a bs := h3.congr hk1 fun x hx hm =>
      hdis _ (List.mem_map_of_mem hm) _ (List.mem_map_of_mem hx) rfl
    obtain ⟨d2, r, ys, hrun2, hr, hs2, hpm⟩ := mergeBuckets_leads h3' hp1 (hs.merge_of_nodup h2 hndm)
      ((hmerge.map pgno).nodup_iff.2 hnd) (by rwa [hmerge.length_eq])
    refine ⟨d2, r, ys, ?_, hr, hs2, hpm.trans hmerge⟩
    unfold mergeBuckets
    simp only [hrun, Bind.bind, Except.bind, hrun2]

end Buckets

/-! ## The sort -/

section Sorting

variable {α : Type} [DecidableEq α] {pgno : α → ℕ} {fuel : ℕ}

theorem linkDirty_leads {L : Links α} : ∀ {l : List α} (a : List α) (n : ℕ) (d : Option α → Option α)
    {p : Option α}, L.Holds (a ++ l) → p = l.head? → l.length ≤ n →
    ∃ d', linkDirty L n p d = .ok d' ∧ Leads d' p l ∧ KeepsLinks d d' l
  | [], _, n, d, p, _, hp, _ => by
    obtain rfl : p = none := hp
    exact ⟨d, by cases n <;> rfl, rfl, fun _ _ => rfl⟩
  | x :: l, _, 0, _, _, _, _, hn => by simp at hn
  | x :: l, a, n + 1, d, p, h, hp, hn => by
    obtain rfl : p = some x := hp
    have hnext : L.next x = l.head? := (h.node a x l rfl).2
    have hx : x ∉ l := (List.nodup_cons.1 (List.nodup_append.1 h.nodup).2.1).1
    obtain ⟨d', h1, h2, h3⟩ := linkDirty_leads (a ++ [x]) n (update d (some x) (L.next x))
      (by simpa using h) hnext (by simpa using hn)
    refine ⟨d', h1, ⟨rfl, ?_⟩, fun z hz => ?_⟩
    · rw [h3 x hx, update_self]
      exact h2
    · rw [h3 z fun hm => hz (List.mem_cons_of_mem _ hm), update_of_ne]
      simpa using fun he : z = x => hz (he ▸ List.mem_cons_self)

variable (fuel) in
/-- A list of fewer than `2^31` pages is sorted; with more, a null pointer is followed. -/
theorem pcacheSortDirtyList_leads {d : Option α → Option α} {p : Option α} {l : List α} (h : Leads d p l)
    (hnd : (l.map pgno).Nodup) (hf : l.length ≤ fuel) :
    (l.length < 2 ^ 31 → ∃ d' r xs, pcacheSortDirtyList pgno fuel d p = .ok (d', r) ∧ Leads d' r xs
      ∧ xs.Perm l ∧ ByPgno pgno xs)
    ∧ (2 ^ 31 ≤ l.length → pcacheSortDirtyList pgno fuel d p = .error .nullPointer) := by
  have hflat : (List.replicate (nSortBucket - 1) ([] : List α)).flatten = [] := by simp
  have hlen : (List.replicate (nSortBucket - 1) (none : Option α)).length = 31 := List.length_replicate
  obtain ⟨hroom, hfull⟩ := fillBuckets_leads fuel hf h (filled_replicate (nSortBucket - 1))
    (by rwa [hflat, List.append_nil]) (by rwa [hflat, List.append_nil])
  rw [bucketCount_replicate, hlen, Nat.zero_add] at hroom hfull
  refine ⟨fun hlt => ?_, fun hge => ?_⟩
  · obtain ⟨d1, a, bs, hrun, hF, hpm⟩ := hroom hlt
    rw [hflat, List.append_nil] at hpm
    -- the last bucket is empty
    have hF' : Filled pgno d1 (a ++ [none]) (bs ++ [[]]) :=
      ⟨List.rel_append hF.leads (List.Forall₂.cons rfl List.Forall₂.nil), fun b hb => by
        rcases List.mem_append.1 hb with hb | hb
        · exact hF.sorted b hb
        · obtain rfl := List.mem_singleton.1 hb
          exact List.Pairwise.nil⟩
    have hpm' : (bs ++ [[]]).flatten.Perm l := by simpa using hpm
    unfold pcacheSortDirtyList
    simp only [hrun, Bind.bind, Except.bind]
    generalize a ++ [none] = a' at hF'
    generalize bs ++ [[]] = bs' at hF' hpm'
    rcases a' with - | ⟨q, a'⟩
    · cases hF'.leads
      exact ⟨d1, none, [], rfl, rfl, hpm', List.Pairwise.nil⟩
    · rcases bs' with - | ⟨b, bs'⟩
      · cases hF'.leads
      obtain ⟨h1, h2, h3⟩ := filled_cons.1 hF'
      rw [List.flatten_cons] at hpm'
      obtain ⟨d2, r, xs, hrun2, hr, hs, hx⟩ := mergeBuckets_leads fuel h3 h1 h2
        ((hpm'.map pgno).nodup_iff.2 hnd) (by rwa [hpm'.length_eq])
      exact ⟨d2, r, xs, hrun2, hr, hx.trans hpm', hs⟩
  · unfold pcacheSortDirtyList
    simp only [hfull hge, Bind.bind, Except.bind]

end Sorting

namespace PCache

/-- `sqlite3PcacheDirtyList` returns the pages `l`, each once, in the order of their numbers, in a list
that ends. -/
def ListsDirty (p : PCache) (fuel : ℕ) (pDirty : Option Slot → Option Slot) (l : List Slot) : Prop :=
  ∃ pDirty' r xs, p.sqlite3PcacheDirtyList fuel pDirty = .ok (pDirty', r) ∧ Leads pDirty' r xs
    ∧ xs.Perm l ∧ ByPgno (fun s => (p.hdr s).pgno) xs

theorem sqlite3PcacheDirtyList_leads {p : PCache} {l : List Slot} (hl : p.dirty.Holds l)
    (hnd : (l.map fun s => (p.hdr s).pgno).Nodup) {fuel : ℕ} (hf : l.length ≤ fuel)
    (pDirty : Option Slot → Option Slot) : (l.length < 2 ^ 31 → p.ListsDirty fuel pDirty l)
      ∧ (2 ^ 31 ≤ l.length → p.sqlite3PcacheDirtyList fuel pDirty = .error .nullPointer) := by
  obtain ⟨d, h1, h2, -⟩ := linkDirty_leads [] fuel pDirty hl hl.first hf
  obtain ⟨h3, h4⟩ := pcacheSortDirtyList_leads fuel h2 hnd hf
  have hrun : p.sqlite3PcacheDirtyList fuel pDirty
      = pcacheSortDirtyList (fun s => (p.hdr s).pgno) fuel d p.dirty.first := by
    unfold sqlite3PcacheDirtyList
    simp only [h1, Bind.bind, Except.bind]
  unfold ListsDirty
  rw [hrun]
  exact ⟨h3, h4⟩

/-- The dirty pages are listed if and only if there are fewer of them than the buckets hold by
doubling. -/
theorem listsDirty_iff {p : PCache} {l : List Slot} (hl : p.dirty.Holds l)
    (hnd : (l.map fun s => (p.hdr s).pgno).Nodup) {fuel : ℕ} (hf : l.length ≤ fuel)
    (pDirty : Option Slot → Option Slot) : p.ListsDirty fuel pDirty l ↔ l.length < 2 ^ 31 := by
  obtain ⟨h1, h2⟩ := sqlite3PcacheDirtyList_leads hl hnd hf pDirty
  refine ⟨fun h => ?_, h1⟩
  by_contra hge
  obtain ⟨d', r, xs, hrun, -⟩ := h
  rw [h2 (Nat.le_of_not_lt hge)] at hrun
  cases hrun

/-- The slots below `n`, linked upward. -/
def linksUpTo (n : ℕ) : Links Slot where
  first := if n = 0 then none else some 0
  last := if n = 0 then none else some (n - 1)
  next := fun s => if s + 1 < n then some (s + 1) else none
  prev := fun s => if s = 0 then none else some (s - 1)

theorem linksUpTo_holds (n : ℕ) : (linksUpTo n).Holds (List.range n) where
  nodup := List.nodup_range
  first := by
    cases n with
    | zero => rfl
    | succ n => simp [linksUpTo, List.range_succ_eq_map]
  last := by
    cases n with
    | zero => rfl
    | succ n => simp [linksUpTo, List.range_succ]
  node a x b h := by
    have hlen : n = a.length + (b.length + 1) := by simpa using congrArg List.length h
    have hget : ∀ i (hi : i < (a ++ x :: b).length), (a ++ x :: b)[i] = i := by
      rw [← h]
      simp
    have hx : x = a.length := by simpa using hget a.length (by simp)
    constructor
    · rcases List.eq_nil_or_concat' a with rfl | ⟨a, y, rfl⟩
      · simp [linksUpTo, hx]
      · have hy : y = a.length := by simpa using hget a.length (by simp)
        simp [linksUpTo, hx, hy]
    · cases b with
      | nil => simp [linksUpTo, hx, hlen]
      | cons y b =>
        have hy : y = a.length + 1 := by simpa using hget (a.length + 1) (by simp)
        simp [linksUpTo, hx, hlen, hy]

/-- A cache whose `n` pages are all dirty: slot `s` holds page `s + 1`. -/
def allDirty (n : ℕ) : PCache where
  dirty := linksUpTo n
  pSynced := none
  nRefSum := 0
  szCache := 100
  szSpill := 1
  szPage := 4096
  szExtra := 0
  bPurgeable := true
  eCreate := 1
  pCache := {
    iKey := fun s => s + 1
    isBulkLocal := fun _ => false
    onLru := fun _ => false
    extra := fun _ => false
    pGroup := { nMaxPage := 100, nMinPage := 10, mxPinned := 100, nPurgeable := n, lru := linksUpTo 0 }
    nInitPage := 0
    szAlloc := 4096
    bPurgeable := true
    nMin := 10
    nMax := 100
    n90pct := 90
    iMaxKey := n
    nPurgeableDummy := 0
    nRecyclable := 0
    nPage := n
    nHash := 256
    apHash := fun h => (List.range n).filter fun s => (s + 1) % 256 = h
    pFree := []
    pBulk := [] }
  hdr := fun s => { pgno := s + 1, flags := ⟨false, true, true, false, false⟩, nRef := 0 }
  pData := fun _ => List.replicate 4096 0

theorem allDirty_holds (n : ℕ) : (allDirty n).dirty.Holds (List.range n) := linksUpTo_holds n

theorem allDirty_pgno (n : ℕ) (l : List Slot) : (l.map fun s => ((allDirty n).hdr s).pgno) = l.map (· + 1) := rfl

theorem allDirty_nodup (n : ℕ) : ((List.range n).map fun s => ((allDirty n).hdr s).pgno).Nodup := by
  rw [allDirty_pgno]
  exact List.nodup_range.map fun _ _ h => Nat.succ.inj h

theorem listsDirty_three :
    (allDirty 3).ListsDirty 3 (fun _ => none) (List.range 3) ↔ (List.range 3).length < 2 ^ 31 :=
  listsDirty_iff (allDirty_holds 3) (allDirty_nodup 3) (by simp) _

/-- With `2^31` dirty pages, whose numbers all fit 32 bits, the pages are not listed. -/
theorem not_listsDirty_pow : ¬ (allDirty (2 ^ 31)).ListsDirty (2 ^ 31) (fun _ => none) (List.range (2 ^ 31)) :=
  fun h => (Nat.lt_irrefl (2 ^ 31)) (by
    simpa using (listsDirty_iff (allDirty_holds _) (allDirty_nodup _) (by simp) _).1 h)

end PCache

end Btreelite
