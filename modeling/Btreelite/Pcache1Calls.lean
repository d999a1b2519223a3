import Btreelite.Pcache1Steps
import Btreelite.Probing

/-!
# The calls of the hashed page cache

What a fetch, an unpin, a rekey and a truncate do to the entries. A fetch answers with the one
page filed under its key, or files a page under it that was free or could be recycled. A truncate
looks only at the hash slots its range of keys falls into, where the range is shorter than the
table; every entry in the range is in one of these.
-/

namespace Btreelite

/-- The memory an allocator returns is not in use. -/
structure PageAlloc.Fresh (a : PageAlloc) (c : PCache1) : Prop where
  page : ∀ s, a.page = some s → s ∉ c.entries ∧ s ∉ c.pBulk
  bulk : a.bulk.Nodup ∧ ∀ s ∈ a.bulk, s ∉ c.entries

namespace PCache1

open Function (update)

variable {c c' c'' : PCache1} {hand : Finset Slot} {s : Slot}

section Truncate

/-- Exactly the entries in `P` are gone. -/
structure Drops (c c' : PCache1) (P : Slot → Prop) : Prop where
  mem : ∀ s, s ∈ c'.entries ↔ s ∈ c.entries ∧ ¬ P s
  iKey : c'.iKey = c.iKey
  same : ∀ s ∈ c'.entries, SameEntry c.toPgHdr1s c'.toPgHdr1s s
  nHash : c'.nHash = c.nHash
  bPurgeable : c'.bPurgeable = c.bPurgeable

variable {P Q : Slot → Prop}

theorem Drops.none (h : ∀ s ∈ c.entries, ¬ P s) : Drops c c P :=
  ⟨fun s => ⟨fun hs => ⟨hs, h s hs⟩, And.left⟩, rfl, fun _ _ => .rfl, rfl, rfl⟩

theorem Drops.trans (h : Drops c c' P) (h' : Drops c' c'' Q) :
    Drops c c'' fun s => P s ∨ Q s where
  mem s := by
    rw [h'.mem, h.mem]
    tauto
  iKey := h'.iKey.trans h.iKey
  same s hs := (h.same s ((h'.mem s).mp hs).1).trans (h'.same s hs)
  nHash := h'.nHash.trans h.nHash
  bPurgeable := h'.bPurgeable.trans h.bPurgeable

theorem Drops.congr (h : Drops c c' P) (he : ∀ s ∈ c.entries, (P s ↔ Q s)) : Drops c c' Q where
  mem s := by
    rw [h.mem]
    exact and_congr_right fun hs => not_congr (he s hs)
  iKey := h.iKey
  same := h.same
  nHash := h.nHash
  bPurgeable := h.bPurgeable

theorem Wf.discardPage (w : c.Wf ∅) (hs : s ∈ c.entries) :
    (c.discardPage s).Wf ∅ ∧ Drops c (c.discardPage s) (· = s) := by
  have hmem : ∀ c₁ : PCache1, c₁.entries = c.entries.erase s → ∀ t, t ∈ c₁.entries ↔
      t ∈ c.entries ∧ ¬ t = s := fun c₁ h t => by
    rw [h, Finset.mem_erase, and_comm]
  cases hu : c.onLru s with
  | false =>
    have e : c.discardPage s = c.pcache1RemoveFromHash s true := by
      simp only [PCache1.discardPage, hu]
      rfl
    rw [e]
    exact ⟨w.removePage hs hu, hmem _ (entries_removeFromHash w.filed true), rfl,
      fun _ _ => .rfl, rfl, rfl⟩
  | true =>
    have e : c.discardPage s = (c.pcache1PinPage s).pcache1RemoveFromHash s true := by
      simp only [PCache1.discardPage, hu]
      rfl
    rw [e]
    have hent := hmem _ (entries_removeFromHash (c := c.pcache1PinPage s) w.filed true)
    refine ⟨(w.pinPage hs hu).removePage hs (by simp [pcache1PinPage]), hent, rfl, ?_, rfl, rfl⟩
    exact fun t ht => ⟨rfl, Function.update_of_ne ((hent t).mp ht).2 _ _, rfl⟩

theorem Wf.truncateList (iLimit : ℕ) : ∀ (l : List Slot) {c : PCache1}, c.Wf ∅ → l.Nodup →
    (∀ s ∈ l, s ∈ c.entries) →
      (l.foldl (fun c s => if iLimit ≤ c.iKey s then c.discardPage s else c) c).Wf ∅
        ∧ Drops c (l.foldl (fun c s => if iLimit ≤ c.iKey s then c.discardPage s else c) c)
          fun s => s ∈ l ∧ iLimit ≤ c.iKey s
  | [], c, w, _, _ => ⟨w, .none (by simp)⟩
  | s :: l, c, w, hl, hm => by
    obtain ⟨hsl, hl⟩ := List.nodup_cons.mp hl
    rw [List.foldl_cons]
    split_ifs with hk
    · obtain ⟨w', hd⟩ := w.discardPage (hm s List.mem_cons_self)
      have hm' : ∀ t ∈ l, t ∈ (c.discardPage s).entries := fun t ht =>
        (hd.mem t).mpr ⟨hm t (List.mem_cons_of_mem _ ht), fun hc => hsl (hc ▸ ht)⟩
      obtain ⟨h1, h2⟩ := Wf.truncateList iLimit l w' hl hm'
      refine ⟨h1, (hd.trans h2).congr fun t _ => ?_⟩
      rw [hd.iKey, List.mem_cons, or_and_right]
      refine or_congr_left ⟨fun h => ⟨h, h ▸ hk⟩, And.left⟩
    · obtain ⟨h1, h2⟩ := Wf.truncateList iLimit l w hl fun t ht => hm t (List.mem_cons_of_mem _ ht)
      refine ⟨h1, h2.congr fun t _ => ?_⟩
      rw [List.mem_cons, or_and_right]
      refine ⟨Or.inr, fun h => h.resolve_left ?_⟩
      rintro ⟨rfl, h'⟩
      exact hk h'

theorem Wf.truncateChain (w : c.Wf ∅) (iLimit : ℕ) {h : ℕ} (hh : h < c.nHash) :
    (c.truncateChain iLimit h).Wf ∅ ∧ Drops c (c.truncateChain iLimit h)
      fun s => iLimit ≤ c.iKey s ∧ c.iKey s % c.nHash = h := by
  obtain ⟨h1, h2⟩ := w.truncateList iLimit (c.apHash h) (w.filed.nodup h hh)
    fun s hs => Buckets.mem_entries.mpr ⟨h, hh, hs⟩
  refine ⟨h1, h2.congr fun s hs => ?_⟩
  rw [and_comm]
  refine and_congr_right fun _ => ⟨fun hm => w.filed.slot h hh s hm, ?_⟩
  rintro rfl
  exact w.filed.mem_iff.mp hs

open Probing (slot)

/-- Scanning `d + 1` slots on from `h` drops what is filed in one of them. -/
theorem Wf.truncateScan (iLimit iStop : ℕ) : ∀ (d : ℕ) {fuel h : ℕ} {c : PCache1}, c.Wf ∅ →
    h < c.nHash → d < c.nHash → d < fuel → slot c.nHash h d = iStop →
      (PCache1.truncateScan iLimit iStop fuel h c).Wf ∅
        ∧ Drops c (PCache1.truncateScan iLimit iStop fuel h c)
          fun s => iLimit ≤ c.iKey s ∧ ∃ j ≤ d, c.iKey s % c.nHash = slot c.nHash h j
  | _, 0, _, _, _, _, _, hf, _ => absurd hf (by omega)
  | 0, fuel + 1, h, c, w, hh, hd, hf, hstop => by
    rw [Probing.slot_zero hh] at hstop
    obtain ⟨h1, h2⟩ := w.truncateChain iLimit hh
    rw [PCache1.truncateScan, if_pos hstop]
    refine ⟨h1, h2.congr fun s _ => and_congr_right fun _ => ?_⟩
    simp [Probing.slot_zero hh]
  | d + 1, fuel + 1, h, c, w, hh, hd, hf, hstop => by
    obtain ⟨h1, h2⟩ := w.truncateChain iLimit hh
    have hne : h ≠ iStop := by
      intro he
      rw [← hstop] at he
      have := Probing.slot_inj (h := h) (by omega : 0 < c.nHash) hd
        ((Probing.slot_zero hh).trans he)
      omega
    have hnext : (h + 1) % c.nHash = slot c.nHash h 1 := rfl
    rw [PCache1.truncateScan, if_neg hne]
    have hn := h2.nHash
    have hlt : (h + 1) % (c.truncateChain iLimit h).nHash < (c.truncateChain iLimit h).nHash :=
      Nat.mod_lt _ h1.filed.pos
    obtain ⟨h3, h4⟩ := Wf.truncateScan iLimit iStop d h1 hlt (by omega) (by omega : d < fuel) (by
      rw [hn, hnext, Probing.slot_slot, Nat.add_comm 1 d]
      exact hstop)
    refine ⟨h3, (h2.trans h4).congr fun s _ => ?_⟩
    rw [hn, hnext, h2.iKey, ← and_or_left]
    refine and_congr_right fun _ => ⟨?_, ?_⟩
    · rintro (he | ⟨j, hj, he⟩)
      · exact ⟨0, by omega, he.trans (Probing.slot_zero hh).symm⟩
      · rw [Probing.slot_slot] at he
        exact ⟨1 + j, by omega, he⟩
    · rintro ⟨j, hj, he⟩
      cases j with
      | zero => exact Or.inl (he.trans (Probing.slot_zero hh))
      | succ j =>
        refine Or.inr ⟨j, by omega, ?_⟩
        rw [Probing.slot_slot, Nat.add_comm 1 j]
        exact he

/-- Whichever slots it looks at, a truncate drops all entries from `iLimit` on. -/
theorem Wf.truncateUnsafe (w : c.Wf ∅) {iLimit : ℕ} (hl : iLimit ≤ c.iMaxKey) :
    (c.pcache1TruncateUnsafe iLimit).Wf ∅
      ∧ Drops c (c.pcache1TruncateUnsafe iLimit) fun s => iLimit ≤ c.iKey s := by
  have hn := w.nHash
  unfold pcache1TruncateUnsafe
  split_ifs with hd
  · have hstop : slot c.nHash (iLimit % c.nHash) (c.iMaxKey - iLimit) = c.iMaxKey % c.nHash := by
      unfold slot
      rw [Nat.mod_add_mod, Nat.add_sub_cancel' hl]
    obtain ⟨h1, h2⟩ := w.truncateScan iLimit _ _ (w.filed.mod_lt iLimit) hd hd hstop
    refine ⟨h1, h2.congr fun s hs => ⟨And.left, fun hk => ⟨hk, c.iKey s - iLimit, ?_, ?_⟩⟩⟩
    · have := w.iMaxKey s hs
      omega
    · unfold slot
      rw [Nat.mod_add_mod, Nat.add_sub_cancel' hk]
  · have hstop : slot c.nHash (c.nHash / 2) (c.nHash - 1) = c.nHash / 2 - 1 := by
      unfold slot
      rw [show c.nHash / 2 + (c.nHash - 1) = c.nHash / 2 - 1 + c.nHash by omega,
        Nat.add_mod_right]
      exact Nat.mod_eq_of_lt (by omega)
    obtain ⟨h1, h2⟩ := w.truncateScan iLimit _ (c.nHash - 1) (by omega : c.nHash / 2 < c.nHash)
      (by omega) (by omega : c.nHash - 1 < c.nHash) hstop
    refine ⟨h1, h2.congr fun s hs => ⟨And.left, fun hk =>
      ⟨hk, (c.iKey s + (c.nHash - c.nHash / 2)) % c.nHash, ?_, ?_⟩⟩⟩
    · have := w.filed.mod_lt (c.iKey s + (c.nHash - c.nHash / 2))
      omega
    · unfold slot
      rw [Nat.add_mod_mod, show c.nHash / 2 + (c.iKey s + (c.nHash - c.nHash / 2))
        = c.iKey s + c.nHash by omega, Nat.add_mod_right]

theorem Wf.setMaxKey (w : c.Wf hand) {k : ℕ} (h : ∀ s ∈ c.entries, c.iKey s ≤ k) :
    ({ c with iMaxKey := k } : PCache1).Wf hand :=
  ⟨w.filed, w.nHash, w.key, w.nPage, h, w.unfiled, w.nPurgeable, w.lru, w.free, w.bulk⟩

theorem Wf.truncate (w : c.Wf ∅) {iLimit : ℕ} (h0 : 0 < iLimit) (h32 : iLimit < 2 ^ 32) :
    (c.pcache1Truncate iLimit).Wf ∅
      ∧ Drops c (c.pcache1Truncate iLimit) fun s => iLimit ≤ c.iKey s := by
  have hk : (iLimit + (2 ^ 32 - 1)) % 2 ^ 32 = iLimit - 1 := by omega
  unfold pcache1Truncate
  rw [hk]
  split_ifs with hl
  · obtain ⟨h1, h2⟩ := w.truncateUnsafe hl
    refine ⟨h1.setMaxKey fun s hs => ?_, h2.mem, h2.iKey, h2.same, h2.nHash, h2.bPurgeable⟩
    have := ((h2.mem s).mp hs).2
    rw [h2.iKey]
    omega
  · refine ⟨w, .none fun s hs hc => ?_⟩
    have := w.iMaxKey s hs
    omega

end Truncate

section Fetch

variable {k : ℕ} {a : PageAlloc}

/-- The page that was filed under `k` is pinned. -/
structure Pins (c c' : PCache1) (k : ℕ) (s : Slot) : Prop where
  mem : s ∈ c.entries
  iKey : c.iKey s = k
  entries : c'.entries = c.entries
  keys : c'.iKey = c.iKey
  extra : c'.extra = c.extra
  pinned : c'.onLru s = false
  onLru : ∀ t ≠ s, c'.onLru t = c.onLru t
  bPurgeable : c'.bPurgeable = c.bPurgeable

/-- No page was filed under `k`; now a page is that no one was using. -/
structure Adds (c c' : PCache1) (k : ℕ) (s : Slot) : Prop where
  absent : ∀ t ∈ c.entries, c.iKey t ≠ k
  mem : s ∈ c'.entries
  iKey : c'.iKey s = k
  pinned : c'.onLru s = false
  extra : c'.extra s = false
  old : ∀ t ∈ c'.entries, t ≠ s → t ∈ c.entries ∧ SameEntry c.toPgHdr1s c'.toPgHdr1s t
  kept : ∀ t ∈ c.entries, c.onLru t = false → t ∈ c'.entries ∧ t ≠ s
  bPurgeable : c'.bPurgeable = c.bPurgeable

/-- The block is allocated or nothing changes. -/
theorem initBulk_cases (c : PCache1) (bulk : List Slot) :
    c.pcache1InitBulk bulk = c ∨ c.pcache1InitBulk bulk =
      { c with
        pBulk := bulk
        pFree := bulk.reverse ++ c.pFree
        isBulkLocal := fun s => decide (s ∈ bulk) || c.isBulkLocal s } := by
  unfold pcache1InitBulk
  simp only []
  split_ifs <;> simp

/-- The block comes with the first page, when none of its slots can be in use. -/
theorem Wf.initBulk (w : c.Wf ∅) (hf : c.pFree = []) (h0 : c.nPage = 0) {bulk : List Slot}
    (hb : bulk.Nodup) : (c.pcache1InitBulk bulk).Wf ∅ := by
  have hno : c.entries = ∅ := Finset.card_eq_zero.mp (w.nPage.symm.trans h0)
  rcases initBulk_cases c bulk with e | e
  · rwa [e]
  rw [e, hf, List.append_nil]
  refine ⟨w.filed, w.nHash, w.key, w.nPage, w.iMaxKey, w.unfiled, w.nPurgeable, w.lru, ?_, ?_⟩
  · refine ⟨List.nodup_reverse.mpr hb, fun s hs => ⟨?_, ?_, Finset.notMem_empty s⟩⟩
    · rw [List.mem_reverse] at hs
      simp [hs]
    · change s ∉ c.entries
      rw [hno]
      exact Finset.notMem_empty s
  · intro s
    change s ∈ bulk ↔ s ∈ bulk.reverse ∨ (s ∈ c.entries ∨ _) ∧ _
    simp [hno]

/-- Nothing of an entry changes, apart from what the slot of a page in hand holds. -/
structure Keeps (c c' : PCache1) : Prop where
  entries : c'.entries = c.entries
  iKey : c'.iKey = c.iKey
  onLru : c'.onLru = c.onLru
  extra : c'.extra = c.extra
  bPurgeable : c'.bPurgeable = c.bPurgeable

theorem initBulk_keeps (c : PCache1) (bulk : List Slot) : Keeps c (c.pcache1InitBulk bulk) := by
  rcases initBulk_cases c bulk with e | e <;> rw [e] <;> exact ⟨rfl, rfl, rfl, rfl, rfl⟩

theorem Keeps.trans (h : Keeps c c') (h' : Keeps c' c'') : Keeps c c'' :=
  ⟨h'.entries.trans h.entries, h'.iKey.trans h.iKey, h'.onLru.trans h.onLru,
    h'.extra.trans h.extra, h'.bPurgeable.trans h.bPurgeable⟩

theorem Keeps.trims (h : Keeps c c') : Trims c c' where
  sub := h.entries.subset
  kept s hs _ := by rwa [h.entries]
  same s _ := ⟨congrFun h.iKey s, congrFun h.onLru s, congrFun h.extra s⟩
  bPurgeable := h.bPurgeable

/-- The next free slot of the block is taken. -/
theorem Wf.takeFree (w : c.Wf ∅) {rest : List Slot} (hf : c.pFree = s :: rest) :
    ({ c with pFree := rest }.setPnPurgeable (c.pnPurgeable + 1)).Wf {s} := by
  have hfree := w.free
  rw [hf] at hfree
  obtain ⟨hnd, hall⟩ := hfree
  obtain ⟨hsr, hnd⟩ := List.nodup_cons.mp hnd
  have hs := hall s List.mem_cons_self
  refine ⟨w.filed, w.nHash, w.key, w.nPage, w.iMaxKey, ?_, ?_, w.lru, ⟨hnd, fun t ht => ?_⟩,
    fun t => ?_⟩
  · intro t ht
    rw [Finset.mem_singleton.mp ht]
    exact hs.2.1
  · rw [pnPurgeable_setPnPurgeable, w.nPurgeable]
    rfl
  · obtain ⟨h1, h2, -⟩ := hall t (List.mem_cons_of_mem _ ht)
    refine ⟨h1, h2, ?_⟩
    rw [Finset.mem_singleton]
    rintro rfl
    exact hsr ht
  · refine (w.bulk t).trans ?_
    rw [hf, List.mem_cons]
    change _ ↔ t ∈ rest ∨ (t ∈ c.entries ∨ t ∈ {s}) ∧ c.isBulkLocal t
    by_cases ht : t = s
    · subst ht
      simp [hs.1]
    · simp [ht]

/-- A slot from the allocator is taken. -/
theorem Wf.takeFresh (w : c.Wf ∅) (hs : s ∉ c.entries ∧ s ∉ c.pBulk) :
    ({ c with isBulkLocal := update c.isBulkLocal s false }.setPnPurgeable
      (c.pnPurgeable + 1)).Wf {s} := by
  have hfree : ∀ t ∈ c.pFree, t ≠ s := fun t ht hc => hs.2 (hc ▸ (w.bulk t).mpr (Or.inl ht))
  refine ⟨w.filed, w.nHash, w.key, w.nPage, w.iMaxKey, ?_, ?_, w.lru, ⟨w.free.1, fun t ht => ?_⟩,
    fun t => ?_⟩
  · intro t ht
    rw [Finset.mem_singleton.mp ht]
    exact hs.1
  · rw [pnPurgeable_setPnPurgeable, w.nPurgeable]
    rfl
  · obtain ⟨h1, h2, -⟩ := w.free.2 t ht
    refine ⟨?_, h2, ?_⟩
    · change update c.isBulkLocal s false t = true
      rw [Function.update_of_ne (hfree t ht)]
      exact h1
    · rw [Finset.mem_singleton]
      exact hfree t ht
  · refine (w.bulk t).trans ?_
    change _ ↔ t ∈ c.pFree ∨ (t ∈ c.entries ∨ t ∈ {s}) ∧ update c.isBulkLocal s false t = true
    by_cases ht : t = s
    · subst ht
      simp [hs.1]
    · simp [ht]

/-- What a page in hand leaves of the invariant, if one was to be had. -/
def WfHand (r : PCache1 × Option Slot) : Prop :=
  match r.2 with
  | none => r.1.Wf ∅
  | some s => r.1.Wf {s}

theorem Wf.takePage (w : c.Wf ∅) {page : Option Slot}
    (hp : c.pFree = [] → ∀ s, page = some s → s ∉ c.entries ∧ s ∉ c.pBulk) :
    Keeps c (c.takePage page).1 ∧ WfHand (c.takePage page) := by
  unfold PCache1.takePage
  split
  · rename_i s rest hf
    exact ⟨⟨rfl, rfl, rfl, rfl, rfl⟩, w.takeFree hf⟩
  · rename_i s hf
    exact ⟨⟨rfl, rfl, rfl, rfl, rfl⟩, w.takeFresh (hp hf s rfl)⟩
  · exact ⟨⟨rfl, rfl, rfl, rfl, rfl⟩, w⟩

theorem Wf.allocPage (w : c.Wf ∅) (hp : ∀ s, a.page = some s → s ∉ c.entries ∧ s ∉ c.pBulk)
    (hb : a.bulk.Nodup) :
    Keeps c (c.pcache1AllocPage a).1 ∧ WfHand (c.pcache1AllocPage a) := by
  unfold pcache1AllocPage
  split_ifs with h
  · have hk := initBulk_keeps c a.bulk
    obtain ⟨h1, h2⟩ := @Wf.takePage _ (w.initBulk h.1 h.2 hb) a.page fun hf s hs => by
      rw [hk.entries]
      refine ⟨(hp s hs).1, ?_⟩
      rcases initBulk_cases c a.bulk with e | e <;> rw [e] at hf ⊢
      · exact (hp s hs).2
      · -- the block had no slot
        simp only [List.append_eq_nil_iff, List.reverse_eq_nil_iff] at hf
        simp [hf.1]
    exact ⟨hk.trans h1, h2⟩
  · exact w.takePage fun _ => hp

theorem Wf.recyclePage (w : c.Wf ∅) (pressure : Bool) :
    WfHand (c.recyclePage pressure) ∧ Trims c (c.recyclePage pressure).1
      ∧ (∀ s, (c.recyclePage pressure).2 = some s → c.onLru s = true)
      ∧ ((c.recyclePage pressure).2 = none → (c.recyclePage pressure).1 = c) := by
  unfold PCache1.recyclePage
  split
  · exact ⟨w, .rfl, by simp, fun _ => rfl⟩
  · rename_i s hl
    obtain ⟨hs, hu⟩ := w.last hl
    split_ifs
    · refine ⟨w.recycle hs hu, trims_recycle w.filed hu false, ?_, by simp⟩
      rintro t ⟨⟩
      exact hu
    · exact ⟨w, .rfl, by simp, fun _ => rfl⟩

/-- The page in hand becomes the entry for `k`. -/
theorem Wf.adds {c₁ : PCache1} (w : c₁.Wf {s}) (ht : Trims c c₁) (hs : s ∈ c.entries → c.onLru s)
    (hk : ∀ t ∈ c.entries, c.iKey t ≠ k) :
    (c₁.addPage k s).Wf ∅ ∧ Adds c (c₁.addPage k s) k s := by
  have hk' : ∀ t ∈ c₁.entries, c₁.iKey t ≠ k := fun t h => by
    rw [(ht.same t h).iKey]
    exact hk t (ht.sub h)
  obtain ⟨h1, h2⟩ := w.addPage (Finset.mem_singleton_self s) hk'
  rw [Finset.erase_singleton] at h1
  refine ⟨h1, hk, ?_, Function.update_self _ _ _, Function.update_self _ _ _,
    Function.update_self _ _ _, ?_, ?_, ht.bPurgeable⟩
  · rw [h2]
    exact Finset.mem_insert_self _ _
  · intro t h hts
    rw [h2] at h
    have h := (Finset.mem_insert.mp h).resolve_left hts
    refine ⟨ht.sub h, (ht.same t h).trans ⟨?_, ?_, ?_⟩⟩ <;> exact Function.update_of_ne hts _ _
  · intro t h hu
    have hts : t ≠ s := by
      rintro rfl
      rw [hs h] at hu
      exact absurd hu (by decide)
    rw [h2]
    exact ⟨Finset.mem_insert_of_mem (ht.kept t h hu), hts⟩

/-- A page that is not in the cache is filed, or not, for want of memory or of room. -/
def AddsOrNot (c : PCache1) (k : ℕ) (r : PCache1 × Option Slot) : Prop :=
  match r.2 with
  | none => (∀ t ∈ c.entries, c.iKey t ≠ k) ∧ Trims c r.1
  | some s => Adds c r.1 k s

theorem resizeHash_keeps (w : c.Wf hand) (ok : Bool) : Keeps c (c.pcache1ResizeHash ok) := by
  have he := (w.resizeHash ok).2
  unfold pcache1ResizeHash at he ⊢
  split_ifs at he ⊢ <;> exact ⟨he, rfl, rfl, rfl, rfl⟩

theorem pBulk_resizeHash (c : PCache1) (ok : Bool) :
    (c.pcache1ResizeHash ok).pBulk = c.pBulk := by
  unfold pcache1ResizeHash
  split_ifs <;> rfl

theorem Wf.newPage (w : c.Wf ∅) (hf : a.Fresh c) :
    WfHand (c.newPage a) ∧ Trims c (c.newPage a).1
      ∧ ∀ s, (c.newPage a).2 = some s → (s ∈ c.entries → c.onLru s) := by
  obtain ⟨h1, h2, h3, h4⟩ := w.recyclePage a.pressure4
  unfold PCache1.newPage
  simp only []
  split_ifs with hn
  · obtain ⟨hk', hw⟩ := w.allocPage hf.page hf.bulk.1
    rw [h4 hn]
    refine ⟨hw, hk'.trims, fun s hs hc => ?_⟩
    -- an allocated page is not an entry
    unfold WfHand at hw
    rw [hs] at hw
    rw [← hk'.entries] at hc
    exact absurd hc (hw.unfiled s (Finset.mem_singleton_self s))
  · exact ⟨h1, h2, fun s hs _ => h3 s hs⟩

theorem Wf.fetchStage2 (w : c.Wf ∅) (hf : a.Fresh c) (hk : ∀ t ∈ c.entries, c.iKey t ≠ k)
    (createFlag : ℕ) :
    (c.pcache1FetchStage2 k createFlag a).1.Wf ∅
      ∧ AddsOrNot c k (c.pcache1FetchStage2 k createFlag a) := by
  have main : ∀ c₀ : PCache1, c₀.Wf ∅ → Keeps c c₀ → a.Fresh c₀ →
      let r := match (c₀.newPage a).2 with
        | none => ((c₀.newPage a).1, none)
        | some s => ((c₀.newPage a).1.addPage k s, some s)
      r.1.Wf ∅ ∧ AddsOrNot c k r := by
    intro c₀ w₀ hk₀ hf₀
    obtain ⟨h1, h2, h3⟩ := w₀.newPage hf₀
    have ht := hk₀.trims.trans h2
    unfold WfHand at h1
    cases hr : (c₀.newPage a).2 with
    | none =>
      rw [hr] at h1
      exact ⟨h1, hk, ht⟩
    | some s =>
      rw [hr] at h1
      refine h1.adds ht (fun hs => ?_) hk
      rw [← hk₀.onLru]
      exact h3 s hr (hk₀.entries.symm ▸ hs)
  unfold pcache1FetchStage2
  simp only []
  split_ifs
  · exact ⟨w, hk, .rfl⟩
  · have hr := resizeHash_keeps w a.hash
    exact main _ (w.resizeHash a.hash).1 hr
      ⟨by rw [hr.entries, pBulk_resizeHash]; exact hf.page, by rw [hr.entries]; exact hf.bulk⟩
  · exact main c w ⟨rfl, rfl, rfl, rfl, rfl⟩ hf

/-- The answer of a fetch, and what it does to the cache. -/
def Fetches (c : PCache1) (k : ℕ) (r : PCache1 × Option Slot) : Prop :=
  match r.2 with
  | none => (∀ t ∈ c.entries, c.iKey t ≠ k) ∧ Trims c r.1
  | some s => Pins c r.1 k s ∨ Adds c r.1 k s

theorem Wf.lookup_some (w : c.Wf hand) (h : c.lookup k = some s) :
    s ∈ c.entries ∧ c.iKey s = k :=
  Buckets.Filed.find_some w.filed.pos h

theorem Wf.lookup_none (w : c.Wf hand) (h : c.lookup k = none) : ∀ t ∈ c.entries, c.iKey t ≠ k :=
  w.filed.find_none h

/-- The search finds every entry under its key. -/
theorem Wf.lookup_eq (w : c.Wf hand) (hs : s ∈ c.entries) : c.lookup (c.iKey s) = some s :=
  w.filed.find_eq (fun t ht e => w.key t ht s hs e) hs

theorem Wf.fetch (w : c.Wf ∅) (hf : a.Fresh c) (k createFlag : ℕ) :
    (c.pcache1Fetch k createFlag a).1.Wf ∅ ∧ Fetches c k (c.pcache1Fetch k createFlag a) := by
  unfold pcache1Fetch
  cases hl : c.lookup k with
  | none =>
    have hk := w.lookup_none hl
    simp only []
    split_ifs
    · obtain ⟨h1, h2⟩ := w.fetchStage2 hf hk createFlag
      refine ⟨h1, ?_⟩
      unfold AddsOrNot at h2
      unfold Fetches
      cases hr : (c.pcache1FetchStage2 k createFlag a).2 with
      | none => rwa [hr] at h2
      | some s =>
        rw [hr] at h2
        exact Or.inr h2
    · exact ⟨w, hk, .rfl⟩
  | some s =>
    obtain ⟨hs, hk⟩ := w.lookup_some hl
    simp only []
    cases hu : c.onLru s with
    | true =>
      refine ⟨w.pinPage hs hu, Or.inl ⟨hs, hk, rfl, rfl, rfl, Function.update_self _ _ _,
        fun t ht => Function.update_of_ne ht _ _, rfl⟩⟩
    | false =>
      exact ⟨w, Or.inl ⟨hs, hk, rfl, rfl, rfl, hu, fun _ _ => rfl, rfl⟩⟩

/-- Nothing is allocated without `createFlag`. -/
theorem fetch_zero (c : PCache1) (k : ℕ) (a : PageAlloc) :
    (c.pcache1Fetch k 0 a).2 = c.lookup k := by
  unfold pcache1Fetch
  cases c.lookup k <;> rfl

end Fetch

section Unpin

/-- An unpinned page goes to the front of the recyclable list, or goes altogether. -/
theorem Wf.unpin (w : c.Wf ∅) (hs : s ∈ c.entries) (hu : c.onLru s = false) (b : Bool) :
    (c.pcache1Unpin s b).Wf ∅ := by
  unfold pcache1Unpin
  split_ifs
  · exact w.removePage hs hu
  · refine ⟨w.filed, w.nHash, w.key, w.nPage, w.iMaxKey, w.unfiled, w.nPurgeable, ?_, w.free,
      w.bulk⟩
    obtain ⟨l, hl, hm, hn⟩ := w.lru
    have hsl : s ∉ l := fun hc => by
      have := ((hm s).mp hc).2
      rw [hu] at this
      exact absurd this (by decide)
    refine ⟨s :: l, hl.pushFront hsl, fun t => ?_, by simp [hn]⟩
    change t ∈ s :: l ↔ t ∈ c.entries ∧ update c.onLru s true t = true
    rw [List.mem_cons, hm, Function.update_apply]
    by_cases ht : t = s
    · simp [ht, hs]
    · simp [ht]

/-- What an unpin does to the entries. -/
structure Unpins (c c' : PCache1) (s : Slot) : Prop where
  mem : ∀ t ≠ s, (t ∈ c'.entries ↔ t ∈ c.entries)
  sub : c'.entries ⊆ c.entries
  iKey : c'.iKey = c.iKey
  extra : c'.extra = c.extra
  onLru : ∀ t ≠ s, c'.onLru t = c.onLru t
  unpinned : s ∈ c'.entries → c'.onLru s = true
  bPurgeable : c'.bPurgeable = c.bPurgeable

theorem Wf.unpins (w : c.Wf ∅) (s : Slot) (b : Bool) : Unpins c (c.pcache1Unpin s b) s := by
  have hr := entries_removeFromHash (s := s) w.filed true
  unfold pcache1Unpin
  split_ifs
  · refine ⟨fun t ht => ?_, ?_, rfl, rfl, fun _ _ => rfl, fun hc => ?_, rfl⟩
    · rw [hr, Finset.mem_erase]
      exact ⟨And.right, fun h => ⟨ht, h⟩⟩
    · rw [hr]
      exact Finset.erase_subset _ _
    · rw [hr] at hc
      exact absurd hc (Finset.notMem_erase _ _)
  · exact ⟨fun _ _ => Iff.rfl, Finset.Subset.refl _, rfl, rfl,
      fun t ht => Function.update_of_ne ht _ _, fun _ => Function.update_self _ _ _, rfl⟩

/-- With `reuseUnlikely` the page is gone. -/
theorem Wf.entries_unpin (w : c.Wf ∅) (s : Slot) :
    (c.pcache1Unpin s true).entries = c.entries.erase s := by
  unfold pcache1Unpin
  rw [if_pos (Or.inl rfl)]
  exact entries_removeFromHash w.filed true

end Unpin

section Rekey

/-- A page moves to a key no entry has. -/
theorem Wf.rekey (w : c.Wf ∅) (hs : s ∈ c.entries) {k : ℕ} (hk : ∀ t ∈ c.entries, c.iKey t ≠ k) :
    (c.pcache1Rekey s k).Wf ∅ ∧ (c.pcache1Rekey s k).entries = c.entries := by
  have hf := w.filed.erase s
  have he := w.filed.entries_erase s
  have hse : s ∉ Buckets.entries c.nHash (Buckets.erase c.iKey c.nHash c.apHash s) := by
    rw [he]
    exact Finset.notMem_erase _ _
  have hkey : ∀ t ≠ s, update c.iKey s k t = c.iKey t := fun t ht =>
    Function.update_of_ne ht _ _
  have hent : (c.pcache1Rekey s k).entries = c.entries := by
    refine (Buckets.Filed.entries_push w.filed.pos).trans ?_
    rw [he]
    exact Finset.insert_erase hs
  refine ⟨?_, hent⟩
  constructor
  case filed =>
    refine Buckets.Filed.push (hf.congr fun t ht => hkey t ?_) hse
    rintro rfl
    exact hse ht
  case nHash => exact w.nHash
  case key =>
    rw [hent]
    intro t ht u hu e
    change update c.iKey s k t = update c.iKey s k u at e
    by_cases h1 : t = s <;> by_cases h2 : u = s
    · rw [h1, h2]
    · rw [h1, Function.update_self, hkey u h2] at e
      exact absurd e.symm (hk u hu)
    · rw [h2, Function.update_self, hkey t h1] at e
      exact absurd e (hk t ht)
    · rw [hkey t h1, hkey u h2] at e
      exact w.key t ht u hu e
  case nPage =>
    rw [hent]
    exact w.nPage
  case iMaxKey =>
    rw [hent]
    intro t ht
    change update c.iKey s k t ≤ max c.iMaxKey k
    by_cases h : t = s
    · rw [h, Function.update_self]
      exact le_max_right _ _
    · rw [hkey t h]
      exact (w.iMaxKey t ht).trans (le_max_left _ _)
  case unfiled => exact fun t ht => absurd ht (Finset.notMem_empty t)
  case nPurgeable => exact w.nPurgeable
  case lru =>
    rw [hent]
    exact w.lru
  case free =>
    rw [hent]
    exact w.free
  case bulk =>
    rw [hent]
    exact w.bulk

end Rekey

section Create

theorem wf_create {old : PgHdr1s} {nInitPage : ℤ} {szAlloc : ℕ} {bPurgeable hash : Bool}
    (h : pcache1Create old nInitPage szAlloc bPurgeable hash = some c) :
    c.Wf ∅ ∧ c.entries = ∅ ∧ c.bPurgeable = bPurgeable := by
  cases hash with
  | false => cases bPurgeable <;> simp [pcache1Create, pcache1ResizeHash] at h
  | true =>
    have hw : ∀ c : PCache1, 2 ≤ c.nHash → c.apHash = (fun _ => []) → c.nPage = 0 →
        c.pnPurgeable = 0 → c.pGroup.lru.Holds [] → c.nRecyclable = 0 → c.pFree = [] →
        c.pBulk = [] → c.Wf ∅ ∧ c.entries = ∅ := by
      intro c hn ha h0 hp hl hr hf hb
      have he : c.entries = ∅ := by
        unfold PCache1.entries
        rw [ha, Buckets.entries_nil]
      refine ⟨⟨ha ▸ Buckets.filed_nil (by omega), hn, ?_, ?_, ?_, ?_, ?_, ⟨[], hl, ?_, hr⟩, ?_, ?_⟩,
        he⟩
      all_goals simp [he, h0, hp, hf, hb]
    have hc : (2 ≤ c.nHash ∧ c.apHash = fun _ => []) ∧ (c.nPage = 0 ∧ c.pnPurgeable = 0
        ∧ c.pGroup.lru = ⟨none, none, fun _ => none, fun _ => none⟩)
        ∧ (c.nRecyclable = 0 ∧ c.pFree = [] ∧ c.pBulk = []) ∧ c.bPurgeable = bPurgeable := by
      cases bPurgeable <;>
      · simp [pcache1Create, pcache1ResizeHash, Buckets.rehash] at h
        subst h
        simp [pnPurgeable]
    obtain ⟨⟨h1, h2⟩, ⟨h3, h4, h5⟩, ⟨h6, h7, h8⟩, h9⟩ := hc
    obtain ⟨h10, h11⟩ := hw c h1 h2 h3 h4 (h5 ▸ Links.holds_nil rfl rfl) h6 h7 h8
    exact ⟨h10, h11, h9⟩

end Create

end PCache1

end Btreelite
