import Btreelite.Pcache1

/-!
# The invariant of the hashed page cache

`PCache1.Wf` relates the hash table, the list of recyclable pages, the free slots and the counters.
A fetch takes a page out of the table or off the free list before it files it again, so the
invariant is stated with the pages that are in hand in between. Each function of the layer keeps
it, and `Trims` says what the functions that make room may do to the entries: only pages on the
recyclable list go.
-/

namespace Btreelite

namespace PCache1

open Function (update)

/-- The invariant, while the pages of `hand` are allocated but not in the table. -/
structure Wf (c : PCache1) (hand : Finset Slot) : Prop where
  filed : Buckets.Filed c.iKey c.nHash c.apHash
  nHash : 2 ≤ c.nHash
  key : ∀ s ∈ c.entries, ∀ t ∈ c.entries, c.iKey s = c.iKey t → s = t
  nPage : c.nPage = c.entries.card
  iMaxKey : ∀ s ∈ c.entries, c.iKey s ≤ c.iMaxKey
  unfiled : ∀ s ∈ hand, s ∉ c.entries
  nPurgeable : c.pnPurgeable = c.nPage + hand.card
  lru : ∃ l, c.pGroup.lru.Holds l ∧ (∀ s, s ∈ l ↔ s ∈ c.entries ∧ c.onLru s)
    ∧ c.nRecyclable = l.length
  free : c.pFree.Nodup ∧ ∀ s ∈ c.pFree, c.isBulkLocal s ∧ s ∉ c.entries ∧ s ∉ hand
  bulk : ∀ s, s ∈ c.pBulk ↔ s ∈ c.pFree ∨ (s ∈ c.entries ∨ s ∈ hand) ∧ c.isBulkLocal s

/-- An entry is filed under the same key, as pinned as before and no less initialised. -/
structure SameEntry (c c' : PgHdr1s) (s : Slot) : Prop where
  iKey : c'.iKey s = c.iKey s
  onLru : c'.onLru s = c.onLru s
  extra : c'.extra s = c.extra s

/-- Some pages of the recyclable list may have gone. -/
structure Trims (c c' : PCache1) : Prop where
  sub : c'.entries ⊆ c.entries
  kept : ∀ s ∈ c.entries, c.onLru s = false → s ∈ c'.entries
  same : ∀ s ∈ c'.entries, SameEntry c.toPgHdr1s c'.toPgHdr1s s
  bPurgeable : c'.bPurgeable = c.bPurgeable

theorem SameEntry.rfl {c : PgHdr1s} {s : Slot} : SameEntry c c s := ⟨.refl _, .refl _, .refl _⟩

theorem SameEntry.trans {c c' c'' : PgHdr1s} {s : Slot} (h : SameEntry c c' s)
    (h' : SameEntry c' c'' s) : SameEntry c c'' s :=
  ⟨h'.iKey.trans h.iKey, h'.onLru.trans h.onLru, h'.extra.trans h.extra⟩

theorem Trims.rfl {c : PCache1} : Trims c c :=
  ⟨Finset.Subset.refl _, fun _ h _ => h, fun _ _ => .rfl, .refl _⟩

theorem Trims.trans {c c' c'' : PCache1} (h : Trims c c') (h' : Trims c' c'') : Trims c c'' where
  sub := h'.sub.trans h.sub
  kept s hs hu := by
    have hs' := h.kept s hs hu
    exact h'.kept s hs' ((h.same s hs').onLru.trans hu)
  same s hs := (h.same s (h'.sub hs)).trans (h'.same s hs)
  bPurgeable := h'.bPurgeable.trans h.bPurgeable

section Counters

variable (c : PCache1) (n : ℕ) (s : Slot)

@[simp] theorem pnPurgeable_setPnPurgeable : (c.setPnPurgeable n).pnPurgeable = n := by
  unfold pnPurgeable setPnPurgeable
  cases c.bPurgeable <;> simp

@[simp] theorem pnPurgeable_freePage : (c.pcache1FreePage s).pnPurgeable = c.pnPurgeable - 1 := by
  simp [pcache1FreePage]

end Counters

section Pages

variable {c : PCache1} {hand : Finset Slot} {s : Slot}

theorem Wf.nodup_lru (w : c.Wf hand) {l : List Slot} (hl : c.pGroup.lru.Holds l)
    (hm : ∀ s, s ∈ l ↔ s ∈ c.entries ∧ c.onLru s) : l.length ≤ c.nPage := by
  rw [w.nPage, ← List.toFinset_card_of_nodup hl.nodup]
  refine Finset.card_le_card fun s hs => ?_
  exact ((hm s).mp (List.mem_toFinset.mp hs)).1

theorem Wf.pinPage (w : c.Wf hand) (hs : s ∈ c.entries) (hu : c.onLru s) :
    (c.pcache1PinPage s).Wf hand where
  filed := w.filed
  nHash := w.nHash
  key := w.key
  nPage := w.nPage
  iMaxKey := w.iMaxKey
  unfiled := w.unfiled
  nPurgeable := w.nPurgeable
  lru := by
    obtain ⟨l, hl, hm, hn⟩ := w.lru
    have hsl : s ∈ l := (hm s).mpr ⟨hs, hu⟩
    refine ⟨l.erase s, hl.remove_erase hsl, fun t => ?_, ?_⟩
    · rw [hl.nodup.mem_erase_iff, hm]
      simp only [pcache1PinPage, Function.update_apply]
      change t ≠ s ∧ t ∈ c.entries ∧ c.onLru t ↔ t ∈ c.entries ∧ _
      by_cases ht : t = s <;> simp [ht]
    · rw [List.length_erase_of_mem hsl, ← hn]
      rfl
  free := w.free
  bulk := w.bulk

@[simp] theorem entries_removeFromHash (w : Buckets.Filed c.iKey c.nHash c.apHash) (b : Bool) :
    (c.pcache1RemoveFromHash s b).entries = c.entries.erase s := by
  cases b <;> exact w.entries_erase s

/-- A pinned page that leaves the table is in hand. -/
theorem Wf.unlink (w : c.Wf hand) (hs : s ∈ c.entries) (hu : c.onLru s = false) :
    (c.pcache1RemoveFromHash s false).Wf (insert s hand) where
  filed := w.filed.erase s
  nHash := w.nHash
  key := by
    rw [entries_removeFromHash w.filed]
    exact fun t ht u hu => w.key t (Finset.mem_of_mem_erase ht) u (Finset.mem_of_mem_erase hu)
  nPage := by
    rw [entries_removeFromHash w.filed, Finset.card_erase_of_mem hs, ← w.nPage]
    rfl
  iMaxKey := by
    rw [entries_removeFromHash w.filed]
    exact fun t ht => w.iMaxKey t (Finset.mem_of_mem_erase ht)
  unfiled := by
    rw [entries_removeFromHash w.filed]
    intro t ht
    rcases Finset.mem_insert.mp ht with rfl | ht
    · exact Finset.notMem_erase _ _
    · exact fun hc => w.unfiled t ht (Finset.mem_of_mem_erase hc)
  nPurgeable := by
    have hsh : s ∉ hand := fun hc => w.unfiled s hc hs
    have hpos : 0 < c.nPage := by
      rw [w.nPage]
      exact Finset.card_pos.mpr ⟨s, hs⟩
    rw [Finset.card_insert_of_notMem hsh]
    have := w.nPurgeable
    change c.pnPurgeable = c.nPage - 1 + (hand.card + 1)
    omega
  lru := by
    obtain ⟨l, hl, hm, hn⟩ := w.lru
    refine ⟨l, hl, fun t => ?_, hn⟩
    rw [entries_removeFromHash w.filed, hm, Finset.mem_erase]
    change t ∈ c.entries ∧ c.onLru t ↔ (t ≠ s ∧ t ∈ c.entries) ∧ c.onLru t
    constructor
    · refine fun ht => ⟨⟨?_, ht.1⟩, ht.2⟩
      rintro rfl
      rw [hu] at ht
      exact absurd ht.2 (by decide)
    · exact fun ht => ⟨ht.1.2, ht.2⟩
  free := by
    refine ⟨w.free.1, fun t ht => ?_⟩
    obtain ⟨h1, h2, h3⟩ := w.free.2 t ht
    refine ⟨h1, ?_, ?_⟩
    · rw [entries_removeFromHash w.filed]
      exact fun hc => h2 (Finset.mem_of_mem_erase hc)
    · rw [Finset.mem_insert]
      rintro (rfl | hc)
      · exact h2 hs
      · exact h3 hc
  bulk := by
    intro t
    rw [entries_removeFromHash w.filed, Finset.mem_erase, Finset.mem_insert]
    refine (w.bulk t).trans ?_
    by_cases ht : t = s
    · subst ht
      simp only [hs, true_or, true_and, ne_eq, not_true_eq_false, false_and, false_or]
      rfl
    · simp only [ht, ne_eq, not_false_eq_true, true_and, false_or]
      rfl

theorem Wf.freePage (w : c.Wf hand) (hs : s ∈ hand) : (c.pcache1FreePage s).Wf (hand.erase s) where
  filed := w.filed
  nHash := w.nHash
  key := w.key
  nPage := w.nPage
  iMaxKey := w.iMaxKey
  unfiled t ht := w.unfiled t (Finset.mem_of_mem_erase ht)
  nPurgeable := by
    rw [pnPurgeable_freePage, w.nPurgeable, Finset.card_erase_of_mem hs]
    have : 0 < hand.card := Finset.card_pos.mpr ⟨s, hs⟩
    change _ = c.nPage + _
    omega
  lru := w.lru
  free := by
    have hf := w.free
    change (if c.isBulkLocal s then s :: c.pFree else c.pFree).Nodup ∧
      ∀ t ∈ if c.isBulkLocal s then s :: c.pFree else c.pFree,
        c.isBulkLocal t ∧ t ∉ c.entries ∧ t ∉ hand.erase s
    have old : ∀ t ∈ c.pFree, c.isBulkLocal t ∧ t ∉ c.entries ∧ t ∉ hand.erase s := fun t ht =>
      ⟨(hf.2 t ht).1, (hf.2 t ht).2.1, fun hc => (hf.2 t ht).2.2 (Finset.mem_of_mem_erase hc)⟩
    split_ifs with hb
    · refine ⟨List.nodup_cons.mpr ⟨fun hc => (hf.2 s hc).2.2 hs, hf.1⟩, fun t ht => ?_⟩
      rcases List.mem_cons.mp ht with rfl | ht
      · exact ⟨hb, w.unfiled t hs, Finset.notMem_erase _ _⟩
      · exact old t ht
    · exact ⟨hf.1, old⟩
  bulk := by
    intro t
    refine (w.bulk t).trans ?_
    change _ ↔ t ∈ (if c.isBulkLocal s then s :: c.pFree else c.pFree) ∨
      (t ∈ c.entries ∨ t ∈ hand.erase s) ∧ c.isBulkLocal t
    rw [Finset.mem_erase]
    split_ifs with hb
    · rw [List.mem_cons]
      by_cases ht : t = s
      · simp [ht, hs, hb]
      · simp [ht]
    · by_cases ht : t = s
      · simp [ht, hb]
      · simp [ht]

/-- A page in hand is filed under a key no entry has. -/
theorem Wf.addPage (w : c.Wf hand) (hs : s ∈ hand) {k : ℕ} (hk : ∀ t ∈ c.entries, c.iKey t ≠ k) :
    (c.addPage k s).Wf (hand.erase s) ∧ (c.addPage k s).entries = insert s c.entries := by
  have hse : s ∉ c.entries := w.unfiled s hs
  have hne : ∀ t ∈ c.entries, t ≠ s := fun t ht hc => hse (hc ▸ ht)
  have hkey : ∀ t ∈ c.entries, update c.iKey s k t = c.iKey t := fun t ht =>
    Function.update_of_ne (hne t ht) _ _
  have hent : (c.addPage k s).entries = insert s c.entries := Buckets.Filed.entries_push w.filed.pos
  have hold : ∀ t, t ∈ insert s c.entries → t ≠ s → t ∈ c.entries := fun t ht h =>
    (Finset.mem_insert.mp ht).resolve_left h
  refine ⟨?_, hent⟩
  constructor
  case filed => exact (w.filed.congr hkey).push hse
  case nHash => exact w.nHash
  case key =>
    rw [hent]
    intro t ht u hu e
    change update c.iKey s k t = update c.iKey s k u at e
    by_cases h1 : t = s <;> by_cases h2 : u = s
    · rw [h1, h2]
    · rw [h1, Function.update_self, hkey u (hold u hu h2)] at e
      exact absurd e.symm (hk u (hold u hu h2))
    · rw [h2, Function.update_self, hkey t (hold t ht h1)] at e
      exact absurd e (hk t (hold t ht h1))
    · rw [hkey t (hold t ht h1), hkey u (hold u hu h2)] at e
      exact w.key t (hold t ht h1) u (hold u hu h2) e
  case nPage =>
    rw [hent, Finset.card_insert_of_notMem hse, ← w.nPage]
    rfl
  case iMaxKey =>
    rw [hent]
    intro t ht
    change update c.iKey s k t ≤ max c.iMaxKey k
    by_cases h : t = s
    · rw [h, Function.update_self]
      exact le_max_right _ _
    · rw [hkey t (hold t ht h)]
      exact (w.iMaxKey t (hold t ht h)).trans (le_max_left _ _)
  case unfiled =>
    rw [hent]
    intro t ht hc
    exact w.unfiled t (Finset.mem_of_mem_erase ht) (hold t hc (Finset.ne_of_mem_erase ht))
  case nPurgeable =>
    have := w.nPurgeable
    have hpos : 0 < hand.card := Finset.card_pos.mpr ⟨s, hs⟩
    rw [Finset.card_erase_of_mem hs]
    change c.pnPurgeable = c.nPage + 1 + (hand.card - 1)
    omega
  case lru =>
    obtain ⟨l, hl, hm, hn⟩ := w.lru
    refine ⟨l, hl, fun t => ?_, hn⟩
    rw [hent, hm, Finset.mem_insert]
    change _ ↔ _ ∧ update c.onLru s false t = true
    rw [Function.update_apply]
    by_cases h : t = s
    · simp [h, hse]
    · simp [h]
  case free =>
    refine ⟨w.free.1, fun t ht => ?_⟩
    obtain ⟨h1, h2, h3⟩ := w.free.2 t ht
    refine ⟨h1, ?_, fun hc => h3 (Finset.mem_of_mem_erase hc)⟩
    rw [hent, Finset.mem_insert]
    rintro (rfl | hc)
    · exact h3 hs
    · exact h2 hc
  case bulk =>
    intro t
    rw [hent, Finset.mem_insert, Finset.mem_erase]
    refine (w.bulk t).trans ?_
    change _ ↔ t ∈ c.pFree ∨ _ ∧ c.isBulkLocal t
    by_cases h : t = s
    · simp [h, hs]
    · simp [h]

theorem Wf.removePage (w : c.Wf ∅) (hs : s ∈ c.entries) (hu : c.onLru s = false) :
    (c.pcache1RemoveFromHash s true).Wf ∅ := by
  have h := (w.unlink hs hu).freePage (Finset.mem_insert_self s ∅)
  rwa [Finset.erase_insert (Finset.notMem_empty s)] at h

theorem Wf.resizeHash (w : c.Wf hand) (ok : Bool) :
    (c.pcache1ResizeHash ok).Wf hand ∧ (c.pcache1ResizeHash ok).entries = c.entries := by
  unfold pcache1ResizeHash
  split_ifs
  · obtain ⟨hf, he⟩ := w.filed.rehash (m := max 256 (2 * c.nHash)) (by omega)
    have hent : ({ c with
        apHash := Buckets.rehash c.iKey c.nHash (max 256 (2 * c.nHash)) c.apHash
        nHash := max 256 (2 * c.nHash) } : PCache1).entries = c.entries := he
    refine ⟨⟨hf, ?_, ?_, ?_, ?_, ?_, w.nPurgeable, ?_, ?_, ?_⟩, hent⟩
    · change 2 ≤ max 256 (2 * c.nHash)
      omega
    · rw [hent]
      exact w.key
    · rw [hent]
      exact w.nPage
    · rw [hent]
      exact w.iMaxKey
    · rw [hent]
      exact w.unfiled
    · rw [hent]
      exact w.lru
    · rw [hent]
      exact w.free
    · rw [hent]
      exact w.bulk
  · exact ⟨w, rfl⟩

/-- The limits have no part in the invariant. -/
theorem Wf.limits (w : c.Wf hand) (nMax n90pct nMaxPage mxPinned : ℕ) :
    ({ c with
      pGroup := { c.pGroup with nMaxPage := nMaxPage, mxPinned := mxPinned }
      nMax := nMax
      n90pct := n90pct } : PCache1).Wf hand :=
  ⟨w.filed, w.nHash, w.key, w.nPage, w.iMaxKey, w.unfiled, w.nPurgeable, w.lru, w.free, w.bulk⟩

/-- The last page of the recyclable list. -/
theorem Wf.last (w : c.Wf hand) (hl : c.pGroup.lru.last = some s) :
    s ∈ c.entries ∧ c.onLru s = true := by
  obtain ⟨l, h, hm, -⟩ := w.lru
  exact (hm s).mp (h.mem_of_last hl)

/-- Taking a page off the recyclable list and out of the table. -/
theorem Wf.recycle (w : c.Wf hand) (hs : s ∈ c.entries) (hu : c.onLru s = true) :
    ((c.pcache1PinPage s).pcache1RemoveFromHash s false).Wf (insert s hand) :=
  (w.pinPage hs hu).unlink hs (by simp [pcache1PinPage])

theorem trims_recycle (w : Buckets.Filed c.iKey c.nHash c.apHash) (hu : c.onLru s = true)
    (b : Bool) : Trims c ((c.pcache1PinPage s).pcache1RemoveFromHash s b) := by
  have hent : ((c.pcache1PinPage s).pcache1RemoveFromHash s b).entries = c.entries.erase s :=
    entries_removeFromHash (c := c.pcache1PinPage s) w b
  constructor
  case sub => exact hent ▸ Finset.erase_subset s _
  case kept =>
    intro t ht h
    rw [hent, Finset.mem_erase]
    refine ⟨?_, ht⟩
    rintro rfl
    rw [hu] at h
    exact absurd h (by decide)
  case same =>
    intro t ht
    rw [hent, Finset.mem_erase] at ht
    cases b <;> exact ⟨rfl, Function.update_of_ne ht.1 _ _, rfl⟩
  case bPurgeable => cases b <;> rfl

theorem Wf.recycleExcess : ∀ (fuel : ℕ) {c : PCache1}, c.Wf ∅ →
    (PCache1.recycleExcess fuel c).Wf ∅ ∧ Trims c (PCache1.recycleExcess fuel c)
  | 0, c, w => ⟨w, .rfl⟩
  | fuel + 1, c, w => by
    rw [PCache1.recycleExcess]
    split
    · exact ⟨w, .rfl⟩
    · rename_i s hl
      obtain ⟨hs, hu⟩ := w.last hl
      split_ifs
      · have w' : ((c.pcache1PinPage s).pcache1RemoveFromHash s true).Wf ∅ :=
          (w.pinPage hs hu).removePage hs (by simp [pcache1PinPage])
        obtain ⟨h1, h2⟩ := Wf.recycleExcess fuel w'
        exact ⟨h1, (trims_recycle w.filed hu true).trans h2⟩
      · exact ⟨w, .rfl⟩

theorem Wf.enforceMaxPage (w : c.Wf ∅) :
    c.pcache1EnforceMaxPage.Wf ∅ ∧ Trims c c.pcache1EnforceMaxPage := by
  obtain ⟨w', ht⟩ := Wf.recycleExcess c.nRecyclable w
  unfold pcache1EnforceMaxPage
  simp only []
  split_ifs with h
  · refine ⟨⟨w'.filed, w'.nHash, w'.key, w'.nPage, w'.iMaxKey, w'.unfiled, w'.nPurgeable, w'.lru,
      ⟨List.nodup_nil, by simp⟩, fun s => ?_⟩, ⟨ht.sub, ht.kept, ht.same, ht.bPurgeable⟩⟩
    -- a block that is freed holds no page
    have hno : (PCache1.recycleExcess c.nRecyclable c).entries = ∅ :=
      Finset.card_eq_zero.mp (w'.nPage.symm.trans h.1)
    change s ∈ [] ↔ s ∈ [] ∨ (s ∈ (PCache1.recycleExcess c.nRecyclable c).entries ∨ _) ∧ _
    simp [hno]
  · exact ⟨w', ht⟩

theorem Wf.cachesize (w : c.Wf ∅) (nMax : ℕ) :
    (c.pcache1Cachesize nMax).Wf ∅ ∧ Trims c (c.pcache1Cachesize nMax) := by
  unfold pcache1Cachesize
  split_ifs
  · obtain ⟨w', ht⟩ := (w.limits (min nMax (0x7fff0000 - c.pGroup.nMaxPage + c.nMax)) _ _ _
      ).enforceMaxPage
    exact ⟨w', ht.sub, ht.kept, ht.same, ht.bPurgeable⟩
  · exact ⟨w, .rfl⟩

theorem Wf.shrink (w : c.Wf ∅) : c.pcache1Shrink.Wf ∅ ∧ Trims c c.pcache1Shrink := by
  unfold pcache1Shrink
  split_ifs
  · obtain ⟨w', ht⟩ := (w.limits c.nMax c.n90pct 0 c.pGroup.mxPinned).enforceMaxPage
    exact ⟨w'.limits _ _ _ _, ht.sub, ht.kept, ht.same, ht.bPurgeable⟩
  · exact ⟨w, .rfl⟩

end Pages

end PCache1

end Btreelite
