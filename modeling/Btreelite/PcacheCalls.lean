import Btreelite.PcacheSteps

/-!
# The calls of the page cache

Each call keeps the invariant, and gives up only the pages it is about: a drop the page it is
given, a move the page whose number it takes, a truncate the pages behind its end, and a page that
is made clean while nobody refers to it may be recycled from then on.
-/

namespace Btreelite

namespace PCache

open Function (update)
open PCache1 (Pins Adds Trims Unpins Drops SameEntry)

variable {p : PCache} {x : Option Slot} {s : Slot} {k : ℕ} {c : PCache1}

section Clean

theorem Wf.mem_of_dirty (w : p.Wf x) {l : List Slot} (h : p.dirty.Holds l)
    (hm : ∀ s, s ∈ l ↔ s ∈ p.entries ∧ (p.hdr s).flags.dirty = true) : l.length ≤ p.pCache.nPage := by
  rw [w.lower.nPage, ← List.toFinset_card_of_nodup h.nodup]
  exact Finset.card_le_card fun s hs => ((hm s).mp (List.mem_toFinset.mp hs)).1

/-- Only the flags that have no part in the invariant change, and `pSynced` stays on the list. -/
theorem Wf.sameHdrs (w : p.Wf x) {hdr : Slot → PgHdr} {ps : Option Slot}
    (h : ∀ s, (hdr s).pgno = (p.hdr s).pgno ∧ (hdr s).nRef = (p.hdr s).nRef
      ∧ (hdr s).flags.clean = (p.hdr s).flags.clean ∧ (hdr s).flags.dirty = (p.hdr s).flags.dirty)
    (hps : ∀ s, ps = some s → s ∈ p.entries ∧ (p.hdr s).flags.dirty = true) :
    ({ p with hdr := hdr, pSynced := ps } : PCache).Wf x
      ∧ Retains p { p with hdr := hdr, pSynced := ps } fun _ => False := by
  refine ⟨⟨w.lower, w.bPurgeable, fun s hs => ?_, ?_, ?_, fun s hs => ?_⟩, fun s hs hb _ => ?_⟩
  · obtain ⟨h1, h2, h3, h4⟩ := h s
    have o := w.hdr s hs
    refine ⟨o.extra, h1.trans o.pgno, ?_, fun hx => ?_⟩
    · rw [show ({ p with hdr := hdr, pSynced := ps } : PCache).hdr s = hdr s from rfl, h3, h4]
      exact o.clean
    · rw [show ({ p with hdr := hdr, pSynced := ps } : PCache).hdr s = hdr s from rfl, h2, h4]
      exact o.unpinned hx
  · exact w.nRefSum.trans (Finset.sum_congr rfl fun s _ => (h s).2.1.symm)
  · obtain ⟨he, l, hl, hm, -⟩ := w.dirty
    refine ⟨he, l, hl, fun s => ?_, fun s hs => (hm s).mpr (hps s hs)⟩
    rw [hm]
    change _ ↔ s ∈ p.entries ∧ (hdr s).flags.dirty = true
    rw [(h s).2.2.2]
  · obtain ⟨h1, h2, h3, h4⟩ := w.held s hs
    exact ⟨h1, h2, (h s).2.1.trans h3, (h s).2.2.2.trans h4⟩
  · refine ⟨hs, ?_, rfl, rfl⟩
    change 0 < (hdr s).nRef ∨ (hdr s).flags.dirty = true
    rw [(h s).2.1, (h s).2.2.2]
    exact hb

theorem foldl_setFlags {f : PgFlags → PgFlags}
    (hf : ∀ g, (f g).clean = g.clean ∧ (f g).dirty = g.dirty) : ∀ (l : List Slot) (p : PCache),
    ∃ hdr, l.foldl (fun p s => p.setFlags s (f (p.hdr s).flags)) p = { p with hdr := hdr }
      ∧ ∀ s, (hdr s).pgno = (p.hdr s).pgno ∧ (hdr s).nRef = (p.hdr s).nRef
        ∧ (hdr s).flags.clean = (p.hdr s).flags.clean
        ∧ (hdr s).flags.dirty = (p.hdr s).flags.dirty
  | [], p => ⟨p.hdr, rfl, fun _ => ⟨rfl, rfl, rfl, rfl⟩⟩
  | s :: l, p => by
    obtain ⟨hdr, h1, h2⟩ := foldl_setFlags hf l (p.setFlags s (f (p.hdr s).flags))
    refine ⟨hdr, h1, fun t => ?_⟩
    have h := h2 t
    change _ = (update p.hdr s _ t).pgno ∧ _ = (update p.hdr s _ t).nRef
      ∧ _ = (update p.hdr s _ t).flags.clean ∧ _ = (update p.hdr s _ t).flags.dirty at h
    by_cases hts : t = s
    · subst hts
      rw [Function.update_self] at h
      exact ⟨h.1, h.2.1, h.2.2.1.trans (hf _).1, h.2.2.2.trans (hf _).2⟩
    · rwa [Function.update_of_ne hts] at h

theorem Wf.mapDirty (w : p.Wf x) {f : PgFlags → PgFlags}
    (hf : ∀ g, (f g).clean = g.clean ∧ (f g).dirty = g.dirty) :
    ({ p.mapDirty f with pSynced := p.dirty.last } : PCache).Wf x
      ∧ Retains p { p.mapDirty f with pSynced := p.dirty.last } fun _ => False := by
  obtain ⟨hdr, h1, h2⟩ := foldl_setFlags hf (p.dirty.walk p.pCache.nPage p.dirty.first) p
  unfold PCache.mapDirty
  rw [h1]
  obtain ⟨-, l, hl, hm, -⟩ := w.dirty
  exact w.sameHdrs h2 fun s hs => (hm s).mp (hl.mem_of_last hs)

theorem Wf.clearSyncFlags (w : p.Wf x) : p.sqlite3PcacheClearSyncFlags.Wf x
    ∧ Retains p p.sqlite3PcacheClearSyncFlags fun _ => False :=
  w.mapDirty fun _ => ⟨rfl, rfl⟩

theorem Wf.clearWritable (w : p.Wf x) : p.sqlite3PcacheClearWritable.Wf x
    ∧ Retains p p.sqlite3PcacheClearWritable fun _ => False :=
  w.mapDirty fun _ => ⟨rfl, rfl⟩

/-- The page before it is unpinned. -/
def markClean (p : PCache) (s : Slot) : PCache :=
  (p.dirtyRemove s).setFlags s
    { (p.hdr s).flags with dirty := false, needSync := false, writeable := false, clean := true }

theorem markClean_nRef (p : PCache) (s t : Slot) :
    ((p.markClean s).hdr t).nRef = (p.hdr t).nRef := by
  change (update p.hdr s _ t).nRef = _
  by_cases hts : t = s
  · subst hts
    rw [Function.update_self]
    rfl
  · rw [Function.update_of_ne hts]

theorem makeClean_eq (p : PCache) (s : Slot) : p.sqlite3PcacheMakeClean s =
    if (p.hdr s).nRef = 0 then (p.markClean s).pcacheUnpin s else p.markClean s := by
  rw [← markClean_nRef p s s]
  rfl

theorem Wf.makeClean (w : p.Wf none) (hs : s ∈ p.entries) (hd : (p.hdr s).flags.dirty = true) :
    (p.sqlite3PcacheMakeClean s).Wf none
      ∧ Retains p (p.sqlite3PcacheMakeClean s) fun t => t = s ∧ (p.hdr s).nRef = 0 := by
  have hu := w.busy_pinned hs (Or.inr hd)
  have r : Rewrites p (p.markClean s) s
      { p.hdr s with flags := { (p.hdr s).flags with
        dirty := false, needSync := false, writeable := false, clean := true } } :=
    { pCache := rfl, hdr := rfl, pData := rfl, bPurgeable := rfl, pgno := rfl, clean := rfl
      nRefSum := rfl
      dirty := by
        refine (w.dirty.remove ⟨hs, hd⟩).congr fun t => ?_
        by_cases hts : t = s
        · simp [hts]
        · simp [hts] }
  rw [makeClean_eq]
  split_ifs with h0
  · have w' : (p.markClean s).Wf (some s) := by
      refine w.rewrites hs r (by simp) (fun t ht => (Option.some.inj ht).symm) (by simp) ?_
      exact fun _ => ⟨hu, h0, rfl⟩
    obtain ⟨h1, h2⟩ := w'.unpin
    have hr : Retains p (p.markClean s) fun t => t = s := by
      intro t ht hb hts
      exact (r.retains (X := fun t => t = s) fun _ hc => absurd rfl hc) t ht hb hts
    refine ⟨h1, (hr.trans h2).mono fun t _ _ ht => ?_⟩
    exact ⟨ht.resolve_right id, h0⟩
  · refine ⟨w.rewrites hs r (by simp) (by simp) (fun _ => ?_) (by simp), ?_⟩
    · simp [hu, h0]
    · exact r.retains fun _ _ => Or.inl (Nat.pos_of_ne_zero h0)

@[simp] theorem unpin_dirty (p : PCache) (s : Slot) : (p.pcacheUnpin s).dirty = p.dirty := by
  unfold pcacheUnpin
  split_ifs <;> rfl

@[simp] theorem unpin_hdr (p : PCache) (s : Slot) : (p.pcacheUnpin s).hdr = p.hdr := by
  unfold pcacheUnpin
  split_ifs <;> rfl

@[simp] theorem unpin_nRefSum (p : PCache) (s : Slot) : (p.pcacheUnpin s).nRefSum = p.nRefSum := by
  unfold pcacheUnpin
  split_ifs <;> rfl

@[simp] theorem unpin_pData (p : PCache) (s : Slot) : (p.pcacheUnpin s).pData = p.pData := by
  unfold pcacheUnpin
  split_ifs <;> rfl

theorem makeClean_dirty (p : PCache) (s : Slot) :
    (p.sqlite3PcacheMakeClean s).dirty = p.dirty.remove s := by
  rw [makeClean_eq]
  split_ifs <;> simp [markClean, setFlags, setHdr, dirtyRemove]

theorem makeClean_nRefSum (p : PCache) (s : Slot) :
    (p.sqlite3PcacheMakeClean s).nRefSum = p.nRefSum := by
  rw [makeClean_eq]
  split_ifs <;> simp [markClean, setFlags, setHdr, dirtyRemove]

theorem makeClean_pData (p : PCache) (s : Slot) :
    (p.sqlite3PcacheMakeClean s).pData = p.pData := by
  rw [makeClean_eq]
  split_ifs <;> simp [markClean, setFlags, setHdr, dirtyRemove]

theorem makeClean_nRef (p : PCache) (s t : Slot) :
    ((p.sqlite3PcacheMakeClean s).hdr t).nRef = (p.hdr t).nRef := by
  rw [makeClean_eq]
  split_ifs <;> simp [markClean_nRef]

/-- Making a page clean files nothing. -/
theorem Wf.makeClean_sub (w : p.Wf none) (s : Slot) :
    (p.sqlite3PcacheMakeClean s).entries ⊆ p.entries
      ∧ (p.sqlite3PcacheMakeClean s).pCache.iKey = p.pCache.iKey := by
  have h : ∀ q : PCache, q.pCache = p.pCache → (q.pcacheUnpin s).entries ⊆ p.entries
      ∧ (q.pcacheUnpin s).pCache.iKey = p.pCache.iKey := fun q hq => by
    unfold pcacheUnpin
    have u := w.lower.unpins s false
    split_ifs
    · change (q.pCache.pcache1Unpin s false).entries ⊆ _ ∧ _
      rw [hq]
      exact ⟨u.sub, u.iKey⟩
    · unfold entries
      rw [hq]
      exact ⟨Finset.Subset.refl _, rfl⟩
  rw [makeClean_eq]
  split_ifs
  · exact h _ rfl
  · exact ⟨Finset.Subset.refl _, rfl⟩

theorem Wf.cleanLoop : ∀ (fuel : ℕ) {p : PCache}, p.Wf none →
    (PCache.cleanLoop fuel p).Wf none
      ∧ Retains p (PCache.cleanLoop fuel p) fun t => (p.hdr t).nRef = 0
  | 0, p, w => ⟨w, .rfl⟩
  | fuel + 1, p, w => by
    rw [PCache.cleanLoop]
    split
    · exact ⟨w, .rfl⟩
    · rename_i s hf
      obtain ⟨-, l, hl, hm, -⟩ := w.dirty
      obtain ⟨hs, hd⟩ := (hm s).mp (hl.mem_of_first hf)
      obtain ⟨h1, h2⟩ := w.makeClean hs hd
      obtain ⟨h3, h4⟩ := Wf.cleanLoop fuel h1
      refine ⟨h3, (h2.trans h4).mono fun t _ _ ht => ?_⟩
      rcases ht with ⟨rfl, ht⟩ | ht
      · exact ht
      · rwa [makeClean_nRef] at ht

theorem cleanLoop_first : ∀ (fuel : ℕ) {p : PCache} {l : List Slot}, p.dirty.Holds l →
    l.length ≤ fuel → (PCache.cleanLoop fuel p).dirty.first = none
  | 0, p, l, hl, hf => by
    exact hl.first_eq_none_iff.mpr (List.length_eq_zero_iff.mp (by omega))
  | fuel + 1, p, l, hl, hf => by
    rw [PCache.cleanLoop]
    split
    · assumption
    · rename_i s hs
      have hsl := hl.mem_of_first hs
      refine cleanLoop_first fuel (l := l.erase s) ?_ ?_
      · rw [makeClean_dirty]
        exact hl.remove_erase hsl
      · rw [List.length_erase_of_mem hsl]
        omega

/-- Afterwards no page is dirty. -/
theorem Wf.cleanAll_first (w : p.Wf none) : p.sqlite3PcacheCleanAll.dirty.first = none := by
  obtain ⟨-, l, hl, hm, -⟩ := w.dirty
  exact cleanLoop_first _ hl (w.mem_of_dirty hl hm)

end Clean

section Fetch

variable {a a₁ a₂ : PageAlloc} {y : Stress}

/-- A page that was filed under a new key has a fresh header. -/
theorem Wf.adds (w : p.Wf none) (hc : c.Wf ∅) (h : Adds p.pCache c k s) :
    ({ p with pCache := c }.initHdr k s).Wf (some s)
      ∧ Retains p ({ p with pCache := c }.initHdr k s) fun _ => False := by
  have hne : ∀ {t}, t ≠ s → ({ p with pCache := c }.initHdr k s).hdr t = p.hdr t := fun ht =>
    Function.update_of_ne ht _ _
  have hself : ({ p with pCache := c }.initHdr k s).hdr s = ⟨k, PgFlags.setClean, 0⟩ :=
    Function.update_self _ _ _
  have hbusy : ∀ t ∈ p.entries, p.Busy t → t ∈ c.entries ∧ t ≠ s := fun t ht hb =>
    h.kept t ht (w.busy_pinned ht hb)
  refine ⟨⟨⟨hc.filed, hc.nHash, hc.key, hc.nPage, hc.iMaxKey, hc.unfiled, hc.nPurgeable, hc.lru,
    hc.free, hc.bulk⟩, h.bPurgeable.trans w.bPurgeable, fun t ht => ?_, ?_, ?_, fun t ht => ?_⟩,
    fun t ht hb _ => ?_⟩
  · by_cases hts : t = s
    · subst hts
      exact ⟨Function.update_self _ _ _, by rw [hself]; exact h.iKey.symm, by rw [hself]; rfl,
        fun hx => absurd rfl hx⟩
    · obtain ⟨hte, e⟩ := h.old t ht hts
      have o := w.hdr t hte
      refine ⟨(Function.update_of_ne hts _ _).trans (e.extra.trans o.extra), ?_, ?_, fun _ => ?_⟩
      · rw [hne hts]
        exact o.pgno.trans e.iKey.symm
      · rw [hne hts]
        exact o.clean
      · rw [hne hts]
        exact (iff_of_eq (congrArg (· = true) e.onLru)).trans (o.unpinned (by simp))
  · -- the new page has no references, and the pages that went had none
    have hnew : ∑ t ∈ c.entries.erase s, (({ p with pCache := c }.initHdr k s).hdr t).nRef
        = ∑ t ∈ c.entries.erase s, (p.hdr t).nRef :=
      Finset.sum_congr rfl fun t ht => by rw [hne (Finset.ne_of_mem_erase ht)]
    have hold : ∑ t ∈ c.entries.erase s, (p.hdr t).nRef = ∑ t ∈ p.entries, (p.hdr t).nRef := by
      refine Finset.sum_subset (fun t ht => ?_) fun t ht hn => ?_
      · exact (h.old t (Finset.mem_of_mem_erase ht) (Finset.ne_of_mem_erase ht)).1
      · by_contra hr
        obtain ⟨h1, h2⟩ := hbusy t ht (Or.inl (Nat.pos_of_ne_zero hr))
        exact hn (Finset.mem_erase.mpr ⟨h2, h1⟩)
    change p.nRefSum = ∑ t ∈ c.entries, (({ p with pCache := c }.initHdr k s).hdr t).nRef
    rw [← Finset.add_sum_erase c.entries _ h.mem, hself, hnew, hold, w.nRefSum]
    exact (Nat.zero_add _).symm
  · refine w.dirty.congr fun t => ?_
    change _ ↔ t ∈ c.entries ∧ _
    constructor
    · rintro ⟨ht, hd⟩
      obtain ⟨h1, h2⟩ := hbusy t ht (Or.inr hd)
      rw [hne h2]
      exact ⟨h1, hd⟩
    · rintro ⟨ht, hd⟩
      have hts : t ≠ s := by
        rintro rfl
        rw [hself] at hd
        exact absurd hd Bool.false_ne_true
      rw [hne hts] at hd
      exact ⟨(h.old t ht hts).1, hd⟩
  · obtain rfl := Option.some.inj ht
    rw [hself]
    exact ⟨h.mem, h.pinned, rfl, rfl⟩
  · obtain ⟨h1, h2⟩ := hbusy t ht hb
    refine ⟨h1, ?_, (h.old t h1 h2).2.iKey, rfl⟩
    unfold Busy
    rw [hne h2]
    exact hb

/-- The answer of a fetch: the one page with the number, and the caller has a reference to it. -/
structure Got (p p' : PCache) (k : ℕ) (s : Slot) : Prop where
  mem : s ∈ p'.entries
  iKey : p'.pCache.iKey s = k
  nRef : 0 < (p'.hdr s).nRef
  hit : ∀ t ∈ p.entries, p.pCache.iKey t = k → t = s ∧ p'.pData s = p.pData s

theorem Wf.fetchFinish (w : p.Wf none) (hc : c.Wf ∅)
    (h : Pins p.pCache c k s ∨ Adds p.pCache c k s) :
    ({ p with pCache := c }.sqlite3PcacheFetchFinish k s).Wf none
      ∧ Retains p ({ p with pCache := c }.sqlite3PcacheFetchFinish k s) (fun _ => False)
      ∧ Got p ({ p with pCache := c }.sqlite3PcacheFetchFinish k s) k s := by
  have hpos : ∀ q : PCache, 0 < ((q.addRef s).hdr s).nRef := fun q => by
    change 0 < (update q.hdr s _ s).nRef
    rw [Function.update_self]
    exact Nat.succ_pos _
  rcases h with h | h
  · have hext : ({ p with pCache := c } : PCache).pCache.extra s = true :=
      (congrFun h.extra s).trans (w.hdr s h.mem).extra
    have hs : s ∈ c.entries := h.entries.symm ▸ h.mem
    unfold sqlite3PcacheFetchFinish
    rw [if_pos hext]
    obtain ⟨⟨x, hx, h1⟩, h2⟩ := w.pins hc h
    obtain ⟨h3, h4⟩ := h1.addRef hs hx h.pinned
    refine ⟨h3, (h2.trans h4).mono (by simp), hs, (congrFun h.keys s).trans h.iKey, hpos _, ?_⟩
    exact fun t ht hk => ⟨w.lower.key t ht s h.mem (hk.trans h.iKey.symm), rfl⟩
  · have hext : ¬ ({ p with pCache := c } : PCache).pCache.extra s = true := by
      change ¬ c.extra s = true
      rw [h.extra]
      decide
    unfold sqlite3PcacheFetchFinish
    rw [if_neg hext]
    obtain ⟨h1, h2⟩ := w.adds hc h
    obtain ⟨h3, h4⟩ := h1.addRef h.mem (fun t ht => (Option.some.inj ht).symm) h.pinned
    refine ⟨h3, (h2.trans h4).mono (by simp), h.mem, h.iKey, hpos _, ?_⟩
    exact fun t ht hk => absurd hk (h.absent t ht)

theorem Wf.lookupPage (w : p.Wf none) (k : ℕ) :
    (p.lookupPage k).1.Wf none ∧ Retains p (p.lookupPage k).1 (fun _ => False)
      ∧ ∀ s, (p.lookupPage k).2 = some s → Got p (p.lookupPage k).1 k s := by
  have hf : PageAlloc.fail.Fresh p.pCache := ⟨by simp [PageAlloc.fail], by simp [PageAlloc.fail]⟩
  obtain ⟨h1, h2⟩ := w.lower.fetch hf k (0 &&& p.eCreate)
  unfold PCache.lookupPage sqlite3PcacheFetch
  unfold PCache1.Fetches at h2
  cases hr : (p.pCache.pcache1Fetch k (0 &&& p.eCreate) .fail).2 with
  | none =>
    rw [hr] at h2
    simp only [hr]
    obtain ⟨h3, h4⟩ := w.trims h1 h2.2
    exact ⟨h3, h4, by simp⟩
  | some s =>
    rw [hr] at h2
    simp only [hr]
    obtain ⟨h3, h4, h5⟩ := w.fetchFinish h1 h2
    refine ⟨h3, h4, ?_⟩
    rintro t ⟨⟩
    exact h5

theorem Wf.spillCandidate (w : p.Wf none) : p.spillCandidate.1.Wf none
    ∧ Retains p p.spillCandidate.1 (fun _ => False)
    ∧ ∀ s, p.spillCandidate.2 = some s → s ∈ p.spillCandidate.1.entries
      ∧ (p.spillCandidate.1.hdr s).flags.dirty = true ∧ (p.spillCandidate.1.hdr s).nRef = 0 := by
  obtain ⟨-, l, hl, hm, hsync⟩ := w.dirty
  have hlen := w.mem_of_dirty hl hm
  have hps := fun s => hl.backTo_mem hsync
    (fun s => (p.hdr s).nRef != 0 || (p.hdr s).flags.needSync) hlen (y := s)
  have htail := fun s => hl.backTo_mem (fun _ => hl.mem_of_last)
    (fun s => (p.hdr s).nRef != 0) hlen (y := s)
  unfold PCache.spillCandidate
  simp only []
  generalize ho : p.dirty.backTo (fun s => (p.hdr s).nRef != 0 || (p.hdr s).flags.needSync)
    p.pCache.nPage p.pSynced = o at hps ⊢
  obtain ⟨h1, h2⟩ := @Wf.sameHdrs _ _ w p.hdr o (fun s => ⟨rfl, rfl, rfl, rfl⟩)
    fun s hs => (hm s).mp (hps s hs).1
  refine ⟨h1, h2, fun s hs => ?_⟩
  cases o with
  | some t =>
    obtain rfl := Option.some.inj hs
    obtain ⟨h3, h4⟩ := hps t rfl
    obtain ⟨h5, h6⟩ := (hm t).mp h3
    simp only [Bool.or_eq_false_iff, bne_eq_false_iff_eq] at h4
    exact ⟨h5, h6, h4.1⟩
  | none =>
    obtain ⟨h3, h4⟩ := htail s hs
    obtain ⟨h5, h6⟩ := (hm s).mp h3
    exact ⟨h5, h6, by simpa using h4⟩

/-- The callback may make the page it is given clean, which may be recycled then. -/
theorem Wf.runStress (w : p.Wf none) (hs : s ∈ p.entries) (hd : (p.hdr s).flags.dirty = true)
    (y : Stress) : (p.runStress y s).Wf none
      ∧ Retains p (p.runStress y s) fun t => y.cleans = true ∧ t = s := by
  have main : ∀ q : PCache, q.Wf none → s ∈ q.entries → (q.hdr s).flags.dirty = true →
      (if y.cleans then q.sqlite3PcacheMakeClean s else q).Wf none
        ∧ Retains q (if y.cleans then q.sqlite3PcacheMakeClean s else q)
          fun t => y.cleans = true ∧ t = s := by
    intro q wq hs hd
    split_ifs with h
    · obtain ⟨h1, h2⟩ := wq.makeClean hs hd
      exact ⟨h1, h2.mono fun t _ _ ht => ⟨h, ht.1⟩⟩
    · exact ⟨wq, .rfl⟩
  unfold PCache.runStress
  simp only []
  by_cases hy : y.syncs = true
  · rw [if_pos hy]
    obtain ⟨h1, h2⟩ := w.clearSyncFlags
    obtain ⟨hdr, e, hh⟩ := foldl_setFlags (f := fun f => { f with needSync := false })
      (fun _ => ⟨rfl, rfl⟩) (p.dirty.walk p.pCache.nPage p.dirty.first) p
    have e' : p.sqlite3PcacheClearSyncFlags = { p with hdr := hdr, pSynced := p.dirty.last } := by
      unfold sqlite3PcacheClearSyncFlags PCache.mapDirty
      rw [e]
    rw [e'] at h1 h2 ⊢
    obtain ⟨h3, h4⟩ := main _ h1 hs ((hh s).2.2.2.trans hd)
    exact ⟨h3, (h2.trans h4).mono fun t _ _ ht => ht.resolve_left id⟩
  · rw [if_neg hy]
    exact main p w hs hd

theorem Wf.spill (w : p.Wf none) (y : Stress) : (p.spill y).1.Wf none
    ∧ Retains p (p.spill y).1 fun t => y.cleans = true ∧ p.spillCandidate.2 = some t := by
  obtain ⟨h1, h2, h3⟩ := w.spillCandidate
  unfold PCache.spill
  split_ifs
  · cases hc : p.spillCandidate.2 with
    | none =>
      rw [show p.spillCandidate = (p.spillCandidate.1, none) from Prod.ext rfl hc]
      exact ⟨h1, h2.mono (by simp)⟩
    | some s =>
      obtain ⟨h4, h5, -⟩ := h3 s hc
      rw [show p.spillCandidate = (p.spillCandidate.1, some s) from Prod.ext rfl hc]
      obtain ⟨h6, h7⟩ := h1.runStress h4 h5 y
      refine ⟨h6, (h2.trans h7).mono fun t _ _ ht => ?_⟩
      obtain ⟨h8, h9⟩ := ht.resolve_left id
      exact ⟨h8, congrArg some h9.symm⟩
  · exact ⟨w, .rfl⟩

/-- The cache when the page to spill is chosen. -/
def beforeSpill (p : PCache) (pgno : ℕ) (a : PageAlloc) : PCache :=
  (p.sqlite3PcacheFetch pgno 3 a).1

theorem Wf.fetchStress (w : p.Wf none) (h₂ : a₂.Fresh (p.spill y).1.pCache) :
    let r := p.sqlite3PcacheFetchStress k y a₂
    let q := match r.2.2 with
      | some s => (r.1.sqlite3PcacheFetchFinish k s, some s)
      | none => (r.1, none)
    q.1.Wf none
      ∧ Retains p q.1 (fun t => y.cleans = true ∧ p.spillCandidate.2 = some t)
      ∧ ∀ s, q.2 = some s → s ∈ q.1.entries ∧ q.1.pCache.iKey s = k ∧ 0 < (q.1.hdr s).nRef := by
  obtain ⟨h1, h2⟩ := w.spill y
  obtain ⟨h3, h4⟩ := h1.lower.fetch h₂ k 2
  unfold sqlite3PcacheFetchStress
  unfold PCache1.Fetches at h4
  simp only []
  split_ifs with _ _ hn
  · exact ⟨w, .rfl, by simp⟩
  · exact ⟨h1, h2, by simp⟩
  · rw [hn] at h4
    simp only [hn]
    obtain ⟨h5, h6⟩ := h1.trims h3 h4.2
    exact ⟨h5, (h2.trans h6).mono fun t _ _ ht => ht.resolve_right id, by simp⟩
  · obtain ⟨s, hr⟩ := Option.ne_none_iff_exists'.mp hn
    rw [hr] at h4
    simp only [hr]
    obtain ⟨h5, h6, h7⟩ := h1.fetchFinish h3 h4
    refine ⟨h5, (h2.trans h6).mono fun t _ _ ht => ht.resolve_right id, ?_⟩
    rintro t ⟨⟩
    exact ⟨h7.mem, h7.iKey, h7.nRef⟩

theorem Wf.getPage (w : p.Wf none) (h₁ : a₁.Fresh p.pCache)
    (h₂ : a₂.Fresh ((p.beforeSpill k a₁).spill y).1.pCache) :
    (p.getPage k a₁ y a₂).1.Wf none
      ∧ Retains p (p.getPage k a₁ y a₂).1 (fun t => y.cleans = true
        ∧ (p.beforeSpill k a₁).spillCandidate.2 = some t ∧ (p.hdr t).nRef = 0)
      ∧ ∀ s, (p.getPage k a₁ y a₂).2 = some s → Got p (p.getPage k a₁ y a₂).1 k s := by
  obtain ⟨h3, h4⟩ := w.lower.fetch h₁ k (3 &&& p.eCreate)
  unfold PCache1.Fetches at h4
  unfold PCache.getPage
  simp only []
  cases hr : (p.sqlite3PcacheFetch k 3 a₁).2 with
  | some s =>
    rw [show (p.pCache.pcache1Fetch k (3 &&& p.eCreate) a₁).2 = some s from hr] at h4
    obtain ⟨h5, h6, h7⟩ := w.fetchFinish h3 h4
    refine ⟨h5, h6.mono (by simp), ?_⟩
    rintro t ⟨⟩
    exact h7
  | none =>
    rw [show (p.pCache.pcache1Fetch k (3 &&& p.eCreate) a₁).2 = none from hr] at h4
    obtain ⟨h5, h6⟩ := w.trims h3 h4.2
    obtain ⟨h7, h8, h9⟩ := Wf.fetchStress (p := p.beforeSpill k a₁) (k := k) h5 h₂
    obtain ⟨-, -, h13⟩ := Wf.spillCandidate (p := p.beforeSpill k a₁) h5
    refine ⟨h7, (h6.trans h8).mono fun t _ _ ht => ?_, fun s hs => ?_⟩
    · obtain ⟨ht1, ht2⟩ := ht.resolve_left id
      exact ⟨ht1, ht2, (h13 t ht2).2.2⟩
    · obtain ⟨h10, h11, h12⟩ := h9 s hs
      exact ⟨h10, h11, h12, fun t ht e => absurd e (h4.1 t ht)⟩

end Fetch

end PCache

end Btreelite
