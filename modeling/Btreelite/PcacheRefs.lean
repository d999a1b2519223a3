import Btreelite.PcacheCalls

/-!
# References, moves and truncation

The calls that change what is in the cache, or who uses it: a release may hand a page to the
recyclable list, a drop takes it out, a move files it under another number after dropping the page
that was there, and a truncate takes out everything behind the new end. Nothing a caller still
refers to is behind that end, apart from page 1, which stays.
-/

namespace Btreelite

namespace PCache

open Function (update)
open PCache1 (Pins Adds Trims Unpins Drops SameEntry)

variable {p : PCache} {x : Option Slot} {s : Slot} {k : ℕ} {c : PCache1}

section Refs

/-- A reference less, before anything follows from it. -/
def subRef (p : PCache) (s : Slot) : PCache :=
  { p.setHdr s { p.hdr s with nRef := (p.hdr s).nRef - 1 } with nRefSum := p.nRefSum - 1 }

theorem subRef_hdr (p : PCache) (s : Slot) :
    (p.subRef s).hdr s = { p.hdr s with nRef := (p.hdr s).nRef - 1 } :=
  Function.update_self _ _ _

theorem release_eq (p : PCache) (s : Slot) : p.sqlite3PcacheRelease s =
    if (p.hdr s).nRef - 1 = 0 then
      if (p.hdr s).flags.clean then (p.subRef s).pcacheUnpin s
      else (p.subRef s).pcacheManageDirtyList s .front
    else p.subRef s := by
  have h : p.sqlite3PcacheRelease s =
      if ((p.subRef s).hdr s).nRef = 0 then
        if ((p.subRef s).hdr s).flags.clean then (p.subRef s).pcacheUnpin s
        else (p.subRef s).pcacheManageDirtyList s .front
      else p.subRef s := rfl
  rw [h, subRef_hdr]

theorem Wf.nRef_le (w : p.Wf x) (hs : s ∈ p.entries) : (p.hdr s).nRef ≤ p.nRefSum := by
  rw [w.nRefSum, ← Finset.add_sum_erase _ _ hs]
  exact Nat.le_add_right _ _

theorem Wf.subRef (w : p.Wf none) (hs : s ∈ p.entries) (hr : 0 < (p.hdr s).nRef) {p' : PCache}
    (hc : p'.pCache = p.pCache) (hh : p'.hdr = (p.subRef s).hdr) (hdata : p'.pData = p.pData)
    (hp : p'.bPurgeable = p.bPurgeable) (hn : p'.nRefSum = p.nRefSum - 1)
    (hd : p'.DirtyOk fun t => t ∈ p.entries ∧ (p.hdr t).flags.dirty = true) :
    Rewrites p p' s { p.hdr s with nRef := (p.hdr s).nRef - 1 } where
  pCache := hc
  hdr := hh
  pData := hdata
  bPurgeable := hp
  pgno := rfl
  clean := (w.hdr s hs).clean
  nRefSum := by
    have := w.nRef_le hs
    change p'.nRefSum + _ = _ + ((p.hdr s).nRef - 1)
    omega
  dirty := by
    refine hd.congr fun t => and_congr_right fun _ => ?_
    by_cases hts : t = s <;> simp [hts]

theorem Wf.release (w : p.Wf none) (hs : s ∈ p.entries) (hr : 0 < (p.hdr s).nRef) :
    (p.sqlite3PcacheRelease s).Wf none
      ∧ Retains p (p.sqlite3PcacheRelease s) fun t =>
        t = s ∧ (p.hdr s).nRef = 1 ∧ (p.hdr s).flags.dirty = false := by
  have hu := w.busy_pinned hs (Or.inl hr)
  have hcl := (w.hdr s hs).clean
  have r : Rewrites p (p.subRef s) s _ := w.subRef hs hr rfl rfl rfl rfl rfl w.dirty
  rw [release_eq]
  by_cases h0 : (p.hdr s).nRef - 1 = 0
  · rw [if_pos h0]
    cases hd : (p.hdr s).flags.dirty with
    | false =>
      rw [hd] at hcl
      rw [if_pos (by rw [hcl]; rfl)]
      have w' : (p.subRef s).Wf (some s) := w.rewrites hs r (by simp)
        (fun t ht => (Option.some.inj ht).symm) (by simp) fun _ => ⟨hu, h0, hd⟩
      obtain ⟨h1, h2⟩ := w'.unpin
      have hret : Retains p (p.subRef s) fun t => t = s :=
        fun t ht hb hts => r.retains (X := fun t => t = s) (fun _ hc => absurd rfl hc) t ht hb hts
      refine ⟨h1, (hret.trans h2).mono fun t _ _ ht => ⟨ht.resolve_right id, by omega, rfl⟩⟩
    | true =>
      rw [hd] at hcl
      rw [if_neg (by rw [hcl]; decide)]
      have r' : Rewrites p ((p.subRef s).pcacheManageDirtyList s .front) s _ :=
        w.subRef hs hr rfl rfl rfl rfl rfl (DirtyOk.front (p := p.subRef s) w.dirty ⟨hs, hd⟩)
      refine ⟨w.rewrites hs r' (by simp) (by simp) (fun _ => by simp [hu, hd]) (by simp), ?_⟩
      exact r'.retains fun _ _ => Or.inr hd
  · rw [if_neg h0]
    refine ⟨w.rewrites hs r (by simp) (by simp) (fun _ => ?_) (by simp), ?_⟩
    · change _ ↔ _ ∧ (p.hdr s).nRef - 1 = 0 ∧ _
      simp [hu, h0]
    · exact r.retains fun _ _ => Or.inl (Nat.pos_of_ne_zero h0)

theorem Wf.ref (w : p.Wf none) (hs : s ∈ p.entries) (hr : 0 < (p.hdr s).nRef) :
    (p.sqlite3PcacheRef s).Wf none ∧ Retains p (p.sqlite3PcacheRef s) fun _ => False :=
  w.addRef hs (by simp) (w.busy_pinned hs (Or.inl hr))

theorem Wf.makeDirty (w : p.Wf none) (hs : s ∈ p.entries) (hr : 0 < (p.hdr s).nRef) :
    (p.sqlite3PcacheMakeDirty s).Wf none
      ∧ Retains p (p.sqlite3PcacheMakeDirty s) fun _ => False := by
  have hu := w.busy_pinned hs (Or.inl hr)
  have hcl := (w.hdr s hs).clean
  have main : ∀ {p' : PCache} {f : PgFlags}, Rewrites p p' s { p.hdr s with flags := f } →
      p'.Wf none ∧ Retains p p' fun _ => False := fun r =>
    ⟨w.rewrites hs r (by simp) (by simp) (fun _ => by simp [hu, hr.ne']) (by simp),
      r.retains fun _ _ => Or.inl hr⟩
  unfold sqlite3PcacheMakeDirty
  simp only []
  split_ifs with h1 h2
  · -- a clean page goes on the dirty list
    have hd : (p.hdr s).flags.dirty = false := by
      rw [h2] at hcl
      simpa using hcl.symm
    refine main (f := ⟨!(p.hdr s).flags.clean, !(p.hdr s).flags.dirty, (p.hdr s).flags.writeable,
      (p.hdr s).flags.needSync, false⟩) ⟨rfl, ?_, rfl, rfl, rfl, ?_, rfl, ?_⟩
    · change update (update p.hdr s _) s _ = _
      rw [Function.update_idem]
      simp [setFlags, setHdr]
    · simp [h2, hd]
    · refine DirtyOk.congr (DirtyOk.add (S := fun t => t ∈ p.entries
        ∧ (p.hdr t).flags.dirty = true) w.dirty (by simp [hd])) fun t => ?_
      by_cases hts : t = s
      · subst hts
        simp [hs, hd]
      · simp [hts]
  · refine main (f := { (p.hdr s).flags with dontWrite := false }) ⟨rfl, rfl, rfl, rfl, rfl, hcl,
      rfl, w.dirty_same rfl⟩
  · exact ⟨w, .rfl⟩

/-- The page without its place on the dirty list. -/
def unlist (p : PCache) (s : Slot) : PCache :=
  if (p.hdr s).flags.dirty then p.pcacheManageDirtyList s .remove else p

theorem Wf.unlist_dirty (w : p.Wf none) (hs : s ∈ p.entries) :
    (p.unlist s).DirtyOk fun t => t ∈ p.entries.erase s ∧ (p.hdr t).flags.dirty = true := by
  unfold unlist
  split_ifs with hd
  · refine (w.dirty.remove ⟨hs, hd⟩).congr fun t => ?_
    rw [Finset.mem_erase]
    tauto
  · refine w.dirty.congr fun t => ?_
    rw [Finset.mem_erase]
    refine ⟨fun h => ⟨⟨?_, h.1⟩, h.2⟩, fun h => ⟨h.1.2, h.2⟩⟩
    rintro rfl
    exact hd h.2

theorem unlist_fields (p : PCache) (s : Slot) : (p.unlist s).pCache = p.pCache
    ∧ (p.unlist s).hdr = p.hdr ∧ (p.unlist s).pData = p.pData
    ∧ (p.unlist s).bPurgeable = p.bPurgeable ∧ (p.unlist s).nRefSum = p.nRefSum := by
  unfold unlist
  split_ifs <;> exact ⟨rfl, rfl, rfl, rfl, rfl⟩

theorem Wf.drop (w : p.Wf none) (hs : s ∈ p.entries) (hr : (p.hdr s).nRef = 1) :
    (p.sqlite3PcacheDrop s).Wf none ∧ Retains p (p.sqlite3PcacheDrop s) (fun t => t = s)
      ∧ (p.sqlite3PcacheDrop s).entries = p.entries.erase s
      ∧ (p.sqlite3PcacheDrop s).hdr = p.hdr
      ∧ (p.sqlite3PcacheDrop s).pCache.iKey = p.pCache.iKey := by
  have hu := w.busy_pinned hs (Or.inl (by omega))
  obtain ⟨f1, f2, f3, f4, f5⟩ := unlist_fields p s
  have u := w.lower.unpins s true
  have he := w.lower.entries_unpin s
  have hd := w.unlist_dirty hs
  have hc : (p.sqlite3PcacheDrop s).pCache = p.pCache.pcache1Unpin s true :=
    congrArg (PCache1.pcache1Unpin · s true) f1
  have hent : (p.sqlite3PcacheDrop s).entries = p.entries.erase s := by
    unfold entries
    rw [hc]
    exact he
  have hh : (p.sqlite3PcacheDrop s).hdr = p.hdr := f2
  have hp : (p.sqlite3PcacheDrop s).bPurgeable = p.bPurgeable := f4
  have hn : (p.sqlite3PcacheDrop s).nRefSum = p.nRefSum - 1 := congrArg (· - 1) f5
  refine ⟨⟨hc ▸ w.lower.unpin hs hu true, ?_, fun t ht => ?_, ?_, ?_, by simp⟩,
    fun t ht hb hts => ?_, hent, hh, hc ▸ u.iKey⟩
  · rw [hc, hp]
    exact u.bPurgeable.trans w.bPurgeable
  · rw [hent, Finset.mem_erase] at ht
    have o := w.hdr t ht.2
    refine ⟨?_, ?_, ?_, fun hx => ?_⟩
    · rw [hc]
      exact (congrFun u.extra t).trans o.extra
    · rw [hh, hc]
      exact o.pgno.trans (congrFun u.iKey t).symm
    · rw [hh]
      exact o.clean
    · rw [hh, hp, hc, u.onLru t ht.1]
      exact o.unpinned hx
  · rw [hent, hh, hn, w.nRefSum, ← Finset.add_sum_erase _ _ hs, hr]
    omega
  · refine DirtyOk.congr (p := p.sqlite3PcacheDrop s) hd fun t => ?_
    rw [hent, hh]
  · refine ⟨?_, ?_, ?_, congrFun f3 t⟩
    · rw [hent]
      exact Finset.mem_erase.mpr ⟨hts, ht⟩
    · unfold Busy
      rw [hh]
      exact hb
    · rw [hc]
      exact congrFun u.iKey t

end Refs

section Move

/-- The page whose number is taken is out of the cache. -/
theorem Wf.moveAway (w : p.Wf none) (hk : ∀ t ∈ p.entries, p.pCache.iKey t = k → (p.hdr t).nRef = 0) :
    (p.moveAway k).Wf none
      ∧ Retains p (p.moveAway k) (fun t => p.pCache.iKey t = k)
      ∧ (∀ t ∈ (p.moveAway k).entries, (p.moveAway k).pCache.iKey t ≠ k)
      ∧ ∀ t, p.pCache.iKey t ≠ k → (p.moveAway k).hdr t = p.hdr t := by
  have hf : PageAlloc.fail.Fresh p.pCache := ⟨by simp [PageAlloc.fail], by simp [PageAlloc.fail]⟩
  obtain ⟨h1, h2⟩ := w.lower.fetch hf k 0
  unfold PCache1.Fetches at h2
  unfold PCache.moveAway
  simp only []
  cases hr : (p.pCache.pcache1Fetch k 0 .fail).2 with
  | none =>
    rw [hr] at h2
    obtain ⟨h3, h4⟩ := w.trims h1 h2.2
    refine ⟨h3, h4.mono (by simp), fun t ht e => ?_, fun t _ => rfl⟩
    exact h2.1 t (h2.2.sub ht) ((h2.2.same t ht).iKey.symm.trans e)
  | some s =>
    rw [hr] at h2
    -- nothing is allocated, so the page was there
    have hp : Pins p.pCache (p.pCache.pcache1Fetch k 0 .fail).1 k s := by
      refine h2.resolve_right fun ha => ?_
      rw [PCache1.fetch_zero] at hr
      obtain ⟨hs, hks⟩ := w.lower.lookup_some hr
      exact ha.absent s hs hks
    obtain ⟨⟨x, hx, h3⟩, h4⟩ := w.pins h1 hp
    have hs : s ∈ (p.pCache.pcache1Fetch k 0 .fail).1.entries := by
      rw [hp.entries]
      exact hp.mem
    obtain ⟨h5, h6⟩ := h3.addRef hs hx hp.pinned
    have href : ((({ p with pCache := (p.pCache.pcache1Fetch k 0 .fail).1 } : PCache).addRef s).hdr
        s).nRef = 1 := by
      change (update p.hdr s _ s).nRef = 1
      rw [Function.update_self]
      change (p.hdr s).nRef + 1 = 1
      rw [hk s hp.mem hp.iKey]
    obtain ⟨h7, h8, h9, h10, h11⟩ := h5.drop hs href
    refine ⟨h7, ((h4.trans h6).trans h8).mono fun t _ _ ht => ?_, fun t ht e => ?_, fun t ht => ?_⟩
    · rcases ht with (ht | ht) | rfl
      · exact absurd ht id
      · exact absurd ht id
      · exact hp.iKey
    · rw [h9, Finset.mem_erase] at ht
      rw [h11] at e
      have hte : t ∈ p.entries := by
        have := ht.2
        change t ∈ (p.pCache.pcache1Fetch k 0 .fail).1.entries at this
        rwa [hp.entries] at this
      have e' : p.pCache.iKey t = k := (congrFun hp.keys t).symm.trans e
      exact ht.1 (w.lower.key t hte s hp.mem (e'.trans hp.iKey.symm))
    · rw [h10]
      change update p.hdr s _ t = _
      rw [Function.update_of_ne]
      rintro rfl
      exact ht hp.iKey

/-- The page under its new number. -/
def rekeyed (p : PCache) (s : Slot) (newPgno : ℕ) : PCache :=
  { p.setHdr s { p.hdr s with pgno := newPgno } with pCache := p.pCache.pcache1Rekey s newPgno }

theorem Wf.rekeyed (w : p.Wf none) (hs : s ∈ p.entries) (hb : 0 < (p.hdr s).nRef)
    (hk : ∀ t ∈ p.entries, p.pCache.iKey t ≠ k) :
    (p.rekeyed s k).Wf none ∧ Retains p (p.rekeyed s k) (fun t => t = s)
      ∧ s ∈ (p.rekeyed s k).entries ∧ (p.rekeyed s k).pCache.iKey s = k := by
  obtain ⟨h1, h2⟩ := w.lower.rekey hs hk
  have hent : (p.rekeyed s k).entries = p.entries := h2
  have hself : (p.rekeyed s k).hdr s = { p.hdr s with pgno := k } := Function.update_self _ _ _
  have hne : ∀ {t}, t ≠ s → (p.rekeyed s k).hdr t = p.hdr t := fun ht =>
    Function.update_of_ne ht _ _
  have hkey : ∀ {t}, t ≠ s → (p.rekeyed s k).pCache.iKey t = p.pCache.iKey t := fun ht =>
    Function.update_of_ne ht _ _
  have hall : ∀ t, ((p.rekeyed s k).hdr t).nRef = (p.hdr t).nRef
      ∧ ((p.rekeyed s k).hdr t).flags = (p.hdr t).flags := fun t => by
    by_cases hts : t = s
    · subst hts
      rw [hself]
      exact ⟨rfl, rfl⟩
    · rw [hne hts]
      exact ⟨rfl, rfl⟩
  refine ⟨⟨h1, w.bPurgeable, fun t ht => ?_, ?_, ?_, by simp⟩, fun t ht hbt hts => ?_, ?_, ?_⟩
  · rw [hent] at ht
    have o := w.hdr t ht
    refine ⟨o.extra, ?_, ?_, fun hx => ?_⟩
    · by_cases hts : t = s
      · subst hts
        rw [hself]
        exact (Function.update_self t k p.pCache.iKey).symm
      · rw [hne hts]
        exact o.pgno.trans (hkey hts).symm
    · rw [(hall t).2]
      exact o.clean
    · rw [(hall t).1, (hall t).2]
      exact o.unpinned hx
  · rw [hent]
    exact w.nRefSum.trans (Finset.sum_congr rfl fun t _ => (hall t).1.symm)
  · refine DirtyOk.congr (p := p.rekeyed s k) w.dirty fun t => ?_
    rw [hent, (hall t).2]
  · refine ⟨hent.symm ▸ ht, ?_, hkey hts, rfl⟩
    unfold Busy
    rw [(hall t).1, (hall t).2]
    exact hbt
  · rw [hent]
    exact hs
  · exact Function.update_self s k p.pCache.iKey

theorem Wf.front (w : p.Wf none) (hs : s ∈ p.entries) (hd : (p.hdr s).flags.dirty = true) :
    (p.pcacheManageDirtyList s .front).Wf none
      ∧ Retains p (p.pcacheManageDirtyList s .front) fun _ => False :=
  ⟨⟨w.lower, w.bPurgeable, fun t ht => ⟨(w.hdr t ht).extra, (w.hdr t ht).pgno, (w.hdr t ht).clean,
    (w.hdr t ht).unpinned⟩, w.nRefSum, w.dirty.front ⟨hs, hd⟩, by simp⟩,
    fun _ ht hb _ => ⟨ht, hb, rfl, rfl⟩⟩

theorem Wf.move (w : p.Wf none) (hs : s ∈ p.entries) (hb : 0 < (p.hdr s).nRef)
    (hks : p.pCache.iKey s ≠ k)
    (hk : ∀ t ∈ p.entries, p.pCache.iKey t = k → (p.hdr t).nRef = 0) :
    (p.sqlite3PcacheMove s k).Wf none
      ∧ Retains p (p.sqlite3PcacheMove s k) (fun t => t = s ∨ p.pCache.iKey t = k)
      ∧ s ∈ (p.sqlite3PcacheMove s k).entries
      ∧ (p.sqlite3PcacheMove s k).pCache.iKey s = k
      ∧ (p.sqlite3PcacheMove s k).pData s = p.pData s := by
  obtain ⟨h1, h2, h3, h4⟩ := w.moveAway hk
  have hs' := h2 s hs (Or.inl hb) hks
  obtain ⟨h5, h6, h7, h8⟩ := h1.rekeyed hs'.mem (by rw [h4 s hks]; exact hb) h3
  have hret := (h2.trans h6).mono (Y := fun t => t = s ∨ p.pCache.iKey t = k)
    fun t _ _ ht => ht.symm
  have e : p.sqlite3PcacheMove s k =
      if (((p.moveAway k).rekeyed s k).hdr s).flags.dirty = true
          ∧ (((p.moveAway k).rekeyed s k).hdr s).flags.needSync = true then
        ((p.moveAway k).rekeyed s k).pcacheManageDirtyList s .front
      else (p.moveAway k).rekeyed s k := rfl
  rw [e]
  split_ifs with hd
  · obtain ⟨h9, h10⟩ := h5.front h7 hd.1
    exact ⟨h9, (hret.trans h10).mono (by simp), h7, h8, hs'.pData⟩
  · exact ⟨h5, hret, h7, h8, hs'.pData⟩

end Move

section Truncate

/-- The loop visits the whole list, although it takes pages off it. -/
theorem Wf.truncateDirty (k : ℕ) : ∀ (b : List Slot) {a : List Slot} {fuel : ℕ} {p : PCache},
    p.Wf none → p.dirty.Holds (a ++ b) → b.length ≤ fuel →
    (∀ t ∈ a, p.pCache.iKey t ≤ k) →
      (PCache.truncateDirty k fuel b.head? p).Wf none
        ∧ Retains p (PCache.truncateDirty k fuel b.head? p) (fun t => k < p.pCache.iKey t
          ∧ (p.hdr t).nRef = 0)
        ∧ (∀ t ∈ (PCache.truncateDirty k fuel b.head? p).entries, t ∈ p.entries
          ∧ (((PCache.truncateDirty k fuel b.head? p).hdr t).flags.dirty = true
            → p.pCache.iKey t ≤ k))
        ∧ (∀ t, ((PCache.truncateDirty k fuel b.head? p).hdr t).nRef = (p.hdr t).nRef)
        ∧ (PCache.truncateDirty k fuel b.head? p).nRefSum = p.nRefSum
        ∧ (PCache.truncateDirty k fuel b.head? p).pCache.iKey = p.pCache.iKey
        ∧ (PCache.truncateDirty k fuel b.head? p).pData = p.pData
  | [], a, fuel, p, w, hl, _, ha => by
    have e : PCache.truncateDirty k fuel ([] : List Slot).head? p = p := by
      cases fuel <;> rfl
    rw [e]
    refine ⟨w, .rfl, fun t ht => ⟨ht, fun hd => ha t ?_⟩, fun _ => rfl, rfl, rfl, rfl⟩
    obtain ⟨-, l, hl', hm, -⟩ := w.dirty
    rw [← List.append_nil a, hl.unique hl', hm]
    exact ⟨ht, hd⟩
  | s :: b, a, 0, p, w, hl, hf, ha => by simp at hf
  | s :: b, a, fuel + 1, p, w, hl, hf, ha => by
    have hnext : p.dirty.next s = b.head? := hl.next_eq
    rw [List.head?_cons, PCache.truncateDirty, hnext]
    obtain ⟨hs, hd⟩ : s ∈ p.entries ∧ (p.hdr s).flags.dirty = true := by
      obtain ⟨-, l, hl', hm, -⟩ := w.dirty
      obtain rfl := hl.unique hl'
      exact (hm s).mp (by simp)
    rw [(w.hdr s hs).pgno]
    split_ifs with hk
    · obtain ⟨h1, h2⟩ := w.makeClean hs hd
      obtain ⟨h3, h4⟩ := w.makeClean_sub s
      have hl' : (p.sqlite3PcacheMakeClean s).dirty.Holds (a ++ b) := by
        rw [makeClean_dirty]
        exact hl.remove
      obtain ⟨g1, g2, g3, g4, g5, g6, g7⟩ := Wf.truncateDirty k b h1 hl' (by simpa using hf)
        (by rw [h4]; exact ha)
      rw [h4] at g2 g3 g6
      rw [makeClean_nRefSum] at g5
      rw [makeClean_pData] at g7
      refine ⟨g1, (h2.trans g2).mono fun t _ _ ht => ?_,
        fun t ht => ⟨h3 (g3 t ht).1, (g3 t ht).2⟩, fun t => (g4 t).trans (makeClean_nRef p s t), g5,
        g6, g7⟩
      rcases ht with ⟨rfl, ht⟩ | ⟨ht, hr⟩
      · exact ⟨hk, ht⟩
      · rw [makeClean_nRef] at hr
        exact ⟨ht, hr⟩
    · have hl' : p.dirty.Holds ((a ++ [s]) ++ b) := by simpa using hl
      exact Wf.truncateDirty k b w hl' (by simpa using hf) (by
        intro t ht
        rcases List.mem_append.mp ht with ht | ht
        · exact ha t ht
        · rw [List.mem_singleton.mp ht]
          omega)

/-- Pages that nobody uses go from the cache below. -/
theorem Wf.dropPages (w : p.Wf none) {P : Slot → Prop} (hc : c.Wf ∅) (d : Drops p.pCache c P)
    (hP : ∀ t ∈ p.entries, P t → ¬ p.Busy t) :
    ({ p with pCache := c } : PCache).Wf none
      ∧ Retains p { p with pCache := c } fun _ => False := by
  have hkept : ∀ t ∈ p.entries, p.Busy t → t ∈ c.entries := fun t ht hb =>
    (d.mem t).mpr ⟨ht, fun hp => hP t ht hp hb⟩
  have hsub : ∀ t ∈ c.entries, t ∈ p.entries := fun t ht => ((d.mem t).mp ht).1
  refine ⟨⟨hc, d.bPurgeable.trans w.bPurgeable, fun t ht => ?_, ?_, ?_, by simp⟩,
    fun t ht hb _ => ⟨hkept t ht hb, hb, congrFun d.iKey t, rfl⟩⟩
  · have o := w.hdr t (hsub t ht)
    have e := d.same t ht
    exact ⟨e.extra.trans o.extra, o.pgno.trans e.iKey.symm, o.clean,
      fun hx => (iff_of_eq (congrArg (· = true) e.onLru)).trans (o.unpinned hx)⟩
  · refine w.nRefSum.trans (Finset.sum_subset hsub fun t ht hn => ?_).symm
    by_contra hr
    exact hn (hkept t ht (Or.inl (Nat.pos_of_ne_zero hr)))
  · refine w.dirty.congr fun t => and_congr_left fun hd => ?_
    exact ⟨fun ht => hkept t ht (Or.inr hd), hsub t⟩

/-- The pages that are referred to stay, or page 1 is the only one. -/
def TruncateOk (p : PCache) (k : ℕ) : Prop :=
  k + 1 < 2 ^ 32 ∧ ∀ t ∈ p.entries, 0 < (p.hdr t).nRef →
    if k = 0 then p.pCache.iKey t = 1 else p.pCache.iKey t ≤ k

/-- What a truncate gives up. -/
def Behind (p : PCache) (k : ℕ) (t : Slot) : Prop := k < p.pCache.iKey t ∧ (p.hdr t).nRef = 0

theorem Wf.setData (w : p.Wf x) (f : Slot → List UInt8) : ({ p with pData := f } : PCache).Wf x :=
  ⟨w.lower, w.bPurgeable, fun t ht => ⟨(w.hdr t ht).extra, (w.hdr t ht).pgno, (w.hdr t ht).clean,
    (w.hdr t ht).unpinned⟩, w.nRefSum, w.dirty, w.held⟩

theorem makeClean_szPage (p : PCache) (s : Slot) :
    (p.sqlite3PcacheMakeClean s).szPage = p.szPage := by
  have h : ∀ q : PCache, (q.pcacheUnpin s).szPage = q.szPage := fun q => by
    unfold pcacheUnpin
    split_ifs <;> rfl
  rw [makeClean_eq]
  split_ifs
  · rw [h]
    rfl
  · rfl

theorem truncateDirty_szPage (k : ℕ) : ∀ (fuel : ℕ) (o : Option Slot) (p : PCache),
    (PCache.truncateDirty k fuel o p).szPage = p.szPage
  | 0, o, p => by cases o <;> rfl
  | fuel + 1, none, p => rfl
  | fuel + 1, some s, p => by
    rw [PCache.truncateDirty, truncateDirty_szPage k fuel]
    split_ifs
    · exact makeClean_szPage p s
    · rfl

/-- What the loop over the dirty list leaves behind. -/
structure Cut (p q : PCache) (k : ℕ) : Prop where
  wf : q.Wf none
  retains : Retains p q (p.Behind k)
  clean : ∀ t ∈ q.entries, t ∈ p.entries ∧ ((q.hdr t).flags.dirty = true → p.pCache.iKey t ≤ k)
  nRef : ∀ t, (q.hdr t).nRef = (p.hdr t).nRef
  nRefSum : q.nRefSum = p.nRefSum
  iKey : q.pCache.iKey = p.pCache.iKey
  pData : q.pData = p.pData
  szPage : q.szPage = p.szPage

theorem Wf.cut (w : p.Wf none) (k : ℕ) :
    Cut p (PCache.truncateDirty k p.pCache.nPage p.dirty.first p) k := by
  obtain ⟨-, l, hl, hm, -⟩ := w.dirty
  rw [hl.first]
  obtain ⟨h1, h2, h3, h4, h5, h6, h7⟩ := Wf.truncateDirty k l (a := []) w hl (w.mem_of_dirty hl hm)
    (by simp)
  exact ⟨h1, h2, h3, h4, h5, h6, h7, truncateDirty_szPage k _ _ p⟩

/-- Page 1 is found, and nothing else happens to it below. -/
theorem Wf.fetch_pinned (w : p.Wf none) (hs : s ∈ p.entries) (hr : 0 < (p.hdr s).nRef) :
    p.pCache.pcache1Fetch (p.pCache.iKey s) 0 .fail = (p.pCache, some s) := by
  unfold PCache1.pcache1Fetch
  rw [w.lower.lookup_eq hs]
  simp [w.busy_pinned hs (Or.inl hr)]

/-- The pages behind the end are nobody's, so they can go. -/
theorem Cut.finish {q : PCache} (h : Cut p q k) {j : ℕ} (hj : j + 1 < 2 ^ 32) (hkj : k ≤ j)
    (hr : ∀ t ∈ p.entries, 0 < (p.hdr t).nRef → p.pCache.iKey t ≤ j) (f : Slot → List UInt8) :
    ({ q with pCache := q.pCache.pcache1Truncate ((j + 1) % 2 ^ 32), pData := f } : PCache).Wf none
      ∧ ∀ t ∈ p.entries, p.Busy t → ¬ p.Behind k t →
        t ∈ (q.pCache.pcache1Truncate ((j + 1) % 2 ^ 32)).entries
          ∧ (q.pCache.pcache1Truncate ((j + 1) % 2 ^ 32)).iKey t = p.pCache.iKey t := by
  rw [Nat.mod_eq_of_lt hj]
  obtain ⟨h1, h2⟩ := h.wf.lower.truncate (Nat.succ_pos j) hj
  obtain ⟨h3, h4⟩ := h.wf.dropPages h1 h2 fun t ht hkt hb => by
    obtain ⟨hte, hd⟩ := h.clean t ht
    rw [h.iKey] at hkt
    rcases hb with hb | hb
    · rw [h.nRef] at hb
      have := hr t hte hb
      omega
    · have := hd hb
      omega
  refine ⟨h3.setData f, fun t ht hb hx => ?_⟩
  have g := h.retains t ht hb hx
  have g' := h4 t g.mem g.busy id
  exact ⟨g'.mem, g'.iKey.trans g.iKey⟩

theorem Wf.truncate (w : p.Wf none) (hk : p.TruncateOk k) :
    (p.sqlite3PcacheTruncate k).Wf none
      ∧ (∀ t ∈ p.entries, p.Busy t → ¬ p.Behind k t →
        t ∈ (p.sqlite3PcacheTruncate k).entries
          ∧ (p.sqlite3PcacheTruncate k).pCache.iKey t = p.pCache.iKey t
          ∧ (p.sqlite3PcacheTruncate k).pData t =
            if k = 0 ∧ p.pCache.iKey t = 1 then List.replicate p.szPage 0 else p.pData t) := by
  have h := w.cut k
  unfold sqlite3PcacheTruncate
  simp only []
  generalize PCache.truncateDirty k p.pCache.nPage p.dirty.first p = q at h ⊢
  obtain ⟨hk32, hk⟩ := hk
  unfold keepPage1
  split_ifs with hall
  · -- everything goes, but page 1 is in use
    obtain ⟨rfl, hsum⟩ := hall
    obtain ⟨s, hs, hrs⟩ : ∃ s ∈ q.entries, 0 < (q.hdr s).nRef := by
      by_contra hc
      push Not at hc
      refine hsum (h.wf.nRefSum.trans (Finset.sum_eq_zero fun t ht => ?_))
      exact Nat.le_zero.mp (hc t ht)
    have hsp := (h.clean s hs).1
    have hs1 : p.pCache.iKey s = 1 := by
      have := hk s hsp (h.nRef s ▸ hrs)
      simpa using this
    have hfetch := h.wf.fetch_pinned hs hrs
    rw [h.iKey, hs1] at hfetch
    simp only [hfetch]
    obtain ⟨h1, h2⟩ := h.finish (j := 1) (by decide) (by omega) (fun t ht hr => by
      have := hk t ht hr
      simp only [↓reduceIte] at this
      exact this.le) (update q.pData s (List.replicate q.szPage 0))
    refine ⟨h1, fun t ht hb hx => ⟨(h2 t ht hb hx).1, (h2 t ht hb hx).2, ?_⟩⟩
    change update q.pData s (List.replicate q.szPage 0) t = _
    rw [Function.update_apply, h.szPage, h.pData]
    by_cases hts : t = s
    · rw [if_pos hts, if_pos ⟨trivial, hts ▸ hs1⟩]
    · rw [if_neg hts, if_neg fun hc => hts (w.lower.key t ht s hsp (hc.2.trans hs1.symm))]
  · obtain ⟨h1, h2⟩ := h.finish hk32 le_rfl (fun t ht hr => by
      have := hk t ht hr
      split_ifs at this with h0
      · -- with `k = 0` a reference would show in the sum
        exfalso
        have hs := w.nRef_le ht
        rw [h.nRefSum] at hall
        exact hall ⟨h0, by omega⟩
      · exact this) q.pData
    refine ⟨h1, fun t ht hb hx => ⟨(h2 t ht hb hx).1, (h2 t ht hb hx).2, ?_⟩⟩
    rw [if_neg]
    · exact congrFun h.pData t
    · rintro ⟨rfl, h1t⟩
      have hr : (p.hdr t).nRef ≠ 0 := fun hc => hx ⟨by omega, hc⟩
      have hs := w.nRef_le ht
      rw [h.nRefSum] at hall
      exact hall ⟨rfl, by omega⟩

end Truncate

end PCache

end Btreelite
