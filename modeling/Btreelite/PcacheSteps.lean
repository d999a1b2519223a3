import Btreelite.Pcache
import Btreelite.Pcache1Calls

/-!
# The invariant of the page cache

`PCache.Wf` ties the two layers together: the recyclable pages below are the clean pages without
references above, the dirty list holds the dirty pages and the counters are what they count. A page
is exempt while it is about to be unpinned. Every call keeps the invariant, and `Retains` says
which pages in use a call may give up.
-/

namespace Btreelite

namespace PCache

open Function (update)
open PCache1 (Pins Adds Trims Unpins Drops SameEntry)

abbrev entries (p : PCache) : Finset Slot := p.pCache.entries

/-- The dirty list holds the pages of `S`, `pSynced` is one of them or null, and `eCreate` tells
whether there are any. -/
def DirtyOk (p : PCache) (S : Slot → Prop) : Prop :=
  (p.eCreate = if p.bPurgeable = true ∧ p.dirty.first ≠ none then 1 else 2)
    ∧ ∃ l, p.dirty.Holds l ∧ (∀ s, s ∈ l ↔ S s) ∧ ∀ s, p.pSynced = some s → s ∈ l

/-- The header of an entry, where `x` is about to be unpinned. -/
structure HdrOk (p : PCache) (x : Option Slot) (s : Slot) : Prop where
  extra : p.pCache.extra s = true
  pgno : (p.hdr s).pgno = p.pCache.iKey s
  clean : (p.hdr s).flags.clean = !(p.hdr s).flags.dirty
  unpinned : x ≠ some s → (p.pCache.onLru s = true ↔
    p.bPurgeable = true ∧ (p.hdr s).nRef = 0 ∧ (p.hdr s).flags.dirty = false)

structure Wf (p : PCache) (x : Option Slot) : Prop where
  lower : p.pCache.Wf ∅
  bPurgeable : p.pCache.bPurgeable = p.bPurgeable
  hdr : ∀ s ∈ p.entries, p.HdrOk x s
  nRefSum : p.nRefSum = ∑ s ∈ p.entries, (p.hdr s).nRef
  dirty : p.DirtyOk fun s => s ∈ p.entries ∧ (p.hdr s).flags.dirty = true
  held : ∀ s, x = some s → s ∈ p.entries ∧ p.pCache.onLru s = false ∧ (p.hdr s).nRef = 0
    ∧ (p.hdr s).flags.dirty = false

/-- Someone refers to the page, or it has content that is in no file. -/
def Busy (p : PCache) (s : Slot) : Prop := 0 < (p.hdr s).nRef ∨ (p.hdr s).flags.dirty = true

/-- A page that was in use is, under the same key and with the same content. -/
structure Kept (p p' : PCache) (s : Slot) : Prop where
  mem : s ∈ p'.entries
  busy : p'.Busy s
  iKey : p'.pCache.iKey s = p.pCache.iKey s
  pData : p'.pData s = p.pData s

/-- Only the pages of `X` are given up. -/
def Retains (p p' : PCache) (X : Slot → Prop) : Prop :=
  ∀ s ∈ p.entries, p.Busy s → ¬ X s → Kept p p' s

section Retains

variable {p p' p'' : PCache} {X Y : Slot → Prop}

theorem Kept.rfl {s : Slot} (hs : s ∈ p.entries) (hb : p.Busy s) : Kept p p s := ⟨hs, hb, .refl _, .refl _⟩

theorem Retains.trans (h : Retains p p' X) (h' : Retains p' p'' Y) :
    Retains p p'' fun s => X s ∨ Y s := by
  intro s hs hb hx
  have h1 := h s hs hb fun hc => hx (Or.inl hc)
  have h2 := h' s h1.mem h1.busy fun hc => hx (Or.inr hc)
  exact ⟨h2.mem, h2.busy, h2.iKey.trans h1.iKey, h2.pData.trans h1.pData⟩

theorem Retains.mono (h : Retains p p' X) (hXY : ∀ s ∈ p.entries, p.Busy s → X s → Y s) :
    Retains p p' Y :=
  fun s hs hb hy => h s hs hb fun hx => hy (hXY s hs hb hx)

theorem Retains.rfl : Retains p p X := fun _ hs hb _ => .rfl hs hb

end Retains

section DirtyList

variable {p : PCache} {S T : Slot → Prop} {s : Slot}

theorem DirtyOk.congr (h : p.DirtyOk S) (e : ∀ s, S s ↔ T s) : p.DirtyOk T := by
  obtain ⟨he, l, hl, hm, hs⟩ := h
  exact ⟨he, l, hl, fun s => (hm s).trans (e s), hs⟩

theorem DirtyOk.remove (h : p.DirtyOk S) (hs : S s) :
    (p.dirtyRemove s).DirtyOk fun t => S t ∧ t ≠ s := by
  obtain ⟨he, l, hl, hm, hsync⟩ := h
  have hsl : s ∈ l := (hm s).mpr hs
  have hl' := hl.remove_erase hsl
  refine ⟨?_, l.erase s, hl', fun t => ?_, fun t ht => ?_⟩
  · -- the list is empty exactly when its only page is taken off
    change (if p.dirty.prev s = none ∧ (p.dirty.remove s).first = none then 2 else p.eCreate)
      = if p.bPurgeable = true ∧ (p.dirty.remove s).first ≠ none then 1 else 2
    have hf : p.dirty.first ≠ none := fun hc => by
      rw [hl.first_eq_none_iff.mp hc] at hsl
      exact List.not_mem_nil hsl
    have hp : (p.dirty.remove s).first = none → p.dirty.prev s = none := fun hc => by
      rw [hl'.first_eq_none_iff] at hc
      by_contra hne
      obtain ⟨y, hy⟩ := Option.ne_none_iff_exists'.mp hne
      obtain ⟨a, b, rfl⟩ := List.append_of_mem hsl
      rw [hl.prev_eq] at hy
      have hya := List.mem_of_getLast? hy
      have hys : y ≠ s := (List.nodup_append.mp hl.nodup).2.2 y hya s (by simp)
      have : y ∈ (a ++ s :: b).erase s :=
        (List.mem_erase_of_ne hys).mpr (List.mem_append_left _ hya)
      rw [hc] at this
      exact List.not_mem_nil this
    by_cases hc : (p.dirty.remove s).first = none
    · simp [hc, hp hc]
    · simp [hc, he, hf]
  · rw [hl.nodup.mem_erase_iff, hm, and_comm]
  · rw [hl.nodup.mem_erase_iff]
    change (if p.pSynced = some s then p.dirty.prev s else p.pSynced) = some t at ht
    split_ifs at ht with hc
    · refine ⟨?_, hl.mem_of_prev hsl ht⟩
      rintro rfl
      obtain ⟨a, b, rfl⟩ := List.append_of_mem hsl
      rw [hl.prev_eq] at ht
      exact (List.nodup_append.mp hl.nodup).2.2 t (List.mem_of_getLast? ht) t (by simp) rfl
    · refine ⟨?_, hsync t ht⟩
      rintro rfl
      exact hc ht

theorem DirtyOk.add (h : p.DirtyOk S) (hs : ¬ S s) :
    (p.dirtyAdd s).DirtyOk fun t => t = s ∨ S t := by
  obtain ⟨he, l, hl, hm, hsync⟩ := h
  have hsl : s ∉ l := fun hc => hs ((hm s).mp hc)
  refine ⟨?_, s :: l, hl.pushFront hsl, fun t => ?_, fun t ht => ?_⟩
  · change (if p.dirty.first = none ∧ p.bPurgeable = true then 1 else p.eCreate)
      = if p.bPurgeable = true ∧ (p.dirty.pushFront s).first ≠ none then 1 else 2
    rw [Links.pushFront_first, he]
    cases p.bPurgeable <;> by_cases hc : p.dirty.first = none <;> simp [hc]
  · rw [List.mem_cons, hm]
  · change (if p.pSynced = none ∧ _ then some s else p.pSynced) = some t at ht
    split_ifs at ht
    · simp only [Option.some.injEq] at ht
      exact ht ▸ List.mem_cons_self
    · exact List.mem_cons_of_mem _ (hsync t ht)

theorem DirtyOk.front (h : p.DirtyOk S) (hs : S s) : ((p.dirtyRemove s).dirtyAdd s).DirtyOk S := by
  refine ((h.remove hs).add fun hc => hc.2 rfl).congr fun t => ?_
  by_cases ht : t = s
  · simp [ht, hs]
  · simp [ht]

end DirtyList

section Pages

variable {p : PCache} {x : Option Slot} {s : Slot} {k : ℕ} {c : PCache1}

theorem sum_setHdr {E : Finset Slot} (hdr : Slot → PgHdr) (hs : s ∈ E) (h : PgHdr) :
    ∑ t ∈ E, (update hdr s h t).nRef + (hdr s).nRef = ∑ t ∈ E, (hdr t).nRef + h.nRef := by
  rw [← Finset.add_sum_erase E _ hs, ← Finset.add_sum_erase E (fun t => (hdr t).nRef) hs,
    Function.update_self]
  have he : ∑ t ∈ E.erase s, (update hdr s h t).nRef = ∑ t ∈ E.erase s, (hdr t).nRef :=
    Finset.sum_congr rfl fun t ht => by rw [Function.update_of_ne (Finset.ne_of_mem_erase ht)]
  omega

theorem Wf.busy_pinned (w : p.Wf x) (hs : s ∈ p.entries) (hb : p.Busy s) :
    p.pCache.onLru s = false := by
  by_cases hx : x = some s
  · exact (w.held s hx).2.1
  · rw [← Bool.not_eq_true, (w.hdr s hs).unpinned hx]
    rintro ⟨-, h1, h2⟩
    rcases hb with hb | hb
    · omega
    · rw [h2] at hb
      exact absurd hb (by decide)

/-- A page that nobody uses any more is given to the cache below. -/
theorem Wf.unpin (w : p.Wf (some s)) :
    (p.pcacheUnpin s).Wf none ∧ Retains p (p.pcacheUnpin s) fun _ => False := by
  obtain ⟨hs, hu, hr, hd⟩ := w.held s rfl
  unfold pcacheUnpin
  split_ifs with hp
  · have u := w.lower.unpins s false
    have hne : ∀ t, t ≠ s → some s ≠ some t := fun t ht hc => ht (Option.some.inj hc).symm
    refine ⟨⟨w.lower.unpin hs hu false, u.bPurgeable.trans w.bPurgeable, fun t ht => ?_, ?_, ?_,
      by simp⟩, fun t ht hb _ => ?_⟩
    · have h := w.hdr t (u.sub ht)
      refine ⟨(congrFun u.extra t).trans h.extra, h.pgno.trans (congrFun u.iKey t).symm, h.clean,
        fun _ => ?_⟩
      by_cases hts : t = s
      · subst hts
        exact ⟨fun _ => ⟨hp, hr, hd⟩, fun _ => u.unpinned ht⟩
      · exact (iff_of_eq (congrArg (· = true) (u.onLru t hts))).trans (h.unpinned (hne t hts))
    · refine w.nRefSum.trans (Finset.sum_subset u.sub fun t ht hn => ?_).symm
      by_cases hts : t = s
      · exact hts ▸ hr
      · exact absurd ((u.mem t hts).mpr ht) hn
    · refine w.dirty.congr fun t => and_congr_left fun hdt => ?_
      refine (u.mem t ?_).symm
      rintro rfl
      rw [hd] at hdt
      exact absurd hdt (by decide)
    · have hts : t ≠ s := by
        rintro rfl
        rcases hb with hb | hb
        · omega
        · rw [hd] at hb
          exact absurd hb (by decide)
      exact ⟨(u.mem t hts).mpr ht, hb, congrFun u.iKey t, rfl⟩
  · refine ⟨⟨w.lower, w.bPurgeable, fun t ht => ?_, w.nRefSum, w.dirty, by simp⟩, .rfl⟩
    have h := w.hdr t ht
    refine ⟨h.extra, h.pgno, h.clean, fun _ => ?_⟩
    by_cases hts : t = s
    · subst hts
      simp [hu, hp]
    · exact h.unpinned fun hc => hts (Option.some.inj hc).symm

/-- Pages of the recyclable list may go at any time. -/
theorem Wf.trims (w : p.Wf none) (hc : c.Wf ∅) (ht : Trims p.pCache c) :
    ({ p with pCache := c } : PCache).Wf none
      ∧ Retains p { p with pCache := c } fun _ => False := by
  have hkept : ∀ s ∈ p.entries, p.Busy s → s ∈ c.entries := fun s hs hb =>
    ht.kept s hs (w.busy_pinned hs hb)
  refine ⟨⟨hc, ht.bPurgeable.trans w.bPurgeable, fun s hs => ?_, ?_, ?_, by simp⟩,
    fun s hs hb _ => ?_⟩
  · have h := w.hdr s (ht.sub hs)
    have e := ht.same s hs
    exact ⟨e.extra.trans h.extra, h.pgno.trans e.iKey.symm, h.clean,
      fun hx => (iff_of_eq (congrArg (· = true) e.onLru)).trans (h.unpinned hx)⟩
  · refine w.nRefSum.trans (Finset.sum_subset ht.sub fun s hs hn => ?_).symm
    by_contra hr
    exact hn (hkept s hs (Or.inl (Nat.pos_of_ne_zero hr)))
  · refine w.dirty.congr fun s => and_congr_left fun hd => ?_
    exact ⟨fun hs => hkept s hs (Or.inr hd), fun hs => ht.sub hs⟩
  · have hs' := hkept s hs hb
    exact ⟨hs', hb, (ht.same s hs').iKey, rfl⟩

/-- A page that is pinned is exempt, where it had no user. -/
theorem Wf.pins (w : p.Wf none) (hc : c.Wf ∅) (h : Pins p.pCache c k s) :
    (∃ x, (∀ t, x = some t → t = s) ∧ ({ p with pCache := c } : PCache).Wf x)
      ∧ Retains p { p with pCache := c } fun _ => False := by
  have hmem : ∀ t, t ∈ c.entries ↔ t ∈ p.pCache.entries := fun t => by rw [h.entries]
  have hbase : ∀ x, (∀ t, x = some t → t = s) → (x = none → p.Busy s) →
      (∀ t, x = some t → (p.hdr t).nRef = 0 ∧ (p.hdr t).flags.dirty = false) →
      ({ p with pCache := c } : PCache).Wf x := by
    intro x hx hb hheld
    refine ⟨hc, h.bPurgeable.trans w.bPurgeable, fun t ht => ?_, ?_, ?_, fun t ht => ?_⟩
    · have o := w.hdr t ((hmem t).mp ht)
      refine ⟨(congrFun h.extra t).trans o.extra, o.pgno.trans (congrFun h.keys t).symm, o.clean,
        fun hxt => ?_⟩
      refine Iff.trans ?_ (o.unpinned (by simp))
      by_cases hts : t = s
      · subst hts
        have hxn : x = none := by
          cases x with
          | none => rfl
          | some u => exact absurd (congrArg some (hx u rfl)) hxt
        change c.onLru t = true ↔ p.pCache.onLru t = true
        rw [h.pinned, w.busy_pinned h.mem (hb hxn)]
      · exact iff_of_eq (congrArg (· = true) (h.onLru t hts))
    · change p.nRefSum = ∑ t ∈ c.entries, (p.hdr t).nRef
      rw [h.entries]
      exact w.nRefSum
    · refine w.dirty.congr fun t => and_congr_left fun _ => ?_
      exact (hmem t).symm
    · have hts := hx t ht
      subst hts
      exact ⟨(hmem t).mpr h.mem, h.pinned, hheld t ht⟩
  refine ⟨?_, fun t ht hb _ => ⟨(hmem t).mpr ht, hb, congrFun h.keys t, rfl⟩⟩
  by_cases hb : p.Busy s
  · exact ⟨none, by simp, hbase none (by simp) (fun _ => hb) (by simp)⟩
  · have hn : (p.hdr s).nRef = 0 ∧ (p.hdr s).flags.dirty = false := by
      unfold Busy at hb
      rw [not_or, Bool.not_eq_true] at hb
      exact ⟨by omega, hb.2⟩
    refine ⟨some s, fun t ht => (Option.some.inj ht).symm, hbase (some s) ?_ (by simp) ?_⟩
    · exact fun t ht => (Option.some.inj ht).symm
    · rintro t ⟨⟩
      exact hn

/-- A call that changes the header of one page and nothing below. -/
structure Rewrites (p p' : PCache) (s : Slot) (h : PgHdr) : Prop where
  pCache : p'.pCache = p.pCache
  hdr : p'.hdr = update p.hdr s h
  pData : p'.pData = p.pData
  bPurgeable : p'.bPurgeable = p.bPurgeable
  pgno : h.pgno = (p.hdr s).pgno
  clean : h.flags.clean = !h.flags.dirty
  nRefSum : p'.nRefSum + (p.hdr s).nRef = p.nRefSum + h.nRef
  dirty : p'.DirtyOk fun t => t ∈ p.entries
    ∧ (if t = s then h.flags.dirty else (p.hdr t).flags.dirty) = true

theorem Wf.rewrites {p' : PCache} {h : PgHdr} {x' : Option Slot} (w : p.Wf x) (hs : s ∈ p.entries)
    (r : Rewrites p p' s h) (hx : ∀ t, x = some t → t = s) (hx' : ∀ t, x' = some t → t = s)
    (hun : x' = none → (p.pCache.onLru s = true ↔
      p.bPurgeable = true ∧ h.nRef = 0 ∧ h.flags.dirty = false))
    (hheld : x' = some s → p.pCache.onLru s = false ∧ h.nRef = 0 ∧ h.flags.dirty = false) :
    p'.Wf x' := by
  have hent : p'.entries = p.entries := by
    unfold entries
    rw [r.pCache]
  have hself : p'.hdr s = h := by rw [r.hdr, Function.update_self]
  have hne : ∀ {t}, t ≠ s → p'.hdr t = p.hdr t := fun ht => by
    rw [r.hdr, Function.update_of_ne ht]
  refine ⟨r.pCache ▸ w.lower, ?_, fun t ht => ?_, ?_, ?_, fun t ht => ?_⟩
  · rw [r.pCache, r.bPurgeable]
    exact w.bPurgeable
  · rw [hent] at ht
    have o := w.hdr t ht
    by_cases hts : t = s
    · subst hts
      refine ⟨r.pCache ▸ o.extra, ?_, ?_, fun hxt => ?_⟩
      · rw [hself, r.pCache, r.pgno]
        exact o.pgno
      · rw [hself]
        exact r.clean
      · rw [hself, r.pCache, r.bPurgeable]
        refine hun ?_
        cases x' with
        | none => rfl
        | some u => exact absurd (congrArg some (hx' u rfl)) hxt
    · refine ⟨r.pCache ▸ o.extra, ?_, ?_, fun _ => ?_⟩
      · rw [hne hts, r.pCache]
        exact o.pgno
      · rw [hne hts]
        exact o.clean
      · rw [hne hts, r.pCache, r.bPurgeable]
        exact o.unpinned fun hc => hts (hx t hc)
  · have hsum := sum_setHdr p.hdr hs h
    have h1 := w.nRefSum
    have h2 := r.nRefSum
    rw [hent, r.hdr]
    omega
  · refine r.dirty.congr fun t => ?_
    rw [hent]
    refine and_congr_right fun _ => ?_
    by_cases hts : t = s
    · rw [if_pos hts, hts, hself]
    · rw [if_neg hts, hne hts]
  · have hts := hx' t ht
    subst hts
    rw [hent, r.pCache, hself]
    exact ⟨hs, hheld ht⟩

theorem Rewrites.retains {p' : PCache} {h : PgHdr} {X : Slot → Prop} (r : Rewrites p p' s h)
    (hb : p.Busy s → ¬ X s → 0 < h.nRef ∨ h.flags.dirty = true) : Retains p p' X := by
  intro t ht hbt hx
  refine ⟨?_, ?_, by rw [r.pCache], by rw [r.pData]⟩
  · unfold entries
    rw [r.pCache]
    exact ht
  · unfold Busy
    rw [r.hdr]
    by_cases hts : t = s
    · subst hts
      rw [Function.update_self]
      exact hb hbt hx
    · rw [Function.update_of_ne hts]
      exact hbt

/-- The dirty pages when only the header of `s` changes, and not its being dirty. -/
theorem Wf.dirty_same (w : p.Wf x) {h : PgHdr} (hd : h.flags.dirty = (p.hdr s).flags.dirty) :
    p.DirtyOk fun t => t ∈ p.entries
      ∧ (if t = s then h.flags.dirty else (p.hdr t).flags.dirty) = true := by
  refine w.dirty.congr fun t => and_congr_right fun _ => ?_
  by_cases hts : t = s
  · rw [if_pos hts, hd, hts]
  · rw [if_neg hts]

theorem Wf.addRef (w : p.Wf x) (hs : s ∈ p.entries) (hx : ∀ t, x = some t → t = s)
    (hu : p.pCache.onLru s = false) :
    (p.addRef s).Wf none ∧ Retains p (p.addRef s) fun _ => False := by
  have r : Rewrites p (p.addRef s) s { p.hdr s with nRef := (p.hdr s).nRef + 1 } :=
    { pCache := rfl, hdr := rfl, pData := rfl, bPurgeable := rfl, pgno := rfl
      clean := (w.hdr s hs).clean
      nRefSum := by
        change p.nRefSum + 1 + _ = _ + ((p.hdr s).nRef + 1)
        omega
      dirty := w.dirty_same rfl }
  exact ⟨w.rewrites hs r hx (by simp) (fun _ => by simp [hu]) (by simp),
    r.retains fun _ _ => Or.inl (Nat.succ_pos _)⟩

end Pages

end PCache

end Btreelite
