import Btreelite.PcacheRefs

/-!
# Runs of the page cache

What holds of the cache after every sequence of calls, whichever allocations fail in between, and
what a call may take from it: a page that is referred to or dirty goes only by a call that is about
it, and keeps its number and content until then.
-/

namespace Btreelite

namespace PCache

variable {p : PCache} {x : Option Slot} {c : PCache1}

section Sizes

theorem newCache_spec {old : PgHdr1s} {nInitPage : ℤ} {szPage szExtra nMax : ℕ}
    {bPurgeable hash : Bool}
    (h : newCache old nInitPage szPage szExtra bPurgeable hash nMax = some c) :
    c.Wf ∅ ∧ c.entries = ∅ ∧ c.bPurgeable = bPurgeable := by
  unfold newCache at h
  obtain ⟨c₀, h₀, rfl⟩ := Option.map_eq_some_iff.mp h
  obtain ⟨h1, h2, h3⟩ := PCache1.wf_create h₀
  obtain ⟨h4, h5⟩ := h1.cachesize nMax
  refine ⟨h4, ?_, h5.bPurgeable.trans h3⟩
  have hsub := h5.sub
  rw [h2] at hsub
  exact Finset.subset_empty.mp hsub

/-- A cache without pages. -/
theorem wf_empty (hc : p.pCache.Wf ∅) (he : p.pCache.entries = ∅)
    (hb : p.pCache.bPurgeable = p.bPurgeable) (hn : p.nRefSum = 0) (h2 : p.eCreate = 2)
    (hl : p.dirty.Holds []) (hs : p.pSynced = none) : p.Wf none := by
  have hno : ∀ s, s ∉ p.entries := fun s hs => by
    rw [show p.entries = ∅ from he] at hs
    exact Finset.notMem_empty s hs
  refine ⟨hc, hb, fun s hs => absurd hs (hno s), ?_, ?_, by simp⟩
  · rw [hn, show p.entries = ∅ from he, Finset.sum_empty]
  · refine ⟨?_, [], hl, fun s => ?_, by simp [hs]⟩
    · rw [h2, hl.first]
      simp
    · simp [hno s]

theorem wf_open {old : PgHdr1s} {hdr : Slot → PgHdr} {pData : Slot → List UInt8} {nInitPage : ℤ}
    {szPage szExtra : ℕ} {bPurgeable hash : Bool}
    (h : sqlite3PcacheOpen old hdr pData nInitPage szPage szExtra bPurgeable hash = some p) :
    p.Wf none ∧ p.entries = ∅ := by
  unfold sqlite3PcacheOpen at h
  obtain ⟨c, hc, rfl⟩ := Option.map_eq_some_iff.mp h
  obtain ⟨h1, h2, h3⟩ := newCache_spec hc
  exact ⟨wf_empty h1 h2 h3 rfl rfl (Links.holds_nil rfl rfl) rfl, h2⟩

theorem Wf.setPageSize (w : p.Wf none) (hr : p.nRefSum = 0) (hd : p.dirty.first = none)
    (szPage : ℕ) (hash : Bool) :
    (p.sqlite3PcacheSetPageSize szPage hash).Wf none
      ∧ Retains p (p.sqlite3PcacheSetPageSize szPage hash) fun _ => False := by
  unfold sqlite3PcacheSetPageSize
  split
  · exact ⟨w, .rfl⟩
  · rename_i c hc
    obtain ⟨h1, h2, h3⟩ := newCache_spec hc
    obtain ⟨he, l, hl, hm, hsync⟩ := w.dirty
    obtain rfl := hl.first_eq_none_iff.mp hd
    refine ⟨wf_empty h1 h2 h3 hr ?_ hl ?_, fun s hs hb _ => ?_⟩
    · simpa [hd] using he
    · cases hp : p.pSynced with
      | none => rfl
      | some s => exact absurd (hsync s hp) List.not_mem_nil
    · -- no page is in use
      exfalso
      rcases hb with hb | hb
      · have := w.nRef_le hs
        omega
      · exact List.not_mem_nil ((hm s).mpr ⟨hs, hb⟩)

theorem Wf.setSpillsize (w : p.Wf none) (mxPage : ℤ) :
    (p.sqlite3PcacheSetSpillsize mxPage).Wf none
      ∧ Retains p (p.sqlite3PcacheSetSpillsize mxPage) fun _ => False := by
  unfold sqlite3PcacheSetSpillsize
  by_cases h : mxPage = 0
  · rw [if_pos h]
    exact ⟨w, .rfl⟩
  · rw [if_neg h]
    refine ⟨⟨w.lower, w.bPurgeable, fun s hs => ?_, w.nRefSum, w.dirty, w.held⟩,
      fun s hs hb _ => ⟨hs, hb, rfl, rfl⟩⟩
    have o := w.hdr s hs
    exact ⟨o.extra, o.pgno, o.clean, o.unpinned⟩

theorem Wf.setCachesize (w : p.Wf none) (mxPage : ℤ) :
    (p.sqlite3PcacheSetCachesize mxPage).Wf none
      ∧ Retains p (p.sqlite3PcacheSetCachesize mxPage) fun _ => False := by
  obtain ⟨h1, h2⟩ := w.lower.cachesize (numberOfCachePages mxPage p.szPage p.szExtra)
  obtain ⟨h3, h4⟩ := w.trims h1 h2
  refine ⟨⟨h3.lower, h3.bPurgeable, fun s hs => ?_, h3.nRefSum, h3.dirty, h3.held⟩,
    fun s hs hb hx => ?_⟩
  · have o := h3.hdr s hs
    exact ⟨o.extra, o.pgno, o.clean, o.unpinned⟩
  · have g := h4 s hs hb hx
    exact ⟨g.mem, g.busy, g.iKey, g.pData⟩

theorem Wf.setFlags {s : Slot} (w : p.Wf none) (hs : s ∈ p.entries) (a b d : Bool) :
    (p.setFlags s { (p.hdr s).flags with writeable := a, needSync := b, dontWrite := d }).Wf none
      ∧ Retains p
        (p.setFlags s { (p.hdr s).flags with writeable := a, needSync := b, dontWrite := d })
        fun _ => False := by
  have r : Rewrites p
      (p.setFlags s { (p.hdr s).flags with writeable := a, needSync := b, dontWrite := d }) s
      { p.hdr s with flags := { (p.hdr s).flags with
        writeable := a, needSync := b, dontWrite := d } } :=
    ⟨rfl, rfl, rfl, rfl, rfl, (w.hdr s hs).clean, rfl, w.dirty_same rfl⟩
  exact ⟨w.rewrites hs r (by simp) (by simp) (fun _ => (w.hdr s hs).unpinned (by simp)) (by simp),
    r.retains fun hb _ => hb⟩

end Sizes

section Steps

/-- What a call asks of its caller: a page it is given is one the caller refers to, a page number
that is taken away from a page is nobody's, and allocated memory is not in use. -/
def Legal (p : PCache) : PcacheOp → Prop
  | .get pgno a₁ y a₂ =>
    a₁.Fresh p.pCache ∧ a₂.Fresh ((p.beforeSpill pgno a₁).spill y).1.pCache
  | .release s | .ref s | .makeDirty s => s ∈ p.entries ∧ 0 < (p.hdr s).nRef
  | .drop s => s ∈ p.entries ∧ (p.hdr s).nRef = 1
  | .makeClean s => s ∈ p.entries ∧ (p.hdr s).flags.dirty = true
  | .move s k => s ∈ p.entries ∧ 0 < (p.hdr s).nRef ∧ p.pCache.iKey s ≠ k
    ∧ ∀ t ∈ p.entries, p.pCache.iKey t = k → (p.hdr t).nRef = 0
  | .truncate k => p.TruncateOk k
  | .setPageSize _ _ => p.nRefSum = 0 ∧ p.dirty.first = none
  | .setFlags s _ _ _ | .write s _ => s ∈ p.entries
  | _ => True

/-- The pages a call is about, in the sense that they may be gone, or free to go, afterwards. -/
def GivesUp (p : PCache) : PcacheOp → Slot → Prop
  | .get pgno a₁ y _, s => y.cleans = true
    ∧ (p.beforeSpill pgno a₁).spillCandidate.2 = some s ∧ (p.hdr s).nRef = 0
  | .release t, s => s = t ∧ (p.hdr t).nRef = 1 ∧ (p.hdr t).flags.dirty = false
  | .drop t, s => s = t
  | .makeClean t, s => s = t ∧ (p.hdr t).nRef = 0
  | .cleanAll, s => (p.hdr s).nRef = 0
  | .move _ k, s => p.pCache.iKey s = k
  | .truncate k, s => p.Behind k s
  | _, _ => False

/-- The number a page has after a call. -/
def keyAfter (p : PCache) (op : PcacheOp) (s : Slot) : ℕ :=
  match op with
  | .move t k => if s = t then k else p.pCache.iKey s
  | _ => p.pCache.iKey s

/-- The content a page has after a call. -/
def dataAfter (p : PCache) (op : PcacheOp) (s : Slot) : List UInt8 :=
  match op with
  | .write t data => if s = t then data else p.pData s
  | .truncate k => if k = 0 ∧ p.pCache.iKey s = 1 then List.replicate p.szPage 0 else p.pData s
  | _ => p.pData s

/-- A page that is in use and that the call is not about stays what it is. -/
def Holds (p : PCache) (op : PcacheOp) : Prop :=
  ∀ s ∈ p.entries, p.Busy s → ¬ p.GivesUp op s →
    s ∈ (p.step op).entries ∧ (p.step op).pCache.iKey s = p.keyAfter op s
      ∧ (p.step op).pData s = p.dataAfter op s

/-- What a call answers is the one page with the number. -/
def Answers (p : PCache) : PcacheOp → Prop
  | .get pgno a₁ y a₂ => ∀ s, (p.getPage pgno a₁ y a₂).2 = some s →
    Got p (p.getPage pgno a₁ y a₂).1 pgno s
  | .lookup pgno => ∀ s, (p.lookupPage pgno).2 = some s → Got p (p.lookupPage pgno).1 pgno s
  | _ => True

theorem Retains.holds {op : PcacheOp} {X : Slot → Prop} (h : Retains p (p.step op) X)
    (hX : ∀ s ∈ p.entries, p.Busy s → X s → p.GivesUp op s)
    (hk : ∀ s, p.keyAfter op s = p.pCache.iKey s) (hd : ∀ s, p.dataAfter op s = p.pData s) :
    p.Holds op := by
  intro s hs hb hg
  have g := h s hs hb fun hx => hg (hX s hs hb hx)
  exact ⟨g.mem, g.iKey.trans (hk s).symm, g.pData.trans (hd s).symm⟩

theorem Wf.step (w : p.Wf none) : ∀ op, p.Legal op → (p.step op).Wf none ∧ p.Holds op
  | .get pgno a₁ y a₂, hl => by
    obtain ⟨h1, h2, -⟩ := w.getPage hl.1 hl.2
    exact ⟨h1, Retains.holds h2 (fun _ _ _ h => h) (fun _ => rfl) fun _ => rfl⟩
  | .lookup pgno, _ => by
    obtain ⟨h1, h2, -⟩ := w.lookupPage pgno
    exact ⟨h1, Retains.holds h2 (fun _ _ _ h => h) (fun _ => rfl) fun _ => rfl⟩
  | .release s, hl => by
    obtain ⟨h1, h2⟩ := w.release hl.1 hl.2
    exact ⟨h1, Retains.holds h2 (fun _ _ _ h => h) (fun _ => rfl) fun _ => rfl⟩
  | .ref s, hl => by
    obtain ⟨h1, h2⟩ := w.ref hl.1 hl.2
    exact ⟨h1, Retains.holds h2 (fun _ _ _ h => h) (fun _ => rfl) fun _ => rfl⟩
  | .drop s, hl => by
    obtain ⟨h1, h2, -⟩ := w.drop hl.1 hl.2
    exact ⟨h1, Retains.holds h2 (fun _ _ _ h => h) (fun _ => rfl) fun _ => rfl⟩
  | .makeDirty s, hl => by
    obtain ⟨h1, h2⟩ := w.makeDirty hl.1 hl.2
    exact ⟨h1, Retains.holds h2 (fun _ _ _ h => h) (fun _ => rfl) fun _ => rfl⟩
  | .makeClean s, hl => by
    obtain ⟨h1, h2⟩ := w.makeClean hl.1 hl.2
    exact ⟨h1, Retains.holds h2 (fun _ _ _ h => h) (fun _ => rfl) fun _ => rfl⟩
  | .cleanAll, _ => by
    obtain ⟨h1, h2⟩ := Wf.cleanLoop p.pCache.nPage w
    exact ⟨h1, Retains.holds h2 (fun _ _ _ h => h) (fun _ => rfl) fun _ => rfl⟩
  | .clearWritable, _ => by
    obtain ⟨h1, h2⟩ := w.clearWritable
    exact ⟨h1, Retains.holds h2 (fun _ _ _ h => h) (fun _ => rfl) fun _ => rfl⟩
  | .clearSyncFlags, _ => by
    obtain ⟨h1, h2⟩ := w.clearSyncFlags
    exact ⟨h1, Retains.holds h2 (fun _ _ _ h => h) (fun _ => rfl) fun _ => rfl⟩
  | .move s k, hl => by
    obtain ⟨hs, hb, hks, hk⟩ := hl
    obtain ⟨h1, h2, h3, h4, h5⟩ := w.move hs hb hks hk
    refine ⟨h1, fun t ht hbt hg => ?_⟩
    unfold keyAfter
    by_cases hts : t = s
    · subst hts
      simp only [↓reduceIte]
      exact ⟨h3, h4, h5⟩
    · simp only [hts, ↓reduceIte]
      have g := h2 t ht hbt fun hc => hc.elim hts hg
      exact ⟨g.mem, g.iKey, g.pData⟩
  | .truncate k, hl => w.truncate hl
  | .setCachesize mxPage, _ => by
    obtain ⟨h1, h2⟩ := w.setCachesize mxPage
    exact ⟨h1, Retains.holds h2 (fun _ _ _ h => h) (fun _ => rfl) fun _ => rfl⟩
  | .setSpillsize mxPage, _ => by
    obtain ⟨h1, h2⟩ := w.setSpillsize mxPage
    exact ⟨h1, Retains.holds h2 (fun _ _ _ h => h) (fun _ => rfl) fun _ => rfl⟩
  | .setPageSize szPage hash, hl => by
    obtain ⟨h1, h2⟩ := w.setPageSize hl.1 hl.2 szPage hash
    exact ⟨h1, Retains.holds h2 (fun _ _ _ h => h) (fun _ => rfl) fun _ => rfl⟩
  | .shrink, _ => by
    obtain ⟨h1, h2⟩ := w.lower.shrink
    obtain ⟨h3, h4⟩ := w.trims h1 h2
    exact ⟨h3, Retains.holds h4 (fun _ _ _ h => h) (fun _ => rfl) fun _ => rfl⟩
  | .setFlags s a b d, hl => by
    obtain ⟨h1, h2⟩ := w.setFlags hl a b d
    exact ⟨h1, Retains.holds h2 (fun _ _ _ h => h) (fun _ => rfl) fun _ => rfl⟩
  | .write s data, _ =>
    ⟨w.setData _, fun t ht _ _ => ⟨ht, rfl, Function.update_apply _ _ _ _⟩⟩

theorem Wf.answers (w : p.Wf none) : ∀ op, p.Legal op → p.Answers op
  | .get _ _ _ _, hl => (w.getPage hl.1 hl.2).2.2
  | .lookup pgno, _ => (w.lookupPage pgno).2.2
  | .release _, _ | .ref _, _ | .drop _, _ | .makeDirty _, _ | .makeClean _, _ | .cleanAll, _
  | .clearWritable, _ | .clearSyncFlags, _ | .move _ _, _ | .truncate _, _ | .setCachesize _, _
  | .setSpillsize _, _ | .setPageSize _ _, _ | .shrink, _ | .setFlags _ _ _ _, _
  | .write _ _, _ => trivial

end Steps

/-- The states of all runs of an opened cache. -/
inductive Reachable : PCache → Prop
  | opened {old : PgHdr1s} {hdr : Slot → PgHdr} {pData : Slot → List UInt8} {nInitPage : ℤ}
    {szPage szExtra : ℕ} {bPurgeable hash : Bool} {p : PCache}
    (h : sqlite3PcacheOpen old hdr pData nInitPage szPage szExtra bPurgeable hash = some p) :
    Reachable p
  | step {p : PCache} (h : Reachable p) (op : PcacheOp) (hl : p.Legal op) : Reachable (p.step op)

theorem Reachable.wf (h : Reachable p) : p.Wf none := by
  induction h with
  | opened h => exact (wf_open h).1
  | step h op hl ih => exact (ih.step op hl).1

/-- The pages form a finite map, and everything the cache keeps about them is what it would compute
from them. -/
structure Consistent (p : PCache) : Prop where
  oneEntry : ∀ s ∈ p.entries, ∀ t ∈ p.entries, p.pCache.iKey s = p.pCache.iKey t → s = t
  found : ∀ s ∈ p.entries, p.pCache.lookup (p.pCache.iKey s) = some s
  pgno : ∀ s ∈ p.entries, (p.hdr s).pgno = p.pCache.iKey s
  iMaxKey : ∀ s ∈ p.entries, p.pCache.iKey s ≤ p.pCache.iMaxKey
  nPage : p.pCache.nPage = p.entries.card
  lru : ∃ l, p.pCache.pGroup.lru.Holds l
    ∧ ∀ s, s ∈ l ↔ s ∈ p.entries ∧ p.pCache.onLru s = true
  unpinned : ∀ s ∈ p.entries, (p.pCache.onLru s = true ↔ p.bPurgeable = true ∧ ¬ p.Busy s)
  nRecyclable : p.pCache.nRecyclable = (p.entries.filter (p.pCache.onLru · = true)).card
  nRefSum : p.nRefSum = ∑ s ∈ p.entries, (p.hdr s).nRef
  eCreate : p.eCreate =
    if p.bPurgeable = true ∧ ∃ s ∈ p.entries, (p.hdr s).flags.dirty = true then 1 else 2
  dirty : ∃ l, p.dirty.Holds l ∧ (∀ s, s ∈ l ↔ s ∈ p.entries ∧ (p.hdr s).flags.dirty = true)
    ∧ ∀ s, p.pSynced = some s → s ∈ l
  clean : ∀ s ∈ p.entries, (p.hdr s).flags.clean = !(p.hdr s).flags.dirty

theorem Wf.consistent (w : p.Wf none) : p.Consistent := by
  obtain ⟨l, hl, hm, hn⟩ := w.lower.lru
  obtain ⟨he, d, hd, hdm, hsync⟩ := w.dirty
  refine ⟨w.lower.key, fun s hs => w.lower.lookup_eq hs, fun s hs => (w.hdr s hs).pgno,
    w.lower.iMaxKey, w.lower.nPage, ⟨l, hl, hm⟩, fun s hs => ?_, ?_, w.nRefSum, ?_,
    ⟨d, hd, hdm, hsync⟩, fun s hs => (w.hdr s hs).clean⟩
  · rw [(w.hdr s hs).unpinned (by simp)]
    unfold Busy
    simp
  · rw [hn, ← List.toFinset_card_of_nodup hl.nodup]
    congr 1
    ext s
    simp [hm]
  · rw [he]
    have hex : p.dirty.first ≠ none ↔ ∃ s ∈ p.entries, (p.hdr s).flags.dirty = true := by
      rw [Ne, hd.first_eq_none_iff]
      refine Iff.trans ⟨List.exists_mem_of_ne_nil d, ?_⟩ (exists_congr hdm)
      rintro ⟨s, hs⟩
      exact List.ne_nil_of_mem hs
    simp only [hex]

/-- In every run, the cache is a consistent map, each call leaves the pages in use that it is not
about as they are, and a fetch answers with the page of the number. -/
theorem pcache_consistent (h : Reachable p) :
    p.Consistent ∧ ∀ op, p.Legal op → p.Holds op ∧ p.Answers op :=
  ⟨h.wf.consistent, fun op hl => ⟨(h.wf.step op hl).2, h.wf.answers op hl⟩⟩

/-- An opened cache for pages of 4096 bytes, in cleared memory. -/
def opened : Option PCache :=
  sqlite3PcacheOpen ⟨fun _ => 0, fun _ => false, fun _ => false, fun _ => false⟩
    (fun _ => ⟨0, PgFlags.setClean, 0⟩) (fun _ => []) 0 4096 136 true true

/-- The allocator has a page, in slot 7. -/
def onePage : PageAlloc := ⟨true, [], some 7, false, false⟩

theorem pcache_consistent_onePage : ∃ p, opened = some p
    ∧ (p.step (.get 1 onePage ⟨false, false, .ok⟩ .fail)).Consistent
    ∧ (p.step (.get 1 onePage ⟨false, false, .ok⟩ .fail)).Holds (.makeDirty 7) := by
  obtain ⟨p, hp⟩ : ∃ p, opened = some p := Option.isSome_iff_exists.mp rfl
  have hempty := (wf_open hp).2
  have hbulk : p.pCache.pBulk = [] := by
    have h : opened.map (·.pCache.pBulk) = some [] := rfl
    rw [hp] at h
    simpa using h
  have hget : (p.getPage 1 onePage ⟨false, false, .ok⟩ .fail).2 = some 7 := by
    have h : opened.map (fun p => (p.getPage 1 onePage ⟨false, false, .ok⟩ .fail).2)
      = some (some 7) := rfl
    rw [hp] at h
    simpa using h
  have hl : p.Legal (.get 1 onePage ⟨false, false, .ok⟩ .fail) := by
    refine ⟨⟨fun s _ => ⟨?_, by simp [hbulk]⟩, by simp [onePage]⟩,
      ⟨by simp [PageAlloc.fail], by simp [PageAlloc.fail]⟩⟩
    rw [show p.pCache.entries = ∅ from hempty]
    exact Finset.notMem_empty s
  have hr : Reachable p := .opened hp
  have g := (pcache_consistent hr).2 _ hl |>.2 7 hget
  obtain ⟨h1, h2⟩ := pcache_consistent (.step hr _ hl)
  exact ⟨p, hp, h1, (h2 (.makeDirty 7) ⟨g.mem, g.nRef⟩).1⟩

end PCache

end Btreelite
