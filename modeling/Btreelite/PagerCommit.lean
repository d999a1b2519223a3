import Btreelite.PagerRun

/-!
# Commit

At a commit every dirty page of the image is written, and the others are as the file has them. So the file
comes to hold what reads returned, up to the change counter that the commit itself puts into page 1, and
the pages that nothing wrote. A page of the lock bytes at the end of the image is not written.
-/

namespace Btreelite.FilePager

open Function

variable {k : Settings} {G : Set ℕ} {x p q n : ℕ} {s s' s₀ s₁ : FilePager} {c : CachePage}

/-- What writing the pages of `l` does, of which those of the image come to be as the file has them. -/
structure Written (l : List ℕ) (s s' : FilePager) : Prop where
  dbSize : s'.dbSize = s.dbSize
  eState : s'.eState = s.eState
  pDirty : s'.pDirty = s.pDirty
  dbFileSize : s.dbFileSize ≤ s'.dbFileSize
  dbFileSizeLe : ∀ n, s.dbFileSize ≤ n → (∀ p ∈ l, p ≤ s.dbSize → p ≤ n) → s'.dbFileSize ≤ n
  content : ∀ q j, q ≤ s.dbSize → q ≠ 1 ∨ ¬ PageImage.Counter j → s'.content q j = s.content q j
  dontWrite : ∀ q, s'.has (·.dontWrite) q = s.has (·.dontWrite) q
  asFile : ∀ q, q ∈ l ∨ AsFile s q → AsFile s' q

theorem Written.trans {l l' : List ℕ} (h : Written l s s₁) (h' : Written l' s₁ s') :
    Written (l ++ l') s s' where
  dbSize := h'.dbSize.trans h.dbSize
  eState := h'.eState.trans h.eState
  pDirty := h'.pDirty.trans h.pDirty
  dbFileSize := h.dbFileSize.trans h'.dbFileSize
  dbFileSizeLe n hn hl := h'.dbFileSizeLe n (h.dbFileSizeLe n hn fun p hp => hl p (List.mem_append_left _ hp))
    fun p hp hle => hl p (List.mem_append_right _ hp) (h.dbSize ▸ hle)
  content q j hq hj := (h'.content q j (h.dbSize ▸ hq) hj).trans (h.content q j hq hj)
  dontWrite q := (h'.dontWrite q).trans (h.dontWrite q)
  asFile q hq := h'.asFile q <| by
    rcases hq with hq | hq
    · exact (List.mem_append.1 hq).symm.imp_right fun hq => h.asFile q (.inl hq)
    · exact .inr (h.asFile q (.inr hq))

theorem Sound.written (h : Sound k G x s) (hp : p ∈ s.pDirty) : Written [p] s (s.writePage p) := by
  obtain ⟨c, hc⟩ := h.cached p hp
  obtain ⟨-, hself, -⟩ := h.writePage hp
  by_cases hw : p ≤ s.dbSize ∧ ¬ s.has (·.dontWrite) p
  · obtain ⟨a, v, he, ha⟩ := writePage_eq hc hw
    have hcache : ∀ q, q ≠ p → (s.writePage p).cache q = s.cache q := fun q hq => by
      rw [he]
      simp [FilePager.setData, FilePager.mapPage, osWrite, hq]
    have hfile : ∀ q, q ≠ p → (s.writePage p).file q = s.file q := fun q hq => by
      rw [he]
      simp [FilePager.setData, FilePager.mapPage, osWrite, hq]
    have hsize : (s.writePage p).dbSize = s.dbSize := writePage_sizes.2.1
    have hgrow : (s.writePage p).dbFileSize = max s.dbFileSize p := by
      rw [he]
      rfl
    have hdirty : (s.writePage p).pDirty = s.pDirty := by
      rw [he]
      rfl
    refine ⟨hsize, writePage_sizes.2.2, hdirty, ?_, fun n hn hl => ?_, fun q j hq hj => ?_, fun q => ?_,
      fun q hq => ?_⟩
    · rw [hgrow]
      exact Nat.le_max_left _ _
    · rw [hgrow]
      exact max_le hn (hl p List.mem_cons_self hw.1)
    · by_cases hqp : q = p
      · subst hqp
        have hc' : (s.writePage q).cache q = some { c with data := a } := by
          rw [he]
          exact mapPage_eq_some.2 (.inr ⟨rfl, c, hc, rfl⟩)
        rw [content_of_some hc', content_of_some hc]
        exact ha j hj
      · exact congrFun (content_congr (hcache q hqp) (hfile q hqp) hq (hsize ▸ hq)) j
    · rw [he]
      exact setData_has (s := s.osWrite p a) fun _ _ => rfl
    · by_cases hqp : q = p
      · exact hqp ▸ hself
      · have hq' := hq.resolve_left fun hq => hqp (List.mem_singleton.1 hq)
        intro c hc hle hn
        rw [hcache q hqp] at hc
        rw [hfile q hqp]
        exact hq' c hc (hsize ▸ hle) hn
  · have he : s.writePage p = s := by
      unfold FilePager.writePage
      rw [if_neg hw]
    rw [he] at hself ⊢
    refine ⟨rfl, rfl, rfl, le_rfl, fun _ hn _ => hn, fun _ _ _ _ => rfl, fun _ => rfl, fun q hq => ?_⟩
    exact hq.elim (fun hq => List.mem_singleton.1 hq ▸ hself) id

theorem Sound.writePagelist : ∀ {l : List ℕ} {s : FilePager}, Sound k G x s → (∀ p ∈ l, p ∈ s.pDirty) →
    Sound k G x (s.pagerWritePagelist l) ∧ Written l s (s.pagerWritePagelist l)
  | [], s, h, _ => ⟨h, rfl, rfl, rfl, le_rfl, fun _ hn _ => hn, fun _ _ _ _ => rfl, fun _ => rfl, fun _ hq =>
      hq.resolve_left List.not_mem_nil⟩
  | p :: l, s, h, hl => by
    have hp := hl p List.mem_cons_self
    have hw := h.written hp
    obtain ⟨h', hw'⟩ := Sound.writePagelist (l := l) (h.writePage hp).1 fun q hq => by
      rw [hw.pDirty]
      exact hl q (List.mem_cons_of_mem _ hq)
    exact ⟨h', hw.trans hw'⟩

/-- A page of the image that is to be written is in the file, once the dirty ones are. -/
theorem Sound.file_eq (h : Sound k G x s) (hd : ∀ q ∈ s.pDirty, AsFile s q) (hq : q ≤ s.dbSize) (hG : q ∉ G)
    (hw : s.has (·.dontWrite) q = false) : s.file q = s.content q := by
  cases hc : s.cache q with
  | none => rw [content_of_none hc, if_neg (Nat.not_lt.2 hq)]
  | some c =>
    have hn : c.dontWrite = false := by simpa [has, hc] using hw
    rw [content_of_some hc]
    by_cases hqd : q ∈ s.pDirty
    · exact (hd q hqd c hc hq hn).symm
    · exact (h.clean q c hc hq hqd hn hG).symm

/-! ## The ends of a commit -/

theorem makeClean_frame : ∀ {l : List ℕ} {s : FilePager},
    ∃ cache d, l.foldl FilePager.makeClean s = { s with cache := cache, pDirty := d }
  | [], s => ⟨s.cache, s.pDirty, rfl⟩
  | p :: l, s => by
    obtain ⟨cache, d, he⟩ := makeClean_frame (l := l) (s := s.makeClean p)
    exact ⟨cache, d, he⟩

theorem cleanAll_frame : ∃ cache d, s.cleanAll = { s with cache := cache, pDirty := d } := makeClean_frame

theorem pagerTruncate_grow (he : s.eState = .dbmod) (hb : ∀ p, s.fileSize < p → s.file p = 0)
    (hn : s.fileSize ≤ n) : s.pagerTruncate n = { s with fileSize := n, dbFileSize := n } := by
  unfold pagerTruncate
  rw [if_pos (.inl he), if_neg (Nat.not_lt.2 hn)]
  split_ifs with hlt
  · rw [update_eq_self_iff.2 (hb n hlt).symm]
  · rw [Nat.le_antisymm hn (Nat.le_of_not_lt hlt)]

theorem syncJournal_content : (s.syncJournal k).content q = s.content q := by
  have h : ((s.syncJournal k).cache q).map (·.data) = (s.cache q).map (·.data) := by
    simp only [FilePager.syncJournal, clearSyncFlags]
    split_ifs <;> simp [Function.comp_def]
  exact congrArg (Option.getD · (if s.dbSize < q then 0 else s.file q)) h

theorem syncJournal_dontWrite : (s.syncJournal k).has (·.dontWrite) q = s.has (·.dontWrite) q := by
  simp only [has, FilePager.syncJournal, clearSyncFlags]
  split_ifs
  · cases s.cache q <;> rfl
  · rfl

/-- The dirty pages have been written, and what reads returned is in the file. -/
structure Flushed (k : Settings) (G : Set ℕ) (s s' : FilePager) : Prop where
  eState : s'.eState = .dbmod
  dbSize : s'.dbSize = s.dbSize
  size : s'.fileSize = s'.dbFileSize
  beyond : ∀ p, s'.fileSize < p → s'.file p = 0
  grows : s.dbFileSize ≤ s'.dbFileSize
  short : s.dbSize = k.sjPgno → s.dbFileSize < s.dbSize → s'.dbFileSize < s.dbSize
  file : ∀ p, p ≤ s.dbSize → p ∉ G → s.has (·.dontWrite) p = false → ∀ j, p ≠ 1 ∨ ¬ PageImage.Counter j →
    s'.file p j = s.content p j

/-- The first phase up to the growing of the file. -/
theorem Sound.flush (h : Sound k G 0 s) (ht : Together k 0 s) {t u : FilePager}
    (hst : t = (s.pagerIncrChangecounter k).syncJournal k)
    (htu : u = t.pagerWritePagelist (t.pDirty.insertionSort (· ≤ ·))) : Flushed k G s u := by
  obtain ⟨h1, -, hS⟩ := h.incrChangecounter ht
  have h2 : Sound k G 0 t := hst ▸ h1.syncJournal
  have hmem : ∀ p, p ∈ t.pDirty.insertionSort (· ≤ ·) ↔ p ∈ t.pDirty := fun p => List.mem_insertionSort _
  have hn : t.dbSize = s.dbSize := by
    rw [hst]
    exact hS.dbSize
  have hf : t.dbFileSize = s.dbFileSize := by
    rw [hst]
    exact hS.dbFileSize
  obtain ⟨h3, hW⟩ := h2.writePagelist fun p hp => (hmem p).1 hp
  rw [← htu] at h3 hW
  refine ⟨?_, hW.dbSize.trans hn, h3.size, h3.beyond, hf ▸ hW.dbFileSize, fun hsj hlt => ?_,
    fun p hp hG hw j hj => ?_⟩
  · rw [hW.eState, hst]
    rfl
  · have hle : u.dbFileSize ≤ s.dbSize - 1 := hW.dbFileSizeLe _ (by omega) fun p hp hle => by
      obtain ⟨c, hc⟩ := h2.cached p ((hmem p).1 hp)
      have hne := (h2.valid p c hc).2
      omega
    omega
  · have hw' : t.has (·.dontWrite) p = false := by
      rw [hst, syncJournal_dontWrite]
      exact Bool.eq_false_iff.2 fun hd => Bool.false_ne_true (hw.symm.trans (hS.dontWrite p hd))
    have hd : ∀ q ∈ u.pDirty, AsFile u q := fun q hq => hW.asFile q (.inl ((hmem q).2 (hW.pDirty ▸ hq)))
    rw [h3.file_eq hd (hW.dbSize.trans hn ▸ hp) hG (hW.dontWrite p ▸ hw'), hW.content p j (hn ▸ hp) hj, hst,
      syncJournal_content]
    exact hS.content p j hp hj

/-- One when the page of the lock bytes ends an image of `n` pages that the file is short of. -/
def unwritten (k : Settings) (n dbFileSize : ℕ) : ℕ := if n = k.sjPgno ∧ dbFileSize < n then 1 else 0

/-- What the first phase leaves for the second. -/
structure Finished (k : Settings) (G : Set ℕ) (s s' : FilePager) : Prop where
  eState : s'.eState = .finished ∨ s'.dbFileSize ≤ s'.dbSize
  dbSize : s'.dbSize = s.dbSize
  size : s'.fileSize = s'.dbFileSize
  dbFileSize : min s.dbSize s'.dbFileSize = s.dbSize - unwritten k s.dbSize s.dbFileSize
  file : ∀ p, p ≤ s.dbSize → p ∉ G → s.has (·.dontWrite) p = false → ∀ j, p ≠ 1 ∨ ¬ PageImage.Counter j →
    s'.file p j = s.content p j

theorem Flushed.cleanAll (h : Flushed k G s s') : Flushed k G s s'.cleanAll := by
  obtain ⟨cache, d, he⟩ := s'.cleanAll_frame
  rw [he]
  exact { h with }

theorem Flushed.finish (h : Flushed k G s s') :
    Finished k G s { (if s'.dbFileSize < s'.dbSize then
      s'.pagerTruncate (s'.dbSize - if s'.dbSize = k.sjPgno then 1 else 0) else s') with
      eState := .finished } := by
  have hn := h.dbSize
  have hg := h.grows
  have hs := h.short
  have hz := h.size
  split_ifs with hlt hsj
  · rw [pagerTruncate_grow h.eState h.beyond (by omega)]
    refine ⟨.inl rfl, hn, rfl, ?_, h.file⟩
    simp only [unwritten]
    split_ifs <;> omega
  · rw [pagerTruncate_grow h.eState h.beyond (by omega)]
    refine ⟨.inl rfl, hn, rfl, ?_, h.file⟩
    simp only [unwritten]
    split_ifs <;> omega
  · refine ⟨.inl rfl, hn, hz, ?_, h.file⟩
    simp only [unwritten]
    split_ifs <;> omega

/-- A database of one page at the beginning of a transaction. -/
def onePage : FilePager where
  eState := .locked
  changeCountDone := false
  dbFileVers := 0
  dbSize := 1
  dbOrigSize := 1
  dbFileSize := 1
  file p _ := if p = 1 then 5 else 0
  fileSize := 1
  cache _ := none
  pDirty := []
  isOpenJfd := false
  jfd := []
  journalHdr := 0
  pInJournal := []
  savepoints := []
  sjfd := []

end Btreelite.FilePager
