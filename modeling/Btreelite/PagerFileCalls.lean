import Btreelite.PagerFileSteps

/-!
# The calls of a transaction

Each call of a transaction keeps what holds between calls: fetching and writing pages, hints, spills,
savepoints and the exchange of page numbers.
-/

namespace Btreelite.FilePager

open Function

variable {k : Settings} {G : Set ℕ} {x p q : ℕ} {s : FilePager} {c : CachePage}

/-! ## The calls -/

theorem getPage_of_some (hc : s.cache p = some c) : s.getPage p = s := by
  unfold FilePager.getPage
  rw [hc]

theorem Together.settle (ht : Together k x s) (hx : x = 0 ∨ s.has (·.writeable) x = true) : Together k 0 s where
  whole b hb hb' := ht.whole b hb <| by
    by_cases hbx : b = x
    · rw [hbx] at hb' ⊢
      exact hx.elim (fun hx => hx ▸ hb') .inr
    · exact .inl hbx
  waits := ht.waits

theorem Sound.sqlite3PagerWrite (h : Sound k G x s) (ht : Together k x s) (hx : x = 0 ∨ x = p)
    (hc : ∃ c, s.cache p = some c) :
    Sound k (G ∪ grown s (s.sqlite3PagerWrite k p)) 0 (s.sqlite3PagerWrite k p)
      ∧ (s.dbOrigSize ≤ s.dbSize → Together k 0 (s.sqlite3PagerWrite k p))
      ∧ Prepares p s (s.sqlite3PagerWrite k p) := by
  obtain ⟨c, hc⟩ := hc
  have hv := h.valid p c hc
  unfold FilePager.sqlite3PagerWrite
  split_ifs with hw hk
  · obtain ⟨b, hb, hbw⟩ := has_iff.1 hw.1
    obtain ⟨hd, -, hj⟩ := h.writeable p b hb hbw
    have h1 := (h.subjournalPageIfRequired hd hj).mono
      (Set.subset_union_left (t := grown s (s.subjournalPageIfRequired p)))
    have ht' := ht.settle (hx.imp_right fun he => by rw [he]; exact hw.1)
    obtain ⟨ss, l, he⟩ := s.subjournalPageIfRequired_frame (p := p)
    rw [he] at h1 ⊢
    refine ⟨h1.settle (hx.imp_right fun he => by rw [he]; exact hd), fun _ => ⟨ht'.whole, ht'.waits⟩, hd, rfl,
      (Nat.max_eq_left hw.2).symm, rfl, rfl, rfl, fun _ _ => rfl, fun _ => id⟩
  · exact h.writeLargeSector ht hx hk hv
  · have hW := h.pageWritten (p := p)
    have hJ := h.journals hv
    have h1 := h.getWrite hv
    rw [getPage_of_some hc] at hJ h1
    have hd : p ∈ (s.pagerWrite p).pDirty := (hW.dirty p).2 (.inl rfl)
    have hself : ∀ {a b}, SameSector k a b → a = b := fun hs => hs.elim id fun hs => absurd hs.1 hk
    refine ⟨h1.settle (hx.imp_right fun he => by rw [he]; exact hd),
      fun _ => ⟨fun b hb _ q _ _ hs => ?_, fun b hb q _ _ hs => ?_⟩, hd,
      hJ.dbOrigSize, hW.dbSize, hJ.file, hJ.fileSize, hJ.dbFileSize, hJ.content, hJ.dontWrite⟩
    · exact hself hs ▸ hb
    · exact hself hs ▸ hb

theorem getNoContent_eq_some : (s.getNoContent p).cache q = some c ↔ q ≠ p ∧ s.cache q = some c ∨
    q = p ∧ { (s.cache p).getD { data := 0 } with data := 0 } = c := by
  unfold FilePager.getNoContent
  by_cases h : q = p
  · subst h
    simp [FilePager.addToSavepointBitvecs]
  · simp [FilePager.addToSavepointBitvecs, h]

theorem getNoContent_has {f : CachePage → Bool} (hf : ∀ a, f { data := a } = false)
    (hd : ∀ c a, f { c with data := a } = f c) : (s.getNoContent p).has f q = s.has f q := by
  rw [Bool.eq_iff_iff, has_iff, has_iff]
  by_cases h : q = p
  · subst h
    simp only [getNoContent_eq_some, ne_eq, not_true, false_and, true_and, false_or, exists_eq_left', hd]
    cases s.cache q with
    | none => simp [hf]
    | some c => simp
  · simp [getNoContent_eq_some, h]

theorem mem_pInJournal_getNoContent : q ∈ (s.getNoContent p).pInJournal ↔
    q ∈ s.pInJournal ∨ q = p ∧ p ≤ s.dbOrigSize ∧ s.eState ≠ .locked := by
  unfold FilePager.getNoContent FilePager.addToSavepointBitvecs
  by_cases h : p ≤ s.dbOrigSize ∧ s.eState ≠ .locked
  · simp [h.1, h.2, or_comm]
  · simp only [if_neg h]
    tauto

theorem Sound.pos_of_record (h : Sound k G x s) (hq : q ∈ s.pInJournal ∨ q ∈ s.sjfd.map Prod.fst) : 0 < q := by
  rcases hq with hq | hq
  · exact (h.inJournal q hq).2.1
  · obtain ⟨r, hr, rfl⟩ := List.mem_map.1 hq
    exact (h.subIn r hr).elim (fun hr => (h.inJournal _ hr).2.1) fun hr => (Nat.zero_le _).trans_lt hr

/-- The content of a page is waived. -/
theorem Sound.getNoContent (h : Sound k G 0 s) (hv : k.Valid p) : Sound k (G ∪ {p}) p (s.getNoContent p) where
  live := h.live
  size := h.size
  beyond := h.beyond
  savedLe := (h.addToSavepointBitvecs (p := p)).savedLe
  valid q c hc := by
    rcases getNoContent_eq_some.1 hc with ⟨-, hc⟩ | ⟨rfl, -⟩
    · exact h.valid q c hc
    · exact hv
  cached q hq := by
    obtain ⟨c, hc⟩ := h.cached q hq
    by_cases hqp : q = p
    · exact ⟨_, getNoContent_eq_some.2 (.inr ⟨hqp, rfl⟩)⟩
    · exact ⟨c, getNoContent_eq_some.2 (.inl ⟨hqp, hc⟩)⟩
  clean q c hc hle hd hw hg := by
    rcases getNoContent_eq_some.1 hc with ⟨-, hc⟩ | ⟨rfl, -⟩
    · exact h.clean q c hc hle hd hw fun hg' => hg (.inl hg')
    · exact absurd (.inr rfl) hg
  needSync q c hc hn := by
    obtain ⟨b, hb, hn⟩ := has_iff.1 <| getNoContent_has (s := s) (p := p) (q := q) (f := (·.needSync))
      (fun _ => rfl) (fun _ _ => rfl) ▸ has_iff.2 ⟨c, hc, hn⟩
    exact h.needSync q b hb hn
  writeable q c hc hw := by
    rcases getNoContent_eq_some.1 hc with ⟨-, hc⟩ | ⟨rfl, hc⟩
    · obtain ⟨hd, hn, hj⟩ := h.writeable q c hc hw
      exact ⟨hd, hn, fun hle => mem_pInJournal_getNoContent.2 (.inl (hj hle))⟩
    · cases hq : s.cache q with
      | none =>
        rw [← hc, hq] at hw
        cases hw
      | some b =>
        rw [hq, Option.getD_some] at hc
        subst hc
        obtain ⟨hd, hn, hj⟩ := h.writeable q b hq hw
        exact ⟨hd, hn, fun hle => mem_pInJournal_getNoContent.2 (.inl (hj hle))⟩
  recorded he q hq hr := by
    have hr' : q ∈ s.pInJournal ∨ q ∈ s.sjfd.map Prod.fst :=
      hr.imp_left fun hr => (mem_pInJournal_getNoContent.1 hr).resolve_right fun hr => hq hr.1
    refine h.recorded he q (h.pos_of_record hr').ne' hr'
  mainIn r hr := mem_pInJournal_getNoContent.2 (.inl (h.mainIn r hr))
  subIn r hr := (h.subIn r hr).imp_left fun hr => mem_pInJournal_getNoContent.2 (.inl hr)
  unsynced hk i r hr hi := by
    obtain ⟨c, hc, hn⟩ := h.unsynced hk i r hr hi
    exact has_iff.1 <| getNoContent_has (s := s) (p := p) (q := r.1) (f := (·.needSync))
      (fun _ => rfl) (fun _ _ => rfl) ▸ has_iff.2 ⟨c, hc, hn⟩
  quiet he := by
    obtain ⟨hd, hj, hm, hs⟩ := h.quiet he
    refine ⟨hd, List.eq_nil_iff_forall_not_mem.2 fun q hq => ?_, hm, hs⟩
    rcases mem_pInJournal_getNoContent.1 hq with hq | hq
    · rw [hj] at hq
      cases hq
    · exact hq.2.2 he
  inJournal q hq := by
    rcases mem_pInJournal_getNoContent.1 hq with hq | ⟨rfl, hle, -⟩
    · exact h.inJournal q hq
    · exact ⟨hle, hv⟩

theorem Together.getNoContent (ht : Together k 0 s) (h : Sound k G 0 s) : Together k p (s.getNoContent p) where
  whole b hb hb' q hq hle hs := by
    have hbJ : b ∈ s.pInJournal := by
      rcases mem_pInJournal_getNoContent.1 hb with hb | ⟨rfl, hle, -⟩
      · exact hb
      · rw [getNoContent_has (f := (·.writeable)) (fun _ => rfl) fun _ _ => rfl] at hb'
        obtain ⟨c, hc, hw⟩ := has_iff.1 (hb'.resolve_left fun hb => hb rfl)
        exact (h.writeable b c hc hw).2.2 hle
    have hb0 : b ≠ 0 := (h.inJournal b hbJ).2.1.ne'
    exact mem_pInJournal_getNoContent.2 (.inl (ht.whole b hbJ (.inl hb0) q hq hle hs))
  waits r hr q hq hle hs := by
    rw [getNoContent_has (f := (·.needSync)) (fun _ => rfl) fun _ _ => rfl] at hr ⊢
    exact ht.waits r hr q hq hle hs

theorem Sound.dontWrite (h : Sound k G x s) : Sound k G x (s.sqlite3PagerDontWrite p) := by
  unfold sqlite3PagerDontWrite
  split_ifs with hd
  · exact h.mapPage hd.1 (fun _ hn => hn) fun c _ hw => by cases hw
  · exact h

theorem Sound.evict (h : Sound k G x s) (hp : p ∉ s.pDirty) : Sound k G x (s.evict p) := by
  have hsome : ∀ {q c}, (s.evict p).cache q = some c ↔ q ≠ p ∧ s.cache q = some c := fun {q c} => by
    by_cases hq : q = p
    · subst hq
      simp [FilePager.evict]
    · simp [FilePager.evict, hq]
  exact { h with
    valid := fun q c hc => h.valid q c (hsome.1 hc).2
    cached := fun q hq => (h.cached q hq).imp fun c hc => hsome.2 ⟨fun he => hp (he ▸ hq), hc⟩
    clean := fun q c hc => h.clean q c (hsome.1 hc).2
    needSync := fun q c hc => h.needSync q c (hsome.1 hc).2
    writeable := fun q c hc => h.writeable q c (hsome.1 hc).2
    unsynced := fun hk i r hr hi => by
      obtain ⟨c, hc, hn⟩ := h.unsynced hk i r hr hi
      exact ⟨c, hsome.2 ⟨fun he => hp (he ▸ h.needSync r.1 c hc hn), hc⟩, hn⟩ }

theorem evict_has {flag : CachePage → Bool} :
    (s.evict p).has flag q = true ↔ q ≠ p ∧ s.has flag q = true := by
  by_cases hq : q = p
  · subst hq
    simp [FilePager.evict, has]
  · simp [FilePager.evict, has, hq]

theorem Sound.mem_dirty_of_has (h : Sound k G x s) (hn : s.has (·.needSync) q = true) : q ∈ s.pDirty := by
  obtain ⟨c, hc, hn⟩ := has_iff.1 hn
  exact h.needSync q c hc hn

theorem Together.evict (ht : Together k 0 s) (h : Sound k G 0 s) (hp : p ∉ s.pDirty) :
    Together k 0 (s.evict p) where
  whole b hb _ := ht.whole b hb (.inl (h.inJournal b hb).2.1.ne')
  waits r hr q hq hle hs := by
    rw [evict_has] at hr ⊢
    have hn := ht.waits r hr.2 q hq hle hs
    exact ⟨fun he => hp (he ▸ h.mem_dirty_of_has hn), hn⟩

/-! ## The file -/

theorem Sound.ne_locked (h : Sound k G x s) (hp : p ∈ s.pDirty) : s.eState ≠ .locked := fun he => by
  rw [(h.quiet he).1] at hp
  cases hp

theorem syncJournal_eq_some : (s.syncJournal k).cache q = some c ↔
    ∃ b, s.cache q = some b ∧ c = if q ∈ s.pDirty then { b with needSync := false } else b := by
  simp only [FilePager.syncJournal, clearSyncFlags]
  split_ifs
  · rw [Option.map_eq_some_iff]
    exact exists_congr fun b => and_congr_right fun _ => eq_comm
  · simp

theorem Sound.not_needSync (h : Sound k G x s) : ¬ (s.syncJournal k).has (·.needSync) q = true := fun hn => by
  obtain ⟨c, hc, hn⟩ := has_iff.1 hn
  obtain ⟨b, hb, rfl⟩ := syncJournal_eq_some.1 hc
  split_ifs at hn with hd
  exact hd (h.needSync q b hb hn)

theorem Sound.syncJournal (h : Sound k G x s) : Sound k G x (s.syncJournal k) :=
  { h with
    live := .inr (.inr rfl)
    valid := fun q c hc => by
      obtain ⟨b, hb, -⟩ := syncJournal_eq_some.1 hc
      exact h.valid q b hb
    cached := fun q hq => by
      obtain ⟨c, hc⟩ := h.cached q hq
      exact ⟨_, syncJournal_eq_some.2 ⟨c, hc, rfl⟩⟩
    clean := fun q c hc hle hd hw hg => by
      obtain ⟨b, hb, rfl⟩ := syncJournal_eq_some.1 hc
      have hd' : q ∉ s.pDirty := hd
      rw [if_neg hd'] at hw ⊢
      exact h.clean q b hb hle hd hw hg
    needSync := fun q c hc hn => absurd (has_iff.2 ⟨c, hc, hn⟩) h.not_needSync
    writeable := fun q c hc hw => by
      obtain ⟨b, hb, rfl⟩ := syncJournal_eq_some.1 hc
      split_ifs at hw ⊢
      · exact h.writeable q b hb hw
      · exact h.writeable q b hb hw
    recorded := fun he => by cases he
    unsynced := fun hk i r hr hi => by
      simp only [FilePager.syncJournal, hk, Bool.false_eq_true, if_false] at hi
      have := (List.getElem?_eq_some_iff.1 hr).1
      exact absurd this (Nat.not_lt.2 hi)
    quiet := fun he => by cases he }

theorem Together.syncJournal (ht : Together k 0 s) (h : Sound k G 0 s) : Together k 0 (s.syncJournal k) where
  whole b hb _ := ht.whole b hb (.inl (h.inJournal b hb).2.1.ne')
  waits _ hr := absurd hr h.not_needSync

/-- A page is written into the file, with the same content in the cache. -/
theorem Sound.restore (h : Sound k G x s) {a : PageImage} {v : ℕ} :
    Sound k G x { (s.osWrite p a).setData p a with dbFileVers := v } where
  live := h.live
  size := by
    have := h.size
    simp [FilePager.setData, FilePager.mapPage, osWrite, this]
  beyond q hq := by
    have h1 : s.fileSize < q := (Nat.le_max_left _ _).trans_lt hq
    have hne : q ≠ p := ((Nat.le_max_right _ _).trans_lt hq).ne'
    simpa [FilePager.setData, FilePager.mapPage, osWrite, hne] using h.beyond q h1
  savedLe := h.savedLe
  valid q c hc := by
    rcases mapPage_eq_some.1 hc with ⟨-, hc⟩ | ⟨rfl, b, hb, -⟩
    · exact h.valid q c hc
    · exact h.valid q b hb
  cached q hq := exists_mapPage (s := s.osWrite p a) (h.cached q hq)
  clean q c hc hle hd hn hg := by
    rcases mapPage_eq_some.1 hc with ⟨hqp, hc⟩ | ⟨rfl, b, -, rfl⟩
    · simpa [FilePager.setData, FilePager.mapPage, osWrite, hqp] using h.clean q c hc hle hd hn hg
    · simp [FilePager.setData, FilePager.mapPage, osWrite]
  needSync q c hc hn := by
    rcases mapPage_eq_some.1 hc with ⟨-, hc⟩ | ⟨rfl, b, hb, rfl⟩
    · exact h.needSync q c hc hn
    · exact h.needSync q b hb hn
  writeable q c hc hn := by
    rcases mapPage_eq_some.1 hc with ⟨-, hc⟩ | ⟨rfl, b, hb, rfl⟩
    · exact h.writeable q c hc hn
    · exact h.writeable q b hb hn
  recorded := h.recorded
  mainIn := h.mainIn
  subIn := h.subIn
  unsynced hk i r hr hi := by
    obtain ⟨c, hc, hn⟩ := h.unsynced hk i r hr hi
    by_cases he : r.1 = p
    · exact ⟨{ c with data := a }, mapPage_eq_some.2 (.inr ⟨he, c, he ▸ hc, rfl⟩), hn⟩
    · exact ⟨c, mapPage_eq_some.2 (.inl ⟨he, hc⟩), hn⟩
  quiet := h.quiet
  inJournal := h.inJournal

theorem mapPage_has {flag : CachePage → Bool} {f : CachePage → CachePage} (hf : ∀ c, flag (f c) = flag c) :
    (s.mapPage p f).has flag q = s.has flag q := by
  by_cases h : q = p
  · subst h
    cases hq : s.cache q <;> simp [has, FilePager.mapPage, hq, hf]
  · simp [has, FilePager.mapPage, h]

theorem setData_has {flag : CachePage → Bool} {a : PageImage} (hd : ∀ c a, flag { c with data := a } = flag c) :
    (s.setData p a).has flag q = s.has flag q := mapPage_has fun c => hd c a

theorem data_of_some (hc : s.cache p = some c) : s.data p = c.data := by simp [data, hc]

/-- A page that is written is left in the cache as the file has it. -/
theorem writePage_eq (hc : s.cache p = some c) (hw : p ≤ s.dbSize ∧ ¬ s.has (·.dontWrite) p) :
    ∃ a v, s.writePage p = { (s.osWrite p a).setData p a with dbFileVers := v } ∧
      ∀ j, p ≠ 1 ∨ ¬ PageImage.Counter j → a j = c.data j := by
  unfold writePage
  rw [if_pos hw]
  split_ifs with hp
  · subst hp
    obtain ⟨a, ha⟩ : ∃ a, a =
      ((c.data.put32bits 24 (s.dbFileVers + 1)).put32bits 92 (s.dbFileVers + 1)).put32bits 96 3054000 :=
      ⟨_, rfl⟩
    have hs : s.pagerWriteChangecounter = s.setData 1 a := by
      simp [pagerWriteChangecounter, FilePager.mapPage, FilePager.setData, hc, ha]
    have hd : (s.setData 1 a).data 1 = a := by simp [data, FilePager.mapPage, FilePager.setData, hc]
    refine ⟨a, a.get4byte 24, ?_, fun j hj => ?_⟩
    · rw [hs]
      simp only [hd]
      rfl
    · have hj' := hj.resolve_left fun h => h rfl
      simp only [PageImage.Counter] at hj'
      simp only [ha, PageImage.put32bits]
      split_ifs <;> first | rfl | omega
  · refine ⟨c.data, s.dbFileVers, ?_, fun _ _ => rfl⟩
    have he : (s.osWrite p c.data).setData p c.data = s.osWrite p c.data := by
      simp [FilePager.setData, FilePager.mapPage, osWrite, hc, update_eq_self_iff]
    rw [data_of_some hc, he]
    rfl

theorem makeClean_eq_some : (s.makeClean p).cache q = some c ↔
    q ≠ p ∧ s.cache q = some c ∨
      q = p ∧ ∃ b, s.cache p = some b ∧ { b with needSync := false, writeable := false } = c :=
  mapPage_eq_some

theorem mem_makeClean : q ∈ (s.makeClean p).pDirty ↔ q ∈ s.pDirty ∧ q ≠ p := by
  simp [FilePager.makeClean, List.mem_filter]

theorem Sound.makeClean (h : Sound k G x s) (he : s.eState = .dbmod) (hn : ¬ s.has (·.needSync) p = true)
    (hp : ∀ c, s.cache p = some c → p ≤ s.dbSize → c.dontWrite = false → c.data = s.file p) :
    Sound k G x (s.makeClean p) :=
  { h with
    valid := fun q c hc => by
      rcases makeClean_eq_some.1 hc with ⟨-, hc⟩ | ⟨rfl, b, hb, -⟩
      · exact h.valid q c hc
      · exact h.valid q b hb
    cached := fun q hq => exists_mapPage (h.cached q (mem_makeClean.1 hq).1)
    clean := fun q c hc hle hd hw hg => by
      rcases makeClean_eq_some.1 hc with ⟨hqp, hc⟩ | ⟨rfl, b, hb, rfl⟩
      · exact h.clean q c hc hle (fun hq => hd (mem_makeClean.2 ⟨hq, hqp⟩)) hw hg
      · exact hp b hb hle hw
    needSync := fun q c hc hs => by
      rcases makeClean_eq_some.1 hc with ⟨hqp, hc⟩ | ⟨-, b, -, rfl⟩
      · exact mem_makeClean.2 ⟨h.needSync q c hc hs, hqp⟩
      · cases hs
    writeable := fun q c hc hw => by
      rcases makeClean_eq_some.1 hc with ⟨hqp, hc⟩ | ⟨-, b, -, rfl⟩
      · have hq := h.writeable q c hc hw
        exact ⟨mem_makeClean.2 ⟨hq.1, hqp⟩, hq.2⟩
      · cases hw
    recorded := fun he' => by
      have he'' : s.eState = .cachemod := he'
      rw [he] at he''
      cases he''
    unsynced := fun hk i r hr hi => by
      obtain ⟨c, hc, hs⟩ := h.unsynced hk i r hr hi
      refine ⟨c, makeClean_eq_some.2 (.inl ⟨fun hrp => hn ?_, hc⟩), hs⟩
      rw [← hrp]
      exact has_iff.2 ⟨c, hc, hs⟩
    quiet := fun he' => by
      have he'' : s.eState = .locked := he'
      rw [he] at he''
      cases he'' }

theorem makeClean_has (hn : ¬ s.has (·.needSync) p = true) :
    (s.makeClean p).has (·.needSync) q = s.has (·.needSync) q := by
  by_cases hq : q = p
  · subst hq
    rw [Bool.not_eq_true] at hn
    rw [hn]
    cases hc : s.cache q <;> simp [has, FilePager.makeClean, FilePager.mapPage, hc]
  · simp [has, FilePager.makeClean, FilePager.mapPage, hq]

theorem Together.congr {s' : FilePager} (ht : Together k 0 s) (h : Sound k G x s)
    (hj : s'.pInJournal = s.pInJournal)
    (ho : s'.dbOrigSize = s.dbOrigSize) (hs : ∀ q, s'.has (·.needSync) q = s.has (·.needSync) q) :
    Together k 0 s' where
  whole b hb _ := by
    rw [hj] at hb ⊢
    rw [ho]
    exact ht.whole b hb (.inl (h.inJournal b hb).2.1.ne')
  waits r hr q hq hle hsame := by
    rw [hs] at hr ⊢
    exact ht.waits r hr q hq (ho ▸ hle) hsame

/-- The page is in the cache as the file has it, unless it is not to be written. -/
def AsFile (s : FilePager) (p : ℕ) : Prop :=
  ∀ c, s.cache p = some c → p ≤ s.dbSize → c.dontWrite = false → c.data = s.file p

theorem Sound.writePage (h : Sound k G x s) (hp : p ∈ s.pDirty) : Sound k G x (s.writePage p) ∧
    AsFile (s.writePage p) p ∧ (s.writePage p).eState = s.eState ∧ (s.writePage p).pInJournal = s.pInJournal ∧
    (s.writePage p).dbOrigSize = s.dbOrigSize ∧
    ∀ q, (s.writePage p).has (·.needSync) q = s.has (·.needSync) q := by
  obtain ⟨c, hc⟩ := h.cached p hp
  by_cases hw : p ≤ s.dbSize ∧ ¬ s.has (·.dontWrite) p
  · obtain ⟨a, v, he, -⟩ := writePage_eq hc hw
    rw [he]
    refine ⟨h.restore, fun b hb _ _ => ?_, rfl, rfl, rfl,
      fun q => setData_has (s := s.osWrite p a) fun _ _ => rfl⟩
    rcases mapPage_eq_some.1 hb with ⟨hn, -⟩ | ⟨-, b, -, rfl⟩
    · exact absurd rfl hn
    · simp [FilePager.setData, FilePager.mapPage, osWrite]
  · have he : s.writePage p = s := by
      unfold FilePager.writePage
      rw [if_neg hw]
    rw [he]
    refine ⟨h, fun b hb hle hn => absurd ⟨hle, fun hd => ?_⟩ hw, rfl, rfl, rfl, fun _ => rfl⟩
    obtain ⟨b', hb', hd⟩ := has_iff.1 hd
    rw [hb] at hb'
    obtain rfl := Option.some.inj hb'
    rw [hn] at hd
    cases hd

theorem Sound.pagerStress (h : Sound k G 0 s) (ht : Together k 0 s) (hp : p ∈ s.pDirty) :
    Sound k G 0 (s.pagerStress k p) ∧ Together k 0 (s.pagerStress k p) := by
  have key : ∀ {s : FilePager}, Sound k G 0 s → Together k 0 s → p ∈ s.pDirty → s.eState = .dbmod →
      ¬ s.has (·.needSync) p = true → Sound k G 0 ((s.pagerWritePagelist [p]).makeClean p) ∧
        Together k 0 ((s.pagerWritePagelist [p]).makeClean p) := fun {s} h ht hp he hn => by
    simp only [pagerWritePagelist, List.foldl_cons, List.foldl_nil]
    obtain ⟨h1, hfile, he1, hj, ho, hs⟩ := h.writePage hp
    have hn1 : ¬ (s.writePage p).has (·.needSync) p = true := by rwa [hs]
    refine ⟨h1.makeClean (he1.trans he) hn1 hfile, ht.congr h hj ho fun q => ?_⟩
    rw [makeClean_has hn1, hs]
  unfold FilePager.pagerStress
  split_ifs with hsync
  · exact key h.syncJournal (ht.syncJournal h) hp rfl h.not_needSync
  · rw [not_or] at hsync
    have he : s.eState = .dbmod := by
      rcases h.live with he | he | he
      · exact absurd he (h.ne_locked hp)
      · exact absurd he hsync.2
      · exact he
    exact key h ht hp he hsync.1

/-! ## Savepoints -/

theorem Sound.openSavepoint (h : Sound k G x s) (ho : s.dbOrigSize ≤ s.dbSize) (n : ℕ) :
    Sound k G x (s.openSavepoint n) :=
  { h with
    savedLe := fun sp hsp => by
      rcases List.mem_append.1 hsp with hsp | hsp
      · exact h.savedLe sp hsp
      · rw [List.eq_of_mem_replicate hsp]
        exact ho }

theorem Sound.setVers (h : Sound k G x s) (v : ℕ) : Sound k G x { s with dbFileVers := v } := { h with }

/-- A record that is not written into the file belongs to a dirty page. -/
theorem Sound.dirty_of_record (h : Sound k G 0 s) {i : Option ℕ} {a : PageImage}
    (hi : ∀ j, i = some j → s.jfd[j]? = some (p, a)) (hn : i = none → p ∈ s.sjfd.map Prod.fst)
    (hw : ¬ ((s.eState = .dbmod ∨ s.eState = .finished) ∧ s.isSynced k p i = true)) : p ∈ s.pDirty := by
  have hr : p ∈ s.pInJournal ∨ p ∈ s.sjfd.map Prod.fst := by
    cases i with
    | none => exact .inr (hn rfl)
    | some j => exact .inl (h.mainIn _ (List.mem_of_getElem? (hi j rfl)))
  rcases h.live with he | he | he
  · obtain ⟨-, hj, -, hs⟩ := h.quiet he
    simp [hj, hs] at hr
  · exact h.recorded he p (h.pos_of_record hr).ne' hr
  · have hs : ¬ s.isSynced k p i = true := fun hs => hw ⟨.inl he, hs⟩
    cases i with
    | none =>
      simp only [isSynced, Bool.not_eq_true', Bool.not_eq_false] at hs
      exact h.mem_dirty_of_has hs
    | some j =>
      simp only [isSynced, Bool.or_eq_true, decide_eq_true_eq, not_or, Bool.not_eq_true, Nat.not_lt] at hs
      exact h.mem_dirty_of_has (has_iff.2 (h.unsynced hs.1 j _ (hi j rfl) hs.2))

theorem Sound.playbackTarget (h : Sound k G 0 s) (ht : Together k 0 s) {i : Option ℕ} {a : PageImage} {v : ℕ}
    (hi : ∀ j, i = some j → s.jfd[j]? = some (p, a)) (hn : i = none → p ∈ s.sjfd.map Prod.fst) :
    Sound k G 0 { (s.playbackTarget k p i a).setData p a with dbFileVers := v } ∧
      Together k 0 { (s.playbackTarget k p i a).setData p a with dbFileVers := v } := by
  unfold FilePager.playbackTarget
  split_ifs with hw hc
  · exact ⟨h.restore, ht.congr h rfl rfl fun q => setData_has (s := s.osWrite p a) fun _ _ => rfl⟩
  · obtain ⟨c, hc'⟩ := h.cached p (h.dirty_of_record hi hn hw)
    rw [hc.2] at hc'
    cases hc'
  · exact ⟨(h.setData (h.dirty_of_record hi hn hw) a).setVers v,
      ht.congr h rfl rfl fun q => setData_has fun _ _ => rfl⟩

/-- What a rollback leaves of the journals, so that the records that are left are played back too. -/
structure SameJournals (s s' : FilePager) : Prop where
  dbSize : s'.dbSize = s.dbSize
  dbOrigSize : s'.dbOrigSize = s.dbOrigSize
  eState : s'.eState = s.eState
  jfd : s'.jfd = s.jfd
  sjfd : s'.sjfd = s.sjfd

theorem SameJournals.trans {s₁ s' : FilePager} (h : SameJournals s s₁) (h' : SameJournals s₁ s') :
    SameJournals s s' :=
  ⟨h'.1.trans h.1, h'.2.trans h.2, h'.3.trans h.3, h'.4.trans h.4, h'.5.trans h.5⟩

theorem playbackTarget_journals {i : Option ℕ} {a : PageImage} : SameJournals s (s.playbackTarget k p i a) := by
  unfold FilePager.playbackTarget FilePager.getNoContent
  split_ifs <;> exact ⟨rfl, rfl, rfl, rfl, rfl⟩

/-- The record is one of the journals' own. -/
def IsRecord (s : FilePager) (r : Option ℕ × ℕ × PageImage) : Prop :=
  (∀ j, r.1 = some j → s.jfd[j]? = some r.2) ∧ (r.1 = none → r.2 ∈ s.sjfd)

theorem Sound.playbackOnePage (h : Sound k G 0 s) (ht : Together k 0 s) {i : Option ℕ} {r : ℕ × PageImage}
    {d : Option (List ℕ)} (hr : IsRecord s (i, r)) :
    Sound k G 0 (s.pagerPlaybackOnePage k i r d).1 ∧ Together k 0 (s.pagerPlaybackOnePage k i r d).1 ∧
      SameJournals s (s.pagerPlaybackOnePage k i r d).1 := by
  unfold pagerPlaybackOnePage
  by_cases hskip : s.dbSize < r.1 ∨ r.1 ∈ d.getD []
  · rw [if_pos hskip]
    exact ⟨h, ht, rfl, rfl, rfl, rfl, rfl⟩
  · rw [if_neg hskip]
    have hJ := playbackTarget_journals (k := k) (s := s) (p := r.1) (i := i) (a := r.2)
    obtain ⟨h1, ht1⟩ := h.playbackTarget ht hr.1 fun hi => List.mem_map_of_mem (hr.2 hi)
    exact ⟨h1, ht1, hJ.dbSize, hJ.dbOrigSize, hJ.eState, hJ.jfd, hJ.sjfd⟩

theorem Sound.playback : ∀ {l : List (Option ℕ × ℕ × PageImage)} {s : FilePager} {d : Option (List ℕ)},
    Sound k G 0 s → Together k 0 s → (∀ r ∈ l, IsRecord s r) →
    Sound k G 0 (playback k l s d) ∧ Together k 0 (playback k l s d) ∧
      SameJournals s (playback k l s d)
  | [], s, d, h, ht, _ => ⟨h, ht, rfl, rfl, rfl, rfl, rfl⟩
  | (i, r) :: rs, s, d, h, ht, hrs => by
    obtain ⟨h1, ht1, hJ⟩ := h.playbackOnePage (d := d) ht (hrs _ List.mem_cons_self)
    obtain ⟨h2, ht2, hJ'⟩ := Sound.playback (l := rs) (d := (s.pagerPlaybackOnePage k i r d).2) h1 ht1
      fun r' hr' => by
        obtain ⟨hi', hn'⟩ := hrs r' (List.mem_cons_of_mem _ hr')
        exact ⟨fun j hj => (congrArg (·[j]?) hJ.jfd).trans (hi' j hj), fun hj => hJ.sjfd ▸ hn' hj⟩
    exact ⟨h2, ht2, hJ.trans hJ'⟩

theorem isRecord_main {s : FilePager} {i : ℕ} {r : Option ℕ × ℕ × PageImage} (hr : r ∈ s.mainRecords i) :
    IsRecord s r := by
  obtain ⟨a, ha, rfl⟩ := List.mem_map.1 hr
  have hm := List.mem_zipIdx' (List.mem_of_mem_drop ha)
  refine ⟨fun j hj => ?_, fun hn => ?_⟩
  · obtain rfl := Option.some.inj hj
    rw [hm.2]
    exact List.getElem?_eq_getElem hm.1
  · cases hn

theorem isRecord_sub {s : FilePager} {i : ℕ} {r : Option ℕ × ℕ × PageImage} (hr : r ∈ s.subRecords i) :
    IsRecord s r := by
  obtain ⟨a, ha, rfl⟩ := List.mem_map.1 hr
  refine ⟨fun j hj => ?_, fun _ => List.mem_of_mem_drop ha⟩
  cases hj

theorem Sound.playbackSavepoint (h : Sound k G 0 s) (ht : Together k 0 s) {o : Option Savepoint}
    (hsp : ∀ sp, o = some sp → s.dbOrigSize ≤ sp.nOrig) :
    Sound k (G ∪ grown s (s.pagerPlaybackSavepoint k o)) 0 (s.pagerPlaybackSavepoint k o) ∧
      Together k 0 (s.pagerPlaybackSavepoint k o) ∧
      (s.pagerPlaybackSavepoint k o).dbOrigSize ≤ (s.pagerPlaybackSavepoint k o).dbSize ∧
      (s.pagerPlaybackSavepoint k o).eState = s.eState := by
  cases o with
  | none =>
    obtain ⟨h1, ht1, hd, ho, he, -⟩ := Sound.playback (d := none) (h.resize (n := s.dbOrigSize) (b := false))
      (ht.congr h rfl rfl fun _ => rfl) fun r hr => isRecord_main hr
    refine ⟨h1.mono (Set.union_subset_union_right _ fun q hq => ⟨hq.1, hq.2.trans_eq hd.symm⟩), ht1, ?_, he⟩
    exact (ho.trans hd.symm).le
  | some sp =>
    obtain ⟨h1, ht1, hd, ho, he, -⟩ := Sound.playback (d := some []) (h.resize (n := sp.nOrig) (b := false))
      (ht.congr h rfl rfl fun _ => rfl)
      (l := s.mainRecords sp.iOffset ++ s.subRecords sp.iSubRec) fun r hr =>
        (List.mem_append.1 hr).elim (fun hr => isRecord_main hr) fun hr => isRecord_sub hr
    refine ⟨h1.mono (Set.union_subset_union_right _ fun q hq => ⟨hq.1, hq.2.trans_eq hd.symm⟩), ht1, ?_, he⟩
    exact (ho.trans_le (hsp sp rfl)).trans_eq hd.symm

theorem Sound.takeSavepoints (h : Sound k G x s) {l : List Savepoint} (hl : l ⊆ s.savepoints) :
    Sound k G x { s with savepoints := l } := { h with savedLe := fun sp hsp => h.savedLe sp (hl hsp) }

theorem Sound.takeSubrecords (h : Sound k G x s) {l : List (ℕ × PageImage)} (hl : l ⊆ s.sjfd) :
    Sound k G x { s with sjfd := l } :=
  { h with
    recorded := fun he q hq hr => h.recorded he q hq (hr.imp_right fun hr => List.map_subset _ hl hr)
    subIn := fun r hr => h.subIn r (hl hr)
    quiet := fun he => by
      obtain ⟨h1, h2, h3, h4⟩ := h.quiet he
      exact ⟨h1, h2, h3, List.subset_nil.1 (h4 ▸ hl)⟩ }

/-- What holds between two calls of a transaction whose image was not truncated. -/
structure Consistent (k : Settings) (G : Set ℕ) (s : FilePager) : Prop where
  sound : Sound k G 0 s
  together : Together k 0 s
  origLe : s.dbOrigSize ≤ s.dbSize

theorem Consistent.savepoint (hC : Consistent k G s) (o : Pager.SavepointOp) (i : Option ℕ) :
    Consistent k (G ∪ grown s (s.sqlite3PagerSavepoint k o i)) (s.sqlite3PagerSavepoint k o i) := by
  obtain ⟨h, ht, ho⟩ := hC
  have hstay : ∀ {s' : FilePager}, Sound k G 0 s' → Together k 0 s' → s'.dbOrigSize ≤ s'.dbSize →
      Consistent k (G ∪ grown s s') s' := fun h' ht' ho' => ⟨h'.mono Set.subset_union_left, ht', ho'⟩
  have hsub : ∀ n, s.savepoints.take n ⊆ s.savepoints := fun n => List.take_subset _ _
  unfold sqlite3PagerSavepoint
  rcases o with _ | _ <;> rcases i with _ | i <;> simp only
  · exact hstay h ht ho
  · split
    · exact hstay h ht ho
    · rename_i rel _ _
      refine hstay ((h.takeSavepoints (hsub i)).takeSubrecords ?_) (ht.congr h rfl rfl fun _ => rfl) ho
      split_ifs
      · exact List.take_subset _ _
      · exact fun _ hr => hr
  · have h1 := h.takeSavepoints (List.nil_subset _)
    have ht1 : Together k 0 { s with savepoints := [] } := ht.congr h rfl rfl fun _ => rfl
    split_ifs
    · obtain ⟨h2, ht2, ho2, -⟩ := h1.playbackSavepoint (o := none) ht1 fun sp' hsp => by cases hsp
      exact ⟨h2, ht2, ho2⟩
    · exact hstay h1 ht1 ho
  · split
    · exact hstay h ht ho
    · rename_i sp _ hsp
      have h1 := h.takeSavepoints (hsub (i + 1))
      have ht1 : Together k 0 { s with savepoints := s.savepoints.take (i + 1) } :=
        ht.congr h rfl rfl fun _ => rfl
      split_ifs
      · have hm : sp ∈ s.savepoints := List.mem_of_mem_drop (i := i) (hsp ▸ List.mem_cons_self)
        obtain ⟨h2, ht2, ho2, -⟩ := h1.playbackSavepoint (o := some sp) ht1 fun sp' hsp' => by
          obtain rfl := Option.some.inj hsp'
          exact h.savedLe sp hm
        exact ⟨h2, ht2, ho2⟩
      · exact hstay h1 ht1 ho

/-! ## Exchanging page numbers -/

theorem mem_rekey {iNew : ℕ} {flags : CachePage} : q ∈ (s.sqlite3PagerRekey p iNew flags).pDirty ↔
    q ≠ p ∧ q ≠ iNew ∧ q ∈ s.pDirty ∨ q = iNew ∧ p ≠ iNew ∧ p ∈ s.pDirty := by
  simp only [sqlite3PagerRekey, List.mem_map, List.mem_filter, decide_eq_true_eq]
  constructor
  · rintro ⟨r, ⟨hr, hn⟩, rfl⟩
    split_ifs with he
    · exact .inr ⟨rfl, he ▸ hn, he ▸ hr⟩
    · exact .inl ⟨he, hn, hr⟩
  · rintro (⟨hq, hn, hr⟩ | ⟨rfl, hn, hr⟩)
    · exact ⟨q, ⟨hr, hn⟩, if_neg hq⟩
    · exact ⟨p, ⟨hr, hn⟩, if_pos rfl⟩

theorem exchange_eq {a b : ℕ} {fgA fgB : CachePage} (ha : s.cache a = some fgA) (hb : s.cache b = some fgB)
    (hab : a ≠ b) (hna : a ≠ k.sjPgno) (hnb : b ≠ k.sjPgno) (hsj : s.cache k.sjPgno = none)
    (hda : a ∈ s.pDirty) (hdb : b ∈ s.pDirty) (hds : k.sjPgno ∉ s.pDirty) :
    ∃ l, s.exchange k a b = { (s.setData a fgB.data).setData b fgA.data with pDirty := l } ∧
      ∀ q, q ∈ l ↔ q ∈ s.pDirty := by
  obtain ⟨t, ht⟩ : ∃ t, t = ((s.sqlite3PagerRekey a k.sjPgno fgB).sqlite3PagerRekey b a fgA).sqlite3PagerRekey
    k.sjPgno b fgB := ⟨_, rfl⟩
  have hc : t.cache = ((s.setData a fgB.data).setData b fgA.data).cache := by
    funext q
    rw [ht]
    simp only [sqlite3PagerRekey, FilePager.setData, FilePager.mapPage, update_apply]
    split_ifs <;> simp_all
  refine ⟨t.pDirty, ?_, fun q => ?_⟩
  · unfold exchange
    simp only [ha, hb]
    rw [← ht]
    calc t = { s with cache := t.cache, pDirty := t.pDirty } := by rw [ht]; rfl
      _ = _ := by rw [hc]; rfl
  · rw [ht]
    simp only [mem_rekey]
    grind

theorem Sound.exchange (h : Sound k G 0 s) (ht : Together k 0 s) {a b : ℕ} (hab : a ≠ b)
    (ha : s.has (·.writeable) a = true) (hb : s.has (·.writeable) b = true) :
    Sound k G 0 (s.exchange k a b) ∧ Together k 0 (s.exchange k a b) := by
  obtain ⟨fgA, ha, hwa⟩ := has_iff.1 ha
  obtain ⟨fgB, hb, hwb⟩ := has_iff.1 hb
  have hda := (h.writeable a fgA ha hwa).1
  have hdb := (h.writeable b fgB hb hwb).1
  have hsj : s.cache k.sjPgno = none := Option.eq_none_iff_forall_ne_some.2 fun c hc => (h.valid _ c hc).2 rfl
  have hds : k.sjPgno ∉ s.pDirty := fun hd => by
    obtain ⟨c, hc⟩ := h.cached _ hd
    exact (h.valid _ c hc).2 rfl
  obtain ⟨l, he, hl⟩ := exchange_eq ha hb hab (h.valid a fgA ha).2 (h.valid b fgB hb).2 hsj hda hdb hds
  rw [he]
  have h1 := (h.setData hda fgB.data).setData (p := b) hdb fgA.data
  refine ⟨h1.addDirty (p := a) (h.ne_locked hda) (h1.cached a hda) fun q => ?_, ht.congr h rfl rfl fun q => ?_⟩
  · rw [hl]
    exact ⟨.inr, fun hq => hq.elim (fun hq => hq ▸ hda) id⟩
  · exact (setData_has (s := s.setData a fgB.data) fun _ _ => rfl).trans (setData_has fun _ _ => rfl)

end Btreelite.FilePager
