import Btreelite.PagerFile

/-!
# What the pager's calls keep

Between two calls a clean page of the image is as the file has it, unless the image grew over it or it
is not to be written. A rollback keeps that, since a record that it does not write into the file belongs
to a page that is dirty: before the first sync every page in a journal is, and after it a page whose
record is not synced waits for the sync.

Where a sector has many pages, its pages of the original image come into the journal together, and they
wait for the sync together.
-/

namespace Btreelite.FilePager

open Function

variable {k : Settings} {G : Set ℕ} {x p q : ℕ} {s : FilePager} {c : CachePage}

/-- The numbers that `sqlite3PagerGet` takes. -/
def Settings.Valid (k : Settings) (p : ℕ) : Prop := 0 < p ∧ p ≠ k.sjPgno

/-- What holds between calls. The clean pages in `G` may differ from the file, and page `x` may count as
journalled without being dirty. -/
structure Sound (k : Settings) (G : Set ℕ) (x : ℕ) (s : FilePager) : Prop where
  live : s.eState = .locked ∨ s.eState = .cachemod ∨ s.eState = .dbmod
  size : s.fileSize = s.dbFileSize
  beyond : ∀ p, s.fileSize < p → s.file p = 0
  savedLe : ∀ sp ∈ s.savepoints, s.dbOrigSize ≤ sp.nOrig
  valid : ∀ p c, s.cache p = some c → k.Valid p
  cached : ∀ p ∈ s.pDirty, ∃ c, s.cache p = some c
  clean : ∀ p c, s.cache p = some c → p ≤ s.dbSize → p ∉ s.pDirty → c.dontWrite = false → p ∉ G →
    c.data = s.file p
  needSync : ∀ p c, s.cache p = some c → c.needSync = true → p ∈ s.pDirty
  writeable : ∀ p c, s.cache p = some c → c.writeable = true →
    p ∈ s.pDirty ∧ c.dontWrite = false ∧ (p ≤ s.dbOrigSize → p ∈ s.pInJournal)
  recorded : s.eState = .cachemod → ∀ p, p ≠ x → p ∈ s.pInJournal ∨ p ∈ s.sjfd.map Prod.fst → p ∈ s.pDirty
  mainIn : ∀ r ∈ s.jfd, r.1 ∈ s.pInJournal
  subIn : ∀ r ∈ s.sjfd, r.1 ∈ s.pInJournal ∨ s.dbOrigSize < r.1
  unsynced : k.noSync = false → ∀ i r, s.jfd[i]? = some r → s.journalHdr ≤ i →
    ∃ c, s.cache r.1 = some c ∧ c.needSync = true
  quiet : s.eState = .locked → s.pDirty = [] ∧ s.pInJournal = [] ∧ s.jfd = [] ∧ s.sjfd = []
  inJournal : ∀ p ∈ s.pInJournal, p ≤ s.dbOrigSize ∧ k.Valid p

/-! ## The cache -/

theorem has_iff {flag : CachePage → Bool} : s.has flag p = true ↔ ∃ c, s.cache p = some c ∧ flag c = true :=
  Option.any_eq_true _ _

theorem mapPage_eq_some {f : CachePage → CachePage} : (s.mapPage p f).cache q = some c ↔
    q ≠ p ∧ s.cache q = some c ∨ q = p ∧ ∃ b, s.cache p = some b ∧ f b = c := by
  by_cases h : q = p
  · subst h
    simp [mapPage]
  · simp [mapPage, h]

theorem exists_mapPage {f : CachePage → CachePage} (h : ∃ c, s.cache q = some c) :
    ∃ c, (s.mapPage p f).cache q = some c := by
  obtain ⟨c, hc⟩ := h
  by_cases hq : q = p
  · exact ⟨f c, mapPage_eq_some.2 (.inr ⟨hq, c, hq ▸ hc, rfl⟩)⟩
  · exact ⟨c, mapPage_eq_some.2 (.inl ⟨hq, hc⟩)⟩

/-- New flags or data for a dirty page. -/
theorem Sound.mapPage {f : CachePage → CachePage} (h : Sound k G x s) (hp : p ∈ s.pDirty)
    (hs : ∀ c, c.needSync = true → (f c).needSync = true)
    (hw : ∀ c, s.cache p = some c → (f c).writeable = true →
      (f c).dontWrite = false ∧ (p ≤ s.dbOrigSize → p ∈ s.pInJournal)) : Sound k G x (s.mapPage p f) where
  live := h.live
  size := h.size
  beyond := h.beyond
  savedLe := h.savedLe
  valid q c hc := by
    rcases mapPage_eq_some.1 hc with ⟨-, hc⟩ | ⟨rfl, b, hb, -⟩
    · exact h.valid q c hc
    · exact h.valid q b hb
  cached q hq := exists_mapPage (h.cached q hq)
  clean q c hc hle hd hn hg := by
    rcases mapPage_eq_some.1 hc with ⟨-, hc⟩ | ⟨rfl, -⟩
    · exact h.clean q c hc hle hd hn hg
    · exact absurd hp hd
  needSync q c hc hn := by
    rcases mapPage_eq_some.1 hc with ⟨-, hc⟩ | ⟨rfl, -⟩
    · exact h.needSync q c hc hn
    · exact hp
  writeable q c hc hn := by
    rcases mapPage_eq_some.1 hc with ⟨-, hc⟩ | ⟨rfl, b, hb, rfl⟩
    · exact h.writeable q c hc hn
    · exact ⟨hp, hw b hb hn⟩
  recorded := h.recorded
  mainIn := h.mainIn
  subIn := h.subIn
  unsynced hk i r hr hi := by
    obtain ⟨c, hc, hn⟩ := h.unsynced hk i r hr hi
    by_cases he : r.1 = p
    · exact ⟨f c, mapPage_eq_some.2 (.inr ⟨he, c, he ▸ hc, rfl⟩), hs c hn⟩
    · exact ⟨c, mapPage_eq_some.2 (.inl ⟨he, hc⟩), hn⟩
  quiet := h.quiet
  inJournal := h.inJournal

theorem Sound.setData (h : Sound k G x s) (hp : p ∈ s.pDirty) (a : PageImage) : Sound k G x (s.setData p a) :=
  h.mapPage hp (fun _ hn => hn) fun c hc hw => (h.writeable p c hc hw).2

theorem mem_makeDirty : q ∈ (s.makeDirty p).pDirty ↔ q = p ∨ q ∈ s.pDirty := by
  unfold makeDirty
  split_ifs with h
  · exact ⟨.inr, fun hq => hq.elim (fun hq => hq ▸ h) id⟩
  · exact List.mem_cons

/-- A page joins the dirty ones. -/
theorem Sound.addDirty (h : Sound k G x s) (hl : s.eState ≠ .locked) (hc : ∃ c, s.cache p = some c)
    {l : List ℕ} (hm : ∀ q, q ∈ l ↔ q = p ∨ q ∈ s.pDirty) : Sound k G x { s with pDirty := l } where
  live := h.live
  size := h.size
  beyond := h.beyond
  savedLe := h.savedLe
  valid := h.valid
  cached q hq := ((hm q).1 hq).elim (fun hq => hq ▸ hc) (h.cached q)
  clean q c hc hle hd := h.clean q c hc hle fun hq => hd ((hm q).2 (.inr hq))
  needSync q c hc hn := (hm q).2 (.inr (h.needSync q c hc hn))
  writeable q c hc hn :=
    have hw := h.writeable q c hc hn
    ⟨(hm q).2 (.inr hw.1), hw.2⟩
  recorded he q hq hr := (hm q).2 (.inr (h.recorded he q hq hr))
  mainIn := h.mainIn
  subIn := h.subIn
  unsynced := h.unsynced
  quiet he := absurd he hl
  inJournal := h.inJournal

theorem Sound.makeDirty (h : Sound k G x s) (hl : s.eState ≠ .locked) (hc : ∃ c, s.cache p = some c) :
    Sound k G x (s.makeDirty p) :=
  (h.addDirty hl hc fun _ => mem_makeDirty).mapPage (mem_makeDirty.2 (.inl rfl)) (fun _ hn => hn)
    fun c hc hw => ⟨rfl, (h.writeable p c hc hw).2.2⟩

/-! ## Fetching pages -/

theorem getPage_eq_some : (s.getPage p).cache q = some c ↔ s.cache q = some c ∨ q = p ∧ s.cache p = none ∧
    c = { data := if s.dbSize < p then 0 else s.file p } := by
  unfold getPage
  cases hp : s.cache p with
  | some b => simp
  | none =>
    by_cases hq : q = p
    · subst hq
      simp [hp, eq_comm]
    · simp [hq]

theorem exists_getPage : ∃ c, (s.getPage p).cache p = some c := by
  cases hp : s.cache p with
  | some b => exact ⟨b, getPage_eq_some.2 (.inl hp)⟩
  | none => exact ⟨_, getPage_eq_some.2 (.inr ⟨rfl, hp, rfl⟩)⟩

/-- A fetch changes the cache and `dbFileVers`. -/
theorem getPage_frame : ∃ cache v, s.getPage p = { s with cache := cache, dbFileVers := v } := by
  unfold getPage
  split
  · exact ⟨s.cache, s.dbFileVers, rfl⟩
  · exact ⟨_, _, rfl⟩

/-- A new cache in which pages were added that are clean and as the file has them. -/
theorem Sound.addCache (h : Sound k G x s) {cache : ℕ → Option CachePage} {v : ℕ}
    (hp : ∀ q c, cache q = some c → k.Valid q) (hold : ∀ q c, s.cache q = some c → cache q = some c)
    (hnew : ∀ q c, cache q = some c → s.cache q = some c ∨
      c.needSync = false ∧ c.writeable = false ∧ (q ≤ s.dbSize → c.data = s.file q)) :
    Sound k G x { s with cache := cache, dbFileVers := v } where
  live := h.live
  size := h.size
  beyond := h.beyond
  savedLe := h.savedLe
  valid := hp
  cached q hq := (h.cached q hq).imp fun c => hold q c
  clean q c hc hle hd hn hg := (hnew q c hc).elim (h.clean q c · hle hd hn hg) fun hc => hc.2.2 hle
  needSync q c hc hn := (hnew q c hc).elim (h.needSync q c · hn) fun hc => by simp [hc.1] at hn
  writeable q c hc hn := (hnew q c hc).elim (h.writeable q c · hn) fun hc => by simp [hc.2.1] at hn
  recorded := h.recorded
  mainIn := h.mainIn
  subIn := h.subIn
  unsynced hk i r hr hi := (h.unsynced hk i r hr hi).imp fun c hc => ⟨hold _ c hc.1, hc.2⟩
  quiet := h.quiet
  inJournal := h.inJournal

theorem Sound.getPage (h : Sound k G x s) (hp : k.Valid p) : Sound k G x (s.getPage p) := by
  obtain ⟨cache, v, he⟩ := s.getPage_frame (p := p)
  have hc : (s.getPage p).cache = cache := by rw [he]
  rw [he]
  refine h.addCache (fun q c hq => ?_) (fun q c hq => ?_) fun q c hq => ?_ <;> rw [← hc] at *
  · rcases getPage_eq_some.1 hq with hq | ⟨rfl, -⟩
    · exact h.valid q c hq
    · exact hp
  · exact getPage_eq_some.2 (.inl hq)
  · rcases getPage_eq_some.1 hq with hq | ⟨rfl, -, rfl⟩
    · exact .inl hq
    · refine .inr ⟨rfl, rfl, fun hle => ?_⟩
      rw [if_neg (Nat.not_lt.2 hle)]

/-! ## Making a page writable -/

theorem Sound.openJournal (h : Sound k G x s) (hl : s.eState = .locked) : Sound k G x s.pagerOpenJournal := by
  obtain ⟨hd, -, hj, hs⟩ := h.quiet hl
  exact { h with
    live := .inr (.inl rfl)
    writeable := fun q c hc hw => by simpa [hd] using (h.writeable q c hc hw).1
    recorded := fun _ q _ hq => by simp [pagerOpenJournal, hs] at hq
    mainIn := fun r hr => by simp [pagerOpenJournal] at hr
    subIn := fun r hr => by simp [pagerOpenJournal, hs] at hr
    unsynced := fun _ i r hr _ => by simp [pagerOpenJournal] at hr
    quiet := fun he => by simp [pagerOpenJournal] at he
    inJournal := fun q hq => by simp [pagerOpenJournal] at hq }

theorem Sound.addToSavepointBitvecs (h : Sound k G x s) : Sound k G x (s.addToSavepointBitvecs p) :=
  { h with
    savedLe := fun sp hsp => by
      obtain ⟨sp', hsp', rfl⟩ := List.mem_map.1 hsp
      split_ifs
      · exact h.savedLe sp' hsp'
      · exact h.savedLe sp' hsp' }

/-- A dirty page that waits for the sync is recorded in the main journal. -/
theorem Sound.addRecord (h : Sound k G x s) (hl : s.eState ≠ .locked) (hp : p ∈ s.pDirty)
    (hn : ∃ c, s.cache p = some c ∧ c.needSync = true) (hle : p ≤ s.dbOrigSize) (hv : k.Valid p)
    (a : PageImage) :
    Sound k G x { s with jfd := s.jfd ++ [(p, a)], pInJournal := p :: s.pInJournal } :=
  { h with
    writeable := fun q c hc hw =>
      have hq := h.writeable q c hc hw
      ⟨hq.1, hq.2.1, fun hle => List.mem_cons_of_mem _ (hq.2.2 hle)⟩
    recorded := fun he q hq hr => by
      rcases hr with hr | hr
      · rcases List.mem_cons.1 hr with rfl | hr
        · exact hp
        · exact h.recorded he q hq (.inl hr)
      · exact h.recorded he q hq (.inr hr)
    mainIn := fun r hr => by
      rcases List.mem_append.1 hr with hr | hr
      · exact List.mem_cons_of_mem _ (h.mainIn r hr)
      · rw [List.mem_singleton.1 hr]
        exact List.mem_cons_self
    subIn := fun r hr => (h.subIn r hr).imp_left (List.mem_cons_of_mem _)
    unsynced := fun hk i r hr hi => by
      rcases Nat.lt_trichotomy i s.jfd.length with hlt | rfl | hlt
      · exact h.unsynced hk i r (by rwa [List.getElem?_append_left hlt] at hr) hi
      · rw [List.getElem?_concat_length] at hr
        obtain rfl := Option.some.inj hr
        exact hn
      · rw [List.getElem?_eq_none (by simp; omega)] at hr
        cases hr
    quiet := fun he => absurd he hl
    inJournal := fun q hq => by
      rcases List.mem_cons.1 hq with rfl | hq
      · exact ⟨hle, hv⟩
      · exact h.inJournal q hq }

theorem Sound.journalPage (h : Sound k G x s) (hl : s.eState ≠ .locked) (hp : p ∈ s.pDirty) (hv : k.Valid p) :
    Sound k G x (s.journalPage p) := by
  have hflag : Sound k G x (s.mapPage p fun c => { c with needSync := true }) :=
    h.mapPage hp (fun _ _ => rfl) fun c hc hw => (h.writeable p c hc hw).2
  unfold FilePager.journalPage
  split_ifs with hj hle he
  · exact h
  · obtain ⟨c, hc⟩ := h.cached p hp
    refine (hflag.addRecord hl hp ?_ hle hv (s.data p)).addToSavepointBitvecs
    exact ⟨_, mapPage_eq_some.2 (.inr ⟨rfl, c, hc, rfl⟩), rfl⟩
  · exact hflag
  · exact h

theorem mem_pInJournal_journalPage :
    q ∈ (s.journalPage p).pInJournal ↔ q ∈ s.pInJournal ∨ q = p ∧ p ≤ s.dbOrigSize := by
  unfold FilePager.journalPage
  split_ifs with hj hle he
  · exact ⟨.inl, fun hq => hq.elim id fun hq => hq.1 ▸ hj⟩
  · simp [pagerAddPageToRollbackJournal, FilePager.addToSavepointBitvecs, hle, or_comm]
  · simp [FilePager.mapPage, hle]
  · simp [hle]

theorem subjRequiresPage_nOrig : ∀ {l l' : List Savepoint}, Pager.subjRequiresPage p l = some l' →
    l'.map (·.nOrig) = l.map (·.nOrig)
  | [], l', h => by simp [Pager.subjRequiresPage] at h
  | sp :: l, l', h => by
    simp only [Pager.subjRequiresPage] at h
    split_ifs at h
    · obtain rfl := Option.some.inj h
      simp [Function.comp_def]
    · obtain ⟨l₁, h₁, rfl⟩ := Option.map_eq_some_iff.1 h
      simp [subjRequiresPage_nOrig h₁]

theorem Sound.setSavepoints (h : Sound k G x s) {ss : List Savepoint}
    (hn : ss.map (·.nOrig) = s.savepoints.map (·.nOrig)) : Sound k G x { s with savepoints := ss } :=
  { h with
    savedLe := fun sp hsp => by
      have hm : sp.nOrig ∈ s.savepoints.map (·.nOrig) := hn ▸ List.mem_map_of_mem hsp
      obtain ⟨sp', hsp', he⟩ := List.mem_map.1 hm
      exact he ▸ h.savedLe sp' hsp' }

theorem Sound.subjournalPageIfRequired (h : Sound k G x s) (hp : p ∈ s.pDirty)
    (hj : p ≤ s.dbOrigSize → p ∈ s.pInJournal) : Sound k G x (s.subjournalPageIfRequired p) := by
  unfold FilePager.subjournalPageIfRequired
  split
  · rename_i ss hss
    have h1 := h.setSavepoints (subjRequiresPage_nOrig hss)
    refine Sound.addToSavepointBitvecs { h1 with
      recorded := fun he q hq hr => ?_, subIn := fun r hr => ?_, quiet := ?_ }
    · rcases hr with hr | hr
      · exact h.recorded he q hq (.inl hr)
      · rcases List.mem_append.1 (List.map_append ▸ hr) with hr | hr
        · exact h.recorded he q hq (.inr hr)
        · rw [List.map_singleton, List.mem_singleton] at hr
          exact hr ▸ hp
    · rcases List.mem_append.1 hr with hr | hr
      · exact h.subIn r hr
      · rw [List.mem_singleton.1 hr]
        exact (Nat.lt_or_ge s.dbOrigSize p).symm.imp_left hj
    · intro he
      rw [(h.quiet he).1] at hp
      cases hp
  · exact h

theorem subjournalPageIfRequired_frame :
    ∃ ss l, s.subjournalPageIfRequired p = { s with savepoints := ss, sjfd := l } := by
  unfold FilePager.subjournalPageIfRequired
  split
  · exact ⟨_, _, rfl⟩
  · exact ⟨_, _, rfl⟩

/-- Another size of the image. -/
theorem Sound.resize (h : Sound k G x s) {n : ℕ} {b : Bool} :
    Sound k (G ∪ {q | s.dbSize < q ∧ q ≤ n}) x { s with dbSize := n, changeCountDone := b } :=
  { h with
    clean := fun q c hc hle hd hw hg => by
      have hq : q ≤ s.dbSize := Nat.le_of_not_lt fun hlt => hg (.inr ⟨hlt, hle⟩)
      exact h.clean q c hc hq hd hw fun hg' => hg (.inl hg') }

/-- What `pager_write` does to a cached page and to the rest. -/
structure PageWritten (p : ℕ) (s s' : FilePager) : Prop where
  dbOrigSize : s'.dbOrigSize = s.dbOrigSize
  dbSize : s'.dbSize = max s.dbSize p
  file : s'.file = s.file
  fileSize : s'.fileSize = s.fileSize
  dbFileSize : s'.dbFileSize = s.dbFileSize
  eState : s'.eState = if s.eState = .locked then .cachemod else s.eState
  other : ∀ q, q ≠ p → s'.cache q = s.cache q
  self : ∀ c, s.cache p = some c → ∃ c', s'.cache p = some c' ∧ c'.data = c.data ∧ c'.dontWrite = false ∧
    c'.writeable = true ∧ (c.needSync = true → c'.needSync = true) ∧ (c'.needSync = true →
      c.needSync = true ∨ p ∉ s.pInJournal ∧ (p ≤ s.dbOrigSize ∨ s.eState ≠ .dbmod))
  dirty : ∀ q, q ∈ s'.pDirty ↔ q = p ∨ q ∈ s.pDirty
  journal : ∀ q, q ∈ s'.pInJournal ↔ q ∈ s.pInJournal ∨ q = p ∧ p ≤ s.dbOrigSize

theorem mapPage_id {f : CachePage → CachePage} (hf : ∀ c, f c = c) : s.mapPage p f = s := by
  have he : Option.map f = id := funext fun o => by cases o <;> simp [hf]
  rw [FilePager.mapPage, he, id, update_eq_self]

theorem journalPage_spec : ∃ b jfd J ss, s.journalPage p =
      { s.mapPage p fun c => { c with needSync := c.needSync || b } with
        jfd := jfd, pInJournal := J, savepoints := ss }
    ∧ (b = true → p ∉ s.pInJournal ∧ (p ≤ s.dbOrigSize ∨ s.eState ≠ .dbmod)) := by
  unfold FilePager.journalPage
  split_ifs with hj hle he
  · exact ⟨false, s.jfd, s.pInJournal, s.savepoints, by rw [mapPage_id fun c => by simp], nofun⟩
  · refine ⟨true, (s.pagerAddPageToRollbackJournal p).jfd, (s.pagerAddPageToRollbackJournal p).pInJournal,
      (s.pagerAddPageToRollbackJournal p).savepoints, ?_, fun _ => ⟨hj, .inl hle⟩⟩
    simp only [Bool.or_true]
    rfl
  · exact ⟨true, s.jfd, s.pInJournal, s.savepoints, by simp only [Bool.or_true]; rfl, fun _ => ⟨hj, .inr he⟩⟩
  · exact ⟨false, s.jfd, s.pInJournal, s.savepoints, by rw [mapPage_id fun c => by simp], nofun⟩

theorem makeWritable_spec : ∃ b jfd J ss l, s.makeWritable p =
      { s.mapPage p fun c => ⟨c.data, false, c.needSync || b, true⟩ with
        pDirty := (s.makeDirty p).pDirty, jfd := jfd, pInJournal := J, savepoints := ss, sjfd := l }
    ∧ (∀ q, q ∈ J ↔ q ∈ s.pInJournal ∨ q = p ∧ p ≤ s.dbOrigSize)
    ∧ (b = true → p ∉ s.pInJournal ∧ (p ≤ s.dbOrigSize ∨ s.eState ≠ .dbmod)) := by
  obtain ⟨b, jfd, J, ss, he, hb⟩ := journalPage_spec (s := s.makeDirty p) (p := p)
  obtain ⟨ss', l, he'⟩ := subjournalPageIfRequired_frame (p := p)
    (s := ((s.makeDirty p).journalPage p).mapPage p fun c => { c with writeable := true })
  have hJ := fun q => mem_pInJournal_journalPage (s := s.makeDirty p) (p := p) (q := q)
  rw [FilePager.makeWritable, he']
  rw [he] at hJ ⊢
  refine ⟨b, jfd, J, ss', l, ?_, hJ, hb⟩
  simp only [FilePager.mapPage, FilePager.makeDirty, update_idem, update_self, Option.map_map]
  rfl

theorem pagerWrite_eq (hl : s.eState ≠ .locked) :
    s.pagerWrite p = { s.makeWritable p with dbSize := max (s.makeWritable p).dbSize p } := by
  unfold FilePager.pagerWrite
  rw [if_neg hl]

theorem pageWritten_of_ne (hl : s.eState ≠ .locked) : PageWritten p s (s.pagerWrite p) := by
  obtain ⟨b, jfd, J, ss, l, he, hJ, hb⟩ := makeWritable_spec (s := s) (p := p)
  rw [pagerWrite_eq hl, he]
  refine ⟨rfl, rfl, rfl, rfl, rfl, (if_neg hl).symm, fun q hq => ?_, fun c hc => ?_, fun q => mem_makeDirty, hJ⟩
  · simp [FilePager.mapPage, hq]
  · refine ⟨⟨c.data, false, c.needSync || b, true⟩, by simp [FilePager.mapPage, hc], rfl, rfl, rfl,
      fun hn => by simp [hn], fun hn => ?_⟩
    exact (Bool.or_eq_true_iff.1 hn).imp_right hb

theorem pagerWrite_locked (hl : s.eState = .locked) : s.pagerWrite p = s.pagerOpenJournal.pagerWrite p := by
  unfold FilePager.pagerWrite
  rw [if_pos hl]
  rfl

theorem Sound.pageWritten (h : Sound k G x s) : PageWritten p s (s.pagerWrite p) := by
  by_cases hl : s.eState = .locked
  · obtain ⟨-, hj, -⟩ := h.quiet hl
    have h' := pageWritten_of_ne (s := s.pagerOpenJournal) (p := p) (by simp [pagerOpenJournal])
    rw [pagerWrite_locked hl]
    refine ⟨h'.1, h'.2, h'.3, h'.4, h'.5, h'.6.trans ?_, h'.7, fun c hc => ?_, h'.9, fun q => ?_⟩
    · rw [if_pos hl]
      rfl
    · obtain ⟨c', h1, h2, h3, h4, h5, h6⟩ := h'.8 c hc
      exact ⟨c', h1, h2, h3, h4, h5, fun hn => (h6 hn).imp_right fun hn => ⟨by simp [hj], .inr (by simp [hl])⟩⟩
    · rw [h'.10 q, hj]
      rfl
  · exact pageWritten_of_ne hl

theorem dontWrite_journalPage (hc : ((s.makeDirty p).journalPage p).cache p = some c) :
    c.dontWrite = false := by
  obtain ⟨b, jfd, J, ss, he, -⟩ := journalPage_spec (s := s.makeDirty p) (p := p)
  rw [he] at hc
  rcases mapPage_eq_some.1 hc with ⟨hn, -⟩ | ⟨-, a, ha, rfl⟩
  · exact absurd rfl hn
  · rcases mapPage_eq_some.1 ha with ⟨hn, -⟩ | ⟨-, _, -, rfl⟩
    · exact absurd rfl hn
    · rfl

theorem Sound.makeWritable (h : Sound k G x s) (hl : s.eState ≠ .locked) (hc : ∃ c, s.cache p = some c)
    (hv : k.Valid p) : Sound k G x (s.makeWritable p) := by
  have hd : p ∈ (s.makeDirty p).pDirty := mem_makeDirty.2 (.inl rfl)
  have hj := (h.makeDirty hl hc).journalPage hl hd hv
  have hD : p ∈ ((s.makeDirty p).journalPage p).pDirty := by
    obtain ⟨b, jfd, J, ss, he, -⟩ := journalPage_spec (s := s.makeDirty p) (p := p)
    rwa [he]
  have hJ (hle : p ≤ ((s.makeDirty p).journalPage p).dbOrigSize) :
      p ∈ ((s.makeDirty p).journalPage p).pInJournal := by
    obtain ⟨b, jfd, J, ss, he, -⟩ := journalPage_spec (s := s.makeDirty p) (p := p)
    rw [he] at hle
    exact mem_pInJournal_journalPage.2 (.inr ⟨rfl, hle⟩)
  refine Sound.subjournalPageIfRequired (hj.mapPage hD (fun _ hn => hn) fun c hc _ => ?_) hD hJ
  have hw := dontWrite_journalPage hc
  exact ⟨hw, hJ⟩

theorem Sound.pagerWrite (h : Sound k G x s) (hc : ∃ c, s.cache p = some c) :
    Sound k (G ∪ {q | s.dbSize < q ∧ q ≤ max s.dbSize p}) x (s.pagerWrite p) := by
  have hv : k.Valid p := hc.elim (h.valid p)
  have key : ∀ {s : FilePager}, Sound k G x s → s.eState ≠ .locked → (∃ c, s.cache p = some c) →
      Sound k (G ∪ {q | s.dbSize < q ∧ q ≤ max s.dbSize p}) x (s.pagerWrite p) := fun {s} h hl hc => by
    have hw := h.makeWritable hl hc hv
    obtain ⟨b, jfd, J, ss, l, he, -⟩ := makeWritable_spec (s := s) (p := p)
    rw [pagerWrite_eq hl]
    rw [he] at hw ⊢
    exact hw.resize
  by_cases hl : s.eState = .locked
  · rw [pagerWrite_locked hl]
    exact key (h.openJournal hl) (by simp [pagerOpenJournal]) hc
  · exact key h hl hc

/-! ## Journalling a sector -/

theorem content_of_some (hc : s.cache p = some c) : s.content p = c.data := by simp [content, hc]

theorem content_of_none (hc : s.cache p = none) : s.content p = if s.dbSize < p then 0 else s.file p := by
  simp [content, hc]

theorem content_congr {s' : FilePager} (hc : s'.cache q = s.cache q) (hf : s'.file q = s.file q)
    (h : q ≤ s.dbSize) (h' : q ≤ s'.dbSize) : s'.content q = s.content q := by
  unfold content
  rw [hc, hf, if_neg (Nat.not_lt.2 h), if_neg (Nat.not_lt.2 h')]

theorem getPage_content (s : FilePager) : (s.getPage p).content q = s.content q := by
  obtain ⟨cache, v, he⟩ := s.getPage_frame (p := p)
  cases hq : s.cache q with
  | some c => rw [content_of_some hq, content_of_some (getPage_eq_some.2 (.inl hq))]
  | none =>
    by_cases hqp : q = p
    · subst hqp
      rw [content_of_none hq, content_of_some (getPage_eq_some.2 (.inr ⟨rfl, hq, rfl⟩))]
    · have hn : (s.getPage p).cache q = none := Option.eq_none_iff_forall_ne_some.2 fun c hc => by
        rcases getPage_eq_some.1 hc with hc | ⟨hc, -⟩
        · rw [hq] at hc
          cases hc
        · exact hqp hc
      rw [content_of_none hq, content_of_none hn, he]

/-- What making the pages of `l` writable does. -/
structure Journals (l : List ℕ) (s s' : FilePager) : Prop where
  dbOrigSize : s'.dbOrigSize = s.dbOrigSize
  dbSize : s.dbSize ≤ s'.dbSize
  dbSizeLe : ∀ n, s.dbSize ≤ n → (∀ q ∈ l, q ≤ n) → s'.dbSize ≤ n
  file : s'.file = s.file
  fileSize : s'.fileSize = s.fileSize
  dbFileSize : s'.dbFileSize = s.dbFileSize
  eState : s'.eState = s.eState ∨ s.eState = .locked ∧ s'.eState = .cachemod
  other : ∀ q, q ∉ l → s'.cache q = s.cache q
  dirty : ∀ q, q ∈ s'.pDirty → q ∈ s.pDirty ∨ q ∈ l
  keepsDirty : ∀ q, q ∈ s.pDirty → q ∈ s'.pDirty
  journal : ∀ q, q ∈ s'.pInJournal → q ∈ s.pInJournal ∨ q ∈ l
  keepsJournal : ∀ q, q ∈ s.pInJournal → q ∈ s'.pInJournal
  keepsSync : ∀ q, s.has (·.needSync) q = true → s'.has (·.needSync) q = true
  sync : ∀ q, s'.has (·.needSync) q = true → s.has (·.needSync) q = true ∨
    q ∉ s.pInJournal ∧ (q ≤ s.dbOrigSize ∨ s.eState ≠ .dbmod)
  content : ∀ q, q ≤ s.dbSize → s'.content q = s.content q
  dontWrite : ∀ q, s'.has (·.dontWrite) q = true → s.has (·.dontWrite) q = true

theorem Journals.refl : Journals [] s s :=
  ⟨rfl, le_rfl, fun _ hn _ => hn, rfl, rfl, rfl, .inl rfl, fun _ _ => rfl, fun _ => .inl, fun _ => id,
    fun _ => .inl, fun _ => id, fun _ => id, fun _ => .inl, fun _ _ => rfl, fun _ => id⟩

theorem Journals.trans {l l' : List ℕ} {s₁ s' : FilePager} (h : Journals l s s₁) (h' : Journals l' s₁ s') :
    Journals (l ++ l') s s' where
  dbOrigSize := h'.dbOrigSize.trans h.dbOrigSize
  dbSize := h.dbSize.trans h'.dbSize
  dbSizeLe n hn hl := h'.dbSizeLe n (h.dbSizeLe n hn fun q hq => hl q (List.mem_append_left _ hq))
    fun q hq => hl q (List.mem_append_right _ hq)
  file := h'.file.trans h.file
  fileSize := h'.fileSize.trans h.fileSize
  dbFileSize := h'.dbFileSize.trans h.dbFileSize
  eState := by
    rcases h.eState with he | he <;> rcases h'.eState with he' | he'
    · exact .inl (he'.trans he)
    · exact .inr ⟨he ▸ he'.1, he'.2⟩
    · exact .inr ⟨he.1, he'.trans he.2⟩
    · exact .inr ⟨he.1, he'.2⟩
  other q hq := by
    rw [List.mem_append, not_or] at hq
    rw [h'.other q hq.2, h.other q hq.1]
  dirty q hq := by
    rw [List.mem_append]
    rcases h'.dirty q hq with hq | hq
    · exact (h.dirty q hq).imp_right .inl
    · exact .inr (.inr hq)
  keepsDirty q hq := h'.keepsDirty q (h.keepsDirty q hq)
  journal q hq := by
    rw [List.mem_append]
    rcases h'.journal q hq with hq | hq
    · exact (h.journal q hq).imp_right .inl
    · exact .inr (.inr hq)
  keepsJournal q hq := h'.keepsJournal q (h.keepsJournal q hq)
  keepsSync q hq := h'.keepsSync q (h.keepsSync q hq)
  sync q hq := by
    rcases h'.sync q hq with hq | ⟨hj, hq⟩
    · exact h.sync q hq
    · refine .inr ⟨fun hj' => hj (h.keepsJournal q hj'), ?_⟩
      rw [h.dbOrigSize] at hq
      refine hq.imp_right fun hq he => ?_
      rcases h.eState with he' | he'
      · exact hq (he'.trans he)
      · rw [he] at he'
        cases he'.1
  content q hq := (h'.content q (hq.trans h.dbSize)).trans (h.content q hq)
  dontWrite q hq := h.dontWrite q (h'.dontWrite q hq)

theorem getPage_has {flag : CachePage → Bool} (hf : ∀ a, flag { data := a } = false) (s : FilePager) :
    (s.getPage p).has flag q = s.has flag q := by
  rw [Bool.eq_iff_iff, has_iff, has_iff]
  refine exists_congr fun c => ⟨fun ⟨hc, hn⟩ => ?_, fun ⟨hc, hn⟩ => ⟨getPage_eq_some.2 (.inl hc), hn⟩⟩
  rcases getPage_eq_some.1 hc with hc | ⟨-, -, rfl⟩
  · exact ⟨hc, hn⟩
  · rw [hf] at hn
    cases hn

theorem Sound.journals (h : Sound k G x s) (hp : k.Valid p) : Journals [p] s ((s.getPage p).pagerWrite p) := by
  obtain ⟨cache, v, he⟩ := s.getPage_frame (p := p)
  have hw := (h.getPage hp).pageWritten (p := p)
  obtain ⟨c, hc⟩ := s.exists_getPage (p := p)
  obtain ⟨c', hc', hdata, hdw, -, hsync, hsync'⟩ := hw.self c hc
  have hN : ∀ a, CachePage.needSync { data := a } = false := fun _ => rfl
  have hW : ∀ a, CachePage.dontWrite { data := a } = false := fun _ => rfl
  have hhas : ∀ flag q, q ≠ p → ((s.getPage p).pagerWrite p).has flag q = (s.getPage p).has flag q :=
    fun flag q hq => congrArg (Option.any flag) (hw.other q hq)
  refine ⟨?_, ?_, fun n hn hl => ?_, ?_, ?_, ?_, ?_, fun q hq => ?_, fun q hq => ?_, fun q hq => ?_,
    fun q hq => ?_, fun q hq => ?_,
    fun q hq => ?_, fun q hq => ?_, fun q hq => ?_, fun q hq => ?_⟩
  · rw [hw.dbOrigSize, he]
  · rw [hw.dbSize, he]
    exact Nat.le_max_left _ _
  · rw [hw.dbSize, he]
    exact max_le hn (hl p List.mem_cons_self)
  · rw [hw.file, he]
  · rw [hw.fileSize, he]
  · rw [hw.dbFileSize, he]
  · rw [hw.eState, he]
    split_ifs with hl
    · exact .inr ⟨hl, rfl⟩
    · exact .inl rfl
  · rw [List.mem_singleton] at hq
    rw [hw.other q hq]
    refine Option.ext fun c => ?_
    rw [getPage_eq_some]
    exact ⟨fun hc => hc.elim id fun hc => absurd hc.1 hq, .inl⟩
  · rw [hw.dirty, he] at hq
    exact hq.symm.imp_right List.mem_singleton.2
  · rw [hw.dirty, he]
    exact .inr hq
  · rw [hw.journal, he] at hq
    exact hq.imp_right fun hq => List.mem_singleton.2 hq.1
  · rw [hw.journal, he]
    exact .inl hq
  · rw [← getPage_has hN s (p := p)] at hq
    by_cases hqp : q = p
    · subst hqp
      obtain ⟨b, hb, hn⟩ := has_iff.1 hq
      rw [hc] at hb
      obtain rfl := Option.some.inj hb
      exact has_iff.2 ⟨c', hc', hsync hn⟩
    · rwa [hhas _ q hqp]
  · by_cases hqp : q = p
    · subst hqp
      obtain ⟨b, hb, hn⟩ := has_iff.1 hq
      rw [hc'] at hb
      obtain rfl := Option.some.inj hb
      refine (hsync' hn).imp (fun hn => ?_) fun hn => by rwa [he] at hn
      exact getPage_has hN s (p := q) ▸ has_iff.2 ⟨c, hc, hn⟩
    · rw [hhas _ q hqp, getPage_has hN] at hq
      exact .inl hq
  · rw [← getPage_content s (p := p)]
    by_cases hqp : q = p
    · rw [hqp, content_of_some hc', content_of_some hc, hdata]
    · have hs : (s.getPage p).dbSize = s.dbSize := by rw [he]
      refine content_congr (hw.other q hqp) (congrFun hw.file q) (hs ▸ hq) ?_
      rw [hw.dbSize, hs]
      exact hq.trans (Nat.le_max_left _ _)
  · by_cases hqp : q = p
    · subst hqp
      obtain ⟨b, hb, hn⟩ := has_iff.1 hq
      rw [hc'] at hb
      obtain rfl := Option.some.inj hb
      rw [hdw] at hn
      cases hn
    · rwa [hhas _ q hqp, getPage_has hW] at hq

theorem Sound.mono (h : Sound k G x s) {G' : Set ℕ} (hG : G ⊆ G') : Sound k G' x s :=
  { h with clean := fun q c hc hle hd hw hg => h.clean q c hc hle hd hw fun hg' => hg (hG hg') }

theorem Journals.mono {l l' : List ℕ} {s' : FilePager} (h : Journals l s s') (hl : l ⊆ l') : Journals l' s s' :=
  { h with
    dbSizeLe := fun n hn hl' => h.dbSizeLe n hn fun q hq => hl' q (hl hq)
    other := fun q hq => h.other q fun hq' => hq (hl hq')
    dirty := fun q hq => (h.dirty q hq).imp_right fun hq => hl hq
    journal := fun q hq => (h.journal q hq).imp_right fun hq => hl hq }

theorem Journals.has_eq {l : List ℕ} {s' : FilePager} (h : Journals l s s') (hq : q ∉ l)
    (flag : CachePage → Bool) :
    s'.has flag q = s.has flag q := congrArg (Option.any flag) (h.other q hq)

/-- The pages between the old and the new size of the image. -/
def grown (s s' : FilePager) : Set ℕ := {q | s.dbSize < q ∧ q ≤ s'.dbSize}

theorem Sound.getWrite (h : Sound k G x s) (hv : k.Valid p) :
    Sound k (G ∪ grown s ((s.getPage p).pagerWrite p)) x ((s.getPage p).pagerWrite p) := by
  obtain ⟨cache, v, he⟩ := s.getPage_frame (p := p)
  have hW := (h.getPage hv).pageWritten (p := p)
  refine ((h.getPage hv).pagerWrite s.exists_getPage).mono (Set.union_subset_union_right _ fun q hq => ?_)
  obtain ⟨h1, h2⟩ := hq
  rw [← hW.dbSize] at h2
  rw [he] at h1
  exact ⟨h1, h2⟩

theorem Sound.grown_trans {s₁ s' : FilePager} (h : Sound k (G ∪ grown s s₁ ∪ grown s₁ s') x s')
    (h1 : s.dbSize ≤ s₁.dbSize) (h2 : s₁.dbSize ≤ s'.dbSize) : Sound k (G ∪ grown s s') x s' := by
  refine h.mono fun q hq => ?_
  rcases hq with (hq | hq) | hq
  · exact .inl hq
  · exact .inr ⟨hq.1, hq.2.trans h2⟩
  · exact .inr ⟨h1.trans_lt hq.1, hq.2⟩

/-- The loop over the pages of a sector. -/
theorem Sound.journalSector {m : ℕ} : ∀ {pgs : List ℕ} {s : FilePager} {G : Set ℕ} {f : Bool},
    Sound k G x s → pgs.Nodup → (∀ q ∈ pgs, 0 < q) → ∃ s' b, journalSector k m pgs s f = (s', b)
      ∧ Sound k (G ∪ grown s s') x s' ∧ Journals pgs s s'
      ∧ (∀ q ∈ pgs, k.Valid q → q = m ∨ q ∉ s.pInJournal → q ∈ s'.pDirty ∧ q ≤ s'.dbSize)
      ∧ (∀ q ∈ pgs, k.Valid q → q ≤ s.dbOrigSize → q ∈ s'.pInJournal)
      ∧ (b = true ↔ f = true ∨ ∃ q ∈ pgs, s'.has (·.needSync) q = true)
  | [], s, G, f, h, _, _ =>
    ⟨s, f, rfl, h.mono Set.subset_union_left, .refl, by simp, by simp, by simp⟩
  | pg :: pgs, s, G, f, h, hnd, hpos => by
    obtain ⟨hpg, hnd⟩ := List.nodup_cons.1 hnd
    have hpos' := fun q hq => hpos q (List.mem_cons_of_mem _ hq)
    unfold FilePager.journalSector
    split_ifs with hw hsj
    · have hv : k.Valid pg := ⟨hpos pg List.mem_cons_self, hsj⟩
      have hJ := h.journals hv
      have hW := (h.getPage hv).pageWritten (p := pg)
      have hdirty : pg ∈ ((s.getPage pg).pagerWrite pg).pDirty := (hW.dirty pg).2 (.inl rfl)
      obtain ⟨s', b, hr, h', hJ', hd, hj, hb⟩ := Sound.journalSector (m := m)
        (f := f || ((s.getPage pg).pagerWrite pg).has (·.needSync) pg)
        (h.getWrite hv) hnd hpos'
      refine ⟨s', b, hr, h'.grown_trans hJ.dbSize hJ'.dbSize, hJ.trans hJ', fun q hq hv' hw' => ?_,
        fun q hq hv' hle => ?_, ?_⟩
      · by_cases hqp : q = pg
        · rw [hqp]
          refine ⟨hJ'.keepsDirty pg hdirty, le_trans ?_ hJ'.dbSize⟩
          rw [hW.dbSize]
          exact Nat.le_max_right _ _
        · refine hd q (List.mem_of_ne_of_mem hqp hq) hv' (hw'.imp_right fun hn hq' => ?_)
          exact (hJ.journal q hq').elim hn fun hq' => hqp (List.mem_singleton.1 hq')
      · rcases List.mem_cons.1 hq with rfl | hq
        · refine hJ'.keepsJournal q ((hW.journal q).2 (.inr ⟨rfl, ?_⟩))
          rw [← hW.dbOrigSize, hJ.dbOrigSize]
          exact hle
        · exact hj q hq hv' (hJ.dbOrigSize ▸ hle)
      · rw [hb, Bool.or_eq_true, List.exists_mem_cons_iff, hJ'.has_eq hpg, or_assoc]
    · obtain ⟨s', b, hr, h', hJ', hd, hj, hb⟩ := Sound.journalSector (m := m) (f := f)
        h hnd hpos'
      rw [not_not] at hsj
      refine ⟨s', b, hr, h', hJ'.mono (List.subset_cons_self _ _), fun q hq hv' hw' => ?_,
        fun q hq hv' hle => ?_, ?_⟩
      · exact hd q (List.mem_of_ne_of_mem (fun he => hv'.2 (he.trans hsj)) hq) hv' hw'
      · exact hj q (List.mem_of_ne_of_mem (fun he => hv'.2 (he.trans hsj)) hq) hv' hle
      · have hn : ¬ s'.has (·.needSync) pg = true := fun hs => by
          obtain ⟨c, hc, -⟩ := has_iff.1 hs
          exact (h'.valid pg c hc).2 hsj
        rw [hb, List.exists_mem_cons_iff, or_iff_right hn]
    · rw [not_or, not_not] at hw
      obtain ⟨s', b, hr, h', hJ', hd, hj, hb⟩ := Sound.journalSector (m := m)
        (f := f || s.has (·.needSync) pg) h hnd hpos'
      refine ⟨s', b, hr, h', hJ'.mono (List.subset_cons_self _ _), fun q hq hv' hw' => ?_,
        fun q hq hv' hle => ?_, ?_⟩
      · refine hd q (List.mem_of_ne_of_mem (fun he => ?_) hq) hv' hw'
        exact hw'.elim (fun hw' => hw.1 (he ▸ hw')) fun hw' => hw' (he ▸ hw.2)
      · rcases List.mem_cons.1 hq with rfl | hq
        · exact hJ'.keepsJournal q hw.2
        · exact hj q hq hv' hle
      · rw [hb, Bool.or_eq_true, List.exists_mem_cons_iff, hJ'.has_eq hpg, or_assoc]

/-- The pages of one sector, where a sector holds more than one. -/
def SameSector (k : Settings) (q p : ℕ) : Prop :=
  q = p ∨ 1 < k.nPagePerSector ∧ (q - 1) / k.nPagePerSector = (p - 1) / k.nPagePerSector

/-- The pages of a sector that the original image has come into the journal together, but for a page `x`
that is not writable, and wait for the sync together. -/
structure Together (k : Settings) (x : ℕ) (s : FilePager) : Prop where
  whole : ∀ b ∈ s.pInJournal, b ≠ x ∨ s.has (·.writeable) b = true → ∀ q, k.Valid q → q ≤ s.dbOrigSize →
    SameSector k q b → q ∈ s.pInJournal
  waits : ∀ p, s.has (·.needSync) p = true → ∀ q, k.Valid q → q ≤ s.dbOrigSize → SameSector k q p →
    s.has (·.needSync) q = true

theorem SameSector.trans {a b c : ℕ} (h : SameSector k a b) (h' : SameSector k b c) : SameSector k a c := by
  rcases h with rfl | h
  · exact h'
  · rcases h' with rfl | h'
    · exact .inr h
    · exact .inr ⟨h.1, h.2.trans h'.2⟩

theorem SameSector.symm {a b : ℕ} (h : SameSector k a b) : SameSector k b a :=
  h.imp Eq.symm fun h => ⟨h.1, h.2.symm⟩

/-- The pages that `pagerWriteLargeSector` goes through. -/
def sectorRange (k : Settings) (s : FilePager) (pgno : ℕ) : List ℕ :=
  List.range' (sectorStart k pgno) (s.sectorPages k pgno)

theorem mem_sectorRange {pgno : ℕ} (hk : 1 < k.nPagePerSector) (hp : 0 < pgno) (hq : 0 < q) :
    q ∈ sectorRange k s pgno ↔ SameSector k q pgno ∧ q ≤ max s.dbSize pgno := by
  have hn : 0 < k.nPagePerSector := by omega
  have hsame : SameSector k q pgno ↔ (q - 1) / k.nPagePerSector = (pgno - 1) / k.nPagePerSector :=
    ⟨fun h => h.elim (fun h => h ▸ rfl) And.right, fun h => .inr ⟨hk, h⟩⟩
  have hself := (Nat.div_eq_iff hn).1 (rfl : (pgno - 1) / k.nPagePerSector = (pgno - 1) / k.nPagePerSector)
  rw [hsame, Nat.div_eq_iff hn, sectorRange, List.mem_range'_1, sectorPages, sectorStart]
  generalize (pgno - 1) / k.nPagePerSector * k.nPagePerSector = t at *
  split_ifs <;> omega

/-- A page that was in the journal before is dirty when a page of its sector waits for the sync. -/
theorem Together.dirty_of_sync {l : List ℕ} {s' : FilePager} (ht : Together k x s) (h : Sound k G x s)
    (hJ : Journals l s s') (hsame : SameSector k q p) (hp : p ∈ s.pInJournal) (hx : p ≠ x)
    (hn : s'.has (·.needSync) q = true) (hv : k.Valid q) : p ∈ s.pDirty := by
  obtain ⟨hle, hvp⟩ := h.inJournal p hp
  rcases hJ.sync q hn with hn | ⟨hj, hn⟩
  · obtain ⟨c, hc, hn⟩ := has_iff.1 (ht.waits q hn p hvp hle hsame.symm)
    exact h.needSync p c hc hn
  · rcases hn with hn | hn
    · exact absurd (ht.whole p hp (.inl hx) q hv hn hsame) hj
    · rcases h.live with he | he | he
      · rw [(h.quiet he).2.1] at hp
        cases hp
      · exact h.recorded he p hx (.inl hp)
      · exact absurd he hn

theorem flagSync_eq_some {pg1 nPage : ℕ} : (s.flagSync pg1 nPage).cache q = some c ↔
    ∃ b, s.cache q = some b ∧ c = if pg1 ≤ q ∧ q < pg1 + nPage then { b with needSync := true } else b := by
  simp only [flagSync]
  split_ifs
  · rw [Option.map_eq_some_iff]
    exact exists_congr fun b => and_congr_right fun _ => eq_comm
  · simp

theorem Sound.flagSync (h : Sound k G x s) {pg1 nPage : ℕ}
    (hd : ∀ q c, s.cache q = some c → pg1 ≤ q → q < pg1 + nPage → q ∈ s.pDirty) :
    Sound k G x (s.flagSync pg1 nPage) :=
  { h with
    valid := fun q c hc => by
      obtain ⟨b, hb, -⟩ := flagSync_eq_some.1 hc
      exact h.valid q b hb
    cached := fun q hq => by
      obtain ⟨c, hc⟩ := h.cached q hq
      exact ⟨_, flagSync_eq_some.2 ⟨c, hc, rfl⟩⟩
    clean := fun q c hc hle hn hw hg => by
      obtain ⟨b, hb, rfl⟩ := flagSync_eq_some.1 hc
      rw [if_neg fun hr => hn (hd q b hb hr.1 hr.2)] at hw ⊢
      exact h.clean q b hb hle hn hw hg
    needSync := fun q c hc hn => by
      obtain ⟨b, hb, rfl⟩ := flagSync_eq_some.1 hc
      split_ifs at hn with hr
      · exact hd q b hb hr.1 hr.2
      · exact h.needSync q b hb hn
    writeable := fun q c hc hw => by
      obtain ⟨b, hb, rfl⟩ := flagSync_eq_some.1 hc
      split_ifs at hw ⊢ with hr
      · exact h.writeable q b hb hw
      · exact h.writeable q b hb hw
    unsynced := fun hk i r hr hi => by
      obtain ⟨c, hc, hn⟩ := h.unsynced hk i r hr hi
      refine ⟨_, flagSync_eq_some.2 ⟨c, hc, rfl⟩, ?_⟩
      split_ifs
      · rfl
      · exact hn }

theorem flagSync_has {pg1 nPage : ℕ} : (s.flagSync pg1 nPage).has (·.needSync) q = true ↔
    s.has (·.needSync) q = true ∨ (∃ c, s.cache q = some c) ∧ pg1 ≤ q ∧ q < pg1 + nPage := by
  simp only [has_iff, flagSync_eq_some]
  constructor
  · rintro ⟨c, ⟨b, hb, rfl⟩, hn⟩
    split_ifs at hn with hr
    · exact .inr ⟨⟨b, hb⟩, hr⟩
    · exact .inl ⟨b, hb, hn⟩
  · rintro (⟨c, hc, hn⟩ | ⟨⟨c, hc⟩, hr⟩)
    · refine ⟨_, ⟨c, hc, rfl⟩, ?_⟩
      split_ifs
      · rfl
      · exact hn
    · exact ⟨_, ⟨c, hc, rfl⟩, by rw [if_pos hr]⟩

theorem Sound.settle (h : Sound k G x s) (hx : x = 0 ∨ x ∈ s.pDirty) : Sound k G 0 s :=
  { h with
    recorded := fun he q hq hr => by
      by_cases hqx : q = x
      · exact hx.elim (fun hx => absurd (hqx.trans hx) hq) fun hx => hqx ▸ hx
      · exact h.recorded he q hqx hr }

/-- What `sqlite3PagerWrite` does to a cached page and to the file. -/
structure Prepares (p : ℕ) (s s' : FilePager) : Prop where
  dirty : p ∈ s'.pDirty
  dbOrigSize : s'.dbOrigSize = s.dbOrigSize
  dbSize : s'.dbSize = max s.dbSize p
  file : s'.file = s.file
  fileSize : s'.fileSize = s.fileSize
  dbFileSize : s'.dbFileSize = s.dbFileSize
  content : ∀ q, q ≤ s.dbSize → s'.content q = s.content q
  dontWrite : ∀ q, s'.has (·.dontWrite) q = true → s.has (·.dontWrite) q = true

/-- What holds of a sector when the loop over its pages has ended, with `b` for `needSync`. -/
structure SectorDone (k : Settings) (G : Set ℕ) (x p : ℕ) (s s₁ : FilePager) (b : Bool) : Prop where
  sound : Sound k (G ∪ grown s s₁) x s₁
  journals : Journals (sectorRange k s p) s s₁
  dirty : p ∈ s₁.pDirty
  dbSize : s₁.dbSize = max s.dbSize p
  journalled : ∀ q ∈ sectorRange k s p, k.Valid q → q ≤ s.dbOrigSize → q ∈ s₁.pInJournal
  sync : b = true ↔ ∃ q ∈ sectorRange k s p, s₁.has (·.needSync) q = true
  allDirty : b = true → ∀ q c, s₁.cache q = some c → q ∈ sectorRange k s p → q ∈ s₁.pDirty
  allCached : b = true → ∀ q ∈ sectorRange k s p, k.Valid q → ∃ c, s₁.cache q = some c

theorem Sound.sectorDone (h : Sound k G x s) (ht : Together k x s) (hx : x = 0 ∨ x = p)
    (hk : 1 < k.nPagePerSector) (hv : k.Valid p) : ∃ s₁ b, SectorDone k G x p s s₁ b
      ∧ s.pagerWriteLargeSector k p = if b then s₁.flagSync (sectorStart k p) (s.sectorPages k p) else s₁ := by
  have hmem := fun {q} hq => mem_sectorRange (s := s) (q := q) hk hv.1 hq
  have hpos : ∀ q ∈ sectorRange k s p, 0 < q := fun q hq => by
    have := (List.mem_range'_1.1 hq).1
    simp only [sectorStart] at this
    omega
  obtain ⟨s₁, b, hr, h₁, hJ, hd, hj, hb⟩ := h.journalSector (m := p) (f := false)
    (List.nodup_range' : (sectorRange k s p).Nodup) hpos
  have hself : p ∈ sectorRange k s p := (hmem hv.1).2 ⟨.inl rfl, Nat.le_max_right _ _⟩
  obtain ⟨hpd, hple⟩ := hd p hself hv (.inl rfl)
  have hdirty : b = true → ∀ q ∈ sectorRange k s p, k.Valid q → q ∈ s₁.pDirty := by
    intro hbt q hq hvq
    by_cases hw : q = p ∨ q ∉ s.pInJournal
    · exact (hd q hq hvq hw).1
    · rw [not_or, not_not] at hw
      obtain ⟨r, hrm, hrn⟩ := (hb.1 hbt).resolve_left Bool.false_ne_true
      obtain ⟨cr, hcr, -⟩ := has_iff.1 hrn
      have hvr := h₁.valid r cr hcr
      have hsame := ((hmem hvr.1).1 hrm).1.trans ((hmem hvq.1).1 hq).1.symm
      refine hJ.keepsDirty q (ht.dirty_of_sync h hJ hsame hw.2 (fun hqx => ?_) hrn hvr)
      exact hx.elim (fun hx => hvq.1.ne' (hqx.trans hx)) fun hx => hw.1 (hqx.trans hx)
  refine ⟨s₁, b, ⟨h₁, hJ, hpd, ?_, hj, ?_, fun hbt q c hc hq => hdirty hbt q hq (h₁.valid q c hc),
    fun hbt q hq hvq => h₁.cached q (hdirty hbt q hq hvq)⟩, ?_⟩
  · exact le_antisymm (hJ.dbSizeLe _ (Nat.le_max_left _ _) fun q hq => ((hmem (hpos q hq)).1 hq).2)
      (max_le hJ.dbSize hple)
  · rw [hb, or_iff_right Bool.false_ne_true]
    rfl
  · unfold FilePager.pagerWriteLargeSector
    simp only [show FilePager.journalSector k p (List.range' (sectorStart k p) (s.sectorPages k p)) s false =
      (s₁, b) from hr]

/-- The pages of the sector wait together when all of its cached pages are flagged, or none is. -/
theorem SectorDone.together {s₁ s' : FilePager} {b : Bool} (hd : SectorDone k G x p s s₁ b)
    (ht : Together k x s)
    (horig : s.dbOrigSize ≤ s.dbSize) (hx : x = 0 ∨ x = p) (hk : 1 < k.nPagePerSector) (hv : k.Valid p)
    (hj : s'.pInJournal = s₁.pInJournal) (ho : s'.dbOrigSize = s.dbOrigSize)
    (hs : ∀ q, s'.has (·.needSync) q = true ↔ s₁.has (·.needSync) q = true ∨
      b = true ∧ (∃ c, s₁.cache q = some c) ∧ q ∈ sectorRange k s p) : Together k 0 s' := by
  have hmem := fun {q} hq => mem_sectorRange (s := s) (q := q) hk hv.1 hq
  have hin : ∀ q, k.Valid q → q ≤ s.dbOrigSize → SameSector k q p → q ∈ sectorRange k s p :=
    fun q hq hle hsame => (hmem hq.1).2 ⟨hsame, (hle.trans horig).trans (Nat.le_max_left _ _)⟩
  refine ⟨fun c hc _ q hq hle hsame => ?_, fun r hr q hq hle hsame => ?_⟩ <;> rw [ho] at hle
  · rw [hj] at hc ⊢
    have hvc := (hd.sound.inJournal c hc).2
    by_cases hcp : SameSector k c p
    · exact hd.journalled q (hin q hq hle (hsame.trans hcp)) hq hle
    · have hc' : c ∈ s.pInJournal := (hd.journals.journal c hc).resolve_right fun hm =>
        hcp ((hmem hvc.1).1 hm).1
      have hcx : c ≠ x := fun he => hx.elim (fun hx => hvc.1.ne' (he.trans hx)) fun hx =>
        hcp (.inl (he.trans hx))
      exact hd.journals.keepsJournal q (ht.whole c hc' (.inl hcx) q hq hle hsame)
  · have hvr : k.Valid r := by
      have hc : ∃ c, s₁.cache r = some c := ((hs r).1 hr).elim
        (fun hr => (has_iff.1 hr).imp fun c hc => hc.1) fun hr => hr.2.1
      exact hc.elim (hd.sound.valid r)
    by_cases hrp : SameSector k r p
    · have hqm := hin q hq hle (hsame.trans hrp)
      have hb : b = true := ((hs r).1 hr).elim (fun hr' => hd.sync.2 <| by
        by_cases hrm : r ∈ sectorRange k s p
        · exact ⟨r, hrm, hr'⟩
        · rw [hd.journals.has_eq hrm] at hr'
          exact ⟨q, hqm, hd.journals.keepsSync q (ht.waits r hr' q hq hle hsame)⟩) And.left
      exact (hs q).2 (.inr ⟨hb, hd.allCached hb q hqm hq, hqm⟩)
    · have hrm : r ∉ sectorRange k s p := fun hm => hrp ((hmem hvr.1).1 hm).1
      have hr' : s₁.has (·.needSync) r = true := ((hs r).1 hr).resolve_right fun hm => hrm hm.2.2
      rw [hd.journals.has_eq hrm] at hr'
      exact (hs q).2 (.inl (hd.journals.keepsSync q (ht.waits r hr' q hq hle hsame)))

theorem flagSync_content {pg1 nPage : ℕ} : (s.flagSync pg1 nPage).content q = s.content q := by
  have h : ((s.flagSync pg1 nPage).cache q).map (·.data) = (s.cache q).map (·.data) := by
    simp only [flagSync]
    split_ifs <;> simp [Function.comp_def]
  exact congrArg (Option.getD · (if s.dbSize < q then 0 else s.file q)) h

theorem Sound.writeLargeSector (h : Sound k G x s) (ht : Together k x s) (hx : x = 0 ∨ x = p)
    (hk : 1 < k.nPagePerSector) (hv : k.Valid p) :
    Sound k (G ∪ grown s (s.pagerWriteLargeSector k p)) 0 (s.pagerWriteLargeSector k p)
      ∧ (s.dbOrigSize ≤ s.dbSize → Together k 0 (s.pagerWriteLargeSector k p))
      ∧ Prepares p s (s.pagerWriteLargeSector k p) := by
  obtain ⟨s₁, b, hd, he⟩ := h.sectorDone ht hx hk hv
  have hx' : x = 0 ∨ x ∈ s₁.pDirty := hx.imp_right fun he => by
    rw [he]
    exact hd.dirty
  have hJ := hd.journals
  rw [he]
  cases b with
  | false =>
    refine ⟨hd.sound.settle hx', fun ho => hd.together ht ho hx hk hv rfl hJ.dbOrigSize fun q => ?_,
      hd.dirty, hJ.dbOrigSize, hd.dbSize, hJ.file, hJ.fileSize, hJ.dbFileSize, hJ.content, hJ.dontWrite⟩
    simp
  | true =>
    have hflag : Sound k (G ∪ grown s s₁) 0 (s₁.flagSync (sectorStart k p) (s.sectorPages k p)) :=
      (hd.sound.settle hx').flagSync fun q c hc h1 h2 => hd.allDirty rfl q c hc (List.mem_range'_1.2 ⟨h1, h2⟩)
    refine ⟨hflag, fun ho => hd.together ht ho hx hk hv rfl hJ.dbOrigSize fun q => ?_, hd.dirty, hJ.dbOrigSize,
      hd.dbSize, hJ.file, hJ.fileSize, hJ.dbFileSize, fun q hq => flagSync_content.trans (hJ.content q hq),
      fun q hq => ?_⟩
    · rw [if_pos rfl, flagSync_has, sectorRange, List.mem_range'_1]
      simp
    · obtain ⟨c, hc, hn⟩ := has_iff.1 hq
      obtain ⟨c', hc', rfl⟩ := flagSync_eq_some.1 hc
      refine hJ.dontWrite q (has_iff.2 ⟨c', hc', ?_⟩)
      split_ifs at hn
      · exact hn
      · exact hn

end Btreelite.FilePager
