import Btreelite.PagerTrace
import Btreelite.PagerCommit

/-!
# The journal is written ahead of the file

A page of the file is written only after the original content of all pages in its sector is in the journal
and the journal is synced. So what a power failure leaves of the file can be put right from the records
before the last journal header, whatever became of the pages that were written.
-/

namespace Btreelite.FilePager

open Function

variable {k : Settings} {W D G : Set ℕ} {x p q n : ℕ} {s s' s₀ : FilePager} {c : CachePage}
  {F : ℕ → PageImage} {a : ℕ → PageImage} {P : ℕ → Prop}

/-- The original content of the page is in the journal before the last header, or is not needed. -/
def Logged (W : Set ℕ) (F : ℕ → PageImage) (s : FilePager) (q : ℕ) : Prop :=
  q ∈ W ∨ ∃ i < s.journalHdr, s.jfd[i]? = some (q, F q)

/-- The pages of the original image in the sector of the page are in the journal. -/
def Opened (k : Settings) (s : FilePager) (p : ℕ) : Prop :=
  ∀ q, k.Valid q → q ≤ s.dbOrigSize → SameSector k q p → q ∈ s.pInJournal

/-- The pages of the original image in the sector of the page can be put back. -/
def SectorLogged (k : Settings) (W : Set ℕ) (F : ℕ → PageImage) (s : FilePager) (p : ℕ) : Prop :=
  ∀ q, k.Valid q → q ≤ s.dbOrigSize → SameSector k q p → Logged W F s q

/-- What holds between calls of the journal and of the pages that it is about, where `F` is the file as the
transaction found it. -/
structure Ahead (k : Settings) (W : Set ℕ) (F : ℕ → PageImage) (s : FilePager) : Prop where
  record : ∀ r ∈ s.jfd, r.1 ∉ W → r.2 = F r.1
  recorded : ∀ q ∈ s.pInJournal, q ∉ W → q ∈ s.jfd.map Prod.fst
  original : ∀ q, q ≤ s.dbOrigSize → q ∉ s.pInJournal → q ∉ W → s.content q = F q ∧ s.file q = F q
  dirty : ∀ r ∈ s.pDirty, Opened k s r
  sub : ∀ r ∈ s.sjfd.map Prod.fst, Opened k s r ∧
    (k.noSync = false → r ∈ s.pDirty ∨ SectorLogged k W F s r)
  waits : s.eState = .dbmod → ∀ r ∈ s.pDirty, ∀ q, k.Valid q → q ≤ s.dbOrigSize → SameSector k q r →
    s.has (·.needSync) q = true → s.has (·.needSync) r = true
  sector : ∀ i < s.journalHdr, ∀ r, s.jfd[i]? = some r → SectorLogged k W F s r.1
  hdr : s.eState ≠ .locked → s.journalHdr ≤ s.jfd.length
  size : ∀ n, n = s.dbSize ∨ n ∈ s.savepoints.map (·.nOrig) → n = s.dbOrigSize ∨ k.Valid n ∧ Opened k s n
  sorted : (s.savepoints.map (·.nOrig)).Pairwise (· ≤ ·)
  saved : SavedIn s
  fileSize : s.dbOrigSize ≤ s.dbFileSize

theorem Opened.mono (h : Opened k s p) (ho : s'.dbOrigSize = s.dbOrigSize)
    (hj : ∀ q ∈ s.pInJournal, q ∈ s'.pInJournal) : Opened k s' p :=
  fun q hv hle hs => hj q (h q hv (ho ▸ hle) hs)

theorem SectorLogged.mono (h : SectorLogged k W F s p) (ho : s'.dbOrigSize = s.dbOrigSize)
    (hl : ∀ q, Logged W F s q → Logged W F s' q) : SectorLogged k W F s' p :=
  fun q hv hle hs => hl q (h q hv (ho ▸ hle) hs)

theorem Opened.trans (h : Opened k s p) (hs : SameSector k q p) : Opened k s q :=
  fun r hv hle hr => h r hv hle (hr.trans hs)

/-! ## Making a page writable -/

/-- What `sqlite3PagerWrite` does to the pages of the sector. -/
structure Sectored (k : Settings) (p : ℕ) (s s' : FilePager) : Prop where
  dirty : ∀ q ∈ s'.pDirty, q ∈ s.pDirty ∨ SameSector k q p
  keeps : ∀ q ∈ s.pDirty, q ∈ s'.pDirty
  opened : Opened k s' p
  waits : s'.eState = .dbmod → ∀ r ∈ s'.pDirty, ∀ q, k.Valid q → q ≤ s'.dbOrigSize → SameSector k q r →
    s'.has (·.needSync) q = true → s'.has (·.needSync) r = true

/-- A dirty page behind the part of the sector that was gone through waits for the sync when a page of the
original image in the sector does. -/
theorem SectorDone.waits_old {s₁ : FilePager} {b : Bool} {r : ℕ} (hd : SectorDone k G x p s s₁ b)
    (ht : Together k x s) (hk : 1 < k.nPagePerSector) (hv : k.Valid p) (he : s.eState = .dbmod) (hopened : Opened k s r)
    (hwaits : ∀ q, k.Valid q → q ≤ s.dbOrigSize → SameSector k q r → s.has (·.needSync) q = true →
      s.has (·.needSync) r = true) (hrp : SameSector k r p) (hq : k.Valid q) (hle : q ≤ s.dbOrigSize)
    (hqr : SameSector k q r) (hn : s₁.has (·.needSync) q = true ∨ b = true) : s.has (·.needSync) r = true := by
  have hold : ∀ u, u ≤ s.dbOrigSize → SameSector k u r → k.Valid u → s₁.has (·.needSync) u = true →
      s.has (·.needSync) u = true := fun u hu hur hvu hn =>
    (hd.journals.sync u hn).resolve_right fun hj => hj.1 (hopened u hvu hu hur)
  rcases hn with hn | hb
  · exact hwaits q hq hle hqr (hold q hle hqr hq hn)
  · obtain ⟨u, hu, hn⟩ := hd.sync.1 hb
    have hvu : k.Valid u := by
      obtain ⟨c, hc, -⟩ := has_iff.1 hn
      exact hd.sound.valid u c hc
    have hup := ((mem_sectorRange hk hv.1 hvu.1).1 hu).1
    have hur : SameSector k u r := hup.trans hrp.symm
    have hns : s.has (·.needSync) u = true := by
      refine (hd.journals.sync u hn).resolve_right fun hj => ?_
      exact hj.1 (hopened u hvu (hj.2.resolve_right fun h => h he) hur)
    exact hwaits q hq hle hqr (ht.waits u hns q hq hle (hqr.trans hur.symm))

theorem Ahead.sectored_large (ha : Ahead k W F s) (h : Sound k G x s) (ht : Together k x s) (hx : x = 0 ∨ x = p)
    (hk : 1 < k.nPagePerSector) (hv : k.Valid p) (ho : s.dbOrigSize ≤ s.dbSize) :
    Sectored k p s (s.pagerWriteLargeSector k p) := by
  obtain ⟨s₁, b, hd, he⟩ := h.sectorDone ht hx hk hv
  have hmem := fun {q} hq => mem_sectorRange (s := s) (q := q) hk hv.1 hq
  have hin : ∀ q, k.Valid q → q ≤ s.dbOrigSize → SameSector k q p → q ∈ sectorRange k s p :=
    fun q hq hle hs => (hmem hq.1).2 ⟨hs, (hle.trans ho).trans (Nat.le_max_left _ _)⟩
  obtain ⟨t, htt⟩ : ∃ t, t = s.pagerWriteLargeSector k p := ⟨_, rfl⟩
  have hframe : t.pDirty = s₁.pDirty ∧ t.pInJournal = s₁.pInJournal ∧ t.dbOrigSize = s.dbOrigSize ∧
      t.eState = s₁.eState := by
    rw [htt, he]
    split_ifs <;> exact ⟨rfl, rfl, hd.journals.dbOrigSize, rfl⟩
  have hsync : ∀ q, t.has (·.needSync) q = true ↔ s₁.has (·.needSync) q = true ∨
      b = true ∧ (∃ c, s₁.cache q = some c) ∧ q ∈ sectorRange k s p := fun q => by
    rw [htt, he]
    cases b with
    | false => simp
    | true => rw [if_pos rfl, flagSync_has, sectorRange, List.mem_range'_1]; simp
  rw [← htt]
  obtain ⟨hf1, hf2, hf3, hf4⟩ := hframe
  refine ⟨fun q hq => ?_, fun q hq => ?_, fun q hq hle hs => ?_, fun hdb r hr q hq hle hs hn => ?_⟩
  · rw [hf1] at hq
    obtain ⟨c, hc⟩ := hd.sound.cached q hq
    exact (hd.journals.dirty q hq).imp_right fun hq => ((hmem (hd.sound.valid q c hc).1).1 hq).1
  · rw [hf1]
    exact hd.journals.keepsDirty q hq
  · rw [hf2]
    rw [hf3] at hle
    exact hd.journalled q (hin q hq hle hs) hq hle
  · rw [hf3] at hle
    rw [hf1] at hr
    rw [hf4] at hdb
    obtain ⟨c, hc⟩ := hd.sound.cached r hr
    have hvr := hd.sound.valid r c hc
    have hse : s.eState = .dbmod := by
      rcases hd.journals.eState with hs | hs
      · exact hs.symm.trans hdb
      · rw [hs.2] at hdb
        cases hdb
    have hold : r ∉ sectorRange k s p → r ∈ s.pDirty := fun hrm => (hd.journals.dirty r hr).resolve_right hrm
    by_cases hrp : SameSector k r p
    · have hqm := hin q hq hle (hs.trans hrp)
      by_cases hrm : r ∈ sectorRange k s p
      · have hb : b = true := ((hsync q).1 hn).elim (fun hn => hd.sync.2 ⟨q, hqm, hn⟩) And.left
        exact (hsync r).2 (.inr ⟨hb, ⟨c, hc⟩, hrm⟩)
      · have hr' := hold hrm
        have hns := hd.waits_old ht hk hv hse (ha.dirty r hr') (ha.waits hse r hr') hrp hq hle hs
          (((hsync q).1 hn).imp_right And.left)
        exact (hsync r).2 (.inl (hd.journals.keepsSync r hns))
    · have hrm : r ∉ sectorRange k s p := fun hm => hrp ((hmem hvr.1).1 hm).1
      have hqm : q ∉ sectorRange k s p := fun hm => hrp (hs.symm.trans ((hmem hq.1).1 hm).1)
      have hnq : s₁.has (·.needSync) q = true := ((hsync q).1 hn).resolve_right fun h => hqm h.2.2
      rw [hd.journals.has_eq hqm] at hnq
      exact (hsync r).2 (.inl (hd.journals.keepsSync r (ha.waits hse r (hold hrm) q hq hle hs hnq)))

theorem Ahead.sectored (ha : Ahead k W F s) (h : Sound k G x s) (ht : Together k x s) (hx : x = 0 ∨ x = p)
    (hc : ∃ c, s.cache p = some c) (ho : s.dbOrigSize ≤ s.dbSize) : Sectored k p s (s.sqlite3PagerWrite k p) := by
  obtain ⟨c, hc⟩ := hc
  unfold FilePager.sqlite3PagerWrite
  split_ifs with hw hk
  · obtain ⟨b, hb, hbw⟩ := has_iff.1 hw.1
    have hd := (h.writeable p b hb hbw).1
    obtain ⟨ss, l, he⟩ := s.subjournalPageIfRequired_frame (p := p)
    rw [he]
    exact ⟨fun _ => .inl, fun _ => id, ha.dirty p hd, ha.waits⟩
  · exact ha.sectored_large h ht hx hk (h.valid p c hc) ho
  · have hW := h.pageWritten (p := p)
    have hself : ∀ {a b}, SameSector k a b → a = b := fun hs => hs.elim id fun hs => absurd hs.1 hk
    refine ⟨fun q hq => ?_, fun q hq => ?_, fun q _ hle hs => ?_, fun _ r _ q _ _ hs hn => ?_⟩
    · exact ((hW.dirty q).1 hq).symm.imp_right .inl
    · exact (hW.dirty q).2 (.inr hq)
    · rw [hW.dbOrigSize] at hle
      exact (hW.journal q).2 (.inr ⟨hself hs, hself hs ▸ hle⟩)
    · exact hself hs ▸ hn

/-- The records before the last journal header stay. -/
structure LogKept (s s' : FilePager) : Prop where
  dbOrigSize : s'.dbOrigSize = s.dbOrigSize
  kept : ∀ i r, i < s.journalHdr → s.jfd[i]? = some r → i < s'.journalHdr ∧ s'.jfd[i]? = some r

theorem LogKept.logged (h : LogKept s s') (hq : Logged W F s q) : Logged W F s' q :=
  hq.imp_right fun hr => hr.imp fun i hi => h.kept i _ hi.1 hi.2

theorem SectorLogged.kept (h : SectorLogged k W F s p) (hk : LogKept s s') : SectorLogged k W F s' p :=
  h.mono hk.dbOrigSize fun _ hq => hk.logged hq

theorem LogKept.trans {s₁ : FilePager} (h : LogKept s s₁) (h' : LogKept s₁ s') : LogKept s s' :=
  ⟨h'.dbOrigSize.trans h.dbOrigSize, fun i r hi hr =>
    have h1 := h.kept i r hi hr
    h'.kept i r h1.1 h1.2⟩

theorem LogKept.of_eq (ho : s'.dbOrigSize = s.dbOrigSize) (hh : s'.journalHdr = s.journalHdr)
    (hj : s'.jfd = s.jfd) : LogKept s s' := ⟨ho, fun _ _ hi hr => ⟨hh ▸ hi, hj ▸ hr⟩⟩

theorem HdrKept.getElem? {i : ℕ} {r : ℕ × PageImage} (h : HdrKept s s') (hq : s.eState = .locked → s.jfd = [])
    (hr : s.jfd[i]? = some r) (hi : i < s.journalHdr) : i < s'.journalHdr := by
  rcases h with ⟨he, -⟩ | ⟨hl, -⟩
  · exact he.1 ▸ hi
  · rw [hq hl] at hr
    cases hr

theorem Sound.write_logKept (h : Sound k G x s) (ht : Together k x s) (hx : x = 0 ∨ x = p)
    (hc : ∃ c, s.cache p = some c) (hs : SavedIn s) (ho : s.dbOrigSize ≤ s.dbSize) :
    LogKept s (s.sqlite3PagerWrite k p) := by
  obtain ⟨hlogs, hhdr⟩ := h.write_logs hc hs ho
  obtain ⟨new, hnew, -⟩ := hlogs.main_append
  refine ⟨(h.sqlite3PagerWrite ht hx hc).2.2.dbOrigSize, fun i r hi hr => ⟨?_, ?_⟩⟩
  · exact hhdr.getElem? (fun hl => (h.quiet hl).2.2.1) hr hi
  · rw [show (s.sqlite3PagerWrite k p).jfd = s.jfd ++ new from hnew,
      List.getElem?_append_left (List.getElem?_eq_some_iff.1 hr).1]
    exact hr

/-- A page of the original image that is not in the journal is as it was found, and is journalled so. -/
theorem Ahead.write (ha : Ahead k W F s) (h : Sound k G x s) (ht : Together k x s) (hx : x = 0 ∨ x = p)
    (hc : ∃ c, s.cache p = some c) (ho : s.dbOrigSize ≤ s.dbSize) : Ahead k W F (s.sqlite3PagerWrite k p) := by
  have hv : k.Valid p := hc.elim (h.valid p)
  obtain ⟨hlogs, hhdr⟩ := h.write_logs hc ha.saved ho
  have hkept := h.write_logKept ht hx hc ha.saved ho
  have hsec := ha.sectored h ht hx hc ho
  obtain ⟨-, -, hP⟩ := h.sqlite3PagerWrite ht hx hc
  obtain ⟨t, htt⟩ : ∃ t, t = s.sqlite3PagerWrite k p := ⟨_, rfl⟩
  rw [← htt] at hlogs hhdr hkept hsec hP ⊢
  obtain ⟨new, hnew, hrec⟩ := hlogs.main_append
  have hjfd : t.jfd = s.jfd ++ new := hnew
  have hin : ∀ q ∈ s.pInJournal, q ∈ t.pInJournal := hlogs.keeps
  have hold : ∀ {i r}, i < s.jfd.length → (t.jfd[i]? = some r ↔ s.jfd[i]? = some r) := fun {i r} hi => by
    rw [hjfd, List.getElem?_append_left hi]
  have hbegun : t.eState ≠ .locked → t.journalHdr ≤ s.jfd.length := fun hl => by
    rcases hhdr with ⟨he, hs⟩ | ⟨-, he, -⟩
    · exact he.1 ▸ ha.hdr (hs ▸ hl)
    · exact he ▸ Nat.zero_le _
  have hne : t.eState ≠ .locked := fun hl => by
    obtain ⟨h1, -⟩ := h.sqlite3PagerWrite ht hx hc
    rw [← htt] at h1
    exact h1.ne_locked hP.dirty hl
  refine ⟨fun r hr hW => ?_, fun q hq hW => ?_, fun q hle hq hW => ?_, fun r hr => ?_, fun r hr => ?_, hsec.waits,
    fun i hi r hr => ?_, fun _ => ?_, fun n hn => ?_, ?_, ?_, ?_⟩
  · rcases List.mem_append.1 (hjfd ▸ hr) with hr | hr
    · exact ha.record r hr hW
    · obtain ⟨hj, hle, hd⟩ := hrec r hr
      exact hd.trans (ha.original _ hle hj hW).1
  · rcases hlogs.recorded hq with hq | hq
    · have hm : t.jfd.map Prod.fst = s.jfd.map Prod.fst ++ new.map Prod.fst := by rw [hjfd, List.map_append]
      rw [hm]
      exact List.mem_append_left _ (ha.recorded q hq hW)
    · exact hq
  · rw [hP.dbOrigSize] at hle
    obtain ⟨h1, h2⟩ := ha.original q hle (fun hj => hq (hin q hj)) hW
    exact ⟨(hP.content q (hle.trans ho)).trans h1, (congrFun hP.file q).trans h2⟩
  · rcases hsec.dirty r hr with hr | hr
    · exact (ha.dirty r hr).mono hP.dbOrigSize hin
    · exact hsec.opened.trans hr
  · rcases hlogs.sub_of hr with hr | hr
    · obtain ⟨h1, h2⟩ := ha.sub r hr
      exact ⟨h1.mono hP.dbOrigSize hin, fun hk => (h2 hk).imp (hsec.keeps r) fun h2 => h2.kept hkept⟩
    · exact ⟨hsec.opened.trans hr.1, fun _ => .inl hr.2⟩
  · have hlt := hi.trans_le (hbegun hne)
    have hi' : i < s.journalHdr := by
      rcases hhdr with ⟨he, -⟩ | ⟨-, he, -⟩
      · exact he.1 ▸ hi
      · exact absurd hi (he ▸ Nat.not_lt_zero i)
    exact (ha.sector i hi' r ((hold hlt).1 hr)).kept hkept
  · rw [hjfd, List.length_append]
    exact (hbegun hne).trans (Nat.le_add_right _ _)
  · have hsize : ∀ n, n = s.dbSize ∨ n ∈ s.savepoints.map (·.nOrig) → n = t.dbOrigSize ∨
        k.Valid n ∧ Opened k t n := fun n hn => by
      rw [hP.dbOrigSize]
      exact (ha.size n hn).imp_right fun hn => ⟨hn.1, hn.2.mono hP.dbOrigSize hin⟩
    rcases hn with rfl | hn
    · rw [hP.dbSize]
      rcases Nat.le_total s.dbSize p with hle | hle
      · rw [Nat.max_eq_right hle]
        exact .inr ⟨hv, hsec.opened⟩
      · rw [Nat.max_eq_left hle]
        exact hsize s.dbSize (.inl rfl)
    · exact hsize n (.inr (hlogs.nOrig ▸ hn))
  · rw [show t.savepoints.map (·.nOrig) = s.savepoints.map (·.nOrig) from hlogs.nOrig]
    exact ha.sorted
  · exact ha.saved.logged hlogs (hP.dbSize ▸ Nat.le_max_left _ _)
  · rw [hP.dbOrigSize, hP.dbFileSize]
    exact ha.fileSize

/-- A call that leaves the journals and the sizes as they are. -/
theorem Ahead.frame (ha : Ahead k W F s) (hb : s'.books = s.books) (hh : s'.journalHdr = s.journalHdr)
    (ho : s'.dbOrigSize = s.dbOrigSize) (hn : s'.dbSize = s.dbSize) (he : s'.eState = s.eState)
    (hd : ∀ q, q ∈ s'.pDirty ↔ q ∈ s.pDirty) (hs : ∀ q, s'.has (·.needSync) q = s.has (·.needSync) q)
    (hf : s.dbFileSize ≤ s'.dbFileSize)
    (hc : ∀ q, q ≤ s.dbOrigSize → q ∉ s.pInJournal → q ∉ W → s'.content q = F q ∧ s'.file q = F q) :
    Ahead k W F s' := by
  obtain ⟨hjfd, hj, hsp, hsub⟩ : s'.jfd = s.jfd ∧ s'.pInJournal = s.pInJournal ∧ s'.savepoints = s.savepoints ∧
      s'.sjfd = s.sjfd := by simpa [books] using hb
  have hopen : ∀ {r}, Opened k s r → Opened k s' r := fun hr => hr.mono ho fun q hq => hj ▸ hq
  have hlog : ∀ {r}, SectorLogged k W F s r → SectorLogged k W F s' r := fun hr => hr.mono ho fun q hq => by
    rw [Logged, hjfd, hh]
    exact hq
  constructor
  · exact hjfd ▸ ha.record
  · exact hjfd ▸ hj ▸ ha.recorded
  · exact ho ▸ hj ▸ hc
  · exact fun r hr => hopen (ha.dirty r ((hd r).1 hr))
  · exact fun r hr => (ha.sub r (hsub ▸ hr)).imp hopen fun h hk => (h hk).imp (hd r).2 hlog
  · intro hs' r hr q hq hle hsame hnq
    rw [hs] at hnq ⊢
    exact ha.waits (he ▸ hs') r ((hd r).1 hr) q hq (ho ▸ hle) hsame hnq
  · exact fun i hi r hr => hlog (ha.sector i (hh ▸ hi) r (hjfd ▸ hr))
  · rw [he, hh, hjfd]
    exact ha.hdr
  · rw [hn, hsp, ho]
    exact fun n hn' => (ha.size n hn').imp_right fun h => ⟨h.1, hopen h.2⟩
  · exact hsp ▸ ha.sorted
  · rw [SavedIn, hsp, hn]
    exact ha.saved
  · exact (ho ▸ ha.fileSize).trans hf

/-- What a call does for the journal and the file, where it writes pages of `Y`. -/
structure Forward (k : Settings) (W : Set ℕ) (F : ℕ → PageImage) (Y : Set ℕ) (s s' : FilePager) : Prop where
  ahead : Ahead k W F s'
  logKept : LogKept s s'
  logged : k.noSync = false → ∀ p ∈ Y, SectorLogged k W F s' p
  file : ∀ q, q ∉ Y → s'.file q = s.file q

theorem Forward.quiet (ha : Ahead k W F s') (hk : LogKept s s') (hf : s'.file = s.file) : Forward k W F ∅ s s' :=
  ⟨ha, hk, fun _ _ hp => absurd hp (Set.notMem_empty _), fun _ _ => hf ▸ rfl⟩

/-! ## The calls that write no file -/

/-- A dirty page of the original image is in the journal. -/
theorem Ahead.mem_of_dirty (ha : Ahead k W F s) (h : Sound k G x s) (hp : p ∈ s.pDirty) (hle : p ≤ s.dbOrigSize) :
    p ∈ s.pInJournal := by
  obtain ⟨c, hc⟩ := h.cached p hp
  exact ha.dirty p hp p (h.valid p c hc) hle (.inl rfl)

theorem content_frame (hc : s'.cache q = s.cache q) (hf : s'.file q = s.file q) (hn : s'.dbSize = s.dbSize) :
    s'.content q = s.content q := by
  unfold content
  rw [hc, hf, hn]

theorem mapPage_of_ne {f : CachePage → CachePage} (hq : q ≠ p) : (s.mapPage p f).cache q = s.cache q :=
  update_of_ne hq _ _

theorem mapPage_content {f : CachePage → CachePage} (hf : ∀ c, (f c).data = c.data) :
    (s.mapPage p f).content q = s.content q := by
  by_cases hq : q = p
  · subst hq
    cases hc : s.cache q <;> simp [content, FilePager.mapPage, hc, hf]
  · exact content_frame (mapPage_of_ne hq) rfl rfl

theorem Ahead.getPage (ha : Ahead k W F s) : Ahead k W F (s.getPage p) := by
  obtain ⟨cache, v, he⟩ := s.getPage_frame (p := p)
  refine ha.frame getPage_books ?_ ?_ ?_ ?_ (fun q => ?_) (fun q => getPage_has (fun _ => rfl) s) ?_
    fun q hle hj hW => ?_
  · rw [he]
  · rw [he]
  · rw [he]
  · rw [he]
  · rw [he]
  · rw [he]
  · rw [getPage_content, he]
    exact ha.original q hle hj hW

/-- Other data for a dirty page. -/
theorem Ahead.setData (ha : Ahead k W F s) (h : Sound k G x s) (hp : p ∈ s.pDirty) (a : PageImage) :
    Ahead k W F (s.setData p a) := by
  refine ha.frame rfl rfl rfl rfl rfl (fun _ => Iff.rfl) (fun q => setData_has fun _ _ => rfl) le_rfl
    fun q hle hj hW => ?_
  have hqp : q ≠ p := fun hqp => hj (hqp ▸ ha.mem_of_dirty h hp (hqp ▸ hle))
  have hc : (s.setData p a).content q = s.content q := content_frame (mapPage_of_ne hqp) rfl rfl
  rw [hc]
  exact ha.original q hle hj hW

theorem Ahead.dontWrite (ha : Ahead k W F s) : Ahead k W F (s.sqlite3PagerDontWrite p) := by
  unfold sqlite3PagerDontWrite
  split_ifs
  · refine ha.frame rfl rfl rfl rfl rfl (fun _ => Iff.rfl) (fun q => mapPage_has fun _ => rfl) le_rfl
      fun q hle hj hW => ?_
    have hc : (s.mapPage p fun c => { c with dontWrite := true, writeable := false }).content q = s.content q :=
      mapPage_content fun _ => rfl
    rw [hc]
    exact ha.original q hle hj hW
  · exact ha

theorem Ahead.evict (ha : Ahead k W F s) (h : Sound k G x s) (ho : s.dbOrigSize ≤ s.dbSize) (hp : p ∉ s.pDirty) :
    Ahead k W F (s.evict p) := by
  refine ha.frame rfl rfl rfl rfl rfl (fun _ => Iff.rfl) (fun q => ?_) le_rfl fun q hle hj hW => ?_
  · rw [Bool.eq_iff_iff, evict_has]
    exact ⟨And.right, fun hn => ⟨fun hq => hp (hq ▸ h.mem_dirty_of_has hn), hn⟩⟩
  · obtain ⟨h1, h2⟩ := ha.original q hle hj hW
    refine ⟨?_, h2⟩
    by_cases hqp : q = p
    · have hq : (s.evict p).cache q = none := by simp [FilePager.evict, hqp]
      rw [content_of_none hq]
      exact (if_neg (Nat.not_lt.2 (hle.trans ho))).trans h2
    · rw [← h1]
      exact content_frame (update_of_ne hqp _ _) rfl rfl

theorem Ahead.exchange (ha : Ahead k W F s) (h : Sound k G x s) {a b : ℕ} (hab : a ≠ b)
    (hwa : s.has (·.writeable) a = true) (hwb : s.has (·.writeable) b = true) : Ahead k W F (s.exchange k a b) := by
  obtain ⟨fgA, hca, hwa⟩ := has_iff.1 hwa
  obtain ⟨fgB, hcb, hwb⟩ := has_iff.1 hwb
  have hda := (h.writeable a fgA hca hwa).1
  have hdb := (h.writeable b fgB hcb hwb).1
  have hsj : s.cache k.sjPgno = none := Option.eq_none_iff_forall_ne_some.2 fun c hc => (h.valid _ c hc).2 rfl
  have hds : k.sjPgno ∉ s.pDirty := fun hd => (h.cached _ hd).elim fun c hc => (h.valid _ c hc).2 rfl
  obtain ⟨l, he, hl⟩ := exchange_eq hca hcb hab (h.valid a fgA hca).2 (h.valid b fgB hcb).2 hsj hda hdb hds
  have h1 := (ha.setData h hda fgB.data).setData (h.setData hda fgB.data) (p := b) hdb fgA.data
  rw [he]
  exact h1.frame rfl rfl rfl rfl rfl hl (fun _ => rfl) le_rfl h1.original

/-- A page whose content is not needed may count as journalled. -/
theorem Ahead.getNoContent (ha : Ahead k W F s) (hW : p ∈ W) : Ahead k W F (s.getNoContent p) := by
  have hin : ∀ q ∈ s.pInJournal, q ∈ (s.getNoContent p).pInJournal := fun q hq =>
    mem_pInJournal_getNoContent.2 (.inl hq)
  have hsync : ∀ q, (s.getNoContent p).has (·.needSync) q = s.has (·.needSync) q := fun q =>
    getNoContent_has (fun _ => rfl) fun _ _ => rfl
  have hn : (s.getNoContent p).savepoints.map (·.nOrig) = s.savepoints.map (·.nOrig) := addBits_nOrig _
  constructor
  · exact ha.record
  · intro q hq hqW
    refine ha.recorded q ((mem_pInJournal_getNoContent.1 hq).resolve_right fun hq => hqW (hq.1 ▸ hW)) hqW
  · intro q hle hj hqW
    have hqp : q ≠ p := fun hqp => hqW (hqp ▸ hW)
    have hc : (s.getNoContent p).content q = s.content q := content_frame (update_of_ne hqp _ _) rfl rfl
    rw [hc]
    exact ha.original q hle (fun hq => hj (hin q hq)) hqW
  · exact fun r hr => (ha.dirty r hr).mono rfl hin
  · exact fun r hr => (ha.sub r hr).imp_left fun h => h.mono rfl hin
  · intro he r hr q hq hle hs hnq
    rw [hsync] at hnq ⊢
    exact ha.waits he r hr q hq hle hs hnq
  · exact ha.sector
  · exact ha.hdr
  · rw [hn]
    exact fun n hn' => (ha.size n hn').imp_right fun h => ⟨h.1, h.2.mono rfl hin⟩
  · rw [hn]
    exact ha.sorted
  · rw [SavedIn, hn]
    exact ha.saved
  · exact ha.fileSize

theorem getPage_logKept : LogKept s (s.getPage p) := by
  obtain ⟨cache, v, he⟩ := s.getPage_frame (p := p)
  rw [he]
  exact .of_eq rfl rfl rfl

theorem getPage_file : (s.getPage p).file = s.file := by
  obtain ⟨cache, v, he⟩ := s.getPage_frame (p := p)
  rw [he]

theorem Ahead.readWrite (ha : Ahead k W F s) (hC : Consistent k G s) (hv : k.Valid p) :
    Forward k W F ∅ s ((s.getPage p).sqlite3PagerWrite k p) := by
  have h1 := hC.getPage hv
  have hc := s.exists_getPage (p := p)
  obtain ⟨-, -, hP⟩ := h1.sound.sqlite3PagerWrite h1.together (.inl rfl) hc
  refine .quiet (ha.getPage.write h1.sound h1.together (.inl rfl) hc h1.origLe) ?_ (hP.file.trans getPage_file)
  exact getPage_logKept.trans (h1.sound.write_logKept h1.together (.inl rfl) hc ha.getPage.saved h1.origLe)

theorem Ahead.getWrite (ha : Ahead k W F s) (hC : Consistent k G s) {noContent : Bool} {t : FilePager}
    (ht : s.sqlite3PagerGet k p noContent = some t) (hw : noContent = true → p ∈ W) :
    Forward k W F ∅ s (t.sqlite3PagerWrite k p) := by
  unfold sqlite3PagerGet at ht
  split_ifs at ht with hbad hno
  · rw [not_or] at hbad
    obtain rfl := Option.some.inj ht
    have h1 := hC.sound.getNoContent (p := p) ⟨Nat.pos_of_ne_zero hbad.1, hbad.2⟩
    have ht1 := hC.together.getNoContent (p := p) hC.sound
    have hc : ∃ c, (s.getNoContent p).cache p = some c := ⟨_, getNoContent_eq_some.2 (.inr ⟨rfl, rfl⟩)⟩
    have ha1 := ha.getNoContent (hw hno)
    obtain ⟨-, -, hP⟩ := h1.sqlite3PagerWrite ht1 (.inr rfl) hc
    refine .quiet (ha1.write h1 ht1 (.inr rfl) hc hC.origLe) ?_ hP.file
    have h0 : LogKept s (s.getNoContent p) := .of_eq rfl rfl rfl
    exact h0.trans (h1.write_logKept ht1 (.inr rfl) hc ha1.saved hC.origLe)
  · rw [not_or] at hbad
    obtain rfl := Option.some.inj ht
    exact ha.readWrite hC ⟨Nat.pos_of_ne_zero hbad.1, hbad.2⟩

theorem Ahead.incrChangecounter (ha : Ahead k W F s) (hC : Consistent k G s) :
    Forward k W F ∅ s (s.pagerIncrChangecounter k) := by
  unfold pagerIncrChangecounter
  split_ifs
  · have hv : k.Valid 1 := ⟨one_pos, k.one_lt_sjPgno.ne⟩
    have hf := ha.readWrite hC hv
    have h1 := hC.getPage hv
    obtain ⟨h2, -, hP⟩ := h1.sound.sqlite3PagerWrite h1.together (.inl rfl) s.exists_getPage
    obtain ⟨t, ht⟩ : ∃ t, t = (s.getPage 1).sqlite3PagerWrite k 1 := ⟨_, rfl⟩
    rw [← ht] at hf h2 hP ⊢
    obtain ⟨c, hc⟩ := h2.cached 1 hP.dirty
    obtain ⟨a, hs⟩ : ∃ a, t.pagerWriteChangecounter = t.setData 1 a := ⟨((c.data.put32bits 24
      (t.dbFileVers + 1)).put32bits 92 (t.dbFileVers + 1)).put32bits 96 3054000, by
        simp [pagerWriteChangecounter, FilePager.mapPage, FilePager.setData, hc]⟩
    have h3 := hf.ahead.setData h2 hP.dirty a
    rw [hs]
    exact .quiet (h3.frame rfl rfl rfl rfl rfl (fun _ => Iff.rfl) (fun _ => rfl) le_rfl h3.original)
      (hf.logKept.trans (.of_eq rfl rfl rfl)) (hP.file.trans getPage_file)
  · exact .quiet ha (.of_eq rfl rfl rfl) rfl

theorem Ahead.openSavepoint (ha : Ahead k W F s) (n : ℕ) : Ahead k W F (s.openSavepoint n) := by
  have hn : (s.openSavepoint n).savepoints.map (·.nOrig) =
      s.savepoints.map (·.nOrig) ++ List.replicate (n - s.savepoints.length) s.dbSize := by
    simp [FilePager.openSavepoint]
  refine { ha with size := ?_, sorted := ?_, saved := ?_ }
  · rw [hn]
    refine fun m hm => ha.size m ?_
    rcases hm with hm | hm
    · exact .inl hm
    · rcases List.mem_append.1 hm with hm | hm
      · exact .inr hm
      · exact .inl (List.eq_of_mem_replicate hm)
  · rw [hn, List.pairwise_append]
    refine ⟨ha.sorted, List.pairwise_replicate.2 (.inr le_rfl), fun m hm m' hm' => ?_⟩
    exact (ha.saved m hm).trans_eq (List.eq_of_mem_replicate hm').symm
  · rw [SavedIn, hn]
    intro m hm
    rcases List.mem_append.1 hm with hm | hm
    · exact ha.saved m hm
    · exact (List.eq_of_mem_replicate hm).le

/-! ## The calls that write the file -/

theorem Ahead.logged_of_index (ha : Ahead k W F s) (hq : q ∈ s.pInJournal)
    (hi : ∀ i r, s.jfd[i]? = some r → r.1 = q → i < s.journalHdr) : Logged W F s q := by
  by_cases hW : q ∈ W
  · exact .inl hW
  · obtain ⟨r, hr, rfl⟩ := List.mem_map.1 (ha.recorded q hq hW)
    obtain ⟨i, hget⟩ := List.mem_iff_getElem?.1 hr
    refine .inr ⟨i, hi i r hget rfl, ?_⟩
    rw [hget, ← ha.record r hr hW]

/-- A dirty page that does not wait for a sync may be written. -/
theorem Ahead.sectorLogged (ha : Ahead k W F s) (h : Sound k G x s) (hk : k.noSync = false)
    (he : s.eState = .dbmod) (hp : p ∈ s.pDirty) (hn : ¬ s.has (·.needSync) p = true) : SectorLogged k W F s p := by
  intro q hq hle hs
  refine ha.logged_of_index (ha.dirty p hp q hq hle hs) fun i r hr hrq => Nat.lt_of_not_le fun hi => hn ?_
  obtain ⟨c, hc, hnc⟩ := h.unsynced hk i r hr hi
  exact ha.waits he p hp q hq hle hs (hrq ▸ has_iff.2 ⟨c, hc, hnc⟩)

theorem syncJournal_logKept : LogKept s (s.syncJournal k) := by
  refine ⟨rfl, fun i r hi hr => ⟨?_, hr⟩⟩
  simp only [FilePager.syncJournal]
  split_ifs
  · exact hi
  · exact (List.getElem?_eq_some_iff.1 hr).1

theorem syncJournal_hdr (hk : k.noSync = false) : (s.syncJournal k).journalHdr = s.jfd.length := by
  simp only [FilePager.syncJournal, hk, Bool.false_eq_true, if_false]

theorem Ahead.syncJournal (ha : Ahead k W F s) (h : Sound k G 0 s) (ht : Together k 0 s) (hl : s.eState ≠ .locked) :
    Ahead k W F (s.syncJournal k) := by
  have hkept := syncJournal_logKept (k := k) (s := s)
  refine { ha with
    original := fun q hle hj hW => ?_, sub := fun r hr => ?_, waits := fun _ r _ q _ _ _ hn => ?_,
    sector := fun i hi r hr q hq hle hs => ?_, hdr := fun _ => ?_ }
  · rw [syncJournal_content]
    exact ha.original q hle hj hW
  · obtain ⟨h1, h2⟩ := ha.sub r hr
    exact ⟨h1, fun hk => (h2 hk).imp_right fun h2 => h2.kept hkept⟩
  · exact absurd hn h.not_needSync
  · cases hk : k.noSync with
    | true =>
      have hi' : i < s.journalHdr := by simpa only [FilePager.syncJournal, hk, if_true] using hi
      exact ((ha.sector i hi' r hr).kept hkept) q hq hle hs
    | false =>
      have hj := h.mainIn r (List.mem_of_getElem? hr)
      have hqj := ht.whole r.1 hj (.inl (h.inJournal _ hj).2.1.ne') q hq hle hs
      by_cases hW : q ∈ W
      · exact .inl hW
      · obtain ⟨r', hr', rfl⟩ := List.mem_map.1 (ha.recorded q hqj hW)
        obtain ⟨j, hget⟩ := List.mem_iff_getElem?.1 hr'
        refine .inr ⟨j, ?_, ?_⟩
        · rw [syncJournal_hdr hk]
          exact (List.getElem?_eq_some_iff.1 hget).1
        · rw [← ha.record r' hr' hW]
          exact hget
  · simp only [FilePager.syncJournal]
    split_ifs
    · exact ha.hdr hl
    · exact le_rfl

/-- A page that is not of the original image, or is in the journal, may change in the file. -/
theorem Ahead.restore (ha : Ahead k W F s) (hp : p ≤ s.dbOrigSize → p ∈ s.pInJournal) {a : PageImage} {v : ℕ} :
    Ahead k W F { (s.osWrite p a).setData p a with dbFileVers := v } := by
  refine ha.frame rfl rfl rfl rfl rfl (fun _ => Iff.rfl) (fun q => setData_has (s := s.osWrite p a) fun _ _ => rfl)
    (Nat.le_max_left _ _) fun q hle hj hW => ?_
  have hqp : q ≠ p := fun hqp => hj (hqp ▸ hp (hqp ▸ hle))
  obtain ⟨h1, h2⟩ := ha.original q hle hj hW
  refine ⟨?_, ?_⟩
  · rw [← h1]
    exact content_frame (mapPage_of_ne (s := s.osWrite p a) hqp) (update_of_ne hqp _ _) rfl
  · rw [← h2]
    exact update_of_ne hqp _ _

/-- The journals and sizes stay, and of the file only `p` changes. -/
structure WritesOnly (p : ℕ) (s s' : FilePager) : Prop where
  logKept : LogKept s s'
  file : ∀ q, q ≠ p → s'.file q = s.file q

theorem Ahead.writePage (ha : Ahead k W F s) (h : Sound k G x s) (hp : p ∈ s.pDirty) :
    Ahead k W F (s.writePage p) ∧ WritesOnly p s (s.writePage p) := by
  obtain ⟨c, hc⟩ := h.cached p hp
  by_cases hw : p ≤ s.dbSize ∧ ¬ s.has (·.dontWrite) p
  · obtain ⟨a, v, he, -⟩ := writePage_eq hc hw
    rw [he]
    exact ⟨ha.restore (ha.mem_of_dirty h hp), .of_eq rfl rfl rfl, fun q hq => update_of_ne hq _ _⟩
  · have he : s.writePage p = s := by
      unfold FilePager.writePage
      rw [if_neg hw]
    rw [he]
    exact ⟨ha, .of_eq rfl rfl rfl, fun _ _ => rfl⟩

/-- A page whose sector is logged may become clean. -/
theorem Ahead.makeClean (ha : Ahead k W F s) (hn : ¬ s.has (·.needSync) p = true)
    (hl : k.noSync = false → SectorLogged k W F s p) : Ahead k W F (s.makeClean p) := by
  refine { ha with
    original := fun q hle hj hW => ?_, dirty := fun r hr => ?_, sub := fun r hr => ?_,
    waits := fun he r hr q hq hle hs hnq => ?_ }
  · have hc : (s.makeClean p).content q = s.content q :=
      mapPage_content (f := fun c => { c with needSync := false, writeable := false }) fun _ => rfl
    rw [hc]
    exact ha.original q hle hj hW
  · exact ha.dirty r (mem_makeClean.1 hr).1
  · obtain ⟨h1, h2⟩ := ha.sub r hr
    refine ⟨h1, fun hk => ?_⟩
    by_cases hrp : r = p
    · exact .inr (hrp ▸ hl hk)
    · exact (h2 hk).imp_left fun h2 => mem_makeClean.2 ⟨h2, hrp⟩
  · rw [makeClean_has hn] at hnq ⊢
    exact ha.waits he r (mem_makeClean.1 hr).1 q hq hle hs hnq

/-- A dirty page that does not wait for a sync is written and becomes clean. -/
theorem Ahead.clean (ha : Ahead k W F s) (h : Sound k G x s) (he : s.eState = .dbmod) (hp : p ∈ s.pDirty)
    (hn : ¬ s.has (·.needSync) p = true) :
    Forward k W F {p} s ((s.pagerWritePagelist [p]).makeClean p) := by
  have hl := fun hk => ha.sectorLogged h hk he hp hn
  obtain ⟨ha1, hw⟩ := ha.writePage h hp
  have hs := (h.writePage hp).2.2.2.2.2 p
  have hl1 := fun hk => (hl hk).kept hw.logKept
  refine ⟨ha1.makeClean (by rwa [hs]) hl1, hw.logKept.trans (.of_eq rfl rfl rfl), fun hk q hq => ?_, fun q hq => ?_⟩
  · rw [Set.mem_singleton_iff.1 hq]
    exact (hl1 hk).kept (.of_eq rfl rfl rfl)
  · exact hw.file q hq

theorem Ahead.pagerStress (ha : Ahead k W F s) (h : Sound k G 0 s) (ht : Together k 0 s) (hp : p ∈ s.pDirty) :
    Forward k W F {p} s (s.pagerStress k p) := by
  unfold FilePager.pagerStress
  split_ifs with hsync
  · obtain ⟨h1, h2, h3, h4⟩ := (ha.syncJournal h ht (h.ne_locked hp)).clean h.syncJournal rfl hp h.not_needSync
    exact ⟨h1, syncJournal_logKept.trans h2, h3, h4⟩
  · rw [not_or] at hsync
    have he : s.eState = .dbmod := by
      rcases h.live with he | he | he
      · exact absurd he (h.ne_locked hp)
      · exact absurd he hsync.2
      · exact he
    exact ha.clean h he hp hsync.1

/-! ## Rollbacks -/

/-- What a playback leaves as it is, outside of the pages of `Y`. -/
structure PlaysBack (Y : Set ℕ) (s s' : FilePager) : Prop where
  journalHdr : s'.journalHdr = s.journalHdr
  pDirty : ∀ q ∈ s.pDirty, q ∈ s'.pDirty
  sync : ∀ q, s'.has (·.needSync) q = s.has (·.needSync) q
  file : ∀ q, q ∉ Y → s'.file q = s.file q

theorem PlaysBack.trans {Y : Set ℕ} {s₁ : FilePager} (h : PlaysBack Y s s₁) (h' : PlaysBack Y s₁ s') :
    PlaysBack Y s s' :=
  ⟨h'.1.trans h.1, fun q hq => h'.2 q (h.2 q hq), fun q => (h'.3 q).trans (h.3 q),
    fun q hq => (h'.4 q hq).trans (h.4 q hq)⟩

theorem Ahead.playbackOnePage (ha : Ahead k W F s) (h : Sound k G 0 s) {i : Option ℕ} {r : ℕ × PageImage}
    {d : Option (List ℕ)} (hr : IsRecord s (i, r)) : Ahead k W F (s.pagerPlaybackOnePage k i r d).1 ∧
      PlaysBack (s.playedBack k) s (s.pagerPlaybackOnePage k i r d).1 := by
  unfold pagerPlaybackOnePage
  by_cases hskip : s.dbSize < r.1 ∨ r.1 ∈ d.getD []
  · rw [if_pos hskip]
    exact ⟨ha, rfl, fun _ => id, fun _ => rfl, fun _ _ => rfl⟩
  · rw [if_neg hskip]
    have hn : i = none → r.1 ∈ s.sjfd.map Prod.fst := fun hi => List.mem_map_of_mem (hr.2 hi)
    have hj : r.1 ≤ s.dbOrigSize → r.1 ∈ s.pInJournal := fun hle => by
      cases i with
      | none => exact (h.subIn r (hr.2 rfl)).resolve_right (Nat.not_lt.2 hle)
      | some j => exact h.mainIn r (List.mem_of_getElem? (hr.1 j rfl))
    unfold FilePager.playbackTarget
    split_ifs with hw hc
    · have he : s.eState = .dbmod := hw.1.resolve_right fun he => by
        rcases h.live with hl | hl | hl <;> rw [he] at hl <;> cases hl
      refine ⟨ha.restore hj, rfl, fun _ => id, fun q => setData_has (s := s.osWrite r.1 r.2) fun _ _ => rfl,
        fun q hq => update_of_ne (fun hqr => hq ?_) _ _⟩
      exact ⟨he, i, r.2, hqr ▸ hr, hqr ▸ hw.2⟩
    · obtain ⟨c, hc'⟩ := h.cached r.1 (h.dirty_of_record (fun j hj => hr.1 j hj) hn hw)
      rw [hc.2] at hc'
      cases hc'
    · have hd := h.dirty_of_record (fun j hj => hr.1 j hj) hn hw
      have h1 := ha.setData h hd r.2
      exact ⟨h1.frame rfl rfl rfl rfl rfl (fun _ => Iff.rfl) (fun _ => rfl) le_rfl h1.original, rfl, fun _ => id,
        fun q => setData_has fun _ _ => rfl, fun _ _ => rfl⟩

theorem Ahead.playback : ∀ {l : List (Option ℕ × ℕ × PageImage)} {s : FilePager} {d : Option (List ℕ)},
    Ahead k W F s → Sound k G 0 s → Together k 0 s → (∀ r ∈ l, IsRecord s r) →
    Ahead k W F (playback k l s d) ∧ PlaysBack (s.playedBack k) s (playback k l s d)
  | [], s, d, ha, _, _, _ => ⟨ha, rfl, fun _ => id, fun _ => rfl, fun _ _ => rfl⟩
  | (i, r) :: rs, s, d, ha, h, ht, hrs => by
    have hr := hrs _ List.mem_cons_self
    obtain ⟨ha1, hp1⟩ := ha.playbackOnePage (d := d) h hr
    obtain ⟨h1, ht1, hJ⟩ := h.playbackOnePage (d := d) ht hr
    obtain ⟨t, ht'⟩ : ∃ t, t = s.pagerPlaybackOnePage k i r d := ⟨_, rfl⟩
    rw [← ht'] at ha1 hp1 h1 ht1 hJ
    have hrec : ∀ r', IsRecord t.1 r' ↔ IsRecord s r' := fun r' => by rw [IsRecord, IsRecord, hJ.jfd, hJ.sjfd]
    have hY : t.1.playedBack k = s.playedBack k := by
      have hs : ∀ q i, t.1.isSynced k q i = s.isSynced k q i := fun q i => by
        cases i with
        | none => simp only [isSynced, hp1.sync]
        | some j => simp only [isSynced, hp1.journalHdr]
      simp only [playedBack, hJ.eState, hrec, hs]
    obtain ⟨ha2, hp2⟩ := Ahead.playback (l := rs) (d := t.2) ha1 h1 ht1 fun r' hr' =>
      (hrec r').2 (hrs r' (List.mem_cons_of_mem _ hr'))
    rw [hY] at hp2
    unfold FilePager.playback
    rw [← ht']
    exact ⟨ha2, hp1.trans hp2⟩

/-- Pages that a rollback puts into the file have records that are synced. -/
theorem Ahead.playedBack (ha : Ahead k W F s) (h : Sound k G 0 s) (hk : k.noSync = false)
    (hp : p ∈ s.playedBack k) : SectorLogged k W F s p := by
  obtain ⟨he, i, a, hr, hs⟩ := hp
  cases i with
  | some j =>
    simp only [isSynced, hk, Bool.false_or, decide_eq_true_eq] at hs
    exact ha.sector j hs (p, a) (hr.1 j rfl)
  | none =>
    simp only [isSynced, Bool.not_eq_true', ← Bool.not_eq_true] at hs
    obtain ⟨-, hl⟩ := ha.sub p (List.mem_map_of_mem (hr.2 rfl))
    exact (hl hk).elim (fun hd => ha.sectorLogged h hk he hd hs) id

/-- An image of another size that can come back. -/
theorem Ahead.resize (ha : Ahead k W F s) {sps : List Savepoint} {n : ℕ} {b : Bool}
    (hs : (sps.map (·.nOrig)).Sublist (s.savepoints.map (·.nOrig))) (hn : s.dbOrigSize ≤ n)
    (hin : n = s.dbOrigSize ∨ n = s.dbSize ∨ n ∈ s.savepoints.map (·.nOrig)) (hle : ∀ m ∈ sps.map (·.nOrig), m ≤ n)
    (ho : s.dbOrigSize ≤ s.dbSize) :
    Ahead k W F { s with savepoints := sps, dbSize := n, changeCountDone := b } := by
  refine { ha with original := fun q hq hj hW => ?_, size := fun m hm => ?_, sorted := ?_, saved := hle }
  · obtain ⟨h1, h2⟩ := ha.original q hq hj hW
    refine ⟨?_, h2⟩
    rw [← h1]
    exact content_congr rfl rfl (hq.trans ho) (hq.trans hn)
  · rcases hm with hm | hm
    · rw [show m = n from hm]
      exact hin.elim .inl fun hin => ha.size n hin
    · exact ha.size m (.inr (hs.subset hm))
  · exact ha.sorted.sublist hs

theorem Ahead.takeSavepoints (ha : Ahead k W F s) (i : ℕ) (ho : s.dbOrigSize ≤ s.dbSize) :
    Ahead k W F { s with savepoints := s.savepoints.take i } :=
  ha.resize (b := s.changeCountDone) ((List.take_sublist i _).map _) ho (.inr (.inl rfl))
    (fun m hm => ha.saved m (((List.take_sublist i _).map _).subset hm)) ho

/-- A savepoint's image is not larger than those of the savepoints after it. -/
theorem Ahead.take_le (ha : Ahead k W F s) {i : ℕ} {sp : Savepoint} {l : List Savepoint}
    (hsp : s.savepoints.drop i = sp :: l) : ∀ m ∈ (s.savepoints.take (i + 1)).map (·.nOrig), m ≤ sp.nOrig := by
  have hlt : i < s.savepoints.length := by
    have := congrArg List.length hsp
    rw [List.length_drop, List.length_cons] at this
    omega
  have hget : s.savepoints[i] = sp := by
    have h := List.drop_eq_getElem_cons hlt
    rw [hsp] at h
    exact (List.cons.inj h).1.symm
  have hsorted : (s.savepoints.take (i + 1) |>.map (·.nOrig)).Pairwise (· ≤ ·) :=
    ha.sorted.sublist ((List.take_sublist _ _).map _)
  intro m hm
  rw [List.take_succ_eq_append_getElem hlt, hget, List.map_append, List.pairwise_append] at hsorted
  rw [List.take_succ_eq_append_getElem hlt, hget, List.map_append] at hm
  rcases List.mem_append.1 hm with hm | hm
  · exact hsorted.2.2 m hm sp.nOrig (by simp)
  · exact (List.mem_singleton.1 hm).le

theorem PlaysBack.logKept {Y : Set ℕ} (h : PlaysBack Y s s') (hJ : SameJournals s s') : LogKept s s' :=
  .of_eq hJ.dbOrigSize h.journalHdr hJ.jfd

theorem Ahead.playbackSavepoint (ha : Ahead k W F s) (hC : Consistent k G s)
    {o : Option Savepoint} {sps : List Savepoint} {n : ℕ} {l : List (Option ℕ × ℕ × PageImage)}
    {d : Option (List ℕ)} (hl : ∀ r ∈ l, IsRecord s r)
    (he : ({ s with savepoints := sps } : FilePager).pagerPlaybackSavepoint k o =
      FilePager.playback k l { s with savepoints := sps, dbSize := n, changeCountDone := false } d)
    (hs : (sps.map (·.nOrig)).Sublist (s.savepoints.map (·.nOrig))) (hn : s.dbOrigSize ≤ n)
    (hin : n = s.dbOrigSize ∨ n = s.dbSize ∨ n ∈ s.savepoints.map (·.nOrig))
    (hle : ∀ m ∈ sps.map (·.nOrig), m ≤ n) :
    Forward k W F (s.playedBack k) s (({ s with savepoints := sps } : FilePager).pagerPlaybackSavepoint k o) := by
  have h1 : Sound k (G ∪ {q | s.dbSize < q ∧ q ≤ n}) 0
      { s with savepoints := sps, dbSize := n, changeCountDone := false } :=
    { hC.sound.resize (n := n) (b := false) with
      savedLe := fun sp hsp => by
        have hm := hs.subset (List.mem_map_of_mem hsp)
        obtain ⟨sp', hsp', he⟩ := List.mem_map.1 hm
        exact he ▸ hC.sound.savedLe sp' hsp' }
  have ht1 : Together k 0 { s with savepoints := sps, dbSize := n, changeCountDone := false } :=
    hC.together.congr hC.sound rfl rfl fun _ => rfl
  obtain ⟨ha2, hp2⟩ := (ha.resize (b := false) hs hn hin hle hC.origLe).playback (d := d)
    (h1.mono (Set.subset_univ _)) ht1 hl
  obtain ⟨-, -, hJ⟩ := (h1.mono (Set.subset_univ _)).playback (d := d) ht1 hl
  have hkept : LogKept s (FilePager.playback k l { s with savepoints := sps, dbSize := n, changeCountDone := false } d) :=
    have h := hp2.logKept hJ
    ⟨h.dbOrigSize, h.kept⟩
  rw [he]
  exact ⟨ha2, hkept, fun hk p hp => (ha.playedBack hC.sound hk hp).kept hkept, hp2.file⟩

theorem Ahead.rollback (ha : Ahead k W F s) (hC : Consistent k G s) (i : Option ℕ) :
    Forward k W F (s.playedBack k) s (s.sqlite3PagerSavepoint k .rollback i) := by
  have hstay : ∀ i, Forward k W F (s.playedBack k) s { s with savepoints := s.savepoints.take i } := fun i =>
    ⟨ha.takeSavepoints i hC.origLe, .of_eq rfl rfl rfl, fun hk p hp => (ha.playedBack hC.sound hk hp).kept
      (.of_eq rfl rfl rfl), fun _ _ => rfl⟩
  unfold sqlite3PagerSavepoint
  rcases i with _ | i <;> simp only
  · split_ifs
    · exact ha.playbackSavepoint hC (l := s.mainRecords 0) (fun r hr => isRecord_main hr) rfl (List.nil_sublist _) le_rfl (.inl rfl)
        (by simp)
    · exact hstay 0
  · split
    · have := hstay s.savepoints.length
      rwa [List.take_length] at this
    · rename_i sp l hsp
      split_ifs
      · have hm : sp ∈ s.savepoints := List.mem_of_mem_drop (i := i) (hsp ▸ List.mem_cons_self)
        refine ha.playbackSavepoint hC (l := s.mainRecords sp.iOffset ++ s.subRecords sp.iSubRec)
          (fun r hr => ?_) rfl ((List.take_sublist _ _).map _) (hC.sound.savedLe sp hm)
          (.inr (.inr (List.mem_map_of_mem hm))) (ha.take_le hsp)
        exact (List.mem_append.1 hr).elim isRecord_main isRecord_sub
      · exact hstay (i + 1)

theorem Ahead.release (ha : Ahead k W F s) (hC : Consistent k G s) (i : ℕ) :
    Forward k W F ∅ s (s.sqlite3PagerSavepoint k .release (some i)) := by
  unfold sqlite3PagerSavepoint
  simp only
  split
  · exact .quiet ha (.of_eq rfl rfl rfl) rfl
  · rename_i rel l hrel
    have h1 := ha.takeSavepoints i hC.origLe
    refine .quiet { h1 with sub := fun r hr => h1.sub r ?_ } (.of_eq rfl rfl rfl) rfl
    split_ifs at hr
    · exact (List.take_sublist _ _).map _ |>.subset hr
    · exact hr

/-! ## Runs -/

theorem Ahead.call {Y : Set ℕ} (ha : Ahead k W F s) (hC : Consistent k G s)
    (hc : Call k W D s Y s') : Forward k W F Y s s' := by
  cases hc with
  | read h =>
    simp only [sqlite3PagerGet, Bool.false_eq_true, if_false] at h
    split_ifs at h
    obtain rfl := Option.some.inj h
    exact .quiet ha.getPage getPage_logKept getPage_file
  | write h hw => exact ha.getWrite hC h hw
  | modify a h =>
    obtain ⟨c, hc, hw⟩ := has_iff.1 h.writeable
    exact .quiet (ha.setData hC.sound (hC.sound.writeable _ c hc hw).1 a) (.of_eq rfl rfl rfl) rfl
  | dontWrite h =>
    refine .quiet ha.dontWrite ?_ ?_ <;> unfold sqlite3PagerDontWrite <;> split_ifs
    · exact .of_eq rfl rfl rfl
    · exact .of_eq rfl rfl rfl
    · rfl
    · rfl
  | stress h => exact ha.pagerStress hC.sound hC.together h
  | evict h => exact .quiet (ha.evict hC.sound hC.origLe h) (.of_eq rfl rfl rfl) rfl
  | exchange hab hwa hwb =>
    refine .quiet (ha.exchange hC.sound hab hwa.writeable hwb.writeable) ?_ ?_ <;> unfold FilePager.exchange <;> split
    · exact .of_eq rfl rfl rfl
    · exact .of_eq rfl rfl rfl
    · rfl
    · rfl
  | openSavepoint n => exact .quiet (ha.openSavepoint n) (.of_eq rfl rfl rfl) rfl
  | release i => exact ha.release hC i
  | rollback i => exact ha.rollback hC i
  | busy h => exact ha.incrChangecounter hC

/-- Pages that stand in the cache and are not to be written since an earlier transaction are not needed. -/
theorem Begun.ahead (h : Begun k s) (hW : ∀ p, s.has (·.dontWrite) p = true → p ∈ W) : Ahead k W s.file s where
  record := by simp [h.jfd]
  recorded := by simp [h.pInJournal]
  original q hle _ hqW := by
    refine ⟨?_, rfl⟩
    cases hc : s.cache q with
    | none => rw [content_of_none hc, if_neg (Nat.not_lt.2 (hle.trans h.dbOrigSize.le))]
    | some c =>
      rw [content_of_some hc]
      refine (h.cache q c hc).2.2.2 (hle.trans h.dbOrigSize.le) (Bool.eq_false_iff.2 fun hd => hqW (hW q ?_))
      exact has_iff.2 ⟨c, hc, hd⟩
  dirty := by simp [h.pDirty]
  sub := by simp [h.sjfd]
  waits := by simp [h.pDirty]
  sector := by simp [h.jfd]
  hdr hl := absurd h.locked hl
  size n hn := by
    rw [h.savepoints] at hn
    exact .inl ((hn.resolve_right List.not_mem_nil).trans h.dbOrigSize.symm)
  sorted := by simp [h.savepoints]
  saved := by simp [SavedIn, h.savepoints]
  fileSize := (h.dbOrigSize.trans h.dbFileSize.symm).le

/-- A transaction up to some call: what it wrote of the file is logged, and the rest is as it was found. -/
theorem Trace.forward {Z : Set ℕ} (h₀ : Begun k s₀)
    (hW : ∀ p, s₀.has (·.dontWrite) p = true → p ∈ W) (hr : Trace k W D s₀ s Z) :
    Forward k W s₀.file Z s₀ s := by
  induction hr with
  | start => exact .quiet (h₀.ahead hW) (.of_eq rfl rfl rfl) rfl
  | call hr hc ih =>
    obtain ⟨G, hC⟩ := hr.consistent h₀
    have h := ih.ahead.call hC hc
    refine ⟨h.ahead, ih.logKept.trans h.logKept, fun hk p hp => ?_, fun q hq => ?_⟩
    · exact hp.elim (fun hp => (ih.logged hk p hp).kept h.logKept) (h.logged hk p)
    · rw [Set.mem_union, not_or] at hq
      exact (h.file q hq.2).trans (ih.file q hq.1)

/-! ## Commit -/

theorem Ahead.writePagelist : ∀ {l : List ℕ} {s : FilePager}, Ahead k W F s → Sound k G x s →
    (∀ p ∈ l, p ∈ s.pDirty) → Ahead k W F (s.pagerWritePagelist l) ∧ LogKept s (s.pagerWritePagelist l) ∧
      ∀ q, q ∉ l → (s.pagerWritePagelist l).file q = s.file q
  | [], s, ha, _, _ => ⟨ha, .of_eq rfl rfl rfl, fun _ _ => rfl⟩
  | p :: l, s, ha, h, hl => by
    have hp := hl p List.mem_cons_self
    obtain ⟨ha1, hw⟩ := ha.writePage h hp
    have hd := (h.written hp).pDirty
    obtain ⟨ha2, hk2, hf2⟩ := Ahead.writePagelist (l := l) ha1 (h.writePage hp).1 fun q hq => by
      rw [hd]
      exact hl q (List.mem_cons_of_mem _ hq)
    refine ⟨ha2, hw.logKept.trans hk2, fun q hq => ?_⟩
    rw [List.mem_cons, not_or] at hq
    exact (hf2 q hq.2).trans (hw.file q hq.1)

/-- Where the first phase of a commit begins to write the dirty pages, in their order. -/
def flushStart (k : Settings) (s : FilePager) : FilePager := (s.pagerIncrChangecounter k).syncJournal k

def flushList (k : Settings) (s : FilePager) : List ℕ := (s.flushStart k).pDirty.insertionSort (· ≤ ·)

/-- The page that the first phase writes where the file is shorter than the image. -/
def grownTo (k : Settings) (s : FilePager) : Set ℕ :=
  {q | s.dbFileSize < s.dbSize ∧ q = s.dbSize - if s.dbSize = k.sjPgno then 1 else 0}

/-- Where a transaction can be cut off before its journal is deleted, with the pages of the file that were
written: after a call, in the first phase of a commit, or behind it. -/
inductive CutOff (k : Settings) (W D : Set ℕ) (s₀ : FilePager) : FilePager → Set ℕ → Prop
  | call {s : FilePager} {Z : Set ℕ} (h : Trace k W D s₀ s Z) : CutOff k W D s₀ s Z
  | flush {s : FilePager} {Z : Set ℕ} (h : Trace k W D s₀ s Z) (hl : s.eState ≠ .locked) (n : ℕ) :
    CutOff k W D s₀ ((s.flushStart k).pagerWritePagelist ((s.flushList k).take n))
      (Z ∪ {q | q ∈ (s.flushList k).take n})
  | finished {s : FilePager} {Z : Set ℕ} (h : Trace k W D s₀ s Z) (hl : s.eState ≠ .locked) :
    CutOff k W D s₀ (s.sqlite3PagerCommitPhaseOne k) (Z ∪ {q | q ∈ s.flushList k} ∪ s.grownTo k)

/-- What a cut-off transaction leaves: the records of the journal are of the original image, and what was
written of the file is logged. -/
structure Leaves (k : Settings) (W : Set ℕ) (s₀ : FilePager) (Z : Set ℕ) (s : FilePager) : Prop where
  dbOrigSize : s.dbOrigSize = s₀.dbOrigSize
  record : ∀ r ∈ s.jfd, r.1 ∉ W → r.2 = s₀.file r.1
  logged : ∀ p ∈ Z, SectorLogged k W s₀.file s p
  file : ∀ q, q ∉ Z → s.file q = s₀.file q

theorem Trace.flushStart {Z : Set ℕ} (h₀ : Begun k s₀) (hk : k.noSync = false)
    (hW : ∀ p, s₀.has (·.dontWrite) p = true → p ∈ W) (hr : Trace k W D s₀ s Z) (hl : s.eState ≠ .locked) :
    (∃ G, Sound k G 0 (s.flushStart k)) ∧ Forward k W s₀.file Z s₀ (s.flushStart k) ∧
      (∀ q ∈ (s.flushStart k).pInJournal, Logged W s₀.file (s.flushStart k) q) ∧
      (s.flushStart k).dbSize = s.dbSize ∧ (s.flushStart k).dbFileSize = s.dbFileSize := by
  obtain ⟨G, hC⟩ := hr.consistent h₀
  have hf := hr.forward h₀ hW
  have hf1 := hf.ahead.incrChangecounter hC
  obtain ⟨h1, ht1, hS⟩ := hC.sound.incrChangecounter hC.together
  have ht1 := ht1 hC.origLe
  have hkept := syncJournal_logKept (k := k) (s := s.pagerIncrChangecounter k)
  have ha2 := hf1.ahead.syncJournal h1 ht1 (hS.begun hl)
  refine ⟨⟨G, h1.syncJournal⟩, ⟨ha2, (hf.logKept.trans hf1.logKept).trans hkept, fun _ p hp => ?_, fun q hq => ?_⟩,
    fun q hq => ha2.logged_of_index hq fun i r hr _ => ?_, hS.dbSize, hS.dbFileSize⟩
  · exact ((hf.logged hk p hp).kept hf1.logKept).kept hkept
  · exact (hf1.file q (Set.notMem_empty q)).trans (hf.file q hq)
  · rw [syncJournal_hdr hk]
    exact (List.getElem?_eq_some_iff.1 hr).1

theorem Trace.flush {Z : Set ℕ} (h₀ : Begun k s₀) (hk : k.noSync = false)
    (hW : ∀ p, s₀.has (·.dontWrite) p = true → p ∈ W) (hr : Trace k W D s₀ s Z)
    (he : s.eState ≠ .locked) {l : List ℕ} (hl : l ⊆ s.flushList k) :
    Forward k W s₀.file (Z ∪ {q | q ∈ l}) s₀ ((s.flushStart k).pagerWritePagelist l) := by
  obtain ⟨⟨G, hS⟩, hf, -⟩ := hr.flushStart h₀ hk hW he
  have hd : ∀ p ∈ l, p ∈ (s.flushStart k).pDirty := fun p hp => (List.mem_insertionSort _).1 (hl hp)
  obtain ⟨ha, hkept, hfile⟩ := hf.ahead.writePagelist hS hd
  obtain ⟨G', hC⟩ := hr.consistent h₀
  have h1 := (hC.sound.incrChangecounter hC.together).1
  refine ⟨ha, hf.logKept.trans hkept, fun _ p hp => ?_, fun q hq => ?_⟩
  · refine SectorLogged.kept ?_ hkept
    exact hp.elim (hf.logged hk p) fun hp => hf.ahead.sectorLogged hS hk rfl (hd p hp) h1.not_needSync
  · rw [Set.mem_union, not_or] at hq
    exact (hfile q hq.2).trans (hf.file q hq.1)

theorem Trace.finished {Z : Set ℕ} (h₀ : Begun k s₀) (hk : k.noSync = false)
    (hW : ∀ p, s₀.has (·.dontWrite) p = true → p ∈ W) (hr : Trace k W D s₀ s Z) (hl : s.eState ≠ .locked) :
    Leaves k W s₀ (Z ∪ {q | q ∈ s.flushList k} ∪ s.grownTo k) (s.sqlite3PagerCommitPhaseOne k) := by
  obtain ⟨⟨G, hS⟩, hf, hall, hn, hsize⟩ := hr.flushStart h₀ hk hW hl
  have hF := hr.flush h₀ hk hW hl (List.Subset.refl (s.flushList k))
  obtain ⟨u, hu⟩ : ∃ u, u = (s.flushStart k).pagerWritePagelist (s.flushList k) := ⟨_, rfl⟩
  have hd : ∀ p ∈ s.flushList k, p ∈ (s.flushStart k).pDirty := fun p hp => (List.mem_insertionSort _).1 hp
  obtain ⟨hSu, hw⟩ := hS.writePagelist hd
  have hkept := (hf.ahead.writePagelist hS hd).2.1
  rw [← hu] at hF hSu hw hkept
  obtain ⟨cache, d, hclean⟩ := u.cleanAll_frame
  have hgrown : ∀ p ∈ s.grownTo k, SectorLogged k W s₀.file u p := fun p ⟨hlt, hp⟩ => by
    have horig := hf.ahead.fileSize
    rw [hsize] at horig
    obtain ⟨hv, hopen⟩ := (hf.ahead.size _ (.inl rfl)).resolve_left (by omega)
    rw [hn] at hv hopen
    rw [if_neg hv.2, Nat.sub_zero] at hp
    exact fun q hq hle hs => hkept.logged (hall q (hopen q hq (hkept.dbOrigSize ▸ hle) (hp ▸ hs)))
  have hframe : ∃ fs es, s.sqlite3PagerCommitPhaseOne k =
      { u with cache := cache, pDirty := d, fileSize := fs, dbFileSize := fs, eState := es } := by
    have he : s.sqlite3PagerCommitPhaseOne k = { (if u.cleanAll.dbFileSize < u.cleanAll.dbSize then
        u.cleanAll.pagerTruncate (u.cleanAll.dbSize - if u.cleanAll.dbSize = k.sjPgno then 1 else 0)
        else u.cleanAll) with eState := .finished } := by
      unfold sqlite3PagerCommitPhaseOne
      rw [if_neg hl, hu]
      rfl
    have hdb : u.eState = .dbmod := hw.eState
    rw [he, hclean]
    have hbeyond : ∀ n, u.fileSize ≤ n → ({ u with cache := cache, pDirty := d } : FilePager).pagerTruncate n =
        { u with cache := cache, pDirty := d, fileSize := n, dbFileSize := n } := fun n hle =>
      pagerTruncate_grow (s := { u with cache := cache, pDirty := d }) hdb hSu.beyond hle
    have hfs := hSu.size
    split_ifs with h1 h2
    · have hlt : u.dbFileSize < u.dbSize := h1
      have hle : u.fileSize ≤ u.dbSize - 1 := by omega
      rw [hbeyond _ hle]
      exact ⟨_, _, rfl⟩
    · have hlt : u.dbFileSize < u.dbSize := h1
      have hle : u.fileSize ≤ u.dbSize := by omega
      rw [Nat.sub_zero, hbeyond _ hle]
      exact ⟨_, _, rfl⟩
    · refine ⟨u.fileSize, .finished, ?_⟩
      rw [← hfs]
  obtain ⟨fs, es, he⟩ := hframe
  rw [he]
  refine ⟨hF.logKept.dbOrigSize, hF.ahead.record, fun p hp => ?_, fun q hq => ?_⟩
  · have hp' : SectorLogged k W s₀.file u p := hp.elim (hF.logged hk p) (hgrown p)
    exact hp'.kept (.of_eq rfl rfl rfl)
  · rw [Set.mem_union, not_or] at hq
    exact hF.file q hq.1

theorem CutOff.leaves {Z : Set ℕ} (h₀ : Begun k s₀) (hk : k.noSync = false)
    (hW : ∀ p, s₀.has (·.dontWrite) p = true → p ∈ W) (hc : CutOff k W D s₀ s Z) : Leaves k W s₀ Z s := by
  have hstay : ∀ {s Z}, Forward k W s₀.file Z s₀ s → Leaves k W s₀ Z s := fun h =>
    ⟨h.logKept.dbOrigSize, h.ahead.record, h.logged hk, h.file⟩
  cases hc with
  | call h => exact hstay (h.forward h₀ hW)
  | flush h hl n => exact hstay (h.flush h₀ hk hW hl (List.take_subset n _))
  | finished h hl => exact h.finished h₀ hk hW hl

end Btreelite.FilePager
