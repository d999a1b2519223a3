import Btreelite.PagerRun
import Btreelite.UndoLog

/-!
# Transactions with what they log and write

The runs of a transaction again, with what its callers see to: they change a page only where another call
of `sqlite3PagerWrite` would do nothing. `W` has the pages whose content they do not need, and `D` those
that they may mark as not to be written. Each call comes with the pages of the file that it may write.
-/

namespace Btreelite.FilePager

open Function

variable {k : Settings} {W D G : Set ℕ} {x p q N : ℕ} {s s' s₀ : FilePager} {c : CachePage}

/-- A page that `sqlite3PagerWrite` would leave as it is. -/
structure MayChange (s : FilePager) (p : ℕ) : Prop where
  writeable : s.has (·.writeable) p = true
  le : p ≤ s.dbSize
  saved : Pager.subjRequiresPage p s.savepoints = none

/-- The pages that a rollback puts into the file, when they have a record in its part of the journals. -/
def playedBack (k : Settings) (s : FilePager) : Set ℕ :=
  {q | s.eState = .dbmod ∧ ∃ i a, IsRecord s (i, q, a) ∧ s.isSynced k q i = true}

/-- A call of a transaction, with the pages of the file that it may write. -/
inductive Call (k : Settings) (W D : Set ℕ) : FilePager → Set ℕ → FilePager → Prop
  | read {s s' : FilePager} {p : ℕ} (h : s.sqlite3PagerGet k p false = some s') : Call k W D s ∅ s'
  | write {s s' : FilePager} {p : ℕ} {noContent : Bool} (h : s.sqlite3PagerGet k p noContent = some s')
    (hw : noContent = true → p ∈ W) : Call k W D s ∅ (s'.sqlite3PagerWrite k p)
  | modify {s : FilePager} {p : ℕ} (a : PageImage) (h : MayChange s p) : Call k W D s ∅ (s.setData p a)
  | dontWrite {s : FilePager} {p : ℕ} (h : p ∈ D) : Call k W D s ∅ (s.sqlite3PagerDontWrite p)
  | stress {s : FilePager} {p : ℕ} (h : p ∈ s.pDirty) : Call k W D s {p} (s.pagerStress k p)
  | evict {s : FilePager} {p : ℕ} (h : p ∉ s.pDirty) : Call k W D s ∅ (s.evict p)
  | exchange {s : FilePager} {a b : ℕ} (hab : a ≠ b) (ha : MayChange s a) (hb : MayChange s b) :
    Call k W D s ∅ (s.exchange k a b)
  | openSavepoint {s : FilePager} (n : ℕ) : Call k W D s ∅ (s.openSavepoint n)
  | release {s : FilePager} (i : ℕ) : Call k W D s ∅ (s.sqlite3PagerSavepoint k .release (some i))
  | rollback {s : FilePager} (i : Option ℕ) :
    Call k W D s (s.playedBack k) (s.sqlite3PagerSavepoint k .rollback i)
  | busy {s : FilePager} (h : s.eState ≠ .locked) : Call k W D s ∅ (s.pagerIncrChangecounter k)

/-- A transaction up to some call, with the pages of the file that were written. -/
inductive Trace (k : Settings) (W D : Set ℕ) (s₀ : FilePager) : FilePager → Set ℕ → Prop
  | start : Trace k W D s₀ s₀ ∅
  | call {s s' : FilePager} {Z Y : Set ℕ} (h : Trace k W D s₀ s Z) (hc : Call k W D s Y s') :
    Trace k W D s₀ s' (Z ∪ Y)

/-- `sqlite3PagerWrite` has nothing to do for such a page. -/
theorem MayChange.write_eq (h : MayChange s p) : s.sqlite3PagerWrite k p = s := by
  unfold FilePager.sqlite3PagerWrite FilePager.subjournalPageIfRequired
  rw [if_pos ⟨h.writeable, h.le⟩, h.saved]

theorem Call.step {Y : Set ℕ} (h : Call k W D s Y s') : Step k s s' := by
  cases h with
  | read h => exact .read h
  | write h _ => exact .write h
  | modify a h => exact .modify a h.writeable
  | dontWrite h => exact .dontWrite _
  | stress h => exact .stress h
  | evict h => exact .evict h
  | exchange hab ha hb => exact .exchange hab ha.writeable hb.writeable
  | openSavepoint n => exact .openSavepoint n
  | release i => exact .savepoint .release (some i)
  | rollback i => exact .savepoint .rollback i
  | busy h => exact .busy h

theorem Trace.run {Z : Set ℕ} (h : Trace k W D s₀ s Z) : ∃ G, Run k s₀ s G := by
  induction h with
  | start => exact ⟨∅, .start⟩
  | call _ hc ih =>
    obtain ⟨G, hr⟩ := ih
    exact ⟨_, hr.step hc.step⟩

theorem Trace.consistent {Z : Set ℕ} (h₀ : Begun k s₀) (h : Trace k W D s₀ s Z) : ∃ G, Consistent k G s := by
  obtain ⟨G, hr⟩ := h.run
  exact ⟨G, hr.consistent h₀⟩

/-! ## What is logged -/

/-- The journals, and the savepoints that point into them. -/
structure Books where
  jfd : List (ℕ × PageImage)
  pInJournal : List ℕ
  savepoints : List Savepoint
  sjfd : List (ℕ × PageImage)

def books (s : FilePager) : Books := ⟨s.jfd, s.pInJournal, s.savepoints, s.sjfd⟩

/-- `addToSavepointBitvecs` for one savepoint. -/
def markPage (p : ℕ) (sp : Savepoint) : Savepoint :=
  if p ≤ sp.nOrig then { sp with inSavepoint := p :: sp.inSavepoint } else sp

def addBits (p : ℕ) (l : List Savepoint) : List Savepoint := l.map (markPage p)

/-- Pages with `P` are logged, as they are in `a`: in the main journal those of the original image that it
does not have, and in the sub-journal others that a savepoint lacks. -/
inductive Logs (N : ℕ) (a : ℕ → PageImage) (P : ℕ → Prop) : Books → Books → Prop
  | refl (b : Books) : Logs N a P b b
  | main {b : Books} {p : ℕ} (hp : P p) (hj : p ∉ b.pInJournal) (hle : p ≤ N) : Logs N a P b
      ⟨b.jfd ++ [(p, a p)], p :: b.pInJournal, addBits p b.savepoints, b.sjfd⟩
  | sub {b : Books} {p : ℕ} {ss : List Savepoint} (hp : P p) (hj : p ∈ b.pInJournal ∨ N < p)
      (hss : Pager.subjRequiresPage p b.savepoints = some ss) : Logs N a P b
      ⟨b.jfd, b.pInJournal, addBits p ss, b.sjfd ++ [(p, a p)]⟩
  | trans {b b₁ b' : Books} (h : Logs N a P b b₁) (h' : Logs N a P b₁ b') : Logs N a P b b'

variable {a a' : ℕ → PageImage} {P P' : ℕ → Prop} {b b' : Books}

theorem markPage_eq (p : ℕ) (sp : Savepoint) : ∃ l, markPage p sp = { sp with inSavepoint := l } ∧
    ∀ q ∈ l, q ∈ sp.inSavepoint ∨ q = p := by
  unfold markPage
  split_ifs
  · exact ⟨_, rfl, fun q hq => (List.mem_cons.1 hq).symm⟩
  · exact ⟨_, rfl, fun q hq => .inl hq⟩

theorem addBits_nOrig (l : List Savepoint) : (addBits p l).map (·.nOrig) = l.map (·.nOrig) := by
  rw [addBits, List.map_map]
  refine List.map_congr_left fun sp _ => ?_
  obtain ⟨l, he, -⟩ := markPage_eq p sp
  rw [comp_apply, he]

theorem Logs.mono (h : Logs N a P b b') (hP : ∀ p, P p → P' p) : Logs N a P' b b' := by
  induction h with
  | refl b => exact .refl b
  | main hp hj hle => exact .main (hP _ hp) hj hle
  | sub hp hj hss => exact .sub (hP _ hp) hj hss
  | trans _ _ ih ih' => exact .trans ih ih'

theorem Logs.nOrig (h : Logs N a P b b') : b'.savepoints.map (·.nOrig) = b.savepoints.map (·.nOrig) := by
  induction h with
  | refl b => rfl
  | main => exact addBits_nOrig _
  | sub _ _ hss => exact (addBits_nOrig _).trans (subjRequiresPage_nOrig hss)
  | trans _ _ ih ih' => exact ih'.trans ih

/-- A page that a savepoint lacks belongs to its image. -/
theorem subjRequiresPage_le : ∀ {l l' : List Savepoint}, Pager.subjRequiresPage p l = some l' →
    ∃ n ∈ l.map (·.nOrig), p ≤ n
  | [], l', h => by simp [Pager.subjRequiresPage] at h
  | sp :: l, l', h => by
    simp only [Pager.subjRequiresPage] at h
    split_ifs at h with hsp
    · exact ⟨sp.nOrig, List.mem_cons_self, hsp.1⟩
    · obtain ⟨l₁, h₁, -⟩ := Option.map_eq_some_iff.1 h
      obtain ⟨n, hn, hle⟩ := subjRequiresPage_le h₁
      exact ⟨n, List.mem_cons_of_mem _ hn, hle⟩

/-- Only pages of the images that can come back are logged. -/
theorem Logs.congr (h : Logs N a P b b') (hN : ∀ q, q ≤ N → a q = a' q)
    (hs : ∀ n ∈ b.savepoints.map (·.nOrig), ∀ q, q ≤ n → a q = a' q) : Logs N a' P b b' := by
  induction h with
  | refl b => exact .refl b
  | main hp hj hle =>
    rw [hN _ hle]
    exact .main hp hj hle
  | sub hp hj hss =>
    obtain ⟨n, hn, hle⟩ := subjRequiresPage_le hss
    rw [hs n hn _ hle]
    exact .sub hp hj hss
  | trans h _ ih ih' => exact .trans (ih hs) (ih' fun n hn => hs n (h.nOrig ▸ hn))

theorem Logs.keeps (h : Logs N a P b b') : ∀ q ∈ b.pInJournal, q ∈ b'.pInJournal := by
  induction h with
  | refl => exact fun _ => id
  | main => exact fun q hq => List.mem_cons_of_mem _ hq
  | sub => exact fun _ => id
  | trans _ _ ih ih' => exact fun q hq => ih' q (ih q hq)

/-- What is added to the main journal, which is about pages that it did not have. -/
theorem Logs.main_append (h : Logs N a P b b') : ∃ new, b'.jfd = b.jfd ++ new ∧
    ∀ r ∈ new, r.1 ∉ b.pInJournal ∧ r.1 ≤ N ∧ r.2 = a r.1 := by
  induction h with
  | refl b => exact ⟨[], (List.append_nil _).symm, by simp⟩
  | main hp hj hle => exact ⟨_, rfl, by simp [hj, hle]⟩
  | sub => exact ⟨[], (List.append_nil _).symm, by simp⟩
  | trans h _ ih ih' =>
    obtain ⟨new, he, hn⟩ := ih
    obtain ⟨new', he', hn'⟩ := ih'
    refine ⟨new ++ new', by rw [he', he, List.append_assoc], fun r hr => ?_⟩
    rcases List.mem_append.1 hr with hr | hr
    · exact hn r hr
    · exact ⟨fun hq => (hn' r hr).1 (h.keeps _ hq), (hn' r hr).2⟩

/-- A page comes into the journal with its record. -/
theorem Logs.recorded (h : Logs N a P b b') (hq : q ∈ b'.pInJournal) :
    q ∈ b.pInJournal ∨ q ∈ b'.jfd.map Prod.fst := by
  induction h with
  | refl => exact .inl hq
  | main =>
    rcases List.mem_cons.1 hq with rfl | hq
    · exact .inr (by simp)
    · exact .inl hq
  | sub => exact .inl hq
  | trans _ h' ih ih' =>
    rcases ih' hq with hq | hq
    · refine (ih hq).imp_right fun hq => ?_
      obtain ⟨new, he, -⟩ := h'.main_append
      rw [he, List.map_append]
      exact List.mem_append_left _ hq
    · exact .inr hq

theorem Logs.sub_of (h : Logs N a P b b') (hq : q ∈ b'.sjfd.map Prod.fst) :
    q ∈ b.sjfd.map Prod.fst ∨ P q := by
  induction h with
  | refl => exact .inl hq
  | main => exact .inl hq
  | sub hp =>
    rw [List.map_append, List.mem_append] at hq
    refine hq.imp_right fun hq => ?_
    rw [List.map_singleton, List.mem_singleton] at hq
    exact hq ▸ hp
  | trans _ _ ih ih' => exact (ih' hq).elim ih .inr

/-! ## What `sqlite3PagerWrite` logs -/

theorem subjournalPageIfRequired_logs (hp : P p) (hj : p ∈ s.pInJournal ∨ N < p) (hd : s.data p = a p) :
    Logs N a P s.books (s.subjournalPageIfRequired p).books := by
  unfold FilePager.subjournalPageIfRequired
  split
  · rename_i ss hss
    have h := Logs.sub (a := a) (b := s.books) hp hj hss
    rw [← hd] at h
    exact h
  · exact .refl _

theorem mapPage_data {f : CachePage → CachePage} (hf : ∀ c, (f c).data = c.data) :
    (s.mapPage p f).data p = s.data p := by
  cases hc : s.cache p <;> simp [data, FilePager.mapPage, hc, hf]

theorem makeWritable_logs (hc : s.cache p = some c) (hp : P p) (ha : c.data = a p) :
    Logs s.dbOrigSize a P s.books (s.makeWritable p).books := by
  obtain ⟨t, ht⟩ : ∃ t, t = ((s.makeDirty p).journalPage p).mapPage p fun c => { c with writeable := true } :=
    ⟨_, rfl⟩
  have hdata : (s.makeDirty p).data p = a p := by
    rw [← ha, ← data_of_some hc]
    exact mapPage_data fun _ => rfl
  have ht1 : Logs s.dbOrigSize a P s.books t.books ∧ (p ∈ t.pInJournal ∨ s.dbOrigSize < p) ∧ t.data p = a p := by
    rw [ht]
    unfold FilePager.journalPage
    split_ifs with hj hle he
    · refine ⟨.refl _, .inl hj, (mapPage_data ?_).trans hdata⟩
      exact fun _ => rfl
    · have h := Logs.main (a := a) (b := s.books) hp hj hle
      rw [← hdata] at h
      refine ⟨h, .inl List.mem_cons_self, (mapPage_data ?_).trans ((mapPage_data ?_).trans hdata)⟩
      · exact fun _ => rfl
      · exact fun _ => rfl
    · refine ⟨.refl _, .inr (Nat.lt_of_not_le hle), (mapPage_data ?_).trans ((mapPage_data ?_).trans hdata)⟩
      · exact fun _ => rfl
      · exact fun _ => rfl
    · refine ⟨.refl _, .inr (Nat.lt_of_not_le hle), (mapPage_data ?_).trans hdata⟩
      exact fun _ => rfl
  unfold FilePager.makeWritable
  simp only [← ht]
  exact ht1.1.trans (subjournalPageIfRequired_logs hp ht1.2.1 ht1.2.2)

/-- The journal stays as it is, or is opened. -/
def HdrKept (s s' : FilePager) : Prop :=
  (s'.journalHdr = s.journalHdr ∧ s'.isOpenJfd = s.isOpenJfd) ∧ s'.eState = s.eState ∨
    s.eState = .locked ∧ s'.journalHdr = 0 ∧ s'.isOpenJfd = true

theorem makeWritable_kept : ((s.makeWritable p).journalHdr = s.journalHdr ∧
    (s.makeWritable p).isOpenJfd = s.isOpenJfd) ∧ (s.makeWritable p).eState = s.eState := by
  obtain ⟨b, jfd, J, ss, l, he, -⟩ := makeWritable_spec (s := s) (p := p)
  rw [he]
  exact ⟨⟨rfl, rfl⟩, rfl⟩

theorem Sound.pagerWrite_logs (h : Sound k G x s) (hc : s.cache p = some c) :
    Logs s.dbOrigSize s.content (· = p) s.books (s.pagerWrite p).books ∧ HdrKept s (s.pagerWrite p) := by
  by_cases hl : s.eState = .locked
  · obtain ⟨-, hj, hm, -⟩ := h.quiet hl
    have hb : s.pagerOpenJournal.books = s.books := by simp [books, pagerOpenJournal, hj, hm]
    have hopen : s.pagerOpenJournal.eState ≠ .locked := PagerState.noConfusion
    have hlogs := makeWritable_logs (s := s.pagerOpenJournal) (P := (· = p)) hc rfl (content_of_some hc).symm
    rw [pagerWrite_locked hl, pagerWrite_eq hopen]
    rw [hb] at hlogs
    exact ⟨hlogs, .inr ⟨hl, makeWritable_kept.1⟩⟩
  · rw [pagerWrite_eq hl]
    exact ⟨makeWritable_logs hc rfl (content_of_some hc).symm, .inl makeWritable_kept⟩

/-- The savepoints of a run are about images that were no larger than this one is. -/
def SavedIn (s : FilePager) : Prop := ∀ n ∈ s.savepoints.map (·.nOrig), n ≤ s.dbSize

theorem SavedIn.congr_content {t : FilePager} (hs : SavedIn s) (ho : s.dbOrigSize ≤ s.dbSize)
    (hc : ∀ q, q ≤ s.dbSize → t.content q = s.content q)
    (h : Logs N t.content P s.books b) (hN : N = s.dbOrigSize) : Logs N s.content P s.books b :=
  h.congr (fun q hq => hc q ((hq.trans_eq hN).trans ho)) fun n hn q hq => hc q (hq.trans (hs n hn))

theorem getPage_books : (s.getPage p).books = s.books := by
  obtain ⟨cache, v, he⟩ := s.getPage_frame (p := p)
  rw [he]
  rfl

theorem SavedIn.logged (hs : SavedIn s) (h : Logs N a P s.books s'.books) (hn : s.dbSize ≤ s'.dbSize) :
    SavedIn s' := fun n hm => (hs n (h.nOrig ▸ hm)).trans hn

theorem HdrKept.trans {l : List ℕ} {s₁ : FilePager} (h : HdrKept s s₁) (hJ : Journals l s s₁)
    (h' : HdrKept s₁ s') : HdrKept s s' := by
  rcases h' with h' | ⟨hl, h'⟩
  · exact h.imp (fun h => ⟨⟨h'.1.1.trans h.1.1, h'.1.2.trans h.1.2⟩, h'.2.trans h.2⟩) fun h =>
      ⟨h.1, h'.1.1.trans h.2.1, h'.1.2.trans h.2.2⟩
  · refine .inr ⟨?_, h'⟩
    exact hJ.eState.elim (fun he => he.symm.trans hl) fun he => he.1

theorem Sound.getWrite_logs (h : Sound k G x s) (hv : k.Valid p) (hs : SavedIn s) (ho : s.dbOrigSize ≤ s.dbSize) :
    Logs s.dbOrigSize s.content (· = p) s.books ((s.getPage p).pagerWrite p).books ∧
      HdrKept s ((s.getPage p).pagerWrite p) := by
  obtain ⟨c, hc⟩ := s.exists_getPage (p := p)
  obtain ⟨cache, v, he⟩ := s.getPage_frame (p := p)
  obtain ⟨hlogs, hhdr⟩ := (h.getPage hv).pagerWrite_logs hc
  have hN : (s.getPage p).dbOrigSize = s.dbOrigSize := by rw [he]
  rw [getPage_books, hN] at hlogs
  refine ⟨hs.congr_content ho (fun q _ => s.getPage_content) hlogs rfl, ?_⟩
  rwa [HdrKept, he] at hhdr ⊢

/-- The loop over the pages of a sector logs such pages of it as are dirty then. -/
theorem Sound.journalSector_logs {m : ℕ} : ∀ {pgs : List ℕ} {s : FilePager} {G : Set ℕ} {f : Bool},
    Sound k G x s → SavedIn s → s.dbOrigSize ≤ s.dbSize → pgs.Nodup → (∀ q ∈ pgs, 0 < q) →
    Logs s.dbOrigSize s.content (fun q => q ∈ pgs ∧ q ∈ (FilePager.journalSector k m pgs s f).1.pDirty) s.books
        (FilePager.journalSector k m pgs s f).1.books ∧ HdrKept s (FilePager.journalSector k m pgs s f).1
  | [], s, G, f, _, _, _, _, _ => ⟨.refl _, .inl ⟨⟨rfl, rfl⟩, rfl⟩⟩
  | pg :: pgs, s, G, f, h, hs, ho, hnd, hpos => by
    obtain ⟨-, hnd⟩ := List.nodup_cons.1 hnd
    have hpos' := fun q hq => hpos q (List.mem_cons_of_mem _ hq)
    unfold FilePager.journalSector
    split_ifs with hw hsj
    · have hv : k.Valid pg := ⟨hpos pg List.mem_cons_self, hsj⟩
      have hJ := h.journals hv
      obtain ⟨hlogs, hhdr⟩ := h.getWrite_logs hv hs ho
      obtain ⟨t, ht⟩ : ∃ t, t = (s.getPage pg).pagerWrite pg := ⟨_, rfl⟩
      have hd : pg ∈ t.pDirty := ht ▸ ((h.getPage hv).pageWritten.dirty pg).2 (.inl rfl)
      rw [← ht] at hJ hlogs hhdr
      have h1 := h.getWrite hv
      rw [← ht] at h1
      have hs1 := hs.logged hlogs hJ.dbSize
      have ho1 : t.dbOrigSize ≤ t.dbSize := hJ.dbOrigSize.trans_le (ho.trans hJ.dbSize)
      obtain ⟨s', b, hr, -, hJ', -⟩ := h1.journalSector (m := m) (f := f || t.has (·.needSync) pg) hnd hpos'
      obtain ⟨hlogs', hhdr'⟩ := Sound.journalSector_logs (m := m) (f := f || t.has (·.needSync) pg) h1 hs1 ho1
        hnd hpos'
      simp only [← ht]
      rw [hr] at hlogs' hhdr' ⊢
      rw [hJ.dbOrigSize] at hlogs'
      refine ⟨.trans (hlogs.mono fun q hq => ?_) ((hlogs'.mono fun q hq => ?_).congr (fun q hq => ?_) fun n hn q hq => ?_),
        hhdr.trans hJ hhdr'⟩
      · exact ⟨List.mem_cons.2 (.inl hq), hJ'.keepsDirty q (hq ▸ hd)⟩
      · exact ⟨List.mem_cons_of_mem _ hq.1, hq.2⟩
      · exact hJ.content q (hq.trans ho)
      · exact hJ.content q (hq.trans (hs n (hlogs.nOrig ▸ hn)))
    · obtain ⟨hlogs, hhdr⟩ := Sound.journalSector_logs (m := m) (f := f) h hs ho hnd hpos'
      exact ⟨hlogs.mono fun q hq => ⟨List.mem_cons_of_mem _ hq.1, hq.2⟩, hhdr⟩
    · obtain ⟨hlogs, hhdr⟩ := Sound.journalSector_logs (m := m) (f := f || s.has (·.needSync) pg) h hs ho hnd hpos'
      exact ⟨hlogs.mono fun q hq => ⟨List.mem_cons_of_mem _ hq.1, hq.2⟩, hhdr⟩

/-- What `sqlite3PagerWrite` logs, of pages in the sector that are dirty then. -/
theorem Sound.write_logs (h : Sound k G x s) (hc : ∃ c, s.cache p = some c) (hs : SavedIn s)
    (ho : s.dbOrigSize ≤ s.dbSize) :
    Logs s.dbOrigSize s.content (fun q => SameSector k q p ∧ q ∈ (s.sqlite3PagerWrite k p).pDirty) s.books
        (s.sqlite3PagerWrite k p).books ∧ HdrKept s (s.sqlite3PagerWrite k p) := by
  obtain ⟨c, hc⟩ := hc
  have hv := h.valid p c hc
  unfold FilePager.sqlite3PagerWrite
  split_ifs with hw hk
  · obtain ⟨b, hb, hbw⟩ := has_iff.1 hw.1
    obtain ⟨hd, -, hj⟩ := h.writeable p b hb hbw
    obtain ⟨ss, l, he⟩ := s.subjournalPageIfRequired_frame (p := p)
    refine ⟨subjournalPageIfRequired_logs ⟨.inl rfl, ?_⟩ ?_ ?_, .inl ?_⟩
    · rw [he]
      exact hd
    · exact (Nat.lt_or_ge s.dbOrigSize p).symm.imp_left hj
    · rw [data_of_some hc, content_of_some hc]
    · rw [he]
      exact ⟨⟨rfl, rfl⟩, rfl⟩
  · have hmem := fun {q} hq => mem_sectorRange (s := s) (q := q) hk hv.1 hq
    have hpos : ∀ q ∈ sectorRange k s p, 0 < q := fun q hq => by
      have := (List.mem_range'_1.1 hq).1
      simp only [sectorStart] at this
      omega
    have hnd : (sectorRange k s p).Nodup := List.nodup_range'
    have hlogs := h.journalSector_logs (m := p) (f := false) hs ho hnd hpos
    obtain ⟨r, hr⟩ : ∃ r, r = FilePager.journalSector k p (sectorRange k s p) s false := ⟨_, rfl⟩
    have he : s.pagerWriteLargeSector k p =
        if r.2 = true then r.1.flagSync (sectorStart k p) (s.sectorPages k p) else r.1 := by
      rw [hr]
      rfl
    rw [← hr] at hlogs
    have hsame : ∀ q, q ∈ sectorRange k s p ∧ q ∈ r.1.pDirty → SameSector k q p ∧ q ∈ r.1.pDirty :=
      fun q hq => ⟨((hmem (hpos q hq.1)).1 hq.1).1, hq.2⟩
    rw [he]
    split_ifs
    · exact ⟨hlogs.1.mono hsame, hlogs.2⟩
    · exact ⟨hlogs.1.mono hsame, hlogs.2⟩
  · obtain ⟨hlogs, hhdr⟩ := h.pagerWrite_logs hc
    refine ⟨hlogs.mono fun q hq => ⟨.inl hq, ?_⟩, hhdr⟩
    exact (h.pageWritten.dirty q).2 (.inl hq)

end Btreelite.FilePager
