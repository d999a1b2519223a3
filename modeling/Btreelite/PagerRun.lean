import Btreelite.PagerFileCalls

/-!
# Transactions

The runs of a write transaction up to its commit. A run remembers the pages that the image grew over, by
the write of a later page, while they stood clean in the cache: nothing wrote them. Callers write each
page that they add, so that theirs has none.
-/

namespace Btreelite.FilePager

open Function

variable {k : Settings} {G : Set ℕ} {p q : ℕ} {s s' s₀ : FilePager} {c : CachePage}

/-- A call of a transaction that succeeds, or a commit that ends where it cannot get its lock. -/
inductive Step (k : Settings) : FilePager → FilePager → Prop
  | read {s s' : FilePager} {p : ℕ} (h : s.sqlite3PagerGet k p false = some s') : Step k s s'
  | write {s s' : FilePager} {p : ℕ} {noContent : Bool} (h : s.sqlite3PagerGet k p noContent = some s') :
    Step k s (s'.sqlite3PagerWrite k p)
  | modify {s : FilePager} {p : ℕ} (a : PageImage) (h : s.has (·.writeable) p = true) : Step k s (s.setData p a)
  | dontWrite {s : FilePager} (p : ℕ) : Step k s (s.sqlite3PagerDontWrite p)
  | stress {s : FilePager} {p : ℕ} (h : p ∈ s.pDirty) : Step k s (s.pagerStress k p)
  | evict {s : FilePager} {p : ℕ} (h : p ∉ s.pDirty) : Step k s (s.evict p)
  | exchange {s : FilePager} {a b : ℕ} (hab : a ≠ b) (ha : s.has (·.writeable) a = true)
    (hb : s.has (·.writeable) b = true) : Step k s (s.exchange k a b)
  | openSavepoint {s : FilePager} (n : ℕ) : Step k s (s.openSavepoint n)
  | savepoint {s : FilePager} (o : Pager.SavepointOp) (i : Option ℕ) : Step k s (s.sqlite3PagerSavepoint k o i)
  | busy {s : FilePager} (h : s.eState ≠ .locked) : Step k s (s.pagerIncrChangecounter k)

/-- After `sqlite3PagerBegin`, where the cache agrees with the file. -/
structure Begun (k : Settings) (s : FilePager) : Prop where
  locked : s.eState = .locked
  dbOrigSize : s.dbOrigSize = s.dbSize
  dbFileSize : s.dbFileSize = s.dbSize
  fileSize : s.fileSize = s.dbSize
  beyond : ∀ p, s.dbSize < p → s.file p = 0
  pDirty : s.pDirty = []
  savepoints : s.savepoints = []
  sjfd : s.sjfd = []
  jfd : s.jfd = []
  pInJournal : s.pInJournal = []
  cache : ∀ p c, s.cache p = some c → k.Valid p ∧ c.needSync = false ∧ c.writeable = false ∧
    (p ≤ s.dbSize → c.dontWrite = false → c.data = s.file p)

/-- The page stands in the cache and is not dirty. -/
def StandsClean (s : FilePager) (p : ℕ) : Prop := (∃ c, s.cache p = some c) ∧ p ∉ s.pDirty

/-- A transaction up to some call, with the pages that the image grew over and that stand clean in the
cache ever since. -/
inductive Run (k : Settings) (s₀ : FilePager) : FilePager → Set ℕ → Prop
  | start : Run k s₀ s₀ ∅
  | step {s s' : FilePager} {G : Set ℕ} (h : Run k s₀ s G) (hs : Step k s s') :
    Run k s₀ s' {p | p ∈ G ∪ grown s s' ∧ StandsClean s' p}

/-! ## Runs -/

theorem Begun.consistent (h : Begun k s) : Consistent k ∅ s where
  sound :=
    { live := .inl h.locked
      size := h.fileSize.trans h.dbFileSize.symm
      beyond := fun p hp => h.beyond p (h.fileSize ▸ hp)
      savedLe := by simp [h.savepoints]
      valid := fun p c hc => (h.cache p c hc).1
      cached := by simp [h.pDirty]
      clean := fun p c hc hle _ hw _ => (h.cache p c hc).2.2.2 hle hw
      needSync := fun p c hc hn => by simp [(h.cache p c hc).2.1] at hn
      writeable := fun p c hc hw => by simp [(h.cache p c hc).2.2.1] at hw
      recorded := by simp [h.pInJournal, h.sjfd]
      mainIn := by simp [h.jfd]
      subIn := by simp [h.sjfd]
      unsynced := by simp [h.jfd]
      quiet := fun _ => ⟨h.pDirty, h.pInJournal, h.jfd, h.sjfd⟩
      inJournal := by simp [h.pInJournal] }
  together :=
    { whole := by simp [h.pInJournal]
      waits := fun p hp => by
        obtain ⟨c, hc, hn⟩ := has_iff.1 hp
        simp [(h.cache p c hc).2.1] at hn }
  origLe := h.dbOrigSize.le

theorem Consistent.mono (h : Consistent k G s) {G' : Set ℕ} (hG : G ⊆ G') : Consistent k G' s :=
  ⟨h.sound.mono hG, h.together, h.origLe⟩

/-- Of the excepted pages only those count that stand clean in the cache. -/
theorem Consistent.restrict (h : Consistent k G s) : Consistent k {p | p ∈ G ∧ StandsClean s p} s :=
  ⟨{ h.sound with clean := fun q c hc hle hd hw hg =>
      h.sound.clean q c hc hle hd hw fun hq => hg ⟨hq, ⟨c, hc⟩, hd⟩ }, h.together, h.origLe⟩

theorem Consistent.getPage (h : Consistent k G s) (hv : k.Valid p) : Consistent k G (s.getPage p) := by
  obtain ⟨cache, v, he⟩ := s.getPage_frame (p := p)
  refine ⟨h.sound.getPage hv, h.together.congr h.sound ?_ ?_ fun q => getPage_has (fun _ => rfl) s, ?_⟩
  · rw [he]
  · rw [he]
  · rw [he]
    exact h.origLe

theorem Prepares.origLe (h : Prepares p s s') (ho : s.dbOrigSize ≤ s.dbSize) : s'.dbOrigSize ≤ s'.dbSize := by
  rw [h.dbOrigSize, h.dbSize]
  exact ho.trans (Nat.le_max_left _ _)

theorem Sound.settleDirty {x : ℕ} (h : Sound k G x s) {G' : Set ℕ} (hG : G ⊆ G' ∪ {p}) (hp : p ∈ s.pDirty) :
    Sound k G' x s :=
  { h with clean := fun q c hc hle hd hw hg => h.clean q c hc hle hd hw fun hq =>
      (hG hq).elim hg fun hq => hd (hq ▸ hp) }

theorem Consistent.write (h : Consistent k G s) {noContent : Bool} {t : FilePager}
    (ht : s.sqlite3PagerGet k p noContent = some t) :
    Consistent k (G ∪ grown s (t.sqlite3PagerWrite k p)) (t.sqlite3PagerWrite k p)
      ∧ p ∈ (t.sqlite3PagerWrite k p).pDirty := by
  unfold sqlite3PagerGet at ht
  split_ifs at ht with hbad hno
  · rw [not_or] at hbad
    obtain rfl := Option.some.inj ht
    have hv : k.Valid p := ⟨Nat.pos_of_ne_zero hbad.1, hbad.2⟩
    have hc : ∃ c, (s.getNoContent p).cache p = some c := ⟨_, getNoContent_eq_some.2 (.inr ⟨rfl, rfl⟩)⟩
    obtain ⟨h1, ht1, hP⟩ := (h.sound.getNoContent hv).sqlite3PagerWrite (h.together.getNoContent h.sound)
      (.inr rfl) hc
    refine ⟨⟨h1.settleDirty (p := p) (fun q hq => ?_) hP.dirty, ht1 h.origLe, hP.origLe h.origLe⟩, hP.dirty⟩
    rcases hq with (hq | hq) | hq
    · exact .inl (.inl hq)
    · exact .inr hq
    · exact .inl (.inr hq)
  · rw [not_or] at hbad
    obtain rfl := Option.some.inj ht
    have hv : k.Valid p := ⟨Nat.pos_of_ne_zero hbad.1, hbad.2⟩
    have h1 := h.getPage hv
    obtain ⟨h2, ht2, hP⟩ := h1.sound.sqlite3PagerWrite h1.together (.inl rfl) s.exists_getPage
    refine ⟨⟨h2.mono (Set.union_subset_union_right _ fun q hq => ?_), ht2 h1.origLe, hP.origLe h1.origLe⟩,
      hP.dirty⟩
    obtain ⟨cache, v, he⟩ := s.getPage_frame (p := p)
    refine ⟨?_, hq.2⟩
    have := hq.1
    rwa [he] at this

/-- Only the counter of page 1 may have changed in what reads return. -/
structure Stamped (s s' : FilePager) : Prop where
  begun : s.eState ≠ .locked → s'.eState ≠ .locked
  dbOrigSize : s'.dbOrigSize = s.dbOrigSize
  dbSize : s'.dbSize = s.dbSize
  file : s'.file = s.file
  fileSize : s'.fileSize = s.fileSize
  dbFileSize : s'.dbFileSize = s.dbFileSize
  content : ∀ q j, q ≤ s.dbSize → q ≠ 1 ∨ ¬ PageImage.Counter j → s'.content q j = s.content q j
  dontWrite : ∀ q, s'.has (·.dontWrite) q = true → s.has (·.dontWrite) q = true

theorem stamp_other {a : PageImage} {v w j : ℕ} (hj : ¬ PageImage.Counter j) :
    ((a.put32bits 24 v).put32bits 92 v).put32bits 96 w j = a j := by
  simp only [PageImage.Counter] at hj
  simp only [PageImage.put32bits]
  split_ifs <;> first | rfl | omega

theorem changecounter_content (hc : s.cache 1 = some c) {j : ℕ} (hq : q ≤ s.dbSize)
    (hj : q ≠ 1 ∨ ¬ PageImage.Counter j) : s.pagerWriteChangecounter.content q j = s.content q j := by
  by_cases hq1 : q = 1
  · subst hq1
    rw [content_of_some hc, pagerWriteChangecounter,
      content_of_some (mapPage_eq_some.2 (.inr ⟨rfl, c, hc, rfl⟩))]
    exact stamp_other (hj.resolve_left fun h => h rfl)
  · have he : s.pagerWriteChangecounter.cache q = s.cache q := by
      simp [pagerWriteChangecounter, FilePager.mapPage, hq1]
    exact congrFun (content_congr he rfl hq hq) j

theorem changecounter_has {flag : CachePage → Bool} (hf : ∀ c a, flag { c with data := a } = flag c) :
    s.pagerWriteChangecounter.has flag q = s.has flag q := mapPage_has fun c => hf c _

theorem Sound.incrChangecounter (h : Sound k G 0 s) (ht : Together k 0 s) :
    Sound k G 0 (s.pagerIncrChangecounter k) ∧
      (s.dbOrigSize ≤ s.dbSize → Together k 0 (s.pagerIncrChangecounter k)) ∧
      Stamped s (s.pagerIncrChangecounter k) := by
  unfold pagerIncrChangecounter
  split_ifs with hd
  · have hv : k.Valid 1 := ⟨one_pos, k.one_lt_sjPgno.ne⟩
    obtain ⟨cache, v, he⟩ := s.getPage_frame (p := 1)
    have hg := h.getPage hv
    have htg : Together k 0 (s.getPage 1) := ht.congr h (by rw [he]) (by rw [he]) fun q =>
      getPage_has (fun _ => rfl) s
    obtain ⟨h1, ht1, hP⟩ := hg.sqlite3PagerWrite htg (.inl rfl) s.exists_getPage
    have hs : (s.getPage 1).dbSize = s.dbSize := by rw [he]
    have hsize : ((s.getPage 1).sqlite3PagerWrite k 1).dbSize = s.dbSize := by
      rw [hP.dbSize, hs]
      exact Nat.max_eq_left hd.2
    have h2 : Sound k G 0 ((s.getPage 1).sqlite3PagerWrite k 1) := h1.mono <|
      Set.union_subset le_rfl fun q hq => absurd (hq.1.trans_le hq.2) (by rw [hs, hsize]; exact lt_irrefl _)
    have h3 : Sound k G 0 ((s.getPage 1).sqlite3PagerWrite k 1).pagerWriteChangecounter :=
      h2.mapPage hP.dirty (fun _ hn => hn) fun c hc hw => (h2.writeable 1 c hc hw).2
    have horig : ((s.getPage 1).sqlite3PagerWrite k 1).dbOrigSize = s.dbOrigSize :=
      hP.dbOrigSize.trans (by rw [he])
    refine ⟨{ h3 with }, fun ho => ?_, fun _ => h3.ne_locked hP.dirty, horig, hsize,
      hP.file.trans (by rw [he]), hP.fileSize.trans (by rw [he]), hP.dbFileSize.trans (by rw [he]),
      fun q j hq hj => ?_, fun q hq => ?_⟩
    · exact (ht1 (by rw [he]; exact ho)).congr h2 rfl rfl fun q => changecounter_has fun _ _ => rfl
    · obtain ⟨c, hc⟩ := h2.cached 1 hP.dirty
      rw [← getPage_content s (p := 1), ← hP.content q (hs ▸ hq)]
      exact changecounter_content hc (hsize ▸ hq) hj
    · have hq' : ((s.getPage 1).sqlite3PagerWrite k 1).has (·.dontWrite) q = true :=
        (changecounter_has fun _ _ => rfl).symm.trans hq
      exact (getPage_has (fun _ => rfl) s).symm.trans (hP.dontWrite q hq')
  · exact ⟨h, fun _ => ht, id, rfl, rfl, rfl, rfl, rfl, fun _ _ _ _ => rfl, fun _ => id⟩

theorem writePage_sizes : (s.writePage p).dbOrigSize = s.dbOrigSize ∧ (s.writePage p).dbSize = s.dbSize ∧
    (s.writePage p).eState = s.eState := by
  unfold writePage
  split_ifs <;> exact ⟨rfl, rfl, rfl⟩

theorem pagerStress_sizes :
    (s.pagerStress k p).dbOrigSize = s.dbOrigSize ∧ (s.pagerStress k p).dbSize = s.dbSize := by
  unfold pagerStress
  split_ifs <;> exact ⟨writePage_sizes.1, writePage_sizes.2.1⟩

theorem pagerStress_begun (h : s.eState ≠ .locked) : (s.pagerStress k p).eState ≠ .locked := by
  have he : ∀ t : FilePager, ((t.pagerWritePagelist [p]).makeClean p).eState = t.eState := fun _ =>
    writePage_sizes.2.2
  unfold pagerStress
  split_ifs
  · rw [he]
    exact PagerState.noConfusion
  · rw [he]
    exact h

theorem exchange_sizes {a b : ℕ} : (s.exchange k a b).dbOrigSize = s.dbOrigSize ∧
    (s.exchange k a b).dbSize = s.dbSize ∧ (s.exchange k a b).eState = s.eState := by
  unfold exchange
  split <;> exact ⟨rfl, rfl, rfl⟩

theorem Consistent.step (h : Consistent k G s) (hs : Step k s s') : Consistent k (G ∪ grown s s') s' := by
  have hstay : ∀ {s' : FilePager}, Consistent k G s' → Consistent k (G ∪ grown s s') s' := fun h' =>
    h'.mono Set.subset_union_left
  cases hs with
  | read hp =>
    simp only [sqlite3PagerGet, Bool.false_eq_true, if_false] at hp
    split_ifs at hp with hbad
    rw [not_or] at hbad
    obtain rfl := Option.some.inj hp
    exact hstay (h.getPage ⟨Nat.pos_of_ne_zero hbad.1, hbad.2⟩)
  | write hp => exact (h.write hp).1
  | modify a hp =>
    obtain ⟨c, hc, hw⟩ := has_iff.1 hp
    have hd := (h.sound.writeable _ c hc hw).1
    exact hstay ⟨h.sound.setData hd a,
      h.together.congr h.sound rfl rfl fun q => setData_has fun _ _ => rfl, h.origLe⟩
  | dontWrite p =>
    refine hstay ⟨h.sound.dontWrite, h.together.congr h.sound ?_ ?_ fun q => ?_, ?_⟩ <;>
      unfold sqlite3PagerDontWrite <;> split_ifs
    · rfl
    · rfl
    · rfl
    · rfl
    · exact mapPage_has fun _ => rfl
    · rfl
    · exact h.origLe
    · exact h.origLe
  | stress hp =>
    obtain ⟨h1, ht1⟩ := h.sound.pagerStress h.together hp
    exact hstay ⟨h1, ht1, pagerStress_sizes.1.symm ▸ pagerStress_sizes.2.symm ▸ h.origLe⟩
  | evict hp => exact hstay ⟨h.sound.evict hp, h.together.evict h.sound hp, h.origLe⟩
  | exchange hab ha hb =>
    obtain ⟨h1, ht1⟩ := h.sound.exchange h.together hab ha hb
    exact hstay ⟨h1, ht1, exchange_sizes.1.symm ▸ exchange_sizes.2.1.symm ▸ h.origLe⟩
  | openSavepoint n =>
    exact hstay ⟨h.sound.openSavepoint h.origLe n, h.together.congr h.sound rfl rfl fun _ => rfl, h.origLe⟩
  | savepoint o i => exact h.savepoint o i
  | busy hl =>
    obtain ⟨h1, ht1, hS⟩ := h.sound.incrChangecounter h.together
    exact hstay ⟨h1, ht1 h.origLe, by rw [hS.dbOrigSize, hS.dbSize]; exact h.origLe⟩

/-- What holds between the calls of every run. -/
theorem Run.consistent (h₀ : Begun k s₀) (hr : Run k s₀ s G) : Consistent k G s := by
  induction hr with
  | start => exact h₀.consistent
  | step _ hs ih => exact (ih.step hs).restrict

/-! ## Before the first write -/

/-- Nothing has moved while the journal is not open. -/
def Idle (s : FilePager) : Prop := s.eState = .locked → s.dbSize = s.dbOrigSize ∧
  s.dbFileSize = s.dbOrigSize ∧ ∀ sp ∈ s.savepoints, sp.nOrig = s.dbOrigSize

theorem Idle.congr (h : Idle s) (he : s'.eState = s.eState) (ho : s'.dbOrigSize = s.dbOrigSize)
    (hs : s'.dbSize = s.dbSize) (hf : s'.dbFileSize = s.dbFileSize) (hsp : s'.savepoints ⊆ s.savepoints) :
    Idle s' := fun hl => by
  obtain ⟨h1, h2, h3⟩ := h (he ▸ hl)
  rw [ho, hs, hf]
  exact ⟨h1, h2, fun sp hm => h3 sp (hsp hm)⟩

theorem mainRecords_nil {i : ℕ} (h : s.jfd = []) : s.mainRecords i = [] := by simp [mainRecords, h]

theorem subRecords_nil {i : ℕ} (h : s.sjfd = []) : s.subRecords i = [] := by simp [subRecords, h]

theorem Idle.playbackSavepoint (h : Idle s) (hq : Sound k G 0 s) {sp : Option Savepoint}
    (hsp : ∀ sp', sp = some sp' → s.eState = .locked → sp'.nOrig = s.dbOrigSize)
    (he : (s.pagerPlaybackSavepoint k sp).eState = s.eState) :
    Idle (s.pagerPlaybackSavepoint k sp) := fun hl => by
  have hl' := he ▸ hl
  obtain ⟨-, -, hm, hj⟩ := hq.quiet hl'
  obtain ⟨-, h2, h3⟩ := h hl'
  cases sp with
  | none =>
    rw [pagerPlaybackSavepoint, mainRecords_nil hm, playback]
    exact ⟨rfl, h2, h3⟩
  | some sp =>
    rw [pagerPlaybackSavepoint, mainRecords_nil hm, subRecords_nil hj, List.nil_append, playback]
    exact ⟨hsp sp rfl hl', h2, h3⟩

theorem Idle.savepoint (h : Idle s) (hC : Consistent k G s) (o : Pager.SavepointOp) (i : Option ℕ) :
    Idle (s.sqlite3PagerSavepoint k o i) := by
  obtain ⟨hS, ht, -⟩ := hC
  have htake : ∀ {l}, l ⊆ s.savepoints → Idle { s with savepoints := l } := fun hl => h.congr rfl rfl rfl rfl hl
  unfold sqlite3PagerSavepoint
  rcases o with _ | _ <;> rcases i with _ | i <;> simp only
  · exact h
  · split
    · exact h
    · exact h.congr rfl rfl rfl rfl (List.take_subset _ _)
  · split_ifs
    · have h1 := hS.takeSavepoints (List.nil_subset _)
      obtain ⟨-, -, -, he⟩ := h1.playbackSavepoint (o := none) (ht.congr hS rfl rfl fun _ => rfl)
        fun sp' hsp => by cases hsp
      exact (htake (List.nil_subset _)).playbackSavepoint h1 (fun sp' hsp => by cases hsp) he
    · exact htake (List.nil_subset _)
  · split
    · exact h
    · rename_i sp _ hsp
      have hm : sp ∈ s.savepoints := List.mem_of_mem_drop (i := i) (hsp ▸ List.mem_cons_self)
      have h1 := hS.takeSavepoints (List.take_subset (i + 1) s.savepoints)
      split_ifs
      · obtain ⟨-, -, -, he⟩ := h1.playbackSavepoint (o := some sp) (ht.congr hS rfl rfl fun _ => rfl)
          fun sp' hsp' => by
            obtain rfl := Option.some.inj hsp'
            exact hS.savedLe sp hm
        refine (htake (List.take_subset (i + 1) s.savepoints)).playbackSavepoint h1 (fun sp' hsp' hl => ?_) he
        obtain rfl := Option.some.inj hsp'
        exact (h hl).2.2 sp hm
      · exact htake (List.take_subset _ _)

theorem Idle.step (h : Idle s) (hC : Consistent k G s) (hs : Step k s s') : Idle s' := by
  cases hs with
  | read hp =>
    simp only [sqlite3PagerGet, Bool.false_eq_true, if_false] at hp
    split_ifs at hp with hbad
    obtain rfl := Option.some.inj hp
    obtain ⟨cache, v, he⟩ := s.getPage_frame
    rw [he]
    exact h.congr rfl rfl rfl rfl (List.Subset.refl _)
  | write hp =>
    obtain ⟨hC', hd⟩ := hC.write hp
    exact fun hl => absurd hl (hC'.sound.ne_locked hd)
  | modify a hp => exact h.congr rfl rfl rfl rfl (List.Subset.refl _)
  | dontWrite p =>
    unfold sqlite3PagerDontWrite
    split_ifs
    · exact h.congr rfl rfl rfl rfl (List.Subset.refl _)
    · exact h
  | stress hp => exact fun hl => absurd hl (pagerStress_begun (hC.sound.ne_locked hp))
  | evict hp => exact h.congr rfl rfl rfl rfl (List.Subset.refl _)
  | exchange hab ha hb =>
    obtain ⟨c, hc, hw⟩ := has_iff.1 ha
    have hne := hC.sound.ne_locked (hC.sound.writeable _ c hc hw).1
    exact fun hl => absurd (exchange_sizes.2.2.symm.trans hl) hne
  | openSavepoint n =>
    refine fun hl => ⟨(h hl).1, (h hl).2.1, fun sp hsp => ?_⟩
    rcases List.mem_append.1 hsp with hsp | hsp
    · exact (h hl).2.2 sp hsp
    · rw [List.eq_of_mem_replicate hsp]
      exact (h hl).1
  | savepoint o i => exact h.savepoint hC o i
  | busy hl => exact fun hl' => absurd hl' ((hC.sound.incrChangecounter hC.together).2.2.begun hl)

theorem Run.idle (h₀ : Begun k s₀) (hr : Run k s₀ s G) : Idle s := by
  induction hr with
  | start =>
    refine fun _ => ⟨h₀.dbOrigSize.symm, h₀.dbFileSize.trans h₀.dbOrigSize.symm, fun sp hsp => ?_⟩
    rw [h₀.savepoints] at hsp
    cases hsp
  | step hr hs ih => exact ih.step (hr.consistent h₀) hs

end Btreelite.FilePager
